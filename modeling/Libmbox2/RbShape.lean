import Mathlib.Data.List.Nodup
import Libmbox2.RedBlackTree

/-!
# What the nodes of a tree stand for

`Shape h parent t` says that the nodes of the heap are linked as the tree `t` is, whose
elements name their addresses; `Above` says it of the frames over a hole. A `Focus` is both:
the tree in the hole and the rest of the tree around it, at addresses that are pairwise
different and not the sentinel's. The functions change the heap at the focus
(`Focus.setColor`, `Focus.rotate`), and it moves without changing anything (`focus_fill`).
-/

namespace Libmbox2

open CSem CSem.Exec CSem.RBTree

variable {K V : Type}

/-- What a node holds, and the address where it is. -/
structure RbEntry (K V : Type) where
  addr : ℕ
  key : K
  value : Option V

/-- The pointer to the root of a tree: for a leaf it points to the sentinel. -/
def ptr : RBTree (RbEntry K V) → Ptr
  | nil => rbSentinal
  | node _ _ a _ => some a.addr

/-- A node with the child `p` on side `s` and `q` on the other. -/
def sideNode (s : Side) (c : Color) (a : RbEntry K V) (p q parent : Ptr) : RbNode K V :=
  match s with
  | .left => ⟨some a.key, a.value, c, p, q, parent⟩
  | .right => ⟨some a.key, a.value, c, q, p, parent⟩

section SideNode

variable (s : Side) (c d : Color) (a : RbEntry K V) (p q r parent : Ptr)

@[simp] theorem sideNode_child : (sideNode s c a p q parent).child s = p := by cases s <;> rfl

@[simp] theorem sideNode_child_other : (sideNode s c a p q parent).child s.other = q := by
  cases s <;> rfl

@[simp] theorem sideNode_color : (sideNode s c a p q parent).color = c := by cases s <;> rfl

@[simp] theorem sideNode_key : (sideNode s c a p q parent).key = some a.key := by
  cases s <;> rfl

@[simp] theorem keyOf_sideNode : keyOf (sideNode s c a p q parent) = ok a.key := by
  cases s <;> rfl

@[simp] theorem sideNode_value : (sideNode s c a p q parent).value = a.value := by
  cases s <;> rfl

@[simp] theorem sideNode_parent : (sideNode s c a p q parent).parent = parent := by
  cases s <;> rfl

@[simp] theorem sideNode_setChild :
    (sideNode s c a p q parent).setChild r s = sideNode s c a r q parent := by cases s <;> rfl

@[simp] theorem sideNode_setChild_other :
    (sideNode s c a p q parent).setChild r s.other = sideNode s c a p r parent := by
  cases s <;> rfl

theorem sideNode_setParent :
    { sideNode s c a p q parent with parent := r } = sideNode s c a p q r := by cases s <;> rfl

theorem sideNode_setColor :
    { sideNode s c a p q parent with color := d } = sideNode s d a p q parent := by
  cases s <;> rfl

end SideNode

/-- The nodes of the heap are linked as the tree is. -/
def Shape (h : Heap (RbNode K V)) : Ptr → RBTree (RbEntry K V) → Prop
  | _, nil => True
  | parent, node c l a r =>
    h.get (some a.addr) = some ⟨some a.key, a.value, c, ptr l, ptr r, parent⟩ ∧
      Shape h (some a.addr) l ∧ Shape h (some a.addr) r

/-- The pointer to the node over the hole; over the root there is the sentinel. -/
def parentPtr : List (Frame (RbEntry K V)) → Ptr
  | [] => none
  | f :: _ => some f.elem.addr

/-- The nodes over the hole, in which `p` is, are linked as the frames are. -/
def Above (h : Heap (RbNode K V)) (root : Ptr) : Ptr → List (Frame (RbEntry K V)) → Prop
  | p, [] => root = p
  | p, f :: fs =>
    h.get (some f.elem.addr) =
        some (sideNode f.side f.color f.elem p (ptr f.sib) (parentPtr fs)) ∧
      Shape h (some f.elem.addr) f.sib ∧ Above h root (some f.elem.addr) fs

/-- The addresses of the nodes of a tree. -/
def addrs (t : RBTree (RbEntry K V)) : List ℕ := t.toList.map RbEntry.addr

/-- The addresses around the hole: those of the way up and of the subtrees along it. -/
def frameAddrs (fs : List (Frame (RbEntry K V))) : List ℕ :=
  (before fs ++ after fs).map RbEntry.addr

variable {h h' : Heap (RbNode K V)} {s : Side} {c d : Color} {a b : RbEntry K V}
  {t u v : RBTree (RbEntry K V)} {f : Frame (RbEntry K V)} {fs : List (Frame (RbEntry K V))}
  {root parent p : Ptr} {qs : List ℕ}

@[simp] theorem parentPtr_cons : parentPtr (f :: fs) = some f.elem.addr := rfl

@[simp] theorem ptr_branch : ptr (branch s c t a u) = some a.addr := by cases s <;> rfl

/-- The cells of a node and its subtrees, seen from either side. -/
theorem shape_branch :
    Shape h parent (branch s c t a u) ↔
      h.get (some a.addr) = some (sideNode s c a (ptr t) (ptr u) parent) ∧
        Shape h (some a.addr) t ∧ Shape h (some a.addr) u := by
  cases s
  · exact Iff.rfl
  · exact and_congr_right fun _ => And.comm

/-- The addresses of a node and its subtrees, in some order. -/
theorem addrs_branch : (addrs (branch s c t a u)).Perm (a.addr :: (addrs t ++ addrs u)) := by
  cases s
  · rw [addrs, branch, toList, List.map_append, List.map_cons]
    exact List.perm_middle
  · rw [addrs, branch, toList, List.map_append, List.map_cons]
    exact List.perm_middle.trans (List.perm_append_comm.cons _)

/-- The same for two nodes one below the other, as a rotation needs them. -/
theorem addrs_branch_branch (w : RBTree (RbEntry K V)) (others : List ℕ) :
    (addrs (branch s c t a (branch s d u b w)) ++ others).Perm
      (a.addr :: b.addr :: (addrs t ++ (addrs u ++ (addrs w ++ others)))) := by
  have hin : (addrs t ++ addrs (branch s d u b w)).Perm
      (b.addr :: (addrs t ++ (addrs u ++ addrs w))) :=
    (addrs_branch.append_left _).trans List.perm_middle
  refine (addrs_branch.append_right _).trans (List.Perm.cons _ ?_)
  refine (hin.append_right _).trans ?_
  rw [List.cons_append, List.append_assoc, List.append_assoc]

theorem frameAddrs_cons :
    (frameAddrs (f :: fs)).Perm (f.elem.addr :: (addrs f.sib ++ frameAddrs fs)) := by
  obtain ⟨s, c, a, u⟩ := f
  have hperm : (before (⟨s, c, a, u⟩ :: fs) ++ after (⟨s, c, a, u⟩ :: fs)).Perm
      (a :: (u.toList ++ (before fs ++ after fs))) := by
    cases s
    · simp only [before, after]
      exact List.perm_middle.trans ((List.perm_append_comm_assoc ..).cons a)
    · simp only [before, after, List.append_assoc, List.singleton_append]
      rw [← List.append_assoc]
      refine List.perm_middle.trans (List.Perm.cons a ?_)
      rw [List.append_assoc]
      exact List.perm_append_comm_assoc ..
  have hmap := hperm.map RbEntry.addr
  simp only [List.map_cons, List.map_append] at hmap
  rw [frameAddrs, frameAddrs, addrs, List.map_append, List.map_append]
  exact hmap

/-! ## What is not touched -/

/-- A tree stays in the heap when other cells change. -/
theorem Shape.frame (hoff : h.EqOff qs h') (ht : Shape h parent t) :
    (addrs t).Disjoint qs → Shape h' parent t := by
  induction t generalizing parent with
  | nil => exact fun _ => trivial
  | node c l a r ihl ihr =>
    intro hdisj
    obtain ⟨ha, hl, hr⟩ := ht
    rw [addrs, toList, List.map_append, List.map_cons, List.disjoint_append_left,
      List.disjoint_cons_left] at hdisj
    obtain ⟨hdl, hda, hdr⟩ := hdisj
    exact ⟨(hoff a.addr hda).trans ha, ihl hl hdl, ihr hr hdr⟩

/-- So does what is around a hole. -/
theorem Above.frame (hoff : h.EqOff qs h') (hfs : Above h root p fs) :
    (frameAddrs fs).Disjoint qs → Above h' root p fs := by
  induction fs generalizing p with
  | nil => exact fun _ => hfs
  | cons f fs ih =>
    intro hdisj
    obtain ⟨hf, hsib, hfs⟩ := hfs
    have hd : (f.elem.addr :: (addrs f.sib ++ frameAddrs fs)).Disjoint qs :=
      fun x hx => hdisj (frameAddrs_cons.mem_iff.2 hx)
    rw [List.disjoint_cons_left, List.disjoint_append_left] at hd
    obtain ⟨hdf, hds, hdfs⟩ := hd
    exact ⟨(hoff _ hdf).trans hf, hsib.frame hoff hds, ih hfs hdfs⟩

/-! ## Changing the link to a tree -/

/-- The address of the root is one of the tree's. -/
theorem addr_mem_addrs {l r : RBTree (RbEntry K V)} : a.addr ∈ addrs (node c l a r) :=
  List.mem_map_of_mem (List.mem_append_right _ (List.mem_cons_self ..))

theorem ptr_eq_sentinal (h0 : 0 ∉ addrs t) : ptr t = rbSentinal ↔ t = nil := by
  cases t with
  | nil => exact iff_of_true rfl rfl
  | node c l a r =>
    refine iff_of_false (fun heq => h0 ?_) (by simp)
    have ha : a.addr = 0 := Option.some.inj heq
    rw [← ha]
    exact addr_mem_addrs

/-- A pointer to a tree points to the sentinel or to a node of it. -/
theorem mem_addrs_of_ptr {x : ℕ} (hx : ptr t = some x) : x = 0 ∨ x ∈ addrs t := by
  cases t with
  | nil => exact Or.inl (Option.some.inj hx).symm
  | node c l a r =>
    rw [← Option.some.inj hx]
    exact Or.inr addr_mem_addrs

/-- A tree is hung below another node: the link of its root to the parent changes, if it has a
root. -/
theorem Shape.reparent (ht : Shape h parent t) (hnodup : (addrs t).Nodup) (h0 : 0 ∉ addrs t)
    (q : Ptr) :
    ∃ h', reparent h (ptr t) q = ok h' ∧ Shape h' q t ∧ h.EqOff (addrs t) h' := by
  cases t with
  | nil => exact ⟨h, rfl, trivial, Heap.EqOff.refl _ h⟩
  | node c l a r =>
    have hne : ptr (node c l a r) ≠ rbSentinal := fun heq => by
      cases (ptr_eq_sentinal h0).1 heq
    obtain ⟨ha, hl, hr⟩ := ht
    obtain ⟨h', hrun, ha', hoff⟩ := Heap.modify_at ha fun n => { n with parent := q }
    have hnd := (addrs_branch (s := .left)).nodup_iff.1 hnodup
    rw [List.nodup_cons, List.mem_append, not_or] at hnd
    refine ⟨h', ?_, ⟨ha', hl.frame hoff ?_, hr.frame hoff ?_⟩, hoff.mono ?_⟩
    · rw [Libmbox2.reparent, if_pos hne]
      exact hrun
    · exact List.disjoint_singleton.2 hnd.1.1
    · exact List.disjoint_singleton.2 hnd.1.2
    · exact List.cons_subset.2 ⟨addr_mem_addrs, List.nil_subset _⟩

/-- A link into the hole is changed, in the node over it. -/
theorem Above.setChild (hfs : Above h root p (f :: fs)) (hnodup : (frameAddrs (f :: fs)).Nodup)
    (q : Ptr) :
    ∃ h', setChild h (some f.elem.addr) f.side q = ok h' ∧ Above h' root q (f :: fs) ∧
      h.EqOff (frameAddrs (f :: fs)) h' := by
  obtain ⟨hf, hsib, hfs⟩ := hfs
  have hnd := frameAddrs_cons.nodup_iff.1 hnodup
  rw [List.nodup_cons, List.mem_append, not_or] at hnd
  obtain ⟨h', hrun, hf', hoff⟩ := Heap.modify_at hf fun n => n.setChild q f.side
  refine ⟨h', hrun, ⟨?_, hsib.frame hoff ?_, hfs.frame hoff ?_⟩, hoff.mono ?_⟩
  · rw [hf', sideNode_setChild]
  · exact List.disjoint_singleton.2 hnd.1.1
  · exact List.disjoint_singleton.2 hnd.1.2
  · exact List.cons_subset.2
      ⟨frameAddrs_cons.mem_iff.2 (List.mem_cons_self ..), List.nil_subset _⟩

/-- Another node takes the place of the one in the hole. -/
theorem Above.relink {x : ℕ} (hfs : Above h root (some x) fs) (hnodup : (frameAddrs fs).Nodup)
    (hx : x ∉ frameAddrs fs) (hx0 : x ≠ 0) (s : Side) (q : Ptr) (size : ℕ) :
    ∃ h' root', relink h ⟨root, size⟩ s (parentPtr fs) (some x) q = ok (h', ⟨root', size⟩) ∧
      Above h' root' q fs ∧ h.EqOff (frameAddrs fs) h' := by
  cases fs with
  | nil => exact ⟨h, q, rfl, rfl, Heap.EqOff.refl _ h⟩
  | cons f fs =>
    have hside : (if some x = (sideNode f.side f.color f.elem (some x) (ptr f.sib)
        (parentPtr fs)).child s then s else s.other) = f.side := by
      have hsib0 : some x ≠ ptr f.sib := by
        intro heq
        rcases mem_addrs_of_ptr heq.symm with hzero | hmem
        · exact hx0 hzero
        · exact hx (frameAddrs_cons.mem_iff.2
            (List.mem_cons_of_mem _ (List.mem_append_left _ hmem)))
      rcases Side.eq_or_eq_other s f.side with rfl | rfl
      · rw [sideNode_child, if_pos rfl]
      · rw [sideNode_child_other, if_neg hsib0, Side.other_other]
    obtain ⟨h', hrun, hfs', hoff⟩ := hfs.setChild hnodup q
    refine ⟨h', root, ?_, hfs', hoff⟩
    rw [Libmbox2.relink, parentPtr, if_neg (Option.some_ne_none _), Heap.load_eq hfs.1, ok_bind,
      hside, hrun]
    rfl

/-! ## The focus -/

/-- The nodes are `t` in the hole of `fs`; the sentinel is `snt`. -/
structure Focus (snt : RbNode K V) (h : Heap (RbNode K V)) (root : Ptr)
    (fs : List (Frame (RbEntry K V))) (t : RBTree (RbEntry K V)) : Prop where
  shape : Shape h (parentPtr fs) t
  above : Above h root (ptr t) fs
  nodup : (addrs t ++ frameAddrs fs).Nodup
  zero : 0 ∉ addrs t ++ frameAddrs fs
  sentinal : h.get rbSentinal = some snt

variable {snt : RbNode K V} (size : ℕ)

/-- Filling a hole moves addresses from around it into the tree. -/
theorem fill_perm : (addrs (f.fill t) ++ frameAddrs fs).Perm
    (addrs t ++ frameAddrs (f :: fs)) := by
  refine (addrs_branch.append_right _).trans (List.Perm.symm ?_)
  refine (frameAddrs_cons.append_left _).trans (List.perm_middle.trans ?_)
  rw [← List.append_assoc]
  exact List.Perm.refl _

/-- **The focus moves**: a tree in a hole is looked at together with the node over it. -/
theorem focus_fill : Focus snt h root (f :: fs) t ↔ Focus snt h root fs (f.fill t) := by
  constructor
  · intro hfoc
    obtain ⟨hf, hsib, hfs⟩ := hfoc.above
    refine ⟨shape_branch.2 ⟨hf, hfoc.shape, hsib⟩, ?_, ?_, ?_, hfoc.sentinal⟩
    · rw [Frame.fill, ptr_branch]
      exact hfs
    · exact fill_perm.nodup_iff.2 hfoc.nodup
    · exact fun h0 => hfoc.zero (fill_perm.mem_iff.1 h0)
  · intro hfoc
    obtain ⟨hf, ht, hsib⟩ := shape_branch.1 hfoc.shape
    have habove := hfoc.above
    rw [Frame.fill, ptr_branch] at habove
    refine ⟨ht, ⟨hf, hsib, habove⟩, ?_, ?_, hfoc.sentinal⟩
    · exact fill_perm.nodup_iff.1 hfoc.nodup
    · exact fun h0 => hfoc.zero (fill_perm.mem_iff.2 h0)

namespace Focus

theorem get (hfoc : Focus snt h root fs (branch s c t a u)) :
    h.get (some a.addr) = some (sideNode s c a (ptr t) (ptr u) (parentPtr fs)) :=
  (shape_branch.1 hfoc.shape).1

theorem down (hfoc : Focus snt h root fs (branch s c t a u)) :
    Focus snt h root (⟨s, c, a, u⟩ :: fs) t := focus_fill.2 hfoc

theorem up (hfoc : Focus snt h root (⟨s, c, a, u⟩ :: fs) t) :
    Focus snt h root fs (branch s c t a u) := focus_fill.1 hfoc

/-- The node in the focus, seen from its other side. -/
theorem flip (hfoc : Focus snt h root fs (branch s c t a u)) :
    Focus snt h root fs (branch s.other c u a t) := by
  rw [branch_other]
  exact hfoc

/-- The addresses at the focus are those of a node, of its subtrees and of the frames. -/
theorem nodup_branch (hfoc : Focus snt h root fs (branch s c t a u)) :
    (a.addr :: ((addrs t ++ addrs u) ++ frameAddrs fs)).Nodup :=
  (addrs_branch.append_right _).nodup_iff.1 hfoc.nodup

theorem ptr_eq_sentinal (hfoc : Focus snt h root fs t) : ptr t = rbSentinal ↔ t = nil :=
  Libmbox2.ptr_eq_sentinal fun h0 => hfoc.zero (List.mem_append_left _ h0)

/-- **A node is painted**, and the rest of the tree stays as it is. -/
theorem setColor (hfoc : Focus snt h root fs (branch s c t a u)) (d : Color) :
    ∃ h', setColor h (some a.addr) d = ok h' ∧ Focus snt h' root fs (branch s d t a u) := by
  obtain ⟨ha, ht, hu⟩ := shape_branch.1 hfoc.shape
  obtain ⟨h', hrun, ha', hoff⟩ := Heap.modify_at ha fun n => { n with color := d }
  have hnd := List.nodup_cons.1 hfoc.nodup_branch
  simp only [List.mem_append, not_or] at hnd
  obtain ⟨⟨⟨hat, hau⟩, hafs⟩, _⟩ := hnd
  have haddrs : addrs (branch s d t a u) = addrs (branch s c t a u) := by
    rw [addrs, addrs, toList_color s d c]
  have hmem : a.addr ∈ addrs (branch s c t a u) :=
    addrs_branch.mem_iff.2 (List.mem_cons_self ..)
  refine ⟨h', hrun, shape_branch.2 ⟨?_, ht.frame hoff ?_, hu.frame hoff ?_⟩, ?_, ?_, ?_, ?_⟩
  · rw [ha', sideNode_setColor]
  · exact List.disjoint_singleton.2 hat
  · exact List.disjoint_singleton.2 hau
  · rw [ptr_branch]
    have habove := hfoc.above
    rw [ptr_branch] at habove
    exact habove.frame hoff (List.disjoint_singleton.2 hafs)
  · rw [haddrs]
    exact hfoc.nodup
  · rw [haddrs]
    exact hfoc.zero
  · rw [hoff 0 fun h0 => hfoc.zero ?_]
    · exact hfoc.sentinal
    · rw [List.mem_singleton.1 h0]
      exact List.mem_append_left _ hmem

/-- **A rotation.** The child on side `s.other` comes up; its inner subtree changes hands. -/
theorem rotate {w : RBTree (RbEntry K V)}
    (hfoc : Focus snt h root fs (branch s c t a (branch s d u b w))) :
    ∃ h' root', rbRotate h ⟨root, size⟩ s (some a.addr) = ok (h', ⟨root', size⟩) ∧
      Focus snt h' root' fs (branch s d (branch s c t a u) b w) := by
  obtain ⟨ha, ht, hright⟩ := shape_branch.1 hfoc.shape
  obtain ⟨hb, hu, hw⟩ := shape_branch.1 hright
  have habove := hfoc.above
  rw [ptr_branch] at ha habove
  have hnodup := (addrs_branch_branch w (frameAddrs fs)).nodup_iff.1 hfoc.nodup
  have hzero : 0 ∉ a.addr :: b.addr :: (addrs t ++ (addrs u ++ (addrs w ++ frameAddrs fs))) :=
    fun h0 => hfoc.zero ((addrs_branch_branch w (frameAddrs fs)).mem_iff.2 h0)
  simp only [List.nodup_cons, List.nodup_append', List.mem_cons, List.mem_append, not_or,
    List.disjoint_append_right] at hnodup hzero
  obtain ⟨⟨hab, hat, hau, haw, hafs⟩, ⟨hbt, hbu, hbw, hbfs⟩, _,
    ⟨hund, ⟨_, hfsnd, hwfs⟩, huw, hufs⟩, htu, htw, htfs⟩ := hnodup
  obtain ⟨ha0, hb0, _, hu0, _, hfs0⟩ := hzero
  -- the inner subtree goes below `a`
  obtain ⟨h₁, hrun₁, ha₁, hoff₁⟩ := Heap.modify_at ha fun n => n.setChild (ptr u) s.other
  rw [sideNode_setChild_other] at ha₁
  obtain ⟨h₂, hrun₂, hu₂, hoff₂⟩ :=
    (hu.frame hoff₁ (List.disjoint_singleton.2 hau)).reparent hund hu0 (some a.addr)
  -- `b` goes below the parent of `a`, in place of it
  have hb₂ : h₂.get (some b.addr) = some (sideNode s d b (ptr u) (ptr w) (some a.addr)) := by
    rw [hoff₂ _ hbu, hoff₁ _ (mt List.mem_singleton.1 (Ne.symm hab)), hb]
  obtain ⟨h₃, hrun₃, hb₃, hoff₃⟩ := Heap.modify_at hb₂ fun n => { n with parent := parentPtr fs }
  rw [sideNode_setParent] at hb₃
  have hoff₁₃ : h.EqOff (a.addr :: b.addr :: addrs u) h₃ :=
    ((hoff₁.mono (by simp)).trans (hoff₂.mono (by simp))).trans (hoff₃.mono (by simp))
  have hafs₃ : (frameAddrs fs).Disjoint (a.addr :: b.addr :: addrs u) :=
    List.disjoint_cons_right.2 ⟨hafs, List.disjoint_cons_right.2
      ⟨hbfs, fun _ hx hx' => hufs hx' hx⟩⟩
  obtain ⟨h₄, root', hrun₄, habove₄, hoff₄⟩ :=
    (habove.frame hoff₁₃ hafs₃).relink hfsnd hafs (Ne.symm ha0) s (some b.addr) size
  -- and `a` below `b`
  obtain ⟨h₅, hrun₅, hb₅, hoff₅⟩ :=
    Heap.modify_at ((hoff₄ _ hbfs).trans hb₃) fun n => n.setChild (some a.addr) s
  rw [sideNode_setChild] at hb₅
  have ha₅ : h₅.get (some a.addr) = some (sideNode s c a (ptr t) (ptr u) (parentPtr fs)) := by
    rw [hoff₅ _ (mt List.mem_singleton.1 hab), hoff₄ _ hafs,
      hoff₃ _ (mt List.mem_singleton.1 hab), hoff₂ _ hau, ha₁]
  obtain ⟨h₆, hrun₆, ha₆, hoff₆⟩ :=
    Heap.modify_at ha₅ fun n => { n with parent := some b.addr }
  rw [sideNode_setParent] at ha₆
  have hoff₃₆ : h₂.EqOff (a.addr :: b.addr :: frameAddrs fs) h₆ :=
    (((hoff₃.mono (by simp)).trans (hoff₄.mono fun x hx => by simp [hx])).trans
      (hoff₅.mono (by simp))).trans (hoff₆.mono (by simp))
  have hoff : h.EqOff (a.addr :: b.addr :: (addrs u ++ frameAddrs fs)) h₆ :=
    ((hoff₁.mono (by simp)).trans (hoff₂.mono fun x hx => by simp [hx])).trans
      (hoff₃₆.mono fun x hx => by
        simp only [List.mem_cons, List.mem_append] at hx ⊢
        tauto)
  have haddrs : addrs (branch s d (branch s c t a u) b w) =
      addrs (branch s c t a (branch s d u b w)) := by
    rw [addrs, addrs, toList_rotate s c d d c]
  refine ⟨h₆, root', ?_, shape_branch.2 ⟨?_, shape_branch.2 ⟨?_, ?_, ?_⟩, ?_⟩, ?_, ?_, ?_, ?_⟩
  · simp only [rbRotate, Heap.load_eq ha, ok_bind, sideNode_child_other, Heap.load_eq hb,
      sideNode_child, sideNode_parent, setChild, setParent, hrun₁, hrun₂, hrun₃, hrun₄, hrun₅,
      hrun₆, pure_eq]
  · rw [hoff₆ _ (mt List.mem_singleton.1 (Ne.symm hab)), hb₅, ptr_branch]
  · exact ha₆
  · exact ht.frame hoff (List.disjoint_cons_right.2 ⟨hat, List.disjoint_cons_right.2
      ⟨hbt, List.disjoint_append_right.2 ⟨htu, htfs⟩⟩⟩)
  · exact hu₂.frame hoff₃₆ (List.disjoint_cons_right.2 ⟨hau, List.disjoint_cons_right.2
      ⟨hbu, hufs⟩⟩)
  · exact hw.frame hoff (List.disjoint_cons_right.2 ⟨haw, List.disjoint_cons_right.2
      ⟨hbw, List.disjoint_append_right.2 ⟨fun _ hx hx' => huw hx' hx, hwfs⟩⟩⟩)
  · rw [ptr_branch]
    refine (habove₄.frame hoff₅ ?_).frame hoff₆ ?_
    · exact List.disjoint_singleton.2 hbfs
    · exact List.disjoint_singleton.2 hafs
  · rw [haddrs]
    exact hfoc.nodup
  · rw [haddrs]
    exact hfoc.zero
  · rw [hoff 0 (by simp [ha0, hb0, hu0, hfs0])]
    exact hfoc.sentinal

end Focus

end Libmbox2
