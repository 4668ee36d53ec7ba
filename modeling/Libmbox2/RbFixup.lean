import Libmbox2.RbShape

/-!
# The repair after an insertion (`rbInsertFixup`)

`z` is red and everything but its link to its parent is balanced. If the parent is red, the
grandparent is there and black. A red uncle: the colors move up (`Focus.recolor`) and the
repair goes on at the grandparent. A black one: an inner child becomes an outer one
(`Focus.turn`), then one rotation ends it (`Focus.rotateUp`). Either way there are fewer
nodes over `z` than before.
-/

namespace Libmbox2

open CSem CSem.Exec CSem.RBTree

variable {K V : Type} {snt : RbNode K V} {h : Heap (RbNode K V)} {root : Ptr} (size : ℕ)
  {s s₂ : Side} {c d : Color} {a p g : RbEntry K V} {t u v w : RBTree (RbEntry K V)}
  {fs : List (Frame (RbEntry K V))}

/-! ## Reading around the focus -/

/-- Where there is a node over the hole, the root is one of those around it. -/
theorem Above.root_mem {q : Ptr} {f : Frame (RbEntry K V)} (hfs : Above h root q (f :: fs)) :
    ∃ x ∈ frameAddrs (f :: fs), root = some x := by
  induction fs generalizing q f with
  | nil => exact ⟨f.elem.addr, frameAddrs_cons.mem_iff.2 (List.mem_cons_self ..), hfs.2.2⟩
  | cons f' fs ih =>
    obtain ⟨x, hx, hroot⟩ := ih hfs.2.2
    exact ⟨x, frameAddrs_cons.mem_iff.2
      (List.mem_cons_of_mem _ (List.mem_append_right _ hx)), hroot⟩

namespace Focus

theorem plug (hfoc : Focus snt h root fs t) : Focus snt h root [] (plug fs t) := by
  induction fs generalizing t with
  | nil => exact hfoc
  | cons f fs ih => exact ih (focus_fill.1 hfoc)

/-- A node is the root exactly when nothing is over it. -/
theorem root_eq (hfoc : Focus snt h root fs (branch s c t a u)) :
    some a.addr = root ↔ fs = [] := by
  have habove := hfoc.above
  rw [ptr_branch] at habove
  constructor
  · intro heq
    cases fs with
    | nil => rfl
    | cons f fs =>
      obtain ⟨x, hx, hroot⟩ := habove.root_mem
      have hax : a.addr = x := Option.some.inj (heq.trans hroot)
      have hnd := List.nodup_cons.1 hfoc.nodup_branch
      rw [hax] at hnd
      exact absurd (List.mem_append_right _ hx) hnd.1
  · rintro rfl
    exact habove.symm

theorem load_parent {f : Frame (RbEntry K V)} (hfoc : Focus snt h root (f :: fs) t) :
    h.get (some f.elem.addr) =
      some (sideNode f.side f.color f.elem (ptr t) (ptr f.sib) (parentPtr fs)) :=
  hfoc.above.1

/-- A leaf is as black as the sentinel, so colors can be read off the cells. -/
theorem get_ptr (hfoc : Focus snt h root fs t) (hsnt : snt.color = .black) :
    ∃ node, h.get (ptr t) = some node ∧ node.color = t.color := by
  cases t with
  | nil => exact ⟨snt, hfoc.sentinal, hsnt⟩
  | node c l a r => exact ⟨_, hfoc.get (s := .left), rfl⟩

/-- A node is not its sibling. -/
theorem ptr_ne (hfoc : Focus snt h root (⟨s, c, p, u⟩ :: fs) (branch s₂ d t a v)) :
    some a.addr ≠ ptr u := by
  intro heq
  have hnd := List.nodup_cons.1 hfoc.nodup_branch
  have hfs : ∀ x ∈ addrs u, x ∈ frameAddrs (⟨s, c, p, u⟩ :: fs) := fun x hx =>
    frameAddrs_cons.mem_iff.2 (List.mem_cons_of_mem _ (List.mem_append_left _ hx))
  rcases mem_addrs_of_ptr heq.symm with hzero | hmem
  · refine hfoc.zero (List.mem_append_left _ (addrs_branch.mem_iff.2 ?_))
    rw [hzero]
    exact List.mem_cons_self ..
  · exact hnd.1 (List.mem_append_right _ (hfs _ hmem))

/-! ## What the repair does -/

theorem unflip (hfoc : Focus snt h root fs (branch s.other c u a t)) :
    Focus snt h root fs (branch s c t a u) := by
  rw [branch_other] at hfoc
  exact hfoc

/-- The uncle is red: he and the parent are painted black, the grandparent red. -/
theorem recolor {b : RbEntry K V}
    (hfoc : Focus snt h root (⟨s₂, .red, p, u⟩ :: ⟨s, .black, g, node .red v b w⟩ :: fs) t) :
    ∃ h', rbFixupRecolor h (some b.addr) (some p.addr) (some g.addr) = ok h' ∧
      Focus snt h' root fs
        (branch s .red (branch s₂ .black t p u) g (node .black v b w)) := by
  obtain ⟨h₁, hrun₁, hfoc₁⟩ := setColor (s := .left) hfoc.up.up.flip.down .black
  obtain ⟨h₂, hrun₂, hfoc₂⟩ := hfoc₁.up.unflip.down.setColor .black
  obtain ⟨h₃, hrun₃, hfoc₃⟩ := hfoc₂.up.setColor .red
  refine ⟨h₃, ?_, hfoc₃⟩
  rw [rbFixupRecolor, hrun₁, ok_bind, hrun₂, ok_bind, hrun₃]

/-- An inner child is turned to the outside: parent and child change places. -/
theorem turn (hfoc : Focus snt h root (⟨s.other, c, p, u⟩ :: fs) (branch s d v a w)) :
    ∃ h' root', rbFixupTurn h ⟨root, size⟩ s (some a.addr) (some p.addr) =
        ok (h', ⟨root', size⟩, some p.addr) ∧
      Focus snt h' root' (⟨s, d, a, w⟩ :: fs) (branch s c u p v) := by
  obtain ⟨h', root', hrun, hfoc'⟩ := hfoc.up.unflip.rotate size
  refine ⟨h', root', ?_, hfoc'.down⟩
  rw [rbFixupTurn, Heap.load_eq hfoc.load_parent, ok_bind, sideNode_child, ptr_branch,
    if_pos rfl, hrun]
  rfl

theorem turn_outer (hfoc : Focus snt h root (⟨s, c, p, u⟩ :: fs) (branch s₂ d v a w)) :
    rbFixupTurn h ⟨root, size⟩ s (some a.addr) (some p.addr) =
      ok (h, ⟨root, size⟩, some a.addr) := by
  rw [rbFixupTurn, Heap.load_eq hfoc.load_parent, ok_bind, sideNode_child_other,
    if_neg hfoc.ptr_ne]
  rfl

/-- The grandparent is rotated down, and parent and grandparent exchange their colors. -/
theorem rotateUp
    (hfoc : Focus snt h root (⟨s, c, p, u⟩ :: ⟨s, d, g, v⟩ :: fs) (branch s₂ c t a w)) :
    ∃ h' root', rbFixupRotate h ⟨root, size⟩ s (some a.addr) = ok (h', ⟨root', size⟩) ∧
      Focus snt h' root' (⟨s, .black, p, branch s.other .red v g u⟩ :: fs)
        (branch s₂ c t a w) := by
  obtain ⟨h₁, hrun₁, hfoc₁⟩ := hfoc.up.setColor .black
  obtain ⟨h₂, hrun₂, hfoc₂⟩ := hfoc₁.up.setColor .red
  rw [← branch_other s .black] at hfoc₂
  obtain ⟨h₃, root', hrun₃, hfoc₃⟩ := hfoc₂.flip.rotate size
  refine ⟨h₃, root', ?_, hfoc₃.unflip.down⟩
  have hp := hfoc₁.get
  rw [rbFixupRotate, Heap.load_eq hfoc.get, ok_bind, sideNode_parent, parentPtr, hrun₁, ok_bind,
    Heap.load_eq hp, ok_bind, sideNode_parent, parentPtr, hrun₂, ok_bind, hrun₃]

end Focus

namespace Focus

/-- What the repair reads: the node, its parent and its grandparent, and the color of the
uncle. -/
theorem side_eq (hsnt : snt.color = .black)
    (hfoc : Focus snt h root (⟨s₂, .red, p, u⟩ :: ⟨s, .black, g, v⟩ :: fs)
      (branch .left .red t a w)) :
    rbInsertFixupSide h ⟨root, size⟩ s (some a.addr) =
      if v.color = .red then do
        let h ← rbFixupRecolor h (ptr v) (some p.addr) (some g.addr)
        pure (h, ⟨root, size⟩, some g.addr)
      else (do
        let (h, t, z) ← rbFixupTurn h ⟨root, size⟩ s (some a.addr) (some p.addr)
        let (h, t) ← rbFixupRotate h t s z
        pure (h, t, z)) := by
  obtain ⟨uncle, huncle, hcolor⟩ := hfoc.up.up.flip.down.get_ptr hsnt
  simp only [rbInsertFixupSide, Heap.load_eq hfoc.get, ok_bind, sideNode_parent, parentPtr_cons,
    Heap.load_eq hfoc.load_parent, Heap.load_eq hfoc.up.load_parent, sideNode_child_other,
    Heap.load_eq huncle, hcolor]

end Focus

/-! ## One iteration -/

variable {n : ℕ}

/-- What is known of a red node that is to be repaired: the tree in the hole, and where it
fits. -/
structure Repair (snt : RbNode K V) (h : Heap (RbNode K V)) (root : Ptr)
    (fs : List (Frame (RbEntry K V))) (t : RBTree (RbEntry K V)) (n : ℕ) : Prop where
  focus : Focus snt h root fs t
  balanced : Balanced .red n t
  fits : Fits fs .black n

namespace Repair

/-- A red uncle: the grandparent is to be repaired next. -/
theorem side_red {b : RbEntry K V} (hsnt : snt.color = .black)
    (hrep : Repair snt h root (⟨s₂, .red, p, u⟩ :: ⟨s, .black, g, node .red v b w⟩ :: fs) t n) :
    ∃ h' t', rbInsertFixupSide h ⟨root, size⟩ s (ptr t) = ok (h', ⟨root, size⟩, ptr t') ∧
      Repair snt h' root fs t' (n + 1) ∧
      (plug fs t').toList =
        (plug (⟨s₂, .red, p, u⟩ :: ⟨s, .black, g, node .red v b w⟩ :: fs) t).toList := by
  obtain ⟨hfoc, hbal, hfits⟩ := hrep
  obtain ⟨_, hu, _, _, _, _, d, heq, huncle, hfits'⟩ := hfits.red_inv
  cases heq
  obtain ⟨h', hrun, hfoc'⟩ := hfoc.recolor
  refine ⟨h', _, ?_, ⟨hfoc', ?_, hfits'⟩, ?_⟩
  · cases hbal with
    | @red _ l r a hl hr =>
      refine (hfoc.side_eq size hsnt).trans ?_
      rw [color, if_pos rfl, ptr, hrun, ptr_branch]
      rfl
  · cases huncle with
    | red hv hw => exact (hbal.branch_black s₂ hu).branch_red s (Balanced.black hv hw)
  · refine plug_toList_congr fs ?_
    cases s <;> cases s₂ <;> rfl

/-- A black uncle: the grandparent goes down, and the parent is black afterwards. -/
theorem side_black (hsnt : snt.color = .black)
    (hrep : Repair snt h root (⟨s₂, .red, p, u⟩ :: ⟨s, .black, g, v⟩ :: fs) t n)
    (hv : v.color = .black) :
    ∃ h' root' f t', rbInsertFixupSide h ⟨root, size⟩ s (ptr t) =
        ok (h', ⟨root', size⟩, ptr t') ∧
      Repair snt h' root' (f :: fs) t' n ∧
      (plug (f :: fs) t').toList =
        (plug (⟨s₂, .red, p, u⟩ :: ⟨s, .black, g, v⟩ :: fs) t).toList := by
  obtain ⟨hfoc, hbal, hfits⟩ := hrep
  obtain ⟨_, hu, _, _, _, _, d, heq, huncle, hfits'⟩ := hfits.red_inv
  cases heq
  -- the uncle is black, so the grandparent is turned
  obtain rfl : d = .black := by rw [← huncle.color_eq, hv]
  cases t with
  | nil => cases hbal
  | node c l a r =>
    obtain rfl : c = .red := hbal.color_eq
    have hside := hfoc.side_eq size hsnt
    rw [hv, if_neg (by decide)] at hside
    rcases Side.eq_or_eq_other s₂ s with rfl | rfl
    · -- an outer child
      have houter : Focus snt h root (⟨s₂, .red, p, u⟩ :: ⟨s₂, .black, g, v⟩ :: fs)
          (branch .left .red l a r) := hfoc
      have hturn := houter.turn_outer size
      obtain ⟨h', root', hrun, hfoc'⟩ := houter.rotateUp size
      refine ⟨h', root', _, _, ?_, ⟨hfoc', hbal, Fits.black (huncle.branch_red _ hu) hfits'⟩, ?_⟩
      · simp only [hside, hturn, ok_bind, hrun, pure_eq, ptr]
        rfl
      · refine plug_toList_congr fs ?_
        cases s₂ <;> simp [Frame.fill, branch, toList, Side.other]
    · -- an inner one becomes an outer one
      obtain ⟨x, y, hxy⟩ := exists_branch s .red l a r
      rw [hxy] at hbal hfoc ⊢
      obtain ⟨hx, hy⟩ := hbal.of_branch_red
      obtain ⟨h₁, root₁, hrun₁, hfoc₁⟩ := hfoc.turn size
      obtain ⟨h', root', hrun, hfoc'⟩ := hfoc₁.rotateUp size
      refine ⟨h', root', _, _, ?_, ⟨hfoc', hu.branch_red _ hx,
        Fits.black (huncle.branch_red _ hy) hfits'⟩, ?_⟩
      · simp only [ptr_branch, hside, hrun₁, ok_bind, hrun, pure_eq]
      · refine plug_toList_congr fs ?_
        cases s <;> simp [Frame.fill, branch, toList, Side.other]

/-- **Below a red parent** the repair goes on with fewer nodes above, or the tree is repaired: a red
uncle is recolored, a black one rotated over. -/
theorem side (hsnt : snt.color = .black)
    (hrep : Repair snt h root (⟨s₂, .red, p, u⟩ :: ⟨s, .black, g, v⟩ :: fs) t n) :
    ∃ h' root' fs' t' m, rbInsertFixupSide h ⟨root, size⟩ s (ptr t) =
        ok (h', ⟨root', size⟩, ptr t') ∧
      Repair snt h' root' fs' t' m ∧ fs'.length < fs.length + 2 ∧
      (plug fs' t').toList =
        (plug (⟨s₂, .red, p, u⟩ :: ⟨s, .black, g, v⟩ :: fs) t).toList := by
  cases hv : v.color with
  | red =>
    cases v with
    | nil => cases hv
    | node c l b r =>
      obtain rfl : c = .red := hv
      obtain ⟨h', t', hrun, hrep', hlist⟩ := hrep.side_red size hsnt
      exact ⟨h', root, fs, t', n + 1, hrun, hrep', Nat.lt_add_of_pos_right (by decide), hlist⟩
  | black =>
    obtain ⟨h', root', f, t', hrun, hrep', hlist⟩ := hrep.side_black size hsnt hv
    exact ⟨h', root', f :: fs, t', n, hrun, hrep', Nat.lt_succ_self _, hlist⟩

theorem exists_node (hrep : Repair snt h root fs t n) : ∃ l a r, t = branch .left .red l a r := by
  cases hrep.balanced with
  | red => exact ⟨_, _, _, rfl⟩

/-- An iteration looks at the color of the parent and at the side it is on. -/
theorem step_red
    (hrep : Repair snt h root (⟨s₂, .red, p, u⟩ :: ⟨s, .black, g, v⟩ :: fs) t n) :
    rbInsertFixupStep (h, ⟨root, size⟩, ptr t) = (do
      let (h, t, z) ← rbInsertFixupSide h ⟨root, size⟩ s (ptr t)
      if z = t.root then pure (.inr (h, t)) else pure (.inl (h, t, z))) := by
  obtain ⟨l, a, r, rfl⟩ := hrep.exists_node
  have hfoc := hrep.focus
  have hside : (if some p.addr = (sideNode s .black g (some p.addr) (ptr v)
      (parentPtr fs)).left then Side.left else .right) = s := by
    cases s
    · rw [sideNode, if_pos rfl]
    · rw [sideNode, if_neg hfoc.up.ptr_ne]
  have hgrand := hfoc.up.load_parent
  rw [ptr_branch] at hgrand
  simp only [rbInsertFixupStep, ptr_branch, Heap.load_eq hfoc.get, ok_bind, sideNode_parent,
    parentPtr_cons, Heap.load_eq hfoc.load_parent, sideNode_color, Heap.load_eq hgrand, hside,
    ne_eq, not_true_eq_false, if_false]

/-- Below a black parent nothing is to be done, and the loop ends. -/
theorem step_black (hrep : Repair snt h root (⟨s, .black, p, u⟩ :: fs) t n) :
    rbInsertFixupStep (h, ⟨root, size⟩, ptr t) = ok (.inr (h, ⟨root, size⟩)) := by
  obtain ⟨l, a, r, rfl⟩ := hrep.exists_node
  simp [rbInsertFixupStep, ptr_branch, Heap.load_eq hrep.focus.get,
    Heap.load_eq hrep.focus.load_parent]

end Repair

/-- What the repair ends in: the same elements in a tree that is balanced but for the color
of its root. -/
def Repaired (snt : RbNode K V) (size : ℕ) (l : List (RbEntry K V)) :
    Heap (RbNode K V) × MboxRBTree → Prop
  | (h, t) => t.size = size ∧ ∃ c n T, Focus snt h t.root [] T ∧ Balanced c n T ∧ T.toList = l

/-- **The repair ends**, as every iteration leaves fewer nodes above, and leaves a tree that is
balanced. -/
theorem Repair.run (hsnt : snt.color = .black) {f : Frame (RbEntry K V)}
    (hrep : Repair snt h root (f :: fs) t n) :
    ∃ r, LoopTo (fun _ => rbInsertFixupStep) (h, ⟨root, size⟩, ptr t) r ∧
      Repaired snt size (plug (f :: fs) t).toList r := by
  -- the measure is the number of nodes above
  induction hk : fs.length using Nat.strongRecOn generalizing h root f fs t n with
  | _ k ih =>
    obtain ⟨s₂, c, p, u⟩ := f
    cases c with
    | black =>
      refine ⟨_, LoopTo.done (Converges.const (hrep.step_black size)), rfl, ?_⟩
      obtain ⟨m, hm⟩ := (hrep.fits.black_inv .red).plug hrep.balanced
      exact ⟨_, m, _, hrep.focus.plug, hm, rfl⟩
    | red =>
      obtain ⟨-, -, s, g, v, fs', d, rfl, -, -⟩ := hrep.fits.red_inv
      obtain ⟨h', root', fs₂, t', m, hrun, hrep', hlt, hlist⟩ := hrep.side size hsnt
      have hstep := hrep.step_red size
      rw [hrun, ok_bind] at hstep
      obtain ⟨l, a, r, rfl⟩ := hrep'.exists_node
      rw [ptr_branch] at hstep
      rw [← hlist]
      cases fs₂ with
      | nil =>
        have hroot := hrep'.focus.root_eq.2 rfl
        simp only [if_pos hroot] at hstep
        exact ⟨_, LoopTo.done (Converges.const hstep), rfl, _, m, _, hrep'.focus,
          hrep'.balanced, rfl⟩
      | cons f' fs₂ =>
        have hroot : ¬ some a.addr = root' := fun h => nomatch hrep'.focus.root_eq.1 h
        simp only [if_neg hroot] at hstep
        obtain ⟨r, hr, hpost⟩ := ih fs₂.length (by
          rw [← hk]
          exact Nat.lt_of_succ_lt_succ hlt) hrep' rfl
        exact ⟨r, LoopTo.step (Converges.const hstep) hr, hpost⟩

end Libmbox2
