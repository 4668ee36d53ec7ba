import Libmbox2.Comparator
import Libmbox2.RbFixup

/-!
# Insertion (`mboxRBTreeInsert`)

`IsRbTree` is what is known of a tree between two calls. A search keeps everything in front
of the hole below the key and everything behind it above (`Seeking`), so it ends either at
an entry that compares as equal or in the one place where the key fits; there the new node
is hung, and the repair follows.
-/

namespace Libmbox2

open CSem CSem.Exec CSem.RBTree

variable {K V : Type} {cmp : K → K → Int} {snt : RbNode K V} {h : Heap (RbNode K V)}
  {t : MboxRBTree} {T sub : RBTree (RbEntry K V)} {root : Ptr} (size : ℕ) {key : K}
  {value : Option V} {fs : List (Frame (RbEntry K V))}

/-- The nodes of `t` are the tree `T`, which is ordered and balanced. -/
structure IsRbTree (cmp : K → K → Int) (snt : RbNode K V) (h : Heap (RbNode K V))
    (t : MboxRBTree) (T : RBTree (RbEntry K V)) : Prop where
  focus : Focus snt h t.root [] T
  /-- the sentinel is black -/
  black : snt.color = .black
  balanced : ∃ n, Balanced .black n T
  sorted : T.toList.Pairwise fun a b => cmp a.key b.key < 0
  size : t.size = T.toList.length

/-- The entries of a tree from left to right: what a dictionary of this shape has stored, with each
key's value. -/
def entriesOf (T : RBTree (RbEntry K V)) : List (K × Option V) :=
  T.toList.map fun a => (a.key, a.value)

/-- The entries of a node: those of the left subtree, its own, those of the right one. -/
@[simp] theorem entriesOf_node {c : Color} {a : RbEntry K V} {l r : RBTree (RbEntry K V)} :
    entriesOf (node c l a r) = entriesOf l ++ (a.key, a.value) :: entriesOf r := by
  rw [entriesOf, toList, List.map_append, List.map_cons]
  rfl

/-! ## Searching -/

/-- A search for `key` is at `sub`, in the hole of `fs`. -/
structure Seeking (cmp : K → K → Int) (snt : RbNode K V) (h : Heap (RbNode K V)) (root : Ptr)
    (T : RBTree (RbEntry K V)) (key : K) (fs : List (Frame (RbEntry K V)))
    (sub : RBTree (RbEntry K V)) : Prop where
  focus : Focus snt h root fs sub
  tree : plug fs sub = T
  fits : ∃ m, Fits fs sub.color m ∧ Balanced sub.color m sub
  before : ∀ a ∈ before fs, 0 < cmp key a.key
  after : ∀ a ∈ after fs, cmp key a.key < 0

/-- A search starts at the root, with nothing above it. -/
theorem IsRbTree.seeking (ht : IsRbTree cmp snt h t T) (key : K) :
    Seeking cmp snt h t.root T key [] T := by
  obtain ⟨n, hn⟩ := ht.balanced
  refine ⟨ht.focus, rfl, ⟨n, ?_, ?_⟩, (fun a ha => nomatch ha), (fun a ha => nomatch ha)⟩
  · rw [hn.color_eq]
    exact Fits.root
  · rw [hn.color_eq]
    exact hn

namespace Seeking

variable {c : Color} {a : RbEntry K V} {l r : RBTree (RbEntry K V)}

/-- The cell of the node the search stands at, with its links as the tree has them. -/
theorem get (hs : Seeking cmp snt h root T key fs (node c l a r)) :
    h.get (some a.addr) = some (sideNode .left c a (ptr l) (ptr r) (parentPtr fs)) :=
  hs.focus.get (s := .left)

/-- The node the search stands at is one of the tree's. -/
theorem mem (hs : Seeking cmp snt h root T key fs (node c l a r)) : a ∈ T.toList := by
  rw [← hs.tree, plug_toList]
  exact List.mem_append_left _ (List.mem_append_right _
    (List.mem_append_right _ (List.mem_cons_self ..)))

/-- What is left of a node is less, what is right of it is greater. -/
theorem around (hs : Seeking cmp snt h root T key fs (node c l a r))
    (hsorted : T.toList.Pairwise fun a b => cmp a.key b.key < 0) :
    (∀ b ∈ l.toList, cmp b.key a.key < 0) ∧ ∀ b ∈ r.toList, cmp a.key b.key < 0 := by
  rw [← hs.tree, plug_toList] at hsorted
  have hnode := (List.pairwise_append.1 (List.pairwise_append.1 hsorted).1).2.1
  rw [toList, List.pairwise_append] at hnode
  obtain ⟨_, hright, hleft⟩ := hnode
  exact ⟨fun b hb => hleft b hb a (List.mem_cons_self ..), (List.pairwise_cons.1 hright).1⟩

/-- It is not the sentinel, at which a search ends. -/
theorem ne_sentinal (hs : Seeking cmp snt h root T key fs (node c l a r)) :
    some a.addr ≠ rbSentinal := by
  intro heq
  have hnil := hs.focus.ptr_eq_sentinal.1 heq
  cases hnil

/-- **A step down**: the search goes to the left for a smaller key, to the right for a greater one,
and ends at an equal one. -/
theorem step_eq (hs : Seeking cmp snt h root T key fs (node c l a r)) (y : Ptr) :
    searchStep cmp h key (some a.addr, y) =
      if cmp key a.key < 0 then ok (.inl (ptr l, some a.addr))
      else if 0 < cmp key a.key then ok (.inl (ptr r, some a.addr))
      else ok (.inr none) := by
  rw [searchStep, if_neg hs.ne_sentinal, Heap.load_eq hs.get, ok_bind]
  simp only [sideNode, keyOf, ok_bind, pure_eq, gt_iff_lt]

variable (hcmp : IsComparator cmp) (hsorted : T.toList.Pairwise fun a b => cmp a.key b.key < 0)

include hcmp hsorted

/-- For a smaller key the search goes on in the left subtree, with the node kept as the one
above. -/
theorem left (hs : Seeking cmp snt h root T key fs (node c l a r)) (hlt : cmp key a.key < 0) :
    Seeking cmp snt h root T key (⟨.left, c, a, r⟩ :: fs) l := by
  obtain ⟨_, hright⟩ := hs.around hsorted
  obtain ⟨hfoc, htree, ⟨m, hfits, hbal⟩, hbefore, hafter⟩ := hs
  refine ⟨Focus.down (s := .left) hfoc, htree, Fits.down (s := .left) hfits hbal, hbefore, ?_⟩
  intro b hb
  rcases List.mem_append.1 hb with hb | hb
  · rcases List.mem_cons.1 hb with rfl | hb
    · exact hlt
    · exact hcmp.trans hlt (hright b hb)
  · exact hafter b hb

/-- For a greater key it goes on in the right subtree. -/
theorem right (hs : Seeking cmp snt h root T key fs (node c l a r)) (hgt : 0 < cmp key a.key) :
    Seeking cmp snt h root T key (⟨.right, c, a, l⟩ :: fs) r := by
  obtain ⟨hleft, _⟩ := hs.around hsorted
  obtain ⟨hfoc, htree, ⟨m, hfits, hbal⟩, hbefore, hafter⟩ := hs
  refine ⟨Focus.down (s := .right) hfoc, htree, Fits.down (s := .right) hfits hbal, ?_, hafter⟩
  intro b hb
  rcases List.mem_append.1 hb with hb | hb
  · exact hbefore b hb
  · rcases List.mem_append.1 hb with hb | hb
    · exact (hcmp.symm _ _).1 (hcmp.trans (hleft b hb) ((hcmp.symm _ _).2 hgt))
    · rw [List.mem_singleton.1 hb]
      exact hgt

/-- **Where a search ends**: at an entry with the key, or in a hole. -/
theorem search (hs : Seeking cmp snt h root T key fs sub) {n : ℕ} (hn : sub.depth < n) :
    (loop (searchStep cmp h key) n (ptr sub, parentPtr fs) = ok none ∧
      ∃ a ∈ T.toList, cmp key a.key = 0) ∨
    ∃ fs', loop (searchStep cmp h key) n (ptr sub, parentPtr fs) = ok (some (parentPtr fs')) ∧
      Seeking cmp snt h root T key fs' nil := by
  induction sub generalizing fs n with
  | nil =>
    obtain ⟨n, rfl⟩ := Nat.exists_eq_add_of_lt hn
    refine Or.inr ⟨fs, ?_, hs⟩
    rw [loop_succ, searchStep, ptr, if_pos rfl]
    rfl
  | node c l a r ihl ihr =>
    rw [depth] at hn
    obtain ⟨n, rfl⟩ : ∃ k, n = k + 1 :=
      ⟨n - 1, (Nat.succ_pred_eq_of_pos (Nat.zero_lt_of_lt hn)).symm⟩
    have hdepth : max l.depth r.depth < n := Nat.lt_of_succ_lt_succ hn
    rw [ptr, loop_succ, hs.step_eq]
    rcases Int.lt_trichotomy (cmp key a.key) 0 with hlt | heq | hgt
    · rw [if_pos hlt]
      exact ihl (hs.left hcmp hsorted hlt) (lt_of_le_of_lt (le_max_left _ _) hdepth)
    · rw [if_neg heq.not_lt, if_neg heq.not_gt]
      exact Or.inl ⟨rfl, a, hs.mem, heq⟩
    · rw [if_neg hgt.le.not_gt, if_pos hgt]
      exact ihr (hs.right hcmp hsorted hgt) (lt_of_le_of_lt (le_max_right _ _) hdepth)

end Seeking

/-! ## The new node -/

/-- A new node is red, has no children and is at an address of its own. -/
theorem rbNodeNew_spec (h : Heap (RbNode K V)) (key : K) (value : Option V) (y : Ptr) :
    ∃ (z : RbEntry K V) (h₁ h₂ : Heap (RbNode K V)), z.key = key ∧ z.value = value ∧
      rbNodeNew h key value = (some z.addr, h₁) ∧ setParent h₁ (some z.addr) y = ok h₂ ∧
      h₂.get (some z.addr) = some (sideNode .left .red z rbSentinal rbSentinal y) ∧
      h.EqOff [z.addr] h₂ ∧ h.get (some z.addr) = none := by
  have hget := h.get_alloc ⟨some key, value, .red, rbSentinal, rbSentinal, none⟩
  have hnew := hget (some h.cells.length)
  rw [Heap.alloc, if_pos rfl] at hnew
  obtain ⟨h₂, hrun, hz, hoff⟩ := Heap.modify_at hnew fun n => { n with parent := y }
  have hoff₁ : h.EqOff [h.cells.length] (h.alloc _).2 :=
    Heap.EqOff.of_update (List.mem_singleton_self _) hget
  exact ⟨⟨h.cells.length, key, value⟩, _, h₂, rfl, rfl, rfl, hrun, hz, hoff₁.trans hoff,
    h.get_new ⟨some key, value, .red, rbSentinal, rbSentinal, none⟩⟩

namespace Focus

variable {x : ℕ} {z : RbEntry K V} {h' : Heap (RbNode K V)} {f : Frame (RbEntry K V)}

/-- Every address of a tree is one of a cell in the heap. -/
theorem get_of_mem_addrs {parent : Ptr} (hsub : Shape h parent sub) (hx : x ∈ addrs sub) :
    h.get (some x) ≠ none := by
  induction sub generalizing parent with
  | nil => cases hx
  | node c l a r ihl ihr =>
    obtain ⟨ha, hl, hr⟩ := hsub
    have hmem := (addrs_branch (s := .left) (c := c)).mem_iff.1 hx
    rcases List.mem_cons.1 hmem with rfl | hmem
    · rw [ha]
      exact Option.some_ne_none _
    · exact (List.mem_append.1 hmem).elim (ihl hl) (ihr hr)

/-- The addresses of the nodes around the focus are in use as well, so a new cell is none of
them. -/
theorem get_of_mem (hfoc : Focus snt h root fs nil) (hx : x ∈ frameAddrs fs) :
    h.get (some x) ≠ none := by
  have hwhole := hfoc.plug.shape
  refine get_of_mem_addrs hwhole ?_
  rw [addrs, plug_toList, toList, List.append_nil]
  exact hx

/-- Where nothing is touched that was in use, nothing changes. -/
theorem of_new (hfoc : Focus snt h root fs nil) (hnew : h.get (some x) = none)
    (hoff : h.EqOff [x] h') : Focus snt h' root fs nil := by
  refine ⟨trivial, hfoc.above.frame hoff ?_, hfoc.nodup, hfoc.zero, ?_⟩
  · exact List.disjoint_singleton.2 fun hx => hfoc.get_of_mem hx hnew
  · rw [hoff 0 ?_, hfoc.sentinal]
    intro h0
    rw [← List.mem_singleton.1 h0, hfoc.sentinal] at hnew
    cases hnew

/-- A new node in an empty tree is the root, with nothing above it. -/
theorem hang_root (hfoc : Focus snt h root [] nil) (hz0 : z.addr ≠ 0)
    (hz : h.get (some z.addr) = some (sideNode .left .red z rbSentinal rbSentinal none)) :
    Focus snt h (some z.addr) [] (node .red nil z nil) := by
  refine ⟨⟨hz, trivial, trivial⟩, rfl, List.nodup_singleton _, ?_, hfoc.sentinal⟩
  exact fun h0 => hz0.symm (List.mem_singleton.1 h0)

/-- The new node is hung below the last one of the search. -/
theorem hang (hfoc : Focus snt h root (f :: fs) nil) (hmem : z.addr ∉ frameAddrs (f :: fs))
    (hz0 : z.addr ≠ 0) (hz : h.get (some z.addr) =
      some (sideNode .left .red z rbSentinal rbSentinal (some f.elem.addr))) :
    ∃ h', setChild h (some f.elem.addr) f.side (some z.addr) = ok h' ∧
      Focus snt h' root (f :: fs) (node .red nil z nil) := by
  obtain ⟨h', hrun, habove, hoff⟩ := hfoc.above.setChild hfoc.nodup (some z.addr)
  refine ⟨h', hrun, ⟨?_, trivial, trivial⟩, habove, ?_, ?_, ?_⟩
  · exact (hoff _ hmem).trans hz
  · exact List.nodup_cons.2 ⟨hmem, hfoc.nodup⟩
  · exact fun h0 => (List.mem_cons.1 h0).elim hz0.symm hfoc.zero
  · rw [hoff 0 hfoc.zero, hfoc.sentinal]

end Focus

/-! ## The whole insertion -/

variable {n : ℕ} {f : Frame (RbEntry K V)}

/-- The repaired tree is balanced once its root is black. -/
theorem rbInsertFixup_spec (hsnt : snt.color = .black)
    (hrep : Repair snt h root (f :: fs) sub n) :
    ∃ h' t' T' m, Converges (fun k => rbInsertFixup h ⟨root, size⟩ k (ptr sub)) (h', t') ∧
      t'.size = size ∧ Focus snt h' t'.root [] T' ∧ Balanced .black m T' ∧
      T'.toList = (plug (f :: fs) sub).toList := by
  obtain ⟨⟨h₁, t₁⟩, hloop, hsize, c, m, T₁, hfoc, hbal, hlist⟩ := hrep.run size hsnt
  cases T₁ with
  | nil =>
    obtain ⟨l, a, r, rfl⟩ := hrep.exists_node
    rw [plug_toList] at hlist
    simp [branch, toList] at hlist
  | node c' l a r =>
    obtain rfl : c' = c := hbal.color_eq
    obtain ⟨h', hrun, hfoc'⟩ := Focus.setColor (s := .left) hfoc .black
    obtain ⟨k, hk⟩ := Balanced.blacken (s := .left) hbal
    refine ⟨h', t₁, _, k, hloop.converges.bind (Converges.const ?_), hsize, hfoc', hk, hlist⟩
    have hroot : t₁.root = some a.addr := hfoc.above
    simp only [hroot, hrun, ok_bind, pure_eq]

/-- **The new node hangs where the search for its key ended**, and the repair leaves a red-black
tree with the entry added in its place. -/
theorem rbInsertAt_spec (hs : Seeking cmp snt h root T key fs nil) (hsnt : snt.color = .black)
    (value : Option V) :
    ∃ h' t' T' z, Converges (fun k => rbInsertAt cmp h ⟨root, size⟩ k key value (parentPtr fs))
        (h', t') ∧
      t'.size = size + 1 ∧ Focus snt h' t'.root [] T' ∧ (∃ m, Balanced .black m T') ∧
      z.key = key ∧ z.value = value ∧ T'.toList = before fs ++ z :: after fs := by
  obtain ⟨z, h₁, h₂, rfl, rfl, hnode, hparent, hz, hoff, hnew⟩ :=
    rbNodeNew_spec h key value (parentPtr fs)
  have hz0 : z.addr ≠ 0 := by
    intro h0
    rw [h0, hs.focus.sentinal] at hnew
    cases hnew
  have hmem : z.addr ∉ frameAddrs fs := fun hx => hs.focus.get_of_mem hx hnew
  have hfoc := hs.focus.of_new hnew hoff
  cases fs with
  | nil =>
    obtain ⟨h', hrun, hfoc'⟩ := Focus.setColor (s := .left) (hfoc.hang_root hz0 hz) .black
    refine ⟨h', ⟨some z.addr, size + 1⟩, _, z, ⟨0, fun k _ => ?_⟩, rfl, hfoc', ?_, rfl, rfl, ?_⟩
    · rw [parentPtr] at hparent ⊢
      simp only [rbInsertAt, hnode, hparent, ok_bind, if_true, hrun, pure_eq]
    · exact ⟨1, Balanced.black Balanced.nil Balanced.nil⟩
    · rfl
  | cons f fs =>
    rw [parentPtr_cons] at hparent hz
    obtain ⟨h₃, hrun, hfoc'⟩ := hfoc.hang hmem hz0 hz
    have hside : (if cmp z.key f.elem.key < 0 then Side.left else .right) = f.side := by
      obtain ⟨s, c, a, u⟩ := f
      cases s
      · exact if_pos (hs.after a (List.mem_cons_self ..))
      · have hgt := hs.before a (List.mem_append_right _ (List.mem_append_right _
          (List.mem_singleton_self a)))
        exact if_neg (not_lt_of_gt hgt)
    have hlist : (plug (f :: fs) (node .red nil z nil)).toList =
        before (f :: fs) ++ z :: after (f :: fs) := by
      rw [plug_toList, toList, List.append_assoc]
      rfl
    have hrunAt : ∀ k, rbInsertAt cmp h ⟨root, size⟩ k z.key z.value (parentPtr (f :: fs)) =
        if parentPtr fs = none then ok (h₃, ⟨root, size + 1⟩)
        else rbInsertFixup h₃ ⟨root, size + 1⟩ k (some z.addr) := by
      intro k
      have hload := Heap.load_eq hfoc.load_parent
      have hload₃ := Heap.load_eq hfoc'.load_parent
      simp only [rbInsertAt, hnode, parentPtr_cons, hparent, ok_bind, Option.some_ne_none,
        if_false, hload, hload₃, keyOf_sideNode, hside, hrun, sideNode_parent, pure_eq]
    obtain ⟨m, hfits, hnil⟩ := hs.fits
    cases hnil
    cases fs with
    | nil =>
      -- the parent is the root, which is black
      have hred : Fits [f] .red 0 := by
        cases hfits with
        | red _ hroot => cases hroot
        | black hu hroot => exact Fits.black hu hroot
      refine ⟨h₃, ⟨root, size + 1⟩, _, z, ⟨0, fun k _ => ?_⟩, rfl, hfoc'.plug,
        hred.plug (Balanced.red Balanced.nil Balanced.nil), rfl, rfl, hlist⟩
      exact (hrunAt k).trans (if_pos rfl)
    | cons f' fs =>
      obtain ⟨h', t', T', k, hfix, hsize, hfoc'', hbal, hlist'⟩ := rbInsertFixup_spec
        (size + 1) hsnt ⟨hfoc', Balanced.red Balanced.nil Balanced.nil, hfits⟩
      refine ⟨h', t', T', z, Converges.congr (fun k => ?_) hfix, hsize, hfoc'', ⟨k, hbal⟩, rfl,
        rfl, hlist'.trans hlist⟩
      exact (hrunAt k).trans (if_neg (Option.some_ne_none _))

/-- **An insertion** keeps the tree what it is, and adds the entry unless its key is there. -/
theorem mboxRBTreeInsert_spec (hcmp : IsComparator cmp) (ht : IsRbTree cmp snt h t T) (key : K)
    (value : Option V) :
    ∃ h' t' T', Converges (fun n => mboxRBTreeInsert cmp h t n key value) (h', t') ∧
      IsRbTree cmp snt h' t' T' ∧
      (entriesOf T').Perm (firstWrite cmp (entriesOf T) (key, value)) := by
  have hkeys : (∃ x ∈ entriesOf T, cmp (key, value).1 x.1 = 0) ↔
      ∃ a ∈ T.toList, cmp key a.key = 0 := by
    simp [entriesOf]
  rcases (ht.seeking key).search hcmp ht.sorted (Nat.lt_succ_self _) with
    ⟨hfound, hmem⟩ | ⟨fs, hleaf, hs⟩
  · rw [← ht.focus.above] at hfound
    refine ⟨h, t, T, (Converges.loop hfound).bind (Converges.const rfl), ht, ?_⟩
    rw [firstWrite, if_pos (hkeys.2 hmem)]
  · rw [← ht.focus.above] at hleaf
    obtain ⟨h', t', T', z, hrun, hsize, hfoc, hbal, rfl, rfl, hlist⟩ :=
      rbInsertAt_spec t.size hs ht.black value
    have hT : T.toList = before fs ++ after fs := by
      rw [← hs.tree, plug_toList, toList, List.append_nil]
    refine ⟨h', t', T', (Converges.loop hleaf).bind hrun, ⟨hfoc, ht.black, hbal, ?_, ?_⟩, ?_⟩
    · have hold := ht.sorted
      rw [hT, List.pairwise_append] at hold
      obtain ⟨hbefore, hafter, hcross⟩ := hold
      rw [hlist, List.pairwise_append, List.pairwise_cons]
      refine ⟨hbefore, ⟨hs.after, hafter⟩, fun a ha b hb => ?_⟩
      rcases List.mem_cons.1 hb with rfl | hb
      · exact (hcmp.symm _ _).2 (hs.before a ha)
      · exact hcross a ha b hb
    · rw [hsize, ht.size, hT, hlist, List.length_append, List.length_append, List.length_cons]
      rfl
    · have hnone : ¬ ∃ x ∈ entriesOf T, cmp (z.key, z.value).1 x.1 = 0 := by
        rw [hkeys, hT]
        rintro ⟨a, ha, heq⟩
        rcases List.mem_append.1 ha with ha | ha
        · exact (hs.before a ha).ne' heq
        · exact (hs.after a ha).ne heq
      rw [firstWrite, if_neg hnone, entriesOf, entriesOf, hlist, hT, List.map_append,
        List.map_append, List.map_cons]
      exact List.perm_middle.trans (List.perm_append_singleton ..).symm

end Libmbox2
