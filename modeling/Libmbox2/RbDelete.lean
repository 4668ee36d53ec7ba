import Libmbox2.Buf
import Libmbox2.RbMap

/-!
# Deleting from the tree (`mboxRBTreeDelete`)

The search goes on until it meets null, and it stays where it is once it has found the key: a
key that is there is never deleted. A leaf is the sentinel and not null, so a key that is not
there is compared with the null key of the sentinel first. Whether that can be done is up to the
comparator: `nullcmp` is what it gives for a key and null, and `fault` for one that reads what
its arguments point to.

The rest of the code, which splices the node out and repairs the tree, is never reached.
-/

namespace Libmbox2

open CSem CSem.Exec CSem.RBTree

variable {K V : Type}

section Functions

variable (h : Heap (RbNode K V)) (t : MboxRBTree)

/-- `rbTransplant`: `v` takes the place of `u` below the parent of `u`. -/
def rbTransplant (u v : Ptr) : Exec (Heap (RbNode K V) × MboxRBTree) := do
  let un ← h.load u
  let (h, t) ← relink h t .left un.parent u v
  let h ← setParent h v un.parent
  pure (h, t)

/-- One step of `rbNodeMinimum`, to the left child. -/
def rbNodeMinimumStep (n : Ptr) : Exec (Ptr ⊕ Ptr) := do
  let node ← h.load n
  if node.left ≠ none then pure (.inl node.left) else pure (.inr n)

/-- `rbNodeMinimum`: the leftmost node of a subtree. -/
def rbNodeMinimum (fuel : ℕ) (n : Ptr) : Exec Ptr := loop (rbNodeMinimumStep h) fuel n

/-- The color of a node, which has to be in the heap. -/
def colorOf (n : Ptr) : Exec Color := do
  let node ← h.load n
  pure node.color

/-- A red sibling `w` of `x`: the parent is turned. The colors are `sibling` and `parent`; for a
right child they are the other way round than for a left one, by which nothing changes. -/
def rbFixDeleteTurn (s : Side) (sibling parent : Color) (x w : Ptr) :
    Exec (Heap (RbNode K V) × MboxRBTree × Ptr) := do
  if (← colorOf h w) = .red then do
    let h ← setColor h w sibling
    let node ← h.load x
    let h ← setColor h node.parent parent
    let (h, t) ← rbRotate h t s node.parent
    let node ← h.load x
    let pn ← h.load node.parent
    pure (h, t, pn.child s.other)
  else pure (h, t, w)

/-- A black sibling `w` with a red child on one of its sides: the colors change and the tree is
rotated, once or twice. -/
def rbFixDeleteRotate (s : Side) (x w : Ptr) : Exec (Heap (RbNode K V) × MboxRBTree × Ptr) := do
  let wn ← h.load w
  let far ← colorOf h (wn.child s.other)
  let (h, t, w) ← if far = .black then do
      let h ← setColor h (wn.child s) .black
      let h ← setColor h w .red
      let (h, t) ← rbRotate h t s.other w
      let node ← h.load x
      let pn ← h.load node.parent
      pure (h, t, pn.child s.other)
    else pure (h, t, w)
  let node ← h.load x
  let pn ← h.load node.parent
  let h ← setColor h w pn.color
  let h ← setColor h node.parent .black
  let wn ← h.load w
  let h ← setColor h (wn.child s.other) .black
  let (h, t) ← rbRotate h t s node.parent
  pure (h, t, t.root)

/-- The repair when `x` is the child on side `s`. -/
def rbFixDeleteSide (s : Side) (sibling parent : Color) (x : Ptr) :
    Exec (Heap (RbNode K V) × MboxRBTree × Ptr) := do
  let node ← h.load x
  let pn ← h.load node.parent
  let (h, t, w) ← rbFixDeleteTurn h t s sibling parent x (pn.child s.other)
  let wn ← h.load w
  let near ← colorOf h (wn.child s)
  -- the other child is not looked at when this one is red
  let bothBlack ← if near = .black then do
      let far ← colorOf h (wn.child s.other)
      pure (decide (far = .black))
    else pure false
  if bothBlack then do
    let h ← setColor h w .red
    let node ← h.load x
    pure (h, t, node.parent)
  else rbFixDeleteRotate h t s x w

/-- One iteration of the loop of `mboxRBTreeFixDelete`, on either side. -/
def rbFixDeleteStep : Heap (RbNode K V) × MboxRBTree × Ptr →
    Exec (Heap (RbNode K V) × MboxRBTree × Ptr ⊕ Heap (RbNode K V) × MboxRBTree × Ptr)
  | (h, t, x) =>
    if x = none ∨ x = t.root then pure (.inr (h, t, x)) else do
    let node ← h.load x
    if node.color ≠ .black then pure (.inr (h, t, x)) else do
    let pn ← h.load node.parent
    let r ← if x = pn.left then rbFixDeleteSide h t .left .black .red x
      else rbFixDeleteSide h t .right .red .black x
    pure (.inl r)

/-- `mboxRBTreeFixDelete`: the tree is repaired from `x` on, which is painted black at the end. -/
def mboxRBTreeFixDelete (fuel : ℕ) (x : Ptr) : Exec (Heap (RbNode K V) × MboxRBTree) := do
  let (h, t, x) ← loop rbFixDeleteStep fuel (h, t, x)
  let h ← setColor h x .black
  pure (h, t)

/-- The node `z` has two children, and `y` comes behind it: `y` takes its place. -/
def rbDeleteSplice (z y : Ptr) : Exec (Heap (RbNode K V) × MboxRBTree × Ptr) := do
  let yn ← h.load y
  let zn ← h.load z
  let x := yn.right
  let (h, t) ← if y ≠ zn.right then do
      let (h, t) ← rbTransplant h t y x
      let h ← setChild h y .right zn.right
      let h ← setParent h zn.right y
      pure (h, t)
    else do
      let h ← setParent h x y
      pure (h, t)
  let (h, t) ← rbTransplant h t z y
  let zn ← h.load z
  let h ← setChild h y .left zn.left
  let h ← setParent h zn.left y
  let h ← setColor h y zn.color
  pure (h, t, x)

/-- The node `z` is taken out: the color that is gone, and the node to repair the tree from. -/
def rbDeleteNode (fuel : ℕ) (z : Ptr) : Exec (Heap (RbNode K V) × MboxRBTree × Ptr × Color) := do
  let zn ← h.load z
  if zn.left = none then do
    let (h, t) ← rbTransplant h t z zn.right
    pure (h, t, zn.right, zn.color)
  else if zn.right = none then do
    let (h, t) ← rbTransplant h t z zn.left
    pure (h, t, zn.left, zn.color)
  else do
    let y ← rbNodeMinimum h fuel zn.right
    let original ← colorOf h y
    let (h, t, x) ← rbDeleteSplice h t z y
    pure (h, t, x, original)

/-- The comparison with the key of a node, which is null in the sentinel. -/
def compareKey (keycmp : K → K → Int) (nullcmp : K → Exec Int) (key : K) (node : RbNode K V) :
    Exec Int :=
  match node.key with
  | some nodeKey => ok (keycmp key nodeKey)
  | none => nullcmp key

/-- One step of the search in `mboxRBTreeDelete`, which keeps the last node with the key and goes
on. -/
def deleteSearchStep (keycmp : K → K → Int) (nullcmp : K → Exec Int) (key : K) :
    Ptr × Ptr → Exec (Ptr × Ptr ⊕ Ptr)
  | (cur, z) =>
    if cur = none then pure (.inr z) else do
    let node ← h.load cur
    let cmp ← compareKey keycmp nullcmp key node
    if cmp = 0 then pure (.inl (cur, cur))
    else if cmp > 0 then pure (.inl (node.right, z))
    else pure (.inl (node.left, z))

/-- `mboxRBTreeDelete`: the node with the key is searched for, taken out, and the tree repaired. -/
def mboxRBTreeDelete (keycmp : K → K → Int) (nullcmp : K → Exec Int) (fuel : ℕ) (key : K) :
    Exec (Heap (RbNode K V) × MboxRBTree) := do
  let z ← loop (deleteSearchStep h keycmp nullcmp key) fuel (t.root, none)
  if z = none then pure (h, t) else do
  let (h, t, x, original) ← rbDeleteNode h t fuel z
  let (h, t) ← if original = .black then mboxRBTreeFixDelete h t fuel x else pure (h, t)
  let h ← if z ≠ rbSentinal then h.free z else pure h
  pure (h, { t with size := sizeSub t.size 1 })

end Functions

variable {cmp : K → K → Int} {nullcmp : K → Exec Int} {snt : RbNode K V} {h : Heap (RbNode K V)}
  {t : MboxRBTree} {T sub : RBTree (RbEntry K V)} {root : Ptr} {key : K}
  {fs : List (Frame (RbEntry K V))}

/-! ## The search -/

namespace Seeking

variable {c : Color} {a : RbEntry K V} {l r : RBTree (RbEntry K V)}

/-- A step of the search: at an equal key it stays at its node, at another one it goes down. -/
theorem delete_step_eq (hs : Seeking cmp snt h root T key fs (node c l a r)) (z : Ptr) :
    deleteSearchStep h cmp nullcmp key (some a.addr, z) =
      if cmp key a.key = 0 then ok (.inl (some a.addr, some a.addr))
      else if 0 < cmp key a.key then ok (.inl (ptr r, z))
      else ok (.inl (ptr l, z)) := by
  rw [deleteSearchStep, if_neg (Option.some_ne_none _), Heap.load_eq hs.get, ok_bind]
  rfl

/-- A search that has found the key stays there for ever. -/
theorem delete_stuck (hs : Seeking cmp snt h root T key fs (node c l a r))
    (heq : cmp key a.key = 0) (n : ℕ) (z : Ptr) :
    loop (deleteSearchStep h cmp nullcmp key) n (some a.addr, z) = timeout := by
  have hstep : ∀ s : Ptr × Ptr, s.1 = some a.addr →
      ∃ s', deleteSearchStep h cmp nullcmp key s = ok (.inl s') ∧ s'.1 = some a.addr := by
    rintro ⟨cur, z'⟩ hcur
    obtain rfl : cur = some a.addr := hcur
    exact ⟨_, (hs.delete_step_eq z').trans (if_pos heq), rfl⟩
  exact loop_diverges hstep n _ rfl

/-- A step of the search to another node, from which it goes on as it does from there. -/
theorem delete_goes {nullcmp : K → Exec Int} {p q : Ptr} {A B : Prop}
    (hstep : ∀ z, deleteSearchStep h cmp nullcmp key (p, z) = ok (.inl (q, z)))
    (hq : (A ∧ ∀ n z, loop (deleteSearchStep h cmp nullcmp key) n (q, z) = timeout) ∨
      B ∧ ∃ k, ∀ n z, loop (deleteSearchStep h cmp nullcmp key) (n + k) (q, z) =
        loop (deleteSearchStep h cmp nullcmp key) n (rbSentinal, z)) :
    (A ∧ ∀ n z, loop (deleteSearchStep h cmp nullcmp key) n (p, z) = timeout) ∨
      B ∧ ∃ k, ∀ n z, loop (deleteSearchStep h cmp nullcmp key) (n + k) (p, z) =
        loop (deleteSearchStep h cmp nullcmp key) n (rbSentinal, z) := by
  rcases hq with ⟨ha, hrun⟩ | ⟨hb, k, hrun⟩
  · refine Or.inl ⟨ha, fun n z => ?_⟩
    cases n with
    | zero => rfl
    | succ n =>
      rw [loop_succ, hstep, ok_bind]
      exact hrun n z
  · refine Or.inr ⟨hb, k + 1, fun n z => ?_⟩
    rw [← Nat.add_assoc, loop_succ, hstep, ok_bind]
    exact hrun n z

/-- **Where the search ends up**: on a node with the key, at which it stays, or on the sentinel. -/
theorem delete_search (nullcmp : K → Exec Int) (hcmp : IsComparator cmp)
    (hsorted : T.toList.Pairwise fun a b => cmp a.key b.key < 0)
    (hs : Seeking cmp snt h root T key fs sub) :
    ((∃ a ∈ T.toList, cmp key a.key = 0) ∧
      ∀ n z, loop (deleteSearchStep h cmp nullcmp key) n (ptr sub, z) = timeout) ∨
    ((∀ a ∈ T.toList, cmp key a.key ≠ 0) ∧ ∃ k, ∀ n z,
      loop (deleteSearchStep h cmp nullcmp key) (n + k) (ptr sub, z) =
        loop (deleteSearchStep h cmp nullcmp key) n (rbSentinal, z)) := by
  -- down the tree; the comparator tells on which side of each node the key is
  induction sub generalizing fs with
  | nil =>
    refine Or.inr ⟨fun a ha heq => ?_, 0, fun n z => rfl⟩
    rw [← hs.tree, plug_toList, toList, List.append_nil] at ha
    rcases List.mem_append.1 ha with ha | ha
    · exact (hs.before a ha).ne' heq
    · exact (hs.after a ha).ne heq
  | node c l a r ihl ihr =>
    have hstep (z : Ptr) : deleteSearchStep h cmp nullcmp key (some a.addr, z) = _ :=
      hs.delete_step_eq z
    rcases Int.lt_trichotomy (cmp key a.key) 0 with hlt | heq | hgt
    · have hleft (z : Ptr) : deleteSearchStep h cmp nullcmp key (some a.addr, z) =
          ok (.inl (ptr l, z)) := by
        rw [hstep, if_neg hlt.ne, if_neg hlt.le.not_gt]
      exact delete_goes hleft (ihl (hs.left hcmp hsorted hlt))
    · exact Or.inl ⟨⟨a, hs.mem, heq⟩, fun n z => hs.delete_stuck heq n z⟩
    · have hright (z : Ptr) : deleteSearchStep h cmp nullcmp key (some a.addr, z) =
          ok (.inl (ptr r, z)) := by
        rw [hstep, if_neg hgt.ne', if_pos hgt]
      exact delete_goes hright (ihr (hs.right hcmp hsorted hgt))

end Seeking

/-- What the fields of the sentinel are once there is a tree. -/
structure RbNode.Blank (snt : RbNode K V) : Prop where
  key : snt.key = none
  left : snt.left = none
  right : snt.right = none

/-- The search on the sentinel goes by what the comparator gives for null. -/
theorem delete_sentinal (hget : h.get rbSentinal = some snt) (hblank : snt.Blank) (n : ℕ) :
    (∃ c, nullcmp key = ok c ∧ c ≠ 0 ∧
      loop (deleteSearchStep h cmp nullcmp key) (n + 2) (rbSentinal, none) = ok none) ∨
    ((¬ ∃ c, nullcmp key = ok c ∧ c ≠ 0) ∧
      ∀ z, loop (deleteSearchStep h cmp nullcmp key) n (rbSentinal, none) ≠ ok z) := by
  have hstep (z : Ptr) : deleteSearchStep h cmp nullcmp key (rbSentinal, z) =
      nullcmp key >>= fun c =>
        ok (if c = 0 then .inl (rbSentinal, rbSentinal) else .inl (none, z)) := by
    rw [deleteSearchStep, if_neg (Option.some_ne_none _), Heap.load_eq hget, ok_bind, compareKey,
      hblank.key, hblank.left, hblank.right]
    congr 1
    funext c
    by_cases hzero : c = 0
    · rw [if_pos hzero, if_pos hzero]
      rfl
    · rw [if_neg hzero, if_neg hzero, ite_self]
      rfl
  -- the sentinel has no children: the search stays on it, leaves, or never gets that far
  cases hnull : nullcmp key with
  | ok c =>
    by_cases hzero : c = 0
    · refine Or.inr ⟨?_, fun z hz => ?_⟩
      · rintro ⟨c', hc', hne⟩
        cases hc'
        exact hne hzero
      · have hstay : ∀ s : Ptr × Ptr, s.1 = rbSentinal →
            ∃ s', deleteSearchStep h cmp nullcmp key s = ok (.inl s') ∧ s'.1 = rbSentinal := by
          rintro ⟨cur, z'⟩ hcur
          obtain rfl : cur = rbSentinal := hcur
          refine ⟨(rbSentinal, rbSentinal), ?_, rfl⟩
          rw [hstep, hnull, ok_bind, if_pos hzero]
        rw [loop_diverges hstay n _ rfl] at hz
        cases hz
    · refine Or.inl ⟨c, rfl, hzero, ?_⟩
      rw [loop_succ, hstep, hnull, ok_bind, if_neg hzero]
      rfl
  | fault | timeout =>
    refine Or.inr ⟨nofun, fun z hz => ?_⟩
    cases n with
    | zero => cases hz
    | succ n =>
      rw [loop_succ, hstep, hnull] at hz
      cases hz

/-! ## Deleting -/

/-- What is asked of a deletion: it returns, and leaves a tree with the other entries. -/
def RbDeletes (cmp : K → K → Int) (nullcmp : K → Exec Int) (h : Heap (RbNode K V))
    (t : MboxRBTree) (T : RBTree (RbEntry K V)) (key : K) : Prop :=
  ∃ h' t' snt' T', Converges (fun n => mboxRBTreeDelete h t cmp nullcmp n key) (h', t') ∧
    IsRbTree cmp snt' h' t' T' ∧
    entriesOf T' = (entriesOf T).filter (fun e => cmp key e.1 ≠ 0) ∧
    t'.size = if ∃ e ∈ entriesOf T, cmp key e.1 = 0 then t.size - 1 else t.size

namespace IsRbTree

variable (hcmp : IsComparator cmp) (ht : IsRbTree cmp snt h t T)

include hcmp ht

/-- **A key that is there is searched for without end**, so nothing is ever deleted. -/
theorem delete_present (hmem : ∃ a ∈ T.toList, cmp key a.key = 0) :
    Diverges fun n => mboxRBTreeDelete h t cmp nullcmp n key := by
  have hroot : t.root = ptr T := ht.focus.above
  rcases (ht.seeking key).delete_search nullcmp hcmp ht.sorted with ⟨-, hrun⟩ | ⟨hnone, -⟩
  · intro n
    simp only [mboxRBTreeDelete, hroot, hrun n none, timeout_bind]
  · obtain ⟨a, ha, heq⟩ := hmem
    exact absurd heq (hnone a ha)

/-- A key that is not there: all depends on the comparison with null. -/
theorem delete_absent (hblank : snt.Blank) (hnone : ∀ a ∈ T.toList, cmp key a.key ≠ 0) :
    (∃ c, nullcmp key = ok c ∧ c ≠ 0 ∧
      Converges (fun n => mboxRBTreeDelete h t cmp nullcmp n key) (h, t)) ∨
    ((¬ ∃ c, nullcmp key = ok c ∧ c ≠ 0) ∧
      ∀ r, ¬ Converges (fun n => mboxRBTreeDelete h t cmp nullcmp n key) r) := by
  have hroot : t.root = ptr T := ht.focus.above
  rcases (ht.seeking key).delete_search nullcmp hcmp ht.sorted with ⟨⟨a, ha, heq⟩, -⟩ | ⟨-, k, hrun⟩
  · exact absurd heq (hnone a ha)
  rw [← hroot] at hrun
  have hget := ht.focus.sentinal
  rcases delete_sentinal hget hblank 0 with ⟨c, hc, hne, hstop⟩ | ⟨hnot, -⟩
  · have hz : Converges
        (fun n => loop (deleteSearchStep h cmp nullcmp key) n (t.root, none)) none :=
      Converges.loop ((hrun (0 + 2) none).trans hstop)
    exact Or.inl ⟨c, hc, hne, hz.bind (Converges.const rfl)⟩
  · refine Or.inr ⟨hnot, fun r hr => ?_⟩
    obtain ⟨N, hN⟩ := hr
    have hk : mboxRBTreeDelete h t cmp nullcmp (N + k) key = ok r := hN _ (Nat.le_add_right N k)
    obtain ⟨z, hz, -⟩ := bind_eq_ok hk
    rw [hrun] at hz
    rcases delete_sentinal hget hblank N with ⟨c, hc, hne, -⟩ | ⟨-, hall⟩
    · exact hnot ⟨c, hc, hne⟩
    · exact hall z hz

/-- **A deletion is right** exactly when there is nothing to delete, and the comparator tells the
key from null. -/
theorem rbDeletes_iff (hblank : snt.Blank) (key : K) :
    RbDeletes cmp nullcmp h t T key ↔
      (∀ e ∈ entriesOf T, cmp key e.1 ≠ 0) ∧ ∃ c, nullcmp key = ok c ∧ c ≠ 0 := by
  have hkeys : (∀ e ∈ entriesOf T, cmp key e.1 ≠ 0) ↔ ∀ a ∈ T.toList, cmp key a.key ≠ 0 := by
    simp [entriesOf]
  rw [hkeys]
  by_cases hnone : ∀ a ∈ T.toList, cmp key a.key ≠ 0
  · rcases ht.delete_absent hcmp hblank hnone with
      ⟨c, hc, hne, hrun⟩ | ⟨hnot, hnever⟩
    · refine iff_of_true ⟨h, t, snt, T, hrun, ht, ?_, ?_⟩ ⟨hnone, c, hc, hne⟩
      · refine (List.filter_eq_self.2 fun e he => ?_).symm
        simpa using hkeys.2 hnone e he
      · rw [if_neg]
        rintro ⟨e, he, heq⟩
        exact hkeys.2 hnone e he heq
    · refine iff_of_false ?_ fun hright => hnot hright.2
      rintro ⟨h', t', snt', T', hrun, -⟩
      exact hnever _ hrun
  · refine iff_of_false ?_ fun hright => hnone hright.1
    rintro ⟨h', t', snt', T', hrun, -⟩
    have hmem : ∃ a ∈ T.toList, cmp key a.key = 0 := by simpa using hnone
    exact (ht.delete_present hcmp hmem).not_terminates ⟨_, hrun⟩

end IsRbTree

/-! ## Trees that are built by insertions -/

/-- What a new tree makes of the sentinel: a node without a key. -/
theorem rbTreeNew_blank (cmp : K → K → Int) {snt₀ : RbNode K V}
    (hsnt : h.get rbSentinal = some snt₀) :
    ∃ h₀ snt, rbTreeNew h = ok (h₀, ⟨rbSentinal, 0⟩) ∧
      IsRbTree cmp snt h₀ ⟨rbSentinal, 0⟩ nil ∧ snt.Blank := by
  obtain ⟨h₀, snt, hnew, ht₀⟩ := rbTreeNew_spec cmp hsnt
  obtain ⟨h₁, hrun, hget, -⟩ := Heap.modify_at hsnt fun node =>
    { node with color := .black, left := none, right := none, key := none, value := none }
  have hnew' := hnew
  rw [rbTreeNew, hrun, ok_bind] at hnew'
  cases hnew'
  have heq := Option.some.inj (ht₀.focus.sentinal.symm.trans hget)
  exact ⟨_, snt, hnew, ht₀, ⟨by rw [heq], by rw [heq], by rw [heq]⟩⟩

/-- A key is in the tree when it was inserted. -/
theorem not_mem_entries_iff (hcmp : IsTotalPreorder cmp) {es : List (K × Option V)}
    (hperm : (entriesOf T).Perm (firstWrites cmp es)) (key : K) :
    (∀ e ∈ entriesOf T, cmp key e.1 ≠ 0) ↔ ∀ e ∈ es, cmp key e.1 ≠ 0 := by
  constructor
  · intro hnone e he heq
    obtain ⟨x, hx, hex⟩ := exists_mem_firstWrites hcmp.isComparator he
    exact hnone x (hperm.mem_iff.2 hx) (hcmp.eq_trans heq hex)
  · intro hnone e he
    exact hnone e (mem_of_mem_firstWrites (hperm.mem_iff.1 he))

/-- **Deleting from a tree** that is built by insertions is right exactly when the key was not
inserted, and the comparator tells it from null. A search that finds the key stays at its node, and
one that does not compares it with the sentinel's. -/
theorem rbDelete_iff (hcmp : IsTotalPreorder cmp) (nullcmp : K → Exec Int)
    (h : Heap (RbNode K V)) {snt₀ : RbNode K V} (hsnt : h.get rbSentinal = some snt₀)
    (es : List (K × Option V)) :
    ∃ h₀ t₀ h' t' snt T, rbTreeNew h = ok (h₀, t₀) ∧
      Converges (fun n => insertAll cmp n es (h₀, t₀)) (h', t') ∧ IsRbTree cmp snt h' t' T ∧
      ∀ key, RbDeletes cmp nullcmp h' t' T key ↔
        (∀ e ∈ es, cmp key e.1 ≠ 0) ∧ ∃ c, nullcmp key = ok c ∧ c ≠ 0 := by
  obtain ⟨h₀, snt, hnew, ht₀, hblank⟩ := rbTreeNew_blank cmp hsnt
  obtain ⟨h', t', T, hrun, ht, hperm⟩ := insertAll_spec hcmp.isComparator es ht₀
  refine ⟨h₀, _, h', t', snt, T, hnew, hrun, ht, fun key => ?_⟩
  rw [ht.rbDeletes_iff hcmp.isComparator hblank, not_mem_entries_iff hcmp hperm]

/-- A comparator of numbers, which takes null for zero, tells 5 from null. -/
theorem rbDelete_iff_five :
    ∃ h₀ t₀ h' t' snt T, rbTreeNew ⟨[some ⟨none, none, .red, none, none, none⟩]⟩ = ok (h₀, t₀) ∧
      Converges (fun n => insertAll (fun a b : Int => a - b) n [(2, some 'b'), (1, none)]
        (h₀, t₀)) (h', t') ∧ IsRbTree (fun a b : Int => a - b) snt h' t' T ∧
      RbDeletes (fun a b : Int => a - b) (fun a => ok a) h' t' T 5 := by
  obtain ⟨h₀, t₀, h', t', snt, T, hnew, hrun, ht, hdeletes⟩ :=
    rbDelete_iff isTotalPreorder_sub (fun a : Int => ok a)
      ⟨[some ⟨none, none, .red, none, none, none⟩]⟩ rfl [(2, some 'b'), (1, none)]
  exact ⟨h₀, t₀, h', t', snt, T, hnew, hrun, ht,
    (hdeletes 5).mpr ⟨by decide, 5, rfl, by decide⟩⟩

/-- The only key of a tree is searched for without end, since the search stays at the node that has
it. -/
theorem onlyKey_notDeleted :
    ∃ h₀ t₀ h' t' snt T, rbTreeNew ⟨[some ⟨none, none, .red, none, none, none⟩]⟩ = ok (h₀, t₀) ∧
      Converges (fun n => insertAll (fun a b : Int => a - b) n [(1, some 'a')] (h₀, t₀))
        (h', t') ∧ IsRbTree (fun a b : Int => a - b) snt h' t' T ∧
      ∀ nullcmp, (Diverges fun n => mboxRBTreeDelete h' t' (fun a b => a - b) nullcmp n 1) ∧
        ¬ RbDeletes (fun a b => a - b) nullcmp h' t' T 1 := by
  obtain ⟨h₀, snt, hnew, ht₀⟩ := rbTreeNew_spec (fun a b : Int => a - b)
    (h := ⟨[some (⟨none, none, .red, none, none, none⟩ : RbNode Int Char)]⟩) rfl
  obtain ⟨h', t', T, hrun, ht, hperm⟩ :=
    insertAll_spec isTotalPreorder_sub.isComparator [(1, some 'a')] ht₀
  have hmem : ∃ a ∈ T.toList, (1 : Int) - a.key = 0 := by
    have he : ((1 : Int), some 'a') ∈ entriesOf T := by
      rw [hperm.mem_iff]
      exact List.mem_singleton_self _
    obtain ⟨a, ha, heq⟩ := List.mem_map.1 he
    exact ⟨a, ha, by rw [(Prod.mk.inj heq).1]; rfl⟩
  refine ⟨h₀, _, h', t', snt, T, hnew, hrun, ht, fun nullcmp => ?_⟩
  have hdiv : Diverges fun n => mboxRBTreeDelete h' t' (fun a b => a - b) nullcmp n 1 :=
    ht.delete_present isTotalPreorder_sub.isComparator hmem
  refine ⟨hdiv, ?_⟩
  rintro ⟨h'', t'', snt', T', hrun', -⟩
  exact hdiv.not_terminates ⟨_, hrun'⟩

end Libmbox2
