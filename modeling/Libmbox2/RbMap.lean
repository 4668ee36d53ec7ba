import Libmbox2.RbInsert

/-!
# The tree as a map (`mboxRBTreeGet`, `mboxRBTreeHas`, `mboxRBTreeForEach`)

What a tree holds is its list of entries. A search finds one that compares as equal if there
is one, and the walk over the tree visits them in order. After any insertions the entries
are those written first (`insertAll_spec`), whatever the comparator takes for equal.
-/

namespace Libmbox2

open CSem CSem.Exec CSem.RBTree

variable {K V : Type} {cmp : K → K → Int} {snt : RbNode K V} {h : Heap (RbNode K V)}
  {t : MboxRBTree} {T sub : RBTree (RbEntry K V)} {root : Ptr} {key : K}
  {fs : List (Frame (RbEntry K V))}

/-! ## Looking up -/

namespace Seeking

variable {c : Color} {a : RbEntry K V} {l r : RBTree (RbEntry K V)}

/-- A step of `rbNodeFind` in a tree: it ends at an equal key, and goes to the left for a smaller
one and to the right for a greater one. -/
theorem find_step_eq (hs : Seeking cmp snt h root T key fs (node c l a r)) :
    rbNodeFindStep cmp h key (some a.addr) =
      if cmp key a.key = 0 then ok (.inr (some a.addr))
      else if cmp key a.key < 0 then ok (.inl (ptr l))
      else ok (.inl (ptr r)) := by
  have hne : ¬ ((some a.addr : Ptr) = none ∨ some a.addr = rbSentinal) :=
    not_or.2 ⟨Option.some_ne_none _, hs.ne_sentinal⟩
  rw [rbNodeFindStep, if_neg hne, Heap.load_eq hs.get, ok_bind, keyOf_sideNode, ok_bind]
  rfl

/-- **What a lookup finds**: a node whose key compares as equal, if there is one. -/
theorem find (hcmp : IsComparator cmp)
    (hsorted : T.toList.Pairwise fun a b => cmp a.key b.key < 0)
    (hs : Seeking cmp snt h root T key fs sub) {n : ℕ} (hn : sub.depth < n) :
    (∃ a ∈ T.toList, cmp key a.key = 0 ∧ a.addr ≠ 0 ∧
      loop (rbNodeFindStep cmp h key) n (ptr sub) = ok (some a.addr) ∧
      ∃ node, h.get (some a.addr) = some node ∧ node.value = a.value) ∨
    (loop (rbNodeFindStep cmp h key) n (ptr sub) = ok none ∧
      ∀ a ∈ T.toList, cmp key a.key ≠ 0) := by
  induction sub generalizing fs n with
  | nil =>
    obtain ⟨n, rfl⟩ := Nat.exists_eq_add_of_lt hn
    refine Or.inr ⟨?_, fun a ha heq => ?_⟩
    · rw [loop_succ, rbNodeFindStep, ptr, if_pos (Or.inr rfl)]
      rfl
    · rw [← hs.tree, plug_toList, toList, List.append_nil] at ha
      rcases List.mem_append.1 ha with ha | ha
      · exact (hs.before a ha).ne' heq
      · exact (hs.after a ha).ne heq
  | node c l a r ihl ihr =>
    rw [depth] at hn
    obtain ⟨n, rfl⟩ : ∃ k, n = k + 1 :=
      ⟨n - 1, (Nat.succ_pred_eq_of_pos (Nat.zero_lt_of_lt hn)).symm⟩
    have hdepth : max l.depth r.depth < n := Nat.lt_of_succ_lt_succ hn
    rw [ptr, loop_succ, hs.find_step_eq]
    rcases Int.lt_trichotomy (cmp key a.key) 0 with hlt | heq | hgt
    · rw [if_neg hlt.ne, if_pos hlt]
      exact ihl (hs.left hcmp hsorted hlt) (lt_of_le_of_lt (le_max_left _ _) hdepth)
    · rw [if_pos heq]
      refine Or.inl ⟨a, hs.mem, heq, ?_, rfl, _, hs.get, rfl⟩
      exact fun h0 => hs.ne_sentinal (congrArg some h0)
    · rw [if_neg hgt.ne', if_neg hgt.le.not_gt]
      exact ihr (hs.right hcmp hsorted hgt) (lt_of_le_of_lt (le_max_right _ _) hdepth)

end Seeking

namespace IsRbTree

/-- A red-black tree of `n` nodes is at most `2 log₂ (n + 1)` deep, which bounds the loops over
it. -/
theorem depth_le (ht : IsRbTree cmp snt h t T) : T.depth ≤ 2 * Nat.log 2 (t.size + 1) := by
  obtain ⟨n, hn⟩ := ht.balanced
  rw [ht.size]
  exact hn.depth_le_log

/-- Searching takes few iterations: the last one sees that there is nothing below. -/
theorem lookup (hcmp : IsComparator cmp) (ht : IsRbTree cmp snt h t T) (key : K) {n : ℕ}
    (hn : 2 * Nat.log 2 (t.size + 1) < n) :
    (∃ a ∈ T.toList, cmp key a.key = 0 ∧ a.addr ≠ 0 ∧
      rbNodeFind cmp h n t.root key = ok (some a.addr) ∧
      ∃ node, h.get (some a.addr) = some node ∧ node.value = a.value) ∨
    (rbNodeFind cmp h n t.root key = ok none ∧ ∀ a ∈ T.toList, cmp key a.key ≠ 0) := by
  have hroot : t.root = ptr T := ht.focus.above
  have hfind := (ht.seeking key).find hcmp ht.sorted (lt_of_le_of_lt ht.depth_le hn)
  rw [← hroot] at hfind
  exact hfind

/-- The search for the place of a new key ends within that bound. -/
theorem insert_search (hcmp : IsComparator cmp) (ht : IsRbTree cmp snt h t T) (key : K) {n : ℕ}
    (hn : 2 * Nat.log 2 (t.size + 1) < n) :
    ∃ r, loop (searchStep cmp h key) n (t.root, none) = ok r := by
  have hroot : t.root = ptr T := ht.focus.above
  have hsearch := (ht.seeking key).search hcmp ht.sorted (lt_of_le_of_lt ht.depth_le hn)
  rw [← hroot] at hsearch
  rcases hsearch with ⟨hrun, _⟩ | ⟨fs, hrun, _⟩
  · exact ⟨_, hrun⟩
  · exact ⟨_, hrun⟩

variable (hcmp : IsComparator cmp) (ht : IsRbTree cmp snt h t T) (key : K)

include hcmp ht

/-- **`mboxRBTreeGet`** gives the value of the entry with that key, and nothing where there is
none. -/
theorem get_spec :
    (∃ e ∈ entriesOf T, cmp key e.1 = 0 ∧
      Converges (fun n => mboxRBTreeGet cmp h t n key) e.2) ∨
    ((∀ e ∈ entriesOf T, cmp key e.1 ≠ 0) ∧
      Converges (fun n => mboxRBTreeGet cmp h t n key) none) := by
  rcases ht.lookup hcmp key (Nat.lt_succ_self _) with
    ⟨a, ha, heq, ha0, hrun, node, hget, hvalue⟩ | ⟨hrun, hnone⟩
  · refine Or.inl ⟨(a.key, a.value), List.mem_map_of_mem ha, heq, ?_⟩
    refine (Converges.loop hrun).bind (Converges.const ?_)
    have hne : (some a.addr : Ptr) ≠ none ∧ some a.addr ≠ rbSentinal :=
      ⟨Option.some_ne_none _, fun h0 => ha0 (Option.some.inj h0)⟩
    rw [if_pos hne, Heap.load_eq hget, ok_bind, hvalue]
    rfl
  · refine Or.inr ⟨fun e he => ?_, (Converges.loop hrun).bind (Converges.const rfl)⟩
    obtain ⟨a, ha, rfl⟩ := List.mem_map.1 he
    exact hnone a ha

/-- **`mboxRBTreeHas`** tells whether there is an entry with that key, as the comparator sees it. -/
theorem has_spec :
    Converges (fun n => mboxRBTreeHas cmp h t n key)
      ((entriesOf T).any fun e => cmp key e.1 = 0) := by
  rcases ht.lookup hcmp key (Nat.lt_succ_self _) with ⟨a, ha, heq, -, hrun, -⟩ | ⟨hrun, hnone⟩
  · have hany : ((entriesOf T).any fun e => cmp key e.1 = 0) = true :=
      List.any_eq_true.2 ⟨(a.key, a.value), List.mem_map_of_mem ha, decide_eq_true heq⟩
    rw [hany]
    exact (Converges.loop hrun).bind (Converges.const rfl)
  · have hany : ((entriesOf T).any fun e => cmp key e.1 = 0) = false := by
      rw [List.any_eq_false]
      intro e he
      obtain ⟨a, ha, rfl⟩ := List.mem_map.1 he
      rw [decide_eq_true_iff]
      exact hnone a ha
    rw [hany]
    exact (Converges.loop hrun).bind (Converges.const rfl)

end IsRbTree

/-! ## Walking over the tree -/

/-- The recursion over a subtree calls the callback with every entry of it, from left to right,
passing on the closure. -/
theorem rbForEachHelper_eq {S : Type} (cb : Option K → Option V → S → Exec S) {parent : Ptr}
    (hsub : Shape h parent sub) (h0 : 0 ∉ addrs sub) {n : ℕ} (hn : sub.depth < n) (closure : S) :
    rbForEachHelper h cb n (ptr sub) closure =
      (entriesOf sub).foldlM (fun s e => cb (some e.1) e.2 s) closure := by
  induction sub generalizing parent n closure with
  | nil =>
    obtain ⟨n, rfl⟩ := Nat.exists_eq_add_of_lt hn
    rw [rbForEachHelper, ptr, if_pos (Or.inr rfl)]
    rfl
  | node c l a r ihl ihr =>
    obtain ⟨ha, hl, hr⟩ := hsub
    have hne : ¬ (ptr (node c l a r) = none ∨ ptr (node c l a r) = rbSentinal) := by
      rw [ptr_eq_sentinal h0]
      refine not_or.2 ⟨Option.some_ne_none _, fun hptr => ?_⟩
      cases hptr
    have haddrs : ∀ x, x ∈ addrs l ∨ x ∈ addrs r → x ∈ addrs (node c l a r) := fun x hx =>
      (addrs_branch (s := .left)).mem_iff.2 (List.mem_cons_of_mem _ (List.mem_append.2 hx))
    rw [depth] at hn
    obtain ⟨n, rfl⟩ : ∃ k, n = k + 1 :=
      ⟨n - 1, (Nat.succ_pred_eq_of_pos (Nat.zero_lt_of_lt hn)).symm⟩
    have hdepth : max l.depth r.depth < n := Nat.lt_of_succ_lt_succ hn
    rw [rbForEachHelper, if_neg hne, ptr, Heap.load_eq ha, ok_bind]
    simp only [ihl hl (fun h => h0 (haddrs 0 (Or.inl h)))
      (lt_of_le_of_lt (le_max_left _ _) hdepth), ihr hr (fun h => h0 (haddrs 0 (Or.inr h)))
      (lt_of_le_of_lt (le_max_right _ _) hdepth)]
    simp only [entriesOf_node, List.foldlM_append, List.foldlM_cons]

/-- **`mboxRBTreeForEach`** folds the callback over the entries in the order of their keys, and
stops with the first fault. -/
theorem IsRbTree.forEach_spec {S : Type} (ht : IsRbTree cmp snt h t T)
    (cb : Option K → Option V → S → Exec S) {n : ℕ} (hn : 2 * Nat.log 2 (t.size + 1) < n)
    (closure : S) :
    mboxRBTreeForEach h t cb n closure =
      (entriesOf T).foldlM (fun s e => cb (some e.1) e.2 s) closure := by
  have hroot : t.root = ptr T := ht.focus.above
  rw [mboxRBTreeForEach, hroot]
  exact rbForEachHelper_eq cb ht.focus.shape (fun h0 => ht.focus.zero (List.mem_append_left _ h0))
    (lt_of_le_of_lt ht.depth_le hn) closure

/-- Collecting what the callback is called with gives the entries of the tree, each once and in
order. -/
theorem IsRbTree.forEach_collect (ht : IsRbTree cmp snt h t T) :
    Converges (fun n => mboxRBTreeForEach h t (fun k v acc => ok (acc ++ [(k, v)])) n [])
      ((entriesOf T).map fun e => (some e.1, e.2)) := by
  have hfold : ∀ (es : List (K × Option V)) (acc : List (Option K × Option V)),
      es.foldlM (fun s e => ok (s ++ [(some e.1, e.2)])) acc =
        ok (acc ++ es.map fun e => (some e.1, e.2)) := by
    intro es
    induction es with
    | nil => exact fun acc => by rw [List.map_nil, List.append_nil]; rfl
    | cons e es ih =>
      intro acc
      rw [List.foldlM_cons, ok_bind, ih, List.append_assoc]
      rfl
  refine ⟨2 * Nat.log 2 (t.size + 1) + 1, fun n hn => ?_⟩
  exact (ht.forEach_spec _ hn []).trans (hfold _ [])

/-! ## Any insertions -/

theorem rbInsertFixup_mono (h : Heap (RbNode K V)) (t : MboxRBTree) (z : Ptr) :
    FuelMono fun n => rbInsertFixup h t n z :=
  (FuelMono.loop ..).bind fun _ => FuelMono.const _

theorem rbInsertAt_mono (cmp : K → K → Int) (h : Heap (RbNode K V)) (t : MboxRBTree) (key : K)
    (value : Option V) (y : Ptr) : FuelMono fun n => rbInsertAt cmp h t n key value y := by
  refine (FuelMono.const _).bind fun h => FuelMono.ite (FuelMono.const _) ?_
  refine (FuelMono.const _).bind fun node => (FuelMono.const _).bind fun nodeKey => ?_
  refine (FuelMono.const _).bind fun h => (FuelMono.const _).bind fun parent => ?_
  exact FuelMono.ite (FuelMono.const _) (rbInsertFixup_mono ..)

theorem mboxRBTreeInsert_mono (cmp : K → K → Int) (h : Heap (RbNode K V)) (t : MboxRBTree)
    (key : K) (value : Option V) : FuelMono fun n => mboxRBTreeInsert cmp h t n key value := by
  refine (FuelMono.loop ..).bind fun r => ?_
  cases r with
  | none => exact FuelMono.const _
  | some y => exact rbInsertAt_mono ..

/-- Insertions one after the other, each into the tree the one before it has left. -/
def insertAll (cmp : K → K → Int) (n : ℕ) (es : List (K × Option V))
    (ht : Heap (RbNode K V) × MboxRBTree) : Exec (Heap (RbNode K V) × MboxRBTree) :=
  es.foldlM (fun ht e => mboxRBTreeInsert cmp ht.1 ht.2 n e.1 e.2) ht

/-- **A run of insertions** leaves a red-black tree with the entries that are written first under
their keys. -/
theorem insertAll_spec (hcmp : IsComparator cmp) (es : List (K × Option V))
    (ht : IsRbTree cmp snt h t T) :
    ∃ h' t' T', Converges (fun n => insertAll cmp n es (h, t)) (h', t') ∧
      IsRbTree cmp snt h' t' T' ∧
      (entriesOf T').Perm (es.foldl (firstWrite cmp) (entriesOf T)) := by
  induction es using List.reverseRecOn with
  | nil => exact ⟨h, t, T, Converges.const rfl, ht, List.Perm.refl _⟩
  | append_singleton es e ih =>
    obtain ⟨h₁, t₁, T₁, hrun₁, ht₁, hperm₁⟩ := ih
    obtain ⟨h', t', T', hrun, ht', hperm⟩ := mboxRBTreeInsert_spec hcmp ht₁ e.1 e.2
    have hlast : Converges (fun n => insertAll cmp n [e] (h₁, t₁)) (h', t') :=
      Converges.congr (fun n => List.foldlM_cons.trans (bind_pure _)) hrun
    refine ⟨h', t', T', Converges.congr (fun n => ?_) (hrun₁.bind hlast), ht', ?_⟩
    · rw [insertAll, List.foldlM_append]
      rfl
    · rw [List.foldl_append]
      exact hperm.trans (firstWrite_perm hperm₁ e)

/-- `rbTreeNew` gives an empty tree, in a heap that has the sentinel every leaf points to. -/
theorem rbTreeNew_spec (cmp : K → K → Int) {snt₀ : RbNode K V}
    (hsnt : h.get rbSentinal = some snt₀) :
    ∃ h₀ snt, rbTreeNew h = ok (h₀, ⟨rbSentinal, 0⟩) ∧
      IsRbTree cmp snt h₀ ⟨rbSentinal, 0⟩ nil := by
  obtain ⟨h₀, hrun, hget, hoff⟩ := Heap.modify_at hsnt fun node =>
    { node with color := .black, left := none, right := none, key := none, value := none }
  refine ⟨h₀, _, ?_, ⟨⟨trivial, rfl, List.nodup_nil, List.not_mem_nil, hget⟩, rfl,
    ⟨0, Balanced.nil⟩, List.Pairwise.nil, rfl⟩⟩
  rw [rbTreeNew, hrun]
  rfl

/-- The keys of a tree are ascending, so no two entries have equal ones. -/
theorem entriesOf_ascending (ht : IsRbTree cmp snt h t T) :
    (entriesOf T).Pairwise fun x y => cmp x.1 y.1 < 0 :=
  List.pairwise_map.2 ht.sorted

/-- **The invariant of the tree**, from its creation on: after any insertions it is ordered,
balanced and linked both ways, the sentinel is what it was, and a search is short. -/
theorem insertAll_isRbTree (hcmp : IsTotalPreorder cmp) (h : Heap (RbNode K V))
    {snt₀ : RbNode K V} (hsnt : h.get rbSentinal = some snt₀) (es : List (K × Option V)) :
    ∃ h₀ t₀ snt h' t' T, rbTreeNew h = ok (h₀, t₀) ∧
      Converges (fun n => insertAll cmp n es (h₀, t₀)) (h', t') ∧
      h₀.get rbSentinal = some snt ∧ IsRbTree cmp snt h' t' T ∧
      T.depth ≤ 2 * Nat.log 2 (t'.size + 1) ∧
      ∀ key n, 2 * Nat.log 2 (t'.size + 1) < n →
        (∃ r, loop (searchStep cmp h' key) n (t'.root, none) = ok r) ∧
        ∃ p, rbNodeFind cmp h' n t'.root key = ok p := by
  obtain ⟨h₀, snt, hnew, ht₀⟩ := rbTreeNew_spec cmp hsnt
  obtain ⟨h', t', T, hrun, ht, -⟩ := insertAll_spec hcmp.isComparator es ht₀
  refine ⟨h₀, _, snt, h', t', T, hnew, hrun, ht₀.focus.sentinal, ht, ht.depth_le,
    fun key n hn => ⟨ht.insert_search hcmp.isComparator key hn, ?_⟩⟩
  rcases ht.lookup hcmp.isComparator key hn with ⟨a, -, -, -, hfind, -⟩ | ⟨hfind, -⟩
  · exact ⟨_, hfind⟩
  · exact ⟨_, hfind⟩

/-- Three insertions, the third with a key that is there already. -/
theorem insertAll_isRbTree_three :
    ∃ h₀ t₀ snt h' t' T, rbTreeNew ⟨[some ⟨none, none, .red, none, none, none⟩]⟩ = ok (h₀, t₀) ∧
      Converges (fun n => insertAll (fun a b : Int => a - b) n
        [(2, some 'b'), (1, none), (2, some 'c')] (h₀, t₀)) (h', t') ∧
      IsRbTree (fun a b : Int => a - b) snt h' t' T := by
  obtain ⟨h₀, t₀, snt, h', t', T, hnew, hrun, -, ht, -⟩ :=
    insertAll_isRbTree isTotalPreorder_sub ⟨[some ⟨none, none, .red, none, none, none⟩]⟩ rfl
      [(2, some 'b'), (1, none), (2, some 'c')]
  exact ⟨h₀, t₀, snt, h', t', T, hnew, hrun, ht⟩

/-- **The tree is a map in which the first write wins**: over any insertions `mboxRBTreeGet` gives
the value that was inserted first with the key, `mboxRBTreeHas` tells whether there is one, and
`mboxRBTreeForEach` goes over the kept entries once, in order. -/
theorem insertAll_firstWrites (hcmp : IsTotalPreorder cmp) (h : Heap (RbNode K V))
    {snt₀ : RbNode K V} (hsnt : h.get rbSentinal = some snt₀) (es : List (K × Option V)) :
    ∃ h₀ t₀ h' t', ∃ L : List (K × Option V), rbTreeNew h = ok (h₀, t₀) ∧
      Converges (fun n => insertAll cmp n es (h₀, t₀)) (h', t') ∧
      (∀ k, Converges (fun n => mboxRBTreeHas cmp h' t' n k) (es.any fun e => cmp k e.1 = 0)) ∧
      (∀ k, Converges (fun n => mboxRBTreeGet cmp h' t' n k)
        ((es.find? fun e => cmp k e.1 = 0).bind Prod.snd)) ∧
      L.Pairwise (fun x y => cmp x.1 y.1 < 0) ∧
      (∀ e, e ∈ L ↔ es.find? (fun x => cmp e.1 x.1 = 0) = some e) ∧
      ∀ (S : Type) (cb : Option K → Option V → S → Exec S) (closure : S),
        ∃ N, ∀ n, N ≤ n → mboxRBTreeForEach h' t' cb n closure =
          L.foldlM (fun s e => cb (some e.1) e.2 s) closure := by
  obtain ⟨h₀, snt, hnew, ht₀⟩ := rbTreeNew_spec cmp hsnt
  obtain ⟨h', t', T, hrun, ht, hperm⟩ := insertAll_spec hcmp.isComparator es ht₀
  have hasc := entriesOf_ascending ht
  have hfind := find_ascending hcmp hasc hperm
  refine ⟨h₀, _, h', t', entriesOf T, hnew, hrun, fun k => ?_, fun k => ?_, hasc,
    mem_ascending hcmp hasc hperm, fun S cb closure => ?_⟩
  · rw [← List.isSome_find?, ← hfind, List.isSome_find?]
    exact ht.has_spec hcmp.isComparator k
  · rw [← hfind]
    rcases ht.get_spec hcmp.isComparator k with ⟨e, he, hke, hget⟩ | ⟨hnone, hget⟩
    · rw [find_eq_some hcmp hasc he hke]
      exact hget
    · rw [List.find?_eq_none.2 fun e he => by simpa using hnone e he]
      exact hget
  · exact ⟨2 * Nat.log 2 (t'.size + 1) + 1, fun n hn => ht.forEach_spec cb hn closure⟩

/-- The same insertions, of which the first value of a key is kept. -/
theorem insertAll_firstWrites_three :
    ∃ h₀ t₀ h' t', rbTreeNew ⟨[some ⟨none, none, .red, none, none, none⟩]⟩ = ok (h₀, t₀) ∧
      Converges (fun n => insertAll (fun a b : Int => a - b) n
        [(2, some 'b'), (1, none), (2, some 'c')] (h₀, t₀)) (h', t') ∧
      Converges (fun n => mboxRBTreeGet (fun a b : Int => a - b) h' t' n 2) (some 'b') := by
  obtain ⟨h₀, t₀, h', t', L, hnew, hrun, -, hget, -⟩ :=
    insertAll_firstWrites isTotalPreorder_sub ⟨[some ⟨none, none, .red, none, none, none⟩]⟩ rfl
      [(2, some 'b'), (1, none), (2, some 'c')]
  exact ⟨h₀, t₀, h', t', hnew, hrun, hget 2⟩

end Libmbox2
