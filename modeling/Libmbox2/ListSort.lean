import Libmbox2.LinkedList
import Libmbox2.Quicksort

/-!
# Sorting a list (`mboxListQSort`)

The sort moves the data of the nodes and leaves the links alone. A call works on the nodes
from `low` to `high`. In front of `prev` and up to it lies what the partition has found to
be at most the pivot; as the list is a ring, the node in front of `low` stands for "none
yet" also when `low` is the first one. When one side of the pivot is empty the recursive
call is made with `high` in front of `low`, which its second test catches.

`mboxQSortHelper_spec` says that a call makes of the data between `low` and `high` what
quicksort makes of it, for any comparator. Which data change places with which is part of that:
a comparator that is no order sorts some lists and others not.
-/

namespace Libmbox2

open CSem CSem.Exec

variable {D : Type}

section Functions

variable (compare : D → D → Int)

/-- `prev = (prev == NULL) ? low : prev->next`: one step of the pointer behind which what passes the
test is put. -/
def nextOr (h : Heap (MboxLNode D)) (prev low : Ptr) : Exec Ptr :=
  if prev = none then pure low else do
  let node ← h.load prev
  pure node.next

/-- Exchange the data of two nodes; their links stay. -/
def swapData (h : Heap (MboxLNode D)) (p q : Ptr) : Exec (Heap (MboxLNode D)) := do
  let tmp ← h.load p
  let current ← h.load q
  let h ← setData h p current.data
  setData h q tmp.data

/-- One iteration of the loop of `mboxListQSortPivot`: data that are not greater than the pivot are
exchanged to the front. -/
def qsortPivotStep (pivot : D) (low high : Ptr) :
    Heap (MboxLNode D) × Ptr × Ptr →
      Exec (Heap (MboxLNode D) × Ptr × Ptr ⊕ Heap (MboxLNode D) × Ptr × Ptr)
  | (h, prev, current) =>
    if current = high then pure (.inr (h, prev, current)) else do
    let node ← h.load current
    if compare node.data pivot ≤ 0 then
      let prev ← nextOr h prev low
      let h ← swapData h prev current
      pure (.inl (h, prev, node.next))
    else pure (.inl (h, prev, node.next))

/-- The partition of the nodes from `low` to `high`, with the data of `high` as the pivot. It
returns the node the pivot comes to. -/
def mboxListQSortPivot (fuel : ℕ) (h : Heap (MboxLNode D)) (low high : Ptr) :
    Exec (Ptr × Heap (MboxLNode D)) := do
  let pivot ← h.load high
  let node ← h.load low
  let (h, prev, current) ←
    loop (qsortPivotStep compare pivot.data low high) fuel (h, node.prev, low)
  let prev ← nextOr h prev low
  let h ← swapData h prev current
  pure (prev, h)

/-- `low == high || (count == 1 && low == high->next)` -/
def qsortDone (h : Heap (MboxLNode D)) (low high : Ptr) (count : ℕ) : Exec Bool :=
  if low = high then pure true
  else if count = 1 then do
    let node ← h.load high
    pure (decide (low = node.next))
  else pure false

/-- The recursion: the part in front of the pivot, and the part behind it. -/
def mboxQSortHelper : ℕ → Heap (MboxLNode D) → Ptr → Ptr → ℕ → Exec (Heap (MboxLNode D))
  | 0, _, _, _, _ => timeout
  | fuel + 1, h, low, high, count => do
    if ← qsortDone h low high count then pure h else
    let (pivot, h) ← mboxListQSortPivot compare fuel h low high
    let node ← h.load pivot
    let h ← mboxQSortHelper fuel h low node.prev 1
    let node ← h.load pivot
    mboxQSortHelper fuel h node.next high 1

/-- Quick sort the list. The early return leaves the lock taken. -/
def mboxListQSort (compare : Option (D → D → Int)) (fuel : ℕ) (h : Heap (MboxLNode D))
    (l : MboxList) : Exec (Heap (MboxLNode D) × MboxList) := do
  let l ← mboxListLock l
  match compare with
  | none => pure (h, l)
  | some compare =>
    if l.len ≤ 1 then pure (h, l) else
    let root ← h.load l.root
    let h ← mboxQSortHelper compare fuel h l.root root.prev 0
    pure (h, mboxListUnlock l)

end Functions

/-! ## One partition -/

variable {compare : D → D → Int} {ps : List ℕ} {h : Heap (MboxLNode D)} {A B C R big : List D}
  {p x : D}

/-- The data behind `C` changes places with the data in front of `R`: what is from `C` on has the
second as its first and then what is left, with the first at its end. -/
theorem swapData_spec (hr : Ring h ps (C ++ big ++ x :: R)) :
    ∃ h', swapData h ps[C.length]? ps[(C ++ big).length]? = ok h' ∧
      Ring h' ps (C ++ x :: (big.rotate 1 ++ R)) := by
  have hx := Heap.load_eq hr.get_append
  cases big with
  | nil =>
    rw [List.append_nil] at hr hx ⊢
    obtain ⟨h₁, hset₁, hr₁⟩ := hr.setData x
    obtain ⟨h₂, hset₂, hr₂⟩ := hr₁.setData x
    refine ⟨h₂, ?_, hr₂⟩
    simp only [swapData, hx, hset₁, hset₂, ok_bind]
  | cons b bs =>
    rw [List.append_assoc, List.cons_append] at hr
    have hb := Heap.load_eq hr.get_append
    obtain ⟨h₁, hset₁, hr₁⟩ := hr.setData x
    have hr₁' : Ring h₁ ps (C ++ x :: bs ++ x :: R) := by
      rw [List.append_assoc, List.cons_append]
      exact hr₁
    obtain ⟨h₂, hset₂, hr₂⟩ := hr₁'.setData b
    have hlen : (C ++ x :: bs).length = (C ++ b :: bs).length := by simp
    rw [hlen] at hset₂
    refine ⟨h₂, ?_, ?_⟩
    · simp only [swapData, hx, hb, hset₁, hset₂, ok_bind]
    · have heq : C ++ x :: ((b :: bs).rotate 1 ++ R) = C ++ x :: bs ++ b :: R := by simp
      rw [heq]
      exact hr₂

/-- The node behind `prev`, which is null in front of the first one. -/
theorem nextOr_prevAt {xs : List D} (hr : Ring h ps xs) {i : ℕ} (hi : i < xs.length)
    (low : Ptr) : nextOr h (prevAt ps i) low = ok ps[i]? := by
  obtain ⟨node, hget, hnext⟩ := hr.get_prevAt hi
  have hne : prevAt ps i ≠ none := by
    intro hnone
    rw [hnone] at hget
    cases hget
  rw [nextOr, if_neg hne, Heap.load_eq hget, ok_bind, hnext]
  rfl

/-- The node behind one that is not the last is the next one. -/
theorem nextAt_append (hr : Ring h ps (C ++ x :: R)) (hR : R ≠ []) :
    nextAt ps C.length = ps[C.length + 1]? := by
  have hlen : ps.length = (C ++ x :: R).length := hr.length
  have hpos := List.length_pos_iff.mpr hR
  rw [List.length_append, List.length_cons] at hlen
  rw [nextAt, if_neg (by omega)]

/-- The loop looks at data that is at most the pivot. -/
theorem qsortPivotStep_small (low : Ptr) {high : Ptr} (hr : Ring h ps (C ++ big ++ x :: R))
    (hhigh : ps[(C ++ big).length]? ≠ high) (hR : R ≠ []) (hx : compare x p ≤ 0) :
    ∃ h', qsortPivotStep compare p low high
        (h, prevAt ps C.length, ps[(C ++ big).length]?) =
          ok (.inl (h', ps[C.length]?, ps[(C ++ big).length + 1]?)) ∧
      Ring h' ps (C ++ x :: (big.rotate 1 ++ R)) := by
  obtain ⟨h', hswap, hr'⟩ := swapData_spec hr
  have hC : C.length < (C ++ big ++ x :: R).length := by
    simp only [List.length_append, List.length_cons]
    omega
  refine ⟨h', ?_, hr'⟩
  rw [qsortPivotStep, if_neg hhigh, Heap.load_eq hr.get_append, ok_bind, if_pos hx,
    nextOr_prevAt hr hC, ok_bind, hswap, ok_bind, nextAt_append hr hR]
  rfl

/-- The loop comes to data that do not pass the test, and leaves them where they are. -/
theorem qsortPivotStep_big (low prev : Ptr) {high : Ptr} (hr : Ring h ps (C ++ x :: R))
    (hhigh : ps[C.length]? ≠ high) (hR : R ≠ []) (hx : ¬ compare x p ≤ 0) :
    qsortPivotStep compare p low high (h, prev, ps[C.length]?) =
      ok (.inl (h, prev, ps[C.length + 1]?)) := by
  rw [qsortPivotStep, if_neg hhigh, Heap.load_eq hr.get_append, ok_bind, if_neg hx,
    nextAt_append hr hR]
  rfl

/-- The test that the sort makes against the pivot: not greater than it. -/
abbrev atMost (compare : D → D → Int) (a b : D) : Prop := compare a b ≤ 0

/-- **The loop of the partition**, with `rest` still to be looked at: the small elements are in
front, the big ones behind them. -/
theorem qsortPivot_loop (low : Ptr) {high : Ptr} (rest small big : List D)
    (hr : Ring h ps (A ++ small ++ big ++ (rest ++ p :: B)))
    (hhigh : high = ps[(A ++ small ++ big ++ rest).length]?) {parts : List D × List D}
    (hparts : rest.foldl (partitionStep (atMost compare) p) (small, big) = parts) :
    ∃ h', LoopTo (fun _ => qsortPivotStep compare p low high)
        (h, prevAt ps (A ++ small).length, ps[(A ++ small ++ big).length]?)
        (h', prevAt ps (A ++ parts.1).length, high) ∧
      Ring h' ps (A ++ parts.1 ++ parts.2 ++ p :: B) := by
  induction rest generalizing h small big with
  | nil =>
    subst hparts
    rw [List.append_nil] at hhigh
    refine ⟨h, LoopTo.done (Converges.const ?_), hr⟩
    rw [qsortPivotStep, if_pos hhigh.symm, hhigh]
    rfl
  | cons y rest ih =>
    rw [List.cons_append] at hr
    rw [List.foldl_cons, partitionStep] at hparts
    have hne : ps[(A ++ small ++ big).length]? ≠ high := by
      intro heq
      rw [hhigh] at heq
      have hinj := hr.inj (by simp) heq
      simp only [List.length_append, List.length_cons] at hinj
      omega
    have hR : rest ++ p :: B ≠ [] := List.append_ne_nil_of_right_ne_nil _ (List.cons_ne_nil _ _)
    by_cases hle : compare y p ≤ 0
    · rw [if_pos hle] at hparts
      obtain ⟨h₁, hstep, hr₁⟩ := qsortPivotStep_small low hr hne hR hle
      have heq : A ++ small ++ y :: (big.rotate 1 ++ (rest ++ p :: B)) =
          A ++ (small ++ [y]) ++ big.rotate 1 ++ (rest ++ p :: B) := by simp
      rw [heq] at hr₁
      have hprev : prevAt ps (A ++ (small ++ [y])).length = ps[(A ++ small).length]? := by
        rw [← prevAt_succ, ← List.append_assoc, List.length_append, List.length_singleton]
      have hcur : (A ++ (small ++ [y]) ++ big.rotate 1).length =
          (A ++ small ++ big).length + 1 := by
        simp only [List.length_append, List.length_singleton, List.length_rotate]
        omega
      obtain ⟨h', hloop, hr'⟩ := ih (small ++ [y]) (big.rotate 1) hr₁
        (by rw [hhigh]; congr 1; simp [Nat.add_assoc]) hparts
      rw [hprev, hcur] at hloop
      exact ⟨h', LoopTo.step (Converges.const hstep) hloop, hr'⟩
    · rw [if_neg hle] at hparts
      have hstep := qsortPivotStep_big low (prevAt ps (A ++ small).length) hr hne hR hle
      have heq : A ++ small ++ big ++ y :: (rest ++ p :: B) =
          A ++ small ++ (big ++ [y]) ++ (rest ++ p :: B) := by simp
      rw [heq] at hr
      have hcur : (A ++ small ++ (big ++ [y])).length = (A ++ small ++ big).length + 1 := by
        rw [← List.append_assoc, List.length_append, List.length_singleton]
      obtain ⟨h', hloop, hr'⟩ := ih small (big ++ [y]) hr (by rw [hhigh]; simp) hparts
      rw [hcur] at hloop
      exact ⟨h', LoopTo.step (Converges.const hstep) hloop, hr'⟩

/-- **The pivot is put between its two parts**, which are those of `lomuto`, in that order. -/
theorem qsortPivot_spec (compare : D → D → Int) {M l r : List D}
    (hr : Ring h ps (A ++ M ++ p :: B)) (hparts : lomuto (atMost compare) p M = (l, r)) :
    ∃ h', Converges (fun n => mboxListQSortPivot compare n h ps[A.length]?
        ps[(A ++ M).length]?) (ps[(A ++ l).length]?, h') ∧
      Ring h' ps (A ++ l ++ p :: (r ++ B)) := by
  have hlow : A.length < (A ++ M ++ p :: B).length := by
    simp only [List.length_append, List.length_cons]
    omega
  have hload := Heap.load_eq hr.get_append
  have hroot := Heap.load_eq (hr.get_lt hlow)
  have hr₀ : Ring h ps (A ++ [] ++ [] ++ (M ++ p :: B)) := by
    simpa only [List.append_nil, List.append_assoc] using hr
  obtain ⟨small, big, hfold⟩ :
      ∃ small big, M.foldl (partitionStep (atMost compare) p) ([], []) = (small, big) :=
    ⟨_, _, rfl⟩
  rw [lomuto, hfold] at hparts
  obtain ⟨rfl, rfl⟩ := Prod.mk.inj hparts
  obtain ⟨h₁, hloop, hr₁⟩ := qsortPivot_loop ps[A.length]? M [] [] hr₀
    (by rw [List.append_nil, List.append_nil]) hfold
  rw [List.append_nil, List.append_nil] at hloop
  have hk : (A ++ small).length < (A ++ small ++ big ++ p :: B).length := by
    simp only [List.length_append, List.length_cons]
    omega
  have hend : (A ++ M).length = (A ++ small ++ big).length := by
    have hlen := hr.length.symm.trans hr₁.length
    simp only [List.length_append, List.length_cons] at hlen ⊢
    omega
  obtain ⟨h₂, hswap, hr₂⟩ := swapData_spec hr₁
  refine ⟨h₂, ?_, hr₂⟩
  simp only [mboxListQSortPivot, hload, hroot, ok_bind]
  refine Converges.bind hloop.converges (Converges.const ?_)
  rw [nextOr_prevAt hr₁ hk, ok_bind, hend, hswap]
  rfl

/-! ## The whole sort -/

/-- A call that has nothing to do leaves the list as it is. -/
theorem mboxQSortHelper_done {low high : Ptr} {count : ℕ}
    (hdone : qsortDone h low high count = ok true) :
    Converges (fun n => mboxQSortHelper compare n h low high count) h := by
  refine Converges.of_succ (fun n => ?_) (Converges.const (m := ok h) rfl)
  rw [mboxQSortHelper, hdone]
  rfl

/-- Nothing is between a node and the one in front of it. -/
theorem qsortDone_empty {node : MboxLNode D} {low high : Ptr} (hhigh : h.get high = some node)
    (hnext : node.next = low) : qsortDone h low high 1 = ok true := by
  rw [qsortDone]
  split
  · rfl
  · rw [if_pos rfl, Heap.load_eq hhigh, ok_bind, decide_eq_true hnext.symm]
    rfl

/-- The call partitions and calls itself for both sides of the pivot. -/
theorem mboxQSortHelper_parts {low high pivot : Ptr} {count : ℕ} {h₁ h₂ h₃ : Heap (MboxLNode D)}
    {node₁ node₂ : MboxLNode D} (hdone : qsortDone h low high count = ok false)
    (hpivot : Converges (fun n => mboxListQSortPivot compare n h low high) (pivot, h₁))
    (hnode₁ : h₁.get pivot = some node₁)
    (hleft : Converges (fun n => mboxQSortHelper compare n h₁ low node₁.prev 1) h₂)
    (hnode₂ : h₂.get pivot = some node₂)
    (hright : Converges (fun n => mboxQSortHelper compare n h₂ node₂.next high 1) h₃) :
    Converges (fun n => mboxQSortHelper compare n h low high count) h₃ := by
  have hcalls : Converges (fun n => do
      let (pivot, h) ← mboxListQSortPivot compare n h low high
      let node ← h.load pivot
      let h ← mboxQSortHelper compare n h low node.prev 1
      let node ← h.load pivot
      mboxQSortHelper compare n h node.next high 1) h₃ := by
    refine Converges.bind hpivot ?_
    refine Converges.bind (Converges.const (Heap.load_eq hnode₁)) ?_
    refine Converges.bind hleft ?_
    exact Converges.bind (Converges.const (Heap.load_eq hnode₂)) hright
  refine Converges.of_succ (fun n => ?_) hcalls
  rw [mboxQSortHelper, hdone]
  rfl

/-- A call with different ends goes on to partition, unless it is the first one and the list wraps
around. -/
theorem qsortDone_false {M : List D} {count : ℕ} (hr : Ring h ps (A ++ M ++ p :: B)) (hM : M ≠ [])
    (hcount : count = 1 → A ++ B ≠ []) :
    qsortDone h ps[A.length]? ps[(A ++ M).length]? count = ok false := by
  have hpos := List.length_pos_iff.mpr hM
  have hlen : ps.length = (A ++ M ++ p :: B).length := hr.length
  rw [List.length_append, List.length_append, List.length_cons] at hlen
  have hA : A.length < (A ++ M ++ p :: B).length := by
    simp only [List.length_append, List.length_cons]
    omega
  have hends : ps[A.length]? ≠ ps[(A ++ M).length]? := by
    intro heq
    have hinj := hr.inj hA heq
    rw [List.length_append] at hinj
    omega
  rw [qsortDone, if_neg hends]
  by_cases hc : count = 1
  · have hnext : ps[A.length]? ≠ nextAt ps (A ++ M).length := by
      intro heq
      have hne := List.length_pos_iff.mpr (hcount hc)
      rw [List.length_append] at hne
      rw [nextAt, List.length_append] at heq
      split at heq
      · have hinj := hr.inj hA heq
        omega
      · have hinj := hr.inj hA heq
        omega
    rw [if_pos hc, Heap.load_eq hr.get_append, ok_bind, decide_eq_false hnext]
    rfl
  · rw [if_neg hc]
    rfl

/-- A call for `m` elements and the pivot behind them sorts what is between its ends. -/
def SortsRange (ps : List ℕ) (compare : D → D → Int) (m : ℕ) : Prop :=
  ∀ (h : Heap (MboxLNode D)) (A M B : List D) (p : D) (count : ℕ), M.length = m →
    Ring h ps (A ++ M ++ p :: B) → (count = 1 → A ++ B ≠ []) →
    ∃ M' h', Converges (fun n => mboxQSortHelper compare n h ps[A.length]?
        ps[(A ++ M).length]? count) h' ∧
      Ring h' ps (A ++ M' ++ B) ∧ LomutoSorted (atMost compare) (M ++ [p]) M'

/-- The call for what is in front of the pivot, which is where `p` is. -/
theorem sort_left {n : ℕ} {l C : List D} (ih : ∀ m < n, SortsRange ps compare m)
    (hr : Ring h ps (A ++ l ++ p :: C)) (hlen : l.length ≤ n) :
    ∃ l' h', Converges (fun n => mboxQSortHelper compare n h ps[A.length]?
        (prevAt ps (A ++ l).length) 1) h' ∧ Ring h' ps (A ++ l' ++ p :: C) ∧
      LomutoSorted (atMost compare) l l' := by
  rcases List.eq_nil_or_concat' l with rfl | ⟨l, q, rfl⟩
  · obtain ⟨node, hget, hnext⟩ := hr.get_prevAt (i := A.length) (by simp)
    rw [List.append_nil]
    exact ⟨[], h, mboxQSortHelper_done (qsortDone_empty hget hnext), hr, LomutoSorted.nil⟩
  · rw [← List.append_assoc, List.append_assoc, List.singleton_append] at hr
    rw [← List.append_assoc, List.length_append, List.length_singleton, prevAt_succ]
    rw [List.length_append, List.length_singleton] at hlen
    obtain ⟨l', h', hcall, hr', hsorted⟩ := ih l.length hlen h A l (p :: C) q 1 rfl hr
      fun _ => List.append_ne_nil_of_right_ne_nil _ (List.cons_ne_nil _ _)
    exact ⟨l', h', hcall, hr', hsorted⟩

/-- The call for what is behind the pivot. -/
theorem sort_right {n : ℕ} {r : List D} (ih : ∀ m < n, SortsRange ps compare m)
    (hr : Ring h ps (A ++ p :: (r ++ B))) (hlen : r.length ≤ n) :
    ∃ r' h', Converges (fun n => mboxQSortHelper compare n h (nextAt ps A.length)
        ps[(A ++ r).length]? 1) h' ∧ Ring h' ps (A ++ p :: (r' ++ B)) ∧
      LomutoSorted (atMost compare) r r' := by
  rcases List.eq_nil_or_concat' r with rfl | ⟨r, q, rfl⟩
  · rw [List.append_nil]
    exact ⟨[], h, mboxQSortHelper_done (qsortDone_empty hr.get_append rfl), hr, LomutoSorted.nil⟩
  · rw [List.length_append, List.length_singleton] at hlen
    have hlow : nextAt ps A.length = ps[(A ++ [p]).length]? := by
      rw [nextAt_append hr (by simp), List.length_append, List.length_singleton]
    have hhigh : (A ++ (r ++ [q])).length = (A ++ [p] ++ r).length := by
      simp only [List.length_append, List.length_singleton]
      omega
    have heq : A ++ p :: (r ++ [q] ++ B) = A ++ [p] ++ r ++ q :: B := by simp
    rw [heq] at hr
    obtain ⟨r', h', hcall, hr', hsorted⟩ := ih r.length hlen h (A ++ [p]) r B q 1 rfl hr
      fun _ => by simp
    rw [hlow, hhigh]
    refine ⟨r', h', hcall, ?_, hsorted⟩
    rw [List.append_assoc, List.append_assoc, List.singleton_append] at hr'
    exact hr'

/-- **A call sorts what is between its ends**, by induction on how much that is. -/
theorem mboxQSortHelper_spec (ps : List ℕ) (compare : D → D → Int) (n : ℕ) :
    SortsRange ps compare n := by
  induction n using Nat.strongRecOn with
  | _ n ih =>
    intro h A M B p count hn hr hcount
    rcases eq_or_ne M [] with rfl | hM
    · rw [List.append_nil] at hr ⊢
      have hone : LomutoSorted (atMost compare) ([] ++ [p]) ([] ++ p :: []) :=
        .split rfl .nil .nil
      refine ⟨[p], h, mboxQSortHelper_done ?_, ?_, hone⟩
      · rw [qsortDone, if_pos rfl]
        rfl
      · rw [List.append_assoc]
        exact hr
    obtain ⟨l, r, hparts⟩ : ∃ l r, lomuto (atMost compare) p M = (l, r) := ⟨_, _, rfl⟩
    obtain ⟨h₁, hpivot, hr₁⟩ := qsortPivot_spec compare hr hparts
    have hlen : M.length = l.length + r.length := by
      have hperm : M.Perm ((lomuto (atMost compare) p M).1 ++ (lomuto (atMost compare) p M).2) :=
        perm_lomuto
      rw [hparts] at hperm
      rw [hperm.length_eq, List.length_append]
    obtain ⟨l', h₂, hleft, hr₂, hl⟩ := sort_left ih hr₁ (by omega)
    have hllen : (A ++ l').length = (A ++ l).length := by
      rw [List.length_append, List.length_append, hl.quickSorted.length_eq]
    obtain ⟨r', h₃, hright, hr₃, hsorted⟩ := sort_right ih hr₂ (by omega)
    have hhigh : (A ++ l' ++ r).length = (A ++ M).length := by
      rw [List.length_append, hllen, List.length_append, List.length_append, hlen, Nat.add_assoc]
    have hnode := hr₂.get_append
    rw [hllen] at hnode hright
    rw [hhigh] at hright
    refine ⟨l' ++ p :: r', h₃, mboxQSortHelper_parts (qsortDone_false hr hM hcount) hpivot
      hr₁.get_append hleft hnode hright, ?_, ?_⟩
    · rw [← List.append_assoc, List.append_assoc, List.cons_append]
      exact hr₃
    · refine LomutoSorted.split rfl ?_ ?_
      · rw [hparts]
        exact hl
      · rw [hparts]
        exact hsorted

/-- **The list is sorted** as quicksort with this partition sorts, and its nodes stay where they
are. -/
theorem mboxListQSort_lomuto {l : MboxList} {xs : List D} (hl : l.At h ps xs)
    (hlong : 2 ≤ xs.length) (hfree : l.locked = false) :
    ∃ ys h', Converges (fun n => mboxListQSort (some compare) n h l) (h', l) ∧ l.At h' ps ys ∧
      LomutoSorted (atMost compare) xs ys := by
  obtain ⟨M, p, rfl⟩ := (List.eq_nil_or_concat' xs).resolve_left fun hnil => by
    rw [hnil] at hlong
    cases hlong
  have hps : ps.length = (M ++ [p]).length := hl.ring.length
  have hlen : l.len = (M ++ [p]).length := hl.len
  rw [List.length_append, List.length_singleton] at hlong hps hlen
  have hprev : prevAt ps 0 = ps[([] ++ M).length]? := by
    rw [prevAt, if_pos rfl, hps]
    rfl
  have hload := Heap.load_eq (hl.ring.get_lt (i := 0) (by simp))
  rw [hprev, ← hl.root] at hload
  have hr₀ : Ring h ps ([] ++ M ++ p :: []) := hl.ring
  obtain ⟨ys, h', hcall, hr', hsorted⟩ :=
    mboxQSortHelper_spec ps compare M.length h [] M [] p 0 rfl hr₀ fun hzero => by cases hzero
  rw [List.nil_append, List.append_nil] at hr'
  refine ⟨ys, h', ?_, ⟨hr', hl.root, hl.len.trans hsorted.quickSorted.length_eq.symm⟩, hsorted⟩
  have hroot₀ : l.root = ps[([] : List D).length]? := hl.root
  rw [← hroot₀] at hcall
  have hlock : mboxListLock l = ok { l with locked := true } := by
    rw [mboxListLock, hfree]
    rfl
  have hunlock : mboxListUnlock { l with locked := true } = l := by
    rw [mboxListUnlock, ← hfree]
  have hmany : ¬ l.len ≤ 1 := by omega
  simp only [mboxListQSort, hlock, ok_bind, if_neg hmany, hload]
  refine Converges.bind hcall (Converges.const ?_)
  rw [hunlock]
  rfl

/-- A list of two data or more, with the lock free, is quicksorted. -/
theorem mboxListQSort_spec {l : MboxList} {xs : List D} (hl : l.At h ps xs)
    (hlong : 2 ≤ xs.length) (hfree : l.locked = false) :
    ∃ ys h', Converges (fun n => mboxListQSort (some compare) n h l) (h', l) ∧ l.At h' ps ys ∧
      QuickSorted (fun a b => compare a b ≤ 0) xs ys := by
  obtain ⟨ys, h', hrun, hl', hsorted⟩ : ∃ ys h',
      Converges (fun n => mboxListQSort (some compare) n h l) (h', l) ∧ l.At h' ps ys ∧
        LomutoSorted (atMost compare) xs ys := mboxListQSort_lomuto hl hlong hfree
  exact ⟨ys, h', hrun, hl', hsorted.quickSorted⟩

/-- A short list is left as it is, and its lock is not given back. -/
theorem mboxListQSort_short {l : MboxList} (compare : Option (D → D → Int)) (n : ℕ)
    (hlen : l.len ≤ 1) (hfree : l.locked = false) :
    mboxListQSort compare n h l = ok (h, { l with locked := true }) := by
  rw [mboxListQSort, mboxListLock, hfree]
  cases compare with
  | none => rfl
  | some compare => exact if_pos hlen

/-- A lock that is taken is waited for, so the call does not return. -/
theorem mboxListQSort_locked {l : MboxList} (compare : Option (D → D → Int)) (n : ℕ)
    (htaken : l.locked = true) : mboxListQSort compare n h l = timeout := by
  rw [mboxListQSort, mboxListLock, htaken]
  rfl

/-- A sort that returns has found the lock free. -/
theorem mboxListQSort_unlocked {l : MboxList} {compare : Option (D → D → Int)}
    {r : Heap (MboxLNode D) × MboxList}
    (hrun : Converges (fun n => mboxListQSort compare n h l) r) : l.locked = false := by
  obtain ⟨n, hn⟩ := hrun.exists_ok
  rw [← Bool.not_eq_true]
  intro htaken
  rw [mboxListQSort_locked compare n htaken] at hn
  cases hn

end Libmbox2
