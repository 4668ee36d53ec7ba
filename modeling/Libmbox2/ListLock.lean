import Libmbox2.Deque
import Libmbox2.ListSort

/-!
# The lock of a list

The functions whose names begin with `mboxListTS`, and `mboxListQSort`, take the lock of the
list first. With one client a call either gives the lock back or leaves it to block whatever
comes next. All calls give it back but one: a sort of a list with fewer than two elements, or
without a comparator, returns early (`TSCall.run_spec`, `TSCall.run_short`).
-/

namespace Libmbox2

open CSem CSem.Exec

variable {D N : Type}

section Functions

variable (h : Heap (MboxLNode D)) (l : MboxList)

/-- The loop of `mboxListFind`, over `count` nodes from `current` on. -/
def findNode (compare : D → N → Int) (searchData : N) (h : Heap (MboxLNode D)) :
    ℕ → Ptr → Exec (Option D)
  | 0, _ => pure none
  | count + 1, current => do
    let node ← h.load current
    if compare node.data searchData ≠ 0 then pure (some node.data)
    else findNode compare searchData h count node.next

/-- `mboxListFind`: the first element the comparison accepts, or null. -/
def mboxListFind (searchData : N) (compare : D → N → Int) : Exec (Option D) :=
  if l.len = 0 then pure none else findNode compare searchData h l.len l.root

/-- `mboxListTSFind`: the same with the lock held. -/
def mboxListTSFind (searchData : N) (compare : D → N → Int) : Exec (Option D × MboxList) := do
  let l ← mboxListLock l
  let retval ← mboxListFind h l searchData compare
  pure (retval, mboxListUnlock l)

/-- `mboxListTSAddHead`: an element goes to the front, with the lock held. -/
def mboxListTSAddHead (data : D) : Exec (Heap (MboxLNode D) × MboxList) := do
  let l ← mboxListLock l
  let (h, l) ← mboxListAddHead h l data
  pure (h, mboxListUnlock l)

/-- `mboxListTSRemoveHead`: the first element is taken off, with the lock held. -/
def mboxListTSRemoveHead : Exec (Option D × Heap (MboxLNode D) × MboxList) := do
  let l ← mboxListLock l
  let (retval, h, l) ← mboxListRemoveHead h l
  pure (retval, h, mboxListUnlock l)

/-- `mboxListTSRemoveTail`: the last one is, with the lock held. -/
def mboxListTSRemoveTail : Exec (Option D × Heap (MboxLNode D) × MboxList) := do
  let l ← mboxListLock l
  let (retval, h, l) ← mboxListRemoveTail h l
  pure (retval, h, mboxListUnlock l)

end Functions

/-- A call of one of the functions that lock the list. -/
inductive TSCall (D N : Type) where
  | find (searchData : N) (compare : D → N → Int)
  | addHead (data : D)
  | addTail (data : D)
  | removeHead
  | removeTail
  | qsort (compare : Option (D → D → Int))

namespace TSCall

/-- What a call returns, null if it returns nothing, and what it leaves. -/
def run (fuel : ℕ) (h : Heap (MboxLNode D)) (l : MboxList) :
    TSCall D N → Exec (Option D × Heap (MboxLNode D) × MboxList)
  | .find searchData compare => do
    let (x, l) ← mboxListTSFind h l searchData compare
    pure (x, h, l)
  | .addHead x => do
    let (h, l) ← mboxListTSAddHead h l x
    pure (none, h, l)
  | .addTail x => do
    let (h, l) ← mboxListTSAddTail h l x
    pure (none, h, l)
  | .removeHead => mboxListTSRemoveHead h l
  | .removeTail => mboxListTSRemoveTail h l
  | .qsort compare => do
    let (h, l) ← mboxListQSort compare fuel h l
    pure (none, h, l)

/-- How many elements a list of `n` elements has behind the call. -/
def lengthAfter (n : ℕ) : TSCall D N → ℕ
  | .addHead _ => n + 1
  | .addTail _ => n + 1
  | .removeHead => n - 1
  | .removeTail => n - 1
  | .find _ _ => n
  | .qsort _ => n

/-- The call gives the lock of a list of `n` elements back. -/
def GivesBack (n : ℕ) : TSCall D N → Prop
  | .qsort compare => compare ≠ none ∧ 2 ≤ n
  | _ => True

end TSCall

/-- All calls give the lock back, the first one on a list of `n` elements. -/
def GiveBack : ℕ → List (TSCall D N) → Prop
  | _, [] => True
  | n, c :: cs => c.GivesBack n ∧ GiveBack (c.lengthAfter n) cs

/-- The calls of a client, one after the other, on one list. -/
def tsRun (fuel : ℕ) : List (TSCall D N) → Heap (MboxLNode D) → MboxList →
    Exec (Heap (MboxLNode D) × MboxList)
  | [], h, l => pure (h, l)
  | c :: cs, h, l => do
    let (_, h, l) ← c.run fuel h l
    tsRun fuel cs h l

/-- Every call returns, and the lock is free behind it. -/
def LockBalanced (h : Heap (MboxLNode D)) (l : MboxList) (cs : List (TSCall D N)) : Prop :=
  ∀ cs₁, cs₁ <+: cs → ∃ h' l', Converges (fun n => tsRun n cs₁ h l) (h', l') ∧ l'.locked = false

/-! ## One call -/

variable {h : Heap (MboxLNode D)} {l : MboxList} {ps : List ℕ} {xs : List D}

theorem mboxListLock_free (hfree : l.locked = false) :
    mboxListLock l = ok { l with locked := true } := by
  rw [mboxListLock, hfree]
  rfl

/-- The lock makes no difference to what a list holds. -/
theorem MboxList.At.lock (hl : l.At h ps xs) (b : Bool) :
    ({ l with locked := b } : MboxList).At h ps xs := ⟨hl.ring, hl.root, hl.len⟩

/-- Looking at the nodes from one on touches none that is not there. -/
theorem findFrom_ok (hr : Ring h ps xs) (compare : D → N → Int) (searchData : N) {k i : ℕ}
    (hk : i + k = xs.length) : ∃ r, findNode compare searchData h k ps[i]? = ok r := by
  induction k generalizing i with
  | zero => exact ⟨none, rfl⟩
  | succ k ih =>
    have hi : i < xs.length := by omega
    have hload := Heap.load_eq (hr.get_lt hi)
    by_cases hfound : compare xs[i] searchData ≠ 0
    · exact ⟨some xs[i], by rw [findNode, hload, ok_bind, if_pos hfound]; rfl⟩
    · cases k with
      | zero => exact ⟨none, by rw [findNode, hload, ok_bind, if_neg hfound]; rfl⟩
      | succ k =>
        have hlen : ps.length = xs.length := hr.length
        have hnext : nextAt ps i = ps[i + 1]? := nextAt_of_lt (by omega)
        obtain ⟨r, hrest⟩ := ih (i := i + 1) (by omega)
        refine ⟨r, ?_⟩
        rw [findNode, hload, ok_bind, if_neg hfound, hnext]
        exact hrest

/-- A search in a list returns. -/
theorem mboxListFind_ok (hl : l.At h ps xs) (searchData : N) (compare : D → N → Int) :
    ∃ r, mboxListFind h l searchData compare = ok r := by
  rw [mboxListFind]
  split
  · exact ⟨none, rfl⟩
  · rw [hl.root, hl.len]
    exact findFrom_ok hl.ring compare searchData (Nat.zero_add _)

namespace TSCall

/-- **A call gives the lock back**, unless it is a sort with nothing to do. -/
theorem run_spec (hl : l.At h ps xs) (hfree : l.locked = false) {c : TSCall D N}
    (hc : c.GivesBack xs.length) :
    ∃ r h' l' ps' xs', Converges (fun n => c.run n h l) (r, h', l') ∧ l'.At h' ps' xs' ∧
      xs'.length = c.lengthAfter xs.length ∧ l'.locked = false := by
  have hlock := mboxListLock_free hfree
  have hl' := hl.lock true
  cases c with
  | find searchData compare =>
    obtain ⟨r, hrun⟩ := mboxListFind_ok hl' searchData compare
    refine ⟨r, h, mboxListUnlock { l with locked := true }, ps, xs, Converges.const ?_,
      hl.lock false, rfl, rfl⟩
    simp only [mboxListTSFind, hlock, hrun, ok_bind, pure_eq]
  | addHead x =>
    obtain ⟨a, h', hrun, hr, -, -⟩ := mboxListAddHead_at x hl'
    refine ⟨none, h', ⟨l.len + 1, some a, false⟩, a :: ps, x :: xs, Converges.const ?_,
      ⟨hr, rfl, ?_⟩, rfl, rfl⟩
    · simp only [mboxListTSAddHead, hlock, hrun, ok_bind, pure_eq]
      rfl
    · exact congrArg Nat.succ hl.len
  | addTail x =>
    obtain ⟨a, h', hrun, -, hr, -, -⟩ := mboxListAddTail_at x hl'
    refine ⟨none, h', ⟨l.len + 1, (ps ++ [a])[0]?, false⟩, ps ++ [a], xs ++ [x],
      Converges.const ?_, ⟨hr, rfl, ?_⟩, ?_, rfl⟩
    · simp only [mboxListTSAddTail, hlock, hrun, ok_bind, pure_eq]
      rfl
    · rw [List.length_append, List.length_singleton]
      exact congrArg Nat.succ hl.len
    · exact List.length_append
  | removeHead =>
    rcases xs with _ | ⟨x, xs⟩
    · refine ⟨none, h, mboxListUnlock { l with locked := true }, ps, [], Converges.const ?_,
        hl.lock false, rfl, rfl⟩
      have hzero : l.len = 0 := hl.len
      simp only [hlock, mboxListRemoveHead, hzero, true_or, if_true,
        ok_bind, pure_eq]
    · obtain ⟨a, ps, rfl⟩ := List.exists_cons_of_length_eq_add_one hl.ring.length
      obtain ⟨h', hrun, hr, -⟩ := mboxListRemoveHead_at hl'
      refine ⟨some x, h', ⟨l.len - 1, ps[0]?, false⟩, ps, xs, Converges.const ?_, ⟨hr, rfl, ?_⟩,
        rfl, rfl⟩
      · simp only [hlock, hrun, ok_bind, pure_eq]
        rfl
      · exact congrArg Nat.pred hl.len
  | removeTail =>
    rcases List.eq_nil_or_concat' xs with rfl | ⟨xs, x, rfl⟩
    · refine ⟨none, h, mboxListUnlock { l with locked := true }, ps, [], Converges.const ?_,
        hl.lock false, rfl, rfl⟩
      have hzero : l.len = 0 := hl.len
      simp only [hlock, mboxListRemoveTail, hzero, if_true, ok_bind,
        pure_eq]
    · have hlen : ps.length = (xs ++ [x]).length := hl.ring.length
      obtain ⟨ps, a, rfl⟩ := (List.eq_nil_or_concat' ps).resolve_left fun hnil => by
        rw [hnil, List.length_append, List.length_singleton] at hlen
        cases hlen
      obtain ⟨h', hrun, hr, -⟩ := mboxListRemoveTail_at hl'
      refine ⟨some x, h', ⟨l.len - 1, ps[0]?, false⟩, ps, xs, Converges.const ?_, ⟨hr, rfl, ?_⟩,
        ?_, rfl⟩
      · simp only [hlock, hrun, ok_bind, pure_eq]
        rfl
      · have hlast := hl.len
        rw [List.length_append, List.length_singleton] at hlast
        exact congrArg Nat.pred hlast
      · rw [lengthAfter, List.length_append, List.length_singleton, Nat.add_sub_cancel]
  | qsort compare =>
    obtain ⟨hsome, hlong⟩ := hc
    obtain ⟨compare, rfl⟩ := Option.ne_none_iff_exists'.mp hsome
    obtain ⟨ys, h', hrun, hl', hsorted⟩ := mboxListQSort_spec hl hlong hfree
    exact ⟨none, h', l, ps, ys, hrun.bind (Converges.const rfl), hl', hsorted.length_eq, hfree⟩

/-- A sort with nothing to do keeps the lock. -/
theorem run_short (hlen : l.len = xs.length) (hfree : l.locked = false) {c : TSCall D N}
    (hc : ¬ c.GivesBack xs.length) (n : ℕ) :
    c.run n h l = ok (none, h, { l with locked := true }) := by
  cases c with
  | qsort compare =>
    have hshort : mboxListQSort compare n h l = ok (h, { l with locked := true }) := by
      by_cases hnull : compare = none
      · rw [hnull, mboxListQSort, mboxListLock_free hfree]
        rfl
      · refine mboxListQSort_short compare n ?_ hfree
        rw [hlen]
        exact Nat.le_of_lt_succ (Nat.not_le.mp fun hlong => hc ⟨hnull, hlong⟩)
    rw [run, hshort]
    rfl
  | find _ _ => exact absurd trivial hc
  | addHead _ => exact absurd trivial hc
  | addTail _ => exact absurd trivial hc
  | removeHead => exact absurd trivial hc
  | removeTail => exact absurd trivial hc

end TSCall

/-! ## Any calls -/

/-- After its first call a balanced client holds no lock. -/
theorem LockBalanced.head {c : TSCall D N} {cs : List (TSCall D N)} {r : Option D}
    {h' : Heap (MboxLNode D)} {l' : MboxList} (hbal : LockBalanced h l (c :: cs))
    (hrun : Converges (fun n => c.run n h l) (r, h', l')) : l'.locked = false := by
  obtain ⟨h₁, l₁, hone, hfree⟩ := hbal [c] (List.prefix_append [c] cs)
  have hcall : Converges (fun n => tsRun n [c] h l) (h', l') := hrun.bind (Converges.const rfl)
  obtain ⟨rfl, rfl⟩ := Prod.mk.inj (hone.unique hcall)
  exact hfree

theorem LockBalanced.tail {c : TSCall D N} {cs : List (TSCall D N)} {r : Option D}
    {h' : Heap (MboxLNode D)} {l' : MboxList} (hbal : LockBalanced h l (c :: cs))
    (hrun : Converges (fun n => c.run n h l) (r, h', l')) : LockBalanced h' l' cs := by
  intro cs₁ hcs₁
  obtain ⟨h₂, l₂, hall, hfree⟩ := hbal (c :: cs₁) (List.cons_prefix_cons.mpr ⟨rfl, hcs₁⟩)
  exact ⟨h₂, l₂, hrun.bind_inv hall, hfree⟩

/-- Once all calls of a sequence return, so do those with one more in front. -/
theorem LockBalanced.cons {c : TSCall D N} {cs : List (TSCall D N)} {r : Option D}
    {h' : Heap (MboxLNode D)} {l' : MboxList} (hfree : l.locked = false)
    (hrun : Converges (fun n => c.run n h l) (r, h', l')) (hbal : LockBalanced h' l' cs) :
    LockBalanced h l (c :: cs) := by
  intro cs₁ hcs₁
  rcases cs₁ with _ | ⟨c₁, cs₁⟩
  · exact ⟨h, l, Converges.const rfl, hfree⟩
  · obtain ⟨rfl, hprefix⟩ := List.cons_prefix_cons.mp hcs₁
    obtain ⟨h₂, l₂, hrest, hfree₂⟩ := hbal cs₁ hprefix
    exact ⟨h₂, l₂, hrun.bind hrest, hfree₂⟩

/-- **The lock is balanced** exactly when no call is a sort with nothing to do. Such a sort returns
in front of the unlock, and the next call of the client blocks for ever. -/
theorem lockBalanced_iff (cs : List (TSCall D N)) (hl : l.Holds h xs) (hfree : l.locked = false) :
    LockBalanced h l cs ↔ GiveBack xs.length cs := by
  obtain ⟨ps, hat⟩ := MboxList.holds_iff.mp hl
  clear hl
  induction cs generalizing h l ps xs with
  | nil =>
    refine ⟨fun _ => trivial, fun _ cs₁ hcs₁ => ?_⟩
    rw [List.prefix_nil.mp hcs₁]
    exact ⟨h, l, Converges.const rfl, hfree⟩
  | cons c cs ih =>
    by_cases hc : c.GivesBack xs.length
    · obtain ⟨r, h', l', ps', xs', hrun, hat', hlen, hfree'⟩ := TSCall.run_spec hat hfree hc
      have hrest := ih hfree' ps' hat'
      rw [hlen] at hrest
      constructor
      · intro hbal
        exact ⟨hc, hrest.mp (hbal.tail hrun)⟩
      · rintro ⟨-, hgive⟩
        exact LockBalanced.cons hfree hrun (hrest.mpr hgive)
    · refine iff_of_false (fun hbal => ?_) fun hgive => hc hgive.1
      have hrun : Converges (fun n => c.run n h l) _ :=
        Converges.congr (TSCall.run_short hat.len hfree hc) (Converges.const rfl)
      cases hbal.head hrun

/-- Two elements are added, the list is sorted, and one is taken off. -/
theorem lockBalanced_iff_sorted :
    LockBalanced Heap.empty mboxListNew
      ([.addTail 2, .addHead 1, .qsort (some fun a b => a - b), .removeTail] :
        List (TSCall Int Int)) :=
  (lockBalanced_iff _ (mboxListNew_holds Heap.empty) rfl).mpr
    ⟨trivial, trivial, ⟨Option.some_ne_none _, le_refl 2⟩, trivial, trivial⟩

/-- Sorting an empty list leaves the lock taken, and adding to it then blocks for ever. -/
theorem lock_notBalanced :
    ¬ LockBalanced Heap.empty mboxListNew
        ([.qsort (some fun a b => a - b)] : List (TSCall Int Int)) ∧
      ∀ n, tsRun n ([.qsort (some fun a b => a - b), .addTail 1] : List (TSCall Int Int))
        Heap.empty mboxListNew = timeout := by
  constructor
  · intro hbal
    have hshort (n : ℕ) : (TSCall.qsort (some fun a b => a - b) : TSCall Int Int).run n
        Heap.empty mboxListNew = ok (none, Heap.empty, ⟨0, none, true⟩) := rfl
    cases hbal.head (Converges.congr hshort (Converges.const rfl))
  · intro n
    rfl

end Libmbox2
