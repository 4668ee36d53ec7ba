import Libmbox2.ListSort
import Libmbox2.MsgLite

/-!
# Sorted lists (`mboxListQSort`, `mboxMsgListSortByDate`)

What a sort leaves in the nodes of a list follows from what quicksort does (`QuickSorted`). The
comparison by date answers "less" whenever one of the dates is missing, so it is no order, but a
message that it puts behind a pivot has a date, and the pivot has one too: among the messages
with a date it sorts.

Either way the list's lock has to be free: it is waited for otherwise, and a sort that had
nothing to do has left it taken.
-/

namespace Libmbox2

open CSem CSem.Exec

variable {D : Type}

/-- The nodes at the addresses `ps` have the links they had. -/
def SameLinks (h h' : Heap (MboxLNode D)) (ps : List ℕ) : Prop :=
  ∀ a ∈ ps, ∃ node node', h.get (some a) = some node ∧ h'.get (some a) = some node' ∧
    node'.next = node.next ∧ node'.prev = node.prev

/-- Two heaps with rings over the same nodes have the same links. -/
theorem Ring.sameLinks {h h' : Heap (MboxLNode D)} {ps : List ℕ} {xs ys : List D}
    (hr : Ring h ps xs) (hr' : Ring h' ps ys) : SameLinks h h' ps := by
  intro a ha
  obtain ⟨i, hi, rfl⟩ := List.getElem_of_mem ha
  have hlen : ps.length = xs.length := hr.length
  have hlen' : ps.length = ys.length := hr'.length
  have hnode := hr.get_lt (i := i) (by omega)
  have hnode' := hr'.get_lt (i := i) (by omega)
  rw [List.getElem?_eq_getElem hi] at hnode hnode'
  exact ⟨_, _, hnode, hnode', rfl, rfl⟩

/-- The sort returns, and leaves the data in order in the nodes of the list. -/
def QSorts (compare : D → D → Int) (h : Heap (MboxLNode D)) (l : MboxList) (ps : List ℕ)
    (xs : List D) : Prop :=
  ∃ h' l' ys, Converges (fun n => mboxListQSort (some compare) n h l) (h', l') ∧
    SameLinks h h' ps ∧ l'.root = l.root ∧ l'.len = l.len ∧ l'.At h' ps ys ∧ xs.Perm ys ∧
    ys.Pairwise fun a b => compare a b ≤ 0

variable {h : Heap (MboxLNode D)} {l : MboxList} {ps : List ℕ} {xs : List D}

/-- **A list is sorted** exactly when its lock is free: the data of its nodes are then ordered by
the comparator, and the links between the nodes are what they were. -/
theorem qsorts_iff {compare : D → D → Int} (hcmp : IsTotalPreorder compare) (hl : l.At h ps xs)
    (hlong : 2 ≤ xs.length) : QSorts compare h l ps xs ↔ l.locked = false := by
  constructor
  · rintro ⟨h', l', ys, hrun, -⟩
    exact mboxListQSort_unlocked hrun
  · intro hfree
    obtain ⟨ys, h', hrun, hl', hsorted⟩ := mboxListQSort_spec hl hlong hfree
    exact ⟨h', l, ys, hrun, hl.ring.sameLinks hl'.ring, rfl, rfl, hl', hsorted.perm,
      hsorted.pairwise (fun _ _ _ => hcmp.le_trans) hcmp.total⟩

/-- A list of two nodes that point to each other. -/
theorem twoNodes_at (x y : D) (b : Bool) :
    (⟨2, some 0, b⟩ : MboxList).At ⟨[some ⟨x, some 1, some 1⟩, some ⟨y, some 0, some 0⟩]⟩ [0, 1]
      [x, y] := by
  refine ⟨⟨rfl, by decide, ?_⟩, rfl, rfl⟩
  rintro (_ | _ | i) z hz
  · cases hz
    rfl
  · cases hz
    rfl
  · cases hz

/-- A list of two numbers, the greater one in front. -/
theorem qsorts_iff_two :
    QSorts (fun a b : Int => a - b) ⟨[some ⟨2, some 1, some 1⟩, some ⟨1, some 0, some 0⟩]⟩
      ⟨2, some 0, false⟩ [0, 1] [2, 1] :=
  (qsorts_iff isTotalPreorder_sub (twoNodes_at 2 1 false) (le_refl 2)).mpr rfl

/-- A list that was sorted when it had one element cannot be sorted again, as its lock was kept. -/
theorem lockedList_notSorted :
    ∃ (h : Heap (MboxLNode Int)) (l : MboxList),
      (do let (h, l) ← mboxListAddTail Heap.empty mboxListNew 2
          let (h, l) ← mboxListQSort (some fun a b => a - b) 0 h l
          mboxListAddTail h l 1) = ok (h, l) ∧
        l.At h [0, 1] [2, 1] ∧ ¬ QSorts (fun a b => a - b) h l [0, 1] [2, 1] := by
  refine ⟨_, _, rfl, twoNodes_at 2 1 true, ?_⟩
  rintro ⟨h', l', ys, hrun, -⟩
  exact absurd (mboxListQSort_unlocked hrun) (by decide)

/-! ## Sorting by date -/

/-- `mboxMsgListCompareByDate`: messages are compared by their dates, with `-1` where one of them
has none. -/
def mboxMsgListCompareByDate (m1 m2 : MboxMsgLite) : Int :=
  if m1.unixTimestamp = -1 ∨ m2.unixTimestamp = -1 then -1
  else if m1.unixTimestamp < m2.unixTimestamp then -1
  else if m1.unixTimestamp > m2.unixTimestamp then 1
  else 0

/-- `mboxMsgListSortByDate`: the list is sorted by that comparison. -/
def mboxMsgListSortByDate (fuel : ℕ) (h : Heap (MboxLNode MboxMsgLite)) (l : MboxList) :
    Exec (Heap (MboxLNode MboxMsgLite) × MboxList) :=
  mboxListQSort (some mboxMsgListCompareByDate) fuel h l

/-- The message has a date. -/
def MboxMsgLite.Dated (m : MboxMsgLite) : Prop := m.unixTimestamp ≠ -1

instance : DecidablePred MboxMsgLite.Dated := fun m =>
  inferInstanceAs (Decidable (m.unixTimestamp ≠ -1))

/-- Of two dated messages the one that is not greater is not the later one. -/
theorem compareByDate_le {m1 m2 : MboxMsgLite} (h1 : m1.Dated) (h2 : m2.Dated)
    (hle : mboxMsgListCompareByDate m1 m2 ≤ 0) : m1.unixTimestamp ≤ m2.unixTimestamp := by
  rw [mboxMsgListCompareByDate, if_neg (not_or.mpr ⟨h1, h2⟩)] at hle
  split at hle
  · omega
  · split at hle
    · cases hle
    · omega

/-- A message that is greater than another one is not earlier, and the other one has a date. -/
theorem compareByDate_gt {m1 m2 : MboxMsgLite} (hgt : ¬ mboxMsgListCompareByDate m1 m2 ≤ 0) :
    m2.Dated ∧ m2.unixTimestamp ≤ m1.unixTimestamp := by
  rw [mboxMsgListCompareByDate] at hgt
  split at hgt
  · exact absurd (by decide) hgt
  · rename_i hdates
    refine ⟨(not_or.mp hdates).2, ?_⟩
    split at hgt
    · exact absurd (by decide) hgt
    · omega

/-- The sort returns, and leaves the messages that have a date in the order of their dates. -/
def SortsByDate (h : Heap (MboxLNode MboxMsgLite)) (l : MboxList) (ps : List ℕ)
    (xs : List MboxMsgLite) : Prop :=
  ∃ h' l' ys, Converges (fun n => mboxMsgListSortByDate n h l) (h', l') ∧ l'.At h' ps ys ∧
    xs.Perm ys ∧
    (ys.filter MboxMsgLite.Dated).Pairwise fun m m' => m.unixTimestamp ≤ m'.unixTimestamp

/-- **Messages are sorted by date** exactly when the lock of their list is free: those with a date
are in the order of their dates, although the comparator is no order on the others. -/
theorem sortsByDate_iff {h : Heap (MboxLNode MboxMsgLite)} {xs : List MboxMsgLite}
    (hl : l.At h ps xs) (hlong : 2 ≤ xs.length) : SortsByDate h l ps xs ↔ l.locked = false := by
  constructor
  · rintro ⟨h', l', ys, hrun, -⟩
    exact mboxListQSort_unlocked hrun
  · intro hfree
    obtain ⟨ys, h', hrun, hl', hsorted⟩ := mboxListQSort_spec hl hlong hfree
    refine ⟨h', l, ys, hrun, hl', hsorted.perm, ?_⟩
    exact hsorted.pairwise_filter (fun _ _ _ => le_trans)
      (fun _ _ _ _ => compareByDate_le) fun _ _ _ _ => compareByDate_gt

/-- A message of which only the date matters. -/
def datedMsg (unixTimestamp : Int) : MboxMsgLite :=
  ⟨none, none, none, none, ⟨[], 0, 0, 0⟩, none, unixTimestamp, 0, 0⟩

/-- A list of a message with a date and one without. -/
theorem sortsByDate_iff_two :
    SortsByDate ⟨[some ⟨datedMsg 5, some 1, some 1⟩, some ⟨datedMsg (-1), some 0, some 0⟩]⟩
      ⟨2, some 0, false⟩ [0, 1] [datedMsg 5, datedMsg (-1)] :=
  (sortsByDate_iff (twoNodes_at _ _ false) (le_refl 2)).mpr rfl

/-- A list that was sorted when it had one message cannot be sorted again, as its lock was kept. -/
theorem lockedList_notSortedByDate :
    ∃ h l, (do let (h, l) ← mboxListAddTail Heap.empty mboxListNew (datedMsg 5)
               let (h, l) ← mboxMsgListSortByDate 0 h l
               mboxListAddTail h l (datedMsg 3)) = ok (h, l) ∧
      l.At h [0, 1] [datedMsg 5, datedMsg 3] ∧
      ¬ SortsByDate h l [0, 1] [datedMsg 5, datedMsg 3] := by
  refine ⟨_, _, rfl, twoNodes_at _ _ true, ?_⟩
  rintro ⟨h', l', ys, hrun, -⟩
  exact absurd (mboxListQSort_unlocked hrun) (by decide)

end Libmbox2
