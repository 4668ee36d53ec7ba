import Mathlib.Data.List.Perm.Basic
import Mathlib.Data.List.Rotate
import Mathlib.Tactic.Common

/-!
# What quicksort does

`QuickSorted le xs ys`: `ys` is what quicksort makes of `xs` when it tests `le` against the
pivot, whatever the order in which a partition leaves its two parts. `le` need not be an
order: that `ys` is a permutation of `xs` holds for any test (`QuickSorted.perm`); that it
is sorted takes a total preorder (`QuickSorted.pairwise`).

`LomutoSorted le xs ys` is the same for one way to partition, in which the result is determined:
the last element is the pivot, and the elements are exchanged one by one (`lomuto`). For a test
that is no order it then depends on the pivots whether the result is sorted, and
`LomutoSorted.pairwise_iff` says on which.
-/

namespace CSem

universe u

variable {α : Type u} {le : α → α → Prop}

/-- The result of quicksort, whatever the order inside its parts: what passes the test against the
pivot is sorted in front of it, the rest behind it. -/
inductive QuickSorted (le : α → α → Prop) : List α → List α → Prop where
  /-- nothing to sort -/
  | short {xs : List α} : xs.length ≤ 1 → QuickSorted le xs xs
  /-- sort both sides of the pivot -/
  | split {xs l r l' r' : List α} {p : α} :
      xs.Perm (l ++ p :: r) → (∀ a ∈ l, le a p) → (∀ a ∈ r, ¬ le a p) →
      QuickSorted le l l' → QuickSorted le r r' → QuickSorted le xs (l' ++ p :: r')

namespace QuickSorted

variable {xs ys : List α}

theorem perm (h : QuickSorted le xs ys) : xs.Perm ys := by
  induction h with
  | short _ => exact List.Perm.refl _
  | split hpart _ _ _ _ ihl ihr => exact hpart.trans (ihl.append (ihr.cons _))

theorem length_eq (h : QuickSorted le xs ys) : ys.length = xs.length := h.perm.length_eq.symm

/-- **What quicksort sorts when only some elements have an order**: `valid` holds of a pivot that
an element does not pass the test against. -/
theorem pairwise_filter {valid : α → Prop} [DecidablePred valid] {R : α → α → Prop}
    (htrans : ∀ a b c, R a b → R b c → R a c)
    (hle : ∀ a ∈ xs, ∀ p ∈ xs, valid a → valid p → le a p → R a p)
    (hgt : ∀ a ∈ xs, ∀ p ∈ xs, ¬ le a p → valid p ∧ R p a) (h : QuickSorted le xs ys) :
    (ys.filter valid).Pairwise R := by
  induction h with
  | @short xs hlen =>
    rcases xs with _ | ⟨a, _ | ⟨b, rest⟩⟩
    · exact List.Pairwise.nil
    · exact (List.pairwise_singleton R a).filter _
    · simp only [List.length_cons] at hlen
      omega
  | @split xs l r l' r' p hpart hl hr hl' hr' ihl ihr =>
    have hpxs : p ∈ xs := hpart.mem_iff.mpr (List.mem_append_right l (List.mem_cons_self ..))
    have hlxs : ∀ a ∈ l, a ∈ xs := fun a ha => hpart.mem_iff.mpr (List.mem_append_left _ ha)
    have hrxs : ∀ a ∈ r, a ∈ xs := fun a ha =>
      hpart.mem_iff.mpr (List.mem_append_right l (List.mem_cons_of_mem p ha))
    replace ihl := ihl (fun a ha b hb => hle a (hlxs a ha) b (hlxs b hb))
      fun a ha b hb => hgt a (hlxs a ha) b (hlxs b hb)
    replace ihr := ihr (fun a ha b hb => hle a (hrxs a ha) b (hrxs b hb))
      fun a ha b hb => hgt a (hrxs a ha) b (hrxs b hb)
    have hlp : ∀ a ∈ l', a ∈ xs ∧ le a p := by
      intro a ha
      have hal := hl'.perm.mem_iff.mpr ha
      exact ⟨hlxs a hal, hl a hal⟩
    have hpr : ∀ a ∈ r', valid p ∧ R p a := by
      intro a ha
      have har := hr'.perm.mem_iff.mpr ha
      exact hgt a (hrxs a har) p hpxs (hr a har)
    have hright : ((p :: r').filter valid).Pairwise R := by
      by_cases hp : valid p
      · rw [List.filter_cons_of_pos (by simpa using hp)]
        exact List.pairwise_cons.mpr ⟨fun a ha => (hpr a (List.mem_of_mem_filter ha)).2, ihr⟩
      · rw [List.filter_cons_of_neg (by simpa using hp)]
        exact ihr
    rw [List.filter_append]
    refine List.pairwise_append.mpr ⟨ihl, hright, fun a ha b hb => ?_⟩
    have hva : valid a := by simpa using List.of_mem_filter ha
    obtain ⟨haxs, hap⟩ := hlp a (List.mem_of_mem_filter ha)
    rcases List.mem_cons.mp (List.mem_of_mem_filter hb) with rfl | hbr
    · exact hle a haxs b hpxs hva (by simpa using List.of_mem_filter hb) hap
    · obtain ⟨hvp, hpb⟩ := hpr b hbr
      exact htrans a p b (hle a haxs p hpxs hva hvp hap) hpb

/-- **Quicksort sorts** when the test agrees with a transitive order on what is sorted, wherever the
pivots are. -/
theorem pairwise_of_mem {R : α → α → Prop} (htrans : ∀ a b c, R a b → R b c → R a c)
    (hle : ∀ a ∈ xs, ∀ p ∈ xs, le a p → R a p) (hgt : ∀ a ∈ xs, ∀ p ∈ xs, ¬ le a p → R p a)
    (h : QuickSorted le xs ys) : ys.Pairwise R := by
  have hall : (ys.filter fun _ => True).Pairwise R :=
    h.pairwise_filter htrans (fun a ha p hp _ _ => hle a ha p hp)
      fun a ha p hp hnot => ⟨trivial, hgt a ha p hp hnot⟩
  rwa [List.filter_eq_self.mpr fun _ _ => decide_eq_true trivial] at hall

/-- **Quicksort sorts**, when the test is a total preorder. For any other test the result may be out
of order. -/
theorem pairwise (htrans : ∀ a b c, le a b → le b c → le a c) (htotal : ∀ a b, le a b ∨ le b a)
    (h : QuickSorted le xs ys) : ys.Pairwise le :=
  h.pairwise_of_mem htrans (fun _ _ _ _ hap => hap)
    fun a _ p _ hnot => (htotal p a).resolve_right hnot

end QuickSorted

/-! ## The partition with exchanges -/

section Lomuto

variable [DecidableRel le] {p : α} {xs ys : List α}

/-- What has been looked at is in two parts, what passes the test in front of what does not. The
next element stays where it is when it does not; when it does, it changes places with the first
one that does not, which is then the last of these. -/
def partitionStep (le : α → α → Prop) [DecidableRel le] (p : α) (parts : List α × List α) (x : α) :
    List α × List α :=
  if le x p then (parts.1 ++ [x], parts.2.rotate 1) else (parts.1, parts.2 ++ [x])

/-- The two sides of the pivot `p`, which was behind `xs` and changes places with the first element
that does not pass the test. -/
def lomuto (le : α → α → Prop) [DecidableRel le] (p : α) (xs : List α) : List α × List α :=
  let parts := xs.foldl (partitionStep le p) ([], [])
  (parts.1, parts.2.rotate 1)

/-- What the loop has put to either side, from any state on: what passes the test, and in some order
what does not. -/
theorem foldl_partitionStep (small big : List α) :
    (xs.foldl (partitionStep le p) (small, big)).1 = small ++ xs.filter (le · p) ∧
      (xs.foldl (partitionStep le p) (small, big)).2.Perm (big ++ xs.filter (¬ le · p)) := by
  induction xs generalizing small big with
  | nil => simp
  | cons x xs ih =>
    rw [List.foldl_cons, partitionStep]
    by_cases hx : le x p
    · rw [if_pos hx]
      obtain ⟨hsmall, hbig⟩ := ih (small ++ [x]) (big.rotate 1)
      refine ⟨by simp [hsmall, hx], hbig.trans ?_⟩
      rw [List.filter_cons_of_neg (by simpa using hx)]
      exact (List.rotate_perm big 1).append_right _
    · rw [if_neg hx]
      obtain ⟨hsmall, hbig⟩ := ih small (big ++ [x])
      exact ⟨by simp [hsmall, hx], by simpa [hx] using hbig⟩

/-- What passes the test keeps its order, as it is moved to the front one by one. -/
theorem lomuto_fst : (lomuto le p xs).1 = xs.filter (le · p) := (foldl_partitionStep [] []).1

/-- What does not pass is there, in some order: each exchange puts one of it further back. -/
theorem lomuto_snd_perm : (lomuto le p xs).2.Perm (xs.filter (¬ le · p)) :=
  (List.rotate_perm _ 1).trans (foldl_partitionStep [] []).2

theorem le_of_mem_lomuto_fst {a : α} (ha : a ∈ (lomuto le p xs).1) : a ∈ xs ∧ le a p := by
  rw [lomuto_fst] at ha
  simpa using List.mem_filter.mp ha

theorem not_le_of_mem_lomuto_snd {a : α} (ha : a ∈ (lomuto le p xs).2) : a ∈ xs ∧ ¬ le a p := by
  simpa using List.mem_filter.mp (lomuto_snd_perm.mem_iff.mp ha)

theorem perm_lomuto : xs.Perm ((lomuto le p xs).1 ++ (lomuto le p xs).2) := by
  rw [lomuto_fst]
  refine List.Perm.trans ?_ (lomuto_snd_perm.symm.append_left _)
  simpa using (List.filter_append_perm (fun a => decide (le a p)) xs).symm

/-- `ys` is what quicksort makes of `xs` when the pivot of a part is its last element. -/
inductive LomutoSorted (le : α → α → Prop) [DecidableRel le] : List α → List α → Prop where
  /-- nothing to sort -/
  | nil : LomutoSorted le [] []
  /-- sort both sides of the pivot -/
  | split {xs M l' r' : List α} {p : α} : xs = M ++ [p] → LomutoSorted le (lomuto le p M).1 l' →
      LomutoSorted le (lomuto le p M).2 r' → LomutoSorted le xs (l' ++ p :: r')

/-- Of every part that quicksort makes of `xs`, the elements in front of the pivot meet it in the
relation `S`. -/
inductive PivotsMeet (le : α → α → Prop) [DecidableRel le] (S : α → α → Prop) : List α → Prop where
  /-- no pivot -/
  | nil : PivotsMeet le S []
  /-- the pivot of the part, and those of its two sides -/
  | split {xs M : List α} {p : α} : xs = M ++ [p] → (∀ a ∈ M, S a p) →
      PivotsMeet le S (lomuto le p M).1 → PivotsMeet le S (lomuto le p M).2 → PivotsMeet le S xs

/-- What the loop of the source comes to is a result of quicksort. -/
theorem LomutoSorted.quickSorted (h : LomutoSorted le xs ys) : QuickSorted le xs ys := by
  induction h with
  | nil => exact QuickSorted.short (Nat.zero_le 1)
  | @split xs M l' r' p hxs _ _ ihl ihr =>
    refine QuickSorted.split ?_ (fun a ha => (le_of_mem_lomuto_fst ha).2)
      (fun a ha => (not_le_of_mem_lomuto_snd ha).2) ihl ihr
    rw [hxs]
    exact ((perm_lomuto.append_right [p]).trans (List.perm_append_singleton p _)).trans
      List.perm_middle.symm

namespace PivotsMeet

variable {S S' : α → α → Prop} {M : List α}

/-- Where a relation holds of all pivots, it does of the first one and, in both parts, of those that
follow. -/
theorem split_inv (h : PivotsMeet le S (M ++ [p])) : (∀ a ∈ M, S a p) ∧
    PivotsMeet le S (lomuto le p M).1 ∧ PivotsMeet le S (lomuto le p M).2 := by
  generalize hxs : M ++ [p] = xs at h
  cases h with
  | nil => exact absurd hxs (List.append_ne_nil_of_right_ne_nil _ (List.cons_ne_nil _ _))
  | split hxs' hS hl hr =>
    obtain ⟨rfl, heq⟩ := List.append_inj' (hxs.trans hxs') rfl
    obtain rfl := List.singleton_inj.mp heq
    exact ⟨hS, hl, hr⟩

/-- Only the elements of the list matter for the pivots. -/
theorem imp (himp : ∀ a ∈ xs, ∀ p ∈ xs, S a p → S' a p) (h : PivotsMeet le S xs) :
    PivotsMeet le S' xs := by
  induction h with
  | nil => exact .nil
  | @split xs M p hxs hS _ _ ihl ihr =>
    subst hxs
    have hmem : ∀ a ∈ M, a ∈ M ++ [p] := fun a ha => List.mem_append_left [p] ha
    refine .split rfl (fun a ha => himp a (hmem a ha) p (by simp) (hS a ha))
      (ihl fun a ha b hb => ?_) (ihr fun a ha b hb => ?_)
    · exact himp a (hmem a (le_of_mem_lomuto_fst ha).1) b (hmem b (le_of_mem_lomuto_fst hb).1)
    · exact himp a (hmem a (not_le_of_mem_lomuto_snd ha).1) b
        (hmem b (not_le_of_mem_lomuto_snd hb).1)

/-- A relation between all of the elements is met by every pivot. -/
theorem of_forall (hS : ∀ a ∈ xs, ∀ p ∈ xs, S a p) : PivotsMeet le S xs := by
  induction hn : xs.length using Nat.strongRecOn generalizing xs with
  | _ n ih =>
    rcases List.eq_nil_or_concat' xs with rfl | ⟨M, p, rfl⟩
    · exact .nil
    · have hmem : ∀ a ∈ M, a ∈ M ++ [p] := fun a ha => List.mem_append_left [p] ha
      have hlen : (lomuto le p M).1.length + (lomuto le p M).2.length < n := by
        rw [← List.length_append, ← perm_lomuto.length_eq, ← hn, List.length_append]
        exact Nat.lt_succ_self _
      refine .split rfl (fun a ha => hS a (hmem a ha) p (by simp))
        (ih _ (by omega) (fun a ha b hb => ?_) rfl) (ih _ (by omega) (fun a ha b hb => ?_) rfl)
      · exact hS a (hmem a (le_of_mem_lomuto_fst ha).1) b (hmem b (le_of_mem_lomuto_fst hb).1)
      · exact hS a (hmem a (not_le_of_mem_lomuto_snd ha).1) b
          (hmem b (not_le_of_mem_lomuto_snd hb).1)

end PivotsMeet

/-- **What quicksort makes of a list is sorted** exactly when each pivot is not before an element
that passes the test against it. -/
theorem LomutoSorted.pairwise_iff {R : α → α → Prop} (htrans : ∀ a b c, R a b → R b c → R a c)
    (hgt : ∀ a ∈ xs, ∀ p ∈ xs, ¬ le a p → R p a) (h : LomutoSorted le xs ys) :
    ys.Pairwise R ↔ PivotsMeet le (fun a p => le a p → R a p) xs := by
  induction h with
  | nil => exact iff_of_true List.Pairwise.nil .nil
  | @split xs M l' r' p hxs hl hr ihl ihr =>
    subst hxs
    have hp : p ∈ M ++ [p] := by simp
    have hmem : ∀ a ∈ M, a ∈ M ++ [p] := fun a ha => List.mem_append_left [p] ha
    replace ihl := ihl fun a ha b hb =>
      hgt a (hmem a (le_of_mem_lomuto_fst ha).1) b (hmem b (le_of_mem_lomuto_fst hb).1)
    replace ihr := ihr fun a ha b hb =>
      hgt a (hmem a (not_le_of_mem_lomuto_snd ha).1) b (hmem b (not_le_of_mem_lomuto_snd hb).1)
    have hleft : ∀ a, a ∈ l' ↔ a ∈ M ∧ le a p := by
      intro a
      rw [← hl.quickSorted.perm.mem_iff, lomuto_fst]
      simp
    have hright : ∀ b ∈ r', R p b := by
      intro b hb
      obtain ⟨hbM, hbp⟩ := not_le_of_mem_lomuto_snd (hr.quickSorted.perm.mem_iff.mpr hb)
      exact hgt b (hmem b hbM) p hp hbp
    rw [List.pairwise_append, List.pairwise_cons, ihl, ihr]
    constructor
    · rintro ⟨hpl, ⟨-, hpr⟩, hcross⟩
      refine .split rfl (fun a ha hle => ?_) hpl hpr
      exact hcross a ((hleft a).mpr ⟨ha, hle⟩) p (List.mem_cons_self ..)
    · intro hmeet
      obtain ⟨hS, hpl, hpr⟩ := hmeet.split_inv
      refine ⟨hpl, ⟨hright, hpr⟩, fun a ha b hb => ?_⟩
      have hap : R a p := hS a ((hleft a).mp ha).1 ((hleft a).mp ha).2
      rcases List.mem_cons.mp hb with rfl | hb
      · exact hap
      · exact htrans a p b hap (hright b hb)

end Lomuto

end CSem
