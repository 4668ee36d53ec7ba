import Mathlib.Data.List.Pairwise
import Mathlib.Order.Lattice
import Mathlib.Tactic.Common

/-!
# Ranges that tile an interval

Cutting an interval at a list of points gives half-open ranges; a range that is empty or
the wrong way round is dropped. When the points are in order, what is left *tiles* the
interval: the ranges follow each other without a gap or an overlap.
-/

namespace CSem

variable {α : Type} [LinearOrder α]

/-- The ranges `[s, e)` follow each other from `a` to `b`, and none is empty. -/
def Tiles (a b : α) : List (α × α) → Prop
  | [] => a = b
  | r :: rs => r.1 = a ∧ r.1 < r.2 ∧ Tiles r.2 b rs

/-- The ranges between the points of a list, the last of which ends at `b`. -/
def rangesOf (b : α) : List α → List (α × α)
  | [] => []
  | [s] => [(s, b)]
  | s :: t :: l => (s, t) :: rangesOf b (t :: l)

namespace Tiles

variable {a b : α} {rs : List (α × α)}

theorem le (h : Tiles a b rs) : a ≤ b := by
  induction rs generalizing a with
  | nil => exact le_of_eq h
  | cons r rs ih =>
    obtain ⟨rfl, hlt, hrest⟩ := h
    exact hlt.le.trans (ih hrest)

/-- The ranges lie in the interval that they tile. -/
theorem bounds (h : Tiles a b rs) {r : α × α} (hr : r ∈ rs) : a ≤ r.1 ∧ r.2 ≤ b := by
  induction rs generalizing a with
  | nil => cases hr
  | cons r' rs ih =>
    obtain ⟨rfl, hlt, hrest⟩ := h
    rcases List.mem_cons.mp hr with rfl | hmem
    · exact ⟨le_refl _, hrest.le⟩
    · have hbounds := ih hrest hmem
      exact ⟨hlt.le.trans hbounds.1, hbounds.2⟩

/-- Some range goes up to the end of the interval, unless that is empty. -/
theorem exists_end (h : Tiles a b rs) (hne : a ≠ b) : ∃ r ∈ rs, r.2 = b := by
  induction rs generalizing a with
  | nil => exact absurd h hne
  | cons r rs ih =>
    obtain ⟨-, -, hrest⟩ := h
    by_cases hend : r.2 = b
    · exact ⟨r, List.mem_cons_self .., hend⟩
    · obtain ⟨r', hr', hend'⟩ := ih hrest hend
      exact ⟨r', List.mem_cons_of_mem _ hr', hend'⟩

/-- A range ends before a later one starts, so no two of them have a point in common. -/
theorem pairwise (h : Tiles a b rs) : rs.Pairwise fun r r' => r.2 ≤ r'.1 := by
  induction rs generalizing a with
  | nil => exact List.Pairwise.nil
  | cons r rs ih =>
    obtain ⟨rfl, -, hrest⟩ := h
    exact List.Pairwise.cons (fun r' hr' => (hrest.bounds hr').1) (ih hrest)

/-- Every point of the interval lies in a range. -/
theorem covers (h : Tiles a b rs) {x : α} (hax : a ≤ x) (hxb : x < b) :
    ∃ r ∈ rs, r.1 ≤ x ∧ x < r.2 := by
  induction rs generalizing a with
  | nil =>
    obtain rfl : a = b := h
    exact absurd hxb (not_lt_of_ge hax)
  | cons r rs ih =>
    obtain ⟨rfl, -, hrest⟩ := h
    rcases lt_or_ge x r.2 with hlt | hge
    · exact ⟨r, List.mem_cons_self .., hax, hlt⟩
    · obtain ⟨r', hr', hx⟩ := ih hrest hge
      exact ⟨r', List.mem_cons_of_mem _ hr', hx⟩

end Tiles

/-- **Cutting at points in order**: the ranges that are not empty tile the interval. -/
theorem tiles_rangesOf {b s : α} {l : List α} (h : (s :: l).Pairwise (· ≤ ·))
    (hb : ∀ x ∈ s :: l, x ≤ b) :
    Tiles s b ((rangesOf b (s :: l)).filter fun r => r.1 < r.2) := by
  induction l generalizing s with
  | nil =>
    rcases eq_or_lt_of_le (hb s (List.mem_cons_self ..)) with rfl | hlt
    · simp [rangesOf, Tiles]
    · simp [rangesOf, Tiles, hlt]
  | cons t l ih =>
    obtain ⟨hs, hrest⟩ := List.pairwise_cons.mp h
    have ih' := ih hrest fun x hx => hb x (List.mem_cons_of_mem _ hx)
    rw [rangesOf]
    rcases eq_or_lt_of_le (hs t (List.mem_cons_self ..)) with rfl | hlt
    · rwa [List.filter_cons_of_neg (by simp)]
    · rw [List.filter_cons_of_pos (by simpa using hlt)]
      exact ⟨rfl, hlt, ih'⟩

end CSem
