import Mathlib.Data.List.Infix
import Mathlib.Tactic.Common

/-!
# Slices of a list and positions in it

`slice l a b` is the part of `l` between the positions `a` and `b`; `l.drop p` begins
with `pat` where `pat` occurs at position `p`. A window on a file is a slice of it, and
a search inside the window is a search in the file that stops where the window ends
(`findFrom`).
-/

namespace CSem

variable {α : Type}

/-- The cells of `l` at the positions from `a` up to `b`, without `b`. Ranges of a file and of a
buffer are such slices, and most statements about what a read delivers are equations between
them. -/
def slice (l : List α) (a b : ℕ) : List α := (l.drop a).take (b - a)

/-- A slice inside the list has as many cells as there are positions. -/
theorem length_slice {l : List α} {a b : ℕ} (hab : a ≤ b) (hb : b ≤ l.length) :
    (slice l a b).length = b - a := by
  simp only [slice, List.length_take, List.length_drop]
  omega

@[simp] theorem slice_self (l : List α) (a : ℕ) : slice l a a = [] := by simp [slice]

/-- A cell of a slice is the cell of the list, as far as the slice goes. -/
theorem getElem?_slice (l : List α) (a b i : ℕ) :
    (slice l a b)[i]? = if a + i < b then l[a + i]? else none := by
  rw [slice, List.getElem?_take, List.getElem?_drop]
  by_cases h : a + i < b
  · rw [if_pos h, if_pos (by omega)]
  · rw [if_neg h, if_neg (by omega)]

theorem drop_slice (l : List α) (a b k : ℕ) : (slice l a b).drop k = slice l (a + k) b := by
  rw [slice, slice, List.drop_take, List.drop_drop, Nat.sub_sub]

theorem take_slice {l : List α} {a b c : ℕ} (hb : b ≤ c) :
    (slice l a c).take (b - a) = slice l a b := by
  rw [slice, slice, List.take_take, Nat.min_eq_left (by omega)]

/-- Reading on: a slice followed by the next `n` cells, or by those that are left. -/
theorem slice_append_take {l : List α} {a b : ℕ} (hab : a ≤ b) (hb : b ≤ l.length) (n : ℕ) :
    slice l a b ++ (l.drop b).take n = slice l a (min l.length (b + n)) := by
  apply List.ext_getElem?
  intro i
  have hlen := length_slice hab hb
  rcases Nat.lt_or_ge i (b - a) with hi | hi
  · rw [List.getElem?_append_left (by omega), getElem?_slice, getElem?_slice,
      if_pos (by omega), if_pos (by omega)]
  · rw [List.getElem?_append_right (by omega), hlen, List.getElem?_take, List.getElem?_drop,
      getElem?_slice, show b + (i - (b - a)) = a + i by omega]
    by_cases hin : i - (b - a) < n
    · rw [if_pos hin]
      rcases Nat.lt_or_ge (a + i) l.length with hl | hl
      · rw [if_pos (by omega)]
      · rw [List.getElem?_eq_none hl, if_neg (by omega)]
    · rw [if_neg hin, if_neg (by omega)]

/-- Two slices that meet are one slice. -/
theorem slice_append_slice {l : List α} {a b c : ℕ} (hab : a ≤ b) (hbc : b ≤ c) :
    slice l a b ++ slice l b c = slice l a c := by
  apply List.ext_getElem?
  intro i
  rcases Nat.lt_or_ge b l.length with hb | hb
  · have hlen := length_slice hab hb.le
    rcases Nat.lt_or_ge i (b - a) with hi | hi
    · rw [List.getElem?_append_left (by omega), getElem?_slice, getElem?_slice,
        if_pos (by omega), if_pos (by omega)]
    · rw [List.getElem?_append_right (by omega), hlen, getElem?_slice, getElem?_slice,
        show b + (i - (b - a)) = a + i by omega]
  · have hd : l.drop b = [] := List.drop_eq_nil_of_le hb
    have hs : slice l b c = [] := by rw [slice, hd, List.take_nil]
    rw [hs, List.append_nil, getElem?_slice, getElem?_slice]
    rcases Nat.lt_or_ge (a + i) b with hi | hi
    · rw [if_pos hi, if_pos (by omega)]
    · rw [if_neg (by omega), List.getElem?_eq_none (by omega)]
      simp

/-- A pattern at the front of a slice is a pattern at the same place of the list that
ends inside the slice. -/
theorem prefix_slice {l pat : List α} {p b : ℕ} :
    pat <+: slice l p b ↔ pat <+: l.drop p ∧ pat.length ≤ b - p := by
  rw [slice, List.prefix_take_iff]

/-! ## Patterns at a position -/

/-- A pattern stands at position `p` exactly when each of its cells stands at its place behind
`p`. -/
theorem prefix_drop_iff {l pat : List α} {p : ℕ} :
    pat <+: l.drop p ↔ ∀ i c, pat[i]? = some c → l[p + i]? = some c := by
  constructor
  · rintro ⟨t, ht⟩ i c hc
    obtain ⟨hi, -⟩ := List.getElem?_eq_some_iff.mp hc
    rw [← List.getElem?_drop, ← ht, List.getElem?_append_left hi, hc]
  · intro h
    rw [List.prefix_iff_getElem?]
    intro i hi
    rw [List.getElem?_drop]
    exact h i pat[i] (List.getElem?_eq_getElem hi)

/-- A pattern that stands at a position ends inside the list. -/
theorem prefix_drop_length {l pat : List α} {p : ℕ} (hne : pat ≠ [])
    (h : pat <+: l.drop p) : p + pat.length ≤ l.length := by
  have hlen := h.length_le
  rw [List.length_drop] at hlen
  have := List.length_pos_iff.mpr hne
  omega

/-! ## Searching from a position -/

/-- The first position from `x` on, below `b`, whose cell satisfies `q`; `b` when there
is none. -/
def findFrom (q : α → Bool) (l : List α) (x b : ℕ) : ℕ := x + (slice l x b).findIdx q

variable {q : α → Bool} {l : List α} {x b : ℕ}

theorem le_findFrom : x ≤ findFrom q l x b := Nat.le_add_right _ _

theorem findFrom_le (hx : x ≤ b) (hb : b ≤ l.length) : findFrom q l x b ≤ b := by
  have h : (slice l x b).findIdx q ≤ (slice l x b).length := List.findIdx_le_length
  rw [length_slice hx hb] at h
  rw [findFrom]
  omega

/-- Where it stops in front of the bound, the cell satisfies `q`. -/
theorem findFrom_spec (hx : x ≤ b) (hb : b ≤ l.length) (h : findFrom q l x b < b) :
    ∃ c, l[findFrom q l x b]? = some c ∧ q c = true := by
  have hlen := length_slice hx hb
  have hlt : (slice l x b).findIdx q < (slice l x b).length := by
    rw [findFrom] at h
    omega
  refine ⟨(slice l x b)[(slice l x b).findIdx q], ?_, List.findIdx_getElem⟩
  have hget := List.getElem?_eq_getElem hlt
  rw [getElem?_slice, if_pos (by rw [findFrom] at h; exact h)] at hget
  exact hget

/-- No cell it has passed satisfies `q`. -/
theorem findFrom_min {i : ℕ} {c : α} (hx : x ≤ i) (hi : i < findFrom q l x b)
    (hb : findFrom q l x b ≤ b) (hc : l[i]? = some c) : q c = false := by
  rw [findFrom] at hi hb
  have hlt : i - x < (slice l x b).findIdx q := by omega
  have hget : (slice l x b)[i - x]? = some c := by
    rw [getElem?_slice, if_pos (by omega), show x + (i - x) = i by omega, hc]
  obtain ⟨hlen, rfl⟩ := List.getElem?_eq_some_iff.mp hget
  exact Bool.eq_false_iff.mpr (by simpa using List.not_of_lt_findIdx hlt)

end CSem
