import Mathlib.Data.Nat.Digits.Defs
import Mathlib.Data.Nat.Digits.Lemmas
import Libmbox2.Memory

/-!
# Numbers as text

`decimal` is what `%zu` prints and `strtol` is the function of C, in base 10 and for a
`long` of 64 bits: blanks and a sign are skipped, a value out of range is cut off, and with
no digit nothing is consumed. It reads the text as C does, until something ends it, so a
text that nothing ends is a fault.

`strtol_decimal`: a number that is printed is read back, whatever follows it that is not a
digit.
-/

namespace CSem

open Exec

/-- The digits of a number, without leading zeros, as `%zu` prints them. -/
def decimal (n : ℕ) : List UInt8 :=
  if n = 0 then [48] else ((Nat.digits 10 n).map fun d => UInt8.ofNat (48 + d)).reverse

/-- `isspace`: a blank, or one of the five controls that are blank. -/
def isSpace (c : UInt8) : Bool := c == 32 || (9 ≤ c && c ≤ 13)

/-- `isdigit`: one of the ten digits. -/
def isDigit (c : UInt8) : Bool := 48 ≤ c && c ≤ 57

/-- The value of a run of digits, without any bound. -/
def digitsValue (ds : List UInt8) : ℕ := ds.foldl (fun n c => n * 10 + (c.toNat - 48)) 0

/-- A value that does not fit becomes the nearest one that does. -/
def toLong (n : Int) : Int := max (-2 ^ 63) (min n (2 ^ 63 - 1))

/-- `strtol(s, &endptr, 10)`: the value, and how far `endptr` is behind `s`. -/
def strtol (s : List UInt8) : Exec (Int × ℕ) := do
  let blanks ← scanUntil (fun c => !isSpace c) s
  let c ← load s blanks
  let start := if c = 43 ∨ c = 45 then blanks + 1 else blanks
  let n ← scanUntil (fun c => !isDigit c) (s.drop start)
  if n = 0 then pure (0, 0) else
  let value := digitsValue ((s.drop start).take n)
  pure (toLong (if c = 45 then -value else value), start + n)

/-- `atol`, which is `strtol` without its end pointer. -/
def atol (s : List UInt8) : Exec Int := do
  let (value, _) ← strtol s
  pure value

/-! ## Printing -/

/-- The code of a digit. -/
theorem toNat_digit {d : ℕ} (hd : d < 10) : (UInt8.ofNat (48 + d)).toNat = 48 + d := by
  rw [UInt8.toNat_ofNat']
  omega

/-- It is a digit. -/
theorem isDigit_digit {d : ℕ} (hd : d < 10) : isDigit (UInt8.ofNat (48 + d)) = true := by
  have h48 : (48 : UInt8) ≤ UInt8.ofNat (48 + d) := by
    rw [UInt8.le_iff_toNat_le, toNat_digit hd]
    exact Nat.le_add_right 48 d
  have h57 : UInt8.ofNat (48 + d) ≤ (57 : UInt8) := by
    rw [UInt8.le_iff_toNat_le, toNat_digit hd]
    exact Nat.add_le_add_left (Nat.le_of_lt_succ hd) 48
  rw [isDigit, decide_eq_true h48, decide_eq_true h57]
  rfl

/-- A number is printed with digits only. -/
theorem isDigit_decimal {n : ℕ} : ∀ c ∈ decimal n, isDigit c = true := by
  intro c hc
  rw [decimal] at hc
  split at hc
  · rw [List.mem_singleton.mp hc]
    exact isDigit_digit (d := 0) (by decide)
  · obtain ⟨d, hd, rfl⟩ := List.mem_map.mp (List.mem_reverse.mp hc)
    exact isDigit_digit (Nat.digits_lt_base (by decide) hd)

/-- There is at least one. -/
theorem decimal_ne_nil (n : ℕ) : decimal n ≠ [] := by
  rw [decimal]
  split
  · exact List.cons_ne_nil _ _
  · next hn =>
    intro hnil
    have hdigits := List.map_eq_nil_iff.mp (List.reverse_eq_nil_iff.mp hnil)
    exact Nat.digits_ne_nil_iff_ne_zero.mpr hn hdigits

/-- How many digits there are at most, for a number below a power of ten. -/
theorem length_decimal_le {n k : ℕ} (hk : 0 < k) (hn : n < 10 ^ k) : (decimal n).length ≤ k := by
  rw [decimal]
  split
  · exact hk
  · rw [List.length_reverse, List.length_map]
    exact (Nat.digits_length_le_iff (by decide) n).mpr hn

/-- The value of digits is the number they are the digits of, to the base ten. -/
theorem digitsValue_digits {ds : List ℕ} (hds : ∀ d ∈ ds, d < 10) :
    digitsValue (ds.map fun d => UInt8.ofNat (48 + d)).reverse = Nat.ofDigits 10 ds := by
  induction ds with
  | nil => rfl
  | cons d ds ih =>
    have hrest := ih fun d' hd' => hds d' (List.mem_cons_of_mem _ hd')
    rw [digitsValue] at hrest ⊢
    rw [List.map_cons, List.reverse_cons, List.foldl_append, hrest, List.foldl_cons,
      List.foldl_nil, toNat_digit (hds d (List.mem_cons_self ..)), Nat.ofDigits_cons,
      Nat.add_sub_cancel_left, Nat.mul_comm, Nat.add_comm]

/-- The digits of a number are worth the number. -/
theorem digitsValue_decimal (n : ℕ) : digitsValue (decimal n) = n := by
  rw [decimal]
  split
  · next hn =>
    subst hn
    rfl
  · have hlt : ∀ d ∈ Nat.digits 10 n, d < 10 := fun d hd => Nat.digits_lt_base (by decide) hd
    rw [digitsValue_digits hlt, Nat.ofDigits_digits]

/-! ## Reading -/

/-- A digit is no blank. -/
theorem not_isSpace_of_isDigit {c : UInt8} (hc : isDigit c = true) : isSpace c = false := by
  rw [isDigit, Bool.and_eq_true, decide_eq_true_iff, decide_eq_true_iff] at hc
  have hlow : 48 ≤ c.toNat := UInt8.le_iff_toNat_le.mp hc.1
  have hblank : (c == 32) = false := by
    rw [beq_eq_false_iff_ne]
    rintro rfl
    exact absurd hlow (by decide)
  have htab : ¬ c ≤ 13 := by
    rw [UInt8.le_iff_toNat_le]
    intro hle
    exact absurd (hlow.trans hle) (by decide)
  rw [isSpace, hblank, decide_eq_false htab, Bool.and_false]
  rfl

theorem not_sign_of_isDigit {c : UInt8} (hc : isDigit c = true) : c ≠ 43 ∧ c ≠ 45 := by
  constructor
  · rintro rfl
    cases hc
  · rintro rfl
    cases hc

/-- Digits are read as their value, which is bounded by the greatest `long`, up to the first byte
that is none. -/
theorem strtol_digits {ds : List UInt8} (hds : ∀ x ∈ ds, isDigit x = true) (hne : ds ≠ [])
    {c : UInt8} (hc : isDigit c = false) (rest : List UInt8) :
    strtol (ds ++ c :: rest) = ok (toLong (digitsValue ds), ds.length) := by
  obtain ⟨d, ds', rfl⟩ := List.exists_cons_of_ne_nil hne
  have hdigit : isDigit d = true := hds d (List.mem_cons_self ..)
  obtain ⟨hplus, hminus⟩ := not_sign_of_isDigit hdigit
  have hblanks : scanUntil (fun c => !isSpace c) (d :: ds' ++ c :: rest) = ok 0 := by
    rw [List.cons_append, scanUntil, not_isSpace_of_isDigit hdigit]
    rfl
  have hload : load (d :: ds' ++ c :: rest) 0 = ok d := rfl
  have hscan : scanUntil (fun c => !isDigit c) (d :: ds' ++ c :: rest) = ok (d :: ds').length :=
    scanUntil_append (fun x hx => by rw [hds x hx]; rfl) (by rw [hc]; rfl)
  have hlen : (d :: ds').length ≠ 0 := Nat.succ_ne_zero _
  simp only [strtol, hblanks, hload, ok_bind, hplus, hminus, or_self, if_false, List.drop_zero,
    hscan, hlen, List.take_left, Nat.zero_add, pure_eq]

/-- So are digits behind a sign, with the sign. -/
theorem strtol_sign {sign : UInt8} (hsign : sign = 43 ∨ sign = 45) {ds : List UInt8}
    (hds : ∀ x ∈ ds, isDigit x = true) (hne : ds ≠ []) {c : UInt8} (hc : isDigit c = false)
    (rest : List UInt8) :
    strtol (sign :: ds ++ c :: rest) =
      ok (toLong (if sign = 45 then -digitsValue ds else digitsValue ds), ds.length + 1) := by
  have hspace : isSpace sign = false := by
    rcases hsign with rfl | rfl
    · rfl
    · rfl
  have hblanks : scanUntil (fun c => !isSpace c) (sign :: (ds ++ c :: rest)) = ok 0 := by
    rw [scanUntil, hspace]
    rfl
  have hload : load (sign :: (ds ++ c :: rest)) 0 = ok sign := rfl
  have hscan : scanUntil (fun c => !isDigit c) (ds ++ c :: rest) = ok ds.length :=
    scanUntil_append (fun x hx => by rw [hds x hx]; rfl) (by rw [hc]; rfl)
  have hlen : ds.length ≠ 0 := by
    intro hzero
    exact hne (List.length_eq_zero_iff.mp hzero)
  simp only [List.cons_append, strtol, hblanks, hload, ok_bind, if_pos hsign, Nat.zero_add,
    List.drop_succ_cons, List.drop_zero, hscan, hlen, if_false, List.take_left, pure_eq,
    Nat.add_comm 1]

/-- What begins with neither a blank, a sign nor a digit is no number. -/
theorem strtol_none {c : UInt8} (hspace : isSpace c = false) (hsign : ¬ (c = 43 ∨ c = 45))
    (hdigit : isDigit c = false) (rest : List UInt8) : strtol (c :: rest) = ok (0, 0) := by
  have hblanks : scanUntil (fun c => !isSpace c) (c :: rest) = ok 0 := by
    rw [scanUntil, hspace]
    rfl
  have hload : load (c :: rest) 0 = ok c := rfl
  have hscan : scanUntil (fun c => !isDigit c) (c :: rest) = ok 0 := by
    rw [scanUntil, hdigit]
    rfl
  simp only [strtol, hblanks, hload, ok_bind, if_neg hsign, List.drop_zero, hscan, if_true,
    pure_eq]

/-- **A number that is printed is read back**, and the read stops behind its digits. -/
theorem strtol_decimal {n : ℕ} (hn : n < 2 ^ 63) {c : UInt8} (hc : isDigit c = false)
    (rest : List UInt8) :
    strtol (decimal n ++ c :: rest) = ok ((n : Int), (decimal n).length) := by
  have hlong : toLong (n : Int) = n := by
    rw [toLong]
    omega
  rw [strtol_digits isDigit_decimal (decimal_ne_nil n) hc, digitsValue_decimal, hlong]

theorem atol_decimal {n : ℕ} (hn : n < 2 ^ 63) {c : UInt8} (hc : isDigit c = false)
    (rest : List UInt8) : atol (decimal n ++ c :: rest) = ok (n : Int) := by
  rw [atol, strtol_decimal hn hc]
  rfl

end CSem
