import Mathlib.Data.FinEnum
import Mathlib.Data.Nat.Digits.Lemmas
import Libmbox2.Mime

/-!
# Escaping (`mboxBufEscapeString`)

A byte is written as it is, or as an escape: a backslash and a letter, or a backslash, `u` and
four hexadecimal digits. `unescape` reads the escapes. What a byte is written as is read as that
byte again, whatever stands behind it (`readEscaped_escape`), so a string can be had back from
its escape (`unescape_flatMap`).
-/

namespace Libmbox2

open CSem CSem.Exec

/-- `'\\'`, which begins an escape. -/
abbrev backslash : MboxChar := 92

section Functions

variable (fill : ℕ → MboxChar)

/-- `%04x`, a number in at least four hexadecimal digits. -/
def hex04 (n : ℕ) : List MboxChar :=
  let digits := ((Nat.digits 16 n).map (hexDigit false)).reverse
  List.replicate (4 - digits.length) 48 ++ digits

/-- What is put behind the backslash: a letter, or `u` and four digits. -/
def putEscape (out : MboxBuf) (c : MboxChar) : Exec MboxBuf :=
  if c = backslash then mboxBufPutChar fill out backslash
  else if c = dquote then mboxBufPutChar fill out dquote
  else if c = 8 then mboxBufPutChar fill out 98
  else if c = 10 then mboxBufPutChar fill out 110
  else if c = 9 then mboxBufPutChar fill out 116
  else if c = 11 then mboxBufPutChar fill out 118
  else if c = 12 then mboxBufPutChar fill out 102
  else if c = 13 then mboxBufPutChar fill out 114
  else mboxBufCatPrintf fill out (117 :: hex04 c.toNat)

/-- The bytes up to the NUL are written one behind the other, escaped where they have to be. -/
def escapeBytes : List MboxChar → MboxBuf → Exec MboxBuf
  | [], _ => fault
  | c :: d, out =>
    if c = nul then pure out
    else if 31 < c ∧ c ≠ dquote ∧ c ≠ backslash then do
      let out ← mboxBufPutChar fill out c
      escapeBytes d out
    else do
      let out ← mboxBufPutChar fill out backslash
      let out ← putEscape fill out c
      escapeBytes d out

/-- `mboxBufEscapeString`: a new buffer with the escaped string. -/
def mboxBufEscapeString (buf : MboxBuf) : Exec MboxBuf :=
  escapeBytes fill buf.data (mboxBufAlloc fill buf.capacity)

end Functions

/-! ## What an escape stands for -/

/-- The letters behind a backslash, and what they stand for. -/
def escapeLetters : List (MboxChar × MboxChar) :=
  [(backslash, backslash), (dquote, dquote), (98, 8), (110, 10), (116, 9), (118, 11), (102, 12),
    (114, 13)]

/-- The value of hexadecimal digits. -/
def hexValue (digits : List MboxChar) : ℕ :=
  digits.foldl (fun n d => n * 16 + (hexToInt d).toNat) 0

/-- The byte that is read at `c`, and how many of the bytes behind `c` are part of it. A
backslash that begins no escape stands for itself. -/
def readEscaped (c : MboxChar) (rest : List MboxChar) : MboxChar × ℕ :=
  if c = backslash then
    match rest with
    | [] => (c, 0)
    | e :: rest =>
      match escapeLetters.lookup e with
      | some b => (b, 1)
      | none =>
        if e = 117 ∧ (rest.take 4).length = 4 ∧ ∀ d ∈ rest.take 4, hexToInt d ≠ -1 then
          (UInt8.ofNat (hexValue (rest.take 4)), 5)
        else (c, 0)
  else (c, 0)

/-- The first bytes are passed, and what is behind them is read. -/
def unescapeFrom : ℕ → List MboxChar → List MboxChar
  | _, [] => []
  | 0, c :: rest => (readEscaped c rest).1 :: unescapeFrom (readEscaped c rest).2 rest
  | k + 1, _ :: rest => unescapeFrom k rest

/-- The string whose escape this is: a backslash and what belongs to it are one byte, every other
byte is itself. -/
def unescape (text : List MboxChar) : List MboxChar := unescapeFrom 0 text

/-- In front of every double quote there is a backslash that escapes it. -/
def quotesEscaped : List MboxChar → Bool
  | [] => true
  | [c] => c != dquote
  | c :: e :: rest =>
    if c = backslash then quotesEscaped rest else c != dquote && quotesEscaped (e :: rest)

/-- What a byte is written as. -/
def escape (c : MboxChar) : List MboxChar :=
  if 31 < c ∧ c ≠ dquote ∧ c ≠ backslash then [c]
  else
    match escapeLetters.find? (fun p => p.2 == c) with
    | some p => [backslash, p.1]
    | none => backslash :: 117 :: hex04 c.toNat

/-! ## Hexadecimal digits -/

section Hex

variable {n : ℕ} {d : MboxChar} {ds : List ℕ} {text : List MboxChar}

/-- Zeros in front do not change the value of a number. -/
theorem hexValue_zeros (k : ℕ) : hexValue (List.replicate k 48 ++ text) = hexValue text := by
  induction k with
  | zero => rfl
  | succ k ih => exact ih

/-- The digits of a number have its value. -/
theorem hexValue_digits (hds : ∀ d ∈ ds, d < 16) :
    hexValue (ds.map (hexDigit false)).reverse = Nat.ofDigits 16 ds := by
  induction ds with
  | nil => rfl
  | cons d ds ih =>
    have hd := (hexToInt_hexDigit false (hds d (List.mem_cons_self ..))).1
    have hih := ih fun d hd => hds d (List.mem_cons_of_mem _ hd)
    rw [hexValue] at hih
    simp only [hexValue, List.map_cons, List.reverse_cons, List.foldl_append, hih, List.foldl_cons,
      List.foldl_nil, hd, Nat.ofDigits_cons, Int.toNat_natCast]
    ring

/-- The digits of `%04x` are four if the number has no more, and stand for the number. -/
theorem hex04_spec (hn : n < 16 ^ 4) :
    (hex04 n).length = 4 ∧ (∀ d ∈ hex04 n, hexToInt d ≠ -1) ∧ hexValue (hex04 n) = n := by
  have hlen := (Nat.digits_length_le_iff (by decide) n).2 hn
  have hlt : ∀ d ∈ Nat.digits 16 n, d < 16 := fun d => Nat.digits_lt_base (by decide)
  refine ⟨?_, ?_, ?_⟩
  · simp only [hex04, List.length_append, List.length_replicate, List.length_reverse,
      List.length_map]
    exact Nat.sub_add_cancel hlen
  · intro d hd
    simp only [hex04, List.mem_append, List.mem_replicate, List.mem_reverse, List.mem_map] at hd
    obtain ⟨-, rfl⟩ | ⟨k, hk, rfl⟩ := hd
    · decide
    · rw [(hexToInt_hexDigit false (hlt k hk)).1]
      simp
  · rw [hex04, hexValue_zeros, hexValue_digits hlt, Nat.ofDigits_digits]

/-- A byte is written in four digits, which have its value. -/
theorem hex04_toNat (c : MboxChar) : (hex04 c.toNat).length = 4 ∧
    (∀ d ∈ hex04 c.toNat, hexToInt d ≠ -1) ∧ hexValue (hex04 c.toNat) = c.toNat :=
  hex04_spec (c.toNat_lt.trans (by decide))

/-- A digit is no control byte, and needs no escape. -/
theorem plain_of_hexToInt (hd : hexToInt d ≠ -1) : 31 < d ∧ d ≠ dquote ∧ d ≠ backslash := by
  refine ⟨?_, ?_, ?_⟩
  · by_contra hlow
    have hlt : ∀ x : MboxChar, 31 < x → ¬ x ≤ d :=
      fun x hx h => hlow (UInt8.lt_of_lt_of_le hx h)
    apply hd
    rw [hexToInt, if_neg fun h => hlt 48 (by decide) h.1, if_neg fun h => hlt 65 (by decide) h.1,
      if_neg fun h => hlt 97 (by decide) h.1]
  · rintro rfl
    exact hd (by decide)
  · rintro rfl
    exact hd (by decide)

end Hex

/-! ## Reading what was written -/

section Read

variable {c : MboxChar} {p : MboxChar × MboxChar} {s rest : List MboxChar}

theorem lookup_escapeLetters (hp : p ∈ escapeLetters) : escapeLetters.lookup p.1 = some p.2 := by
  simp only [escapeLetters, List.mem_cons, List.not_mem_nil, or_false] at hp
  rcases hp with rfl | rfl | rfl | rfl | rfl | rfl | rfl | rfl <;> rfl

theorem le_of_mem_escapeLetters (hp : p ∈ escapeLetters) : 32 ≤ p.1 := by
  simp only [escapeLetters, List.mem_cons, List.not_mem_nil, or_false] at hp
  rcases hp with rfl | rfl | rfl | rfl | rfl | rfl | rfl | rfl <;> decide

/-- A letter behind the backslash is read as the byte it stands for. -/
theorem readEscaped_letter (hp : p ∈ escapeLetters) (rest : List MboxChar) :
    readEscaped backslash (p.1 :: rest) = (p.2, 1) := by
  simp only [readEscaped, if_true, lookup_escapeLetters hp]

/-- Four digits are read as the byte with their value. -/
theorem readEscaped_hex {digits : List MboxChar} (hlen : digits.length = 4)
    (hhex : ∀ d ∈ digits, hexToInt d ≠ -1) (rest : List MboxChar) :
    readEscaped backslash (117 :: (digits ++ rest)) = (UInt8.ofNat (hexValue digits), 5) := by
  have htake : (digits ++ rest).take 4 = digits := by rw [← hlen, List.take_left]
  have hlookup : escapeLetters.lookup 117 = none := rfl
  simp only [readEscaped, if_true, hlookup, htake]
  exact if_pos ⟨trivial, hlen, hhex⟩

/-- The three ways in which a byte is written: as it is, by a letter, or in digits. -/
theorem escape_cases (c : MboxChar) :
    (31 < c ∧ c ≠ dquote ∧ c ≠ backslash) ∧ escape c = [c] ∨
    ¬ (31 < c ∧ c ≠ dquote ∧ c ≠ backslash) ∧
      ((∃ p ∈ escapeLetters, p.2 = c ∧ escape c = [backslash, p.1]) ∨
        (∀ p ∈ escapeLetters, p.2 ≠ c) ∧ escape c = backslash :: 117 :: hex04 c.toNat) := by
  by_cases hplain : 31 < c ∧ c ≠ dquote ∧ c ≠ backslash
  · exact Or.inl ⟨hplain, if_pos hplain⟩
  · refine Or.inr ⟨hplain, ?_⟩
    cases hfind : escapeLetters.find? (fun p => p.2 == c) with
    | some p =>
      have hc : p.2 = c := by simpa using List.find?_some hfind
      refine Or.inl ⟨p, List.mem_of_find?_eq_some hfind, hc, ?_⟩
      rw [escape, if_neg hplain, hfind]
    | none =>
      refine Or.inr ⟨fun p hp => by simpa using List.find?_eq_none.1 hfind p hp, ?_⟩
      rw [escape, if_neg hplain, hfind]

/-- What a byte is written as is read as that byte, whatever stands behind it. -/
theorem readEscaped_escape (c : MboxChar) :
    ∃ x xs, escape c = x :: xs ∧ ∀ rest, readEscaped x (xs ++ rest) = (c, xs.length) := by
  obtain ⟨⟨-, -, hc⟩, heq⟩ | ⟨-, ⟨p, hp, rfl, heq⟩ | ⟨-, heq⟩⟩ := escape_cases c
  · exact ⟨c, [], heq, fun rest => if_neg hc⟩
  · refine ⟨backslash, [p.1], heq, fun rest => ?_⟩
    exact readEscaped_letter hp rest
  · obtain ⟨hlen, hhex, hvalue⟩ := hex04_toNat c
    refine ⟨backslash, 117 :: hex04 c.toNat, heq, fun rest => ?_⟩
    rw [List.cons_append, readEscaped_hex hlen hhex, hvalue, UInt8.ofNat_toNat, List.length_cons,
      hlen]

theorem unescapeFrom_append (xs rest : List MboxChar) :
    unescapeFrom xs.length (xs ++ rest) = unescape rest := by
  induction xs with
  | nil => rfl
  | cons x xs ih => exact ih

/-- **The string is had back** from its escape, byte by byte, since no byte begins the escape of
another one. -/
theorem unescape_flatMap (s : List MboxChar) : unescape (s.flatMap escape) = s := by
  induction s with
  | nil => rfl
  | cons c s ih =>
    obtain ⟨x, xs, heq, hread⟩ := readEscaped_escape c
    rw [List.flatMap_cons, heq, List.cons_append, unescape, unescapeFrom, hread,
      unescapeFrom_append, ih]

/-- Nothing below a space is written. -/
theorem le_of_mem_escape {x : MboxChar} (hx : x ∈ escape c) : 32 ≤ x := by
  obtain ⟨⟨hc, -⟩, heq⟩ | ⟨-, ⟨p, hp, -, heq⟩ | ⟨-, heq⟩⟩ := escape_cases c
  · rw [heq, List.mem_singleton] at hx
    exact hx ▸ hc
  · simp only [heq, List.mem_cons, List.not_mem_nil, or_false] at hx
    obtain rfl | rfl := hx
    · decide
    · exact le_of_mem_escapeLetters hp
  · obtain ⟨-, hhex, -⟩ := hex04_toNat c
    simp only [heq, List.mem_cons] at hx
    obtain rfl | rfl | hx := hx
    · decide
    · decide
    · exact (plain_of_hexToInt (hhex x hx)).1

/-- Bytes that are neither a quote nor a backslash change nothing about the quotes behind them. -/
theorem quotesEscaped_append {xs : List MboxChar} (hxs : ∀ x ∈ xs, x ≠ dquote ∧ x ≠ backslash)
    (rest : List MboxChar) : quotesEscaped (xs ++ rest) = quotesEscaped rest := by
  induction xs with
  | nil => rfl
  | cons x xs ih =>
    obtain ⟨hx, hb⟩ := hxs x (List.mem_cons_self ..)
    rw [List.cons_append, ← ih fun x hx => hxs x (List.mem_cons_of_mem _ hx)]
    cases xs ++ rest with
    | nil => simp [quotesEscaped, hx]
    | cons y ys => simp [quotesEscaped, hx, hb]

/-- In the escape of a string every double quote is escaped. -/
theorem quotesEscaped_flatMap (s : List MboxChar) : quotesEscaped (s.flatMap escape) := by
  induction s with
  | nil => rfl
  | cons c s ih =>
    rw [List.flatMap_cons]
    obtain ⟨⟨-, hc⟩, heq⟩ | ⟨-, ⟨p, hp, -, heq⟩ | ⟨-, heq⟩⟩ := escape_cases c
    · rw [heq, quotesEscaped_append (by simpa using hc), ih]
    · rw [heq]
      exact ih
    · obtain ⟨-, hhex, -⟩ := hex04_toNat c
      rw [heq, List.cons_append, List.cons_append, quotesEscaped, if_pos rfl,
        quotesEscaped_append fun x hx => (plain_of_hexToInt (hhex x hx)).2, ih]

end Read

/-! ## What is written -/

section Write

variable {fill : ℕ → MboxChar} {out : MboxBuf} {c : MboxChar} {p : MboxChar × MboxChar}
  {s tail : List MboxChar}

theorem putEscape_letter (hp : p ∈ escapeLetters) :
    putEscape fill out p.2 = mboxBufPutChar fill out p.1 := by
  simp only [escapeLetters, List.mem_cons, List.not_mem_nil, or_false] at hp
  rcases hp with rfl | rfl | rfl | rfl | rfl | rfl | rfl | rfl <;> rfl

theorem putEscape_hex (hne : ∀ p ∈ escapeLetters, p.2 ≠ c) :
    putEscape fill out c = mboxBufCatPrintf fill out (117 :: hex04 c.toNat) := by
  simp only [escapeLetters, List.forall_mem_cons, List.not_mem_nil] at hne
  obtain ⟨h₁, h₂, h₃, h₄, h₅, h₆, h₇, h₈, -⟩ := hne
  rw [putEscape, if_neg h₁.symm, if_neg h₂.symm, if_neg h₃.symm, if_neg h₄.symm, if_neg h₅.symm,
    if_neg h₆.symm, if_neg h₇.symm, if_neg h₈.symm]

/-- The escape of a byte goes behind the contents of the buffer. -/
theorem putEscape_spec (fill : ℕ → MboxChar) (hs : out.Sound)
    (hc : ¬ (31 < c ∧ c ≠ dquote ∧ c ≠ backslash)) :
    ∃ out' text, putEscape fill out c = ok out' ∧ escape c = backslash :: text ∧ out'.Sound ∧
      out'.bytes = out.bytes ++ text := by
  obtain ⟨hplain, -⟩ | ⟨-, ⟨p, hp, rfl, heq⟩ | ⟨hne, heq⟩⟩ := escape_cases c
  · exact absurd hplain hc
  · obtain ⟨out', hput, hout'⟩ := mboxBufPutChar_spec fill hs p.1
    exact ⟨out', [p.1], (putEscape_letter hp).trans hput, heq, hout'.sound, hout'.bytes⟩
  · have hlen : (117 :: hex04 c.toNat).length < 2 ^ 32 := by
      rw [List.length_cons, (hex04_toNat c).1]
      decide
    obtain ⟨out', hput, hbytes, -, hcap, hroom⟩ :=
      mboxBufCatPrintf_spec fill hs.capacity hs.room hlen
    exact ⟨out', _, (putEscape_hex hne).trans hput, heq, ⟨hcap, hroom⟩, hbytes⟩

/-- Behind the contents there is the escape of the string at the end. -/
theorem escapeBytes_spec (fill : ℕ → MboxChar) (hnul : nul ∉ s) (hs : out.Sound)
    (tail : List MboxChar) :
    ∃ out', escapeBytes fill (s ++ nul :: tail) out = ok out' ∧
      out'.bytes = out.bytes ++ s.flatMap escape := by
  induction s generalizing out with
  | nil => exact ⟨out, rfl, (List.append_nil _).symm⟩
  | cons c s ih =>
    simp only [List.mem_cons, not_or] at hnul
    rw [List.cons_append, escapeBytes, if_neg (Ne.symm hnul.1), List.flatMap_cons]
    by_cases hplain : 31 < c ∧ c ≠ dquote ∧ c ≠ backslash
    · obtain ⟨out₁, hput, hout₁⟩ := mboxBufPutChar_spec fill hs c
      obtain ⟨out', hrun, hbytes⟩ := ih hnul.2 hout₁.sound
      refine ⟨out', ?_, ?_⟩
      · rw [if_pos hplain, hput, ok_bind, hrun]
      · rw [hbytes, hout₁.bytes, List.append_assoc, escape, if_pos hplain]
    · obtain ⟨out₁, hput, hout₁⟩ := mboxBufPutChar_spec fill hs backslash
      obtain ⟨out₂, text, hescape, heq, hs₂, hbytes₂⟩ := putEscape_spec fill hout₁.sound hplain
      obtain ⟨out', hrun, hbytes⟩ := ih hnul.2 hs₂
      refine ⟨out', ?_, ?_⟩
      · rw [if_neg hplain, hput, ok_bind, hescape, ok_bind, hrun]
      · rw [hbytes, hbytes₂, hout₁.bytes, heq]
        simp

/-- **A string is escaped byte by byte**, up to its NUL, into a buffer of its own. -/
theorem mboxBufEscapeString_spec (fill : ℕ → MboxChar) {buf : MboxBuf}
    (hdata : buf.data = s ++ nul :: tail) (hnul : nul ∉ s) :
    ∃ out, mboxBufEscapeString fill buf = ok out ∧ out.bytes = s.flatMap escape := by
  rw [mboxBufEscapeString, hdata]
  exact escapeBytes_spec fill hnul (mboxBufAlloc_sound fill _) tail

/-- **Escaping is reversible**: no control byte is left, every double quote is escaped, and the
string is had back. So no two strings have the same escape. -/
theorem mboxBufEscapeString_reversible (fill : ℕ → MboxChar) {buf : MboxBuf}
    (hdata : buf.data = s ++ nul :: tail) (hnul : nul ∉ s) :
    ∃ out, mboxBufEscapeString fill buf = ok out ∧ (∀ c ∈ out.bytes, 32 ≤ c) ∧
      quotesEscaped out.bytes ∧ unescape out.bytes = s ∧
      ∀ (fill' : ℕ → MboxChar) (buf' out' : MboxBuf) (s' tail' : List MboxChar),
        buf'.data = s' ++ nul :: tail' → nul ∉ s' → mboxBufEscapeString fill' buf' = ok out' →
        out'.bytes = out.bytes → s' = s := by
  obtain ⟨out, hrun, hbytes⟩ := mboxBufEscapeString_spec fill hdata hnul
  refine ⟨out, hrun, ?_, ?_, ?_, ?_⟩
  · intro c hc
    rw [hbytes] at hc
    obtain ⟨b, -, hc⟩ := List.mem_flatMap.1 hc
    exact le_of_mem_escape hc
  · rw [hbytes]
    exact quotesEscaped_flatMap s
  · rw [hbytes, unescape_flatMap]
  · intro fill' buf' out' s' tail' hdata' hnul' hrun' heq
    obtain ⟨out₁, hrun₁, hbytes₁⟩ := mboxBufEscapeString_spec fill' hdata' hnul'
    obtain rfl : out₁ = out' := by simpa [hrun₁] using hrun'
    rw [← unescape_flatMap s', ← hbytes₁, heq, hbytes, unescape_flatMap]

/-- A backslash in front of a letter, a control byte in front of a digit, and a quote. -/
theorem mboxBufEscapeString_reversible_mixed :
    nul ∉ [92, 110, 1, 49, 34] ∧
    ∃ out, mboxBufEscapeString (fun _ => nul) ⟨[92, 110, 1, 49, 34, 0], 0, 5, 6⟩ = ok out ∧
      (∀ c ∈ out.bytes, 32 ≤ c) ∧ quotesEscaped out.bytes ∧
      unescape out.bytes = [92, 110, 1, 49, 34] := by
  have hnul : nul ∉ [92, 110, 1, 49, 34] := by decide
  have hdata : (⟨[92, 110, 1, 49, 34, 0], 0, 5, 6⟩ : MboxBuf).data =
      [92, 110, 1, 49, 34] ++ nul :: [] := rfl
  obtain ⟨out, hrun, hle, hquotes, hback, -⟩ :=
    mboxBufEscapeString_reversible (fun _ => nul) hdata hnul
  exact ⟨hnul, out, hrun, hle, hquotes, hback⟩

end Write

end Libmbox2
