import Mathlib.Tactic.FinCases
import Libmbox2.Date

/-!
# Dates as text

A date is rendered by a format as `strftime` does it (`DateTime.render`), and
`mboxDateStringToStruct` is to read it back by the same format. What the loop does at each
directive depends on the byte behind the text of the field; behind the name of a month it
stands on the last letter of it, which is passed where that letter is the `b` of the
directive: in February.
-/

namespace Libmbox2

open CSem CSem.Exec

/-! ## Rendering -/

/-- The digit of a number below ten. -/
def digit (d : ℕ) : MboxChar := UInt8.ofNat (48 + d)

/-- The last `k` digits of a number, with zeros in front. -/
def padded : ℕ → ℕ → List MboxChar
  | 0, _ => []
  | k + 1, n => padded k (n / 10) ++ [digit (n % 10)]

/-- A year with a 29 February. -/
def leapYear (year : ℕ) : Prop := year % 4 = 0 ∧ (year % 100 ≠ 0 ∨ year % 400 = 0)

instance : DecidablePred leapYear := fun _ => inferInstanceAs (Decidable (_ ∧ _))

/-- How many days a month has in a year; January is `0`. -/
def daysIn (year month : ℕ) : ℕ :=
  if month = 1 then if leapYear year then 29 else 28
  else if month = 3 ∨ month = 5 ∨ month = 8 ∨ month = 10 then 30
  else 31

/-- The name of a day as a date shows it. -/
def nameOfDay (i : Fin 7) : List MboxChar := days.get i

/-- The name of a month as a date shows it. -/
def nameOfMonth (i : Fin 12) : List MboxChar := months.get i

/-- A date and a time of day, with the offset of its zone as four digits. -/
structure DateTime where
  /-- the day of the week, whether or not it is that of the date -/
  wday : Fin 7
  mday : ℕ
  mon : Fin 12
  year : ℕ
  hour : ℕ
  min : ℕ
  sec : ℕ
  /-- the offset is negative -/
  west : Bool
  zone : ℕ
  mday_pos : 1 ≤ mday
  mday_le : mday ≤ daysIn year mon
  year_lt : year < 10000
  hour_lt : hour < 24
  min_lt : min < 60
  sec_le : sec ≤ 60
  zone_lt : zone < 10000
  /-- `-0001` stands for no offset -/
  zone_set : ¬ (west = true ∧ zone = 1)

namespace DateTime

/-- The offset of a date's zone as the parser keeps it, a number of four digits with a sign. -/
def zoneDiff (d : DateTime) : Int := if d.west then -d.zone else d.zone

/-- The offset of the zone as a date shows it. -/
def zoneText (d : DateTime) : List MboxChar := (if d.west then 45 else 43) :: padded 4 d.zone

/-- The text of a field, by the letter of its directive. -/
def field (d : DateTime) (letter : MboxChar) : List MboxChar :=
  if letter = 97 then nameOfDay d.wday
  else if letter = 98 then nameOfMonth d.mon
  else if letter = 100 then padded 2 d.mday
  else if letter = 89 then padded 4 d.year
  else if letter = 72 then padded 2 d.hour
  else if letter = 77 then padded 2 d.min
  else if letter = 83 then padded 2 d.sec
  else if letter = 122 then d.zoneText
  else []

/-- A date written by a format: the bytes of the format, and what each directive shows. -/
def render (d : DateTime) : List MboxChar → List MboxChar
  | [] => []
  | ch :: format =>
    if ch = 37 then
      match format with
      | [] => []
      | letter :: format => d.field letter ++ render d format
    else ch :: render d format

/-- The fields of `t` that a format sets are those of the date. -/
structure ReadInto (d : DateTime) (t : MboxDate) : Prop where
  mday : t.tmMday = d.mday
  mon : t.tmMon = (d.mon : ℕ)
  year : t.tmYear = d.year
  hour : t.tmHour = d.hour
  min : t.tmMin = d.min
  sec : t.tmSec = d.sec
  zoneDiff : t.tmZoneDiff = d.zoneDiff

/-- The date is read back from what it is rendered to, whatever lies behind the text. -/
def ParsesBack (d : DateTime) (format : List MboxChar) : Prop :=
  ∀ tail, ∃ t, mboxDateStringToStruct (d.render format ++ nul :: tail) (format ++ [nul]) =
    ok (true, t) ∧ d.ReadInto t

end DateTime

/-! ## Numbers -/

/-- Padded numbers are made of digits. -/
theorem isDigit_padded {k n : ℕ} : ∀ c ∈ padded k n, isDigit c = true := by
  induction k generalizing n with
  | zero =>
    intro c hc
    cases hc
  | succ k ih =>
    intro c hc
    rcases List.mem_append.mp hc with hc | hc
    · exact ih c hc
    · rw [List.mem_singleton.mp hc]
      exact isDigit_digit (Nat.mod_lt _ (by decide))

@[simp] theorem length_padded (k n : ℕ) : (padded k n).length = k := by
  induction k generalizing n with
  | zero => rfl
  | succ k ih => simp [padded, ih]

/-- A number that has room in them is read back from its digits. -/
theorem digitsValue_padded {k n : ℕ} (h : n < 10 ^ k) : digitsValue (padded k n) = n := by
  induction k generalizing n with
  | zero =>
    rw [pow_zero, Nat.lt_one_iff] at h
    rw [h]
    rfl
  | succ k ih =>
    have hdiv : n / 10 < 10 ^ k := by
      rw [Nat.div_lt_iff_lt_mul (by decide), ← pow_succ]
      exact h
    have hrest := ih hdiv
    rw [digitsValue] at hrest ⊢
    rw [padded, List.foldl_append, hrest, List.foldl_cons, List.foldl_nil, digit,
      toNat_digit (Nat.mod_lt _ (by decide)), Nat.add_sub_cancel_left, Nat.div_add_mod']

/-- In front of `rest`, `text` is read as the number `v`. -/
structure NumberText (text : List MboxChar) (v : Int) (rest : List MboxChar) : Prop where
  strtol : strtol (text ++ rest) = ok (v, text.length)
  int : longToInt v = v
  head : ∃ c text', text = c :: text' ∧ c ≠ nul

theorem longToInt_of_lt {v : Int} (h : v.natAbs < 2 ^ 31) : longToInt v = v := by
  rw [longToInt, Int.bmod_eq_of_le] <;> omega

/-- A digit is no byte that is none. -/
theorem ne_of_isDigit {c x : MboxChar} (hc : isDigit c = true) (hx : isDigit x = false) :
    c ≠ x := by
  rintro rfl
  rw [hc] at hx
  cases hx

/-- There is a first digit, and there are the ones behind it. -/
theorem exists_padded_succ (k n : ℕ) :
    ∃ c ds, padded (k + 1) n = c :: ds ∧ isDigit c = true := by
  obtain ⟨c, ds, hds⟩ : ∃ c ds, padded (k + 1) n = c :: ds :=
    List.exists_cons_of_ne_nil (List.append_ne_nil_of_right_ne_nil _ (List.cons_ne_nil _ _))
  exact ⟨c, ds, hds, isDigit_padded c (hds ▸ List.mem_cons_self ..)⟩

theorem toLong_of_lt {v : Int} (h : v.natAbs < 2 ^ 31) : toLong v = v := by
  rw [toLong]
  omega

/-- A padded number is what `strtol` reads, up to the byte behind it that is no digit. -/
theorem numberText_padded {k n : ℕ} (hn : n < 10 ^ (k + 1)) (hint : n < 2 ^ 31) {c : MboxChar}
    (hc : isDigit c = false) (rest : List MboxChar) :
    NumberText (padded (k + 1) n) n (c :: rest) := by
  obtain ⟨x, ds, hds, hx⟩ := exists_padded_succ k n
  have hne : padded (k + 1) n ≠ [] := hds ▸ List.cons_ne_nil x ds
  refine ⟨?_, longToInt_of_lt hint, x, ds, hds, ne_of_isDigit hx rfl⟩
  rw [strtol_digits isDigit_padded hne hc, digitsValue_padded hn,
    toLong_of_lt (v := (n : Int)) hint]

/-- So is the offset of a zone, with its sign. -/
theorem numberText_zone (d : DateTime) {c : MboxChar} (hc : isDigit c = false)
    (rest : List MboxChar) : NumberText d.zoneText d.zoneDiff (c :: rest) := by
  have hlt := d.zone_lt
  have hint : d.zoneDiff.natAbs < 2 ^ 31 := by
    rw [DateTime.zoneDiff]
    split <;> omega
  have hne : padded 4 d.zone ≠ [] := List.append_ne_nil_of_right_ne_nil _ (List.cons_ne_nil _ _)
  refine ⟨?_, longToInt_of_lt hint, _, _, rfl, ?_⟩
  · have hsign : (if d.west then 45 else 43 : MboxChar) = 43 ∨
        (if d.west then 45 else 43 : MboxChar) = 45 := by
      cases d.west <;> decide
    have hvalue : (if (if d.west then 45 else 43 : MboxChar) = 45 then -(d.zone : Int)
        else d.zone) = d.zoneDiff := by
      rw [DateTime.zoneDiff]
      cases d.west <;> rfl
    rw [DateTime.zoneText, strtol_sign hsign isDigit_padded hne hc, digitsValue_padded hlt, hvalue,
      toLong_of_lt hint]
    rfl
  · cases d.west <;> decide

/-! ## One round of the loop -/

section Rounds

variable {format r e : List MboxChar} {t : MboxDate} {ch next c x : MboxChar}

/-- A byte of the format that is in the text is passed in both. -/
theorem dateNext_pass (hx : x ≠ nul) :
    dateNext ch ⟨ch :: r, x :: e, t⟩ = ok (some ⟨r, x :: e, t⟩) := by
  simp [dateNext, DateScan.advanceBy, load, hx]

/-- One that is not is passed in the format alone. -/
theorem dateNext_skip (hx : x ≠ nul) (hne : ch ≠ c) :
    dateNext ch ⟨c :: r, x :: e, t⟩ = ok (some ⟨c :: r, x :: e, t⟩) := by
  simp [dateNext, load, hx, hne]

/-- A byte of the format that is the next one of the string is passed. -/
theorem dateLoop_pass (hch : ch ≠ nul) (hdir : ch ≠ 37) (hx : x ≠ nul) :
    dateLoop (ch :: next :: format) ⟨ch :: r, x :: e, t⟩ =
      dateLoop (next :: format) ⟨r, x :: e, t⟩ := by
  simp [dateLoop, dateNext_pass hx, load, hch, hdir]

/-- So the loop goes on with the next byte of the format, at the same place in the text. -/
theorem dateLoop_skip (hch : ch ≠ nul) (hdir : ch ≠ 37) (hx : x ≠ nul) (hc : c ≠ nul)
    (hne : ch ≠ c) :
    dateLoop (ch :: next :: format) ⟨c :: r, x :: e, t⟩ =
      dateLoop (next :: format) ⟨c :: r, x :: e, t⟩ := by
  simp [dateLoop, dateNext_skip hx hne, load, hch, hdir, hc]

variable {letter : MboxChar} {s s' : DateScan} {t' : MboxDate}

theorem percent_ne_nul : (37 : MboxChar) ≠ nul := by decide

/-- A directive that reads something, and the letter of which is looked for in the text behind
it. -/
theorem dateLoop_directive (hc : c ≠ nul)
    (hdir : dateDirective letter ⟨c :: r, e, t⟩ = ok (.inl s))
    (hnext : dateNext letter s = ok (some s')) :
    dateLoop (37 :: letter :: format) ⟨c :: r, e, t⟩ = dateLoop format s' := by
  simp [dateLoop, load, hc, percent_ne_nul, hdir, hnext]

/-- The text ends behind a number, and so does the loop. -/
theorem dateLoop_end (hc : c ≠ nul) (hdir : dateDirective letter ⟨c :: r, e, t⟩ = ok (.inl s))
    {e' : List MboxChar} (hend : s.endptr = nul :: e') :
    dateLoop (37 :: letter :: format) ⟨c :: r, e, t⟩ = ok (true, s.t) := by
  simp [dateLoop, dateNext, load, hc, percent_ne_nul, hdir, hend]

theorem dateLoop_fail (hc : c ≠ nul) (hdir : dateDirective letter ⟨c :: r, e, t⟩ = ok (.inr t')) :
    dateLoop (37 :: letter :: format) ⟨c :: r, e, t⟩ = ok (false, t') := by
  simp [dateLoop, load, hc, percent_ne_nul, hdir]

end Rounds

/-! ## The directives of numbers -/

/-- The directive reads a number into a field and goes on behind the byte behind it. -/
def NumberDirective (letter : MboxChar) (set : Int → MboxDate → MboxDate) : Prop :=
  ∀ s, dateDirective letter s = readField set s >>= fun r => ok (r.map (·.behindEnd) id)

theorem numberDirective_Y : NumberDirective 89 fun n t => { t with tmYear := n } := fun _ => rfl

theorem numberDirective_H : NumberDirective 72 fun n t => { t with tmHour := n } := fun _ => rfl

theorem numberDirective_M : NumberDirective 77 fun n t => { t with tmMin := n } := fun _ => rfl

theorem numberDirective_S : NumberDirective 83 fun n t => { t with tmSec := n } := fun _ => rfl

theorem numberDirective_z : NumberDirective 122 fun n t => { t with tmZoneDiff := n } :=
  fun _ => rfl

section Numbers

variable {text format r e : List MboxChar} {t : MboxDate} {letter next x c : MboxChar} {v : Int}
  {set : Int → MboxDate → MboxDate}

/-- A field takes the number the text begins with, and stands at what is behind it. -/
theorem readField_text (set : Int → MboxDate → MboxDate) (hn : NumberText text v r)
    (e : List MboxChar) (t : MboxDate) :
    readField set ⟨text ++ r, e, t⟩ = ok (.inl ⟨text ++ r, r, set v t⟩) := by
  obtain ⟨c, text', rfl, -⟩ := hn.head
  rw [readField, hn.strtol, ok_bind]
  simp [hn.int]

/-- Where no number begins, the field is zero and nothing more is read. -/
theorem readField_none (set : Int → MboxDate → MboxDate) (hspace : isSpace c = false)
    (hsign : ¬ (c = 43 ∨ c = 45)) (hdigit : isDigit c = false) :
    readField set ⟨c :: r, e, t⟩ = ok (.inr (set 0 t)) := by
  rw [readField, strtol_none hspace hsign hdigit, ok_bind]
  rfl

/-- A number, and the byte behind it: the two are read by the directive, and the byte of the
format that stands for the second is passed by. -/
theorem dateLoop_number (hdir : NumberDirective letter set) (hn : NumberText text v (x :: r))
    (hx : x ≠ nul) (hx' : x ≠ 37) (hr : ∃ y r', r = y :: r' ∧ y ≠ nul ∧ letter ≠ y ∧ x ≠ y) :
    dateLoop (37 :: letter :: x :: next :: format) ⟨text ++ x :: r, e, t⟩ =
      dateLoop (next :: format) ⟨r, x :: r, set v t⟩ := by
  obtain ⟨y, r, rfl, hy, hletter, hxy⟩ := hr
  obtain ⟨c, text', rfl, hc⟩ := hn.head
  have hfield := readField_text set hn e t
  rw [List.cons_append] at hfield ⊢
  rw [← dateLoop_skip hx hx' hx hy hxy]
  refine dateLoop_directive hc (s := ⟨y :: r, x :: y :: r, set v t⟩) ?_ (dateNext_skip hx hletter)
  rw [hdir, hfield]
  rfl

/-- A number that ends the text is the last one read. -/
theorem dateLoop_lastNumber (hdir : NumberDirective letter set)
    (hn : NumberText text v (nul :: r)) :
    dateLoop (37 :: letter :: format) ⟨text ++ nul :: r, e, t⟩ = ok (true, set v t) := by
  obtain ⟨c, text', rfl, hc⟩ := hn.head
  have hfield := readField_text set hn e t
  rw [List.cons_append] at hfield ⊢
  refine dateLoop_end hc (s := ⟨r, nul :: r, set v t⟩) ?_ rfl
  rw [hdir, hfield]
  rfl

end Numbers

/-! ## Reading a rendered date -/

theorem findName_days (i : Fin 7) (r : List MboxChar) :
    findName days (nameOfDay i ++ r) = ok (some (i : ℕ)) := by
  fin_cases i <;> rfl

theorem findName_months (i : Fin 12) (r : List MboxChar) :
    findName months (nameOfMonth i ++ r) = ok (some (i : ℕ)) := by
  fin_cases i <;> rfl

/-- The byte is a letter, and no part of a number. -/
structure IsLetter (c : MboxChar) : Prop where
  ne_nul : c ≠ nul
  space : isSpace c = false
  sign : ¬ (c = 43 ∨ c = 45)
  digit : isDigit c = false

/-- What becomes a letter is one. -/
theorem isLetter_of_tolower {c : MboxChar} (h : IsLetter (tolower c)) : IsLetter c := by
  rw [tolower] at h
  split at h
  · rename_i hupper
    have h65 : 65 ≤ c.toNat := UInt8.le_iff_toNat_le.mp hupper.1
    have h90 : c.toNat ≤ 90 := UInt8.le_iff_toNat_le.mp hupper.2
    refine ⟨?_, ?_, ?_, ?_⟩
    · simp only [ne_eq, ← UInt8.toNat_inj, UInt8.toNat_ofNat]
      omega
    · simp [isSpace, UInt8.le_iff_toNat_le, ← UInt8.toNat_inj]
      omega
    · simp only [← UInt8.toNat_inj, UInt8.toNat_ofNat]
      omega
    · simp [isDigit, UInt8.le_iff_toNat_le]
      omega
  · exact h

theorem findName_congr {s s' : List MboxChar} (h : s.map tolower = s'.map tolower)
    (names : List (List MboxChar)) : findName names s = findName names s' := by
  induction names with
  | nil => rfl
  | cons name names ih => rw [findName, findName, matchName, matchName, h, ih]

/-- The name of a day, in whatever case, is three letters. -/
theorem letters_of_sameName {name : List MboxChar} {i : Fin 7}
    (h : sameName name (nameOfDay i)) : ∃ a b c, name = [a, b, c] ∧ IsLetter a := by
  have hlen : name.length = 3 := by
    have hlen := congrArg List.length h
    rw [List.length_map, List.length_map] at hlen
    rw [hlen]
    fin_cases i <;> rfl
  obtain ⟨a, b, c, rfl⟩ := List.length_eq_three.mp hlen
  refine ⟨a, b, c, rfl, isLetter_of_tolower ?_⟩
  have hhead : tolower a = ((nameOfDay i).map tolower).headD nul := by
    rw [← h]
    rfl
  rw [hhead]
  fin_cases i <;> exact ⟨by decide, by decide, by decide, by decide⟩

/-- Only one name of a month ends with the letter of the directive. -/
theorem monthName_letters (i : Fin 12) :
    ∃ a b c, nameOfMonth i = [a, b, c] ∧ IsLetter a ∧ IsLetter c ∧ (c = 98 ↔ i = 1) := by
  fin_cases i <;>
    exact ⟨_, _, _, rfl, ⟨by decide, by decide, by decide, by decide⟩,
      ⟨by decide, by decide, by decide, by decide⟩, by decide⟩

section Fields

variable {r e format : List MboxChar} {t : MboxDate} {x y next : MboxChar}

/-- The name of a day is read, in any case, and its three bytes are passed. -/
theorem dateDirective_dayName {name : List MboxChar} {i : Fin 7}
    (h : sameName name (nameOfDay i)) (r e : List MboxChar) (t : MboxDate) :
    dateDirective 97 ⟨name ++ r, e, t⟩ =
      ok (.inl ⟨(name ++ r).drop 3, e, { t with tmWday := (i : ℕ) }⟩) := by
  have hsame : (name ++ r).map tolower = (nameOfDay i ++ r).map tolower := by
    rw [List.map_append, List.map_append, h]
  change findName days _ >>= _ = _
  rw [findName_congr hsame, findName_days]
  rfl

/-- Then the loop goes on with the format, where the byte behind the name stands. -/
theorem dateLoop_dayName {name : List MboxChar} {i : Fin 7} (h : sameName name (nameOfDay i))
    (hx : x ≠ nul) (hy : 97 ≠ y) :
    dateLoop (37 :: 97 :: format) ⟨name ++ y :: r, x :: e, t⟩ =
      dateLoop format ⟨y :: r, x :: e, { t with tmWday := (i : ℕ) }⟩ := by
  have hdir := dateDirective_dayName h (y :: r) (x :: e) t
  obtain ⟨a, b, c, rfl, ha⟩ := letters_of_sameName h
  exact dateLoop_directive ha.ne_nul hdir (dateNext_skip hx hy)

/-- The day of the month takes two bytes. -/
theorem dateDirective_day {n : ℕ} (hn : n < 100) :
    dateDirective 100 ⟨padded 2 n ++ 32 :: r, e, t⟩ =
      ok (.inl ⟨32 :: r, 32 :: r, { t with tmMday := n }⟩) := by
  have htext : NumberText (padded 2 n) n (32 :: r) :=
    numberText_padded hn (hn.trans (by decide)) rfl r
  have hdrop : (padded 2 n ++ 32 :: r).drop 2 = 32 :: r := List.drop_left' (length_padded 2 n)
  change readField _ _ >>= _ = _
  rw [readField_text _ htext, ok_bind, pure_eq, Sum.map_inl, DateScan.advanceBy, hdrop]

/-- And the blank behind it is passed in text and format. -/
theorem dateLoop_day {n : ℕ} (hn : n < 100) :
    dateLoop (37 :: 100 :: 32 :: next :: format) ⟨padded 2 n ++ 32 :: r, e, t⟩ =
      dateLoop (next :: format) ⟨r, 32 :: r, { t with tmMday := n }⟩ := by
  have hdir := dateDirective_day (r := r) (e := e) (t := t) hn
  have hpass : dateLoop (32 :: next :: format) ⟨32 :: r, 32 :: r, { t with tmMday := n }⟩ = _ :=
    dateLoop_pass (by decide) (by decide) (by decide)
  obtain ⟨c, ds, hds, hc⟩ := exists_padded_succ 1 n
  rw [hds] at hdir ⊢
  rw [← hpass]
  exact dateLoop_directive (ne_of_isDigit hc rfl) hdir (dateNext_skip (by decide) (by decide))

/-- The name of a month is read, and only two of its bytes are passed. -/
theorem dateDirective_month (i : Fin 12) (r e : List MboxChar) (t : MboxDate) :
    dateDirective 98 ⟨nameOfMonth i ++ r, e, t⟩ =
      ok (.inl ⟨(nameOfMonth i ++ r).drop 2, e, { t with tmMon := (i : ℕ) }⟩) := by
  change findName months _ >>= _ = _
  rw [findName_months]
  rfl

/-- The name of February and the blank behind it are passed, since its last letter is the one of the
directive. -/
theorem dateLoop_february (hx : x ≠ nul) :
    dateLoop (37 :: 98 :: 32 :: next :: format) ⟨nameOfMonth 1 ++ 32 :: r, x :: e, t⟩ =
      dateLoop (next :: format) ⟨r, x :: e, { t with tmMon := 1 }⟩ := by
  have hpass : dateLoop (32 :: next :: format) ⟨32 :: r, x :: e, { t with tmMon := 1 }⟩ = _ :=
    dateLoop_pass (by decide) (by decide) hx
  rw [← hpass]
  exact dateLoop_directive (by decide) (dateDirective_month 1 (32 :: r) (x :: e) t)
    (dateNext_pass hx)

/-- Where a letter is next, the directive ends the run. -/
def FailsOnLetters (letter : MboxChar) : Prop :=
  ∀ (c : MboxChar) (r e : List MboxChar) (t : MboxDate), IsLetter c →
    ∃ t', dateDirective letter ⟨c :: r, e, t⟩ = ok (.inr t')

theorem NumberDirective.failsOnLetters {letter : MboxChar} {set : Int → MboxDate → MboxDate}
    (h : NumberDirective letter set) : FailsOnLetters letter := by
  intro c r e t hc
  refine ⟨set 0 t, ?_⟩
  rw [h, readField_none set hc.space hc.sign hc.digit]
  rfl

theorem failsOnLetters_day : FailsOnLetters 100 := by
  intro c r e t hc
  refine ⟨{ t with tmMday := 0 }, ?_⟩
  change readField _ _ >>= _ = _
  rw [readField_none _ hc.space hc.sign hc.digit]
  rfl

/-- Behind the name of another month no number begins, as the last letter of the name is still
there. -/
theorem dateLoop_otherMonth {i : Fin 12} (hi : i ≠ 1) (hx : x ≠ nul) {letter : MboxChar}
    (hfails : FailsOnLetters letter) :
    ∃ t', dateLoop (37 :: 98 :: 32 :: 37 :: letter :: format)
      ⟨nameOfMonth i ++ 32 :: r, x :: e, t⟩ = ok (false, t') := by
  obtain ⟨a, b, c, hname, ha, hc, hlast⟩ := monthName_letters i
  have hb : 98 ≠ c := fun h => hi (hlast.mp h.symm)
  have hblank : 32 ≠ c := by
    rintro rfl
    cases hc.space
  have hdir := dateDirective_month i (32 :: r) (x :: e) t
  rw [hname] at hdir ⊢
  have hround : dateLoop (37 :: 98 :: 32 :: 37 :: letter :: format)
      ⟨[a, b, c] ++ 32 :: r, x :: e, t⟩ = _ :=
    dateLoop_directive ha.ne_nul hdir (dateNext_skip hx hb)
  obtain ⟨t', ht'⟩ := hfails c (32 :: r) (x :: e) { t with tmMon := (i : ℕ) } hc
  rw [hround, dateLoop_skip (by decide) (by decide) hx hc.ne_nul hblank]
  exact ⟨t', dateLoop_fail hc.ne_nul ht'⟩

end Fields

theorem exists_padded_append {letter x : MboxChar} (hletter : isDigit letter = false)
    (hx : isDigit x = false) (k n : ℕ) (r : List MboxChar) :
    ∃ y r', padded (k + 1) n ++ r = y :: r' ∧ y ≠ nul ∧ letter ≠ y ∧ x ≠ y := by
  obtain ⟨c, ds, hds, hc⟩ := exists_padded_succ k n
  exact ⟨c, ds ++ r, by rw [hds, List.cons_append], ne_of_isDigit hc rfl,
    (ne_of_isDigit hc hletter).symm, (ne_of_isDigit hc hx).symm⟩

theorem exists_zoneText_append (d : DateTime) (r : List MboxChar) :
    ∃ y r', d.zoneText ++ r = y :: r' ∧ y ≠ nul ∧ 83 ≠ y ∧ 32 ≠ y := by
  refine ⟨if d.west then 45 else 43, padded 4 d.zone ++ r, rfl, ?_⟩
  cases d.west <;> decide

namespace DateTime

/-- `"%H:%M:%S "`, the time of day in all formats. -/
def clockFormat : List MboxChar := [37, 72, 58, 37, 77, 58, 37, 83, 32]

/-- The time of day is set to that of a date. -/
def setClock (d : DateTime) (t : MboxDate) : MboxDate :=
  { t with tmHour := d.hour, tmMin := d.min, tmSec := d.sec }

/-- The text of the time of day, and `r` behind it. -/
def clockText (d : DateTime) (r : List MboxChar) : List MboxChar :=
  padded 2 d.hour ++ 58 :: (padded 2 d.min ++ 58 :: (padded 2 d.sec ++ 32 :: (d.zoneText ++ r)))

variable (d : DateTime) {r e format : List MboxChar} {t : MboxDate} {next : MboxChar}

/-- The three numbers of a time are read, up to the zone. -/
theorem dateLoop_clock :
    dateLoop (clockFormat ++ next :: format) ⟨d.clockText r, e, t⟩ =
      dateLoop (next :: format) ⟨d.zoneText ++ r, 32 :: (d.zoneText ++ r), d.setClock t⟩ := by
  have hhour : d.hour < 10 ^ 2 := d.hour_lt.trans (by decide)
  have hmin : d.min < 10 ^ 2 := d.min_lt.trans (by decide)
  have hsec : d.sec < 10 ^ 2 := d.sec_le.trans_lt (by decide)
  refine (dateLoop_number numberDirective_H
    (numberText_padded hhour (hhour.trans (by decide)) rfl _) (by decide) (by decide)
    (exists_padded_append rfl rfl 1 d.min _)).trans ?_
  refine (dateLoop_number numberDirective_M
    (numberText_padded hmin (hmin.trans (by decide)) rfl _) (by decide) (by decide)
    (exists_padded_append rfl rfl 1 d.sec _)).trans ?_
  exact dateLoop_number numberDirective_S
    (numberText_padded hsec (hsec.trans (by decide)) rfl _) (by decide) (by decide)
    (exists_zoneText_append d r)

/-- A zone that ends the text is the last thing read. -/
theorem dateLoop_lastZone (tail : List MboxChar) :
    dateLoop (37 :: 122 :: format) ⟨d.zoneText ++ nul :: tail, e, t⟩ =
      ok (true, { t with tmZoneDiff := d.zoneDiff }) :=
  dateLoop_lastNumber numberDirective_z (numberText_zone d rfl tail)

/-- All that the formats have is set to what the date is. -/
def filled (d : DateTime) (t : MboxDate) : MboxDate :=
  { d.setClock t with
    tmMday := d.mday, tmMon := (d.mon : ℕ), tmYear := d.year, tmZoneDiff := d.zoneDiff }

theorem readInto_filled (d : DateTime) (t : MboxDate) : d.ReadInto (d.filled t) :=
  ⟨rfl, rfl, rfl, rfl, rfl, rfl, rfl⟩

theorem daysIn_lt (year month : ℕ) : daysIn year month < 100 := by
  rw [daysIn]
  split
  · split <;> decide
  · split <;> decide

theorem mday_lt (d : DateTime) : d.mday < 100 := d.mday_le.trans_lt (daysIn_lt ..)

/-! ### The formats with the day of the month in front -/

theorem mboxDateFormat_append : mboxDateFormat ++ [nul] =
    37 :: 100 :: 32 :: 37 :: 98 :: 32 :: 37 :: 89 :: 32 :: (clockFormat ++ [37, 122, nul]) := rfl

/-- With the name of the day it is the same behind it. -/
theorem mboxDateFormatDay_eq : mboxDateFormatDay = 37 :: 97 :: 44 :: 32 :: mboxDateFormat := rfl

/-- The name of the day, and what goes with the comma and the blank behind it. -/
theorem dateLoop_dateFormatDay {name : List MboxChar} {i : Fin 7}
    (h : sameName name (nameOfDay i)) (he : ∃ x e', e = x :: e' ∧ x ≠ nul) (s : List MboxChar) :
    dateLoop (mboxDateFormatDay ++ [nul]) ⟨name ++ 44 :: 32 :: s, e, t⟩ =
      dateLoop (mboxDateFormat ++ [nul]) ⟨s, e, { t with tmWday := (i : ℕ) }⟩ := by
  obtain ⟨x, e, rfl, hx⟩ := he
  obtain ⟨next, format, hformat⟩ : ∃ next format, mboxDateFormat ++ [nul] = next :: format :=
    ⟨_, _, mboxDateFormat_append⟩
  rw [mboxDateFormatDay_eq, List.cons_append, List.cons_append, List.cons_append, List.cons_append,
    hformat, dateLoop_dayName h hx (by decide), dateLoop_pass (by decide) (by decide) hx]
  exact dateLoop_pass (by decide) (by decide) hx

/-- A date as it stands in a header. -/
theorem render_dateFormat (r : List MboxChar) :
    d.render mboxDateFormat ++ r =
      padded 2 d.mday ++
        32 :: (nameOfMonth d.mon ++ 32 :: (padded 4 d.year ++ 32 :: d.clockText r)) := by
  have hformat : mboxDateFormat =
    [37, 100, 32, 37, 98, 32, 37, 89, 32, 37, 72, 58, 37, 77, 58, 37, 83, 32, 37, 122] := rfl
  simp [hformat, render, field, clockText]

theorem render_dateFormatDay (r : List MboxChar) : d.render mboxDateFormatDay ++ r =
    nameOfDay d.wday ++ 44 :: 32 :: (d.render mboxDateFormat ++ r) := by
  rw [mboxDateFormatDay_eq, render]
  simp [render, field]
  rfl

theorem numberText_year {c : MboxChar} (hc : isDigit c = false) (r : List MboxChar) :
    NumberText (padded 4 d.year) d.year (c :: r) :=
  numberText_padded d.year_lt (d.year_lt.trans (by decide)) hc r

/-- **In February** all of a date is read: two bytes are passed for a month, and the third letter of
`Feb` is the letter of its directive. -/
theorem dateLoop_dateFormat (hfeb : d.mon = 1) (e : List MboxChar) (t : MboxDate)
    (tail : List MboxChar) :
    dateLoop (mboxDateFormat ++ [nul]) ⟨d.render mboxDateFormat ++ nul :: tail, e, t⟩ =
      ok (true, d.filled t) := by
  rw [mboxDateFormat_append, render_dateFormat, hfeb, dateLoop_day d.mday_lt,
    dateLoop_february (by decide)]
  refine (dateLoop_number numberDirective_Y (d.numberText_year rfl _) (by decide) (by decide)
    (exists_padded_append rfl rfl 1 d.hour _)).trans ?_
  refine d.dateLoop_clock.trans ((d.dateLoop_lastZone tail).trans ?_)
  rw [filled, hfeb]
  rfl

/-- In another month the year is not, and the date is given up. -/
theorem dateLoop_dateFormat_fails (hother : d.mon ≠ 1) (e : List MboxChar) (t : MboxDate)
    (tail : List MboxChar) :
    ∃ t', dateLoop (mboxDateFormat ++ [nul]) ⟨d.render mboxDateFormat ++ nul :: tail, e, t⟩ =
      ok (false, t') := by
  rw [mboxDateFormat_append, render_dateFormat, dateLoop_day d.mday_lt]
  exact dateLoop_otherMonth hother (by decide) numberDirective_Y.failsOnLetters

/-! ### The format of a `From ` line -/

theorem mboxDateFormatFrom_append : mboxDateFormatFrom ++ [nul] =
    37 :: 97 :: 32 :: 37 :: 98 :: 32 :: 37 :: 100 :: 32 ::
      (clockFormat ++ [37, 122, 32, 37, 89, nul]) := rfl

/-- A date as it stands in a From line. -/
theorem render_dateFormatFrom (r : List MboxChar) : d.render mboxDateFormatFrom ++ r =
    nameOfDay d.wday ++ 32 :: (nameOfMonth d.mon ++ 32 :: (padded 2 d.mday ++ 32 ::
      d.clockText (32 :: (padded 4 d.year ++ r)))) := by
  have hformat : mboxDateFormatFrom =
    [37, 97, 32, 37, 98, 32, 37, 100, 32, 37, 72, 58, 37, 77, 58, 37, 83, 32, 37, 122, 32,
      37, 89] := rfl
  simp [hformat, render, field, clockText]

/-- The names in front of the day of the month, and the date in the format of a `From ` line. -/
theorem dateLoop_dateFormatFrom (hfeb : d.mon = 1) (he : ∃ x e', e = x :: e' ∧ x ≠ nul)
    (t : MboxDate) (tail : List MboxChar) :
    dateLoop (mboxDateFormatFrom ++ [nul]) ⟨d.render mboxDateFormatFrom ++ nul :: tail, e, t⟩ =
      ok (true, d.filled { t with tmWday := (d.wday : ℕ) }) := by
  obtain ⟨x, e, rfl, hx⟩ := he
  rw [mboxDateFormatFrom_append, render_dateFormatFrom, dateLoop_dayName rfl hx (by decide),
    dateLoop_pass (by decide) (by decide) hx, hfeb, dateLoop_february hx]
  refine (dateLoop_day d.mday_lt).trans (d.dateLoop_clock.trans ?_)
  refine (dateLoop_number numberDirective_z (numberText_zone d rfl _) (by decide) (by decide)
    (exists_padded_append rfl rfl 3 d.year _)).trans ?_
  refine (dateLoop_lastNumber numberDirective_Y (d.numberText_year rfl tail)).trans ?_
  rw [filled, hfeb]
  rfl

/-- There it is the day of the month that is not read. -/
theorem dateLoop_dateFormatFrom_fails (hother : d.mon ≠ 1) (he : ∃ x e', e = x :: e' ∧ x ≠ nul)
    (t : MboxDate) (tail : List MboxChar) :
    ∃ t', dateLoop (mboxDateFormatFrom ++ [nul])
      ⟨d.render mboxDateFormatFrom ++ nul :: tail, e, t⟩ = ok (false, t') := by
  obtain ⟨x, e, rfl, hx⟩ := he
  rw [mboxDateFormatFrom_append, render_dateFormatFrom, dateLoop_dayName rfl hx (by decide),
    dateLoop_pass (by decide) (by decide) hx]
  exact dateLoop_otherMonth hother hx failsOnLetters_day

end DateTime

/-! ## Dates parse back -/

/-- The three formats that dates are read by. -/
def dateFormats : List (List MboxChar) := [mboxDateFormat, mboxDateFormatDay, mboxDateFormatFrom]

/-- The one with the name of the day is among them. -/
theorem dateFormatDay_mem : mboxDateFormatDay ∈ dateFormats :=
  List.mem_cons_of_mem _ (List.mem_cons_self ..)

/-- The name of a day begins with a byte that is no NUL. -/
theorem exists_nameOfDay_append (i : Fin 7) (r : List MboxChar) :
    ∃ x e, nameOfDay i ++ r = x :: e ∧ x ≠ nul := by
  have hday : sameName (nameOfDay i) (nameOfDay i) := rfl
  obtain ⟨a, b, c, hname, ha⟩ := letters_of_sameName hday
  exact ⟨a, [b, c] ++ r, by rw [hname, List.cons_append], ha.ne_nul⟩

/-- What is read of a date by one of the formats: all of it in February, and not in another
month. -/
theorem mboxDateStringToStruct_render (d : DateTime) {format : List MboxChar}
    (hformat : format ∈ dateFormats) (tail : List MboxChar) :
    (d.mon = 1 → ∃ t, mboxDateStringToStruct (d.render format ++ nul :: tail) (format ++ [nul]) =
      ok (true, d.filled t)) ∧
    (d.mon ≠ 1 → ∃ t, mboxDateStringToStruct (d.render format ++ nul :: tail) (format ++ [nul]) =
      ok (false, t)) := by
  simp only [dateFormats, List.mem_cons, List.not_mem_nil, or_false] at hformat
  rcases hformat with rfl | rfl | rfl
  · exact ⟨fun h => ⟨_, d.dateLoop_dateFormat h _ _ tail⟩,
      fun h => d.dateLoop_dateFormat_fails h _ _ tail⟩
  · have hhead := exists_nameOfDay_append d.wday
      (44 :: 32 :: (d.render mboxDateFormat ++ nul :: tail))
    rw [mboxDateStringToStruct, d.render_dateFormatDay, DateTime.dateLoop_dateFormatDay rfl hhead]
    exact ⟨fun h => ⟨_, d.dateLoop_dateFormat h _ _ tail⟩,
      fun h => d.dateLoop_dateFormat_fails h _ _ tail⟩
  · have hhead : ∃ x e, d.render mboxDateFormatFrom ++ nul :: tail = x :: e ∧ x ≠ nul := by
      rw [d.render_dateFormatFrom]
      exact exists_nameOfDay_append d.wday _
    exact ⟨fun h => ⟨_, d.dateLoop_dateFormatFrom h hhead _ tail⟩,
      fun h => d.dateLoop_dateFormatFrom_fails h hhead _ tail⟩

/-- **A date parses back exactly in February**, whichever of the formats it is written in. -/
theorem parsesBack_iff (d : DateTime) {format : List MboxChar} (hformat : format ∈ dateFormats) :
    d.ParsesBack format ↔ d.mon = 1 := by
  constructor
  · intro h
    by_contra hother
    obtain ⟨t, ht, -⟩ := h []
    obtain ⟨t', ht'⟩ := (mboxDateStringToStruct_render d hformat []).2 hother
    rw [ht'] at ht
    cases ht
  · intro hfeb tail
    obtain ⟨t, ht⟩ := (mboxDateStringToStruct_render d hformat tail).1 hfeb
    exact ⟨d.filled t, ht, d.readInto_filled t⟩

/-- Thursday, 29 February 2024, at the second in front of midnight. -/
def leapDay : DateTime :=
  ⟨4, 29, 1, 2024, 23, 59, 59, true, 130, by decide, by decide, by decide, by decide, by decide,
    by decide, by decide, by decide⟩

/-- The 29 February of a leap year, with an offset to the west. -/
theorem parsesBack_iff_leapDay : leapDay.ParsesBack mboxDateFormatFrom :=
  (parsesBack_iff leapDay (List.mem_cons_of_mem _ (List.mem_cons_of_mem _
    (List.mem_cons_self ..)))).mpr rfl

/-- Monday, 27 March 2023, at half past seven. -/
def aMonday : DateTime :=
  ⟨1, 27, 2, 2023, 7, 30, 0, false, 0, by decide, by decide, by decide, by decide, by decide,
    by decide, by decide, by decide⟩

/-- Monday, 27 February 2023, at half past seven. -/
def februaryMonday : DateTime :=
  ⟨1, 27, 1, 2023, 7, 30, 0, false, 0, by decide, by decide, by decide, by decide, by decide,
    by decide, by decide, by decide⟩

/-- The date of a Monday in March, of which the year is not read: the last letter of the month is
still to be passed when a number is expected. -/
theorem march_not_parsesBack :
    aMonday.render mboxDateFormatDay = str "Mon, 27 Mar 2023 07:30:00 +0000" ∧
      ¬ aMonday.ParsesBack mboxDateFormatDay := by
  refine ⟨by decide +kernel, fun h => ?_⟩
  have hmarch : aMonday.mon ≠ 1 := by decide
  obtain ⟨t, ht, -⟩ := h []
  obtain ⟨t', ht'⟩ := (mboxDateStringToStruct_render aMonday dateFormatDay_mem []).2 hmarch
  rw [ht'] at ht
  cases ht

end Libmbox2
