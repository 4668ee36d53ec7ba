import Libmbox2.Decimal
import Libmbox2.HeaderNames

/-!
# Dates (`mbox-date.c`)

`mboxDateStringToStruct` reads a string by a format. The two are passed side by side; where
the letter of a directive, or a byte of the format that is none, is the next byte of the
string, that byte is passed, and otherwise nothing is. A number ends where `strtol` says it
ends, and most directives pass the byte behind it as well.

A pointer is what lies from it on, so that moving it on is `List.drop`.
-/

namespace Libmbox2

open CSem CSem.Exec

/-- `struct mboxDate`: a date in parts, each `-1` where it was not read. -/
structure MboxDate where
  tmSec : Int
  tmMin : Int
  tmHour : Int
  tmMday : Int
  tmMon : Int
  tmYear : Int
  tmWday : Int
  tmYday : Int
  tmIsdst : Int
  tmZoneDiff : Int
  deriving DecidableEq, Repr

/-- `memset(t, -1, sizeof(struct mboxDate))`, a date of which nothing was read. -/
def MboxDate.unset : MboxDate := ⟨-1, -1, -1, -1, -1, -1, -1, -1, -1, -1⟩

/-- `days`: the names of the days as they stand in a date. -/
def days : List (List MboxChar) :=
  [str "Sun", str "Mon", str "Tue", str "Wed", str "Thu", str "Fri", str "Sat"]

/-- `months`: and those of the months. -/
def months : List (List MboxChar) :=
  [str "Jan", str "Feb", str "Mar", str "Apr", str "May", str "Jun", str "Jul", str "Aug",
    str "Sep", str "Oct", str "Nov", str "Dec"]

/-- A `long` that is kept as an `int`, in two's complement. -/
def longToInt (n : Int) : Int := Int.bmod n (2 ^ 32)

/-- Where `mboxDateStringToStruct` stands: the text that is left, the end of the last number, and
what was read of the date. -/
structure DateScan where
  strdate : List MboxChar
  endptr : List MboxChar
  t : MboxDate
  deriving DecidableEq, Repr

/-- `strncasecmp(s, name, strlen(name)) == 0`: the text begins with the name, in any case. -/
def matchName (name s : List MboxChar) : Exec Bool := matchAt (name.map tolower) (s.map tolower)

/-- The number of the first of the names that the text begins with. -/
def findName : List (List MboxChar) → List MboxChar → Exec (Option ℕ)
  | [], _ => pure none
  | name :: names, s => do
    if ← matchName name s then pure (some 0) else
    let i ← findName names s
    pure (i.map (· + 1))

/-- `strtol(strdate, &endptr, 10)`, with the field set to what is read. Where no number is read,
the result is the date as it is then. -/
def readField (set : Int → MboxDate → MboxDate) (s : DateScan) : Exec (DateScan ⊕ MboxDate) := do
  let (n, k) ← strtol s.strdate
  let s := { s with endptr := s.strdate.drop k, t := set (longToInt n) s.t }
  if k = 0 then pure (.inr s.t) else pure (.inl s)

/-- `strdate = endptr; strdate += 1`, which goes behind the byte that ended the last number. -/
def DateScan.behindEnd (s : DateScan) : DateScan := { s with strdate := s.endptr.drop 1 }

/-- `strdate += k`, with the end of the last number left as it is. -/
def DateScan.advanceBy (s : DateScan) (k : ℕ) : DateScan :=
  { s with strdate := s.strdate.drop k }

/-- `AM` and `PM`. The hour is whatever number was read for it: the twelve hours that are added in
the afternoon may take it out of an `int`, and that is undefined. -/
def readHalf (s : DateScan) : Exec MboxDate := do
  if ← matchName (str "AM") s.strdate then
    pure (if 12 ≤ s.t.tmHour then { s.t with tmHour := s.t.tmHour - 12 } else s.t)
  else if ← matchName (str "PM") s.strdate then
    if s.t.tmHour + 12 < 2 ^ 31 then pure { s.t with tmHour := s.t.tmHour + 12 } else fault
  else pure s.t

/-- The `switch` on the letter of a directive: what is read is put into the date, or the date is
given up. -/
def dateDirective (letter : MboxChar) (s : DateScan) : Exec (DateScan ⊕ MboxDate) :=
  if letter = 97 then do -- 'a'
    match ← findName days s.strdate with
    | some i => pure (.inl { s.advanceBy 3 with t := { s.t with tmWday := i } })
    | none => if s.t.tmWday = -1 then pure (.inr s.t) else pure (.inl s)
  else if letter = 98 then do -- 'b'
    match ← findName months s.strdate with
    | some i => pure (.inl { s.advanceBy 2 with t := { s.t with tmMon := i } })
    | none => if s.t.tmMon = -1 then pure (.inr s.t) else pure (.inl s)
  else if letter = 100 then do -- 'd'
    let r ← readField (fun n t => { t with tmMday := n }) s
    pure (r.map (·.advanceBy 2) id)
  else if letter = 109 then do -- 'm'
    let r ← readField (fun n t => { t with tmMon := n }) s
    pure (r.map (·.behindEnd) id)
  else if letter = 89 then do -- 'Y'
    let r ← readField (fun n t => { t with tmYear := n }) s
    pure (r.map (·.behindEnd) id)
  else if letter = 72 then do -- 'H'
    let r ← readField (fun n t => { t with tmHour := n }) s
    pure (r.map (·.behindEnd) id)
  else if letter = 77 then do -- 'M'
    let r ← readField (fun n t => { t with tmMin := n }) s
    pure (r.map (·.behindEnd) id)
  else if letter = 112 then do -- 'p'
    let t ← readHalf s
    let r ← readField (fun n t => { t with tmMon := n }) { s with t }
    pure (r.map (·.advanceBy 1) id)
  else if letter = 83 then do -- 'S'
    let r ← readField (fun n t => { t with tmSec := n }) s
    pure (r.map (·.behindEnd) id)
  else if letter = 122 then do -- 'z'
    let r ← readField (fun n t => { t with tmZoneDiff := n }) s
    pure (r.map (·.behindEnd) id)
  else pure (.inl s)

/-- The end of a round: the text ends behind a number, or `if (*format == *strdate) strdate++`. -/
def dateNext (ch : MboxChar) (s : DateScan) : Exec (Option DateScan) := do
  let e ← load s.endptr 0
  if e = nul then pure none else
  let c ← load s.strdate 0
  pure (some (if ch = c then s.advanceBy 1 else s))

/-- The loop of `mboxDateStringToStruct`: whether all was read, and the date. -/
def dateLoop : List MboxChar → DateScan → Exec (Bool × MboxDate)
  | [], s => do
    let c ← load s.strdate 0
    if c = nul then pure (true, s.t) else fault
  | [ch], s => do
    let c ← load s.strdate 0
    -- a format ends with a NUL
    if c = nul ∨ ch = nul then pure (true, s.t) else fault
  | ch :: letter :: format, s => do
    let c ← load s.strdate 0
    if c = nul ∨ ch = nul then pure (true, s.t)
    else if ch = 37 then
      match ← dateDirective letter s with
      | .inr t => pure (false, t)
      | .inl s =>
        match ← dateNext letter s with
        | none => pure (true, s.t)
        | some s => dateLoop format s
    else
      match ← dateNext ch s with
      | none => pure (true, s.t)
      | some s => dateLoop (letter :: format) s

/-- `mboxDateStringToStruct`: a text is read by a format, which tells whether that succeeded and
what was read. -/
def mboxDateStringToStruct (strdate format : List MboxChar) : Exec (Bool × MboxDate) :=
  dateLoop format ⟨strdate, strdate, MboxDate.unset⟩

/-- What is set of the `struct tm`; the rest of it is zero. -/
structure Tm where
  tmSec : Int
  tmMin : Int
  tmHour : Int
  tmMday : Int
  tmMon : Int
  tmYear : Int
  deriving DecidableEq, Repr

/-- The timestamp of a date, with `mktime` given. The arithmetic is that of the integers: the `int`s
of the code overflow only for years before -2147481748 and for zones of 59652400 and more, four
decimal digits being what a zone has. -/
def mboxDateStructToUnix (mktime : Tm → Int) (d : MboxDate) : Int :=
  let timestamp := mktime ⟨d.tmSec, d.tmMin, d.tmHour, d.tmMday, d.tmMon, d.tmYear - 1900⟩
  if d.tmZoneDiff ≠ 0 ∧ d.tmZoneDiff ≠ -1 then
    let hourDiff : Int := (d.tmZoneDiff.natAbs / 100 : ℕ)
    let minDiff : Int := (d.tmZoneDiff.natAbs % 100 : ℕ)
    if d.tmZoneDiff < -1 then timestamp + hourDiff * 3600 + minDiff * 60
    else timestamp - hourDiff * 3600 - minDiff * 60
  else timestamp

/-- `MBOX_DATE_FORMAT`, the format a `Date` header is read by. -/
def mboxDateFormat : List MboxChar := str "%d %b %Y %H:%M:%S %z"

/-- `MBOX_DATE_FORMAT_FROM`, that of a From line. -/
def mboxDateFormatFrom : List MboxChar := str "%a %b %d %H:%M:%S %z %Y"

/-- The format of a `Date` header with the name of the day in front. -/
def mboxDateFormatDay : List MboxChar := str "%a, %d %b %Y %H:%M:%S %z"

end Libmbox2
