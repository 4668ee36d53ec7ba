import Libmbox2.Date
import Mathlib.Logic.Relation

/-!
# A date is read inside its string

The block of the string ends with its terminator, and so does that of the format: a read behind
it is a fault. A directive may leave `strdate` behind the terminator, but only where `endptr` is
at it, and then the loop is left before anything is read (`dateDirective_passes`). That `endptr` may
be an old one does no harm: `strdate` has then only passed bytes that were compared.

What is undefined is an addition. `%p` adds twelve to an hour that `%H` may have read from any
number, and the sum need not be an `int`. The rounds of the loop are a relation (`DateRound`), and
the date is read to its end exactly when no round that is reached comes to that addition
(`mboxDateStringToStruct_inside_iff`). A format without `%p`, like those the library has, never
does (`mboxDateStringToStruct_inside`).
-/

namespace Libmbox2

open CSem CSem.Exec

/-- The format ends in a `'%'` with no letter behind it. -/
def EndsInLonePercent : List MboxChar → Prop
  | [] => False
  | [ch] => ch = 37
  | ch :: letter :: format =>
    if ch = 37 then EndsInLonePercent format else EndsInLonePercent (letter :: format)

/-- What begins somewhere in a string and goes on to its end, with the terminator. -/
def InString (p : List MboxChar) : Prop := ∃ w, p = w ++ [nul]

namespace InString

variable {p : List MboxChar}

/-- The bytes in front of the terminator may be passed. -/
theorem drop (h : InString p) {k : ℕ} (hk : k < p.length) : InString (p.drop k) := by
  obtain ⟨w, rfl⟩ := h
  rw [List.length_append, List.length_singleton] at hk
  exact ⟨w.drop k, List.drop_append_of_le_length (Nat.le_of_lt_succ hk)⟩

/-- A byte that is not the terminator has another one behind it. -/
theorem load_zero (h : InString p) :
    ∃ c, load p 0 = ok c ∧ (c ≠ nul → InString (p.drop 1)) := by
  obtain ⟨w, rfl⟩ := h
  obtain ⟨c, hc, hinside⟩ := load_terminated w [] nul (Nat.zero_le w.length)
  refine ⟨c, hc, fun hne => InString.drop ⟨w, rfl⟩ ?_⟩
  rw [List.length_append, List.length_singleton]
  exact Nat.succ_lt_succ (hinside hne)

/-- Where the terminator is not reached there is a byte in front of it. -/
theorem one_lt_length (h : InString p) (hne : p ≠ [nul]) : 1 < p.length := by
  obtain ⟨w, rfl⟩ := h
  cases w with
  | nil => exact absurd rfl hne
  | cons c w =>
    rw [List.cons_append, List.length_cons, List.length_append, List.length_singleton]
    exact Nat.succ_lt_succ (Nat.succ_pos _)

end InString

/-! ## What the directives call -/

/-- `strtol` leaves its end pointer in the string. -/
theorem strtol_terminated {p : List MboxChar} (h : InString p) :
    ∃ n k, strtol p = ok (n, k) ∧ k < p.length := by
  obtain ⟨w, rfl⟩ := h
  obtain ⟨blanks, hblanks, hle⟩ :=
    scanUntil_terminated (p := fun c => !isSpace c) (z := nul) rfl w []
  obtain ⟨c, hc, hinside⟩ := load_terminated w [] nul hle
  -- a sign is not the terminator
  obtain ⟨start, hstart, hstartle⟩ :
      ∃ start, (if c = 43 ∨ c = 45 then blanks + 1 else blanks) = start ∧ start ≤ w.length := by
    by_cases hsign : c = 43 ∨ c = 45
    · refine ⟨blanks + 1, if_pos hsign, hinside ?_⟩
      rintro rfl
      revert hsign
      decide
    · exact ⟨blanks, if_neg hsign, hle⟩
  obtain ⟨n, hn, hnle⟩ :=
    scanUntil_terminated (p := fun c => !isDigit c) (z := nul) rfl (w.drop start) []
  have hdrop : (w ++ [nul]).drop start = w.drop start ++ [nul] :=
    List.drop_append_of_le_length hstartle
  rw [List.length_drop] at hnle
  rw [List.length_append, List.length_singleton]
  by_cases hzero : n = 0
  · refine ⟨0, 0, ?_, Nat.succ_pos _⟩
    simp only [strtol, hblanks, hc, hstart, hdrop, hn, hzero, ok_bind, if_true, pure_eq]
  · have hread : strtol (w ++ [nul]) = ok (toLong (if c = 45 then
        -(digitsValue ((w.drop start ++ [nul]).take n) : Int)
        else digitsValue ((w.drop start ++ [nul]).take n)), start + n) := by
      simp only [strtol, hblanks, hc, hstart, hdrop, hn, ok_bind, if_neg hzero, pure_eq]
    exact ⟨_, start + n, hread, by omega⟩

/-- A number that is read, and that does not end the string, is at least one byte long. -/
theorem readField_spec {s : DateScan} (set : Int → MboxDate → MboxDate)
    (h : InString s.strdate) :
    (∃ t, readField set s = ok (.inr t)) ∨
      ∃ k t, 0 < k ∧ k < s.strdate.length ∧
        readField set s = ok (.inl ⟨s.strdate, s.strdate.drop k, t⟩) := by
  obtain ⟨n, k, hread, hk⟩ := strtol_terminated h
  by_cases hzero : k = 0
  · refine Or.inl ⟨set (longToInt n) s.t, ?_⟩
    simp only [readField, hread, ok_bind, if_pos hzero, pure_eq]
  · refine Or.inr ⟨k, set (longToInt n) s.t, Nat.pos_of_ne_zero hzero, hk, ?_⟩
    simp only [readField, hread, ok_bind, if_neg hzero, pure_eq]

/-- A name is compared up to the terminator at most, and is in front of it if it is found. -/
theorem matchName_spec {p name : List MboxChar} (h : InString p)
    (hname : nul ∉ name.map tolower) :
    ∃ found, matchName name p = ok found ∧ (found = true → name.length < p.length) := by
  obtain ⟨w, rfl⟩ := h
  have hmap : (w ++ [nul]).map tolower = w.map tolower ++ [nul] := by
    rw [List.map_append]
    rfl
  refine ⟨decide (name.map tolower <+: w.map tolower), ?_, fun hfound => ?_⟩
  · rw [matchName, hmap, matchAt_append hname]
  · have hle := (of_decide_eq_true hfound).length_le
    rw [List.length_map, List.length_map] at hle
    rw [List.length_append, List.length_singleton]
    exact Nat.lt_succ_of_le hle

/-- So are names one after the other. -/
theorem findName_spec {p : List MboxChar} (h : InString p) {names : List (List MboxChar)}
    (hnames : ∀ name ∈ names, nul ∉ name.map tolower ∧ name.length = 3) :
    ∃ found, findName names p = ok found ∧ (found ≠ none → 3 < p.length) := by
  induction names with
  | nil => exact ⟨none, rfl, fun hne => absurd rfl hne⟩
  | cons name names ih =>
    obtain ⟨hname, hlen⟩ := hnames name (List.mem_cons_self ..)
    obtain ⟨found, hfound, hinside⟩ := matchName_spec h hname
    cases found with
    | true =>
      refine ⟨some 0, ?_, fun _ => hlen ▸ hinside rfl⟩
      rw [findName, hfound, ok_bind, if_pos rfl, pure_eq]
    | false =>
      obtain ⟨rest, hrest, hrestinside⟩ := ih fun n hn => hnames n (List.mem_cons_of_mem _ hn)
      refine ⟨rest.map (· + 1), ?_, fun hne => hrestinside fun hnone => ?_⟩
      · rw [findName, hfound, ok_bind, if_neg Bool.false_ne_true, hrest, ok_bind, pure_eq]
      · rw [hnone] at hne
        exact hne rfl

/-- The names of the days can be compared. -/
theorem days_comparable :
    ∀ name ∈ days, nul ∉ name.map tolower ∧ name.length = 3 := by decide

/-- So can those of the months. -/
theorem months_comparable :
    ∀ name ∈ months, nul ∉ name.map tolower ∧ name.length = 3 := by decide

/-- It is the afternoon, and twelve hours more are no `int`. -/
def DateScan.HourOverflows (s : DateScan) : Prop :=
  matchName (str "PM") s.strdate = ok true ∧ 2 ^ 31 ≤ s.t.tmHour + 12

/-- The half of the day is told apart inside the string, and but for the overflow there is nothing
else to go wrong. -/
theorem readHalf_spec {s : DateScan} (h : InString s.strdate) (hfits : ¬ s.HourOverflows) :
    ∃ t, readHalf s = ok t := by
  obtain ⟨am, ham, -⟩ := matchName_spec h (show nul ∉ (str "AM").map tolower by decide)
  obtain ⟨pm, hpm, -⟩ := matchName_spec h (show nul ∉ (str "PM").map tolower by decide)
  simp only [readHalf, ham, hpm, ok_bind]
  cases am with
  | true => exact ⟨_, rfl⟩
  | false =>
    cases pm with
    | false => exact ⟨_, rfl⟩
    | true =>
      have hlt : s.t.tmHour + 12 < 2 ^ 31 := not_le.mp fun hle => hfits ⟨hpm, hle⟩
      exact ⟨_, if_pos hlt⟩

/-- A string that begins with `PM` begins with a byte that is no `A` and no terminator. -/
theorem DateScan.HourOverflows.strdate_eq {s : DateScan} (h : s.HourOverflows) :
    ∃ c rest, s.strdate = c :: rest ∧ tolower c = 112 := by
  obtain ⟨hpm, -⟩ := h
  cases hstr : s.strdate with
  | nil =>
    rw [hstr] at hpm
    cases hpm
  | cons c rest =>
    refine ⟨c, rest, rfl, ?_⟩
    by_contra hne
    have hfalse : matchName (str "PM") (c :: rest) = ok false := if_neg hne
    rw [hstr, hfalse] at hpm
    cases hpm

/-- Twelve hours are added to an hour that has no room for them. -/
theorem readHalf_of_hourOverflows {s : DateScan} (h : s.HourOverflows) : readHalf s = fault := by
  obtain ⟨c, rest, hstr, hc⟩ := h.strdate_eq
  have ham : matchName (str "AM") s.strdate = ok false := by
    rw [hstr]
    refine if_neg fun heq => ?_
    rw [hc] at heq
    revert heq
    decide
  simp only [readHalf, ham, h.1, ok_bind]
  exact if_neg (not_lt.mpr h.2)

/-! ## A directive -/

/-- What a directive leaves: `strdate` is in the string, unless what was read last ends it. -/
structure DateScan.Passed (s : DateScan) : Prop where
  endptr : InString s.endptr
  strdate : s.endptr ≠ [nul] → InString s.strdate

/-- Between the rounds the text and the end pointer are both in the string. -/
structure DateScan.Within (s : DateScan) : Prop where
  strdate : InString s.strdate
  endptr : InString s.endptr

section Directive

variable {s : DateScan}

theorem DateScan.Within.passed (h : s.Within) : s.Passed := ⟨h.endptr, fun _ => h.strdate⟩

/-- A number ends behind where it begins, so two bytes are passed only where it does not end the
string. -/
theorem passed_advanceBy (h : InString s.strdate) {k j : ℕ} (t : MboxDate) (hpos : 0 < k)
    (hk : k < s.strdate.length) (hj : j ≤ 2) :
    (DateScan.advanceBy ⟨s.strdate, s.strdate.drop k, t⟩ j).Passed := by
  refine ⟨h.drop hk, fun hne => h.drop ?_⟩
  have hmore := (h.drop hk).one_lt_length hne
  rw [List.length_drop] at hmore
  omega

/-- A number that ends in the string leaves both there. -/
theorem passed_behindEnd (h : InString s.strdate) {k : ℕ} (t : MboxDate)
    (hk : k < s.strdate.length) :
    (DateScan.behindEnd ⟨s.strdate, s.strdate.drop k, t⟩).Passed := by
  refine ⟨h.drop hk, fun hne => ?_⟩
  exact (h.drop hk).drop ((h.drop hk).one_lt_length hne)

/-- What a directive reads is inside, and what it leaves can be read on. -/
def Passes (m : Exec (DateScan ⊕ MboxDate)) : Prop :=
  ∃ r, m = ok r ∧ ∀ s', r = .inl s' → s'.Passed

theorem Passes.stop (t : MboxDate) : Passes (ok (.inr t)) := by
  refine ⟨.inr t, rfl, ?_⟩
  rintro s' ⟨⟩

theorem Passes.go_on (h : s.Passed) : Passes (ok (.inl s)) := by
  refine ⟨.inl s, rfl, ?_⟩
  rintro s' ⟨⟩
  exact h

theorem Passes.dite {p : Prop} [Decidable p] {m m' : Exec (DateScan ⊕ MboxDate)}
    (h : p → Passes m) (h' : Passes m') : Passes (if p then m else m') := by
  split
  · next hp => exact h hp
  · exact h'

theorem Passes.ite {p : Prop} [Decidable p] {m m' : Exec (DateScan ⊕ MboxDate)} (h : Passes m)
    (h' : Passes m') : Passes (if p then m else m') := .dite (fun _ => h) h'

/-- A directive that reads a number, and moves on from there. -/
theorem readField_passes (set : Int → MboxDate → MboxDate) {move : DateScan → DateScan}
    (h : InString s.strdate)
    (hmove : ∀ k t, 0 < k → k < s.strdate.length →
      (move ⟨s.strdate, s.strdate.drop k, t⟩).Passed) :
    Passes (readField set s >>= fun r => pure (r.map move id)) := by
  rcases readField_spec set h with ⟨t, hread⟩ | ⟨k, t, hpos, hk, hread⟩
  · rw [hread, ok_bind]
    exact Passes.stop t
  · rw [hread, ok_bind]
    exact Passes.go_on (hmove k t hpos hk)

/-- A directive that looks a name up, and passes at most its three bytes. -/
theorem findName_passes (h : s.Within) {names : List (List MboxChar)}
    (hnames : ∀ name ∈ names, nul ∉ name.map tolower ∧ name.length = 3) {k : ℕ} (hk : k ≤ 3)
    {found : Option ℕ → Exec (DateScan ⊕ MboxDate)}
    (hsome : ∀ i, ∃ t, found (some i) = ok (.inl { s.advanceBy k with t }))
    (hnone : Passes (found none)) : Passes (findName names s.strdate >>= found) := by
  obtain ⟨name, hname, hinside⟩ := findName_spec h.strdate hnames
  rw [hname, ok_bind]
  cases name with
  | some i =>
    obtain ⟨t, ht⟩ := hsome i
    rw [ht]
    have hlt := hinside (Option.some_ne_none i)
    exact Passes.go_on ⟨h.endptr, fun _ => h.strdate.drop (hk.trans_lt hlt)⟩
  | none => exact hnone

/-- **A directive** reads nothing behind the terminator, neither in the text nor behind the end
pointer, when it does not overflow the hour. -/
theorem dateDirective_passes {letter : MboxChar} (h : s.Within)
    (hfits : letter = 112 → ¬ s.HourOverflows) : Passes (dateDirective letter s) := by
  have hfield (set : Int → MboxDate → MboxDate) :
      Passes (readField set s >>= fun r => pure (r.map (·.behindEnd) id)) :=
    readField_passes set h.strdate fun k t _ hk => passed_behindEnd h.strdate t hk
  have hadvance (set : Int → MboxDate → MboxDate) (t : MboxDate) {j : ℕ} (hj : j ≤ 2) :
      Passes (readField set { s with t } >>= fun r => pure (r.map (·.advanceBy j) id)) :=
    readField_passes set h.strdate fun k t hpos hk => passed_advanceBy h.strdate t hpos hk hj
  have hstay := Passes.go_on h.passed
  rw [dateDirective]
  refine .ite ?a (.ite ?b (.ite ?d (.ite ?m (.ite ?Y (.ite ?H (.ite ?M (.dite ?p (.ite ?S
    (.ite ?z hstay)))))))))
  case a =>
    exact findName_passes h days_comparable (le_refl 3) (fun i => ⟨_, rfl⟩)
      (.ite (Passes.stop s.t) hstay)
  case b =>
    exact findName_passes h months_comparable (Nat.le_succ 2) (fun i => ⟨_, rfl⟩)
      (.ite (Passes.stop s.t) hstay)
  case d => exact hadvance _ s.t (le_refl 2)
  case p =>
    intro hletter
    obtain ⟨t, ht⟩ := readHalf_spec h.strdate (hfits hletter)
    rw [ht, ok_bind]
    exact hadvance _ t (Nat.le_succ 1)
  case m | Y | H | M | S | z => exact hfield _

/-- The end of a round, where the format is compared with the text. -/
theorem dateNext_spec {ch : MboxChar} (hch : ch ≠ nul) (h : s.Passed) :
    ∃ r, dateNext ch s = ok r ∧ ∀ s', r = some s' → s'.Within := by
  obtain ⟨e, he, -⟩ := h.endptr.load_zero
  rw [dateNext, he, ok_bind]
  by_cases hend : e = nul
  · refine ⟨none, if_pos hend, ?_⟩
    rintro s' ⟨⟩
  · have hne : s.endptr ≠ [nul] := by
      intro hnul
      rw [hnul] at he
      cases he
      exact hend rfl
    obtain ⟨c, hc, hinside⟩ := (h.strdate hne).load_zero
    rw [if_neg hend, hc, ok_bind]
    refine ⟨_, rfl, ?_⟩
    rintro s' ⟨⟩
    by_cases hpass : ch = c
    · rw [if_pos hpass]
      exact ⟨hinside (hpass ▸ hch), h.endptr⟩
    · rw [if_neg hpass]
      exact ⟨h.strdate hne, h.endptr⟩

/-! ## The rounds -/

/-- A round of the loop that asks for another one: what it has left of the format, and where it
stands in the string. -/
inductive DateRound : List MboxChar × DateScan → List MboxChar × DateScan → Prop where
  /-- a directive -/
  | directive {letter : MboxChar} {format : List MboxChar} {s s₁ s₂ : DateScan} {c : MboxChar} :
    load s.strdate 0 = ok c → c ≠ nul → dateDirective letter s = ok (.inl s₁) →
    dateNext letter s₁ = ok (some s₂) → DateRound (37 :: letter :: format, s) (format, s₂)
  /-- a byte that is none -/
  | literal {ch letter : MboxChar} {format : List MboxChar} {s s₁ : DateScan} {c : MboxChar} :
    load s.strdate 0 = ok c → c ≠ nul → ch ≠ nul → ch ≠ 37 → dateNext ch s = ok (some s₁) →
    DateRound (ch :: letter :: format, s) (letter :: format, s₁)

/-- What the loop comes to, round by round: what is left of the format, and where it stands in the
text. -/
abbrev DateReaches : List MboxChar × DateScan → List MboxChar × DateScan → Prop :=
  Relation.ReflTransGen DateRound

/-- No round that is reached adds twelve to an hour that leaves no room for it. -/
def HoursFit (format : List MboxChar) (s : DateScan) : Prop :=
  ∀ rest s', DateReaches (format, s) (37 :: 112 :: rest, s') → ¬ s'.HourOverflows

theorem HoursFit.round {format format' : List MboxChar} {s s' : DateScan}
    (h : HoursFit format s) (hround : DateRound (format, s) (format', s')) : HoursFit format' s' :=
  fun rest s₁ hreach => h rest s₁ (.head hround hreach)

/-- After a round the loop goes on with what is left. -/
theorem DateRound.dateLoop_eq {p q : List MboxChar × DateScan} (h : DateRound p q) :
    dateLoop p.1 p.2 = dateLoop q.1 q.2 := by
  cases h with
  | directive hc hne hdir hnext =>
    rw [dateLoop, hc, ok_bind, if_neg (by simp [hne, nul]), if_pos rfl, hdir, ok_bind]
    simp only [hnext, ok_bind]
  | literal hc hne hnul hpercent hnext =>
    rw [dateLoop, hc, ok_bind, if_neg (not_or.mpr ⟨hne, hnul⟩), if_neg hpercent, hnext, ok_bind]

theorem DateRound.suffix {p q : List MboxChar × DateScan} (h : DateRound p q) : q.1 <:+ p.1 := by
  cases h with
  | directive => exact ⟨[_, _], rfl⟩
  | literal => exact ⟨[_], rfl⟩

/-- The loop gives what it gives from where it has come to. -/
theorem DateReaches.dateLoop_eq {p q : List MboxChar × DateScan} (h : DateReaches p q) :
    dateLoop p.1 p.2 = dateLoop q.1 q.2 := by
  induction h with
  | refl => rfl
  | tail _ hround ih => exact ih.trans hround.dateLoop_eq

/-- What it comes to is an end of the format. -/
theorem DateReaches.suffix {p q : List MboxChar × DateScan} (h : DateReaches p q) :
    q.1 <:+ p.1 := by
  induction h with
  | refl => exact List.suffix_refl _
  | tail _ hround ih => exact hround.suffix.trans ih

theorem hoursFit_of_noHalf {format : List MboxChar} (hhalf : ¬ str "%p" <:+: format)
    (s : DateScan) : HoursFit format s := by
  intro rest s' hreach
  have hsuffix : 37 :: 112 :: rest <:+ format := hreach.suffix
  have hbegins : str "%p" <+: 37 :: 112 :: rest := ⟨rest, rfl⟩
  exact absurd (hbegins.isInfix.trans hsuffix.isInfix) hhalf

/-- The round that adds to the hour has no outcome where it overflows. -/
theorem dateLoop_of_hourOverflows {rest : List MboxChar} (h : s.HourOverflows) :
    dateLoop (37 :: 112 :: rest) s = fault := by
  obtain ⟨c, tail, hstr, hc⟩ := h.strdate_eq
  have hload : load s.strdate 0 = ok c := by
    rw [hstr]
    rfl
  have hne : c ≠ nul := by
    rintro rfl
    revert hc
    decide
  have hdir : dateDirective 112 s = fault := by
    change (readHalf s >>= _) = fault
    rw [readHalf_of_hourOverflows h, fault_bind]
  rw [dateLoop, hload, ok_bind, if_neg (by simp [hne, nul]), if_pos rfl, hdir, fault_bind]

/-- **A text that was read** had hours that fit, since a round that adds twelve hours too many is a
fault. -/
theorem HoursFit.of_ok {format : List MboxChar} {r : Bool × MboxDate}
    (h : dateLoop format s = ok r) : HoursFit format s := by
  intro rest s' hreach hover
  have heq : dateLoop format s = dateLoop (37 :: 112 :: rest) s' := hreach.dateLoop_eq
  rw [heq, dateLoop_of_hourOverflows hover] at h
  cases h

/-! ## The loop -/

/-- At the terminator of the format the loop returns. -/
theorem dateLoop_nul_ok (h : s.Within) : ∃ r, dateLoop [nul] s = ok r := by
  obtain ⟨c, hc, -⟩ := h.strdate.load_zero
  exact ⟨(true, s.t), by rw [dateLoop, hc, ok_bind, if_pos (Or.inr rfl), pure_eq]⟩

/-- It goes on behind a byte of the format that is no directive. -/
theorem dateLoop_literal_ok {ch letter : MboxChar} {format : List MboxChar} (hnul : ch ≠ nul)
    (hpercent : ch ≠ 37) (h : s.Within)
    (hrest : ∀ s' : DateScan, s'.Within →
      DateRound (ch :: letter :: format, s) (letter :: format, s') →
      ∃ r, dateLoop (letter :: format) s' = ok r) :
    ∃ r, dateLoop (ch :: letter :: format) s = ok r := by
  obtain ⟨c, hc, -⟩ := h.strdate.load_zero
  rw [dateLoop, hc, ok_bind]
  by_cases hend : c = nul ∨ ch = nul
  · exact ⟨_, if_pos hend⟩
  · obtain ⟨next, hnext, hwithin⟩ := dateNext_spec hnul h.passed
    rw [if_neg hend, if_neg hpercent, hnext, ok_bind]
    cases next with
    | none => exact ⟨_, rfl⟩
    | some s' =>
      exact hrest s' (hwithin s' rfl) (.literal hc (not_or.mp hend).1 hnul hpercent hnext)

/-- And behind a directive. -/
theorem dateLoop_directive_ok {letter : MboxChar} {format : List MboxChar} (hnul : letter ≠ nul)
    (h : s.Within) (hfits : letter = 112 → ¬ s.HourOverflows)
    (hrest : ∀ s' : DateScan, s'.Within → DateRound (37 :: letter :: format, s) (format, s') →
      ∃ r, dateLoop format s' = ok r) :
    ∃ r, dateLoop (37 :: letter :: format) s = ok r := by
  obtain ⟨c, hc, -⟩ := h.strdate.load_zero
  rw [dateLoop, hc, ok_bind]
  by_cases hend : c = nul ∨ (37 : MboxChar) = nul
  · exact ⟨_, if_pos hend⟩
  · obtain ⟨r, hr, hpassed⟩ := dateDirective_passes h hfits
    rw [if_neg hend, if_pos rfl, hr, ok_bind]
    cases r with
    | inr t => exact ⟨_, rfl⟩
    | inl s₁ =>
      obtain ⟨next, hnext, hwithin⟩ := dateNext_spec hnul (hpassed s₁ rfl)
      simp only [hnext, ok_bind]
      cases next with
      | none => exact ⟨_, rfl⟩
      | some s' =>
        exact hrest s' (hwithin s' rfl) (.directive hc (not_or.mp hend).1 hr hnext)

/-- The loop reads neither of the two behind its terminator. -/
theorem dateLoop_ok {format : List MboxChar} (hnul : nul ∉ format)
    (hpercent : ¬ EndsInLonePercent format) (h : s.Within) (hfits : HoursFit (format ++ [nul]) s) :
    ∃ r, dateLoop (format ++ [nul]) s = ok r := by
  induction format using EndsInLonePercent.induct generalizing s with
  | case1 => exact dateLoop_nul_ok h
  | case2 ch =>
    have hch : ch ≠ nul := fun heq => hnul (heq ▸ List.mem_cons_self ..)
    exact dateLoop_literal_ok hch hpercent h fun s' hs' _ => dateLoop_nul_ok hs'
  | case3 letter format ih =>
    have hletter : letter ≠ nul := fun heq => hnul (by simp [heq])
    have hhalf : letter = 112 → ¬ s.HourOverflows := by
      rintro rfl
      exact hfits (format ++ [nul]) s .refl
    rw [EndsInLonePercent, if_pos rfl] at hpercent
    exact dateLoop_directive_ok hletter h hhalf fun s' hs' hround =>
      ih (fun hmem => hnul (List.mem_cons_of_mem _ (List.mem_cons_of_mem _ hmem))) hpercent hs'
        (hfits.round hround)
  | case4 ch letter format hne ih =>
    have hch : ch ≠ nul := fun heq => hnul (heq ▸ List.mem_cons_self ..)
    rw [EndsInLonePercent, if_neg hne] at hpercent
    exact dateLoop_literal_ok hch hne h fun s' hs' hround =>
      ih (fun hmem => hnul (List.mem_cons_of_mem _ hmem)) hpercent hs' (hfits.round hround)

end Directive

/-- Where `mboxDateStringToStruct` starts in a string. -/
def DateScan.start (strdate : List MboxChar) : DateScan := ⟨strdate, strdate, MboxDate.unset⟩

/-- **A date is read inside its string**, and so is its format, exactly when no round adds twelve
hours that do not fit. The text and the end pointer are in the string between the rounds, whichever
directives there are. -/
theorem mboxDateStringToStruct_inside_iff (strdate : List MboxChar) {format : List MboxChar}
    (hnul : nul ∉ format) (hpercent : ¬ EndsInLonePercent format) :
    (∃ r, mboxDateStringToStruct (strdate ++ [nul]) (format ++ [nul]) = ok r) ↔
      HoursFit (format ++ [nul]) (.start (strdate ++ [nul])) := by
  constructor
  · rintro ⟨r, hr⟩
    exact HoursFit.of_ok hr
  · exact dateLoop_ok hnul hpercent ⟨⟨strdate, rfl⟩, ⟨strdate, rfl⟩⟩

/-- An hour that is the largest `int`, in the afternoon: the twelve hours that `%p` adds
overflow. -/
theorem largestHour_not_inside :
    ¬ ∀ strdate format : List MboxChar, nul ∉ format → ¬ EndsInLonePercent format →
      ∃ r, mboxDateStringToStruct (strdate ++ [nul]) (format ++ [nul]) = ok r := by
  intro hall
  obtain ⟨r, hr⟩ := hall (str "2147483647 PM1") (str "%H %p") (by decide)
    (by simp [str, EndsInLonePercent])
  have hfault : mboxDateStringToStruct (str "2147483647 PM1" ++ [nul]) (str "%H %p" ++ [nul]) =
      fault := by decide +kernel
  rw [hfault] at hr
  cases hr

/-- Seven in the evening, which a round with `%p` does come to. -/
theorem mboxDateStringToStruct_inside_evening :
    HoursFit (str "%H %p" ++ [nul]) (.start (str "7 PM1" ++ [nul])) :=
  (mboxDateStringToStruct_inside_iff (str "7 PM1") (by decide)
    (by simp [str, EndsInLonePercent])).mp ⟨_, rfl⟩

/-- A format without `%p` reads every date inside its string. -/
theorem mboxDateStringToStruct_inside (strdate : List MboxChar) {format : List MboxChar}
    (hnul : nul ∉ format) (hpercent : ¬ EndsInLonePercent format)
    (hhalf : ¬ str "%p" <:+: format ++ [nul]) :
    ∃ r, mboxDateStringToStruct (strdate ++ [nul]) (format ++ [nul]) = ok r :=
  dateLoop_ok hnul hpercent ⟨⟨strdate, rfl⟩, ⟨strdate, rfl⟩⟩ (hoursFit_of_noHalf hhalf _)

/-- A date that breaks off in the middle of its time. -/
example : ∃ r, mboxDateStringToStruct (str "27 Mar 2023 07:3" ++ [nul]) (mboxDateFormat ++ [nul]) =
    ok r :=
  mboxDateStringToStruct_inside (str "27 Mar 2023 07:3") (by decide)
    (by simp [mboxDateFormat, str, EndsInLonePercent]) (by decide)

end Libmbox2
