import Libmbox2.DateText
import Libmbox2.HeaderFolding
import Libmbox2.OwnBytes

/-!
# The timestamp of a message (`mboxMsgLiteFromBuffer`)

The value of the header `Date` is read by one format, which begins with the day of the month.
A date that begins with the name of a day is not read by it, and has the timestamp `0`, though
the name of the day is all that is in the way (`mboxDateStringToStruct_undayed`).
-/

namespace Libmbox2

open CSem CSem.Exec

/-- What `mboxMsgLiteFromBuffer` does with a date: the timestamp, where an hour was read. -/
def readTimestamp (mktime : Tm → Int) (date : List MboxChar) : Exec (Option Int) := do
  let (_, d) ← mboxDateStringToStruct date (mboxDateFormat ++ [nul])
  pure (if d.tmHour ≠ -1 then some (mboxDateStructToUnix mktime d) else none)

/-- `date` is the value of the header `Date` of the message. -/
def DateHeader (fill : ℕ → MboxChar) (n : ℕ) (buf date : MboxBuf) : Prop :=
  ∃ h headers buf', mboxParseEmailHeaders fill buf headerHeapNew n = ok (h, headers, buf') ∧
    mboxHeadersGet h headers n mboxHeaderDate = ok (some date)

/-- The string begins with the name of a day, in whatever case, and a comma. -/
def NamesDay (s : List MboxChar) : Prop :=
  ∃ (i : Fin 7) (name rest : List MboxChar), sameName name (nameOfDay i) ∧ s = name ++ 44 :: rest

variable {fill : ℕ → MboxChar} {dateToUnix : List MboxChar → Exec (Option Int)}
  {mktime : Tm → Int} {n startOffset endOffset : ℕ} {buf date : MboxBuf} {msg : MboxMsgLite}
  {d : MboxDate}

/-- Where a message has a date, its timestamp is what is made of it. -/
theorem mboxMsgLiteFromBuffer_timestamp (hdate : DateHeader fill n buf date)
    (hmsg : mboxMsgLiteFromBuffer fill dateToUnix n buf startOffset endOffset = ok msg) :
    ∃ timestamp, dateToUnix date.data = ok timestamp ∧ msg.unixTimestamp = timestamp.getD 0 := by
  obtain ⟨h, headers, buf', hparse, hget⟩ := hdate
  rw [mboxMsgLiteFromBuffer, hparse, ok_bind] at hmsg
  simp only [hget, ok_bind] at hmsg
  iterate 5
    obtain ⟨_, -, hmsg⟩ := bind_eq_ok hmsg
  obtain ⟨timestamp, htimestamp, hmsg⟩ := bind_eq_ok hmsg
  iterate 5
    obtain ⟨_, -, hmsg⟩ := bind_eq_ok hmsg
  obtain rfl := ok.inj hmsg
  obtain ⟨r, hr, hvalue⟩ := bind_eq_ok htimestamp
  exact ⟨r, hr, (ok.inj hvalue).symm⟩

/-! ## A date with the name of a day -/

/-- The first byte of such a date is a letter. -/
theorem NamesDay.exists_letter {s : List MboxChar} (h : NamesDay s) :
    ∃ c r, s = c :: r ∧ IsLetter c := by
  obtain ⟨i, name, rest, hname, rfl⟩ := h
  obtain ⟨a, b, c, rfl, ha⟩ := letters_of_sameName hname
  exact ⟨a, _, rfl, ha⟩

/-- The first field is not read, so no hour is. -/
theorem mboxDateStringToStruct_namesDay {s : List MboxChar} (h : NamesDay s) :
    mboxDateStringToStruct s (mboxDateFormat ++ [nul]) =
      ok (false, { MboxDate.unset with tmMday := 0 }) := by
  obtain ⟨c, r, rfl, hc⟩ := h.exists_letter
  have hdir : dateDirective 100 ⟨c :: r, c :: r, MboxDate.unset⟩ =
      ok (.inr { MboxDate.unset with tmMday := 0 }) := by
    change readField _ _ >>= _ = _
    rw [readField_none _ hc.space hc.sign hc.digit]
    rfl
  exact dateLoop_fail hc.ne_nul hdir

/-- A date that names its day has no timestamp, since the format begins with the day of the
month. -/
theorem readTimestamp_namesDay {s : List MboxChar} (h : NamesDay s) :
    readTimestamp mktime s = ok none := by
  rw [readTimestamp, mboxDateStringToStruct_namesDay h]
  rfl

/-! ## The same date without the name of the day -/

/-- The same date on another day of the week. -/
def MboxDate.onDay (w : Int) (t : MboxDate) : MboxDate := { t with tmWday := w }

/-- The same place in the text, with another day of the week read. -/
def DateScan.onDay (w : Int) (s : DateScan) : DateScan := { s with t := s.t.onDay w }

/-- A field other than the day of the week is read in the same way. -/
theorem readField_onDay {set : Int → MboxDate → MboxDate}
    (hset : ∀ n w t, set n (t.onDay w) = (set n t).onDay w) {move : DateScan → DateScan}
    (hmove : ∀ s w, move (s.onDay w) = (move s).onDay w) (w : Int) (s : DateScan) :
    (readField set (s.onDay w) >>= fun r => ok (r.map move id)) =
      (readField set s >>= fun r => ok (r.map move id)) >>= fun r =>
        ok (r.map (·.onDay w) (·.onDay w)) := by
  simp only [readField, DateScan.onDay, bind_assoc]
  refine bind_congr fun x => ?_
  rcases x with ⟨n, k⟩
  by_cases hk : k = 0
  · simp [hk, hset]
  · have hs := hmove { s with endptr := s.strdate.drop k, t := set (longToInt n) s.t } w
    simp [hk, hset, DateScan.onDay] at hs ⊢
    exact hs

/-- Two branches that go on in the same way go on in this way together. -/
theorem ite_eq_bind {α β : Type} {p : Prop} [Decidable p] {m m' : Exec β} {n n' : Exec α}
    {f : α → Exec β} (h : m = n >>= f) (h' : m' = n' >>= f) :
    (if p then m else m') = (if p then n else n') >>= f := by
  by_cases hp : p
  · rw [if_pos hp, if_pos hp, h]
  · rw [if_neg hp, if_neg hp, h']

/-- The directives of the format do not look at the day of the week. -/
theorem dateDirective_onDay {letter : MboxChar} (hday : letter ≠ 97) (hhalf : letter ≠ 112)
    (w : Int) (s : DateScan) :
    dateDirective letter (s.onDay w) =
      dateDirective letter s >>= fun r => ok (r.map (·.onDay w) (·.onDay w)) := by
  rw [dateDirective, dateDirective, if_neg hday, if_neg hday, if_neg hhalf, if_neg hhalf]
  refine ite_eq_bind ?b (ite_eq_bind ?d (ite_eq_bind ?m (ite_eq_bind ?Y (ite_eq_bind ?H
    (ite_eq_bind ?M (ite_eq_bind ?S (ite_eq_bind ?z rfl)))))))
  case b =>
    change (findName months s.strdate >>= _) = (findName months s.strdate >>= _) >>= _
    rw [bind_assoc]
    refine bind_congr fun i => ?_
    rcases i with _ | i
    · by_cases hmon : s.t.tmMon = -1
      · simp [hmon, DateScan.onDay, MboxDate.onDay]
      · simp [hmon, DateScan.onDay, MboxDate.onDay]
    · rfl
  case d | m | Y | H | M | S | z => exact readField_onDay (fun _ _ _ => rfl) (fun _ _ => rfl) w s

/-- The step of the format does not look at the day of the week. -/
theorem dateNext_onDay (ch : MboxChar) (w : Int) (s : DateScan) :
    dateNext ch (s.onDay w) = dateNext ch s >>= fun r => ok (r.map (·.onDay w)) := by
  simp only [dateNext, DateScan.onDay, bind_assoc]
  refine bind_congr fun e => ?_
  by_cases he : e = nul
  · simp [he]
  · simp only [he, if_false, bind_assoc]
    refine bind_congr fun c => ?_
    by_cases hc : ch = c <;> simp [hc, DateScan.advanceBy]

/-- Nor does the loop, by a format without names of days and halves of the day. -/
theorem dateLoop_onDay {format : List MboxChar} (hday : 97 ∉ format) (hhalf : 112 ∉ format)
    (w : Int) (s : DateScan) :
    dateLoop format (s.onDay w) = dateLoop format s >>= fun r => ok (r.1, r.2.onDay w) := by
  induction format, s using dateLoop.induct with
  | case1 s =>
    simp only [dateLoop, DateScan.onDay, bind_assoc]
    refine bind_congr fun c => ?_
    split <;> rfl
  | case2 s ch =>
    simp only [dateLoop, DateScan.onDay, bind_assoc]
    refine bind_congr fun c => ?_
    split <;> rfl
  | case3 ch letter format s ih₁ ih₂ =>
    simp only [List.mem_cons, not_or] at hday hhalf
    have hrest₁ := fun s => ih₁ s hday.2.2 hhalf.2.2
    have hrest₂ := fun s =>
      ih₂ s (by simp [hday.2.1, hday.2.2]) (by simp [hhalf.2.1, hhalf.2.2])
    simp only [dateLoop, bind_assoc]
    refine bind_congr fun c => ?_
    split
    · rfl
    split
    · rw [dateDirective_onDay (Ne.symm hday.2.1) (Ne.symm hhalf.2.1), bind_assoc, bind_assoc]
      refine bind_congr fun r => ?_
      rcases r with s' | t
      · change (dateNext letter (s'.onDay w) >>= _) = (dateNext letter s' >>= _) >>= _
        rw [dateNext_onDay, bind_assoc, bind_assoc]
        refine bind_congr fun r => ?_
        rcases r with _ | s''
        · rfl
        · exact hrest₁ s''
      · rfl
    · rw [dateNext_onDay, bind_assoc, bind_assoc]
      refine bind_congr fun r => ?_
      rcases r with _ | s'
      · rfl
      · exact hrest₂ s'

/-- The first directive of the format sets `endptr`, whatever it was. -/
theorem dateLoop_endptr (s e e' : List MboxChar) (t : MboxDate) :
    dateLoop (mboxDateFormat ++ [nul]) ⟨s, e, t⟩ =
      dateLoop (mboxDateFormat ++ [nul]) ⟨s, e', t⟩ := by
  rw [DateTime.mboxDateFormat_append]
  rfl

/-- **The name of the day is all that is in the way**: without it the rest is read the same. -/
theorem mboxDateStringToStruct_undayed {name : List MboxChar} {i : Fin 7}
    (hname : sameName name (nameOfDay i)) (rest : List MboxChar) :
    mboxDateStringToStruct (name ++ 44 :: 32 :: rest) (mboxDateFormatDay ++ [nul]) =
      mboxDateStringToStruct rest (mboxDateFormat ++ [nul]) >>= fun r =>
        ok (r.1, r.2.onDay (i : ℕ)) := by
  obtain ⟨a, b, c, hletters, ha⟩ := letters_of_sameName hname
  have hhead : ∃ x e', name ++ 44 :: 32 :: rest = x :: e' ∧ x ≠ nul :=
    ⟨a, _, by rw [hletters, List.cons_append], ha.ne_nul⟩
  rw [mboxDateStringToStruct, DateTime.dateLoop_dateFormatDay hname hhead,
    dateLoop_endptr _ _ rest, mboxDateStringToStruct]
  exact dateLoop_onDay (by decide) (by decide) _ ⟨rest, rest, MboxDate.unset⟩

/-- The timestamp of a message is that of its date, read with the name of the day. -/
def FollowsDate (mktime : Tm → Int) (msg : MboxMsgLite) (date : MboxBuf) : Prop :=
  ∀ d, mboxDateStringToStruct date.data (mboxDateFormatDay ++ [nul]) = ok (true, d) →
    msg.unixTimestamp = mboxDateStructToUnix mktime d

/-- **The timestamp follows the date** only where that is read as `0`. A date that names its day is
not read by the format without one, so the message gets the timestamp `0` whatever its date is. -/
theorem followsDate_iff (hdate : DateHeader fill n buf date) (hday : NamesDay date.data)
    (hd : mboxDateStringToStruct date.data (mboxDateFormatDay ++ [nul]) = ok (true, d))
    (hmsg : mboxMsgLiteFromBuffer fill (readTimestamp mktime) n buf startOffset endOffset =
      ok msg) : FollowsDate mktime msg date ↔ mboxDateStructToUnix mktime d = 0 := by
  obtain ⟨timestamp, htimestamp, hzero⟩ := mboxMsgLiteFromBuffer_timestamp hdate hmsg
  rw [readTimestamp_namesDay hday] at htimestamp
  obtain rfl := ok.inj htimestamp
  constructor
  · intro h
    rw [← h d hd, hzero]
    rfl
  · intro hepoch d' hd'
    obtain ⟨-, rfl⟩ := Prod.mk.inj (ok.inj (hd'.symm.trans hd))
    rw [hzero, hepoch]
    rfl

/-- Without the name of the day the timestamp is that of the date. -/
theorem timestamp_undayed {name : List MboxChar} {i : Fin 7}
    (hname : sameName name (nameOfDay i))
    (hd : mboxDateStringToStruct (name ++ 44 :: 32 :: date.data) (mboxDateFormatDay ++ [nul]) =
      ok (true, d)) (hhour : d.tmHour ≠ -1) (hdate : DateHeader fill n buf date)
    (hmsg : mboxMsgLiteFromBuffer fill (readTimestamp mktime) n buf startOffset endOffset =
      ok msg) : msg.unixTimestamp = mboxDateStructToUnix mktime d := by
  obtain ⟨timestamp, htimestamp, hvalue⟩ := mboxMsgLiteFromBuffer_timestamp hdate hmsg
  rw [mboxDateStringToStruct_undayed hname] at hd
  obtain ⟨⟨b, t⟩, ht, hd⟩ := bind_eq_ok hd
  obtain ⟨-, rfl⟩ := Prod.mk.inj (ok.inj hd)
  rw [readTimestamp, ht, ok_bind] at htimestamp
  rw [hvalue, ← ok.inj htimestamp, if_pos (show t.tmHour ≠ -1 from hhour)]
  rfl

/-! ## A message with a date -/

/-- A message with the one header `Date`, and a body as long as a preview. -/
def datedMail (value : List MboxChar) : List MboxChar :=
  str "Date: " ++ (value ++ nl :: nl :: List.replicate 420 65)

/-- That message in a buffer. -/
def datedMailBuf (value : List MboxChar) : MboxBuf :=
  ⟨datedMail value ++ [nul], 0, (datedMail value).length, (datedMail value).length + 1⟩

/-- Its header is stored as it stands there. -/
theorem headerBlock_datedMail {value : List MboxChar} (blank : List MboxChar)
    (hplain : ∀ c ∈ value, c ≠ nl ∧ c ≠ cr ∧ c ≠ tab) (hne : value ≠ [])
    (hnoword : ¬ mimePrefix <+: value) :
    HeaderBlock blank ((datedMail value).dropWhile isLine) [(str "Date", value)]
      (List.replicate 420 65) := by
  have hmime : ¬ MimeEncoded value := fun h => hnoword h.1
  have hkept : unfolded value = value := by
    refine List.filter_eq_self.2 fun c hc => ?_
    simp [hplain c hc]
  have hstored : storedValue value = value := if_neg hmime
  have hvalue : ValueLines (value ++ nl :: nl :: List.replicate 420 65) (unfolded value)
      (nl :: List.replicate 420 65) :=
    ValueLines.last (fun h => (hplain nl h).1 rfl) rfl
  rw [hkept] at hvalue
  have hname : NamedLines blank [] (str "Date" ++ colon :: space ::
      (value ++ nl :: nl :: List.replicate 420 65)) (str "Date", storedValue value)
      (nl :: List.replicate 420 65) :=
    NamedLines.mk (by decide) hvalue
      ⟨fun h => absurd h hmime, fun h => absurd h hne⟩
  rw [hstored] at hname
  have hfrom : ¬ fromWord <+: str "Date" ++ colon :: space ::
      (value ++ nl :: nl :: List.replicate 420 65) :=
    fun h => absurd (List.cons_prefix_cons.1 h).1 (by decide)
  exact HeaderBlock.last (HeaderLines.named hfrom hname) rfl

/-- The message is made, with the value of its header as its date. -/
theorem datedMail_runs (fill : ℕ → MboxChar) {value : List MboxChar}
    (hplain : ∀ c ∈ value, c ≠ nl ∧ c ≠ cr ∧ c ≠ tab) (hne : value ≠ [])
    (hnoword : ¬ mimePrefix <+: value)
    (hreads : DateReads dateToUnix [(str "Date", value)]) :
    ∃ n date msg tail, DateHeader fill n (datedMailBuf value) date ∧
      date.data = value ++ nul :: tail ∧
      mboxMsgLiteFromBuffer fill dateToUnix n (datedMailBuf value) 0 0 = ok msg := by
  have hat : (datedMailBuf value).LeftAt [nul] 0 (datedMail value) := ⟨rfl, Nat.zero_add _⟩
  obtain ⟨snt, h, t, o, hparse, htree, hleft⟩ := HeaderBlock.parse fill (h := headerHeapNew) rfl
    (headerBlock_datedMail _ hplain hne hnoword) hat (Ended.nul ..)
  have hnames : ∀ e ∈ [(str "Date", value)], nul ∉ e.1 := by
    intro e he
    rw [List.mem_singleton.1 he]
    exact show nul ∉ str "Date" by decide
  obtain ⟨date, hget, hbytes⟩ := htree.get (List.pairwise_singleton _ _) hnames
    (List.mem_singleton_self _) (k := ⟨str "Date" ++ [nul], 0, 4, 0⟩) rfl
  obtain ⟨found, hget', hfound⟩ := htree.lookup
    (show mboxExpectedHeaders[mboxHeaderDate]? = some _ from rfl)
  obtain rfl := hget'.unique hget
  obtain ⟨e, he, -, hholds⟩ := hfound date rfl
  rw [List.mem_singleton.1 he] at hholds
  obtain ⟨tail, hdata⟩ := hholds.data
  have hlong : mboxBufPreviewLen ≤ ((datedMailBuf value).data.drop o).length := by
    rw [hleft.data, List.length_append, List.length_replicate]
    exact Nat.le_add_right _ _
  obtain ⟨p, hp, -⟩ := mboxBufDupRaw_spec fill hlong (Nat.le_add_right mboxBufPreviewLen 9)
  obtain ⟨make, -, -, hmake⟩ := mboxMsgLiteFromBuffer_spec fill htree hreads 0 0
  obtain ⟨N₁, h₁⟩ := hparse
  obtain ⟨N₂, h₂⟩ := hget
  obtain ⟨N₃, h₃⟩ := hmake _ o p ⟨N₁, h₁⟩ hp
  refine ⟨max N₁ (max N₂ N₃), date, make p, tail, ⟨h, t, _, h₁ _ (le_max_left _ _), ?_⟩, hdata,
    h₃ _ ((le_max_right _ _).trans (le_max_right _ _))⟩
  exact h₂ _ ((le_max_left _ _).trans (le_max_right _ _))

/-- `mktime` in UTC, for a day in February. -/
def utcFebruary (t : Tm) : Int :=
  (t.tmYear - 70) * 31536000 + (t.tmYear - 69) / 4 * 86400 - (t.tmYear - 1) / 100 * 86400 +
    (t.tmYear + 299) / 400 * 86400 + (30 + t.tmMday) * 86400 + t.tmHour * 3600 + t.tmMin * 60 +
    t.tmSec

/-- A date written with the name of its day names it. -/
theorem namesDay_render (d : DateTime) (r : List MboxChar) :
    NamesDay (d.render mboxDateFormatDay ++ r) :=
  ⟨d.wday, nameOfDay d.wday, _, rfl, d.render_dateFormatDay r⟩

/-- A message with a date in February, which is read with the name of its day. -/
theorem datedMail_render (fill : ℕ → MboxChar) (mktime : Tm → Int) (d : DateTime)
    (hfeb : d.mon = 1) (hplain : ∀ c ∈ d.render mboxDateFormatDay, c ≠ nl ∧ c ≠ cr ∧ c ≠ tab)
    (hnoword : ¬ mimePrefix <+: d.render mboxDateFormatDay) :
    ∃ n date msg t, DateHeader fill n (datedMailBuf (d.render mboxDateFormatDay)) date ∧
      NamesDay date.data ∧
      mboxDateStringToStruct date.data (mboxDateFormatDay ++ [nul]) = ok (true, d.filled t) ∧
      mboxMsgLiteFromBuffer fill (readTimestamp mktime) n
        (datedMailBuf (d.render mboxDateFormatDay)) 0 0 = ok msg := by
  have hnamed := namesDay_render d
  have hread := fun tail => (mboxDateStringToStruct_render d dateFormatDay_mem tail).1 hfeb
  have hne : d.render mboxDateFormatDay ≠ [] := by
    intro hnil
    have hrender := d.render_dateFormatDay []
    rw [hnil] at hrender
    exact List.cons_ne_nil _ _ (List.append_eq_nil_iff.1 hrender.symm).2
  generalize d.render mboxDateFormatDay = value at hnamed hread hne hplain hnoword ⊢
  have hreads : DateReads (readTimestamp mktime) [(str "Date", value)] := by
    intro e he _ rest
    rw [List.mem_singleton.1 he]
    exact ⟨none, readTimestamp_namesDay (hnamed _)⟩
  obtain ⟨n, date, msg, tail, hdate, hdata, hmsg⟩ :=
    datedMail_runs fill hplain hne hnoword hreads
  obtain ⟨t, ht⟩ := hread tail
  rw [← hdata] at ht
  refine ⟨n, date, msg, t, hdate, ?_, ht, hmsg⟩
  rw [hdata]
  exact hnamed _

/-- Nothing but what the formats have matters for the timestamp. -/
theorem mboxDateStructToUnix_filled (mktime : Tm → Int) (d : DateTime) (t t' : MboxDate) :
    mboxDateStructToUnix mktime (d.filled t) = mboxDateStructToUnix mktime (d.filled t') := rfl

/-- The `Date` header of a leap day, which has a timestamp other than 0 that the message does not
get. -/
theorem followsDate_iff_leapDay :
    ∃ n date msg d,
      DateHeader (fun _ => nul) n (datedMailBuf (leapDay.render mboxDateFormatDay)) date ∧
      mboxDateStructToUnix utcFebruary d = 1709256599 ∧ ¬ FollowsDate utcFebruary msg date := by
  obtain ⟨n, date, msg, t, hdate, hday, hd, hmsg⟩ := datedMail_render (fun _ => nul) utcFebruary
    leapDay rfl (by decide +kernel) (by decide +kernel)
  have hunix : mboxDateStructToUnix utcFebruary (leapDay.filled t) = 1709256599 := by
    rw [mboxDateStructToUnix_filled _ _ _ MboxDate.unset]
    decide +kernel
  refine ⟨n, date, msg, _, hdate, hunix, fun h => ?_⟩
  have hzero := (followsDate_iff hdate hday hd hmsg).mp h
  rw [hunix] at hzero
  exact absurd hzero (by decide +kernel)

/-- A message of that day has the timestamp `0`. -/
theorem februaryMonday_not_followsDate :
    februaryMonday.render mboxDateFormatDay = str "Mon, 27 Feb 2023 07:30:00 +0000" ∧
      ∃ n date msg d,
        DateHeader (fun _ => nul) n (datedMailBuf (februaryMonday.render mboxDateFormatDay)) date ∧
        mboxMsgLiteFromBuffer (fun _ => nul) (readTimestamp utcFebruary) n
          (datedMailBuf (februaryMonday.render mboxDateFormatDay)) 0 0 = ok msg ∧
        mboxDateStringToStruct date.data (mboxDateFormatDay ++ [nul]) = ok (true, d) ∧
        mboxDateStructToUnix utcFebruary d = 1677483000 ∧ msg.unixTimestamp = 0 ∧
        ¬ FollowsDate utcFebruary msg date := by
  refine ⟨by decide +kernel, ?_⟩
  obtain ⟨n, date, msg, t, hdate, hday, hd, hmsg⟩ := datedMail_render (fun _ => nul) utcFebruary
    februaryMonday rfl (by decide +kernel) (by decide +kernel)
  have hunix : mboxDateStructToUnix utcFebruary (februaryMonday.filled t) = 1677483000 := by
    rw [mboxDateStructToUnix_filled _ _ _ MboxDate.unset]
    decide +kernel
  obtain ⟨timestamp, htimestamp, hzero⟩ := mboxMsgLiteFromBuffer_timestamp hdate hmsg
  rw [readTimestamp_namesDay hday] at htimestamp
  obtain rfl := ok.inj htimestamp
  refine ⟨n, date, msg, _, hdate, hmsg, hd, hunix, hzero, fun h => ?_⟩
  have heq := h _ hd
  rw [hunix, hzero] at heq
  exact absurd heq (by decide +kernel)

end Libmbox2
