import Libmbox2.HeaderEnd

/-!
# The scans on a window of the file

One iteration of each of the two seek loops, on a buffer that is a window on a regular
file, in terms of positions in the file. From these step lemmas follow the runs: the
end of the headers is found (`seekHeaders_run`); the next From line is found
(`seekNextFromLine_found`), is lost because the window already reaches beyond
`end_offset` (`seekNextFromLine_lost`), or there is none and the scan stands where the
empty read caught it (`seekNextFromLine_eof`).

`P` is what is known of the ends of the windows the context has had; it has to survive
one more read.
-/

namespace Libmbox2

open CSem CSem.Exec

variable {fill : ℕ → MboxChar} {file : List MboxChar} {a e : ℕ} {P : ℕ → Prop}

/-- A call that is scanning the message at `a` for a context that ends at `e`. -/
structure Scanning (file : List MboxChar) (a e : ℕ) (P : ℕ → Prop) (ioctx : MboxIOCtx) :
    Prop where
  /-- the buffer is a window from the start of the message on -/
  window : Window file a ioctx
  /-- the scan stands inside the window -/
  inside : a + ioctx.buf.offset ≤ ioctx.fileOffset
  /-- the message starts at `a` -/
  offset : ioctx.offset = a
  /-- the context ends at `e` -/
  endOffset : ioctx.endOffset = e
  /-- no read came back empty -/
  err : ioctx.err = mboxIOOk
  /-- what is known of the end of the window -/
  fileOffset : P ioctx.fileOffset

namespace Scanning

variable {ioctx : MboxIOCtx}

/-- What is known of a search stays true when the parser moves inside of the window. -/
theorem setOffset (h : Scanning file a e P ioctx) {o : ℕ} (ho : a + o ≤ ioctx.fileOffset) :
    Scanning file a e P { ioctx with buf := mboxBufSetOffset ioctx.buf o } :=
  ⟨h.window.setOffset o, ho, h.offset, h.endOffset, h.err, h.fileOffset⟩

/-- One more read, when the file goes on: the window grows, by one read's size or to the end of the
file. -/
theorem read (fill : ℕ → MboxChar) (h : Scanning file a e P ioctx)
    (hmore : ioctx.fileOffset < file.length)
    (hP : P (min file.length (ioctx.fileOffset + mboxIOReadSize))) :
    ∃ (buf : MboxBuf) (n : ℕ),
      mboxIORead fill (preadRegular file) ioctx mboxIOReadSize ioctx.buf.len
          ioctx.fileOffset = ok ((n : Int), { ioctx with buf, err := mboxIOOk }) ∧
      0 < n ∧ buf.offset = ioctx.buf.offset ∧
      ioctx.fileOffset + n = min file.length (ioctx.fileOffset + mboxIOReadSize) ∧
      Scanning file a e P
        { ioctx with buf, err := mboxIOOk, fileOffset := ioctx.fileOffset + n } := by
  obtain ⟨buf, n, hread, hn, hend, hoff, hwin⟩ :=
    h.window.read_more fill hmore mboxIOReadSize_pos mboxIOReadSize_lt
  refine ⟨buf, n, hread, hn, hoff, hend, ⟨hwin, ?_, h.offset, h.endOffset, rfl, ?_⟩⟩
  · have := h.inside
    simp only [hoff]
    omega
  · simp only [hend]
    exact hP

end Scanning

/-! ## The end of the headers -/

/-- The scan for the end of the headers in a window. -/
theorem mboxBufCanParseHeaders_window (h0 : nul ∉ file) {ioctx : MboxIOCtx}
    (hw : Window file a ioctx) (hin : a + ioctx.buf.offset ≤ ioctx.fileOffset) :
    mboxBufCanParseHeaders ioctx.buf =
      match headerEnd? (slice file (a + ioctx.buf.offset) ioctx.fileOffset) with
      | some j => ok (true, mboxBufSetOffset ioctx.buf (ioctx.buf.offset + j))
      | none => ok (false, mboxBufSetOffset ioctx.buf (ioctx.buf.offset +
          scanEnd (slice file (a + ioctx.buf.offset) ioctx.fileOffset))) := by
  obtain ⟨rest, hdata⟩ := hw.holds.data
  have hlen := hw.len_eq
  have h0' : nul ∉ slice file a ioctx.fileOffset := fun hmem =>
    h0 (List.mem_of_mem_drop (List.mem_of_mem_take hmem))
  have hspec := canParseHeadersFrom_spec rest h0'
    (show ioctx.buf.offset ≤ _ by rw [length_slice hw.le hw.inFile]; omega) (le_refl _)
  rw [← hdata, ← hw.holds.len, drop_slice] at hspec
  rw [mboxBufCanParseHeaders, hspec]
  rcases headerEnd? (slice file (a + ioctx.buf.offset) ioctx.fileOffset) with _ | j <;> rfl

/-- A window that holds the end of the headers: the iteration finds it, and moves the parser behind
it. -/
theorem seekHeadersStep_found (h0 : nul ∉ file) {ioctx : MboxIOCtx} {j : ℕ}
    (hw : Window file a ioctx) (hin : a + ioctx.buf.offset ≤ ioctx.fileOffset)
    (hj : headerEnd? (slice file (a + ioctx.buf.offset) ioctx.fileOffset) = some j) :
    seekHeadersStep fill (preadRegular file) ioctx = ok (.inr (1,
      { ioctx with buf := mboxBufSetOffset ioctx.buf (ioctx.buf.offset + j) })) := by
  rw [seekHeadersStep, mboxBufCanParseHeaders_window h0 hw hin, hj]
  simp

/-- A window that does not hold it: the step reads on. -/
theorem seekHeadersStep_more (fill : ℕ → MboxChar) (h0 : nul ∉ file) {ioctx : MboxIOCtx}
    (h : Scanning file a e P ioctx)
    (hnone : headerEnd? (slice file (a + ioctx.buf.offset) ioctx.fileOffset) = none)
    (hmore : ioctx.fileOffset < file.length)
    (hP : P (min file.length (ioctx.fileOffset + mboxIOReadSize))) :
    ∃ ioctx', seekHeadersStep fill (preadRegular file) ioctx = ok (.inl ioctx') ∧
      Scanning file a e P ioctx' ∧
      ioctx'.buf.offset = ioctx.buf.offset +
        scanEnd (slice file (a + ioctx.buf.offset) ioctx.fileOffset) ∧
      ioctx.fileOffset < ioctx'.fileOffset := by
  have hin := h.inside
  have hlen : (slice file (a + ioctx.buf.offset) ioctx.fileOffset).length =
      ioctx.fileOffset - (a + ioctx.buf.offset) := length_slice h.inside h.window.inFile
  generalize hs : scanEnd (slice file (a + ioctx.buf.offset) ioctx.fileOffset) = s
  have hsle : s ≤ ioctx.fileOffset - (a + ioctx.buf.offset) ∧
      ioctx.fileOffset - (a + ioctx.buf.offset) ≤ s + 1 := by
    rw [scanEnd] at hs
    split at hs <;> omega
  obtain ⟨buf, n, hread, hn, hoff, hend, hscan⟩ :=
    (h.setOffset (o := ioctx.buf.offset + s) (by omega)).read fill hmore hP
  obtain ⟨c, hc⟩ : ∃ c, load ioctx.buf.data 0 = ok c := by
    obtain ⟨rest, hdata⟩ := h.window.holds.data
    rw [hdata]
    rcases slice file a ioctx.fileOffset with _ | ⟨c, cs⟩
    · exact ⟨nul, rfl⟩
    · exact ⟨c, rfl⟩
  refine ⟨_, ?_, hscan, by simpa using hoff, by simp only; omega⟩
  have hwlen := h.window.len_eq
  have hstop : c = nul ∨ ioctx.buf.len ≤ ioctx.buf.offset + s + 1 := by
    right
    omega
  have hn0 : ¬ ((n : Int) = 0 ∨ mboxIOOk ≠ 0) := by
    simp only [ne_eq, not_true_eq_false, or_false]
    omega
  rw [seekHeadersStep, mboxBufCanParseHeaders_window h0 h.window h.inside, hnone]
  simp only [ok_bind, hs, Bool.false_eq_true, if_false, mboxBufSetOffset_data,
    mboxBufSetOffset_len, mboxBufSetOffset_offset, hc] at hread ⊢
  simp only [hread, ok_bind, if_neg hn0, pure_eq, Int.toNat_natCast]
  exact if_pos hstop

/-- **The end of the headers is found**, wherever reads end: `k` bytes behind the start
of the message. -/
theorem seekHeaders_run (fill : ℕ → MboxChar) (h0 : nul ∉ file) {k : ℕ}
    (hk : headerEnd? (file.drop a) = some k) (hlf : (file.drop a)[k - 2]? = some nl)
    (hP : ∀ fo, P fo → fo < a + k → P (min file.length (fo + mboxIOReadSize)))
    {ioctx : MboxIOCtx} (h : Scanning file a e P ioctx) (hoff : ioctx.buf.offset = 0) :
    ∃ ioctx', Converges
        (fun n => mboxParserCtxSeekHeaders fill (preadRegular file) n ioctx) (1, ioctx') ∧
      Scanning file a e P ioctx' ∧ ioctx'.buf.offset = k := by
  have hkle := headerEnd?_le hk
  rw [List.length_drop] at hkle
  -- the scan never passes the first newline of the empty line
  have hstep : ∀ s, Scanning file a e P s ∧ s.buf.offset + 2 ≤ k →
      (∃ r, Converges (fun _ => seekHeadersStep fill (preadRegular file) s) (.inr r) ∧
        r.1 = 1 ∧ Scanning file a e P r.2 ∧ r.2.buf.offset = k) ∨
      ∃ s', Converges (fun _ => seekHeadersStep fill (preadRegular file) s) (.inl s') ∧
        (Scanning file a e P s' ∧ s'.buf.offset + 2 ≤ k) ∧
        file.length - s'.fileOffset < file.length - s.fileOffset := by
    rintro s ⟨hs, hsk⟩
    have hdrop := headerEnd?_drop hk hlf hsk
    have hin := hs.inside
    have hfile := hs.window.inFile
    rcases Nat.lt_or_ge s.fileOffset (a + k) with hlt | hge
    · -- the window ends too early
      right
      have hnone : headerEnd? (slice file (a + s.buf.offset) s.fileOffset) = none := by
        rw [slice, ← List.drop_drop]
        exact headerEnd?_take_of_lt hdrop (by omega)
      obtain ⟨s', hs', hscan, hoff', hfo⟩ := seekHeadersStep_more fill h0 hs hnone
        (by omega) (hP _ hs.fileOffset hlt)
      refine ⟨s', Converges.const hs', ⟨hscan, ?_⟩, by omega⟩
      have hlen : (slice file (a + s.buf.offset) s.fileOffset).length =
          s.fileOffset - (a + s.buf.offset) := length_slice hin hfile
      rw [hoff', scanEnd]
      split
      · omega
      · rename_i hlast
        -- a window that ends right behind the first newline of the empty line ends with it
        by_contra hcon
        refine hlast ?_
        rw [List.getLast?_eq_getElem?, hlen, getElem?_slice, if_pos (by omega)]
        rw [List.getElem?_drop] at hlf
        rw [← hlf]
        congr 1
        omega
    · left
      have hsome : headerEnd? (slice file (a + s.buf.offset) s.fileOffset) =
          some (k - s.buf.offset) := by
        rw [slice, ← List.drop_drop]
        exact headerEnd?_take_of_le hdrop (by omega)
      refine ⟨_, Converges.const (seekHeadersStep_found h0 hs.window hin hsome), rfl,
        hs.setOffset (by omega), ?_⟩
      simp only [mboxBufSetOffset_offset]
      omega
  obtain ⟨r, hr, h1, hscan, hoff'⟩ := LoopTo.of_measure _ hstep ioctx ⟨h, by omega⟩
  obtain ⟨c, ioctx'⟩ := r
  obtain rfl : c = 1 := h1
  exact ⟨ioctx', hr.converges, hscan, hoff'⟩

/-! ## The next From line -/

/-- The newline an iteration stops at, or the end of the window. -/
def lineStop (file : List MboxChar) (ioctx : MboxIOCtx) (a : ℕ) : ℕ :=
  findFrom (fun c => c == nl) file (a + ioctx.buf.offset) ioctx.fileOffset

section Line

variable {ioctx : MboxIOCtx}

/-- The line that the parser stands in ends in the window, or with it. -/
theorem lineStop_bounds (hw : Window file a ioctx)
    (hin : a + ioctx.buf.offset ≤ ioctx.fileOffset) :
    a + ioctx.buf.offset ≤ lineStop file ioctx a ∧
      lineStop file ioctx a ≤ ioctx.fileOffset :=
  ⟨le_findFrom, findFrom_le hin hw.inFile⟩

/-- Where it ends in front of the end of the window, it ends with a newline. -/
theorem lineStop_nl (hw : Window file a ioctx)
    (hin : a + ioctx.buf.offset ≤ ioctx.fileOffset)
    (hlt : lineStop file ioctx a < ioctx.fileOffset) : file[lineStop file ioctx a]? = some nl := by
  obtain ⟨c, hc, hq⟩ := findFrom_spec hin hw.inFile hlt
  obtain rfl : c = nl := by simpa using hq
  exact hc

/-- The scan of an iteration does not pass a newline. -/
theorem lineStop_le (hw : Window file a ioctx)
    (hin : a + ioctx.buf.offset ≤ ioctx.fileOffset) {p : ℕ} (hp : file[p]? = some nl)
    (hle : a + ioctx.buf.offset ≤ p) : lineStop file ioctx a ≤ p := by
  by_contra hcon
  have hb := (lineStop_bounds hw hin).2
  have := findFrom_min (q := fun c => c == nl) hle (Nat.lt_of_not_le hcon) hb hp
  simp at this

/-- The two tests an iteration starts with: where it stops, and whether a From line
begins there. -/
theorem lineStop_scan (hw : Window file a ioctx)
    (hin : a + ioctx.buf.offset ≤ ioctx.fileOffset) :
    scanWithin (fun c => c == nl) ioctx.buf.data ioctx.buf.len ioctx.buf.offset =
        ok (lineStop file ioctx a - a) ∧
      mboxIsFromLine (ioctx.buf.data.drop (lineStop file ioctx a - a)) =
        ok (decide (nlFromWord <+: file.drop (lineStop file ioctx a) ∧
          lineStop file ioctx a + 6 ≤ ioctx.fileOffset)) := by
  obtain ⟨rest, hdata⟩ := hw.holds.data
  have hlen : (slice file a ioctx.fileOffset).length = ioctx.fileOffset - a :=
    length_slice hw.le hw.inFile
  have hb := lineStop_bounds hw hin
  constructor
  · have hscan := scanWithin_append (fun c => c == nl) (slice file a ioctx.fileOffset)
      (nul :: rest) (show ioctx.buf.offset ≤ _ by omega)
    rw [hdata, hw.holds.len, hscan, drop_slice, lineStop, findFrom]
    congr 1
    omega
  · have hdrop : ioctx.buf.data.drop (lineStop file ioctx a - a) =
        slice file (lineStop file ioctx a) ioctx.fileOffset ++ nul :: rest := by
      rw [hdata, List.drop_append_of_le_length (by omega), drop_slice]
      congr 2
      omega
    rw [mboxIsFromLine, hdrop, matchAt_append (by decide)]
    congr 1
    rw [decide_eq_decide, prefix_slice]
    have h6 : nlFromWord.length = 6 := rfl
    rw [h6]
    constructor <;> rintro ⟨h1, h2⟩ <;> exact ⟨h1, by omega⟩

/-- A From line that lies in the window as a whole is found, and the parser moves to the newline in
front. -/
theorem seekNextFromLineStep_from (hw : Window file a ioctx)
    (hin : a + ioctx.buf.offset ≤ ioctx.fileOffset)
    (hfrom : nlFromWord <+: file.drop (lineStop file ioctx a))
    (h6 : lineStop file ioctx a + 6 ≤ ioctx.fileOffset) :
    seekNextFromLineStep fill (preadRegular file) ioctx = ok (.inr (1,
      { ioctx with buf := mboxBufSetOffset ioctx.buf (lineStop file ioctx a - a + 1) })) := by
  obtain ⟨hscan, hmatch⟩ := lineStop_scan hw hin
  rw [decide_eq_true ⟨hfrom, h6⟩] at hmatch
  simp only [seekNextFromLineStep, hscan, hmatch, ok_bind, if_true, pure_eq]

/-- A line that is no From line, with more than ten bytes behind its start. -/
theorem seekNextFromLineStep_line (hw : Window file a ioctx)
    (hin : a + ioctx.buf.offset ≤ ioctx.fileOffset)
    (hno : ¬ (nlFromWord <+: file.drop (lineStop file ioctx a) ∧
      lineStop file ioctx a + 6 ≤ ioctx.fileOffset))
    (hfar : lineStop file ioctx a + 10 < ioctx.fileOffset) :
    seekNextFromLineStep fill (preadRegular file) ioctx = ok (.inl
      { ioctx with buf := mboxBufSetOffset ioctx.buf (lineStop file ioctx a - a + 1) }) := by
  obtain ⟨hscan, hmatch⟩ := lineStop_scan hw hin
  rw [decide_eq_false hno] at hmatch
  have hlen := hw.len_eq
  have hb := (lineStop_bounds hw hin).1
  have hfar' : ¬ ioctx.buf.len ≤ lineStop file ioctx a - a + 10 := by omega
  simp only [seekNextFromLineStep, hscan, hmatch, ok_bind, Bool.false_eq_true, if_false,
    if_neg hfar', pure_eq]

/-- Near the end of a window that reaches beyond `end_offset` the search gives up. -/
theorem seekNextFromLineStep_past (hw : Window file a ioctx)
    (hin : a + ioctx.buf.offset ≤ ioctx.fileOffset)
    (hno : ¬ (nlFromWord <+: file.drop (lineStop file ioctx a) ∧
      lineStop file ioctx a + 6 ≤ ioctx.fileOffset))
    (hnear : ioctx.fileOffset ≤ lineStop file ioctx a + 10)
    (hpast : ioctx.endOffset < ioctx.fileOffset) :
    seekNextFromLineStep fill (preadRegular file) ioctx = ok (.inr (0,
      { ioctx with buf := mboxBufSetOffset ioctx.buf (lineStop file ioctx a - a) })) := by
  obtain ⟨hscan, hmatch⟩ := lineStop_scan hw hin
  rw [decide_eq_false hno] at hmatch
  have hlen := hw.len_eq
  have hb := (lineStop_bounds hw hin).1
  have hnear' : ioctx.buf.len ≤ lineStop file ioctx a - a + 10 := by omega
  simp only [seekNextFromLineStep, hscan, hmatch, ok_bind, Bool.false_eq_true, if_false,
    if_pos hnear', if_pos hpast, pure_eq]

/-- Near the end of the file the empty read ends the search where it stands. -/
theorem seekNextFromLineStep_eof (fill : ℕ → MboxChar) (hw : Window file a ioctx)
    (hin : a + ioctx.buf.offset ≤ ioctx.fileOffset)
    (hno : ¬ (nlFromWord <+: file.drop (lineStop file ioctx a) ∧
      lineStop file ioctx a + 6 ≤ ioctx.fileOffset))
    (hnear : ioctx.fileOffset ≤ lineStop file ioctx a + 10)
    (hend : ioctx.fileOffset ≤ ioctx.endOffset) (heof : ioctx.fileOffset = file.length) :
    ∃ buf, seekNextFromLineStep fill (preadRegular file) ioctx = ok (.inr (1,
        { ioctx with buf, err := mboxIOEof })) ∧
      buf.offset = lineStop file ioctx a - a ∧
      Window file a { ioctx with buf, err := mboxIOEof } := by
  obtain ⟨hscan, hmatch⟩ := lineStop_scan hw hin
  rw [decide_eq_false hno] at hmatch
  have hlen := hw.len_eq
  have hb := (lineStop_bounds hw hin).1
  have hnear' : ioctx.buf.len ≤ lineStop file ioctx a - a + 10 := by omega
  have hpast : ¬ ioctx.endOffset < ioctx.fileOffset := Nat.not_lt.mpr hend
  obtain ⟨buf, hread, hoff, hwin⟩ := (hw.setOffset (lineStop file ioctx a - a)).read_eof
    fill heof mboxIOReadSize_lt
  refine ⟨buf, ?_, hoff, hwin⟩
  simp only [mboxBufSetOffset_len] at hread
  simp only [seekNextFromLineStep, hscan, hmatch, ok_bind, Bool.false_eq_true, if_false,
    if_pos hnear', if_neg hpast, hread, and_self, if_true, pure_eq]

/-- Near the end of the window, when the file goes on, the search reads and stays where it
is. -/
theorem seekNextFromLineStep_read (fill : ℕ → MboxChar) (hw : Window file a ioctx)
    (hin : a + ioctx.buf.offset ≤ ioctx.fileOffset)
    (hno : ¬ (nlFromWord <+: file.drop (lineStop file ioctx a) ∧
      lineStop file ioctx a + 6 ≤ ioctx.fileOffset))
    (hnear : ioctx.fileOffset ≤ lineStop file ioctx a + 10)
    (hend : ioctx.fileOffset ≤ ioctx.endOffset) (hmore : ioctx.fileOffset < file.length) :
    ∃ (buf : MboxBuf) (n : ℕ), seekNextFromLineStep fill (preadRegular file) ioctx = ok (.inl
        { ioctx with buf, err := mboxIOOk, fileOffset := ioctx.fileOffset + n }) ∧
      0 < n ∧ ioctx.fileOffset + n = min file.length (ioctx.fileOffset + mboxIOReadSize) ∧
      a + buf.offset = lineStop file ioctx a ∧
      Window file a { ioctx with buf, err := mboxIOOk, fileOffset := ioctx.fileOffset + n } := by
  obtain ⟨hscan, hmatch⟩ := lineStop_scan hw hin
  rw [decide_eq_false hno] at hmatch
  have hlen := hw.len_eq
  have hb := lineStop_bounds hw hin
  have hnear' : ioctx.buf.len ≤ lineStop file ioctx a - a + 10 := by omega
  have hpast : ¬ ioctx.endOffset < ioctx.fileOffset := Nat.not_lt.mpr hend
  obtain ⟨buf, n, hread, hn, hfo, hoff, hwin⟩ :=
    (hw.setOffset (lineStop file ioctx a - a)).read_more fill hmore mboxIOReadSize_pos
      mboxIOReadSize_lt
  have hn0 : ¬ ((n : Int) = 0 ∧ mboxIOOk = mboxIOEof) := by
    rintro ⟨-, h2⟩
    exact absurd h2 (by decide)
  have hok : ¬ mboxIOOk ≠ 0 := fun hne => hne rfl
  simp only [mboxBufSetOffset_len, mboxBufSetOffset_offset] at hread hoff
  refine ⟨buf, n, ?_, hn, hfo, by rw [hoff]; omega, hwin⟩
  simp only [seekNextFromLineStep, hscan, hmatch, ok_bind, Bool.false_eq_true, if_false,
    if_pos hnear', if_neg hpast, hread, if_neg hn0, if_neg hok, pure_eq, Int.toNat_natCast]

/-- Near the end of the window, where no From line is seen, more of the file is read and the same
line is looked at again. -/
theorem seekNextFromLineStep_more (fill : ℕ → MboxChar) (h : Scanning file a e P ioctx)
    (hno : ¬ (nlFromWord <+: file.drop (lineStop file ioctx a) ∧
      lineStop file ioctx a + 6 ≤ ioctx.fileOffset))
    (hnear : ioctx.fileOffset ≤ lineStop file ioctx a + 10)
    (hend : ioctx.fileOffset ≤ e) (hmore : ioctx.fileOffset < file.length)
    (hP : P (min file.length (ioctx.fileOffset + mboxIOReadSize))) :
    ∃ ioctx', seekNextFromLineStep fill (preadRegular file) ioctx = ok (.inl ioctx') ∧
      Scanning file a e P ioctx' ∧ a + ioctx'.buf.offset = lineStop file ioctx a ∧
      ioctx.fileOffset < ioctx'.fileOffset := by
  have hb := lineStop_bounds h.window h.inside
  obtain ⟨buf, n, hstep, hn, hfo, hoff, hwin⟩ := seekNextFromLineStep_read fill h.window h.inside
    hno hnear (h.endOffset ▸ hend) hmore
  refine ⟨_, hstep, ⟨hwin, ?_, h.offset, h.endOffset, rfl, ?_⟩, hoff, Nat.lt_add_of_pos_right hn⟩
  · rw [hoff]
    exact Nat.le_add_right_of_le hb.2
  · rw [hfo]
    exact hP

end Line

/-! ### Runs of the search

`q` is the newline in front of the next From line. -/

/-- The search from `x` has no From line in front of `q`. -/
def NoFromBefore (file : List MboxChar) (x q : ℕ) : Prop :=
  ∀ p, x ≤ p → p < q → ¬ nlFromWord <+: file.drop p

/-- What is looked for begins with a newline, so there is one where it is found. -/
theorem nl_of_from {q : ℕ} (hq : nlFromWord <+: file.drop q) : file[q]? = some nl := by
  simpa using prefix_drop_iff.mp hq 0 nl rfl

/-- There is nothing where the search is, and it may go on up to `q`: to the next line, or with
more of the file. -/
structure GoesOn (file : List MboxChar) (a e : ℕ) (P : ℕ → Prop) (q : ℕ) (s : MboxIOCtx) :
    Prop where
  nothing : ¬ (nlFromWord <+: file.drop (lineStop file s a) ∧
    lineStop file s a + 6 ≤ s.fileOffset)
  further : lineStop file s a + 10 < s.fileOffset ∧ lineStop file s a ≠ q ∨
    s.fileOffset ≤ lineStop file s a + 10 ∧ s.fileOffset ≤ e ∧ s.fileOffset < file.length ∧
      P (min file.length (s.fileOffset + mboxIOReadSize))

/-- An iteration that does not find the From line at `q` goes on in front of it: it passes a line,
or reads more of the file. -/
theorem seekNextFromLineStep_goes (fill : ℕ → MboxChar) {q : ℕ} {s : MboxIOCtx}
    (hs : Scanning file a e P s) (hstop : lineStop file s a ≤ q) (hgo : GoesOn file a e P q s) :
    ∃ s', Converges (fun _ => seekNextFromLineStep fill (preadRegular file) s) (.inl s') ∧
      Scanning file a e P s' ∧ a + s.buf.offset ≤ a + s'.buf.offset ∧ a + s'.buf.offset ≤ q ∧
      file.length - s'.fileOffset + (q - (a + s'.buf.offset)) <
        file.length - s.fileOffset + (q - (a + s.buf.offset)) := by
  obtain ⟨hb1, hb2⟩ := lineStop_bounds hs.window hs.inside
  rcases hgo.further with ⟨hfar, hne⟩ | ⟨hnear, hle, hmore, hnext⟩
  · refine ⟨_, Converges.const (seekNextFromLineStep_line hs.window hs.inside hgo.nothing hfar),
      hs.setOffset (by omega), ?_, ?_, ?_⟩ <;>
    · simp only [mboxBufSetOffset_offset]
      omega
  · -- the same line is looked at again, with more of the file
    obtain ⟨s', hs', hscan, hoff, hfo⟩ :=
      seekNextFromLineStep_more fill hs hgo.nothing hnear hle hmore hnext
    have hfile := hscan.window.inFile
    exact ⟨s', Converges.const hs', hscan, by omega, by omega, by omega⟩

/-- A run of the search, as long as the newline at `q` is still to come: it ends where a step does
that does not go on. -/
theorem seekNextFromLine_run (fill : ℕ → MboxChar) {x q : ℕ} {Post : Int × MboxIOCtx → Prop}
    (hq : file[q]? = some nl)
    (hcase : ∀ s, Scanning file a e P s → x ≤ a + s.buf.offset → lineStop file s a ≤ q →
      (∃ r, seekNextFromLineStep fill (preadRegular file) s = ok (.inr r) ∧ Post r) ∨
      GoesOn file a e P q s)
    {ioctx : MboxIOCtx} (h : Scanning file a e P ioctx) (hx : x ≤ a + ioctx.buf.offset)
    (hxq : a + ioctx.buf.offset ≤ q) :
    ∃ r, Converges (fun n => mboxParserCtxSeekNextFromLine fill (preadRegular file) n ioctx) r ∧
      Post r := by
  have hstep : ∀ s, Scanning file a e P s ∧ x ≤ a + s.buf.offset ∧ a + s.buf.offset ≤ q →
      (∃ r, Converges (fun _ => seekNextFromLineStep fill (preadRegular file) s) (.inr r) ∧
        Post r) ∨
      ∃ s', Converges (fun _ => seekNextFromLineStep fill (preadRegular file) s) (.inl s') ∧
        (Scanning file a e P s' ∧ x ≤ a + s'.buf.offset ∧ a + s'.buf.offset ≤ q) ∧
        file.length - s'.fileOffset + (q - (a + s'.buf.offset)) <
          file.length - s.fileOffset + (q - (a + s.buf.offset)) := by
    rintro s ⟨hs, hsx, hsq⟩
    have hstop := lineStop_le hs.window hs.inside hq hsq
    rcases hcase s hs hsx hstop with ⟨r, hr, hpost⟩ | hgo
    · exact Or.inl ⟨r, Converges.const hr, hpost⟩
    · obtain ⟨s', hs', hscan, hback, hq', hless⟩ :=
        seekNextFromLineStep_goes fill hs hstop hgo
      exact Or.inr ⟨s', hs', ⟨hscan, hsx.trans hback, hq'⟩, hless⟩
  obtain ⟨r, hr, hpost⟩ := LoopTo.of_measure _ hstep ioctx ⟨h, hx, hxq⟩
  exact ⟨r, hr.converges, hpost⟩

/-- **The next From line is found**: no window it is looked for in reaches beyond
`end_offset` with a newline among the last ten bytes, the one that is looked for
excepted. -/
theorem seekNextFromLine_found (fill : ℕ → MboxChar) {x q : ℕ}
    (hq : nlFromWord <+: file.drop q) (hqe : q ≤ e) (hmin : NoFromBefore file x q)
    (hfar : q + 12 ≤ file.length)
    (hP : ∀ fo, P fo → fo ≤ e → P (min file.length (fo + mboxIOReadSize)))
    (hclear : ∀ fo, P fo → e < fo → ∀ p, x ≤ p → p ≤ q → file[p]? = some nl →
      fo ≤ p + 10 → p = q ∧ q + 6 ≤ fo)
    {ioctx : MboxIOCtx} (h : Scanning file a e P ioctx) (hx : x ≤ a + ioctx.buf.offset)
    (hxq : a + ioctx.buf.offset ≤ q) :
    ∃ ioctx', Converges
        (fun n => mboxParserCtxSeekNextFromLine fill (preadRegular file) n ioctx)
        (1, ioctx') ∧
      Scanning file a e P ioctx' ∧ a + ioctx'.buf.offset = q + 1 := by
  have hcase : ∀ s, Scanning file a e P s → x ≤ a + s.buf.offset → lineStop file s a ≤ q →
      (∃ r, seekNextFromLineStep fill (preadRegular file) s = ok (.inr r) ∧
        r.1 = 1 ∧ Scanning file a e P r.2 ∧ a + r.2.buf.offset = q + 1) ∨
      GoesOn file a e P q s := by
    intro s hs hsx hstop
    obtain ⟨hb1, hb2⟩ := lineStop_bounds hs.window hs.inside
    have hfile := hs.window.inFile
    by_cases hfound : nlFromWord <+: file.drop (lineStop file s a) ∧
        lineStop file s a + 6 ≤ s.fileOffset
    · -- a From line in front of `q` there is none
      have heq : lineStop file s a = q := by
        by_contra hne
        exact hmin _ (by omega) (by omega) hfound.1
      refine Or.inl ⟨_, seekNextFromLineStep_from hs.window hs.inside hfound.1 hfound.2, rfl,
        hs.setOffset (by omega), ?_⟩
      simp only [mboxBufSetOffset_offset]
      omega
    · refine Or.inr ⟨hfound, ?_⟩
      rcases Nat.lt_or_ge (lineStop file s a + 10) s.fileOffset with hfar' | hnear
      · exact Or.inl ⟨hfar', fun heq => hfound ⟨heq ▸ hq, by omega⟩⟩
      · have hle : s.fileOffset ≤ e := by
          by_contra hcon
          have hlt : lineStop file s a < s.fileOffset := by omega
          obtain ⟨heq, h6⟩ := hclear _ hs.fileOffset (by omega) _ (by omega) hstop
            (lineStop_nl hs.window hs.inside hlt) hnear
          exact hfound ⟨heq ▸ hq, heq ▸ h6⟩
        exact Or.inr ⟨hnear, hle, by omega, hP _ hs.fileOffset hle⟩
  obtain ⟨⟨c, ioctx'⟩, hr, rfl, hscan, hoff⟩ :=
    seekNextFromLine_run fill (nl_of_from hq) hcase h hx hxq
  exact ⟨ioctx', hr, hscan, hoff⟩

/-- **The next From line is lost**: the first window that reaches beyond `end_offset`
ends at `R`, at most ten bytes behind a newline the search stops at. -/
theorem seekNextFromLine_lost (fill : ℕ → MboxChar) {x R p₀ : ℕ} (hmin : NoFromBefore file x e)
    (he : e < file.length) (heR : e < R)
    (hP : ∀ fo, P fo → fo ≤ e → P (min file.length (fo + mboxIOReadSize)))
    (hR : ∀ fo, P fo → e < fo → fo = R)
    (hp₀ : file[p₀]? = some nl) (hp₀e : p₀ ≤ e) (hnear₀ : R ≤ p₀ + 10)
    (hp₀R : ¬ (p₀ = e ∧ e + 6 ≤ R)) {ioctx : MboxIOCtx} (h : Scanning file a e P ioctx)
    (hx : x ≤ a + ioctx.buf.offset) (hxp : a + ioctx.buf.offset ≤ p₀) :
    ∃ ioctx', Converges
        (fun n => mboxParserCtxSeekNextFromLine fill (preadRegular file) n ioctx)
        (0, ioctx') := by
  have hcase : ∀ s, Scanning file a e P s → x ≤ a + s.buf.offset → lineStop file s a ≤ p₀ →
      (∃ r, seekNextFromLineStep fill (preadRegular file) s = ok (.inr r) ∧ r.1 = 0) ∨
      GoesOn file a e P p₀ s := by
    intro s hs hsx hstop
    obtain ⟨hb1, hb2⟩ := lineStop_bounds hs.window hs.inside
    have hfoR : s.fileOffset ≤ e ∨ s.fileOffset = R := by
      rcases Nat.lt_or_ge e s.fileOffset with hlt | hge
      · exact Or.inr (hR _ hs.fileOffset hlt)
      · exact Or.inl hge
    have hfound : ¬ (nlFromWord <+: file.drop (lineStop file s a) ∧
        lineStop file s a + 6 ≤ s.fileOffset) := by
      rintro ⟨h1, h6⟩
      have heq : lineStop file s a = e := by
        by_contra hne
        exact hmin _ (by omega) (by omega) h1
      exact hp₀R ⟨by omega, by omega⟩
    rcases Nat.lt_or_ge (lineStop file s a + 10) s.fileOffset with hfar' | hnear
    · refine Or.inr ⟨hfound, Or.inl ⟨hfar', ?_⟩⟩
      rintro heq
      rcases hfoR with h1 | h1 <;> omega
    · rcases Nat.lt_or_ge e s.fileOffset with hpast | hle
      · exact Or.inl ⟨_, seekNextFromLineStep_past hs.window hs.inside hfound hnear
          (by rw [hs.endOffset]; exact hpast), rfl⟩
      · exact Or.inr ⟨hfound, Or.inr ⟨hnear, hle, by omega, hP _ hs.fileOffset hle⟩⟩
  obtain ⟨⟨c, ioctx'⟩, hr, rfl⟩ := seekNextFromLine_run fill hp₀ hcase h hx hxp
  exact ⟨ioctx', hr⟩

/-- **There is no next From line**: the search ends at the end of the file, in front of
the newline the file ends with. -/
theorem seekNextFromLine_eof (fill : ℕ → MboxChar) {x : ℕ}
    (hno : ∀ p, x ≤ p → ¬ nlFromWord <+: file.drop p)
    (he : file.length ≤ e) (hP : ∀ fo, P fo → P (min file.length (fo + mboxIOReadSize)))
    (hlast : file[file.length - 1]? = some nl) {ioctx : MboxIOCtx}
    (h : Scanning file a e P ioctx) (hx : x ≤ a + ioctx.buf.offset)
    (hxN : a + ioctx.buf.offset < file.length) :
    ∃ ioctx', Converges
        (fun n => mboxParserCtxSeekNextFromLine fill (preadRegular file) n ioctx)
        (1, ioctx') ∧
      Window file a ioctx' ∧ ioctx'.offset = a ∧ ioctx'.err = mboxIOEof ∧
      ioctx'.fileOffset = file.length ∧ x ≤ a + ioctx'.buf.offset ∧
      a + ioctx'.buf.offset < file.length := by
  have hcase : ∀ s, Scanning file a e P s → x ≤ a + s.buf.offset →
      lineStop file s a ≤ file.length - 1 →
      (∃ r, seekNextFromLineStep fill (preadRegular file) s = ok (.inr r) ∧
        r.1 = 1 ∧ Window file a r.2 ∧ r.2.offset = a ∧ r.2.err = mboxIOEof ∧
        r.2.fileOffset = file.length ∧ x ≤ a + r.2.buf.offset ∧
        a + r.2.buf.offset < file.length) ∨
      GoesOn file a e P (file.length - 1) s := by
    intro s hs hsx hstop
    obtain ⟨hb1, hb2⟩ := lineStop_bounds hs.window hs.inside
    have hfile := hs.window.inFile
    have hfound : ¬ (nlFromWord <+: file.drop (lineStop file s a) ∧
        lineStop file s a + 6 ≤ s.fileOffset) := fun hf => hno _ (by omega) hf.1
    rcases Nat.lt_or_ge (lineStop file s a + 10) s.fileOffset with hfar' | hnear
    · exact Or.inr ⟨hfound, Or.inl ⟨hfar', by omega⟩⟩
    · rcases Nat.lt_or_ge s.fileOffset file.length with hmore | hend
      · exact Or.inr ⟨hfound, Or.inr ⟨hnear, by omega, hmore, hP _ hs.fileOffset⟩⟩
      · obtain ⟨buf, hread, hoff, hwin⟩ := seekNextFromLineStep_eof fill hs.window
          hs.inside hfound hnear (by rw [hs.endOffset]; omega) (by omega)
        refine Or.inl ⟨_, hread, rfl, hwin, hs.offset, rfl, ?_, ?_, ?_⟩ <;>
        · simp only [hoff]
          omega
  obtain ⟨⟨c, ioctx'⟩, hr, rfl, hpost⟩ :=
    seekNextFromLine_run fill hlast hcase h hx (Nat.le_sub_one_of_lt hxN)
  exact ⟨ioctx', hr, hpost⟩

end Libmbox2
