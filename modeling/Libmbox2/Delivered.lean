import Mathlib.Data.List.Chain
import Libmbox2.NextMessage

/-!
# What the calls deliver, whatever the file holds

Every call moves the rest of the buffer to its front, may append several reads and counts on
three offsets. What they have in common is `Unparsed`: behind `buf->offset` the buffer holds
the bytes of the file from `ioctx->offset` up to `ioctx->file_offset`. A call keeps it, also in
a file with NULs and where the headers of a message never end, and a message it delivers is
what it has moved over (`getNextMessage_spec`). So the messages of a run follow each other in
the file (`delivered_aligned`).
-/

namespace Libmbox2

open CSem CSem.Exec

variable {fill : ℕ → MboxChar} {file : List MboxChar} {a : ℕ}

/-! ## Inside a call -/

/-- A call that is at the message at `a`: its buffer is a window of the file from there on, and the
parser stands inside of it. -/
structure Passing (file : List MboxChar) (a : ℕ) (ioctx : MboxIOCtx) : Prop where
  /-- the buffer is a window from the start of the message on -/
  window : Window file a ioctx
  /-- the scan stands inside the window -/
  inside : a + ioctx.buf.offset ≤ ioctx.fileOffset
  /-- the message starts at `a` -/
  offset : ioctx.offset = a

namespace Passing

variable {ioctx : MboxIOCtx}

/-- It stays so when the parser moves inside of the window. -/
theorem setOffset (h : Passing file a ioctx) {o : ℕ} (ho : a + o ≤ ioctx.fileOffset) :
    Passing file a { ioctx with buf := mboxBufSetOffset ioctx.buf o } :=
  ⟨h.window.setOffset o, ho, h.offset⟩

/-- A read grows the window, or the file has ended. -/
theorem read (fill : ℕ → MboxChar) (h : Passing file a ioctx) :
    (∃ (buf : MboxBuf) (n : ℕ),
      mboxIORead fill (preadRegular file) ioctx mboxIOReadSize ioctx.buf.len
          ioctx.fileOffset = ok ((n : Int), { ioctx with buf, err := mboxIOOk }) ∧
      0 < n ∧ buf.offset = ioctx.buf.offset ∧
      Passing file a { ioctx with buf, err := mboxIOOk, fileOffset := ioctx.fileOffset + n }) ∨
    ∃ buf : MboxBuf, mboxIORead fill (preadRegular file) ioctx mboxIOReadSize ioctx.buf.len
        ioctx.fileOffset = ok (0, { ioctx with buf, err := mboxIOEof }) ∧
      buf.offset = ioctx.buf.offset ∧ Passing file a { ioctx with buf, err := mboxIOEof } := by
  have hin := h.inside
  rcases Nat.lt_or_ge ioctx.fileOffset file.length with hmore | hend
  · obtain ⟨buf, n, hread, hn, -, hoff, hwin⟩ :=
      h.window.read_more fill hmore mboxIOReadSize_pos mboxIOReadSize_lt
    refine Or.inl ⟨buf, n, hread, hn, hoff, hwin, ?_, h.offset⟩
    rw [hoff]
    exact Nat.le_add_right_of_le hin
  · have heof := Nat.le_antisymm h.window.inFile hend
    obtain ⟨buf, hread, hoff, hwin⟩ := h.window.read_eof fill heof mboxIOReadSize_lt
    refine Or.inr ⟨buf, hread, hoff, hwin, ?_, h.offset⟩
    rw [hoff]
    exact hin

end Passing

/-- The scan for the end of the headers stays in the contents, and passes at least the
empty line it finds. -/
theorem canParseHeadersFrom_total (xs rest : List MboxChar) {off : ℕ} (hoff : off ≤ xs.length) :
    ∃ found o, canParseHeadersFrom (xs ++ nul :: rest) xs.length off = ok (found, o) ∧
      o ≤ xs.length ∧ (found = true → 2 ≤ o) := by
  generalize hm : xs.length - off = m
  induction m using Nat.strongRecOn generalizing off with
  | _ m ih =>
    rw [canParseHeadersFrom]
    by_cases hlt : off < xs.length
    · obtain ⟨k, hk, hkle⟩ : ∃ k, scanUntil (fun c => c == nl || c == nul)
          ((xs ++ nul :: rest).drop off) = ok k ∧ off + k ≤ xs.length := by
        rw [List.drop_append_of_le_length hoff]
        obtain ⟨k, hk, hle⟩ := scanUntil_terminated (p := fun c => c == nl || c == nul)
          (show (nul == nl || nul == nul) = true by decide) (xs.drop off) rest
        rw [List.length_drop] at hle
        exact ⟨k, hk, by omega⟩
      rw [if_pos hlt, hk, ok_bind]
      obtain ⟨c1, hc1, hlt1⟩ := load_terminated xs rest nul hkle
      rw [hc1, ok_bind]
      by_cases hn1 : c1 = nul
      · exact ⟨false, off + k, if_pos hn1, hkle, fun h => absurd h Bool.false_ne_true⟩
      obtain ⟨c2, hc2, hlt2⟩ := load_terminated xs rest nul (hlt1 hn1)
      rw [if_neg hn1, hc2, ok_bind]
      by_cases hn2 : c2 = nul
      · exact ⟨false, off + k, if_pos hn2, hkle, fun h => absurd h Bool.false_ne_true⟩
      obtain ⟨c3, hc3, hlt3⟩ := load_terminated xs rest nul (hlt2 hn2)
      rw [if_neg hn2, hc3, ok_bind]
      by_cases hlf : c1 = nl ∧ c2 = nl
      · exact ⟨true, off + k + 2, if_pos hlf, hlt2 hn2, fun _ => Nat.le_add_left ..⟩
      rw [if_neg hlf]
      by_cases hcrlf : c1 = nl ∧ c2 = cr ∧ c3 = nl
      · have hn3 : c3 ≠ nul := by
          rw [hcrlf.2.2]
          decide
        exact ⟨true, off + k + 3, if_pos hcrlf, hlt3 hn3, fun _ => by omega⟩
      rw [if_neg hcrlf]
      exact ih _ (by omega) (hlt1 hn1) rfl
    · exact ⟨false, off, if_neg hlt, hoff, fun h => absurd h Bool.false_ne_true⟩

/-- **An iteration of the search for the end of the headers** keeps the window. -/
theorem seekHeadersStep_total (fill : ℕ → MboxChar) {ioctx : MboxIOCtx}
    (h : Passing file a ioctx) :
    ∃ r, seekHeadersStep fill (preadRegular file) ioctx = ok r ∧
      r.elim (Passing file a)
        fun p => p.1 = 1 → Passing file a p.2 ∧ 2 ≤ p.2.buf.offset := by
  obtain ⟨rest, hdata⟩ := h.window.holds.data
  have hlen := h.window.len_eq
  have hslice := length_slice h.window.le h.window.inFile
  have hin := h.inside
  obtain ⟨found, o, hscan, hle, hfound⟩ := canParseHeadersFrom_total
    (slice file a ioctx.fileOffset) rest (show ioctx.buf.offset ≤ _ by omega)
  rw [← hdata, hslice, ← hlen] at hscan
  have hs := h.setOffset (o := o) (by omega)
  have hparse : mboxBufCanParseHeaders ioctx.buf =
      ok (found, mboxBufSetOffset ioctx.buf o) := by
    rw [mboxBufCanParseHeaders, hscan]
    rfl
  simp only [seekHeadersStep, hparse, ok_bind]
  cases found with
  | true => exact ⟨_, rfl, fun _ => ⟨hs, hfound rfl⟩⟩
  | false =>
    obtain ⟨c, hc, -⟩ := load_terminated (slice file a ioctx.fileOffset) rest nul
      (Nat.zero_le _)
    rw [← hdata] at hc
    simp only [Bool.false_eq_true, if_false, mboxBufSetOffset_data, hc, ok_bind]
    split
    · rcases hs.read fill with ⟨buf, n, hread, hn, -, hgrown⟩ | ⟨buf, hread, -⟩
      · have hn0 : ¬ ((n : Int) = 0 ∨ mboxIOOk ≠ 0) := by
          rintro (h0 | h0)
          · omega
          · exact h0 rfl
        refine ⟨.inl _, ?_, hgrown⟩
        rw [hread, ok_bind]
        exact if_neg hn0
      · refine ⟨.inr (0, { ioctx with buf, err := mboxIOEof }), ?_, ?_⟩
        · rw [hread, ok_bind]
          exact if_pos (Or.inl rfl)
        · exact fun h01 : (0 : Int) = 1 => absurd h01 (by decide)
    · exact ⟨_, rfl, hs⟩

/-- **An iteration of the search for the next From line** returns and keeps the window, whatever is
in it. -/
theorem seekNextFromLineStep_total (fill : ℕ → MboxChar) {ioctx : MboxIOCtx}
    (h : Passing file a ioctx) (h2 : 2 ≤ ioctx.buf.offset) :
    ∃ r, seekNextFromLineStep fill (preadRegular file) ioctx = ok r ∧
      r.elim (fun s => Passing file a s ∧ 2 ≤ s.buf.offset)
        fun p => p.1 = 1 → Passing file a p.2 ∧ 2 ≤ p.2.buf.offset := by
  obtain ⟨hb1, hb2⟩ := lineStop_bounds h.window h.inside
  by_cases hfound : nlFromWord <+: file.drop (lineStop file ioctx a) ∧
      lineStop file ioctx a + 6 ≤ ioctx.fileOffset
  · refine ⟨_, seekNextFromLineStep_from h.window h.inside hfound.1 hfound.2, fun _ => ?_⟩
    refine ⟨h.setOffset (by omega), ?_⟩
    simp only [mboxBufSetOffset_offset]
    omega
  rcases Nat.lt_or_ge (lineStop file ioctx a + 10) ioctx.fileOffset with hfar | hnear
  · refine ⟨_, seekNextFromLineStep_line h.window h.inside hfound hfar,
      h.setOffset (by omega), ?_⟩
    simp only [mboxBufSetOffset_offset]
    omega
  rcases Nat.lt_or_ge ioctx.endOffset ioctx.fileOffset with hpast | hend
  · refine ⟨_, seekNextFromLineStep_past h.window h.inside hfound hnear hpast, ?_⟩
    exact fun h01 : (0 : Int) = 1 => absurd h01 (by decide)
  rcases Nat.lt_or_ge ioctx.fileOffset file.length with hmore | hfile
  · obtain ⟨buf, n, hstep, -, -, hoff, hwin⟩ := seekNextFromLineStep_read fill h.window h.inside
      hfound hnear hend hmore
    refine ⟨_, hstep, ⟨hwin, ?_, h.offset⟩, ?_⟩
    · rw [hoff]
      exact Nat.le_add_right_of_le hb2
    · simp only
      omega
  · have heof := Nat.le_antisymm h.window.inFile hfile
    obtain ⟨buf, hstep, hoff, hwin⟩ := seekNextFromLineStep_eof fill h.window h.inside hfound
      hnear hend heof
    refine ⟨_, hstep, fun _ => ⟨⟨hwin, ?_, h.offset⟩, ?_⟩⟩ <;>
    · simp only [hoff]
      omega

/-! ## A call -/

/-- **What a call does.** It returns or goes on for ever; a message it delivers is what lies
between the two offsets in the file, and the buffer holds what follows. -/
theorem getNextMessage_spec (fill : ℕ → MboxChar) {ctx : MboxParserCtx}
    (h : Unparsed file ctx.ioctx) (fuel : ℕ) :
    mboxParserCtxGetNextMessage fill (preadRegular file) fuel ctx = timeout ∨
      ∃ o ctx', mboxParserCtxGetNextMessage fill (preadRegular file) fuel ctx = ok (o, ctx') ∧
        ∀ msg, o = some msg → msg.Covers file ctx.ioctx.offset ctx'.ioctx.offset ∧
          ctx.ioctx.offset < ctx'.ioctx.offset ∧ Unparsed file ctx'.ioctx := by
  obtain ⟨buf, hprep, hoff, hwin⟩ := prepareBuffer_window h
  have hstart : Passing file ctx.ioctx.offset { ctx.ioctx with buf } := by
    refine ⟨hwin, ?_, rfl⟩
    rw [hoff]
    exact h.le
  have hheaders := loop_total (n := fuel) (fun s hs => seekHeadersStep_total fill hs) hstart
  rw [mboxParserCtxGetNextMessage, hprep, ok_bind]
  rw [mboxParserCtxSeekHeaders]
  rcases hheaders with hrun | ⟨⟨found, ioctx⟩, hrun, hpost⟩
  · exact Or.inl (by rw [hrun]; rfl)
  rw [hrun, ok_bind]
  by_cases hfound : found = 1
  · obtain ⟨hpass, h2⟩ := hpost hfound
    have hfrom := loop_total (n := fuel)
      (fun s hs => seekNextFromLineStep_total fill hs.1 hs.2) ⟨hpass, h2⟩
    simp only [ne_eq, hfound, not_true_eq_false, if_false]
    rw [mboxParserCtxSeekNextFromLine]
    rcases hfrom with hrun' | ⟨⟨found', ioctx'⟩, hrun', hpost'⟩
    · exact Or.inl (by rw [hrun']; rfl)
    rw [hrun', ok_bind]
    by_cases hfound' : found' = 1
    · obtain ⟨hpass', h2'⟩ := hpost' hfound'
      obtain ⟨msg, hcut, hcov⟩ := cutMessage_window fill ctx hpass'.window hpass'.inside
        hpass'.offset
      have hcall := congrArg (fun m => m >>= fun p : MboxIOMsg × MboxParserCtx =>
        ok (some p.1, p.2)) hcut
      refine Or.inr ⟨some msg, _, (if_neg (not_not.2 hfound')).trans hcall, ?_⟩
      rintro msg' heq
      cases heq
      exact ⟨hcov, Nat.lt_add_of_pos_right (Nat.zero_lt_of_lt h2'),
        hpass'.window.unparsed hpass'.inside⟩
    · exact Or.inr ⟨none, _, if_pos hfound', fun msg h => absurd h.symm (Option.some_ne_none msg)⟩
  · exact Or.inr ⟨none, _, if_pos hfound, fun msg h => absurd h.symm (Option.some_ne_none msg)⟩

/-- One call: the message covers the file from the offset the context had to the one it has now,
which is further behind. -/
theorem getNextMessage_covers {ctx ctx' : MboxParserCtx} {fuel : ℕ} {msg : MboxIOMsg}
    (h : Unparsed file ctx.ioctx)
    (hcall : mboxParserCtxGetNextMessage fill (preadRegular file) fuel ctx =
      ok (some msg, ctx')) :
    msg.Covers file ctx.ioctx.offset ctx'.ioctx.offset ∧
      ctx.ioctx.offset < ctx'.ioctx.offset ∧ Unparsed file ctx'.ioctx := by
  rcases getNextMessage_spec fill h fuel with hout | ⟨o, ctx'', hcall', hpost⟩
  · rw [hcall] at hout
    cases hout
  · rw [hcall] at hcall'
    cases hcall'
    exact hpost msg rfl

/-- A context with nothing read yet: the buffer is empty, and its first byte is the terminator. -/
structure MboxParserCtx.Begins (ctx : MboxParserCtx) : Prop where
  offset : ctx.ioctx.offset = ctx.ioctx.startOffset
  startOffset : ctx.ioctx.startOffset = ctx.ioctx.fileOffset
  buf : ctx.ioctx.buf.Empty

/-- Nothing of it has been parsed. -/
theorem MboxParserCtx.Begins.unparsed {ctx : MboxParserCtx} (h : ctx.Begins)
    (hin : ctx.ioctx.fileOffset ≤ file.length) : Unparsed file ctx.ioctx := by
  obtain ⟨y, rest, hdata⟩ := List.exists_cons_of_ne_nil h.buf.room
  have hoff := h.offset.trans h.startOffset
  refine ⟨⟨[], y, rest, ?_, h.buf.offset.symm⟩, ?_, hoff.le, hin, h.buf.capacity⟩
  · rw [hoff, slice_self, hdata]
    rfl
  · rw [hoff, h.buf.len, h.buf.offset, Nat.sub_self]

/-- Preparing an empty buffer leaves it empty. -/
theorem prepareBuffer_empty {buf : MboxBuf} (h : buf.Empty) :
    ∃ buf', prepareBuffer buf = ok buf' ∧ buf'.Sound ∧ buf'.len = 0 ∧ buf'.offset = 0 ∧
      load buf'.data 0 = ok nul := by
  obtain ⟨y, rest, hdata⟩ := List.exists_cons_of_ne_nil h.room
  have hset : mboxBufSetLen buf 0 = ok { buf with data := nul :: rest, len := 0 } :=
    mboxBufSetLen_append [] rest hdata
  have hzero : sizeSub buf.len buf.offset = 0 := by
    rw [h.len, h.offset]
    rfl
  refine ⟨{ buf with data := nul :: rest, len := 0, offset := 0 }, ?_, ⟨?_, Nat.succ_pos _⟩, rfl,
    rfl, rfl⟩
  · simp only [prepareBuffer, hzero, ne_eq, not_true_eq_false, if_false, pure_eq, ok_bind, hset]
    rfl
  · rw [h.capacity, hdata]
    rfl

theorem getNextMessage_mono (ctx : MboxParserCtx) (pread : Pread) :
    FuelMono fun fuel => mboxParserCtxGetNextMessage fill pread fuel ctx := by
  refine (FuelMono.const _).bind fun buf => (FuelMono.loop ..).bind fun r => ?_
  refine FuelMono.ite (FuelMono.const _) ((FuelMono.loop ..).bind fun r' => ?_)
  exact FuelMono.ite (FuelMono.const _) (FuelMono.const _)

/-- An empty read behind the end of the file ends the search for the end of the headers. -/
theorem seekHeaders_behind {ioctx : MboxIOCtx} (hs : ioctx.buf.Sound) (hlen : ioctx.buf.len = 0)
    (hoff : ioctx.buf.offset = 0) (hload : load ioctx.buf.data 0 = ok nul)
    (hbehind : file.length < ioctx.fileOffset) :
    ∃ ioctx', Converges (fun fuel =>
      mboxParserCtxSeekHeaders fill (preadRegular file) fuel ioctx) (0, ioctx') := by
  have hnil : (file.drop ioctx.fileOffset).take mboxIOReadSize = [] := by
    rw [List.drop_eq_nil_of_le hbehind.le, List.take_nil]
  obtain ⟨buf, tail, hread, -⟩ := mboxIORead_nil fill 0 hs mboxIOReadSize_lt hnil
  have hparse : mboxBufCanParseHeaders ioctx.buf = ok (false, ioctx.buf) := by
    rw [mboxBufCanParseHeaders, canParseHeadersFrom, if_neg (by rw [hlen, hoff]; decide)]
    rfl
  refine ⟨{ ioctx with buf, err := mboxIOEof }, (LoopTo.done (Converges.const ?_)).converges⟩
  rw [seekHeadersStep, hparse, ok_bind]
  simp only [Bool.false_eq_true, if_false, hload, ok_bind, true_or, if_true, hlen, hread, pure_eq]

/-- Behind the end of the file a call returns, without a message. -/
theorem getNextMessage_behind (fill : ℕ → MboxChar) {ctx : MboxParserCtx} (h : ctx.ioctx.buf.Empty)
    (hbehind : file.length < ctx.ioctx.fileOffset) :
    ∃ ctx', Converges (fun fuel =>
      mboxParserCtxGetNextMessage fill (preadRegular file) fuel ctx) (none, ctx') := by
  obtain ⟨buf, hprep, hs, hlen, hoff, hload⟩ := prepareBuffer_empty h
  obtain ⟨ioctx, hrun⟩ : ∃ ioctx', Converges (fun fuel => mboxParserCtxSeekHeaders fill
      (preadRegular file) fuel { ctx.ioctx with buf }) (0, ioctx') :=
    seekHeaders_behind hs hlen hoff hload hbehind
  refine ⟨{ ctx with ioctx }, ?_⟩
  simp only [mboxParserCtxGetNextMessage, hprep, ok_bind]
  exact Converges.bind hrun (Converges.const rfl)

/-! ## A run -/

/-- Successive calls on a context, all of which deliver a message, and the context that they
leave. -/
inductive Delivers (fill : ℕ → MboxChar) (pread : Pread) (ctx : MboxParserCtx) :
    List MboxIOMsg → MboxParserCtx → Prop where
  | nil : Delivers fill pread ctx [] ctx
  | snoc {msgs : List MboxIOMsg} {ctx₁ ctx₂ : MboxParserCtx} {fuel : ℕ} {msg : MboxIOMsg} :
    Delivers fill pread ctx msgs ctx₁ →
    mboxParserCtxGetNextMessage fill pread fuel ctx₁ = ok (some msg, ctx₂) →
    Delivers fill pread ctx (msgs ++ [msg]) ctx₂

/-- The counters of a context agree, and the unparsed tail of its buffer is what the file has
between them. -/
structure Aligned (file : List MboxChar) (ioctx : MboxIOCtx) : Prop where
  inBuf : ioctx.buf.offset ≤ ioctx.buf.len
  counters : ioctx.offset + (ioctx.buf.len - ioctx.buf.offset) = ioctx.fileOffset
  inFile : ioctx.fileOffset ≤ file.length
  tail : slice ioctx.buf.data ioctx.buf.offset ioctx.buf.len =
    slice file ioctx.offset ioctx.fileOffset

/-- What has not been parsed is aligned with the file. -/
theorem Unparsed.aligned {ioctx : MboxIOCtx} (h : Unparsed file ioctx) : Aligned file ioctx := by
  obtain ⟨⟨pre, y, rest, hdata, hpre⟩, hlen, hle, hin, -⟩ := h
  refine ⟨hlen ▸ Nat.le_add_right _ _, ?_, hin, ?_⟩
  · rw [hlen, Nat.add_sub_cancel_left]
    exact Nat.add_sub_cancel' hle
  · rw [slice, hlen, Nat.add_sub_cancel_left, hdata, ← hpre, List.drop_left]
    have htake := length_slice hle hin
    rw [← htake, List.take_left]

/-- A message is the bytes of the file between its offsets. -/
structure MboxIOMsg.Exact (file : List MboxChar) (msg : MboxIOMsg) : Prop where
  le : msg.startOffset ≤ msg.endOffset
  inFile : msg.endOffset ≤ file.length
  bytes : msg.buf.bytes = slice file msg.startOffset msg.endOffset

/-- What a run keeps: the last message ends where the context stands. -/
structure RunInv (file : List MboxChar) (msgs : List MboxIOMsg) (ioctx : MboxIOCtx) : Prop where
  each : ∀ msg ∈ msgs, msg.Exact file
  chain : msgs.IsChain fun msg msg' => msg'.startOffset = msg.endOffset
  last : ∀ msg ∈ msgs.getLast?, msg.endOffset = ioctx.offset
  unparsed : Unparsed file ioctx

/-- One call more keeps what is known of a run. -/
theorem RunInv.snoc {msgs : List MboxIOMsg} {ctx ctx' : MboxParserCtx} {fuel : ℕ}
    {msg : MboxIOMsg} (h : RunInv file msgs ctx.ioctx)
    (hcall : mboxParserCtxGetNextMessage fill (preadRegular file) fuel ctx =
      ok (some msg, ctx')) : RunInv file (msgs ++ [msg]) ctx'.ioctx := by
  obtain ⟨⟨hstart, hend, hbytes⟩, hlt, hunparsed⟩ := getNextMessage_covers h.unparsed hcall
  have hexact : msg.Exact file := by
    refine ⟨?_, ?_, ?_⟩
    · rw [hstart, hend]
      exact hlt.le
    · rw [hend]
      exact hunparsed.le.trans hunparsed.inFile
    · rw [hstart, hend]
      exact hbytes
  refine ⟨fun m hm => ?_, ?_, fun m hm => ?_, hunparsed⟩
  · rcases List.mem_append.1 hm with hm | hm
    · exact h.each m hm
    · rw [List.mem_singleton.1 hm]
      exact hexact
  · refine List.isChain_append.2 ⟨h.chain, List.isChain_singleton _, fun m hm m' hm' => ?_⟩
    cases hm'
    rw [hstart, h.last m hm]
  · rw [List.getLast?_concat] at hm
    cases hm
    exact hend

/-- What is known in front of a run of calls is known behind it, with the messages it has
delivered. -/
theorem Delivers.runInv {ctx ctx' : MboxParserCtx} {msgs : List MboxIOMsg}
    (hrun : Delivers fill (preadRegular file) ctx msgs ctx') (h : Unparsed file ctx.ioctx) :
    RunInv file msgs ctx'.ioctx := by
  induction hrun with
  | nil => exact ⟨nofun, List.isChain_nil, nofun, h⟩
  | snoc _ hcall ih => exact ih.snoc hcall

/-- A context that begins behind the end of the file delivers nothing. -/
theorem Delivers.behind {ctx ctx' : MboxParserCtx} {msgs : List MboxIOMsg}
    (hrun : Delivers fill (preadRegular file) ctx msgs ctx') (hempty : ctx.ioctx.buf.Empty)
    (hbehind : file.length < ctx.ioctx.fileOffset) : msgs = [] ∧ ctx' = ctx := by
  induction hrun with
  | nil => exact ⟨rfl, rfl⟩
  | snoc _ hcall ih =>
    obtain ⟨-, rfl⟩ := ih
    obtain ⟨ctx', hrun⟩ := getNextMessage_behind fill hempty hbehind
    cases hrun.unique ((getNextMessage_mono _ _).converges hcall)

/-- **Delivered bytes match delivered offsets**, over any run of calls from a context with nothing
read, whatever the file holds. -/
theorem delivered_aligned {ctx ctx' : MboxParserCtx} {msgs : List MboxIOMsg}
    (hbegins : ctx.Begins) (hrun : Delivers fill (preadRegular file) ctx msgs ctx') :
    (∀ msg ∈ msgs, msg.Exact file) ∧
      msgs.IsChain (fun msg msg' => msg'.startOffset = msg.endOffset) ∧
      (msgs ≠ [] → Aligned file ctx'.ioctx) := by
  rcases Nat.lt_or_ge file.length ctx.ioctx.fileOffset with hbehind | hin
  · obtain ⟨rfl, -⟩ := hrun.behind hbegins.buf hbehind
    exact ⟨nofun, List.isChain_nil, fun hne => absurd rfl hne⟩
  · have hinv := hrun.runInv (hbegins.unparsed hin)
    exact ⟨hinv.each, hinv.chain, fun _ => hinv.unparsed.aligned⟩

/-- A file of one message: `From a`, an empty line and `b`. -/
theorem delivered_aligned_one :
    ∃ file : List MboxChar, file = fromWord ++ [97, nl, nl, 98, nl] ∧ ∃ msg ctx',
      Delivers (fun _ => nul) (preadRegular file)
        ⟨0, 0, 0, ⟨0, 0, 0, 10, 0, 10, ⟨[nul], 0, 0, 1⟩⟩⟩ [msg] ctx' ∧
      msg.Exact file ∧ Aligned file ctx'.ioctx := by
  refine ⟨_, rfl, ?_⟩
  have hbegins : MboxParserCtx.Begins ⟨0, 0, 0, ⟨0, 0, 0, 10, 0, 10, ⟨[nul], 0, 0, 1⟩⟩⟩ :=
    ⟨rfl, rfl, rfl, rfl, List.cons_ne_nil _ _, rfl⟩
  obtain ⟨hdata, hlen, hle, hin, hcap⟩ : Unparsed (fromWord ++ [97, nl, nl, 98, nl]) _ :=
    hbegins.unparsed (Nat.zero_le _)
  have hno : ∀ p, 0 + 8 ≤ p → ¬ nlFromWord <+: (fromWord ++ [97, nl, nl, 98, nl]).drop p := by
    intro p hp hpre
    have hlength := prefix_drop_length (List.cons_ne_nil _ _) hpre
    exact absurd (hp.trans (Nat.le_of_add_le_add_right hlength)) (by decide)
  obtain ⟨msg, ctx', b, hconv, -⟩ := getNextMessage_eof (P := fun _ => True) (e := 10)
    (fun _ => nul) (by decide) (by decide) (by decide) hno (by decide) (by decide)
    (fun _ _ => trivial) (by decide) ⟨hdata, hlen, hle, hin, hcap, rfl, rfl, rfl, trivial⟩
  obtain ⟨fuel, hcall⟩ := hconv.exists_ok
  have hrun := Delivers.nil.snoc hcall
  obtain ⟨hexact, -, haligned⟩ := delivered_aligned hbegins hrun
  exact ⟨msg, ctx', hrun, hexact msg (List.mem_singleton_self msg),
    haligned (List.cons_ne_nil _ _)⟩

end Libmbox2
