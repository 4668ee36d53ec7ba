import Libmbox2.Scan
import Libmbox2.Mbox

/-!
# One message after the other

Between two messages a context is `Ready`: behind `buf->offset` its buffer holds the
file from the start of the next message up to `file_offset`. `prepareBuffer` makes this
a window again, the two searches run on the window, and when a message was found the
context is `Ready` for the next one. A call ends in one of three ways: the next From line
is found, it is lost, or the file ends (`getNextMessage_found`, `getNextMessage_lost`,
`getNextMessage_eof`).
-/

namespace Libmbox2

open CSem CSem.Exec

variable {fill : ℕ → MboxChar} {file : List MboxChar} {a e : ℕ} {P : ℕ → Prop}

/-- Behind `buf->offset` the buffer holds the bytes of the file from `offset` up to
`file_offset`. -/
structure Unparsed (file : List MboxChar) (ioctx : MboxIOCtx) : Prop where
  /-- what is not parsed yet, and room for a terminator -/
  data : ∃ pre y rest,
    ioctx.buf.data = pre ++ (slice file ioctx.offset ioctx.fileOffset ++ y :: rest) ∧
      pre.length = ioctx.buf.offset
  /-- the contents end where the window ends -/
  len : ioctx.buf.len = ioctx.buf.offset + (ioctx.fileOffset - ioctx.offset)
  /-- the file has been read up to the start of the message or beyond it -/
  le : ioctx.offset ≤ ioctx.fileOffset
  /-- and not beyond its end -/
  inFile : ioctx.fileOffset ≤ file.length
  /-- the capacity is that of the block -/
  capacity : ioctx.buf.capacity = ioctx.buf.data.length

/-- A context that has yet to deliver the message at `a`. -/
structure Ready (file : List MboxChar) (a e : ℕ) (P : ℕ → Prop) (ioctx : MboxIOCtx) :
    Prop where
  /-- what is not parsed yet, and room for a terminator -/
  data : ∃ pre y rest,
    ioctx.buf.data = pre ++ (slice file a ioctx.fileOffset ++ y :: rest) ∧
      pre.length = ioctx.buf.offset
  /-- the contents end where the window ends -/
  len : ioctx.buf.len = ioctx.buf.offset + (ioctx.fileOffset - a)
  /-- the file has been read up to the start of the message or beyond it -/
  le : a ≤ ioctx.fileOffset
  /-- and not beyond its end -/
  inFile : ioctx.fileOffset ≤ file.length
  /-- the capacity is that of the block -/
  capacity : ioctx.buf.capacity = ioctx.buf.data.length
  /-- the message starts at `a` -/
  offset : ioctx.offset = a
  /-- the context ends at `e` -/
  endOffset : ioctx.endOffset = e
  /-- no read came back empty -/
  err : ioctx.err = mboxIOOk
  /-- what is known of the end of the window -/
  fileOffset : P ioctx.fileOffset

/-- A context that is ready has not parsed anything of what its buffer holds. -/
theorem Ready.unparsed {ioctx : MboxIOCtx} (h : Ready file a e P ioctx) :
    Unparsed file ioctx := by
  obtain ⟨hdata, hlen, hle, hin, hcap, hoff, -, -, -⟩ := h
  subst hoff
  exact ⟨hdata, hlen, hle, hin, hcap⟩

/-- Moving what is not parsed to the front of the buffer makes a window of it. -/
theorem prepareBuffer_window {ioctx : MboxIOCtx} (h : Unparsed file ioctx) :
    ∃ buf, prepareBuffer ioctx.buf = ok buf ∧ buf.offset = 0 ∧
      Window file ioctx.offset { ioctx with buf } := by
  obtain ⟨⟨pre, y, rest, hdata, hpre⟩, hbuflen, hle, hin, hcapacity⟩ := h
  generalize ioctx.offset = a at hdata hbuflen hle ⊢
  have hlen := length_slice hle hin
  have hnew : sizeSub ioctx.buf.len ioctx.buf.offset =
      (slice file a ioctx.fileOffset).length := by
    rw [sizeSub_of_le (by omega), hlen]
    omega
  -- in either case the block begins with the bytes that are left
  obtain ⟨buf, y', rest', hmove, hdata', hcap⟩ : ∃ (buf : MboxBuf) (y' : MboxChar)
      (rest' : List MboxChar),
      (∀ f : MboxBuf → Exec MboxBuf,
        (if (slice file a ioctx.fileOffset).length ≠ 0 then
          mboxBufSlice ioctx.buf ioctx.buf.offset 0 (slice file a ioctx.fileOffset).length >>= f
          else f ioctx.buf) = f buf) ∧
      buf.data = slice file a ioctx.fileOffset ++ y' :: rest' ∧
      buf.capacity = buf.data.length := by
    by_cases hzero : (slice file a ioctx.fileOffset).length = 0
    · obtain ⟨y', rest', hcons⟩ : ∃ y' rest', ioctx.buf.data = y' :: rest' := by
        rw [hdata]
        rcases pre with _ | ⟨c, cs⟩
        · rw [List.eq_nil_of_length_eq_zero hzero]
          exact ⟨_, _, rfl⟩
        · exact ⟨_, _, rfl⟩
      refine ⟨_, y', rest', fun f => if_neg (not_not.mpr hzero), ?_, hcapacity⟩
      rw [hcons, List.eq_nil_of_length_eq_zero hzero, List.nil_append]
    · obtain ⟨rest', hslice, hlength⟩ := mboxBufSlice_front pre _ rest hdata
      rw [hpre] at hslice
      exact ⟨_, nul, rest', fun f => by rw [if_pos hzero, hslice, ok_bind], rfl,
        by simp only [hlength, hcapacity]⟩
  have hset := mboxBufSetLen_append _ _ hdata'
  refine ⟨⟨slice file a ioctx.fileOffset ++ nul :: rest', 0,
      (slice file a ioctx.fileOffset).length, buf.capacity⟩, ?_, rfl,
    ⟨⟨rfl, rest', rfl⟩, hle, hin, ?_⟩⟩
  · simp only [prepareBuffer, hnew, pure_eq]
    exact (hmove _).trans (by rw [hset]; rfl)
  · simp only [hcap, hdata', List.length_append, List.length_cons]

/-- Dropping what is parsed leaves a window that starts at the parse position. -/
theorem prepareBuffer_ready {ioctx : MboxIOCtx} (h : Ready file a e P ioctx) :
    ∃ buf, prepareBuffer ioctx.buf = ok buf ∧ buf.offset = 0 ∧
      Scanning file a e P { ioctx with buf } := by
  obtain ⟨buf, hprep, hoff, hwin⟩ := prepareBuffer_window h.unparsed
  have hwin' : ∀ b, ioctx.offset = b → Window file b { ioctx with buf } := by
    rintro b rfl
    exact hwin
  refine ⟨buf, hprep, hoff, hwin' a h.offset, ?_, h.offset, h.endOffset, h.err, h.fileOffset⟩
  rw [hoff]
  exact h.le

/-- What a call has passed of its window is parsed. -/
theorem Window.unparsed {ioctx : MboxIOCtx} (hw : Window file a ioctx)
    (hin : a + ioctx.buf.offset ≤ ioctx.fileOffset) :
    Unparsed file { ioctx with offset := a + ioctx.buf.offset } := by
  obtain ⟨rest, hdata⟩ := hw.holds.data
  have hlen := hw.len_eq
  refine ⟨⟨slice file a (a + ioctx.buf.offset), nul, rest, ?_, ?_⟩, ?_, hin, hw.inFile,
    hw.capacity⟩
  · rw [← List.append_assoc, slice_append_slice (by omega) hin, hdata]
  · rw [length_slice (by omega) (hin.trans hw.inFile), Nat.add_sub_cancel_left]
  · simp only
    omega

/-- A context that has passed the message at `a` and stands at its end. -/
theorem Scanning.ready {ioctx : MboxIOCtx} (h : Scanning file a e P ioctx) :
    Ready file (a + ioctx.buf.offset) e P
      { ioctx with offset := a + ioctx.buf.offset } := by
  obtain ⟨hdata, hlen, hle, hin, hcap⟩ := h.window.unparsed h.inside
  exact ⟨hdata, hlen, hle, hin, hcap, rfl, h.endOffset, h.err, h.fileOffset⟩

/-- The message that is delivered: the bytes of the file between `a` and `b`. -/
structure MboxIOMsg.Covers (msg : MboxIOMsg) (file : List MboxChar) (a b : ℕ) : Prop where
  startOffset : msg.startOffset = a
  endOffset : msg.endOffset = b
  bytes : msg.buf.bytes = slice file a b

/-- Copying out what the search has passed: the message is the part of the file from the start of
the window to the parser. -/
theorem cutMessage_window (fill : ℕ → MboxChar) (ctx : MboxParserCtx) {ioctx : MboxIOCtx}
    (hw : Window file a ioctx) (hin : a + ioctx.buf.offset ≤ ioctx.fileOffset)
    (hoff : ioctx.offset = a) :
    ∃ msg, cutMessage fill ctx a ioctx = ok (msg,
        { ctx with
          err := if ioctx.endOffset ≤ a + ioctx.buf.offset ∨ ioctx.err = mboxIOEof
            then mboxParseDone else ctx.err
          parsed := ctx.parsed + 1
          ioctx := { ioctx with offset := a + ioctx.buf.offset } }) ∧
      msg.Covers file a (a + ioctx.buf.offset) := by
  obtain ⟨rest, hdata⟩ := hw.holds.data
  have hlen := length_slice hw.le hw.inFile
  have hle : ioctx.buf.offset ≤ ioctx.buf.data.length := by
    rw [hdata, List.length_append]
    omega
  obtain ⟨buf, hdup, hholds, -⟩ := mboxBufDupRaw_spec fill hle (Nat.le_add_right _ 9)
  have htake : (slice file a ioctx.fileOffset).take (a + ioctx.buf.offset - a) =
      slice file a (a + ioctx.buf.offset) := take_slice hin
  rw [Nat.add_sub_cancel_left] at htake
  refine ⟨⟨buf, a, a + ioctx.buf.offset⟩, ?_, rfl, rfl, ?_⟩
  · simp only [cutMessage, hdup, ok_bind, pure_eq, hoff]
  · rw [hholds.bytes_eq, hdata, List.take_append_of_le_length (by omega), htake]

section Call

variable {k q : ℕ} {ctx : MboxParserCtx}

/-- The first half of a call: the headers end `k` bytes behind `a`. -/
theorem getNextMessage_headers (fill : ℕ → MboxChar) (h0 : nul ∉ file)
    (hk : headerEnd? (file.drop a) = some k) (hlf : (file.drop a)[k - 2]? = some nl)
    (hP : ∀ fo, P fo → fo < a + k → P (min file.length (fo + mboxIOReadSize)))
    (h : Ready file a e P ctx.ioctx) :
    ∃ buf ioctx, prepareBuffer ctx.ioctx.buf = ok buf ∧
      Converges (fun n => mboxParserCtxSeekHeaders fill (preadRegular file) n
        { ctx.ioctx with buf }) (1, ioctx) ∧
      Scanning file a e P ioctx ∧ ioctx.buf.offset = k := by
  obtain ⟨buf, hprep, hoff, hscan⟩ := prepareBuffer_ready h
  obtain ⟨ioctx, hseek, hscan', hoff'⟩ := seekHeaders_run fill h0 hk hlf hP hscan hoff
  exact ⟨buf, ioctx, hprep, hseek, hscan', hoff'⟩

/-- A call whose searches both succeed delivers what lies between the places they have come to. -/
theorem getNextMessage_cut {buf : MboxBuf} {ioctx ioctx' : MboxIOCtx} {msg : MboxIOMsg}
    {ctx' : MboxParserCtx} (hprep : prepareBuffer ctx.ioctx.buf = ok buf)
    (hheaders : Converges (fun n => mboxParserCtxSeekHeaders fill (preadRegular file) n
      { ctx.ioctx with buf }) (1, ioctx))
    (hseek : Converges (fun n => mboxParserCtxSeekNextFromLine fill (preadRegular file) n ioctx)
      (1, ioctx'))
    (ha : ctx.ioctx.offset = a) (hcut : cutMessage fill ctx a ioctx' = ok (msg, ctx')) :
    Converges (fun n => mboxParserCtxGetNextMessage fill (preadRegular file) n ctx)
      (some msg, ctx') := by
  simp only [mboxParserCtxGetNextMessage, hprep, ok_bind]
  refine Converges.bind hheaders (Converges.bind hseek (Converges.const ?_))
  simp only [ha, hcut, ok_bind, pure_eq, ne_eq, not_true_eq_false, if_false]

/-- **A message is delivered**: its headers end `k` bytes behind `a` and the next From line
stands behind the newline at `q`. -/
theorem getNextMessage_found (fill : ℕ → MboxChar) (h0 : nul ∉ file)
    (hk : headerEnd? (file.drop a) = some k) (hlf : (file.drop a)[k - 2]? = some nl)
    (hkq : a + k ≤ q) (hq : nlFromWord <+: file.drop q) (hqe : q ≤ e)
    (hmin : NoFromBefore file (a + k) q) (hfar : q + 12 ≤ file.length)
    (hP : ∀ fo, P fo → fo ≤ e → P (min file.length (fo + mboxIOReadSize)))
    (hclear : ∀ fo, P fo → e < fo → ∀ p, a + k ≤ p → p ≤ q → file[p]? = some nl →
      fo ≤ p + 10 → p = q ∧ q + 6 ≤ fo)
    (h : Ready file a e P ctx.ioctx) :
    ∃ msg ctx', Converges
        (fun n => mboxParserCtxGetNextMessage fill (preadRegular file) n ctx)
        (some msg, ctx') ∧
      msg.Covers file a (q + 1) ∧ Ready file (q + 1) e P ctx'.ioctx ∧
      ctx'.err = if e ≤ q + 1 then mboxParseDone else ctx.err := by
  obtain ⟨buf, ioctx, hprep, hheaders, hscan, hoff⟩ := getNextMessage_headers fill h0 hk hlf
    (fun fo hfo hlt => hP fo hfo (by omega)) h
  obtain ⟨ioctx', hseek, hscan', hoff'⟩ := seekNextFromLine_found fill hq hqe hmin hfar hP
    hclear hscan (by omega) (by omega)
  obtain ⟨msg, hcut, hmsg⟩ := cutMessage_window fill ctx hscan'.window hscan'.inside
    hscan'.offset
  have hready := hscan'.ready
  have herr : ¬ ioctx'.err = mboxIOEof := by
    rw [hscan'.err]
    decide
  rw [hoff'] at hready hmsg
  refine ⟨msg, _, getNextMessage_cut hprep hheaders hseek h.offset hcut, hmsg, ?_, ?_⟩
  · simpa only [hoff'] using hready
  · simp only [hoff', hscan'.endOffset, herr, or_false]

/-- **A message is lost**: the search for the next From line gives up where the last read of the
context ends, and nothing is delivered. -/
theorem getNextMessage_lost (fill : ℕ → MboxChar) {R p₀ : ℕ} (h0 : nul ∉ file)
    (hk : headerEnd? (file.drop a) = some k) (hlf : (file.drop a)[k - 2]? = some nl)
    (hmin : NoFromBefore file (a + k) e) (he : e < file.length) (heR : e < R)
    (hP : ∀ fo, P fo → fo ≤ e → P (min file.length (fo + mboxIOReadSize)))
    (hR : ∀ fo, P fo → e < fo → fo = R) (hp₀ : file[p₀]? = some nl)
    (hkp : a + k ≤ p₀) (hp₀e : p₀ ≤ e) (hnear₀ : R ≤ p₀ + 10) (hp₀R : ¬ (p₀ = e ∧ e + 6 ≤ R))
    (h : Ready file a e P ctx.ioctx) :
    ∃ ctx', Converges (fun n => mboxParserCtxGetNextMessage fill (preadRegular file) n ctx)
      (none, ctx') := by
  obtain ⟨buf, ioctx, hprep, hheaders, hscan, hoff⟩ := getNextMessage_headers fill h0 hk hlf
    (fun fo hfo hlt => hP fo hfo (by omega)) h
  obtain ⟨ioctx', hseek⟩ := seekNextFromLine_lost fill hmin he heR hP hR hp₀ hp₀e hnear₀ hp₀R
    hscan (by omega) (by omega)
  refine ⟨{ ctx with ioctx := ioctx' }, ?_⟩
  simp only [mboxParserCtxGetNextMessage, hprep, ok_bind]
  exact Converges.bind hheaders (Converges.bind hseek (Converges.const rfl))

/-- **The last message**: the search for another one stops at the end of the file, so it ends
shortly in front of that. -/
theorem getNextMessage_eof (fill : ℕ → MboxChar) (h0 : nul ∉ file)
    (hk : headerEnd? (file.drop a) = some k) (hlf : (file.drop a)[k - 2]? = some nl)
    (hno : ∀ p, a + k ≤ p → ¬ nlFromWord <+: file.drop p) (hkN : a + k < file.length)
    (he : file.length ≤ e) (hP : ∀ fo, P fo → P (min file.length (fo + mboxIOReadSize)))
    (hlast : file[file.length - 1]? = some nl) (h : Ready file a e P ctx.ioctx) :
    ∃ msg ctx' b, Converges
        (fun n => mboxParserCtxGetNextMessage fill (preadRegular file) n ctx)
        (some msg, ctx') ∧
      msg.Covers file a b ∧ a + k ≤ b ∧ b < file.length ∧ ctx'.err = mboxParseDone := by
  obtain ⟨buf, ioctx, hprep, hheaders, hscan, hoff⟩ := getNextMessage_headers fill h0 hk hlf
    (fun fo hfo _ => hP fo hfo) h
  obtain ⟨ioctx', hseek, hwin, hoffset, herr, hfo, hle, hlt⟩ := seekNextFromLine_eof fill hno he
    hP hlast hscan (by omega) (by omega)
  obtain ⟨msg, hcut, hmsg⟩ := cutMessage_window fill ctx hwin (by omega) hoffset
  exact ⟨msg, _, _, getNextMessage_cut hprep hheaders hseek h.offset hcut, hmsg, hle, hlt,
    if_pos (Or.inr herr)⟩

end Call

end Libmbox2
