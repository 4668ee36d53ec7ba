import Libmbox2.Io

/-!
# Getting the messages of a context (`mbox-parser.c`)

A context is first moved back to where a message starts (`mboxParserCtxSeekStart`). It
then walks over its part of the file and cuts it into messages. For each message
`mboxParserCtxSeekHeaders` looks for the empty line behind the headers,
`mboxParserCtxSeekNextFromLine` for the next line that begins with `From `; both read
more of the file when the buffer does not hold it yet. What lies in front of the From
line is copied out, and the next call starts by moving the rest of the buffer to its
front.

The functions that only touch `ctx->ioctx` take and return that. `loop` bounds the
number of iterations by the fuel; the scans inside an iteration end by themselves.
-/

namespace Libmbox2

open CSem CSem.Exec

/-- `"From "`, with which the first line of a message begins. -/
def fromWord : List MboxChar := [70, 114, 111, 109, 32]

/-- `"\nFrom "`, with which every message but the first one does. -/
def nlFromWord : List MboxChar := nl :: fromWord

/-- `MBOX_PARSE_DONE`, the range of the context has been read. -/
abbrev mboxParseDone : Int := 1

/-- `struct mboxIOMsg`: a message as it is cut out of the file. -/
structure MboxIOMsg where
  /-- full message from its From line to the start of the next one -/
  buf : MboxBuf
  /-- where the message starts in the file -/
  startOffset : ℕ
  /-- where the message ends in the file -/
  endOffset : ℕ
  deriving DecidableEq, Repr

/-- `struct mboxParserCtx`: a range of the file that one job goes through, with its own buffer, and
the error or the end that it has come to. -/
structure MboxParserCtx where
  /-- id of the context -/
  id : ℕ
  /-- error code, `0` is all good -/
  err : Int
  /-- how many messages this context has passed -/
  parsed : ℕ
  /-- file context that we are parsing -/
  ioctx : MboxIOCtx
  deriving DecidableEq, Repr

/-- A new context, with the buffer of `mboxIONew` and no error. -/
def mboxParserCtxInit (fill : ℕ → MboxChar) (id fileSize : ℕ) : MboxParserCtx where
  id := id
  err := mboxIOOk
  parsed := 0
  ioctx := mboxIONew fill fileSize

/-! ## The start of a message -/

section SeekStart

variable (fill : ℕ → MboxChar) (pread : Pread)

/-- `offset - jumpsize < 0 ? 0 : offset - jumpsize` -/
def jumpBack (offset : ℕ) : ℕ := offset - mboxIOReadSize

/-- The window of the file from `offset` on has been read: look for the pattern in it. -/
def seekStartScan (offset : ℕ) : Int × MboxIOCtx → Exec (ℕ × MboxIOCtx ⊕ MboxIOCtx)
  | (rbytes, ioctx) =>
    if rbytes = 0 ∨ ioctx.err ≠ 0 then pure (.inr ioctx) else do
    let pattern := if ioctx.fileOffset ≠ 0 then nlFromWord else fromWord
    match ← scanMatch pattern ioctx.buf.data ioctx.buf.len 0 with
    | some idx => pure (.inr { ioctx with startOffset := offset + idx })
    | none => pure (.inl (offset, ioctx))

/-- One iteration of `mboxParserCtxSeekStart`: the search goes one window back, reads it, and looks
for the pattern in it. -/
def seekStartStep : ℕ × MboxIOCtx → Exec (ℕ × MboxIOCtx ⊕ MboxIOCtx)
  | (offset, ioctx) =>
    mboxIORead fill pread ioctx mboxIOReadSize 0 (jumpBack offset) >>=
      seekStartScan (jumpBack offset)

/-- Go backwards, one window at a time, until the pattern of a From line is found; the range of the
context begins there. At the start of the file the pattern has no newline in front. -/
def mboxParserCtxSeekStart (fuel : ℕ) (ctx : MboxParserCtx) : Exec MboxParserCtx := do
  let ioctx ← loop (seekStartStep fill pread) fuel (ctx.ioctx.fileOffset, ctx.ioctx)
  let buf ← mboxBufSetLen ioctx.buf 0
  pure { ctx with ioctx := { ioctx with
    buf := mboxBufSetOffset buf 0, fileOffset := ioctx.startOffset } }

end SeekStart

/-! ## The end of the headers -/

/-- The loop of `mboxBufCanParseHeaders` on the block `data`: whether the end of the
headers was found, and where the scan stands. -/
def canParseHeadersFrom (data : List MboxChar) (len offset : ℕ) : Exec (Bool × ℕ) :=
  if offset < len then do
    -- advance until we meet either a '\n' or a '\0'
    let k ← scanUntil (fun c => c == nl || c == nul) (data.drop offset)
    let c1 ← load data (offset + k)
    if c1 = nul then pure (false, offset + k) else
    let c2 ← load data (offset + k + 1)
    if c2 = nul then pure (false, offset + k) else
    let c3 ← load data (offset + k + 2)
    if c1 = nl ∧ c2 = nl then pure (true, offset + k + 2)
    else if c1 = nl ∧ c2 = cr ∧ c3 = nl then pure (true, offset + k + 3)
    else canParseHeadersFrom data len (offset + k + 1)
  else pure (false, offset)
termination_by len - offset

/-- Whether the end of the headers is in the buffer, searched from the parse position on; that is
moved to where the scan has come to. -/
def mboxBufCanParseHeaders (buf : MboxBuf) : Exec (Bool × MboxBuf) := do
  let (found, offset) ← canParseHeadersFrom buf.data buf.len buf.offset
  pure (found, mboxBufSetOffset buf offset)

section Functions

variable (fill : ℕ → MboxChar) (pread : Pread)

/-- One iteration of `mboxParserCtxSeekHeaders`: the buffer is scanned, and more of the file is read
where the scan has come to its end. -/
def seekHeadersStep (ioctx : MboxIOCtx) : Exec (MboxIOCtx ⊕ Int × MboxIOCtx) := do
  let (found, buf) ← mboxBufCanParseHeaders ioctx.buf
  let ioctx := { ioctx with buf }
  if found then pure (.inr (1, ioctx)) else
  let c ← load buf.data 0
  if c = nul ∨ buf.len ≤ buf.offset + 1 then
    let (rbytes, ioctx) ← mboxIORead fill pread ioctx mboxIOReadSize buf.len ioctx.fileOffset
    if rbytes = 0 ∨ ioctx.err ≠ 0 then pure (.inr (0, ioctx))
    else pure (.inl { ioctx with fileOffset := ioctx.fileOffset + rbytes.toNat })
  else pure (.inl ioctx)

/-- From a `From ` line find the end of the headers, reading in more of the file if
required. -/
def mboxParserCtxSeekHeaders (fuel : ℕ) (ioctx : MboxIOCtx) : Exec (Int × MboxIOCtx) :=
  loop (seekHeadersStep fill pread) fuel ioctx

/-! ## The next From line -/

/-- This seems to be more robust, looking for `\nFrom `. -/
def mboxIsFromLine (s : List MboxChar) : Exec Bool := matchAt nlFromWord s

/-- One iteration of `mboxParserCtxSeekNextFromLine`, which goes one line at a time. -/
def seekNextFromLineStep (ioctx : MboxIOCtx) : Exec (MboxIOCtx ⊕ Int × MboxIOCtx) := do
  let buf := ioctx.buf
  let offset ← scanWithin (fun c => c == nl) buf.data buf.len buf.offset
  let isFrom ← mboxIsFromLine (buf.data.drop offset)
  if isFrom then
    pure (.inr (1, { ioctx with buf := mboxBufSetOffset buf (offset + 1) })) else
  let ioctx := { ioctx with buf := mboxBufSetOffset buf offset }
  if buf.len ≤ offset + 10 then
    if ioctx.endOffset < ioctx.fileOffset then pure (.inr (0, ioctx)) else
    let (rbytes, ioctx) ← mboxIORead fill pread ioctx mboxIOReadSize buf.len ioctx.fileOffset
    if rbytes = 0 ∧ ioctx.err = mboxIOEof then pure (.inr (1, ioctx))
    else if ioctx.err ≠ 0 then pure (.inr (ioctx.err, ioctx))
    -- the offset is decremented here and incremented below
    else pure (.inl { ioctx with fileOffset := ioctx.fileOffset + rbytes.toNat })
  else pure (.inl { ioctx with buf := mboxBufSetOffset buf (offset + 1) })

/-- Go forwards, one line at a time, to the next From line, or to the end of the range or of the
file. -/
def mboxParserCtxSeekNextFromLine (fuel : ℕ) (ioctx : MboxIOCtx) : Exec (Int × MboxIOCtx) :=
  loop (seekNextFromLineStep fill pread) fuel ioctx

/-! ## Messages -/

/-- Drop what is parsed and move what is not to the start of the buffer. -/
def prepareBuffer (buf : MboxBuf) : Exec MboxBuf := do
  let newlen := sizeSub buf.len buf.offset
  let buf ← if newlen ≠ 0 then mboxBufSlice buf buf.offset 0 newlen else pure buf
  let buf ← mboxBufSetLen buf newlen
  pure (mboxBufSetOffset buf 0)

/-- The end of `mboxParserCtxGetNextMessage`: what the search has passed is the message. -/
def cutMessage (ctx : MboxParserCtx) (msgStart : ℕ) (ioctx : MboxIOCtx) :
    Exec (MboxIOMsg × MboxParserCtx) := do
  let ioctx := { ioctx with offset := ioctx.offset + ioctx.buf.offset }
  let err := if ioctx.endOffset ≤ ioctx.offset ∨ ioctx.err = mboxIOEof then mboxParseDone
    else ctx.err
  let fullMsg ← mboxBufDupRaw fill ioctx.buf.data ioctx.buf.offset ioctx.buf.offset
  pure (⟨fullMsg, msgStart, ioctx.offset⟩, { ctx with err, parsed := ctx.parsed + 1, ioctx })

/-- Scan from the current From line up to but not including the next `F`. -/
def mboxParserCtxGetNextMessage (fuel : ℕ) (ctx : MboxParserCtx) :
    Exec (Option MboxIOMsg × MboxParserCtx) := do
  let msgStart := ctx.ioctx.offset
  let buf ← prepareBuffer ctx.ioctx.buf
  let (found, ioctx) ← mboxParserCtxSeekHeaders fill pread fuel { ctx.ioctx with buf }
  if found ≠ 1 then pure (none, { ctx with ioctx }) else
  let (found, ioctx) ← mboxParserCtxSeekNextFromLine fill pread fuel ioctx
  if found ≠ 1 then pure (none, { ctx with ioctx }) else
  let (msg, ctx) ← cutMessage fill ctx msgStart ioctx
  pure (some msg, ctx)

end Functions

end Libmbox2
