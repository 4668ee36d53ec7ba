import Libmbox2.HeaderNames
import Libmbox2.Parser

/-!
# Parsing the headers of a message (`mboxParseEmailHeaders`)

The parser collects the name of a header in one buffer and its value in another, puts copies
of both into a tree and empties the buffers. A line that begins with `From ` is collected in
the buffer for the name, which is not emptied before the name of the next header goes into
it.

The message is read at `buf->offset`; nothing else of it changes, so the steps pass the
offset. Collecting bytes up to one of a kind is one function (`putUntil`).
-/

namespace Libmbox2

open CSem CSem.Exec

/-- `isLine`: a byte of a line ending. -/
def isLine (ch : MboxChar) : Bool := ch == cr || ch == nl

/-- A tree of headers, whose keys and values are buffers of their own. -/
abbrev HeaderHeap : Type := Heap (RbNode MboxBuf MboxBuf)

section Functions

variable (fill : ℕ → MboxChar)

/-- `mboxBufMatchFromLine`: the text from the offset on begins a From line. -/
def mboxBufMatchFromLine (data : List MboxChar) (offset : ℕ) : Exec Bool :=
  matchAt fromWord (data.drop offset)

/-- `mboxBufMatchChar`: the byte at the offset is the given one. -/
def mboxBufMatchChar (data : List MboxChar) (offset : ℕ) (ch : MboxChar) : Exec Bool := do
  let c ← load data offset
  pure (c = ch)

/-- `mboxBufGetChar`: the byte at a place, which has to be in the block. -/
def mboxBufGetChar (buf : MboxBuf) (offset : ℕ) : Exec MboxChar :=
  if buf.len < offset then pure nul else load buf.data offset

/-- `mboxBufIsMimeEncoded`: the buffer begins with `=?utf-8?Q?` and ends with `?=`. The end is read
even where the length is less than two. -/
def mboxBufIsMimeEncoded (buf : MboxBuf) : Exec Bool := do
  if ← matchAt (str "=?utf-8?Q?") buf.data then
    -- in front of the block the suffix is not looked for
    if buf.len < 2 then fault else matchAt (str "?=") (buf.data.drop (buf.len - 2))
  else pure false

/-- `memcpy(tmp, buf + 10, len - 10 - 2)`: as `buf` is a pointer to the structure, the bytes are
taken from ten structures behind it, which is outside of the object for any number of bytes but
`0`. Where none are copied `tmp` begins with the NUL behind them, so nothing is decoded and the
new buffer is empty. -/
def mboxBufDecodeMimeEncoded (buf : MboxBuf) : Exec MboxBuf :=
  if sizeSub (sizeSub buf.len 10) 2 ≠ 0 then fault else
    mboxBufSetLen (mboxBufAlloc fill 512) 0

/-- A byte is kept unless it is one of those to skip. -/
def putUnless (skip : Bool) (out : MboxBuf) (ch : MboxChar) : Exec MboxBuf :=
  if skip then pure out else mboxBufPutChar fill out ch

/-- The bytes up to `stop` go to the end of `out`, but for those to be skipped; the result is
how many they are. -/
def putUntil (stop : MboxChar) (skip : MboxChar → Bool) :
    List MboxChar → MboxBuf → Exec (ℕ × MboxBuf)
  | [], _ => fault
  | ch :: d, out =>
    if ch = stop then pure (0, out) else do
    let out ← putUnless fill (skip ch) out ch
    let (k, out) ← putUntil stop skip d out
    pure (k + 1, out)

/-- What the parser works on: the offset in the message, the two buffers, the tree. -/
structure HeaderCtx where
  offset : ℕ
  key : MboxBuf
  value : MboxBuf
  h : HeaderHeap
  headers : MboxRBTree

variable (buf : MboxBuf)

/-- A line that begins with `From ` goes into the tree under a name of its own. -/
def parseFromLine (fuel : ℕ) (ctx : HeaderCtx) : Exec HeaderCtx := do
  if !(← mboxBufMatchFromLine buf.data ctx.offset) then pure ctx else do
  let (k, key) ← putUntil fill nl (· == cr) (buf.data.drop ctx.offset) ctx.key
  let name ← mboxBufDupRaw fill (str "__FROM_LINE__" ++ [nul]) 13 14
  let value ← mboxBufDup fill key
  let (h, headers) ← mboxRBTreeInsert mboxBufCaseCmp ctx.h ctx.headers fuel name (some value)
  pure { ctx with offset := ctx.offset + k + 1, key, h, headers }

/-- The name of a header up to its colon, and the `": "` behind it, which is passed over without
looking. -/
def parseHeaderName (ctx : HeaderCtx) : Exec HeaderCtx := do
  let (k, key) ← putUntil fill colon (fun _ => false) (buf.data.drop ctx.offset) ctx.key
  pure { ctx with offset := ctx.offset + k + 2, key }

/-- A line of the value; it goes on while the next line begins with a blank. -/
def parseHeaderValueStep (ctx : HeaderCtx) : Exec (HeaderCtx ⊕ HeaderCtx) := do
  let (k, value) ←
    putUntil fill nl (fun ch => ch == cr || ch == tab) (buf.data.drop ctx.offset) ctx.value
  let ctx := { ctx with offset := ctx.offset + k + 1, value }
  if ← mboxBufMatchChar buf.data ctx.offset space then pure (.inl ctx)
  else if ← mboxBufMatchChar buf.data ctx.offset tab then pure (.inl ctx)
  else pure (.inr ctx)

/-- What is stored of a value: a copy of it, or what is decoded from it where it is an encoded
word. -/
def headerValue (value : MboxBuf) : Exec MboxBuf := do
  if ← mboxBufIsMimeEncoded value then mboxBufDecodeMimeEncoded fill value
  else mboxBufDup fill value

/-- Copies of the name and of the value go into the tree, and the buffers are emptied. -/
def storeHeader (fuel : ℕ) (ctx : HeaderCtx) : Exec HeaderCtx := do
  let name ← mboxBufDup fill ctx.key
  let value ← headerValue fill ctx.value
  let (h, headers) ← mboxRBTreeInsert mboxBufCaseCmp ctx.h ctx.headers fuel name (some value)
  let key ← mboxBufSlice ctx.key 0 0 0
  let value ← mboxBufSlice ctx.value 0 0 0
  pure { ctx with key, value, h, headers }

/-- Where there is an empty line, the headers end behind it and all that follow. -/
def endHeaders (ctx : HeaderCtx) : Exec (HeaderCtx ⊕ HeaderCtx) := do
  let ch ← mboxBufGetChar buf ctx.offset
  if isLine ch then do
    -- what is read behind the NUL is taken for a NUL
    let offset ← scanWithin (fun ch => !isLine ch) buf.data (buf.len + 1) ctx.offset
    pure (.inr { ctx with offset })
  else pure (.inl ctx)

/-- A header from its name on: the name, the value over all its lines, the entry in the dictionary,
and the test for the end of the headers. -/
def parseHeader (fuel : ℕ) (ctx : HeaderCtx) : Exec (HeaderCtx ⊕ HeaderCtx) := do
  let ctx ← parseHeaderName fill buf ctx
  let ctx ← loop (parseHeaderValueStep fill buf) fuel ctx
  let ctx ← storeHeader fill fuel ctx
  endHeaders buf ctx

/-- One iteration of `mboxParseEmailHeaders`, for one header. A From line is stored first and its
name left in the key buffer. -/
def parseEmailHeadersStep (fuel : ℕ) (ctx : HeaderCtx) : Exec (HeaderCtx ⊕ HeaderCtx) :=
  if ¬ ctx.offset < buf.len then pure (.inr ctx) else do
  let ctx ← parseFromLine fill buf fuel ctx
  parseHeader fill buf fuel ctx

/-- The tree of the headers, and the message at the offset behind them. -/
def mboxParseEmailHeaders (h : HeaderHeap) (fuel : ℕ) :
    Exec (HeaderHeap × MboxRBTree × MboxBuf) := do
  let key := mboxBufAlloc fill 3000
  let value := mboxBufAlloc fill 3000
  let (h, headers) ← rbTreeNew h
  let k ← scanUntil (fun ch => !isLine ch) (buf.data.drop buf.offset)
  let ctx ← loop (parseEmailHeadersStep fill buf fuel) fuel
    ⟨buf.offset + k, key, value, h, headers⟩
  pure (ctx.h, ctx.headers, mboxBufSetOffset buf ctx.offset)

end Functions

end Libmbox2
