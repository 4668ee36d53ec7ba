import Libmbox2.Headers

/-!
# Lite messages (`mboxMsgLiteFromBuffer`)

What is kept of a message: the values of some headers, a preview of the body and where the
message is in its file. A timestamp is taken from the date; reading a date and `mktime` are a
parameter, `dateToUnix`, which gives `none` where no hour is read.

Where the sender is missing the code also prints the names of the headers, which changes
nothing.
-/

namespace Libmbox2

open CSem CSem.Exec

/-- `MBOX_BUF_PREVIEW_LEN`, the bytes of a preview. -/
def mboxBufPreviewLen : ℕ := 420

/-- `struct _mboxMsgLite`: what is kept of a message in memory, with the place of the message in the
file. -/
structure MboxMsgLite where
  msgId : Option MboxBuf
  /-- the value of the header `From` -/
  sender : Option MboxBuf
  subject : Option MboxBuf
  date : Option MboxBuf
  preview : MboxBuf
  fromLine : Option MboxBuf
  unixTimestamp : Int
  /-- `start` -/
  startOffset : ℕ
  /-- `end` -/
  endOffset : ℕ
  deriving DecidableEq, Repr

/-- `MBOX_HEADER_FROM_LINE`, the number of the From line. -/
abbrev mboxHeaderFromLine : ℕ := 0

/-- `MBOX_HEADER_FROM`, the number of the sender. -/
abbrev mboxHeaderFrom : ℕ := 3

/-- `MBOX_HEADER_DATE`, the number of the date. -/
abbrev mboxHeaderDate : ℕ := 4

/-- `MBOX_HEADER_SUBJECT`, the number of the subject. -/
abbrev mboxHeaderSubject : ℕ := 6

/-- `MBOX_HEADER_MSG_ID`, the number of the message's identifier. -/
abbrev mboxHeaderMsgId : ℕ := 7

/-- A heap with the static sentinel alone, before there is a tree. -/
def headerHeapNew : HeaderHeap := ⟨[some ⟨none, none, .red, none, none, none⟩]⟩

section Functions

variable (fill : ℕ → MboxChar) (dateToUnix : List MboxChar → Exec (Option Int))

/-- `mboxBufMaybeDup`: a copy of a header's value, when there is one. -/
def mboxBufMaybeDup (buf : Option MboxBuf) : Exec (Option MboxBuf) :=
  match buf with
  | some buf => do
    let dupe ← mboxBufDup fill buf
    pure (some dupe)
  | none => pure none

/-- `0` where there is no date or no hour in it. -/
def msgLiteTimestamp (date : Option MboxBuf) : Exec Int :=
  match date with
  | some date => do
    let timestamp ← dateToUnix date.data
    pure (timestamp.getD 0)
  | none => pure 0

/-- The tree of the headers is built on a heap of its own, and released. -/
def mboxMsgLiteFromBuffer (fuel : ℕ) (buf : MboxBuf) (startOffset endOffset : ℕ) :
    Exec MboxMsgLite := do
  let (h, headers, buf) ← mboxParseEmailHeaders fill buf headerHeapNew fuel
  let sender ← mboxHeadersGet h headers fuel mboxHeaderFrom
  let subject ← mboxHeadersGet h headers fuel mboxHeaderSubject
  let date ← mboxHeadersGet h headers fuel mboxHeaderDate
  let msgId ← mboxHeadersGet h headers fuel mboxHeaderMsgId
  let preview ←
    mboxBufDupRaw fill (buf.data.drop buf.offset) mboxBufPreviewLen mboxBufPreviewLen
  let fromLine ← mboxHeadersGet h headers fuel mboxHeaderFromLine
  let unixTimestamp ← msgLiteTimestamp dateToUnix date
  let msgId ← mboxBufMaybeDup fill msgId
  let sender ← mboxBufMaybeDup fill sender
  let subject ← mboxBufMaybeDup fill subject
  let date ← mboxBufMaybeDup fill date
  let fromLine ← mboxBufMaybeDup fill fromLine
  pure { msgId, sender, subject, date, preview, fromLine, unixTimestamp, startOffset, endOffset }

end Functions

variable {fill : ℕ → MboxChar} {dateToUnix : List MboxChar → Exec (Option Int)} {n : ℕ}
  {buf : MboxBuf} {startOffset endOffset : ℕ} {msg : MboxMsgLite}

/-- A message is where the caller of `mboxMsgLiteFromBuffer` says it is. -/
theorem mboxMsgLiteFromBuffer_offsets
    (h : mboxMsgLiteFromBuffer fill dateToUnix n buf startOffset endOffset = ok msg) :
    msg.startOffset = startOffset ∧ msg.endOffset = endOffset := by
  rw [mboxMsgLiteFromBuffer] at h
  iterate 13
    obtain ⟨_, -, h⟩ := bind_eq_ok h
  obtain rfl := Exec.ok.inj h
  exact ⟨rfl, rfl⟩

/-! ## More fuel does no harm -/

theorem mboxHeadersGet_mono (h : HeaderHeap) (headers : MboxRBTree) (header : ℕ) :
    FuelMono fun n => mboxHeadersGet h headers n header := by
  simp only [mboxHeadersGet]
  cases mboxExpectedHeaders[header]? with
  | none => exact FuelMono.const _
  | some key => exact (FuelMono.loop ..).bind fun _ => FuelMono.const _

theorem storeHeader_mono (ctx : HeaderCtx) : FuelMono fun n => storeHeader fill n ctx := by
  refine (FuelMono.const _).bind fun name => (FuelMono.const _).bind fun value => ?_
  exact (mboxRBTreeInsert_mono ..).bind fun _ => FuelMono.const _

theorem parseFromLine_mono (buf : MboxBuf) (ctx : HeaderCtx) :
    FuelMono fun n => parseFromLine fill buf n ctx := by
  refine (FuelMono.const _).bind fun isFrom => FuelMono.ite (FuelMono.const _) ?_
  refine (FuelMono.const _).bind fun r => (FuelMono.const _).bind fun name => ?_
  refine (FuelMono.const _).bind fun value => ?_
  exact (mboxRBTreeInsert_mono ..).bind fun _ => FuelMono.const _

theorem parseEmailHeadersStep_mono (buf : MboxBuf) (ctx : HeaderCtx) :
    FuelMono fun n => parseEmailHeadersStep fill buf n ctx := by
  refine FuelMono.ite (FuelMono.const _) ((parseFromLine_mono buf ctx).bind fun ctx => ?_)
  refine (FuelMono.const _).bind fun ctx => (FuelMono.loop ..).bind fun ctx => ?_
  exact (storeHeader_mono ctx).bind fun _ => FuelMono.const _

theorem mboxParseEmailHeaders_mono (buf : MboxBuf) (h : HeaderHeap) :
    FuelMono fun n => mboxParseEmailHeaders fill buf h n := by
  refine (FuelMono.const _).bind fun r => (FuelMono.const _).bind fun k => ?_
  exact (FuelMono.loopBody (parseEmailHeadersStep_mono buf) _).bind fun _ => FuelMono.const _

/-- A message that is made with some fuel is made with any more. -/
theorem mboxMsgLiteFromBuffer_mono (buf : MboxBuf) (startOffset endOffset : ℕ) :
    FuelMono fun n => mboxMsgLiteFromBuffer fill dateToUnix n buf startOffset endOffset := by
  refine (mboxParseEmailHeaders_mono buf _).bind fun r => ?_
  refine (mboxHeadersGet_mono ..).bind fun sender => (mboxHeadersGet_mono ..).bind fun subject => ?_
  refine (mboxHeadersGet_mono ..).bind fun date => (mboxHeadersGet_mono ..).bind fun msgId => ?_
  refine (FuelMono.const _).bind fun preview => (mboxHeadersGet_mono ..).bind fun fromLine => ?_
  exact FuelMono.const _

end Libmbox2
