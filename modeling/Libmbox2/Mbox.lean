import Libmbox2.Parser

/-!
# Splitting a file over contexts (`mbox.c`)

With `n` workers the file is cut into `n` chunks of the same size. Each context seeks
back from the start of its chunk to a From line and ends where the next context starts;
a context that would parse nothing is dropped. Then every context gets its messages.

The seeks and the contexts' loops are jobs of the io pool, and
`mboxWorkerPoolWait` stands behind both. Each job works on its own context and only
reads from the file, so they are run one after the other here.
-/

namespace Libmbox2

open CSem CSem.Exec

section Functions

variable (fill : ℕ → MboxChar) (pread : Pread)

/-! ## The ranges of the contexts -/

/-- The first loop of `mboxSetAllOffsets`: context `i`, in front of its seek. -/
def initCtx (fileSize chunkSize i : ℕ) : MboxParserCtx :=
  let ctx := mboxParserCtxInit fill i fileSize
  let offset := i * chunkSize
  { ctx with ioctx := { ctx.ioctx with startOffset := offset, offset, fileOffset := offset } }

/-- Set the last one's offset to the length of the file. -/
def setLastOffset (ctx : MboxParserCtx) : MboxParserCtx :=
  { ctx with ioctx := { ctx.ioctx with
    endOffset := ctx.ioctx.fileSize, offset := ctx.ioctx.startOffset } }

/-- The second loop: a context ends where the next one starts, and the offset which is
used for bookending messages is reset, from context `1` on. `prev` is the context the
loop has come to. -/
def setOffsets (prev : MboxParserCtx) : List MboxParserCtx → List MboxParserCtx
  | [] => [setLastOffset prev]
  | ctx :: ctxs =>
    { prev with ioctx := { prev.ioctx with endOffset := ctx.ioctx.startOffset } } ::
      setOffsets { ctx with ioctx := { ctx.ioctx with offset := ctx.ioctx.startOffset } } ctxs

/-- The third loop: filter out any contexts that would have parsed nothing and number
the others. -/
def filterContexts (ctxs : List MboxParserCtx) : List MboxParserCtx :=
  (ctxs.filter fun ctx => ctx.ioctx.startOffset < ctx.ioctx.endOffset).mapIdx
    fun nonNull ctx => { ctx with id := nonNull }

/-- The contexts in front of the filter: each one has sought the start of its range, one after the
other here, and their ends are set. -/
def mboxSeekAllOffsets (fuel fileSize ioThreadCount : ℕ) : Exec (List MboxParserCtx) := do
  let chunkSize := fileSize / ioThreadCount
  let ctxs ← ((List.range ioThreadCount).map (initCtx fill fileSize chunkSize)).mapM
    (mboxParserCtxSeekStart fill pread fuel)
  match ctxs with
  | [] => pure []
  | ctx :: ctxs => pure (setOffsets ctx ctxs)

/-- The contexts that are gone through. The seeks are jobs of a pool in the source; as each only
uses its own context, their order makes no difference. -/
def mboxSetAllOffsets (fuel fileSize ioThreadCount : ℕ) : Exec (List MboxParserCtx) := do
  let ctxs ← mboxSeekAllOffsets fill pread fuel fileSize ioThreadCount
  pure (filterContexts ctxs)

/-! ## The messages of the contexts -/

/-- One iteration of `mboxParserCtxGetNextMessageCallback`; `msgs` are the messages
enqueued so far. -/
def getNextMessageCallbackStep (fuel : ℕ) (s : MboxParserCtx × List MboxIOMsg) :
    Exec (MboxParserCtx × List MboxIOMsg ⊕ List MboxIOMsg) := do
  let (msg, ctx) ← mboxParserCtxGetNextMessage fill pread fuel s.1
  match msg with
  | none => pure (.inr s.2)
  | some msg =>
    if ctx.err = mboxParseDone then pure (.inr (s.2 ++ [msg]))
    else pure (.inl (ctx, s.2 ++ [msg]))

/-- The messages a context delivers, in the order in which they are enqueued. -/
def mboxParserCtxGetNextMessageCallback (fuel : ℕ) (ctx : MboxParserCtx) :
    Exec (List MboxIOMsg) :=
  loop (getNextMessageCallbackStep fill pread fuel) fuel (ctx, [])

/-- The messages of the whole file, context by context; in the source each context is a job. -/
def mboxParseAllMessages (fuel : ℕ) (ctxs : List MboxParserCtx) : Exec (List MboxIOMsg) := do
  let msgs ← ctxs.mapM (mboxParserCtxGetNextMessageCallback fill pread fuel)
  pure msgs.flatten

/-- The sequential program: the contexts are set up, sought and read one after the other. What it
delivers is what the threads have to deliver in some order. -/
def mboxMain (fuel fileSize ioThreadCount : ℕ) : Exec (List MboxIOMsg) := do
  let ctxs ← mboxSetAllOffsets fill pread fuel fileSize ioThreadCount
  mboxParseAllMessages fill pread fuel ctxs

end Functions

end Libmbox2
