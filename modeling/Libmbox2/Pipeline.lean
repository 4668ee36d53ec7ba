import Libmbox2.Callbacks
import Libmbox2.LinkedList
import Libmbox2.Mbox
import Libmbox2.MsgLite

/-!
# Two pools at work (`mboxMain`, with its threads)

The main thread enqueues the seeks in the io pool and waits for them, enqueues the contexts and
waits for these, and waits for the parse pool. A worker of the io pool that goes through a context
enqueues every message in the parse pool, where it is made into a lite message and put into
`completed_parse`. A step of the whole is a step of one of the pools, together with what a callback
does up to there: between two critical sections it works on its own context, or on a message
that nobody else has.

There are `n + 1` workers in each pool; the size of the file is divided by their number.
-/

namespace Libmbox2

open CSem CSem.Exec

/-- `mboxParserCtxSeekStartCallback`, as the number of a callback: a context seeks where it
starts. -/
def seekStartCallback : ℕ := 0

/-- `mboxParserCtxGetNextMessageCallback`: a context delivers its messages. -/
def getNextMessageCallback : ℕ := 1

/-- `mboxIOMsgParseCallback`: a message is parsed and kept. -/
def ioMsgParseCallback : ℕ := 2

/-- Where the main thread stands in `mboxMain`: in one of its loops, in a wait for a pool, or behind
the last one. -/
inductive MainPc where
  /-- in the first loop of `mboxSetAllOffsets`, in front of context `i` -/
  | seeking (i : ℕ)
  /-- in `mboxWorkerPoolWait`, for the seeks -/
  | seekWait
  /-- in the loop of `mboxParseAllMessages`, in front of context `i` -/
  | reading (i : ℕ)
  /-- in `mboxWorkerPoolWait`, for the io pool -/
  | ioWait
  /-- between the two calls of `mboxWorkerPoolWait` -/
  | ioDone
  /-- in `mboxWorkerPoolWait`, for the parse pool -/
  | parseWait
  | returned
  deriving DecidableEq, Repr

/-- `struct mbox`, and the threads. A job of the io pool has the number of a context as its
argument, a job of the parse pool the number of a message. -/
structure MboxThreads (n : ℕ) where
  main : MainPc
  /-- `io_pool` -/
  io : CallbackPool (Fin (n + 1)) Unit
  /-- `parse_pool`, where the workers of the other pool enqueue -/
  parse : CallbackPool (Fin (n + 1)) (Fin (n + 1))
  contexts : List MboxParserCtx
  /-- the messages that were enqueued -/
  messages : List MboxIOMsg
  heap : Heap (MboxLNode MboxMsgLite)
  /-- `completed_parse` -/
  completedParse : MboxList

/-- A step of one of the threads: in the io pool, in the parse pool, or one that concerns both. -/
inductive MboxAction (n : ℕ) where
  | io (a : CallbackAction (Fin (n + 1)) Unit)
  | parse (a : CallbackAction (Fin (n + 1)) (Fin (n + 1)))
  /-- a context delivers a message, the last one or not, and it is enqueued -/
  | message (w : Fin (n + 1)) (job : MboxWorkerJob) (last : Bool) (msg : MboxIOMsg)
      (parseJob : MboxWorkerJob)
  /-- a message is parsed, and kept -/
  | lite (w : Fin (n + 1)) (job : MboxWorkerJob) (lite : MboxMsgLite)

namespace MboxAction

variable {n : ℕ}

/-- What a worker of the io pool does when its context has delivered a message. -/
def deliver (w : Fin (n + 1)) (job : MboxWorkerJob) (last : Bool) :
    CallbackAction (Fin (n + 1)) Unit :=
  if last then .ret w job else .work w job

/-- What a step is in the io pool. -/
def io? : MboxAction n → Option (CallbackAction (Fin (n + 1)) Unit)
  | io a => some a
  | message w job last _ _ => some (deliver w job last)
  | _ => none

/-- What a step is in the parse pool. -/
def parse? : MboxAction n → Option (CallbackAction (Fin (n + 1)) (Fin (n + 1)))
  | parse a => some a
  | message w _ _ _ parseJob => some (.pool (.addTail w parseJob))
  | lite w job _ => some (.ret w job)
  | _ => none

/-- The message that is enqueued, and the number of its context. -/
def message? : MboxAction n → Option (ℕ × MboxIOMsg)
  | message _ job _ msg _ => some (job.argv, msg)
  | _ => none

/-- The lite message that is kept, and the job that made it. -/
def lite? : MboxAction n → Option (MboxWorkerJob × MboxMsgLite)
  | lite _ job msg => some (job, msg)
  | _ => none

end MboxAction

/-- The second loop of `mboxSetAllOffsets`, on all contexts. -/
def offsetsOf : List MboxParserCtx → List MboxParserCtx
  | [] => []
  | ctx :: ctxs => setOffsets ctx ctxs

namespace MboxThreads

section Steps

variable (fill : ℕ → MboxChar) (dateToUnix : List MboxChar → Exec (Option Int)) (pread : Pread)
  (fileSize n : ℕ)

/-- The threads behind `mboxParserInit`, with the contexts set up and nothing enqueued. -/
def start : MboxThreads n where
  main := .seeking 0
  io := .new
  parse := .new
  contexts := (List.range (n + 1)).map (initCtx fill fileSize (fileSize / (n + 1)))
  messages := []
  heap := .empty
  completedParse := mboxListNew

variable {n}

/-- A step of the main thread or of a worker. A callback that runs into undefined behaviour, or
never comes back, has no step, and its worker stays in it. So `mboxMain` has returned only in runs
without either, and what is said of these says nothing about the others. -/
inductive Step : MboxThreads n → MboxAction n → MboxThreads n → Prop where
  /-- a step of the io pool; a callback that has enqueued a message is out of the call again when
  it returns -/
  | ioPool {s : MboxThreads n} {a : PoolAction (Fin (n + 1)) Unit}
      {io : CallbackPool (Fin (n + 1)) Unit} :
      a.Free → (∀ w job, a = .finish w job → s.parse.pool.enqueuer w = .idle) →
      s.io.Step (.pool a) io → Step s (.io (.pool a)) { s with io }
  /-- a step of the parse pool -/
  | parsePool {s : MboxThreads n} {a : PoolAction (Fin (n + 1)) (Fin (n + 1))}
      {parse : CallbackPool (Fin (n + 1)) (Fin (n + 1))} :
      a.Free → s.parse.Step (.pool a) parse → Step s (.parse (.pool a)) { s with parse }
  /-- `mboxSetAllOffsets`: enqueue the seek of a context -/
  | enqueueSeek {s : MboxThreads n} {i : ℕ} {job : MboxWorkerJob}
      {io : CallbackPool (Fin (n + 1)) Unit} :
      s.main = .seeking i → i < n + 1 → job.callback = seekStartCallback → job.argv = i →
      s.io.Step (.pool (.addTail () job)) io →
      Step s (.io (.pool (.addTail () job))) { s with io, main := .seeking (i + 1) }
  | waitSeeks {s : MboxThreads n} {io : CallbackPool (Fin (n + 1)) Unit} :
      s.main = .seeking (n + 1) → s.io.pool.enqueuer () = .idle →
      s.io.Step (.pool .waitCall) io →
      Step s (.io (.pool .waitCall)) { s with io, main := .seekWait }
  /-- `mboxSetAllOffsets`: the other two loops -/
  | setOffsets {s : MboxThreads n} {io : CallbackPool (Fin (n + 1)) Unit} :
      s.main = .seekWait → s.io.Step (.pool .waitReturn) io →
      Step s (.io (.pool .waitReturn))
        { s with io, main := .reading 0, contexts := filterContexts (offsetsOf s.contexts) }
  /-- `mboxParseAllMessages`: enqueue a context -/
  | enqueueContext {s : MboxThreads n} {i : ℕ} {job : MboxWorkerJob}
      {io : CallbackPool (Fin (n + 1)) Unit} :
      s.main = .reading i → i < s.contexts.length → job.callback = getNextMessageCallback →
      job.argv = i → s.io.Step (.pool (.addTail () job)) io →
      Step s (.io (.pool (.addTail () job))) { s with io, main := .reading (i + 1) }
  | waitIo {s : MboxThreads n} {io : CallbackPool (Fin (n + 1)) Unit} :
      s.main = .reading s.contexts.length → s.io.pool.enqueuer () = .idle →
      s.io.Step (.pool .waitCall) io →
      Step s (.io (.pool .waitCall)) { s with io, main := .ioWait }
  | ioReturn {s : MboxThreads n} {io : CallbackPool (Fin (n + 1)) Unit} :
      s.main = .ioWait → s.io.Step (.pool .waitReturn) io →
      Step s (.io (.pool .waitReturn)) { s with io, main := .ioDone }
  | waitParse {s : MboxThreads n} {parse : CallbackPool (Fin (n + 1)) (Fin (n + 1))} :
      s.main = .ioDone → s.parse.Step (.pool .waitCall) parse →
      Step s (.parse (.pool .waitCall)) { s with parse, main := .parseWait }
  | parseReturn {s : MboxThreads n} {parse : CallbackPool (Fin (n + 1)) (Fin (n + 1))} :
      s.main = .parseWait → s.parse.Step (.pool .waitReturn) parse →
      Step s (.parse (.pool .waitReturn)) { s with parse, main := .returned }
  /-- `mboxParserCtxSeekStartCallback` -/
  | seekStart {s : MboxThreads n} {w : Fin (n + 1)} {job : MboxWorkerJob}
      {ctx ctx' : MboxParserCtx} {io : CallbackPool (Fin (n + 1)) Unit} :
      job.callback = seekStartCallback → s.contexts[job.argv]? = some ctx →
      Converges (fun fuel => mboxParserCtxSeekStart fill pread fuel ctx) ctx' →
      s.io.Step (.ret w job) io →
      Step s (.io (.ret w job)) { s with io, contexts := s.contexts.set job.argv ctx' }
  /-- `mboxParserCtxGetNextMessageCallback`: there is no message -/
  | noMessage {s : MboxThreads n} {w : Fin (n + 1)} {job : MboxWorkerJob}
      {ctx ctx' : MboxParserCtx} {io : CallbackPool (Fin (n + 1)) Unit} :
      job.callback = getNextMessageCallback → s.contexts[job.argv]? = some ctx →
      Converges (fun fuel => mboxParserCtxGetNextMessage fill pread fuel ctx) (none, ctx') →
      s.parse.pool.enqueuer w = .idle → s.io.Step (.ret w job) io →
      Step s (.io (.ret w job)) { s with io, contexts := s.contexts.set job.argv ctx' }
  /-- there is one, and it is enqueued -/
  | message {s : MboxThreads n} {w : Fin (n + 1)} {job : MboxWorkerJob}
      {ctx ctx' : MboxParserCtx} {last : Bool} {msg : MboxIOMsg} {parseJob : MboxWorkerJob}
      {io : CallbackPool (Fin (n + 1)) Unit}
      {parse : CallbackPool (Fin (n + 1)) (Fin (n + 1))} :
      job.callback = getNextMessageCallback → s.contexts[job.argv]? = some ctx →
      Converges (fun fuel => mboxParserCtxGetNextMessage fill pread fuel ctx) (some msg, ctx') →
      last = decide (ctx'.err = mboxParseDone) →
      s.io.Step (MboxAction.deliver w job last) io →
      parseJob.callback = ioMsgParseCallback → parseJob.argv = s.messages.length →
      s.parse.Step (.pool (.addTail w parseJob)) parse →
      Step s (.message w job last msg parseJob)
        { s with io, parse, contexts := s.contexts.set job.argv ctx',
                 messages := s.messages ++ [msg] }
  /-- `mboxIOMsgParseCallback` -/
  | lite {s : MboxThreads n} {w : Fin (n + 1)} {job : MboxWorkerJob} {msg : MboxIOMsg}
      {lite : MboxMsgLite} {heap : Heap (MboxLNode MboxMsgLite)} {l : MboxList}
      {parse : CallbackPool (Fin (n + 1)) (Fin (n + 1))} :
      s.messages[job.argv]? = some msg →
      Converges (fun fuel => mboxMsgLiteFromBuffer fill dateToUnix fuel msg.buf msg.startOffset
        msg.endOffset) lite →
      mboxListTSAddTail s.heap s.completedParse lite = ok (heap, l) →
      s.parse.Step (.ret w job) parse →
      Step s (.lite w job lite) { s with parse, heap, completedParse := l }

end Steps

end MboxThreads

end Libmbox2
