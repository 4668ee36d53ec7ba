import Libmbox2.Callbacks
import Libmbox2.IndexLoad

/-!
# Loading an index with a pool of workers

`mboxIdxBatchLoad` enqueues a batch as soon as it is full, so the workers read the first batches
while the main thread still fills the others. A step of the main thread is an iteration of its loop,
with the call of `mboxWorkerPoolEnqueue` in it if there is one; a worker reads the block of its
batch, and then makes one message after the other. The lists of entries are its own, and those of
the messages are locked (`mboxListTSAddTail`).
-/

namespace Libmbox2

open CSem CSem.Exec

/-- `mboxIdxGetMessages`, as the number of a callback. -/
def idxGetMessagesCallback : ℕ := 3

/-- Where the main thread stands in `mboxIdxBatchLoad`: in its loop, behind it, or in the wait for
the pool. -/
inductive LoadPc where
  /-- in the loop -/
  | filling
  /-- behind it -/
  | filled
  /-- in front of `mboxWorkerPoolWait` -/
  | loaded
  /-- in it -/
  | waiting
  | returned
  deriving DecidableEq, Repr

/-- The lists, and the threads `W` that work on them. The argument of a job is the number of a
batch. -/
structure IndexThreads (W : Type) where
  main : LoadPc
  pool : CallbackPool W Unit
  ctx : IdxCtx
  /-- the number of the batch that is filled -/
  batch : ℕ
  batchBytes : ℕ
  /-- `buf` and `diff` of a worker that has read its block -/
  reading : W → Option (List MboxChar × ℕ)

/-- A step of one of the threads: one of the main thread that does not concern the pool, or one in
the pool. -/
inductive IndexAction (W : Type) where
  | pool (a : CallbackAction W Unit)
  /-- the main thread enqueues nothing -/
  | main

/-- What a step does in the pool. -/
def IndexAction.pool? {W : Type} : IndexAction W → Option (CallbackAction W Unit)
  | pool a => some a
  | main => none

namespace IndexThreads

variable {W : Type}

/-- In front of the loop of `mboxIdxBatchLoad`, with an empty first batch. -/
def start (ctx : IdxCtx) : IndexThreads W where
  main := .filling
  pool := .new
  ctx := { ctx with lists := ctx.lists.set ctx.lists.heap 1 (some mboxListNew) }
  batch := 1
  batchBytes := 0
  reading := fun _ => none

/-- What an iteration of the loop works on. -/
def batchCtx (s : IndexThreads W) : BatchCtx := ⟨s.ctx.lists, s.batch, s.batchBytes, []⟩

/-- Behind an iteration, where there are more entries or not. -/
def filled (s : IndexThreads W) (more : Bool) (ctx : BatchCtx) : IndexThreads W :=
  { s with main := if more then .filling else .filled, ctx := { s.ctx with lists := ctx.lists },
           batch := ctx.batch, batchBytes := ctx.batchBytes }

/-- Behind the loop of `mboxIdxGetMessages`: the list of the batch is released. -/
def released [DecidableEq W] (s : IndexThreads W) (w : W) (ctx : IdxCtx) (batch : ℕ) :
    IndexThreads W :=
  { s with ctx := { ctx with lists := ctx.lists.set ctx.lists.heap batch none },
           reading := Function.update s.reading w none }

section Steps

variable [DecidableEq W] (fill : ℕ → MboxChar)
  (dateToUnix : List MboxChar → Exec (Option Int)) (pread : Pread)

/-- A step of the main thread or of a worker. A callback that runs into undefined behaviour has no
step, and its worker stays in it, so `mboxIdxBatchLoad` has returned only in runs without it. -/
inductive Step : IndexThreads W → IndexAction W → IndexThreads W → Prop where
  /-- a step of the pool -/
  | pool {s : IndexThreads W} {a : PoolAction W Unit} {pool : CallbackPool W Unit} :
      a.Free → s.pool.Step (.pool a) pool → Step s (.pool (.pool a)) { s with pool }
  /-- an iteration that closes no batch -/
  | fill {s : IndexThreads W} {more : Bool} {ctx : BatchCtx} :
      s.main = .filling → s.pool.pool.enqueuer () = .idle →
      batchLoadStep s.batchCtx = ok (if more then .inl ctx else .inr ctx) → ctx.jobs = [] →
      Step s .main (s.filled more ctx)
  /-- an iteration that closes a batch -/
  | close {s : IndexThreads W} {more : Bool} {ctx : BatchCtx} {job : MboxWorkerJob}
      {pool : CallbackPool W Unit} :
      s.main = .filling → batchLoadStep s.batchCtx = ok (if more then .inl ctx else .inr ctx) →
      ctx.jobs = [job.argv] → job.callback = idxGetMessagesCallback →
      s.pool.Step (.pool (.addTail () job)) pool →
      Step s (.pool (.pool (.addTail () job))) { s.filled more ctx with pool }
  /-- the last batch -/
  | closeLast {s : IndexThreads W} {l : MboxList} {job : MboxWorkerJob}
      {pool : CallbackPool W Unit} :
      s.main = .filled → s.ctx.lists.get s.batch = ok l → 0 < l.len → job.argv = s.batch →
      job.callback = idxGetMessagesCallback → s.pool.Step (.pool (.addTail () job)) pool →
      Step s (.pool (.pool (.addTail () job))) { s with main := .loaded, pool }
  /-- it is empty -/
  | skipLast {s : IndexThreads W} {l : MboxList} :
      s.main = .filled → s.pool.pool.enqueuer () = .idle → s.ctx.lists.get s.batch = ok l →
      ¬ 0 < l.len → Step s .main { s with main := .loaded }
  | wait {s : IndexThreads W} {pool : CallbackPool W Unit} :
      s.main = .loaded → s.pool.pool.enqueuer () = .idle → s.pool.Step (.pool .waitCall) pool →
      Step s (.pool (.pool .waitCall)) { s with main := .waiting, pool }
  | waitReturn {s : IndexThreads W} {pool : CallbackPool W Unit} :
      s.main = .waiting → s.pool.Step (.pool .waitReturn) pool →
      Step s (.pool (.pool .waitReturn)) { s with main := .returned, pool }
  /-- `mboxIdxGetMessages`: read the block of the batch -/
  | block {s : IndexThreads W} {w : W} {job : MboxWorkerJob} {l : MboxList}
      {root last : MboxLNode MboxIdxOffset} {buf : List MboxChar} {pool : CallbackPool W Unit} :
      s.reading w = none → s.ctx.lists.get job.argv = ok l →
      s.ctx.lists.heap.load l.root = ok root → s.ctx.lists.heap.load root.prev = ok last →
      readBatch fill pread root.data.startOffset
        ((last.data.endOffset : Int) - root.data.startOffset) = ok buf →
      s.pool.Step (.work w job) pool →
      Step s (.pool (.work w job)) { s with
        pool, reading := Function.update s.reading w (some (buf, root.data.startOffset)) }
  /-- an iteration, with more entries behind it -/
  | message {s : IndexThreads W} {w : W} {job : MboxWorkerJob} {buf : List MboxChar} {diff : ℕ}
      {ctx : IdxCtx} {pool : CallbackPool W Unit} :
      s.reading w = some (buf, diff) →
      Converges (fun fuel => getMessagesStep fill dateToUnix fuel job.argv buf diff s.ctx)
        (.inl ctx) →
      s.pool.Step (.work w job) pool → Step s (.pool (.work w job)) { s with pool, ctx }
  /-- the last iteration, and the end of the callback -/
  | last {s : IndexThreads W} {w : W} {job : MboxWorkerJob} {buf : List MboxChar} {diff : ℕ}
      {ctx : IdxCtx} {pool : CallbackPool W Unit} :
      s.reading w = some (buf, diff) →
      Converges (fun fuel => getMessagesStep fill dateToUnix fuel job.argv buf diff s.ctx)
        (.inr ctx) →
      s.pool.Step (.ret w job) pool →
      Step s (.pool (.ret w job)) { s.released w ctx job.argv with pool }

end Steps

end IndexThreads

/-! ## What an iteration does -/

section Iterations

variable {d : Deques MboxIdxOffset} {x : MboxIdxOffset} {rest cur : List MboxIdxOffset}

/-- The deques behind an iteration of the main thread: the first entry is moved into the batch
`i`. -/
def movedTo (d : Deques MboxIdxOffset) (i : ℕ) (rest cur : List MboxIdxOffset) :
    Deques MboxIdxOffset := (d.set 0 (some rest)).set i (some cur)

theorem movedTo_of_ne {i k : ℕ} (h0 : k ≠ 0) (hi : k ≠ i) : movedTo d i rest cur k = d k := by
  rw [movedTo, Deques.set, Function.update_of_ne hi, Deques.set, Function.update_of_ne h0]

/-- **An iteration of the main thread** moves the first entry into the batch, and begins another
batch where that is full. -/
theorem batchLoadStep_spec {ctx : BatchCtx} (hhold : ∃ addr, ctx.lists.Hold d addr)
    (hrest : d 0 = some (x :: rest)) (hcur : d ctx.batch = some cur) (hpos : ctx.batch ≠ 0) :
    ∃ ctx', batchLoadStep ctx = ok (if rest = [] then .inr ctx' else .inl ctx') ∧
      if (ctx.batchBytes + x.messageSize) % 2 ^ 64 < mboxIOReadSize then
        (∃ addr, ctx'.lists.Hold (movedTo d ctx.batch rest (cur ++ [x])) addr) ∧
          ctx'.batch = ctx.batch ∧
          ctx'.batchBytes = (ctx.batchBytes + x.messageSize) % 2 ^ 64 ∧ ctx'.jobs = ctx.jobs
      else
        (∃ addr, ctx'.lists.Hold
          ((movedTo d ctx.batch rest (cur ++ [x])).set (ctx.batch + 1) (some [])) addr) ∧
          ctx'.batch = ctx.batch + 1 ∧ ctx'.batchBytes = 0 ∧
          ctx'.jobs = ctx.jobs ++ [ctx.batch] := by
  obtain ⟨addr, hhold⟩ := hhold
  obtain ⟨s₁, addr₁, hremove, h₁⟩ := hhold.removeHead hrest
  have hcur₁ : (d.set 0 (some rest)) ctx.batch = some cur := by
    rw [Deques.set, Function.update_of_ne hpos, hcur]
  obtain ⟨s₂, addr₂, hadd, h₂⟩ := h₁.addTail hcur₁ x
  -- what is left of the entries does not change any more
  have hmore : ∀ {ctx' : BatchCtx} {d' : Deques MboxIdxOffset} {addr' : ℕ → List ℕ},
      batchAdded { ctx with lists := s₂ } x.messageSize = ok ctx' → ctx'.lists.Hold d' addr' →
      d' 0 = some rest → batchLoadStep ctx = ok (if rest = [] then .inr ctx' else .inl ctx') := by
    intro ctx' d' addr' hadded hhold' hzero
    obtain ⟨indexes, hget, hat⟩ := hhold'.get_eq hzero
    have hlen : indexes.len = rest.length := hat.len
    simp only [batchLoadStep, hremove, List.head?_cons, hadd, hadded, hget, hlen, ok_bind, pure_eq]
    by_cases hnil : rest = []
    · rw [if_pos hnil, hnil]
      rfl
    · rw [if_neg hnil, if_pos (List.length_pos_iff.mpr hnil)]
  have hzero : movedTo d ctx.batch rest (cur ++ [x]) 0 = some rest := by
    rw [movedTo, Deques.set, Function.update_of_ne hpos.symm, Deques.set, Function.update_self]
  by_cases hfits : (ctx.batchBytes + x.messageSize) % 2 ^ 64 < mboxIOReadSize
  · have hadded : batchAdded { ctx with lists := s₂ } x.messageSize = ok { ctx with
        lists := s₂, batchBytes := (ctx.batchBytes + x.messageSize) % 2 ^ 64 } := by
      simp only [batchAdded, if_pos hfits, pure_eq]
    refine ⟨_, hmore hadded h₂ hzero, ?_⟩
    rw [if_pos hfits]
    exact ⟨⟨_, h₂⟩, rfl, rfl, rfl⟩
  · have hnew := h₂.new (ctx.batch + 1)
    have hadded : batchAdded { ctx with lists := s₂ } x.messageSize =
        ok ⟨s₂.set s₂.heap (ctx.batch + 1) (some mboxListNew), ctx.batch + 1, 0,
          ctx.jobs ++ [ctx.batch]⟩ := by
      simp only [batchAdded, if_neg hfits, Lists.call, ok_bind, pure_eq]
    refine ⟨_, hmore hadded hnew ?_, ?_⟩
    · rw [Deques.set, Function.update_of_ne (Nat.succ_ne_zero _).symm]
      exact hzero
    · rw [if_neg hfits]
      exact ⟨⟨_, hnew⟩, rfl, rfl, rfl⟩

variable {fill : ℕ → MboxChar} {dateToUnix : List MboxChar → Exec (Option Int)} {ctx : IdxCtx}
  {ms : List MboxMsgLite} {batch diff : ℕ} {buf : List MboxChar} {b : List MboxIdxOffset}

/-- **An iteration of a worker** has made a message of the first entry that was left. -/
theorem getMessagesStep_inv (hc : ctx.Holds d ms) (hd : d batch = some b) {r : IdxCtx ⊕ IdxCtx}
    (h : Converges (fun n => getMessagesStep fill dateToUnix n batch buf diff ctx) r) :
    ∃ e rest tmp msg ctx', b = e :: rest ∧ entryBuf buf diff e = ok tmp ∧
      Converges (fun n => mboxMsgLiteFromBuffer fill dateToUnix n tmp e.startOffset e.endOffset)
        msg ∧
      ctx'.Holds (d.set batch (some rest)) (ms ++ [msg]) ∧
      r = if rest = [] then .inr ctx' else .inl ctx' := by
  obtain ⟨n, hn⟩ := h.exists_ok
  obtain ⟨addr, hhold⟩ := hc.lists
  obtain ⟨lists, -, hremove, -⟩ := hhold.removeHead hd
  obtain ⟨⟨offset, lists'⟩, hcall, hn⟩ := bind_eq_ok hn
  obtain ⟨rfl, rfl⟩ := Prod.mk.inj (Exec.ok.inj (hcall.symm.trans hremove))
  cases b with
  | nil => cases hn
  | cons e rest =>
    obtain ⟨tmp, htmp, hn⟩ := bind_eq_ok hn
    obtain ⟨msg, hmsg, -⟩ := bind_eq_ok hn
    obtain ⟨ctx', msg', hstep, hctx', hmsg'⟩ := getMessagesStep_spec hc hd htmp ⟨n, msg, hmsg⟩
    exact ⟨e, rest, tmp, msg', ctx', rfl, htmp, hmsg', hctx', h.unique hstep⟩

end Iterations

end Libmbox2
