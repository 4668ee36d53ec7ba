import Libmbox2.Pipeline

/-!
# What the two pools make of a file

Whatever the order of the steps, a context goes through the loop it would go through alone, a
message that it delivers is parsed once, and when `mboxMain` returns the list holds the lite
messages of the sequential run, in some order.
-/

namespace Libmbox2

open CSem CSem.Exec

/-! ## The two pools in a run -/

section Parts

variable {n : ℕ}

/-- The steps of the io pool in a run. -/
def ioActions (acts : List (MboxAction n)) : List (CallbackAction (Fin (n + 1)) Unit) :=
  acts.filterMap MboxAction.io?

/-- The steps of the parse pool in a run. -/
def parseActions (acts : List (MboxAction n)) : List (CallbackAction (Fin (n + 1)) (Fin (n + 1))) :=
  acts.filterMap MboxAction.parse?

/-- One more step of the threads is at most one more of the io pool. -/
theorem ioActions_snoc (acts : List (MboxAction n)) (a : MboxAction n) :
    ioActions (acts ++ [a]) = ioActions acts ++ ioActions [a] := List.filterMap_append ..

theorem parseActions_snoc (acts : List (MboxAction n)) (a : MboxAction n) :
    parseActions (acts ++ [a]) = parseActions acts ++ parseActions [a] := List.filterMap_append ..

end Parts

section Runs

variable {fill : ℕ → MboxChar} {dateToUnix : List MboxChar → Exec (Option Int)} {pread : Pread}
  {fileSize n : ℕ} {acts : List (MboxAction n)} {s s' : MboxThreads n} {a : MboxAction n}

/-- What a step is in the io pool: none, or one of the pool's own. -/
theorem io_of_step (h : MboxThreads.Step fill dateToUnix pread s a s') :
    (a.io? = none ∧ s'.io = s.io) ∨ ∃ b, a.io? = some b ∧ s.io.Step b s'.io := by
  cases h with
  | ioPool _ _ hio | enqueueSeek _ _ _ _ hio | waitSeeks _ _ hio | setOffsets _ hio
  | enqueueContext _ _ _ _ hio | waitIo _ _ hio | ioReturn _ hio | seekStart _ _ _ hio
  | noMessage _ _ _ _ hio | message _ _ _ _ hio => exact Or.inr ⟨_, rfl, hio⟩
  | parsePool | waitParse | parseReturn | lite => exact Or.inl ⟨rfl, rfl⟩

/-- What a step is in the parse pool, in the same way. -/
theorem parse_of_step (h : MboxThreads.Step fill dateToUnix pread s a s') :
    (a.parse? = none ∧ s'.parse = s.parse) ∨ ∃ b, a.parse? = some b ∧ s.parse.Step b s'.parse := by
  cases h with
  | parsePool _ hparse | waitParse _ hparse | parseReturn _ hparse | lite _ _ _ hparse
  | message _ _ _ _ _ _ _ hparse => exact Or.inr ⟨_, rfl, hparse⟩
  | _ => exact Or.inl ⟨rfl, rfl⟩

/-- **A run of the threads is a run of the io pool**, so what is known of pools is known of it. -/
theorem run_io (h : Run (MboxThreads.Step fill dateToUnix pread) (.start fill fileSize n) acts s) :
    Run CallbackPool.Step .new (ioActions acts) s.io :=
  Run.filterMap MboxThreads.io MboxAction.io? (fun _ _ _ => io_of_step) h

/-- **And one of the parse pool**, in which the workers of the other one enqueue. -/
theorem run_parse
    (h : Run (MboxThreads.Step fill dateToUnix pread) (.start fill fileSize n) acts s) :
    Run CallbackPool.Step .new (parseActions acts) s.parse :=
  Run.filterMap MboxThreads.parse MboxAction.parse? (fun _ _ _ => parse_of_step) h

/-! ## The jobs of the pools -/

/-- The job of the io pool with a number: the seeks, and the contexts behind them. -/
def ioJob (n k : ℕ) : MboxWorkerJob :=
  if k < n + 1 then ⟨k, seekStartCallback, k⟩ else ⟨k, getNextMessageCallback, k - (n + 1)⟩

/-- Behind the seeks the jobs are those of the contexts. -/
theorem ioJob_context (n i : ℕ) :
    ioJob n (n + 1 + i) = ⟨n + 1 + i, getNextMessageCallback, i⟩ := by
  rw [ioJob, if_neg (Nat.not_lt.mpr (Nat.le_add_right _ _)), Nat.add_sub_cancel_left]

theorem MboxWorkerJob.eq_mk {job : MboxWorkerJob} {id callback argv : ℕ} (hid : job.id = id)
    (hcallback : job.callback = callback) (hargv : job.argv = argv) :
    job = ⟨id, callback, argv⟩ := by
  rw [← hid, ← hcallback, ← hargv]

/-- The job of the parse pool with a number, for the message with that number. -/
def parseJob (k : ℕ) : MboxWorkerJob := ⟨k, ioMsgParseCallback, k⟩

/-- How many jobs the main thread has enqueued in the io pool, when there are `m` contexts. -/
def MainPc.enqueued (n m : ℕ) : MainPc → ℕ
  | .seeking i => i
  | .seekWait => n + 1
  | .reading i => n + 1 + i
  | _ => n + 1 + m

/-- The loops of the main thread do not go too far. -/
def MainPc.InLoop (n m : ℕ) : MainPc → Prop
  | .seeking i => i ≤ n + 1
  | .reading i => i ≤ m
  | _ => True

/-- Which jobs of the io pool there have been: the seeks in order, and then the contexts in
order. -/
structure IoCounted (acts : List (MboxAction n)) (s : MboxThreads n) : Prop where
  enqueued : s.io.pool.enqueued = s.main.enqueued n s.contexts.length
  inLoop : s.main.InLoop n s.contexts.length
  jobs : CallbackPool.Numbered (ioJob n) (ioActions acts) s.io.pool.enqueued

/-- Which jobs of the parse pool there have been: one for each message. -/
structure ParseCounted (acts : List (MboxAction n)) (s : MboxThreads n) : Prop where
  enqueued : s.parse.pool.enqueued = s.messages.length
  jobs : CallbackPool.Numbered parseJob (parseActions acts) s.parse.pool.enqueued

/-- A context that delivers a message adds no job to its own pool. -/
theorem MboxAction.isAdd_deliver (w : Fin (n + 1)) (job : MboxWorkerJob) (last : Bool) :
    (MboxAction.deliver w job last).isAdd = false := by
  cases last <;> rfl

/-- The io pool takes a step that adds no job. -/
theorem IoCounted.go_on {b : CallbackAction (Fin (n + 1)) Unit} (hi : IoCounted acts s)
    (ha : a.io? = some b) (h : s.io.Step b s'.io) (hb : b.isAdd = false)
    (hmain : s'.main.enqueued n s'.contexts.length = s.main.enqueued n s.contexts.length)
    (hloop : s'.main.InLoop n s'.contexts.length) : IoCounted (acts ++ [a]) s' := by
  refine ⟨?_, hloop, ?_⟩
  · rw [h.enqueued_eq hb, hi.enqueued, hmain]
  · have hone : ioActions [a] = [b] := List.filterMap_cons_some ha
    rw [ioActions_snoc, hone]
    refine hi.jobs.step h fun e job heq => ?_
    rw [heq] at hb
    cases hb

/-- A job of the io pool is added, with the next number. -/
theorem IoCounted.add {job : MboxWorkerJob} (hi : IoCounted acts s)
    (ha : a.io? = some (.pool (.addTail () job))) (h : s.io.Step (.pool (.addTail () job)) s'.io)
    (hname : job.id = s.io.pool.enqueued → job = ioJob n s.io.pool.enqueued)
    (hmain : s'.main.enqueued n s'.contexts.length = s.main.enqueued n s.contexts.length + 1)
    (hloop : s'.main.InLoop n s'.contexts.length) : IoCounted (acts ++ [a]) s' := by
  refine ⟨?_, hloop, ?_⟩
  · rcases h.enqueued_cases with ⟨e, job', -, -, hen⟩ | ⟨hno, -⟩
    · rw [hen, hi.enqueued, hmain]
    · have hone := hno job
      rw [CallbackAction.pools_pool, List.countP_singleton, PoolAction.adds, decide_eq_true rfl,
        if_pos rfl] at hone
      cases hone
  · have hone : ioActions [a] = [.pool (.addTail () job)] := List.filterMap_cons_some ha
    rw [ioActions_snoc, hone]
    refine hi.jobs.step h fun e job' heq hid => ?_
    cases heq
    exact hname hid

/-- The io pool takes no step. -/
theorem IoCounted.rest (hi : IoCounted acts s) (ha : a.io? = none) (hio : s'.io = s.io)
    (hmain : s'.main.enqueued n s'.contexts.length = s.main.enqueued n s.contexts.length)
    (hloop : s'.main.InLoop n s'.contexts.length) : IoCounted (acts ++ [a]) s' := by
  have hnone : ioActions [a] = [] := List.filterMap_cons_none ha
  refine ⟨?_, hloop, ?_⟩
  · rw [hio, hi.enqueued, hmain]
  · rw [ioActions_snoc, hnone, List.append_nil, hio]
    exact hi.jobs

/-- A step of the threads keeps the count of the io pool. -/
theorem IoCounted.step (hi : IoCounted acts s)
    (h : MboxThreads.Step fill dateToUnix pread s a s') : IoCounted (acts ++ [a]) s' := by
  have hloop := hi.inLoop
  have hen := hi.enqueued
  cases h with
  | ioPool ha _ hio => exact hi.go_on rfl hio ha.isAdd_eq rfl hloop
  | @enqueueSeek i job _ hmain hlt hcallback hargv hio =>
    rw [hmain] at hen
    refine hi.add rfl hio (fun hid => ?_) ?_ hlt
    · rw [hen] at hid ⊢
      exact (MboxWorkerJob.eq_mk hid hcallback hargv).trans (if_pos hlt).symm
    · rw [hmain]
      rfl
  | waitSeeks hmain _ hio =>
    refine hi.go_on rfl hio rfl ?_ trivial
    rw [hmain]
    rfl
  | setOffsets hmain hio =>
    refine hi.go_on rfl hio rfl ?_ (Nat.zero_le _)
    rw [hmain]
    rfl
  | @enqueueContext i job _ hmain hlt hcallback hargv hio =>
    rw [hmain] at hen
    refine hi.add rfl hio (fun hid => ?_) ?_ hlt
    · rw [hen] at hid ⊢
      rw [MainPc.enqueued, ioJob_context]
      exact MboxWorkerJob.eq_mk hid hcallback hargv
    · rw [hmain]
      rfl
  | waitIo hmain _ hio =>
    refine hi.go_on rfl hio rfl ?_ trivial
    rw [hmain]
    rfl
  | ioReturn hmain hio =>
    refine hi.go_on rfl hio rfl ?_ trivial
    rw [hmain]
    rfl
  | waitParse hmain =>
    refine hi.rest rfl rfl ?_ trivial
    rw [hmain]
    rfl
  | parseReturn hmain =>
    refine hi.rest rfl rfl ?_ trivial
    rw [hmain]
    rfl
  | seekStart _ _ _ hio | noMessage _ _ _ _ hio =>
    refine hi.go_on rfl hio rfl ?_ ?_
    · rw [List.length_set]
    · rw [List.length_set]
      exact hloop
  | message _ _ _ _ hio =>
    refine hi.go_on rfl hio (MboxAction.isAdd_deliver ..) ?_ ?_
    · rw [List.length_set]
    · rw [List.length_set]
      exact hloop
  | parsePool | lite => exact hi.rest rfl rfl rfl hloop

/-- The parse pool takes a step that adds no job. -/
theorem ParseCounted.go_on {b : CallbackAction (Fin (n + 1)) (Fin (n + 1))}
    (hi : ParseCounted acts s) (ha : a.parse? = some b) (h : s.parse.Step b s'.parse)
    (hb : b.isAdd = false) (hmsgs : s'.messages = s.messages) : ParseCounted (acts ++ [a]) s' := by
  refine ⟨?_, ?_⟩
  · rw [h.enqueued_eq hb, hi.enqueued, hmsgs]
  · have hone : parseActions [a] = [b] := List.filterMap_cons_some ha
    rw [parseActions_snoc, hone]
    refine hi.jobs.step h fun e job heq => ?_
    rw [heq] at hb
    cases hb

/-- The parse pool takes no step. -/
theorem ParseCounted.rest (hi : ParseCounted acts s) (ha : a.parse? = none)
    (hparse : s'.parse = s.parse) (hmsgs : s'.messages = s.messages) :
    ParseCounted (acts ++ [a]) s' := by
  have hnone : parseActions [a] = [] := List.filterMap_cons_none ha
  refine ⟨?_, ?_⟩
  · rw [hparse, hmsgs, hi.enqueued]
  · rw [parseActions_snoc, hnone, List.append_nil, hparse]
    exact hi.jobs

/-- A step of the threads keeps the count of the parse pool. -/
theorem ParseCounted.step (hi : ParseCounted acts s)
    (h : MboxThreads.Step fill dateToUnix pread s a s') : ParseCounted (acts ++ [a]) s' := by
  have hen := hi.enqueued
  cases h with
  | parsePool ha hparse => exact hi.go_on rfl hparse ha.isAdd_eq rfl
  | waitParse _ hparse | parseReturn _ hparse | lite _ _ _ hparse =>
    exact hi.go_on rfl hparse rfl rfl
  | @message w _ _ _ _ _ job _ _ _ _ _ _ _ hcallback hargv hparse =>
    have hadd := hparse.enqueued_cases
    refine ⟨?_, ?_⟩
    · rcases hadd with ⟨e, job', -, -, hnew⟩ | ⟨hno, -⟩
      · change _ = (s.messages ++ _).length
        rw [hnew, hen, List.length_append, List.length_singleton]
      · have hone := hno job
        rw [CallbackAction.pools_pool, List.countP_singleton, PoolAction.adds, decide_eq_true rfl,
          if_pos rfl] at hone
        cases hone
    · rw [parseActions_snoc]
      refine hi.jobs.step hparse fun e job' heq hid => ?_
      cases heq
      rw [hen] at hid ⊢
      exact MboxWorkerJob.eq_mk hid hcallback hargv
  | ioPool | enqueueSeek | waitSeeks | setOffsets | enqueueContext | waitIo | ioReturn | seekStart
  | noMessage => exact hi.rest rfl rfl rfl

/-- So the jobs of the io pool are numbered in every run. -/
theorem ioCounted_of_run
    (h : Run (MboxThreads.Step fill dateToUnix pread) (.start fill fileSize n) acts s) :
    IoCounted acts s :=
  h.inv ⟨rfl, Nat.zero_le _, CallbackPool.numbered_nil _⟩ fun _ _ _ _ _ hi hstep => hi.step hstep

theorem parseCounted_of_run
    (h : Run (MboxThreads.Step fill dateToUnix pread) (.start fill fileSize n) acts s) :
    ParseCounted acts s :=
  h.inv ⟨rfl, CallbackPool.numbered_nil _⟩ fun _ _ _ _ _ hi hstep => hi.step hstep

/-! ## What is kept -/

/-- The messages that were enqueued, each with the number of its context. -/
def enqueuedMessages (acts : List (MboxAction n)) : List (ℕ × MboxIOMsg) :=
  acts.filterMap MboxAction.message?

/-- The lite messages that were kept, each with the job that made it. -/
def keptLites (acts : List (MboxAction n)) : List (MboxWorkerJob × MboxMsgLite) :=
  acts.filterMap MboxAction.lite?

/-- The messages of a context, in the order in which they were enqueued. -/
def messagesOf (acts : List (MboxAction n)) (i : ℕ) : List MboxIOMsg :=
  ((enqueuedMessages acts).filter fun x => x.1 = i).map Prod.snd

/-- What `mboxIOMsgParseCallback` makes of a message, when `mboxMsgLiteFromBuffer` returns. -/
def ParsesTo (fill : ℕ → MboxChar) (dateToUnix : List MboxChar → Exec (Option Int))
    (msg : MboxIOMsg) (lite : MboxMsgLite) : Prop :=
  Converges (fun fuel => mboxMsgLiteFromBuffer fill dateToUnix fuel msg.buf msg.startOffset
    msg.endOffset) lite

/-- The list holds what was kept, and each of it is what was made of a message. -/
structure Kept (fill : ℕ → MboxChar) (dateToUnix : List MboxChar → Exec (Option Int))
    (acts : List (MboxAction n)) (s : MboxThreads n) : Prop where
  messages : s.messages = (enqueuedMessages acts).map Prod.snd
  unlocked : s.completedParse.locked = false
  holds : s.completedParse.Holds s.heap ((keptLites acts).map Prod.snd)
  parsed : ∀ x ∈ keptLites acts, ∃ msg, s.messages[x.1.argv]? = some msg ∧
    ParsesTo fill dateToUnix msg x.2
  once : ∀ job, ((keptLites acts).map Prod.fst).count job =
    (parseActions acts).countP (CallbackAction.rets job)

/-- A step of the threads keeps what is known of the list. -/
theorem Kept.step (hi : Kept fill dateToUnix acts s)
    (h : MboxThreads.Step fill dateToUnix pread s a s') :
    Kept fill dateToUnix (acts ++ [a]) s' := by
  have hcut : enqueuedMessages (acts ++ [a]) = enqueuedMessages acts ++ enqueuedMessages [a] :=
    List.filterMap_append ..
  have hlites : keptLites (acts ++ [a]) = keptLites acts ++ keptLites [a] :=
    List.filterMap_append ..
  -- a step that keeps nothing and enqueues nothing
  have hrest : enqueuedMessages [a] = [] → keptLites [a] = [] → s'.messages = s.messages →
      s'.completedParse = s.completedParse → s'.heap = s.heap →
      (∀ job, (parseActions [a]).countP (CallbackAction.rets job) = 0) →
      Kept fill dateToUnix (acts ++ [a]) s' := by
    intro hmsg hlite hmsgs hl hheap hrets
    rw [hmsg, List.append_nil] at hcut
    rw [hlite, List.append_nil] at hlites
    refine ⟨?_, ?_, ?_, ?_, fun job => ?_⟩
    · rw [hmsgs, hcut, hi.messages]
    · rw [hl]
      exact hi.unlocked
    · rw [hl, hheap, hlites]
      exact hi.holds
    · rw [hlites, hmsgs]
      exact hi.parsed
    · rw [hlites, parseActions_snoc, List.countP_append, hrets, Nat.add_zero, hi.once]
  cases h with
  | ioPool | parsePool | enqueueSeek | waitSeeks | setOffsets | enqueueContext | waitIo | ioReturn
  | waitParse | parseReturn | seekStart | noMessage =>
    exact hrest rfl rfl rfl rfl rfl fun _ => rfl
  | @message w job _ _ last msg parseJob =>
    have hmsg : enqueuedMessages [MboxAction.message w job last msg parseJob] =
        [(job.argv, msg)] := rfl
    have hlite : keptLites [MboxAction.message w job last msg parseJob] = [] := rfl
    rw [hlite, List.append_nil] at hlites
    refine ⟨?_, hi.unlocked, ?_, ?_, fun job' => ?_⟩
    · rw [hcut, hmsg, List.map_append, ← hi.messages]
      rfl
    · rw [hlites]
      exact hi.holds
    · rw [hlites]
      intro x hx
      obtain ⟨msg', hmsg', hparsed⟩ := hi.parsed x hx
      refine ⟨msg', ?_, hparsed⟩
      rw [← hmsg']
      exact List.getElem?_append_left (List.getElem?_eq_some_iff.mp hmsg').1
    · have hnone : (parseActions [MboxAction.message w job last msg parseJob]).countP
          (CallbackAction.rets job') = 0 := rfl
      rw [hlites, parseActions_snoc, List.countP_append, hnone, Nat.add_zero, hi.once]
  | @lite w job msg lite heap l _ hmsg hparse hadd =>
    have hnone : enqueuedMessages [MboxAction.lite w job lite] = [] := rfl
    have hone : keptLites [MboxAction.lite w job lite] = [(job, lite)] := rfl
    obtain ⟨heap', l', hadd', hholds, hunlocked⟩ := mboxListTSAddTail_spec lite hi.holds hi.unlocked
    obtain ⟨rfl, rfl⟩ := Prod.mk.inj (Exec.ok.inj (hadd'.symm.trans hadd))
    rw [hnone, List.append_nil] at hcut
    rw [hone] at hlites
    refine ⟨?_, hunlocked, ?_, ?_, fun job' => ?_⟩
    · rw [hcut]
      exact hi.messages
    · rw [hlites, List.map_append]
      exact hholds
    · rw [hlites]
      intro x hx
      rcases List.mem_append.mp hx with hx | hx
      · exact hi.parsed x hx
      · obtain rfl := List.mem_singleton.mp hx
        exact ⟨msg, hmsg, hparse⟩
    · have hrets : (parseActions [MboxAction.lite w job lite]).countP (CallbackAction.rets job') =
          if job = job' then 1 else 0 := by
        change (List.countP _ [CallbackAction.ret w job]) = _
        rw [List.countP_singleton, CallbackAction.rets]
        simp only [decide_eq_true_eq]
      rw [hlites, parseActions_snoc, List.countP_append, hrets, List.map_append, List.count_append,
        hi.once, List.map_singleton, List.count_singleton]
      simp only [beq_iff_eq]

/-- So the list holds what was parsed, in every run. -/
theorem kept_of_run
    (h : Run (MboxThreads.Step fill dateToUnix pread) (.start fill fileSize n) acts s) :
    Kept fill dateToUnix acts s := by
  refine h.inv ⟨rfl, rfl, ⟨[], ?_, rfl, rfl⟩, ?_, fun _ => rfl⟩ fun _ _ _ _ _ hi hstep =>
    hi.step hstep
  · refine ⟨rfl, List.nodup_nil, fun i x hx => ?_⟩
    cases hx
  · intro x hx
    exact absurd hx List.not_mem_nil

/-! ## The contexts -/

/-- There are never more jobs of the io pool than seeks and contexts. -/
theorem IoCounted.le (hi : IoCounted acts s) :
    s.io.pool.enqueued ≤ n + 1 + s.contexts.length := by
  have hloop := hi.inLoop
  rw [hi.enqueued]
  cases hmain : s.main with
  | seeking i =>
    rw [hmain] at hloop
    exact Nat.le_add_right_of_le hloop
  | reading i =>
    rw [hmain] at hloop
    exact Nat.add_le_add_left hloop _
  | seekWait => exact Nat.le_add_right ..
  | ioWait | ioDone | parseWait | returned => exact le_refl _

/-- How often the job with a number has done the last of its work. -/
def ioRets (acts : List (MboxAction n)) (k : ℕ) : ℕ :=
  (ioActions acts).countP (CallbackAction.rets (ioJob n k))

/-- The job of the io pool with a number is finished. -/
def IoFinished (acts : List (MboxAction n)) (k : ℕ) : Prop :=
  0 < (CallbackAction.pools (ioActions acts)).countP (PoolAction.finishes (ioJob n k))

@[simp] theorem ioJob_id (n k : ℕ) : (ioJob n k).id = k := by
  rw [ioJob]
  split <;> rfl

/-- A worker of the io pool that is at work: it has a job that was added, and that has neither
returned nor finished. -/
theorem working_io
    (h : Run (MboxThreads.Step fill dateToUnix pread) (.start fill fileSize n) acts s)
    {w : Fin (n + 1)} {job : MboxWorkerJob} (hpc : s.io.pool.worker w = .running job)
    (hret : s.io.returned w = false) :
    ∃ k < s.io.pool.enqueued, job = ioJob n k ∧ ioRets acts k = 0 ∧ ¬ IoFinished acts k := by
  obtain ⟨hrets, hadded, hfin⟩ := (CallbackPool.retInv_of_run (run_io h)).working hpc hret
  obtain ⟨hid, hjob⟩ := ((ioCounted_of_run h).jobs job).mp hadded
  refine ⟨job.id, hid, hjob, ?_, ?_⟩
  · rw [ioRets, ← hjob]
    exact hrets
  · rw [IoFinished, ← hjob, hfin]
    exact lt_irrefl 0

section Contexts

variable (fill pread fileSize n) in
/-- A context that has sought the start of its part. -/
def SoughtFrom (i : ℕ) (ctx : MboxParserCtx) : Prop :=
  Converges (fun fuel => mboxParserCtxSeekStart fill pread fuel
    (initCtx fill fileSize (fileSize / (n + 1)) i)) ctx

variable (fill pread fileSize) in
/-- The contexts before they are given their messages: each is as it was set up, or has sought its
start. -/
structure Seeks (acts : List (MboxAction n)) (s : MboxThreads n) : Prop where
  length : s.contexts.length = n + 1
  early : s.io.pool.enqueued ≤ n + 1
  none : enqueuedMessages acts = []
  ctx : ∀ i < n + 1, ∃ ctx, s.contexts[i]? = some ctx ∧
    (ioRets acts i = 0 → ctx = initCtx fill fileSize (fileSize / (n + 1)) i) ∧
    (0 < ioRets acts i → SoughtFrom fill pread fileSize n i ctx)

/-- The contexts a file is read with, behind all seeks and with their offsets set. -/
def IsBase (fill : ℕ → MboxChar) (pread : Pread) (fileSize n : ℕ) (base : List MboxParserCtx) :
    Prop :=
  ∃ seeks, List.Forall₂ (SoughtFrom fill pread fileSize n) (List.range (n + 1)) seeks ∧
    base = filterContexts (offsetsOf seeks)

/-- The loop of `mboxParserCtxGetNextMessageCallback` from some state on, and the messages it has
delivered at its end. -/
def Gets (fill : ℕ → MboxChar) (pread : Pread) (ctx : MboxParserCtx) (sent msgs : List MboxIOMsg) :
    Prop := LoopTo (getNextMessageCallbackStep fill pread) (ctx, sent) msgs

variable (fill pread fileSize) in
/-- The contexts `base` are read: one that has not returned is as far in its loop as the messages
say that it has enqueued, and one that has returned has enqueued all its messages. -/
structure Reads (base : List MboxParserCtx) (acts : List (MboxAction n)) (s : MboxThreads n) :
    Prop where
  isBase : IsBase fill pread fileSize n base
  length : s.contexts.length = base.length
  seeksDone : ∀ i < n + 1, IoFinished acts i
  tags : ∀ x ∈ enqueuedMessages acts, x.1 < base.length
  ctx : ∀ i c, base[i]? = some c → ∃ ctx, s.contexts[i]? = some ctx ∧
    (ioRets acts (n + 1 + i) = 0 →
      ∀ msgs, Gets fill pread c [] msgs ↔ Gets fill pread ctx (messagesOf acts i) msgs) ∧
    (0 < ioRets acts (n + 1 + i) → Gets fill pread c [] (messagesOf acts i))

/-- One more step may be the return of a callback. -/
theorem ioRets_snoc (acts : List (MboxAction n)) (a : MboxAction n) (k : ℕ) :
    ioRets (acts ++ [a]) k = ioRets acts k + ioRets [a] k := by
  rw [ioRets, ioActions_snoc, List.countP_append]
  rfl

theorem ioJob_inj {k j : ℕ} : ioJob n k = ioJob n j ↔ k = j := by
  refine ⟨fun heq => ?_, fun heq => heq ▸ rfl⟩
  have hid := congrArg MboxWorkerJob.id heq
  rwa [ioJob_id, ioJob_id] at hid

/-- The callback of a worker of the io pool is over. -/
theorem ioRets_ret (w : Fin (n + 1)) (k j : ℕ) :
    ioRets [MboxAction.io (.ret w (ioJob n k))] j = if k = j then 1 else 0 := by
  change List.countP _ [CallbackAction.ret w (ioJob n k)] = _
  rw [List.countP_singleton, CallbackAction.rets]
  simp only [decide_eq_true_eq, ioJob_inj]

/-- The last message of a context is the return of its callback. -/
theorem ioRets_message (w : Fin (n + 1)) (k j : ℕ) (last : Bool) (msg : MboxIOMsg)
    (parseJob : MboxWorkerJob) :
    ioRets [MboxAction.message w (ioJob n k) last msg parseJob] j =
      if last ∧ k = j then 1 else 0 := by
  cases last with
  | false =>
    rw [if_neg fun h => Bool.false_ne_true h.1]
    rfl
  | true =>
    rw [← ioRets_ret w k j |>.trans (if_congr (and_iff_right rfl).symm rfl rfl)]
    rfl

theorem IoFinished.snoc {k : ℕ} (h : IoFinished acts k) (a : MboxAction n) :
    IoFinished (acts ++ [a]) k := by
  rw [IoFinished, ioActions_snoc, CallbackAction.pools_append, List.countP_append]
  exact Nat.add_pos_left h _

theorem enqueuedMessages_snoc (acts : List (MboxAction n)) (a : MboxAction n) :
    enqueuedMessages (acts ++ [a]) = enqueuedMessages acts ++ enqueuedMessages [a] :=
  List.filterMap_append ..

/-- A step that leaves the contexts alone. -/
theorem Seeks.keep (hi : Seeks fill pread fileSize acts s) (hctx : s'.contexts = s.contexts)
    (hen : s'.io.pool.enqueued ≤ n + 1) (hmsg : enqueuedMessages [a] = [])
    (hrets : ∀ k, ioRets [a] k = 0) : Seeks fill pread fileSize (acts ++ [a]) s' := by
  refine ⟨hctx ▸ hi.length, hen, ?_, fun i hlt => ?_⟩
  · rw [enqueuedMessages_snoc, hmsg, hi.none, List.append_nil]
  · rw [hctx, ioRets_snoc, hrets, Nat.add_zero]
    exact hi.ctx i hlt

/-- Such a step while messages are read. -/
theorem Reads.keep {base : List MboxParserCtx} (hi : Reads fill pread fileSize base acts s)
    (hctx : s'.contexts = s.contexts) (hmsg : enqueuedMessages [a] = [])
    (hrets : ∀ k, ioRets [a] k = 0) : Reads fill pread fileSize base (acts ++ [a]) s' := by
  have hsame : enqueuedMessages (acts ++ [a]) = enqueuedMessages acts := by
    rw [enqueuedMessages_snoc, hmsg, List.append_nil]
  refine ⟨hi.isBase, hctx ▸ hi.length, fun i hlt => (hi.seeksDone i hlt).snoc a, ?_,
    fun i c hc => ?_⟩
  · rw [hsame]
    exact hi.tags
  · rw [hctx, ioRets_snoc, hrets, Nat.add_zero, messagesOf, hsame]
    exact hi.ctx i c hc

/-- A context seeks its start. -/
theorem Seeks.update {k : ℕ} {ctx ctx' : MboxParserCtx} (hi : Seeks fill pread fileSize acts s)
    (hctx : s'.contexts = s.contexts.set k ctx') (hold : s.contexts[k]? = some ctx)
    (hopen : ioRets acts k = 0)
    (hseek : Converges (fun fuel => mboxParserCtxSeekStart fill pread fuel ctx) ctx')
    (hen : s'.io.pool.enqueued ≤ n + 1) (hmsg : enqueuedMessages [a] = [])
    (hrets : ∀ j, ioRets [a] j = if k = j then 1 else 0) :
    Seeks fill pread fileSize (acts ++ [a]) s' := by
  refine ⟨?_, hen, ?_, fun i hi' => ?_⟩
  · rw [hctx, List.length_set, hi.length]
  · rw [enqueuedMessages_snoc, hmsg, hi.none, List.append_nil]
  · rw [hctx, ioRets_snoc, hrets]
    obtain ⟨c, hc, hbefore, hafter⟩ := hi.ctx i hi'
    by_cases heq : k = i
    · subst heq
      obtain rfl := Option.some.inj (hold.symm.trans hc)
      refine ⟨ctx', ?_, fun hnone => ?_, fun _ => ?_⟩
      · rw [List.getElem?_set_self (hi.length ▸ hi')]
      · rw [if_pos rfl] at hnone
        cases hnone
      · rw [SoughtFrom, ← hbefore hopen]
        exact hseek
    · rw [List.getElem?_set_ne heq, if_neg heq, Nat.add_zero]
      exact ⟨c, hc, hbefore, hafter⟩

/-- A context goes through its loop once. -/
theorem Reads.update {base : List MboxParserCtx} {i : ℕ} {ctx ctx' : MboxParserCtx}
    (new : List MboxIOMsg) (last : Bool) (hi : Reads fill pread fileSize base acts s)
    (hctx : s'.contexts = s.contexts.set i ctx') (hold : s.contexts[i]? = some ctx)
    (hlt : i < base.length) (hopen : ioRets acts (n + 1 + i) = 0)
    (hmsg : enqueuedMessages [a] = new.map fun msg => (i, msg))
    (hrets : ∀ j, ioRets [a] j = if last ∧ n + 1 + i = j then 1 else 0)
    (hgo : last = false → ∀ msgs, Gets fill pread ctx (messagesOf acts i) msgs ↔
      Gets fill pread ctx' (messagesOf acts i ++ new) msgs)
    (hlast : last = true → Gets fill pread ctx (messagesOf acts i) (messagesOf acts i ++ new)) :
    Reads fill pread fileSize base (acts ++ [a]) s' := by
  have hof (j : ℕ) :
      messagesOf (acts ++ [a]) j = messagesOf acts j ++ if i = j then new else [] := by
    rw [messagesOf, enqueuedMessages_snoc, hmsg, List.filter_append, List.map_append]
    congr 1
    by_cases heq : i = j
    · rw [if_pos heq, List.filter_eq_self.mpr, List.map_map]
      · exact List.map_id _
      · intro x hx
        obtain ⟨msg, -, rfl⟩ := List.mem_map.mp hx
        exact decide_eq_true heq
    · rw [if_neg heq, List.filter_eq_nil_iff.mpr, List.map_nil]
      intro x hx
      obtain ⟨msg, -, rfl⟩ := List.mem_map.mp hx
      simpa using heq
  refine ⟨hi.isBase, ?_, fun j hj => (hi.seeksDone j hj).snoc a, fun x hx => ?_, fun j c hc => ?_⟩
  · rw [hctx, List.length_set, hi.length]
  · rw [enqueuedMessages_snoc, hmsg] at hx
    rcases List.mem_append.mp hx with hx | hx
    · exact hi.tags x hx
    · obtain ⟨msg, -, rfl⟩ := List.mem_map.mp hx
      exact hlt
  · rw [hctx, ioRets_snoc, hrets, hof]
    obtain ⟨c', hc', hbefore, hafter⟩ := hi.ctx j c hc
    by_cases heq : i = j
    · subst heq
      obtain rfl := Option.some.inj (hold.symm.trans hc')
      rw [if_pos rfl, hopen, Nat.zero_add]
      refine ⟨ctx', List.getElem?_set_self (hi.length ▸ hlt), fun hnone msgs => ?_,
        fun hsome => ?_⟩
      · refine (hbefore hopen msgs).trans (hgo ?_ msgs)
        cases last with
        | false => rfl
        | true =>
          rw [if_pos ⟨rfl, rfl⟩] at hnone
          cases hnone
      · refine (hbefore hopen _).mpr (hlast ?_)
        cases last with
        | false =>
          rw [if_neg fun h => Bool.false_ne_true h.1] at hsome
          exact absurd hsome (lt_irrefl 0)
        | true => rfl
    · rw [List.getElem?_set_ne heq, if_neg heq, if_neg fun h => heq (Nat.add_left_cancel h.2),
        Nat.add_zero, List.append_nil]
      exact ⟨c', hc', hbefore, hafter⟩

/-! ### An iteration of the loop -/

section Iteration

variable {ctx ctx' : MboxParserCtx} {sent : List MboxIOMsg} {msg : MboxIOMsg}

theorem gets_of_none
    (h : Converges (fun fuel => mboxParserCtxGetNextMessage fill pread fuel ctx) (none, ctx')) :
    Gets fill pread ctx sent sent :=
  LoopTo.done (Converges.bind h (Converges.const rfl))

theorem gets_of_last
    (h : Converges (fun fuel => mboxParserCtxGetNextMessage fill pread fuel ctx) (some msg, ctx'))
    (herr : ctx'.err = mboxParseDone) : Gets fill pread ctx sent (sent ++ [msg]) :=
  LoopTo.done (Converges.bind h (Converges.const (if_pos herr)))

/-- Behind another one it goes on, with that message delivered. -/
theorem gets_of_some {msgs : List MboxIOMsg}
    (h : Converges (fun fuel => mboxParserCtxGetNextMessage fill pread fuel ctx) (some msg, ctx'))
    (herr : ctx'.err ≠ mboxParseDone) :
    Gets fill pread ctx sent msgs ↔ Gets fill pread ctx' (sent ++ [msg]) msgs := by
  have hstep : Converges (fun fuel => getNextMessageCallbackStep fill pread fuel (ctx, sent))
      (.inl (ctx', sent ++ [msg])) := Converges.bind h (Converges.const (if_neg herr))
  exact ⟨LoopTo.step_inv hstep, LoopTo.step hstep⟩

end Iteration

/-! ## The phases of the main thread -/

/-- The job of the parse pool with a number is finished. -/
def ParseFinished (acts : List (MboxAction n)) (k : ℕ) : Prop :=
  0 < (CallbackAction.pools (parseActions acts)).countP (PoolAction.finishes (parseJob k))

/-- The io pool is waited for, with the job with a number in it. -/
abbrev IoWaits (acts : List (MboxAction n)) (s : MboxThreads n) (k : ℕ) : Prop :=
  CallbackPool.Waits (ioActions acts) s.io (ioJob n k)

/-- The main thread waits for a job of the parse pool. -/
abbrev ParseWaits (acts : List (MboxAction n)) (s : MboxThreads n) (k : ℕ) : Prop :=
  CallbackPool.Waits (parseActions acts) s.parse (parseJob k)

/-- All contexts have been gone through to their ends. -/
def ContextsDone (acts : List (MboxAction n)) (s : MboxThreads n) : Prop :=
  ∀ i < s.contexts.length, IoFinished acts (n + 1 + i)

variable (fill pread fileSize) in
/-- What is known where the main thread stands: which jobs are finished, and what the contexts have
done. -/
def Phase (acts : List (MboxAction n)) (s : MboxThreads n) : MainPc → Prop
  | .seeking _ => Seeks fill pread fileSize acts s
  | .seekWait => Seeks fill pread fileSize acts s ∧ ∀ i < n + 1, IoWaits acts s i
  | .reading _ => ∃ base, Reads fill pread fileSize base acts s
  | .ioWait => (∃ base, Reads fill pread fileSize base acts s) ∧
      ∀ i < s.contexts.length, IoWaits acts s (n + 1 + i)
  | .ioDone => (∃ base, Reads fill pread fileSize base acts s) ∧ ContextsDone acts s
  | .parseWait => (∃ base, Reads fill pread fileSize base acts s) ∧ ContextsDone acts s ∧
      ∀ k < s.messages.length, ParseWaits acts s k
  | .returned => (∃ base, Reads fill pread fileSize base acts s) ∧ ContextsDone acts s ∧
      ∀ k < s.messages.length, ParseFinished acts k

/-- A wait for a job of the io pool goes on with every step. -/
theorem IoWaits.step {k : ℕ}
    (hrun : Run (MboxThreads.Step fill dateToUnix pread) (.start fill fileSize n) acts s)
    (hw : IoWaits acts s k) (h : MboxThreads.Step fill dateToUnix pread s a s') :
    IoWaits (acts ++ [a]) s' k := by
  rw [IoWaits, ioActions_snoc]
  rcases io_of_step h with ⟨hnone, hsame⟩ | ⟨b, hsome, hb⟩
  · have hnil : ioActions [a] = [] := List.filterMap_cons_none hnone
    rw [hnil, hsame, List.append_nil]
    exact hw
  · have hone : ioActions [a] = [b] := List.filterMap_cons_some hsome
    rw [hone]
    exact CallbackPool.Waits.step (run_io hrun) hw hb

/-- So does one for a job of the parse pool. -/
theorem ParseWaits.step {k : ℕ}
    (hrun : Run (MboxThreads.Step fill dateToUnix pread) (.start fill fileSize n) acts s)
    (hw : ParseWaits acts s k) (h : MboxThreads.Step fill dateToUnix pread s a s') :
    ParseWaits (acts ++ [a]) s' k := by
  rw [ParseWaits, parseActions_snoc]
  rcases parse_of_step h with ⟨hnone, hsame⟩ | ⟨b, hsome, hb⟩
  · have hnil : parseActions [a] = [] := List.filterMap_cons_none hnone
    rw [hnil, hsame, List.append_nil]
    exact hw
  · have hone : parseActions [a] = [b] := List.filterMap_cons_some hsome
    rw [hone]
    exact CallbackPool.Waits.step (run_parse hrun) hw hb

/-- A job of the parse pool that is finished stays so. -/
theorem ParseFinished.snoc {k : ℕ} (h : ParseFinished acts k) (a : MboxAction n) :
    ParseFinished (acts ++ [a]) k := by
  rw [ParseFinished, parseActions_snoc, CallbackAction.pools_append, List.countP_append]
  exact Nat.add_pos_left h _

/-- A step that does not move the main thread keeps its phase. -/
theorem Phase.go_on
    (hrun : Run (MboxThreads.Step fill dateToUnix pread) (.start fill fileSize n) acts s)
    (h : MboxThreads.Step fill dateToUnix pread s a s')
    (hlen : s'.contexts.length = s.contexts.length)
    (hseeks : Seeks fill pread fileSize acts s → Seeks fill pread fileSize (acts ++ [a]) s')
    (hreads : ∀ base, Reads fill pread fileSize base acts s →
      Reads fill pread fileSize base (acts ++ [a]) s')
    (hmsgs : (∃ base, Reads fill pread fileSize base acts s) → ContextsDone acts s →
      s'.messages.length = s.messages.length)
    {pc : MainPc} (hi : Phase fill pread fileSize acts s pc) :
    Phase fill pread fileSize (acts ++ [a]) s' pc := by
  have hbase : (∃ base, Reads fill pread fileSize base acts s) →
      ∃ base, Reads fill pread fileSize base (acts ++ [a]) s' :=
    fun ⟨base, hbase⟩ => ⟨base, hreads base hbase⟩
  have hdone : ContextsDone acts s → ContextsDone (acts ++ [a]) s' :=
    fun hd i hlt => (hd i (hlen ▸ hlt)).snoc a
  cases pc with
  | seeking i => exact hseeks hi
  | seekWait => exact ⟨hseeks hi.1, fun i hlt => IoWaits.step hrun (hi.2 i hlt) h⟩
  | reading i => exact hbase hi
  | ioWait => exact ⟨hbase hi.1, fun i hlt => IoWaits.step hrun (hi.2 i (hlen ▸ hlt)) h⟩
  | ioDone => exact ⟨hbase hi.1, hdone hi.2⟩
  | parseWait =>
    obtain ⟨hreads', hcontexts, hwaits⟩ := hi
    refine ⟨hbase hreads', hdone hcontexts, fun k hlt => ParseWaits.step hrun (hwaits k ?_) h⟩
    rwa [hmsgs hreads' hcontexts] at hlt
  | returned =>
    obtain ⟨hreads', hcontexts, hfinished⟩ := hi
    refine ⟨hbase hreads', hdone hcontexts, fun k hlt => (hfinished k ?_).snoc a⟩
    rwa [hmsgs hreads' hcontexts] at hlt

/-- The jobs that seek have the first numbers. -/
theorem of_seekStartCallback {k : ℕ} (h : (ioJob n k).callback = seekStartCallback) :
    k < n + 1 ∧ (ioJob n k).argv = k := by
  rw [ioJob] at h ⊢
  by_cases hk : k < n + 1
  · rw [if_pos hk]
    exact ⟨hk, rfl⟩
  · rw [if_neg hk] at h
    cases h

/-- The jobs that read have the numbers behind. -/
theorem of_getNextMessageCallback {k : ℕ} (h : (ioJob n k).callback = getNextMessageCallback) :
    ∃ i, k = n + 1 + i ∧ (ioJob n k).argv = i := by
  rw [ioJob] at h ⊢
  by_cases hk : k < n + 1
  · rw [if_pos hk] at h
    cases h
  · rw [if_neg hk]
    exact ⟨k - (n + 1), by omega, rfl⟩

/-- A message is part of the work of a callback, or the last of it. -/
theorem deliver_eq (w : Fin (n + 1)) (job : MboxWorkerJob) (last : Bool) :
    MboxAction.deliver w job last = .work w job ∨ MboxAction.deliver w job last = .ret w job := by
  cases last
  · exact Or.inl rfl
  · exact Or.inr rfl

/-- **A step of a worker** keeps the phase of the main thread, since it finishes jobs and takes
nothing back. -/
theorem Phase.step_workers
    (hrun : Run (MboxThreads.Step fill dateToUnix pread) (.start fill fileSize n) acts s)
    (h : MboxThreads.Step fill dateToUnix pread s a s') (hmain : s'.main = s.main)
    (hi : Phase fill pread fileSize acts s s.main) :
    Phase fill pread fileSize (acts ++ [a]) s' s'.main := by
  rw [hmain]
  have hle := (ioCounted_of_run hrun).le
  cases h with
  | @ioPool a _ ha _ hio =>
    have hen := hio.enqueued_eq ha.isAdd_eq
    exact hi.go_on hrun (.ioPool ha ‹_› hio) rfl
      (fun hs => hs.keep rfl (hen.trans_le hs.early) rfl fun _ => rfl)
      (fun _ hr => hr.keep rfl rfl fun _ => rfl) fun _ _ => rfl
  | parsePool ha hparse =>
    exact hi.go_on hrun (.parsePool ha hparse) rfl
      (fun hs => hs.keep rfl hs.early rfl fun _ => rfl)
      (fun _ hr => hr.keep rfl rfl fun _ => rfl) fun _ _ => rfl
  | lite hmsg hconv hadd hparse =>
    exact hi.go_on hrun (.lite hmsg hconv hadd hparse) rfl
      (fun hs => hs.keep rfl hs.early rfl fun _ => rfl)
      (fun _ hr => hr.keep rfl rfl fun _ => rfl) fun _ _ => rfl
  | seekStart hcallback hctx hconv hio =>
    obtain ⟨hpc, hret, hpool⟩ := hio.running_of_work (Or.inr rfl)
    obtain ⟨k, hk, rfl, hopen, hfin⟩ := working_io hrun hpc hret
    obtain ⟨hlt, hargv⟩ := of_seekStartCallback hcallback
    refine hi.go_on hrun (.seekStart hcallback hctx hconv hio) (List.length_set ..) (fun hs => ?_)
      (fun _ hr => absurd (hr.seeksDone k hlt) hfin) fun _ _ => rfl
    rw [hargv] at hctx
    refine hs.update ?_ hctx hopen hconv ?_ rfl (ioRets_ret _ k)
    · simp only [hargv]
    · simp only [hpool]
      exact hs.early
  | @noMessage _ _ _ ctx' _ hcallback hctx hconv hidle hio =>
    obtain ⟨hpc, hret, -⟩ := hio.running_of_work (Or.inr rfl)
    obtain ⟨k, hk, rfl, hopen, -⟩ := working_io hrun hpc hret
    obtain ⟨i, rfl, hargv⟩ := of_getNextMessageCallback hcallback
    refine hi.go_on hrun (.noMessage hcallback hctx hconv hidle hio) (List.length_set ..)
      (fun hs => ?_) (fun base hr => ?_) fun _ _ => rfl
    · have hearly := hs.early
      omega
    · rw [hargv] at hctx
      have hlen := hr.length
      have hset := congrArg (s.contexts.set · ctx') hargv
      refine hr.update [] true hset hctx (by omega) hopen rfl (fun j => ?_)
        (fun hgo => absurd hgo.symm Bool.false_ne_true) fun _ => ?_
      · rw [ioRets_ret]
        exact if_congr (and_iff_right rfl).symm rfl rfl
      · rw [List.append_nil]
        exact gets_of_none hconv
  | @message w _ _ ctx' last msg parseJob _ _ hcallback hctx hconv hlast hio hcb hparg hparse =>
    obtain ⟨hpc, hret, -⟩ := hio.running_of_work (deliver_eq ..)
    obtain ⟨k, hk, rfl, hopen, hfin⟩ := working_io hrun hpc hret
    obtain ⟨i, rfl, hargv⟩ := of_getNextMessageCallback hcallback
    refine hi.go_on hrun (.message hcallback hctx hconv hlast hio hcb hparg hparse)
      (List.length_set ..) (fun hs => ?_) (fun base hr => ?_) fun _ hdone => ?_
    · have hearly := hs.early
      omega
    · rw [hargv] at hctx
      have hlen := hr.length
      have hset := congrArg (s.contexts.set · ctx') hargv
      refine hr.update [msg] last hset hctx (by omega) hopen ?_
        (fun j => ioRets_message ..) (fun hgo msgs => ?_) fun hend => ?_
      · change [((ioJob n (n + 1 + i)).argv, msg)] = _
        rw [hargv]
        rfl
      · rw [hlast] at hgo
        exact gets_of_some hconv (of_decide_eq_false hgo)
      · rw [hlast] at hend
        exact gets_of_last hconv (of_decide_eq_true hend)
    · exact absurd (hdone i (by omega)) hfin
  | enqueueSeek hpc =>
    rw [hpc] at hmain
    exact absurd (MainPc.seeking.inj hmain) (Nat.succ_ne_self _)
  | enqueueContext hpc =>
    rw [hpc] at hmain
    exact absurd (MainPc.reading.inj hmain) (Nat.succ_ne_self _)
  | waitSeeks hpc | setOffsets hpc | waitIo hpc | ioReturn hpc | waitParse hpc | parseReturn hpc =>
    rw [hpc] at hmain
    cases hmain

/-- A job of the io pool with a number was added. -/
theorem added_io {k : ℕ}
    (hrun : Run (MboxThreads.Step fill dateToUnix pread) (.start fill fileSize n) acts s)
    (hk : k < s.io.pool.enqueued) :
    0 < (CallbackAction.pools (ioActions acts)).countP (PoolAction.adds (ioJob n k)) :=
  ((ioCounted_of_run hrun).jobs _).mpr (by rw [ioJob_id]; exact ⟨hk, rfl⟩)

theorem added_parse {k : ℕ}
    (hrun : Run (MboxThreads.Step fill dateToUnix pread) (.start fill fileSize n) acts s)
    (hk : k < s.messages.length) :
    0 < (CallbackAction.pools (parseActions acts)).countP (PoolAction.adds (parseJob k)) := by
  have hcounted := parseCounted_of_run hrun
  exact (hcounted.jobs _).mpr ⟨hcounted.enqueued ▸ hk, rfl⟩

/-- **The contexts are given their messages**: all have sought their starts, and nothing is
delivered yet. -/
theorem Seeks.reads
    (hrun : Run (MboxThreads.Step fill dateToUnix pread) (.start fill fileSize n) acts s)
    (hi : Seeks fill pread fileSize acts s) (hfin : ∀ i < n + 1, IoFinished acts i)
    (hctx : s'.contexts = filterContexts (offsetsOf s.contexts))
    (ha : a = .io (.pool .waitReturn)) :
    Reads fill pread fileSize (filterContexts (offsetsOf s.contexts)) (acts ++ [a]) s' := by
  have hret := CallbackPool.retInv_of_run (run_io hrun)
  have hmsg : enqueuedMessages (acts ++ [a]) = [] := by
    rw [enqueuedMessages_snoc, hi.none, ha]
    rfl
  refine ⟨⟨s.contexts, ?_, rfl⟩, congrArg List.length hctx, fun i hlt => (hfin i hlt).snoc a, ?_,
    ?_⟩
  · refine List.forall₂_iff_get.mpr ⟨by rw [List.length_range, hi.length], fun i h₁ h₂ => ?_⟩
    rw [List.length_range] at h₁
    obtain ⟨ctx, hget, -, hsought⟩ := hi.ctx i h₁
    have hctx' : s.contexts[i] = ctx := (List.getElem?_eq_some_iff.mp hget).2
    rw [List.get_eq_getElem, List.get_eq_getElem, List.getElem_range, hctx']
    refine hsought ?_
    rw [ioRets, hret.rets_of_finished (hfin i h₁)]
    exact Nat.one_pos
  · rw [hmsg]
    exact fun x hx => absurd hx List.not_mem_nil
  · intro i c hc
    rw [← hctx] at hc
    refine ⟨c, hc, fun _ msgs => ?_, fun hsome => ?_⟩
    · rw [messagesOf, hmsg]
      exact Iff.rfl
    · -- the job of this context has not been added yet
      have hle := hret.rets_le_adds (ioJob n (n + 1 + i))
      have hnone : ¬ 0 < (CallbackAction.pools (ioActions acts)).countP
          (PoolAction.adds (ioJob n (n + 1 + i))) := by
        rw [(ioCounted_of_run hrun).jobs, ioJob_id]
        have hearly := hi.early
        omega
      have hzero : ioRets [a] (n + 1 + i) = 0 := by
        rw [ha]
        rfl
      rw [ioRets_snoc, hzero, ioRets] at hsome
      omega

/-- **A step of the threads** leads from one phase to the next, or keeps it. -/
theorem Phase.step
    (hrun : Run (MboxThreads.Step fill dateToUnix pread) (.start fill fileSize n) acts s)
    (h : MboxThreads.Step fill dateToUnix pread s a s')
    (hi : Phase fill pread fileSize acts s s.main) :
    Phase fill pread fileSize (acts ++ [a]) s' s'.main := by
  have hcounted := ioCounted_of_run hrun
  have hnext := ioCounted_of_run (hrun.snoc h)
  have hen := hcounted.enqueued
  have hen' := hnext.enqueued
  cases h with
  | ioPool ha hfin hio => exact hi.step_workers hrun (.ioPool ha hfin hio) rfl
  | parsePool ha hparse => exact hi.step_workers hrun (.parsePool ha hparse) rfl
  | seekStart hcb hctx hconv hio => exact hi.step_workers hrun (.seekStart hcb hctx hconv hio) rfl
  | noMessage hcb hctx hconv hidle hio =>
    exact hi.step_workers hrun (.noMessage hcb hctx hconv hidle hio) rfl
  | message hcb hctx hconv hlast hio hpcb hparg hparse =>
    exact hi.step_workers hrun (.message hcb hctx hconv hlast hio hpcb hparg hparse) rfl
  | lite hmsg hconv hadd hparse => exact hi.step_workers hrun (.lite hmsg hconv hadd hparse) rfl
  | enqueueSeek hmain hlt hcb harg hio =>
    rw [hmain] at hi
    exact Seeks.keep hi rfl (hen'.trans_le hlt) rfl fun _ => rfl
  | waitSeeks hmain hidle hio =>
    rw [hmain] at hi hen
    refine ⟨Seeks.keep hi rfl hen'.le rfl fun _ => rfl, fun i hlt => ?_⟩
    rw [IoWaits, ioActions_snoc]
    exact CallbackPool.waits_of_waitCall hio (added_io hrun (hen ▸ hlt))
  | setOffsets hmain hio =>
    rw [hmain] at hi
    obtain ⟨hseeks, hwaits⟩ := hi
    exact ⟨_, hseeks.reads hrun (fun i hlt => (hwaits i hlt).finished hio) rfl rfl⟩
  | enqueueContext hmain hlt hcb harg hio =>
    rw [hmain] at hi
    obtain ⟨base, hreads⟩ := hi
    exact ⟨base, hreads.keep rfl rfl fun _ => rfl⟩
  | waitIo hmain hidle hio =>
    rw [hmain] at hi hen
    obtain ⟨base, hreads⟩ := hi
    refine ⟨⟨base, hreads.keep rfl rfl fun _ => rfl⟩, fun i hlt => ?_⟩
    rw [IoWaits, ioActions_snoc]
    refine CallbackPool.waits_of_waitCall hio (added_io hrun ?_)
    rw [hen]
    exact Nat.add_lt_add_left hlt _
  | ioReturn hmain hio =>
    rw [hmain] at hi
    obtain ⟨⟨base, hreads⟩, hwaits⟩ := hi
    refine ⟨⟨base, hreads.keep rfl rfl fun _ => rfl⟩, fun i hlt => ?_⟩
    have hfin : IoFinished acts (n + 1 + i) := (hwaits i hlt).finished hio
    exact hfin.snoc _
  | waitParse hmain hparse =>
    rw [hmain] at hi
    obtain ⟨⟨base, hreads⟩, hdone⟩ := hi
    refine ⟨⟨base, hreads.keep rfl rfl fun _ => rfl⟩, fun i hlt => (hdone i hlt).snoc _,
      fun k hlt => ?_⟩
    rw [ParseWaits, parseActions_snoc]
    exact CallbackPool.waits_of_waitCall hparse (added_parse hrun hlt)
  | parseReturn hmain hparse =>
    rw [hmain] at hi
    obtain ⟨⟨base, hreads⟩, hdone, hwaits⟩ := hi
    refine ⟨⟨base, hreads.keep rfl rfl fun _ => rfl⟩, fun i hlt => (hdone i hlt).snoc _,
      fun k hlt => ?_⟩
    have hfin : ParseFinished acts k := (hwaits k hlt).finished hparse
    exact hfin.snoc _

/-- So the phase of the main thread is known in every run. -/
theorem phase_of_run
    (h : Run (MboxThreads.Step fill dateToUnix pread) (.start fill fileSize n) acts s) :
    Phase fill pread fileSize acts s s.main := by
  have hstart : Seeks fill pread fileSize [] (MboxThreads.start fill fileSize n) := by
    refine ⟨by simp [MboxThreads.start], Nat.zero_le _, rfl, fun i hlt => ?_⟩
    refine ⟨_, ?_, fun _ => rfl, fun hsome => absurd hsome (lt_irrefl 0)⟩
    simp [MboxThreads.start, hlt]
  induction h with
  | refl => exact hstart
  | snoc hrun hstep ih => exact ih.step hrun hstep

end Contexts

end Runs

end Libmbox2
