import Libmbox2.Steps

/-!
# The worker pool (`mbox-worker.c`)

The threads of a pool interleave: any number of workers (`W`), any number of threads that
enqueue jobs (`E`) and one that waits for all jobs. A step is a critical section. Those
under `sem->lock`, and those of the workers under `pool->lock`, run from lock to unlock in
one step. Under `qlock` the semaphore is signalled as well, so there the list operation,
the signal and the unlock are steps of their own, and so are the two reads of
`mboxWorkerPoolWait`, which are made under `pool->lock`.

A thread that waits for a condition variable may wake up at any time. It then finds out by
itself whether it may go on, so `pthread_cond_signal` has no effect on the states that can
be reached, and is left out.
-/

namespace Libmbox2

open CSem

/-- `struct mboxWorkerJob`. The pointers are addresses; as jobs are freed and allocated
again, `id` tells them apart. -/
structure MboxWorkerJob where
  /-- which job of the pool this is -/
  id : ℕ
  callback : ℕ
  argv : ℕ
  deriving DecidableEq, Repr

/-- Where a worker stands in `mboxWorkerPoolMain`, in front of which critical section. -/
inductive WorkerPc where
  /-- in front of `alive_threads++` -/
  | starting
  /-- in `mboxSemaphoreWait` -/
  | waiting
  /-- behind `mboxSemaphoreWait`, in front of `active_threads++` -/
  | woken
  /-- in front of `mboxWorkerPoolDequeue` -/
  | active
  /-- in `mboxWorkerPoolDequeue`, with what `mboxListRemoveHead` returned -/
  | dequeued (job : Option MboxWorkerJob)
  /-- in `mboxWorkerPoolDequeue`, behind the signal -/
  | signalled (job : MboxWorkerJob)
  /-- in front of the callback -/
  | got (job : MboxWorkerJob)
  /-- in the callback -/
  | running (job : MboxWorkerJob)
  /-- in front of `active_threads--` -/
  | done
  deriving DecidableEq, Repr

/-- Where a thread stands in `mboxWorkerPoolEnqueue`; it holds `qlock` everywhere but outside of the
call. -/
inductive EnqueuerPc where
  /-- not in it -/
  | idle
  /-- behind `mboxListAddTail` -/
  | added
  /-- behind `mboxSemaphoreSignal` -/
  | signalled
  deriving DecidableEq, Repr

/-- Where the waiting thread stands in `mboxWorkerPoolWait`; it holds `pool->lock` but where it
sleeps, in front of the lock and outside of the call. -/
inductive WaiterPc where
  /-- not in it -/
  | idle
  /-- in front of the lock -/
  | entered
  /-- in front of reading `jobs->len` -/
  | locked
  /-- `jobs->len` was `0`, in front of reading `active_threads` -/
  | lenZero
  /-- in `pthread_cond_wait` -/
  | asleep
  /-- behind the loop -/
  | returning
  deriving DecidableEq, Repr

/-- `struct mboxWorkerPool` and its threads: the queue, the counters, the semaphore and the two
locks, and where each thread stands. -/
structure MboxWorkerPool (W E : Type) where
  /-- work to be done -/
  jobs : List MboxWorkerJob
  /-- threads that are alive -/
  aliveThreads : ℕ
  /-- threads that may have a job -/
  activeThreads : ℕ
  /-- `sem->val` -/
  semVal : ℕ
  /-- the thread that holds `qlock` -/
  qlock : Option (E ⊕ W)
  /-- the waiting thread holds `pool->lock` -/
  lock : Bool
  /-- how many jobs there have been -/
  enqueued : ℕ
  worker : W → WorkerPc
  enqueuer : E → EnqueuerPc
  waiter : WaiterPc

/-- What a step does, and which thread takes it. The job is part of the label where it is added,
called and finished, so that the run tells what has become of it. -/
inductive PoolAction (W E : Type) where
  | addTail (e : E) (job : MboxWorkerJob)
  | signal (e : E)
  | unlock (e : E)
  | start (w : W)
  | semaphoreWait (w : W)
  | activate (w : W)
  | removeHead (w : W)
  | resignal (w : W)
  | unlockQueue (w : W)
  | call (w : W) (job : MboxWorkerJob)
  | finish (w : W) (job : MboxWorkerJob)
  | deactivate (w : W)
  | waitCall
  | waitLock
  | readLen
  | readActive
  | waitReturn
  deriving DecidableEq

section Actions

variable {W E : Type}

/-- The step adds the job to the queue. -/
def PoolAction.adds (job : MboxWorkerJob) : PoolAction W E → Bool
  | .addTail _ job' => job' = job
  | _ => false

/-- The step calls the callback of the job. -/
def PoolAction.calls (job : MboxWorkerJob) : PoolAction W E → Bool
  | .call _ job' => job' = job
  | _ => false

/-- In the step the callback of the job returns. -/
def PoolAction.finishes (job : MboxWorkerJob) : PoolAction W E → Bool
  | .finish _ job' => job' = job
  | _ => false

end Actions

namespace MboxWorkerPool

variable {W E : Type}

/-- `mboxWorkerPoolNew`, in front of the first step of a worker. -/
def new : MboxWorkerPool W E where
  jobs := []
  aliveThreads := 0
  activeThreads := 0
  semVal := 0
  qlock := none
  lock := false
  enqueued := 0
  worker := fun _ => .starting
  enqueuer := fun _ => .idle
  waiter := .idle

/-- A worker moves on, and nothing else changes. -/
def setWorker [DecidableEq W] (s : MboxWorkerPool W E) (w : W) (pc : WorkerPc) :
    MboxWorkerPool W E :=
  { s with worker := Function.update s.worker w pc }

/-- An enqueuing thread moves on, and nothing else changes. -/
def setEnqueuer [DecidableEq E] (s : MboxWorkerPool W E) (e : E) (pc : EnqueuerPc) :
    MboxWorkerPool W E :=
  { s with enqueuer := Function.update s.enqueuer e pc }

@[simp] theorem worker_setWorker [DecidableEq W] (s : MboxWorkerPool W E) (w : W)
    (pc : WorkerPc) : (s.setWorker w pc).worker = Function.update s.worker w pc := rfl

@[simp] theorem enqueuer_setEnqueuer [DecidableEq E] (s : MboxWorkerPool W E) (e : E)
    (pc : EnqueuerPc) : (s.setEnqueuer e pc).enqueuer = Function.update s.enqueuer e pc := rfl

variable [DecidableEq W] [DecidableEq E]

/-- The steps of the threads. A step has the conditions under which its critical section is entered,
so a thread that waits for a lock has no step. -/
inductive Step : MboxWorkerPool W E → PoolAction W E → MboxWorkerPool W E → Prop where
  /-- `mboxWorkerPoolEnqueue`: take `qlock` and add the job -/
  | addTail {s : MboxWorkerPool W E} {e : E} {job : MboxWorkerJob} :
      s.enqueuer e = .idle → s.qlock = none → job.id = s.enqueued →
      Step s (.addTail e job) { s.setEnqueuer e .added with
        jobs := s.jobs ++ [job], qlock := some (.inl e), enqueued := s.enqueued + 1 }
  /-- `mboxSemaphoreSignal` -/
  | signal {s : MboxWorkerPool W E} {e : E} :
      s.enqueuer e = .added →
      Step s (.signal e) { s.setEnqueuer e .signalled with semVal := 1 }
  /-- release `qlock` -/
  | unlock {s : MboxWorkerPool W E} {e : E} :
      s.enqueuer e = .signalled →
      Step s (.unlock e) { s.setEnqueuer e .idle with qlock := none }
  /-- `alive_threads++` -/
  | start {s : MboxWorkerPool W E} {w : W} :
      s.worker w = .starting → s.lock = false →
      Step s (.start w) { s.setWorker w .waiting with aliveThreads := s.aliveThreads + 1 }
  /-- `mboxSemaphoreWait` ends -/
  | semaphoreWait {s : MboxWorkerPool W E} {w : W} :
      s.worker w = .waiting → s.semVal = 1 →
      Step s (.semaphoreWait w) { s.setWorker w .woken with semVal := 0 }
  /-- `active_threads++` -/
  | activate {s : MboxWorkerPool W E} {w : W} :
      s.worker w = .woken → s.lock = false →
      Step s (.activate w) { s.setWorker w .active with activeThreads := s.activeThreads + 1 }
  /-- `mboxWorkerPoolDequeue`: take `qlock` and the first job -/
  | removeHead {s : MboxWorkerPool W E} {w : W} :
      s.worker w = .active → s.qlock = none →
      Step s (.removeHead w) { s.setWorker w (.dequeued s.jobs.head?) with
        jobs := s.jobs.tail, qlock := some (.inr w) }
  /-- `if (job) mboxSemaphoreSignal` -/
  | resignal {s : MboxWorkerPool W E} {w : W} {job : MboxWorkerJob} :
      s.worker w = .dequeued (some job) →
      Step s (.resignal w) { s.setWorker w (.signalled job) with semVal := 1 }
  /-- release `qlock`, with a job -/
  | unlockJob {s : MboxWorkerPool W E} {w : W} {job : MboxWorkerJob} :
      s.worker w = .signalled job →
      Step s (.unlockQueue w) { s.setWorker w (.got job) with qlock := none }
  /-- release `qlock`, without a job -/
  | unlockEmpty {s : MboxWorkerPool W E} {w : W} :
      s.worker w = .dequeued none →
      Step s (.unlockQueue w) { s.setWorker w .done with qlock := none }
  /-- the callback is called -/
  | call {s : MboxWorkerPool W E} {w : W} {job : MboxWorkerJob} :
      s.worker w = .got job →
      Step s (.call w job) (s.setWorker w (.running job))
  /-- the callback returns and the job is freed -/
  | finish {s : MboxWorkerPool W E} {w : W} {job : MboxWorkerJob} :
      s.worker w = .running job →
      Step s (.finish w job) (s.setWorker w .done)
  /-- `active_threads--` -/
  | deactivate {s : MboxWorkerPool W E} {w : W} :
      s.worker w = .done → s.lock = false →
      Step s (.deactivate w) { s.setWorker w .waiting with activeThreads := s.activeThreads - 1 }
  /-- `mboxWorkerPoolWait` is called -/
  | waitCall {s : MboxWorkerPool W E} :
      s.waiter = .idle → Step s .waitCall { s with waiter := .entered }
  /-- the lock is taken for the first time -/
  | waitLock {s : MboxWorkerPool W E} :
      s.waiter = .entered → s.lock = false →
      Step s .waitLock { s with waiter := .locked, lock := true }
  /-- the lock is taken again, behind `pthread_cond_wait` -/
  | wake {s : MboxWorkerPool W E} :
      s.waiter = .asleep → s.lock = false →
      Step s .waitLock { s with waiter := .locked, lock := true }
  /-- `jobs->len` is read, and there are jobs -/
  | lenSleep {s : MboxWorkerPool W E} :
      s.waiter = .locked → s.jobs.length ≠ 0 →
      Step s .readLen { s with waiter := .asleep, lock := false }
  /-- `jobs->len` is read, and there are none -/
  | lenZero {s : MboxWorkerPool W E} :
      s.waiter = .locked → s.jobs.length = 0 →
      Step s .readLen { s with waiter := .lenZero }
  /-- `active_threads` is read, and there are active ones -/
  | activeSleep {s : MboxWorkerPool W E} :
      s.waiter = .lenZero → s.activeThreads ≠ 0 →
      Step s .readActive { s with waiter := .asleep, lock := false }
  /-- `active_threads` is read, and there are none -/
  | activeZero {s : MboxWorkerPool W E} :
      s.waiter = .lenZero → s.activeThreads = 0 →
      Step s .readActive { s with waiter := .returning }
  /-- the lock is released and the call returns -/
  | waitReturn {s : MboxWorkerPool W E} :
      s.waiter = .returning → Step s .waitReturn { s with waiter := .idle, lock := false }

/-! ## What a step can do -/

variable {s s' : MboxWorkerPool W E} {a : PoolAction W E}

/-- Only adding a job makes the queue longer, and the job is a new one. -/
theorem Step.jobs_cases (h : Step s a s') :
    (∃ e job, a = .addTail e job ∧ job.id = s.enqueued ∧ s'.enqueued = s.enqueued + 1 ∧
      s'.jobs = s.jobs ++ [job]) ∨
    (∀ job, a.adds job = false) ∧ s'.enqueued = s.enqueued ∧ s'.jobs ⊆ s.jobs := by
  cases h with
  | addTail _ _ hid => exact Or.inl ⟨_, _, rfl, hid, rfl, rfl⟩
  | removeHead => exact Or.inr ⟨fun _ => rfl, rfl, List.tail_subset _⟩
  | _ => exact Or.inr ⟨fun _ => rfl, rfl, List.Subset.refl _⟩

/-- The waiting thread has just read `0` for `jobs->len`, or had done so before. -/
theorem Step.lenZero_inv (h : Step s a s') (hs' : s'.waiter = .lenZero) :
    s.waiter = .lenZero ∨ s'.jobs = [] := by
  cases h with
  | lenZero _ hlen => exact Or.inr (List.eq_nil_of_length_eq_zero hlen)
  | waitCall | waitLock | wake | lenSleep | activeSleep | activeZero | waitReturn => cases hs'
  | _ => exact Or.inl hs'

/-- It has just read `0` for `active_threads` as well, or had done so before. -/
theorem Step.returning_inv (h : Step s a s') (hs' : s'.waiter = .returning) :
    s.waiter = .returning ∨ s.waiter = .lenZero ∧ s.activeThreads = 0 := by
  cases h with
  | activeZero hpc hactive => exact Or.inr ⟨hpc, hactive⟩
  | waitCall | waitLock | wake | lenSleep | lenZero | activeSleep | waitReturn => cases hs'
  | _ => exact Or.inl hs'

end MboxWorkerPool

end Libmbox2
