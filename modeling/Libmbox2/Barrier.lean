import Mathlib.Algebra.Order.BigOperators.Group.Finset
import Libmbox2.Worker

/-!
# `mboxWorkerPoolWait` is a barrier

A job is in the queue, with one worker, or finished: the steps only move it on
(`Step.ledger`). A worker that has a job is counted in `active_threads`, from before it
looks into the queue until the callback has returned (`activeThreads_eq`). So when
`jobs->len` is read as `0`, every job of before has left the queue, and when
`active_threads` is read as `0` after that, no worker has it any more.
-/

namespace Libmbox2

open CSem

/-- The job a worker has taken out of the queue and not finished. -/
def WorkerPc.job? : WorkerPc → Option MboxWorkerJob
  | .dequeued job => job
  | .signalled job => some job
  | .got job => some job
  | .running job => some job
  | _ => none

/-- Whether a worker has the job, as a number that can be added up. -/
def WorkerPc.holds (job : MboxWorkerJob) (pc : WorkerPc) : ℕ :=
  if pc.job? = some job then 1 else 0

/-- Whether a worker is in the callback of the job. -/
def WorkerPc.runs (job : MboxWorkerJob) (pc : WorkerPc) : ℕ :=
  if pc = .running job then 1 else 0

/-- Whether a worker is counted in `active_threads`. -/
def WorkerPc.counted : WorkerPc → ℕ
  | .starting => 0
  | .waiting => 0
  | .woken => 0
  | _ => 1

/-- A worker that runs a job has it. -/
theorem WorkerPc.runs_le_holds (job : MboxWorkerJob) (pc : WorkerPc) :
    pc.runs job ≤ pc.holds job := by
  rw [runs]
  split
  · rename_i h
    rw [h, holds, job?, if_pos rfl]
  · exact Nat.zero_le _

/-- A worker with a job is counted as active. -/
theorem WorkerPc.holds_le_counted (job : MboxWorkerJob) (pc : WorkerPc) :
    pc.holds job ≤ pc.counted := by
  have hle : pc.holds job ≤ 1 := by
    rw [holds]
    split
    · exact le_refl 1
    · exact Nat.zero_le 1
  cases pc with
  | starting | waiting | woken => exact le_refl 0
  | _ => exact hle

namespace MboxWorkerPool

open PoolAction WorkerPc

variable {W E : Type} [Fintype W]

/-- How many workers have the job; this turns out to be one at most. -/
def held (s : MboxWorkerPool W E) (job : MboxWorkerJob) : ℕ := ∑ w, (s.worker w).holds job

/-- How many workers are in the callback of the job. -/
def running (s : MboxWorkerPool W E) (job : MboxWorkerJob) : ℕ := ∑ w, (s.worker w).runs job

/-! ## The ledger of a run -/

section Ledger

variable {s : MboxWorkerPool W E} {acts : List (PoolAction W E)}

/-- What a run has done with each job, in numbers: those added are in the queue, with a worker, or
finished. -/
structure RunInv (acts : List (PoolAction W E)) (s : MboxWorkerPool W E) : Prop where
  /-- a job is in one place -/
  ledger : ∀ job, acts.countP (adds job) =
    s.jobs.count job + s.held job + acts.countP (finishes job)
  /-- a job that was called runs or has finished -/
  calls : ∀ job, acts.countP (PoolAction.calls job) = s.running job + acts.countP (finishes job)
  /-- the jobs are numbered -/
  fresh : ∀ job, acts.countP (adds job) ≤ if job.id < s.enqueued then 1 else 0
  active : s.activeThreads = ∑ w, (s.worker w).counted

/-- A job is called at most once, as it is added once. -/
theorem RunInv.calls_le (hi : RunInv acts s)
    (job : MboxWorkerJob) : acts.countP (PoolAction.calls job) ≤ 1 := by
  have hledger := hi.ledger job
  have hcalls := hi.calls job
  have hrun : s.running job ≤ s.held job :=
    Finset.sum_le_sum fun w _ => runs_le_holds job (s.worker w)
  have hfresh := hi.fresh job
  have hle : (if job.id < s.enqueued then 1 else 0) ≤ 1 := by
    split
    · exact le_refl 1
    · exact Nat.zero_le 1
  omega

/-- Where no thread is active, no worker has a job. -/
theorem RunInv.held_eq_zero (hi : RunInv acts s)
    (hactive : s.activeThreads = 0) (job : MboxWorkerJob) : s.held job = 0 := by
  have hle : s.held job ≤ ∑ w, (s.worker w).counted :=
    Finset.sum_le_sum fun w _ => holds_le_counted job (s.worker w)
  rw [← hi.active, hactive] at hle
  exact Nat.le_zero.mp hle

end Ledger

/-! ## Where a job is -/

section Update

variable [DecidableEq W] (s : MboxWorkerPool W E) (job : MboxWorkerJob) {w : W} {pc : WorkerPc}

/-- How many workers have the job when one of them moves on. -/
theorem held_setWorker (w : W) (pc : WorkerPc) :
    (s.setWorker w pc).held job + (s.worker w).holds job = s.held job + pc.holds job :=
  sum_update_add (holds job) s.worker w pc

theorem running_setWorker (w : W) (pc : WorkerPc) :
    (s.setWorker w pc).running job + (s.worker w).runs job = s.running job + pc.runs job :=
  sum_update_add (runs job) s.worker w pc

/-- A worker that keeps what it has changes nothing about who has the job. -/
theorem held_setWorker_eq (h : (s.worker w).job? = pc.job?) :
    (s.setWorker w pc).held job = s.held job := by
  have hsum := s.held_setWorker job w pc
  rw [holds, holds, h] at hsum
  omega

/-- A worker that does not enter a callback or leave one. -/
theorem running_setWorker_eq (h : (s.worker w).runs job = pc.runs job) :
    (s.setWorker w pc).running job = s.running job := by
  have hsum := s.running_setWorker job w pc
  omega

end Update

variable [DecidableEq W] [DecidableEq E] {s s' : MboxWorkerPool W E} {a : PoolAction W E}

/-- **A step moves a job on**: from the thread that adds it to the queue, to a worker, out
of its callback. -/
theorem Step.ledger (job : MboxWorkerJob) (h : Step s a s') :
    s'.jobs.count job + s'.held job + (if a.finishes job then 1 else 0) =
      s.jobs.count job + s.held job + (if a.adds job then 1 else 0) := by
  have hkeep : ∀ {w : W} {pc : WorkerPc}, (s.worker w).job? = pc.job? →
      s.jobs.count job + (s.setWorker w pc).held job + 0 =
        s.jobs.count job + s.held job + 0 :=
    fun hpc => by rw [held_setWorker_eq s job hpc]
  cases h with
  | @addTail e job' =>
    change (s.jobs ++ [job']).count job + s.held job + 0 = _
    simp only [List.count_append, List.count_singleton, adds, beq_iff_eq, decide_eq_true_eq]
    omega
  | @removeHead w hpc =>
    have hw := s.held_setWorker job w (.dequeued s.jobs.head?)
    change s.jobs.tail.count job + (s.setWorker w (.dequeued s.jobs.head?)).held job + 0 =
      s.jobs.count job + s.held job + 0
    cases hj : s.jobs with
    | nil =>
      rw [hpc, hj] at hw
      exact congrArg (0 + · + 0) hw
    | cons job' rest =>
      rw [hpc, hj] at hw
      simp only [holds, job?, List.head?_cons, Option.some.injEq, reduceCtorEq, if_false] at hw
      simp only [List.head?_cons, List.tail_cons, List.count_cons, beq_iff_eq]
      omega
  | @finish w job' hpc =>
    have hw := s.held_setWorker job w .done
    rw [hpc] at hw
    simp only [holds, job?, Option.some.injEq, reduceCtorEq, if_false] at hw
    change s.jobs.count job + (s.setWorker w .done).held job + _ = s.jobs.count job + _ + 0
    simp only [finishes, decide_eq_true_eq]
    omega
  | start hpc | semaphoreWait hpc | activate hpc | resignal hpc | unlockJob hpc
  | unlockEmpty hpc | call hpc | deactivate hpc =>
    exact hkeep (by rw [hpc]; rfl)
  | signal | unlock | waitCall | waitLock | wake | lenSleep | lenZero | activeSleep | activeZero
  | waitReturn => rfl

/-- A callback that was called runs or has returned: the second ledger of a job. -/
theorem Step.ledger_calls (job : MboxWorkerJob) (h : Step s a s') :
    s'.running job + (if a.finishes job then 1 else 0) =
      s.running job + (if a.calls job then 1 else 0) := by
  cases h with
  | @call w job' hpc =>
    have hw := s.running_setWorker job w (.running job')
    rw [hpc] at hw
    simp only [runs, WorkerPc.running.injEq, reduceCtorEq, if_false] at hw
    change (s.setWorker w (.running job')).running job + 0 = s.running job + _
    simp only [calls, decide_eq_true_eq]
    omega
  | @finish w job' hpc =>
    have hw := s.running_setWorker job w .done
    rw [hpc] at hw
    simp only [runs, WorkerPc.running.injEq, reduceCtorEq, if_false] at hw
    change (s.setWorker w .done).running job + _ = s.running job + 0
    simp only [finishes, decide_eq_true_eq]
    omega
  | start hpc | semaphoreWait hpc | activate hpc | removeHead hpc | resignal hpc | unlockJob hpc
  | unlockEmpty hpc | deactivate hpc =>
    exact s.running_setWorker_eq job (by rw [hpc]; rfl)
  | addTail | signal | unlock | waitCall | waitLock | wake | lenSleep | lenZero | activeSleep
  | activeZero | waitReturn => rfl

/-- **A step counts the workers that may have a job**: `num_threads_active` is the number of those
between taking the semaphore and giving up looking for work. -/
theorem Step.activeThreads_eq (hi : s.activeThreads = ∑ w, (s.worker w).counted)
    (h : Step s a s') : s'.activeThreads = ∑ w, (s'.worker w).counted := by
  have hkeep : ∀ {w : W} {pc : WorkerPc}, (s.worker w).counted = pc.counted →
      s.activeThreads = ∑ v, ((s.setWorker w pc).worker v).counted := by
    intro w pc hpc
    have hw := sum_update_add counted s.worker w pc
    rw [worker_setWorker]
    omega
  cases h with
  | @activate w hpc =>
    have hw := sum_update_add counted s.worker w .active
    rw [hpc, ← hi] at hw
    exact hw.symm
  | @deactivate w hpc =>
    have hw := sum_update_add counted s.worker w .waiting
    rw [hpc, ← hi] at hw
    change s.activeThreads - 1 = ∑ v, (Function.update s.worker w .waiting v).counted
    change _ + 1 = _ + 0 at hw
    omega
  | start hpc | semaphoreWait hpc | removeHead hpc | resignal hpc | unlockJob hpc
  | unlockEmpty hpc | call hpc | finish hpc => exact hkeep (by rw [hpc]; rfl)
  | addTail | signal | unlock | waitCall | waitLock | wake | lenSleep | lenZero | activeSleep
  | activeZero | waitReturn => exact hi

/-! ## Runs -/

/-- A step keeps both ledgers, whichever thread takes it. -/
theorem RunInv.step {acts : List (PoolAction W E)} (hi : RunInv acts s) (h : Step s a s') :
    RunInv (acts ++ [a]) s' where
  ledger job := by
    have hs := h.ledger job
    have hacts := hi.ledger job
    simp only [List.countP_append, List.countP_singleton]
    omega
  calls job := by
    have hs := h.ledger_calls job
    have hacts := hi.calls job
    simp only [List.countP_append, List.countP_singleton]
    omega
  fresh job := by
    have hacts := hi.fresh job
    rw [List.countP_append, List.countP_singleton]
    rcases h.jobs_cases with ⟨e, job', rfl, hid, hen, -⟩ | ⟨hno, hen, -⟩
    · rw [hen]
      -- a job is added once: its number is one that was not given before
      by_cases heq : job' = job
      · subst heq
        have hadds : (PoolAction.addTail e job' : PoolAction W E).adds job' = true :=
          decide_eq_true rfl
        rw [if_neg (by omega)] at hacts
        rw [hadds, if_pos rfl, if_pos (by omega)]
        omega
      · have hadds : (PoolAction.addTail e job' : PoolAction W E).adds job = false :=
          decide_eq_false heq
        rw [hadds, if_neg Bool.false_ne_true]
        split at hacts
        · rw [if_pos (by omega)]
          exact hacts
        · exact hacts.trans (Nat.zero_le _)
    · rw [hen, hno, if_neg Bool.false_ne_true]
      exact hacts
  active := h.activeThreads_eq hi.active

/-- So they hold of every run. -/
theorem runInv_of_run {acts : List (PoolAction W E)} (h : Run Step new acts s) :
    RunInv acts s := by
  refine h.inv ?_ fun _ _ _ _ _ hi hstep => hi.step hstep
  refine ⟨fun job => ?_, fun job => ?_, fun job => Nat.zero_le _, ?_⟩
  · simp [new, held, holds, job?]
  · simp [new, running, runs]
  · simp [new, counted]

/-- The job was added before the call: once `jobs->len` was `0` it is out of the queue,
and once `active_threads` was `0` it is finished. -/
structure WaitInv (job : MboxWorkerJob) (acts : List (PoolAction W E))
    (s : MboxWorkerPool W E) : Prop where
  added : 0 < acts.countP (adds job)
  lenZero : s.waiter = .lenZero → job ∉ s.jobs
  returning : s.waiter = .returning → 0 < acts.countP (finishes job)

/-- A step keeps what the waiting thread has found out, about a job that was added before its
call. -/
theorem WaitInv.step {job : MboxWorkerJob} {acts : List (PoolAction W E)}
    (hw : WaitInv job acts s) (hi : RunInv acts s) (h : Step s a s') :
    WaitInv job (acts ++ [a]) s' where
  added := by
    rw [List.countP_append]
    exact Nat.add_pos_left hw.added _
  lenZero hpc := by
    rcases h.lenZero_inv hpc with hold | hnil
    · have hout := hw.lenZero hold
      rcases h.jobs_cases with ⟨e, job', -, hid, -, hjobs⟩ | ⟨-, -, hsub⟩
      · -- the new job is not one of before
        rw [hjobs, List.mem_append, List.mem_singleton]
        rintro (hmem | rfl)
        · exact hout hmem
        · have hadded := hw.added
          have hfresh := hi.fresh job
          rw [if_neg (by omega)] at hfresh
          omega
      · exact fun hmem => hout (hsub hmem)
    · rw [hnil]
      exact List.not_mem_nil
  returning hpc := by
    rw [List.countP_append]
    apply Nat.add_pos_left
    rcases h.returning_inv hpc with hold | ⟨hold, hactive⟩
    · exact hw.returning hold
    · -- it was added, and is neither in the queue nor with a worker
      have hledger := hi.ledger job
      have hadded := hw.added
      rw [List.count_eq_zero.mpr (hw.lenZero hold), hi.held_eq_zero hactive job] at hledger
      omega

/-- So does a run behind the call. -/
theorem WaitInv.run {job : MboxWorkerJob} {pre ls : List (PoolAction W E)}
    (hpre : Run Step new pre s) (hw : WaitInv job pre s) (h : Run Step s ls s') :
    WaitInv job (pre ++ ls) s' := by
  induction h with
  | refl => rwa [List.append_nil]
  | snoc hrun hlast ih =>
    rw [← List.append_assoc]
    exact ih.step (runInv_of_run (hpre.append hrun)) hlast

/-- **A call of `mboxWorkerPoolWait`**: when it returns, a job that was added before it has
finished. -/
theorem finished_of_waitReturn {pre mid : List (PoolAction W E)} {job : MboxWorkerJob}
    (h : Run Step new (pre ++ [.waitCall] ++ mid ++ [.waitReturn]) s)
    (hadd : 0 < pre.countP (adds job)) :
    0 < (pre ++ [PoolAction.waitCall] ++ mid).countP (finishes job) := by
  obtain ⟨u, hrun, hreturn⟩ := h.snoc_inv
  obtain ⟨t, hcall, hmid⟩ := hrun.split
  obtain ⟨r, -, hcalled⟩ := hcall.snoc_inv
  have hentered : t.waiter = .entered := by
    cases hcalled
    rfl
  have hstart : WaitInv job (pre ++ [PoolAction.waitCall]) t := by
    refine ⟨?_, fun hpc => ?_, fun hpc => ?_⟩
    · rw [List.countP_append]
      exact Nat.add_pos_left hadd _
    · rw [hentered] at hpc
      cases hpc
    · rw [hentered] at hpc
      cases hpc
  have hwait := hstart.run hcall hmid
  cases hreturn with
  | waitReturn hpc => exact hwait.returning hpc

/-- **The barrier**: whatever the interleaving, a job is called at most once, and every
job added before a call of `mboxWorkerPoolWait` has finished when the call returns. -/
theorem wait_barrier {acts : List (PoolAction W E)} (h : Run Step new acts s) :
    (∀ job, acts.countP (PoolAction.calls job) ≤ 1) ∧
      ∀ pre mid post, acts = pre ++ .waitCall :: (mid ++ .waitReturn :: post) →
        ∀ e job, .addTail e job ∈ pre → ∃ w, .finish w job ∈ pre ++ mid := by
  refine ⟨(runInv_of_run h).calls_le, ?_⟩
  rintro pre mid post rfl e job hadd
  have hsplit : pre ++ PoolAction.waitCall :: (mid ++ .waitReturn :: post) =
      pre ++ [.waitCall] ++ mid ++ [.waitReturn] ++ post := by simp
  rw [hsplit] at h
  obtain ⟨t, hreturn, -⟩ := h.split
  have hadd' : 0 < pre.countP (adds job) :=
    List.countP_pos_iff.mpr ⟨_, hadd, decide_eq_true rfl⟩
  obtain ⟨a, hmem, hfin⟩ := List.countP_pos_iff.mp (finished_of_waitReturn hreturn hadd')
  cases a with
  | finish w job' =>
    obtain rfl : job' = job := of_decide_eq_true hfin
    exact ⟨w, by simpa using hmem⟩
  | _ => cases hfin

/-- Two jobs for two workers. The waiting thread is put to sleep twice, once by the jobs in the
queue and once by the workers that are active, and returns when both jobs have finished. -/
def twoJobsRun : List (PoolAction (Fin 2) Unit) :=
  [.addTail () ⟨0, 0, 0⟩, .signal (), .unlock (), .addTail () ⟨1, 0, 7⟩, .signal (), .unlock (),
    .start 0, .start 1, .waitCall, .waitLock, .readLen,
    .semaphoreWait 0, .activate 0, .removeHead 0, .resignal 0, .unlockQueue 0,
    .semaphoreWait 1, .activate 1, .removeHead 1, .resignal 1, .unlockQueue 1,
    .call 1 ⟨1, 0, 7⟩, .call 0 ⟨0, 0, 0⟩, .waitLock, .readLen, .readActive,
    .finish 0 ⟨0, 0, 0⟩, .finish 1 ⟨1, 0, 7⟩, .deactivate 0, .deactivate 1,
    .waitLock, .readLen, .readActive, .waitReturn]

/-- It is a run of the pool. -/
theorem run_twoJobsRun : ∃ s, Run Step new twoJobsRun s := by
  have hadd : Step (new : MboxWorkerPool (Fin 2) Unit) (.addTail () ⟨0, 0, 0⟩) _ :=
    .addTail rfl rfl rfl
  have hone := ((Run.refl.snoc hadd).snoc (.signal (e := ()) rfl)).snoc (.unlock (e := ()) rfl)
  have hsecond := hone.snoc (@Step.addTail (Fin 2) Unit _ _ _ () ⟨1, 0, 7⟩ rfl rfl rfl)
  have htwo := (hsecond.snoc (.signal (e := ()) rfl)).snoc (.unlock (e := ()) rfl)
  have hup := (htwo.snoc (.start (w := 0) rfl rfl)).snoc (.start (w := 1) rfl rfl)
  have hasleep := ((hup.snoc (.waitCall rfl)).snoc (.waitLock rfl rfl)).snoc
    (.lenSleep rfl (by decide))
  have hwoken := (hasleep.snoc (.semaphoreWait (w := 0) rfl rfl)).snoc (.activate (w := 0) rfl rfl)
  have hfirst := ((hwoken.snoc (.removeHead (w := 0) rfl rfl)).snoc (.resignal (w := 0) rfl)).snoc
    (.unlockJob (w := 0) rfl)
  have hwoken' := (hfirst.snoc (.semaphoreWait (w := 1) rfl rfl)).snoc
    (.activate (w := 1) rfl rfl)
  have hboth := ((hwoken'.snoc (.removeHead (w := 1) rfl rfl)).snoc (.resignal (w := 1) rfl)).snoc
    (.unlockJob (w := 1) rfl)
  have hcalled := (hboth.snoc (.call (w := 1) rfl)).snoc (.call (w := 0) rfl)
  have hasleep' := ((hcalled.snoc (.wake rfl rfl)).snoc (.lenZero rfl rfl)).snoc
    (.activeSleep rfl (by decide))
  have hdone := (hasleep'.snoc (.finish (w := 0) rfl)).snoc (.finish (w := 1) rfl)
  have hidle := (hdone.snoc (.deactivate (w := 0) rfl rfl)).snoc (.deactivate (w := 1) rfl rfl)
  have hzero := ((hidle.snoc (.wake rfl rfl)).snoc (.lenZero rfl rfl)).snoc (.activeZero rfl rfl)
  exact ⟨_, hzero.snoc (.waitReturn rfl)⟩

/-- Both jobs are called once, and they have finished when the call returns. -/
theorem wait_barrier_twoJobsRun :
    (∀ job, twoJobsRun.countP (PoolAction.calls job) ≤ 1) ∧
      ∀ pre mid post, twoJobsRun = pre ++ .waitCall :: (mid ++ .waitReturn :: post) →
        ∀ e job, .addTail e job ∈ pre → ∃ w, .finish w job ∈ pre ++ mid := by
  obtain ⟨s, hrun⟩ := run_twoJobsRun
  exact wait_barrier hrun

end MboxWorkerPool

end Libmbox2
