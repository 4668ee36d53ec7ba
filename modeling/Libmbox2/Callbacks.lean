import Libmbox2.Barrier

/-!
# Callbacks of a pool

A worker that runs a job is inside a callback, or the callback has done its work and is about to
return (`returned`). What a callback does is not said here: it does some of its work and goes on,
or it does the last of it. A job does the last of its work once, and before it is finished
(`RetInv`).
-/

namespace Libmbox2

open CSem

/-- A pool, and which of the workers that are in a callback have done what it is for. -/
structure CallbackPool (W E : Type) where
  pool : MboxWorkerPool W E
  returned : W → Bool

/-- What happens in a pool whose callbacks take steps of their own: a step of the pool, some work of
a callback, or its return. -/
inductive CallbackAction (W E : Type) where
  /-- a step of the pool -/
  | pool (a : PoolAction W E)
  /-- some of the work of a callback -/
  | work (w : W) (job : MboxWorkerJob)
  /-- the last of it -/
  | ret (w : W) (job : MboxWorkerJob)
  deriving DecidableEq

namespace CallbackAction

variable {W E : Type}

/-- The step of the pool that an action is, if it is one. -/
def pool? : CallbackAction W E → Option (PoolAction W E)
  | pool a => some a
  | _ => none

/-- The callback of a job returns. -/
def rets (job : MboxWorkerJob) : CallbackAction W E → Bool
  | ret _ job' => job' = job
  | _ => false

/-- A job is added to the queue. -/
def isAdd : CallbackAction W E → Bool
  | pool (.addTail _ _) => true
  | _ => false

/-- The steps of the pool in a run. -/
def pools (acts : List (CallbackAction W E)) : List (PoolAction W E) := acts.filterMap pool?

/-- Those of two parts of a run, one behind the other. -/
theorem pools_append (acts acts' : List (CallbackAction W E)) :
    pools (acts ++ acts') = pools acts ++ pools acts' := List.filterMap_append ..

theorem pools_pool (a : PoolAction W E) : pools [CallbackAction.pool a] = [a] := rfl

end CallbackAction

/-- A step that neither begins nor ends a callback, so what the callbacks do is not touched by
it. -/
def PoolAction.Outside {W E : Type} : PoolAction W E → Prop
  | .call _ _ => False
  | .finish _ _ => False
  | _ => True

/-- A step that concerns nothing but its pool: it adds no job, begins no wait and ends none. -/
def PoolAction.Free {W E : Type} : PoolAction W E → Prop
  | .addTail _ _ => False
  | .waitCall => False
  | .waitReturn => False
  | _ => True

theorem PoolAction.Free.isAdd_eq {W E : Type} {a : PoolAction W E} (ha : a.Free) :
    (CallbackAction.pool a).isAdd = false := by
  cases a with
  | addTail => exact ha.elim
  | _ => rfl

namespace CallbackPool

variable {W E : Type}

/-- A new pool, in which no callback has returned. -/
def new : CallbackPool W E where
  pool := .new
  returned := fun _ => false

variable [DecidableEq W] [DecidableEq E]

/-- A step of a pool with callbacks. A callback takes part of its work at a time, and its worker
goes on when it has returned. -/
inductive Step : CallbackPool W E → CallbackAction W E → CallbackPool W E → Prop where
  | pool {s : CallbackPool W E} {a : PoolAction W E} {p : MboxWorkerPool W E} :
      a.Outside → s.pool.Step a p → Step s (.pool a) { s with pool := p }
  | call {s : CallbackPool W E} {w : W} {job : MboxWorkerJob} {p : MboxWorkerPool W E} :
      s.pool.Step (.call w job) p →
      Step s (.pool (.call w job)) ⟨p, Function.update s.returned w false⟩
  | finish {s : CallbackPool W E} {w : W} {job : MboxWorkerJob} {p : MboxWorkerPool W E} :
      s.returned w = true → s.pool.Step (.finish w job) p →
      Step s (.pool (.finish w job)) { s with pool := p }
  | work {s : CallbackPool W E} {w : W} {job : MboxWorkerJob} :
      s.pool.worker w = .running job → s.returned w = false → Step s (.work w job) s
  | ret {s : CallbackPool W E} {w : W} {job : MboxWorkerJob} :
      s.pool.worker w = .running job → s.returned w = false →
      Step s (.ret w job) { s with returned := Function.update s.returned w true }

variable {s s' : CallbackPool W E} {acts : List (CallbackAction W E)}

/-- A run of the callbacks is a run of the pool. -/
theorem run_pool (h : Run Step new acts s) :
    Run MboxWorkerPool.Step .new (CallbackAction.pools acts) s.pool := by
  refine Run.filterMap CallbackPool.pool CallbackAction.pool? (fun s a t hstep => ?_) h
  cases hstep with
  | pool _ hp => exact Or.inr ⟨_, rfl, hp⟩
  | call hp => exact Or.inr ⟨_, rfl, hp⟩
  | finish _ hp => exact Or.inr ⟨_, rfl, hp⟩
  | work => exact Or.inl ⟨rfl, rfl⟩
  | ret => exact Or.inl ⟨rfl, rfl⟩

/-- A worker returns, or goes on: it is in a callback. -/
theorem Step.running_of_work {b : CallbackAction W E} {w : W} {job : MboxWorkerJob}
    (h : Step s b s') (hb : b = .work w job ∨ b = .ret w job) :
    s.pool.worker w = .running job ∧ s.returned w = false ∧ s'.pool = s.pool := by
  cases h with
  | pool | call | finish => exact absurd hb (by simp)
  | work hpc hret | ret hpc hret =>
    simp only [CallbackAction.work.injEq, CallbackAction.ret.injEq, reduceCtorEq, or_false,
      false_or] at hb
    obtain ⟨rfl, rfl⟩ := hb
    exact ⟨hpc, hret, rfl⟩

/-- A worker at work stays so while the pool goes on, -/
theorem Step.keeps_working {a : PoolAction W E} {w : W} {job : MboxWorkerJob}
    (h : Step s (.pool a) s') (hpc : s.pool.worker w = .running job) (hret : s.returned w = false) :
    s'.pool.worker w = .running job ∧ s'.returned w = false := by
  -- the worker of the step is not in a callback
  have hother : ∀ {v : W} {pc : WorkerPc}, (∀ job, s.pool.worker v ≠ .running job) →
      Function.update s.pool.worker v pc w = .running job := by
    intro v pc hv
    rwa [Function.update_of_ne fun heq : w = v => hv job (heq ▸ hpc)]
  cases h with
  | pool ha hp =>
    refine ⟨?_, hret⟩
    cases hp with
    | call => exact ha.elim
    | finish => exact ha.elim
    | start hw | semaphoreWait hw | activate hw | removeHead hw | resignal hw | unlockJob hw
    | unlockEmpty hw | deactivate hw =>
      exact hother fun _ => by rw [hw]; exact WorkerPc.noConfusion
    | _ => exact hpc
  | @call v job' _ hp =>
    cases hp with
    | call hw =>
      have hne : w ≠ v := by
        rintro rfl
        rw [hpc] at hw
        cases hw
      refine ⟨hother fun _ => by rw [hw]; exact WorkerPc.noConfusion, ?_⟩
      change Function.update s.returned v false w = false
      rwa [Function.update_of_ne hne]
  | @finish v job' _ hdone hp =>
    cases hp with
    | finish hw =>
      have hne : w ≠ v := by
        rintro rfl
        exact Bool.false_ne_true (hret.symm.trans hdone)
      refine ⟨?_, hret⟩
      rwa [MboxWorkerPool.worker_setWorker, Function.update_of_ne hne]

/-- A worker whose callback runs ran it before, or has just called it. -/
theorem Step.working_cases {a : PoolAction W E} {w : W} {job : MboxWorkerJob}
    (h : Step s (.pool a) s') (hpc : s'.pool.worker w = .running job)
    (hret : s'.returned w = false) :
    s.pool.worker w = .running job ∧ s.returned w = false ∨ a = .call w job := by
  have hother : ∀ {v : W} {pc : WorkerPc}, (∀ job, pc ≠ .running job) →
      Function.update s.pool.worker v pc w = .running job → s.pool.worker w = .running job := by
    intro v pc hno hv
    by_cases heq : w = v
    · rw [heq, Function.update_self] at hv
      exact absurd hv (hno job)
    · rwa [Function.update_of_ne heq] at hv
  cases h with
  | pool ha hp =>
    refine Or.inl ⟨?_, hret⟩
    cases hp with
    | call => exact ha.elim
    | finish => exact ha.elim
    | start | semaphoreWait | activate | removeHead | resignal | unlockJob | unlockEmpty
    | deactivate => exact hother (fun _ => WorkerPc.noConfusion) hpc
    | _ => exact hpc
  | @call v job' _ hp =>
    cases hp with
    | call hw =>
      change Function.update s.pool.worker v (.running job') w = .running job at hpc
      by_cases heq : w = v
      · rw [heq, Function.update_self] at hpc
        rw [heq, WorkerPc.running.inj hpc]
        exact Or.inr rfl
      · rw [Function.update_of_ne heq] at hpc
        change Function.update s.returned v false w = false at hret
        rw [Function.update_of_ne heq] at hret
        exact Or.inl ⟨hpc, hret⟩
  | finish hdone hp =>
    cases hp with
    | finish hw =>
      exact Or.inl ⟨hother (fun _ => WorkerPc.noConfusion) hpc, hret⟩

/-! ## The jobs that were added -/

section Added

open PoolAction CallbackAction

/-- Only adding a job changes how many there have been. -/
theorem Step.enqueued_cases {a : CallbackAction W E} (h : Step s a s') :
    (∃ e job, a = .pool (.addTail e job) ∧ job.id = s.pool.enqueued ∧
      s'.pool.enqueued = s.pool.enqueued + 1) ∨
    (∀ job, (pools [a]).countP (adds job) = 0) ∧ s'.pool.enqueued = s.pool.enqueued := by
  have hpool : ∀ {b : PoolAction W E} {p : MboxWorkerPool W E}, s.pool.Step b p →
      (∃ e job, CallbackAction.pool b = CallbackAction.pool (.addTail e job) ∧
        job.id = s.pool.enqueued ∧ p.enqueued = s.pool.enqueued + 1) ∨
      (∀ job, (pools [CallbackAction.pool b]).countP (adds job) = 0) ∧
        p.enqueued = s.pool.enqueued := by
    intro b p hp
    rcases hp.jobs_cases with ⟨e, job, rfl, hid, hen, -⟩ | ⟨hno, hen, -⟩
    · exact Or.inl ⟨e, job, rfl, hid, hen⟩
    · refine Or.inr ⟨fun job => ?_, hen⟩
      rw [pools_pool, List.countP_singleton, hno, if_neg Bool.false_ne_true]
  cases h with
  | pool _ hp => exact hpool hp
  | call hp => exact hpool hp
  | finish _ hp => exact hpool hp
  | work => exact Or.inr ⟨fun _ => rfl, rfl⟩
  | ret => exact Or.inr ⟨fun _ => rfl, rfl⟩

theorem Step.enqueued_eq {a : CallbackAction W E} (h : Step s a s') (ha : a.isAdd = false) :
    s'.pool.enqueued = s.pool.enqueued := by
  rcases h.enqueued_cases with ⟨e, job, rfl, -⟩ | ⟨-, hen⟩
  · cases ha
  · exact hen

/-- The jobs that were added are those with the names of the first numbers. -/
def Numbered (name : ℕ → MboxWorkerJob) (acts : List (CallbackAction W E)) (enqueued : ℕ) : Prop :=
  ∀ job, 0 < (pools acts).countP (adds job) ↔ job.id < enqueued ∧ job = name job.id

omit [DecidableEq W] [DecidableEq E] in
/-- In front of the first step no job was added. -/
theorem numbered_nil (name : ℕ → MboxWorkerJob) :
    Numbered name ([] : List (CallbackAction W E)) 0 :=
  fun _ => ⟨fun h => absurd h (lt_irrefl 0), fun h => absurd h.1 (Nat.not_lt_zero _)⟩

/-- A job that is added has the name of its number. -/
theorem Numbered.step {name : ℕ → MboxWorkerJob} {a : CallbackAction W E}
    (hi : Numbered name acts s.pool.enqueued) (h : Step s a s')
    (hname : ∀ e job, a = .pool (.addTail e job) → job.id = s.pool.enqueued →
      job = name s.pool.enqueued) : Numbered name (acts ++ [a]) s'.pool.enqueued := by
  intro job
  rw [pools_append, List.countP_append]
  rcases h.enqueued_cases with ⟨e, job', rfl, hid, hen⟩ | ⟨hno, hen⟩
  · have hjob' := hname e job' rfl hid
    rw [pools_pool, List.countP_singleton, hen]
    by_cases heq : job' = job
    · subst heq
      rw [adds, decide_eq_true rfl, if_pos rfl]
      refine ⟨fun _ => ⟨?_, ?_⟩, fun _ => Nat.succ_pos _⟩
      · rw [hid]
        exact Nat.lt_succ_self _
      · rw [hid]
        exact hjob'
    · rw [adds, decide_eq_false heq, if_neg Bool.false_ne_true, Nat.add_zero, hi job]
      refine and_congr_left fun hn => ⟨fun hlt => Nat.lt_succ_of_lt hlt, fun hlt => ?_⟩
      refine (Nat.lt_succ_iff_lt_or_eq.mp hlt).resolve_right fun hid' => heq ?_
      rw [hjob', hn, hid']
  · rw [hno, Nat.add_zero, hen]
    exact hi job

end Added

end CallbackPool

/-! ## The ledger of the callbacks -/

/-- Whether a worker runs the job and has done what it is for. -/
def WorkerPc.behind (job : MboxWorkerJob) (x : WorkerPc × Bool) : ℕ :=
  if x.2 then x.1.runs job else 0

/-- A worker behind the return of a callback runs its job. -/
theorem WorkerPc.behind_le_runs (job : MboxWorkerJob) (x : WorkerPc × Bool) :
    behind job x ≤ x.1.runs job := by
  rw [behind]
  split
  · exact le_refl _
  · exact Nat.zero_le _

namespace CallbackPool

open PoolAction CallbackAction WorkerPc

variable {W E : Type}

/-- Outside the callbacks a step leaves alone who is in one. -/
theorem worker_outside [DecidableEq W] [DecidableEq E] {p p' : MboxWorkerPool W E}
    {a : PoolAction W E} {f : WorkerPc → ℕ} (hf : ∀ pc, (∀ job, pc ≠ .running job) → f pc = 0)
    (ha : a.Outside) (h : p.Step a p') (w : W) : f (p'.worker w) = f (p.worker w) := by
  have hset : ∀ {v : W} {pc : WorkerPc}, (∀ job, p.worker v ≠ .running job) →
      (∀ job, pc ≠ .running job) → f (Function.update p.worker v pc w) = f (p.worker w) := by
    intro v pc hold hnew
    by_cases hw : w = v
    · subst hw
      rw [Function.update_self, hf pc hnew, hf _ hold]
    · rw [Function.update_of_ne hw]
  cases h with
  | call => exact ha.elim
  | finish => exact ha.elim
  | start hpc | semaphoreWait hpc | activate hpc | removeHead hpc | resignal hpc | unlockJob hpc
  | unlockEmpty hpc | deactivate hpc =>
    exact hset (fun _ => by rw [hpc]; exact WorkerPc.noConfusion) fun _ => WorkerPc.noConfusion
  | addTail | signal | unlock | waitCall | waitLock | wake | lenSleep | lenZero | activeSleep
  | activeZero | waitReturn => rfl

/-- A step outside of callbacks changes nothing about who runs a job. -/
theorem runs_outside [DecidableEq W] [DecidableEq E] {p p' : MboxWorkerPool W E}
    {a : PoolAction W E} (ha : a.Outside) (h : p.Step a p') (job : MboxWorkerJob) (w : W) :
    (p'.worker w).runs job = (p.worker w).runs job :=
  worker_outside (fun _ hpc => if_neg (hpc job)) ha h w

variable [Fintype W]

/-- How many workers have done what the job is for and still run it. -/
def behind (s : CallbackPool W E) (job : MboxWorkerJob) : ℕ :=
  ∑ w, WorkerPc.behind job (s.pool.worker w, s.returned w)

/-- No more workers are behind the return of a job than run it. -/
theorem behind_le_running (s : CallbackPool W E) (job : MboxWorkerJob) :
    s.behind job ≤ s.pool.running job :=
  Finset.sum_le_sum fun w _ => WorkerPc.behind_le_runs job (s.pool.worker w, s.returned w)

/-- What the callbacks of a run have done: each job has returned as often as it is finished, or once
more while its worker is still in it. -/
structure RetInv (acts : List (CallbackAction W E)) (s : CallbackPool W E) : Prop where
  pool : MboxWorkerPool.RunInv (pools acts) s.pool
  ledger : ∀ job, acts.countP (rets job) = s.behind job + (pools acts).countP (finishes job)

section Facts

variable {s : CallbackPool W E} {acts : List (CallbackAction W E)}

/-- **A callback returns once at most** for a job, since the job is called once at most and its
worker goes on behind the return. -/
theorem RetInv.rets_le (hi : RetInv acts s) (job : MboxWorkerJob) :
    acts.countP (rets job) ≤ 1 := by
  have hrets := hi.ledger job
  have hcalls := hi.pool.calls job
  have honce := hi.pool.calls_le job
  have hle := s.behind_le_running job
  omega

theorem RetInv.rets_of_finished (hi : RetInv acts s) {job : MboxWorkerJob}
    (h : 0 < (pools acts).countP (finishes job)) : acts.countP (rets job) = 1 := by
  have hrets := hi.ledger job
  have hle := hi.rets_le job
  omega

/-- What has been done of a job that was never added is nothing. -/
theorem RetInv.rets_le_adds (hi : RetInv acts s) (job : MboxWorkerJob) :
    acts.countP (rets job) ≤ (pools acts).countP (adds job) := by
  have hrets := hi.ledger job
  have hledger := hi.pool.ledger job
  have hle := s.behind_le_running job
  have hheld : s.pool.running job ≤ s.pool.held job :=
    Finset.sum_le_sum fun w _ => runs_le_holds job (s.pool.worker w)
  omega

/-- A worker that is still at work: the job was added, no other worker has it, and it is not
finished. -/
theorem RetInv.working (hi : RetInv acts s) {w : W} {job : MboxWorkerJob}
    (hpc : s.pool.worker w = .running job) (hret : s.returned w = false) :
    acts.countP (rets job) = 0 ∧ 0 < (pools acts).countP (adds job) ∧
      (pools acts).countP (finishes job) = 0 := by
  have hrets := hi.ledger job
  have hcalls := hi.pool.calls job
  have honce := hi.pool.calls_le job
  have hledger := hi.pool.ledger job
  have hruns : (s.pool.worker w).runs job = 1 := by
    rw [hpc, runs, if_pos rfl]
  have hheld : (s.pool.worker w).runs job ≤ s.pool.held job :=
    (runs_le_holds job _).trans (Finset.single_le_sum
      (f := fun v => (s.pool.worker v).holds job) (fun v _ => Nat.zero_le _) (Finset.mem_univ w))
  -- this worker runs the job and is not behind
  have hlt : s.behind job < s.pool.running job := by
    refine Finset.sum_lt_sum (fun v _ => WorkerPc.behind_le_runs job _)
      ⟨w, Finset.mem_univ w, ?_⟩
    rw [WorkerPc.behind, hret, if_neg Bool.false_ne_true, hruns]
    exact Nat.one_pos
  omega

/-- A job is not called a second time. -/
theorem RetInv.calls_eq_zero {w : W} {job : MboxWorkerJob}
    (hi : RetInv (acts ++ [.pool (.call w job)]) s) :
    (pools acts).countP (PoolAction.calls job) = 0 := by
  have honce := hi.pool.calls_le job
  rw [pools_append, List.countP_append, pools_pool, List.countP_singleton, PoolAction.calls,
    decide_eq_true rfl, if_pos rfl] at honce
  omega

/-- A job that is run was called. -/
theorem RetInv.called (hi : RetInv acts s) {w : W} {job : MboxWorkerJob}
    (hpc : s.pool.worker w = .running job) : 0 < (pools acts).countP (PoolAction.calls job) := by
  have hruns : (s.pool.worker w).runs job = 1 := by
    rw [hpc, runs, if_pos rfl]
  have hle := Finset.single_le_sum (f := fun u => (s.pool.worker u).runs job)
    (fun _ _ => Nat.zero_le _) (Finset.mem_univ w)
  rw [hruns] at hle
  change 1 ≤ s.pool.running job at hle
  rw [hi.pool.calls]
  omega

/-- No two workers run one job. -/
theorem RetInv.worker_unique (hi : RetInv acts s) {v w : W} {job : MboxWorkerJob}
    (hv : s.pool.worker v = .running job) (hw : s.pool.worker w = .running job) : v = w := by
  by_contra hne
  have hcalls := hi.pool.calls job
  have honce := hi.pool.calls_le job
  have hruns : ∀ {u : W}, s.pool.worker u = .running job → (s.pool.worker u).runs job = 1 := by
    intro u hu
    rw [hu, runs, if_pos rfl]
  have hpair := Finset.add_le_sum (f := fun u => (s.pool.worker u).runs job)
    (fun _ _ => Nat.zero_le _) (Finset.mem_univ v) (Finset.mem_univ w) hne
  rw [hruns hv, hruns hw] at hpair
  change _ ≤ s.pool.running job at hpair
  omega

end Facts

/-! ## Steps and runs -/

variable [DecidableEq W] {s s' : CallbackPool W E} {acts : List (CallbackAction W E)}

/-- One worker moves on, and what is known of its callback with it. -/
theorem sum_update (f : WorkerPc × Bool → ℕ) {p : MboxWorkerPool W E} {w : W} (b : Bool)
    {pc : WorkerPc} (hp : p.worker = Function.update s.pool.worker w pc) :
    ∑ v, f (p.worker v, Function.update s.returned w b v) + f (s.pool.worker w, s.returned w) =
      ∑ v, f (s.pool.worker v, s.returned v) + f (pc, b) := by
  have hpair : (fun v => (p.worker v, Function.update s.returned w b v)) =
      Function.update (fun v => (s.pool.worker v, s.returned v)) w (pc, b) := by
    funext v
    rw [hp]
    by_cases hv : v = w
    · subst hv
      simp only [Function.update_self]
    · simp only [Function.update_of_ne hv]
  have hsum := sum_update_add f (fun v => (s.pool.worker v, s.returned v)) w (pc, b)
  rw [← hpair] at hsum
  exact hsum

theorem behind_update (job : MboxWorkerJob) {p : MboxWorkerPool W E} {w : W} (b : Bool)
    {pc : WorkerPc} (hp : p.worker = Function.update s.pool.worker w pc) :
    behind ⟨p, Function.update s.returned w b⟩ job +
      WorkerPc.behind job (s.pool.worker w, s.returned w) =
    s.behind job + WorkerPc.behind job (pc, b) :=
  s.sum_update (WorkerPc.behind job) b hp

variable [DecidableEq E]

/-- **A step**: the last of the work of a job is done, or the job is finished, or neither. -/
theorem Step.ledger_rets {a : CallbackAction W E} (job : MboxWorkerJob) (h : Step s a s') :
    s'.behind job + (pools [a]).countP (finishes job) =
      s.behind job + if a.rets job then 1 else 0 := by
  cases h with
  | @pool a p ha hp =>
    have hfin : (pools [CallbackAction.pool a]).countP (finishes job) = 0 := by
      cases a with
      | finish => exact ha.elim
      | _ => rfl
    have hsame : behind { s with pool := p } job = s.behind job := by
      refine Finset.sum_congr rfl fun w _ => ?_
      rw [WorkerPc.behind, WorkerPc.behind, runs_outside ha hp job w]
    rw [hfin, hsame]
    rfl
  | @call w job' p hp =>
    cases hp with
    | call hpc =>
      have hsum := s.behind_update job false (s.pool.worker_setWorker w (.running job'))
      rw [hpc] at hsum
      have hnone : WorkerPc.behind job (.got job', s.returned w) = 0 := by
        rw [WorkerPc.behind]
        split <;> rfl
      rw [hnone] at hsum
      exact hsum
  | @finish w job' p hret hp =>
    cases hp with
    | finish hpc =>
      have hsum := s.behind_update job true (s.pool.worker_setWorker w .done)
      rw [hpc, hret] at hsum
      have hsame : Function.update s.returned w true = s.returned := by
        rw [← hret, Function.update_eq_self]
      rw [hsame] at hsum
      simp only [WorkerPc.behind, runs, WorkerPc.running.injEq, reduceCtorEq, if_true, if_false]
        at hsum
      simp only [pools, List.filterMap_cons, pool?, List.filterMap_nil, List.countP_singleton,
        finishes, decide_eq_true_eq]
      exact hsum
  | work => rfl
  | @ret w job' hpc hret =>
    have hsum := s.behind_update job true (Function.update_eq_self w s.pool.worker).symm
    rw [hpc, hret] at hsum
    simp only [WorkerPc.behind, runs, WorkerPc.running.injEq, Bool.false_eq_true, if_true,
      if_false] at hsum
    simp only [rets, decide_eq_true_eq]
    exact hsum

/-- A step of the pool keeps this. -/
theorem RetInv.step {a : CallbackAction W E} (hi : RetInv acts s) (hpool : MboxWorkerPool.RunInv
    (pools (acts ++ [a])) s'.pool) (h : Step s a s') : RetInv (acts ++ [a]) s' where
  pool := hpool
  ledger job := by
    have hstep := h.ledger_rets job
    have hacts := hi.ledger job
    rw [pools_append, List.countP_append, List.countP_append, List.countP_singleton]
    omega

theorem retInv_of_run (h : Run Step new acts s) : RetInv acts s := by
  have hnew : RetInv [] (new : CallbackPool W E) := by
    refine ⟨MboxWorkerPool.runInv_of_run .refl, fun job => ?_⟩
    simp [new, MboxWorkerPool.new, behind, WorkerPc.behind, pools]
  refine h.inv hnew fun ls t a u hrun hi hstep => ?_
  exact hi.step (MboxWorkerPool.runInv_of_run (run_pool (hrun.snoc hstep))) hstep

/-! ## Waiting -/

/-- A job that was added, from the call of `mboxWorkerPoolWait` on. -/
abbrev Waits (acts : List (CallbackAction W E)) (s : CallbackPool W E) (job : MboxWorkerJob) :
    Prop := MboxWorkerPool.WaitInv job (pools acts) s.pool

omit [Fintype W] in
/-- A wait that begins behind the addition of a job waits for it. -/
theorem waits_of_waitCall {job : MboxWorkerJob} (h : Step s (.pool .waitCall) s')
    (hadd : 0 < (pools acts).countP (adds job)) : Waits (acts ++ [.pool .waitCall]) s' job := by
  have hentered : s'.pool.waiter = .entered := by
    cases h with
    | pool _ hp =>
      cases hp
      rfl
  refine ⟨?_, fun hpc => ?_, fun hpc => ?_⟩
  · rw [pools_append, List.countP_append]
    exact Nat.add_pos_left hadd _
  · rw [hentered] at hpc
    cases hpc
  · rw [hentered] at hpc
    cases hpc

/-- It goes on waiting with every step. -/
theorem Waits.step {a : CallbackAction W E} {job : MboxWorkerJob} (hrun : Run Step new acts s)
    (hw : Waits acts s job) (h : Step s a s') : Waits (acts ++ [a]) s' job := by
  have hi := (retInv_of_run hrun).pool
  rw [Waits, pools_append]
  cases h with
  | pool _ hp => exact hw.step hi hp
  | call hp => exact hw.step hi hp
  | finish _ hp => exact hw.step hi hp
  | work => exact (List.append_nil (pools acts)).symm ▸ hw
  | ret => exact (List.append_nil (pools acts)).symm ▸ hw

omit [Fintype W] in
theorem Waits.finished {job : MboxWorkerJob} (hw : Waits acts s job)
    (h : Step s (.pool .waitReturn) s') : 0 < (pools acts).countP (finishes job) := by
  cases h with
  | pool _ hp =>
    cases hp with
    | waitReturn hpc => exact hw.returning hpc

end CallbackPool

end Libmbox2
