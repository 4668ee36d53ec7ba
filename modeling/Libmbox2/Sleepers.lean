import Libmbox2.Barrier
import Libmbox2.Stranded

/-!
# Nobody sleeps for ever

Here a thread in `pthread_cond_wait` is asleep until somebody signals, and does not wake up by
itself. The workers sleep on `sem->cond`, the waiting thread on `no_work` (`PoolConds`). A run of
such a pool is a run of the pool (`run_pool`), so all that is known of these holds.

What a run may cost is paid for by the jobs that are added and the calls of `mboxWorkerPoolWait`
(`PoolConds.weight`), and where no thread can go on all of them are done (`PoolConds.Quiet`).
-/

namespace Libmbox2

open CSem

/-- Who sleeps on the condition variables of a pool, and whether the thread that waits until there
is no work was woken up. -/
structure PoolConds (W : Type) where
  /-- the workers on `sem->cond` -/
  asleep : W → Bool
  /-- `no_work` has been signalled since the waiting thread went to sleep on it -/
  noWork : Bool

/-- `pthread_cond_signal(&sem->cond)` is called in a step. -/
def PoolAction.signals {W E : Type} : PoolAction W E → Bool
  | .signal _ => true
  | .resignal _ => true
  | _ => false

/-- A step that follows a `pthread_cond_wait`, so its thread has to be awake. -/
def PoolAction.afterWait {W E : Type} : PoolAction W E → Bool
  | .semaphoreWait _ => true
  | .waitLock => true
  | _ => false

/-- A step inside the pool: no job comes from outside, no callback returns, and no call of
`mboxWorkerPoolWait` begins or ends. -/
def PoolAction.Internal {W E : Type} : PoolAction W E → Prop
  | .addTail _ _ => False
  | .finish _ _ => False
  | .waitCall => False
  | .waitReturn => False
  | _ => True

/-- The waiting thread is between the lock of `pool->lock` and the unlock. -/
def WaiterPc.Inside : WaiterPc → Prop
  | .locked => True
  | .lenZero => True
  | .returning => True
  | _ => False

namespace PoolConds

variable {W E : Type}

def new : PoolConds W where
  asleep := fun _ => false
  noWork := false

/-- Whether the waiting thread has been signalled, behind a step. -/
def noWorkAfter (k : PoolConds W) (a : PoolAction W E) (p' : MboxWorkerPool W E) : Bool :=
  match a with
  | .readLen | .readActive => if p'.waiter = .asleep then false else k.noWork
  | .deactivate _ => if p'.activeThreads = 0 then true else k.noWork
  | _ => k.noWork

variable [DecidableEq W] [DecidableEq E]

/-- A step of the pool, where nobody wakes up without a signal. -/
structure Step (p : MboxWorkerPool W E) (k : PoolConds W) (a : PoolAction W E)
    (p' : MboxWorkerPool W E) (k' : PoolConds W) : Prop where
  pool : p.Step a p'
  awake : ∀ w, a = .semaphoreWait w → k.asleep w = false
  woken : a = .waitLock → p.waiter = .asleep → k.noWork = true
  signals : a.signals = true → Signal k.asleep k'.asleep
  keeps : a.signals = false → k'.asleep = k.asleep
  noWork : k'.noWork = k.noWorkAfter a p'

/-- A worker finds that `sem->val` is not `1`, and is about to wait for the condition. -/
structure CanSleep (p : MboxWorkerPool W E) (k : PoolConds W) (w : W) : Prop where
  waiting : p.worker w = .waiting
  semVal : p.semVal ≠ 1
  awake : k.asleep w = false

/-- It goes to sleep, with the mutex of the semaphore released. -/
def sleep (k : PoolConds W) (w : W) : PoolConds W :=
  { k with asleep := Function.update k.asleep w true }

/-- Wherever the pool may go on it may do so with those who sleep. -/
theorem Step.exists {p p' : MboxWorkerPool W E} {a : PoolAction W E} (k : PoolConds W)
    (h : p.Step a p') (hawake : ∀ w, a = .semaphoreWait w → k.asleep w = false)
    (hwoken : a = .waitLock → p.waiter = .asleep → k.noWork = true) :
    ∃ k', Step p k a p' k' := by
  cases hs : a.signals with
  | true =>
    exact ⟨⟨fun _ => false, k.noWorkAfter a p'⟩, h, hawake, hwoken, fun _ => Signal.all _,
      fun hno => absurd (hno.symm.trans hs) Bool.false_ne_true, rfl⟩
  | false =>
    exact ⟨⟨k.asleep, k.noWorkAfter a p'⟩, h, hawake, hwoken,
      fun hyes => absurd (hs.symm.trans hyes) Bool.false_ne_true, fun _ => rfl, rfl⟩

/-- A step for which no thread would have to wake up can be taken. -/
theorem Step.exists_of_awake {p p' : MboxWorkerPool W E} {a : PoolAction W E} (k : PoolConds W)
    (h : p.Step a p') (ha : a.afterWait = false) : ∃ k', Step p k a p' k' := by
  refine Step.exists k h (fun w heq => ?_) fun heq => ?_
  · rw [heq] at ha
    cases ha
  · rw [heq] at ha
    cases ha

/-! ## What is known of those who sleep -/

/-- Every lock is held by a thread that can go on, and whoever sleeps has somebody to signal. -/
structure Inv [Fintype W] (p : MboxWorkerPool W E) (k : PoolConds W) : Prop where
  token : p.TokenInv
  active : p.activeThreads = ∑ w, (p.worker w).counted
  lock : p.lock = true → p.waiter.Inside
  qlock : ∀ t, p.qlock = some t → p.InQueue t
  sleeps : ∀ w, k.asleep w = true → p.worker w = .waiting
  /-- a token in the semaphore is seen by a worker, where any of them waits -/
  sem : p.semVal = 1 → ∀ w, k.asleep w = true →
    ∃ v, p.worker v = .waiting ∧ k.asleep v = false
  /-- who waits for `no_work` sleeps while there is some -/
  waiter : p.waiter = .asleep → k.noWork = false → p.jobs ≠ [] ∨ p.activeThreads ≠ 0

section Invariants

variable [Fintype W] {p p' : MboxWorkerPool W E} {k k' : PoolConds W} {a : PoolAction W E}

omit [DecidableEq W] [DecidableEq E] in
/-- In front of the first step nobody sleeps. -/
theorem inv_new : Inv (MboxWorkerPool.new : MboxWorkerPool W E) new where
  token := MboxWorkerPool.tokenInv_new
  active := by simp [MboxWorkerPool.new, WorkerPc.counted]
  lock := fun h => absurd h Bool.false_ne_true
  qlock := fun _ h => absurd h (by simp [MboxWorkerPool.new])
  sleeps := fun _ h => absurd h Bool.false_ne_true
  sem := fun h => absurd h (by simp [MboxWorkerPool.new])
  waiter := fun h => absurd h (by simp [MboxWorkerPool.new])

/-- Whoever holds `pool->lock` is inside the wait. -/
theorem Inv.lock_step (hi : Inv p k) (h : p.Step a p') : p'.lock = true → p'.waiter.Inside := by
  have hlock := hi.lock
  cases h with
  | waitLock | wake => exact fun _ => trivial
  | lenSleep | activeSleep | waitReturn => exact fun h => absurd h Bool.false_ne_true
  | waitCall hpc =>
    intro h
    have hin := hlock h
    rw [hpc] at hin
    exact hin.elim
  | lenZero hpc | activeZero hpc => exact fun _ => trivial
  | _ => exact hlock

/-- Whoever holds `qlock` is in the queue. -/
theorem Inv.qlock_step (hi : Inv p k) (h : p.Step a p') :
    ∀ t, p'.qlock = some t → p'.InQueue t := by
  have hold := hi.qlock
  -- a worker that is not in the queue moves on
  have hworker : ∀ {w : W} {pc : WorkerPc}, ((p.worker w).InQueue → pc.InQueue) →
      ∀ t, p.qlock = some t → (p.setWorker w pc).InQueue t := by
    intro w pc hpc t ht
    have hin := hold t ht
    cases t with
    | inl e => exact hin
    | inr v =>
      rw [MboxWorkerPool.InQueue, MboxWorkerPool.worker_setWorker]
      by_cases hv : v = w
      · subst hv
        rw [Function.update_self]
        exact hpc hin
      · rw [Function.update_of_ne hv]
        exact hin
  cases h with
  | @addTail e =>
    rintro t ht
    obtain rfl := Option.some.inj ht
    change Function.update p.enqueuer e .added e ≠ .idle
    rw [Function.update_self]
    exact EnqueuerPc.noConfusion
  | @signal e hpc =>
    intro t ht
    have hin := hold t ht
    cases t with
    | inr v => exact hin
    | inl f =>
      change Function.update p.enqueuer e .signalled f ≠ .idle
      by_cases hf : f = e
      · subst hf
        rw [Function.update_self]
        exact EnqueuerPc.noConfusion
      · rw [Function.update_of_ne hf]
        exact hin
  | unlock | unlockJob | unlockEmpty => exact fun t ht => absurd ht (by simp)
  | @removeHead w =>
    rintro t ht
    obtain rfl := Option.some.inj ht
    change (Function.update p.worker w _ w).InQueue
    rw [Function.update_self]
    trivial
  | resignal hpc => exact hworker fun _ => trivial
  | start hpc | semaphoreWait hpc | activate hpc | call hpc | finish hpc | deactivate hpc =>
    exact hworker fun hin => by rw [hpc] at hin; exact hin.elim
  | waitCall | waitLock | wake | lenSleep | lenZero | activeSleep | activeZero | waitReturn =>
    exact hold

/-- Whoever sleeps is in `mboxSemaphoreWait`. -/
theorem Inv.sleeps_step (hi : Inv p k) (h : Step p k a p' k') :
    ∀ w, k'.asleep w = true → p'.worker w = .waiting := by
  intro v hv
  have hold : k.asleep v = true := by
    cases hs : a.signals with
    | true => exact (h.signals hs).sleeps v hv
    | false => rwa [h.keeps hs] at hv
  have hpc := hi.sleeps v hold
  have hother : ∀ {w : W} {pc : WorkerPc}, p.worker w ≠ .waiting →
      Function.update p.worker w pc v = .waiting := by
    intro w pc hw
    rwa [Function.update_of_ne fun heq : v = w => hw (heq ▸ hpc)]
  have hawake := h.awake
  cases h.pool with
  | @semaphoreWait w hw =>
    have hne : v ≠ w := by
      rintro rfl
      rw [hawake v rfl] at hold
      exact Bool.false_ne_true hold
    change Function.update p.worker w .woken v = .waiting
    rwa [Function.update_of_ne hne]
  | start hw | activate hw | removeHead hw | resignal hw | unlockJob hw | unlockEmpty hw | call hw
  | finish hw | deactivate hw => exact hother (by rw [hw]; exact WorkerPc.noConfusion)
  | _ => exact hpc

omit [Fintype W] in
/-- A worker that waits and is awake stays so, except that it takes the token. -/
theorem waiting_step (h : Step p k a p' k') {v : W} (hv : p.worker v = .waiting)
    (ha : a ≠ .semaphoreWait v) : p'.worker v = .waiting := by
  have hother : ∀ {w : W} {pc : WorkerPc}, p.worker w ≠ .waiting →
      Function.update p.worker w pc v = .waiting := by
    intro w pc hw
    rwa [Function.update_of_ne fun heq : v = w => hw (heq ▸ hv)]
  cases h.pool with
  | @semaphoreWait w =>
    have hne : v ≠ w := fun heq => ha (heq ▸ rfl)
    change Function.update p.worker w .woken v = .waiting
    rwa [Function.update_of_ne hne]
  | start hw | activate hw | removeHead hw | resignal hw | unlockJob hw | unlockEmpty hw | call hw
  | finish hw | deactivate hw => exact hother (by rw [hw]; exact WorkerPc.noConfusion)
  | _ => exact hv

omit [Fintype W] in
/-- The token comes with a signal, or was there before. -/
theorem semVal_step (h : p.Step a p') (hsem : p'.semVal = 1) :
    a.signals = true ∨ p.semVal = 1 ∧ ∀ w, a ≠ .semaphoreWait w := by
  cases h with
  | signal | resignal => exact Or.inl rfl
  | semaphoreWait => exact absurd hsem (by simp)
  | _ => exact Or.inr ⟨hsem, fun _ => by simp⟩

/-- The token is seen: where it is there and a worker sleeps, another one is awake to take it. -/
theorem Inv.sem_step (hi : Inv p k) (h : Step p k a p' k') (hsem : p'.semVal = 1) :
    ∀ w, k'.asleep w = true → ∃ v, p'.worker v = .waiting ∧ k'.asleep v = false := by
  intro w hw
  cases hs : a.signals with
  | true =>
    -- somebody has just been woken up
    obtain ⟨v, hold, hnew⟩ := (h.signals hs).wakes w ((h.signals hs).sleeps w hw)
    refine ⟨v, waiting_step h (hi.sleeps v hold) ?_, hnew⟩
    rintro rfl
    cases hs
  | false =>
    rw [h.keeps hs] at hw ⊢
    rcases semVal_step h.pool hsem with hyes | ⟨hold, hno⟩
    · exact absurd (hs.symm.trans hyes) Bool.false_ne_true
    · obtain ⟨v, hv, hawake⟩ := hi.sem hold w hw
      exact ⟨v, waiting_step h hv (hno v), hawake⟩

omit [DecidableEq W] [DecidableEq E] in
/-- A worker that looks into the queue is counted as active. -/
theorem Inv.active_ne_zero (hi : Inv p k) {w : W} (hw : (p.worker w).counted = 1) :
    p.activeThreads ≠ 0 := by
  have hle := Finset.single_le_sum (f := fun v => (p.worker v).counted) (fun v _ => Nat.zero_le _)
    (Finset.mem_univ w)
  rw [hi.active]
  omega

/-- The waiting thread sleeps only while there is work. -/
theorem Inv.waiter_step (hi : Inv p k) (h : Step p k a p' k') (hpc : p'.waiter = .asleep)
    (hno : k'.noWork = false) : p'.jobs ≠ [] ∨ p'.activeThreads ≠ 0 := by
  have hold := hi.waiter
  have hnew := h.noWork
  rw [hno] at hnew
  cases h.pool with
  | addTail => exact Or.inl (List.append_ne_nil_of_right_ne_nil _ (List.cons_ne_nil _ _))
  | activate => exact Or.inr (Nat.succ_ne_zero _)
  | removeHead hw => exact Or.inr (hi.active_ne_zero (by rw [hw]; rfl))
  | deactivate hw =>
    -- the last one to leave signals
    refine Or.inr fun hzero => ?_
    rw [noWorkAfter, if_pos hzero] at hnew
    exact Bool.false_ne_true hnew
  | lenSleep _ hlen => exact Or.inl fun hnil => hlen (by rw [hnil]; rfl)
  | activeSleep _ hactive => exact Or.inr hactive
  | waitCall | waitLock | wake | lenZero | activeZero | waitReturn => cases hpc
  | _ => exact hold hpc hnew.symm

/-- **A step of the pool** keeps what is known of the locks, the token and the sleepers. -/
theorem Inv.step (hi : Inv p k) (h : Step p k a p' k') : Inv p' k' where
  token := hi.token.step h.pool
  active := h.pool.activeThreads_eq hi.active
  lock := hi.lock_step h.pool
  qlock := hi.qlock_step h.pool
  sleeps := hi.sleeps_step h
  sem := hi.sem_step h
  waiter := hi.waiter_step h

omit [DecidableEq E] in
/-- **A worker that goes to sleep** keeps it as well, since the token was not there. -/
theorem Inv.sleep {w : W} (hi : Inv p k) (h : CanSleep p k w) : Inv p (k.sleep w) where
  token := hi.token
  active := hi.active
  lock := hi.lock
  qlock := hi.qlock
  sleeps v hv := by
    by_cases hvw : v = w
    · rw [hvw]
      exact h.waiting
    · change Function.update k.asleep w true v = true at hv
      rw [Function.update_of_ne hvw] at hv
      exact hi.sleeps v hv
  sem hsem := absurd hsem h.semVal
  waiter := hi.waiter

end Invariants

/-! ## What a run may cost -/

/-- What a worker may still do before it sleeps. The parts that come with a signal pay for all
workers that it may wake up. -/
def workerWeight (workers : ℕ) : WorkerPc × Bool → ℕ
  | (.starting, _) => 2
  | (.waiting, asleep) => if asleep then 0 else 1
  | (.woken, _) => 9
  | (.active, _) => 8
  | (.dequeued (some _), _) => 20 + workers
  | (.dequeued none, _) => 7
  | (.signalled _, _) => 10
  | (.got _, _) => 9
  | (.running _, _) => 7
  | (.done, _) => 6

/-- What a thread in `mboxWorkerPoolEnqueue` may still do. -/
def enqueuerWeight (workers : ℕ) : EnqueuerPc → ℕ
  | .idle => 0
  | .added => 11 + workers
  | .signalled => 1

/-- What the thread in `mboxWorkerPoolWait` may still do, until it sleeps or returns. -/
def waiterWeight (noWork : Bool) : WaiterPc → ℕ
  | .idle => 0
  | .entered => 4
  | .locked => 3
  | .lenZero => 2
  | .asleep => if noWork then 4 else 0
  | .returning => 1

/-- What a job in the queue may cost until it is finished. -/
def jobWeight (workers : ℕ) : ℕ := 13 + workers

/-- What a step costs that comes from outside. -/
def cost (workers : ℕ) : PoolAction W E → ℕ
  | .addTail _ _ => 25 + 2 * workers
  | .waitCall => 5
  | _ => 0

/-- What the workers may still do, those asleep and those awake. -/
def workersWeight [Fintype W] (worker : W → WorkerPc) (asleep : W → Bool) : ℕ :=
  ∑ w, workerWeight (Fintype.card W) (worker w, asleep w)

/-- What the pool may still do. -/
def weight [Fintype W] [Fintype E] (p : MboxWorkerPool W E) (k : PoolConds W) : ℕ :=
  workersWeight p.worker k.asleep + ∑ e, enqueuerWeight (Fintype.card W) (p.enqueuer e) +
    jobWeight (Fintype.card W) * p.jobs.length + 9 * p.semVal + waiterWeight k.noWork p.waiter

section Weight

variable [Fintype W] {worker : W → WorkerPc} {asleep asleep' : W → Bool}

omit [DecidableEq W] in
/-- A signal wakes up no more than all workers. -/
theorem workersWeight_le :
    workersWeight worker asleep' ≤ workersWeight worker asleep + Fintype.card W := by
  have hone : ∀ w, workerWeight (Fintype.card W) (worker w, asleep' w) ≤
      workerWeight (Fintype.card W) (worker w, asleep w) + 1 := by
    intro w
    cases hpc : worker w with
    | waiting =>
      rw [workerWeight, workerWeight]
      split <;> omega
    | dequeued job => cases job <;> exact Nat.le_succ _
    | _ => exact Nat.le_succ _
  refine (Finset.sum_le_sum fun w _ => hone w).trans ?_
  rw [Finset.sum_add_distrib, ← Finset.card_eq_sum_ones]
  exact le_refl _

/-- A worker moves on. -/
theorem workersWeight_update (worker : W → WorkerPc) (asleep : W → Bool) (w : W) (pc : WorkerPc) :
    workersWeight (Function.update worker w pc) asleep +
        workerWeight (Fintype.card W) (worker w, asleep w) =
      workersWeight worker asleep + workerWeight (Fintype.card W) (pc, asleep w) := by
  have hpair : (fun v => (Function.update worker w pc v, asleep v)) =
      Function.update (fun v => (worker v, asleep v)) w (pc, asleep w) := by
    funext v
    by_cases hv : v = w
    · subst hv
      simp only [Function.update_self]
    · simp only [Function.update_of_ne hv]
  have hsum := sum_update_add (workerWeight (Fintype.card W)) (fun v => (worker v, asleep v)) w
    (pc, asleep w)
  rw [← hpair] at hsum
  exact hsum

/-- A worker goes to sleep. -/
theorem workersWeight_sleep (worker : W → WorkerPc) (asleep : W → Bool) (w : W) :
    workersWeight worker (Function.update asleep w true) +
        workerWeight (Fintype.card W) (worker w, asleep w) =
      workersWeight worker asleep + workerWeight (Fintype.card W) (worker w, true) := by
  have hpair : (fun v => (worker v, Function.update asleep w true v)) =
      Function.update (fun v => (worker v, asleep v)) w (worker w, true) := by
    funext v
    by_cases hv : v = w
    · subst hv
      simp only [Function.update_self]
    · simp only [Function.update_of_ne hv]
  have hsum := sum_update_add (workerWeight (Fintype.card W)) (fun v => (worker v, asleep v)) w
    (worker w, true)
  rw [← hpair] at hsum
  exact hsum

variable [Fintype E] {p p' : MboxWorkerPool W E} {k k' : PoolConds W} {a : PoolAction W E}

omit [DecidableEq E] in
/-- So the weight is less when a worker goes to sleep. -/
theorem weight_sleep {w : W} (h : CanSleep p k w) : weight p (k.sleep w) < weight p k := by
  have hsum := workersWeight_sleep p.worker k.asleep w
  have hawake : workerWeight (Fintype.card W) (.waiting, false) = 1 := rfl
  have hasleep : workerWeight (Fintype.card W) (.waiting, true) = 0 := rfl
  rw [h.waiting, h.awake, hawake, hasleep] at hsum
  simp only [weight, sleep]
  omega

/-- What the signals of a step cost: at most one wakeup for every worker. -/
theorem weight_conds (h : Step p k a p' k') :
    weight p' k' ≤ weight p' ⟨k.asleep, k.noWorkAfter a p'⟩ +
      if a.signals then Fintype.card W else 0 := by
  have hnoWork := h.noWork
  cases hs : a.signals with
  | true =>
    have hle : workersWeight p'.worker k'.asleep ≤
        workersWeight p'.worker k.asleep + Fintype.card W := workersWeight_le
    simp only [if_pos, weight, hnoWork]
    omega
  | false =>
    rw [if_neg Bool.false_ne_true, Nat.add_zero, weight, weight, hnoWork, h.keeps hs]

omit [DecidableEq E] in
theorem weight_setWorker (p : MboxWorkerPool W E) (k : PoolConds W) (w : W) (pc : WorkerPc) :
    weight (p.setWorker w pc) k + workerWeight (Fintype.card W) (p.worker w, k.asleep w) =
      weight p k + workerWeight (Fintype.card W) (pc, k.asleep w) := by
  have hsum := workersWeight_update p.worker k.asleep w pc
  simp only [weight, MboxWorkerPool.setWorker]
  omega

omit [DecidableEq W] in
theorem weight_setEnqueuer (p : MboxWorkerPool W E) (k : PoolConds W) (e : E) (pc : EnqueuerPc) :
    weight (p.setEnqueuer e pc) k + enqueuerWeight (Fintype.card W) (p.enqueuer e) =
      weight p k + enqueuerWeight (Fintype.card W) pc := by
  have hsum := sum_update_add (enqueuerWeight (Fintype.card W)) p.enqueuer e pc
  simp only [weight, MboxWorkerPool.setEnqueuer]
  omega

/-- A worker that waits has at most one step to do. -/
theorem waiting_le (workers : ℕ) (asleep : Bool) :
    workerWeight workers (.waiting, asleep) ≤ 1 := by
  cases asleep
  · exact le_refl 1
  · exact Nat.zero_le 1

omit [DecidableEq E] in
/-- A worker moves on to where it may do less. -/
theorem weight_setWorker_lt {w : W} {pc old : WorkerPc} (hold : p.worker w = old)
    (hlt : workerWeight (Fintype.card W) (pc, k.asleep w) <
      workerWeight (Fintype.card W) (old, k.asleep w)) :
    weight (p.setWorker w pc) k < weight p k := by
  have hsum := weight_setWorker p k w pc
  rw [hold] at hsum
  omega

omit [DecidableEq W] [DecidableEq E] in
/-- Only the waiting thread moves on, to where it has less to do. -/
theorem weight_waiter_lt {q : MboxWorkerPool W E} {b : Bool} {old : ℕ}
    (hworker : q.worker = p.worker) (henqueuer : q.enqueuer = p.enqueuer)
    (hjobs : q.jobs = p.jobs) (hsem : q.semVal = p.semVal)
    (hold : waiterWeight k.noWork p.waiter = old) (hlt : waiterWeight b q.waiter < old) :
    weight q ⟨k.asleep, b⟩ < weight p k := by
  simp only [weight, hworker, henqueuer, hjobs, hsem, hold]
  omega

/-! ### The steps of an enqueuing thread -/

/-- A job comes from outside, and pays for all that is done with it. -/
theorem weight_addTail {e : E} {job : MboxWorkerJob} (h : Step p k (.addTail e job) p' k') :
    weight p' k' < weight p k + cost (Fintype.card W) (.addTail e job : PoolAction W E) := by
  have hconds := weight_conds h
  cases h.pool with
  | addTail hidle =>
    have hsum := weight_setEnqueuer p k e .added
    rw [hidle] at hsum
    simp only [weight, MboxWorkerPool.setEnqueuer, List.length_append, List.length_singleton,
      Nat.mul_succ, enqueuerWeight, jobWeight, cost, noWorkAfter, PoolAction.signals,
      Bool.false_eq_true, if_false] at hsum hconds ⊢
    omega

/-- A signal behind the queue: the thread that enqueues has less to do, by more than all wakeups. -/
theorem weight_signal {e : E} (h : Step p k (.signal e) p' k') : weight p' k' < weight p k := by
  have hconds := weight_conds h
  cases h.pool with
  | signal hpc =>
    have hsum := weight_setEnqueuer p k e .signalled
    rw [hpc] at hsum
    simp only [weight, MboxWorkerPool.setEnqueuer, enqueuerWeight, noWorkAfter,
      PoolAction.signals, if_true] at hsum hconds ⊢
    omega

/-- The queue is unlocked. -/
theorem weight_unlock {e : E} (h : Step p k (.unlock e) p' k') : weight p' k' < weight p k := by
  have hconds := weight_conds h
  cases h.pool with
  | unlock hpc =>
    have hsum := weight_setEnqueuer p k e .idle
    rw [hpc] at hsum
    simp only [weight, MboxWorkerPool.setEnqueuer, enqueuerWeight, noWorkAfter,
      PoolAction.signals, Bool.false_eq_true, if_false] at hsum hconds ⊢
    omega

/-! ### The steps of a worker -/

/-- The semaphore is taken, by a worker that was awake. -/
theorem weight_semaphoreWait {w : W} (h : Step p k (.semaphoreWait w) p' k') :
    weight p' k' < weight p k := by
  have hconds := weight_conds h
  have hawake := h.awake w rfl
  cases h.pool with
  | semaphoreWait hpc hsem =>
    have hsum := weight_setWorker p k w .woken
    rw [hpc, hawake] at hsum
    simp only [weight, MboxWorkerPool.setWorker, workerWeight, noWorkAfter, PoolAction.signals,
      Bool.false_eq_true, if_false] at hsum hconds ⊢
    omega

/-- A worker takes a job off the queue, or finds none. -/
theorem weight_removeHead {w : W} (h : Step p k (.removeHead w) p' k') :
    weight p' k' < weight p k := by
  have hconds := weight_conds h
  cases h.pool with
  | removeHead hpc =>
    have hsum := weight_setWorker p k w (.dequeued p.jobs.head?)
    rw [hpc] at hsum
    cases hj : p.jobs with
    | nil =>
      simp only [hj, weight, MboxWorkerPool.setWorker, List.head?_nil, List.tail_nil, workerWeight,
        noWorkAfter, PoolAction.signals, Bool.false_eq_true, if_false] at hsum hconds ⊢
      omega
    | cons job rest =>
      simp only [hj, weight, MboxWorkerPool.setWorker, List.head?_cons, List.tail_cons,
        List.length_cons, Nat.mul_succ, jobWeight, workerWeight, noWorkAfter, PoolAction.signals,
        Bool.false_eq_true, if_false] at hsum hconds ⊢
      omega

/-- The signal behind a job may wake up all workers; what the job is worth pays for it. -/
theorem weight_resignal {w : W} (h : Step p k (.resignal w) p' k') :
    weight p' k' < weight p k := by
  have hconds := weight_conds h
  cases h.pool with
  | @resignal _ job hpc =>
    have hsum := weight_setWorker p k w (.signalled job)
    rw [hpc] at hsum
    simp only [weight, MboxWorkerPool.setWorker, workerWeight, noWorkAfter, PoolAction.signals,
      if_true] at hsum hconds ⊢
    omega

/-- A wake-up costs the waiting thread no more than four steps. -/
theorem waiterWeight_le (b b' : Bool) (pc : WaiterPc) :
    waiterWeight b pc ≤ waiterWeight b' pc + 4 := by
  cases pc with
  | asleep =>
    rw [waiterWeight]
    split
    · exact Nat.le_add_left 4 _
    · exact Nat.zero_le _
  | _ => exact Nat.le_add_right _ 4

/-- A worker is no longer active, and the waiting thread may be woken up. -/
theorem weight_deactivate {w : W} (h : Step p k (.deactivate w) p' k') :
    weight p' k' < weight p k := by
  have hconds := weight_conds h
  cases h.pool with
  | deactivate hpc =>
    have hsum := weight_setWorker p k w .waiting
    have hle := waiting_le (Fintype.card W) (k.asleep w)
    generalize k.noWorkAfter _ _ = b at hconds
    have hwake := waiterWeight_le b k.noWork p.waiter
    have hdone : workerWeight (Fintype.card W) (.done, k.asleep w) = 6 := rfl
    rw [hpc] at hsum
    simp only [weight, MboxWorkerPool.setWorker, PoolAction.signals, Bool.false_eq_true, if_false]
      at hsum hconds ⊢
    omega

/-! ### The steps of the waiting thread -/

/-- A call of `mboxWorkerPoolWait` comes from outside, and costs what it may do. -/
theorem weight_waitCall (h : Step p k .waitCall p' k') :
    weight p' k' < weight p k + cost (Fintype.card W) (.waitCall : PoolAction W E) := by
  have hconds := weight_conds h
  cases h.pool with
  | waitCall hpc =>
    simp only [weight, hpc, waiterWeight, cost, PoolAction.signals, Bool.false_eq_true, if_false]
      at hconds ⊢
    omega

/-- The waiting thread takes `pool->lock`. -/
theorem weight_waitLock (h : Step p k .waitLock p' k') : weight p' k' < weight p k := by
  have hconds := weight_conds h
  have hwoken := h.woken
  cases h.pool with
  | waitLock hpc =>
    exact hconds.trans_lt
      (weight_waiter_lt rfl rfl rfl rfl (by rw [hpc]; rfl) (Nat.lt_succ_self 3))
  | wake hpc =>
    exact hconds.trans_lt
      (weight_waiter_lt rfl rfl rfl rfl (by rw [hpc, hwoken rfl hpc]; rfl) (Nat.lt_succ_self 3))

/-- It reads the length of the queue. -/
theorem weight_readLen (h : Step p k .readLen p' k') : weight p' k' < weight p k := by
  have hconds := weight_conds h
  cases h.pool with
  | lenSleep hpc =>
    exact hconds.trans_lt
      (weight_waiter_lt rfl rfl rfl rfl (by rw [hpc]; rfl) (Nat.succ_pos 2))
  | lenZero hpc =>
    exact hconds.trans_lt
      (weight_waiter_lt rfl rfl rfl rfl (by rw [hpc]; rfl) (Nat.lt_succ_self 2))

/-- It reads the number of active threads. -/
theorem weight_readActive (h : Step p k .readActive p' k') : weight p' k' < weight p k := by
  have hconds := weight_conds h
  cases h.pool with
  | activeSleep hpc =>
    exact hconds.trans_lt
      (weight_waiter_lt rfl rfl rfl rfl (by rw [hpc]; rfl) (Nat.succ_pos 1))
  | activeZero hpc =>
    exact hconds.trans_lt
      (weight_waiter_lt rfl rfl rfl rfl (by rw [hpc]; rfl) (Nat.lt_succ_self 1))

theorem weight_waitReturn (h : Step p k .waitReturn p' k') : weight p' k' < weight p k := by
  have hconds := weight_conds h
  cases h.pool with
  | waitReturn hpc =>
    exact hconds.trans_lt
      (weight_waiter_lt rfl rfl rfl rfl (by rw [hpc]; rfl) (Nat.lt_succ_self 0))

/-- **A step of the pool** lowers what it may still do, except for what comes from outside. -/
theorem weight_step (h : Step p k a p' k') :
    weight p' k' < weight p k + cost (Fintype.card W) a := by
  have hconds := weight_conds h
  cases h.pool with
  | addTail => exact weight_addTail h
  | signal => exact weight_signal h
  | unlock => exact weight_unlock h
  | start hpc =>
    exact hconds.trans_lt (weight_setWorker_lt hpc ((waiting_le _ _).trans_lt Nat.one_lt_two))
  | semaphoreWait => exact weight_semaphoreWait h
  | activate hpc => exact hconds.trans_lt (weight_setWorker_lt hpc (Nat.lt_succ_self 8))
  | removeHead => exact weight_removeHead h
  | resignal => exact weight_resignal h
  | unlockJob hpc => exact hconds.trans_lt (weight_setWorker_lt hpc (Nat.lt_succ_self 9))
  | unlockEmpty hpc => exact hconds.trans_lt (weight_setWorker_lt hpc (Nat.lt_succ_self 6))
  | call hpc => exact hconds.trans_lt (weight_setWorker_lt hpc (by decide : 7 < 9))
  | finish hpc => exact hconds.trans_lt (weight_setWorker_lt hpc (Nat.lt_succ_self 6))
  | deactivate => exact weight_deactivate h
  | waitCall => exact weight_waitCall h
  | waitLock | wake => exact weight_waitLock h
  | lenSleep | lenZero => exact weight_readLen h
  | activeSleep | activeZero => exact weight_readActive h
  | waitReturn => exact weight_waitReturn h

/-- The call of a callback lowers the weight by two. -/
theorem weight_call {w : W} {job : MboxWorkerJob} (h : Step p k (.call w job) p' k') :
    weight p' k' + 2 ≤ weight p k := by
  have hconds := weight_conds h
  cases h.pool with
  | call hpc =>
    have hsum := weight_setWorker p k w (.running job)
    rw [hpc] at hsum
    simp only [weight, MboxWorkerPool.setWorker, workerWeight, noWorkAfter, PoolAction.signals,
      Bool.false_eq_true, if_false] at hsum hconds ⊢
    omega

end Weight

omit [DecidableEq W] [DecidableEq E] in
theorem weight_new [Fintype W] [Fintype E] :
    weight (MboxWorkerPool.new : MboxWorkerPool W E) new = 2 * Fintype.card W := by
  simp [weight, new, MboxWorkerPool.new, workersWeight, workerWeight, enqueuerWeight, waiterWeight,
    Nat.mul_comm]

/-! ## Where nobody can go on -/

/-- Nothing is left to be done, and all workers sleep. -/
structure Quiet (p : MboxWorkerPool W E) (k : PoolConds W) : Prop where
  jobs : p.jobs = []
  qlock : p.qlock = none
  lock : p.lock = false
  activeThreads : p.activeThreads = 0
  waiter : p.waiter = .idle
  enqueuer : ∀ e, p.enqueuer e = .idle
  worker : ∀ w, p.worker w = .waiting ∧ k.asleep w = true

/-- No thread of the pool can go on by itself. -/
structure Stuck (p : MboxWorkerPool W E) (k : PoolConds W) : Prop where
  internal : ∀ a p' k', a.Internal → ¬ Step p k a p' k'
  sleep : ∀ w, ¬ CanSleep p k w
  running : ∀ w job, p.worker w ≠ .running job
  returning : p.waiter ≠ .returning

section Stuck

variable [Fintype W] {p p' : MboxWorkerPool W E} {k : PoolConds W} {a : PoolAction W E}

omit [Fintype W] in
/-- A step that nobody who sleeps would have to take. -/
theorem Stuck.not_step (hs : Stuck p k) (h : p.Step a p') (ha : a.Internal)
    (hawake : ∀ w, a = .semaphoreWait w → k.asleep w = false)
    (hwoken : a = .waitLock → p.waiter = .asleep → k.noWork = true) : False := by
  obtain ⟨k', hk'⟩ := Step.exists k h hawake hwoken
  exact hs.internal a p' k' ha hk'

omit [Fintype W] in
/-- In a pool that is stuck no step of the pool's own can be taken. -/
theorem Stuck.no_step (hs : Stuck p k) (h : p.Step a p') (ha : a.Internal)
    (hb : a.afterWait = false) : False := by
  obtain ⟨k', hk'⟩ := Step.exists_of_awake k h hb
  exact hs.internal a p' k' ha hk'

omit [Fintype W] in
theorem Stuck.enqueuer (hs : Stuck p k) (e : E) : p.enqueuer e = .idle := by
  cases hpc : p.enqueuer e with
  | idle => rfl
  | added => exact (hs.no_step (.signal hpc) trivial rfl).elim
  | signalled => exact (hs.no_step (.unlock hpc) trivial rfl).elim

omit [Fintype W] in
/-- Nobody is in the queue. -/
theorem Stuck.outside (hs : Stuck p k) (t : E ⊕ W) : ¬ p.InQueue t := by
  cases t with
  | inl e => exact fun h => h (hs.enqueuer e)
  | inr w =>
    intro h
    rw [MboxWorkerPool.InQueue] at h
    cases hpc : p.worker w with
    | dequeued job =>
      cases job with
      | none => exact hs.no_step (.unlockEmpty hpc) trivial rfl
      | some job => exact hs.no_step (.resignal hpc) trivial rfl
    | signalled job => exact hs.no_step (.unlockJob hpc) trivial rfl
    | _ =>
      rw [hpc] at h
      exact h.elim

theorem Stuck.qlock (hs : Stuck p k) (hi : Inv p k) : p.qlock = none := by
  cases hq : p.qlock with
  | none => rfl
  | some t => exact absurd (hi.qlock t hq) (hs.outside t)

omit [Fintype W] in
/-- The waiting thread does not hold `pool->lock`. -/
theorem Stuck.not_inside (hs : Stuck p k) : ¬ p.waiter.Inside := by
  intro h
  cases hpc : p.waiter with
  | locked =>
    by_cases hlen : p.jobs.length = 0
    · exact hs.no_step (.lenZero hpc hlen) trivial rfl
    · exact hs.no_step (.lenSleep hpc hlen) trivial rfl
  | lenZero =>
    by_cases hactive : p.activeThreads = 0
    · exact hs.no_step (.activeZero hpc hactive) trivial rfl
    · exact hs.no_step (.activeSleep hpc hactive) trivial rfl
  | returning => exact hs.returning hpc
  | _ =>
    rw [hpc] at h
    exact h.elim

theorem Stuck.lock (hs : Stuck p k) (hi : Inv p k) : p.lock = false := by
  cases hl : p.lock with
  | false => rfl
  | true => exact absurd (hi.lock hl) hs.not_inside

/-- Every worker waits for the semaphore. -/
theorem Stuck.worker (hs : Stuck p k) (hi : Inv p k) (w : W) : p.worker w = .waiting := by
  have hlock := hs.lock hi
  have hout := hs.outside (.inr w)
  rw [MboxWorkerPool.InQueue] at hout
  cases hpc : p.worker w with
  | waiting => rfl
  | starting => exact (hs.no_step (.start hpc hlock) trivial rfl).elim
  | woken => exact (hs.no_step (.activate hpc hlock) trivial rfl).elim
  | active => exact (hs.no_step (.removeHead hpc (hs.qlock hi)) trivial rfl).elim
  | dequeued | signalled =>
    rw [hpc] at hout
    exact absurd trivial hout
  | got job => exact (hs.no_step (.call hpc) trivial rfl).elim
  | running job => exact absurd hpc (hs.running w job)
  | done => exact (hs.no_step (.deactivate hpc hlock) trivial rfl).elim

/-- And every worker sleeps. -/
theorem Stuck.asleep (hs : Stuck p k) (hi : Inv p k) (w : W) : k.asleep w = true := by
  have hpc := hs.worker hi w
  cases hw : k.asleep w with
  | true => rfl
  | false =>
    by_cases hsem : p.semVal = 1
    · refine (hs.not_step (.semaphoreWait hpc hsem) trivial (fun v heq => ?_) fun heq => ?_).elim
      · obtain rfl := PoolAction.semaphoreWait.inj heq
        exact hw
      · cases heq
    · exact absurd ⟨hpc, hsem, hw⟩ (hs.sleep w)

/-- **Nobody sleeps for ever**: where no thread can go on by itself there is nothing left to be
done. -/
theorem Stuck.quiet [Nonempty W] (hs : Stuck p k) (hi : Inv p k) : Quiet p k := by
  have hasleep := hs.asleep hi
  have hworker := hs.worker hi
  have hsem : p.semVal ≠ 1 := by
    intro hsem
    obtain ⟨v, -, hv⟩ := hi.sem hsem (Classical.arbitrary W) (hasleep _)
    exact Bool.false_ne_true (hv.symm.trans (hasleep v))
  have hjobs : p.jobs = [] := by
    by_contra hjobs
    rcases hi.token.token hjobs with hyes | ⟨e, he⟩ | ⟨w, hw⟩
    · exact hsem hyes
    · rw [hs.enqueuer e] at he
      cases he
    · rw [hworker w] at hw
      exact hw
  have hactive : p.activeThreads = 0 := by
    rw [hi.active]
    exact Finset.sum_eq_zero fun w _ => by rw [hworker w]; rfl
  refine ⟨hjobs, hs.qlock hi, hs.lock hi, hactive, ?_, hs.enqueuer, fun w => ⟨hworker w, hasleep w⟩⟩
  have hin := hs.not_inside
  cases hpc : p.waiter with
  | idle => rfl
  | entered =>
    refine (hs.not_step (.waitLock hpc (hs.lock hi)) trivial (fun _ heq => ?_) fun _ heq => ?_).elim
    · cases heq
    · rw [hpc] at heq
      cases heq
  | asleep =>
    cases hno : k.noWork with
    | true =>
      refine (hs.not_step (.wake hpc (hs.lock hi)) trivial (fun _ heq => ?_) fun _ _ => hno).elim
      cases heq
    | false =>
      rcases hi.waiter hpc hno with hne | hne
      · exact absurd hjobs hne
      · exact absurd hactive hne
  | locked | lenZero | returning =>
    rw [hpc] at hin
    exact absurd trivial hin

end Stuck

end PoolConds

/-! ## Runs -/

/-- A pool, with those who sleep on its condition variables. -/
structure SleepingPool (W E : Type) where
  pool : MboxWorkerPool W E
  conds : PoolConds W

/-- A step of the pool, or of a worker that goes to sleep. -/
inductive SleepAction (W E : Type) where
  | act (a : PoolAction W E)
  /-- a worker goes to sleep in `mboxSemaphoreWait` -/
  | sleep (w : W)
  deriving DecidableEq

namespace SleepAction

variable {W E : Type}

/-- The step of the pool that an action is, if it is one. -/
def act? : SleepAction W E → Option (PoolAction W E)
  | act a => some a
  | sleep _ => none

/-- What the pool does in a run. -/
def actions (acts : List (SleepAction W E)) : List (PoolAction W E) := acts.filterMap act?

def cost (workers : ℕ) : SleepAction W E → ℕ
  | act a => PoolConds.cost workers a
  | sleep _ => 0

end SleepAction

namespace SleepingPool

open SleepAction

variable {W E : Type}

def new : SleepingPool W E where
  pool := .new
  conds := .new

variable [DecidableEq W] [DecidableEq E]

inductive Step : SleepingPool W E → SleepAction W E → SleepingPool W E → Prop where
  | act {s : SleepingPool W E} {a : PoolAction W E} {p : MboxWorkerPool W E} {k : PoolConds W} :
      PoolConds.Step s.pool s.conds a p k → Step s (.act a) ⟨p, k⟩
  | sleep {s : SleepingPool W E} {w : W} :
      PoolConds.CanSleep s.pool s.conds w →
      Step s (.sleep w) { s with conds := s.conds.sleep w }

variable {s : SleepingPool W E} {acts : List (SleepAction W E)}

/-- A run with those who sleep is a run of the pool. -/
theorem run_pool (h : Run Step new acts s) :
    Run MboxWorkerPool.Step .new (actions acts) s.pool := by
  refine Run.filterMap SleepingPool.pool act? (fun t a u hstep => ?_) h
  cases hstep with
  | act hp => exact Or.inr ⟨_, rfl, hp.pool⟩
  | sleep => exact Or.inl ⟨rfl, rfl⟩

/-- What is known of a pool and of those who sleep. -/
def Inv [Fintype W] (s : SleepingPool W E) : Prop := PoolConds.Inv s.pool s.conds

variable [Fintype W]

/-- What the threads may still do. -/
def weight [Fintype E] (s : SleepingPool W E) : ℕ := PoolConds.weight s.pool s.conds

theorem weight_step [Fintype E] (t : SleepingPool W E) (a : SleepAction W E) (u : SleepingPool W E)
    (_ : t.Inv) (h : Step t a u) : u.weight < t.weight + a.cost (Fintype.card W) := by
  cases h with
  | act hp => exact PoolConds.weight_step hp
  | sleep hw => exact PoolConds.weight_sleep hw

end SleepingPool

end Libmbox2
