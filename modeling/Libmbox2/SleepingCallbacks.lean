import Libmbox2.Callbacks
import Libmbox2.Sleepers

/-!
# Callbacks, and those who sleep

The callbacks of a pool whose workers sleep until they are signalled. A step of a callback that is
none of the pool leaves alone who sleeps (`PoolConds.Follows`), and what is left to be done in a
pool takes the callbacks into account that are not over yet (`CallbackPool.weight`).
-/

namespace Libmbox2

open CSem

/-- Whether a worker is at work in a callback, as a number. -/
def WorkerPc.atWork : WorkerPc × Bool → ℕ
  | (.running _, returned) => if returned then 0 else 1
  | _ => 0

/-- A worker that runs no job is at work in none. -/
theorem WorkerPc.atWork_eq_zero (returned : Bool) (pc : WorkerPc)
    (h : ∀ job, pc ≠ .running job) : atWork (pc, returned) = 0 := by
  cases pc with
  | running job => exact absurd rfl (h job)
  | _ => rfl

/-- Those who sleep, behind a step of the callbacks: they change as the pool's own steps make them,
and not at all in the work of a callback. -/
def PoolConds.Follows {W E : Type} [DecidableEq W] [DecidableEq E] (p : CallbackPool W E)
    (k : PoolConds W) (a : Option (CallbackAction W E)) (p' : CallbackPool W E)
    (k' : PoolConds W) : Prop :=
  match a with
  | some (.pool b) => PoolConds.Step p.pool k b p'.pool k'
  | _ => k' = k

namespace CallbackPool

variable {W E : Type} [Fintype W]

/-- How many workers are at work in a callback. -/
def atWork (p : CallbackPool W E) : ℕ := ∑ w, WorkerPc.atWork (p.pool.worker w, p.returned w)

variable [Fintype E]

/-- What the pool may still do, and one for each callback that is at work. -/
def weight (p : CallbackPool W E) (k : PoolConds W) : ℕ := PoolConds.weight p.pool k + p.atWork

/-- What a step costs that comes from outside: a job that is added, or a wait that begins. -/
def cost (workers : ℕ) : CallbackAction W E → ℕ
  | .pool b => PoolConds.cost workers b
  | _ => 0

variable [DecidableEq W] [DecidableEq E] {p p' : CallbackPool W E} {k k' : PoolConds W}

omit [Fintype E] [DecidableEq E] in
theorem atWork_update {q : MboxWorkerPool W E} {w : W} (b : Bool) {pc : WorkerPc}
    (hq : q.worker = Function.update p.pool.worker w pc) :
    atWork ⟨q, Function.update p.returned w b⟩ +
        WorkerPc.atWork (p.pool.worker w, p.returned w) =
      p.atWork + WorkerPc.atWork (pc, b) :=
  p.sum_update WorkerPc.atWork b hq

/-- **A step of the pool or of a callback** lowers what may still be done, except for what comes
from outside; some of the work of a callback leaves it as it is. -/
theorem weight_step {a : CallbackAction W E} (h : Step p a p')
    (hk : PoolConds.Follows p k (some a) p' k') :
    (∃ w job, a = .work w job ∧ p'.weight k' = p.weight k) ∨
      p'.weight k' < p.weight k + cost (Fintype.card W) a := by
  cases h with
  | @pool b q hb hp =>
    have hlt := PoolConds.weight_step (show PoolConds.Step p.pool k b q k' from hk)
    have hsame : atWork { p with pool := q } = p.atWork :=
      Finset.sum_congr rfl fun w _ =>
        worker_outside (WorkerPc.atWork_eq_zero (p.returned w)) hb hp w
    refine Or.inr ?_
    change PoolConds.weight q k' + atWork { p with pool := q } <
      PoolConds.weight p.pool k + p.atWork + PoolConds.cost _ b
    omega
  | @call w job q hp =>
    have hle := PoolConds.weight_call (show PoolConds.Step p.pool k (.call w job) q k' from hk)
    cases hp with
    | call hpc =>
      have hsum := p.atWork_update false (p.pool.worker_setWorker w (.running job))
      rw [hpc] at hsum
      simp only [WorkerPc.atWork, Bool.false_eq_true, if_false] at hsum
      refine Or.inr ?_
      change PoolConds.weight (p.pool.setWorker w (.running job)) k' + atWork ⟨_, _⟩ <
        PoolConds.weight p.pool k + p.atWork + 0
      omega
  | @finish w job q hret hp =>
    have hlt := PoolConds.weight_step (show PoolConds.Step p.pool k (.finish w job) q k' from hk)
    cases hp with
    | finish hpc =>
      have hsum := p.atWork_update true (p.pool.worker_setWorker w .done)
      have hsame : Function.update p.returned w true = p.returned := by
        rw [← hret, Function.update_eq_self]
      rw [hpc, hret, hsame] at hsum
      simp only [WorkerPc.atWork, if_true] at hsum
      refine Or.inr ?_
      change PoolConds.weight (p.pool.setWorker w .done) k' < PoolConds.weight p.pool k + 0 at hlt
      change PoolConds.weight (p.pool.setWorker w .done) k' + atWork { p with pool := _ } <
        PoolConds.weight p.pool k + p.atWork + 0
      omega
  | @work w job =>
    have hsame : k' = k := hk
    exact Or.inl ⟨w, job, rfl, by rw [hsame]⟩
  | @ret w job hpc hret =>
    have hsame : k' = k := hk
    have hsum := p.atWork_update true (Function.update_eq_self w p.pool.worker).symm
    rw [hpc, hret] at hsum
    simp only [WorkerPc.atWork, Bool.false_eq_true, if_false, if_true] at hsum
    refine Or.inr ?_
    rw [hsame]
    change PoolConds.weight p.pool k + atWork ⟨p.pool, _⟩ < PoolConds.weight p.pool k + p.atWork + 0
    omega

end CallbackPool

/-! ## Who waits -/

section Waiting

variable {W E : Type} [DecidableEq W] [DecidableEq E]

/-- Only the calls of `mboxWorkerPoolWait` tell whether somebody waits. -/
theorem MboxWorkerPool.Step.waiter_idle_iff {p p' : MboxWorkerPool W E} {a : PoolAction W E}
    (h : p.Step a p') (hcall : a ≠ .waitCall) (hret : a ≠ .waitReturn) :
    p'.waiter = .idle ↔ p.waiter = .idle := by
  cases h with
  | waitCall => exact absurd rfl hcall
  | waitReturn => exact absurd rfl hret
  | waitLock hpc | wake hpc | lenSleep hpc | lenZero hpc | activeSleep hpc | activeZero hpc =>
    rw [hpc]
    simp
  | _ => exact Iff.rfl

/-- So it is in a pool with callbacks. -/
theorem CallbackPool.Step.waiter_idle_iff {p p' : CallbackPool W E} {a : CallbackAction W E}
    (h : p.Step a p') (hcall : a ≠ .pool .waitCall) (hret : a ≠ .pool .waitReturn) :
    p'.pool.waiter = .idle ↔ p.pool.waiter = .idle := by
  cases h with
  | pool _ hp => exact hp.waiter_idle_iff (fun heq => hcall (heq ▸ rfl)) fun heq => hret (heq ▸ rfl)
  | call hp => exact hp.waiter_idle_iff (by simp) (by simp)
  | finish _ hp => exact hp.waiter_idle_iff (by simp) (by simp)
  | work | ret => exact Iff.rfl

theorem CallbackPool.Step.waiter_of_waitCall {p p' : CallbackPool W E}
    (h : p.Step (.pool .waitCall) p') : p'.pool.waiter = .entered := by
  cases h with
  | pool _ hp =>
    cases hp
    rfl

theorem CallbackPool.Step.waiter_of_waitReturn {p p' : CallbackPool W E}
    (h : p.Step (.pool .waitReturn) p') : p'.pool.waiter = .idle := by
  cases h with
  | pool _ hp =>
    cases hp
    rfl

end Waiting

/-! ## Steps of the pool alone -/

/-- A step that concerns nothing but its pool costs nothing. -/
theorem PoolAction.Free.cost_eq {W E : Type} {b : PoolAction W E} (h : b.Free) (workers : ℕ) :
    PoolConds.cost workers b = 0 := by
  cases b with
  | addTail => exact h.elim
  | waitCall => exact h.elim
  | _ => rfl

/-- It is no call of `mboxWorkerPoolWait`. -/
theorem PoolAction.Free.ne_waitCall {W E : Type} {b : PoolAction W E} (h : b.Free) :
    CallbackAction.pool b ≠ .pool .waitCall := by
  rintro heq
  obtain rfl := CallbackAction.pool.inj heq
  exact h

/-- Nor is it the return of one. -/
theorem PoolAction.Free.ne_waitReturn {W E : Type} {b : PoolAction W E} (h : b.Free) :
    CallbackAction.pool b ≠ .pool .waitReturn := by
  rintro heq
  obtain rfl := CallbackAction.pool.inj heq
  exact h

/-- Those who sleep, behind a step of the callbacks. -/
theorem PoolConds.Follows.inv {W E : Type} [DecidableEq W] [DecidableEq E] [Fintype W]
    {p p' : CallbackPool W E} {k k' : PoolConds W} {a : CallbackAction W E}
    (hi : PoolConds.Inv p.pool k) (h : p.Step a p')
    (hk : PoolConds.Follows p k (some a) p' k') : PoolConds.Inv p'.pool k' := by
  cases h with
  | pool _ hp => exact hi.step hk
  | call hp => exact hi.step hk
  | finish _ hp => exact hi.step hk
  | work =>
    obtain rfl : k' = k := hk
    exact hi
  | ret =>
    obtain rfl : k' = k := hk
    exact hi

/-- What a step of the callbacks of a pool does to what is left to be done there. -/
theorem weight_follows {W E : Type} [DecidableEq W] [DecidableEq E] [Fintype W] [Fintype E]
    {p p' : CallbackPool W E} {k k' : PoolConds W} {b : CallbackAction W E} (h : p.Step b p')
    (hk : PoolConds.Follows p k (some b) p' k') (hb : ∀ w job, b ≠ .work w job) :
    p'.weight k' < p.weight k + CallbackPool.cost (Fintype.card W) b := by
  rcases CallbackPool.weight_step h hk with ⟨w, job, heq, -⟩ | hlt
  · exact absurd heq (hb w job)
  · exact hlt

/-- A step of the pool is a step of its callbacks, where it is inside the pool. -/
theorem exists_internal {W E : Type} [DecidableEq W] [DecidableEq E] {p : CallbackPool W E}
    {q : MboxWorkerPool W E} {b : PoolAction W E} (hb : b.Internal) (h : p.pool.Step b q) :
    ∃ p', p.Step (.pool b) p' ∧ p'.pool = q := by
  cases b with
  | call w job => exact ⟨_, .call h, rfl⟩
  | addTail => exact hb.elim
  | finish => exact hb.elim
  | waitCall => exact hb.elim
  | waitReturn => exact hb.elim
  | _ => exact ⟨_, .pool trivial h, rfl⟩

/-- The pool's own steps concern nothing but the pool. -/
theorem internal_free {W E : Type} {b : PoolAction W E}
    (hb : b.Internal) : b.Free := by
  cases b with
  | addTail => exact hb.elim
  | waitCall => exact hb.elim
  | waitReturn => exact hb.elim
  | _ => trivial

/-- **A pool that is left alone**: when it takes no step of its own, nobody goes to sleep, and no
callback can go on, no thread of the pool can. -/
theorem PoolConds.stuck_of_callbacks {W E : Type} [DecidableEq W] [DecidableEq E]
    {p : CallbackPool W E} {k : PoolConds W}
    (hfree : ∀ (b : PoolAction W E) p' k', b.Free → p.Step (.pool b) p' →
      ¬ PoolConds.Step p.pool k b p'.pool k')
    (hsleep : ∀ w, ¬ PoolConds.CanSleep p.pool k w)
    (hwork : ∀ w job, p.pool.worker w = .running job → p.returned w ≠ false)
    (hreturn : p.pool.waiter ≠ .returning) : PoolConds.Stuck p.pool k := by
  refine ⟨fun b q k' hb hstep => ?_, hsleep, fun w job hpc => ?_, hreturn⟩
  · obtain ⟨p', hp', rfl⟩ := exists_internal hb hstep.pool
    exact hfree b p' k' (internal_free hb) hp' hstep
  · cases hret : p.returned w with
    | true =>
      have hfin : p.pool.Step (.finish w job) _ := .finish hpc
      obtain ⟨k', hk'⟩ := PoolConds.Step.exists_of_awake k hfin rfl
      exact hfree (.finish w job) _ k' trivial (.finish hret hfin) hk'
    | false => exact hwork w job hpc hret

end Libmbox2
