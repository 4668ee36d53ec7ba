import Libmbox2.Worker

/-!
# No job is stranded

The semaphore is binary: many jobs may share one token. What keeps the pool going is that
the token does not get lost while there are jobs. It is in the semaphore, with a worker on
its way to the queue, or with a thread that holds `qlock` and is about to signal
(`HasToken`). Only a worker that finds no job drops it.
-/

namespace Libmbox2

open CSem

/-- A worker that will look into the queue, or signal. -/
def WorkerPc.Alert : WorkerPc → Prop
  | .woken => True
  | .active => True
  | .dequeued (some _) => True
  | _ => False

/-- The worker is in `mboxWorkerPoolDequeue`, behind the lock, so it holds `qlock`. -/
def WorkerPc.InQueue : WorkerPc → Prop
  | .dequeued _ => True
  | .signalled _ => True
  | _ => False

namespace MboxWorkerPool

variable {W E : Type}

/-- The thread is between the lock of `qlock` and the unlock. -/
def InQueue (s : MboxWorkerPool W E) : E ⊕ W → Prop
  | .inl e => s.enqueuer e ≠ .idle
  | .inr w => (s.worker w).InQueue

/-- Someone will look into the queue: the semaphore is up, somebody is about to signal, or a worker
has been let through. -/
def HasToken (s : MboxWorkerPool W E) : Prop :=
  s.semVal = 1 ∨ (∃ e, s.enqueuer e = .added) ∨ ∃ w, (s.worker w).Alert

/-- `qlock` guards the queue, and where there are jobs someone will look into it. -/
structure TokenInv (s : MboxWorkerPool W E) : Prop where
  queue : Guarded s.qlock s.InQueue
  token : s.jobs ≠ [] → s.HasToken

/-- A new pool has no jobs, and nobody holds its lock. -/
theorem tokenInv_new : (new : MboxWorkerPool W E).TokenInv where
  queue := by
    rintro (e | w) h
    · exact absurd rfl h
    · exact h.elim
  token := fun h => absurd rfl h

/-- When nobody holds `qlock`, nobody is about to signal: the semaphore has been signalled already,
or has let a worker through. -/
theorem TokenInv.free {s : MboxWorkerPool W E} (hi : s.TokenInv) (hq : s.qlock = none)
    (hjobs : s.jobs ≠ []) :
    s.semVal = 1 ∨ ∃ w, s.worker w = .woken ∨ s.worker w = .active := by
  have hqueue := hi.queue
  rw [hq] at hqueue
  rcases hi.token hjobs with hsem | ⟨e, he⟩ | ⟨w, hw⟩
  · exact Or.inl hsem
  · have hidle : ¬ s.enqueuer e ≠ .idle := hqueue.nobody (.inl e)
    rw [he] at hidle
    exact absurd EnqueuerPc.noConfusion hidle
  · have hout : ¬ (s.worker w).InQueue := hqueue.nobody (.inr w)
    refine Or.inr ⟨w, ?_⟩
    cases hpc : s.worker w with
    | woken => exact Or.inl rfl
    | active => exact Or.inr rfl
    | dequeued job =>
      rw [hpc] at hout
      exact absurd trivial hout
    | _ =>
      rw [hpc] at hw
      exact hw.elim

/-! ## Threads that move on -/

section Worker

variable [DecidableEq W] {s : MboxWorkerPool W E} {w : W} {pc : WorkerPc}

/-- Who is in the queue when a worker has moved on: this worker, if it is there now, and those of
before. -/
theorem inQueue_setWorker {s' : MboxWorkerPool W E} {t : E ⊕ W}
    (h : s'.InQueue t) (hw : s'.worker = Function.update s.worker w pc)
    (he : s'.enqueuer = s.enqueuer) : t = .inr w ∧ pc.InQueue ∨ t ≠ .inr w ∧ s.InQueue t := by
  rcases t with e | v
  · rw [InQueue, he] at h
    exact Or.inr ⟨Sum.inl_ne_inr, h⟩
  · rw [InQueue, hw] at h
    by_cases hv : v = w
    · subst hv
      rw [Function.update_self] at h
      exact Or.inl ⟨rfl, h⟩
    · rw [Function.update_of_ne hv] at h
      exact Or.inr ⟨fun heq => hv (Sum.inr.inj heq), h⟩

/-- A worker that does not have the token does not lose it. -/
theorem HasToken.setWorker (h : s.HasToken) (hw : ¬ (s.worker w).Alert) :
    (s.setWorker w pc).HasToken := by
  rcases h with hsem | henq | ⟨v, hv⟩
  · exact Or.inl hsem
  · exact Or.inr (Or.inl henq)
  · have hne : v ≠ w := fun heq => hw (heq ▸ hv)
    refine Or.inr (Or.inr ⟨v, ?_⟩)
    rwa [worker_setWorker, Function.update_of_ne hne]

/-- A worker that is on its way into the queue will look into it. -/
theorem hasToken_of_alert {s' : MboxWorkerPool W E}
    (hs' : s'.worker = Function.update s.worker w pc) (h : pc.Alert) : s'.HasToken := by
  refine Or.inr (Or.inr ⟨w, ?_⟩)
  rwa [hs', Function.update_self]

/-- A worker outside the queue moves on and stays outside. -/
theorem guarded_setWorker (h : Guarded s.qlock s.InQueue)
    (hpc : pc.InQueue → (s.worker w).InQueue) :
    Guarded s.qlock (s.setWorker w pc).InQueue := by
  refine h.mono fun t ht => ?_
  rcases inQueue_setWorker (s := s) ht rfl rfl with ⟨rfl, hin⟩ | ⟨-, hin⟩
  · exact hpc hin
  · exact hin

/-- A worker leaves the queue, and with it gives up the lock. -/
theorem guarded_release_worker (h : Guarded s.qlock s.InQueue) (hin : (s.worker w).InQueue)
    (hout : ¬ pc.InQueue) : Guarded none (s.setWorker w pc).InQueue := by
  refine h.release (o := .inr w) hin fun t ht => ?_
  rcases inQueue_setWorker (s := s) ht rfl rfl with ⟨-, hin'⟩ | ⟨hne, hin'⟩
  · exact absurd hin' hout
  · exact ⟨hin', hne⟩

end Worker

section Enqueuer

variable [DecidableEq E] {s : MboxWorkerPool W E} {e : E} {pc' : EnqueuerPc}

/-- Who is in the queue when an enqueuing thread has moved on. -/
theorem inQueue_setEnqueuer {s' : MboxWorkerPool W E} {t : E ⊕ W}
    (h : s'.InQueue t) (he : s'.enqueuer = Function.update s.enqueuer e pc')
    (hw : s'.worker = s.worker) : t = .inl e ∧ pc' ≠ .idle ∨ t ≠ .inl e ∧ s.InQueue t := by
  rcases t with f | v
  · rw [InQueue, he] at h
    by_cases hf : f = e
    · subst hf
      rw [Function.update_self] at h
      exact Or.inl ⟨rfl, h⟩
    · rw [Function.update_of_ne hf] at h
      exact Or.inr ⟨fun heq => hf (Sum.inl.inj heq), h⟩
  · rw [InQueue, hw] at h
    exact Or.inr ⟨Sum.inr_ne_inl, h⟩

/-- A thread that was not about to signal leaves the token where it is. -/
theorem HasToken.setEnqueuer (h : s.HasToken) (he : s.enqueuer e ≠ .added) :
    (s.setEnqueuer e pc').HasToken := by
  rcases h with hsem | ⟨f, hf⟩ | hw
  · exact Or.inl hsem
  · have hne : f ≠ e := fun heq => he (heq ▸ hf)
    refine Or.inr (Or.inl ⟨f, ?_⟩)
    rwa [enqueuer_setEnqueuer, Function.update_of_ne hne]
  · exact Or.inr (Or.inr hw)

end Enqueuer

/-! ## Runs -/

variable [DecidableEq W] [DecidableEq E]

/-- **One step**: `qlock` guards the queue, and the token is kept or handed on. -/
theorem TokenInv.step {s s' : MboxWorkerPool W E} {a : PoolAction W E} (hi : s.TokenInv)
    (h : Step s a s') : s'.TokenInv := by
  cases h with
  | @addTail e job hidle hq hid =>
    have hqueue := hi.queue
    rw [hq] at hqueue
    refine ⟨hqueue.acquire fun t ht hne => ?_, fun _ => ?_⟩
    · rcases inQueue_setEnqueuer (s := s) ht rfl rfl with ⟨heq, -⟩ | ⟨-, hin⟩
      · exact absurd heq hne
      · exact hin
    · -- who added the job is going to signal
      refine Or.inr (Or.inl ⟨e, ?_⟩)
      simp only [setEnqueuer, Function.update_self]
  | @signal e hadded =>
    refine ⟨hi.queue.mono fun t ht => ?_, fun _ => Or.inl rfl⟩
    rcases inQueue_setEnqueuer (s := s) ht rfl rfl with ⟨rfl, -⟩ | ⟨-, hin⟩
    · change s.enqueuer e ≠ .idle
      rw [hadded]
      exact EnqueuerPc.noConfusion
    · exact hin
  | @unlock e hsig =>
    have hne : s.enqueuer e ≠ .added := by
      rw [hsig]
      exact EnqueuerPc.noConfusion
    refine ⟨?_, fun hjobs => (hi.token hjobs).setEnqueuer hne⟩
    refine hi.queue.release (o := .inl e) ?_ fun t ht => ?_
    · change s.enqueuer e ≠ .idle
      rw [hsig]
      exact EnqueuerPc.noConfusion
    · rcases inQueue_setEnqueuer (s := s) ht rfl rfl with ⟨-, hidle⟩ | ⟨hne, hin⟩
      · exact absurd rfl hidle
      · exact ⟨hin, hne⟩
  | start hpc =>
    exact ⟨guarded_setWorker hi.queue (fun h => h.elim),
      fun hjobs => (hi.token hjobs).setWorker (by rw [hpc]; exact id)⟩
  | semaphoreWait hpc =>
    exact ⟨guarded_setWorker hi.queue (fun h => h.elim),
      fun _ => hasToken_of_alert rfl trivial⟩
  | activate hpc =>
    exact ⟨guarded_setWorker hi.queue (fun h => h.elim),
      fun _ => hasToken_of_alert rfl trivial⟩
  | @removeHead w hpc hq =>
    have hqueue := hi.queue
    rw [hq] at hqueue
    refine ⟨hqueue.acquire fun t ht hne => ?_, fun hjobs => ?_⟩
    · rcases inQueue_setWorker (s := s) ht rfl rfl with ⟨heq, -⟩ | ⟨-, hin⟩
      · exact absurd heq hne
      · exact hin
    · -- there was a job, and it will be signalled
      cases hj : s.jobs with
      | nil => exact absurd (by simp only [hj, List.tail_nil]) hjobs
      | cons job rest => exact hasToken_of_alert rfl trivial
  | resignal hpc =>
    exact ⟨guarded_setWorker hi.queue (fun _ => by rw [hpc]; trivial), fun _ => Or.inl rfl⟩
  | unlockJob hpc =>
    exact ⟨guarded_release_worker hi.queue (by rw [hpc]; trivial) id,
      fun hjobs => (hi.token hjobs).setWorker (by rw [hpc]; exact id)⟩
  | unlockEmpty hpc =>
    exact ⟨guarded_release_worker hi.queue (by rw [hpc]; trivial) id,
      fun hjobs => (hi.token hjobs).setWorker (by rw [hpc]; exact id)⟩
  | call hpc | finish hpc | deactivate hpc =>
    exact ⟨guarded_setWorker hi.queue (fun h => h.elim),
      fun hjobs => (hi.token hjobs).setWorker (by rw [hpc]; exact id)⟩
  | waitCall | waitLock | wake | lenSleep | lenZero | activeSleep | activeZero | waitReturn =>
    exact ⟨hi.queue, hi.token⟩

/-- **No job is stranded**: when nobody holds `qlock` and there are jobs, the semaphore is
up or a worker is between `mboxSemaphoreWait` and `mboxWorkerPoolDequeue`. -/
theorem jobs_attended
    {acts : List (PoolAction W E)} {s : MboxWorkerPool W E} (h : Run Step new acts s)
    (hq : s.qlock = none) (hjobs : s.jobs ≠ []) :
    s.semVal = 1 ∨ ∃ w, s.worker w = .woken ∨ s.worker w = .active :=
  (h.inv_state tokenInv_new fun _ _ _ hi hstep => hi.step hstep).free hq hjobs

/-- Two jobs, of which one worker has taken the first, and another one has been let through the
semaphore by the signal behind it: the semaphore is down, and the second job is attended to. -/
theorem jobs_attended_twoJobs : ∃ s : MboxWorkerPool (Fin 2) Unit, s.qlock = none ∧
    s.jobs = [⟨1, 0, 7⟩] ∧ s.semVal = 0 ∧
    (s.semVal = 1 ∨ ∃ w, s.worker w = .woken ∨ s.worker w = .active) := by
  have hadd : Step (new : MboxWorkerPool (Fin 2) Unit) (.addTail () ⟨0, 0, 0⟩) _ :=
    .addTail rfl rfl rfl
  have hone := ((Run.refl.snoc hadd).snoc (.signal (e := ()) rfl)).snoc (.unlock (e := ()) rfl)
  have hsecond := hone.snoc (@Step.addTail (Fin 2) Unit _ _ _ () ⟨1, 0, 7⟩ rfl rfl rfl)
  have htwo := (hsecond.snoc (.signal (e := ()) rfl)).snoc (.unlock (e := ()) rfl)
  have hup := (htwo.snoc (.start (w := 0) rfl rfl)).snoc (.start (w := 1) rfl rfl)
  have hwoken := (hup.snoc (.semaphoreWait (w := 0) rfl rfl)).snoc (.activate (w := 0) rfl rfl)
  have hfirst := ((hwoken.snoc (.removeHead (w := 0) rfl rfl)).snoc (.resignal (w := 0) rfl)).snoc
    (.unlockJob (w := 0) rfl)
  have hrun := hfirst.snoc (.semaphoreWait (w := 1) rfl rfl)
  exact ⟨_, rfl, rfl, rfl, jobs_attended hrun rfl (List.cons_ne_nil _ _)⟩

end MboxWorkerPool

end Libmbox2
