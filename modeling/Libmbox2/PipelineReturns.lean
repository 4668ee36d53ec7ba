import Libmbox2.Delivered
import Libmbox2.PipelineEnd
import Libmbox2.SeekStart
import Libmbox2.SleepingCallbacks

/-!
# `mboxMain` returns

Where the sequential program returns the threads do, too, whatever their order: a step of a pool,
of a callback or of the main thread lowers what is left to be done, and where no thread can go on
`mboxMain` has returned.
-/

namespace Libmbox2

open CSem CSem.Exec

/-! ## The sequential program, taken apart -/

section Solo

variable {fill : ℕ → MboxChar} {pread : Pread} {fileSize n : ℕ}

theorem seekStart_mono (ctx : MboxParserCtx) :
    FuelMono fun fuel => mboxParserCtxSeekStart fill pread fuel ctx :=
  (FuelMono.loop ..).bind fun _ => FuelMono.const _

theorem getNextMessageCallbackStep_mono (x : MboxParserCtx × List MboxIOMsg) :
    FuelMono fun fuel => getNextMessageCallbackStep fill pread fuel x :=
  (getNextMessage_mono x.1 pread).bind fun _ => FuelMono.const _

theorem getNextMessageCallback_mono (ctx : MboxParserCtx) :
    FuelMono fun fuel => mboxParserCtxGetNextMessageCallback fill pread fuel ctx :=
  FuelMono.loopBody getNextMessageCallbackStep_mono _

/-- What each context does when it is alone: its seek, and the messages it delivers. -/
structure Solo (fill : ℕ → MboxChar) (pread : Pread) (fileSize n : ℕ) (base : List MboxParserCtx)
    (all : List (List MboxIOMsg)) : Prop where
  seeks : ∀ i < n + 1, ∃ ctx, SoughtFrom fill pread fileSize n i ctx
  contexts : Converges (fun fuel => mboxSetAllOffsets fill pread fuel fileSize (n + 1)) base
  gets : List.Forall₂ (fun ctx msgs => Gets fill pread ctx [] msgs) base all

/-- A run of `mboxMain` without threads says what each context does. -/
theorem solo_of_converges {msgs : List MboxIOMsg}
    (h : Converges (fun fuel => mboxMain fill pread fuel fileSize (n + 1)) msgs) :
    ∃ base all, Solo fill pread fileSize n base all ∧ msgs = all.flatten := by
  obtain ⟨fuel, hfuel⟩ := h.exists_ok
  obtain ⟨base, hset, hparse⟩ := bind_eq_ok hfuel
  obtain ⟨all, hall, hmsgs⟩ := bind_eq_ok hparse
  obtain ⟨ctxs, hseek, hbase⟩ := bind_eq_ok hset
  obtain ⟨seeks, hseeks, hoffsets⟩ := bind_eq_ok hseek
  have hsought := Converges.mapM_inv seekStart_mono
    ((FuelMono.mapM seekStart_mono _).converges hseeks)
  rw [List.forall₂_map_left_iff] at hsought
  have hgets := Converges.mapM_inv getNextMessageCallback_mono
    ((FuelMono.mapM getNextMessageCallback_mono _).converges hall)
  refine ⟨base, all, ⟨fun i hlt => ?_, ?_, hgets.imp fun ctx msgs hmsgs => ?_⟩,
    (Exec.ok.inj hmsgs).symm⟩
  · obtain ⟨hlen, hget⟩ := List.forall₂_iff_get.mp hsought
    rw [List.length_range] at hlen
    have hone := hget i (by rw [List.length_range]; exact hlt) (hlen ▸ hlt)
    rw [List.get_eq_getElem, List.getElem_range] at hone
    exact ⟨_, hone⟩
  · have hsame : IsBase fill pread fileSize n base := by
      refine ⟨seeks, hsought, ?_⟩
      obtain rfl := Exec.ok.inj hbase
      cases seeks with
      | nil =>
        obtain rfl := Exec.ok.inj hoffsets
        rfl
      | cons ctx rest =>
        obtain rfl := Exec.ok.inj hoffsets
        rfl
    exact hsame.converges
  · obtain ⟨m, hm⟩ := hmsgs.exists_ok
    exact LoopTo.of_ok getNextMessageCallbackStep_mono hm

/-- An iteration only adds to what has been delivered. -/
theorem getNextMessageCallbackStep_grows {fuel : ℕ} {x : MboxParserCtx × List MboxIOMsg}
    {r : MboxParserCtx × List MboxIOMsg ⊕ List MboxIOMsg}
    (h : getNextMessageCallbackStep fill pread fuel x = ok r) :
    x.2 <+: r.elim Prod.snd id := by
  obtain ⟨⟨msg, ctx'⟩, -, hrest⟩ := bind_eq_ok h
  cases msg with
  | none =>
    obtain rfl := Exec.ok.inj hrest
    exact List.prefix_refl _
  | some msg =>
    dsimp only at hrest
    split at hrest
    · obtain rfl := Exec.ok.inj hrest
      exact List.prefix_append ..
    · obtain rfl := Exec.ok.inj hrest
      exact List.prefix_append ..

/-- What has been delivered stays delivered. -/
theorem Gets.starts {ctx : MboxParserCtx} {sent msgs : List MboxIOMsg}
    (h : Gets fill pread ctx sent msgs) : sent <+: msgs := by
  obtain ⟨fuel, hfuel⟩ := h.converges.exists_ok
  have hnext : ∀ x x' : MboxParserCtx × List MboxIOMsg, sent <+: x.2 →
      getNextMessageCallbackStep fill pread fuel x = ok (.inl x') → sent <+: x'.2 :=
    fun _ _ hx hbody => hx.trans (getNextMessageCallbackStep_grows hbody)
  have hdone : ∀ (x : MboxParserCtx × List MboxIOMsg) (r : List MboxIOMsg), sent <+: x.2 →
      getNextMessageCallbackStep fill pread fuel x = ok (.inr r) → sent <+: r :=
    fun _ _ hx hbody => hx.trans (getNextMessageCallbackStep_grows hbody)
  exact loop_inv hnext hdone (List.prefix_refl sent) hfuel

/-- A context that is read has a next message, or none. -/
theorem Gets.next {ctx : MboxParserCtx} {sent msgs : List MboxIOMsg}
    (h : Gets fill pread ctx sent msgs) :
    ∃ msg ctx', Converges (fun fuel => mboxParserCtxGetNextMessage fill pread fuel ctx)
      (msg, ctx') := by
  obtain ⟨N, hN⟩ := h
  have hloop := hN (N + 1) (N + 1) (Nat.le_succ N) (Nat.le_succ N)
  rw [loop_succ] at hloop
  obtain ⟨x, hx, -⟩ := bind_eq_ok hloop
  obtain ⟨⟨msg, ctx'⟩, hnext, -⟩ := bind_eq_ok hx
  exact ⟨msg, ctx', (getNextMessage_mono ctx pread).converges hnext⟩

/-! ## The messages of a run -/

variable {dateToUnix : List MboxChar → Exec (Option Int)} {acts : List (MboxAction n)}
  {s : MboxThreads n} {base : List MboxParserCtx} {all : List (List MboxIOMsg)}

/-- What the contexts have enqueued is the beginning of what they deliver alone. -/
theorem Solo.starts (hsolo : Solo fill pread fileSize n base all)
    (hi : Reads fill pread fileSize base acts s) {i : ℕ} {msgs : List MboxIOMsg}
    (h : all[i]? = some msgs) : messagesOf acts i <+: msgs := by
  obtain ⟨hlen, hget⟩ := List.forall₂_iff_get.mp hsolo.gets
  obtain ⟨hlt, rfl⟩ := List.getElem?_eq_some_iff.mp h
  have hmsgs := hget i (hlen ▸ hlt) hlt
  rw [List.get_eq_getElem, List.get_eq_getElem] at hmsgs
  obtain ⟨ctx, -, hopen, hdone⟩ := hi.ctx i _ (List.getElem?_eq_getElem (hlen ▸ hlt))
  rcases Nat.eq_zero_or_pos (ioRets acts (n + 1 + i)) with hzero | hpos
  · exact ((hopen hzero _).mp hmsgs).starts
  · rw [(hdone hpos).unique hmsgs]

/-- The contexts of the threads are those of the sequential program. -/
theorem Solo.base_eq (hsolo : Solo fill pread fileSize n base all) {base' : List MboxParserCtx}
    (hi : Reads fill pread fileSize base' acts s) : base' = base :=
  hi.isBase.converges.unique hsolo.contexts

/-- The contexts still seek, or they read. -/
theorem seeks_or_reads
    (hrun : Run (MboxThreads.Step fill dateToUnix pread) (.start fill fileSize n) acts s) :
    Seeks fill pread fileSize acts s ∨ ∃ base, Reads fill pread fileSize base acts s := by
  have hphase := phase_of_run hrun
  cases hmain : s.main with
  | seeking =>
    rw [hmain] at hphase
    exact Or.inl hphase
  | seekWait =>
    rw [hmain] at hphase
    exact Or.inl hphase.1
  | reading =>
    rw [hmain] at hphase
    exact Or.inr hphase
  | ioWait | ioDone | parseWait | returned =>
    rw [hmain] at hphase
    exact Or.inr hphase.1

/-- The messages that were enqueued are messages of the sequential program. -/
theorem Solo.subperm (hsolo : Solo fill pread fileSize n base all)
    (hrun : Run (MboxThreads.Step fill dateToUnix pread) (.start fill fileSize n) acts s) :
    s.messages.Subperm all.flatten := by
  have hmessages := (kept_of_run hrun).messages
  rcases seeks_or_reads hrun with hi | ⟨base', hi⟩
  · rw [hmessages, hi.none]
    exact List.nil_subperm
  · obtain rfl := hsolo.base_eq hi
    have hlen := hsolo.gets.length_eq
    have hall : List.Forall₂ List.Sublist ((List.range base'.length).map (messagesOf acts))
        all := by
      refine List.forall₂_iff_get.mpr ⟨?_, fun i h₁ h₂ => ?_⟩
      · rw [List.length_map, List.length_range, hlen]
      · rw [List.get_eq_getElem, List.getElem_map, List.getElem_range]
        exact (hsolo.starts hi (List.getElem?_eq_getElem h₂)).sublist
    refine ⟨_, ?_, forall₂_flatten_sublist hall⟩
    rw [hmessages]
    exact perm_flatten_filter hi.tags

end Solo

/-! ## Whom the main thread waits for -/

/-- The main thread waits for the io pool. -/
def MainPc.waitsIo : MainPc → Bool
  | .seekWait => true
  | .ioWait => true
  | _ => false

/-- It waits for the parse pool. -/
def MainPc.waitsParse : MainPc → Bool
  | .parseWait => true
  | _ => false

section Main

variable {fill : ℕ → MboxChar} {dateToUnix : List MboxChar → Exec (Option Int)} {pread : Pread}
  {fileSize n : ℕ} {s s' : MboxThreads n} {a : MboxAction n}

/-- The thread that waits for a pool is the main thread. -/
structure MainInv (s : MboxThreads n) : Prop where
  io : s.io.pool.waiter = .idle ↔ s.main.waitsIo = false
  parse : s.parse.pool.waiter = .idle ↔ s.main.waitsParse = false

/-- A step keeps what is known of the main thread and of the two waits. -/
theorem MainInv.step (hi : MainInv s) (h : MboxThreads.Step fill dateToUnix pread s a s') :
    MainInv s' := by
  obtain ⟨hio, hparse⟩ := hi
  cases h with
  | ioPool ha _ hstep =>
    exact ⟨(hstep.waiter_idle_iff ha.ne_waitCall ha.ne_waitReturn).trans hio, hparse⟩
  | parsePool ha hstep =>
    exact ⟨hio, (hstep.waiter_idle_iff ha.ne_waitCall ha.ne_waitReturn).trans hparse⟩
  | enqueueSeek hmain _ _ _ hstep | enqueueContext hmain _ _ _ hstep =>
    rw [hmain] at hio hparse
    exact ⟨(hstep.waiter_idle_iff (by simp) (by simp)).trans hio, hparse⟩
  | waitSeeks hmain _ hstep | waitIo hmain _ hstep =>
    rw [hmain] at hparse
    refine ⟨?_, hparse⟩
    rw [hstep.waiter_of_waitCall]
    simp [MainPc.waitsIo]
  | setOffsets hmain hstep | ioReturn hmain hstep =>
    rw [hmain] at hparse
    refine ⟨?_, hparse⟩
    rw [hstep.waiter_of_waitReturn]
    simp [MainPc.waitsIo]
  | waitParse hmain hstep =>
    rw [hmain] at hio
    refine ⟨hio, ?_⟩
    rw [hstep.waiter_of_waitCall]
    simp [MainPc.waitsParse]
  | parseReturn hmain hstep =>
    rw [hmain] at hio
    refine ⟨hio, ?_⟩
    rw [hstep.waiter_of_waitReturn]
    simp [MainPc.waitsParse]
  | seekStart _ _ _ hstep | noMessage _ _ _ _ hstep =>
    exact ⟨(hstep.waiter_idle_iff (by simp) (by simp)).trans hio, hparse⟩
  | @message _ _ _ _ last _ _ _ _ _ _ _ _ hstep _ _ hstep' =>
    refine ⟨(hstep.waiter_idle_iff ?_ ?_).trans hio,
      (hstep'.waiter_idle_iff (by simp) (by simp)).trans hparse⟩
    · cases last <;> simp [MboxAction.deliver]
    · cases last <;> simp [MboxAction.deliver]
  | lite _ _ _ hstep =>
    exact ⟨hio, (hstep.waiter_idle_iff (by simp) (by simp)).trans hparse⟩

end Main

/-! ## The threads, with those who sleep -/

/-- The threads of `mboxMain`, and who sleeps in the two pools. -/
structure SleepingMbox (n : ℕ) where
  threads : MboxThreads n
  ioConds : PoolConds (Fin (n + 1))
  parseConds : PoolConds (Fin (n + 1))

/-- A step of the threads, or of a worker of one of the pools that goes to sleep. -/
inductive SleepingMboxAction (n : ℕ) where
  | act (a : MboxAction n)
  /-- a worker of the io pool goes to sleep in `mboxSemaphoreWait` -/
  | ioSleep (w : Fin (n + 1))
  /-- a worker of the parse pool goes to sleep -/
  | parseSleep (w : Fin (n + 1))

namespace SleepingMbox

section Steps

variable (fill : ℕ → MboxChar) (dateToUnix : List MboxChar → Exec (Option Int)) (pread : Pread)
  (fileSize n : ℕ)

/-- In front of the first step, with nobody asleep. -/
def start : SleepingMbox n where
  threads := .start fill fileSize n
  ioConds := .new
  parseConds := .new

variable {n}

/-- A step of the threads, after which those who sleep on the condition variables follow. As for the
threads, a callback that runs into undefined behaviour has no step and keeps its worker. -/
inductive Step : SleepingMbox n → SleepingMboxAction n → SleepingMbox n → Prop where
  | act {s : SleepingMbox n} {a : MboxAction n} {t : MboxThreads n}
      {k k' : PoolConds (Fin (n + 1))} :
      MboxThreads.Step fill dateToUnix pread s.threads a t →
      PoolConds.Follows s.threads.io s.ioConds a.io? t.io k →
      PoolConds.Follows s.threads.parse s.parseConds a.parse? t.parse k' →
      Step s (.act a) ⟨t, k, k'⟩
  | ioSleep {s : SleepingMbox n} {w : Fin (n + 1)} :
      PoolConds.CanSleep s.threads.io.pool s.ioConds w →
      Step s (.ioSleep w) { s with ioConds := s.ioConds.sleep w }
  | parseSleep {s : SleepingMbox n} {w : Fin (n + 1)} :
      PoolConds.CanSleep s.threads.parse.pool s.parseConds w →
      Step s (.parseSleep w) { s with parseConds := s.parseConds.sleep w }

end Steps

variable {fill : ℕ → MboxChar} {dateToUnix : List MboxChar → Exec (Option Int)} {pread : Pread}
  {fileSize n : ℕ} {s s' : SleepingMbox n} {a : SleepingMboxAction n}

variable (fill dateToUnix pread fileSize) in
/-- What is known of a state that a run comes to. -/
structure Reached (s : SleepingMbox n) : Prop where
  run : ∃ acts, Run (MboxThreads.Step fill dateToUnix pread) (.start fill fileSize n) acts s.threads
  io : PoolConds.Inv s.threads.io.pool s.ioConds
  parse : PoolConds.Inv s.threads.parse.pool s.parseConds
  main : MainInv s.threads

/-- What is known is true in front of the first step. -/
theorem reached_start : Reached fill dateToUnix pread fileSize (.start fill fileSize n) where
  run := ⟨[], .refl⟩
  io := PoolConds.inv_new
  parse := PoolConds.inv_new
  main := ⟨Iff.intro (fun _ => rfl) fun _ => rfl, Iff.intro (fun _ => rfl) fun _ => rfl⟩

/-- And behind every step. -/
theorem Reached.step (hi : Reached fill dateToUnix pread fileSize s)
    (h : Step fill dateToUnix pread s a s') : Reached fill dateToUnix pread fileSize s' := by
  cases h with
  | @act a t k k' hstep hio hparse =>
    obtain ⟨acts, hrun⟩ := hi.run
    refine ⟨⟨acts ++ [a], hrun.snoc hstep⟩, ?_, ?_, hi.main.step hstep⟩
    · rcases io_of_step hstep with ⟨hnone, hsame⟩ | ⟨b, hsome, hb⟩
      · rw [hnone] at hio
        obtain rfl : k = s.ioConds := hio
        exact hsame ▸ hi.io
      · rw [hsome] at hio
        exact hio.inv hi.io hb
    · rcases parse_of_step hstep with ⟨hnone, hsame⟩ | ⟨b, hsome, hb⟩
      · rw [hnone] at hparse
        obtain rfl : k' = s.parseConds := hparse
        exact hsame ▸ hi.parse
      · rw [hsome] at hparse
        exact hparse.inv hi.parse hb
  | ioSleep hw => exact ⟨hi.run, hi.io.sleep hw, hi.parse, hi.main⟩
  | parseSleep hw => exact ⟨hi.run, hi.io, hi.parse.sleep hw, hi.main⟩

/-! ### What is left to be done -/

/-- What a job costs that is enqueued. -/
def jobCost (n : ℕ) : ℕ := 25 + 2 * (n + 1)

/-- What the main thread may still cost, when there are `m` contexts. -/
def mainLeft (n m : ℕ) : MainPc → ℕ
  | .seeking i => (n + 1 - i) * jobCost n + (n + 1) * jobCost n + 15
  | .seekWait => (n + 1) * jobCost n + 10
  | .reading i => (m - i) * jobCost n + 10
  | .ioWait => 5
  | .ioDone => 5
  | .parseWait => 0
  | .returned => 0

/-- What all threads may still do, when there are `total` messages. -/
def weight (total : ℕ) (s : SleepingMbox n) : ℕ :=
  mainLeft n s.threads.contexts.length s.threads.main + s.threads.io.weight s.ioConds +
    s.threads.parse.weight s.parseConds + (jobCost n + 1) * (total - s.threads.messages.length)

/-- There are no more contexts with offsets than there were. -/
theorem length_offsetsOf (ctxs : List MboxParserCtx) :
    (filterContexts (offsetsOf ctxs)).length ≤ ctxs.length := by
  have hset : ∀ (rest : List MboxParserCtx) (ctx : MboxParserCtx),
      (setOffsets ctx rest).length = rest.length + 1 := by
    intro rest
    induction rest with
    | nil => exact fun _ => rfl
    | cons c rest ih =>
      intro ctx
      rw [setOffsets, List.length_cons, ih, List.length_cons]
  rw [filterContexts, List.length_mapIdx]
  refine (List.length_filter_le ..).trans ?_
  cases ctxs with
  | nil => exact le_refl 0
  | cons ctx rest => exact (hset rest ctx).le

theorem mainLeft_seeking {i m : ℕ} (hi : i < n + 1) :
    mainLeft n m (.seeking (i + 1)) + jobCost n ≤ mainLeft n m (.seeking i) := by
  have hleft : n + 1 - i = n + 1 - (i + 1) + 1 := by omega
  simp only [mainLeft, hleft, Nat.succ_mul]
  omega

theorem mainLeft_reading {i m : ℕ} (hi : i < m) :
    mainLeft n m (.reading (i + 1)) + jobCost n ≤ mainLeft n m (.reading i) := by
  have hleft : m - i = m - (i + 1) + 1 := by omega
  simp only [mainLeft, hleft, Nat.succ_mul]
  omega

/-- When the seeks are done there are no more contexts than before. -/
theorem mainLeft_offsets {ctxs : List MboxParserCtx} (hlen : ctxs.length = n + 1) (m : ℕ) :
    mainLeft n (filterContexts (offsetsOf ctxs)).length (.reading 0) ≤ mainLeft n m .seekWait := by
  have hle := length_offsetsOf ctxs
  rw [hlen] at hle
  exact Nat.add_le_add_right (Nat.mul_le_mul_right (jobCost n) hle) 10

section Weights

variable {t : MboxThreads n} {k : PoolConds (Fin (n + 1))} {total : ℕ}

/-- A step of the io pool that goes on with no callback: what it costs is paid for by what the
main thread has left. -/
theorem weight_io_lt {b : CallbackAction (Fin (n + 1)) Unit} (hstep : s.threads.io.Step b t.io)
    (hk : PoolConds.Follows s.threads.io s.ioConds (some b) t.io k)
    (hb : ∀ w job, b ≠ .work w job) (hparse : t.parse = s.threads.parse)
    (hmessages : t.messages = s.threads.messages)
    (hmain : mainLeft n t.contexts.length t.main + CallbackPool.cost (n + 1) b ≤
      mainLeft n s.threads.contexts.length s.threads.main) :
    weight total ⟨t, k, s.parseConds⟩ < weight total s := by
  have hlt := weight_follows hstep hk hb
  rw [Fintype.card_fin] at hlt
  simp only [weight, hparse, hmessages]
  omega

/-- **A step of the parse pool** lowers what is left, unless a callback works on. -/
theorem weight_parse_lt {b : CallbackAction (Fin (n + 1)) (Fin (n + 1))}
    (hstep : s.threads.parse.Step b t.parse)
    (hk : PoolConds.Follows s.threads.parse s.parseConds (some b) t.parse k)
    (hb : ∀ w job, b ≠ .work w job) (hio : t.io = s.threads.io)
    (hmessages : t.messages = s.threads.messages)
    (hmain : mainLeft n t.contexts.length t.main + CallbackPool.cost (n + 1) b ≤
      mainLeft n s.threads.contexts.length s.threads.main) :
    weight total ⟨t, s.ioConds, k⟩ < weight total s := by
  have hlt := weight_follows hstep hk hb
  rw [Fintype.card_fin] at hlt
  simp only [weight, hio, hmessages]
  omega

/-- A message is delivered: the callback of the io pool returns, or goes on, and the message pays
for the job that it is in the parse pool. -/
theorem weight_message_lt {w : Fin (n + 1)} {job parseJob : MboxWorkerJob} {last : Bool}
    {k' : PoolConds (Fin (n + 1))} (hstep : s.threads.io.Step (MboxAction.deliver w job last) t.io)
    (hio : PoolConds.Follows s.threads.io s.ioConds (some (MboxAction.deliver w job last)) t.io k)
    (hstep' : s.threads.parse.Step (.pool (.addTail w parseJob)) t.parse)
    (hparse : PoolConds.Follows s.threads.parse s.parseConds (some (.pool (.addTail w parseJob)))
      t.parse k')
    (hmain : t.main = s.threads.main) (hcontexts : t.contexts.length = s.threads.contexts.length)
    (hmessages : t.messages.length = s.threads.messages.length + 1)
    (htotal : t.messages.length ≤ total) :
    weight total ⟨t, k, k'⟩ < weight total s := by
  have hlt := weight_follows hstep' hparse (by simp)
  change _ < _ + (25 + 2 * Fintype.card (Fin (n + 1))) at hlt
  rw [Fintype.card_fin] at hlt
  have hle : t.io.weight k ≤ s.threads.io.weight s.ioConds := by
    rcases CallbackPool.weight_step hstep hio with ⟨w, job, -, heq⟩ | hio'
    · exact heq.le
    · cases last <;> exact hio'.le
  have hleft : total - s.threads.messages.length = total - t.messages.length + 1 := by omega
  simp only [weight, hmain, hcontexts, hleft, Nat.mul_succ]
  rw [jobCost] at *
  omega

end Weights

/-- **Every step lowers what is left to be done**, by the threads or by those who fall asleep, so no
run goes on for ever. -/
theorem Reached.weight_lt {base : List MboxParserCtx} {all : List (List MboxIOMsg)}
    (hsolo : Solo fill pread fileSize n base all) (hi : Reached fill dateToUnix pread fileSize s)
    (h : Step fill dateToUnix pread s a s') :
    s'.weight all.flatten.length < s.weight all.flatten.length := by
  obtain ⟨acts', hrun'⟩ := (hi.step h).run
  have htotal := (hsolo.subperm hrun').length_le
  obtain ⟨acts, hrun⟩ := hi.run
  cases h with
  | @act a t k k' hstep hio hparse =>
    cases hstep with
    | ioPool ha hfin hstep =>
      obtain rfl : k' = s.parseConds := hparse
      refine weight_io_lt hstep hio (by simp) rfl rfl ?_
      rw [CallbackPool.cost, ha.cost_eq]
      exact le_refl _
    | parsePool ha hstep =>
      obtain rfl : k = s.ioConds := hio
      refine weight_parse_lt hstep hparse (by simp) rfl rfl ?_
      rw [CallbackPool.cost, ha.cost_eq]
      exact le_refl _
    | enqueueSeek hmain hi _ _ hstep =>
      obtain rfl : k' = s.parseConds := hparse
      exact weight_io_lt hstep hio (by simp) rfl rfl (hmain ▸ mainLeft_seeking hi)
    | waitSeeks hmain _ hstep =>
      obtain rfl : k' = s.parseConds := hparse
      refine weight_io_lt hstep hio (by simp) rfl rfl ?_
      rw [hmain, mainLeft, mainLeft, Nat.sub_self, Nat.zero_mul, Nat.zero_add]
      exact le_refl _
    | setOffsets hmain hstep =>
      obtain rfl : k' = s.parseConds := hparse
      have hphase := phase_of_run hrun
      rw [hmain] at hphase
      exact weight_io_lt hstep hio (by simp) rfl rfl
        (hmain ▸ mainLeft_offsets hphase.1.length s.threads.contexts.length)
    | enqueueContext hmain hi _ _ hstep =>
      obtain rfl : k' = s.parseConds := hparse
      exact weight_io_lt hstep hio (by simp) rfl rfl (hmain ▸ mainLeft_reading hi)
    | waitIo hmain _ hstep =>
      obtain rfl : k' = s.parseConds := hparse
      refine weight_io_lt hstep hio (by simp) rfl rfl ?_
      rw [hmain, mainLeft, mainLeft, Nat.sub_self, Nat.zero_mul, Nat.zero_add]
      exact le_refl _
    | ioReturn hmain hstep =>
      obtain rfl : k' = s.parseConds := hparse
      exact weight_io_lt hstep hio (by simp) rfl rfl (hmain ▸ le_refl _)
    | waitParse hmain hstep =>
      obtain rfl : k = s.ioConds := hio
      exact weight_parse_lt hstep hparse (by simp) rfl rfl (hmain ▸ le_refl _)
    | parseReturn hmain hstep =>
      obtain rfl : k = s.ioConds := hio
      exact weight_parse_lt hstep hparse (by simp) rfl rfl (hmain ▸ le_refl _)
    | seekStart _ _ _ hstep | noMessage _ _ _ _ hstep =>
      obtain rfl : k' = s.parseConds := hparse
      refine weight_io_lt hstep hio (by simp) rfl rfl ?_
      rw [List.length_set]
      exact le_refl _
    | message _ _ _ _ hstep _ _ hstep' =>
      exact weight_message_lt hstep hio hstep' hparse rfl (List.length_set ..)
        List.length_append htotal
    | lite _ _ _ hstep =>
      obtain rfl : k = s.ioConds := hio
      exact weight_parse_lt hstep hparse (by simp) rfl rfl (le_refl _)
  | ioSleep hw =>
    have hlt := PoolConds.weight_sleep hw
    simp only [weight, CallbackPool.weight]
    omega
  | parseSleep hw =>
    have hlt := PoolConds.weight_sleep hw
    simp only [weight, CallbackPool.weight]
    omega

/-! ### Where no thread can go on -/

section Last

variable {base : List MboxParserCtx} {all : List (List MboxIOMsg)}

/-- No thread can go on, and none can fall asleep. -/
def Last (fill : ℕ → MboxChar) (dateToUnix : List MboxChar → Exec (Option Int)) (pread : Pread)
    (s : SleepingMbox n) : Prop := ∀ a t, ¬ Step fill dateToUnix pread s a t

/-- A step of the io pool, with those who sleep. -/
theorem Last.no_io {b : CallbackAction (Fin (n + 1)) Unit} {t : MboxThreads n}
    {k : PoolConds (Fin (n + 1))} (hlast : Last fill dateToUnix pread s)
    (h : MboxThreads.Step fill dateToUnix pread s.threads (.io b) t)
    (hk : PoolConds.Follows s.threads.io s.ioConds (some b) t.io k) : False :=
  hlast _ _ (.act h hk rfl)

/-- A step that the parse pool could take would be one of the threads. -/
theorem Last.no_parse {b : CallbackAction (Fin (n + 1)) (Fin (n + 1))} {t : MboxThreads n}
    {k : PoolConds (Fin (n + 1))} (hlast : Last fill dateToUnix pread s)
    (h : MboxThreads.Step fill dateToUnix pread s.threads (.parse b) t)
    (hk : PoolConds.Follows s.threads.parse s.parseConds (some b) t.parse k) : False :=
  hlast _ _ (.act h rfl hk)

/-- A worker of the parse pool that is at work: it has a message. -/
theorem working_parse {acts : List (MboxAction n)} {t : MboxThreads n}
    (h : Run (MboxThreads.Step fill dateToUnix pread) (.start fill fileSize n) acts t)
    {w : Fin (n + 1)} {job : MboxWorkerJob} (hpc : t.parse.pool.worker w = .running job)
    (hret : t.parse.returned w = false) : ∃ msg, t.messages[job.argv]? = some msg := by
  have hcounted := parseCounted_of_run h
  obtain ⟨-, hadded, -⟩ := (CallbackPool.retInv_of_run (run_parse h)).working hpc hret
  obtain ⟨hid, hjob⟩ := (hcounted.jobs job).mp hadded
  rw [hcounted.enqueued] at hid
  rw [hjob]
  exact ⟨_, List.getElem?_eq_getElem hid⟩

/-- **The parse pool**: no worker can go on, as every message can be parsed. -/
theorem Last.parse_stuck (hlast : Last fill dateToUnix pread s)
    (hsolo : Solo fill pread fileSize n base all)
    (hlites : ∀ msg ∈ all.flatten, ∃ lite, ParsesTo fill dateToUnix msg lite)
    (hi : Reached fill dateToUnix pread fileSize s) :
    PoolConds.Stuck s.threads.parse.pool s.parseConds := by
  obtain ⟨acts, hrun⟩ := hi.run
  refine PoolConds.stuck_of_callbacks (fun b p' k hb hp hk => hlast.no_parse (.parsePool hb hp) hk)
    (fun w hw => hlast _ _ (.parseSleep hw)) (fun w job hpc hret => ?_) fun hpc => ?_
  · obtain ⟨msg, hmsg⟩ := working_parse hrun hpc hret
    obtain ⟨lite, hlite⟩ := hlites msg
      ((hsolo.subperm hrun).subset (List.mem_of_getElem? hmsg))
    have hkept := kept_of_run hrun
    obtain ⟨heap, l, hadd, -⟩ := mboxListTSAddTail_spec lite hkept.holds hkept.unlocked
    exact hlast _ _ (.act (.lite hmsg hlite hadd (.ret hpc hret)) rfl rfl)
  · have hmain : s.threads.main = .parseWait := by
      have hidle := hi.main.parse
      rw [hpc] at hidle
      cases hm : s.threads.main with
      | parseWait => rfl
      | _ =>
        rw [hm] at hidle
        exact absurd (hidle.mpr rfl) (by simp)
    have hreturn : s.threads.parse.pool.Step .waitReturn _ := .waitReturn hpc
    obtain ⟨k, hk⟩ := PoolConds.Step.exists_of_awake s.parseConds hreturn rfl
    exact hlast.no_parse (.parseReturn hmain (.pool trivial hreturn)) hk

/-- A worker of the io pool that is at work can go on. -/
theorem Last.no_work (hlast : Last fill dateToUnix pread s)
    (hsolo : Solo fill pread fileSize n base all)
    (hi : Reached fill dateToUnix pread fileSize s)
    (hparse : PoolConds.Quiet s.threads.parse.pool s.parseConds) {w : Fin (n + 1)}
    {job : MboxWorkerJob} (hpc : s.threads.io.pool.worker w = .running job)
    (hret : s.threads.io.returned w = false) : False := by
  obtain ⟨acts, hrun⟩ := hi.run
  have hidle := hparse.enqueuer w
  obtain ⟨k, hk, rfl, hopen, hfin⟩ := working_io hrun hpc hret
  rcases seeks_or_reads hrun with hseeks | ⟨base', hreads⟩
  · -- a context that seeks
    have hlt : k < n + 1 := hk.trans_le hseeks.early
    obtain ⟨ctx, hctx, hbefore, -⟩ := hseeks.ctx k hlt
    obtain ⟨ctx', hctx'⟩ := hsolo.seeks k hlt
    have hjob : ioJob n k = ⟨k, seekStartCallback, k⟩ := if_pos hlt
    rw [hjob] at hpc
    rw [SoughtFrom, ← hbefore hopen] at hctx'
    exact hlast.no_io (.seekStart rfl hctx hctx' (.ret hpc hret)) rfl
  · -- a context that is read
    obtain rfl := hsolo.base_eq hreads
    have hge : ¬ k < n + 1 := fun hlt => hfin (hreads.seeksDone k hlt)
    obtain ⟨i, rfl⟩ : ∃ i, k = n + 1 + i := ⟨k - (n + 1), by omega⟩
    rw [ioJob_context] at hpc
    have hlt : i < base'.length := by
      have hle := (ioCounted_of_run hrun).le
      rw [hreads.length] at hle
      omega
    obtain ⟨hlen, hget⟩ := List.forall₂_iff_get.mp hsolo.gets
    obtain ⟨ctx, hctx, hbefore, -⟩ := hreads.ctx i _ (List.getElem?_eq_getElem hlt)
    obtain ⟨msg, ctx', hnext⟩ := ((hbefore hopen _).mp (hget i hlt (hlen ▸ hlt))).next
    cases msg with
    | none => exact hlast.no_io (.noMessage rfl hctx hnext hidle (.ret hpc hret)) rfl
    | some msg =>
      have hcounted := parseCounted_of_run hrun
      have hadd : s.threads.parse.pool.Step (.addTail w (parseJob s.threads.messages.length)) _ :=
        .addTail hidle hparse.qlock hcounted.enqueued.symm
      obtain ⟨k', hk'⟩ := PoolConds.Step.exists_of_awake s.parseConds hadd rfl
      by_cases herr : ctx'.err = mboxParseDone
      · exact hlast _ _ (.act (.message rfl hctx hnext (decide_eq_true herr).symm (.ret hpc hret)
          rfl rfl (.pool trivial hadd)) rfl hk')
      · exact hlast _ _ (.act (.message rfl hctx hnext (decide_eq_false herr).symm (.work hpc hret)
          rfl rfl (.pool trivial hadd)) rfl hk')

/-- **The io pool**: no worker can go on, as every context can, and the one that enqueues a message
waits for nobody. -/
theorem Last.io_stuck (hlast : Last fill dateToUnix pread s)
    (hsolo : Solo fill pread fileSize n base all)
    (hi : Reached fill dateToUnix pread fileSize s)
    (hparse : PoolConds.Quiet s.threads.parse.pool s.parseConds) :
    PoolConds.Stuck s.threads.io.pool s.ioConds := by
  refine PoolConds.stuck_of_callbacks
    (fun b p' k hb hp hk => hlast.no_io (.ioPool hb (fun v _ _ => hparse.enqueuer v) hp) hk)
    (fun w hw => hlast _ _ (.ioSleep hw))
    (fun w job hpc hret => hlast.no_work hsolo hi hparse hpc hret) fun hpc => ?_
  · have hidle := hi.main.io
    rw [hpc] at hidle
    have hreturn : s.threads.io.pool.Step .waitReturn _ := .waitReturn hpc
    obtain ⟨k, hk⟩ := PoolConds.Step.exists_of_awake s.ioConds hreturn rfl
    cases hm : s.threads.main with
    | seekWait => exact hlast.no_io (.setOffsets hm (.pool trivial hreturn)) hk
    | ioWait => exact hlast.no_io (.ioReturn hm (.pool trivial hreturn)) hk
    | _ =>
      rw [hm] at hidle
      exact absurd (hidle.mpr rfl) (by simp)

/-- **Where no thread can go on `mboxMain` has returned**: no worker is stuck in a callback, and the
main thread waits for neither pool in vain. -/
theorem Last.returned (hlast : Last fill dateToUnix pread s)
    (hsolo : Solo fill pread fileSize n base all)
    (hlites : ∀ msg ∈ all.flatten, ∃ lite, ParsesTo fill dateToUnix msg lite)
    (hi : Reached fill dateToUnix pread fileSize s) : s.threads.main = .returned := by
  have hparse := (hlast.parse_stuck hsolo hlites hi).quiet hi.parse
  have hio := (hlast.io_stuck hsolo hi hparse).quiet hi.io
  obtain ⟨acts, hrun⟩ := hi.run
  have hcounted := ioCounted_of_run hrun
  have hen := hcounted.enqueued
  have hloop := hcounted.inLoop
  have hwaitsIo := hi.main.io.mp hio.waiter
  have hwaitsParse := hi.main.parse.mp hparse.waiter
  have hadd : ∀ job : MboxWorkerJob, job.id = s.threads.io.pool.enqueued →
      ∃ q, s.threads.io.pool.Step (.addTail () job) q :=
    fun job hid => ⟨_, .addTail (hio.enqueuer ()) hio.qlock hid⟩
  cases hm : s.threads.main with
  | seeking i =>
    rw [hm] at hen hloop
    by_cases hlt : i < n + 1
    · obtain ⟨q, hq⟩ := hadd ⟨i, seekStartCallback, i⟩ hen.symm
      obtain ⟨k, hk⟩ := PoolConds.Step.exists_of_awake s.ioConds hq rfl
      exact (hlast.no_io (.enqueueSeek hm hlt rfl rfl (.pool trivial hq)) hk).elim
    · obtain rfl : i = n + 1 := by
        change i ≤ n + 1 at hloop
        omega
      have hcall : s.threads.io.pool.Step .waitCall _ := .waitCall hio.waiter
      obtain ⟨k, hk⟩ := PoolConds.Step.exists_of_awake s.ioConds hcall rfl
      exact (hlast.no_io (.waitSeeks hm (hio.enqueuer ()) (.pool trivial hcall)) hk).elim
  | reading i =>
    rw [hm] at hen hloop
    by_cases hlt : i < s.threads.contexts.length
    · obtain ⟨q, hq⟩ := hadd ⟨n + 1 + i, getNextMessageCallback, i⟩ hen.symm
      obtain ⟨k, hk⟩ := PoolConds.Step.exists_of_awake s.ioConds hq rfl
      exact (hlast.no_io (.enqueueContext hm hlt rfl rfl (.pool trivial hq)) hk).elim
    · obtain rfl : i = s.threads.contexts.length := by
        change i ≤ s.threads.contexts.length at hloop
        omega
      have hcall : s.threads.io.pool.Step .waitCall _ := .waitCall hio.waiter
      obtain ⟨k, hk⟩ := PoolConds.Step.exists_of_awake s.ioConds hcall rfl
      exact (hlast.no_io (.waitIo hm (hio.enqueuer ()) (.pool trivial hcall)) hk).elim
  | ioDone =>
    have hcall : s.threads.parse.pool.Step .waitCall _ := .waitCall hparse.waiter
    obtain ⟨k, hk⟩ := PoolConds.Step.exists_of_awake s.parseConds hcall rfl
    exact (hlast.no_parse (.waitParse hm (.pool trivial hcall)) hk).elim
  | seekWait | ioWait =>
    rw [hm] at hwaitsIo
    cases hwaitsIo
  | parseWait =>
    rw [hm] at hwaitsParse
    cases hwaitsParse
  | returned => rfl

end Last

/-! ### Runs -/

/-- What there is to do in front of the first step. -/
theorem weight_start (total : ℕ) :
    (start fill fileSize n).weight total =
      2 * (n + 1) * jobCost n + 15 + 4 * (n + 1) + (jobCost n + 1) * total := by
  have hpool : ∀ {E : Type} [Fintype E], CallbackPool.weight
      (CallbackPool.new : CallbackPool (Fin (n + 1)) E) PoolConds.new = 2 * (n + 1) := by
    intro E _
    have hnew : PoolConds.weight (MboxWorkerPool.new : MboxWorkerPool (Fin (n + 1)) E) .new = _ :=
      PoolConds.weight_new
    have hwork : (CallbackPool.new : CallbackPool (Fin (n + 1)) E).atWork = 0 :=
      Finset.sum_eq_zero fun _ _ => rfl
    rw [Fintype.card_fin] at hnew
    rw [CallbackPool.weight, hwork, Nat.add_zero]
    exact hnew
  have hmain : mainLeft n (start fill fileSize n).threads.contexts.length
      (start fill fileSize n).threads.main = (n + 1) * jobCost n + (n + 1) * jobCost n + 15 := rfl
  rw [weight, hmain]
  simp only [start, MboxThreads.start, hpool, List.length_nil, Nat.sub_zero]
  have hmul : 2 * (n + 1) * jobCost n = (n + 1) * jobCost n + (n + 1) * jobCost n := by
    rw [Nat.mul_assoc, Nat.two_mul]
  omega

/-- Some order of the steps goes to the end. -/
theorem exists_last (dateToUnix : List MboxChar → Exec (Option Int)) {base : List MboxParserCtx}
    {all : List (List MboxIOMsg)} (hsolo : Solo fill pread fileSize n base all) :
    ∃ acts t, Run (Step fill dateToUnix pread) (start fill fileSize n) acts t ∧
      Last fill dateToUnix pread t := by
  have hstart : Reached fill dateToUnix pread fileSize (start fill fileSize n) := reached_start
  refine Run.exists_last (weight all.flatten.length) (fun t ht => ?_) hstart
  by_contra hno
  rw [not_or] at hno
  refine hno.1 fun a u hstep => hno.2 ⟨a, u, hstep, ?_, ?_⟩
  · exact Reached.step ht hstep
  · exact Reached.weight_lt hsolo ht hstep

/-- What holds at the start, and is kept, holds in every state of a run. -/
theorem reached_of_run {acts : List (SleepingMboxAction n)}
    (hrun : Run (Step fill dateToUnix pread) (.start fill fileSize n) acts s) :
    Reached fill dateToUnix pread fileSize s :=
  hrun.inv_state reached_start fun _ _ _ ht hstep => ht.step hstep

/-- How long a run can be. -/
theorem length_le_of_run {msgs : List MboxIOMsg} {acts : List (SleepingMboxAction n)}
    (hmsgs : Converges (fun fuel => mboxMain fill pread fuel fileSize (n + 1)) msgs)
    (hrun : Run (Step fill dateToUnix pread) (.start fill fileSize n) acts s) :
    acts.length ≤ 2 * (n + 1) * jobCost n + 15 + 4 * (n + 1) + (jobCost n + 1) * msgs.length := by
  obtain ⟨base, all, hsolo, rfl⟩ := solo_of_converges hmsgs
  have hlen := hrun.length_le (weight all.flatten.length) (fun _ => 0) reached_start
    (fun _ _ _ ht hstep => ht.step hstep) fun _ _ _ ht hstep => ht.weight_lt hsolo hstep
  rw [weight_start, Run.costs_zero] at hlen
  omega

/-- Where no thread can go on, `mboxMain` has returned. -/
theorem returned_of_run {msgs : List MboxIOMsg} {lites : List MboxMsgLite}
    {acts : List (SleepingMboxAction n)}
    (hmsgs : Converges (fun fuel => mboxMain fill pread fuel fileSize (n + 1)) msgs)
    (hlites : List.Forall₂ (ParsesTo fill dateToUnix) msgs lites)
    (hrun : Run (Step fill dateToUnix pread) (.start fill fileSize n) acts s)
    (hlast : ∀ a t, ¬ Step fill dateToUnix pread s a t) :
    s.threads.main = .returned ∧ ∃ xs, s.threads.completedParse.Holds s.threads.heap xs ∧
      xs.Perm lites := by
  obtain ⟨base, all, hsolo, rfl⟩ := solo_of_converges hmsgs
  have hreached := reached_of_run hrun
  have hparsed : ∀ msg ∈ all.flatten, ∃ lite, ParsesTo fill dateToUnix msg lite :=
    fun msg hmsg => by
      obtain ⟨i, hi, rfl⟩ := List.getElem_of_mem hmsg
      obtain ⟨hlen, hget⟩ := List.forall₂_iff_get.mp hlites
      exact ⟨_, hget i hi (hlen ▸ hi)⟩
  have hret := Last.returned hlast hsolo hparsed hreached
  obtain ⟨acts', hrun'⟩ := hreached.run
  obtain ⟨msgs', hmsgs', hperm⟩ := messages_of_returned hrun' hret
  obtain rfl := hmsgs.unique hmsgs'
  obtain ⟨lites', xs, hlites', hholds, hperm'⟩ := lites_of_returned hrun' hret hperm
  have hunique : Relator.RightUnique (ParsesTo fill dateToUnix) :=
    fun _ _ _ h h' => Converges.unique h h'
  have hsame : lites' = lites := List.right_unique_forall₂' hunique hlites' hlites
  exact ⟨hret, xs, hholds, hsame ▸ hperm'⟩

end SleepingMbox

end Libmbox2
