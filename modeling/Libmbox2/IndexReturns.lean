import Libmbox2.IndexRuns
import Libmbox2.SleepingCallbacks

/-!
# `mboxIdxBatchLoad` returns

An index whose entries can be read is loaded, whatever the order of the steps: every step lowers
what is left to be done, and where no thread can go on the main thread has returned.
-/

namespace Libmbox2

open CSem CSem.Exec

variable {W : Type}

/-- The threads, and who sleeps on the condition variables of the pool. -/
structure SleepingIndex (W : Type) where
  threads : IndexThreads W
  conds : PoolConds W

/-- A step of the threads, or of a worker that goes to sleep. -/
inductive SleepingIndexAction (W : Type) where
  | act (a : IndexAction W)
  /-- a worker goes to sleep in `mboxSemaphoreWait` -/
  | sleep (w : W)

/-- All batches can be read, and a message can be made of every entry. -/
structure EntriesLoad (fill : ℕ → MboxChar) (dateToUnix : List MboxChar → Exec (Option Int))
    (pread : Pread) (entries : List MboxIdxOffset) : Prop where
  reads : pread.Reads
  readable : ∀ b ∈ idxBatches entries, IdxReadable b
  parse : ∀ b ∈ idxBatches entries, EntriesParse fill dateToUnix pread b

namespace SleepingIndex

/-- In front of the first step, with nobody asleep. -/
def start (ctx : IdxCtx) : SleepingIndex W := ⟨.start ctx, .new⟩

section Steps

variable [DecidableEq W] (fill : ℕ → MboxChar)
  (dateToUnix : List MboxChar → Exec (Option Int)) (pread : Pread)

/-- A step of the threads, after which those who sleep on the condition variables follow. As for the
threads, a callback that runs into undefined behaviour has no step and keeps its worker. -/
inductive Step : SleepingIndex W → SleepingIndexAction W → SleepingIndex W → Prop where
  | act {s : SleepingIndex W} {a : IndexAction W} {t : IndexThreads W} {k : PoolConds W} :
      IndexThreads.Step fill dateToUnix pread s.threads a t →
      PoolConds.Follows s.threads.pool s.conds a.pool? t.pool k → Step s (.act a) ⟨t, k⟩
  | sleep {s : SleepingIndex W} {w : W} :
      PoolConds.CanSleep s.threads.pool.pool s.conds w →
      Step s (.sleep w) { s with conds := s.conds.sleep w }

end Steps

variable [DecidableEq W] [Fintype W] {fill : ℕ → MboxChar}
  {dateToUnix : List MboxChar → Exec (Option Int)} {pread : Pread} {ctx : IdxCtx}
  {s s' : SleepingIndex W} {a : SleepingIndexAction W}

/-! ## What is known of a state -/

variable (fill dateToUnix pread ctx) in
/-- What is known of a state that a run comes to. -/
structure Reached (s : SleepingIndex W) : Prop where
  run : ∃ acts, Run (IndexThreads.Step fill dateToUnix pread) (.start ctx) acts s.threads
  pool : PoolConds.Inv s.threads.pool.pool s.conds
  main : s.threads.pool.pool.waiter = .idle ↔ s.threads.main ≠ .waiting

/-- What is known is true in front of the first step. -/
theorem reached_start : Reached fill dateToUnix pread ctx (.start ctx : SleepingIndex W) where
  run := ⟨[], .refl⟩
  pool := PoolConds.inv_new
  main := ⟨fun _ => LoadPc.noConfusion, fun _ => rfl⟩

omit [Fintype W] in
/-- The thread that waits is the main thread. -/
theorem waiter_step {t t' : IndexThreads W} {b : IndexAction W}
    (hmain : t.pool.pool.waiter = .idle ↔ t.main ≠ .waiting)
    (h : IndexThreads.Step fill dateToUnix pread t b t') :
    t'.pool.pool.waiter = .idle ↔ t'.main ≠ .waiting := by
  cases h with
  | pool hfree hp => exact (hp.waiter_idle_iff hfree.ne_waitCall hfree.ne_waitReturn).trans hmain
  | @fill more _ hpc =>
    rw [hpc] at hmain
    refine hmain.trans (iff_of_true LoadPc.noConfusion ?_)
    cases more <;> exact LoadPc.noConfusion
  | @close more _ _ _ hpc _ _ _ hp =>
    rw [hpc] at hmain
    refine (hp.waiter_idle_iff (by simp) (by simp)).trans
      (hmain.trans (iff_of_true LoadPc.noConfusion ?_))
    cases more <;> exact LoadPc.noConfusion
  | closeLast hpc _ _ _ _ hp =>
    rw [hpc] at hmain
    exact (hp.waiter_idle_iff (by simp) (by simp)).trans
      (hmain.trans (iff_of_true LoadPc.noConfusion LoadPc.noConfusion))
  | skipLast hpc =>
    rw [hpc] at hmain
    exact hmain.trans (iff_of_true LoadPc.noConfusion LoadPc.noConfusion)
  | wait hpc _ hp =>
    rw [hp.waiter_of_waitCall]
    exact iff_of_false WaiterPc.noConfusion fun hne => hne rfl
  | waitReturn hpc hp =>
    rw [hp.waiter_of_waitReturn]
    exact iff_of_true rfl LoadPc.noConfusion
  | block _ _ _ _ _ hp | message _ _ hp | last _ _ hp =>
    exact (hp.waiter_idle_iff (by simp) (by simp)).trans hmain

/-- What is known stays true with every step. -/
theorem Reached.step (hi : Reached fill dateToUnix pread ctx s)
    (h : Step fill dateToUnix pread s a s') : Reached fill dateToUnix pread ctx s' := by
  cases h with
  | @act b t k hstep hk =>
    obtain ⟨acts, hrun⟩ := hi.run
    refine ⟨⟨acts ++ [b], hrun.snoc hstep⟩, ?_, waiter_step hi.main hstep⟩
    cases hstep with
    | fill | skipLast =>
      obtain rfl : k = s.conds := hk
      exact hi.pool
    | pool _ hp | close _ _ _ _ hp | closeLast _ _ _ _ _ hp | wait _ _ hp | waitReturn _ hp
    | block _ _ _ _ _ hp | message _ _ hp | last _ _ hp =>
      exact PoolConds.Follows.inv hi.pool hp hk
  | sleep hw => exact ⟨hi.run, hi.pool.sleep hw, hi.main⟩

theorem reached_of_run {acts : List (SleepingIndexAction W)}
    (hrun : Run (Step fill dateToUnix pread) (.start ctx) acts s) :
    Reached fill dateToUnix pread ctx s :=
  hrun.inv_state reached_start fun _ _ _ ht hstep => ht.step hstep

/-! ## What is left to be done -/

/-- The workers that have not read their block yet. -/
def unread (t : IndexThreads W) : Finset W :=
  Finset.univ.filter fun w =>
    WorkerPc.atWork (t.pool.pool.worker w, t.pool.returned w) = 1 ∧ (t.reading w).isNone

omit [DecidableEq W] [Fintype W] in
/-- A worker that is at work runs a job whose callback has not returned. -/
theorem atWork_eq_one {x : WorkerPc × Bool} (h : WorkerPc.atWork x = 1) :
    ∃ job, x = (.running job, false) := by
  obtain ⟨pc, returned⟩ := x
  cases pc with
  | running job =>
    cases returned with
    | false => exact ⟨job, rfl⟩
    | true => cases h
  | _ => cases h

omit [DecidableEq W] in
/-- Whether a worker has a block to read. -/
theorem mem_unread {t : IndexThreads W} {w : W} : w ∈ unread t ↔
    (∃ job, t.pool.pool.worker w = .running job) ∧ t.pool.returned w = false ∧
      t.reading w = none := by
  rw [unread, Finset.mem_filter, Option.isNone_iff_eq_none]
  refine ⟨fun ⟨_, hwork, hnone⟩ => ?_, fun ⟨⟨job, hpc⟩, hno, hnone⟩ =>
    ⟨Finset.mem_univ w, ?_, hnone⟩⟩
  · obtain ⟨job, heq⟩ := atWork_eq_one hwork
    obtain ⟨hpc, hno⟩ := Prod.mk.inj heq
    exact ⟨⟨job, hpc⟩, hno, hnone⟩
  · rw [hpc, hno]
    rfl

/-- A step of the pool calls one callback at most. -/
theorem card_unread_le {t t' : IndexThreads W} {b : PoolAction W Unit}
    (h : t.pool.Step (.pool b) t'.pool) (hread : t'.reading = t.reading) :
    (unread t').card ≤ (unread t).card + 1 := by
  have hcases : ∀ w ∈ unread t', w ∈ unread t ∨ ∃ job, b = .call w job := by
    intro w hw
    obtain ⟨⟨job, hpc⟩, hno, hnone⟩ := mem_unread.mp hw
    rw [hread] at hnone
    rcases h.working_cases hpc hno with ⟨hpc', hno'⟩ | heq
    · exact Or.inl (mem_unread.mpr ⟨⟨job, hpc'⟩, hno', hnone⟩)
    · exact Or.inr ⟨job, heq⟩
  by_cases hcall : ∃ w job, b = .call w job
  · obtain ⟨w, job, rfl⟩ := hcall
    refine (Finset.card_le_card fun v hv => ?_).trans (Finset.card_insert_le w (unread t))
    rcases hcases v hv with hmem | ⟨job', heq⟩
    · exact Finset.mem_insert_of_mem hmem
    · obtain ⟨rfl, -⟩ := PoolAction.call.inj heq
      exact Finset.mem_insert_self ..
  · refine (Finset.card_le_card fun v hv => ?_).trans (Nat.le_succ _)
    exact (hcases v hv).resolve_right fun ⟨job, heq⟩ => hcall ⟨v, job, heq⟩

/-- When a block is read, one worker less has to. -/
theorem card_unread_lt {t : IndexThreads W} {w : W} (hw : w ∈ unread t) (x : List MboxChar × ℕ) :
    (unread { t with reading := Function.update t.reading w (some x) }).card <
      (unread t).card := by
  have hsub : unread { t with reading := Function.update t.reading w (some x) } ⊆
      (unread t).erase w := by
    intro v hv
    obtain ⟨hwork, hno, hnone⟩ := mem_unread.mp hv
    change Function.update t.reading w (some x) v = none at hnone
    have hvw : v ≠ w := by
      rintro rfl
      rw [Function.update_self] at hnone
      cases hnone
    rw [Function.update_of_ne hvw] at hnone
    exact Finset.mem_erase.mpr ⟨hvw, mem_unread.mpr ⟨hwork, hno, hnone⟩⟩
  exact (Finset.card_le_card hsub).trans_lt (Finset.card_erase_lt_of_mem hw)

/-- When a callback returns, no more workers have to than before. -/
theorem card_unread_ret {t t' : IndexThreads W} {w : W}
    (hpool : t'.pool = { t.pool with returned := Function.update t.pool.returned w true })
    (hread : ∀ v, v ≠ w → t'.reading v = t.reading v) :
    (unread t').card ≤ (unread t).card := by
  refine Finset.card_le_card fun v hv => ?_
  obtain ⟨hwork, hno, hnone⟩ := mem_unread.mp hv
  rw [hpool] at hwork hno
  have hvw : v ≠ w := by
    rintro rfl
    change Function.update t.pool.returned v true v = false at hno
    rw [Function.update_self] at hno
    cases hno
  change Function.update t.pool.returned w true v = false at hno
  rw [Function.update_of_ne hvw] at hno
  rw [hread v hvw] at hnone
  exact mem_unread.mpr ⟨hwork, hno, hnone⟩

/-- How many entries are in no batch yet. -/
def entriesLeft (t : IndexThreads W) : ℕ := ((t.ctx.lists.list 0).map MboxList.len).getD 0

omit [DecidableEq W] [Fintype W] in
/-- It is as many as the list of entries has. -/
theorem entriesLeft_eq {t : IndexThreads W} {d : Deques MboxIdxOffset} {rest : List MboxIdxOffset}
    (hhold : ∃ addr, t.ctx.lists.Hold d addr) (hd : d 0 = some rest) :
    entriesLeft t = rest.length := by
  obtain ⟨addr, hhold⟩ := hhold
  obtain ⟨l, hl, hat⟩ := hhold.held 0 rest hd
  have hlen : l.len = rest.length := hat.len
  rw [entriesLeft, hl, Option.map_some, Option.getD_some, hlen]

/-- What a batch costs that is enqueued, twice what the pool charges for a job. -/
def batchCost (workers : ℕ) : ℕ := 2 * (25 + 2 * workers)

/-- What the main thread may still cost, when there are `n` entries in no batch. -/
def mainLeft (workers n : ℕ) : LoadPc → ℕ
  | .filling => n * batchCost workers + batchCost workers + 10
  | .filled => batchCost workers + 10
  | .loaded => 10
  | _ => 0

/-- What all threads may still do, when there are `total` messages in the end. The pool counts
twice, as a worker that is called has a block to read. -/
def weight (total : ℕ) (s : SleepingIndex W) : ℕ :=
  mainLeft (Fintype.card W) (entriesLeft s.threads) s.threads.main +
    2 * s.threads.pool.weight s.conds + (unread s.threads).card +
    (total - s.threads.ctx.msgs.len)

/-- Behind an iteration the main thread has at most this to do. -/
theorem mainLeft_filled (workers n : ℕ) (more : Bool) :
    mainLeft workers n (if more then .filling else .filled) ≤
      n * batchCost workers + batchCost workers + 10 := by
  cases more
  · exact Nat.add_le_add_right (Nat.le_add_left _ _) 10
  · exact le_refl _

omit [DecidableEq W] [Fintype W] in
/-- An iteration of the main thread puts one entry into the batch. -/
theorem entriesLeft_filled {entries : List MboxIdxOffset} {old : List MboxMsgLite}
    {acts : List (IndexAction W)} {t : IndexThreads W} {d : Deques MboxIdxOffset}
    {log : List (ℕ × MboxMsgLite)} {more : Bool} {batch : BatchCtx}
    (hi : Loading fill dateToUnix pread entries old acts t d log) (hpc : t.main = .filling)
    (hstep : batchLoadStep t.batchCtx = ok (if more then .inl batch else .inr batch)) :
    entriesLeft t = entriesLeft (t.filled more batch) + 1 := by
  have hmain := hi.main
  rw [hpc] at hmain
  obtain ⟨cur, x, rest, hf⟩ := hmain
  have hf' : Filling entries t.pool.pool.enqueued t.batchCtx.batch t.batchCtx.batchBytes d cur
    (x :: rest) := hf
  obtain ⟨batch', d', hstep', hhold, -, hnext⟩ := hf'.step rfl hi.ctx.lists
  obtain ⟨rfl, -⟩ := more_iff (hstep.symm.trans hstep')
  have hleft : d' 0 = some rest := by
    rcases hnext with ⟨-, hfilling⟩ | ⟨-, -, -, hfilling⟩
    · exact hfilling.left
    · exact hfilling.left
  have hbehind : entriesLeft (t.filled more batch) = rest.length := entriesLeft_eq hhold hleft
  rw [hbehind, entriesLeft_eq hi.ctx.lists hf.left, List.length_cons]

omit [DecidableEq W] [Fintype W] in
/-- The workers leave the entries alone that are in no batch. -/
theorem mainLeft_message {entries : List MboxIdxOffset} {old ms : List MboxMsgLite}
    {acts : List (IndexAction W)} {t t' : IndexThreads W} {d d' : Deques MboxIdxOffset}
    {log : List (ℕ × MboxMsgLite)} (workers : ℕ)
    (hi : Loading fill dateToUnix pread entries old acts t d log) (hc : t'.ctx.Holds d' ms)
    (hd : d' 0 = d 0) (hmain : t'.main = t.main) :
    mainLeft workers (entriesLeft t') t'.main = mainLeft workers (entriesLeft t) t.main := by
  have hhas := hi.main
  rw [hmain]
  cases hm : t.main with
  | filling =>
    rw [hm] at hhas
    obtain ⟨cur, x, rest, hf⟩ := hhas
    rw [entriesLeft_eq hc.lists (hd.trans hf.left), entriesLeft_eq hi.ctx.lists hf.left]
  | _ => rfl

/-- The list of messages is as long as it says. -/
theorem len_of_holds {ctx : IdxCtx} {d : Deques MboxIdxOffset} {ms : List MboxMsgLite}
    (h : ctx.Holds d ms) : ctx.msgs.len = ms.length := by
  obtain ⟨ps, hat⟩ := MboxList.holds_iff.mp h.msgs
  exact hat.len

/-! ### One lemma for each kind of step -/

section Weights

variable {entries : List MboxIdxOffset} {old : List MboxMsgLite} {acts : List (IndexAction W)}
  {t t' : IndexThreads W} {k k' : PoolConds W} {d : Deques MboxIdxOffset}
  {log : List (ℕ × MboxMsgLite)} {total : ℕ}

/-- What a step of the pool costs is paid for by what the main thread has left, as long as it
makes no message. The callback that it may call has a block to read. -/
theorem weight_pool_lt {b : PoolAction W Unit} (hp : t.pool.Step (.pool b) t'.pool)
    (hk : PoolConds.Follows t.pool k (some (.pool b)) t'.pool k') (hread : t'.reading = t.reading)
    (hmsgs : t'.ctx.msgs = t.ctx.msgs)
    (hmain : mainLeft (Fintype.card W) (entriesLeft t') t'.main +
        2 * PoolConds.cost (Fintype.card W) b ≤
      mainLeft (Fintype.card W) (entriesLeft t) t.main) :
    weight total ⟨t', k'⟩ < weight total ⟨t, k⟩ := by
  have hlt := weight_follows hp hk (by simp)
  have hcard := card_unread_le hp hread
  rw [CallbackPool.cost] at hlt
  simp only [weight, hmsgs]
  omega

omit [DecidableEq W] [Fintype W] in
/-- An entry is put into a batch, which pays for the job of the batch. -/
theorem mainLeft_fill {more : Bool} {batch : BatchCtx} (workers : ℕ)
    (hload : Loading fill dateToUnix pread entries old acts t d log) (hpc : t.main = .filling)
    (hbatch : batchLoadStep t.batchCtx = ok (if more then .inl batch else .inr batch)) :
    mainLeft workers (entriesLeft (t.filled more batch)) (t.filled more batch).main +
        batchCost workers ≤ mainLeft workers (entriesLeft t) t.main := by
  have hmore := mainLeft_filled workers (entriesLeft (t.filled more batch)) more
  rw [hpc, entriesLeft_filled hload hpc hbatch, mainLeft, Nat.succ_mul]
  change mainLeft workers _ (if more then LoadPc.filling else LoadPc.filled) + _ ≤ _
  omega

/-- The steps of the main thread that enqueue nothing. -/
theorem weight_main (hload : Loading fill dateToUnix pread entries old acts t d log)
    (h : IndexThreads.Step fill dateToUnix pread t .main t') :
    weight total ⟨t', k⟩ < weight total ⟨t, k⟩ := by
  have hcost : 0 < batchCost (Fintype.card W) := Nat.mul_pos Nat.two_pos (by omega)
  cases h with
  | @fill more batch hpc hidle hbatch hnone =>
    have hmain := mainLeft_fill (Fintype.card W) hload hpc hbatch
    have hsame : unread (t.filled more batch) = unread t := rfl
    simp only [weight, hsame]
    simp only [IndexThreads.filled] at hmain ⊢
    omega
  | skipLast hpc hidle hget hlen =>
    have hsame : unread { t with main := .loaded } = unread t := rfl
    simp only [weight, hpc, mainLeft, hsame]
    omega

/-- The steps of the pool, among them those of the main thread that enqueue a batch or wait. -/
theorem weight_pool {b : PoolAction W Unit}
    (hload : Loading fill dateToUnix pread entries old acts t d log)
    (h : IndexThreads.Step fill dateToUnix pread t (.pool (.pool b)) t')
    (hk : PoolConds.Follows t.pool k (some (.pool b)) t'.pool k') :
    weight total ⟨t', k'⟩ < weight total ⟨t, k⟩ := by
  cases h with
  | pool hb hp =>
    refine weight_pool_lt hp hk rfl rfl ?_
    rw [hb.cost_eq]
    exact le_refl _
  | close hpc hbatch hjob hcallback hp =>
    exact weight_pool_lt hp hk rfl rfl (mainLeft_fill (Fintype.card W) hload hpc hbatch)
  | closeLast hpc hget hlen hargv hcallback hp =>
    refine weight_pool_lt hp hk rfl rfl ?_
    rw [hpc, mainLeft, mainLeft, Nat.add_comm]
    exact le_refl _
  | wait hpc hidle hp => exact weight_pool_lt hp hk rfl rfl (hpc ▸ le_refl _)
  | waitReturn hpc hp => exact weight_pool_lt hp hk rfl rfl (hpc ▸ le_refl _)

/-- A worker reads its block. -/
theorem weight_block {w : W} {buf : List MboxChar} {diff : ℕ} {job : MboxWorkerJob}
    (hnone : t.reading w = none) (hpc : t.pool.pool.worker w = .running job)
    (hno : t.pool.returned w = false) :
    weight total ⟨{ t with reading := Function.update t.reading w (some (buf, diff)) }, k⟩ <
      weight total ⟨t, k⟩ := by
  have hmem : w ∈ unread t := mem_unread.mpr ⟨⟨job, hpc⟩, hno, hnone⟩
  have hcard := card_unread_lt hmem (buf, diff)
  simp only [weight, entriesLeft]
  omega

/-- The steps of a callback that goes on: a block is read, or a message is made. -/
theorem weight_work {w : W} {job : MboxWorkerJob}
    (hload : Loading fill dateToUnix pread entries old acts t d log)
    (hret : CallbackPool.RetInv (idxPool acts) t.pool) (htotal : t'.ctx.msgs.len ≤ total)
    (h : IndexThreads.Step fill dateToUnix pread t (.pool (.work w job)) t') :
    weight total ⟨t', k⟩ < weight total ⟨t, k⟩ := by
  cases h with
  | block hnone hget hroot hlast hread hp =>
    obtain ⟨hpc, hno, -⟩ := hp.running_of_work (Or.inl rfl)
    cases hp with
    | work => exact weight_block hnone hpc hno
  | @message _ _ buf diff ctx p hread hconv hp =>
    obtain ⟨hpc, hno, -⟩ := hp.running_of_work (Or.inl rfl)
    obtain ⟨j, b, rest, msg, ctx', rfl, -, -, -, hctx, hr⟩ :=
      hload.step_message hret hread hconv hpc hno
    cases hp with
    | work =>
      obtain rfl : ctx = ctx' := by
        split at hr
        · cases hr
        · exact Sum.inl.inj hr
      have hmain : mainLeft (Fintype.card W) (entriesLeft { t with ctx }) t.main =
          mainLeft (Fintype.card W) (entriesLeft t) t.main :=
        mainLeft_message _ hload hctx (Function.update_of_ne (Nat.succ_ne_zero j).symm ..) rfl
      have hlen := len_of_holds hctx
      have hold := len_of_holds hload.ctx
      have hsame : unread { t with ctx } = unread t := rfl
      rw [List.length_append, List.length_singleton] at hlen
      simp only [weight, hmain, hsame]
      simp only at htotal
      omega

/-- The last message of a batch, which is released: the callback returns. -/
theorem weight_ret {w : W} {job : MboxWorkerJob}
    (hload : Loading fill dateToUnix pread entries old acts t d log)
    (hret : CallbackPool.RetInv (idxPool acts) t.pool) (htotal : t'.ctx.msgs.len ≤ total)
    (h : IndexThreads.Step fill dateToUnix pread t (.pool (.ret w job)) t')
    (hk : PoolConds.Follows t.pool k (some (.ret w job)) t'.pool k') :
    weight total ⟨t', k'⟩ < weight total ⟨t, k⟩ := by
  cases h with
  | @last _ _ buf diff ctx p hread hconv hp =>
    have hlt := weight_follows hp hk (by simp)
    obtain ⟨hpc, hno, -⟩ := hp.running_of_work (Or.inr rfl)
    obtain ⟨j, b, rest, msg, ctx', rfl, -, -, -, hctx, hr⟩ :=
      hload.step_message hret hread hconv hpc hno
    cases hp with
    | ret =>
      obtain ⟨rfl, rfl⟩ : ctx = ctx' ∧ rest = [] := by
        split at hr
        · next hnil => exact ⟨Sum.inr.inj hr, hnil⟩
        · cases hr
      obtain ⟨addr, hhold⟩ := hctx.lists
      have hdrop : IdxCtx.Holds { ctx with
          lists := ctx.lists.set ctx.lists.heap (j + 1) none } _ _ :=
        ⟨⟨_, hhold.drop (j + 1)⟩, hctx.msgs, hctx.unlocked⟩
      have hzero : Deques.set (d.set (j + 1) (some [])) (j + 1) none 0 = d 0 := by
        rw [Deques.set, Function.update_of_ne (Nat.succ_ne_zero j).symm, Deques.set,
          Function.update_of_ne (Nat.succ_ne_zero j).symm]
      have hcard : (unread { t.released w ctx (j + 1) with
          pool := { t.pool with returned := Function.update t.pool.returned w true } }).card ≤
          (unread t).card := card_unread_ret rfl fun v hv => Function.update_of_ne hv ..
      have hmain : mainLeft (Fintype.card W) (entriesLeft (t.released w ctx (j + 1))) t.main =
          mainLeft (Fintype.card W) (entriesLeft t) t.main :=
        mainLeft_message _ hload hdrop hzero rfl
      have hsame : entriesLeft { t.released w ctx (j + 1) with
          pool := { t.pool with returned := Function.update t.pool.returned w true } } =
          entriesLeft (t.released w ctx (j + 1)) := rfl
      have hlen := len_of_holds hctx
      have hold := len_of_holds hload.ctx
      rw [List.length_append, List.length_singleton] at hlen
      change ctx.msgs.len ≤ total at htotal
      change _ < _ + 0 at hlt
      simp only [weight, idxJob, hsame]
      simp only [IndexThreads.released] at hcard hmain ⊢
      omega

/-- **A step of the threads lowers the weight**, whether it is one of the main thread, of the pool
or of a callback. -/
theorem weight_step {b : IndexAction W}
    (hload : Loading fill dateToUnix pread entries old acts t d log)
    (hret : CallbackPool.RetInv (idxPool acts) t.pool) (htotal : t'.ctx.msgs.len ≤ total)
    (h : IndexThreads.Step fill dateToUnix pread t b t')
    (hk : PoolConds.Follows t.pool k b.pool? t'.pool k') :
    weight total ⟨t', k'⟩ < weight total ⟨t, k⟩ := by
  cases b with
  | main =>
    obtain rfl : k' = k := hk
    exact weight_main hload h
  | pool b =>
    cases b with
    | pool b => exact weight_pool hload h hk
    | work w job =>
      obtain rfl : k' = k := hk
      exact weight_work hload hret htotal h
    | ret w job => exact weight_ret hload hret htotal h hk

end Weights

section Loading

variable {entries : List MboxIdxOffset} {lists : Lists MboxIdxOffset} {addr : ℕ → List ℕ}
  {heap : Heap (MboxLNode MboxMsgLite)} {msgs : MboxList} {old : List MboxMsgLite}
  (hhold : lists.Hold (numbered [entries]) addr) (hne : entries ≠ [])
  (hvalid : ∀ e ∈ entries, e.Valid) (hmsgs : msgs.Holds heap old) (hfree : msgs.locked = false)

include hhold hne hvalid hmsgs hfree

/-- There are no more messages than entries and old messages. -/
theorem Reached.len_le (hi : Reached fill dateToUnix pread ⟨lists, heap, msgs⟩ s) :
    s.threads.ctx.msgs.len ≤ old.length + entries.length := by
  obtain ⟨acts, hrun⟩ := hi.run
  obtain ⟨⟨d, log, hload⟩, -⟩ := loading_of_run hhold hne hvalid hmsgs hfree hrun
  have hlen := hload.subperm.length_le
  rw [List.length_map] at hlen
  rw [len_of_holds hload.ctx, List.length_append]
  omega

/-- **Every step lowers what is left to be done**, by the threads or by those who fall asleep, so no
run goes on for ever. -/
theorem Reached.weight_lt (hi : Reached fill dateToUnix pread ⟨lists, heap, msgs⟩ s)
    (h : Step fill dateToUnix pread s a s') :
    s'.weight (old.length + entries.length) < s.weight (old.length + entries.length) := by
  have htotal := (hi.step h).len_le hhold hne hvalid hmsgs hfree
  obtain ⟨acts, hrun⟩ := hi.run
  obtain ⟨⟨d, log, hload⟩, -⟩ := loading_of_run hhold hne hvalid hmsgs hfree hrun
  cases h with
  | sleep hw =>
    have hlt := PoolConds.weight_sleep hw
    simp only [weight, CallbackPool.weight]
    omega
  | act hstep hk =>
    exact weight_step hload (CallbackPool.retInv_of_run (run_idxPool hrun)) htotal hstep hk

end Loading

/-! ## Where no thread can go on -/

section Readable

omit [DecidableEq W] [Fintype W]

/-- The block of a readable batch is read. -/
theorem exists_block {lists : Lists MboxIdxOffset} {d : Deques MboxIdxOffset} {i : ℕ}
    {b : List MboxIdxOffset} (fill : ℕ → MboxChar) (hhold : ∃ addr, lists.Hold d addr)
    (hd : d i = some b) (hne : b ≠ []) (hpread : pread.Reads) (hreadable : IdxReadable b) :
    ∃ l root last buf, lists.get i = ok l ∧ lists.heap.load l.root = ok root ∧
      lists.heap.load root.prev = ok last ∧
      readBatch fill pread root.data.startOffset
        ((last.data.endOffset : Int) - root.data.startOffset) = ok buf := by
  obtain ⟨addr, hhold⟩ := hhold
  obtain ⟨l, hget, hat⟩ := hhold.get_eq hd
  have hpos := List.length_pos_iff.mpr hne
  have hroot := Heap.load_eq (hat.ring.get_lt hpos)
  have hlast := Heap.load_eq (hat.ring.get_lt (i := b.length - 1) (by omega))
  have hprev : prevAt (addr i) 0 = (addr i)[b.length - 1]? := by
    rw [prevAt, if_pos rfl, hat.ring.length]
  rw [← hprev] at hlast
  rw [← hat.root] at hroot
  have hfirst : b[0] ∈ b.head? := by
    rw [List.head?_eq_getElem?]
    exact List.getElem?_eq_getElem hpos
  have hlast' : b[b.length - 1] ∈ b.getLast? := by
    rw [List.getLast?_eq_getElem?]
    exact List.getElem?_eq_getElem _
  obtain ⟨buf, hread, -⟩ :=
    readBatch_spec fill hpread (hreadable b[0] hfirst b[b.length - 1] hlast').1
  exact ⟨l, _, _, buf, hget, hroot, hlast, hread⟩

/-- Every entry of a batch is in its block, and a message is made of it. -/
theorem exists_message {b : List MboxIdxOffset} {x : List MboxChar × ℕ} {e : MboxIdxOffset}
    (hblock : BlockOf fill pread b x) (he : e ∈ b) (hpread : pread.Reads)
    (hreadable : IdxReadable b) (hparse : EntriesParse fill dateToUnix pread b) :
    ∃ tmp, entryBuf x.1 x.2 e = ok tmp ∧ ∃ n msg,
      mboxMsgLiteFromBuffer fill dateToUnix n tmp e.startOffset e.endOffset = ok msg := by
  obtain ⟨first, last, hfirst, hlast, hdiff, hread⟩ := hblock
  obtain ⟨hsize, hinside⟩ := hreadable first hfirst last hlast
  obtain ⟨buf, hread', hbuf⟩ := readBatch_spec fill hpread hsize
  obtain rfl := Exec.ok.inj (hread'.symm.trans hread)
  obtain ⟨hbegin, hend⟩ := hinside e he
  have htmp : entryBuf x.1 first.startOffset e = ok _ := if_pos ⟨hbegin, by omega⟩
  rw [hdiff]
  exact ⟨_, htmp, hparse first hfirst last hlast _ hread e he _ htmp⟩

end Readable

section Last

variable [Nonempty W] {entries : List MboxIdxOffset} {lists : Lists MboxIdxOffset}
  {addr : ℕ → List ℕ} {heap : Heap (MboxLNode MboxMsgLite)} {msgs : MboxList}
  {old : List MboxMsgLite}

variable (fill dateToUnix pread) in
/-- No thread can go on, and none can fall asleep. -/
def Last (s : SleepingIndex W) : Prop := ∀ a t, ¬ Step fill dateToUnix pread s a t

omit [Fintype W] [Nonempty W] in
/-- A step that the pool could take would be one of the threads. -/
theorem Last.no_pool {b : CallbackAction W Unit} {t : IndexThreads W} {k : PoolConds W}
    (hlast : Last fill dateToUnix pread s)
    (h : IndexThreads.Step fill dateToUnix pread s.threads (.pool b) t)
    (hk : PoolConds.Follows s.threads.pool s.conds (some b) t.pool k) : False :=
  hlast _ _ (.act h hk)

omit [Nonempty W] in
/-- A worker that is at work can go on, since every entry can be loaded. -/
theorem Last.no_work {acts : List (IndexAction W)} {d : Deques MboxIdxOffset}
    {log : List (ℕ × MboxMsgLite)} (hlast : Last fill dateToUnix pread s)
    (hloads : EntriesLoad fill dateToUnix pread entries)
    (hload : Loading fill dateToUnix pread entries old acts s.threads d log)
    (hret : CallbackPool.RetInv (idxPool acts) s.threads.pool) {w : W} {job : MboxWorkerJob}
    (hpc : s.threads.pool.pool.worker w = .running job)
    (hno : s.threads.pool.returned w = false) : False := by
  obtain ⟨k, hk, rfl, hrets⟩ := hload.working hret hpc hno
  obtain ⟨b, hb, hmade⟩ := hload.batches k hk
  obtain ⟨hd, hlt⟩ := hmade.left hrets
  have hmem := List.mem_of_getElem? hb
  cases hread : s.threads.reading w with
  | none =>
    rw [hload.unread w k hpc hno hread] at hd hlt
    obtain ⟨l, root, last, buf, hget, hroot, hlast', hblock⟩ := exists_block fill hload.ctx.lists hd
      (List.length_pos_iff.mp hlt) hloads.reads (hloads.readable b hmem)
    exact hlast.no_pool (.block hread hget hroot hlast' hblock (.work hpc hno)) rfl
  | some x =>
    obtain ⟨j, b', hpc', -, hb', hblock⟩ := hload.reading w x hread
    obtain rfl := idxJob_injective (WorkerPc.running.inj (hpc.symm.trans hpc'))
    obtain rfl := Option.some.inj (hb'.symm.trans hb)
    obtain ⟨e, rest, hdrop⟩ : ∃ e rest, b'.drop (madeOf log k).length = e :: rest :=
      List.exists_cons_of_ne_nil fun hnil => absurd (List.drop_eq_nil_iff.mp hnil) (by omega)
    have he : e ∈ b' := List.mem_of_mem_drop (hdrop ▸ List.mem_cons_self ..)
    obtain ⟨tmp, htmp, hparse⟩ :=
      exists_message hblock he hloads.reads (hloads.readable b' hmem) (hloads.parse b' hmem)
    rw [hdrop] at hd
    obtain ⟨ctx, msg, hstep, -, -⟩ := getMessagesStep_spec hload.ctx hd htmp hparse
    by_cases hrest : rest = []
    · rw [if_pos hrest] at hstep
      exact hlast.no_pool (.last hread hstep (.ret hpc hno)) rfl
    · rw [if_neg hrest] at hstep
      exact hlast.no_pool (.message hread hstep (.work hpc hno)) rfl

/-- **Where no thread can go on `mboxIdxBatchLoad` has returned**: no worker is stuck in a callback,
and the main thread does not wait in vain. -/
theorem Last.returned {acts : List (IndexAction W)} {d : Deques MboxIdxOffset}
    {log : List (ℕ × MboxMsgLite)} (hlast : Last fill dateToUnix pread s)
    (hloads : EntriesLoad fill dateToUnix pread entries) (hi : Reached fill dateToUnix pread ctx s)
    (hload : Loading fill dateToUnix pread entries old acts s.threads d log)
    (hret : CallbackPool.RetInv (idxPool acts) s.threads.pool) : s.threads.main = .returned := by
  have hstuck : PoolConds.Stuck s.threads.pool.pool s.conds := by
    refine PoolConds.stuck_of_callbacks (fun b p' k hb hp hk => hlast.no_pool (.pool hb hp) hk)
      (fun w hw => hlast _ _ (.sleep hw))
      (fun w job hpc hno => hlast.no_work hloads hload hret hpc hno) fun hpc => ?_
    have hmain : s.threads.main = .waiting := by
      by_contra hne
      rw [hi.main.mpr hne] at hpc
      cases hpc
    have hreturn : s.threads.pool.pool.Step .waitReturn _ := .waitReturn hpc
    obtain ⟨k, hk⟩ := PoolConds.Step.exists_of_awake s.conds hreturn rfl
    exact hlast.no_pool (.waitReturn hmain (.pool trivial hreturn)) hk
  have hquiet := hstuck.quiet hi.pool
  have hidle := hquiet.enqueuer ()
  have hadd : ∀ argv : ℕ, ∃ job : MboxWorkerJob, job.argv = argv ∧
      job.callback = idxGetMessagesCallback ∧
      ∃ p, s.threads.pool.Step (.pool (.addTail () job)) p ∧
        ∃ k, PoolConds.Follows s.threads.pool s.conds (some (.pool (.addTail () job))) p k := by
    intro argv
    have hjob : s.threads.pool.pool.Step
        (.addTail () ⟨s.threads.pool.pool.enqueued, idxGetMessagesCallback, argv⟩) _ :=
      .addTail hidle hquiet.qlock rfl
    obtain ⟨k, hk⟩ := PoolConds.Step.exists_of_awake s.conds hjob rfl
    exact ⟨_, rfl, rfl, _, .pool trivial hjob, k, hk⟩
  have hmain := hload.main
  cases hm : s.threads.main with
  | filling =>
    rw [hm] at hmain
    obtain ⟨cur, x, rest, hf⟩ := hmain
    have hf' : Filling entries s.threads.pool.pool.enqueued s.threads.batchCtx.batch
      s.threads.batchCtx.batchBytes d cur (x :: rest) := hf
    obtain ⟨ctx', d', hstep, -, -, hnext⟩ := hf'.step rfl hload.ctx.lists
    obtain ⟨more, hmore⟩ : ∃ more : Bool, batchLoadStep s.threads.batchCtx =
        ok (if more then .inl ctx' else .inr ctx') := by
      by_cases hrest : rest = []
      · exact ⟨false, by rw [hstep, if_pos hrest]; rfl⟩
      · exact ⟨true, by rw [hstep, if_neg hrest]; rfl⟩
    rcases hnext with ⟨hnone, -⟩ | ⟨hone, -⟩
    · exact (hlast _ _ (.act (.fill hm hidle hmore hnone) rfl)).elim
    · obtain ⟨job, hargv, hcallback, p, hp, k, hk⟩ := hadd (s.threads.pool.pool.enqueued + 1)
      exact (hlast.no_pool (.close hm hmore (hargv ▸ hone) hcallback hp) hk).elim
  | filled =>
    rw [hm] at hmain
    obtain ⟨cur, hf⟩ := hmain
    obtain ⟨addr', hhold⟩ := hload.ctx.lists
    obtain ⟨l, hget, -⟩ := hhold.get_eq hf.filled
    by_cases hlen : 0 < l.len
    · obtain ⟨job, hargv, hcallback, p, hp, k, hk⟩ := hadd s.threads.batch
      exact (hlast.no_pool (.closeLast hm hget hlen hargv hcallback hp) hk).elim
    · exact (hlast _ _ (.act (.skipLast hm hidle hget hlen) rfl)).elim
  | loaded =>
    have hcall : s.threads.pool.pool.Step .waitCall _ := .waitCall hquiet.waiter
    obtain ⟨k, hk⟩ := PoolConds.Step.exists_of_awake s.conds hcall rfl
    exact (hlast.no_pool (.wait hm hidle (.pool trivial hcall)) hk).elim
  | waiting => exact absurd hm (hi.main.mp hquiet.waiter)
  | returned => rfl

/-! ## Runs -/

variable {acts : List (SleepingIndexAction W)} (hhold : lists.Hold (numbered [entries]) addr)
  (hne : entries ≠ []) (hvalid : ∀ e ∈ entries, e.Valid) (hmsgs : msgs.Holds heap old)
  (hfree : msgs.locked = false)

include hhold hmsgs

omit [DecidableEq W] [Nonempty W] in
/-- What there is to do in front of the first step. -/
theorem weight_start : (start ⟨lists, heap, msgs⟩ : SleepingIndex W).weight
      (old.length + entries.length) =
    (entries.length + 1) * batchCost (Fintype.card W) + 10 + 4 * Fintype.card W +
      entries.length := by
  have hleft : entriesLeft (IndexThreads.start ⟨lists, heap, msgs⟩ : IndexThreads W) =
      entries.length := by
    refine entriesLeft_eq ⟨_, hhold.new 1⟩ ?_
    rw [Deques.set, Function.update_of_ne Nat.zero_ne_one]
    rfl
  have hnew : PoolConds.weight (MboxWorkerPool.new : MboxWorkerPool W Unit) .new = _ :=
    PoolConds.weight_new
  have hwork : (CallbackPool.new : CallbackPool W Unit).atWork = 0 :=
    Finset.sum_eq_zero fun _ _ => rfl
  have hpool : CallbackPool.weight (CallbackPool.new : CallbackPool W Unit) PoolConds.new = _ :=
    congrArg₂ (· + ·) hnew hwork
  have hunread : unread (IndexThreads.start ⟨lists, heap, msgs⟩ : IndexThreads W) = ∅ :=
    Finset.filter_eq_empty_iff.mpr fun w _ hw => Nat.zero_ne_one hw.1
  have hlen : msgs.len = old.length := by
    obtain ⟨ps, hat⟩ := MboxList.holds_iff.mp hmsgs
    exact hat.len
  have hall : (start ⟨lists, heap, msgs⟩ : SleepingIndex W).weight
      (old.length + entries.length) =
    mainLeft (Fintype.card W) (entriesLeft (IndexThreads.start ⟨lists, heap, msgs⟩ :
        IndexThreads W)) .filling + 2 * CallbackPool.weight (.new : CallbackPool W Unit) .new +
      (unread (IndexThreads.start ⟨lists, heap, msgs⟩ : IndexThreads W)).card +
      (old.length + entries.length - msgs.len) := rfl
  have hmul : (entries.length + 1) * batchCost (Fintype.card W) =
    entries.length * batchCost (Fintype.card W) + batchCost (Fintype.card W) := Nat.succ_mul ..
  rw [hall, hleft, hpool, hunread, hlen, Finset.card_empty, mainLeft, hmul]
  omega

include hne hvalid hfree

omit [Nonempty W] in
/-- Some order of the steps goes to the end. -/
theorem exists_last (fill : ℕ → MboxChar) (dateToUnix : List MboxChar → Exec (Option Int))
    (pread : Pread) : ∃ acts t, Run (Step fill dateToUnix pread)
      (start ⟨lists, heap, msgs⟩ : SleepingIndex W) acts t ∧ Last fill dateToUnix pread t := by
  have hstart : Reached fill dateToUnix pread ⟨lists, heap, msgs⟩
    (start ⟨lists, heap, msgs⟩ : SleepingIndex W) := reached_start
  refine Run.exists_last (weight (old.length + entries.length)) (fun t ht => ?_) hstart
  by_contra hno
  rw [not_or] at hno
  refine hno.1 fun a u hstep => hno.2 ⟨a, u, hstep, ht.step hstep, ?_⟩
  exact Reached.weight_lt hhold hne hvalid hmsgs hfree ht hstep

omit [Nonempty W] in
/-- How long a run can be, by the number of entries and workers. -/
theorem length_le_of_run
    (hrun : Run (Step fill dateToUnix pread) (.start ⟨lists, heap, msgs⟩) acts s) :
    acts.length ≤ (entries.length + 1) * batchCost (Fintype.card W) + 10 + 4 * Fintype.card W +
      entries.length := by
  have hlen := hrun.length_le (weight (old.length + entries.length)) (fun _ => 0) reached_start
    (fun _ _ _ ht hstep => ht.step hstep) fun _ _ _ ht hstep =>
      Reached.weight_lt hhold hne hvalid hmsgs hfree ht hstep
  rw [weight_start hhold hmsgs, Run.costs_zero] at hlen
  omega

/-- Where no thread can go on, `mboxIdxBatchLoad` has returned, in whatever order the steps were
taken. -/
theorem returned_of_run (hloads : EntriesLoad fill dateToUnix pread entries)
    (hrun : Run (Step fill dateToUnix pread) (.start ⟨lists, heap, msgs⟩) acts s)
    (hlast : Last fill dateToUnix pread s) : s.threads.main = .returned := by
  have hreached := reached_of_run hrun
  obtain ⟨acts', hrun'⟩ := hreached.run
  obtain ⟨⟨d, log, hload⟩, -⟩ := loading_of_run hhold hne hvalid hmsgs hfree hrun'
  exact hlast.returned hloads hreached hload (CallbackPool.retInv_of_run (run_idxPool hrun'))

/-- **`mboxIdxBatchLoad` returns**: where the batches can be read, and a message can be made of
every entry, a run of the threads ends, whatever the order of the steps, and where no thread can
go on `mboxIdxBatchLoad` has returned and there is one message for every entry. -/
theorem mboxIdxBatchLoad_returns (hloads : EntriesLoad fill dateToUnix pread entries)
    (hrun : Run (Step fill dateToUnix pread) (.start ⟨lists, heap, msgs⟩) acts s) :
    acts.length ≤ (entries.length + 1) * batchCost (Fintype.card W) + 10 + 4 * Fintype.card W +
        entries.length ∧
      ((∀ a t, ¬ Step fill dateToUnix pread s a t) → s.threads.main = .returned ∧
        ∃ xs, s.threads.ctx.msgs.Holds s.threads.ctx.heap (old ++ xs) ∧
          (xs.map MboxMsgLite.entry).Perm entries ∧ ∃ made,
          List.Forall₂ (fun b made => List.Forall₂
            (fun e msg => Converges (idxMessage fill dateToUnix pread b e) msg) b made)
            (idxBatches entries) made ∧ xs.Perm made.flatten) := by
  refine ⟨length_le_of_run hhold hne hvalid hmsgs hfree hrun, fun hlast => ?_⟩
  have hreached := reached_of_run hrun
  obtain ⟨acts', hrun'⟩ := hreached.run
  obtain ⟨⟨d, log, hload⟩, hw⟩ := loading_of_run hhold hne hvalid hmsgs hfree hrun'
  have hinv := CallbackPool.retInv_of_run (run_idxPool hrun')
  have hret := Last.returned hlast hloads hreached hload hinv
  exact ⟨hret, _, hload.ctx.msgs, hload.messages hinv hret hw⟩

end Last

/-! ### An index with two entries -/

/-- A new list holds no messages. -/
theorem noMessages : mboxListNew.Holds (Heap.empty : Heap (MboxLNode MboxMsgLite)) [] :=
  MboxList.holds_iff.mpr ⟨_, mboxListNew_at Heap.empty⟩

/-- Both entries of the index can be loaded. -/
theorem entriesLoad_twoEntries : EntriesLoad (fun _ => nul) (fun _ => ok none)
    (preadRegular (shortMsg ++ shortMsg)) twoEntries := by
  refine ⟨preadRegular_reads _, fun b hb => ?_, entriesParse_twoEntries⟩
  rw [idxBatches_twoEntries] at hb
  obtain rfl := List.mem_singleton.mp hb
  exact idxReadable_of_pairwise valid_twoEntries sorted_twoEntries

/-- There is a run with two workers that cannot go on any more. -/
theorem exists_last_twoEntries : ∃ (lists : Lists MboxIdxOffset) (addr : ℕ → List ℕ)
    (acts : List (SleepingIndexAction (Fin 2))) (s : SleepingIndex (Fin 2)),
    lists.Hold (numbered [twoEntries]) addr ∧
    Run (Step (fun _ => nul) (fun _ => ok none) (preadRegular (shortMsg ++ shortMsg)))
      (start ⟨lists, Heap.empty, mboxListNew⟩) acts s ∧
    Last (fun _ => nul) (fun _ => ok none) (preadRegular (shortMsg ++ shortMsg)) s := by
  obtain ⟨lists, addr, hhold⟩ := exists_indexes twoEntries
  obtain ⟨acts, s, hrun⟩ : ∃ acts s, Run (Step (fun _ => nul) (fun _ => ok none)
      (preadRegular (shortMsg ++ shortMsg)))
      (start ⟨lists, Heap.empty, mboxListNew⟩ : SleepingIndex (Fin 2)) acts s ∧
      Last (fun _ => nul) (fun _ => ok none) (preadRegular (shortMsg ++ shortMsg)) s :=
    exists_last hhold (List.cons_ne_nil _ _) valid_twoEntries noMessages rfl _ _ _
  exact ⟨lists, addr, acts, s, hhold, hrun⟩

/-- Two entries and two workers: the run has returned. -/
theorem mboxIdxBatchLoad_returns_twoEntries : ∃ (lists : Lists MboxIdxOffset)
    (acts : List (SleepingIndexAction (Fin 2))) (s : SleepingIndex (Fin 2)),
    Run (Step (fun _ => nul) (fun _ => ok none) (preadRegular (shortMsg ++ shortMsg)))
      (.start ⟨lists, Heap.empty, mboxListNew⟩) acts s ∧
    acts.length ≤ 194 ∧ s.threads.main = .returned ∧
    ∃ xs, s.threads.ctx.msgs.Holds s.threads.ctx.heap xs ∧
      (xs.map MboxMsgLite.entry).Perm twoEntries := by
  obtain ⟨lists, addr, acts, s, hhold, hrun, hlast⟩ := exists_last_twoEntries
  obtain ⟨hlen, hend⟩ := mboxIdxBatchLoad_returns hhold (List.cons_ne_nil _ _) valid_twoEntries
    noMessages rfl entriesLoad_twoEntries hrun
  obtain ⟨hret, xs, hxs, hperm, -⟩ := hend hlast
  exact ⟨lists, acts, s, hrun, hlen, hret, xs, hxs, hperm⟩

end SleepingIndex

/-! ## What the threads make of an index -/

section Threads

variable [DecidableEq W] [Fintype W] {fill : ℕ → MboxChar}
  {dateToUnix : List MboxChar → Exec (Option Int)} {pread : Pread} {entries : List MboxIdxOffset}
  {old : List MboxMsgLite} {acts : List (IndexAction W)} {s : IndexThreads W}

/-- **Loading with threads**: at any time the messages are those of different entries of the index,
and when `mboxIdxBatchLoad` has returned there is one for every entry. -/
theorem mboxIdxBatchLoad_loads {lists : Lists MboxIdxOffset} {addr : ℕ → List ℕ}
    {heap : Heap (MboxLNode MboxMsgLite)} {msgs : MboxList}
    (hhold : lists.Hold (numbered [entries]) addr) (hne : entries ≠ [])
    (hvalid : ∀ e ∈ entries, e.Valid) (hmsgs : msgs.Holds heap old) (hfree : msgs.locked = false)
    (hrun : Run (IndexThreads.Step fill dateToUnix pread) (.start ⟨lists, heap, msgs⟩) acts s) :
    ∃ xs, s.ctx.msgs.Holds s.ctx.heap (old ++ xs) ∧
      (xs.map MboxMsgLite.entry).Subperm entries ∧
      (s.main = .returned → (xs.map MboxMsgLite.entry).Perm entries ∧ ∃ made,
        List.Forall₂ (fun b made => List.Forall₂
          (fun e msg => Converges (idxMessage fill dateToUnix pread b e) msg) b made)
          (idxBatches entries) made ∧ xs.Perm made.flatten) := by
  obtain ⟨⟨d, log, hi⟩, hw⟩ := loading_of_run hhold hne hvalid hmsgs hfree hrun
  have hret := CallbackPool.retInv_of_run (run_idxPool hrun)
  exact ⟨log.map Prod.snd, hi.ctx.msgs, hi.subperm, fun hpc => hi.messages hret hpc hw⟩

/-- In such a run both messages were loaded. -/
theorem mboxIdxBatchLoad_loads_twoEntries : ∃ (lists : Lists MboxIdxOffset)
    (acts : List (IndexAction (Fin 2))) (s : IndexThreads (Fin 2)),
    Run (IndexThreads.Step (fun _ => nul) (fun _ => ok none) (preadRegular (shortMsg ++ shortMsg)))
      (.start ⟨lists, Heap.empty, mboxListNew⟩) acts s ∧ s.main = .returned ∧
    ∃ xs, s.ctx.msgs.Holds s.ctx.heap xs ∧ (xs.map MboxMsgLite.entry).Perm twoEntries := by
  obtain ⟨lists, addr, acts, t, hhold, hrun, hlast⟩ := SleepingIndex.exists_last_twoEntries
  have hreached := SleepingIndex.reached_of_run hrun
  obtain ⟨acts', hrun'⟩ := hreached.run
  have hret := SleepingIndex.returned_of_run hhold (List.cons_ne_nil _ _)
    valid_twoEntries SleepingIndex.noMessages rfl SleepingIndex.entriesLoad_twoEntries hrun hlast
  obtain ⟨xs, hxs, -, hend⟩ := mboxIdxBatchLoad_loads hhold (List.cons_ne_nil _ _)
    valid_twoEntries SleepingIndex.noMessages rfl hrun'
  exact ⟨lists, acts', t.threads, hrun', hret, xs, hxs, (hend hret).1⟩

end Threads

end Libmbox2
