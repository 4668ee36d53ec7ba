import Libmbox2.IndexThreads

/-!
# What the threads make of an index

A batch that is enqueued is taken by one worker, which makes a message of each of its entries; the
main thread and the other workers leave it alone. So when `mboxIdxBatchLoad` returns there is one
message for every entry of the index.
-/

namespace Libmbox2

open CSem CSem.Exec

variable {W : Type}

/-- The job of a batch, by the number of jobs in front of it. -/
def idxJob (k : ℕ) : MboxWorkerJob := ⟨k, idxGetMessagesCallback, k + 1⟩

theorem idxJob_injective : Function.Injective idxJob := fun _ _ h => congrArg MboxWorkerJob.id h

/-- The steps of the pool in a run. -/
def idxPool (acts : List (IndexAction W)) : List (CallbackAction W Unit) :=
  acts.filterMap IndexAction.pool?

/-- One more step of the threads is at most one more of the pool. -/
theorem idxPool_snoc (acts : List (IndexAction W)) (a : IndexAction W) :
    idxPool (acts ++ [a]) = idxPool acts ++ idxPool [a] := List.filterMap_append ..

/-- How often the last message of a batch was made. -/
def idxRets (acts : List (IndexAction W)) (k : ℕ) : ℕ :=
  (idxPool acts).countP (CallbackAction.rets (idxJob k))

/-- One more step may be the return of a callback. -/
theorem idxRets_snoc (acts : List (IndexAction W)) (a : IndexAction W) (k : ℕ) :
    idxRets (acts ++ [a]) k = idxRets acts k + idxRets [a] k := by
  rw [idxRets, idxPool_snoc, List.countP_append]
  rfl

/-- The return of a job's callback is one of that job. -/
theorem idxRets_ret (w : W) (k j : ℕ) :
    idxRets [.pool (.ret w (idxJob k))] j = if k = j then 1 else 0 := by
  have hone : idxPool [IndexAction.pool (CallbackAction.ret w (idxJob k))] =
    [.ret w (idxJob k)] := rfl
  rw [idxRets, hone, List.countP_singleton, CallbackAction.rets]
  exact if_congr (by rw [decide_eq_true_eq, idxJob_injective.eq_iff]) rfl rfl

/-- The messages of a batch, in the order in which they were made. -/
def madeOf (log : List (ℕ × MboxMsgLite)) (k : ℕ) : List MboxMsgLite :=
  (log.filter fun x => x.1 = k).map Prod.snd

/-- One more message, which is made of an entry of some batch. -/
theorem madeOf_snoc (log : List (ℕ × MboxMsgLite)) (i k : ℕ) (msg : MboxMsgLite) :
    madeOf (log ++ [(i, msg)]) k = madeOf log k ++ if i = k then [msg] else [] := by
  rw [madeOf, madeOf, List.filter_append, List.map_append, List.filter_singleton]
  congr 1
  by_cases hik : i = k
  · rw [if_pos hik, decide_eq_true hik]
    rfl
  · rw [if_neg hik, decide_eq_false hik]
    rfl

/-- Of a batch behind all those in the log nothing was made. -/
theorem madeOf_eq_nil {log : List (ℕ × MboxMsgLite)} {n k : ℕ} (h : ∀ x ∈ log, x.1 < n)
    (hk : n ≤ k) : madeOf log k = [] := by
  have hnone : log.filter (fun x => x.1 = k) = [] := by
    refine List.filter_eq_nil_iff.mpr fun x hx => ?_
    have hlt := h x hx
    rw [decide_eq_true_eq]
    omega
  rw [madeOf, hnone, List.map_nil]

/-! ## The main thread -/

section Main

variable {entries rest cur : List MboxIdxOffset} {n batch batchBytes : ℕ}
  {d d' : Deques MboxIdxOffset} {x : MboxIdxOffset}

/-- `n` batches are enqueued, `cur` is the one that is filled, and `rest` are the entries that are
left. -/
structure Filling (entries : List MboxIdxOffset) (n batch batchBytes : ℕ)
    (d : Deques MboxIdxOffset) (cur rest : List MboxIdxOffset) : Prop where
  batches : ∃ closed, closed.length = n ∧
    idxBatches entries = closed ++ batchesFrom Full cur rest
  left : d 0 = some rest
  filled : d batch = some cur
  number : batch = n + 1
  bytes : batchBytes = totalSize cur
  room : batchBytes < mboxIOReadSize
  sizes : ∀ e ∈ rest, e.messageSize < 2 ^ 63

/-- **The main thread** leaves the batches alone that are enqueued, and enqueues those the entries
are put into. -/
theorem Filling.step {ctx : BatchCtx} (hf : Filling entries n ctx.batch ctx.batchBytes d cur
      (x :: rest)) (hjobs : ctx.jobs = []) (hhold : ∃ addr, ctx.lists.Hold d addr) :
    ∃ ctx' d', batchLoadStep ctx = ok (if rest = [] then .inr ctx' else .inl ctx') ∧
      (∃ addr, ctx'.lists.Hold d' addr) ∧ (∀ i, i ≠ 0 → i < n + 1 → d' i = d i) ∧
      (ctx'.jobs = [] ∧
          Filling entries n ctx'.batch ctx'.batchBytes d' (cur ++ [x]) rest ∨
        ctx'.jobs = [n + 1] ∧ d' (n + 1) = some (cur ++ [x]) ∧
          (idxBatches entries)[n]? = some (cur ++ [x]) ∧
          Filling entries (n + 1) ctx'.batch ctx'.batchBytes d' [] rest) := by
  have hbatch := hf.number
  obtain ⟨ctx', hstep, hnext⟩ := batchLoadStep_spec hhold hf.left hf.filled (by omega)
  obtain ⟨closed, hclosed, hbatches⟩ := hf.batches
  -- the sum does not wrap around
  have hmod : (ctx.batchBytes + x.messageSize) % 2 ^ 64 = totalSize (cur ++ [x]) := by
    have hread := mboxIOReadSize_lt
    have hroom := hf.room
    have hx := hf.sizes x (List.mem_cons_self ..)
    rw [totalSize_concat, ← hf.bytes]
    exact Nat.mod_eq_of_lt (by omega)
  have hsizes : ∀ e ∈ rest, e.messageSize < 2 ^ 63 :=
    fun e he => hf.sizes e (List.mem_cons_of_mem _ he)
  have hmoved : ∀ i, i ≠ 0 → i < n + 1 → movedTo d ctx.batch rest (cur ++ [x]) i = d i :=
    fun i h0 hlt => movedTo_of_ne h0 (by omega)
  have hzero : movedTo d ctx.batch rest (cur ++ [x]) 0 = some rest := by
    rw [movedTo, Deques.set, Function.update_of_ne (by omega), Deques.set, Function.update_self]
  have hself : movedTo d ctx.batch rest (cur ++ [x]) ctx.batch = some (cur ++ [x]) := by
    rw [movedTo, Deques.set, Function.update_self]
  rw [hmod] at hnext
  by_cases hfull : Full (cur ++ [x])
  · rw [if_neg (Nat.not_lt.mpr hfull)] at hnext
    obtain ⟨hhold', hbatch', hbytes', hjobs'⟩ := hnext
    rw [batchesFrom_close hfull] at hbatches
    refine ⟨ctx', _, hstep, hhold', fun i h0 hlt => ?_, Or.inr ⟨?_, ?_, ?_, ?_⟩⟩
    · rw [Deques.set, Function.update_of_ne (by omega)]
      exact hmoved i h0 hlt
    · rw [hjobs', hjobs, hbatch, List.nil_append]
    · rw [Deques.set, Function.update_of_ne (by omega), ← hbatch]
      exact hself
    · rw [hbatches, ← hclosed, List.getElem?_append_right (le_refl _), Nat.sub_self]
      rfl
    · refine ⟨⟨closed ++ [cur ++ [x]], ?_, ?_⟩, ?_, ?_, ?_, hbytes', ?_, hsizes⟩
      · rw [List.length_append, List.length_singleton, hclosed]
      · rw [hbatches, List.append_assoc, List.singleton_append]
      · rw [Deques.set, Function.update_of_ne (Nat.succ_ne_zero _).symm]
        exact hzero
      · rw [hbatch', Deques.set, Function.update_self]
      · rw [hbatch', hbatch]
      · rw [hbytes']
        exact mboxIOReadSize_pos
  · rw [if_pos (Nat.not_le.mp hfull)] at hnext
    obtain ⟨hhold', hbatch', hbytes', hjobs'⟩ := hnext
    rw [batchesFrom_push hfull] at hbatches
    refine ⟨ctx', _, hstep, hhold', hmoved, Or.inl ⟨hjobs'.trans hjobs, ⟨closed, hclosed, hbatches⟩,
      hzero, ?_, hbatch'.trans hbatch, hbytes', ?_, hsizes⟩⟩
    · rw [hbatch']
      exact hself
    · rw [hbytes']
      exact Nat.not_le.mp hfull

/-- Where the main thread stands, and which entries are in no batch yet. -/
def LoadPc.Has (entries : List MboxIdxOffset) (n batch batchBytes : ℕ)
    (d : Deques MboxIdxOffset) : LoadPc → Prop
  | .filling => ∃ cur x rest, Filling entries n batch batchBytes d cur (x :: rest)
  | .filled => ∃ cur, Filling entries n batch batchBytes d cur []
  | _ => (idxBatches entries).length = n

/-- The batches that are enqueued may change while one is filled. -/
theorem Filling.congr (h : Filling entries n batch batchBytes d cur rest)
    (hd : ∀ i, i = 0 ∨ n < i → d' i = d i) :
    Filling entries n batch batchBytes d' cur rest where
  batches := h.batches
  left := (hd 0 (Or.inl rfl)).trans h.left
  filled := (hd batch (Or.inr (by rw [h.number]; exact Nat.lt_succ_self n))).trans h.filled
  number := h.number
  bytes := h.bytes
  room := h.room
  sizes := h.sizes

/-- They may change wherever the main thread stands. -/
theorem LoadPc.Has.congr {main : LoadPc} (h : main.Has entries n batch batchBytes d)
    (hd : ∀ i, i = 0 ∨ n < i → d' i = d i) : main.Has entries n batch batchBytes d' := by
  cases main with
  | filling =>
    obtain ⟨cur, x, rest, hf⟩ := h
    exact ⟨cur, x, rest, hf.congr hd⟩
  | filled =>
    obtain ⟨cur, hf⟩ := h
    exact ⟨cur, hf.congr hd⟩
  | _ => exact h

/-- Behind an iteration, where there are more entries or not. -/
theorem Filling.has {more : Bool} (h : Filling entries n batch batchBytes d cur rest)
    (hmore : more = true ↔ rest ≠ []) :
    LoadPc.Has entries n batch batchBytes d (if more then .filling else .filled) := by
  cases rest with
  | nil =>
    rw [if_neg fun hyes => absurd rfl (hmore.mp hyes)]
    exact ⟨cur, h⟩
  | cons x rest =>
    rw [if_pos (hmore.mpr (List.cons_ne_nil x rest))]
    exact ⟨cur, x, rest, h⟩

/-- Two ways to say what an iteration returns, and whether it goes on. -/
theorem more_iff {more : Bool} {ctx ctx' : BatchCtx}
    (h : ok (if more then Sum.inl ctx else Sum.inr ctx) =
      ok (if rest = [] then Sum.inr ctx' else Sum.inl ctx')) :
    ctx = ctx' ∧ (more = true ↔ rest ≠ []) := by
  have h := Exec.ok.inj h
  by_cases hrest : rest = []
  · rw [if_pos hrest] at h
    cases more with
    | true => cases h
    | false =>
      exact ⟨Sum.inr.inj h, fun hno => absurd hno Bool.false_ne_true, fun hne => absurd hrest hne⟩
  · rw [if_neg hrest] at h
    cases more with
    | true => exact ⟨Sum.inl.inj h, fun _ => hrest, fun _ => rfl⟩
    | false => cases h

end Main

/-! ## The workers -/

section Workers

variable {fill : ℕ → MboxChar} {dateToUnix : List MboxChar → Exec (Option Int)} {pread : Pread}
  {b rest : List MboxIdxOffset} {e : MboxIdxOffset} {o : Option (List MboxIdxOffset)}
  {made : List MboxMsgLite} {msg : MboxMsgLite} {rets : ℕ}

/-- What has been made of the entries of a batch, and what is left of it. -/
structure BatchMade (fill : ℕ → MboxChar) (dateToUnix : List MboxChar → Exec (Option Int))
    (pread : Pread) (b : List MboxIdxOffset) (o : Option (List MboxIdxOffset))
    (made : List MboxMsgLite) (rets : ℕ) : Prop where
  each : List.Forall₂ (fun e msg => Converges (idxMessage fill dateToUnix pread b e) msg)
    (b.take made.length) made
  left : rets = 0 → o = some (b.drop made.length) ∧ made.length < b.length
  done : 0 < rets → b.length ≤ made.length

/-- Of a batch that was just enqueued nothing was made. -/
theorem BatchMade.start (hne : b ≠ []) :
    BatchMade fill dateToUnix pread b (some b) [] 0 where
  each := List.Forall₂.nil
  left := fun _ => ⟨rfl, List.length_pos_iff.mpr hne⟩
  done := fun h => absurd h (lt_irrefl 0)

/-- One more message is made of it. -/
theorem BatchMade.snoc (h : BatchMade fill dateToUnix pread b o made 0)
    (hdrop : b.drop made.length = e :: rest)
    (hmsg : Converges (idxMessage fill dateToUnix pread b e) msg) :
    BatchMade fill dateToUnix pread b (if rest = [] then none else some rest) (made ++ [msg])
      (if rest = [] then 1 else 0) := by
  have hlen : (made ++ [msg]).length = made.length + 1 := by
    rw [List.length_append, List.length_singleton]
  have hlt := (h.left rfl).2
  have hcut : b = b.take made.length ++ e :: rest := by rw [← hdrop, List.take_append_drop]
  have htake : b.take (made.length + 1) = b.take made.length ++ [e] := by
    have hone := List.take_add (l := b) (i := made.length) (j := 1)
    rwa [hdrop] at hone
  have hrest : b.drop (made.length + 1) = rest := by
    rw [← List.drop_drop, hdrop]
    rfl
  have hcount : b.length = made.length + 1 + rest.length := by
    have hall := congrArg List.length hcut
    rw [List.length_append, List.length_take_of_le hlt.le, List.length_cons] at hall
    omega
  refine ⟨?_, fun hzero => ?_, fun hpos => ?_⟩
  · rw [hlen, htake]
    exact List.rel_append h.each (List.Forall₂.cons hmsg List.Forall₂.nil)
  · by_cases hnil : rest = []
    · rw [if_pos hnil] at hzero
      cases hzero
    · rw [if_neg hnil, hlen, hrest]
      have hpos := List.length_pos_iff.mpr hnil
      exact ⟨rfl, by omega⟩
  · by_cases hnil : rest = []
    · rw [hcount, hnil, hlen]
      exact le_refl _
    · rw [if_neg hnil] at hpos
      exact absurd hpos (lt_irrefl 0)

/-- A batch that is done has a message for every entry. -/
theorem BatchMade.all (h : BatchMade fill dateToUnix pread b o made rets) (hrets : 0 < rets) :
    List.Forall₂ (fun e msg => Converges (idxMessage fill dateToUnix pread b e) msg) b made := by
  have hmade := h.each
  rwa [List.take_of_length_le (h.done hrets)] at hmade

/-- The block of a batch, and where it begins in the file. -/
def BlockOf (fill : ℕ → MboxChar) (pread : Pread) (b : List MboxIdxOffset)
    (x : List MboxChar × ℕ) : Prop :=
  ∃ first last, b.head? = some first ∧ b.getLast? = some last ∧ x.2 = first.startOffset ∧
    readBatch fill pread first.startOffset ((last.endOffset : Int) - first.startOffset) = ok x.1

/-- The message of an entry is made of the block. -/
theorem BlockOf.idxMessage {x : List MboxChar × ℕ} {tmp : MboxBuf} (h : BlockOf fill pread b x)
    (htmp : entryBuf x.1 x.2 e = ok tmp)
    (hmsg : Converges
      (fun n => mboxMsgLiteFromBuffer fill dateToUnix n tmp e.startOffset e.endOffset) msg) :
    Converges (Libmbox2.idxMessage fill dateToUnix pread b e) msg := by
  obtain ⟨first, last, hfirst, hlast, hdiff, hread⟩ := h
  rw [hdiff] at htmp
  refine Converges.congr (fun n => ?_) hmsg
  simp only [Libmbox2.idxMessage, hfirst, hlast, hread, htmp, ok_bind]

/-- What the root of a list and the node in front of it are. -/
theorem blockOf_of_reads {lists : Lists MboxIdxOffset} {d : Deques MboxIdxOffset} {i : ℕ}
    {l : MboxList} {root last : MboxLNode MboxIdxOffset} {buf : List MboxChar}
    (hhold : ∃ addr, lists.Hold d addr) (hd : d i = some b) (hne : b ≠ [])
    (hget : lists.get i = ok l) (hroot : lists.heap.load l.root = ok root)
    (hlast : lists.heap.load root.prev = ok last)
    (hread : readBatch fill pread root.data.startOffset
      ((last.data.endOffset : Int) - root.data.startOffset) = ok buf) :
    BlockOf fill pread b (buf, root.data.startOffset) := by
  obtain ⟨addr, hhold⟩ := hhold
  obtain ⟨l', hget', hat⟩ := hhold.get_eq hd
  obtain rfl := Exec.ok.inj (hget'.symm.trans hget)
  have hpos := List.length_pos_iff.mpr hne
  have hroot' := Heap.load_eq (hat.ring.get_lt hpos)
  rw [← hat.root, hroot] at hroot'
  obtain rfl := Exec.ok.inj hroot'
  have hlast' := Heap.load_eq (hat.ring.get_lt (i := b.length - 1) (by omega))
  have hprev : prevAt (addr i) 0 = (addr i)[b.length - 1]? := by
    rw [prevAt, if_pos rfl, hat.ring.length]
  rw [← hprev, hlast] at hlast'
  obtain rfl := Exec.ok.inj hlast'
  refine ⟨b[0], b[b.length - 1], ?_, ?_, rfl, hread⟩
  · rw [List.head?_eq_getElem?]
    exact List.getElem?_eq_getElem hpos
  · rw [List.getLast?_eq_getElem?]
    exact List.getElem?_eq_getElem _

end Workers

/-! ## The threads -/

section Threads

open CallbackAction

variable [DecidableEq W] {fill : ℕ → MboxChar} {dateToUnix : List MboxChar → Exec (Option Int)}
  {pread : Pread} {entries : List MboxIdxOffset} {old : List MboxMsgLite} {start : IdxCtx}
  {acts : List (IndexAction W)} {s s' : IndexThreads W} {a : IndexAction W}
  {d d' : Deques MboxIdxOffset} {log : List (ℕ × MboxMsgLite)}

/-- A run of the threads is one of the pool. -/
theorem run_idxPool (h : Run (IndexThreads.Step fill dateToUnix pread) (.start start) acts s) :
    Run CallbackPool.Step .new (idxPool acts) s.pool := by
  refine Run.filterMap IndexThreads.pool IndexAction.pool? (fun s a t hstep => ?_) h
  cases hstep with
  | fill | skipLast => exact Or.inl ⟨rfl, rfl⟩
  | pool _ hp | close _ _ _ _ hp | closeLast _ _ _ _ _ hp | wait _ _ hp | waitReturn _ hp
  | block _ _ _ _ _ hp | message _ _ hp | last _ _ hp => exact Or.inr ⟨_, rfl, hp⟩

/-- The lists are the deques `d`, and `log` are the messages that were made, each with the number
of its batch. -/
structure Loading (fill : ℕ → MboxChar) (dateToUnix : List MboxChar → Exec (Option Int))
    (pread : Pread) (entries : List MboxIdxOffset) (old : List MboxMsgLite)
    (acts : List (IndexAction W)) (s : IndexThreads W) (d : Deques MboxIdxOffset)
    (log : List (ℕ × MboxMsgLite)) : Prop where
  ctx : s.ctx.Holds d (old ++ log.map Prod.snd)
  jobs : CallbackPool.Numbered idxJob (idxPool acts) s.pool.pool.enqueued
  main : s.main.Has entries s.pool.pool.enqueued s.batch s.batchBytes d
  keys : ∀ x ∈ log, x.1 < s.pool.pool.enqueued
  batches : ∀ k < s.pool.pool.enqueued, ∃ b, (idxBatches entries)[k]? = some b ∧
    BatchMade fill dateToUnix pread b (d (k + 1)) (madeOf log k) (idxRets acts k)
  notCalled : ∀ k, (pools (idxPool acts)).countP (PoolAction.calls (idxJob k)) = 0 →
    madeOf log k = []
  unread : ∀ w k, s.pool.pool.worker w = .running (idxJob k) → s.pool.returned w = false →
    s.reading w = none → madeOf log k = []
  reading : ∀ w x, s.reading w = some x → ∃ k b, s.pool.pool.worker w = .running (idxJob k) ∧
    s.pool.returned w = false ∧ (idxBatches entries)[k]? = some b ∧ BlockOf fill pread b x

variable [Fintype W]

/-- A step that makes no message. -/
theorem Loading.go_on (hi : Loading fill dateToUnix pread entries old acts s d log)
    (hret : CallbackPool.RetInv (idxPool (acts ++ [a])) s'.pool)
    (hpool : idxPool [a] = [] ∧ s'.pool = s.pool ∨
      ∃ b, idxPool [a] = [.pool b] ∧ s.pool.Step (.pool b) s'.pool)
    (hreading : s'.reading = s.reading) (hctx : s'.ctx.Holds d' (old ++ log.map Prod.snd))
    (hjobs : CallbackPool.Numbered idxJob (idxPool (acts ++ [a])) s'.pool.pool.enqueued)
    (hmain : s'.main.Has entries s'.pool.pool.enqueued s'.batch s'.batchBytes d')
    (hle : s.pool.pool.enqueued ≤ s'.pool.pool.enqueued)
    (hbatches : ∀ k < s'.pool.pool.enqueued, ∃ b, (idxBatches entries)[k]? = some b ∧
      BatchMade fill dateToUnix pread b (d' (k + 1)) (madeOf log k) (idxRets acts k)) :
    Loading fill dateToUnix pread entries old (acts ++ [a]) s' d' log := by
  have hrets : ∀ k, idxRets (acts ++ [a]) k = idxRets acts k := by
    intro k
    have hnone : idxRets [a] k = 0 := by
      rcases hpool with ⟨hnil, -⟩ | ⟨b, hone, -⟩
      · rw [idxRets, hnil]
        rfl
      · rw [idxRets, hone]
        rfl
    rw [idxRets_snoc, hnone, Nat.add_zero]
  refine ⟨hctx, hjobs, hmain, fun x hx => (hi.keys x hx).trans_le hle, fun k hk => ?_,
    fun k hzero => ?_, fun w k hpc hno hnone => ?_, fun w x hx => ?_⟩
  · rw [hrets]
    exact hbatches k hk
  · rw [idxPool_snoc, pools_append, List.countP_append] at hzero
    exact hi.notCalled k (Nat.eq_zero_of_add_eq_zero_right hzero)
  · rw [hreading] at hnone
    rcases hpool with ⟨-, hsame⟩ | ⟨b, hone, hp⟩
    · rw [hsame] at hpc hno
      exact hi.unread w k hpc hno hnone
    · rcases hp.working_cases hpc hno with ⟨hpc', hno'⟩ | rfl
      · exact hi.unread w k hpc' hno' hnone
      · rw [idxPool_snoc, hone] at hret
        exact hi.notCalled k hret.calls_eq_zero
  · rw [hreading] at hx
    obtain ⟨k, b, hpc, hno, hb, hblock⟩ := hi.reading w x hx
    rcases hpool with ⟨-, hsame⟩ | ⟨c, -, hp⟩
    · rw [hsame]
      exact ⟨k, b, hpc, hno, hb, hblock⟩
    · obtain ⟨hpc', hno'⟩ := hp.keeps_working hpc hno
      exact ⟨k, b, hpc', hno', hb, hblock⟩

omit [DecidableEq W] in
/-- The job of a worker that is at work, and the batch it works on. -/
theorem Loading.working (hi : Loading fill dateToUnix pread entries old acts s d log)
    (hret : CallbackPool.RetInv (idxPool acts) s.pool) {w : W} {job : MboxWorkerJob}
    (hpc : s.pool.pool.worker w = .running job) (hno : s.pool.returned w = false) :
    ∃ k < s.pool.pool.enqueued, job = idxJob k ∧ idxRets acts k = 0 := by
  obtain ⟨hrets, hadds, -⟩ := hret.working hpc hno
  obtain ⟨hlt, hjob⟩ := (hi.jobs job).mp hadds
  refine ⟨job.id, hlt, hjob, ?_⟩
  rw [idxRets, ← hjob]
  exact hrets

omit [DecidableEq W] in
/-- Nothing has been done of a batch that is not enqueued yet. -/
theorem Loading.rets_eq_zero (hi : Loading fill dateToUnix pread entries old acts s d log)
    (hret : CallbackPool.RetInv (idxPool acts) s.pool) {k : ℕ} (hk : s.pool.pool.enqueued ≤ k) :
    idxRets acts k = 0 := by
  have hle := hret.rets_le_adds (idxJob k)
  have hnone : ¬ 0 < (pools (idxPool acts)).countP (PoolAction.adds (idxJob k)) := by
    rw [hi.jobs]
    exact fun h => absurd (show k < _ from h.1) (Nat.not_lt.mpr hk)
  rw [idxRets]
  omega

omit [DecidableEq W] in
/-- Another batch is enqueued. -/
theorem Loading.batches_succ (hi : Loading fill dateToUnix pread entries old acts s d log)
    (hret : CallbackPool.RetInv (idxPool acts) s.pool) {b : List MboxIdxOffset}
    (hold : ∀ i, i ≠ 0 → i < s.pool.pool.enqueued + 1 → d' i = d i)
    (hb : (idxBatches entries)[s.pool.pool.enqueued]? = some b)
    (hd : d' (s.pool.pool.enqueued + 1) = some b) {k : ℕ} (hk : k < s.pool.pool.enqueued + 1) :
    ∃ b, (idxBatches entries)[k]? = some b ∧
      BatchMade fill dateToUnix pread b (d' (k + 1)) (madeOf log k) (idxRets acts k) := by
  rcases Nat.lt_succ_iff_lt_or_eq.mp hk with hlt | rfl
  · rw [hold (k + 1) (Nat.succ_ne_zero k) (Nat.succ_lt_succ hlt)]
    exact hi.batches k hlt
  · have hne : b ≠ [] := by
      have hbatching : IsBatching Full entries (idxBatches entries) := isBatching_batches entries
      exact hbatching.ne_nil b (List.mem_of_getElem? hb)
    refine ⟨b, hb, ?_⟩
    rw [hd, madeOf_eq_nil hi.keys (le_refl _), hi.rets_eq_zero hret (le_refl _)]
    exact BatchMade.start hne

/-- A step that makes a message: it is the next one of the batch of the worker. -/
theorem Loading.snoc (hi : Loading fill dateToUnix pread entries old acts s d log)
    (hret : CallbackPool.RetInv (idxPool acts) s.pool) {w : W} {k : ℕ}
    {b : List MboxIdxOffset} {o : Option (List MboxIdxOffset)} {msg : MboxMsgLite}
    (hpc : s.pool.pool.worker w = .running (idxJob k)) (hread : s.reading w ≠ none)
    (hk : k < s.pool.pool.enqueued) (hb : (idxBatches entries)[k]? = some b)
    (hmade : BatchMade fill dateToUnix pread b o (madeOf log k ++ [msg])
      (idxRets acts k + idxRets [a] k))
    (hrets : ∀ j, j ≠ k → idxRets [a] j = 0) (hpools : pools (idxPool [a]) = [])
    (hctx : s'.ctx.Holds (d.set (k + 1) o) ((old ++ log.map Prod.snd) ++ [msg]))
    (hpool : s'.pool.pool = s.pool.pool) (hmain : s'.main = s.main) (hbatch : s'.batch = s.batch)
    (hbytes : s'.batchBytes = s.batchBytes)
    (hothers : ∀ v, v ≠ w → s'.pool.returned v = s.pool.returned v ∧ s'.reading v = s.reading v)
    (hself : s'.pool.returned w = s.pool.returned w ∧ s'.reading w = s.reading w ∨
      s'.pool.returned w = true ∧ s'.reading w = none) :
    Loading fill dateToUnix pread entries old (acts ++ [a]) s' (d.set (k + 1) o)
      (log ++ [(k, msg)]) := by
  have hadds : pools (idxPool (acts ++ [a])) = pools (idxPool acts) := by
    rw [idxPool_snoc, pools_append, hpools, List.append_nil]
  have hother : ∀ j, j ≠ k → madeOf (log ++ [(k, msg)]) j = madeOf log j := by
    intro j hj
    rw [madeOf_snoc, if_neg hj.symm, List.append_nil]
  have hsame : madeOf (log ++ [(k, msg)]) k = madeOf log k ++ [msg] := by
    rw [madeOf_snoc, if_pos rfl]
  refine ⟨?_, ?_, ?_, fun x hx => ?_, fun j hj => ?_, fun j hzero => ?_, fun v j hv hno hnone => ?_,
    fun v x hx => ?_⟩
  · rwa [List.map_append, ← List.append_assoc]
  · rw [CallbackPool.Numbered, hadds, hpool]
    exact hi.jobs
  · rw [hmain, hbatch, hbytes, hpool]
    refine hi.main.congr fun i hi' => ?_
    rw [Deques.set, Function.update_of_ne (by omega)]
  · rw [hpool]
    rcases List.mem_append.mp hx with hx | hx
    · exact hi.keys x hx
    · rw [List.mem_singleton.mp hx]
      exact hk
  · rw [hpool] at hj
    by_cases hjk : j = k
    · subst hjk
      refine ⟨b, hb, ?_⟩
      rw [Deques.set, Function.update_self, hsame, idxRets_snoc]
      exact hmade
    · obtain ⟨b', hb', hmade'⟩ := hi.batches j hj
      refine ⟨b', hb', ?_⟩
      rw [Deques.set, Function.update_of_ne (by omega), hother j hjk, idxRets_snoc, hrets j hjk]
      exact hmade'
  · rw [hadds] at hzero
    have hjk : j ≠ k := by
      rintro rfl
      have hcalled := hret.called hpc
      omega
    rw [hother j hjk]
    exact hi.notCalled j hzero
  · rw [hpool] at hv
    have hvw : v ≠ w := by
      rintro rfl
      rcases hself with ⟨-, hsame⟩ | ⟨htrue, -⟩
      · exact hread (hsame ▸ hnone)
      · exact Bool.false_ne_true (hno.symm.trans htrue)
    have hjk : j ≠ k := by
      rintro rfl
      exact hvw (hret.worker_unique hv hpc)
    obtain ⟨hno', hnone'⟩ := hothers v hvw
    rw [hother j hjk]
    exact hi.unread v j hv (hno' ▸ hno) (hnone' ▸ hnone)
  · rw [hpool]
    by_cases hvw : v = w
    · subst hvw
      rcases hself with ⟨hno, hread'⟩ | ⟨-, hnone⟩
      · rw [hread'] at hx
        rw [hno]
        exact hi.reading v x hx
      · rw [hnone] at hx
        cases hx
    · obtain ⟨hno, hread'⟩ := hothers v hvw
      rw [hread'] at hx
      rw [hno]
      exact hi.reading v x hx

/-- **The block of a batch is read**, from the first entry of its list up to the end of the last
one. -/
theorem Loading.step_block (hi : Loading fill dateToUnix pread entries old acts s d log)
    (hret : CallbackPool.RetInv (idxPool acts) s.pool) {w : W} {job : MboxWorkerJob}
    {l : MboxList} {root last : MboxLNode MboxIdxOffset} {buf : List MboxChar}
    {p : CallbackPool W Unit} (hnone : s.reading w = none)
    (hget : s.ctx.lists.get job.argv = ok l) (hroot : s.ctx.lists.heap.load l.root = ok root)
    (hlast : s.ctx.lists.heap.load root.prev = ok last)
    (hread : readBatch fill pread root.data.startOffset
      ((last.data.endOffset : Int) - root.data.startOffset) = ok buf)
    (hp : s.pool.Step (.work w job) p) :
    Loading fill dateToUnix pread entries old (acts ++ [.pool (.work w job)]) { s with
      pool := p,
      reading := Function.update s.reading w (some (buf, root.data.startOffset)) } d log := by
  obtain ⟨hpc, hno, -⟩ := hp.running_of_work (Or.inl rfl)
  obtain ⟨k, hk, rfl, hrets⟩ := hi.working hret hpc hno
  obtain ⟨b, hb, hmade⟩ := hi.batches k hk
  -- the worker is the first to touch the batch
  have hfresh := hi.unread w k hpc hno hnone
  obtain ⟨hd, hlt⟩ := hmade.left hrets
  rw [hfresh] at hd hlt
  have hblock := blockOf_of_reads hi.ctx.lists hd (List.length_pos_iff.mp hlt) hget hroot hlast
    hread
  have hadds : pools (idxPool (acts ++ [.pool (.work w (idxJob k))])) = pools (idxPool acts) := by
    rw [idxPool_snoc, pools_append, show pools (idxPool [IndexAction.pool
      (CallbackAction.work w (idxJob k))]) = ([] : List (PoolAction W Unit)) from rfl,
      List.append_nil]
  cases hp with
  | work =>
    refine ⟨hi.ctx, ?_, hi.main, hi.keys, fun j hj => ?_, fun j hzero => ?_,
      fun v j hv hvno hvnone => ?_, fun v x hx => ?_⟩
    · rw [CallbackPool.Numbered, hadds]
      exact hi.jobs
    · rw [idxRets_snoc]
      exact hi.batches j hj
    · rw [hadds] at hzero
      exact hi.notCalled j hzero
    · change Function.update s.reading w _ v = none at hvnone
      by_cases hvw : v = w
      · rw [hvw, Function.update_self] at hvnone
        cases hvnone
      · rw [Function.update_of_ne hvw] at hvnone
        exact hi.unread v j hv hvno hvnone
    · change Function.update s.reading w _ v = some x at hx
      by_cases hvw : v = w
      · rw [hvw, Function.update_self] at hx
        rw [hvw, ← Option.some.inj hx]
        exact ⟨k, b, hpc, hno, hb, hblock⟩
      · rw [Function.update_of_ne hvw] at hx
        exact hi.reading v x hx

omit [DecidableEq W] in
/-- **A message is made**, the last one of its batch or not, of the first entry that is left in
it. -/
theorem Loading.step_message (hi : Loading fill dateToUnix pread entries old acts s d log)
    (hret : CallbackPool.RetInv (idxPool acts) s.pool) {w : W} {job : MboxWorkerJob}
    {buf : List MboxChar} {diff : ℕ} {r : IdxCtx ⊕ IdxCtx} (hread : s.reading w = some (buf, diff))
    (hconv : Converges (fun fuel => getMessagesStep fill dateToUnix fuel job.argv buf diff s.ctx) r)
    (hpc : s.pool.pool.worker w = .running job) (hno : s.pool.returned w = false) :
    ∃ k b rest msg ctx', job = idxJob k ∧ k < s.pool.pool.enqueued ∧
      (idxBatches entries)[k]? = some b ∧
      BatchMade fill dateToUnix pread b (if rest = [] then none else some rest)
        (madeOf log k ++ [msg]) (idxRets acts k + if rest = [] then 1 else 0) ∧
      ctx'.Holds (d.set (k + 1) (some rest)) ((old ++ log.map Prod.snd) ++ [msg]) ∧
      r = if rest = [] then .inr ctx' else .inl ctx' := by
  obtain ⟨k, hk, rfl, hrets⟩ := hi.working hret hpc hno
  obtain ⟨j, b, hpc', -, hb, hblock⟩ := hi.reading w _ hread
  obtain rfl := idxJob_injective (WorkerPc.running.inj (hpc.symm.trans hpc'))
  obtain ⟨b', hb', hmade⟩ := hi.batches k hk
  obtain rfl := Option.some.inj (hb'.symm.trans hb)
  obtain ⟨hd, -⟩ := hmade.left hrets
  obtain ⟨e, rest, tmp, msg, ctx', hdrop, htmp, hmsg, hctx', hr⟩ :=
    getMessagesStep_inv hi.ctx hd hconv
  rw [hrets] at hmade
  refine ⟨k, b', rest, msg, ctx', rfl, hk, hb, ?_, hctx', hr⟩
  rw [hrets, Nat.zero_add]
  exact hmade.snoc hdrop (hblock.idxMessage htmp hmsg)

omit [Fintype W] in
/-- The pool takes a step that adds no job. -/
theorem Loading.numbered_pool (hi : Loading fill dateToUnix pread entries old acts s d log)
    {b : PoolAction W Unit} {p : CallbackPool W Unit} (hp : s.pool.Step (.pool b) p)
    (hno : (CallbackAction.pool b).isAdd = false) :
    CallbackPool.Numbered idxJob (idxPool (acts ++ [.pool (.pool b)])) p.pool.enqueued := by
  rw [idxPool_snoc]
  refine hi.jobs.step hp fun e job heq => ?_
  rw [heq] at hno
  cases hno

omit [Fintype W] in
/-- A batch is enqueued, with the next number. -/
theorem Loading.numbered_add (hi : Loading fill dateToUnix pread entries old acts s d log)
    {job : MboxWorkerJob} {p : CallbackPool W Unit} (hp : s.pool.Step (.pool (.addTail () job)) p)
    (hcallback : job.callback = idxGetMessagesCallback)
    (hargv : job.argv = s.pool.pool.enqueued + 1) :
    p.pool.enqueued = s.pool.pool.enqueued + 1 ∧ CallbackPool.Numbered idxJob
      (idxPool (acts ++ [.pool (.pool (.addTail () job))])) p.pool.enqueued := by
  refine ⟨?_, ?_⟩
  · rcases hp.enqueued_cases with ⟨e, job', -, -, hen⟩ | ⟨hno, -⟩
    · exact hen
    · have hone := hno job
      rw [pools_pool, List.countP_singleton, PoolAction.adds, decide_eq_true rfl, if_pos rfl]
        at hone
      cases hone
  · rw [idxPool_snoc]
    refine hi.jobs.step hp fun e job' heq hid => ?_
    cases heq
    rw [← hid] at hargv
    rw [idxJob, ← hid, ← hcallback, ← hargv]

/-- The pool goes on, and nothing is made. -/
theorem Loading.step_pool {main : LoadPc} {b : PoolAction W Unit} {p : CallbackPool W Unit}
    (hi : Loading fill dateToUnix pread entries old acts s d log)
    (hret : CallbackPool.RetInv (idxPool (acts ++ [.pool (.pool b)])) p)
    (hp : s.pool.Step (.pool b) p) (hno : (CallbackAction.pool b).isAdd = false)
    (hmain : main.Has entries s.pool.pool.enqueued s.batch s.batchBytes d) :
    Loading fill dateToUnix pread entries old (acts ++ [.pool (.pool b)])
      { s with main, pool := p } d log := by
  have hen := hp.enqueued_eq hno
  refine hi.go_on hret (Or.inr ⟨b, rfl, hp⟩) rfl hi.ctx (hi.numbered_pool hp hno) ?_ hen.ge
    fun k hk => hi.batches k (hen ▸ hk)
  rw [hen]
  exact hmain

/-- **An entry is put into the batch**, which stays open. -/
theorem Loading.step_fill {more : Bool} {ctx : BatchCtx}
    (hi : Loading fill dateToUnix pread entries old acts s d log)
    (hret : CallbackPool.RetInv (idxPool (acts ++ [.main])) s.pool) (hpc : s.main = .filling)
    (hstep : batchLoadStep s.batchCtx = ok (if more then .inl ctx else .inr ctx))
    (hnone : ctx.jobs = []) :
    ∃ d', Loading fill dateToUnix pread entries old (acts ++ [.main]) (s.filled more ctx) d'
      log := by
  have hmain := hi.main
  rw [hpc] at hmain
  obtain ⟨cur, x, rest, hf⟩ := hmain
  have hf' : Filling entries s.pool.pool.enqueued s.batchCtx.batch s.batchCtx.batchBytes d cur
    (x :: rest) := hf
  obtain ⟨ctx', d', hstep', hhold, hsame, hnext⟩ := hf'.step rfl hi.ctx.lists
  obtain ⟨rfl, hmore⟩ := more_iff (hstep.symm.trans hstep')
  rcases hnext with ⟨-, hfilling⟩ | ⟨hone, -⟩
  · refine ⟨d', hi.go_on hret (Or.inl ⟨rfl, rfl⟩) rfl
      ⟨hhold, hi.ctx.msgs, hi.ctx.unlocked⟩ ?_ (hfilling.has hmore) (le_refl _) fun k hk => ?_⟩
    · have hnil : idxPool [IndexAction.main] = ([] : List (CallbackAction W Unit)) := rfl
      rw [idxPool_snoc, hnil, List.append_nil]
      exact hi.jobs
    · rw [hsame (k + 1) (Nat.succ_ne_zero k) (Nat.succ_lt_succ hk)]
      exact hi.batches k hk
  · rw [hnone] at hone
    cases hone

/-- **It closes the batch**, which is enqueued with the next number and is no longer touched by the
main thread. -/
theorem Loading.step_close {more : Bool} {ctx : BatchCtx} {job : MboxWorkerJob}
    {p : CallbackPool W Unit} (hi : Loading fill dateToUnix pread entries old acts s d log)
    (hret : CallbackPool.RetInv (idxPool acts) s.pool)
    (hret' : CallbackPool.RetInv (idxPool (acts ++ [.pool (.pool (.addTail () job))])) p)
    (hpc : s.main = .filling)
    (hstep : batchLoadStep s.batchCtx = ok (if more then .inl ctx else .inr ctx))
    (hjob : ctx.jobs = [job.argv]) (hcallback : job.callback = idxGetMessagesCallback)
    (hp : s.pool.Step (.pool (.addTail () job)) p) :
    ∃ d', Loading fill dateToUnix pread entries old (acts ++ [.pool (.pool (.addTail () job))])
      { s.filled more ctx with pool := p } d' log := by
  have hmain := hi.main
  rw [hpc] at hmain
  obtain ⟨cur, x, rest, hf⟩ := hmain
  have hf' : Filling entries s.pool.pool.enqueued s.batchCtx.batch s.batchCtx.batchBytes d cur
    (x :: rest) := hf
  obtain ⟨ctx', d', hstep', hhold, hsame, hnext⟩ := hf'.step rfl hi.ctx.lists
  obtain ⟨rfl, hmore⟩ := more_iff (hstep.symm.trans hstep')
  rcases hnext with ⟨hno, -⟩ | ⟨hone, hd, hb, hfilling⟩
  · rw [hjob] at hno
    cases hno
  · rw [hjob] at hone
    obtain ⟨hen, hnumbered⟩ := hi.numbered_add hp hcallback (List.cons.inj hone).1
    refine ⟨d', hi.go_on hret' (Or.inr ⟨_, rfl, hp⟩) rfl
      ⟨hhold, hi.ctx.msgs, hi.ctx.unlocked⟩ hnumbered ?_ (hen ▸ Nat.le_succ _) fun k hk => ?_⟩
    · rw [hen]
      exact hfilling.has hmore
    · rw [hen] at hk
      exact hi.batches_succ hret hsame hb hd hk

omit [DecidableEq W] [Fintype W] in
/-- The batch that is left open behind the loop. -/
theorem Loading.filled (hi : Loading fill dateToUnix pread entries old acts s d log)
    (hpc : s.main = .filled) {l : MboxList} (hget : s.ctx.lists.get s.batch = ok l) :
    ∃ cur closed, Filling entries s.pool.pool.enqueued s.batch s.batchBytes d cur [] ∧
      l.len = cur.length ∧ closed.length = s.pool.pool.enqueued ∧
      idxBatches entries = closed ++ if cur = [] then [] else [cur] := by
  have hmain := hi.main
  rw [hpc] at hmain
  obtain ⟨cur, hf⟩ := hmain
  obtain ⟨closed, hclosed, hbatches⟩ := hf.batches
  obtain ⟨addr, hhold⟩ := hi.ctx.lists
  obtain ⟨l', hget', hat⟩ := hhold.get_eq hf.filled
  obtain rfl := Exec.ok.inj (hget'.symm.trans hget)
  exact ⟨cur, closed, hf, hat.len, hclosed, hbatches⟩

/-- **The last batch is enqueued**, since something is in it. -/
theorem Loading.step_closeLast {l : MboxList} {job : MboxWorkerJob} {p : CallbackPool W Unit}
    (hi : Loading fill dateToUnix pread entries old acts s d log)
    (hret : CallbackPool.RetInv (idxPool acts) s.pool)
    (hret' : CallbackPool.RetInv (idxPool (acts ++ [.pool (.pool (.addTail () job))])) p)
    (hpc : s.main = .filled) (hget : s.ctx.lists.get s.batch = ok l) (hlen : 0 < l.len)
    (hargv : job.argv = s.batch) (hcallback : job.callback = idxGetMessagesCallback)
    (hp : s.pool.Step (.pool (.addTail () job)) p) :
    Loading fill dateToUnix pread entries old (acts ++ [.pool (.pool (.addTail () job))])
      { s with main := .loaded, pool := p } d log := by
  obtain ⟨cur, closed, hf, hcount, hclosed, hbatches⟩ := hi.filled hpc hget
  have hfilled := hf.filled
  rw [hf.number] at hargv hfilled
  obtain ⟨hen, hnumbered⟩ := hi.numbered_add hp hcallback hargv
  rw [if_neg (List.length_pos_iff.mp (hcount ▸ hlen))] at hbatches
  refine hi.go_on hret' (Or.inr ⟨_, rfl, hp⟩) rfl hi.ctx hnumbered ?_ (hen ▸ Nat.le_succ _)
    fun k hk => ?_
  · change (idxBatches entries).length = p.pool.enqueued
    rw [hbatches, hen, List.length_append, List.length_singleton, hclosed]
  · rw [hen] at hk
    refine hi.batches_succ hret (fun _ _ _ => rfl) ?_ hfilled hk
    rw [hbatches, ← hclosed, List.getElem?_append_right (le_refl _), Nat.sub_self]
    rfl

/-- There is none, since the loop has closed every batch. -/
theorem Loading.step_skipLast {l : MboxList}
    (hi : Loading fill dateToUnix pread entries old acts s d log)
    (hret : CallbackPool.RetInv (idxPool (acts ++ [.main])) s.pool) (hpc : s.main = .filled)
    (hget : s.ctx.lists.get s.batch = ok l) (hlen : ¬ 0 < l.len) :
    Loading fill dateToUnix pread entries old (acts ++ [.main]) { s with main := .loaded } d
      log := by
  obtain ⟨cur, closed, hf, hcount, hclosed, hbatches⟩ := hi.filled hpc hget
  rw [if_pos (List.eq_nil_of_length_eq_zero (by omega)), List.append_nil] at hbatches
  refine hi.go_on hret (Or.inl ⟨rfl, rfl⟩) rfl hi.ctx ?_ ?_ (le_refl _) hi.batches
  · have hnil : idxPool [IndexAction.main] = ([] : List (CallbackAction W Unit)) := rfl
    rw [idxPool_snoc, hnil, List.append_nil]
    exact hi.jobs
  · change (idxBatches entries).length = s.pool.pool.enqueued
    rw [hbatches, hclosed]

/-- **A step of the threads** keeps what is known of the batches and the messages. -/
theorem Loading.step
    (hrun : Run (IndexThreads.Step fill dateToUnix pread) (.start start) acts s)
    (hi : Loading fill dateToUnix pread entries old acts s d log)
    (h : IndexThreads.Step fill dateToUnix pread s a s') :
    ∃ d' log', Loading fill dateToUnix pread entries old (acts ++ [a]) s' d' log' := by
  have hret := CallbackPool.retInv_of_run (run_idxPool hrun)
  have hret' := CallbackPool.retInv_of_run (run_idxPool (hrun.snoc h))
  have hmain := hi.main
  cases h with
  | pool hfree hp => exact ⟨d, log, hi.step_pool hret' hp hfree.isAdd_eq hmain⟩
  | wait hpc hidle hp =>
    rw [hpc] at hmain
    have hloaded : LoadPc.waiting.Has entries s.pool.pool.enqueued s.batch s.batchBytes d := hmain
    exact ⟨d, log, hi.step_pool hret' hp rfl hloaded⟩
  | waitReturn hpc hp =>
    rw [hpc] at hmain
    have hloaded : LoadPc.returned.Has entries s.pool.pool.enqueued s.batch s.batchBytes d := hmain
    exact ⟨d, log, hi.step_pool hret' hp rfl hloaded⟩
  | fill hpc hidle hstep hnone =>
    obtain ⟨d', hi'⟩ := hi.step_fill hret' hpc hstep hnone
    exact ⟨d', log, hi'⟩
  | close hpc hstep hjob hcallback hp =>
    obtain ⟨d', hi'⟩ := hi.step_close hret hret' hpc hstep hjob hcallback hp
    exact ⟨d', log, hi'⟩
  | closeLast hpc hget hlen hargv hcallback hp =>
    exact ⟨d, log, hi.step_closeLast hret hret' hpc hget hlen hargv hcallback hp⟩
  | skipLast hpc hidle hget hlen => exact ⟨d, log, hi.step_skipLast hret' hpc hget hlen⟩
  | block hnone hget hroot hlast hread hp =>
    exact ⟨d, log, hi.step_block hret hnone hget hroot hlast hread hp⟩
  | @message w job buf diff ctx p hread hconv hp =>
    obtain ⟨hpc, hno, -⟩ := hp.running_of_work (Or.inl rfl)
    obtain ⟨k, b, rest, msg, ctx', rfl, hk, hb, hmade, hctx, hr⟩ :=
      hi.step_message hret hread hconv hpc hno
    cases hp with
    | work =>
      have hrest : rest ≠ [] := by
        intro hnil
        rw [if_pos hnil] at hr
        cases hr
      rw [if_neg hrest] at hr
      rw [if_neg hrest, if_neg hrest] at hmade
      obtain rfl := Sum.inl.inj hr
      have hsnoc : Loading fill dateToUnix pread entries old (acts ++ [.pool (.work w (idxJob k))])
          { s with ctx } (d.set (k + 1) (some rest)) (log ++ [(k, msg)]) :=
        hi.snoc hret hpc (hread ▸ Option.some_ne_none _) hk hb hmade (fun _ _ => rfl) rfl hctx rfl
          rfl rfl rfl (fun _ _ => ⟨rfl, rfl⟩) (Or.inl ⟨rfl, rfl⟩)
      exact ⟨_, _, hsnoc⟩
  | @last w job buf diff ctx p hread hconv hp =>
    obtain ⟨hpc, hno, -⟩ := hp.running_of_work (Or.inr rfl)
    obtain ⟨k, b, rest, msg, ctx', rfl, hk, hb, hmade, hctx, hr⟩ :=
      hi.step_message hret hread hconv hpc hno
    cases hp with
    | ret =>
      have hrest : rest = [] := by
        by_contra hne
        rw [if_neg hne] at hr
        cases hr
      rw [if_pos hrest] at hr
      rw [if_pos hrest, if_pos hrest] at hmade
      obtain rfl := Sum.inr.inj hr
      -- the batch is released
      obtain ⟨addr, hhold⟩ := hctx.lists
      have hdrop := hhold.drop (k + 1)
      rw [Deques.set, Deques.set, Function.update_idem] at hdrop
      have hone : idxRets [.pool (.ret w (idxJob k))] k = 1 := by rw [idxRets_ret, if_pos rfl]
      rw [← hone] at hmade
      have hsnoc : Loading fill dateToUnix pread entries old (acts ++ [.pool (.ret w (idxJob k))])
          { s.released w ctx (k + 1) with
            pool := { s.pool with returned := Function.update s.pool.returned w true } }
          (d.set (k + 1) none) (log ++ [(k, msg)]) :=
        hi.snoc hret hpc (hread ▸ Option.some_ne_none _) hk hb hmade
          (fun j hj => by rw [idxRets_ret, if_neg hj.symm]) rfl
          ⟨⟨_, hdrop⟩, hctx.msgs, hctx.unlocked⟩ rfl rfl rfl rfl
          (fun v hv => ⟨Function.update_of_ne hv .., Function.update_of_ne hv ..⟩)
          (Or.inr ⟨Function.update_self .., Function.update_self ..⟩)
      exact ⟨_, _, hsnoc⟩

/-! ### Waiting for the workers -/

/-- What the main thread waits for, and what it knows when it has waited. -/
def Waited (acts : List (IndexAction W)) (s : IndexThreads W) : LoadPc → Prop
  | .waiting => ∀ k < s.pool.pool.enqueued, CallbackPool.Waits (idxPool acts) s.pool (idxJob k)
  | .returned => ∀ k < s.pool.pool.enqueued,
      0 < (pools (idxPool acts)).countP (PoolAction.finishes (idxJob k))
  | _ => True

/-- A step that does not move the main thread. -/
theorem Waited.go_on {main : LoadPc}
    (hrun : Run (IndexThreads.Step fill dateToUnix pread) (.start start) acts s)
    (hw : Waited acts s main) {b : CallbackAction W Unit} (hp : s.pool.Step b s'.pool)
    (hno : b.isAdd = false) : Waited (acts ++ [.pool b]) s' main := by
  have hen := hp.enqueued_eq hno
  have hone : idxPool [IndexAction.pool b] = [b] := rfl
  cases main with
  | waiting =>
    intro k hk
    rw [hen] at hk
    rw [idxPool_snoc, hone]
    exact CallbackPool.Waits.step (run_idxPool hrun) (hw k hk) hp
  | returned =>
    intro k hk
    rw [hen] at hk
    rw [idxPool_snoc, pools_append, List.countP_append]
    exact Nat.add_pos_left (hw k hk) _
  | _ => trivial

/-- A step of the threads keeps what is known of the wait. -/
theorem Waited.step
    (hrun : Run (IndexThreads.Step fill dateToUnix pread) (.start start) acts s)
    (hi : Loading fill dateToUnix pread entries old acts s d log) (hw : Waited acts s s.main)
    (h : IndexThreads.Step fill dateToUnix pread s a s') : Waited (acts ++ [a]) s' s'.main := by
  cases h with
  | pool hfree hp => exact hw.go_on hrun hp hfree.isAdd_eq
  | block _ _ _ _ _ hp | message _ _ hp => exact hw.go_on hrun hp rfl
  | last _ _ hp => exact hw.go_on hrun hp rfl
  | @fill more | @close more =>
    cases more
    · trivial
    · trivial
  | closeLast | skipLast => trivial
  | @wait p hpc hidle hp =>
    intro k hk
    rw [idxPool_snoc]
    rw [show p.pool.enqueued = s.pool.pool.enqueued from hp.enqueued_eq rfl] at hk
    exact CallbackPool.waits_of_waitCall hp ((hi.jobs _).mpr ⟨hk, rfl⟩)
  | @waitReturn p hpc hp =>
    intro k hk
    rw [hpc] at hw
    rw [show p.pool.enqueued = s.pool.pool.enqueued from hp.enqueued_eq rfl] at hk
    rw [idxPool_snoc, pools_append, List.countP_append]
    exact Nat.add_pos_left ((hw k hk).finished hp) _

/-! ### Runs -/

omit [DecidableEq W] [Fintype W] in
/-- In front of the first step all entries are in no batch, and nothing was made. -/
theorem loading_start {lists : Lists MboxIdxOffset} {addr : ℕ → List ℕ}
    {heap : Heap (MboxLNode MboxMsgLite)} {msgs : MboxList}
    (hhold : lists.Hold (numbered [entries]) addr) (hne : entries ≠ [])
    (hvalid : ∀ e ∈ entries, e.Valid) (hmsgs : msgs.Holds heap old) (hfree : msgs.locked = false) :
    Loading fill dateToUnix pread entries old [] (.start ⟨lists, heap, msgs⟩ : IndexThreads W)
      ((numbered [entries]).set 1 (some [])) [] := by
  refine ⟨⟨⟨_, hhold.new 1⟩, (List.append_nil old).symm ▸ hmsgs, hfree⟩,
    CallbackPool.numbered_nil _, ?_, fun x hx => absurd hx List.not_mem_nil,
    fun k hk => absurd hk (Nat.not_lt_zero k), fun _ _ => rfl, fun _ _ _ _ _ => rfl,
    fun w x hx => ?_⟩
  · obtain ⟨x, rest, rfl⟩ := List.exists_cons_of_ne_nil hne
    refine ⟨[], x, rest, ⟨[], rfl, rfl⟩, ?_, ?_, rfl, rfl, mboxIOReadSize_pos, fun e he => ?_⟩
    · rw [Deques.set, Function.update_of_ne Nat.zero_ne_one]
      rfl
    · rw [Deques.set]
      exact Function.update_self ..
    · have he := hvalid e he
      have hlt := he.lt
      rw [he.messageSize_eq]
      omega
  · cases hx

/-- **So it is known in every run** what the batches are and what was made of them. -/
theorem loading_of_run {lists : Lists MboxIdxOffset} {addr : ℕ → List ℕ}
    {heap : Heap (MboxLNode MboxMsgLite)} {msgs : MboxList}
    (hhold : lists.Hold (numbered [entries]) addr) (hne : entries ≠ [])
    (hvalid : ∀ e ∈ entries, e.Valid) (hmsgs : msgs.Holds heap old) (hfree : msgs.locked = false)
    (h : Run (IndexThreads.Step fill dateToUnix pread) (.start ⟨lists, heap, msgs⟩) acts s) :
    (∃ d log, Loading fill dateToUnix pread entries old acts s d log) ∧ Waited acts s s.main := by
  induction h with
  | refl => exact ⟨⟨_, _, loading_start hhold hne hvalid hmsgs hfree⟩, trivial⟩
  | snoc hrun hstep ih =>
    obtain ⟨⟨d, log, hi⟩, hw⟩ := ih
    exact ⟨hi.step hrun hstep, hw.step hrun hi hstep⟩

omit [DecidableEq W] in
/-- **All batches are done** when `mboxIdxBatchLoad` has returned: there is one message for every
entry. -/
theorem Loading.all (hi : Loading fill dateToUnix pread entries old acts s d log)
    (hret : CallbackPool.RetInv (idxPool acts) s.pool) (hpc : s.main = .returned)
    (hw : Waited acts s s.main) :
    List.Forall₂ (fun b made => List.Forall₂
        (fun e msg => Converges (idxMessage fill dateToUnix pread b e) msg) b made)
      (idxBatches entries) ((List.range (idxBatches entries).length).map (madeOf log)) := by
  have hlen := hi.main
  rw [hpc] at hlen hw
  have hcount : (idxBatches entries).length = s.pool.pool.enqueued := hlen
  refine List.forall₂_iff_get.mpr ⟨by rw [List.length_map, List.length_range], fun k h₁ h₂ => ?_⟩
  rw [List.get_eq_getElem, List.get_eq_getElem, List.getElem_map, List.getElem_range]
  obtain ⟨b, hb, hmade⟩ := hi.batches k (hcount ▸ h₁)
  rw [List.getElem?_eq_getElem h₁] at hb
  rw [Option.some.inj hb]
  refine hmade.all ?_
  rw [idxRets, hret.rets_of_finished (hw k (hcount ▸ h₁))]
  exact Nat.one_pos

omit [DecidableEq W] [Fintype W] in
/-- The batches that messages are made of are those of the index. -/
theorem Loading.keys_lt (hi : Loading fill dateToUnix pread entries old acts s d log) :
    ∀ x ∈ log, x.1 < (idxBatches entries).length := by
  intro x hx
  obtain ⟨b, hb, -⟩ := hi.batches x.1 (hi.keys x hx)
  exact (List.getElem?_eq_some_iff.mp hb).1

omit [DecidableEq W] [Fintype W] in
/-- The messages of a batch are those of its first entries. -/
theorem Loading.sublist (hi : Loading fill dateToUnix pread entries old acts s d log) {k : ℕ}
    {b : List MboxIdxOffset} (hb : (idxBatches entries)[k]? = some b) :
    ((madeOf log k).map MboxMsgLite.entry).Sublist b := by
  by_cases hk : k < s.pool.pool.enqueued
  · obtain ⟨b', hb', hmade⟩ := hi.batches k hk
    obtain rfl := Option.some.inj (hb'.symm.trans hb)
    rw [map_entry_of_idxMessage hmade.each]
    exact List.take_sublist _ _
  · rw [madeOf_eq_nil hi.keys (Nat.not_lt.mp hk)]
    exact List.nil_sublist b

omit [DecidableEq W] [Fintype W] in
/-- No message is made twice, and none of anything else. -/
theorem Loading.subperm (hi : Loading fill dateToUnix pread entries old acts s d log) :
    ((log.map Prod.snd).map MboxMsgLite.entry).Subperm entries := by
  have hbatching : IsBatching Full entries (idxBatches entries) := isBatching_batches entries
  have hperm : (((List.range (idxBatches entries).length).map (madeOf log)).flatten).Perm
    (log.map Prod.snd) := perm_flatten_filter hi.keys_lt
  have hparts : List.Forall₂ List.Sublist
      (((List.range (idxBatches entries).length).map (madeOf log)).map
        (List.map MboxMsgLite.entry)) (idxBatches entries) := by
    rw [List.map_map]
    refine List.forall₂_iff_get.mpr ⟨by rw [List.length_map, List.length_range],
      fun k h₁ h₂ => ?_⟩
    rw [List.get_eq_getElem, List.get_eq_getElem, List.getElem_map, List.getElem_range]
    exact hi.sublist (List.getElem?_eq_getElem h₂)
  refine (hperm.map _).symm.subperm.trans (List.Sublist.subperm ?_)
  have hall := forall₂_flatten_sublist hparts
  rwa [hbatching.flatten, ← List.map_flatten] at hall

/-- The messages of all batches are where the entries say. -/
theorem map_entry_of_batches {bs : List (List MboxIdxOffset)} {made : List (List MboxMsgLite)}
    (h : List.Forall₂ (fun b made => List.Forall₂
      (fun e msg => Converges (idxMessage fill dateToUnix pread b e) msg) b made) bs made) :
    made.flatten.map MboxMsgLite.entry = bs.flatten := by
  induction h with
  | nil => rfl
  | cons hone _ ih =>
    rw [List.flatten_cons, List.flatten_cons, List.map_append, map_entry_of_idxMessage hone, ih]

omit [DecidableEq W] in
/-- **All messages**, when `mboxIdxBatchLoad` has returned: the list has one for each entry, in any
order, behind those it had before. -/
theorem Loading.messages (hi : Loading fill dateToUnix pread entries old acts s d log)
    (hret : CallbackPool.RetInv (idxPool acts) s.pool) (hpc : s.main = .returned)
    (hw : Waited acts s s.main) :
    ((log.map Prod.snd).map MboxMsgLite.entry).Perm entries ∧ ∃ made,
      List.Forall₂ (fun b made => List.Forall₂
        (fun e msg => Converges (idxMessage fill dateToUnix pread b e) msg) b made)
        (idxBatches entries) made ∧ (log.map Prod.snd).Perm made.flatten := by
  have hall := hi.all hret hpc hw
  have hperm : (((List.range (idxBatches entries).length).map (madeOf log)).flatten).Perm
    (log.map Prod.snd) := perm_flatten_filter hi.keys_lt
  have hbatching : IsBatching Full entries (idxBatches entries) := isBatching_batches entries
  refine ⟨?_, _, hall, hperm.symm⟩
  have hentries := (hperm.map MboxMsgLite.entry).symm
  rwa [map_entry_of_batches hall, hbatching.flatten] at hentries

end Threads

end Libmbox2
