import Libmbox2.Batching
import Libmbox2.Deque
import Libmbox2.Io
import Libmbox2.MsgLite

/-!
# Loading an index (`mboxIdxBatchLoad`, `mboxIdxGetMessages`)

The entries of an index are put into batches, and for each batch one job of the worker pool
reads the part of the mbox file it covers and makes a message of every entry. The lists of
entries have numbers: `0` is the list of all entries, the batches are `1`, `2`, and so on. A
batch that is enqueued is not touched again by the loop, so the jobs may run once it is over,
in any order.

The batches are those of `CSem.batches`. An entry is looked up in what was read for its batch,
so it must lie in there: `IdxReadable` says when it does. Entries in the order of where they
start are always fine.
-/

namespace Libmbox2

open CSem CSem.Exec

/-- `struct mboxIdxOffset`: where a message starts and ends in the mailbox, an entry of the
index. -/
structure MboxIdxOffset where
  /-- `start` -/
  startOffset : ℕ
  /-- `end` -/
  endOffset : ℕ
  deriving DecidableEq, Repr

/-- The size of a message, `offsets[1] - offsets[0]` as a `size_t`. -/
def MboxIdxOffset.messageSize (offsets : MboxIdxOffset) : ℕ :=
  sizeSub offsets.endOffset offsets.startOffset

/-! ## Filling the batches -/

/-- Where the loop of `mboxIdxBatchLoad` stands: the lists of entries, the batch that is filled, its
size, and the batches that were enqueued. -/
structure BatchCtx where
  lists : Lists MboxIdxOffset
  /-- the number of the batch that is filled -/
  batch : ℕ
  batchBytes : ℕ
  /-- the batches that are enqueued -/
  jobs : List ℕ

/-- An entry of `messageSize` bytes is in the batch. -/
def batchAdded (ctx : BatchCtx) (messageSize : ℕ) : Exec BatchCtx :=
  let batchBytes := (ctx.batchBytes + messageSize) % 2 ^ 64
  if batchBytes < mboxIOReadSize then pure { ctx with batchBytes }
  else do
    let batch := ctx.batch + 1
    let (_, lists) ← ctx.lists.call (.new batch)
    pure { lists, batch, batchBytes := 0, jobs := ctx.jobs ++ [ctx.batch] }

/-- One iteration of `mboxIdxBatchLoad`: the next entry goes into the list, which is enqueued when a
block's worth is in it. -/
def batchLoadStep (ctx : BatchCtx) : Exec (BatchCtx ⊕ BatchCtx) := do
  let (offsets, lists) ← ctx.lists.call (.removeHead 0)
  match offsets with
  | none => fault
  | some offsets =>
    let (_, lists) ← lists.call (.addTail ctx.batch offsets)
    let ctx ← batchAdded { ctx with lists } offsets.messageSize
    let indexes ← ctx.lists.get 0
    if 0 < indexes.len then pure (.inl ctx) else pure (.inr ctx)

/-- The lists, and the batches in the order in which they are enqueued. -/
def mboxIdxBatchLoad (fuel : ℕ) (lists : Lists MboxIdxOffset) :
    Exec (Lists MboxIdxOffset × List ℕ) := do
  let (_, lists) ← lists.call (.new 1)
  let ctx ← loop batchLoadStep fuel ⟨lists, 1, 0, []⟩
  let batch ← ctx.lists.get ctx.batch
  pure (ctx.lists, if 0 < batch.len then ctx.jobs ++ [ctx.batch] else ctx.jobs)

/-! ## Reading a batch -/

/-- What the jobs work on: the batches, and the messages there are so far. -/
structure IdxCtx where
  lists : Lists MboxIdxOffset
  heap : Heap (MboxLNode MboxMsgLite)
  msgs : MboxList

section Functions

variable (fill : ℕ → MboxChar) (dateToUnix : List MboxChar → Exec (Option Int)) (pread : Pread)

/-- The block the batch is read into, and a NUL behind it. No file has that many bytes when the
size is negative, and where nothing is read the NUL goes in front of the block. -/
def readBatch (diff : ℕ) : Int → Exec (List MboxChar)
  | .negSucc _ => fault
  | .ofNat size =>
    match pread size diff with
    | none => fault
    | some bytes => do
      let buf ← storeBytes (resize fill [] (size + 10)) 0 bytes
      store buf bytes.length nul

/-- `tmp`: the bytes of an entry in what was read. Its data begin in the block. -/
def entryBuf (buf : List MboxChar) (diff : ℕ) (offset : MboxIdxOffset) : Exec MboxBuf :=
  if diff ≤ offset.startOffset ∧ offset.startOffset - diff ≤ buf.length then
    pure { data := buf.drop (offset.startOffset - diff), offset := 0, len := offset.messageSize,
           capacity := 0 }
  else fault

/-- One iteration of `mboxIdxGetMessages`: the message of the next entry is made of the block and
put into the list of messages. -/
def getMessagesStep (fuel batch : ℕ) (buf : List MboxChar) (diff : ℕ) (ctx : IdxCtx) :
    Exec (IdxCtx ⊕ IdxCtx) := do
  let (offset, lists) ← ctx.lists.call (.removeHead batch)
  match offset with
  | none => fault
  | some offset =>
    let tmp ← entryBuf buf diff offset
    let msg ← mboxMsgLiteFromBuffer fill dateToUnix fuel tmp offset.startOffset offset.endOffset
    let (heap, msgs) ← mboxListTSAddTail ctx.heap ctx.msgs msg
    let l ← lists.get batch
    if 0 < l.len then pure (.inl ⟨lists, heap, msgs⟩) else pure (.inr ⟨lists, heap, msgs⟩)

/-- `batch` is the number of a batch; it is empty when it is released. -/
def mboxIdxGetMessages (fuel : ℕ) (ctx : IdxCtx) (batch : ℕ) : Exec IdxCtx := do
  let l ← ctx.lists.get batch
  let root ← ctx.lists.heap.load l.root
  let last ← ctx.lists.heap.load root.prev
  let diff := root.data.startOffset
  let size : Int := last.data.endOffset - diff
  let buf ← readBatch fill pread diff size
  let ctx ← loop (getMessagesStep fill dateToUnix fuel batch buf diff) fuel ctx
  pure { ctx with lists := ctx.lists.set ctx.lists.heap batch none }

/-- What `mboxIdxGetMessages` makes of an entry of the batch `b`. -/
def idxMessage (b : List MboxIdxOffset) (e : MboxIdxOffset) (fuel : ℕ) : Exec MboxMsgLite :=
  match b.head?, b.getLast? with
  | some first, some last => do
    let buf ← readBatch fill pread first.startOffset
      ((last.endOffset : Int) - first.startOffset)
    let tmp ← entryBuf buf first.startOffset e
    mboxMsgLiteFromBuffer fill dateToUnix fuel tmp e.startOffset e.endOffset
  | _, _ => fault

/-- The jobs that were enqueued, one after the other: each calls `mboxIdxGetMessages` for its
batch. -/
def runJobs (fuel : ℕ) (jobs : List ℕ) (ctx : IdxCtx) : Exec IdxCtx :=
  jobs.foldlM (mboxIdxGetMessages fill dateToUnix pread fuel) ctx

end Functions

/-! ## The batches -/

/-- The deques numbered by where they are in a list. -/
def numbered {D : Type} (L : List (List D)) : Deques D := fun i => L[i]?

section Numbered

variable {D : Type} {L : List (List D)}

/-- The contents of a list are changed. -/
theorem numbered_set {i : ℕ} (hi : i < L.length) (xs : List D) :
    (numbered L).set i (some xs) = numbered (L.set i xs) := by
  funext k
  rw [Deques.set, Function.update_apply, numbered, numbered]
  by_cases hk : k = i
  · subst hk
    rw [if_pos rfl, List.getElem?_set_self hi]
  · rw [if_neg hk, List.getElem?_set_ne (Ne.symm hk)]

/-- A list is added behind the others. -/
theorem numbered_concat (L : List (List D)) (xs : List D) :
    (numbered L).set L.length (some xs) = numbered (L ++ [xs]) := by
  funext k
  rw [Deques.set, Function.update_apply, numbered, numbered]
  by_cases hk : k = L.length
  · subst hk
    rw [if_pos rfl, List.getElem?_concat_length]
  · rw [if_neg hk]
    rcases Nat.lt_or_gt_of_ne hk with hlt | hgt
    · rw [List.getElem?_append_left hlt]
    · rw [List.getElem?_eq_none hgt.le, List.getElem?_eq_none (by simp; omega)]

end Numbered

/-- The size of an entry that does not wrap around. -/
structure MboxIdxOffset.Valid (e : MboxIdxOffset) : Prop where
  le : e.startOffset ≤ e.endOffset
  /-- the offsets are those of an `ssize_t` -/
  lt : e.endOffset < 2 ^ 63

/-- The size of a message whose start is not behind its end is the difference of the two. -/
theorem MboxIdxOffset.Valid.messageSize_eq {e : MboxIdxOffset} (he : e.Valid) :
    e.messageSize = e.endOffset - e.startOffset := sizeSub_of_le he.le

/-- The size of all messages of a batch. -/
def totalSize (b : List MboxIdxOffset) : ℕ := (b.map MboxIdxOffset.messageSize).sum

@[simp] theorem totalSize_concat (b : List MboxIdxOffset) (x : MboxIdxOffset) :
    totalSize (b ++ [x]) = totalSize b + x.messageSize := by simp [totalSize]

/-- The batch is enqueued, since its messages fill a block. -/
abbrev Full (b : List MboxIdxOffset) : Prop := mboxIOReadSize ≤ totalSize b

/-- The batches the entries of an index are put into. -/
def idxBatches (entries : List MboxIdxOffset) : List (List MboxIdxOffset) := batches Full entries

/-- Without its last entry a batch is not full, so a batch is larger than a block by less than a
message. -/
theorem totalSize_dropLast_lt {entries b : List MboxIdxOffset} {bs : List (List MboxIdxOffset)}
    (h : IsBatching Full entries bs) (hb : b ∈ bs) : totalSize b.dropLast < mboxIOReadSize := by
  rcases eq_or_ne b.dropLast [] with hnil | hne
  · rw [hnil]
    exact mboxIOReadSize_pos
  · exact Nat.not_le.mp (h.minimal b hb hne)

/-- The entry `x` is put into the open batch, and closes it where that gets full. -/
def BatchCtx.Put (ctx : BatchCtx) (x : MboxIdxOffset) (closed : List (List MboxIdxOffset))
    (cur : List MboxIdxOffset) (ctx' : BatchCtx) (closed' : List (List MboxIdxOffset))
    (cur' : List MboxIdxOffset) : Prop :=
  if (ctx.batchBytes + x.messageSize) % 2 ^ 64 < mboxIOReadSize then
    closed' = closed ∧ cur' = cur ++ [x] ∧
      ctx'.batchBytes = (ctx.batchBytes + x.messageSize) % 2 ^ 64
  else closed' = closed ++ [cur ++ [x]] ∧ cur' = [] ∧ ctx'.batchBytes = 0

/-- The entries in front of `rest` are in the batches `closed` and in `cur`. -/
structure BatchCtx.Spread (ctx : BatchCtx) (rest : List MboxIdxOffset)
    (closed : List (List MboxIdxOffset)) (cur : List MboxIdxOffset) : Prop where
  hold : ∃ addr, ctx.lists.Hold (numbered (rest :: (closed ++ [cur]))) addr
  batch : ctx.batch = closed.length + 1
  jobs : ctx.jobs = List.range' 1 closed.length

namespace BatchCtx.Spread

variable {ctx : BatchCtx} {x : MboxIdxOffset} {rest cur : List MboxIdxOffset}
  {closed : List (List MboxIdxOffset)}

/-- At first the batch is empty and no list was enqueued. -/
theorem start {lists : Lists MboxIdxOffset} {entries : List MboxIdxOffset} {addr : ℕ → List ℕ}
    (hhold : lists.Hold (numbered [entries]) addr) :
    BatchCtx.Spread ⟨lists.set lists.heap 1 (some mboxListNew), 1, 0, []⟩ entries [] [] := by
  have hnew := hhold.new 1
  rw [show (1 : ℕ) = [entries].length from rfl, numbered_concat] at hnew
  exact ⟨⟨_, hnew⟩, rfl, rfl⟩

/-- The entry that is in the batch may close it. -/
theorem batchAdded (hf : ctx.Spread rest closed (cur ++ [x])) :
    ∃ ctx' closed' cur', Libmbox2.batchAdded ctx x.messageSize = ok ctx' ∧
      ctx'.Spread rest closed' cur' ∧
      ctx.Put x closed cur ctx' closed' cur' := by
  obtain ⟨addr, hhold⟩ := hf.hold
  by_cases hfits : (ctx.batchBytes + x.messageSize) % 2 ^ 64 < mboxIOReadSize
  · refine ⟨{ ctx with batchBytes := (ctx.batchBytes + x.messageSize) % 2 ^ 64 }, closed,
      cur ++ [x], ?_, ⟨⟨addr, hhold⟩, hf.batch, hf.jobs⟩, ?_⟩
    · simp only [Libmbox2.batchAdded, if_pos hfits, pure_eq]
    · rw [BatchCtx.Put, if_pos hfits]
      exact ⟨rfl, rfl, rfl⟩
  · have hnew := hhold.new (ctx.batch + 1)
    have hlen : ctx.batch + 1 = (rest :: (closed ++ [cur ++ [x]])).length := by simp [hf.batch]
    rw [hlen, numbered_concat, ← hlen] at hnew
    refine ⟨⟨ctx.lists.set ctx.lists.heap (ctx.batch + 1) (some mboxListNew), ctx.batch + 1, 0,
      ctx.jobs ++ [ctx.batch]⟩, closed ++ [cur ++ [x]], [], ?_, ⟨⟨_, hnew⟩, ?_, ?_⟩, ?_⟩
    · simp only [Libmbox2.batchAdded, if_neg hfits, Lists.call, ok_bind, pure_eq]
    · simp [hf.batch]
    · simp only [hf.jobs, hf.batch, List.length_append, List.length_singleton, List.range'_concat,
        Nat.one_mul, Nat.add_comm]
    · rw [BatchCtx.Put, if_neg hfits]
      exact ⟨rfl, rfl, rfl⟩

/-- **An iteration** moves the first entry into the batch. -/
theorem step (hf : ctx.Spread (x :: rest) closed cur) :
    ∃ ctx' closed' cur',
      batchLoadStep ctx = ok (if rest = [] then .inr ctx' else .inl ctx') ∧
      ctx'.Spread rest closed' cur' ∧
      ctx.Put x closed cur ctx' closed' cur' := by
  obtain ⟨addr, hhold⟩ := hf.hold
  obtain ⟨s₁, addr₁, hremove, h₁⟩ := hhold.removeHead (i := 0) rfl
  rw [numbered_set (Nat.succ_pos _), List.set_cons_zero, List.tail_cons] at h₁
  have hcur : numbered (rest :: (closed ++ [cur])) ctx.batch = some cur := by
    rw [numbered, hf.batch, List.getElem?_cons_succ, List.getElem?_concat_length]
  obtain ⟨s₂, addr₂, hadd, h₂⟩ := h₁.addTail hcur x
  rw [numbered_set (by simp [hf.batch]), hf.batch, List.set_cons_succ,
    List.set_append_right _ _ (le_refl _), Nat.sub_self, List.set_cons_zero] at h₂
  have hmoved : BatchCtx.Spread { ctx with lists := s₂ } rest closed (cur ++ [x]) :=
    ⟨⟨addr₂, h₂⟩, hf.batch, hf.jobs⟩
  obtain ⟨ctx', closed', cur', hadded, hf', hbatches⟩ := hmoved.batchAdded
  obtain ⟨addr', hhold'⟩ := hf'.hold
  obtain ⟨indexes, hget, hat⟩ := hhold'.get_eq (i := 0) rfl
  refine ⟨ctx', closed', cur', ?_, hf', hbatches⟩
  have hlen : indexes.len = rest.length := hat.len
  simp only [batchLoadStep, hremove, List.head?_cons, hadd, hadded, hget, hlen, ok_bind, pure_eq]
  by_cases hrest : rest = []
  · rw [if_pos hrest, hrest]
    rfl
  · rw [if_neg hrest, if_pos (List.length_pos_iff.mpr hrest)]

/-- When no entry is left, the batch is enqueued unless it is empty. -/
theorem finish {lists : Lists MboxIdxOffset}
    (hloop : LoopTo (fun _ => batchLoadStep)
      ⟨lists.set lists.heap 1 (some mboxListNew), 1, 0, []⟩ ctx)
    (hf : ctx.Spread [] closed cur) {bs : List (List MboxIdxOffset)}
    (hbs : bs = closed ++ if cur = [] then [] else [cur]) :
    ∃ addr L, Converges (fun n => mboxIdxBatchLoad n lists)
        (ctx.lists, List.range' 1 bs.length) ∧
      ctx.lists.Hold (numbered ([] :: (bs ++ L))) addr := by
  obtain ⟨addr, hhold⟩ := hf.hold
  have hcur : numbered ([] :: (closed ++ [cur])) ctx.batch = some cur := by
    rw [numbered, hf.batch, List.getElem?_cons_succ, List.getElem?_concat_length]
  obtain ⟨batch, hget, hat⟩ := hhold.get_eq hcur
  have hlen : batch.len = cur.length := hat.len
  have hrun : Converges (fun n => mboxIdxBatchLoad n lists)
      (ctx.lists, if 0 < batch.len then ctx.jobs ++ [ctx.batch] else ctx.jobs) := by
    refine Converges.bind (Converges.const rfl) (Converges.bind hloop.converges ?_)
    refine Converges.const ?_
    rw [hget]
    rfl
  by_cases hnil : cur = []
  · subst hnil
    rw [if_pos rfl, List.append_nil] at hbs
    rw [hlen, List.length_nil, if_neg (Nat.lt_irrefl 0), hf.jobs, ← hbs] at hrun
    exact ⟨addr, [[]], hrun, by rwa [hbs]⟩
  · rw [if_neg hnil] at hbs
    have hjobs : List.range' 1 closed.length ++ [closed.length + 1] =
        List.range' 1 bs.length := by
      rw [hbs, List.length_append, List.length_singleton, List.range'_concat, Nat.one_mul,
        Nat.add_comm 1]
    rw [hlen, if_pos (List.length_pos_iff.mpr hnil), hf.jobs, hf.batch, hjobs] at hrun
    refine ⟨addr, [], hrun, ?_⟩
    rwa [List.append_nil, hbs]

end BatchCtx.Spread

/-- The loop has closed the batches `closed` and fills `cur`; `rest` are the entries left. -/
structure BatchCtx.Filling (ctx : BatchCtx) (rest : List MboxIdxOffset)
    (closed : List (List MboxIdxOffset)) (cur : List MboxIdxOffset) : Prop where
  hold : ∃ addr, ctx.lists.Hold (numbered (rest :: (closed ++ [cur]))) addr
  batch : ctx.batch = closed.length + 1
  batchBytes : ctx.batchBytes = totalSize cur
  room : ctx.batchBytes < mboxIOReadSize
  jobs : ctx.jobs = List.range' 1 closed.length

namespace BatchCtx.Filling

variable {ctx : BatchCtx} {x : MboxIdxOffset} {rest cur : List MboxIdxOffset}
  {closed : List (List MboxIdxOffset)}

/-- While a batch is filled, the entries are spread over the lists and what is still to come. -/
theorem spread (hf : ctx.Filling rest closed cur) : ctx.Spread rest closed cur :=
  ⟨hf.hold, hf.batch, hf.jobs⟩

/-- **An iteration** closes the batch where it gets full. -/
theorem step (hf : ctx.Filling (x :: rest) closed cur) (hx : x.messageSize < 2 ^ 63) :
    ∃ ctx' closed' cur',
      batchLoadStep ctx = ok (if rest = [] then .inr ctx' else .inl ctx') ∧
      ctx'.Filling rest closed' cur' ∧
      closed' ++ batchesFrom Full cur' rest =
        closed ++ batchesFrom Full cur (x :: rest) := by
  obtain ⟨ctx', closed', cur', hstep, hspread, hbatches⟩ := hf.spread.step
  have hread := mboxIOReadSize_lt
  have hroom := hf.room
  have hmod : (ctx.batchBytes + x.messageSize) % 2 ^ 64 = totalSize (cur ++ [x]) := by
    rw [totalSize_concat, ← hf.batchBytes]
    exact Nat.mod_eq_of_lt (by omega)
  rw [BatchCtx.Put, hmod] at hbatches
  refine ⟨ctx', closed', cur', hstep, ?_⟩
  split at hbatches
  · next hfits =>
    obtain ⟨rfl, rfl, hbytes⟩ := hbatches
    refine ⟨⟨hspread.hold, hspread.batch, hbytes, hbytes ▸ hfits, hspread.jobs⟩, ?_⟩
    rw [batchesFrom_push (Nat.not_le.mpr hfits)]
  · next hfull =>
    obtain ⟨rfl, rfl, hbytes⟩ := hbatches
    refine ⟨⟨hspread.hold, hspread.batch, hbytes, hbytes ▸ mboxIOReadSize_pos, hspread.jobs⟩, ?_⟩
    rw [batchesFrom_close (Nat.not_lt.mp hfull), List.append_assoc, List.singleton_append]

/-- **The loop** puts all entries that are left into batches, in their order, and leaves one batch
open. -/
theorem run (hf : ctx.Filling rest closed cur) (hne : rest ≠ [])
    (hsizes : ∀ e ∈ rest, e.messageSize < 2 ^ 63) :
    ∃ ctx' closed' cur', LoopTo (fun _ => batchLoadStep) ctx ctx' ∧
      ctx'.Filling [] closed' cur' ∧
      closed' ++ batchesFrom Full cur' [] =
        closed ++ batchesFrom Full cur rest := by
  induction rest generalizing ctx closed cur with
  | nil => exact absurd rfl hne
  | cons x rest ih =>
    obtain ⟨ctx₁, closed₁, cur₁, hstep, hf₁, hbatches₁⟩ :=
      hf.step (hsizes x (List.mem_cons_self ..))
    by_cases hrest : rest = []
    · subst hrest
      exact ⟨ctx₁, closed₁, cur₁, LoopTo.done (Converges.const hstep), hf₁, hbatches₁⟩
    · rw [if_neg hrest] at hstep
      obtain ⟨ctx', closed', cur', hloop, hf', hbatches⟩ :=
        ih hf₁ hrest fun e he => hsizes e (List.mem_cons_of_mem _ he)
      exact ⟨ctx', closed', cur', LoopTo.step (Converges.const hstep) hloop, hf',
        hbatches.trans hbatches₁⟩

end BatchCtx.Filling

/-- The batches that are enqueued are those the entries are put into, in this order. -/
theorem mboxIdxBatchLoad_spec {lists : Lists MboxIdxOffset} {entries : List MboxIdxOffset}
    {addr : ℕ → List ℕ} (hhold : lists.Hold (numbered [entries]) addr) (hne : entries ≠ [])
    (hvalid : ∀ e ∈ entries, e.Valid) :
    ∃ lists' addr' L, Converges (fun n => mboxIdxBatchLoad n lists)
        (lists', List.range' 1 (idxBatches entries).length) ∧
      lists'.Hold (numbered ([] :: (idxBatches entries ++ L))) addr' := by
  have hsizes : ∀ e ∈ entries, e.messageSize < 2 ^ 63 := by
    intro e he
    rw [(hvalid e he).messageSize_eq]
    exact Nat.lt_of_le_of_lt (Nat.sub_le _ _) (hvalid e he).lt
  have hstart := BatchCtx.Spread.start hhold
  have hf : BatchCtx.Filling ⟨lists.set lists.heap 1 (some mboxListNew), 1, 0, []⟩ entries [] [] :=
    ⟨hstart.hold, hstart.batch, rfl, mboxIOReadSize_pos, hstart.jobs⟩
  obtain ⟨ctx, closed, cur, hloop, hf', hbatches⟩ := hf.run hne hsizes
  have hall : idxBatches entries = closed ++ if cur = [] then [] else [cur] := hbatches.symm
  obtain ⟨addr', L, hrun, hhold'⟩ := hf'.spread.finish hloop hall
  exact ⟨ctx.lists, addr', L, hrun, hhold'⟩

/-! ## One batch -/

/-- Where a message is, as an entry of the index. -/
def MboxMsgLite.entry (msg : MboxMsgLite) : MboxIdxOffset := ⟨msg.startOffset, msg.endOffset⟩

/-- The call does not fail, and gives no more than what is asked for. -/
def Pread.Reads (pread : Pread) : Prop :=
  ∀ size offset, ∃ bytes, pread size offset = some bytes ∧ bytes.length ≤ size

theorem preadRegular_reads (file : List MboxChar) : (preadRegular file).Reads :=
  fun size _ => ⟨_, rfl, List.length_take_le size _⟩

/-- Every entry begins in the block that is allocated for the batch, which has ten bytes more
than are read. -/
def IdxReadable (b : List MboxIdxOffset) : Prop :=
  ∀ first ∈ b.head?, ∀ last ∈ b.getLast?, first.startOffset ≤ last.endOffset ∧
    ∀ e ∈ b, first.startOffset ≤ e.startOffset ∧ e.startOffset ≤ last.endOffset + 10

/-- Entries in the order of where they start are readable. -/
theorem idxReadable_of_pairwise {b : List MboxIdxOffset} (hvalid : ∀ e ∈ b, e.Valid)
    (hsorted : b.Pairwise fun e e' => e.startOffset ≤ e'.startOffset) : IdxReadable b := by
  intro first hfirst last hlast
  have hbegin : ∀ e ∈ b, first.startOffset ≤ e.startOffset := by
    obtain ⟨rest, rfl⟩ := List.head?_eq_some_iff.mp hfirst
    intro e he
    rcases List.mem_cons.mp he with rfl | he
    · exact le_refl _
    · exact (List.pairwise_cons.mp hsorted).1 e he
  have hend : ∀ e ∈ b, e.startOffset ≤ last.endOffset := by
    obtain ⟨ys, rfl⟩ := List.getLast?_eq_some_iff.mp hlast
    have hle := (hvalid last (by simp)).le
    intro e he
    rcases List.mem_append.mp he with he | he
    · exact ((List.pairwise_append.mp hsorted).2.2 e he last (by simp)).trans hle
    · rwa [List.mem_singleton.mp he]
  exact ⟨hend first (List.mem_of_mem_head? hfirst),
    fun e he => ⟨hbegin e he, (hend e he).trans (Nat.le_add_right _ _)⟩⟩

section Jobs

variable {fill : ℕ → MboxChar} {dateToUnix : List MboxChar → Exec (Option Int)} {pread : Pread}

/-- A message is made of every entry of the batch, as it is found in what is read. -/
def EntriesParse (fill : ℕ → MboxChar) (dateToUnix : List MboxChar → Exec (Option Int))
    (pread : Pread) (b : List MboxIdxOffset) : Prop :=
  ∀ first ∈ b.head?, ∀ last ∈ b.getLast?, ∀ buf,
    readBatch fill pread first.startOffset ((last.endOffset : Int) - first.startOffset) = ok buf →
    ∀ e ∈ b, ∀ tmp, entryBuf buf first.startOffset e = ok tmp →
      ∃ n msg, mboxMsgLiteFromBuffer fill dateToUnix n tmp e.startOffset e.endOffset = ok msg

/-- A block is read for a batch, with room for ten bytes more. -/
theorem readBatch_spec (fill : ℕ → MboxChar) (hpread : pread.Reads) {diff stop : ℕ}
    (h : diff ≤ stop) :
    ∃ buf, readBatch fill pread diff ((stop : Int) - diff) = ok buf ∧
      buf.length = stop - diff + 10 := by
  obtain ⟨bytes, hbytes, hlen⟩ := hpread (stop - diff) diff
  have hsize : (stop : Int) - diff = Int.ofNat (stop - diff) := by
    rw [Int.ofNat_eq_natCast, Nat.cast_sub h]
  have hblock : (resize fill [] (stop - diff + 10)).length = stop - diff + 10 := length_resize ..
  have hroom : 0 + bytes.length ≤ (resize fill [] (stop - diff + 10)).length := by omega
  obtain ⟨buf, hstore, hbuf⟩ := storeBytes_of_le hroom
  have hlt : bytes.length < buf.length := by omega
  obtain ⟨buf', hnul, hbuf'⟩ := store_of_lt hlt nul
  refine ⟨buf', ?_, by rw [hbuf', hbuf, hblock]⟩
  simp only [hsize, readBatch, hbytes, hstore, hnul, ok_bind]

/-- The lists are the deques `d`, and there are the messages `ms` so far. -/
structure IdxCtx.Holds (ctx : IdxCtx) (d : Deques MboxIdxOffset) (ms : List MboxMsgLite) :
    Prop where
  lists : ∃ addr, ctx.lists.Hold d addr
  msgs : ctx.msgs.Holds ctx.heap ms
  unlocked : ctx.msgs.locked = false

variable {ctx : IdxCtx} {d : Deques MboxIdxOffset} {ms : List MboxMsgLite} {batch diff : ℕ}
  {buf : List MboxChar} {e : MboxIdxOffset} {b : List MboxIdxOffset}

/-- **An iteration** adds one message to the list, that of the first entry that is left in the
batch, and takes the entry off. -/
theorem getMessagesStep_spec (hc : ctx.Holds d ms) (hd : d batch = some (e :: b))
    {tmp : MboxBuf} (htmp : entryBuf buf diff e = ok tmp)
    (hparse : ∃ n msg,
      mboxMsgLiteFromBuffer fill dateToUnix n tmp e.startOffset e.endOffset = ok msg) :
    ∃ ctx' msg, Converges (fun n => getMessagesStep fill dateToUnix n batch buf diff ctx)
        (if b = [] then .inr ctx' else .inl ctx') ∧
      ctx'.Holds (d.set batch (some b)) (ms ++ [msg]) ∧
      Converges (fun n => mboxMsgLiteFromBuffer fill dateToUnix n tmp e.startOffset e.endOffset)
        msg := by
  obtain ⟨addr, hhold⟩ := hc.lists
  obtain ⟨lists, addr', hremove, hhold'⟩ := hhold.removeHead hd
  obtain ⟨n, msg, hmsg⟩ := hparse
  obtain ⟨heap, msgs, hadd, hmsgs, hfree⟩ := mboxListAddTail_spec msg
    (l := { ctx.msgs with locked := true }) hc.msgs
  have hset : (d.set batch (some b)) batch = some b := Function.update_self ..
  obtain ⟨l, hget, hat⟩ := hhold'.get_eq hset
  have hlen : l.len = b.length := hat.len
  have hts : mboxListTSAddTail ctx.heap ctx.msgs msg = ok (heap, mboxListUnlock msgs) := by
    rw [mboxListTSAddTail, mboxListLock, hc.unlocked, if_neg Bool.false_ne_true, ok_bind, hadd]
    rfl
  refine ⟨⟨lists, heap, mboxListUnlock msgs⟩, msg, ?_, ⟨⟨addr', hhold'⟩, hmsgs, rfl⟩,
    (mboxMsgLiteFromBuffer_mono tmp _ _).converges hmsg⟩
  · refine ⟨n, fun m hm => ?_⟩
    have hmsg' : mboxMsgLiteFromBuffer fill dateToUnix m tmp e.startOffset e.endOffset = ok msg :=
      mboxMsgLiteFromBuffer_mono tmp _ _ hm hmsg
    simp only [getMessagesStep, hremove, List.head?_cons, htmp, hmsg', hts, hget, hlen, ok_bind,
      pure_eq]
    by_cases hb : b = []
    · rw [if_pos hb, hb]
      rfl
    · rw [if_neg hb, if_pos (List.length_pos_iff.mpr hb)]

/-- **The loop** adds one message for each entry of the batch, in the order of the entries. -/
theorem getMessages_loop (hc : ctx.Holds d ms) (hd : d batch = some b) (hne : b ≠ [])
    (hparse : ∀ e ∈ b, ∃ tmp, entryBuf buf diff e = ok tmp ∧ ∃ n msg,
      mboxMsgLiteFromBuffer fill dateToUnix n tmp e.startOffset e.endOffset = ok msg) :
    ∃ ctx' new, LoopTo (fun n => getMessagesStep fill dateToUnix n batch buf diff) ctx ctx' ∧
      ctx'.Holds (d.set batch (some [])) (ms ++ new) ∧
      List.Forall₂ (fun e msg => ∃ tmp, entryBuf buf diff e = ok tmp ∧
        Converges (fun n => mboxMsgLiteFromBuffer fill dateToUnix n tmp e.startOffset e.endOffset)
          msg) b new := by
  induction b generalizing ctx d ms with
  | nil => exact absurd rfl hne
  | cons e b ih =>
    obtain ⟨tmp, htmp, hmsg⟩ := hparse e (List.mem_cons_self ..)
    obtain ⟨ctx₁, msg, hstep, hc₁, hmsg₁⟩ := getMessagesStep_spec hc hd htmp hmsg
    by_cases hb : b = []
    · subst hb
      exact ⟨ctx₁, [msg], LoopTo.done hstep, hc₁,
        List.Forall₂.cons ⟨tmp, htmp, hmsg₁⟩ List.Forall₂.nil⟩
    · simp only [if_neg hb] at hstep
      obtain ⟨ctx', new, hloop, hc', hmsgs⟩ := ih hc₁ (Function.update_self ..) hb
        fun e' he' => hparse e' (List.mem_cons_of_mem _ he')
      refine ⟨ctx', msg :: new, LoopTo.step hstep hloop, ?_,
        List.Forall₂.cons ⟨tmp, htmp, hmsg₁⟩ hmsgs⟩
      rwa [Deques.set, Deques.set, Function.update_idem, List.append_assoc] at hc'

/-- The messages of the entries are where the entries say. -/
theorem map_entry_of_idxMessage {new : List MboxMsgLite} {es : List MboxIdxOffset}
    (h : List.Forall₂ (fun e msg => Converges (idxMessage fill dateToUnix pread b e) msg) es new) :
    new.map MboxMsgLite.entry = es := by
  induction h with
  | nil => rfl
  | @cons e msg es new hmsg _ ih =>
    obtain ⟨n, hmsg⟩ := hmsg.exists_ok
    have hentry : msg.entry = e := by
      rw [idxMessage] at hmsg
      split at hmsg
      · obtain ⟨buf, -, hmsg⟩ := bind_eq_ok hmsg
        obtain ⟨tmp, -, hmsg⟩ := bind_eq_ok hmsg
        obtain ⟨hstart, hend⟩ := mboxMsgLiteFromBuffer_offsets hmsg
        rw [MboxMsgLite.entry, hstart, hend]
      · cases hmsg
    rw [List.map_cons, hentry, ih]

/-- **A job** adds one message for each entry of its batch, which is gone afterwards. -/
theorem mboxIdxGetMessages_spec (hc : ctx.Holds d ms) (hd : d batch = some b) (hne : b ≠ [])
    (hpread : pread.Reads) (hreadable : IdxReadable b)
    (hparse : EntriesParse fill dateToUnix pread b) :
    ∃ ctx' new, Converges (fun n => mboxIdxGetMessages fill dateToUnix pread n ctx batch) ctx' ∧
      ctx'.Holds (d.set batch none) (ms ++ new) ∧
      List.Forall₂ (fun e msg => Converges (idxMessage fill dateToUnix pread b e) msg) b new := by
  obtain ⟨addr, hhold⟩ := hc.lists
  obtain ⟨l, hget, hat⟩ := hhold.get_eq hd
  have hpos := List.length_pos_iff.mpr hne
  have hroot := Heap.load_eq (hat.ring.get_lt hpos)
  have hlast := Heap.load_eq (hat.ring.get_lt (i := b.length - 1) (by omega))
  have hprev : prevAt (addr batch) 0 = (addr batch)[b.length - 1]? := by
    rw [prevAt, if_pos rfl, hat.ring.length]
  rw [← hprev] at hlast
  rw [← hat.root] at hroot
  have hfirst : b[0] ∈ b.head? := by
    rw [List.head?_eq_getElem?]
    exact List.getElem?_eq_getElem hpos
  have hlast' : b[b.length - 1] ∈ b.getLast? := by
    rw [List.getLast?_eq_getElem?]
    exact List.getElem?_eq_getElem _
  obtain ⟨hsize, hinside⟩ := hreadable b[0] hfirst b[b.length - 1] hlast'
  obtain ⟨buf, hread, hbuf⟩ := readBatch_spec fill hpread hsize
  -- every entry is in the block, so the job comes to no fault
  have hmsgs : ∀ e ∈ b, ∃ tmp, entryBuf buf b[0].startOffset e = ok tmp ∧ ∃ n msg,
      mboxMsgLiteFromBuffer fill dateToUnix n tmp e.startOffset e.endOffset = ok msg := by
    intro e he
    obtain ⟨hbegin, hend⟩ := hinside e he
    have htmp : entryBuf buf b[0].startOffset e = ok _ := if_pos ⟨hbegin, by omega⟩
    exact ⟨_, htmp, hparse b[0] hfirst b[b.length - 1] hlast' buf hread e he _ htmp⟩
  obtain ⟨ctx₁, new, hloop, hc₁, hmade⟩ := getMessages_loop hc hd hne hmsgs
  obtain ⟨addr₁, hhold₁⟩ := hc₁.lists
  have hdrop := hhold₁.drop batch
  rw [Deques.set, Deques.set, Function.update_idem] at hdrop
  refine ⟨{ ctx₁ with lists := ctx₁.lists.set ctx₁.lists.heap batch none }, new, ?_,
    ⟨⟨_, hdrop⟩, hc₁.msgs, hc₁.unlocked⟩, hmade.imp fun e msg hmade => ?_⟩
  · obtain ⟨N, hN⟩ := hloop.converges
    refine ⟨N, fun n hn => ?_⟩
    simp only [mboxIdxGetMessages, hget, hroot, hlast, hread, hN n hn, ok_bind, pure_eq]
  · obtain ⟨tmp, htmp, hmsg⟩ := hmade
    refine Converges.congr (fun n => ?_) hmsg
    simp only [idxMessage, Option.mem_def.1 hfirst, Option.mem_def.1 hlast', hread, htmp, ok_bind]

/-- **The jobs**, in any order: each makes the messages of its own batch, and the list of messages
has those of all jobs in the end. -/
theorem runJobs_spec {jobs : List ℕ} {B : ℕ → List MboxIdxOffset} (hc : ctx.Holds d ms)
    (hnodup : jobs.Nodup) (hd : ∀ i ∈ jobs, d i = some (B i)) (hne : ∀ i ∈ jobs, B i ≠ [])
    (hpread : pread.Reads) (hreadable : ∀ i ∈ jobs, IdxReadable (B i))
    (hparse : ∀ i ∈ jobs, EntriesParse fill dateToUnix pread (B i)) :
    ∃ ctx' d' new, Converges (fun n => runJobs fill dateToUnix pread n jobs ctx) ctx' ∧
      ctx'.Holds d' (ms ++ new) ∧ new.map MboxMsgLite.entry = jobs.flatMap B := by
  induction jobs generalizing ctx d ms with
  | nil => exact ⟨ctx, d, [], Converges.const rfl, by rwa [List.append_nil], rfl⟩
  | cons i jobs ih =>
    obtain ⟨hi, hnodup⟩ := List.nodup_cons.mp hnodup
    have hmem := List.mem_cons_self (a := i) (l := jobs)
    obtain ⟨ctx₁, new₁, hrun₁, hc₁, hmade⟩ := mboxIdxGetMessages_spec hc (hd i hmem)
      (hne i hmem) hpread (hreadable i hmem) (hparse i hmem)
    have hentries₁ := map_entry_of_idxMessage hmade
    have hd₁ : ∀ j ∈ jobs, (d.set i none) j = some (B j) := by
      intro j hj
      have hji : j ≠ i := fun h => hi (h ▸ hj)
      rw [Deques.set, Function.update_of_ne hji]
      exact hd j (List.mem_cons_of_mem _ hj)
    obtain ⟨ctx', d', new, hrun, hc', hentries⟩ := ih hc₁ hnodup hd₁
      (fun j hj => hne j (List.mem_cons_of_mem _ hj))
      (fun j hj => hreadable j (List.mem_cons_of_mem _ hj))
      (fun j hj => hparse j (List.mem_cons_of_mem _ hj))
    refine ⟨ctx', d', new₁ ++ new, ?_, ?_, ?_⟩
    · exact Converges.congr (fun n => List.foldlM_cons) (hrun₁.bind hrun)
    · rwa [← List.append_assoc]
    · rw [List.map_append, hentries₁, hentries, List.flatMap_cons]

variable {bs L : List (List MboxIdxOffset)} {jobs : List ℕ}

/-- The list with a number is the batch of that number. -/
theorem exists_batch (L : List (List MboxIdxOffset)) {i : ℕ} (hi : i ∈ List.range' 1 bs.length) :
    numbered ([] :: (bs ++ L)) i = some (bs[i - 1]?.getD []) ∧ bs[i - 1]?.getD [] ∈ bs := by
  obtain ⟨k, hk, rfl⟩ := List.mem_range'.mp hi
  have hb : bs[k]? = some bs[k] := List.getElem?_eq_getElem hk
  rw [Nat.one_mul, Nat.add_sub_cancel_left, hb, Option.getD_some, numbered, Nat.add_comm 1 k,
    List.getElem?_cons_succ, List.getElem?_append_left hk]
  exact ⟨hb, List.getElem_mem hk⟩

/-- The batches by their numbers are all batches. -/
theorem flatMap_batches (bs : List (List MboxIdxOffset)) :
    (List.range' 1 bs.length).flatMap (fun i => bs[i - 1]?.getD []) = bs.flatten := by
  rw [List.flatMap_def]
  congr 1
  refine List.ext_getElem (by simp) fun k hk hk' => ?_
  rw [List.getElem_map, List.getElem_range', Nat.one_mul, Nat.add_sub_cancel_left,
    List.getElem?_eq_getElem hk', Option.getD_some]

/-- The jobs of all batches, in any order, make the messages of all entries. -/
theorem runJobs_batches (hc : ctx.Holds (numbered ([] :: (bs ++ L))) ms)
    (hjobs : jobs.Perm (List.range' 1 bs.length)) (hne : ∀ b ∈ bs, b ≠ []) (hpread : pread.Reads)
    (hreadable : ∀ b ∈ bs, IdxReadable b)
    (hparse : ∀ b ∈ bs, EntriesParse fill dateToUnix pread b) :
    ∃ ctx' d' new, Converges (fun n => runJobs fill dateToUnix pread n jobs ctx) ctx' ∧
      ctx'.Holds d' (ms ++ new) ∧ (new.map MboxMsgLite.entry).Perm bs.flatten := by
  have hB : ∀ i ∈ jobs, numbered ([] :: (bs ++ L)) i = some (bs[i - 1]?.getD []) ∧
      bs[i - 1]?.getD [] ∈ bs := fun i hi => exists_batch L (hjobs.mem_iff.mp hi)
  have hnodup : jobs.Nodup := hjobs.nodup_iff.mpr List.nodup_range'
  obtain ⟨ctx', d', new, hrun, hc', hentries⟩ := runJobs_spec hc hnodup (fun i hi => (hB i hi).1)
    (fun i hi => hne _ (hB i hi).2) hpread (fun i hi => hreadable _ (hB i hi).2)
    (fun i hi => hparse _ (hB i hi).2)
  refine ⟨ctx', d', new, hrun, hc', ?_⟩
  rw [hentries, ← flatMap_batches bs]
  exact hjobs.flatMap_right _

end Jobs

/-! ## The whole index -/

/-- Any entries can be in the list of entries. -/
theorem exists_indexes (entries : List MboxIdxOffset) :
    ∃ (lists : Lists MboxIdxOffset) (addr : ℕ → List ℕ), lists.Hold (numbered [entries]) addr := by
  induction entries using List.reverseRecOn with
  | nil =>
    have hnew := (Lists.empty_hold (D := MboxIdxOffset)).new 0
    have hempty : (Deques.empty : Deques MboxIdxOffset) = numbered [] := rfl
    rw [hempty, show (0 : ℕ) = ([] : List (List MboxIdxOffset)).length from rfl,
      numbered_concat] at hnew
    exact ⟨_, _, hnew⟩
  | append_singleton entries e ih =>
    obtain ⟨lists, addr, hhold⟩ := ih
    obtain ⟨lists', addr', -, hadd⟩ := hhold.addTail (i := 0) rfl e
    rw [numbered_set (Nat.succ_pos _), List.set_cons_zero] at hadd
    exact ⟨lists', addr', hadd⟩

/-- The batches are in the lists behind that of all entries. -/
theorem Lists.Hold.batches {lists : Lists MboxIdxOffset} {addr : ℕ → List ℕ}
    {bs L : List (List MboxIdxOffset)} (hhold : lists.Hold (numbered ([] :: (bs ++ L))) addr) :
    List.Forall₂ (fun i b => ∃ l, lists.list i = some l ∧ IsDeque lists.heap l b)
      (List.range' 1 bs.length) bs := by
  rw [List.forall₂_iff_get]
  refine ⟨List.length_range', fun k hk hk' => ?_⟩
  have hb : numbered ([] :: (bs ++ L)) (k + 1) = some (bs.get ⟨k, hk'⟩) := by
    rw [numbered, List.getElem?_cons_succ, List.getElem?_append_left hk',
      List.getElem?_eq_getElem hk', List.get_eq_getElem]
  obtain ⟨l, hl, hat⟩ := hhold.held _ _ hb
  rw [List.get_eq_getElem, List.getElem_range', Nat.one_mul, Nat.add_comm 1 k]
  exact ⟨l, hl, hat.isDeque⟩

/-- **Loading covers every entry once**: the batches cut the list of entries, and the jobs,
whatever their order, make one message of each entry that lies in what is read for its
batch. -/
theorem mboxIdxBatchLoad_covers {lists : Lists MboxIdxOffset} {entries : List MboxIdxOffset}
    {addr : ℕ → List ℕ} (hhold : lists.Hold (numbered [entries]) addr) (hne : entries ≠ [])
    (hvalid : ∀ e ∈ entries, e.Valid) :
    ∃ lists' jobs, Converges (fun n => mboxIdxBatchLoad n lists) (lists', jobs) ∧
      List.Forall₂ (fun i b => ∃ l, lists'.list i = some l ∧ IsDeque lists'.heap l b) jobs
        (idxBatches entries) ∧
      (idxBatches entries).flatten = entries ∧ (∀ b ∈ idxBatches entries, b ≠ []) ∧
      (∀ b ∈ (idxBatches entries).dropLast, mboxIOReadSize ≤ totalSize b) ∧
      (∀ b ∈ idxBatches entries, totalSize b.dropLast < mboxIOReadSize) ∧
      ((entries.Pairwise fun e e' => e.startOffset ≤ e'.startOffset) →
        ∀ b ∈ idxBatches entries, IdxReadable b) ∧
      ∀ (fill : ℕ → MboxChar) (dateToUnix : List MboxChar → Exec (Option Int)) (pread : Pread)
        (heap : Heap (MboxLNode MboxMsgLite)) (msgs : MboxList) (old : List MboxMsgLite),
        msgs.Holds heap old → msgs.locked = false → pread.Reads →
        (∀ b ∈ idxBatches entries, IdxReadable b) →
        (∀ b ∈ idxBatches entries, EntriesParse fill dateToUnix pread b) →
        ∀ order : List ℕ, order.Perm jobs → ∃ ctx new,
          Converges (fun n => runJobs fill dateToUnix pread n order ⟨lists', heap, msgs⟩) ctx ∧
          IsDeque ctx.heap ctx.msgs (old ++ new) ∧
          (new.map MboxMsgLite.entry).Perm entries := by
  obtain ⟨lists', addr', L, hrun, hhold'⟩ := mboxIdxBatchLoad_spec hhold hne hvalid
  have hbatching : IsBatching Full entries (idxBatches entries) := isBatching_batches entries
  refine ⟨lists', _, hrun, hhold'.batches, hbatching.flatten, hbatching.ne_nil, hbatching.closed,
    fun b hb => totalSize_dropLast_lt hbatching hb, fun hsorted b hb => ?_, ?_⟩
  · exact idxReadable_of_pairwise (fun e he => hvalid e (hbatching.mem hb he))
      (hbatching.pairwise hsorted hb)
  · intro fill dateToUnix pread heap msgs old hmsgs hunlocked hpread hreadable hparse order hperm
    have hctx : IdxCtx.Holds ⟨lists', heap, msgs⟩ _ old := ⟨⟨addr', hhold'⟩, hmsgs, hunlocked⟩
    obtain ⟨ctx, d', new, hjobs, hctx', hentries⟩ :=
      runJobs_batches hctx hperm hbatching.ne_nil hpread hreadable hparse
    obtain ⟨ps, hat⟩ := MboxList.holds_iff.mp hctx'.msgs
    rw [hbatching.flatten] at hentries
    exact ⟨ctx, new, hjobs, hat.isDeque, hentries⟩

/-- A header with no name, an empty line and a body of the length of a preview. -/
def shortMsg : List MboxChar := [colon, 120, nl, nl] ++ List.replicate 420 65

/-- The entries of an index of a file with two messages. -/
def twoEntries : List MboxIdxOffset := [⟨0, 424⟩, ⟨424, 848⟩]

theorem valid_twoEntries : ∀ e ∈ twoEntries, e.Valid := by
  intro e he
  rcases List.mem_cons.mp he with rfl | he
  · exact ⟨by decide, by decide⟩
  · rw [List.mem_singleton.mp he]
    exact ⟨by decide, by decide⟩

theorem sorted_twoEntries : twoEntries.Pairwise fun e e' => e.startOffset ≤ e'.startOffset := by
  decide

theorem idxBatches_twoEntries : idxBatches twoEntries = [twoEntries] := by decide

/-- A message can be made of either of them. -/
theorem entriesParse_twoEntries : ∀ b ∈ idxBatches twoEntries,
    EntriesParse (fun _ => nul) (fun _ => ok none) (preadRegular (shortMsg ++ shortMsg)) b := by
  have hblock : readBatch (fun _ => nul) (preadRegular (shortMsg ++ shortMsg)) 0
      (((848 : ℕ) : Int) - (0 : ℕ)) = ok (shortMsg ++ shortMsg ++ List.replicate 10 nul) := by
    decide +kernel
  have hparse : ∀ e ∈ twoEntries, ∀ tmp,
      entryBuf (shortMsg ++ shortMsg ++ List.replicate 10 nul) 0 e = ok tmp →
      (mboxMsgLiteFromBuffer (fun _ => nul) (fun _ => ok none) 5 tmp e.startOffset
        e.endOffset).isOk = true := by
    intro e he tmp htmp
    have hentry : entryBuf (shortMsg ++ shortMsg ++ List.replicate 10 nul) 0 e =
        ok ⟨(shortMsg ++ shortMsg ++ List.replicate 10 nul).drop e.startOffset, 0, 424, 0⟩ := by
      rcases List.mem_cons.mp he with rfl | he
      · decide +kernel
      · rw [List.mem_singleton.mp he]
        decide +kernel
    obtain rfl := Exec.ok.inj (hentry.symm.trans htmp)
    rcases List.mem_cons.mp he with rfl | he
    · decide +kernel
    · rw [List.mem_singleton.mp he]
      decide +kernel
  rw [idxBatches_twoEntries]
  intro b hb first hfirst last hlast buf hread e he tmp htmp
  obtain rfl := List.mem_singleton.mp hb
  obtain rfl := Option.some.inj hfirst
  obtain rfl := Option.some.inj hlast
  obtain rfl := Exec.ok.inj (hblock.symm.trans hread)
  exact ⟨5, exists_of_isOk (hparse e he tmp htmp)⟩

/-- An index of two entries, both of which are read with one block. -/
theorem mboxIdxBatchLoad_covers_twoEntries :
    ∃ lists lists' jobs ctx new, ∃ addr : ℕ → List ℕ,
      lists.Hold (numbered [twoEntries]) addr ∧
      Converges (fun n => mboxIdxBatchLoad n lists) (lists', jobs) ∧
      Converges (fun n => runJobs (fun _ => nul) (fun _ => ok none)
        (preadRegular (shortMsg ++ shortMsg)) n jobs ⟨lists', Heap.empty, mboxListNew⟩) ctx ∧
      IsDeque ctx.heap ctx.msgs new ∧ (new.map MboxMsgLite.entry).Perm twoEntries := by
  obtain ⟨lists, addr, hhold⟩ := exists_indexes twoEntries
  obtain ⟨lists', jobs, hload, -, -, -, -, -, hsorted, hjobs⟩ := mboxIdxBatchLoad_covers hhold
    (List.cons_ne_nil _ _) valid_twoEntries
  have hmsgs : mboxListNew.Holds (Heap.empty : Heap (MboxLNode MboxMsgLite)) [] :=
    MboxList.holds_iff.mpr ⟨_, mboxListNew_at Heap.empty⟩
  obtain ⟨ctx, new, hrun, hdeque, hperm⟩ := hjobs (fun _ => nul) (fun _ => ok none)
    (preadRegular (shortMsg ++ shortMsg)) Heap.empty mboxListNew [] hmsgs rfl
    (preadRegular_reads _) (hsorted sorted_twoEntries) entriesParse_twoEntries jobs
    (List.Perm.refl _)
  exact ⟨lists, lists', jobs, ctx, new, addr, hhold, hload, hrun, hdeque, hperm⟩

/-- The entries are not in the order of where they start: there is no room for the first one
in what is read for their batch. -/
theorem unordered_notCovered :
    ∃ lists lists', Lists.empty.run [.new 0, .addTail 0 ⟨10, 20⟩, .addTail 0 ⟨0, 5⟩] =
        ok ([none, none, none], lists) ∧
      mboxIdxBatchLoad 3 lists = ok (lists', [1]) ∧
      ∀ fill dateToUnix pread n heap msgs,
        runJobs fill dateToUnix pread n [1] ⟨lists', heap, msgs⟩ = fault :=
  ⟨_, _, rfl, rfl, fun _ _ _ _ _ _ => rfl⟩

end Libmbox2
