import Libmbox2.Batching
import Libmbox2.Decimal
import Libmbox2.Io
import Libmbox2.Deque
import Libmbox2.ListSort
import Libmbox2.MsgLite

/-!
# Saving an index (`mboxIdxSave`)

The messages are sorted by where they start, and a line is written for each: its start and its
end. The lines are collected in a buffer, which is written and emptied where the bytes in it
are a multiple of `BUFSIZ`, and at the end. So they are written in batches (`saveChunks`), and
what the file holds in the end only depends on what the calls of `pwrite` and `fsync` give for
each of them (`writeChunks`).

The buffer is emptied whatever part of it was written, and a file that cannot be opened is no
error: a save that succeeds may leave an index that is not complete.
-/

namespace Libmbox2

open CSem CSem.Exec

/-- `MBOX_IO_WRITE_ERR`, a write that failed. -/
abbrev mboxIOWriteErr : Int := -3

/-- `MBOX_IO_NO_WRITE`, a write with nothing to write. -/
abbrev mboxIONoWrite : Int := -4

/-- `MBOX_IO_FSYNC_ERR`, a write that did not reach the disk. -/
abbrev mboxIOFsyncErr : Int := -5

/-- What the system calls of a save give: whether the file can be opened, and what every `pwrite`
and `fsync` does. -/
structure SaveCalls where
  /-- the file can be opened -/
  openOk : Bool
  fstatOk : Bool
  /-- how many bytes the `k`-th call writes that is given some, `none` on failure -/
  pwrite : ℕ → ℕ → Option ℕ
  /-- the `k`-th call succeeds -/
  fsync : ℕ → Bool

/-- The file that is written, and how many calls were made for it. -/
structure IdxFile where
  bytes : List MboxChar
  /-- how many calls of `pwrite` there were -/
  writes : ℕ
  /-- how many calls of `fsync` there were -/
  syncs : ℕ

/-- Bytes are written over those that are there; a gap is filled with NULs. -/
def writeAt (file : List MboxChar) (offset : ℕ) (bytes : List MboxChar) : List MboxChar :=
  file.take offset ++ List.replicate (offset - file.length) nul ++ bytes ++
    file.drop (offset + bytes.length)

section Functions

variable (io : SaveCalls) (file : IdxFile) (ioctx : MboxIOCtx)

/-- `mboxIOWrite`: as much is written to the file as `pwrite` writes, which may be less than the
buffer has; nothing and a failure are errors. -/
def mboxIOWrite (buf : List MboxChar) (size offset : ℕ) : Exec (Int × IdxFile × MboxIOCtx) := do
  let bytes ← loadBytes buf 0 size
  let writes := file.writes + 1
  match io.pwrite file.writes size with
  | none => pure (-1, { file with writes }, { ioctx with err := mboxIOWriteErr })
  | some 0 => pure (0, { file with writes }, { ioctx with err := mboxIONoWrite })
  | some (w + 1) =>
    let bytes := writeAt file.bytes offset (bytes.take (w + 1))
    pure ((w + 1 : ℕ), { file with bytes, writes }, ioctx)

/-- `mboxIOWriteBuf`: the bytes of the context's buffer are written. -/
def mboxIOWriteBuf (size offset : ℕ) : Exec (Int × IdxFile × MboxIOCtx) :=
  mboxIOWrite io file ioctx ioctx.buf.data size offset

/-- `mboxIOFsync`: the file is flushed to the disk, and the error field says how that went. -/
def mboxIOFsync : IdxFile × MboxIOCtx :=
  ({ file with syncs := file.syncs + 1 },
    { ioctx with err := if io.fsync file.syncs then mboxIOOk else mboxIOFsyncErr })

/-- `mboxIdxTryWrite`: the buffer is written and flushed, and emptied when there was no error.
Whether all of it was written is not asked. The error is returned, `0` if there is none. -/
def mboxIdxTryWrite : Exec (Int × IdxFile × MboxIOCtx) := do
  let (wbytes, file, ioctx) ← mboxIOWriteBuf io file ioctx ioctx.buf.len ioctx.fileOffset
  if ioctx.err ≠ mboxIOOk then pure (ioctx.err, file, ioctx)
  else
    let (file, ioctx) := mboxIOFsync io file ioctx
    if ioctx.err ≠ mboxIOOk then pure (ioctx.err, file, ioctx)
    else do
      let buf ← mboxBufSetLen ioctx.buf 0
      let fileOffset := ioctx.fileOffset + wbytes.toNat
      let fileSize := ioctx.fileSize + wbytes.toNat
      pure (mboxIOOk, file, { ioctx with fileOffset, fileSize, buf := mboxBufSetOffset buf 0 })

/-- The buffer is written where the condition holds, and nothing is done elsewhere. -/
def writeIf (b : Bool) : Exec (Int × IdxFile × MboxIOCtx) :=
  if b then mboxIdxTryWrite io file ioctx else pure (mboxIOOk, file, ioctx)

end Functions

/-- A `size_t` taken as an `ssize_t`, as the comparison of two messages takes their offsets. -/
def toSsize (n : ℕ) : Int := if n < 2 ^ 63 then n else n - 2 ^ 64

/-- `mboxListSortByStartOffset`: messages are compared by where they start. -/
def mboxListSortByStartOffset (d1 d2 : MboxMsgLite) : Int :=
  let start1 := toSsize d1.startOffset
  let start2 := toSsize d2.startOffset
  if start1 < start2 then -1 else if start1 = start2 then 0 else 1

/-- `"%zu %zu\n"`, the line of a message in the index. -/
def idxLine (msg : MboxMsgLite) : List MboxChar :=
  decimal msg.startOffset ++ space :: (decimal msg.endOffset ++ [nl])

/-- Where the loop of `mboxIdxSave` stands: the file, the buffer, the node of the list, and how many
messages it has gone over. -/
structure SaveCtx where
  file : IdxFile
  ioctx : MboxIOCtx
  node : Ptr
  count : ℕ

/-- What a save leaves: the code it returns, the file, and the list, which is sorted. -/
structure SaveResult where
  /-- what is returned -/
  ret : Int
  /-- what the index file holds -/
  file : List MboxChar
  heap : Heap (MboxLNode MboxMsgLite)
  list : MboxList

section Save

variable (fill : ℕ → MboxChar) (bufsiz : ℕ) (io : SaveCalls) (h : Heap (MboxLNode MboxMsgLite))

/-- It is left with an error, or with none where all messages are in the buffer. -/
def saveStep (ctx : SaveCtx) : Exec (SaveCtx ⊕ Int × SaveCtx) := do
  let node ← h.load ctx.node
  let buf ← mboxBufCatPrintf fill ctx.ioctx.buf (idxLine node.data)
  let (err, file, ioctx) ← writeIf io ctx.file { ctx.ioctx with buf } (buf.len % bufsiz = 0)
  let ctx := { ctx with file, ioctx }
  if err ≠ mboxIOOk then pure (.inr (err, ctx))
  else
    let ctx := { ctx with node := node.next, count := ctx.count - 1 }
    if 0 < ctx.count then pure (.inl ctx) else pure (.inr (mboxIOOk, ctx))

/-- What is left in the buffer is written behind the loop, unless there was an error. -/
def saveEnd : Int × SaveCtx → Exec (Int × IdxFile)
  | (err, ctx) =>
    if err ≠ mboxIOOk then pure (err, ctx.file)
    else do
      let (err, file, _) ← writeIf io ctx.file ctx.ioctx (0 < ctx.ioctx.buf.len)
      pure (err, file)

/-- `old` is what the file holds before; opening it empties it. `bufsiz` is `BUFSIZ`. -/
def mboxIdxSave (old : List MboxChar) (fuel : ℕ) (l : MboxList) : Exec SaveResult :=
  if l.len = 0 then pure ⟨0, old, h, l⟩
  else if !io.openOk then pure ⟨0, old, h, l⟩
  else if !io.fstatOk then pure ⟨0, [], h, l⟩
  else do
    let (h, l) ← mboxListQSort (some mboxListSortByStartOffset) fuel h l
    let r ← loop (saveStep fill bufsiz io h) fuel ⟨⟨[], 0, 0⟩, mboxIONew fill 0, l.root, l.len⟩
    let (ret, file) ← saveEnd io r
    pure ⟨ret, file.bytes, h, l⟩

end Save

/-! ## What is written -/

/-- The text of an index, a line for every message. -/
def idxText (msgs : List MboxMsgLite) : List MboxChar := (msgs.map idxLine).flatten

/-- The lines in the buffer are as long as a multiple of `BUFSIZ`, so they are written. -/
abbrev Flushes (bufsiz : ℕ) (lines : List (List MboxChar)) : Prop :=
  lines.flatten.length % bufsiz = 0

/-- What each call of `pwrite` is given, when all succeed. -/
def saveChunks (bufsiz : ℕ) (msgs : List MboxMsgLite) : List (List MboxChar) :=
  (batches (Flushes bufsiz) (msgs.map idxLine)).map List.flatten

section Chunks

variable (io : SaveCalls)

/-- The error and the bytes that are written of a chunk, which is the `k`-th. -/
def writeChunk (k : ℕ) (c : List MboxChar) : Int × List MboxChar :=
  match io.pwrite k c.length with
  | none => (mboxIOWriteErr, [])
  | some 0 => (mboxIONoWrite, [])
  | some (w + 1) => (if io.fsync k then mboxIOOk else mboxIOFsyncErr, c.take (w + 1))

/-- Chunks are written one behind the other up to an error: the code, and what is in the file
then. -/
def writeChunks (k : ℕ) : List (List MboxChar) → Int × List MboxChar
  | [] => (mboxIOOk, [])
  | c :: cs =>
    let r := writeChunk io k c
    if r.1 ≠ mboxIOOk then r
    else ((writeChunks (k + 1) cs).1, r.2 ++ (writeChunks (k + 1) cs).2)

end Chunks

/-- A call that does not fail writes some of the bytes it is given. -/
def SaveCalls.Valid (io : SaveCalls) : Prop :=
  ∀ k n w, io.pwrite k n = some w → 0 < w ∧ w ≤ n

/-- The offsets of a message are those of a `size_t`. -/
structure MboxMsgLite.Sized (msg : MboxMsgLite) : Prop where
  start : msg.startOffset < 2 ^ 64
  stop : msg.endOffset < 2 ^ 64

/-- The buffer holds `cur`, and the file is written as far as it goes. -/
structure SaveReady (ioctx : MboxIOCtx) (file : IdxFile) (cur : List MboxChar) : Prop where
  sound : ioctx.buf.Sound
  bytes : ioctx.buf.bytes = cur
  err : ioctx.err = mboxIOOk
  offset : ioctx.fileOffset = file.bytes.length
  syncs : file.syncs = file.writes

section Writes

variable {io : SaveCalls} {file : IdxFile} {ioctx : MboxIOCtx} {cur : List MboxChar}

/-- The buffer is as long as the text in it. -/
theorem SaveReady.len (hr : SaveReady ioctx file cur) : ioctx.buf.len = cur.length := by
  rw [← hr.bytes, MboxBuf.bytes, List.length_take_of_le hr.sound.room.le]

/-- Writing at the end of a file appends to it. -/
theorem writeAt_length (file bytes : List MboxChar) :
    writeAt file file.length bytes = file ++ bytes := by
  rw [writeAt, List.take_length, Nat.sub_self, List.replicate_zero, List.append_nil,
    List.drop_eq_nil_of_le (Nat.le_add_right _ _), List.append_nil]

/-- What is in the buffer goes behind the end of the file. -/
theorem mboxIdxTryWrite_spec (hio : io.Valid) (hr : SaveReady ioctx file cur) :
    ∃ file' ioctx', mboxIdxTryWrite io file ioctx =
        ok ((writeChunk io file.writes cur).1, file', ioctx') ∧
      file'.bytes = file.bytes ++ (writeChunk io file.writes cur).2 ∧
      ((writeChunk io file.writes cur).1 = mboxIOOk →
        file'.writes = file.writes + 1 ∧ SaveReady ioctx' file' []) := by
  have hload : loadBytes ioctx.buf.data 0 cur.length = ok cur := by
    rw [loadBytes, Nat.zero_add, ← hr.len, if_pos hr.sound.room.le, List.drop_zero]
    exact congrArg ok hr.bytes
  have hwriteErr : mboxIOWriteErr ≠ mboxIOOk := by decide
  have hnoWrite : mboxIONoWrite ≠ mboxIOOk := by decide
  have hfsyncErr : mboxIOFsyncErr ≠ mboxIOOk := by decide
  cases hw : io.pwrite file.writes cur.length with
  | none =>
    refine ⟨{ file with writes := file.writes + 1 }, { ioctx with err := mboxIOWriteErr }, ?_, ?_,
      ?_⟩
    · simp only [mboxIdxTryWrite, mboxIOWriteBuf, mboxIOWrite, hr.len, hload, hw, writeChunk,
        ok_bind, pure_eq, if_pos hwriteErr]
    · simp only [writeChunk, hw, List.append_nil]
    · simp only [writeChunk, hw]
      exact fun h => absurd h hwriteErr
  | some w =>
    cases w with
    | zero =>
      refine ⟨{ file with writes := file.writes + 1 }, { ioctx with err := mboxIONoWrite }, ?_, ?_,
        ?_⟩
      · simp only [mboxIdxTryWrite, mboxIOWriteBuf, mboxIOWrite, hr.len, hload, hw, writeChunk,
          ok_bind, pure_eq, if_pos hnoWrite]
      · simp only [writeChunk, hw, List.append_nil]
      · simp only [writeChunk, hw]
        exact fun h => absurd h hnoWrite
    | succ w =>
      have hwrite : writeAt file.bytes ioctx.fileOffset (cur.take (w + 1)) =
          file.bytes ++ cur.take (w + 1) := by rw [hr.offset, writeAt_length]
      have hlength : (cur.take (w + 1)).length = w + 1 :=
        List.length_take_of_le (hio _ _ _ hw).2
      have herr : ¬ ioctx.err ≠ mboxIOOk := not_not.mpr hr.err
      obtain ⟨buf, hset, hempty⟩ := mboxBufSetLen_zero hr.sound
      cases hf : io.fsync file.writes with
      | false =>
        -- written, but not synced
        have hf' : io.fsync file.syncs = false := by rw [hr.syncs, hf]
        refine ⟨⟨file.bytes ++ cur.take (w + 1), file.writes + 1, file.syncs + 1⟩,
          { ioctx with err := mboxIOFsyncErr }, ?_, ?_, ?_⟩
        · simp only [mboxIdxTryWrite, mboxIOWriteBuf, mboxIOWrite, mboxIOFsync, hr.len, hload, hw,
            hwrite, hf, hf', writeChunk, ok_bind, pure_eq, if_neg herr, Bool.false_eq_true,
            if_false, if_pos hfsyncErr]
        · simp only [writeChunk, hw]
        · simp only [writeChunk, hw, hf]
          exact fun h => absurd h hfsyncErr
      | true =>
        -- written and synced: the buffer is empty again
        have hf' : io.fsync file.syncs = true := by rw [hr.syncs, hf]
        refine ⟨⟨file.bytes ++ cur.take (w + 1), file.writes + 1, file.syncs + 1⟩,
          { ioctx with
            err := mboxIOOk, fileOffset := ioctx.fileOffset + ((w + 1 : ℕ) : Int).toNat,
            fileSize := ioctx.fileSize + ((w + 1 : ℕ) : Int).toNat,
            buf := mboxBufSetOffset buf 0 }, ?_, ?_,
          fun _ => ⟨rfl, ⟨hempty.capacity, ?_⟩, ?_, rfl, ?_, ?_⟩⟩
        · simp only [mboxIdxTryWrite, mboxIOWriteBuf, mboxIOWrite, mboxIOFsync, hr.len, hload, hw,
            hwrite, hf, hf', hset, writeChunk, ok_bind, pure_eq, if_neg herr, if_true, ne_eq,
            not_true_eq_false, if_false]
        · simp only [writeChunk, hw]
        · rw [hempty.len]
          exact List.length_pos_iff.mpr hempty.room
        · exact congrArg (List.take · buf.data) hempty.len
        · simp only [Int.toNat_natCast, hr.offset, List.length_append, hlength]
        · exact congrArg (· + 1) hr.syncs

end Writes

section Loop

variable {fill : ℕ → MboxChar} {bufsiz : ℕ} {io : SaveCalls} {h : Heap (MboxLNode MboxMsgLite)}
  {ps : List ℕ} {ctx : SaveCtx} {m : MboxMsgLite} {done rest : List MboxMsgLite}
  {cur : List (List MboxChar)}

/-- The chunks that are written for the messages, when `cur` is in the buffer already. -/
def chunksFrom (bufsiz : ℕ) (cur : List (List MboxChar)) (msgs : List MboxMsgLite) :
    List (List MboxChar) :=
  (batchesFrom (Flushes bufsiz) cur (msgs.map idxLine)).map List.flatten

/-- What a save ends in that has written `file` and has `cur` in the buffer. -/
def saveOutcome (io : SaveCalls) (bufsiz : ℕ) (file : IdxFile) (cur : List (List MboxChar))
    (msgs : List MboxMsgLite) : Int × List MboxChar :=
  ((writeChunks io file.writes (chunksFrom bufsiz cur msgs)).1,
    file.bytes ++ (writeChunks io file.writes (chunksFrom bufsiz cur msgs)).2)

/-- A line is short, so its length is no problem to an `int`. -/
theorem length_idxLine_lt (hm : m.Sized) : (idxLine m).length < 2 ^ 32 := by
  have hten : (2 : ℕ) ^ 64 < 10 ^ 20 := by decide
  have hstart := length_decimal_le (k := 20) (by decide) (hm.start.trans hten)
  have hstop := length_decimal_le (k := 20) (by decide) (hm.stop.trans hten)
  simp only [idxLine, List.length_append, List.length_cons, List.length_nil]
  omega

theorem idxLine_ne_nil (m : MboxMsgLite) : idxLine m ≠ [] :=
  List.append_ne_nil_of_right_ne_nil _ (List.cons_ne_nil _ _)

/-- The line of a message goes into the buffer, behind those that are in it. -/
theorem SaveReady.cat (fill : ℕ → MboxChar) {ioctx : MboxIOCtx} {file : IdxFile}
    (hr : SaveReady ioctx file cur.flatten) (hm : m.Sized) :
    ∃ buf, mboxBufCatPrintf fill ioctx.buf (idxLine m) = ok buf ∧
      SaveReady { ioctx with buf } file (cur ++ [idxLine m]).flatten := by
  obtain ⟨buf, hcat, hbytes, hlen, hcap, hroom⟩ :=
    mboxBufCatPrintf_spec fill hr.sound.capacity hr.sound.room (length_idxLine_lt hm)
  refine ⟨buf, hcat, ⟨hcap, hroom⟩, ?_, hr.err, hr.offset, hr.syncs⟩
  rw [List.flatten_append, List.flatten_singleton, ← hr.bytes]
  exact hbytes

/-- What an iteration does, by what came of writing the buffer. -/
theorem saveStep_of_writeIf {err : Int} {file : IdxFile} {ioctx : MboxIOCtx} {buf : MboxBuf}
    (hring : Ring h ps (done ++ m :: rest)) (hnode : ctx.node = ps[done.length]?)
    (hcount : ctx.count = rest.length + 1)
    (hcat : mboxBufCatPrintf fill ctx.ioctx.buf (idxLine m) = ok buf)
    (hwrite : writeIf io ctx.file { ctx.ioctx with buf } (buf.len % bufsiz = 0) =
      ok (err, file, ioctx)) :
    saveStep fill bufsiz io h ctx = ok (if err ≠ mboxIOOk then .inr (err, { ctx with file, ioctx })
      else if rest = [] then .inr (mboxIOOk, ⟨file, ioctx, nextAt ps done.length, rest.length⟩)
      else .inl ⟨file, ioctx, nextAt ps done.length, rest.length⟩) := by
  have hload := Heap.load_eq hring.get_append
  rw [← hnode] at hload
  have hcount' : ctx.count - 1 = rest.length := by rw [hcount, Nat.add_sub_cancel]
  simp only [saveStep, hload, hcat, hwrite, ok_bind, hcount', pure_eq]
  by_cases herr : err ≠ mboxIOOk
  · rw [if_pos herr, if_pos herr]
  · rw [if_neg herr, if_neg herr]
    by_cases hrest : rest = []
    · rw [if_pos hrest, hrest]
      rfl
    · rw [if_neg hrest, if_pos (List.length_pos_iff.mpr hrest)]

/-- The loop is left with an error, or the message is in the buffer or written. -/
theorem saveStep_spec (hio : io.Valid) (hring : Ring h ps (done ++ m :: rest)) (hm : m.Sized)
    (hready : SaveReady ctx.ioctx ctx.file cur.flatten) (hnode : ctx.node = ps[done.length]?)
    (hcount : ctx.count = rest.length + 1) :
    (∃ err ctx', saveStep fill bufsiz io h ctx = ok (.inr (err, ctx')) ∧ err ≠ mboxIOOk ∧
      saveOutcome io bufsiz ctx.file cur (m :: rest) = (err, ctx'.file.bytes)) ∨
    ∃ ctx' cur', saveStep fill bufsiz io h ctx =
        ok (if rest = [] then .inr (mboxIOOk, ctx') else .inl ctx') ∧
      SaveReady ctx'.ioctx ctx'.file cur'.flatten ∧ (∀ line ∈ cur', line ∈ cur ∨ line ≠ []) ∧
      ctx'.node = nextAt ps done.length ∧ ctx'.count = rest.length ∧
      saveOutcome io bufsiz ctx.file cur (m :: rest) =
        saveOutcome io bufsiz ctx'.file cur' rest := by
  obtain ⟨buf, hcat, hready'⟩ := hready.cat fill hm
  have hlen : buf.len = (cur ++ [idxLine m]).flatten.length := hready'.len
  -- the buffer is written when the lines in it fill it
  by_cases hflush : Flushes bufsiz (cur ++ [idxLine m])
  · obtain ⟨file, ioctx, hwrite, hbytes, hok⟩ := mboxIdxTryWrite_spec hio hready'
    have hmod : buf.len % bufsiz = 0 := by
      rw [hlen]
      exact hflush
    have hwriteIf : writeIf io ctx.file { ctx.ioctx with buf } (buf.len % bufsiz = 0) = _ :=
      (if_pos (decide_eq_true hmod)).trans hwrite
    have hstep := saveStep_of_writeIf hring hnode hcount hcat hwriteIf
    have hchunks : chunksFrom bufsiz cur (m :: rest) =
        (cur ++ [idxLine m]).flatten :: chunksFrom bufsiz [] rest := by
      rw [chunksFrom, List.map_cons, batchesFrom_close hflush]
      rfl
    by_cases herr : (writeChunk io ctx.file.writes (cur ++ [idxLine m]).flatten).1 = mboxIOOk
    · obtain ⟨hwrites, hempty⟩ := hok herr
      rw [if_neg (not_not.mpr herr)] at hstep
      refine Or.inr ⟨_, [], hstep, hempty, (fun _ hline => nomatch hline), rfl, rfl, ?_⟩
      rw [saveOutcome, hchunks, writeChunks, if_neg (not_not.mpr herr), saveOutcome, hwrites,
        hbytes, List.append_assoc]
    · rw [if_pos herr] at hstep
      refine Or.inl ⟨_, _, hstep, herr, ?_⟩
      rw [saveOutcome, hchunks, writeChunks, if_pos herr, hbytes]
  · have hmod : ¬ buf.len % bufsiz = 0 := by
      rw [hlen]
      exact hflush
    have hwriteIf : writeIf io ctx.file { ctx.ioctx with buf } (buf.len % bufsiz = 0) =
        ok (mboxIOOk, ctx.file, { ctx.ioctx with buf }) := if_neg (by simpa using hmod)
    have hstep := saveStep_of_writeIf hring hnode hcount hcat hwriteIf
    rw [if_neg (not_not.mpr rfl)] at hstep
    refine Or.inr ⟨_, cur ++ [idxLine m], hstep, hready', ?_, rfl, rfl, ?_⟩
    · intro line hline
      rcases List.mem_append.mp hline with hline | hline
      · exact Or.inl hline
      · rw [List.mem_singleton.mp hline]
        exact Or.inr (idxLine_ne_nil m)
    · rw [saveOutcome, saveOutcome, chunksFrom, List.map_cons, batchesFrom_push hflush]
      rfl

/-- What is left in the buffer is written as the last chunk. -/
theorem saveEnd_spec (bufsiz : ℕ) (hio : io.Valid)
    (hready : SaveReady ctx.ioctx ctx.file cur.flatten) (hlines : ∀ line ∈ cur, line ≠ []) :
    ∃ file, saveEnd io (mboxIOOk, ctx) = ok ((saveOutcome io bufsiz ctx.file cur []).1, file) ∧
      file.bytes = (saveOutcome io bufsiz ctx.file cur []).2 := by
  have hlen := hready.len
  rcases eq_or_ne cur [] with rfl | hcur
  · have hzero : ¬ 0 < ctx.ioctx.buf.len := by
      rw [hlen]
      exact Nat.lt_irrefl 0
    refine ⟨ctx.file, ?_, ?_⟩
    · simp only [saveEnd, writeIf, hzero, decide_false, Bool.false_eq_true, if_false, ne_eq,
        not_true_eq_false, ok_bind, pure_eq]
      rfl
    · exact (List.append_nil _).symm
  · have hpos : 0 < ctx.ioctx.buf.len := by
      rw [hlen, List.length_pos_iff, ne_eq, List.flatten_eq_nil_iff]
      intro hnil
      obtain ⟨line, cur, rfl⟩ := List.exists_cons_of_ne_nil hcur
      have hmem := List.mem_cons_self (a := line) (l := cur)
      exact hlines line hmem (hnil line hmem)
    obtain ⟨file, ioctx, hwrite, hbytes, -⟩ := mboxIdxTryWrite_spec hio hready
    -- what is left is a chunk of its own
    have hchunks : chunksFrom bufsiz cur [] = [cur.flatten] := by
      rw [chunksFrom, List.map_nil, batchesFrom_nil, if_neg hcur]
      rfl
    have hlast : writeChunks io ctx.file.writes [cur.flatten] =
        writeChunk io ctx.file.writes cur.flatten := by
      rw [writeChunks, writeChunks]
      by_cases herr : (writeChunk io ctx.file.writes cur.flatten).1 = mboxIOOk
      · rw [if_neg (not_not.mpr herr), List.append_nil, ← herr]
      · rw [if_pos herr]
    refine ⟨file, ?_, ?_⟩
    · simp only [saveEnd, writeIf, hpos, decide_true, if_true, ne_eq, not_true_eq_false, if_false,
        hwrite, ok_bind, pure_eq, saveOutcome, hchunks, hlast]
    · rw [hbytes, saveOutcome, hchunks, hlast]

/-- A save that is left with an error ends with it. -/
theorem save_left {ctx' : SaveCtx} {err : Int} {out : Int × List MboxChar}
    (hstep : saveStep fill bufsiz io h ctx = ok (.inr (err, ctx'))) (herr : err ≠ mboxIOOk)
    (hout : out = (err, ctx'.file.bytes)) :
    ∃ r file, LoopTo (fun _ => saveStep fill bufsiz io h) ctx r ∧
      saveEnd io r = ok (out.1, file) ∧ file.bytes = out.2 := by
  refine ⟨(err, ctx'), ctx'.file, LoopTo.done (Converges.const hstep), ?_, ?_⟩
  · rw [hout, saveEnd, if_pos herr]
    rfl
  · rw [hout]

/-- **The loop and what is behind it**: the lines of all messages are written in chunks, up to an
error. -/
theorem saveLoop_spec (fill : ℕ → MboxChar) (bufsiz : ℕ) (hio : io.Valid)
    (hring : Ring h ps (done ++ m :: rest)) (hsized : ∀ msg ∈ m :: rest, msg.Sized)
    (hready : SaveReady ctx.ioctx ctx.file cur.flatten) (hlines : ∀ line ∈ cur, line ≠ [])
    (hnode : ctx.node = ps[done.length]?) (hcount : ctx.count = rest.length + 1) :
    ∃ r file, LoopTo (fun _ => saveStep fill bufsiz io h) ctx r ∧
      saveEnd io r = ok ((saveOutcome io bufsiz ctx.file cur (m :: rest)).1, file) ∧
      file.bytes = (saveOutcome io bufsiz ctx.file cur (m :: rest)).2 := by
  induction rest generalizing ctx cur done m with
  | nil =>
    rcases saveStep_spec hio hring (hsized m (List.mem_cons_self ..)) hready hnode hcount with
      ⟨err, ctx', hstep, herr, hout⟩ | ⟨ctx', cur', hstep, hready', hlines', -, -, hout⟩
    · exact save_left hstep herr hout
    · have hlines'' : ∀ line ∈ cur', line ≠ [] := fun line hline =>
        (hlines' line hline).elim (hlines line) id
      obtain ⟨file, hend, hbytes⟩ := saveEnd_spec bufsiz hio hready' hlines''
      exact ⟨_, file, LoopTo.done (Converges.const hstep), by rw [hend, hout],
        by rw [hbytes, hout]⟩
  | cons m' rest ih =>
    rcases saveStep_spec hio hring (hsized m (List.mem_cons_self ..)) hready hnode hcount with
      ⟨err, ctx', hstep, herr, hout⟩ | ⟨ctx', cur', hstep, hready', hlines', hnode', hcount', hout⟩
    · exact save_left hstep herr hout
    · have hlines'' : ∀ line ∈ cur', line ≠ [] := fun line hline =>
        (hlines' line hline).elim (hlines line) id
      have hring' : Ring h ps ((done ++ [m]) ++ m' :: rest) := by
        rw [List.append_assoc]
        exact hring
      have hnext : ctx'.node = ps[(done ++ [m]).length]? := by
        rw [hnode', nextAt_append hring (List.cons_ne_nil _ _), List.length_append,
          List.length_singleton]
      rw [if_neg (List.cons_ne_nil _ _)] at hstep
      obtain ⟨r, file, hloop, hend, hbytes⟩ := ih hring'
        (fun msg hmsg => hsized msg (List.mem_cons_of_mem _ hmsg)) hready' hlines'' hnext hcount'
      exact ⟨r, file, LoopTo.step (Converges.const hstep) hloop, by rw [hend, hout],
        by rw [hbytes, hout]⟩

end Loop

/-! ## What the calls give -/

namespace SaveCalls

variable {io : SaveCalls} {c : List MboxChar} {cs : List (List MboxChar)} {k : ℕ}

/-- A call for one of the chunks, the first of which is the `k`-th, fails. -/
def Fails (io : SaveCalls) (k : ℕ) (cs : List (List MboxChar)) : Prop :=
  ∃ p ∈ cs.zipIdx k, io.pwrite p.2 p.1.length = none ∨ io.fsync p.2 = false

/-- Each chunk is written as a whole by its call. -/
def WritesAll (io : SaveCalls) (k : ℕ) (cs : List (List MboxChar)) : Prop :=
  ∀ p ∈ cs.zipIdx k, io.pwrite p.2 p.1.length = some p.1.length

/-- A call for the chunks fails: one for the first of them or one for the others. -/
theorem fails_cons : io.Fails k (c :: cs) ↔
    (io.pwrite k c.length = none ∨ io.fsync k = false) ∨ io.Fails (k + 1) cs := by
  rw [Fails, List.zipIdx_cons, List.exists_mem_cons_iff]
  rfl

/-- All chunks are written: the first one and the others. -/
theorem writesAll_cons : io.WritesAll k (c :: cs) ↔
    io.pwrite k c.length = some c.length ∧ io.WritesAll (k + 1) cs := by
  rw [WritesAll, List.zipIdx_cons, List.forall_mem_cons]
  rfl

/-- A chunk is reported as written exactly when no call for it fails, however little was written. -/
theorem writeChunk_ok_iff (hio : io.Valid) :
    (writeChunk io k c).1 = mboxIOOk ↔ ¬ (io.pwrite k c.length = none ∨ io.fsync k = false) := by
  rw [writeChunk]
  cases hw : io.pwrite k c.length with
  | none => simp [show mboxIOWriteErr ≠ mboxIOOk by decide]
  | some w =>
    obtain ⟨w, rfl⟩ : ∃ v, w = v + 1 := ⟨w - 1, by have := (hio _ _ _ hw).1; omega⟩
    cases io.fsync k with
    | false => simp [show mboxIOFsyncErr ≠ mboxIOOk by decide]
    | true => simp

/-- As much of a chunk is in the file as `pwrite` has written. -/
theorem writeChunk_bytes (hio : io.Valid) {w : ℕ} (hw : io.pwrite k c.length = some w) :
    (writeChunk io k c).2 = c.take w := by
  obtain ⟨w, rfl⟩ : ∃ v, w = v + 1 := ⟨w - 1, by have := (hio _ _ _ hw).1; omega⟩
  rw [writeChunk, hw]

/-- All chunks are reported as written exactly when no call fails. -/
theorem writeChunks_ok_iff (hio : io.Valid) :
    (writeChunks io k cs).1 = mboxIOOk ↔ ¬ io.Fails k cs := by
  induction cs generalizing k with
  | nil => simp [writeChunks, Fails]
  | cons c cs ih =>
    rw [fails_cons, not_or, ← writeChunk_ok_iff hio, ← ih, writeChunks]
    by_cases hok : (writeChunk io k c).1 = mboxIOOk
    · rw [if_neg (not_not.mpr hok)]
      exact (and_iff_right hok).symm
    · rw [if_pos hok]
      exact ⟨fun h => absurd h hok, And.left⟩

/-- What is written when no call fails: all of it if each chunk is written as a whole, and less
otherwise. -/
theorem writeChunks_bytes (hio : io.Valid) (hok : ¬ io.Fails k cs) :
    (io.WritesAll k cs → (writeChunks io k cs).2 = cs.flatten) ∧
      (¬ io.WritesAll k cs → (writeChunks io k cs).2.length < cs.flatten.length) := by
  induction cs generalizing k with
  | nil => exact ⟨fun _ => rfl, fun h => absurd (fun _ hp => nomatch hp) h⟩
  | cons c cs ih =>
    rw [fails_cons, not_or] at hok
    obtain ⟨hc, hcs⟩ := hok
    obtain ⟨hall, hless⟩ := ih hcs
    have hle : (writeChunks io (k + 1) cs).2.length ≤ cs.flatten.length := by
      by_cases h : io.WritesAll (k + 1) cs
      · rw [hall h]
      · exact (hless h).le
    obtain ⟨w, hw⟩ := Option.ne_none_iff_exists'.mp fun h => hc (Or.inl h)
    have hwle := (hio _ _ _ hw).2
    rw [writeChunks, if_neg (not_not.mpr ((writeChunk_ok_iff hio).mpr hc)),
      writeChunk_bytes hio hw, writesAll_cons, hw, List.flatten_cons]
    refine ⟨fun ⟨hfull, hrest⟩ => ?_, fun hnot => ?_⟩
    · rw [hall hrest, Option.some.inj hfull, List.take_length]
    · rw [List.length_append, List.length_append, List.length_take_of_le hwle]
      rcases Nat.lt_or_eq_of_le hwle with hlt | rfl
      · omega
      · have hrest := hless fun h => hnot ⟨rfl, h⟩
        omega

end SaveCalls

/-! ## The whole save -/

/-- The order of the index: a message is in front of those that start behind it. -/
def StartsBefore (m m' : MboxMsgLite) : Prop := toSsize m.startOffset ≤ toSsize m'.startOffset

/-- The comparison of the sort is that order. -/
theorem mboxListSortByStartOffset_le (m m' : MboxMsgLite) :
    mboxListSortByStartOffset m m' ≤ 0 ↔ StartsBefore m m' := by
  simp only [mboxListSortByStartOffset, StartsBefore]
  split
  · next hlt => exact iff_of_true (by decide) hlt.le
  · next hge =>
    split
    · next heq => exact iff_of_true (le_refl _) heq.le
    · next hne => exact iff_of_false (by decide) (by omega)

/-- Sorting the list leaves the messages in the order `ys`. -/
def SortsTo (h : Heap (MboxLNode MboxMsgLite)) (l : MboxList) (ys : List MboxMsgLite) : Prop :=
  ∃ h' l', Converges (fun n => mboxListQSort (some mboxListSortByStartOffset) n h l) (h', l') ∧
    l'.Holds h' ys

/-- The text is that of a complete index: a line for each message, in the order of their
starts. -/
def IsIndexOf (msgs : List MboxMsgLite) (text : List MboxChar) : Prop :=
  ∃ ys : List MboxMsgLite, ys.Perm msgs ∧ ys.Pairwise StartsBefore ∧ text = idxText ys

section Sorted

variable {h : Heap (MboxLNode MboxMsgLite)} {l : MboxList} {msgs ys zs : List MboxMsgLite}

/-- An unlocked list is sorted by where its messages start. -/
theorem exists_sortsTo (hl : l.Holds h msgs) (hfree : l.locked = false) :
    ∃ ys, SortsTo h l ys ∧ ys.Perm msgs ∧ ys.Pairwise StartsBefore := by
  obtain ⟨ps, hring, hroot, hlen⟩ := hl
  rcases Nat.lt_or_ge msgs.length 2 with hshort | hlong
  · have hle : msgs.length ≤ 1 := Nat.le_of_lt_succ hshort
    have hrun : Converges (fun n => mboxListQSort (some mboxListSortByStartOffset) n h l)
        (h, { l with locked := true }) :=
      ⟨0, fun n _ => mboxListQSort_short _ n (hlen.trans_le hle) hfree⟩
    refine ⟨msgs, ⟨h, _, hrun, ps, hring, hroot, hlen⟩, List.Perm.refl _, ?_⟩
    rcases msgs with _ | ⟨m, _ | ⟨m', msgs⟩⟩
    · exact List.Pairwise.nil
    · exact List.pairwise_singleton _ _
    · exact absurd hle (by simp)
  · have hsort : ∃ ys h', Converges
        (fun n => mboxListQSort (some mboxListSortByStartOffset) n h l) (h', l) ∧ l.At h' ps ys ∧
        QuickSorted (fun a b => mboxListSortByStartOffset a b ≤ 0) msgs ys :=
      mboxListQSort_spec ⟨hring, hroot, hlen⟩ hlong hfree
    obtain ⟨ys, h', hrun, hl', hsorted⟩ := hsort
    refine ⟨ys, ⟨h', l, hrun, MboxList.holds_iff.mpr ⟨ps, hl'⟩⟩, hsorted.perm.symm, ?_⟩
    simp only [mboxListSortByStartOffset_le] at hsorted
    exact hsorted.pairwise (fun _ _ _ => le_trans) fun _ _ => le_total _ _

theorem SortsTo.unique (hy : SortsTo h l ys) (hz : SortsTo h l zs) : ys = zs := by
  obtain ⟨h₁, l₁, hrun, hholds⟩ := hy
  obtain ⟨h₂, l₂, hrun', hholds'⟩ := hz
  obtain ⟨rfl, rfl⟩ := Prod.mk.inj (hrun.unique hrun')
  exact hholds.unique hholds'

theorem SortsTo.unlocked (hy : SortsTo h l ys) : l.locked = false := by
  obtain ⟨h', l', hrun, -⟩ := hy
  exact mboxListQSort_unlocked hrun

theorem flatten_saveChunks (bufsiz : ℕ) (ys : List MboxMsgLite) :
    (saveChunks bufsiz ys).flatten = idxText ys := by
  rw [saveChunks, ← List.flatten_flatten, (isBatching_batches _).flatten, idxText]

/-- All complete indexes of the messages are of one length. -/
theorem IsIndexOf.length_eq {text : List MboxChar} (hx : IsIndexOf msgs text)
    (hys : ys.Perm msgs) : text.length = (idxText ys).length := by
  obtain ⟨zs, hzs, -, rfl⟩ := hx
  exact ((hzs.trans hys.symm).map idxLine).flatten.length_eq

end Sorted

section Whole

variable {h : Heap (MboxLNode MboxMsgLite)} {l : MboxList} {msgs ys : List MboxMsgLite}
  {io : SaveCalls}

/-- A list that holds something is not empty to the code either. -/
theorem Holds.len_ne_zero (hl : l.Holds h msgs) (hne : msgs ≠ []) : l.len ≠ 0 := by
  obtain ⟨ps, -, -, hlen⟩ := hl
  rw [hlen]
  exact List.length_pos_iff.mpr hne |>.ne'

/-- **A save of a file that can be opened** sorts the list and writes the chunks, up to an
error. -/
theorem mboxIdxSave_spec (fill : ℕ → MboxChar) (bufsiz : ℕ) (old : List MboxChar)
    (hl : l.Holds h msgs) (hne : msgs ≠ []) (hsized : ∀ msg ∈ msgs, msg.Sized)
    (hio : io.Valid) (hopen : io.openOk = true) (hfstat : io.fstatOk = true)
    (hys : SortsTo h l ys) (hperm : ys.Perm msgs) :
    ∃ h' l', Converges (fun n => mboxIdxSave fill bufsiz io h old n l)
        ⟨(writeChunks io 0 (saveChunks bufsiz ys)).1, (writeChunks io 0 (saveChunks bufsiz ys)).2,
          h', l'⟩ ∧ l'.Holds h' ys := by
  obtain ⟨h', l', hsort, hholds⟩ := hys
  obtain ⟨ps, hring, hroot, hlen⟩ := hholds
  have hys : ys ≠ [] := by
    rintro rfl
    exact hne (List.nil_perm.mp hperm)
  obtain ⟨m, rest, rfl⟩ := List.exists_cons_of_ne_nil hys
  have hready : SaveReady (mboxIONew fill 0) ⟨[], 0, 0⟩ ([] : List (List MboxChar)).flatten :=
    ⟨mboxIONew_sound fill 0, List.take_zero, rfl, rfl, rfl⟩
  have hring₀ : Ring h' ps ([] ++ m :: rest) := hring
  have hnode : (⟨⟨[], 0, 0⟩, mboxIONew fill 0, l'.root, l'.len⟩ : SaveCtx).node =
      ps[([] : List MboxMsgLite).length]? := hroot
  have hnone : ∀ line ∈ ([] : List (List MboxChar)), line ≠ [] := fun _ hline => nomatch hline
  obtain ⟨r, file, hloop, hend, hbytes⟩ := saveLoop_spec fill bufsiz hio hring₀
    (fun msg hmsg => hsized msg (hperm.mem_iff.mp hmsg)) hready hnone hnode hlen
  refine ⟨h', l', ?_, ps, hring, hroot, hlen⟩
  obtain ⟨N, hN⟩ := hsort
  obtain ⟨M, hM⟩ := hloop.converges
  refine ⟨max N M, fun n hn => ?_⟩
  have hsortn := hN n (le_of_max_le_left hn)
  have hloopn := hM n (le_of_max_le_right hn)
  simp only [mboxIdxSave, if_neg (Holds.len_ne_zero hl hne), hopen, hfstat, Bool.not_true,
    Bool.false_eq_true, if_false, hsortn, hloopn, hend, hbytes, ok_bind, pure_eq]
  rfl

/-- **What a save is for**: one that returns `MBOX_IO_OK` leaves a complete index of the
messages. -/
def SaveComplete (fill : ℕ → MboxChar) (bufsiz : ℕ) (io : SaveCalls)
    (h : Heap (MboxLNode MboxMsgLite)) (old : List MboxChar) (l : MboxList)
    (msgs : List MboxMsgLite) : Prop :=
  ∀ r, Converges (fun n => mboxIdxSave fill bufsiz io h old n l) r → r.ret = mboxIOOk →
    IsIndexOf msgs r.file

/-- The empty text is no index of any messages. -/
theorem not_isIndexOf_nil (hne : msgs ≠ []) : ¬ IsIndexOf msgs [] := by
  rintro ⟨ys, hperm, -, htext⟩
  have hys : ys ≠ [] := by
    rintro rfl
    exact hne (List.nil_perm.mp hperm)
  obtain ⟨m, rest, rfl⟩ := List.exists_cons_of_ne_nil hys
  rw [idxText, List.map_cons, List.flatten_cons] at htext
  exact idxLine_ne_nil m (List.append_eq_nil_iff.mp htext.symm).1

/-- A file that can be opened: the save is as good as the calls. -/
theorem saveComplete_opened (fill : ℕ → MboxChar) (bufsiz : ℕ) (old : List MboxChar)
    (hl : l.Holds h msgs) (hne : msgs ≠ []) (hsized : ∀ msg ∈ msgs, msg.Sized)
    (hio : io.Valid) (hopen : io.openOk = true) (hfstat : io.fstatOk = true) :
    SaveComplete fill bufsiz io h old l msgs ↔ ∀ ys, SortsTo h l ys →
      io.Fails 0 (saveChunks bufsiz ys) ∨ io.WritesAll 0 (saveChunks bufsiz ys) := by
  cases hfree : l.locked with
  | true =>
    -- the save never returns
    refine iff_of_true (fun r hrun => ?_) fun ys hys => ?_
    · obtain ⟨n, hn⟩ := hrun.exists_ok
      simp only [mboxIdxSave, if_neg (Holds.len_ne_zero hl hne), hopen, hfstat, Bool.not_true,
        Bool.false_eq_true, if_false, mboxListQSort_locked _ n hfree] at hn
      cases hn
    · rw [hys.unlocked] at hfree
      cases hfree
  | false =>
    obtain ⟨ys, hys, hperm, hsorted⟩ := exists_sortsTo hl hfree
    obtain ⟨h', l', hrun, -⟩ :=
      mboxIdxSave_spec fill bufsiz old hl hne hsized hio hopen hfstat hys hperm
    constructor
    · intro hcomplete zs hzs
      obtain rfl := hzs.unique hys
      by_contra hnot
      obtain ⟨hok, hshort⟩ := not_or.mp hnot
      have hindex := hcomplete _ hrun ((SaveCalls.writeChunks_ok_iff hio).mpr hok)
      have hless := (SaveCalls.writeChunks_bytes hio hok).2 hshort
      rw [flatten_saveChunks, ← hindex.length_eq hperm] at hless
      exact Nat.lt_irrefl _ hless
    · intro hcalls r hr hret
      obtain rfl := hr.unique hrun
      have hok : ¬ io.Fails 0 (saveChunks bufsiz ys) := (SaveCalls.writeChunks_ok_iff hio).mp hret
      have hall := (hcalls ys hys).resolve_left hok
      refine ⟨ys, hperm, hsorted, ?_⟩
      rw [← flatten_saveChunks bufsiz ys]
      exact (SaveCalls.writeChunks_bytes hio hok).1 hall

/-! ### Saves where no call fails -/

/-- Any messages can be in a list that is not locked. -/
theorem exists_msgList (msgs : List MboxMsgLite) :
    ∃ (h : Heap (MboxLNode MboxMsgLite)) (l : MboxList), l.Holds h msgs ∧ l.locked = false := by
  induction msgs using List.reverseRecOn with
  | nil => exact ⟨Heap.empty, mboxListNew, mboxListNew_holds _, rfl⟩
  | append_singleton msgs m ih =>
    obtain ⟨h, l, hl, hfree⟩ := ih
    obtain ⟨h', l', -, hl', hlocked⟩ := mboxListAddTail_spec m hl
    exact ⟨h', l', hl', hlocked.trans hfree⟩

/-- The message from byte 0 to byte 5. -/
def oneMsg : MboxMsgLite := ⟨none, none, none, none, ⟨[], 0, 0, 0⟩, none, 0, 0, 5⟩

/-- The message behind it, which is sorted behind it, too. -/
def lateMsg : MboxMsgLite := ⟨none, none, none, none, ⟨[], 0, 0, 0⟩, none, 0, 5, 9⟩

/-- The heap of a list of the first message alone. -/
def oneMsgHeap : Heap (MboxLNode MboxMsgLite) := ⟨[some ⟨oneMsg, some 0, some 0⟩]⟩

/-- A list with that message in it. -/
def oneMsgList : MboxList := ⟨1, some 0, false⟩

/-- System calls of which none fails, and which write `w n` bytes out of `n`. -/
def callsWriting (w : ℕ → ℕ) : SaveCalls :=
  ⟨true, true, fun _ n => if n = 0 then none else some (w n), fun _ => true⟩

/-- They are as POSIX has them, when something and not too much is written. -/
theorem callsWriting_valid {w : ℕ → ℕ} (hw : ∀ n, n ≠ 0 → 0 < w n ∧ w n ≤ n) :
    (callsWriting w).Valid := by
  intro k n v hv
  simp only [callsWriting] at hv
  split at hv
  · cases hv
  · next hn =>
    cases hv
    exact hw n hn

theorem callsWriting_id_valid : (callsWriting id).Valid :=
  callsWriting_valid fun n hn => ⟨Nat.pos_of_ne_zero hn, le_refl n⟩

/-- Only bytes are written: no line of an index is empty, and no run of lines. -/
theorem saveChunks_ne_nil {bufsiz : ℕ} : ∀ c ∈ saveChunks bufsiz ys, c ≠ [] := by
  intro c hc hnil
  obtain ⟨b, hb, rfl⟩ := List.mem_map.mp hc
  have hbatching : IsBatching (Flushes bufsiz) (ys.map idxLine) _ := isBatching_batches _
  obtain ⟨line, b, rfl⟩ := List.exists_cons_of_ne_nil (hbatching.ne_nil _ hb)
  have hline := hbatching.mem hb (List.mem_cons_self ..)
  obtain ⟨m, -, rfl⟩ := List.mem_map.mp hline
  exact idxLine_ne_nil m (List.append_eq_nil_iff.mp hnil).1

theorem callsWriting_id_writesAll (bufsiz : ℕ) (ys : List MboxMsgLite) :
    (callsWriting id).WritesAll 0 (saveChunks bufsiz ys) := by
  intro p hp
  have hne := saveChunks_ne_nil p.1 (List.fst_mem_of_mem_zipIdx hp)
  exact if_neg fun hzero => hne (List.length_eq_zero_iff.mp hzero)

theorem callsWriting_id_not_fails (bufsiz : ℕ) (ys : List MboxMsgLite) :
    ¬ (callsWriting id).Fails 0 (saveChunks bufsiz ys) := by
  rintro ⟨p, hp, hnone | hsync⟩
  · rw [callsWriting_id_writesAll bufsiz ys p hp] at hnone
    cases hnone
  · cases hsync

/-- The list holds the message. -/
theorem oneMsgList_holds : oneMsgList.Holds oneMsgHeap [oneMsg] := by
  refine ⟨[0], ⟨rfl, List.nodup_singleton 0, fun i x hx => ?_⟩, rfl, rfl⟩
  cases i with
  | zero =>
    obtain rfl := Option.some.inj hx
    rfl
  | succ i => cases hx

theorem oneMsg_sized : ∀ msg ∈ [oneMsg], msg.Sized := by
  intro msg hmsg
  rw [List.mem_singleton.mp hmsg]
  exact ⟨by decide, by decide⟩

theorem oneMsgList_sortsTo : SortsTo oneMsgHeap oneMsgList [oneMsg] :=
  ⟨oneMsgHeap, { oneMsgList with locked := true },
    ⟨0, fun n _ => mboxListQSort_short _ n (le_refl 1) rfl⟩, oneMsgList_holds⟩

/-- The index of the message is one chunk, `0 5`. -/
theorem saveChunks_oneMsg : saveChunks 8192 [oneMsg] = [[48, space, 53, nl]] := by
  have hline : idxLine oneMsg = [48, space, 53, nl] := by simp [idxLine, oneMsg, decimal]
  rw [saveChunks, List.map_singleton, hline]
  rfl

/-- **A save that succeeds leaves a complete index** exactly when the index is complete already,
where the file cannot be opened, and otherwise a call fails or all of them write all they are
given. -/
theorem saveComplete_iff (fill : ℕ → MboxChar) (bufsiz : ℕ) (old : List MboxChar)
    (hl : l.Holds h msgs) (hne : msgs ≠ []) (hsized : ∀ msg ∈ msgs, msg.Sized)
    (hio : io.Valid) :
    SaveComplete fill bufsiz io h old l msgs ↔
      (io.openOk = false → IsIndexOf msgs old) ∧
      (io.openOk = true → io.fstatOk = true ∧ ∀ ys, SortsTo h l ys →
        io.Fails 0 (saveChunks bufsiz ys) ∨ io.WritesAll 0 (saveChunks bufsiz ys)) := by
  have hlen := Holds.len_ne_zero hl hne
  cases hopen : io.openOk with
  | false =>
    have hrun : Converges (fun n => mboxIdxSave fill bufsiz io h old n l) ⟨0, old, h, l⟩ :=
      ⟨0, fun n _ => by
        simp only [mboxIdxSave, if_neg hlen, hopen, Bool.not_false, if_true, pure_eq]⟩
    refine ⟨fun hcomplete => ⟨fun _ => hcomplete _ hrun rfl, fun hfalse => nomatch hfalse⟩,
      fun ⟨hold, _⟩ r hr _ => ?_⟩
    obtain rfl := hr.unique hrun
    exact hold rfl
  | true =>
    cases hfstat : io.fstatOk with
    | false =>
      have hrun : Converges (fun n => mboxIdxSave fill bufsiz io h old n l) ⟨0, [], h, l⟩ :=
        ⟨0, fun n _ => by
          simp only [mboxIdxSave, if_neg hlen, hopen, hfstat, Bool.not_true, Bool.not_false,
            Bool.false_eq_true, if_false, if_true, pure_eq]⟩
      refine iff_of_false (fun hcomplete => ?_) fun ⟨_, hcalls⟩ => ?_
      · exact not_isIndexOf_nil hne (hcomplete _ hrun rfl)
      · cases (hcalls rfl).1
    | true =>
      rw [saveComplete_opened fill bufsiz old hl hne hsized hio hopen hfstat]
      exact ⟨fun hcalls => ⟨fun hfalse => (nomatch hfalse), fun _ => ⟨rfl, hcalls⟩⟩,
        fun ⟨_, hcalls⟩ => (hcalls rfl).2⟩

/-- Two messages, in the wrong order, are saved as a complete index. -/
theorem saveComplete_iff_twoMsgs : ∃ h l r, l.Holds h [lateMsg, oneMsg] ∧
    Converges (fun n => mboxIdxSave (fun _ => nul) 8192 (callsWriting id) h [] n l) r ∧
    r.ret = mboxIOOk ∧ IsIndexOf [lateMsg, oneMsg] r.file := by
  obtain ⟨h, l, hl, hfree⟩ := exists_msgList [lateMsg, oneMsg]
  obtain ⟨ys, hys, hperm, -⟩ := exists_sortsTo hl hfree
  have hsized : ∀ msg ∈ [lateMsg, oneMsg], msg.Sized := by
    intro msg hmsg
    rcases List.mem_cons.mp hmsg with rfl | hmsg
    · exact ⟨by decide, by decide⟩
    · exact oneMsg_sized msg hmsg
  obtain ⟨h', l', hrun, -⟩ := mboxIdxSave_spec (fun _ => nul) 8192 [] hl (List.cons_ne_nil _ _)
    hsized callsWriting_id_valid rfl rfl hys hperm
  have hok := (SaveCalls.writeChunks_ok_iff callsWriting_id_valid).mpr
    (callsWriting_id_not_fails 8192 ys)
  have hcomplete := (saveComplete_iff (fun _ => nul) 8192 [] hl (List.cons_ne_nil _ _) hsized
    callsWriting_id_valid).mpr ⟨(fun hfalse => nomatch hfalse),
      fun _ => ⟨rfl, fun zs _ => Or.inr (callsWriting_id_writesAll 8192 zs)⟩⟩
  exact ⟨h, l, _, hl, hrun, hok, hcomplete _ hrun hok⟩

/-- Nothing is written, or only the first byte, and `0` is returned: how much `pwrite` has written
is not compared with what it was given. -/
theorem save_notComplete :
    ¬ SaveComplete (fun _ => nul) 8192 { callsWriting id with openOk := false } oneMsgHeap []
        oneMsgList [oneMsg] ∧
      ¬ SaveComplete (fun _ => nul) 8192 (callsWriting fun _ => 1) oneMsgHeap [] oneMsgList
        [oneMsg] := by
  constructor
  · intro hcomplete
    exact not_isIndexOf_nil (List.cons_ne_nil _ _)
      (hcomplete ⟨0, [], oneMsgHeap, oneMsgList⟩ (Converges.const rfl) rfl)
  · have hio : (callsWriting fun _ => 1).Valid :=
      callsWriting_valid fun n hn => ⟨Nat.one_pos, Nat.pos_of_ne_zero hn⟩
    rw [saveComplete_opened (fun _ => nul) 8192 [] oneMsgList_holds (List.cons_ne_nil _ _)
      oneMsg_sized hio rfl rfl]
    intro hcalls
    have hcall := hcalls [oneMsg] oneMsgList_sortsTo
    rw [saveChunks_oneMsg] at hcall
    rcases hcall with ⟨p, hp, hfails⟩ | hall
    · obtain rfl := List.mem_singleton.mp hp
      revert hfails
      decide
    · exact absurd (hall _ (List.mem_cons_self ..)) (by decide)

end Whole

end Libmbox2
