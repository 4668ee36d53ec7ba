import Libmbox2.IndexLoad
import Libmbox2.IndexSave

/-!
# Reading an index back (`loadIndexes`, `indexesToList`)

The index file is read as a whole, and its lines are taken apart by hand: the bytes up to a
blank and those up to a newline go into two arrays of 26 bytes, which `atol` then reads.
Counting the lines beforehand changes nothing and is left out.

What a save writes is read back as it was (`indexesToList_idxText`), as long as it can be read:
the length of the file is cut to 32 bits where the buffer is made bigger.
-/

namespace Libmbox2

open CSem CSem.Exec

/-- What is read is a `long`; it is kept as a `size_t`. -/
def toSize (n : Int) : ℕ := (n % 2 ^ 64).toNat

section Functions

variable (fill : ℕ → MboxChar) (pread : Pread)

/-- The whole file; null if it cannot be opened, or not be read. -/
def loadIndexes (openOk : Bool) (fileSize : ℕ) : Exec (Option MboxIOCtx) :=
  if !openOk then pure none
  else do
    let (rbytes, ioctx) ← mboxIORead fill pread (mboxIONew fill fileSize) fileSize 0 0
    if rbytes ≠ fileSize then pure none else pure (some ioctx)

/-- The bytes up to `stop` go into `tmp`, from `idx` on. -/
def copyUntil (stop : MboxChar) :
    List MboxChar → List MboxChar → ℕ → Exec (List MboxChar × ℕ)
  | [], _, _ => fault
  | c :: data, tmp, idx =>
    if c = stop then pure (tmp, idx)
    else do
      let tmp ← store tmp idx c
      copyUntil stop data tmp (idx + 1)

/-- Where the loop of `indexesToList` stands: the place in the buffer, the two blocks for numbers,
and the list of entries. -/
structure EntriesCtx where
  offset : ℕ
  tmpstart : List MboxChar
  tmpend : List MboxChar
  heap : Heap (MboxLNode MboxIdxOffset)
  l : MboxList

/-- One iteration of `indexesToList`: two numbers are copied from the text, and an entry is made of
them. -/
def indexesToListStep (buf : MboxBuf) (ctx : EntriesCtx) : Exec (EntriesCtx ⊕ EntriesCtx) :=
  if ¬ ctx.offset < buf.len then pure (.inr ctx)
  else do
    let (tmpstart, startidx) ← copyUntil space (buf.data.drop ctx.offset) ctx.tmpstart 0
    let offset := ctx.offset + startidx + 1
    let (tmpend, endidx) ← copyUntil nl (buf.data.drop offset) ctx.tmpend 0
    let offset := offset + endidx
    let tmpstart ← store tmpstart startidx nul
    let tmpend ← store tmpend endidx nul
    let startOffset ← atol tmpstart
    let endOffset ← atol tmpend
    let (heap, l) ← mboxListAddTail ctx.heap ctx.l ⟨toSize startOffset, toSize endOffset⟩
    pure (.inl { offset := offset + 1, tmpstart, tmpend, heap, l })

/-- The arrays are on the stack, so they hold whatever was there. -/
def indexesToList (heap : Heap (MboxLNode MboxIdxOffset)) (buf : MboxBuf) (fuel : ℕ) :
    Exec (Heap (MboxLNode MboxIdxOffset) × MboxList) := do
  let ctx ← loop (indexesToListStep buf) fuel
    ⟨buf.offset, resize fill [] 26, resize fill [] 26, heap, mboxListNew⟩
  pure (ctx.heap, ctx.l)

end Functions

/-! ## Reading a number -/

/-- Bytes up to the one that stops are copied, when they have room. -/
theorem copyUntil_append {stop : MboxChar} {xs rest pre tmp : List MboxChar} (hxs : stop ∉ xs)
    (hroom : xs.length ≤ tmp.length) :
    copyUntil stop (xs ++ stop :: rest) (pre ++ tmp) pre.length =
      ok (pre ++ xs ++ tmp.drop xs.length, pre.length + xs.length) := by
  induction xs generalizing pre tmp with
  | nil => simp [copyUntil]
  | cons x xs ih =>
    obtain ⟨hx, hxs⟩ := not_or.mp (fun h => hxs (List.mem_cons.mpr h))
    cases tmp with
    | nil => cases hroom
    | cons y tmp =>
      have hstore := store_append_length pre tmp y x
      have hrest : copyUntil stop (xs ++ stop :: rest) ((pre ++ [x]) ++ tmp) (pre ++ [x]).length =
        _ := ih hxs (Nat.le_of_succ_le_succ hroom)
      simp only [List.append_assoc, List.singleton_append, List.length_append,
        List.length_singleton] at hrest
      simp only [List.cons_append, copyUntil, if_neg (Ne.symm hx), hstore, ok_bind, hrest,
        List.append_assoc, List.length_cons, List.drop_succ_cons]
      simp only [Nat.add_assoc, Nat.add_comm 1]

/-- Up to a NUL there is always a number to read, if only that of no digits. -/
theorem atol_terminated (s tail : List MboxChar) : ∃ v, atol (s ++ nul :: tail) = ok v := by
  obtain ⟨blanks, hblanks, hle⟩ :=
    scanUntil_terminated (p := fun c => !isSpace c) (z := nul) rfl s tail
  obtain ⟨c, hc, hlt⟩ := load_terminated s tail nul hle
  have hstart : (if c = 43 ∨ c = 45 then blanks + 1 else blanks) ≤ s.length := by
    split
    · next hsign =>
      refine hlt ?_
      rintro rfl
      exact absurd hsign (by decide)
    · exact hle
  obtain ⟨n, hn, -⟩ := scanUntil_terminated (p := fun c => !isDigit c) (z := nul) rfl
    (s.drop (if c = 43 ∨ c = 45 then blanks + 1 else blanks)) tail
  rw [← List.drop_append_of_le_length hstart] at hn
  simp only [atol, strtol, hblanks, hc, hn, ok_bind]
  by_cases hzero : n = 0
  · exact ⟨0, by rw [if_pos hzero]; rfl⟩
  · rw [if_neg hzero]
    exact ⟨_, rfl⟩

/-- A number goes into an array and is read from there. -/
theorem copyUntil_atol {xs : List MboxChar} {stop : MboxChar} (hxs : stop ∉ xs)
    (hlen : xs.length ≤ 25) (rest : List MboxChar) {tmp : List MboxChar} (htmp : tmp.length = 26) :
    ∃ tmp' tail v, copyUntil stop (xs ++ stop :: rest) tmp 0 = ok (tmp', xs.length) ∧
      store tmp' xs.length nul = ok (xs ++ nul :: tail) ∧ (xs ++ nul :: tail).length = 26 ∧
      atol (xs ++ nul :: tail) = ok v := by
  have hcopy : copyUntil stop (xs ++ stop :: rest) ([] ++ tmp) ([] : List MboxChar).length = _ :=
    copyUntil_append hxs (by omega)
  obtain ⟨y, tail, htail⟩ : ∃ y tail, tmp.drop xs.length = y :: tail :=
    ⟨_, _, List.drop_eq_getElem_cons (by omega)⟩
  rw [List.nil_append, List.nil_append, htail, List.length_nil, Nat.zero_add] at hcopy
  obtain ⟨v, hv⟩ := atol_terminated xs tail
  refine ⟨_, tail, v, hcopy, store_append_length .., ?_, hv⟩
  have hlength := congrArg List.length htail
  simp only [List.length_drop, List.length_cons, List.length_append] at hlength ⊢
  omega

theorem not_mem_decimal {stop : MboxChar} (hstop : isDigit stop = false) (n : ℕ) :
    stop ∉ decimal n := by
  intro hmem
  rw [isDigit_decimal stop hmem] at hstop
  cases hstop

/-- A number that a `long` can hold has room in a block for one. -/
theorem length_decimal_le_long {n : ℕ} (hn : n < 2 ^ 63) : (decimal n).length ≤ 25 := by
  apply length_decimal_le (by decide)
  exact hn.trans (by decide)

theorem toSize_natCast {n : ℕ} (hn : n < 2 ^ 64) : toSize (n : Int) = n := by
  simp only [toSize]
  omega

/-! ## Reading the lines -/

/-- The text of an index begins with the line of its first message. -/
theorem idxText_cons (m : MboxMsgLite) (msgs : List MboxMsgLite) :
    idxText (m :: msgs) = idxLine m ++ idxText msgs := rfl

/-- What the loop keeps: the arrays have 26 bytes, and the list holds the entries `es`. -/
structure EntriesCtx.Has (ctx : EntriesCtx) (es : List MboxIdxOffset) : Prop where
  tmpstart : ctx.tmpstart.length = 26
  tmpend : ctx.tmpend.length = 26
  list : ctx.l.Holds ctx.heap es

/-- **An iteration** reads a record: bytes up to a blank, and bytes up to a newline. -/
theorem EntriesCtx.Has.step {buf : MboxBuf} {ctx : EntriesCtx} {es : List MboxIdxOffset}
    {s e rest : List MboxChar} (hc : ctx.Has es) (hlt : ctx.offset < buf.len)
    (hdata : buf.data.drop ctx.offset = s ++ space :: (e ++ nl :: rest)) (hs : space ∉ s)
    (he : nl ∉ e) (hslen : s.length ≤ 25) (helen : e.length ≤ 25) :
    ∃ ctx' v w, indexesToListStep buf ctx = ok (.inl ctx') ∧
      ctx'.offset = ctx.offset + (s ++ space :: (e ++ [nl])).length ∧
      buf.data.drop ctx'.offset = rest ∧ ctx'.Has (es ++ [⟨toSize v, toSize w⟩]) ∧
      (∃ tail, atol (s ++ nul :: tail) = ok v) ∧ ∃ tail, atol (e ++ nul :: tail) = ok w := by
  have hdata₁ : buf.data.drop (ctx.offset + s.length + 1) = e ++ nl :: rest := by
    rw [Nat.add_assoc, ← List.drop_drop, hdata, List.drop_append]
    simp
  have hdata₂ : buf.data.drop (ctx.offset + s.length + 1 + e.length + 1) = rest := by
    rw [Nat.add_assoc, ← List.drop_drop, hdata₁, List.drop_append]
    simp
  obtain ⟨tmp₁, tail₁, v, hcopy₁, hstore₁, hlen₁, hv⟩ :=
    copyUntil_atol hs hslen (e ++ nl :: rest) hc.tmpstart
  obtain ⟨tmp₂, tail₂, w, hcopy₂, hstore₂, hlen₂, hw⟩ := copyUntil_atol he helen rest hc.tmpend
  rw [← hdata] at hcopy₁
  rw [← hdata₁] at hcopy₂
  obtain ⟨heap, l, hadd, hholds, -⟩ :=
    mboxListAddTail_spec (⟨toSize v, toSize w⟩ : MboxIdxOffset) hc.list
  refine ⟨⟨_, s ++ nul :: tail₁, e ++ nul :: tail₂, heap, l⟩, v, w, ?_, ?_, hdata₂,
    ⟨hlen₁, hlen₂, hholds⟩, ⟨tail₁, hv⟩, tail₂, hw⟩
  · simp only [indexesToListStep, if_neg (not_not.mpr hlt), hcopy₁, hcopy₂, hstore₁, hstore₂, hv,
      hw, hadd, ok_bind, pure_eq]
  · simp only [List.length_append, List.length_cons, List.length_nil]
    omega

/-- The loop has the lines of `rest` left, and the entries `es`. -/
structure EntriesCtx.At (buf : MboxBuf) (ctx : EntriesCtx) (rest : List MboxMsgLite)
    (es : List MboxIdxOffset) : Prop where
  data : ∃ tail, buf.data.drop ctx.offset = idxText rest ++ tail
  len : buf.len = ctx.offset + (idxText rest).length
  tmpstart : ctx.tmpstart.length = 26
  tmpend : ctx.tmpend.length = 26
  list : ctx.l.Holds ctx.heap es

namespace EntriesCtx.At

variable {buf : MboxBuf} {ctx : EntriesCtx} {m : MboxMsgLite} {rest : List MboxMsgLite}
  {es : List MboxIdxOffset}

/-- **An iteration** reads a line, and adds the entry of its message to the list. -/
theorem step (hc : ctx.At buf (m :: rest) es) (hstart : m.startOffset < 2 ^ 63)
    (hend : m.endOffset < 2 ^ 63) :
    ∃ ctx', indexesToListStep buf ctx = ok (.inl ctx') ∧ ctx'.At buf rest (es ++ [m.entry]) := by
  obtain ⟨tail, hdata⟩ := hc.data
  have hlen := hc.len
  have hlt : ctx.offset < buf.len := by
    rw [hlen, idxText_cons, List.length_append]
    have hpos := List.length_pos_iff.mpr (idxLine_ne_nil m)
    omega
  have hline : buf.data.drop ctx.offset = decimal m.startOffset ++ space ::
      (decimal m.endOffset ++ nl :: (idxText rest ++ tail)) := by
    rw [hdata, idxText_cons, idxLine]
    simp
  have hhas : ctx.Has es := ⟨hc.tmpstart, hc.tmpend, hc.list⟩
  obtain ⟨ctx', v, w, hstep, hoffset, hdata', hhas', ⟨t, hv⟩, t', hw⟩ := hhas.step hlt hline
    (not_mem_decimal (by decide) _) (not_mem_decimal (by decide) _) (length_decimal_le_long hstart)
    (length_decimal_le_long hend)
  obtain rfl : (m.startOffset : Int) = v :=
    ok.inj ((atol_decimal hstart (by decide) t).symm.trans hv)
  obtain rfl : (m.endOffset : Int) = w :=
    ok.inj ((atol_decimal hend (by decide) t').symm.trans hw)
  rw [toSize_natCast (by omega), toSize_natCast (by omega)] at hhas'
  refine ⟨ctx', hstep, ⟨tail, hdata'⟩, ?_, hhas'.tmpstart, hhas'.tmpend, hhas'.list⟩
  rw [hlen, hoffset, idxText_cons, idxLine]
  simp only [List.length_append, List.length_cons, List.length_nil]
  omega

/-- **The loop** reads all lines that are left, and adds an entry for each. -/
theorem run (hc : ctx.At buf rest es)
    (hoffsets : ∀ m ∈ rest, m.startOffset < 2 ^ 63 ∧ m.endOffset < 2 ^ 63) :
    ∃ ctx', LoopTo (fun _ => indexesToListStep buf) ctx ctx' ∧
      ctx'.l.Holds ctx'.heap (es ++ rest.map MboxMsgLite.entry) := by
  induction rest generalizing ctx es with
  | nil =>
    have hend : ¬ ctx.offset < buf.len := by
      rw [hc.len]
      exact Nat.lt_irrefl _
    refine ⟨ctx, LoopTo.done (Converges.const (if_pos hend)), ?_⟩
    rw [List.map_nil, List.append_nil]
    exact hc.list
  | cons m rest ih =>
    obtain ⟨hstart, hend⟩ := hoffsets m (List.mem_cons_self ..)
    obtain ⟨ctx₁, hstep, hc₁⟩ := hc.step hstart hend
    obtain ⟨ctx', hloop, hlist⟩ := ih hc₁ fun m' hm' => hoffsets m' (List.mem_cons_of_mem _ hm')
    refine ⟨ctx', LoopTo.step (Converges.const hstep) hloop, ?_⟩
    rwa [List.append_assoc] at hlist

end EntriesCtx.At

/-- **The text of an index is read back**: the list of entries has one for each line, with the
offsets that were written. -/
theorem indexesToList_idxText (fill : ℕ → MboxChar) (heap : Heap (MboxLNode MboxIdxOffset))
    {buf : MboxBuf} {msgs : List MboxMsgLite} (hbuf : buf.Holds (idxText msgs))
    (hoffset : buf.offset = 0)
    (hoffsets : ∀ m ∈ msgs, m.startOffset < 2 ^ 63 ∧ m.endOffset < 2 ^ 63) :
    ∃ heap' l, Converges (fun n => indexesToList fill heap buf n) (heap', l) ∧
      l.Holds heap' (msgs.map MboxMsgLite.entry) := by
  obtain ⟨rest, hdata⟩ := hbuf.data
  have hc : EntriesCtx.At buf
      ⟨buf.offset, resize fill [] 26, resize fill [] 26, heap, mboxListNew⟩ msgs [] := by
    refine ⟨⟨nul :: rest, ?_⟩, ?_, length_resize .., length_resize .., mboxListNew_holds heap⟩
    · simp only [hoffset, List.drop_zero, hdata]
    · simp only [hoffset, Nat.zero_add, hbuf.len]
  obtain ⟨ctx, hloop, hlist⟩ := hc.run hoffsets
  exact ⟨ctx.heap, ctx.l, hloop.converges.bind (Converges.const rfl), hlist⟩

/-! ## Reading the file -/

section Load

variable {fill : ℕ → MboxChar} {file : List MboxChar}

/-- A file below 4 GiB that is not empty is read into the buffer as a whole. -/
theorem loadIndexes_spec (fill : ℕ → MboxChar) (hne : file ≠ []) (hsize : file.length < 2 ^ 32) :
    ∃ ioctx, loadIndexes fill (preadRegular file) true file.length = ok (some ioctx) ∧
      ioctx.buf.Holds file ∧ ioctx.buf.offset = 0 := by
  have hall : (file.drop 0).take file.length = file := by rw [List.drop_zero, List.take_length]
  have hread : (file.drop 0).take file.length ≠ [] := by rwa [hall]
  obtain ⟨buf, hrun, hholds, hoffset, -⟩ :=
    mboxIORead_some fill (mboxIONew_sound fill file.length) hsize (Nat.zero_le _) hread
  rw [hall] at hrun hholds
  refine ⟨{ mboxIONew fill file.length with buf, err := mboxIOOk }, ?_, hholds, hoffset⟩
  simp only [loadIndexes, Bool.not_true, Bool.false_eq_true, if_false, hrun, ok_bind, ne_eq,
    not_true_eq_false, pure_eq]

/-- A length that is cut to 32 bits makes no room for the bytes. -/
theorem extend_of_le (fill : ℕ → MboxChar) {buf : MboxBuf} {size : ℕ}
    (hcap : buf.capacity = buf.data.length) (hsmall : buf.data.length < 2 ^ 32)
    (hsize : 2 ^ 32 ≤ size) :
    (mboxBufExtendBufferIfNeeded fill buf size).2.data.length < size := by
  have hmod : size % 2 ^ 32 + 2 ^ 32 ≤ size := by omega
  rw [mboxBufExtendBufferIfNeeded, if_pos (by omega), if_pos (by omega), mboxBufExtendBuffer]
  split
  · exact hsmall.trans_le hsize
  · simp only [length_resize]
    omega

/-- An index of 4 GiB cannot be read, since the capacity of a buffer is an `unsigned int`. -/
theorem loadIndexes_fault (fill : ℕ → MboxChar) (hsize : 2 ^ 32 ≤ file.length) :
    loadIndexes fill (preadRegular file) true file.length = fault := by
  have hsound := mboxIONew_sound fill file.length
  have hblock : (mboxIONew fill file.length).buf.data.length = mboxIOReadSize + 10 :=
    mboxBufAlloc_data_length _
  have hsmall : (mboxIONew fill file.length).buf.data.length < 2 ^ 32 := by
    rw [hblock]
    decide
  have hroom := extend_of_le fill hsound.capacity hsmall hsize
  have hfile : file ≠ [] := by
    rintro rfl
    exact absurd hsize (by decide)
  obtain ⟨b, bs, rfl⟩ := List.exists_cons_of_ne_nil hfile
  have hall : ((b :: bs).drop 0).take (b :: bs).length = b :: bs := by
    rw [List.drop_zero, List.take_length]
  have hstore : storeBytes (mboxBufExtendBufferIfNeeded fill (mboxIONew fill (b :: bs).length).buf
      (b :: bs).length).2.data 0 (b :: bs) = fault := by
    apply if_neg
    rw [Nat.zero_add]
    exact Nat.not_le.mpr hroom
  simp only [loadIndexes, Bool.not_true, Bool.false_eq_true, if_false, mboxIORead, preadRegular,
    hall, hstore, fault_bind]

end Load

/-! ## There and back -/

/-- What is saved is read back, where nothing fails: the entries of the messages, in the order of
their starts. -/
def RoundTrips (fill : ℕ → MboxChar) (bufsiz : ℕ) (h : Heap (MboxLNode MboxMsgLite))
    (old : List MboxChar) (l : MboxList) (msgs : List MboxMsgLite) : Prop :=
  ∃ r ioctx heap l' entries,
    Converges (fun n => mboxIdxSave fill bufsiz (callsWriting id) h old n l) r ∧
    r.ret = mboxIOOk ∧
    loadIndexes fill (preadRegular r.file) true r.file.length = ok (some ioctx) ∧
    Converges (fun n => indexesToList fill Heap.empty ioctx.buf n) (heap, l') ∧
    l'.Holds heap entries ∧ entries.Perm (msgs.map MboxMsgLite.entry) ∧
    entries.Pairwise fun e e' => e.startOffset ≤ e'.startOffset

section RoundTrip

variable {h : Heap (MboxLNode MboxMsgLite)} {l : MboxList} {msgs ys : List MboxMsgLite}
  {fill : ℕ → MboxChar} {bufsiz : ℕ} {old : List MboxChar}

/-- Where nothing fails, all lines are written. -/
theorem writeChunks_all (bufsiz : ℕ) (ys : List MboxMsgLite) :
    writeChunks (callsWriting id) 0 (saveChunks bufsiz ys) = (mboxIOOk, idxText ys) := by
  have hok := callsWriting_id_not_fails bufsiz ys
  have hbytes := (SaveCalls.writeChunks_bytes callsWriting_id_valid hok).1
    (callsWriting_id_writesAll bufsiz ys)
  rw [flatten_saveChunks] at hbytes
  exact Prod.ext ((SaveCalls.writeChunks_ok_iff callsWriting_id_valid).mpr hok) hbytes

/-- Offsets that an `ssize_t` can hold are those of a `size_t`. -/
theorem sized_of_lt (hoffsets : ∀ m ∈ msgs, m.startOffset < 2 ^ 63 ∧ m.endOffset < 2 ^ 63) :
    ∀ m ∈ msgs, m.Sized := by
  intro m hm
  obtain ⟨hstart, hend⟩ := hoffsets m hm
  exact ⟨by omega, by omega⟩

/-- A save where nothing fails writes the text of the index, in the order of the messages'
starts. -/
theorem save_all (fill : ℕ → MboxChar) (bufsiz : ℕ) (old : List MboxChar) (hl : l.Holds h msgs)
    (hne : msgs ≠ []) (hoffsets : ∀ m ∈ msgs, m.startOffset < 2 ^ 63 ∧ m.endOffset < 2 ^ 63)
    (hfree : l.locked = false) :
    ∃ ys h' l', Converges (fun n => mboxIdxSave fill bufsiz (callsWriting id) h old n l)
        ⟨mboxIOOk, idxText ys, h', l'⟩ ∧ ys.Perm msgs ∧ ys.Pairwise StartsBefore := by
  obtain ⟨ys, hys, hperm, hsorted⟩ := exists_sortsTo hl hfree
  obtain ⟨h', l', hrun, -⟩ := mboxIdxSave_spec fill bufsiz old hl hne (sized_of_lt hoffsets)
    callsWriting_id_valid rfl rfl hys hperm
  rw [writeChunks_all] at hrun
  exact ⟨ys, h', l', hrun, hperm, hsorted⟩

/-- A list that makes the round trip was not locked. -/
theorem RoundTrips.unlocked (hl : l.Holds h msgs) (hne : msgs ≠ [])
    (htrip : RoundTrips fill bufsiz h old l msgs) : l.locked = false := by
  obtain ⟨r, -, -, -, -, hrun, -⟩ := htrip
  obtain ⟨n, hn⟩ := hrun.exists_ok
  rw [← Bool.not_eq_true]
  intro htaken
  simp only [mboxIdxSave, if_neg (Holds.len_ne_zero hl hne), callsWriting, Bool.not_true,
    Bool.false_eq_true, if_false, mboxListQSort_locked _ n htaken] at hn
  cases hn

/-- An index that is read back has less than 4 GiB. -/
theorem RoundTrips.length_lt (hl : l.Holds h msgs) (hne : msgs ≠ [])
    (hoffsets : ∀ m ∈ msgs, m.startOffset < 2 ^ 63 ∧ m.endOffset < 2 ^ 63)
    (htrip : RoundTrips fill bufsiz h old l msgs) : (idxText msgs).length < 2 ^ 32 := by
  have hfree := htrip.unlocked hl hne
  obtain ⟨ys, h', l', hrun, hperm, -⟩ := save_all fill bufsiz old hl hne hoffsets hfree
  obtain ⟨r, ioctx, -, -, -, hr, -, hload, -⟩ := htrip
  obtain rfl := hr.unique hrun
  have hlength : (idxText ys).length = (idxText msgs).length :=
    (hperm.map idxLine).flatten.length_eq
  by_contra hlong
  rw [loadIndexes_fault fill (by rw [hlength]; exact Nat.not_lt.mp hlong)] at hload
  cases hload

/-- **A saved index is read back** exactly when the list is not locked and the index has less than 4
GiB, which is what an `unsigned int` can count. -/
theorem roundTrips_iff (fill : ℕ → MboxChar) (bufsiz : ℕ) (old : List MboxChar)
    (hl : l.Holds h msgs) (hne : msgs ≠ [])
    (hoffsets : ∀ m ∈ msgs, m.startOffset < 2 ^ 63 ∧ m.endOffset < 2 ^ 63) :
    RoundTrips fill bufsiz h old l msgs ↔
      l.locked = false ∧ (idxText msgs).length < 2 ^ 32 := by
  refine ⟨fun htrip => ⟨htrip.unlocked hl hne, htrip.length_lt hl hne hoffsets⟩,
    fun ⟨hfree, hsize⟩ => ?_⟩
  obtain ⟨ys, h', l', hrun, hperm, hsorted⟩ := save_all fill bufsiz old hl hne hoffsets hfree
  have hlength : (idxText ys).length = (idxText msgs).length :=
    (hperm.map idxLine).flatten.length_eq
  have hoffsets' : ∀ m ∈ ys, m.startOffset < 2 ^ 63 ∧ m.endOffset < 2 ^ 63 :=
    fun m hm => hoffsets m (hperm.mem_iff.mp hm)
  have hfile : idxText ys ≠ [] := by
    intro hnil
    exact not_isIndexOf_nil hne ⟨ys, hperm, hsorted, hnil.symm⟩
  rw [← hlength] at hsize
  obtain ⟨ioctx, hload, hbuf, hoffset⟩ := loadIndexes_spec fill hfile hsize
  obtain ⟨heap, l'', hread, hlist⟩ :=
    indexesToList_idxText fill Heap.empty hbuf hoffset hoffsets'
  refine ⟨_, ioctx, heap, l'', _, hrun, rfl, hload, hread, hlist, hperm.map _, ?_⟩
  refine List.pairwise_map.mpr (hsorted.imp_of_mem fun {m m'} hm hm' hle => ?_)
  rw [StartsBefore, toSsize, toSsize, if_pos (hoffsets' m hm).1, if_pos (hoffsets' m' hm').1] at hle
  exact Int.ofNat_le.mp hle

/-- Two messages, of which the one in front in the list is the second in the mailbox. -/
theorem roundTrips_iff_twoMsgs : ∃ h l, l.Holds h [lateMsg, oneMsg] ∧
    RoundTrips (fun _ => nul) 8192 h [] l [lateMsg, oneMsg] := by
  obtain ⟨h, l, hl, hfree⟩ := exists_msgList [lateMsg, oneMsg]
  refine ⟨h, l, hl, (roundTrips_iff _ _ _ hl (List.cons_ne_nil _ _) fun m hm => ?_).mpr
    ⟨hfree, ?_⟩⟩
  · rcases List.mem_cons.mp hm with rfl | hm
    · exact ⟨by decide, by decide⟩
    · rw [List.mem_singleton.mp hm]
      exact ⟨by decide, by decide⟩
  · simp [idxText, idxLine, lateMsg, oneMsg, decimal]

/-- The index of `2 ^ 30` messages, with four bytes for each, is not read back. -/
theorem longIndex_notRead :
    ∃ h l, l.Holds h (List.replicate (2 ^ 30) oneMsg) ∧ l.locked = false ∧
      ¬ RoundTrips (fun _ => nul) 8192 h [] l (List.replicate (2 ^ 30) oneMsg) := by
  obtain ⟨h, l, hl, hfree⟩ := exists_msgList (List.replicate (2 ^ 30) oneMsg)
  refine ⟨h, l, hl, hfree, fun htrip => ?_⟩
  have hne : List.replicate (2 ^ 30) oneMsg ≠ [] := by
    rw [ne_eq, List.replicate_eq_nil_iff]
    decide
  have hlt := htrip.length_lt hl hne fun m hm => by
    rw [List.eq_of_mem_replicate hm]
    exact ⟨by decide, by decide⟩
  have hline : (idxLine oneMsg).length = 4 := by simp [idxLine, oneMsg, decimal]
  have hlength : (idxText (List.replicate (2 ^ 30) oneMsg)).length = 2 ^ 30 * 4 := by
    rw [idxText, List.map_replicate, List.length_flatten, List.map_replicate,
      List.sum_replicate_nat, hline]
  rw [hlength] at hlt
  exact absurd hlt (by decide)

end RoundTrip

end Libmbox2
