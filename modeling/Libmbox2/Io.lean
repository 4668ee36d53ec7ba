import Libmbox2.Buf
import Libmbox2.Slice

/-!
# Reading a file (`mbox-io.c`)

`pread` is a parameter: what the call returns for a size and a position, `none` for a
failure. `preadRegular` is a regular file: the bytes asked for, or those that are
left.

All of the parsers read through `mboxIORead`, and what they rely on is that the
buffer is a *window* on the file (`Window`): it holds the bytes from some position up
to `file_offset`. Reading on at `file_offset` moves the end of the window.
-/

namespace Libmbox2

open CSem CSem.Exec

/-- `MBOX_IO_OK`, no error. -/
abbrev mboxIOOk : Int := 0

/-- `MBOX_IO_READ_ERR`, a read that failed. -/
abbrev mboxIOReadErr : Int := -1

/-- `MBOX_IO_EOF`, nothing is left to read. -/
abbrev mboxIOEof : Int := -2

/-- `MBOX_IO_READ_SIZE`, how many bytes one read asks for. -/
def mboxIOReadSize : ℕ := 300000

theorem mboxIOReadSize_pos : 0 < mboxIOReadSize := by decide

theorem mboxIOReadSize_lt : mboxIOReadSize < 2 ^ 32 := by decide

/-- `struct mboxIOCtx`, without the descriptor: each function takes what reading from
it gives. The offsets are never negative. -/
structure MboxIOCtx where
  /-- error code, `0` is all good -/
  err : Int
  /-- where the message that is being parsed starts in the file -/
  offset : ℕ
  /-- where we start in the file -/
  startOffset : ℕ
  /-- where we end in the file -/
  endOffset : ℕ
  /-- how far we have read the file -/
  fileOffset : ℕ
  /-- size of the file -/
  fileSize : ℕ
  /-- buffer for reading into -/
  buf : MboxBuf
  deriving DecidableEq, Repr

/-- What `pread(fd, _, size, offset)` puts into the buffer, `none` on failure. -/
abbrev Pread : Type := ℕ → ℕ → Option (List MboxChar)

/-- Reading from a regular file: `pread` gives as many bytes as are asked for, unless the file ends
before. -/
def preadRegular (file : List MboxChar) : Pread :=
  fun size offset => some ((file.drop offset).take size)

section Functions

variable (fill : ℕ → MboxChar) (pread : Pread)

/-- A context for a file of this size, with an empty buffer for one read. Nothing has been read, and
the range it is to go through is empty until somebody sets it. -/
def mboxIONew (fileSize : ℕ) : MboxIOCtx where
  err := mboxIOOk
  offset := 0
  startOffset := 0
  endOffset := 0
  fileOffset := 0
  fileSize := fileSize
  buf := mboxBufAlloc fill mboxIOReadSize

/-- One `pread` of `size` bytes, which go behind the first `bufOffset` bytes of the buffer. It
returns the number of bytes read, or `-1`; the buffer is made bigger beforehand, whatever comes. -/
def mboxIORead (ioctx : MboxIOCtx) (size bufOffset offset : ℕ) : Exec (Int × MboxIOCtx) := do
  let buf := (mboxBufExtendBufferIfNeeded fill ioctx.buf size).2
  match pread size offset with
  | none => pure (-1, { ioctx with buf, err := mboxIOReadErr })
  | some [] => pure (0, { ioctx with buf, err := mboxIOEof })
  | some (b :: bs) =>
    let data ← storeBytes buf.data bufOffset (b :: bs)
    let buf ← mboxBufSetLen { buf with data } (bufOffset + (b :: bs).length)
    pure ((b :: bs).length, { ioctx with buf, err := mboxIOOk })

end Functions

/-! ## What a read does -/

variable {fill : ℕ → MboxChar} {file : List MboxChar} {ioctx : MboxIOCtx}

/-- The capacity is what is allocated, and the contents leave room for a NUL. -/
structure MboxBuf.Sound (buf : MboxBuf) : Prop where
  /-- the capacity is that of the block -/
  capacity : buf.capacity = buf.data.length
  /-- there is room for a terminator -/
  room : buf.len < buf.data.length

/-- An empty buffer: there are no contents, the parser stands at their start, and the first byte of
the block is the terminator. -/
structure MboxBuf.Empty (buf : MboxBuf) : Prop where
  len : buf.len = 0
  offset : buf.offset = 0
  /-- there is room for a terminator -/
  room : buf.data ≠ []
  capacity : buf.capacity = buf.data.length

/-- Emptying a buffer, as it is done between two messages. -/
theorem mboxBufSetLen_zero {buf : MboxBuf} (hs : buf.Sound) :
    ∃ buf', mboxBufSetLen buf 0 = ok buf' ∧ (mboxBufSetOffset buf' 0).Empty := by
  have hroom := hs.room
  obtain ⟨y, rest, hdata⟩ : ∃ y rest, buf.data = y :: rest :=
    List.exists_cons_of_ne_nil (List.length_pos_iff.mp (by omega))
  refine ⟨_, mboxBufSetLen_append [] rest hdata, rfl, rfl, by simp [mboxBufSetOffset], ?_⟩
  simp only [mboxBufSetOffset, hs.capacity, hdata, List.nil_append, List.length_cons]

/-- The buffer of a new context has the capacity that is recorded for it. -/
theorem mboxIONew_sound (fill : ℕ → MboxChar) (fileSize : ℕ) :
    (mboxIONew fill fileSize).buf.Sound :=
  ⟨(mboxBufAlloc_data_length _).symm, by
    rw [mboxIONew, mboxBufAlloc_data_length, mboxBufAlloc_len]
    exact Nat.succ_pos _⟩

/-- The buffer of a new context is empty; its first byte is the one that fresh memory is given. -/
theorem mboxIONew_empty (fill : ℕ → MboxChar) (fileSize : ℕ) :
    (mboxIONew fill fileSize).buf.Empty where
  len := rfl
  offset := rfl
  room := by
    rw [← List.length_pos_iff, mboxIONew, mboxBufAlloc_data_length]
    exact Nat.succ_pos _
  capacity := (mboxBufAlloc_data_length _).symm

/-- Nothing comes: the buffer is made bigger all the same, but it keeps its contents, and the end of
the file is noted. -/
theorem mboxIORead_empty (fill : ℕ → MboxChar) {pread : Pread} {size offset : ℕ} (bufOffset : ℕ)
    (hs : ioctx.buf.Sound) (hsize : size < 2 ^ 32) (hpread : pread size offset = some []) :
    ∃ buf tail, mboxIORead fill pread ioctx size bufOffset offset =
        ok (0, { ioctx with buf, err := mboxIOEof }) ∧
      buf.data = ioctx.buf.data ++ tail ∧ buf.len = ioctx.buf.len ∧
      buf.offset = ioctx.buf.offset ∧ buf.Sound := by
  obtain ⟨tail, hgrow, -⟩ := mboxBufExtendBufferIfNeeded_spec fill hs.capacity hs.room hsize
  have hroom := hs.room
  refine ⟨{ ioctx.buf with
      data := ioctx.buf.data ++ tail, capacity := (ioctx.buf.data ++ tail).length }, tail, ?_,
    rfl, rfl, rfl, rfl, ?_⟩
  · simp only [mboxIORead, hpread, hgrow, pure_eq]
  · rw [List.length_append]
    exact Nat.lt_add_right _ hroom

/-- The bytes that come go behind the first `bufOffset` bytes of the buffer and become the
end of its contents. -/
theorem mboxIORead_bytes (fill : ℕ → MboxChar) {pread : Pread} {size bufOffset offset : ℕ}
    {bytes : List MboxChar} (hs : ioctx.buf.Sound) (hsize : size < 2 ^ 32)
    (hoff : bufOffset ≤ ioctx.buf.len) (hpread : pread size offset = some bytes)
    (hbytes : bytes.length ≤ size) (hne : bytes ≠ []) :
    ∃ buf, mboxIORead fill pread ioctx size bufOffset offset =
        ok ((bytes.length : Int), { ioctx with buf, err := mboxIOOk }) ∧
      buf.Holds (ioctx.buf.data.take bufOffset ++ bytes) ∧
      buf.offset = ioctx.buf.offset ∧ buf.Sound := by
  obtain ⟨tail, hgrow, hroom⟩ :=
    mboxBufExtendBufferIfNeeded_spec fill hs.capacity hs.room hsize
  obtain ⟨b, bs, rfl⟩ := List.exists_cons_of_ne_nil hne
  have hsplit : ioctx.buf.data ++ tail =
      ioctx.buf.data.take bufOffset ++ (ioctx.buf.data.drop bufOffset ++ tail) := by
    rw [← List.append_assoc, List.take_append_drop]
  have hpre : (ioctx.buf.data.take bufOffset).length = bufOffset :=
    List.length_take_of_le (hoff.trans hs.room.le)
  have hrest : (ioctx.buf.data.drop bufOffset ++ tail).length + bufOffset =
      (ioctx.buf.data ++ tail).length := by
    have := hs.room
    simp only [List.length_append, List.length_drop]
    omega
  -- the bytes go behind the first `bufOffset` ones, and leave room for a terminator
  have hstore : storeBytes (ioctx.buf.data.take bufOffset ++
      (ioctx.buf.data.drop bufOffset ++ tail)) _ (b :: bs) = _ :=
    storeBytes_append (ioctx.buf.data.take bufOffset) (by omega)
  obtain ⟨y, rest, hy⟩ : ∃ y rest,
      (ioctx.buf.data.drop bufOffset ++ tail).drop (b :: bs).length = y :: rest :=
    ⟨_, _, List.drop_eq_getElem_cons (by omega)⟩
  rw [hpre, hy] at hstore
  have hset : mboxBufSetLen ⟨ioctx.buf.data.take bufOffset ++ (b :: bs) ++ y :: rest,
      ioctx.buf.offset, ioctx.buf.len, (ioctx.buf.data ++ tail).length⟩ _ = _ :=
    mboxBufSetLen_append (ioctx.buf.data.take bufOffset ++ (b :: bs)) rest rfl
  have hlen : (ioctx.buf.data.take bufOffset ++ b :: bs).length =
      bufOffset + (b :: bs).length := by rw [List.length_append, hpre]
  rw [hlen] at hset
  refine ⟨⟨ioctx.buf.data.take bufOffset ++ b :: bs ++ nul :: rest, ioctx.buf.offset,
      bufOffset + (b :: bs).length, (ioctx.buf.data ++ tail).length⟩,
    ?_, ⟨hlen.symm, rest, rfl⟩, rfl, ⟨?_, ?_⟩⟩
  · simp only [mboxIORead, hpread, hgrow]
    rw [hsplit, hstore, ok_bind, ← hsplit]
    simp only [hset, ok_bind, pure_eq]
  · have hylen := congrArg List.length hy
    rw [List.length_drop, List.length_cons] at hylen
    simp only [List.length_append, List.length_cons, hpre] at hrest hylen ⊢
    omega
  · simp only [List.length_append, List.length_cons, hpre]
    omega

/-- From a regular file nothing comes at its end or behind it. -/
theorem mboxIORead_nil (fill : ℕ → MboxChar) {size offset : ℕ} (bufOffset : ℕ)
    (hs : ioctx.buf.Sound) (hsize : size < 2 ^ 32)
    (hnil : (file.drop offset).take size = []) :
    ∃ buf tail, mboxIORead fill (preadRegular file) ioctx size bufOffset offset =
        ok (0, { ioctx with buf, err := mboxIOEof }) ∧
      buf.data = ioctx.buf.data ++ tail ∧ buf.len = ioctx.buf.len ∧
      buf.offset = ioctx.buf.offset ∧ buf.Sound :=
  mboxIORead_empty fill bufOffset hs hsize (congrArg some hnil)

/-- From a regular file come the bytes at the offset, as many as are asked for and are there. -/
theorem mboxIORead_some (fill : ℕ → MboxChar) {size bufOffset offset : ℕ}
    (hs : ioctx.buf.Sound)
    (hsize : size < 2 ^ 32) (hoff : bufOffset ≤ ioctx.buf.len)
    (hne : (file.drop offset).take size ≠ []) :
    ∃ buf, mboxIORead fill (preadRegular file) ioctx size bufOffset offset =
        ok ((((file.drop offset).take size).length : Int), { ioctx with buf, err := mboxIOOk }) ∧
      buf.Holds (ioctx.buf.data.take bufOffset ++ (file.drop offset).take size) ∧
      buf.offset = ioctx.buf.offset ∧ buf.Sound :=
  mboxIORead_bytes fill hs hsize hoff rfl (List.length_take_le _ _) hne

/-! ## Windows -/

/-- The buffer holds the bytes of the file from `a` up to `file_offset`. -/
structure Window (file : List MboxChar) (a : ℕ) (ioctx : MboxIOCtx) : Prop where
  /-- the contents of the buffer -/
  holds : ioctx.buf.Holds (slice file a ioctx.fileOffset)
  /-- the window does not end before it begins -/
  le : a ≤ ioctx.fileOffset
  /-- nor behind the end of the file -/
  inFile : ioctx.fileOffset ≤ file.length
  /-- the capacity is that of the block -/
  capacity : ioctx.buf.capacity = ioctx.buf.data.length

namespace Window

variable {a : ℕ}

/-- The window is as long as the part of the file that it holds. -/
theorem len_eq (h : Window file a ioctx) : ioctx.buf.len = ioctx.fileOffset - a := by
  rw [h.holds.len, length_slice h.le h.inFile]

/-- The buffer of a window is sound, so more can be read into it. -/
theorem sound (h : Window file a ioctx) : ioctx.buf.Sound :=
  ⟨h.capacity, by rw [h.holds.len]; exact h.holds.length_lt⟩

/-- A window stays one when the parser moves: only the position in the buffer changes. -/
theorem setOffset (h : Window file a ioctx) (o : ℕ) :
    Window file a { ioctx with buf := mboxBufSetOffset ioctx.buf o } :=
  ⟨h.holds.setOffset o, h.le, h.inFile, h.capacity⟩

/-- The window has reached the end of the file, so a read adds nothing to it. -/
theorem read_eof (fill : ℕ → MboxChar) (h : Window file a ioctx)
    (heof : ioctx.fileOffset = file.length) {size : ℕ} (hsize : size < 2 ^ 32) :
    ∃ buf, mboxIORead fill (preadRegular file) ioctx size ioctx.buf.len ioctx.fileOffset =
        ok (0, { ioctx with buf, err := mboxIOEof }) ∧
      buf.offset = ioctx.buf.offset ∧
      Window file a { ioctx with buf, err := mboxIOEof } := by
  have hnil : (file.drop ioctx.fileOffset).take size = [] := by
    rw [heof, List.drop_length, List.take_nil]
  obtain ⟨buf, tail, hread, hbuf, hlen, hoff, hsound⟩ :=
    mboxIORead_nil fill ioctx.buf.len h.sound hsize hnil
  obtain ⟨rest, hdata⟩ := h.holds.data
  refine ⟨buf, hread, hoff, ⟨hlen.trans h.holds.len, rest ++ tail, ?_⟩, h.le, h.inFile,
    hsound.capacity⟩
  rw [hbuf, hdata, List.append_assoc, List.cons_append]

/-- There is more to read: the window grows by at least one byte, and by as many as are asked for
where the file is long enough. -/
theorem read_more (fill : ℕ → MboxChar) (h : Window file a ioctx)
    (hmore : ioctx.fileOffset < file.length) {size : ℕ} (hpos : 0 < size) (hsize : size < 2 ^ 32) :
    ∃ buf n, mboxIORead fill (preadRegular file) ioctx size ioctx.buf.len ioctx.fileOffset =
        ok (((n : ℕ) : Int), { ioctx with buf, err := mboxIOOk }) ∧ 0 < n ∧
      ioctx.fileOffset + n = min file.length (ioctx.fileOffset + size) ∧
      buf.offset = ioctx.buf.offset ∧
      Window file a { ioctx with buf, err := mboxIOOk, fileOffset := ioctx.fileOffset + n } := by
  have hn : ((file.drop ioctx.fileOffset).take size).length =
      min size (file.length - ioctx.fileOffset) := by
    rw [List.length_take, List.length_drop]
  have hne : (file.drop ioctx.fileOffset).take size ≠ [] := by
    rw [← List.length_pos_iff, hn]
    omega
  obtain ⟨buf, hread, hholds, hoff, hsound⟩ := mboxIORead_some fill h.sound hsize
    (le_refl ioctx.buf.len) hne
  have hend : ioctx.fileOffset + ((file.drop ioctx.fileOffset).take size).length =
      min file.length (ioctx.fileOffset + size) := by
    have := h.inFile
    omega
  refine ⟨buf, _, hread, by omega, hend, hoff, ⟨?_, ?_, ?_, hsound.capacity⟩⟩
  · obtain ⟨rest, hdata⟩ := h.holds.data
    rw [hdata, h.holds.len, List.take_left, slice_append_take h.le h.inFile] at hholds
    simpa only [hend] using hholds
  · have := h.le
    simp only
    omega
  · simp only [hend]
    omega

end Window

end Libmbox2
