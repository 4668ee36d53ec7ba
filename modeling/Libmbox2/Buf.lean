import Libmbox2.Memory

/-!
# Buffers (`mbox-buf.c`)

`MboxBuf` is `struct mboxBuf`: `data` is the whole allocated block, not just the
first `len` bytes of it, so what lies behind the contents (the terminator, bytes of
an earlier, longer contents, fresh memory) is there to be read. `fill` is what
`malloc` and `realloc` leave in fresh memory; both are taken to succeed.

A buffer *holds* `xs` when its contents are `xs` and a NUL follows them
(`MboxBuf.Holds`); this is what every operation that sets `len` re-establishes.
-/

namespace Libmbox2

open CSem CSem.Exec

/-- `mboxChar`, an `unsigned char`: one byte of a mail. -/
abbrev MboxChar : Type := UInt8

/-- `'\0'` -/
abbrev nul : MboxChar := 0

/-- `'\n'` -/
abbrev nl : MboxChar := 10

/-- `'\r'` -/
abbrev cr : MboxChar := 13

/-- `':'` -/
abbrev colon : MboxChar := 58

/-- `' '` -/
abbrev space : MboxChar := 32

/-- `'\t'` -/
abbrev tab : MboxChar := 9

/-- `'"'` -/
abbrev dquote : MboxChar := 34

/-- `size_t` subtraction, which wraps around: where the second number is the greater one, the result
is a huge size and no negative one. -/
def sizeSub (a b : ℕ) : ℕ := if b ≤ a then a - b else a + 2 ^ 64 - b

theorem sizeSub_of_le {a b : ℕ} (h : b ≤ a) : sizeSub a b = a - b := if_pos h

/-- `struct mboxBuf`. The block `data` and the `capacity` that is recorded for it are kept apart, as
in the source, where they often differ; so are the length of the contents and the position `offset`
up to where they have been parsed. -/
structure MboxBuf where
  /-- the allocated block -/
  data : List MboxChar
  /-- where a parser stands -/
  offset : ℕ
  /-- how many bytes are contents -/
  len : ℕ
  /-- how many bytes the code takes to be allocated -/
  capacity : ℕ
  deriving DecidableEq, Repr

/-- The contents of a buffer: the first `len` bytes of its block. What is behind them, the
terminator among it, is not part of them. -/
def MboxBuf.bytes (buf : MboxBuf) : List MboxChar := buf.data.take buf.len

section Functions

variable (fill : ℕ → MboxChar)

/-- A fresh buffer. Its block has ten bytes more than is asked for, they hold whatever lies in fresh
memory, and the greater capacity is the one that is recorded. -/
def mboxBufAlloc (capacity : ℕ) : MboxBuf where
  data := resize fill [] (capacity + 10)
  offset := 0
  len := 0
  capacity := capacity + 10

/-- The length is set, and a NUL is written behind the contents, which has to be inside the
block. -/
def mboxBufSetLen (buf : MboxBuf) (len : ℕ) : Exec MboxBuf := do
  let data ← store buf.data len nul
  pure { buf with data, len }

def mboxBufSetOffset (buf : MboxBuf) (offset : ℕ) : MboxBuf := { buf with offset }

/-- The block is made bigger by `additional` bytes. The parameter is an `unsigned int`, whatever the
caller passes, so a size of 4 GiB or more is cut to its lowest 32 bits; where nothing is left of it
the block stays as it is. -/
def mboxBufExtendBuffer (buf : MboxBuf) (additional : ℕ) : Int × MboxBuf :=
  let newCapacity := buf.capacity + additional % 2 ^ 32
  if newCapacity ≤ buf.capacity then (-1, buf)
  else (1, { buf with data := resize fill buf.data newCapacity, capacity := newCapacity })

/-- The block is made bigger, by 256 bytes at least, when the contents, the new bytes and a
terminator would fill the capacity that is recorded. -/
def mboxBufExtendBufferIfNeeded (buf : MboxBuf) (additional : ℕ) : Int × MboxBuf :=
  if buf.capacity ≤ buf.len + 1 + additional then
    mboxBufExtendBuffer fill buf (if additional > 256 then additional else 256)
  else (0, buf)

/-- A byte and a terminator are written behind the contents. -/
def mboxBufPutChar (buf : MboxBuf) (ch : MboxChar) : Exec MboxBuf := do
  let buf := (mboxBufExtendBufferIfNeeded fill buf 100).2
  let data ← store buf.data buf.len ch
  let data ← store data (buf.len + 1) nul
  pure { buf with data, len := buf.len + 1 }

/-- `memmove` within the block: `size` bytes go from `src` to `dst`, the NUL goes to the position
`size`, and `size` is the length now, whatever `dst` was. -/
def mboxBufSlice (buf : MboxBuf) (src dst size : ℕ) : Exec MboxBuf := do
  let bytes ← loadBytes buf.data src size
  let data ← storeBytes buf.data dst bytes
  let data ← store data size nul
  pure { buf with data, len := size }

/-- A buffer with a copy of the first `len` bytes of `s`, the memory from the pointer that is passed
to the end of its block. It records the capacity it was asked for, not the ten bytes more that
`mboxBufAlloc` has given it. -/
def mboxBufDupRaw (s : List MboxChar) (len capacity : ℕ) : Exec MboxBuf := do
  let dupe := mboxBufAlloc fill capacity
  let bytes ← loadBytes s 0 len
  let data ← storeBytes dupe.data 0 bytes
  let dupe ← mboxBufSetLen { dupe with data } len
  pure { dupe with capacity }

/-- A copy of a buffer, whose recorded capacity is the length of the contents. -/
def mboxBufDup (buf : MboxBuf) : Exec MboxBuf := do
  let dupe := mboxBufAlloc fill buf.len
  let bytes ← loadBytes buf.data 0 buf.len
  let data ← storeBytes dupe.data 0 bytes
  let dupe ← mboxBufSetLen { dupe with data } buf.len
  pure { dupe with capacity := buf.len }

/-- Overwrites the contents with `len` bytes of `s`; it returns how many were written. -/
def mboxBufWrite (buf : MboxBuf) (s : List MboxChar) (len : ℕ) : Exec (ℕ × MboxBuf) := do
  let buf := (mboxBufExtendBufferIfNeeded fill buf len).2
  let bytes ← loadBytes s 0 len
  let data ← storeBytes buf.data 0 bytes
  let data ← store data len nul
  pure (len, { buf with data, len })

/-- Appends `len` bytes, taken from the memory `d`, to the contents. -/
def mboxBufCatLen (buf : MboxBuf) (d : List MboxChar) (len : ℕ) : Exec MboxBuf := do
  let buf := (mboxBufExtendBufferIfNeeded fill buf len).2
  let bytes ← loadBytes d 0 len
  let data ← storeBytes buf.data buf.len bytes
  let data ← store data (buf.len + len) nul
  pure { buf with data, len := buf.len + len }

/-- Appends `text`, which is what the format and its arguments give, without a NUL. The buffer it is
formatted into first is made bigger until it fits. The source passes the same `va_list` to
`vsnprintf` again after that, which is undefined; as the first array has 512 bytes this is for texts
of 511 bytes and more, and all the texts that the modelled callers pass are shorter. -/
def mboxBufCatPrintf (buf : MboxBuf) (text : List MboxChar) : Exec MboxBuf :=
  mboxBufCatLen fill buf (text ++ [nul]) text.length

end Functions

/-! ## What the operations leave in a buffer -/

/-- The contents of the buffer are `xs`, and a NUL follows them: this is what the string functions
of the library rely on, and what most of the functions that make a buffer promise. -/
structure MboxBuf.Holds (buf : MboxBuf) (xs : List MboxChar) : Prop where
  /-- the length is that of the contents -/
  len : buf.len = xs.length
  /-- the block begins with the contents and their terminator -/
  data : ∃ rest, buf.data = xs ++ nul :: rest

namespace MboxBuf.Holds

variable {buf : MboxBuf} {xs : List MboxChar}

theorem bytes_eq (h : buf.Holds xs) : buf.bytes = xs := by
  obtain ⟨rest, hd⟩ := h.data
  rw [MboxBuf.bytes, hd, h.len, List.take_left]

/-- The terminator is inside the block, so the contents do not fill it. -/
theorem length_lt (h : buf.Holds xs) : xs.length < buf.data.length := by
  obtain ⟨rest, hd⟩ := h.data
  rw [hd]
  simp

/-- Moving the parse position changes nothing about what the buffer holds. -/
theorem setOffset (h : buf.Holds xs) (o : ℕ) : (mboxBufSetOffset buf o).Holds xs :=
  ⟨h.len, h.data⟩

end MboxBuf.Holds

variable {fill : ℕ → MboxChar}

@[simp] theorem mboxBufSetOffset_offset (buf : MboxBuf) (o : ℕ) :
    (mboxBufSetOffset buf o).offset = o := rfl

@[simp] theorem mboxBufSetOffset_len (buf : MboxBuf) (o : ℕ) :
    (mboxBufSetOffset buf o).len = buf.len := rfl

@[simp] theorem mboxBufSetOffset_data (buf : MboxBuf) (o : ℕ) :
    (mboxBufSetOffset buf o).data = buf.data := rfl

@[simp] theorem mboxBufAlloc_len (c : ℕ) : (mboxBufAlloc fill c).len = 0 := rfl

@[simp] theorem mboxBufAlloc_offset (c : ℕ) : (mboxBufAlloc fill c).offset = 0 := rfl

@[simp] theorem mboxBufAlloc_data_length (c : ℕ) :
    (mboxBufAlloc fill c).data.length = c + 10 := by simp [mboxBufAlloc]

/-- In a block that begins with `xs` and has room for one more byte, setting the length to that of
`xs` replaces this byte by the terminator. -/
theorem mboxBufSetLen_append {buf : MboxBuf} (xs rest : List MboxChar) {y : MboxChar}
    (h : buf.data = xs ++ y :: rest) :
    mboxBufSetLen buf xs.length =
      ok { buf with data := xs ++ nul :: rest, len := xs.length } := by
  rw [mboxBufSetLen, h, store_append_length, ok_bind, pure_eq]

/-- Moving bytes to the front of the block, with room for a terminator behind them. -/
theorem mboxBufSlice_front {buf : MboxBuf} (pre xs rest : List MboxChar) {y : MboxChar}
    (hdata : buf.data = pre ++ (xs ++ y :: rest)) :
    ∃ rest', mboxBufSlice buf pre.length 0 xs.length =
        ok { buf with data := xs ++ nul :: rest', len := xs.length } ∧
      (xs ++ nul :: rest').length = buf.data.length := by
  have hroom : xs.length < buf.data.length := by
    rw [hdata]
    simp only [List.length_append, List.length_cons]
    omega
  have hload : loadBytes buf.data pre.length xs.length = ok xs := by
    rw [hdata, ← List.append_assoc]
    exact loadBytes_append
  have hstore : storeBytes ([] ++ buf.data) 0 xs = ok ([] ++ xs ++ buf.data.drop xs.length) :=
    storeBytes_append [] hroom.le
  rw [List.nil_append, List.nil_append, List.drop_eq_getElem_cons hroom] at hstore
  refine ⟨buf.data.drop (xs.length + 1), ?_, ?_⟩
  · simp only [mboxBufSlice, hload, hstore, ok_bind, store_append_length, pure_eq]
  · simp only [List.length_append, List.length_cons, List.length_drop]
    omega

/-- Growing a buffer by less than `2^32` makes room for the bytes and their
terminator, and leaves the contents alone. -/
theorem mboxBufExtendBufferIfNeeded_spec (fill : ℕ → MboxChar) {buf : MboxBuf} {additional : ℕ}
    (hcap : buf.capacity = buf.data.length) (hlen : buf.len < buf.data.length)
    (hadd : additional < 2 ^ 32) :
    ∃ tail, (mboxBufExtendBufferIfNeeded fill buf additional).2 =
        { buf with data := buf.data ++ tail, capacity := (buf.data ++ tail).length } ∧
      buf.len + additional < (buf.data ++ tail).length := by
  rw [mboxBufExtendBufferIfNeeded]
  by_cases h : buf.capacity ≤ buf.len + 1 + additional
  · rw [if_pos h]
    generalize hk : (if additional > 256 then additional else 256) = k
    have hk0 : additional ≤ k ∧ 256 ≤ k ∧ k < 2 ^ 32 := by
      subst hk
      split <;> omega
    rw [mboxBufExtendBuffer, Nat.mod_eq_of_lt hk0.2.2, if_neg (by omega)]
    obtain ⟨tail, htail⟩ := resize_eq_append fill (d := buf.data) (n := buf.capacity + k) (by omega)
    have hlength : (buf.data ++ tail).length = buf.capacity + k := by
      rw [← htail, length_resize]
    refine ⟨tail, ?_, by omega⟩
    rw [htail, hlength]
  · rw [if_neg h]
    refine ⟨[], ?_, ?_⟩
    · rw [List.append_nil, ← hcap]
    · rw [List.append_nil]
      omega

/-- A byte goes behind the contents of a block that has been made big enough. -/
theorem mboxBufPutChar_grown (fill : ℕ → MboxChar) {buf grown : MboxBuf} (ch : MboxChar)
    (hgrow : (mboxBufExtendBufferIfNeeded fill buf 100).2 = grown)
    (hroom : grown.len + 1 < grown.data.length) :
    ∃ rest, mboxBufPutChar fill buf ch =
        ok { grown with data := grown.bytes ++ ch :: nul :: rest, len := grown.len + 1 } ∧
      (grown.bytes ++ ch :: nul :: rest).length = grown.data.length := by
  have hbytes : grown.bytes.length = grown.len :=
    List.length_take_of_le (Nat.le_of_lt (Nat.lt_of_succ_lt hroom))
  -- behind the contents are a byte for the new one and one for its terminator
  have hdata : grown.data = grown.bytes ++ grown.data[grown.len] :: grown.data[grown.len + 1] ::
      grown.data.drop (grown.len + 2) := by
    rw [← List.drop_eq_getElem_cons hroom, ← List.drop_eq_getElem_cons, MboxBuf.bytes,
      List.take_append_drop]
  generalize grown.data[grown.len] = y at hdata
  generalize grown.data[grown.len + 1] = z at hdata
  generalize grown.data.drop (grown.len + 2) = rest at hdata
  have hch := store_append_length grown.bytes (z :: rest) y ch
  have hnul := store_append_length (grown.bytes ++ [ch]) rest z nul
  rw [hbytes, ← hdata] at hch
  rw [List.length_append, hbytes, List.length_singleton, List.append_assoc, List.append_assoc,
    List.singleton_append, List.singleton_append] at hnul
  refine ⟨rest, ?_, ?_⟩
  · simp only [mboxBufPutChar, hgrow, hch, hnul, ok_bind, pure_eq]
  · rw [hdata]
    simp only [List.length_append, List.length_cons]

/-- A copy holds the bytes it was made from, in a fresh block. -/
theorem mboxBufDupRaw_spec (fill : ℕ → MboxChar) {s : List MboxChar} {len capacity : ℕ}
    (hs : len ≤ s.length) (hc : len ≤ capacity + 9) :
    ∃ buf, mboxBufDupRaw fill s len capacity = ok buf ∧ buf.Holds (s.take len) ∧
      buf.offset = 0 ∧ buf.capacity = capacity ∧ buf.data.length = capacity + 10 := by
  have hlen : (s.take len).length = len := List.length_take_of_le hs
  have hload : loadBytes s 0 len = ok (s.take len) := by
    rw [loadBytes, if_pos (by omega), List.drop_zero]
  obtain ⟨d, hd, hfresh⟩ : ∃ d, mboxBufAlloc fill capacity = ⟨d, 0, 0, capacity + 10⟩ ∧
      d.length = capacity + 10 := ⟨_, rfl, by simp⟩
  have hstore : storeBytes d 0 (s.take len) = ok (s.take len ++ d.drop len) := by
    have h : storeBytes ([] ++ d) [].length (s.take len) = _ :=
      storeBytes_append [] (by omega)
    rwa [hlen] at h
  obtain ⟨y, rest, hrest⟩ : ∃ y rest, d.drop len = y :: rest :=
    ⟨_, _, List.drop_eq_getElem_cons (by omega)⟩
  have hrl : rest.length + 1 = capacity + 10 - len := by
    have h := congrArg List.length hrest
    rw [List.length_drop, hfresh, List.length_cons] at h
    omega
  have hset : mboxBufSetLen ⟨s.take len ++ y :: rest, 0, 0, capacity + 10⟩
      (s.take len).length = _ := mboxBufSetLen_append (s.take len) rest rfl
  rw [hlen] at hset
  refine ⟨⟨s.take len ++ nul :: rest, 0, len, capacity⟩, ?_, ⟨hlen.symm, rest, rfl⟩, rfl, rfl, ?_⟩
  · simp only [mboxBufDupRaw, hd, hload, hstore, hrest, ok_bind, hset, pure_eq]
  · simp only [List.length_append, hlen, List.length_cons]
    omega

/-- Appending a text to a buffer whose recorded capacity is that of its block: the contents are
followed by the text, and there is still room for a terminator. -/
theorem mboxBufCatPrintf_spec (fill : ℕ → MboxChar) {buf : MboxBuf} {text : List MboxChar}
    (hcap : buf.capacity = buf.data.length) (hlen : buf.len < buf.data.length)
    (htext : text.length < 2 ^ 32) :
    ∃ buf', mboxBufCatPrintf fill buf text = ok buf' ∧ buf'.bytes = buf.bytes ++ text ∧
      buf'.len = buf.len + text.length ∧ buf'.capacity = buf'.data.length ∧
      buf'.len < buf'.data.length := by
  obtain ⟨tail, hgrow, hroom⟩ := mboxBufExtendBufferIfNeeded_spec fill hcap hlen htext
  have hload : loadBytes ([] ++ text ++ [nul]) ([] : List MboxChar).length text.length = ok text :=
    loadBytes_append
  rw [List.nil_append, List.length_nil] at hload
  have hbytes : buf.bytes.length = buf.len := List.length_take_of_le hlen.le
  obtain ⟨rest, hdata⟩ : ∃ rest, buf.data ++ tail = buf.bytes ++ rest :=
    ⟨buf.data.drop buf.len ++ tail, by
      rw [MboxBuf.bytes, ← List.append_assoc, List.take_append_drop]⟩
  have hrest : (buf.data ++ tail).length = buf.len + rest.length := by
    rw [hdata, List.length_append, hbytes]
  have hstore : storeBytes (buf.bytes ++ rest) buf.bytes.length text = _ :=
    storeBytes_append buf.bytes (by omega)
  obtain ⟨y, ys, hy⟩ : ∃ y ys, rest.drop text.length = y :: ys :=
    ⟨_, _, List.drop_eq_getElem_cons (by omega)⟩
  have hylen := congrArg List.length hy
  rw [List.length_drop, List.length_cons] at hylen
  have hnul := store_append_length (buf.bytes ++ text) ys y nul
  rw [hbytes] at hstore
  rw [List.length_append, hbytes] at hnul
  refine ⟨{ buf with data := buf.bytes ++ text ++ nul :: ys, len := buf.len + text.length
                     capacity := (buf.data ++ tail).length }, ?_, ?_, rfl, ?_, ?_⟩
  · simp only [mboxBufCatPrintf, mboxBufCatLen, hgrow, hload, hdata, hstore, hy, hnul, ok_bind,
      pure_eq]
  · have htake : buf.len + text.length = (buf.bytes ++ text).length := by
      rw [List.length_append, hbytes]
    rw [MboxBuf.bytes, htake, List.take_left]
  · simp only [List.length_append, List.length_cons, hbytes] at hrest ⊢
    omega
  · simp only [List.length_append, List.length_cons, hbytes]
    omega

end Libmbox2
