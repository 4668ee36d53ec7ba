import Mathlib.Data.List.Nodup
import Mathlib.Data.Nat.Find
import Libmbox2.Bitset
import Libmbox2.Buf

/-!
# The memory pool (`mbox-memory.c`)

A pool is an array of blocks of eight bytes with a bit for each. An allocation takes the first
run of blocks whose bits are clear, as far as one word shows it, and keeps how many it took in
front of the memory it returns. A pointer is an offset in the memory of the pool.

Two things are not looked at: the blocks of the run that lie in the next word, and whether the
run ends in front of the end of the pool.
-/

namespace Libmbox2

open CSem CSem.Exec

/-- `MEM_BLOCK_SIZE`, the bytes of a block. -/
def memBlockSize : ℕ := 8

/-- `MEM_SIZE_INFO`, the bytes in front of an allocation that say how many blocks it has. -/
def memSizeInfo : ℕ := 5

/-- `struct mboxMemPool`: the memory, how many blocks it has, and a bit for each of them. -/
structure MboxMemPool where
  data : List MboxChar
  blocks : ℕ
  allocated : ℕ
  /-- a bit for each block -/
  bitset : List (BitVec 32)
  deriving DecidableEq, Repr

/-- `mboxMemPoolSetBlockCount`: the number of blocks is written in front of the allocation, in four
bytes and a NUL. -/
def mboxMemPoolSetBlockCount (data : List MboxChar) (ptr len : ℕ) : Exec (List MboxChar) :=
  storeBytes data (ptr - memSizeInfo)
    [.ofNat (len >>> 24), .ofNat (len >>> 16), .ofNat (len >>> 8), .ofNat len, nul]

/-- `mboxMemPoolGetBlockCount`: it is read from there. -/
def mboxMemPoolGetBlockCount (data : List MboxChar) (ptr : ℕ) : Exec ℕ := do
  match ← loadBytes data (ptr - memSizeInfo) 4 with
  | [b₀, b₁, b₂, b₃] =>
    pure (b₀.toNat <<< 24 ||| b₁.toNat <<< 16 ||| b₂.toNat <<< 8 ||| b₃.toNat)
  | _ => fault

/-- `mboxMemPoolNew`: a pool in which every block is free. What is in the memory is given by
`fill`. -/
def mboxMemPoolNew (fill : ℕ → MboxChar) (block_count : ℕ) : MboxMemPool where
  data := resize fill [] (block_count * memBlockSize % 2 ^ 64)
  blocks := block_count
  allocated := 0
  bitset := List.replicate ((block_count + 31) % 2 ^ 64 / 32) 0

/-- How many blocks an allocation takes, an `unsigned int`: its bytes and those in front of them,
rounded up. -/
def memBlockCount (size : ℕ) : ℕ :=
  (size + memSizeInfo + memBlockSize - 1) % 2 ^ 64 / memBlockSize % 2 ^ 32

/-- The blocks from `i` on are taken: their bits are set and their number is written in front. -/
def takeBlocks (p : MboxMemPool) (block_count i : ℕ) : Exec (ℕ × MboxMemPool) := do
  let bitset ← (List.range' i block_count).foldlM Bitset.set p.bitset
  -- `i * MEM_BLOCK_SIZE` is an int
  if 2 ^ 31 ≤ i * memBlockSize then fault else do
  let ptr := memSizeInfo + i * memBlockSize
  let data ← mboxMemPoolSetBlockCount p.data ptr block_count
  pure (ptr, { p with data, bitset, allocated := (p.allocated + block_count) % 2 ^ 64 })

/-- The loop over the blocks, from `i` on. The bits of a place are compared with the mask within one
word, without those of the next word. -/
def scanBlocks (p : MboxMemPool) (block_count : ℕ) (mask : BitVec 32) (i : ℕ) :
    Exec (Option ℕ × MboxMemPool) :=
  if i < p.blocks then do
    let word ← load p.bitset (i / 32)
    if word &&& mask <<< (i % 32) = 0 then do
      let (ptr, p) ← takeBlocks p block_count i
      pure (some ptr, p)
    -- `i` is an int
    else if i + 1 = 2 ^ 31 then fault
    else scanBlocks p block_count mask (i + 1)
  else pure (none, p)
termination_by p.blocks - i

/-- `mboxMemPoolAlloc`: the place of an allocation in the memory, `none` for `NULL`. -/
def mboxMemPoolAlloc (p : MboxMemPool) (size : ℕ) : Exec (Option ℕ × MboxMemPool) := do
  let mask ← Bitset.lowMask (memBlockCount size)
  scanBlocks p (memBlockCount size) mask 0

/-- `mboxMemPoolFree`: the bits of the blocks of an allocation are cleared. -/
def mboxMemPoolFree (p : MboxMemPool) (ptr : ℕ) : Exec MboxMemPool := do
  let len ← mboxMemPoolGetBlockCount p.data ptr
  let data ← mboxMemPoolSetBlockCount p.data ptr 0
  -- `int i = len - 1`
  let count := if len ≤ 2 ^ 31 then len else 0
  let bitset ← ((List.range count).reverse.map (ptr / memBlockSize + ·)).foldlM Bitset.clear
    p.bitset
  pure { p with data, bitset, allocated := sizeSub p.allocated len }

/-! ## Runs -/

/-- What an allocation returned, and how many bytes were asked for. -/
structure Allocation where
  ptr : ℕ
  size : ℕ
  deriving DecidableEq, Repr

namespace Allocation

/-- Its first block. -/
def start (a : Allocation) : ℕ := a.ptr / memBlockSize

/-- How many blocks it takes. -/
def count (a : Allocation) : ℕ := memBlockCount a.size

/-- The blocks it takes, beginning with the first. -/
def range (a : Allocation) : List ℕ := List.range' a.start a.count

@[simp] theorem mem_range {a : Allocation} {k : ℕ} :
    k ∈ a.range ↔ a.start ≤ k ∧ k < a.start + a.count := List.mem_range'_1

end Allocation

/-- A call of `mboxMemPoolAlloc` or of `mboxMemPoolFree`. -/
inductive MemPoolCall where
  | alloc : ℕ → MemPoolCall
  | free : ℕ → MemPoolCall
  deriving DecidableEq, Repr

/-- A pool, and what is allocated in it and was not freed. -/
structure PoolState where
  pool : MboxMemPool
  live : List Allocation
  deriving DecidableEq, Repr

namespace PoolState

/-- A new pool, with nothing allocated. -/
def new (fill : ℕ → MboxChar) (block_count : ℕ) : PoolState :=
  ⟨mboxMemPoolNew fill block_count, []⟩

/-- What a call does to the pool, and to what is allocated. -/
def call (s : PoolState) : MemPoolCall → Exec PoolState
  | .alloc size => do
    let (ptr, pool) ← mboxMemPoolAlloc s.pool size
    pure ⟨pool, (ptr.map (⟨·, size⟩)).toList ++ s.live⟩
  | .free ptr => do
    let pool ← mboxMemPoolFree s.pool ptr
    pure ⟨pool, s.live.filter (·.ptr ≠ ptr)⟩

/-- What a caller may do: only what is allocated may be freed. -/
def Allows (s : PoolState) : MemPoolCall → Prop
  | .alloc _ => True
  | .free ptr => ∃ a ∈ s.live, a.ptr = ptr

/-- Runs of calls from a pool on, all of which are of a kind in the state they are made in. -/
inductive Reaches (P : PoolState → MemPoolCall → Prop) (s : PoolState) : PoolState → Prop where
  | refl : Reaches P s s
  | step {s₁ s₂ : PoolState} {c : MemPoolCall} :
    Reaches P s s₁ → P s₁ c → s₁.call c = ok s₂ → Reaches P s s₂

/-- **What the pool is for**: what is allocated is within the memory, no two allocations share a
block, and the bits and the count are those of what is allocated. -/
structure NoOverlap (s : PoolState) : Prop where
  disjoint : s.live.Pairwise fun a b => a.range.Disjoint b.range
  inside : ∀ a ∈ s.live, ∀ k ∈ a.range, k < s.pool.blocks
  bits : ∀ k, Bitset.bit s.pool.bitset k = true ↔ ∃ a ∈ s.live, k ∈ a.range
  allocated : s.pool.allocated = (s.live.map Allocation.count).sum

/-- The bits that one word shows of `n` blocks from `i` on are clear. -/
def WordFree (bitset : List (BitVec 32)) (n i : ℕ) : Prop :=
  ∀ k, i ≤ k → k < i + n → k / 32 = i / 32 → Bitset.bit bitset k = false

/-- There is a mask for the size, the first blocks that one word shows as free are free up to
the last one, lie in the pool and have an int offset, and the index of the loop is an int. -/
structure Fits (p : MboxMemPool) (size : ℕ) : Prop where
  count : 1 ≤ memBlockCount size ∧ memBlockCount size ≤ 32
  first : ∀ i < p.blocks, WordFree p.bitset (memBlockCount size) i →
    (∀ k < i, ¬ WordFree p.bitset (memBlockCount size) k) → i * memBlockSize < 2 ^ 31 ∧
      ∀ k ∈ List.range' i (memBlockCount size), k < p.blocks ∧ Bitset.bit p.bitset k = false
  none : (∀ i < p.blocks, ¬ WordFree p.bitset (memBlockCount size) i) → p.blocks < 2 ^ 31

/-- What a pool keeps: no allocation overlaps another one, and in front of each stands how many
blocks it takes. -/
structure Inv (s : PoolState) : Prop extends NoOverlap s where
  data : s.pool.data.length = memBlockSize * s.pool.blocks
  size : memBlockSize * s.pool.blocks < 2 ^ 64
  words : s.pool.bitset.length = (s.pool.blocks + 31) / 32
  ptr : ∀ a ∈ s.live, a.ptr = memSizeInfo + a.start * memBlockSize
  count : ∀ a ∈ s.live, 1 ≤ a.count ∧ a.count ≤ 32
  header : ∀ a ∈ s.live, mboxMemPoolGetBlockCount s.pool.data a.ptr = ok a.count

end PoolState

/-! ## The count in front of an allocation -/

section Header

variable {data : List MboxChar} {i n : ℕ}

/-- A count that fits in a byte is read back, and the others still are. -/
theorem setBlockCount_spec (hn : n < 2 ^ 8)
    (hi : i * memBlockSize + memSizeInfo ≤ data.length) :
    ∃ data', mboxMemPoolSetBlockCount data (memSizeInfo + i * memBlockSize) n = ok data' ∧
      data'.length = data.length ∧
      mboxMemPoolGetBlockCount data' (memSizeInfo + i * memBlockSize) = ok n ∧
      ∀ k, k ≠ i → mboxMemPoolGetBlockCount data' (memSizeInfo + k * memBlockSize) =
        mboxMemPoolGetBlockCount data (memSizeInfo + k * memBlockSize) := by
  have hbyte : ∀ m, 8 ≤ m → UInt8.ofNat (n >>> m) = 0 := by
    intro m hm
    have hlt : n < 2 ^ m := lt_of_lt_of_le hn (Nat.pow_le_pow_right (by decide) hm)
    rw [Nat.shiftRight_eq_div_pow, Nat.div_eq_of_lt hlt]
    rfl
  have hroom : i * memBlockSize + [UInt8.ofNat (n >>> 24), .ofNat (n >>> 16), .ofNat (n >>> 8),
      .ofNat n, nul].length ≤ data.length := hi
  obtain ⟨data', hstore, hlen, htake, hoff⟩ := storeBytes_spec hroom
  have hat : ∀ k, memSizeInfo + k * memBlockSize - memSizeInfo = k * memBlockSize := by
    intro k
    exact Nat.add_sub_cancel_left ..
  refine ⟨data', ?_, hlen, ?_, ?_⟩
  · rw [mboxMemPoolSetBlockCount, hat, hstore]
  · have hread : loadBytes data' (i * memBlockSize) 4 = ok [0, 0, 0, UInt8.ofNat n] := by
      have htake4 := congrArg (List.take 4) htake
      rw [List.take_take] at htake4
      simp only [hbyte 24 (by decide), hbyte 16 (by decide), hbyte 8 (by decide)] at htake4
      rw [loadBytes, if_pos]
      · exact congrArg ok htake4
      · rw [hlen]
        exact le_trans (Nat.add_le_add_left (by decide) _) hi
    rw [mboxMemPoolGetBlockCount, hat, hread, ok_bind]
    have hvalue : (UInt8.ofNat n).toNat = n := by rw [UInt8.toNat_ofNat', Nat.mod_eq_of_lt hn]
    have hzero : UInt8.toNat 0 = 0 := rfl
    simp only [hvalue, hzero, Nat.zero_shiftLeft, Nat.zero_or, pure_eq]
  · intro k hk
    have hsame := loadBytes_congr (j := k * memBlockSize) (n := 4) hlen fun x hx hx' => hoff x (by
      simp only [memBlockSize, List.length_cons, List.length_nil] at hx hx' ⊢
      omega)
    rw [mboxMemPoolGetBlockCount, mboxMemPoolGetBlockCount, hat, hsame]

end Header

/-! ## An allocation -/

section Alloc

variable {p : MboxMemPool} {n i f : ℕ} {mask : BitVec 32}

open PoolState

/-- The test of an iteration: the bits under the mask are clear in the word of the place. -/
theorem wordFree_iff (hwords : p.bitset.length = (p.blocks + 31) / 32)
    (hmask : Bitset.lowMask n = ok mask) (hi : i < p.blocks) :
    ∃ word, load p.bitset (i / 32) = ok word ∧
      (word &&& mask <<< (i % 32) = 0 ↔ WordFree p.bitset n i) := by
  have hword : i / 32 < p.bitset.length := by omega
  exact ⟨p.bitset[i / 32], load_eq (List.getElem?_eq_getElem hword),
    Bitset.and_mask_word hmask hword⟩

/-- The loop takes the first place that looks free. -/
theorem scanBlocks_first (hwords : p.bitset.length = (p.blocks + 31) / 32)
    (hmask : Bitset.lowMask n = ok mask) (hf : f < p.blocks) (hfree : WordFree p.bitset n f)
    (hmin : ∀ k < f, ¬ WordFree p.bitset n k) (hint : f < 2 ^ 31) (hif : i ≤ f) :
    scanBlocks p n mask i = takeBlocks p n f >>= fun r => ok (some r.1, r.2) := by
  induction hm : f - i generalizing i with
  | zero =>
    obtain rfl : i = f := Nat.le_antisymm hif (Nat.le_of_sub_eq_zero hm)
    obtain ⟨word, hload, htest⟩ := wordFree_iff hwords hmask hf
    rw [scanBlocks, if_pos hf, hload, ok_bind, if_pos (htest.2 hfree)]
    rfl
  | succ m ih =>
    have hlt : i < f := by omega
    obtain ⟨word, hload, htest⟩ := wordFree_iff hwords hmask (hlt.trans hf)
    have hnext : ¬ i + 1 = 2 ^ 31 := by omega
    rw [scanBlocks, if_pos (hlt.trans hf), hload, ok_bind,
      if_neg fun h => hmin i hlt (htest.1 h), if_neg hnext]
    exact ih hlt (by omega)

/-- Where no blocks look free it ends at the end of the pool. -/
theorem scanBlocks_none (hwords : p.bitset.length = (p.blocks + 31) / 32)
    (hmask : Bitset.lowMask n = ok mask) (hnone : ∀ k < p.blocks, ¬ WordFree p.bitset n k)
    (hint : p.blocks < 2 ^ 31) (hi : i ≤ p.blocks) : scanBlocks p n mask i = ok (none, p) := by
  induction hm : p.blocks - i generalizing i with
  | zero =>
    obtain rfl : i = p.blocks := Nat.le_antisymm hi (Nat.le_of_sub_eq_zero hm)
    rw [scanBlocks, if_neg (Nat.lt_irrefl _)]
    rfl
  | succ m ih =>
    have hlt : i < p.blocks := by omega
    obtain ⟨word, hload, htest⟩ := wordFree_iff hwords hmask hlt
    rw [scanBlocks, if_pos hlt, hload, ok_bind, if_neg fun h => hnone i hlt (htest.1 h),
      if_neg (by omega)]
    exact ih hlt (by omega)

/-- Where none do that have an int for an index, the index leaves the ints. -/
theorem scanBlocks_fault (hwords : p.bitset.length = (p.blocks + 31) / 32)
    (hmask : Bitset.lowMask n = ok mask) (hnone : ∀ k < 2 ^ 31, ¬ WordFree p.bitset n k)
    (hlong : 2 ^ 31 ≤ p.blocks) (hi : i < 2 ^ 31) : scanBlocks p n mask i = fault := by
  induction hm : 2 ^ 31 - i generalizing i with
  | zero => omega
  | succ m ih =>
    have hlt : i < p.blocks := lt_of_lt_of_le hi hlong
    obtain ⟨word, hload, htest⟩ := wordFree_iff hwords hmask hlt
    rw [scanBlocks, if_pos hlt, hload, ok_bind, if_neg fun h => hnone i hi (htest.1 h)]
    by_cases hnext : i + 1 = 2 ^ 31
    · exact if_pos hnext
    · rw [if_neg hnext]
      exact ih (by omega) (by omega)

/-- Taking blocks that have bits and a count that fits in a byte. -/
theorem takeBlocks_spec (hdata : p.data.length = memBlockSize * p.blocks)
    (hwords : p.bitset.length = (p.blocks + 31) / 32) (hn : n < 2 ^ 8) (hf : f < p.blocks)
    (hint : f * memBlockSize < 2 ^ 31) (hin : ∀ k ∈ List.range' f n, k < p.blocks) :
    ∃ data' bitset', takeBlocks p n f = ok (memSizeInfo + f * memBlockSize,
        { p with data := data', bitset := bitset', allocated := (p.allocated + n) % 2 ^ 64 }) ∧
      data'.length = p.data.length ∧ bitset'.length = p.bitset.length ∧
      (∀ k, Bitset.bit bitset' k = if k ∈ List.range' f n then true
        else Bitset.bit p.bitset k) ∧
      mboxMemPoolGetBlockCount data' (memSizeInfo + f * memBlockSize) = ok n ∧
      ∀ k, k ≠ f → mboxMemPoolGetBlockCount data' (memSizeInfo + k * memBlockSize) =
        mboxMemPoolGetBlockCount p.data (memSizeInfo + k * memBlockSize) := by
  have hbits : ∀ k ∈ List.range' f n, k < 32 * p.bitset.length := by
    intro k hk
    have hlt := hin k hk
    omega
  obtain ⟨bitset', hset, hlen, hbit⟩ := Bitset.puts_set.foldlM _ hbits
  have hroom : f * memBlockSize + memSizeInfo ≤ p.data.length := by
    simp only [hdata, memBlockSize, memSizeInfo]
    omega
  obtain ⟨data', hstore, hlen', hget, hoff⟩ := setBlockCount_spec hn hroom
  refine ⟨data', bitset', ?_, hlen', hlen, hbit, hget, hoff⟩
  rw [takeBlocks, hset, ok_bind, if_neg (Nat.not_le.2 hint)]
  simp only [hstore, ok_bind, pure_eq]

end Alloc

/-! ## Calls keep the invariant -/

namespace PoolState

variable {s s' : PoolState} {size : ℕ} {a : Allocation}

/-- Allocations that do not overlap are no more than the pool. -/
theorem sum_count_le {live : List Allocation} {n : ℕ}
    (hdisjoint : live.Pairwise fun a b => a.range.Disjoint b.range)
    (hinside : ∀ a ∈ live, ∀ k ∈ a.range, k < n) : (live.map Allocation.count).sum ≤ n := by
  have hlength : (live.flatMap Allocation.range).length = (live.map Allocation.count).sum := by
    rw [List.length_flatMap]
    simp only [Allocation.range, List.length_range']
  have hnodup : (live.flatMap Allocation.range).Nodup := by
    rw [List.nodup_flatMap]
    exact ⟨fun a _ => List.nodup_range', hdisjoint⟩
  have hsub : live.flatMap Allocation.range ⊆ List.range n := by
    intro k hk
    obtain ⟨a, ha, hka⟩ := List.mem_flatMap.1 hk
    exact List.mem_range.2 (hinside a ha k hka)
  have hle := hnodup.length_le_of_subset hsub
  rwa [hlength, List.length_range] at hle

theorem Inv.start_mem (h : s.Inv) (ha : a ∈ s.live) : a.start ∈ a.range := by
  rw [Allocation.mem_range]
  exact ⟨le_refl _, Nat.lt_add_of_pos_right (h.count a ha).1⟩

/-- A new pool is in order. -/
theorem inv_new (fill : ℕ → MboxChar) {block_count : ℕ}
    (hsize : memBlockSize * block_count < 2 ^ 64) : (new fill block_count).Inv := by
  have hsize' : block_count + 31 < 2 ^ 64 := by
    simp only [memBlockSize] at hsize
    omega
  refine ⟨⟨List.Pairwise.nil, nofun, fun k => ?_, rfl⟩, ?_, hsize, ?_, nofun, nofun, nofun⟩
  · rw [new, mboxMemPoolNew, Bitset.bit_replicate_zero]
    simp
  · rw [new, mboxMemPoolNew, length_resize, Nat.mul_comm, Nat.mod_eq_of_lt hsize]
  · rw [new, mboxMemPoolNew, List.length_replicate, Nat.mod_eq_of_lt hsize']

/-- The first block of an allocation made at place `f`. -/
theorem start_at (f size : ℕ) :
    Allocation.start ⟨memSizeInfo + f * memBlockSize, size⟩ = f := by
  simp only [Allocation.start, memSizeInfo, memBlockSize]
  omega

theorem range_at (f size : ℕ) : Allocation.range ⟨memSizeInfo + f * memBlockSize, size⟩ =
    List.range' f (memBlockCount size) := by
  rw [Allocation.range, start_at]
  rfl

/-- **The blocks an allocation gets**, when they are free: the pool stays in order. -/
theorem Inv.take (h : s.Inv) {f : ℕ} (hcount : 1 ≤ memBlockCount size ∧ memBlockCount size ≤ 32)
    (hf : f < s.pool.blocks) (hint : f * memBlockSize < 2 ^ 31)
    (hfree : ∀ k ∈ List.range' f (memBlockCount size),
      k < s.pool.blocks ∧ Bitset.bit s.pool.bitset k = false) :
    ∃ p', takeBlocks s.pool (memBlockCount size) f =
        ok (memSizeInfo + f * memBlockSize, p') ∧
      Inv ⟨p', ⟨memSizeInfo + f * memBlockSize, size⟩ :: s.live⟩ := by
  obtain ⟨data', bitset', htake, hdata, hwords, hbit, hget, hoff⟩ := takeBlocks_spec h.data h.words
    (lt_of_le_of_lt hcount.2 (by decide)) hf hint fun k hk => (hfree k hk).1
  have hstart := start_at f size
  have hrange := range_at f size
  have hdisjoint : ∀ b ∈ s.live, (List.range' f (memBlockCount size)).Disjoint b.range := by
    intro b hb k hk hkb
    have hset := (h.bits k).2 ⟨b, hb, hkb⟩
    rw [(hfree k hk).2] at hset
    cases hset
  have hpairwise : (⟨memSizeInfo + f * memBlockSize, size⟩ :: s.live).Pairwise fun a b =>
      a.range.Disjoint b.range := by
    rw [List.pairwise_cons, hrange]
    exact ⟨hdisjoint, h.disjoint⟩
  have hinside : ∀ b ∈ ⟨memSizeInfo + f * memBlockSize, size⟩ :: s.live, ∀ k ∈ b.range,
      k < s.pool.blocks := by
    rw [List.forall_mem_cons, hrange]
    exact ⟨fun k hk => (hfree k hk).1, h.inside⟩
  -- all blocks are different, so there are no more than the pool has
  have hsum := sum_count_le hpairwise hinside
  rw [List.map_cons, List.sum_cons, ← h.allocated] at hsum
  refine ⟨_, htake, ⟨⟨hpairwise, hinside, fun k => ?_, ?_⟩, ?_, h.size, ?_, ?_, ?_, ?_⟩⟩
  · rw [hbit, List.exists_mem_cons_iff, hrange, ← h.bits k]
    by_cases hk : k ∈ List.range' f (memBlockCount size) <;> simp [hk]
  · have hlt : s.pool.allocated + memBlockCount size < 2 ^ 64 := by
      have hsize := h.size
      simp only [memBlockSize] at hsize
      simp only [Allocation.count] at hsum
      omega
    rw [List.map_cons, List.sum_cons, ← h.allocated, Nat.add_comm (Allocation.count _)]
    exact Nat.mod_eq_of_lt hlt
  · exact hdata.trans h.data
  · exact hwords.trans h.words
  · rw [List.forall_mem_cons, hstart]
    exact ⟨rfl, h.ptr⟩
  · rw [List.forall_mem_cons]
    exact ⟨hcount, h.count⟩
  · rw [List.forall_mem_cons]
    refine ⟨hget, fun b hb => ?_⟩
    have hne : b.start ≠ f := by
      rintro rfl
      exact hdisjoint b hb (List.mem_range'_1.2 ⟨le_refl _, Nat.lt_add_of_pos_right hcount.1⟩)
        (h.start_mem hb)
    have hheader := h.header b hb
    rw [h.ptr b hb] at hheader ⊢
    exact (hoff _ hne).trans hheader

/-- There is a mask for up to 32 blocks. -/
theorem exists_lowMask {n : ℕ} (hn : 1 ≤ n ∧ n ≤ 32) : ∃ mask, Bitset.lowMask n = ok mask := by
  refine ⟨_, if_neg ?_⟩
  rintro (h | h)
  · rw [h] at hn
    exact absurd hn.1 (by decide)
  · exact absurd hn.2 (Nat.not_le.2 h)

/-- There is a first place that looks free, if there is one at all. -/
theorem exists_first {bitset : List (BitVec 32)} {blocks n : ℕ}
    (h : ∃ i, i < blocks ∧ WordFree bitset n i) :
    ∃ f < blocks, WordFree bitset n f ∧ ∀ k < f, ¬ WordFree bitset n k := by
  classical
  obtain ⟨hlt, hfree⟩ := Nat.find_spec h
  refine ⟨Nat.find h, hlt, hfree, fun k hk hfree' => ?_⟩
  exact Nat.find_min h hk ⟨hk.trans hlt, hfree'⟩

/-- **An allocation that fits** succeeds, or returns `NULL` where nothing is free; it overlaps
nothing and keeps the pool in order. -/
theorem Inv.alloc (h : s.Inv) (hfits : Fits s.pool size) :
    ∃ s', s.call (.alloc size) = ok s' ∧ s'.Inv := by
  obtain ⟨mask, hmask⟩ := exists_lowMask hfits.count
  by_cases hfree : ∃ i, i < s.pool.blocks ∧ WordFree s.pool.bitset (memBlockCount size) i
  · obtain ⟨f, hf, hfree, hmin⟩ := exists_first hfree
    obtain ⟨hint, hrange⟩ := hfits.first f hf hfree hmin
    obtain ⟨p', htake, hinv⟩ := h.take hfits.count hf hint hrange
    have hscan := scanBlocks_first h.words hmask hf hfree hmin
      (lt_of_le_of_lt (Nat.le_mul_of_pos_right f (by decide)) hint) (Nat.zero_le f)
    refine ⟨_, ?_, hinv⟩
    simp only [call, mboxMemPoolAlloc, hmask, hscan, htake, ok_bind, pure_eq, Option.map_some,
      Option.toList_some, List.singleton_append]
  · have hnone : ∀ i < s.pool.blocks, ¬ WordFree s.pool.bitset (memBlockCount size) i :=
      fun i hi hfr => hfree ⟨i, hi, hfr⟩
    have hscan := scanBlocks_none h.words hmask hnone (hfits.none hnone) (Nat.zero_le _)
    refine ⟨s, ?_, h⟩
    simp only [call, mboxMemPoolAlloc, hmask, hscan, ok_bind, pure_eq, Option.map_none,
      Option.toList_none, List.nil_append]

/-- One that does not overlaps something, or is not defined. -/
theorem Inv.fits (h : s.Inv) (hcall : s.call (.alloc size) = ok s') (hs' : s'.NoOverlap) :
    Fits s.pool size := by
  obtain ⟨⟨ptr, p'⟩, halloc, hcall⟩ := bind_eq_ok hcall
  cases hcall
  obtain ⟨mask, hmask, hscan⟩ := bind_eq_ok halloc
  have hcount : 1 ≤ memBlockCount size ∧ memBlockCount size ≤ 32 := by
    rw [Bitset.lowMask] at hmask
    split at hmask
    · cases hmask
    · omega
  refine ⟨hcount, fun i hi hfree hmin => ?_, fun hnone => ?_⟩
  · rcases Nat.lt_or_ge i (2 ^ 31) with hint | hint
    · rw [scanBlocks_first h.words hmask hi hfree hmin hint (Nat.zero_le i)] at hscan
      obtain ⟨⟨ptr', p''⟩, htake, hscan⟩ := bind_eq_ok hscan
      cases hscan
      obtain ⟨bitset', -, htake⟩ := bind_eq_ok htake
      split at htake
      · cases htake
      rename_i hoff
      obtain ⟨data', -, htake⟩ := bind_eq_ok htake
      cases htake
      have hstart : Allocation.range ⟨memSizeInfo + i * memBlockSize, size⟩ =
          List.range' i (memBlockCount size) := range_at i size
      refine ⟨Nat.not_le.1 hoff, fun k hk => ⟨?_, ?_⟩⟩
      · exact hs'.inside _ (List.mem_cons_self ..) k (hstart ▸ hk)
      · by_contra hbit
        obtain ⟨a, ha, hka⟩ := (h.bits k).1 (Bool.eq_true_of_not_eq_false hbit)
        exact (List.pairwise_cons.1 hs'.disjoint).1 a ha (hstart ▸ hk) hka
    · rw [scanBlocks_fault h.words hmask (fun k hk => hmin k (lt_of_lt_of_le hk hint))
        (hint.trans hi.le) (by decide)] at hscan
      cases hscan
  · -- without a free run the scan goes on to a block whose offset is no `int`
    by_contra hlong
    rw [scanBlocks_fault h.words hmask
      (fun k hk => hnone k (lt_of_lt_of_le hk (Nat.not_lt.1 hlong))) (Nat.not_lt.1 hlong)
      (by decide)] at hscan
    cases hscan

/-- A live allocation is one of those in the list, and apart from all others. -/
theorem Inv.exists_split (h : s.Inv) (ha : a ∈ s.live) :
    ∃ l₁ l₂, s.live = l₁ ++ a :: l₂ ∧ ∀ b ∈ l₁ ++ l₂, a.range.Disjoint b.range ∧ b.ptr ≠ a.ptr := by
  obtain ⟨l₁, l₂, hlive⟩ := List.append_of_mem ha
  have hdisjoint : ∀ b ∈ l₁ ++ l₂, a.range.Disjoint b.range := by
    have hpair := h.disjoint
    rw [hlive, List.pairwise_append, List.pairwise_cons] at hpair
    obtain ⟨-, ⟨hafter, -⟩, hbefore⟩ := hpair
    intro b hb
    rcases List.mem_append.1 hb with hb | hb
    · exact fun k hka hkb => hbefore b hb a (List.mem_cons_self ..) hkb hka
    · exact hafter b hb
  refine ⟨l₁, l₂, hlive, fun b hb => ⟨hdisjoint b hb, fun hptr => ?_⟩⟩
  have hb' : b ∈ s.live := by
    have hperm : (l₁ ++ a :: l₂).Perm (a :: (l₁ ++ l₂)) := List.perm_middle
    rw [hlive]
    exact hperm.mem_iff.2 (List.mem_cons_of_mem _ hb)
  have hstart : b.start = a.start := by rw [Allocation.start, Allocation.start, hptr]
  exact hdisjoint b hb (h.start_mem ha) (hstart ▸ h.start_mem hb')

/-- The blocks of an allocation, as the loop that frees them goes through them. -/
theorem mem_blocks_free (a : Allocation) (k : ℕ) :
    k ∈ (List.range a.count).reverse.map (a.start + ·) ↔ k ∈ a.range := by
  rw [List.mem_map, Allocation.mem_range]
  constructor
  · rintro ⟨i, hi, rfl⟩
    rw [List.mem_reverse, List.mem_range] at hi
    exact ⟨Nat.le_add_right _ _, Nat.add_lt_add_left hi _⟩
  · rintro ⟨hle, hlt⟩
    refine ⟨k - a.start, ?_, Nat.add_sub_cancel' hle⟩
    rw [List.mem_reverse, List.mem_range]
    exact Nat.sub_lt_left_of_lt_add hle hlt

section Split

variable {live l₁ l₂ : List Allocation} (hlive : live = l₁ ++ a :: l₂)
  (hothers : ∀ b ∈ l₁ ++ l₂, a.range.Disjoint b.range ∧ b.ptr ≠ a.ptr)

include hlive

theorem sublist_split : (l₁ ++ l₂).Sublist live :=
  hlive ▸ List.Sublist.append (List.Sublist.refl _) (List.sublist_cons_self ..)

include hothers

theorem filter_ptr_split : live.filter (·.ptr ≠ a.ptr) = l₁ ++ l₂ := by
  have hkeep : ∀ b ∈ l₁ ++ l₂, decide (b.ptr ≠ a.ptr) = true := by
    intro b hb
    exact decide_eq_true (hothers b hb).2
  rw [hlive, List.filter_append, List.filter_cons_of_neg (by simp), ← List.filter_append,
    List.filter_eq_self.2 hkeep]

/-- The blocks the others have are those in use that the freed one did not have. -/
theorem exists_range_split (k : ℕ) :
    (∃ b ∈ l₁ ++ l₂, k ∈ b.range) ↔ k ∉ a.range ∧ ∃ b ∈ live, k ∈ b.range := by
  constructor
  · rintro ⟨b, hb, hkb⟩
    exact ⟨fun hka => (hothers b hb).1 hka hkb, b, (sublist_split hlive).subset hb, hkb⟩
  · rintro ⟨hka, b, hb, hkb⟩
    rw [hlive] at hb
    rcases List.mem_cons.1 (List.perm_middle.mem_iff.1 hb) with rfl | hb
    · exact absurd hkb hka
    · exact ⟨b, hb, hkb⟩

end Split

/-- **What is live can be freed**: its bits are cleared and no others, and the pool stays in
order. -/
theorem Inv.free (h : s.Inv) (ha : a ∈ s.live) :
    ∃ s', s.call (.free a.ptr) = ok s' ∧ s'.Inv := by
  obtain ⟨l₁, l₂, hlive, hothers⟩ := h.exists_split ha
  have hptr := h.ptr a ha
  have hcount := h.count a ha
  have hinside := h.inside a ha _ (h.start_mem ha)
  have hroom : a.start * memBlockSize + memSizeInfo ≤ s.pool.data.length := by
    simp only [h.data, memBlockSize, memSizeInfo]
    omega
  obtain ⟨data', hstore, hdata, -, hoff⟩ :=
    setBlockCount_spec (show 0 < 2 ^ 8 by decide) hroom
  have hbits : ∀ k ∈ ((List.range a.count).reverse.map (a.start + ·)),
      k < 32 * s.pool.bitset.length := by
    intro k hk
    have hlt := h.inside a ha k ((mem_blocks_free a k).1 hk)
    have hwords := h.words
    omega
  obtain ⟨bitset', hclear, hwords, hbit⟩ := Bitset.puts_clear.foldlM _ hbits
  have hsub := sublist_split hlive
  have hfilter := filter_ptr_split hlive hothers
  have hsum : s.pool.allocated = ((l₁ ++ l₂).map Allocation.count).sum + a.count := by
    rw [h.allocated, hlive]
    simp only [List.map_append, List.map_cons, List.sum_append, List.sum_cons]
    omega
  refine ⟨⟨{ s.pool with
      data := data', bitset := bitset', allocated := sizeSub s.pool.allocated a.count }, l₁ ++ l₂⟩,
    ?_, ⟨⟨h.disjoint.sublist hsub, fun b hb => h.inside b (hsub.subset hb), fun k => ?_, ?_⟩,
      hdata.trans h.data, h.size, hwords.trans h.words, fun b hb => h.ptr b (hsub.subset hb),
      fun b hb => h.count b (hsub.subset hb), fun b hb => ?_⟩⟩
  · have hlen : a.count ≤ 2 ^ 31 := hcount.2.trans (by decide)
    rw [← hptr] at hstore
    have hfree : mboxMemPoolFree s.pool a.ptr = ok { s.pool with
        data := data', bitset := bitset', allocated := sizeSub s.pool.allocated a.count } := by
      simp only [mboxMemPoolFree, h.header a ha, hstore, ok_bind, if_pos hlen, pure_eq]
      exact congrArg (fun m => m >>= _) hclear
    rw [call, hfree, ok_bind, hfilter]
    rfl
  · rw [hbit, exists_range_split hlive hothers, ← h.bits k]
    by_cases hk : k ∈ a.range
    · rw [if_pos ((mem_blocks_free a k).2 hk)]
      exact iff_of_false Bool.false_ne_true fun hleft => hleft.1 hk
    · rw [if_neg fun hmem => hk ((mem_blocks_free a k).1 hmem)]
      exact (and_iff_right hk).symm
  · rw [hsum, sizeSub_of_le (Nat.le_add_left _ _), Nat.add_sub_cancel_right]
  · -- the header that is cleared is in a block of its own
    have hne : b.start ≠ a.start := by
      intro hstart
      exact (hothers b hb).1 (h.start_mem ha) (hstart ▸ h.start_mem (hsub.subset hb))
    have hheader := h.header b (hsub.subset hb)
    rw [h.ptr b (hsub.subset hb)] at hheader ⊢
    exact (hoff _ hne).trans hheader

/-! ## Runs -/

/-- The calls that do what they should: what is freed is live, and what is allocated fits. -/
def Meets (s : PoolState) (c : MemPoolCall) : Prop :=
  s.Allows c ∧ ∀ size, c = .alloc size → Fits s.pool size

/-- A call that meets the conditions succeeds and keeps the pool in order. -/
theorem Inv.call (h : s.Inv) {c : MemPoolCall} (hc : s.Meets c) :
    ∃ s', s.call c = ok s' ∧ s'.Inv := by
  obtain ⟨hallows, hfits⟩ := hc
  cases c with
  | alloc size => exact h.alloc (hfits size rfl)
  | free ptr =>
    obtain ⟨a, ha, rfl⟩ := hallows
    exact h.free ha

/-- So does a run of such calls. -/
theorem Reaches.inv (h : s.Inv) (hrun : Reaches Meets s s') : s'.Inv := by
  induction hrun with
  | refl => exact h
  | step _ hc hcall ih =>
    obtain ⟨s₂, hcall', hinv⟩ := ih.call hc
    rw [hcall] at hcall'
    cases hcall'
    exact hinv

/-- **In a run whose calls all meet the condition** no allocations overlap; a call that does not
meet it ends that. The condition says that the first place that looks free is free, in the word
behind as well, and inside the pool. -/
theorem reaches_noOverlap (fill : ℕ → MboxChar) {block_count : ℕ}
    (hsize : memBlockSize * block_count < 2 ^ 64)
    (hrun : Reaches Meets (new fill block_count) s) :
    s.NoOverlap ∧ ∀ c, s.Allows c →
      ((∃ s', s.call c = ok s' ∧ s'.NoOverlap) ↔ s.Meets c) := by
  have hinv := hrun.inv (inv_new fill hsize)
  refine ⟨hinv.toNoOverlap, fun c hallows => ⟨?_, fun hc => ?_⟩⟩
  · rintro ⟨s', hcall, hs'⟩
    refine ⟨hallows, fun size heq => ?_⟩
    subst heq
    exact hinv.fits hcall hs'
  · obtain ⟨s', hcall, hinv'⟩ := hinv.call hc
    exact ⟨s', hcall, hinv'.toNoOverlap⟩

/-- The blocks below `f` are taken and those from `f` on are free: an allocation gets these. -/
theorem Inv.alloc_first (h : s.Inv) (size f : ℕ)
    (hcount : 1 ≤ memBlockCount size ∧ memBlockCount size ≤ 32) (hint : f * memBlockSize < 2 ^ 31)
    (hfree : ∀ k ∈ List.range' f (memBlockCount size),
      k < s.pool.blocks ∧ ∀ a ∈ s.live, k ∉ a.range)
    (htaken : ∀ k < f, ∃ a ∈ s.live, k ∈ a.range) :
    ∃ s', s.Meets (.alloc size) ∧ s.call (.alloc size) = ok s' ∧ s'.Inv ∧
      s'.live = ⟨memSizeInfo + f * memBlockSize, size⟩ :: s.live ∧
      s'.pool.blocks = s.pool.blocks := by
  have hclear : ∀ k ∈ List.range' f (memBlockCount size),
      k < s.pool.blocks ∧ Bitset.bit s.pool.bitset k = false := by
    intro k hk
    refine ⟨(hfree k hk).1, Bool.eq_false_of_not_eq_true fun hset => ?_⟩
    obtain ⟨a, ha, hka⟩ := (h.bits k).1 hset
    exact (hfree k hk).2 a ha hka
  have hf : f < s.pool.blocks := (hfree f (List.mem_range'_1.2 ⟨le_refl f, by omega⟩)).1
  have hword : WordFree s.pool.bitset (memBlockCount size) f :=
    fun k hle hlt _ => (hclear k (List.mem_range'_1.2 ⟨hle, hlt⟩)).2
  have hmin : ∀ k < f, ¬ WordFree s.pool.bitset (memBlockCount size) k := by
    intro k hk hkfree
    have hset := (h.bits k).2 (htaken k hk)
    rw [hkfree k (le_refl k) (by omega) rfl] at hset
    cases hset
  have hfits : Fits s.pool size := by
    refine ⟨hcount, fun i hi hifree himin => ?_, fun hnone => absurd hword (hnone f hf)⟩
    obtain rfl : i = f := by
      rcases Nat.lt_trichotomy i f with hlt | heq | hlt
      · exact absurd hifree (hmin i hlt)
      · exact heq
      · exact absurd hword (himin f hlt)
    exact ⟨hint, hclear⟩
  obtain ⟨mask, hmask⟩ := exists_lowMask hcount
  obtain ⟨p', htake, hinv⟩ := h.take hcount hf hint hclear
  have hscan := scanBlocks_first h.words hmask hf hword hmin
    (lt_of_le_of_lt (Nat.le_mul_of_pos_right f (by decide)) hint) (Nat.zero_le f)
  have hblocks : p'.blocks = s.pool.blocks := by
    obtain ⟨bitset', -, htake⟩ := bind_eq_ok htake
    split at htake
    · cases htake
    obtain ⟨data', -, htake⟩ := bind_eq_ok htake
    cases htake
    rfl
  refine ⟨_, ⟨trivial, fun _ heq => ?_⟩, ?_, hinv, rfl, hblocks⟩
  · cases heq
    exact hfits
  · simp only [PoolState.call, mboxMemPoolAlloc, hmask, hscan, htake, ok_bind, pure_eq,
      Option.map_some, Option.toList_some, List.singleton_append]

/-- What is left when a live allocation is freed, in a pool of as many blocks. -/
theorem Inv.free_live (h : s.Inv) (ha : a ∈ s.live) :
    ∃ s', s.Meets (.free a.ptr) ∧ s.call (.free a.ptr) = ok s' ∧ s'.Inv ∧
      s'.live = s.live.filter (·.ptr ≠ a.ptr) ∧ s'.pool.blocks = s.pool.blocks := by
  obtain ⟨s', hcall, hinv⟩ := h.free ha
  have hlive := hcall
  obtain ⟨p', hfree, hlive⟩ := bind_eq_ok hlive
  cases hlive
  obtain ⟨len, -, hfree⟩ := bind_eq_ok hfree
  obtain ⟨data', -, hfree⟩ := bind_eq_ok hfree
  obtain ⟨bitset', -, hfree⟩ := bind_eq_ok hfree
  cases hfree
  exact ⟨_, ⟨⟨a, ha, rfl⟩, nofun⟩, hcall, hinv, rfl, rfl⟩

/-- A pool of eight blocks: two of them and four behind these are allocated, the first two are
freed and given to the next allocation. -/
theorem reaches_noOverlap_twoLive :
    ∃ s, Reaches Meets (new (fun _ => nul) 8) s ∧ s.live = [⟨5, 10⟩, ⟨21, 20⟩] ∧ s.NoOverlap := by
  have hnew : (new (fun _ => nul) 8).Inv := inv_new _ (by decide)
  obtain ⟨s₁, hmeets₁, hcall₁, hinv₁, hlive₁, hblocks₁⟩ :=
    hnew.alloc_first 4 0 (by decide) (by decide) (by decide) (by decide)
  obtain ⟨s₂, hmeets₂, hcall₂, hinv₂, hlive₂, hblocks₂⟩ := hinv₁.alloc_first 20 2 (by decide)
    (by decide) (by rw [hlive₁, hblocks₁]; decide) (by rw [hlive₁]; decide)
  obtain ⟨s₃, hmeets₃, hcall₃, hinv₃, hlive₃, hblocks₃⟩ :=
    hinv₂.free_live (a := ⟨5, 4⟩) (by rw [hlive₂, hlive₁]; decide)
  rw [hlive₂, hlive₁] at hlive₃
  obtain ⟨s₄, hmeets₄, hcall₄, hinv₄, hlive₄, -⟩ := hinv₃.alloc_first 10 0 (by decide)
    (by decide) (by rw [hlive₃, hblocks₃, hblocks₂, hblocks₁]; decide) nofun
  have hrun : Reaches Meets (new (fun _ => nul) 8) s₄ :=
    .step (.step (.step (.step .refl hmeets₁ hcall₁) hmeets₂ hcall₂) hmeets₃ hcall₃) hmeets₄ hcall₄
  refine ⟨s₄, hrun, ?_, (reaches_noOverlap (fun _ => nul) (by decide) hrun).1⟩
  rw [hlive₄, hlive₃]
  decide

/-- A pool of one block gives an allocation of two, since a mask that reaches over the end of the
pool finds the bits there clear. -/
theorem oneBlock_overruns :
    ¬ ∀ s, Reaches Allows (new (fun _ => nul) 1) s → s.NoOverlap := by
  intro hall
  have hmask : Bitset.lowMask (memBlockCount 4) = ok 3#32 := by decide
  have hscan : scanBlocks (mboxMemPoolNew (fun _ => nul) 1) (memBlockCount 4) 3#32 0 =
      ok (some 5, ⟨[0, 0, 0, 2, 0, 0, 0, 0], 1, 2, [3#32]⟩) := by
    rw [scanBlocks]
    decide
  have hcall : (new (fun _ => nul) 1).call (.alloc 4) =
      ok ⟨⟨[0, 0, 0, 2, 0, 0, 0, 0], 1, 2, [3#32]⟩, [⟨5, 4⟩]⟩ := by
    simp only [call, new, mboxMemPoolAlloc, hmask, hscan, ok_bind]
    rfl
  have hallows : (new (fun _ => nul) 1).Allows (.alloc 4) := trivial
  have hrun : Reaches Allows (new (fun _ => nul) 1) _ := Reaches.step .refl hallows hcall
  have hover := hall _ hrun
  exact absurd (hover.inside ⟨5, 4⟩ (List.mem_singleton_self _) 1 (by decide)) (by decide)

end PoolState

end Libmbox2
