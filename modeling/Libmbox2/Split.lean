import Libmbox2.Buf

/-!
# Splitting a string (`mboxBufSplit`)

The pieces are copied into an array that is made five times as big whenever it is nearly full.
What a run does is said of the bytes it has not come to yet: with `cur` for the bytes since the
last delimiter, the pieces that are still to come are those of `cur ++ rest`
(`splitBytes_spec`). The number of slots is an `int`, and the thirteenth time it is multiplied it
no longer fits, so a string with enough delimiters is not split (`splitBytes_fault`).
-/

namespace Libmbox2

open CSem CSem.Exec

/-- The result of a computation with `int`s, which must not overflow. -/
def intOf (n : ℕ) : Exec ℕ := if n < 2 ^ 31 then pure n else fault

theorem intOf_of_lt {n : ℕ} (hn : n < 2 ^ 31) : intOf n = ok n := if_pos hn

/-- Where the loop of `mboxBufSplit` stands: the parts, how many there is room for, and the part
that is read. -/
structure SplitCtx where
  /-- the pieces that have been stored -/
  outArr : List MboxBuf
  memslot : ℕ
  arrsize : ℕ
  start : ℕ
  /-- `end` -/
  stop : ℕ
  deriving DecidableEq, Repr

section Functions

variable (fill : ℕ → MboxChar) (toSplit : List MboxChar) (delimiter : MboxChar)

/-- `if (memslot < arrsize + 5) memslot *= 5;` and the array is made as big. -/
def growSlots (memslot arrsize : ℕ) : Exec ℕ := do
  let needed ← intOf (arrsize + 5)
  if memslot < needed then intOf (memslot * 5) else pure memslot

/-- `outArr[arrsize] = ...; arrsize++;` The array is taken to have the slot. -/
def storePiece (ctx : SplitCtx) : Exec SplitCtx := do
  let size := sizeSub ctx.stop ctx.start
  let piece ← mboxBufDupRaw fill (toSplit.drop ctx.start) size size
  let arrsize ← intOf (ctx.arrsize + 1)
  pure { ctx with outArr := ctx.outArr.take ctx.arrsize ++ [piece], arrsize }

/-- The bytes from `ptr` on: a part ends at a delimiter, and at the last byte. -/
def splitBytes : List MboxChar → SplitCtx → Exec SplitCtx
  | [], _ => fault
  | c :: d, ctx =>
    if c = nul then pure ctx
    else do
      let memslot ← growSlots ctx.memslot ctx.arrsize
      let ctx := { ctx with memslot }
      if c = delimiter then do
        let ctx ← storePiece fill toSplit ctx
        splitBytes d { ctx with start := ctx.stop + 1, stop := ctx.stop + 1 }
      else splitBytes d { ctx with stop := ctx.stop + 1 }

/-- The pieces, and what goes into `count`. `toSplit` is the memory from the string on. -/
def mboxBufSplit : Exec (List MboxBuf × ℕ) := do
  let c ← load toSplit 0
  let toSplit := if c = delimiter then toSplit.drop 1 else toSplit
  let ctx ← splitBytes fill toSplit delimiter toSplit ⟨[], 5, 0, 0, 0⟩
  let ctx ← storePiece fill toSplit ctx
  pure (ctx.outArr, ctx.arrsize)

end Functions

/-! ## The slots -/

/-- The number of slots has been multiplied a few times, and there is room for four more pieces. -/
structure Slots (memslot arrsize : ℕ) : Prop where
  pow : ∃ j ≤ 12, memslot = 5 ^ (j + 1)
  room : arrsize + 4 ≤ memslot

section Slots

variable {memslot arrsize : ℕ}

theorem Slots.initial : Slots 5 0 := ⟨⟨0, by decide, rfl⟩, by decide⟩

theorem Slots.le (h : Slots memslot arrsize) : memslot ≤ 5 ^ 13 := by
  obtain ⟨j, hj, rfl⟩ := h.pow
  exact Nat.pow_le_pow_right (by decide) (by omega)

/-- The number that is compared with the slots fits an `int`. -/
theorem Slots.needed (h : Slots memslot arrsize) : intOf (arrsize + 5) = ok (arrsize + 5) := by
  have hle := h.le
  have hroom := h.room
  exact intOf_of_lt (by omega)

/-- There is room for one more piece when the array has been made bigger. -/
theorem growSlots_spec (h : Slots memslot arrsize) (hlt : arrsize + 4 < 5 ^ 13) :
    ∃ memslot', growSlots memslot arrsize = ok memslot' ∧ Slots memslot' (arrsize + 1) := by
  have hroom := h.room
  rw [growSlots, h.needed, ok_bind]
  by_cases hfull : memslot < arrsize + 5
  · obtain ⟨j, hj, hpow⟩ := h.pow
    have hj' : j < 12 := by
      by_contra hj'
      obtain rfl : j = 12 := by omega
      omega
    have hnext : memslot * 5 = 5 ^ (j + 1 + 1) := by
      rw [hpow]
      exact (Nat.pow_succ ..).symm
    have hle : 5 ^ (j + 1 + 1) ≤ 5 ^ 13 := Nat.pow_le_pow_right (by decide) (by omega)
    refine ⟨memslot * 5, ?_, ⟨j + 1, hj', hnext⟩, by omega⟩
    rw [if_pos hfull, intOf_of_lt (by omega)]
  · exact ⟨memslot, if_neg hfull, h.pow, by omega⟩

/-- With 5^13 slots nearly full the next multiplication by five overflows. -/
theorem growSlots_fault (h : Slots memslot arrsize) (hle : 5 ^ 13 ≤ arrsize + 4) :
    growSlots memslot arrsize = fault := by
  have hroom := h.room
  have hmax := h.le
  rw [growSlots, h.needed, ok_bind, if_pos (by omega), intOf, if_neg (by omega)]

/-- What is enough for one more part is enough for the parts there are. -/
theorem Slots.mono (h : Slots memslot (arrsize + 1)) : Slots memslot arrsize :=
  ⟨h.pow, (Nat.le_succ _).trans h.room⟩

end Slots

/-! ## The pieces -/

/-- `parts` are in the array, and `cur` are the bytes since the last delimiter; `rest` is what
has not been read. -/
structure SplitCtx.At (toSplit : List MboxChar) (ctx : SplitCtx) (parts : List (List MboxChar))
    (cur rest : List MboxChar) : Prop where
  pieces : List.Forall₂ MboxBuf.Holds ctx.outArr parts
  arrsize : ctx.arrsize = parts.length
  slots : Slots ctx.memslot ctx.arrsize
  start : toSplit.drop ctx.start = cur ++ rest
  inside : ctx.start ≤ toSplit.length
  stop : ctx.stop = ctx.start + cur.length

section Pieces

variable {fill : ℕ → MboxChar} {toSplit cur rest r s tail : List MboxChar} {delimiter : MboxChar}
  {ctx : SplitCtx} {parts : List (List MboxChar)}

/-- The bytes since the last delimiter are one piece more. -/
theorem storePiece_spec (fill : ℕ → MboxChar) (h : ctx.At toSplit parts cur rest) :
    ∃ piece, piece.Holds cur ∧ storePiece fill toSplit ctx =
      ok { ctx with outArr := ctx.outArr ++ [piece], arrsize := ctx.arrsize + 1 } := by
  have hsize : sizeSub ctx.stop ctx.start = cur.length := by
    rw [h.stop, sizeSub_of_le (Nat.le_add_right _ _), Nat.add_sub_cancel_left]
  have hle : cur.length ≤ (toSplit.drop ctx.start).length := by
    rw [h.start, List.length_append]
    exact Nat.le_add_right _ _
  obtain ⟨piece, hdup, hholds, -⟩ := mboxBufDupRaw_spec fill hle (Nat.le_add_right _ 9)
  rw [h.start, List.take_left] at hholds
  have hlen : ctx.outArr.length = ctx.arrsize := by rw [h.pieces.length_eq, h.arrsize]
  have hroom := h.slots.room
  have hmax := h.slots.le
  refine ⟨piece, hholds, ?_⟩
  rw [storePiece, hsize, hdup, ok_bind, intOf_of_lt (by omega), ok_bind,
    List.take_of_length_le hlen.le]
  rfl

/-- A byte is read: it ends a piece, or it belongs to one. -/
theorem splitBytes_step (fill : ℕ → MboxChar) (delimiter : MboxChar) {c : MboxChar}
    (h : ctx.At toSplit parts cur (c :: rest)) (hc : c ≠ nul)
    (hlt : parts.length + 4 < 5 ^ 13) :
    ∃ ctx', splitBytes fill toSplit delimiter (c :: rest) ctx =
        splitBytes fill toSplit delimiter rest ctx' ∧
      if c = delimiter then ctx'.At toSplit (parts ++ [cur]) [] rest
      else ctx'.At toSplit parts (cur ++ [c]) rest := by
  obtain ⟨memslot, hgrow, hslots⟩ := growSlots_spec h.slots (by rwa [h.arrsize])
  rw [splitBytes, if_neg hc, hgrow, ok_bind]
  have hgrown : SplitCtx.At toSplit { ctx with memslot } parts cur (c :: rest) :=
    { h with slots := hslots.mono }
  by_cases hd : c = delimiter
  · obtain ⟨piece, hholds, hstore⟩ := storePiece_spec fill hgrown
    have hrest : toSplit.drop (ctx.stop + 1) = rest := by
      rw [h.stop, Nat.add_assoc, ← List.drop_drop, h.start, ← List.drop_drop, List.drop_left,
        List.drop_one, List.tail_cons]
    have hlen := congrArg List.length h.start
    simp only [List.length_drop, List.length_append, List.length_cons] at hlen
    simp only [if_pos hd, hstore, ok_bind]
    refine ⟨_, rfl, ?_, ?_, hslots, hrest, ?_, rfl⟩
    · exact List.rel_append h.pieces (List.Forall₂.cons hholds List.Forall₂.nil)
    · rw [List.length_append, ← h.arrsize]
      rfl
    · show ctx.stop + 1 ≤ toSplit.length
      rw [h.stop]
      omega
  · simp only [if_neg hd]
    refine ⟨_, rfl, h.pieces, h.arrsize, hslots.mono, ?_, h.inside, ?_⟩
    · rw [h.start, List.append_assoc]
      rfl
    · rw [h.stop, List.length_append, ← Nat.add_assoc]
      rfl

/-- Behind the first byte there is one delimiter less to come, if that byte is one. -/
theorem count_dropLast_cons (c : MboxChar) (hne : rest ≠ []) :
    (c :: rest).dropLast.count delimiter =
      rest.dropLast.count delimiter + if c = delimiter then 1 else 0 := by
  rw [List.dropLast_cons_of_ne_nil hne, List.count_cons]
  simp

/-- What is still to come is the pieces of the bytes since the last delimiter and of those that
have not been read. -/
theorem splitBytes_spec (fill : ℕ → MboxChar) (hnul : nul ∉ rest) (hcur : delimiter ∉ cur)
    (h : ctx.At toSplit parts cur (rest ++ nul :: tail))
    (hlt : rest ≠ [] → parts.length + rest.dropLast.count delimiter + 4 < 5 ^ 13) :
    ∃ ctx' parts' cur', splitBytes fill toSplit delimiter (rest ++ nul :: tail) ctx = ok ctx' ∧
      ctx'.At toSplit parts' cur' (nul :: tail) ∧
      parts' ++ [cur'] = parts ++ (cur ++ rest).splitOn delimiter := by
  induction rest generalizing ctx parts cur with
  | nil =>
    refine ⟨ctx, parts, cur, rfl, h, ?_⟩
    rw [List.append_nil, List.splitOn_eq_singleton hcur]
  | cons c rest ih =>
    simp only [List.mem_cons, not_or] at hnul
    have hlt := hlt (List.cons_ne_nil c rest)
    rw [List.cons_append] at h ⊢
    obtain ⟨ctx₁, hstep, h₁⟩ := splitBytes_step fill delimiter h (Ne.symm hnul.1) (by omega)
    rw [hstep]
    by_cases hd : c = delimiter
    · rw [if_pos hd] at h₁
      obtain ⟨ctx', parts', cur', hrun, h', hparts⟩ := ih hnul.2 List.not_mem_nil h₁ (by
        intro hne
        rw [count_dropLast_cons c hne, if_pos hd] at hlt
        rw [List.length_append, List.length_singleton]
        omega)
      refine ⟨ctx', parts', cur', hrun, h', ?_⟩
      rw [hparts, hd, List.splitOn_append_cons_self_of_not_mem hcur, List.append_assoc]
      rfl
    · rw [if_neg hd] at h₁
      obtain ⟨ctx', parts', cur', hrun, h', hparts⟩ := ih hnul.2 (by simp [hcur, Ne.symm hd]) h₁
        (by
          intro hne
          rwa [count_dropLast_cons c hne, if_neg hd] at hlt)
      refine ⟨ctx', parts', cur', hrun, h', ?_⟩
      rw [hparts, List.append_assoc]
      rfl

/-- With too many delimiters in front of a byte the number of slots overflows there. -/
theorem splitBytes_fault (fill : ℕ → MboxChar) (hnul : nul ∉ rest) (hne : rest ≠ [])
    (h : ctx.At toSplit parts cur (rest ++ nul :: tail))
    (hle : 5 ^ 13 ≤ parts.length + rest.dropLast.count delimiter + 4) :
    splitBytes fill toSplit delimiter (rest ++ nul :: tail) ctx = fault := by
  induction rest generalizing ctx parts cur with
  | nil => exact absurd rfl hne
  | cons c rest ih =>
    simp only [List.mem_cons, not_or] at hnul
    rw [List.cons_append] at h ⊢
    by_cases hfull : 5 ^ 13 ≤ parts.length + 4
    · rw [splitBytes, if_neg (Ne.symm hnul.1), growSlots_fault h.slots (by rwa [h.arrsize]),
        fault_bind]
    · obtain ⟨ctx₁, hstep, h₁⟩ := splitBytes_step fill delimiter h (Ne.symm hnul.1) (by omega)
      have hrest : rest ≠ [] := by
        rintro rfl
        exact hfull hle
      rw [count_dropLast_cons c hrest] at hle
      rw [hstep]
      by_cases hd : c = delimiter
      · rw [if_pos hd] at h₁ hle
        apply ih hnul.2 hrest h₁
        rw [List.length_append, List.length_singleton]
        omega
      · rw [if_neg hd] at h₁ hle
        exact ih hnul.2 hrest h₁ hle

end Pieces

/-! ## Splitting -/

section SplitOn

variable {α : Type} [DecidableEq α] {a : α}

/-- No delimiter is in a part. -/
theorem not_mem_of_mem_splitOn {xs p : List α} (hp : p ∈ xs.splitOn a) : a ∉ p := by
  induction xs generalizing p with
  | nil =>
    obtain rfl : p = [] := by simpa using hp
    exact List.not_mem_nil
  | cons x xs ih =>
    rw [List.splitOn_cons_eq_if_modifyHead] at hp
    by_cases hx : x = a
    · rw [if_pos (beq_iff_eq.2 hx), List.mem_cons] at hp
      obtain rfl | hp := hp
      · exact List.not_mem_nil
      · exact ih hp
    · rw [if_neg (mt beq_iff_eq.1 hx)] at hp
      cases hxs : xs.splitOn a with
      | nil => exact absurd hxs (List.splitOn_ne_nil a xs)
      | cons q qs =>
        rw [hxs] at hp ih
        obtain rfl | hp := List.mem_cons.1 hp
        · simp [Ne.symm hx, ih (List.mem_cons_self ..)]
        · exact ih (List.mem_cons_of_mem _ hp)

/-- There is one part more than there are delimiters. -/
theorem length_splitOn (a : α) (xs : List α) : (xs.splitOn a).length = xs.count a + 1 := by
  induction xs with
  | nil => rfl
  | cons x xs ih =>
    rw [List.splitOn_cons_eq_if_modifyHead, List.count_cons]
    split
    · rw [List.length_cons, ih]
    · rw [List.length_modifyHead, ih]

end SplitOn

section Split

variable {fill : ℕ → MboxChar} {s tail : List MboxChar} {delimiter : MboxChar}

/-- The string that is split: one delimiter in front of it does not count. -/
def dropLeading (delimiter : MboxChar) (s : List MboxChar) : List MboxChar :=
  if s.head? = some delimiter then s.tail else s

/-- Nothing is lost: between the pieces there were the delimiters, and in them there is none. -/
structure LosesNothing (delimiter : MboxChar) (s : List MboxChar) (pieces : List MboxBuf)
    (count : ℕ) : Prop where
  not_mem : ∀ piece ∈ pieces, delimiter ∉ piece.bytes
  length : pieces.length = count
  count : count = s.count delimiter + 1
  joined : [delimiter].intercalate (pieces.map MboxBuf.bytes) = s

/-- **The string is split and nothing is lost**: the parts with delimiters between them make up the
string. -/
def SplitsWhole (fill : ℕ → MboxChar) (s tail : List MboxChar) (delimiter : MboxChar) : Prop :=
  ∃ pieces count, mboxBufSplit fill (s ++ nul :: tail) delimiter = ok (pieces, count) ∧
    LosesNothing delimiter (dropLeading delimiter s) pieces count

/-- There is no NUL behind the delimiters in front, either. -/
theorem nul_not_mem_dropLeading (hnul : nul ∉ s) : nul ∉ dropLeading delimiter s := by
  unfold dropLeading
  split
  · exact fun hmem => hnul (List.mem_of_mem_tail hmem)
  · exact hnul

/-- The delimiter in front is passed, and the bytes behind it are split. -/
theorem mboxBufSplit_eq (fill : ℕ → MboxChar) (s tail : List MboxChar) (hd : delimiter ≠ nul) :
    mboxBufSplit fill (s ++ nul :: tail) delimiter = (do
      let ctx ← splitBytes fill (dropLeading delimiter s ++ nul :: tail) delimiter
        (dropLeading delimiter s ++ nul :: tail) ⟨[], 5, 0, 0, 0⟩
      let ctx ← storePiece fill (dropLeading delimiter s ++ nul :: tail) ctx
      pure (ctx.outArr, ctx.arrsize)) := by
  have hhead : load (s ++ nul :: tail) 0 = ok (s.head?.getD nul) := by cases s <;> rfl
  have hdrop : (if s.head?.getD nul = delimiter then (s ++ nul :: tail).drop 1
      else s ++ nul :: tail) = dropLeading delimiter s ++ nul :: tail := by
    cases s with
    | nil => exact if_neg hd.symm
    | cons c s =>
      by_cases hc : c = delimiter <;> simp [dropLeading, hc]
  rw [mboxBufSplit, hhead, ok_bind, hdrop]

/-- At first no part is complete, and nothing is in the next one. -/
theorem SplitCtx.At.initial (toSplit : List MboxChar) :
    SplitCtx.At toSplit ⟨[], 5, 0, 0, 0⟩ [] [] toSplit :=
  ⟨List.Forall₂.nil, rfl, Slots.initial, rfl, Nat.zero_le _, rfl⟩

/-- The contents of buffers that hold the parts are the parts. -/
theorem map_bytes {pieces : List MboxBuf} {parts : List (List MboxChar)}
    (h : List.Forall₂ MboxBuf.Holds pieces parts) : pieces.map MboxBuf.bytes = parts := by
  induction h with
  | nil => rfl
  | cons hholds _ ih => rw [List.map_cons, hholds.bytes_eq, ih]

/-- The pieces are those the string falls into at the delimiters. -/
theorem mboxBufSplit_spec (fill : ℕ → MboxChar) (tail : List MboxChar) (hnul : nul ∉ s)
    (hd : delimiter ≠ nul)
    (hlt : (dropLeading delimiter s).dropLast.count delimiter + 4 < 5 ^ 13) :
    ∃ pieces, mboxBufSplit fill (s ++ nul :: tail) delimiter = ok (pieces, pieces.length) ∧
      pieces.map MboxBuf.bytes = (dropLeading delimiter s).splitOn delimiter := by
  obtain ⟨ctx, parts, cur, hrun, hat, hparts⟩ := splitBytes_spec fill
    (nul_not_mem_dropLeading hnul) List.not_mem_nil
    (SplitCtx.At.initial (dropLeading delimiter s ++ nul :: tail)) (by simpa using fun _ => hlt)
  obtain ⟨piece, hholds, hstore⟩ := storePiece_spec fill hat
  refine ⟨ctx.outArr ++ [piece], ?_, ?_⟩
  · have hcount : ctx.arrsize + 1 = (ctx.outArr ++ [piece]).length := by
      rw [List.length_append, hat.pieces.length_eq, ← hat.arrsize]
      rfl
    rw [mboxBufSplit_eq fill s tail hd, hrun, ok_bind, hstore, ok_bind, ← hcount]
    rfl
  · exact (map_bytes (List.rel_append hat.pieces
      (List.Forall₂.cons hholds List.Forall₂.nil))).trans hparts

/-- **Too many parts** overflow the number of slots, which is multiplied by five whenever they are
nearly full. -/
theorem mboxBufSplit_fault (fill : ℕ → MboxChar) (tail : List MboxChar) (hnul : nul ∉ s)
    (hd : delimiter ≠ nul)
    (hle : 5 ^ 13 ≤ (dropLeading delimiter s).dropLast.count delimiter + 4) :
    mboxBufSplit fill (s ++ nul :: tail) delimiter = fault := by
  have hne : dropLeading delimiter s ≠ [] := by
    intro hnil
    rw [hnil] at hle
    simp at hle
  rw [mboxBufSplit_eq fill s tail hd, splitBytes_fault fill (nul_not_mem_dropLeading hnul) hne
    (SplitCtx.At.initial _) (by simpa using hle), fault_bind]

/-- **Splitting loses nothing** exactly if the number of slots does not overflow, which it does
when behind `5 ^ 13 - 4` delimiters there is another byte. -/
theorem splitsWhole_iff (fill : ℕ → MboxChar) (tail : List MboxChar) (hnul : nul ∉ s)
    (hd : delimiter ≠ nul) :
    SplitsWhole fill s tail delimiter ↔
      (dropLeading delimiter s).dropLast.count delimiter < 1220703121 := by
  constructor
  · rintro ⟨pieces, count, hrun, -⟩
    by_contra hle
    rw [mboxBufSplit_fault fill tail hnul hd (by omega)] at hrun
    exact nomatch hrun
  · intro hlt
    obtain ⟨pieces, hrun, hpieces⟩ := mboxBufSplit_spec fill tail hnul hd (by omega)
    refine ⟨pieces, _, hrun, ?_, rfl, ?_, ?_⟩
    · intro piece hpiece
      exact not_mem_of_mem_splitOn (hpieces ▸ List.mem_map_of_mem hpiece)
    · rw [← length_splitOn, ← hpieces, List.length_map]
    · rw [hpieces, List.intercalate_splitOn]

/-- The string `,a,,b`, with a delimiter in front and an empty part. -/
theorem splitsWhole_iff_three : SplitsWhole (fun _ => nul) [44, 97, 44, 44, 98] [] 44 :=
  (splitsWhole_iff (fun _ => nul) [] (by decide) (by decide)).2 (by decide)

/-- So many delimiters in a row are not split. -/
theorem replicate_not_split (fill : ℕ → MboxChar) (tail : List MboxChar) {n : ℕ}
    (hn : 5 ^ 13 - 3 < n) (hd : delimiter ≠ nul) :
    ¬ SplitsWhole fill (List.replicate n delimiter) tail delimiter := by
  rintro ⟨pieces, count, hrun, -⟩
  obtain ⟨n, rfl⟩ : ∃ m, n = m + 1 := ⟨n - 1, by omega⟩
  have hnul : nul ∉ List.replicate (n + 1) delimiter :=
    fun h => hd (List.eq_of_mem_replicate h).symm
  have hrest : dropLeading delimiter (List.replicate (n + 1) delimiter) =
      List.replicate n delimiter := if_pos rfl
  rw [mboxBufSplit_fault fill tail hnul hd] at hrun
  · exact nomatch hrun
  · rw [hrest, List.dropLast_replicate, List.count_replicate_self]
    omega

/-- A string of commas, which are enough to need more slots than an `int` can count. -/
theorem commas_not_splitsWhole :
    ¬ SplitsWhole (fun _ => nul) (List.replicate 1220703123 44) [] 44 :=
  replicate_not_split _ [] (by decide) (by decide)

end Split

end Libmbox2
