import Mathlib.Tactic.IntervalCases
import Libmbox2.HeaderLines

/-!
# Encoded words (`mboxBufDecodeMimeEncoded`, `mboxBufDecodeMimeEncodedInplace`)

An encoded word is `=?utf-8?Q?`, a payload and `?=`; in the payload `=` and two hexadecimal
digits stand for a byte. `decodeMimeEncoded` is passed a pointer to read from and one to write
to, and one of its callers passes the same pointer twice. So the pointers are the numbers of
blocks in a memory, and the two may be one.

What a payload is decoded to is `mimeDecode`. The reader is never behind the writer, which is
why the decoding may go on in place (`decodeMime_inplace`).
-/

namespace Libmbox2

open CSem CSem.Exec

/-- Blocks of memory, by number, as the decoder may read one and write another or the same. -/
abbrev Blocks : Type := List (List MboxChar)

/-- A byte of a block is read, when it is there. -/
def Blocks.load (mem : Blocks) (p i : ℕ) : Exec MboxChar := do
  let d ← CSem.load mem p
  CSem.load d i

/-- A byte of a block is written, when it is there. -/
def Blocks.store (mem : Blocks) (p i : ℕ) (c : MboxChar) : Exec Blocks := do
  let d ← CSem.load mem p
  let d ← CSem.store d i c
  CSem.store mem p d

/-- `hexToInt`: the value of a hexadecimal digit, `-1` of any other byte. -/
def hexToInt (c : MboxChar) : Int :=
  if 48 ≤ c ∧ c ≤ 57 then (c - 48).toNat
  else if 65 ≤ c ∧ c ≤ 70 then (c - 65 + 10).toNat
  else if 97 ≤ c ∧ c ≤ 102 then (c - 97 + 10).toNat
  else -1

/-- `(hi << 4) | lo`, the byte of two hexadecimal digits. -/
def hexByte (hi lo : Int) : MboxChar := UInt8.ofNat (hi.toNat <<< 4 ||| lo.toNat)

/-- Where the loop of `decodeMimeEncoded` stands: the memory, the byte of the input that is next,
and how many were written. -/
structure DecodeCtx where
  mem : Blocks
  /-- where `in` is in the block of `str` -/
  inp : ℕ
  len : ℕ
  deriving DecidableEq, Repr

section Functions

variable (str out : ℕ)

/-- A byte is written to the output, and `k` bytes of the input are passed. -/
def DecodeCtx.put (ctx : DecodeCtx) (c : MboxChar) (k : ℕ) : Exec DecodeCtx := do
  let mem ← ctx.mem.store out ctx.len c
  pure ⟨mem, ctx.inp + k, ctx.len + 1⟩

/-- One iteration of `decodeMimeEncoded`: an escape or a single byte is read and what it stands for
is written. -/
def decodeMimeStep (ctx : DecodeCtx) : Exec (DecodeCtx ⊕ DecodeCtx) := do
  let c ← ctx.mem.load str ctx.inp
  if c = nul then pure (.inr ctx)
  else if c = 61 then
    let hi ← ctx.mem.load str (ctx.inp + 1)
    let lo ← ctx.mem.load str (ctx.inp + 2)
    if hexToInt hi ≠ -1 ∧ hexToInt lo ≠ -1 then
      let ctx ← ctx.put out (hexByte (hexToInt hi) (hexToInt lo)) 3
      pure (.inl ctx)
    else
      let ctx ← ctx.put out c 1
      pure (.inl ctx)
  else
    let ctx ← ctx.put out c 1
    pure (.inl ctx)

/-- `decodeMimeEncoded`: the block `str` is decoded into `out` up to its NUL. What it gives is the
memory, and what goes into `outlen`. -/
def decodeMimeEncoded (fuel : ℕ) (mem : Blocks) : Exec (Blocks × ℕ) := do
  let ctx ← loop (decodeMimeStep str out) fuel ⟨mem, 0, 0⟩
  pure (ctx.mem, ctx.len)

end Functions

/-- `mboxBufDecodeMimeEncodedInplace`: what is between the two ends of the word is moved to the
front of the buffer, and decoded there. -/
def mboxBufDecodeMimeEncodedInplace (fuel : ℕ) (buf : MboxBuf) : Exec MboxBuf := do
  let buf ← mboxBufSlice buf 10 0 (sizeSub (sizeSub buf.len 10) 2)
  let (mem, outlen) ← decodeMimeEncoded 0 0 fuel [buf.data]
  let data ← load mem 0
  mboxBufSetLen { buf with data } outlen

/-! ## What a payload stands for -/

/-- What a payload without a NUL is decoded to: the bytes of its escapes, and all other bytes as
they are. -/
def mimeDecode : List MboxChar → List MboxChar
  | c :: hi :: lo :: rest =>
    if c = 61 ∧ hexToInt hi ≠ -1 ∧ hexToInt lo ≠ -1 then
      hexByte (hexToInt hi) (hexToInt lo) :: mimeDecode rest
    else c :: mimeDecode (hi :: lo :: rest)
  | c :: rest => c :: mimeDecode rest
  | [] => []

/-- One step of it: the byte that is written, and what is left to read. -/
inductive MimeToken : List MboxChar → MboxChar → List MboxChar → Prop
  | escaped {hi lo rest} : hexToInt hi ≠ -1 → hexToInt lo ≠ -1 →
      MimeToken (61 :: hi :: lo :: rest) (hexByte (hexToInt hi) (hexToInt lo)) rest
  | literal {c rest} :
      (c = 61 → ∀ hi lo rest', rest = hi :: lo :: rest' → hexToInt hi = -1 ∨ hexToInt lo = -1) →
      MimeToken (c :: rest) c rest

section Decode

variable {rest rest' done d₀ : List MboxChar} {b : MboxChar} {ctx : DecodeCtx} {str out : ℕ}

/-- Some token comes next in a text that is not empty, and decoding goes on behind it. -/
theorem exists_token (hne : rest ≠ []) :
    ∃ b rest', MimeToken rest b rest' ∧ mimeDecode rest = b :: mimeDecode rest' := by
  rcases rest with _ | ⟨c, _ | ⟨hi, _ | ⟨lo, rest⟩⟩⟩
  · exact absurd rfl hne
  · exact ⟨c, [], MimeToken.literal (fun _ _ _ _ h => nomatch h), rfl⟩
  · exact ⟨c, [hi], MimeToken.literal (fun _ _ _ _ h => nomatch h), rfl⟩
  · rw [mimeDecode]
    split
    · rename_i h
      obtain ⟨rfl, hhi, hlo⟩ := h
      exact ⟨_, rest, MimeToken.escaped hhi hlo, rfl⟩
    · rename_i h
      refine ⟨c, hi :: lo :: rest, MimeToken.literal fun hc hi' lo' rest' heq => ?_, rfl⟩
      cases heq
      by_contra hboth
      exact h ⟨hc, not_or.mp hboth⟩

theorem MimeToken.exists_append (h : MimeToken rest b rest') :
    ∃ x xs, rest = x :: xs ++ rest' := by
  cases h with
  | escaped _ _ => exact ⟨_, [_, _], rfl⟩
  | literal _ => exact ⟨_, [], rfl⟩

/-- The bytes of the input from the reader on. -/
def DecodeCtx.Ahead (str : ℕ) (ctx : DecodeCtx) (bytes : List MboxChar) : Prop :=
  ∃ d, ctx.mem[str]? = some d ∧ d.drop ctx.inp = bytes

theorem DecodeCtx.Ahead.load {bytes : List MboxChar} (h : ctx.Ahead str bytes) {k : ℕ}
    {c : MboxChar} (hc : bytes[k]? = some c) : ctx.mem.load str (ctx.inp + k) = ok c := by
  obtain ⟨d, hd, rfl⟩ := h
  rw [List.getElem?_drop] at hc
  rw [Blocks.load, load_eq hd, ok_bind, load_eq hc]

/-- At the NUL the loop is left, with nothing written. -/
theorem decodeMimeStep_nul {tail : List MboxChar} (h : ctx.Ahead str (nul :: tail)) :
    decodeMimeStep str out ctx = ok (.inr ctx) := by
  have hload : ctx.mem.load str ctx.inp = ok nul := h.load (k := 0) rfl
  rw [decodeMimeStep, hload]
  rfl

/-- Elsewhere a byte is written for each token. There is a byte behind the NUL, as two bytes are
read behind a `=`. -/
theorem decodeMimeStep_token {x : MboxChar} {tail : List MboxChar}
    (h : ctx.Ahead str (rest ++ nul :: x :: tail)) (hnul : nul ∉ rest)
    (ht : MimeToken rest b rest') :
    decodeMimeStep str out ctx =
      ctx.put out b (rest.length - rest'.length) >>= fun ctx => ok (.inl ctx) := by
  cases ht with
  | @escaped hi lo _ hhi hlo =>
    have hload : ctx.mem.load str ctx.inp = ok 61 := h.load (k := 0) rfl
    have hload₁ : ctx.mem.load str (ctx.inp + 1) = ok hi := h.load (k := 1) rfl
    have hload₂ : ctx.mem.load str (ctx.inp + 2) = ok lo := h.load (k := 2) rfl
    have hlen : (61 :: hi :: lo :: rest').length - rest'.length = 3 := by
      simp only [List.length_cons]
      omega
    simp only [decodeMimeStep, hload, hload₁, hload₂, ok_bind, hlen]
    rw [if_neg (by decide), if_pos trivial, if_pos ⟨hhi, hlo⟩]
    rfl
  | literal hplain =>
    have hload : ctx.mem.load str ctx.inp = ok b := h.load (k := 0) rfl
    have hb : b ≠ nul := fun hb => hnul (hb ▸ List.mem_cons_self ..)
    have hlen : (b :: rest').length - rest'.length = 1 := by
      simp only [List.length_cons]
      omega
    simp only [decodeMimeStep, hload, ok_bind, hlen, if_neg hb]
    split
    · rename_i hesc
      -- what is read behind the `=` are no two digits
      obtain ⟨hi, lo, hload₁, hload₂, hno⟩ : ∃ hi lo, ctx.mem.load str (ctx.inp + 1) = ok hi ∧
          ctx.mem.load str (ctx.inp + 2) = ok lo ∧ ¬ (hexToInt hi ≠ -1 ∧ hexToInt lo ≠ -1) := by
        rcases rest' with _ | ⟨hi, _ | ⟨lo, rest'⟩⟩
        · exact ⟨nul, x, h.load (k := 1) rfl, h.load (k := 2) rfl,
            fun hboth => hboth.1 (by decide)⟩
        · exact ⟨hi, nul, h.load (k := 1) rfl, h.load (k := 2) rfl,
            fun hboth => hboth.2 (by decide)⟩
        · refine ⟨hi, lo, h.load (k := 1) rfl, h.load (k := 2) rfl, ?_⟩
          exact not_and_or.mpr ((hplain hesc hi lo rest' rfl).imp not_not_intro not_not_intro)
      simp only [hload₁, hload₂, ok_bind]
      rw [if_neg hno]
      rfl
    · rfl

/-! ## Decoding in place -/

/-- The block was `d₀`. What was read of it is `done` in front, and bytes that are not needed any
more; from the reader on it is as it was, up to the NUL behind `rest` and further. -/
structure DecodeCtx.InPlace (d₀ : List MboxChar) (ctx : DecodeCtx) (done rest : List MboxChar) :
    Prop where
  mem : ∃ gap, ctx.mem = [done ++ gap ++ d₀.drop ctx.inp] ∧ ctx.inp = (done ++ gap).length
  len : ctx.len = done.length
  unread : ∃ x tail, d₀.drop ctx.inp = rest ++ nul :: x :: tail

namespace DecodeCtx.InPlace

/-- What is ahead of the reader was not written over: it is still what the block had at first. -/
theorem ahead (h : ctx.InPlace d₀ done rest) :
    ∃ x tail, ctx.Ahead 0 (rest ++ nul :: x :: tail) ∧
      d₀.drop ctx.inp = rest ++ nul :: x :: tail := by
  obtain ⟨gap, hmem, hinp⟩ := h.mem
  obtain ⟨x, tail, hunread⟩ := h.unread
  refine ⟨x, tail, ⟨done ++ gap ++ d₀.drop ctx.inp, by rw [hmem]; rfl, ?_⟩, hunread⟩
  rw [hinp, List.drop_left, ← hinp, hunread]

/-- The reader is not behind the writer, and what it has not read is as it was. -/
theorem unchanged (h : ctx.InPlace d₀ done rest) :
    ctx.len ≤ ctx.inp ∧ ∃ d, ctx.mem = [d] ∧ d.drop ctx.inp = d₀.drop ctx.inp := by
  obtain ⟨gap, hmem, hinp⟩ := h.mem
  refine ⟨?_, _, hmem, ?_⟩
  · rw [h.len, hinp, List.length_append]
    exact Nat.le_add_right _ _
  · rw [hinp, List.drop_left]

/-- A byte goes behind what is done; the bytes it was read from are not needed any more. -/
theorem put (h : ctx.InPlace d₀ done rest) {x : MboxChar} {xs : List MboxChar}
    (hrest : rest = x :: xs ++ rest') (b : MboxChar) :
    ∃ ctx', ctx.put 0 b (x :: xs).length = ok ctx' ∧ ctx'.InPlace d₀ (done ++ [b]) rest' := by
  obtain ⟨gap, hmem, hinp⟩ := h.mem
  obtain ⟨y, tail, hunread⟩ := h.unread
  -- the first byte that may be written over is in the gap, or has just been read
  obtain ⟨z, gap', hgap⟩ : ∃ z gap', gap ++ x :: xs = z :: gap' :=
    List.exists_cons_of_ne_nil (List.append_ne_nil_of_right_ne_nil _ (List.cons_ne_nil _ _))
  have hglen := congrArg List.length hgap
  have hread : d₀.drop ctx.inp = x :: xs ++ d₀.drop (ctx.inp + (x :: xs).length) := by
    rw [← List.drop_drop, hunread, hrest, List.append_assoc, List.drop_left]
  have hblock : done ++ gap ++ d₀.drop ctx.inp =
      done ++ z :: (gap' ++ d₀.drop (ctx.inp + (x :: xs).length)) := by
    rw [hread, List.append_assoc, ← List.append_assoc gap, hgap, List.cons_append]
  have hstore : CSem.store (done ++ gap ++ d₀.drop ctx.inp) ctx.len b =
      ok (done ++ b :: (gap' ++ d₀.drop (ctx.inp + (x :: xs).length))) := by
    rw [hblock, h.len]
    exact store_append_length ..
  refine ⟨⟨[done ++ b :: (gap' ++ d₀.drop (ctx.inp + (x :: xs).length))],
    ctx.inp + (x :: xs).length, ctx.len + 1⟩, ?_, ⟨⟨gap', ?_, ?_⟩, ?_, y, tail, ?_⟩⟩
  · have hload : CSem.load ctx.mem 0 = ok (done ++ gap ++ d₀.drop ctx.inp) := by
      rw [hmem]
      rfl
    rw [DecodeCtx.put, Blocks.store, hload, ok_bind, hstore, ok_bind, hmem]
    rfl
  · simp
  · simp only [List.length_append, List.length_cons, List.length_nil] at hinp hglen ⊢
    omega
  · rw [h.len, List.length_append]
    rfl
  · rw [← List.drop_drop, hunread, hrest, List.append_assoc, List.drop_left]

/-- **An iteration** decodes a token of what is left, and keeps the writer behind the reader. -/
theorem step (h : ctx.InPlace d₀ done rest) (hnul : nul ∉ rest) {b : MboxChar}
    (ht : MimeToken rest b rest') :
    ∃ ctx', decodeMimeStep 0 0 ctx = ok (.inl ctx') ∧ ctx'.InPlace d₀ (done ++ [b]) rest' := by
  obtain ⟨y, tail, hahead, -⟩ := h.ahead
  obtain ⟨x, xs, hrest⟩ := ht.exists_append
  obtain ⟨ctx', hput, hin⟩ := h.put hrest b
  have hlen : rest.length - rest'.length = (x :: xs).length := by
    rw [hrest, List.length_append, Nat.add_sub_cancel]
  refine ⟨ctx', ?_, hin⟩
  rw [decodeMimeStep_token hahead hnul ht, hlen, hput]
  rfl

/-- **Decoding in place**: at the end the decoded bytes are in front, and nothing is left to be
read. -/
theorem run (h : ctx.InPlace d₀ done rest) (hnul : nul ∉ rest) :
    ∃ ctx', LoopTo (fun _ => decodeMimeStep 0 0) ctx ctx' ∧
      ctx'.InPlace d₀ (done ++ mimeDecode rest) [] := by
  generalize hm : rest.length = m
  induction m using Nat.strongRecOn generalizing rest done ctx with
  | _ m ih =>
    rcases eq_or_ne rest [] with rfl | hne
    · obtain ⟨x, tail, hahead, -⟩ := h.ahead
      refine ⟨ctx, LoopTo.done (Converges.const (decodeMimeStep_nul hahead)), ?_⟩
      rw [mimeDecode, List.append_nil]
      exact h
    · obtain ⟨b, rest', ht, hdecode⟩ := exists_token hne
      obtain ⟨x, xs, hrest⟩ := ht.exists_append
      obtain ⟨ctx₁, hstep, hin⟩ := h.step hnul ht
      have hlt : rest'.length < m := by
        rw [← hm, hrest, List.length_append, List.length_cons]
        omega
      have hnul' : nul ∉ rest' := fun hmem => hnul (hrest ▸ List.mem_append_right _ hmem)
      obtain ⟨ctx', hloop, hin'⟩ := ih _ hlt hin hnul' rfl
      refine ⟨ctx', LoopTo.step (Converges.const hstep) hloop, ?_⟩
      rw [hdecode, List.append_cons]
      exact hin'

/-- No state that the loop comes to has a byte changed that is still to be read. -/
theorem visits (h : ctx.InPlace d₀ done rest) (hnul : nul ∉ rest) {ctx' : DecodeCtx}
    (hvisits : Visits (decodeMimeStep 0 0) ctx ctx') :
    ctx'.len ≤ ctx'.inp ∧ ∃ d, ctx'.mem = [d] ∧ d.drop ctx'.inp = d₀.drop ctx'.inp := by
  have hnext : ∀ s s' : DecodeCtx, (∃ done rest, s.InPlace d₀ done rest ∧ nul ∉ rest) →
      decodeMimeStep 0 0 s = ok (.inl s') → ∃ done rest, s'.InPlace d₀ done rest ∧ nul ∉ rest := by
    rintro s s' ⟨done, rest, h, hnul⟩ hbody
    rcases eq_or_ne rest [] with rfl | hne
    · obtain ⟨x, tail, hahead, -⟩ := h.ahead
      rw [decodeMimeStep_nul hahead] at hbody
      cases hbody
    · obtain ⟨b, rest', ht, -⟩ := exists_token hne
      obtain ⟨x, xs, hrest⟩ := ht.exists_append
      obtain ⟨ctx₁, hstep, hin⟩ := h.step hnul ht
      obtain rfl : ctx₁ = s' := by simpa using hstep.symm.trans hbody
      exact ⟨_, rest', hin, fun hmem => hnul (hrest ▸ List.mem_append_right _ hmem)⟩
  obtain ⟨done', rest', h', -⟩ := hvisits.inv hnext ⟨done, rest, h, hnul⟩
  exact h'.unchanged

end DecodeCtx.InPlace

end Decode

/-! ## Encoded words -/

section Words

variable {buf : MboxBuf} {payload : List MboxChar}

/-- An encoded word with the payload. -/
def mimeWord (payload : List MboxChar) : List MboxChar := mimePrefix ++ payload ++ mimeSuffix

/-- The payload is moved to the front of the block. -/
theorem mboxBufSlice_word (h : buf.Holds (mimeWord payload)) :
    ∃ sliced x tail, mboxBufSlice buf 10 0 (sizeSub (sizeSub buf.len 10) 2) = ok sliced ∧
      sliced.data = payload ++ nul :: x :: tail := by
  obtain ⟨rest, hdata⟩ := h.data
  have hten : mimePrefix.length = 10 := rfl
  have hlen : buf.len = 10 + payload.length + 2 := by
    rw [h.len, mimeWord, List.length_append, List.length_append]
    rfl
  have hsize : sizeSub (sizeSub buf.len 10) 2 = payload.length := by
    rw [hlen, sizeSub_of_le (show 10 ≤ 10 + payload.length + 2 by omega),
      sizeSub_of_le (show 2 ≤ 10 + payload.length + 2 - 10 by omega)]
    omega
  obtain ⟨y, ys, hsuffix⟩ : ∃ y ys, mimeSuffix ++ nul :: rest = y :: ys := ⟨_, _, rfl⟩
  have hword : buf.data = mimePrefix ++ (payload ++ y :: ys) := by
    rw [hdata, mimeWord, List.append_assoc, List.append_assoc, hsuffix]
  obtain ⟨rest', hslice, hlength⟩ := mboxBufSlice_front mimePrefix payload ys hword
  rw [hsize]
  -- ten bytes were in front of the payload, so some are behind it now
  rcases rest' with _ | ⟨x, tail⟩
  · rw [hword] at hlength
    simp only [List.length_append, List.length_cons, List.length_nil, hten] at hlength
    omega
  · exact ⟨_, x, tail, hslice, rfl⟩

/-- A payload is read up to its first NUL, or up to the one behind it. -/
theorem exists_takeWhile_nul (payload : List MboxChar) (x : MboxChar) (tail : List MboxChar) :
    ∃ x' tail', payload ++ nul :: x :: tail =
      payload.takeWhile (· ≠ nul) ++ nul :: x' :: tail' := by
  induction payload with
  | nil => exact ⟨x, tail, rfl⟩
  | cons c payload ih =>
    obtain ⟨x', tail', hrest⟩ := ih
    by_cases hc : c = nul
    · subst hc
      obtain ⟨y, ys, hy⟩ : ∃ y ys, payload ++ nul :: x :: tail = y :: ys :=
        List.exists_cons_of_ne_nil (List.append_ne_nil_of_right_ne_nil _ (List.cons_ne_nil _ _))
      exact ⟨y, ys, by rw [List.cons_append, hy, List.takeWhile_cons_of_neg (by simp)]; rfl⟩
    · refine ⟨x', tail', ?_⟩
      rw [List.takeWhile_cons_of_pos (by simp [hc]), List.cons_append, hrest, List.cons_append]

/-- There is no NUL in what is in front of the first one. -/
theorem nul_notMem_takeWhile (payload : List MboxChar) :
    nul ∉ payload.takeWhile (· ≠ nul) := by
  intro hmem
  simpa using List.mem_takeWhile_imp hmem

/-- What the loop starts from: nothing is written, all is to be read. -/
theorem inPlace_start {d₀ rest : List MboxChar} {x : MboxChar} {tail : List MboxChar}
    (h : d₀ = rest ++ nul :: x :: tail) : DecodeCtx.InPlace d₀ ⟨[d₀], 0, 0⟩ [] rest :=
  ⟨⟨[], rfl, rfl⟩, rfl, x, tail, h⟩

/-- **The payload is decoded in the buffer**, up to its first NUL if there is one in it. -/
theorem mboxBufDecodeMimeEncodedInplace_spec (h : buf.Holds (mimeWord payload)) :
    ∃ buf', Converges (fun n => mboxBufDecodeMimeEncodedInplace n buf) buf' ∧
      buf'.Holds (mimeDecode (payload.takeWhile (· ≠ nul))) := by
  obtain ⟨sliced, x, tail, hslice, hdata⟩ := mboxBufSlice_word h
  obtain ⟨x', tail', hread⟩ := exists_takeWhile_nul payload x tail
  obtain ⟨ctx, hloop, hin⟩ := (inPlace_start (hdata.trans hread)).run (nul_notMem_takeWhile _)
  rw [List.nil_append] at hin
  generalize mimeDecode (payload.takeWhile (· ≠ nul)) = decoded at hin ⊢
  obtain ⟨gap, hmem, -⟩ := hin.mem
  obtain ⟨y, ys, hunread⟩ := hin.unread
  -- something is behind the decoded bytes, so there is room for the NUL
  obtain ⟨z, zs, hz⟩ : ∃ z zs, gap ++ sliced.data.drop ctx.inp = z :: zs := by
    rw [hunread]
    exact List.exists_cons_of_ne_nil (List.append_ne_nil_of_right_ne_nil _ (List.cons_ne_nil _ _))
  rw [List.append_assoc, hz] at hmem
  have hset : mboxBufSetLen { sliced with data := decoded ++ z :: zs } decoded.length = _ :=
    mboxBufSetLen_append decoded zs rfl
  refine ⟨_, ?_, (⟨rfl, zs, rfl⟩ :
    MboxBuf.Holds { sliced with data := decoded ++ nul :: zs, len := decoded.length } decoded)⟩
  refine Converges.bind (Converges.const hslice) ?_
  refine Converges.bind (hloop.converges.bind (Converges.const rfl)) (Converges.const ?_)
  rw [hmem, hin.len, ← hset]
  rfl

/-! ## The two decoders -/

/-- What is accepted, and long enough, is an encoded word. -/
theorem exists_mimeWord {xs : List MboxChar} (h : buf.Holds xs)
    (haccepts : mboxBufIsMimeEncoded buf = ok true) (hlen : 12 ≤ buf.len) :
    ∃ payload, xs = mimeWord payload := by
  obtain ⟨rest, hdata⟩ := h.data
  have hxs : 12 ≤ xs.length := h.len ▸ hlen
  have hnul : nul ∉ mimeSuffix := by decide
  have hdrop : buf.data.drop (buf.len - 2) = xs.drop (xs.length - 2) ++ nul :: rest := by
    rw [hdata, h.len, List.drop_append_of_le_length (Nat.sub_le _ _)]
  have hbegins : matchAt mimePrefix buf.data = ok (decide (mimePrefix <+: xs)) := by
    rw [hdata, matchAt_append nul_notMem_mimePrefix]
  have hsuffix : matchAt mimeSuffix (buf.data.drop (buf.len - 2)) =
      ok (decide (mimeSuffix <+: xs.drop (xs.length - 2))) := by
    rw [hdrop, matchAt_append hnul]
  have haccepts' : (matchAt mimePrefix buf.data >>= fun found => if found then
      if buf.len < 2 then fault else matchAt mimeSuffix (buf.data.drop (buf.len - 2))
      else pure false) = ok true := haccepts
  rw [hbegins, ok_bind] at haccepts'
  split at haccepts'
  · rename_i hfound
    rw [if_neg (by omega), hsuffix] at haccepts'
    obtain ⟨tail, htail⟩ := of_decide_eq_true hfound
    obtain ⟨more, hmore⟩ := of_decide_eq_true (ok.inj haccepts')
    have hprefix10 : mimePrefix.length = 10 := rfl
    have hsuffix2 : mimeSuffix.length = 2 := rfl
    -- the suffix is the last two bytes
    have hmorelen := congrArg List.length hmore
    rw [List.length_append, List.length_drop, hsuffix2] at hmorelen
    obtain rfl : more = [] := List.length_eq_zero_iff.mp (by omega)
    rw [List.append_nil] at hmore
    have htaillen := congrArg List.length htail
    rw [List.length_append, hprefix10] at htaillen
    refine ⟨tail.take (tail.length - 2), ?_⟩
    have hlast : tail.drop (tail.length - 2) = mimeSuffix := by
      rw [hmore, ← htail, List.length_append, hprefix10,
        show 10 + tail.length - 2 = mimePrefix.length + (tail.length - 2) by omega,
        List.drop_length_add_append]
    rw [mimeWord, List.append_assoc, ← hlast, List.take_append_drop, htail]
  · cases haccepts'

/-- Both decoders return, with the same bytes, which are what the payload stands for. -/
def DecodersAgree (fill : ℕ → MboxChar) (buf : MboxBuf) : Prop :=
  ∃ out inplace, mboxBufDecodeMimeEncoded fill buf = ok out ∧
    Converges (fun n => mboxBufDecodeMimeEncodedInplace n buf) inplace ∧
    out.bytes = inplace.bytes ∧ out.len = inplace.len ∧
    inplace.bytes = mimeDecode (((buf.bytes.drop 10).take (buf.len - 12)).takeWhile (· ≠ nul))

/-- **The decoders agree** exactly where there is nothing to decode. Elsewhere the one that copies
reads behind its memory, since it takes the struct of the buffer for its bytes. -/
theorem decodersAgree_iff (fill : ℕ → MboxChar) {xs : List MboxChar} (h : buf.Holds xs)
    (haccepts : mboxBufIsMimeEncoded buf = ok true) (hlen : 12 ≤ buf.len) :
    DecodersAgree fill buf ↔ buf.len = 12 := by
  have hsize : sizeSub (sizeSub buf.len 10) 2 = buf.len - 12 := by
    rw [sizeSub_of_le (show 10 ≤ buf.len by omega), sizeSub_of_le (show 2 ≤ buf.len - 10 by omega)]
    omega
  constructor
  · rintro ⟨out, inplace, hout, -⟩
    rw [mboxBufDecodeMimeEncoded, hsize] at hout
    split at hout
    · cases hout
    · rename_i hzero
      omega
  · intro h12
    obtain ⟨payload, rfl⟩ := exists_mimeWord h haccepts hlen
    have hpayload : payload = [] := by
      have hword := h.len
      rw [h12, mimeWord, List.length_append, List.length_append] at hword
      have hfixed : mimePrefix.length = 10 ∧ mimeSuffix.length = 2 := ⟨rfl, rfl⟩
      exact List.length_eq_zero_iff.mp (by omega)
    subst hpayload
    obtain ⟨inplace, hinplace, hholds⟩ := mboxBufDecodeMimeEncodedInplace_spec h
    have hnothing : inplace.bytes = [] ∧ inplace.len = 0 := ⟨hholds.bytes_eq, hholds.len⟩
    obtain ⟨d, hd, hlong⟩ := store_of_lt (d := (mboxBufAlloc fill 512).data) (i := 0)
      (by rw [mboxBufAlloc_data_length]; omega) nul
    refine ⟨{ mboxBufAlloc fill 512 with data := d, len := 0 }, inplace, ?_, hinplace, ?_, ?_, ?_⟩
    · rw [mboxBufDecodeMimeEncoded, hsize, h12, if_neg (by decide), mboxBufSetLen, hd]
      rfl
    · rw [hnothing.1]
      rfl
    · rw [hnothing.2]
    · rw [hnothing.1, h12, Nat.sub_self, List.take_zero]
      rfl

end Words

/-- A buffer with an encoded word. -/
def wordBuf (payload : List MboxChar) : MboxBuf :=
  ⟨mimeWord payload ++ [nul], 0, (mimeWord payload).length, (mimeWord payload).length + 1⟩

/-- It holds that word. -/
theorem wordBuf_holds (payload : List MboxChar) : (wordBuf payload).Holds (mimeWord payload) :=
  ⟨rfl, [], rfl⟩

/-- They agree on a word with nothing in it, and not on one with a letter and an escape. -/
theorem decodersAgree_iff_words : DecodersAgree (fun _ => nul) (wordBuf []) ∧
    ¬ DecodersAgree (fun _ => nul) (wordBuf (str "H=69")) :=
  ⟨(decodersAgree_iff _ (wordBuf_holds []) (by decide) (by decide)).mpr (by decide),
    fun hagree => absurd ((decodersAgree_iff _ (wordBuf_holds (str "H=69")) (by decide)
      (by decide)).mp hagree) (by decide)⟩

/-- The name in the comment of the parser is decoded in place, and the copy reads outside of its
memory. -/
theorem hackerNoon_not_agree :
    mboxBufIsMimeEncoded (wordBuf (str "Hacker=20Noon")) = ok true ∧
      12 ≤ (wordBuf (str "Hacker=20Noon")).len ∧
      mboxBufDecodeMimeEncoded (fun _ => nul) (wordBuf (str "Hacker=20Noon")) = fault ∧
      ¬ DecodersAgree (fun _ => nul) (wordBuf (str "Hacker=20Noon")) := by
  have hfault : mboxBufDecodeMimeEncoded (fun _ => nul) (wordBuf (str "Hacker=20Noon")) = fault :=
    rfl
  refine ⟨by decide +kernel, by decide +kernel, hfault, ?_⟩
  rintro ⟨out, inplace, hout, -⟩
  rw [hfault] at hout
  cases hout

/-! ## Decoding what was encoded -/

/-- A hexadecimal digit, of either case. -/
def hexDigit (upper : Bool) (n : ℕ) : MboxChar :=
  UInt8.ofNat (if n < 10 then 48 + n else if upper then 55 + n else 87 + n)

/-- The second string encodes the first: each byte is written as it is, or as `=` and two
digits. -/
inductive QEncodes : List MboxChar → List MboxChar → Prop where
  | nil : QEncodes [] []
  | literal {c s payload} : c ≠ 61 → c ≠ nul → QEncodes s payload → QEncodes (c :: s) (c :: payload)
  | escaped {s payload} (c : MboxChar) (u v : Bool) : QEncodes s payload →
      QEncodes (c :: s)
        (61 :: hexDigit u (c.toNat / 16) :: hexDigit v (c.toNat % 16) :: payload)

theorem hexToInt_hexDigit (u : Bool) {n : ℕ} (hn : n < 16) :
    hexToInt (hexDigit u n) = n ∧ hexDigit u n ≠ nul := by
  interval_cases n <;> cases u <;> decide

theorem hexByte_div_mod (c : MboxChar) :
    hexByte ((c.toNat / 16 : ℕ) : Int) ((c.toNat % 16 : ℕ) : Int) = c := by
  have hlow : c.toNat % 16 < 2 ^ 4 := Nat.mod_lt _ (by decide)
  rw [hexByte, Int.toNat_natCast, Int.toNat_natCast, ← Nat.shiftLeft_add_eq_or_of_lt hlow,
    Nat.shiftLeft_eq, Nat.div_add_mod' c.toNat 16, UInt8.ofNat_toNat]

theorem mimeDecode_literal {c : MboxChar} (hc : c ≠ 61) (rest : List MboxChar) :
    mimeDecode (c :: rest) = c :: mimeDecode rest := by
  rcases rest with _ | ⟨hi, _ | ⟨lo, rest⟩⟩
  · rfl
  · rfl
  · rw [mimeDecode, if_neg fun h => hc h.1]

/-- **Decoding inverts encoding**, whichever bytes were escaped and in whatever case their digits
are. -/
theorem QEncodes.mimeDecode_eq {s payload : List MboxChar} (h : QEncodes s payload) :
    mimeDecode payload = s ∧ nul ∉ payload := by
  induction h with
  | nil => exact ⟨rfl, List.not_mem_nil⟩
  | literal hc hnul _ ih =>
    refine ⟨by rw [mimeDecode_literal hc, ih.1], fun hmem => ?_⟩
    rcases List.mem_cons.mp hmem with heq | hmem
    · exact hnul heq.symm
    · exact ih.2 hmem
  | @escaped s payload c u v _ ih =>
    have hc : c.toNat < 256 := UInt8.toNat_lt c
    obtain ⟨hhi, hhinul⟩ := hexToInt_hexDigit u (n := c.toNat / 16) (by omega)
    obtain ⟨hlo, hlonul⟩ := hexToInt_hexDigit v (n := c.toNat % 16) (by omega)
    constructor
    · rw [mimeDecode, hhi, hlo, if_pos ⟨rfl, by omega, by omega⟩, hexByte_div_mod, ih.1]
    · simp only [List.mem_cons, not_or]
      exact ⟨by decide, hhinul.symm, hlonul.symm, ih.2⟩

/-- **What was encoded is decoded in the buffer**, and no byte is written over that is still to be
read: an escape gives one byte for three, so the writer never comes in front of the reader. -/
theorem inplace_decodes {s payload : List MboxChar} (hencodes : QEncodes s payload)
    {buf : MboxBuf} (h : buf.Holds (mimeWord payload)) :
    (∃ buf', Converges (fun n => mboxBufDecodeMimeEncodedInplace n buf) buf' ∧ buf'.bytes = s ∧
      buf'.len = s.length) ∧
    ∀ sliced, mboxBufSlice buf 10 0 (sizeSub (sizeSub buf.len 10) 2) = ok sliced →
      ∀ ctx, Visits (decodeMimeStep 0 0) ⟨[sliced.data], 0, 0⟩ ctx →
        ctx.len ≤ ctx.inp ∧ ∃ d, ctx.mem = [d] ∧ d.drop ctx.inp = sliced.data.drop ctx.inp := by
  obtain ⟨hdecode, hnul⟩ := hencodes.mimeDecode_eq
  constructor
  · obtain ⟨buf', hrun, hholds⟩ := mboxBufDecodeMimeEncodedInplace_spec h
    have hall : payload.takeWhile (· ≠ nul) = payload := by
      refine List.takeWhile_eq_self_iff.mpr fun c hc => decide_eq_true ?_
      rintro rfl
      exact hnul hc
    rw [hall, hdecode] at hholds
    exact ⟨buf', hrun, hholds.bytes_eq, hholds.len⟩
  · intro sliced hslice ctx hvisits
    obtain ⟨sliced', x, tail, hslice', hdata⟩ := mboxBufSlice_word h
    obtain rfl := ok.inj (hslice'.symm.trans hslice)
    exact (inPlace_start hdata).visits hnul hvisits

/-- An escaped blank between two letters. -/
theorem inplace_decodes_space :
    ∃ buf', Converges (fun n => mboxBufDecodeMimeEncodedInplace n (wordBuf (str "a=20b"))) buf' ∧
      buf'.bytes = str "a b" := by
  have hencodes : QEncodes (str "a b") (str "a=20b") :=
    .literal (by decide) (by decide) (.escaped 32 true true (.literal (by decide) (by decide) .nil))
  obtain ⟨⟨buf', hrun, hbytes, -⟩, -⟩ := inplace_decodes hencodes (wordBuf_holds _)
  exact ⟨buf', hrun, hbytes⟩

end Libmbox2
