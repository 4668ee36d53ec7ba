import Libmbox2.BufWrites

/-!
# Putting bytes back (`mboxBufUnPutChar`)

A buffer is a stack of bytes with its top at the end: `mboxBufPutChar` pushes, and
`mboxBufUnPutChar` pops. What it returns is not the byte that it takes away but the one in front
of it, and where there is none it reads in front of the block (`mboxBufUnPutChar_one`). So a run
is that of a stack as long as what is popped is equal to what is below it (`formsStack_iff`).
-/

namespace Libmbox2

open CSem CSem.Exec

/-- `mboxBufUnPutChar`: the last byte is taken off. What is returned is the byte in front of it. -/
def mboxBufUnPutChar (buf : MboxBuf) : Exec (MboxChar × MboxBuf) :=
  if buf.len = 0 then pure (nul, buf)
  -- `len - 2` is then in front of the block
  else if buf.len < 2 then fault
  else do
    let ch ← load buf.data (buf.len - 2)
    let data ← store buf.data (buf.len - 1) nul
    pure (ch, { buf with data, len := buf.len - 1 })

/-- A call of `mboxBufPutChar` or of `mboxBufUnPutChar`. -/
inductive CharCall where
  | putChar (ch : MboxChar)
  | unPutChar
  deriving DecidableEq, Repr

namespace CharCall

/-- What a call returns, if it returns anything, and the buffer it leaves. -/
def run (fill : ℕ → MboxChar) (buf : MboxBuf) : CharCall → Exec (Option MboxChar × MboxBuf)
  | putChar ch => do
    let buf ← mboxBufPutChar fill buf ch
    pure (none, buf)
  | unPutChar => do
    let (ch, buf) ← mboxBufUnPutChar buf
    pure (some ch, buf)

/-- What becomes of a stack of bytes with such a call. -/
def onStack (s : List MboxChar) : CharCall → List MboxChar
  | putChar ch => s ++ [ch]
  | unPutChar => s.dropLast

/-- What is to be returned: where a byte is taken off the stack, this byte. -/
def Returns (s : List MboxChar) (out : Option MboxChar) : CharCall → Prop
  | putChar _ => True
  | unPutChar => s ≠ [] → out = s.getLast?

end CharCall

/-- Calls one after the other, on one buffer. -/
def runChars (fill : ℕ → MboxChar) (buf : MboxBuf) : List CharCall → Exec MboxBuf
  | [] => ok buf
  | c :: cs => do
    let (_, buf) ← c.run fill buf
    runChars fill buf cs

/-- A stack after calls on it. -/
def stackAfter (s : List MboxChar) (cs : List CharCall) : List MboxChar :=
  cs.foldl CharCall.onStack s

/-- The calls on the buffer do what they do on a stack. -/
structure FormsStack (fill : ℕ → MboxChar) (buf : MboxBuf) (cs : List CharCall) : Prop where
  /-- after each of them the contents are the stack -/
  bytes : ∀ done rest, cs = done ++ rest → ∃ buf', runChars fill buf done = ok buf' ∧
    buf'.bytes = stackAfter buf.bytes done ∧ buf'.bytes.length = buf'.len
  /-- each of them returns what it takes off, and terminates contents that it changes -/
  call : ∀ done c rest, cs = done ++ c :: rest → ∀ buf', runChars fill buf done = ok buf' →
    ∃ out buf'', c.run fill buf' = ok (out, buf'') ∧
      c.Returns (stackAfter buf.bytes done) out ∧
      (buf'' ≠ buf' → buf''.data[buf''.len]? = some nul)

/-! ## One call -/

section Calls

variable {fill : ℕ → MboxChar} {buf : MboxBuf} {s : List MboxChar} {x y : MboxChar}

/-- A buffer within its block has as many bytes as it says. -/
theorem MboxBuf.Bounded.bytes_length (hb : buf.Bounded) : buf.bytes.length = buf.len :=
  List.length_take_of_le (hb.len.trans hb.capacity)

theorem MboxBuf.exists_data (buf : MboxBuf) : ∃ rest, buf.data = buf.bytes ++ rest :=
  ⟨buf.data.drop buf.len, (List.take_append_drop ..).symm⟩

/-- Extending the block keeps the contents. -/
theorem mboxBufExtendBuffer_bytes (fill : ℕ → MboxChar) (hb : buf.Bounded) (additional : ℕ) :
    (mboxBufExtendBuffer fill buf additional).2.bytes = buf.bytes := by
  rw [mboxBufExtendBuffer]
  split
  · rfl
  · exact take_resize fill (hb.len.trans (Nat.le_add_right ..)) (hb.len.trans hb.capacity)

/-- So does extending it where that is needed. -/
theorem mboxBufExtendBufferIfNeeded_bytes (fill : ℕ → MboxChar) (hb : buf.Bounded)
    (additional : ℕ) : (mboxBufExtendBufferIfNeeded fill buf additional).2.bytes = buf.bytes := by
  rw [mboxBufExtendBufferIfNeeded]
  by_cases h : buf.capacity ≤ buf.len + 1 + additional
  · rw [if_pos h]
    exact mboxBufExtendBuffer_bytes fill hb _
  · rw [if_neg h]

/-- What a call leaves: the contents are the stack `s`, and a terminator stands behind them. -/
structure MboxBuf.StackOf (buf : MboxBuf) (s : List MboxChar) : Prop extends buf.Bounded where
  bytes : buf.bytes = s
  nul : buf.data[buf.len]? = some nul

/-- A block that begins with `s` and a terminator is one. -/
theorem MboxBuf.StackOf.of_data {rest : List MboxChar} (hlen : buf.len = s.length)
    (hdata : buf.data = s ++ Libmbox2.nul :: rest) (hb : buf.Bounded) : buf.StackOf s := by
  refine ⟨hb, ?_, ?_⟩
  · rw [MboxBuf.bytes, hdata, hlen, List.take_left]
  · rw [hdata, hlen, List.getElem?_append_right (le_refl _), Nat.sub_self]
    rfl

/-- **A push**: the byte is on the stack with a terminator behind it, in a block that was extended
where it had to be. -/
theorem mboxBufPutChar_push (fill : ℕ → MboxChar) (hb : buf.Bounded) (ch : MboxChar) :
    ∃ buf', mboxBufPutChar fill buf ch = ok buf' ∧ buf'.StackOf (buf.bytes ++ [ch]) := by
  have hbytes := mboxBufExtendBufferIfNeeded_bytes fill hb 100
  obtain ⟨grown, hext, hlen, hgrown, -, hroom, -⟩ := extend_sizes fill hb 100 (by decide)
  have hroom' : buf.len + 100 < grown.capacity := hroom fun h => absurd h.2 (by decide)
  have hcap := hgrown.capacity
  rw [hext] at hbytes
  obtain ⟨rest, hput, hlong⟩ := mboxBufPutChar_grown fill ch hext (by omega)
  refine ⟨_, hput, ?_⟩
  rw [← hbytes]
  refine .of_data ?_ (List.append_cons ..) ⟨?_, ?_⟩
  · rw [List.length_append, hgrown.bytes_length, List.length_singleton]
  · simp only
    omega
  · exact hcap.trans hlong.ge

/-- Taking off from an empty buffer gives a NUL and does nothing. -/
theorem mboxBufUnPutChar_nil (hb : buf.Bounded) (h : buf.bytes = []) :
    mboxBufUnPutChar buf = ok (nul, buf) := by
  have hlen := hb.bytes_length
  rw [h, List.length_nil] at hlen
  rw [mboxBufUnPutChar, if_pos hlen.symm, pure_eq]

/-- A single byte has none in front of it, so something outside of the block is read. -/
theorem mboxBufUnPutChar_one (hb : buf.Bounded) (h : buf.bytes = [x]) :
    mboxBufUnPutChar buf = fault := by
  have hlen := hb.bytes_length
  rw [h, List.length_singleton] at hlen
  rw [mboxBufUnPutChar, ← hlen, if_neg (Nat.succ_ne_zero _), if_pos (Nat.lt_succ_self _)]

/-- A pop returns the byte below the one that it takes off. -/
theorem mboxBufUnPutChar_pop (hb : buf.Bounded) (h : buf.bytes = s ++ [x, y]) :
    ∃ buf', mboxBufUnPutChar buf = ok (x, buf') ∧ buf'.StackOf (s ++ [x]) := by
  have hlen : buf.len = s.length + 2 := by
    rw [← hb.bytes_length, h, List.length_append]
    rfl
  obtain ⟨rest, hdata⟩ := buf.exists_data
  rw [h, List.append_assoc] at hdata
  have hload : load buf.data (buf.len - 2) = ok x := by
    rw [hdata, hlen, Nat.add_sub_cancel]
    exact load_append_length ..
  have hstore : store buf.data (buf.len - 1) nul = ok (s ++ [x] ++ nul :: rest) := by
    have htop := store_append_length (s ++ [x]) rest y nul
    rw [List.length_append, List.append_assoc] at htop
    rw [hdata, hlen]
    exact htop
  have htwo : ¬ buf.len < 2 := by
    rw [hlen]
    exact Nat.not_lt.mpr (Nat.le_add_left ..)
  have hne : buf.len ≠ 0 := by
    rw [hlen]
    exact Nat.succ_ne_zero _
  refine ⟨⟨s ++ [x] ++ nul :: rest, buf.offset, buf.len - 1, buf.capacity⟩, ?_, ?_⟩
  · rw [mboxBufUnPutChar, if_neg hne, if_neg htwo, hload, ok_bind, hstore, ok_bind,
      pure_eq]
  · have hcap := hb.capacity
    refine .of_data ?_ rfl ⟨(Nat.sub_le ..).trans hb.len, ?_⟩
    · rw [hlen, List.length_append]
      rfl
    · rw [hdata] at hcap
      simpa using hcap

/-- What a call can do, case by case. -/
theorem CharCall.run_cases (fill : ℕ → MboxChar) (hb : buf.Bounded) (c : CharCall) :
    (∃ ch buf', c = putChar ch ∧ c.run fill buf = ok (none, buf') ∧
      buf'.StackOf (buf.bytes ++ [ch])) ∨
    (c = unPutChar ∧ buf.bytes = [] ∧ c.run fill buf = ok (some nul, buf)) ∨
    (∃ x, c = unPutChar ∧ buf.bytes = [x] ∧ c.run fill buf = fault) ∨
    (∃ s x y buf', c = unPutChar ∧ buf.bytes = s ++ [x, y] ∧
      c.run fill buf = ok (some x, buf') ∧ buf'.StackOf (s ++ [x])) := by
  cases c with
  | putChar ch =>
    obtain ⟨buf', hput, hbuf'⟩ := mboxBufPutChar_push fill hb ch
    refine Or.inl ⟨ch, buf', rfl, ?_, hbuf'⟩
    rw [run, hput, ok_bind, pure_eq]
  | unPutChar =>
    right
    rcases List.eq_nil_or_concat buf.bytes with h | ⟨below, y, h⟩
    · refine Or.inl ⟨rfl, h, ?_⟩
      rw [run, mboxBufUnPutChar_nil hb h, ok_bind]
      rfl
    · right
      rcases List.eq_nil_or_concat below with rfl | ⟨s, x, rfl⟩
      · refine Or.inl ⟨y, rfl, h, ?_⟩
        rw [run, mboxBufUnPutChar_one hb h, fault_bind]
      · have htwo : buf.bytes = s ++ [x, y] := by
          rw [h]
          simp
        obtain ⟨buf', hpop, hbuf'⟩ := mboxBufUnPutChar_pop hb htwo
        refine Or.inr ⟨s, x, y, buf', rfl, htwo, ?_, hbuf'⟩
        rw [run, hpop, ok_bind]
        rfl

end Calls

/-! ## Runs -/

section Runs

variable {fill : ℕ → MboxChar} {buf buf' : MboxBuf} {out : Option MboxChar}

namespace CharCall

/-- There is nothing to take off, or it is equal to what is below it. -/
def Doubled (s : List MboxChar) : CharCall → Prop
  | putChar _ => True
  | unPutChar => s = [] ∨ ∃ t ch, s = t ++ [ch, ch]

/-- A call that returns leaves the buffer within its block. -/
theorem run_bounded (hb : buf.Bounded) {c : CharCall} (h : c.run fill buf = ok (out, buf')) :
    buf'.Bounded := by
  rcases c.run_cases fill hb with ⟨ch, buf₁, -, hrun, hput⟩ | ⟨-, -, hrun⟩ | ⟨x, -, -, hrun⟩ |
      ⟨s, x, y, buf₁, -, -, hrun, hpop⟩
  all_goals
    rw [hrun] at h
    cases h
  · exact hput.toBounded
  · exact hb
  · exact hpop.toBounded

/-- A call is right where what it takes off is doubled, -/
theorem run_of_doubled (fill : ℕ → MboxChar) (hb : buf.Bounded) {c : CharCall}
    (h : c.Doubled buf.bytes) :
    ∃ out buf', c.run fill buf = ok (out, buf') ∧ c.Returns buf.bytes out ∧
      buf'.bytes = c.onStack buf.bytes ∧ (buf' ≠ buf → buf'.data[buf'.len]? = some nul) := by
  rcases c.run_cases fill hb with ⟨ch, buf₁, rfl, hrun, hput⟩ | ⟨rfl, hnil, hrun⟩ |
      ⟨x, rfl, hone, -⟩ | ⟨s, x, y, buf₁, rfl, htwo, hrun, hpop⟩
  · exact ⟨none, buf₁, hrun, trivial, hput.bytes, fun _ => hput.nul⟩
  · refine ⟨some nul, buf, hrun, fun hne => absurd hnil hne, ?_, fun hne => absurd rfl hne⟩
    rw [onStack, hnil, List.dropLast_nil]
  · rcases h with hnil | ⟨t, ch, htwo⟩
    · rw [hone] at hnil
      cases hnil
    · rw [hone] at htwo
      have hlen := congrArg List.length htwo
      simp at hlen
  · refine ⟨some x, buf₁, hrun, fun _ => ?_, ?_, fun _ => hpop.nul⟩
    · rcases h with hnil | ⟨t, ch, hch⟩
      · rw [htwo] at hnil
        simp at hnil
      · rw [htwo] at hch
        obtain ⟨-, hxy⟩ := List.append_inj' hch rfl
        cases hxy
        rw [htwo]
        simp
    · rw [hpop.bytes, onStack, htwo]
      simp

/-- And nowhere else: what was on top is returned only if it is there twice, or if nothing is. -/
theorem doubled_of_returns (hb : buf.Bounded) {c : CharCall}
    (h : c.run fill buf = ok (out, buf')) (hret : c.Returns buf.bytes out) :
    c.Doubled buf.bytes := by
  rcases c.run_cases fill hb with ⟨ch, buf₁, rfl, -, -⟩ | ⟨rfl, hnil, -⟩ | ⟨x, -, -, hrun⟩ |
      ⟨s, x, y, buf₁, rfl, htwo, hrun, -⟩
  · trivial
  · exact Or.inl hnil
  · rw [hrun] at h
    cases h
  · rw [hrun] at h
    cases h
    have hne : buf.bytes ≠ [] := by
      rw [htwo]
      simp
    have htop := hret hne
    rw [htwo] at htop
    simp only [List.getLast?_append, List.getLast?_cons_cons, List.getLast?_singleton,
      Option.some_or, Option.some.injEq] at htop
    exact Or.inr ⟨s, y, by rw [htwo, htop]⟩

end CharCall

/-- So do calls one after the other. -/
theorem runChars_bounded (hb : buf.Bounded) {cs : List CharCall}
    (h : runChars fill buf cs = ok buf') : buf'.Bounded := by
  induction cs generalizing buf with
  | nil =>
    cases h
    exact hb
  | cons c cs ih =>
    obtain ⟨⟨out, buf₁⟩, hrun, hrest⟩ := bind_eq_ok h
    exact ih (c.run_bounded hb hrun) hrest

/-- A run that takes off doubled bytes only leaves what a stack would. -/
theorem runChars_spec (fill : ℕ → MboxChar) (hb : buf.Bounded) (cs : List CharCall)
    (h : ∀ done c rest, cs = done ++ c :: rest → c.Doubled (stackAfter buf.bytes done)) :
    ∃ buf', runChars fill buf cs = ok buf' ∧ buf'.bytes = stackAfter buf.bytes cs := by
  induction cs generalizing buf with
  | nil => exact ⟨buf, rfl, rfl⟩
  | cons c cs ih =>
    obtain ⟨out, buf₁, hrun, -, hbytes, -⟩ := c.run_of_doubled fill hb (h [] c cs rfl)
    obtain ⟨buf', hrest, hstack⟩ := ih (c.run_bounded hb hrun) fun done c' rest hcs => by
      rw [hbytes]
      exact h (c :: done) c' rest (by rw [hcs, List.cons_append])
    refine ⟨buf', ?_, ?_⟩
    · rw [runChars, hrun, ok_bind]
      exact hrest
    · rw [hstack, hbytes]
      rfl

/-- **The calls form a stack** exactly when nothing is taken off but what is equal to the byte below
it, or an empty buffer is asked. What `mboxBufUnPutChar` returns is the byte below the one it takes
off. -/
theorem formsStack_iff (hb : buf.Bounded) (cs : List CharCall) :
    FormsStack fill buf cs ↔
      ∀ done c rest, cs = done ++ c :: rest → c.Doubled (stackAfter buf.bytes done) := by
  constructor
  · intro hstack done c rest hcs
    obtain ⟨buf', hrun, hbytes, -⟩ := hstack.bytes done (c :: rest) hcs
    obtain ⟨out, buf'', hcall, hret, -⟩ := hstack.call done c rest hcs buf' hrun
    rw [← hbytes] at hret ⊢
    exact c.doubled_of_returns (runChars_bounded hb hrun) hcall hret
  · intro h
    have hrun (done rest) (hcs : cs = done ++ rest) :
        ∃ buf', runChars fill buf done = ok buf' ∧ buf'.bytes = stackAfter buf.bytes done :=
      runChars_spec fill hb done fun done' c rest' hdone => h done' c (rest' ++ rest) (by
        rw [hcs, hdone, List.append_assoc, List.cons_append])
    refine ⟨fun done rest hcs => ?_, fun done c rest hcs buf' hbuf' => ?_⟩
    · obtain ⟨buf', hbuf', hbytes⟩ := hrun done rest hcs
      exact ⟨buf', hbuf', hbytes, (runChars_bounded hb hbuf').bytes_length⟩
    · obtain ⟨buf₁, hbuf₁, hbytes⟩ := hrun done (c :: rest) hcs
      rw [hbuf'] at hbuf₁
      cases hbuf₁
      have hdoubled := h done c rest hcs
      rw [← hbytes] at hdoubled ⊢
      obtain ⟨out, buf'', hcall, hret, -, hnul⟩ :=
        c.run_of_doubled fill (runChars_bounded hb hbuf') hdoubled
      exact ⟨out, buf'', hcall, hret, hnul⟩

/-- One of two equal bytes is taken off again. -/
theorem formsStack_doubled :
    FormsStack (fun _ => 0) (mboxBufAlloc (fun _ => 0) 0)
      [.putChar 97, .putChar 97, .unPutChar] := by
  have hb : (mboxBufAlloc (fun _ => 0) 0).Bounded := by
    refine ⟨Nat.zero_le _, ?_⟩
    rw [mboxBufAlloc_data_length]
    rfl
  refine (formsStack_iff hb _).mpr fun done c rest hcs => ?_
  match done, hcs with
  | [], hcs =>
    cases hcs
    trivial
  | [_], hcs =>
    cases hcs
    trivial
  | [_, _], hcs =>
    cases hcs
    exact Or.inr ⟨[], 97, rfl⟩
  | _ :: _ :: _ :: done, hcs => simp at hcs

/-- `"ab"` is copied, and a byte put back: it is `'a'` that is returned. -/
theorem unPutChar_below :
    ¬ ∀ (buf : MboxBuf) (cs : List CharCall), buf.Bounded → FormsStack (fun _ => 0) buf cs := by
  intro hall
  have hstack := hall ⟨[97, 98, 0, 0, 0, 0, 0, 0, 0, 0, 0, 0], 0, 2, 2⟩ [.unPutChar]
    ⟨le_refl _, by decide⟩
  obtain ⟨out, buf', hrun, hret, -⟩ := hstack.call [] .unPutChar [] rfl _ rfl
  have hout : out = some 97 := by
    cases hrun
    rfl
  have htop : out = some 98 := hret (by decide)
  rw [hout] at htop
  cases htop

end Runs

end Libmbox2
