import Libmbox2.Io

/-!
# Writing into a buffer

A write outside the block is a fault of the model, so that all writes of a run stay inside
the allocation is that the run returns.

What is recorded as the capacity is at most what is allocated, and the contents are at most
the capacity. The extension makes room for the bytes that are asked for, but when the
contents fill the capacity it makes none for their terminator. Only a copy begins with such
contents (`MboxBufNew.full`), and whatever is called first ends that, so the first call
decides (`run_inBounds_iff`).
-/

namespace Libmbox2

open CSem CSem.Exec

variable {fill : ℕ → MboxChar}

/-- The functions a buffer comes from, with their arguments. What a copy is made of has to be in the
memory that it is copied from. -/
inductive MboxBufNew where
  | alloc (capacity : ℕ)
  /-- the buffer that is copied has its contents inside its block -/
  | dup (buf : MboxBuf) (h : buf.len ≤ buf.data.length)
  /-- there are `len` bytes to copy, and they fit into the capacity -/
  | dupRaw (s : List MboxChar) (len capacity : ℕ) (hs : len ≤ s.length) (h : len ≤ capacity)

/-- The functions that write into a buffer and may make it bigger, with their arguments. -/
inductive MboxBufCall where
  | putChar (ch : MboxChar)
  | catLen (bytes : List MboxChar)
  | write (bytes : List MboxChar)
  /-- `read` is what `pread` puts into the buffer, at most `size` bytes, `none` on failure -/
  | ioRead (size : ℕ) (read : Option (List MboxChar)) (h : ∀ bytes ∈ read, bytes.length ≤ size)

namespace MboxBufNew

def run (fill : ℕ → MboxChar) : MboxBufNew → Exec MboxBuf
  | .alloc capacity => ok (mboxBufAlloc fill capacity)
  | .dup buf _ => mboxBufDup fill buf
  | .dupRaw s len capacity _ _ => mboxBufDupRaw fill s len capacity

/-- The length of the contents of a new buffer. -/
def len : MboxBufNew → ℕ
  | .alloc _ => 0
  | .dup buf _ => buf.len
  | .dupRaw _ len _ _ _ => len

/-- The capacity that is recorded for a new buffer, which for a copy is the length of its
contents. -/
def capacity : MboxBufNew → ℕ
  | .alloc capacity => capacity + 10
  | .dup buf _ => buf.len
  | .dupRaw _ _ capacity _ _ => capacity

end MboxBufNew

namespace MboxBufCall

/-- How many bytes a call is asked to write. -/
def size : MboxBufCall → ℕ
  | .putChar _ => 1
  | .catLen bytes => bytes.length
  | .write bytes => bytes.length
  | .ioRead size _ _ => size

/-- A read goes behind the contents, into the buffer of a context. -/
def run (fill : ℕ → MboxChar) (buf : MboxBuf) : MboxBufCall → Exec MboxBuf
  | .putChar ch => mboxBufPutChar fill buf ch
  | .catLen bytes => mboxBufCatLen fill buf bytes bytes.length
  | .write bytes => do
    let (_, buf) ← mboxBufWrite fill buf bytes bytes.length
    pure buf
  | .ioRead size read _ => do
    let ioctx := { mboxIONew fill 0 with buf }
    let (_, ioctx) ← mboxIORead fill (fun _ _ => read) ioctx size buf.len 0
    pure ioctx.buf

/-- The calls that write their last byte behind the block, when the contents have the given
length and capacity. -/
def Overruns (len capacity : ℕ) : MboxBufCall → Prop
  | .putChar _ => False
  | .catLen bytes => len = capacity ∧ 256 ≤ bytes.length
  | .write bytes => len = capacity ∧ capacity = 0 ∧ 256 ≤ bytes.length
  | .ioRead size read _ =>
    len = capacity ∧ 256 ≤ size ∧ ∃ bytes, read = some bytes ∧ bytes.length = size

end MboxBufCall

/-- A run: a buffer, and what is called on it, one call after the other. -/
def runCalls (fill : ℕ → MboxChar) (buf : MboxBuf) : List MboxBufCall → Exec MboxBuf
  | [] => ok buf
  | c :: cs => do
    let buf ← c.run fill buf
    runCalls fill buf cs

/-! ## Where a call writes -/

/-- The contents are inside the capacity, the capacity inside the block. -/
structure MboxBuf.Bounded (buf : MboxBuf) : Prop where
  len : buf.len ≤ buf.capacity
  capacity : buf.capacity ≤ buf.data.length

variable {buf : MboxBuf}

/-- What the extension does to the sizes. There is room for the bytes and a terminator,
unless the contents fill the capacity. -/
theorem extend_sizes (fill : ℕ → MboxChar) (hb : buf.Bounded) (additional : ℕ)
    (hadd : additional < 2 ^ 31) :
    ∃ buf', (mboxBufExtendBufferIfNeeded fill buf additional).2 = buf' ∧ buf'.len = buf.len ∧
      buf'.Bounded ∧ buf.len < buf'.capacity ∧
      (¬ (buf.len = buf.capacity ∧ 256 ≤ additional) → buf.len + additional < buf'.capacity) ∧
      (buf.len = buf.capacity ∧ 256 ≤ additional →
        buf'.capacity = buf.len + additional ∧ buf'.data.length = buf.len + additional) := by
  have hlen := hb.len
  rw [mboxBufExtendBufferIfNeeded]
  by_cases h : buf.capacity ≤ buf.len + 1 + additional
  · rw [if_pos h]
    -- the capacity grows by at least 256 bytes
    generalize hk : (if additional > 256 then additional else 256) = k
    have hk0 : additional ≤ k ∧ 256 ≤ k ∧ k < 2 ^ 32 ∧ (256 ≤ additional → k = additional) := by
      subst hk
      split <;> omega
    rw [mboxBufExtendBuffer, Nat.mod_eq_of_lt hk0.2.2.1, if_neg (by omega)]
    refine ⟨_, rfl, rfl, ⟨?_, ?_⟩, ?_, ?_, ?_⟩
    · simp only
      omega
    · simp only [length_resize]
      exact le_refl _
    · simp only
      omega
    · simp only
      omega
    · simp only [length_resize]
      omega
  · rw [if_neg h]
    exact ⟨buf, rfl, rfl, hb, by omega, fun _ => by omega, fun _ => by omega⟩

/-- Bytes and a terminator are written from `i` on: what all of the calls come to. -/
def storeTerminated (d : List MboxChar) (i : ℕ) (bytes : List MboxChar) :
    Exec (List MboxChar) := do
  let d ← storeBytes d i bytes
  store d (i + bytes.length) nul

/-- Where the block goes on behind the bytes, both they and the terminator are inside it. -/
theorem storeTerminated_of_lt {d bytes : List MboxChar} {i : ℕ} (h : i + bytes.length < d.length) :
    ∃ d', storeTerminated d i bytes = ok d' ∧ d'.length = d.length := by
  obtain ⟨d₁, hd₁, hlen₁⟩ := storeBytes_of_le h.le
  obtain ⟨d₂, hd₂, hlen₂⟩ := store_of_lt (by rw [hlen₁]; exact h) nul
  exact ⟨d₂, by rw [storeTerminated, hd₁, ok_bind, hd₂], hlen₂.trans hlen₁⟩

/-- Where the bytes end with the block, the terminator is written behind it. -/
theorem storeTerminated_of_eq {d bytes : List MboxChar} {i : ℕ} (h : i + bytes.length = d.length) :
    storeTerminated d i bytes = fault := by
  obtain ⟨d₁, hd₁, hlen₁⟩ := storeBytes_of_le h.le
  rw [storeTerminated, hd₁, ok_bind, store_of_le (by rw [hlen₁]; exact h.ge)]

/-- A call that writes bytes and a terminator from `i` on. -/
theorem run_of_storeTerminated {buf' : MboxBuf} {x : Exec MboxBuf} {overruns : Prop} (i : ℕ)
    (bytes : List MboxChar) (hb' : buf'.Bounded)
    (hx : x = storeTerminated buf'.data i bytes >>= fun data =>
      ok { buf' with data, len := i + bytes.length })
    (hfull : overruns → i + bytes.length = buf'.data.length)
    (hroom : ¬ overruns → i + bytes.length < buf'.capacity) :
    (overruns ∧ x = fault) ∨
      ¬ overruns ∧ ∃ buf'', x = ok buf'' ∧ buf''.Bounded ∧ buf''.len < buf''.capacity := by
  by_cases hover : overruns
  · refine Or.inl ⟨hover, ?_⟩
    rw [hx, storeTerminated_of_eq (hfull hover), fault_bind]
  · have hlt := hroom hover
    obtain ⟨d, hd, hdlen⟩ := storeTerminated_of_lt (hlt.trans_le hb'.capacity)
    rw [hd, ok_bind] at hx
    exact Or.inr ⟨hover, _, hx, ⟨hlt.le, hdlen ▸ hb'.capacity⟩, hlt⟩

namespace MboxBufCall

/-- **One call** leaves the contents in front of the end of the capacity, or it overruns. -/
theorem run_spec (fill : ℕ → MboxChar) (hb : buf.Bounded) (c : MboxBufCall)
    (hsize : c.size < 2 ^ 31) :
    (c.Overruns buf.len buf.capacity ∧ c.run fill buf = fault) ∨
      ¬ c.Overruns buf.len buf.capacity ∧
        ∃ buf', c.run fill buf = ok buf' ∧ buf'.Bounded ∧ buf'.len < buf'.capacity := by
  cases c with
  | putChar ch =>
    obtain ⟨buf', hext, hlen, hb', -, hroom, -⟩ := extend_sizes fill hb 100 (by decide)
    have hroom' : buf.len + 100 < buf'.capacity := hroom fun h => absurd h.2 (by decide)
    have hcap := hb'.capacity
    obtain ⟨d₁, hd₁, hlen₁⟩ := store_of_lt (d := buf'.data) (i := buf'.len) (by omega) ch
    obtain ⟨d₂, hd₂, hlen₂⟩ := store_of_lt (d := d₁) (i := buf'.len + 1) (by omega) nul
    refine Or.inr ⟨fun h => h, { buf' with data := d₂, len := buf'.len + 1 }, ?_, ⟨?_, ?_⟩, ?_⟩
    · simp only [run, mboxBufPutChar, hext, hd₁, hd₂, ok_bind, pure_eq]
    · simp only
      omega
    · simp only [hlen₂, hlen₁]
      exact hcap
    · simp only
      omega
  | catLen bytes =>
    obtain ⟨buf', hext, hlen, hb', hpos, hroom, hfull⟩ := extend_sizes fill hb bytes.length hsize
    refine run_of_storeTerminated buf.len bytes hb' ?_ (fun hover => (hfull hover).2.symm) hroom
    simp only [run, mboxBufCatLen, storeTerminated, hext, hlen, loadBytes_self, bind_assoc,
      ok_bind, pure_eq]
  | write bytes =>
    obtain ⟨buf', hext, hlen, hb', hpos, hroom, hfull⟩ := extend_sizes fill hb bytes.length hsize
    refine run_of_storeTerminated 0 bytes hb' ?_ (fun hover => ?_) (fun hover => ?_)
    · simp only [run, mboxBufWrite, storeTerminated, hext, loadBytes_self, bind_assoc, ok_bind,
        pure_eq, Nat.zero_add]
    · have hempty : buf.len = 0 := hover.1.trans hover.2.1
      rw [(hfull ⟨hover.1, hover.2.2⟩).2, hempty]
    · rw [Nat.zero_add]
      by_cases h : buf.len = buf.capacity ∧ 256 ≤ bytes.length
      · have hcap := (hfull h).1
        have hne : buf.capacity ≠ 0 := fun h0 => hover ⟨h.1, h0, h.2⟩
        omega
      · exact (Nat.le_add_left ..).trans_lt (hroom h)
  | ioRead size read h =>
    obtain ⟨buf', hext, hlen, hb', hpos, hroom, hfull⟩ := extend_sizes fill hb size hsize
    -- a read that gives nothing leaves the buffer extended
    have hnothing (hrun : (ioRead size read h).run fill buf = ok buf')
        (hover : ¬ (ioRead size read h).Overruns buf.len buf.capacity) :
        ¬ (ioRead size read h).Overruns buf.len buf.capacity ∧ ∃ buf'',
          (ioRead size read h).run fill buf = ok buf'' ∧ buf''.Bounded ∧
          buf''.len < buf''.capacity := ⟨hover, buf', hrun, hb', by omega⟩
    cases read with
    | none =>
      refine Or.inr (hnothing ?_ ?_)
      · simp only [run, mboxIORead, hext, ok_bind, pure_eq]
      · rintro ⟨-, -, bytes, hbytes, -⟩
        cases hbytes
    | some bytes =>
      cases bytes with
      | nil =>
        refine Or.inr (hnothing ?_ ?_)
        · simp only [run, mboxIORead, hext, ok_bind, pure_eq]
        · rintro ⟨-, hlong, bytes, hbytes, hsz⟩
          obtain rfl := Option.some.inj hbytes
          rw [← hsz] at hlong
          exact absurd hlong (by decide)
      | cons b bs =>
        have hle : (b :: bs).length ≤ size := h _ rfl
        refine run_of_storeTerminated buf.len (b :: bs) hb' ?_ (fun hover => ?_)
          (fun hover => ?_)
        · simp only [run, mboxIORead, mboxBufSetLen, storeTerminated, hext, bind_assoc, ok_bind,
            pure_eq]
        · obtain ⟨hcap', hlong, bytes, hbytes, hsz⟩ := hover
          obtain rfl := Option.some.inj hbytes
          rw [hsz, (hfull ⟨hcap', hlong⟩).2]
        · by_cases hf : buf.len = buf.capacity ∧ 256 ≤ size
          · have hne : (b :: bs).length ≠ size := fun hsz => hover ⟨hf.1, hf.2, _, rfl, hsz⟩
            have hcap' := (hfull hf).1
            omega
          · have hlt := hroom hf
            omega

end MboxBufCall

/-- Only contents that fill the recorded capacity are overrun: otherwise the extension leaves room
for the terminator. -/
theorem MboxBufCall.Overruns.full {len capacity : ℕ} {c : MboxBufCall}
    (h : c.Overruns len capacity) : len = capacity := by
  cases c with
  | putChar ch => exact h.elim
  | catLen bytes => exact h.1
  | write bytes => exact h.1
  | ioRead size read hread => exact h.1

/-! ## Runs -/

/-- Contents in front of the end of the capacity stay there. -/
theorem runCalls_ok (fill : ℕ → MboxChar) (cs : List MboxBufCall)
    (hsize : ∀ c ∈ cs, c.size < 2 ^ 31) (hb : buf.Bounded) (hlt : buf.len < buf.capacity) :
    ∃ buf', runCalls fill buf cs = ok buf' := by
  induction cs generalizing buf with
  | nil => exact ⟨buf, rfl⟩
  | cons c cs ih =>
    rcases c.run_spec fill hb (hsize c (List.mem_cons_self ..)) with
      ⟨hover, -⟩ | ⟨-, buf₁, hrun, hb₁, hlt₁⟩
    · exact absurd hlt hover.full.not_lt
    · rw [runCalls, hrun, ok_bind]
      exact ih (fun c' hc' => hsize c' (List.mem_cons_of_mem _ hc')) hb₁ hlt₁

/-- The buffer a run begins with, with the length and the capacity that the condition speaks of. -/
theorem MboxBufNew.run_spec (fill : ℕ → MboxChar) (new : MboxBufNew) :
    ∃ buf, new.run fill = ok buf ∧ buf.Bounded ∧ buf.len = new.len ∧
      buf.capacity = new.capacity := by
  have hcopy {s : List MboxChar} {n capacity : ℕ} (hs : n ≤ s.length) (h : n ≤ capacity) :
      ∃ buf, mboxBufDupRaw fill s n capacity = ok buf ∧ buf.Bounded ∧ buf.len = n ∧
        buf.capacity = capacity := by
    have hroom : n ≤ capacity + 9 := by omega
    obtain ⟨buf, hdup, hholds, -, hcap, hdata⟩ := mboxBufDupRaw_spec fill hs hroom
    have hlen : buf.len = n := by rw [hholds.len, List.length_take_of_le hs]
    exact ⟨buf, hdup, ⟨by omega, by omega⟩, hlen, hcap⟩
  cases new with
  | alloc capacity =>
    refine ⟨_, rfl, ⟨Nat.zero_le _, ?_⟩, rfl, rfl⟩
    rw [mboxBufAlloc_data_length]
    rfl
  | dup buf h => exact hcopy h (le_refl buf.len)
  | dupRaw s n capacity hs h => exact hcopy hs h

/-- **All writes of a run are inside the allocation** exactly when its first call does not overrun
the buffer it begins with. Behind that call the capacity is that of the block again, so no later one
overruns it. -/
theorem run_inBounds_iff (fill : ℕ → MboxChar) (new : MboxBufNew) (cs : List MboxBufCall)
    (hsize : ∀ c ∈ cs, c.size < 2 ^ 31) :
    (∃ buf, (new.run fill >>= fun buf => runCalls fill buf cs) = ok buf) ↔
      ∀ c ∈ cs.head?, ¬ c.Overruns new.len new.capacity := by
  obtain ⟨buf, hnew, hb, hlen, hcap⟩ := new.run_spec fill
  rw [hnew, ok_bind, ← hlen, ← hcap]
  cases cs with
  | nil => exact ⟨(fun _ _ hc => nomatch hc), fun _ => ⟨buf, rfl⟩⟩
  | cons c cs =>
    rw [runCalls]
    rcases c.run_spec fill hb (hsize c (List.mem_cons_self ..)) with
      ⟨hover, hrun⟩ | ⟨hover, buf₁, hrun, hb₁, hlt₁⟩
    · refine ⟨?_, fun h => absurd hover (h c rfl)⟩
      rintro ⟨buf', hok⟩
      rw [hrun, fault_bind] at hok
      cases hok
    · rw [hrun, ok_bind]
      refine ⟨fun _ c' hc' => ?_, fun _ => ?_⟩
      · obtain rfl := Option.some.inj hc'
        exact hover
      · exact runCalls_ok fill cs (fun c' hc' => hsize c' (List.mem_cons_of_mem _ hc')) hb₁ hlt₁

/-- A copy of one byte fills its capacity, but its first call appends 255 bytes only; the
hundreds behind it find a buffer with room. -/
theorem run_inBounds_iff_copy :
    ∃ buf, ((MboxBufNew.dup ⟨[97, 0], 0, 1, 2⟩ (by decide)).run (fun _ => 0) >>= fun buf =>
      runCalls (fun _ => 0) buf [.catLen (List.replicate 255 98), .putChar 99,
        .catLen (List.replicate 600 100), .write (List.replicate 300 101)]) = ok buf := by
  refine (run_inBounds_iff _ _ _ fun c hc => ?_).mpr fun c hc => ?_
  · simp only [List.mem_cons, List.not_mem_nil, or_false] at hc
    rcases hc with rfl | rfl | rfl | rfl <;> decide +kernel
  · obtain rfl := Option.some.inj hc
    rintro ⟨-, hlong⟩
    rw [List.length_replicate] at hlong
    exact absurd hlong (by decide)

/-- A copy of one byte is extended by the 256 bytes that are appended to it, and the
terminator is written behind the block. -/
theorem copy_overruns :
    ¬ ∀ (new : MboxBufNew) (cs : List MboxBufCall), (∀ c ∈ cs, c.size < 2 ^ 31) →
      ∃ buf, (new.run (fun _ => 0) >>= fun buf => runCalls (fun _ => 0) buf cs) = ok buf := by
  intro hall
  have hlength : (List.replicate 256 (97 : MboxChar)).length = 256 := List.length_replicate
  have hsize : (MboxBufCall.catLen (List.replicate 256 97)).size < 2 ^ 31 := by
    rw [MboxBufCall.size, hlength]
    decide
  obtain ⟨buf, hbuf⟩ := hall (.dup ⟨[97, 0], 0, 1, 2⟩ (by decide))
    [.catLen (List.replicate 256 97)] fun c hc => by
      rw [List.mem_singleton.mp hc]
      exact hsize
  obtain ⟨buf₀, hnew, hb, hlen, hcap⟩ :=
    MboxBufNew.run_spec (fun _ => 0) (.dup ⟨[97, 0], 0, 1, 2⟩ (by decide))
  have hover : (MboxBufCall.catLen (List.replicate 256 97)).Overruns buf₀.len buf₀.capacity := by
    rw [hlen, hcap]
    exact ⟨rfl, hlength.ge⟩
  rw [hnew, ok_bind, runCalls] at hbuf
  rcases MboxBufCall.run_spec (fun _ => 0) hb _ hsize with ⟨-, hrun⟩ | ⟨hno, -⟩
  · rw [hrun, fault_bind] at hbuf
    cases hbuf
  · exact hno hover

end Libmbox2
