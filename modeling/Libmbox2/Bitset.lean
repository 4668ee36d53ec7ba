import Libmbox2.Memory

/-!
# Sets of numbers in words of 32 bits

A set of numbers is kept in an array of words, a bit each. Setting or clearing a bit is one
word read and written; a whole range is done bit by bit, and goes on into the next word by
itself. What looks at one word only does not: a mask that is shifted beyond the end of a word
loses what lies there (`and_mask_eq_zero`).
-/

namespace CSem

namespace Bitset

open Exec

/-- The bit of `j`; behind the last word there is none. -/
def bit (b : List (BitVec 32)) (j : ℕ) : Bool := (b[j / 32]?.getD 0).getLsbD (j % 32)

/-- `b[j / 32] = f(b[j / 32])`: the word with bit `j` is changed, when there is one. -/
def modify (f : BitVec 32 → BitVec 32) (b : List (BitVec 32)) (j : ℕ) :
    Exec (List (BitVec 32)) := do
  let w ← load b (j / 32)
  store b (j / 32) (f w)

/-- `b[j / 32] |= 1 << (j & 31)`, which sets bit `j`. -/
def set (b : List (BitVec 32)) (j : ℕ) : Exec (List (BitVec 32)) :=
  modify (fun w => w ||| 1#32 <<< (j % 32)) b j

/-- `b[j / 32] &= ~(1 << (j & 31))`, which clears bit `j`. -/
def clear (b : List (BitVec 32)) (j : ℕ) : Exec (List (BitVec 32)) :=
  modify (fun w => w &&& ~~~(1#32 <<< (j % 32))) b j

/-- `0xFFFFFFFF >> (32 - n)`: the `n` lowest bits. A shift by the width or more is undefined. -/
def lowMask (n : ℕ) : Exec (BitVec 32) :=
  if n = 0 ∨ 32 < n then fault else ok (BitVec.allOnes 32 >>> (32 - n))

variable {b : List (BitVec 32)} {j n : ℕ} {v : Bool}

@[simp] theorem bit_replicate_zero (n j : ℕ) : bit (List.replicate n 0) j = false := by
  rw [bit, List.getElem?_replicate]
  split <;> simp

/-! ## One bit -/

/-- A step that makes the bit of its number `v` and leaves the others. -/
def Puts (v : Bool) (f : List (BitVec 32) → ℕ → Exec (List (BitVec 32))) : Prop :=
  ∀ b j, j < 32 * b.length → ∃ b', f b j = ok b' ∧ b'.length = b.length ∧
    ∀ k, bit b' k = if k = j then v else bit b k

/-- Changing one bit of a word changes that bit of the set and no other. -/
theorem puts_modify (f : ℕ → BitVec 32 → BitVec 32)
    (hf : ∀ s w i, s < 32 → i < 32 → (f s w).getLsbD i = if i = s then v else w.getLsbD i) :
    Puts v fun b j => modify (f (j % 32)) b j := by
  intro b j hj
  have hword : j / 32 < b.length := by omega
  have hload : load b (j / 32) = ok b[j / 32] := load_eq (List.getElem?_eq_getElem hword)
  refine ⟨b.set (j / 32) (f (j % 32) b[j / 32]), ?_, List.length_set, fun k => ?_⟩
  · simp only [modify, hload, ok_bind, store, if_pos hword]
  · have hs : j % 32 < 32 := Nat.mod_lt _ (by decide)
    have hi : k % 32 < 32 := Nat.mod_lt _ (by decide)
    rw [bit, List.getElem?_set]
    by_cases hk : j / 32 = k / 32
    · rw [if_pos hk, if_pos hword, Option.getD_some, hf _ _ _ hs hi, bit, ← hk,
        List.getElem?_eq_getElem hword, Option.getD_some]
      have heq : k % 32 = j % 32 ↔ k = j := by omega
      simp [heq]
    · have hne : k ≠ j := fun h => hk (by rw [h])
      rw [if_neg hk, if_neg hne, bit]

/-- Setting a bit puts `true` there. -/
theorem puts_set : Puts true set := by
  apply puts_modify fun s w => w ||| 1#32 <<< s
  intro s w i hs hi
  by_cases h : i = s
  · simp [h, hs]
  · have hbit : ¬ (s ≤ i ∧ i - s = 0) := by omega
    simp [h, hi, hbit]

/-- Clearing it puts `false` there. -/
theorem puts_clear : Puts false clear := by
  apply puts_modify fun s w => w &&& ~~~(1#32 <<< s)
  intro s w i hs hi
  by_cases h : i = s
  · simp [h, hs]
  · have hbit : i < s ∨ ¬ i - s = 0 := by omega
    simp [h, hi, hbit]

/-- **A loop over numbers** changes their bits and no others, when each iteration changes the bit of
its number and there is a word for all of them. -/
theorem Puts.foldlM {f : List (BitVec 32) → ℕ → Exec (List (BitVec 32))} (hf : Puts v f)
    (js : List ℕ) (hjs : ∀ j ∈ js, j < 32 * b.length) :
    ∃ b', js.foldlM f b = ok b' ∧ b'.length = b.length ∧
      ∀ k, bit b' k = if k ∈ js then v else bit b k := by
  induction js generalizing b with
  | nil => exact ⟨b, rfl, rfl, fun k => by simp⟩
  | cons j js ih =>
    obtain ⟨b₁, hrun₁, hlen₁, hbit₁⟩ := hf b j (hjs j (List.mem_cons_self ..))
    obtain ⟨b', hrun, hlen, hbit⟩ :=
      ih (b := b₁) fun i hi => hlen₁ ▸ hjs i (List.mem_cons_of_mem _ hi)
    refine ⟨b', ?_, hlen.trans hlen₁, fun k => ?_⟩
    · rw [List.foldlM_cons, hrun₁, ok_bind, hrun]
    · rw [hbit, hbit₁]
      by_cases hk : k ∈ js
      · simp [hk]
      · by_cases hkj : k = j <;> simp [hk, hkj]

/-! ## One word -/

/-- The bits of the mask are the lowest `n`. -/
theorem getLsbD_lowMask {mask : BitVec 32} (hmask : lowMask n = ok mask) (i : ℕ) :
    mask.getLsbD i = decide (i < n) := by
  rw [lowMask] at hmask
  split at hmask
  · cases hmask
  · cases hmask
    rw [BitVec.getLsbD_ushiftRight, BitVec.getLsbD_allOnes, decide_eq_decide]
    omega

/-- A shifted mask only sees the bits that are left in the word. -/
theorem and_mask_eq_zero {w mask : BitVec 32} (hmask : lowMask n = ok mask) (s : ℕ) :
    w &&& mask <<< s = 0 ↔ ∀ i, i < n → s + i < 32 → w.getLsbD (s + i) = false := by
  constructor
  · intro h i hi hlt
    have hbit : (w &&& mask <<< s).getLsbD (s + i) = false := by
      rw [h]
      exact BitVec.getLsbD_zero
    rw [BitVec.getLsbD_and, BitVec.getLsbD_shiftLeft, Nat.add_sub_cancel_left,
      getLsbD_lowMask hmask] at hbit
    simpa only [hlt, hi, decide_true, Nat.not_lt.2 (Nat.le_add_right s i), decide_false,
      Bool.not_false, Bool.and_true] using hbit
  · intro h
    apply BitVec.eq_of_getLsbD_eq
    intro k hk
    rw [BitVec.getLsbD_and, BitVec.getLsbD_shiftLeft, getLsbD_lowMask hmask]
    by_cases hin : s ≤ k ∧ k - s < n
    · have hbit := h (k - s) hin.2 (by omega)
      rw [Nat.add_sub_cancel' hin.1] at hbit
      simp [hbit]
    · have hout : k < s ∨ ¬ k - s < n := by omega
      rcases hout with hout | hout <;> simp [hout]

/-- The test of a range looks at what of it lies in the first word. -/
theorem and_mask_word {mask : BitVec 32} (hmask : lowMask n = ok mask) (hword : j / 32 < b.length) :
    b[j / 32] &&& mask <<< (j % 32) = 0 ↔
      ∀ k, j ≤ k → k < j + n → k / 32 = j / 32 → bit b k = false := by
  rw [and_mask_eq_zero hmask]
  have hget : ∀ k, k / 32 = j / 32 → bit b k = b[j / 32].getLsbD (k % 32) := by
    intro k hk
    rw [bit, hk, List.getElem?_eq_getElem hword, Option.getD_some]
  constructor
  · intro h k hjk hkn hk
    rw [hget k hk]
    have hbit := h (k - j) (by omega) (by omega)
    rwa [show j % 32 + (k - j) = k % 32 by omega] at hbit
  · intro h i hi hlt
    have hk : (j + i) / 32 = j / 32 := by omega
    have hbit := h (j + i) (Nat.le_add_right _ _) (Nat.add_lt_add_left hi j) hk
    rwa [hget _ hk, show (j + i) % 32 = j % 32 + i by omega] at hbit

end Bitset

end CSem
