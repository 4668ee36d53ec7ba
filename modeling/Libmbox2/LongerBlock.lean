import Libmbox2.Memory

/-!
# Blocks that go on

What is behind the cells that code reads makes no difference to it: what it returns on a block
it returns on one that goes on (`Exec.Gives`). A run that returns on the first cells of a block
has read no other, since there a read of another one is a fault.
-/

namespace CSem

open Exec

universe u

namespace Exec

variable {α β σ ρ : Type u} {m m' : Exec α}

/-- What the first piece of code returns, the second returns as well; a fault of the first one
may become anything. Code that only reads gives, on a longer block, what it returned on a
shorter one. -/
def Gives (m m' : Exec α) : Prop := ∀ ⦃a⦄, m = ok a → m' = ok a

namespace Gives

theorem refl (m : Exec α) : Gives m m := fun _ h => h

theorem bind {f f' : α → Exec β} (h : Gives m m') (hf : ∀ a, Gives (f a) (f' a)) :
    Gives (m >>= f) (m' >>= f') := by
  intro b hb
  obtain ⟨a, ha, hb⟩ := bind_eq_ok hb
  rw [h ha, ok_bind]
  exact hf a hb

theorem ite {p : Prop} [Decidable p] {m₁ m₁' : Exec α} (h : Gives m m') (h₁ : Gives m₁ m₁') :
    Gives (if p then m else m₁) (if p then m' else m₁') := by
  split
  · exact h
  · exact h₁

theorem loop {body body' : σ → Exec (σ ⊕ ρ)} (h : ∀ s, Gives (body s) (body' s)) (n : ℕ) (s : σ) :
    Gives (Exec.loop body n s) (Exec.loop body' n s) := by
  induction n generalizing s with
  | zero => exact refl _
  | succ n ih =>
    rw [loop_succ, loop_succ]
    refine (h s).bind fun x => ?_
    cases x with
    | inl s' => exact ih s'
    | inr r => exact refl _

theorem converges {f g : ℕ → Exec α} {a : α} (h : ∀ n, Gives (f n) (g n)) (hf : Converges f a) :
    Converges g a := by
  obtain ⟨N, hN⟩ := hf
  exact ⟨N, fun n hn => h n (hN n hn)⟩

end Gives

end Exec

/-! ## Reads -/

variable {α : Type} {d d' : List α}

/-- A cell that was read is read in a longer block, too. -/
theorem load_gives (h : d <+: d') (i : ℕ) : Gives (load d i) (load d' i) := by
  obtain ⟨e, rfl⟩ := h
  intro c hc
  rw [load] at hc
  split at hc
  · rename_i c' hget
    cases hc
    exact load_append_left hget
  · cases hc

/-- A scan that found its cell finds it in a longer block at the same place. -/
theorem scanUntil_gives (h : d <+: d') (p : α → Bool) :
    Gives (scanUntil p d) (scanUntil p d') := by
  obtain ⟨e, rfl⟩ := h
  induction d with
  | nil => nofun
  | cons c d ih =>
    rw [List.cons_append, scanUntil, scanUntil]
    exact (Gives.refl _).ite (ih.bind fun k => Gives.refl _)

/-- A bounded scan that stayed in the block stays in a longer one, and stops where it did. -/
theorem scanWithin_gives (h : d <+: d') (p : α → Bool) (len off : ℕ) :
    Gives (scanWithin p d len off) (scanWithin p d' len off) := by
  generalize hm : len - off = m
  induction m generalizing off with
  | zero =>
    have hend : ∀ x : List α, scanWithin p x len off = ok off := fun x => by
      rw [scanWithin, if_neg (by omega), pure_eq]
    rw [hend, hend]
    exact Gives.refl _
  | succ m ih =>
    have hstep : ∀ x : List α, scanWithin p x len off = load x off >>= fun c =>
        if p c then pure off else scanWithin p x len (off + 1) := fun x => by
      rw [scanWithin, if_pos (by omega)]
    rw [hstep, hstep]
    exact (load_gives h off).bind fun c => (Gives.refl _).ite (ih _ (by omega))

/-- A comparison that was decided inside the block is decided the same way in a longer one. -/
theorem matchAt_gives [DecidableEq α] (h : d <+: d') (pat : List α) :
    Gives (matchAt pat d) (matchAt pat d') := by
  obtain ⟨e, rfl⟩ := h
  induction pat generalizing d with
  | nil => exact Gives.refl _
  | cons q pat ih =>
    cases d with
    | nil => nofun
    | cons c d => exact ih.ite (Gives.refl _)

end CSem
