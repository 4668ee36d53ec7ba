import Mathlib.Algebra.Order.Ring.Int
import Mathlib.Data.List.Forall2
import Mathlib.Order.Lattice
import Mathlib.Tactic.Common

/-!
# Outcomes of C code

A C function is embedded as a Lean function into `Exec`: it returns a value,
leaves the defined part of the language (an access outside the object it is made
on), or runs out of fuel. Loops whose termination is part of what has to be
proved are fuel-indexed (`Exec.loop`); "the code returns `a`" is then
`Converges f a`: from some fuel on, every run ends in `a`. "It runs for ever" is
`Diverges f`: no fuel is enough.

The rules at the end are the ones proofs about loops use: run one more iteration,
stop, an invariant with a measure, an invariant without one, and an invariant
under which every iteration asks for another.
-/

namespace CSem

universe u v w

/-- What running a piece of C ends in: it returns a value, it comes to undefined behaviour, or the
fuel it was given is not enough to tell. The three are kept apart, so that no theorem takes a run
that faults or goes on for ever for one that returns. -/
inductive Exec (α : Type u) : Type u where
  /-- the code returned a value -/
  | ok : α → Exec α
  /-- undefined behaviour: an access outside the object it is made on -/
  | fault : Exec α
  /-- the fuel ran out -/
  | timeout : Exec α
  deriving DecidableEq, Repr

namespace Exec

variable {α : Type u} {β : Type v} {σ ρ : Type u}

/-- Sequencing: a fault or an empty tank ends the run. -/
protected def bind : Exec α → (α → Exec β) → Exec β
  | ok a, f => f a
  | fault, _ => fault
  | timeout, _ => timeout

instance : Monad Exec where
  pure := ok
  bind := Exec.bind

instance : LawfulMonad Exec := LawfulMonad.mk' Exec
  (fun m => by cases m <;> rfl) (fun _ _ => rfl) (fun m _ _ => by cases m <;> rfl)

@[simp] theorem pure_eq (a : α) : (pure a : Exec α) = ok a := rfl

@[simp] theorem ok_bind {γ : Type u} (a : α) (f : α → Exec γ) : ok a >>= f = f a := rfl

@[simp] theorem fault_bind {γ : Type u} (f : α → Exec γ) : (fault : Exec α) >>= f = fault := rfl

@[simp] theorem timeout_bind {γ : Type u} (f : α → Exec γ) :
    (timeout : Exec α) >>= f = timeout := rfl

/-- Inversion for sequencing: two pieces of code return only when the first one does, and the second
one does with its value. Long function bodies are taken apart with it, one call after the other. -/
theorem bind_eq_ok {γ : Type u} {m : Exec α} {f : α → Exec γ} {c : γ}
    (h : m >>= f = ok c) : ∃ a, m = ok a ∧ f a = ok c := by
  cases m with
  | ok a => exact ⟨a, rfl, h⟩
  | fault => cases h
  | timeout => cases h

/-- Whether the code returned, as a `Bool` that can be evaluated on a given input. -/
def isOk : Exec α → Bool
  | ok _ => true
  | _ => false

/-- A run that was evaluated has returned something; what it is need not be written down. -/
theorem exists_of_isOk {m : Exec α} (h : m.isOk = true) : ∃ a, m = ok a := by
  cases m with
  | ok a => exact ⟨a, rfl⟩
  | fault => cases h
  | timeout => cases h

/-- A C `while` loop: `body` either asks for another iteration (`inl`) or leaves
the loop with a result (`inr`). The fuel bounds the number of iterations. -/
def loop (body : σ → Exec (σ ⊕ ρ)) : ℕ → σ → Exec ρ
  | 0, _ => timeout
  | n + 1, s => do
    match ← body s with
    | .inl s' => loop body n s'
    | .inr r => pure r

@[simp] theorem loop_zero (body : σ → Exec (σ ⊕ ρ)) (s : σ) : loop body 0 s = timeout := rfl

/-- One iteration of a loop, spelled out: the body runs, and either its result is the loop's or the
loop goes on with one unit of fuel less. -/
theorem loop_succ (body : σ → Exec (σ ⊕ ρ)) (n : ℕ) (s : σ) :
    loop body (n + 1) s = body s >>= fun x => match x with
      | .inl s' => loop body n s'
      | .inr r => ok r := rfl

/-- More fuel does no harm: a loop that is left within `n` iterations is left within any greater
number of them, with the same result. -/
theorem loop_mono {body : σ → Exec (σ ⊕ ρ)} {n m : ℕ} {s : σ} {r : ρ} (hnm : n ≤ m)
    (h : loop body n s = ok r) : loop body m s = ok r := by
  induction n generalizing m s with
  | zero => cases h
  | succ n ih =>
    obtain ⟨m, rfl⟩ : ∃ k, m = k + 1 := ⟨m - 1, by omega⟩
    rw [loop_succ] at h ⊢
    obtain ⟨x, hx, hf⟩ := bind_eq_ok h
    rw [hx, ok_bind]
    rcases x with s' | r'
    · exact ih (Nat.le_of_succ_le_succ hnm) hf
    · exact hf

/-- **Partial correctness of a loop**: what an iteration preserves holds until the
loop is left. -/
theorem loop_inv {body : σ → Exec (σ ⊕ ρ)} {Inv : σ → Prop} {Post : ρ → Prop}
    (hnext : ∀ s s', Inv s → body s = ok (.inl s') → Inv s')
    (hdone : ∀ s r, Inv s → body s = ok (.inr r) → Post r) :
    ∀ {n : ℕ} {s : σ} {r : ρ}, Inv s → loop body n s = ok r → Post r := by
  intro n
  induction n with
  | zero =>
    intro s r _ h
    cases h
  | succ n ih =>
    intro s r hs h
    rw [loop_succ] at h
    obtain ⟨x, hx, hf⟩ := bind_eq_ok h
    rcases x with s' | r'
    · exact ih (hnext s s' hs hx) hf
    · obtain rfl : r' = r := by injection hf
      exact hdone s r' hs hx

/-- **A loop whose iterations are all defined**: it is never left for undefined behaviour. -/
theorem loop_total {body : σ → Exec (σ ⊕ ρ)} {Inv : σ → Prop} {Post : ρ → Prop}
    (hstep : ∀ s, Inv s → ∃ x, body s = ok x ∧ x.elim Inv Post) {n : ℕ} {s : σ} (hs : Inv s) :
    loop body n s = timeout ∨ ∃ r, loop body n s = ok r ∧ Post r := by
  induction n generalizing s with
  | zero => exact Or.inl rfl
  | succ n ih =>
    obtain ⟨x, hx, hpost⟩ := hstep s hs
    rw [loop_succ, hx, ok_bind]
    cases x with
    | inl s' => exact ih hpost
    | inr r => exact Or.inr ⟨r, rfl, hpost⟩

/-- The states a loop comes to from `s`: `s` itself, and with every state the one that its body asks
to go on with. This does not say that the loop is ever left. -/
inductive Visits (body : σ → Exec (σ ⊕ ρ)) (s : σ) : σ → Prop where
  /-- where it starts -/
  | start : Visits body s s
  /-- one more iteration -/
  | step {s' s'' : σ} : Visits body s s' → body s' = ok (.inl s'') → Visits body s s''

/-- What an iteration preserves holds of every state a loop comes to. -/
theorem Visits.inv {body : σ → Exec (σ ⊕ ρ)} {Inv : σ → Prop}
    (hnext : ∀ s s', Inv s → body s = ok (.inl s') → Inv s') {s s' : σ} (hs : Inv s)
    (h : Visits body s s') : Inv s' := by
  induction h with
  | start => exact hs
  | step _ hbody ih => exact hnext _ _ ih hbody

/-- A loop is left with what it is left with from any state it comes to: the iterations up to there
only cost fuel. -/
theorem Visits.loop_eq_ok {body : σ → Exec (σ ⊕ ρ)} {s s' : σ} {r : ρ} (h : Visits body s s')
    {n : ℕ} (hloop : loop body n s' = ok r) : ∃ m, loop body m s = ok r := by
  induction h generalizing n with
  | start => exact ⟨n, hloop⟩
  | @step s₁ s₂ _ hbody ih =>
    have hnext : loop body (n + 1) s₁ = ok r := by
      rw [loop_succ, hbody, ok_bind]
      exact hloop
    exact ih hnext

end Exec

open Exec

/-! ## Convergence and divergence -/

section Converges

variable {α β : Type u} {σ ρ : Type u}

/-- From some fuel on, the code returns `a`. This is total correctness: it rules out faults as well
as loops that are never left. -/
def Converges (f : ℕ → Exec α) (a : α) : Prop := ∃ N, ∀ n, N ≤ n → f n = ok a

/-- The code returns, whatever the value. It is the negation of neither fault nor divergence
alone. -/
def Terminates (f : ℕ → Exec α) : Prop := ∃ a, Converges f a

/-- No fuel is enough: the code never returns, and never comes to a fault either. -/
def Diverges (f : ℕ → Exec α) : Prop := ∀ n, f n = timeout

/-- Code that does not use its fuel converges when it returns. -/
theorem Converges.const {m : Exec α} {a : α} (h : m = ok a) : Converges (fun _ => m) a :=
  ⟨0, fun _ _ => h⟩

/-- Convergence only depends on what is returned for each amount of fuel. -/
theorem Converges.congr {f g : ℕ → Exec α} {a : α} (hfg : ∀ n, f n = g n)
    (hg : Converges g a) : Converges f a := by
  rw [funext hfg]
  exact hg

/-- Code that returns returns one value: two amounts of fuel that are both enough have a greater one
in common. -/
theorem Converges.unique {f : ℕ → Exec α} {a b : α} (ha : Converges f a)
    (hb : Converges f b) : a = b := by
  obtain ⟨N, hN⟩ := ha
  obtain ⟨M, hM⟩ := hb
  have h := (hN (max N M) (le_max_left N M)).symm.trans (hM _ (le_max_right N M))
  injection h

/-- Code that converges returns with some fuel, which is how a convergence is taken apart. -/
theorem Converges.exists_ok {f : ℕ → Exec α} {a : α} (h : Converges f a) :
    ∃ n, f n = ok a := by
  obtain ⟨N, hN⟩ := h
  exact ⟨N, hN N (le_refl N)⟩

/-- Code that runs for ever does not return, as one amount of fuel would have to be both enough and
not. -/
theorem Diverges.not_terminates {f : ℕ → Exec α} (h : Diverges f) : ¬ Terminates f := by
  rintro ⟨a, ha⟩
  obtain ⟨n, hn⟩ := ha.exists_ok
  rw [h n] at hn
  cases hn

/-- Sequencing of code that returns: when the first part converges, and the second one does with its
value, the two do one after the other. -/
theorem Converges.bind {f : ℕ → Exec α} {g : ℕ → α → Exec β} {a : α} {b : β}
    (hf : Converges f a) (hg : Converges (fun n => g n a) b) :
    Converges (fun n => f n >>= g n) b := by
  obtain ⟨N, hN⟩ := hf
  obtain ⟨M, hM⟩ := hg
  refine ⟨max N M, fun n hn => ?_⟩
  have hfn : f n = ok a := hN n (by omega)
  have hgn : g n a = ok b := hM n (by omega)
  change f n >>= g n = ok b
  rw [hfn, ok_bind, hgn]

/-- What is returned with some fuel is returned with any more. This holds of all functions of the
model, and turns one run that was evaluated into convergence. -/
def FuelMono (f : ℕ → Exec α) : Prop := ∀ ⦃n m a⦄, n ≤ m → f n = ok a → f m = ok a

namespace FuelMono

theorem const (m : Exec α) : FuelMono fun _ => m := fun _ _ _ _ h => h

theorem bind {f : ℕ → Exec α} {g : ℕ → α → Exec β} (hf : FuelMono f)
    (hg : ∀ a, FuelMono fun n => g n a) : FuelMono fun n => f n >>= g n := by
  intro n m b hnm h
  obtain ⟨a, ha, hb⟩ := bind_eq_ok h
  change f m >>= g m = ok b
  rw [hf hnm ha, ok_bind]
  exact hg a hnm hb

theorem ite {p : Prop} [Decidable p] {f g : ℕ → Exec α} (hf : FuelMono f) (hg : FuelMono g) :
    FuelMono fun n => if p then f n else g n := by
  split
  · exact hf
  · exact hg

theorem loop (body : σ → Exec (σ ⊕ ρ)) (s : σ) : FuelMono fun n => loop body n s :=
  fun _ _ _ => loop_mono

/-- A loop whose body needs fuel, too: more of either does no harm. -/
theorem loop_mono₂ {body : ℕ → σ → Exec (σ ⊕ ρ)} (hbody : ∀ s, FuelMono fun n => body n s)
    {n m k j : ℕ} {s : σ} {r : ρ} (hnm : n ≤ m) (hkj : k ≤ j)
    (h : Exec.loop (body n) k s = ok r) : Exec.loop (body m) j s = ok r := by
  induction k generalizing j s with
  | zero => cases h
  | succ k ih =>
    obtain ⟨j, rfl⟩ : ∃ i, j = i + 1 := ⟨j - 1, by omega⟩
    rw [loop_succ] at h ⊢
    obtain ⟨x, hx, hrest⟩ := bind_eq_ok h
    have hx' : body m s = ok x := hbody s hnm hx
    rw [hx', ok_bind]
    cases x with
    | inl s' => exact ih (Nat.le_of_succ_le_succ hkj) hrest
    | inr r' => exact hrest

theorem loopBody {body : ℕ → σ → Exec (σ ⊕ ρ)} (hbody : ∀ s, FuelMono fun n => body n s) (s : σ) :
    FuelMono fun n => Exec.loop (body n) n s :=
  fun _ _ _ hnm h => loop_mono₂ hbody hnm hnm h

/-- Code that runs over a list does not mind more fuel when it does not for any of the elements. -/
theorem mapM {f : ℕ → α → Exec β} (hf : ∀ a, FuelMono fun n => f n a) (l : List α) :
    FuelMono fun n => l.mapM (f n) := by
  induction l with
  | nil => exact const _
  | cons a l ih =>
    simp only [List.mapM_cons]
    exact (hf a).bind fun b => ih.bind fun r => const _

theorem converges {f : ℕ → Exec α} {n : ℕ} {a : α} (hf : FuelMono f) (h : f n = ok a) :
    Converges f a := ⟨n, fun _ hn => hf hn h⟩

end FuelMono

/-- Inversion of `Converges.bind`: when the whole converges and the first part does, the second one
converges with the value of the first. -/
theorem Converges.bind_inv {f : ℕ → Exec α} {g : ℕ → α → Exec β} {a : α} {b : β}
    (hf : Converges f a) (h : Converges (fun n => f n >>= g n) b) :
    Converges (fun n => g n a) b := by
  obtain ⟨N, hN⟩ := hf
  obtain ⟨M, hM⟩ := h
  refine ⟨max N M, fun n hn => ?_⟩
  have hbind : f n >>= g n = ok b := hM n (by omega)
  rwa [hN n (by omega), ok_bind] at hbind

/-- A recursive function spends one unit of fuel on the call, and then does what its body does. -/
theorem Converges.of_succ {f g : ℕ → Exec α} {a : α} (hf : ∀ n, f (n + 1) = g n)
    (hg : Converges g a) : Converges f a := by
  obtain ⟨N, hN⟩ := hg
  refine ⟨N + 1, fun n hn => ?_⟩
  obtain ⟨k, rfl⟩ : ∃ k, n = k + 1 := ⟨n - 1, by omega⟩
  rw [hf]
  exact hN k (by omega)

/-- Code that runs over a list: it returns when it does for every element, and what is
known of each result is known of the list. -/
theorem Converges.mapM {f : ℕ → α → Exec β} {Post : α → β → Prop} {l : List α}
    (h : ∀ a ∈ l, ∃ b, Converges (fun n => f n a) b ∧ Post a b) :
    ∃ r, Converges (fun n => l.mapM (f n)) r ∧ List.Forall₂ Post l r := by
  induction l with
  | nil => exact ⟨[], Converges.const rfl, List.Forall₂.nil⟩
  | cons a l ih =>
    obtain ⟨b, hb, hpost⟩ := h a (List.mem_cons_self ..)
    obtain ⟨r, hr, hposts⟩ := ih fun a' ha' => h a' (List.mem_cons_of_mem _ ha')
    refine ⟨b :: r, ?_, List.Forall₂.cons hpost hposts⟩
    simp only [List.mapM_cons]
    exact Converges.bind hb (Converges.bind hr (Converges.const rfl))

/-- Code that runs over a list returns the list of results, where it returns for each element. -/
theorem Converges.mapM_forall₂ {f : ℕ → α → Exec β} {l : List α} {r : List β}
    (h : List.Forall₂ (fun a b => Converges (fun n => f n a) b) l r) :
    Converges (fun n => l.mapM (f n)) r := by
  induction h with
  | nil => exact Converges.const rfl
  | cons hb _ ih =>
    simp only [List.mapM_cons]
    exact Converges.bind hb (Converges.bind ih (Converges.const rfl))

/-- Inversion of it: where the run over the list returned, it did for every element, with the result
at the same place. -/
theorem Converges.mapM_inv {f : ℕ → α → Exec β} {l : List α} {r : List β}
    (hf : ∀ a, FuelMono fun n => f n a) (h : Converges (fun n => l.mapM (f n)) r) :
    List.Forall₂ (fun a b => Converges (fun n => f n a) b) l r := by
  induction l generalizing r with
  | nil =>
    obtain ⟨n, hn⟩ := h.exists_ok
    obtain rfl : [] = r := Exec.ok.inj hn
    exact List.Forall₂.nil
  | cons a l ih =>
    simp only [List.mapM_cons] at h
    obtain ⟨n, hn⟩ := h.exists_ok
    obtain ⟨b, hb, hrest⟩ := bind_eq_ok hn
    obtain ⟨rs, hrs, hr⟩ := bind_eq_ok hrest
    obtain rfl : b :: rs = r := Exec.ok.inj hr
    exact List.Forall₂.cons ((hf a).converges hb) (ih ((FuelMono.mapM hf l).converges hrs))

/-- Convergence of a loop whose body may itself need fuel: enough of it for the body, and enough
iterations. The two are kept apart here, so that one iteration can be added or taken away. -/
def LoopTo (body : ℕ → σ → Exec (σ ⊕ ρ)) (s : σ) (r : ρ) : Prop :=
  ∃ N, ∀ n k, N ≤ n → N ≤ k → loop (body n) k s = ok r

/-- Where the body and the loop are given the same fuel, as in the model, a greater amount is enough
for both. -/
theorem LoopTo.converges {body : ℕ → σ → Exec (σ ⊕ ρ)} {s : σ} {r : ρ}
    (h : LoopTo body s r) : Converges (fun n => loop (body n) n s) r := by
  obtain ⟨N, hN⟩ := h
  exact ⟨N, fun n hn => hN n n hn hn⟩

/-- A loop that is left with some fuel is left with any more. -/
theorem Converges.loop {body : σ → Exec (σ ⊕ ρ)} {n : ℕ} {s : σ} {r : ρ}
    (h : loop body n s = ok r) : Converges (fun k => loop body k s) r :=
  ⟨n, fun _ hk => loop_mono hk h⟩

/-- The loop is left by the first iteration, with what its body returns. -/
theorem LoopTo.done {body : ℕ → σ → Exec (σ ⊕ ρ)} {s : σ} {r : ρ}
    (h : Converges (fun n => body n s) (.inr r)) : LoopTo body s r := by
  obtain ⟨N, hN⟩ : ∃ N, ∀ n, N ≤ n → body n s = ok (.inr r) := h
  refine ⟨N + 1, fun n k hn hk => ?_⟩
  obtain ⟨k, rfl⟩ : ∃ j, k = j + 1 := ⟨k - 1, by omega⟩
  rw [loop_succ, hN n (by omega), ok_bind]

/-- One more iteration in front of a loop that is left: the body asks for it, and the rest is left
with `r`. -/
theorem LoopTo.step {body : ℕ → σ → Exec (σ ⊕ ρ)} {s s' : σ} {r : ρ}
    (h : Converges (fun n => body n s) (.inl s')) (h' : LoopTo body s' r) :
    LoopTo body s r := by
  obtain ⟨N, hN⟩ : ∃ N, ∀ n, N ≤ n → body n s = ok (.inl s') := h
  obtain ⟨M, hM⟩ := h'
  refine ⟨max N M + 1, fun n k hn hk => ?_⟩
  obtain ⟨k, rfl⟩ : ∃ j, k = j + 1 := ⟨k - 1, by omega⟩
  rw [loop_succ, hN n (by omega), ok_bind]
  exact hM n k (by omega) (by omega)

/-- A loop that is left with some fuel, when its body does not mind more of it. -/
theorem LoopTo.of_ok {body : ℕ → σ → Exec (σ ⊕ ρ)} (hbody : ∀ s, FuelMono fun n => body n s)
    {n : ℕ} {s : σ} {r : ρ} (h : loop (body n) n s = ok r) : LoopTo body s r :=
  ⟨n, fun _ _ hn hk => FuelMono.loop_mono₂ hbody hn hk h⟩

/-- One iteration less: a loop whose body asks for another one is left with what it is left with
from there. -/
theorem LoopTo.step_inv {body : ℕ → σ → Exec (σ ⊕ ρ)} {s s' : σ} {r : ρ}
    (h : Converges (fun n => body n s) (.inl s')) (h' : LoopTo body s r) : LoopTo body s' r := by
  obtain ⟨N, hN⟩ : ∃ N, ∀ n, N ≤ n → body n s = ok (.inl s') := h
  obtain ⟨M, hM⟩ := h'
  refine ⟨max N M, fun n k hn hk => ?_⟩
  have hloop := hM n (k + 1) (by omega) (by omega)
  rwa [loop_succ, hN n (by omega), ok_bind] at hloop

/-- A loop is left with one result, however its iterations were counted. -/
theorem LoopTo.unique {body : ℕ → σ → Exec (σ ⊕ ρ)} {s : σ} {r r' : ρ} (h : LoopTo body s r)
    (h' : LoopTo body s r') : r = r' :=
  h.converges.unique h'.converges

/-- **Total correctness of a loop**: an invariant, and a measure that every
iteration which asks for another lowers. -/
theorem LoopTo.of_measure {body : ℕ → σ → Exec (σ ⊕ ρ)} {Inv : σ → Prop} {Post : ρ → Prop}
    (μ : σ → ℕ)
    (hstep : ∀ s, Inv s →
      (∃ r, Converges (fun n => body n s) (.inr r) ∧ Post r) ∨
      (∃ s', Converges (fun n => body n s) (.inl s') ∧ Inv s' ∧ μ s' < μ s)) :
    ∀ s, Inv s → ∃ r, LoopTo body s r ∧ Post r := by
  suffices key : ∀ m s, μ s = m → Inv s → ∃ r, LoopTo body s r ∧ Post r from
    fun s hs => key _ s rfl hs
  intro m
  induction m using Nat.strongRecOn with
  | _ m ih =>
    intro s hm hs
    rcases hstep s hs with ⟨r, hr, hpost⟩ | ⟨s', hs', hinv, hlt⟩
    · exact ⟨r, LoopTo.done hr, hpost⟩
    · obtain ⟨r, hr, hpost⟩ := ih (μ s') (by omega) s' rfl hinv
      exact ⟨r, LoopTo.step hs' hr, hpost⟩

/-- A loop every iteration of which asks for another never returns. -/
theorem loop_diverges {body : σ → Exec (σ ⊕ ρ)} {Inv : σ → Prop}
    (hstep : ∀ s, Inv s → ∃ s', body s = ok (.inl s') ∧ Inv s') :
    ∀ n s, Inv s → loop body n s = timeout := by
  intro n
  induction n with
  | zero => exact fun _ _ => rfl
  | succ n ih =>
    intro s hs
    obtain ⟨s', hs', hinv⟩ := hstep s hs
    rw [loop_succ, hs', ok_bind]
    exact ih s' hinv

end Converges

end CSem
