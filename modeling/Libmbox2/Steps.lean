import Mathlib.Algebra.BigOperators.Group.Finset.Piecewise
import Mathlib.Data.Fintype.Basic
import Mathlib.Tactic.Common

/-!
# Runs of a transition system

Threads that interleave are a relation between states, one labelled step for each
critical section. A run is the list of its labels, the oldest first (`Run`), so what a
run did is read off that list and needs no state of its own.

An invariant may speak of the run as well as of the state it has come to (`Run.inv`).
The states of a family of threads are a function, and what a family adds up to changes
with one thread at a time (`sum_update_add`).
-/

namespace CSem

universe u v

variable {σ : Type u} {lbl : Type v}

/-- The labels of the steps from `s` on, and the state they lead to. -/
inductive Run (step : σ → lbl → σ → Prop) (s : σ) : List lbl → σ → Prop where
  /-- no step -/
  | refl : Run step s [] s
  /-- one more step -/
  | snoc {ls : List lbl} {t u : σ} {l : lbl} :
      Run step s ls t → step t l u → Run step s (ls ++ [l]) u

namespace Run

variable {step : σ → lbl → σ → Prop} {s t u : σ} {ls ls' : List lbl} {l : lbl}

/-- **Invariants of runs**: what holds of the empty run and is preserved by every step
holds of every run. -/
theorem inv {Inv : List lbl → σ → Prop} (hinit : Inv [] s)
    (hstep : ∀ ls t l u, Run step s ls t → Inv ls t → step t l u → Inv (ls ++ [l]) u)
    (h : Run step s ls t) : Inv ls t := by
  induction h with
  | refl => exact hinit
  | snoc hrun hlast ih => exact hstep _ _ _ _ hrun ih hlast

/-- **Invariants of states**: what holds of the first state and is preserved by every step holds of
every state that a run comes to. -/
theorem inv_state {Inv : σ → Prop} (hinit : Inv s)
    (hstep : ∀ t l u, Inv t → step t l u → Inv u) (h : Run step s ls t) : Inv t := by
  induction h with
  | refl => exact hinit
  | snoc _ hlast ih => exact hstep _ _ _ ih hlast

theorem append (h : Run step s ls t) (h' : Run step t ls' u) : Run step s (ls ++ ls') u := by
  induction h' with
  | refl => rwa [List.append_nil]
  | snoc _ hlast ih =>
    rw [← List.append_assoc]
    exact ih.snoc hlast

/-- The last step of a run, and the run in front of it. -/
theorem snoc_inv (h : Run step s (ls ++ [l]) u) : ∃ t, Run step s ls t ∧ step t l u := by
  generalize hls : ls ++ [l] = ls' at h
  cases h with
  | refl => exact absurd hls (by simp)
  | snoc hrun hlast =>
    obtain ⟨rfl, hl⟩ := List.append_inj' hls rfl
    obtain rfl := List.singleton_inj.mp hl
    exact ⟨_, hrun, hlast⟩

/-- A run can be cut anywhere, which is how what was done before a step is told from what was done
behind it. -/
theorem split (h : Run step s (ls ++ ls') u) : ∃ t, Run step s ls t ∧ Run step t ls' u := by
  induction ls' using List.reverseRecOn generalizing u with
  | nil =>
    rw [List.append_nil] at h
    exact ⟨u, h, refl⟩
  | append_singleton ls' l ih =>
    rw [← List.append_assoc] at h
    obtain ⟨v, hrun, hlast⟩ := h.snoc_inv
    obtain ⟨t, hrun₁, hrun₂⟩ := ih hrun
    exact ⟨t, hrun₁, hrun₂.snoc hlast⟩

/-- **A part of a system**: where each step is a step of the part or leaves the part as it is, a
run is a run of the part. -/
theorem filterMap {τ : Type u} {lbl' : Type v} {step' : τ → lbl' → τ → Prop}
    (part : σ → τ) (label : lbl → Option lbl')
    (hstep : ∀ s l t, step s l t → (label l = none ∧ part t = part s) ∨
      ∃ l', label l = some l' ∧ step' (part s) l' (part t))
    (h : Run step s ls t) : Run step' (part s) (ls.filterMap label) (part t) := by
  induction h with
  | refl => exact refl
  | @snoc ls t u l _ hlast ih =>
    rw [List.filterMap_append]
    rcases hstep t l u hlast with ⟨hnone, hsame⟩ | ⟨l', hsome, hstep'⟩
    · rw [List.filterMap_cons_none hnone, List.filterMap_nil, List.append_nil, hsame]
      exact ih
    · rw [List.filterMap_cons_some hsome, List.filterMap_nil]
      exact ih.snoc hstep'

/-- What the steps of a run cost, step by step. -/
def costs (cost : lbl → ℕ) : List lbl → ℕ
  | [] => 0
  | l :: ls => cost l + costs cost ls

theorem costs_append (cost : lbl → ℕ) (ls ls' : List lbl) :
    costs cost (ls ++ ls') = costs cost ls + costs cost ls' := by
  induction ls with
  | nil => exact (Nat.zero_add _).symm
  | cons l ls ih => rw [List.cons_append, costs, costs, ih, Nat.add_assoc]

theorem costs_zero (ls : List lbl) : costs (fun _ => 0) ls = 0 := by
  induction ls with
  | nil => rfl
  | cons l ls ih => rw [costs, ih]

/-- **Runs are bounded** by what their steps cost, where a step that costs nothing lowers a
measure. -/
theorem length_le {Inv : σ → Prop} (μ : σ → ℕ) (cost : lbl → ℕ) (hinit : Inv s)
    (hkeep : ∀ t l u, Inv t → step t l u → Inv u)
    (hlow : ∀ t l u, Inv t → step t l u → μ u < μ t + cost l) (h : Run step s ls t) :
    ls.length + μ t ≤ μ s + costs cost ls := by
  induction h with
  | refl => exact (Nat.zero_add _).le
  | @snoc ls t u l hrun hlast ih =>
    have hlt := hlow t l u (hrun.inv_state hinit hkeep) hlast
    have hone : costs cost [l] = cost l := Nat.add_zero _
    rw [List.length_append, List.length_singleton, costs_append, hone]
    omega

/-- **Runs to the end**: where every state but a last one has a step that lowers a measure, there
is a run to a last one. -/
theorem exists_last {Inv Last : σ → Prop} (μ : σ → ℕ)
    (hnext : ∀ t, Inv t → Last t ∨ ∃ l u, step t l u ∧ Inv u ∧ μ u < μ t) (hs : Inv s) :
    ∃ ls t, Run step s ls t ∧ Last t := by
  induction hm : μ s using Nat.strongRecOn generalizing s with
  | _ m ih =>
    rcases hnext s hs with hlast | ⟨l, u, hstep, hu, hlt⟩
    · exact ⟨[], s, refl, hlast⟩
    · obtain ⟨ls, t, hrun, hlast⟩ := ih (μ u) (hm ▸ hlt) hu rfl
      exact ⟨[l] ++ ls, t, (refl.snoc hstep).append hrun, hlast⟩

end Run

/-! ## Condition variables -/

/-- `pthread_cond_signal`: threads that sleep wake up, at least one if there is any. -/
structure Signal {τ : Type} (asleep asleep' : τ → Bool) : Prop where
  sleeps : ∀ t, asleep' t = true → asleep t = true
  wakes : ∀ t, asleep t = true → ∃ u, asleep u = true ∧ asleep' u = false

theorem Signal.all {τ : Type} (asleep : τ → Bool) : Signal asleep fun _ => false where
  sleeps := fun _ h => absurd h Bool.false_ne_true
  wakes := fun t h => ⟨t, h, rfl⟩

/-! ## Locks -/

section Lock

variable {τ : Type} {lock : Option τ} {inside inside' : τ → Prop} {o : τ}

/-- Only the thread that holds the lock is inside: the invariant of a lock. -/
def Guarded (lock : Option τ) (inside : τ → Prop) : Prop := ∀ t, inside t → lock = some t

theorem Guarded.nobody (h : Guarded none inside) (t : τ) : ¬ inside t :=
  fun ht => nomatch h t ht

/-- A thread takes the lock, which nobody held, and goes inside. -/
theorem Guarded.acquire (h : Guarded none inside) (hother : ∀ t, inside' t → t ≠ o → inside t) :
    Guarded (some o) inside' := by
  intro t ht
  by_contra hne
  have hne' : t ≠ o := fun heq => hne (by rw [heq])
  exact h.nobody t (hother t ht hne')

/-- The thread that is inside releases the lock and leaves. -/
theorem Guarded.release (h : Guarded lock inside) (hin : inside o)
    (hother : ∀ t, inside' t → inside t ∧ t ≠ o) : Guarded none inside' := by
  intro t ht
  obtain ⟨hold, hne⟩ := hother t ht
  have heq := (h t hold).symm.trans (h o hin)
  exact absurd (Option.some.inj heq) hne

/-- Nobody goes inside, so the lock guards what it did. -/
theorem Guarded.mono (h : Guarded lock inside) (hother : ∀ t, inside' t → inside t) :
    Guarded lock inside' :=
  fun t ht => h t (hother t ht)

end Lock

/-! ## What several threads have done -/

section Histories

variable {α : Type u}

/-- What the threads have done is a part of what they do. -/
theorem forall₂_flatten_sublist {l l' : List (List α)}
    (h : List.Forall₂ List.Sublist l l') : l.flatten.Sublist l'.flatten := by
  induction h with
  | nil => exact List.Sublist.refl _
  | cons hone _ ih =>
    rw [List.flatten_cons, List.flatten_cons]
    exact hone.append ih

/-- **A common history**, taken apart thread by thread: it holds what the threads have done, in
some order. -/
theorem perm_flatten_filter {l : List (ℕ × α)} {m : ℕ} (h : ∀ x ∈ l, x.1 < m) :
    (((List.range m).map fun i => (l.filter fun x => x.1 = i).map Prod.snd).flatten).Perm
      (l.map Prod.snd) := by
  induction m generalizing l with
  | zero =>
    cases l with
    | nil => exact List.Perm.refl _
    | cons x l => exact absurd (h x (List.mem_cons_self ..)) (Nat.not_lt_zero _)
  | succ m ih =>
    rw [List.range_succ, List.map_append, List.flatten_append, List.map_singleton,
      List.flatten_singleton]
    -- the threads in front of the last one have done the rest
    have hrest := ih (l := l.filter fun x => !decide (x.1 = m)) fun x hx => by
      obtain ⟨hmem, hne⟩ := List.mem_filter.mp hx
      have hlt := h x hmem
      simp only [Bool.not_eq_eq_eq_not, Bool.not_true, decide_eq_false_iff_not] at hne
      omega
    have hsame : ((List.range m).map fun i =>
        ((l.filter fun x => !decide (x.1 = m)).filter fun x => x.1 = i).map Prod.snd) =
        (List.range m).map fun i => (l.filter fun x => x.1 = i).map Prod.snd := by
      refine List.map_congr_left fun i hi => ?_
      rw [List.filter_filter]
      congr 1
      refine List.filter_congr fun x _ => ?_
      have hlt := List.mem_range.mp hi
      by_cases heq : x.1 = i
      · have hne : i ≠ m := by omega
        simp [heq, hne]
      · simp [heq]
    rw [hsame] at hrest
    refine (hrest.append_right _).trans ?_
    rw [← List.map_append]
    exact (List.perm_append_comm.trans (List.filter_append_perm _ l)).map _

end Histories

/-! ## Families of threads -/

section Family

variable {ι α : Type} [Fintype ι] [DecidableEq ι]

/-- One thread moves from `g i` to `a`, and a sum over all threads changes by what the two are
worth. It is stated with additions on both sides, as the numbers are natural. -/
theorem sum_update_add (f : α → ℕ) (g : ι → α) (i : ι) (a : α) :
    ∑ j, f (Function.update g i a j) + f (g i) = ∑ j, f (g j) + f a := by
  have hrest : ∑ j ∈ Finset.univ.erase i, f (Function.update g i a j) =
      ∑ j ∈ Finset.univ.erase i, f (g j) := by
    refine Finset.sum_congr rfl fun j hj => ?_
    rw [Function.update_of_ne (Finset.ne_of_mem_erase hj)]
  have hnew := Finset.add_sum_erase Finset.univ (fun j => f (Function.update g i a j))
    (Finset.mem_univ i)
  have hold := Finset.add_sum_erase Finset.univ (fun j => f (g j)) (Finset.mem_univ i)
  rw [hrest] at hnew
  simp only [Function.update_self] at hnew
  omega

end Family

end CSem
