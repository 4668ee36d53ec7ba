import Mathlib.Algebra.Order.Ring.Int
import Mathlib.Data.List.Induction
import Mathlib.Data.List.Pairwise
import Mathlib.Tactic.Common

/-!
# Comparators

A comparator of C returns a number whose sign says how its arguments compare. What is asked
of one is that the sign turns around with the arguments and that "less" is transitive
(`IsComparator`); two keys of which neither is less than the other need not be equivalent
to each other's equivalents. Where they are, the comparator is a total preorder
(`IsTotalPreorder`).

A table that keeps the first entry with a key, and takes two keys for the same when the
comparator says 0, keeps `firstWrites` of what is written to it.
-/

namespace CSem

universe u v

variable {K : Type u} {V : Type v} {cmp : K → K → Int}

/-- What `Has`, `Get` and `ForEach` need of a comparator: it orders the keys, up to those that it
takes for one. -/
structure IsComparator (cmp : K → K → Int) : Prop where
  symm : ∀ a b, cmp a b < 0 ↔ 0 < cmp b a
  trans : ∀ {a b c}, cmp a b < 0 → cmp b c < 0 → cmp a c < 0

/-- What a sort needs of a comparator: its sign is that of a total preorder. -/
structure IsTotalPreorder (cmp : K → K → Int) : Prop where
  symm : ∀ a b, cmp a b < 0 ↔ 0 < cmp b a
  le_trans : ∀ {a b c}, cmp a b ≤ 0 → cmp b c ≤ 0 → cmp a c ≤ 0

namespace IsComparator

variable {a b : K} (hcmp : IsComparator cmp)

include hcmp

theorem refl (a : K) : cmp a a = 0 := by
  have h := hcmp.symm a a
  omega

theorem eq_symm (h : cmp a b = 0) : cmp b a = 0 := by
  have h₁ := hcmp.symm a b
  have h₂ := hcmp.symm b a
  omega

end IsComparator

namespace IsTotalPreorder

variable {a b c : K} (hcmp : IsTotalPreorder cmp)

include hcmp

/-- A total preorder is a comparator. -/
theorem isComparator : IsComparator cmp where
  symm := hcmp.symm
  trans := by
    intro a b c hab hbc
    by_contra hac
    have hca : cmp c a ≤ 0 := not_lt.1 fun h => hac ((hcmp.symm a c).2 h)
    have hcb : cmp c b ≤ 0 := hcmp.le_trans hca hab.le
    exact absurd ((hcmp.symm b c).1 hbc) (not_lt.2 hcb)

/-- Any two keys are in order, one way or the other. -/
theorem total (a b : K) : cmp a b ≤ 0 ∨ cmp b a ≤ 0 := by
  have h := hcmp.symm b a
  omega

theorem eq_trans (hab : cmp a b = 0) (hbc : cmp b c = 0) : cmp a c = 0 := by
  have hle : cmp a c ≤ 0 := hcmp.le_trans hab.le hbc.le
  have hge : cmp c a ≤ 0 :=
    hcmp.le_trans (hcmp.isComparator.eq_symm hbc).le (hcmp.isComparator.eq_symm hab).le
  have h := hcmp.symm a c
  omega

end IsTotalPreorder

/-- Numbers are compared by their difference, which is a total preorder where it does not
overflow. -/
theorem isTotalPreorder_sub : IsTotalPreorder fun a b : Int => a - b where
  symm := by
    intro a b
    omega
  le_trans := by
    intro a b c
    omega

/-! ## The first entry with a key -/

/-- An entry is kept unless its key is there already. -/
def firstWrite (cmp : K → K → Int) (kept : List (K × V)) (e : K × V) : List (K × V) :=
  if ∃ x ∈ kept, cmp e.1 x.1 = 0 then kept else kept ++ [e]

/-- What is kept of entries written one after the other. -/
def firstWrites (cmp : K → K → Int) (es : List (K × V)) : List (K × V) :=
  es.foldl (firstWrite cmp) []

variable {es kept kept' : List (K × V)} {e : K × V}

/-- In which order the entries are kept makes no difference. -/
theorem firstWrite_perm (h : kept.Perm kept') (e : K × V) :
    (firstWrite cmp kept e).Perm (firstWrite cmp kept' e) := by
  have hiff : (∃ x ∈ kept, cmp e.1 x.1 = 0) ↔ ∃ x ∈ kept', cmp e.1 x.1 = 0 :=
    exists_congr fun x => and_congr_left fun _ => h.mem_iff
  rw [firstWrite, firstWrite]
  split
  · rw [if_pos (hiff.1 ‹_›)]
    exact h
  · rw [if_neg (mt hiff.2 ‹_›)]
    exact h.append_right [e]

theorem firstWrites_concat (cmp : K → K → Int) (es : List (K × V)) (e : K × V) :
    firstWrites cmp (es ++ [e]) = firstWrite cmp (firstWrites cmp es) e := by
  rw [firstWrites, List.foldl_append]
  rfl

/-- Entries that are seen as others, with a comparator that sees the same. -/
theorem map_firstWrite {K' : Type*} {V' : Type*} (cmp' : K' → K' → Int) (f : K × V → K' × V')
    (hf : ∀ x y, cmp' (f x).1 (f y).1 = cmp x.1 y.1) (kept : List (K × V)) (e : K × V) :
    (firstWrite cmp kept e).map f = firstWrite cmp' (kept.map f) (f e) := by
  have hiff : (∃ x ∈ kept.map f, cmp' (f e).1 x.1 = 0) ↔ ∃ x ∈ kept, cmp e.1 x.1 = 0 := by
    simp only [List.mem_map, exists_exists_and_eq_and, hf]
  rw [firstWrite, firstWrite]
  split
  · rw [if_pos (hiff.2 ‹_›)]
  · rw [if_neg (mt hiff.1 ‹_›), List.map_append, List.map_singleton]

/-- Keys of which no two are equal are all kept. -/
theorem firstWrites_of_pairwise (h : es.Pairwise fun x y => cmp y.1 x.1 ≠ 0) :
    firstWrites cmp es = es := by
  induction es using List.reverseRecOn with
  | nil => rfl
  | append_singleton es e ih =>
    obtain ⟨hes, -, hlast⟩ := List.pairwise_append.1 h
    rw [firstWrites_concat, ih hes, firstWrite, if_neg]
    rintro ⟨x, hx, heq⟩
    exact hlast x hx e (List.mem_singleton_self e) heq

/-- What is kept was written. -/
theorem mem_of_mem_firstWrites (he : e ∈ firstWrites cmp es) : e ∈ es := by
  induction es using List.reverseRecOn with
  | nil => exact he
  | append_singleton es x ih =>
    rw [firstWrites_concat, firstWrite] at he
    split at he
    · exact List.mem_append_left _ (ih he)
    · exact (List.mem_append.1 he).elim (fun h => List.mem_append_left _ (ih h))
        (List.mem_append_right _)

/-- What was written has an equal that is kept. -/
theorem exists_mem_firstWrites (hcmp : IsComparator cmp) (he : e ∈ es) :
    ∃ x ∈ firstWrites cmp es, cmp e.1 x.1 = 0 := by
  induction es using List.reverseRecOn with
  | nil => cases he
  | append_singleton es x ih =>
    rw [firstWrites_concat, firstWrite]
    rcases List.mem_append.1 he with hmem | hlast
    · obtain ⟨y, hy, heq⟩ := ih hmem
      split
      · exact ⟨y, hy, heq⟩
      · exact ⟨y, List.mem_append_left _ hy, heq⟩
    · rw [List.mem_singleton.1 hlast]
      split
      · assumption
      · exact ⟨x, List.mem_append_right _ (List.mem_singleton_self x), hcmp.refl x.1⟩

/-- With a total preorder, the first entry that is equal to a key is the one kept. -/
theorem find_firstWrites (hcmp : IsTotalPreorder cmp) (es : List (K × V)) (k : K) :
    (firstWrites cmp es).find? (fun e => cmp k e.1 = 0) = es.find? (fun e => cmp k e.1 = 0) := by
  induction es using List.reverseRecOn with
  | nil => rfl
  | append_singleton es x ih =>
    rw [firstWrites_concat, firstWrite, List.find?_append, ← ih]
    split
    · rename_i hmem
      obtain ⟨y, hy, hxy⟩ := hmem
      by_cases hkx : cmp k x.1 = 0
      · -- `x` is not the first one: `y` is before it
        have hsome : ((firstWrites cmp es).find? fun e => cmp k e.1 = 0).isSome := by
          rw [List.find?_isSome]
          exact ⟨y, hy, decide_eq_true (hcmp.eq_trans hkx hxy)⟩
        rw [Option.or_of_isSome hsome]
      · rw [List.find?_singleton, if_neg (by simpa using hkx), Option.or_none]
    · rw [List.find?_append]

/-- In an ascending list no two entries have the same key. -/
theorem eq_of_ascending {l : List (K × V)} (hcmp : IsComparator cmp)
    (hasc : l.Pairwise fun x y => cmp x.1 y.1 < 0) {x y : K × V} (hx : x ∈ l) (hy : y ∈ l)
    (hxy : cmp x.1 y.1 = 0) : x = y := by
  by_contra hne
  obtain ⟨i, hi, rfl⟩ := List.getElem_of_mem hx
  obtain ⟨j, hj, rfl⟩ := List.getElem_of_mem hy
  rw [List.pairwise_iff_getElem] at hasc
  rcases lt_trichotomy i j with hij | rfl | hij
  · exact (hasc i j hi hj hij).ne hxy
  · exact hne rfl
  · exact (hasc j i hj hi hij).ne (hcmp.eq_symm hxy)

section Ascending

variable {l : List (K × V)} (hcmp : IsTotalPreorder cmp)
  (hasc : l.Pairwise fun x y => cmp x.1 y.1 < 0)

include hcmp hasc

/-- Looking for a key in an ascending list finds what has it. -/
theorem find_eq_some {k : K} (he : e ∈ l) (hke : cmp k e.1 = 0) :
    l.find? (fun x => cmp k x.1 = 0) = some e := by
  cases hfind : l.find? fun x => cmp k x.1 = 0 with
  | none => exact absurd (decide_eq_true hke) (List.find?_eq_none.1 hfind e he)
  | some y =>
    have hsome := List.find?_some hfind
    have hky : cmp k y.1 = 0 := by simpa using hsome
    rw [eq_of_ascending hcmp.isComparator hasc (List.mem_of_find?_eq_some hfind) he
      (hcmp.eq_trans (hcmp.isComparator.eq_symm hky) hke)]

variable (hperm : l.Perm (firstWrites cmp es))

include hperm

/-- The kept entries in ascending order: looking for a key finds the first entry with it. -/
theorem find_ascending (k : K) :
    l.find? (fun e => cmp k e.1 = 0) = es.find? (fun e => cmp k e.1 = 0) := by
  rw [← find_firstWrites hcmp es]
  cases hfind : (firstWrites cmp es).find? fun e => cmp k e.1 = 0 with
  | none =>
    rw [List.find?_eq_none] at hfind ⊢
    exact fun x hx => hfind x (hperm.mem_iff.1 hx)
  | some x =>
    have hsome := List.find?_some hfind
    have hkx : cmp k x.1 = 0 := by simpa using hsome
    exact find_eq_some hcmp hasc (hperm.mem_iff.2 (List.mem_of_find?_eq_some hfind)) hkx

/-- The kept entries are the first ones with their keys. -/
theorem mem_ascending (e : K × V) :
    e ∈ l ↔ es.find? (fun x => cmp e.1 x.1 = 0) = some e := by
  rw [← find_ascending hcmp hasc hperm e.1]
  constructor
  · exact fun he => find_eq_some hcmp hasc he (hcmp.isComparator.refl e.1)
  · exact fun hfind => List.mem_of_find?_eq_some hfind

end Ascending

/-! ## Keys that are taken for others

`P` holds of the keys that are asked for, `Q` of those that the comparator takes for them. -/

/-- What is kept of keys, whatever is written with them. -/
def keptKeys (cmp : K → K → Int) (ks : List K) : List K :=
  ks.foldl (fun kept k => if ∃ x ∈ kept, cmp k x = 0 then kept else kept ++ [k]) []

/-- Which keys are kept does not depend on the values. -/
theorem map_fst_firstWrites (cmp : K → K → Int) (es : List (K × V)) :
    (firstWrites cmp es).map Prod.fst = keptKeys cmp (es.map Prod.fst) := by
  induction es using List.reverseRecOn with
  | nil => rfl
  | append_singleton es e ih =>
    rw [firstWrites_concat, keptKeys, List.map_append, List.foldl_append, ← keptKeys, ← ih,
      firstWrite]
    by_cases hmem : ∃ x ∈ firstWrites cmp es, cmp e.1 x.1 = 0
    · obtain ⟨x, hx, hex⟩ := hmem
      have hkey : ∃ y ∈ (firstWrites cmp es).map Prod.fst, cmp e.1 y = 0 :=
        ⟨x.1, List.mem_map_of_mem hx, hex⟩
      rw [if_pos ⟨x, hx, hex⟩, List.map_singleton, List.foldl_cons, List.foldl_nil, if_pos hkey]
    · have hkey : ¬ ∃ y ∈ (firstWrites cmp es).map Prod.fst, cmp e.1 y = 0 := by
        rintro ⟨y, hy, hey⟩
        obtain ⟨x, hx, rfl⟩ := List.mem_map.1 hy
        exact hmem ⟨x, hx, hey⟩
      rw [if_neg hmem, List.map_singleton, List.foldl_cons, List.foldl_nil, if_neg hkey,
        List.map_append, List.map_singleton]

/-- How what is asked for and what is taken for it go together, among the keys `ks`. -/
structure Asked (cmp : K → K → Int) (ks : List K) (P Q : K → Prop) : Prop where
  taken : ∀ x ∈ ks, P x → Q x
  equal : ∀ x ∈ ks, ∀ y ∈ ks, P x → Q y → cmp x y = 0
  congr : ∀ x ∈ ks, ∀ x' ∈ ks, ∀ y ∈ ks, P x → P x' → cmp x y = 0 → cmp x' y = 0

theorem Asked.mono {P Q : K → Prop} {ks ks' : List K} (h : Asked cmp ks' P Q)
    (hsub : ∀ k ∈ ks, k ∈ ks') : Asked cmp ks P Q :=
  ⟨fun x hx => h.taken x (hsub x hx), fun x hx y hy => h.equal x (hsub x hx) y (hsub y hy),
    fun x hx x' hx' y hy => h.congr x (hsub x hx) x' (hsub x' hx') y (hsub y hy)⟩

theorem mem_firstWrites_concat {e : K × V} (x : K × V) (he : e ∈ firstWrites cmp es) :
    e ∈ firstWrites cmp (es ++ [x]) := by
  rw [firstWrites_concat, firstWrite]
  split
  · exact he
  · exact List.mem_append_left _ he

/-- If one entry that is asked for is kept when `x` is written last, and another one was written
before `x`, then one is kept without `x`: if that other one was dropped, so is `x`. -/
theorem Asked.exists_kept {P Q : K → Prop} {x : K × V} (hcmp : IsComparator cmp)
    (hask : Asked cmp ((es ++ [x]).map Prod.fst) P Q) (hold : ∃ e ∈ es, P e.1)
    (hkept : ∃ e ∈ firstWrites cmp (es ++ [x]), P e.1) : ∃ e ∈ firstWrites cmp es, P e.1 := by
  have hkey : ∀ e ∈ es, e.1 ∈ (es ++ [x]).map Prod.fst := fun e he =>
    List.mem_map_of_mem (List.mem_append_left _ he)
  have hxkey : x.1 ∈ (es ++ [x]).map Prod.fst :=
    List.mem_map_of_mem (List.mem_append_right _ (List.mem_singleton_self x))
  obtain ⟨e, he, hPe⟩ := hold
  obtain ⟨m, hm, hPm⟩ := hkept
  rw [firstWrites_concat, firstWrite] at hm
  split at hm
  · exact ⟨m, hm, hPm⟩
  · rename_i hnew
    rcases List.mem_append.1 hm with hm | hm
    · exact ⟨m, hm, hPm⟩
    · obtain rfl := List.mem_singleton.1 hm
      obtain ⟨y, hy, hey⟩ := exists_mem_firstWrites hcmp he
      exact absurd ⟨y, hy, hask.congr _ (hkey _ he) _ hxkey _
        (hkey _ (mem_of_mem_firstWrites hy)) hPe hPm hey⟩ hnew

/-- The answer is right if nothing else is taken for the key, and an entry with the key is
kept if there is one. -/
theorem find_kept {P Q : K → Prop} [DecidablePred P] [DecidablePred Q] (hcmp : IsComparator cmp)
    (hask : Asked cmp (es.map Prod.fst) P Q) (hQ : ∀ e ∈ firstWrites cmp es, Q e.1 → P e.1)
    (hP : (∃ e ∈ es, P e.1) → ∃ e ∈ firstWrites cmp es, P e.1) :
    (firstWrites cmp es).find? (fun e => Q e.1) = es.find? (fun e => P e.1) := by
  induction es using List.reverseRecOn with
  | nil => rfl
  | append_singleton es x ih =>
    have hmem : ∀ e ∈ es, e ∈ es ++ [x] := fun e he => List.mem_append_left _ he
    have hx : x ∈ es ++ [x] := List.mem_append_right _ (List.mem_singleton_self x)
    have hsub : ∀ k ∈ es.map Prod.fst, k ∈ (es ++ [x]).map Prod.fst := by
      intro k hk
      rw [List.map_append]
      exact List.mem_append_left _ hk
    have hind := ih (hask.mono hsub) (fun e he => hQ e (mem_firstWrites_concat x he)) (by
      rintro ⟨e, he, hPe⟩
      exact hask.exists_kept hcmp ⟨e, he, hPe⟩ (hP ⟨e, hmem e he, hPe⟩))
    rw [List.find?_append, ← hind]
    rw [firstWrites_concat, firstWrite] at hQ hP ⊢
    split at hQ
    · -- dropped: then something that is asked for is kept already, if this one is
      rename_i hold
      rw [if_pos hold] at hP ⊢
      by_cases hPx : P x.1
      · obtain ⟨m, hm, hPm⟩ := hP ⟨x, hx, hPx⟩
        have hkey : m.1 ∈ (es ++ [x]).map Prod.fst :=
          List.mem_map_of_mem (hmem m (mem_of_mem_firstWrites hm))
        have hsome : ((firstWrites cmp es).find? fun e => Q e.1).isSome := by
          rw [List.find?_isSome]
          exact ⟨m, hm, decide_eq_true (hask.taken _ hkey hPm)⟩
        rw [Option.or_of_isSome hsome]
      · rw [List.find?_singleton, if_neg (by simpa using hPx), Option.or_none]
    · rename_i hnew
      have hPQ : Q x.1 ↔ P x.1 :=
        ⟨hQ x (List.mem_append_right _ (List.mem_singleton_self x)),
          hask.taken _ (List.mem_map_of_mem hx)⟩
      rw [if_neg hnew, List.find?_append, List.find?_singleton, List.find?_singleton,
        decide_eq_decide.2 hPQ]

end CSem
