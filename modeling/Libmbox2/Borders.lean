import Mathlib.Data.Nat.Find
import Mathlib.Data.List.Basic
import Mathlib.Logic.Relation

/-!
# Looking for a pattern

A pattern is laid against a text at one position after the other. What is known where it stops to
agree (`Stop`) is how many elements agreed, and a border of these, a beginning that is also their
end, says how far the pattern may move on (`Shift`). The positions the pattern is laid against are
those that are `Tried`.

Elements are compared by a key, borders are borders of the elements themselves, so the pattern may
be moved on too far. What it ought to be laid against are the positions that lead: those at which
it agrees with more of the text than at any position in front of them (`Leads`). Up to the first
occurrence all of these are tried exactly when any two that overlap do so in the same elements
(`leadersMatch_iff`). Where equal keys mean equal elements they always do
(`leadersMatch_of_injOn`).
-/

namespace CSem

universe u v

variable {α : Type u} {β : Type v} {key : α → β} {p t : List α} {i j k q b s : ℕ} {c : α}

/-- The first `q` elements of the pattern have the keys of those of the text from `j` on. -/
def Agree (key : α → β) (p t : List α) (j q : ℕ) : Prop :=
  ∀ i < q, t[j + i]?.map key = p[i]?.map key

/-- The first `b` of the first `q` elements of the pattern are the last ones of them, too. -/
def Border (p : List α) (q b : ℕ) : Prop := b < q ∧ ∀ i < b, p[q - b + i]? = p[i]?

/-- The pattern occurs at `s`: all of it agrees there. -/
def Occurs (key : α → β) (p t : List α) (s : ℕ) : Prop := Agree key p t s p.length

instance [DecidableEq β] : Decidable (Occurs key p t s) :=
  inferInstanceAs (Decidable (∀ i < p.length, t[s + i]?.map key = p[i]?.map key))

/-- It occurs at `s` and nowhere in front of it. -/
def FirstOccurs (key : α → β) (p t : List α) (s : ℕ) : Prop :=
  Occurs key p t s ∧ ∀ s' < s, ¬ Occurs key p t s'

/-! ## Borders -/

theorem border_zero (hq : 0 < q) : Border p q 0 := ⟨hq, fun _ hi => nomatch hi⟩

/-- What a fallback goes through is no longer than where it starts. -/
theorem le_of_border (h : b = q ∨ Border p q b) : b ≤ q :=
  h.elim Nat.le_of_eq fun hb => Nat.le_of_lt hb.1

namespace Border

theorem trans (hk : Border p q k) (hb : Border p k b) : Border p q b := by
  refine ⟨lt_trans hb.1 hk.1, fun i hi => ?_⟩
  have hk₁ := hk.1
  have hb₁ := hb.1
  have hidx : q - b + i = q - k + (k - b + i) := by omega
  rw [hidx, hk.2 _ (by omega), hb.2 i hi]

/-- A shorter border is a border of a longer one. -/
theorem of_lt (hk : Border p q k) (hb : Border p q b) (hlt : b < k) : Border p k b := by
  refine ⟨hlt, fun i hi => ?_⟩
  have hk₁ := hk.1
  have hidx : q - b + i = q - k + (k - b + i) := by omega
  rw [← hb.2 i hi, hidx, hk.2 _ (by omega)]

/-- A border goes on with the element behind it. -/
theorem succ_iff : Border p (q + 1) (b + 1) ↔ Border p q b ∧ p[q]? = p[b]? := by
  have hsub : q + 1 - (b + 1) = q - b := by omega
  rw [Border, Border, hsub]
  constructor
  · rintro ⟨hlt, hb⟩
    refine ⟨⟨by omega, fun i hi => hb i (by omega)⟩, ?_⟩
    have hlast := hb b (by omega)
    rwa [Nat.sub_add_cancel (by omega)] at hlast
  · rintro ⟨⟨hlt, hb⟩, hlast⟩
    refine ⟨by omega, fun i hi => ?_⟩
    rcases Nat.lt_or_eq_of_le (Nat.le_of_lt_succ hi) with hi | rfl
    · exact hb i hi
    · rwa [Nat.sub_add_cancel (by omega)]

/-- The text agrees with the pattern where a border of what agreed is laid against it. -/
theorem agree (hb : Border p q b) (hagree : Agree key p t j q) :
    Agree key p t (j + (q - b)) b := by
  intro i hi
  have hlt := hb.1
  rw [Nat.add_assoc, hagree _ (by omega), hb.2 i hi]

end Border

/-- `k` is the longest border of the first `q` elements. -/
structure LongestBorder (p : List α) (q k : ℕ) : Prop where
  border : Border p q k
  le : ∀ b, Border p q b → b ≤ k

/-- What a fallback from `q` on the element `c` arrives at: the longest of `q` and its borders
that goes on with `c`, or zero. -/
structure FallsTo (key : α → β) (p : List α) (c : α) (q q' : ℕ) : Prop where
  border : q' = q ∨ Border p q q'
  stop : q' = 0 ∨ p[q']?.map key = some (key c)
  le : ∀ b, (b = q ∨ Border p q b) → p[b]?.map key = some (key c) → b ≤ q'

/-- With the longest border of `q`, the element is looked for behind all borders. -/
theorem LongestBorder.next [DecidableEq α] (hk : LongestBorder p q k) (hc : p[q]? = some c)
    (hfall : FallsTo id p c k b) :
    LongestBorder p (q + 1) (if p[b]? = some c then b + 1 else 0) := by
  have hmem : ∀ b, (b = k ∨ Border p k b) ↔ Border p q b := by
    intro b
    constructor
    · rintro (rfl | hb)
      · exact hk.border
      · exact hk.border.trans hb
    · intro hb
      rcases Nat.lt_or_eq_of_le (hk.le b hb) with hlt | heq
      · exact Or.inr (hk.border.of_lt hb hlt)
      · exact Or.inl heq
  have hgoes : ∀ b, Border p (q + 1) (b + 1) ↔ Border p q b ∧ p[b]? = some c := by
    intro b
    rw [Border.succ_iff, hc, eq_comm (a := some c)]
  split
  · next hgo =>
    refine ⟨(hgoes b).mpr ⟨(hmem b).mp hfall.border, hgo⟩, fun b' hb' => ?_⟩
    cases b' with
    | zero => exact Nat.zero_le _
    | succ b' =>
      obtain ⟨hb', hc'⟩ := (hgoes b').mp hb'
      exact Nat.succ_le_succ (hfall.le b' ((hmem b').mpr hb') (by rw [hc']; rfl))
  · next hstay =>
    refine ⟨border_zero (Nat.succ_pos q), fun b' hb' => ?_⟩
    cases b' with
    | zero => exact le_refl 0
    | succ b' =>
      -- then the fallback would have stopped at it, and not at zero
      obtain ⟨hb', hc'⟩ := (hgoes b').mp hb'
      have hle := hfall.le b' ((hmem b').mpr hb') (by rw [hc']; rfl)
      rcases hfall.stop with rfl | hstop
      · obtain rfl := Nat.le_zero.mp hle
        exact absurd hc' hstay
      · rw [Option.map_id_fun, id] at hstop
        exact absurd hstop hstay

/-! ## Laying the pattern against the text -/

/-- At `j` the pattern agrees for `q` elements, and then no more. -/
structure Stop (key : α → β) (p t : List α) (j q : ℕ) : Prop where
  agree : Agree key p t j q
  lt_pattern : q < p.length
  lt_text : j + q < t.length
  ne : t[j + q]?.map key ≠ p[q]?.map key

/-- The pattern moves on by its longest border that agrees for one element more, or behind the
element it did not agree with. -/
inductive Shift (key : α → β) (p t : List α) (j : ℕ) : ℕ → Prop where
  | border {q b : ℕ} : Stop key p t j q → Border p q b →
      t[j + q]?.map key = p[b]?.map key →
      (∀ b', Border p q b' → t[j + q]?.map key = p[b']?.map key → b' ≤ b) →
      Shift key p t j (j + (q - b))
  | behind {q : ℕ} : Stop key p t j q →
      (∀ b, Border p q b → t[j + q]?.map key ≠ p[b]?.map key) → Shift key p t j (j + (q + 1))

/-- A position the pattern is laid against, from the first one on. -/
def Tried (key : α → β) (p t : List α) : ℕ → Prop := Relation.ReflTransGen (Shift key p t) 0

/-- At a position the pattern stops to agree in one place. -/
theorem Stop.unique (hq : Stop key p t j q) {q' : ℕ} (hq' : Stop key p t j q') : q' = q := by
  rcases Nat.lt_trichotomy q' q with hlt | heq | hgt
  · exact absurd (hq.agree q' hlt) hq'.ne
  · exact heq
  · exact absurd (hq'.agree q hgt) hq.ne

/-- It moves on only where it stops to agree. -/
theorem Shift.exists_stop {j' : ℕ} (h : Shift key p t j j') : ∃ q, Stop key p t j q := by
  cases h with
  | border hstop => exact ⟨_, hstop⟩
  | behind hstop => exact ⟨_, hstop⟩

/-- It moves on in one way. -/
theorem Shift.unique {j₁ j₂ : ℕ} (h₁ : Shift key p t j j₁) (h₂ : Shift key p t j j₂) :
    j₁ = j₂ := by
  cases h₁ with
  | @border q b hstop hb hgo hmax =>
    cases h₂ with
    | @border q' b' hstop' hb' hgo' hmax' =>
      obtain rfl := hstop.unique hstop'
      rw [Nat.le_antisymm (hmax' b hb hgo) (hmax b' hb' hgo')]
    | behind hstop' hnone =>
      obtain rfl := hstop.unique hstop'
      exact absurd hgo (hnone b hb)
  | behind hstop hnone =>
    cases h₂ with
    | @border q' b' hstop' hb' hgo' hmax' =>
      obtain rfl := hstop.unique hstop'
      exact absurd hgo' (hnone b' hb')
    | behind hstop' hnone' => rw [hstop.unique hstop']

theorem Stop.not_occurs (hstop : Stop key p t j q) : ¬ Occurs key p t j :=
  fun hocc => hstop.ne (hocc q hstop.lt_pattern)

/-- Nothing comes behind an occurrence that is tried. -/
theorem Occurs.not_shift (hocc : Occurs key p t s) {s' : ℕ} : ¬ Shift key p t s s' := by
  intro h
  obtain ⟨q, hstop⟩ := h.exists_stop
  exact hstop.not_occurs hocc

/-- So it is the last of the positions that are tried. -/
theorem Occurs.le_of_tried (hocc : Occurs key p t s) (hs : Tried key p t s)
    (hj : Tried key p t j) : Relation.ReflTransGen (Shift key p t) j s := by
  rcases Relation.ReflTransGen.total_of_right_unique (fun _ _ _ h₁ h₂ => h₁.unique h₂) hs hj
    with h | h
  · rcases h.cases_head with rfl | ⟨s', hshift, -⟩
    · exact h
    · exact absurd hshift hocc.not_shift
  · exact h

theorem Occurs.tried_unique (hocc : Occurs key p t s) (hs : Tried key p t s) {s' : ℕ}
    (hocc' : Occurs key p t s') (hs' : Tried key p t s') : s = s' := by
  rcases (hocc.le_of_tried hs hs').cases_head with heq | ⟨s'', hshift, -⟩
  · exact heq.symm
  · exact absurd hshift hocc'.not_shift

theorem Occurs.le_length (hocc : Occurs key p t s) (hp : p ≠ []) : s + p.length ≤ t.length := by
  have hpos := List.length_pos_iff.mpr hp
  have hlast := hocc (p.length - 1) (by omega)
  by_contra hlong
  rw [List.getElem?_eq_none (by omega), List.getElem?_eq_getElem (by omega)] at hlast
  cases hlast

/-- Where the pattern does not occur, although there is room for it, it stops to agree. -/
theorem exists_stop (hroom : j + p.length ≤ t.length) (hnot : ¬ Occurs key p t j) :
    ∃ q, Stop key p t j q := by
  classical
  have hex : ∃ q, ¬ (q < p.length → t[j + q]?.map key = p[q]?.map key) := by
    by_contra hall
    exact hnot fun q hq => not_not.mp (not_exists.mp hall q) hq
  have hfind := Nat.find_spec hex
  rw [Classical.not_imp] at hfind
  obtain ⟨hlt, hne⟩ := hfind
  refine ⟨Nat.find hex, fun i hi => ?_, hlt, by omega, hne⟩
  exact not_not.mp (Nat.find_min hex hi) (by omega)

/-! ## The positions that lead -/

theorem Agree.mono (h : Agree key p t j q) {n : ℕ} (hn : n ≤ q) : Agree key p t j n :=
  fun i hi => h i (lt_of_lt_of_le hi hn)

theorem Stop.le_of_agree (hstop : Stop key p t j q) {n : ℕ} (h : Agree key p t j n) : n ≤ q := by
  by_contra hlt
  exact hstop.ne (h q (not_le.mp hlt))

/-- At `r` the pattern agrees with more of the text than it does at any position in front of it. -/
def Leads (key : α → β) (p t : List α) (r : ℕ) : Prop :=
  ∀ s < r, ∀ q, Stop key p t s q → Agree key p t r (s + q + 1 - r)

theorem leads_zero : Leads key p t 0 := fun _ hs => nomatch hs

theorem Occurs.leads (hocc : Occurs key p t s) : Leads key p t s := by
  intro j hj q hstop
  have hlt := hstop.lt_pattern
  exact Agree.mono hocc (by omega)

/-- Of the positions up to `o` that lead, any two overlap in the same elements, as far as the
pattern agrees at the first of them. -/
def LeadersMatch (key : α → β) (p t : List α) (o : ℕ) : Prop :=
  ∀ r r' q, r < r' → r' ≤ o → Leads key p t r → Leads key p t r' → Stop key p t r q →
    r' ≤ r + q → Border p q (r + q - r')

/-- Where elements with the same key are the same, the overlaps are. -/
theorem leadersMatch_of_injOn (hinj : ∀ a ∈ p, ∀ b ∈ p, key a = key b → a = b) (o : ℕ) :
    LeadersMatch key p t o := by
  intro r r' q hlt _ _ hlead hstop hle
  have hq := hstop.lt_pattern
  refine ⟨by omega, fun i hi => ?_⟩
  have hfirst := hstop.agree (q - (r + q - r') + i) (by omega)
  have hsecond := hlead r hlt q hstop i (by omega)
  have hidx : r + (q - (r + q - r') + i) = r' + i := by omega
  rw [hidx, hsecond, List.getElem?_eq_getElem (by omega), List.getElem?_eq_getElem (by omega),
    Option.map_some, Option.map_some] at hfirst
  rw [List.getElem?_eq_getElem (by omega), List.getElem?_eq_getElem (by omega),
    hinj _ (List.getElem_mem _) _ (List.getElem_mem _) (Option.some.inj hfirst)]

/-- Of the positions behind `j`, where `q` elements agree, `j'` is the first at which the pattern
agrees with more of the text. -/
structure Overtakes (key : α → β) (p t : List α) (j q j' : ℕ) : Prop where
  lt : j < j'
  agree : Agree key p t j' (j + q + 1 - j')
  least : ∀ i, j < i → i < j' → ¬ Agree key p t i (j + q + 1 - i)

/-- There is such a position, the one behind all that was looked at if no other. -/
theorem exists_overtakes (key : α → β) (p t : List α) (j q : ℕ) :
    ∃ j', Overtakes key p t j q j' := by
  classical
  have hex : ∃ i, j < i ∧ Agree key p t i (j + q + 1 - i) := by
    refine ⟨j + q + 1, by omega, ?_⟩
    rw [Nat.sub_self]
    exact fun _ hi => nomatch hi
  obtain ⟨hlt, hagree⟩ := Nat.find_spec hex
  exact ⟨Nat.find hex, hlt, hagree, fun i hi hless h => Nat.find_min hex hless ⟨hi, h⟩⟩

namespace Overtakes

variable {j' r o : ℕ}

/-- What agrees with as much of the text is no position in between. -/
theorem le_of_agree (hover : Overtakes key p t j q j') (hlt : j < r)
    (hagree : Agree key p t r (j + q + 1 - r)) : j' ≤ r := by
  by_contra hless
  exact hover.least r hlt (not_le.mp hless) hagree

/-- It is not farther than that. -/
theorem le (hover : Overtakes key p t j q j') : j' ≤ j + q + 1 := by
  refine hover.le_of_agree (by omega) ?_
  rw [Nat.sub_self]
  exact fun _ hi => nomatch hi

/-- It leads when `j` does: at the positions in between no more agrees than at `j`. -/
theorem leads (hover : Overtakes key p t j q j') (hstop : Stop key p t j q)
    (hlead : Leads key p t j) : Leads key p t j' := by
  intro s hs q' hstop'
  suffices hle : s + q' ≤ j + q from hover.agree.mono (by omega)
  rcases Nat.lt_trichotomy s j with hlt | rfl | hgt
  · have hle := hstop.le_of_agree (hlead s hlt q' hstop')
    omega
  · rw [hstop.unique hstop']
  · by_contra hmore
    exact hover.least s hgt hs (hstop'.agree.mono (by omega))

/-- The pattern is moved there when it overlaps in the same elements. -/
theorem shift (hover : Overtakes key p t j q j') (hstop : Stop key p t j q)
    (hmatch : j' ≤ j + q → Border p q (j + q - j')) : Shift key p t j j' := by
  have hlt := hover.lt
  have hmove : ∀ b, Border p q b → t[j + q]?.map key = p[b]?.map key → j' ≤ j + (q - b) := by
    intro b hb hgo
    have hb₁ := hb.1
    refine hover.le_of_agree (by omega) fun i hi => ?_
    rcases Nat.lt_or_ge i b with hin | hout
    · exact hb.agree hstop.agree i hin
    · obtain rfl : i = b := by omega
      rw [← hgo]
      congr 2
      omega
  rcases Nat.lt_or_ge (j + q) j' with hbehind | hle
  · obtain rfl : j' = j + (q + 1) := le_antisymm hover.le hbehind
    refine Shift.behind hstop fun b hb hgo => ?_
    have hle := hmove b hb hgo
    omega
  · have hborder := hmatch hle
    have hgo : t[j + q]?.map key = p[j + q - j']?.map key := by
      rw [← hover.agree _ (by omega)]
      congr 2
      omega
    have hto : j + (q - (j + q - j')) = j' := by omega
    have hshift : Shift key p t j (j + (q - (j + q - j'))) := by
      refine Shift.border hstop hborder hgo fun b hb hgo' => ?_
      have hle' := hmove b hb hgo'
      have hb₁ := hb.1
      omega
    rwa [hto] at hshift

end Overtakes

/-- **The positions that lead are tried**, up to the first occurrence, when they match. -/
theorem LeadersMatch.tried_of_leads {r o : ℕ} (hmatch : LeadersMatch key p t o) (hp : p ≠ [])
    (hfirst : FirstOccurs key p t o) (hr : r ≤ o) (hlead : Leads key p t r) : Tried key p t r := by
  have hroom := hfirst.1.le_length hp
  suffices hall : ∀ d j, r - j = d → j ≤ r → Leads key p t j → Tried key p t j →
      Tried key p t r from
    hall r 0 (Nat.sub_zero r) (Nat.zero_le r) leads_zero Relation.ReflTransGen.refl
  intro d
  induction d using Nat.strongRecOn with
  | _ d ih =>
    intro j hd hle hj htried
    rcases Nat.lt_or_eq_of_le hle with hlt | rfl
    · obtain ⟨q, hstop⟩ := exists_stop (by omega) (hfirst.2 j (by omega))
      obtain ⟨j', hover⟩ := exists_overtakes key p t j q
      have hgt := hover.lt
      have hlead' := hover.leads hstop hj
      have hle' : j' ≤ r := hover.le_of_agree hlt (hlead j hlt q hstop)
      have hshift : Shift key p t j j' :=
        hover.shift hstop (hmatch j j' q hgt (Nat.le_trans hle' hr) hj hlead' hstop)
      exact ih (r - j') (by omega) j' rfl hle' hlead' (htried.tail hshift)
    · exact htried

/-- **The first occurrence is tried** where the positions that lead match, as it leads itself and
the pattern never jumps over a position that does. -/
theorem LeadersMatch.tried (hmatch : LeadersMatch key p t s) (hp : p ≠ [])
    (hfirst : FirstOccurs key p t s) : Tried key p t s :=
  hmatch.tried_of_leads hp hfirst (le_refl s) hfirst.1.leads

/-- The moves go on, and by borders as long as they stay inside what agreed. -/
theorem Shift.lt {j' : ℕ} (h : Shift key p t j j') : j < j' := by
  cases h with
  | border _ hb => exact Nat.lt_add_of_pos_right (Nat.sub_pos_of_lt hb.1)
  | behind => exact Nat.lt_add_of_pos_right (Nat.succ_pos _)

theorem le_of_shifts {j' : ℕ} (h : Relation.ReflTransGen (Shift key p t) j j') : j ≤ j' := by
  induction h with
  | refl => exact le_refl j
  | tail _ hshift ih => exact Nat.le_trans ih (Nat.le_of_lt hshift.lt)

/-- A position it comes to within what agreed is at a border of that. -/
theorem border_of_shifts {r : ℕ} (h : Relation.ReflTransGen (Shift key p t) j r) (hlt : j < r)
    (hstop : Stop key p t j q) (hle : r ≤ j + q) : Border p q (j + q - r) := by
  induction h using Relation.ReflTransGen.head_induction_on generalizing q with
  | refl => exact absurd hlt (Nat.lt_irrefl r)
  | @head j j₁ hshift hrest ih =>
    have hle₁ := le_of_shifts hrest
    cases hshift with
    | @behind q' hstop' =>
      obtain rfl := hstop.unique hstop'
      omega
    | @border q' b hstop' hb hgo hmax =>
      obtain rfl := hstop.unique hstop'
      have hb₁ := hb.1
      rcases Nat.lt_or_eq_of_le hle₁ with hlt₁ | rfl
      · obtain ⟨j₂, hnext, -⟩ := hrest.cases_head.resolve_left (Nat.ne_of_lt hlt₁)
        obtain ⟨q₁, hstop₁⟩ := hnext.exists_stop
        have hmore : Agree key p t (j + (q' - b)) (b + 1) := by
          intro i hi
          rcases Nat.lt_or_eq_of_le (Nat.le_of_lt_succ hi) with hi | rfl
          · exact hb.agree hstop'.agree i hi
          · rw [← hgo]
            congr 2
            omega
        have hreach := hstop₁.le_of_agree hmore
        have hborder := ih hlt₁ hstop₁ (by omega)
        refine ⟨by omega, fun i hi => ?_⟩
        have hidx : q' - (j + q' - r) + i = q' - b + (r - (j + (q' - b)) + i) := by omega
        have hidx₁ : r - (j + (q' - b)) + i = q₁ - (j + (q' - b) + q₁ - r) + i := by omega
        rw [hidx, hb.2 _ (by omega), hidx₁, hborder.2 i (by omega)]
      · have hsame : j + q' - (j + (q' - b)) = b := by omega
        rw [hsame]
        exact hb

/-- **The leading positions match** exactly when the search is laid against all of them. -/
theorem leadersMatch_iff (hp : p ≠ []) (hfirst : FirstOccurs key p t s) :
    LeadersMatch key p t s ↔ ∀ r ≤ s, Leads key p t r → Tried key p t r := by
  constructor
  · exact fun hmatch r hr => hmatch.tried_of_leads hp hfirst hr
  · intro hall r r' q hlt hr' hlead hlead' hstop hle
    have htried := hall r (Nat.le_trans (Nat.le_of_lt hlt) hr') hlead
    rcases Relation.ReflTransGen.total_of_right_unique (fun _ _ _ h₁ h₂ => h₁.unique h₂) htried
      (hall r' hr' hlead') with h | h
    · exact border_of_shifts h hlt hstop hle
    · exact absurd (le_of_shifts h) (not_le.mpr hlt)

/-! ## A search -/

/-- The search has looked at `i` elements of the text, the last `q` of which agree with the
pattern. -/
structure Matched (key : α → β) (p t : List α) (i q : ℕ) : Prop where
  le : q ≤ i
  agree : Agree key p t (i - q) q
  tried : Tried key p t (i - q)

theorem matched_zero (key : α → β) (p t : List α) : Matched key p t 0 0 :=
  ⟨le_refl 0, fun _ hi => (nomatch hi), Relation.ReflTransGen.refl⟩

namespace Matched

variable (hm : Matched key p t i q) (hq : q < p.length) (hc : t[i]? = some c)

include hm hq hc

/-- The pattern does not go on with an element whose fallback ends up elsewhere. -/
theorem stop {q' : ℕ} (hfall : FallsTo key p c q q')
    (hne : q' ≠ q ∨ p[q']?.map key ≠ some (key c)) : Stop key p t (i - q) q := by
  have hi := (List.getElem?_eq_some_iff.mp hc).1
  have hidx : i - q + q = i := Nat.sub_add_cancel hm.le
  refine ⟨hm.agree, hq, by omega, ?_⟩
  rw [hidx, hc]
  intro heq
  have hle := hfall.le q (Or.inl rfl) heq.symm
  rcases hfall.border with rfl | hb
  · exact hne.elim (fun h => h rfl) fun h => h heq.symm
  · exact absurd hb.1 (Nat.not_lt.mpr hle)

/-- The element is found behind what the fallback arrives at. -/
theorem next {q' : ℕ} (hfall : FallsTo key p c q q') (hgo : p[q']?.map key = some (key c)) :
    Matched key p t (i + 1) (q' + 1) := by
  have hidx : i - q + q = i := Nat.sub_add_cancel hm.le
  have hlast : t[i]?.map key = p[q']?.map key := by rw [hc, hgo]; rfl
  -- how far the pattern moves
  have hmove : q' ≤ q ∧ Agree key p t (i - q') q' ∧ Tried key p t (i - q') := by
    rcases eq_or_ne q' q with rfl | hne
    · exact ⟨le_refl _, hm.agree, hm.tried⟩
    · have hb := hfall.border.resolve_left hne
      have hlt := hb.1
      have hle := hm.le
      have hto : i - q + (q - q') = i - q' := by omega
      refine ⟨Nat.le_of_lt hlt, hto ▸ hb.agree hm.agree, hto ▸ hm.tried.tail ?_⟩
      refine Shift.border (hm.stop hq hc hfall (Or.inl hne)) hb ?_ fun b hb' hgo' => ?_
      · rw [hidx, hlast]
      · rw [hidx, hc] at hgo'
        exact hfall.le b (Or.inr hb') hgo'.symm
  obtain ⟨hle, hagree, htried⟩ := hmove
  have hle' : q' ≤ i := le_trans hle hm.le
  have hsub : i + 1 - (q' + 1) = i - q' := Nat.add_sub_add_right i 1 q'
  refine ⟨Nat.succ_le_succ hle', ?_, hsub.symm ▸ htried⟩
  rw [hsub]
  intro a ha
  rcases Nat.lt_or_eq_of_le (Nat.le_of_lt_succ ha) with ha | rfl
  · exact hagree a ha
  · rw [Nat.sub_add_cancel hle', hlast]

/-- The element is found behind no border, so nothing agrees any more. -/
theorem behind {q' : ℕ} (hfall : FallsTo key p c q q') (hstay : p[q']?.map key ≠ some (key c)) :
    Matched key p t (i + 1) 0 := by
  obtain rfl := hfall.stop.resolve_right hstay
  have hidx : i - q + q = i := Nat.sub_add_cancel hm.le
  have hto : i - q + (q + 1) = i + 1 := by rw [← Nat.add_assoc, hidx]
  refine ⟨Nat.zero_le _, fun _ hi => (nomatch hi), ?_⟩
  have hshift : Shift key p t (i - q) (i - q + (q + 1)) := by
    refine Shift.behind (hm.stop hq hc hfall (Or.inr hstay)) fun b hb hgo => ?_
    rw [hidx, hc] at hgo
    obtain rfl := Nat.le_zero.mp (hfall.le b (Or.inr hb) hgo.symm)
    exact hstay hgo.symm
  rw [hto] at hshift
  exact hm.tried.tail hshift

end Matched

/-- All of the pattern agrees, so it occurs at the position that is tried. -/
theorem Matched.occurs (hm : Matched key p t i p.length) :
    Tried key p t (i - p.length) ∧ Occurs key p t (i - p.length) := ⟨hm.tried, hm.agree⟩

/-- The text ends before all of the pattern agrees: no position that is tried is an
occurrence. -/
theorem Matched.not_occurs (hm : Matched key p t t.length q) (hq : q < p.length)
    (hs : Tried key p t s) : ¬ Occurs key p t s := by
  intro hocc
  have hp : p ≠ [] := List.length_pos_iff.mp (Nat.zero_lt_of_lt hq)
  have hroom := hocc.le_length hp
  have hle := hm.le
  rcases (hocc.le_of_tried hs hm.tried).cases_head with rfl | ⟨j', hshift, -⟩
  · omega
  · obtain ⟨q', hstop⟩ := hshift.exists_stop
    have hlt := hstop.lt_text
    exact hstop.ne (hm.agree q' (by omega))

end CSem
