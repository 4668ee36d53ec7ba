import Libmbox2.Exec

/-!
# A heap of cells

Code that builds structures out of pointers works on a heap of cells of one type. An
address is a position in the heap; a pointer is an address or null. A cell that is freed
stays behind empty, so no address is given out twice, and an access to it, or through
null, is a fault.

`get` is what a pointer points to; the operations are described by what they do to `get`.
-/

namespace CSem

open Exec

variable {α : Type}

/-- A pointer: `none` is null, an address otherwise. -/
abbrev Ptr : Type := Option ℕ

/-- Cells that are pointed to, each of which may have been freed. An address is never given twice,
so a pointer to a freed cell stays one. -/
structure Heap (α : Type) where
  /-- the cells by address, `none` is one that was freed -/
  cells : List (Option α)

namespace Heap

/-- A heap without any cell. -/
def empty : Heap α := ⟨[]⟩

/-- What a pointer points to, when there is a cell. -/
def get (h : Heap α) : Ptr → Option α
  | none => none
  | some a => h.cells[a]?.join

/-- Read a cell. Null and freed cells are faults. -/
def load (h : Heap α) (p : Ptr) : Exec α :=
  match h.get p with
  | some c => ok c
  | none => fault

/-- Change a cell in place, which has to be there. -/
def modify (h : Heap α) (p : Ptr) (f : α → α) : Exec (Heap α) :=
  match p, h.get p with
  | some a, some c => ok ⟨h.cells.set a (some (f c))⟩
  | _, _ => fault

/-- `malloc` of a cell, with what is stored in it first. The address is a new one. -/
def alloc (h : Heap α) (c : α) : Ptr × Heap α := (some h.cells.length, ⟨h.cells ++ [some c]⟩)

/-- `free` of a cell. A second `free` is a fault. -/
def free (h : Heap α) (p : Ptr) : Exec (Heap α) :=
  match p, h.get p with
  | some a, some _ => ok ⟨h.cells.set a none⟩
  | _, _ => fault

variable {h : Heap α} {p q : Ptr} {c : α}

@[simp] theorem get_none (h : Heap α) : h.get none = none := rfl

theorem load_eq (hp : h.get p = some c) : h.load p = ok c := by
  rw [load, hp]

/-- A pointer to a cell is an address of the heap. -/
theorem lt_of_get {a : ℕ} (ha : h.get (some a) = some c) : a < h.cells.length := by
  by_contra hge
  rw [get, List.getElem?_eq_none (Nat.le_of_not_lt hge)] at ha
  cases ha

/-- What the pointers point to when one cell has been changed. -/
theorem get_set (h : Heap α) {a : ℕ} (ha : a < h.cells.length) (o : Option α) (q : Ptr) :
    (⟨h.cells.set a o⟩ : Heap α).get q = if q = some a then o else h.get q := by
  cases q with
  | none => rfl
  | some b =>
    rw [get, get]
    by_cases hab : b = a
    · subst hab
      rw [List.getElem?_set_self ha, if_pos rfl]
      rfl
    · rw [List.getElem?_set_ne (Ne.symm hab), if_neg fun e => hab (Option.some.inj e)]

/-- Changing a cell changes that cell and no other one. -/
theorem modify_spec (hp : h.get p = some c) (f : α → α) :
    ∃ h', h.modify p f = ok h' ∧ (∀ q, h'.get q = if q = p then some (f c) else h.get q) ∧
      h'.cells.length = h.cells.length := by
  cases p with
  | none => cases hp
  | some a =>
    refine ⟨⟨h.cells.set a (some (f c))⟩, ?_, h.get_set (lt_of_get hp) _, List.length_set⟩
    simp only [modify, hp]

/-- Freeing a cell takes it away, and leaves the others alone. -/
theorem free_spec (hp : h.get p = some c) :
    ∃ h', h.free p = ok h' ∧ (∀ q, h'.get q = if q = p then none else h.get q) ∧
      h'.cells.length = h.cells.length := by
  cases p with
  | none => cases hp
  | some a =>
    refine ⟨⟨h.cells.set a none⟩, ?_, h.get_set (lt_of_get hp) _, List.length_set⟩
    simp only [free, hp]

/-- A new cell is a cell of its own: what the other pointers point to is not changed. -/
theorem get_alloc (h : Heap α) (c : α) (q : Ptr) :
    (h.alloc c).2.get q = if q = (h.alloc c).1 then some c else h.get q := by
  cases q with
  | none => rfl
  | some b =>
    rw [alloc, get, get]
    rcases Nat.lt_trichotomy b h.cells.length with hlt | rfl | hgt
    · rw [List.getElem?_append_left hlt, if_neg fun e => hlt.ne (Option.some.inj e)]
    · rw [List.getElem?_concat_length, if_pos rfl]
      rfl
    · have hlen : (h.cells ++ [some c]).length ≤ b := by
        rw [List.length_append]
        exact hgt
      rw [List.getElem?_eq_none hlen, List.getElem?_eq_none hgt.le,
        if_neg fun e => hgt.ne' (Option.some.inj e)]

theorem get_new (h : Heap α) (c : α) : h.get (h.alloc c).1 = none := by
  rw [alloc, get, List.getElem?_eq_none (le_refl _)]
  rfl

/-- Outside the addresses `ps` the two heaps are the same. -/
def EqOff (ps : List ℕ) (h h' : Heap α) : Prop := ∀ a, a ∉ ps → h'.get (some a) = h.get (some a)

namespace EqOff

variable {ps qs : List ℕ} {h' h'' : Heap α}

theorem refl (ps : List ℕ) (h : Heap α) : EqOff ps h h := fun _ _ => rfl

/-- What two changes leave alone is left alone by both together. -/
theorem trans (h₁ : EqOff ps h h') (h₂ : EqOff ps h' h'') : EqOff ps h h'' := by
  intro a ha
  rw [h₂ a ha, h₁ a ha]

/-- A change may be allowed more addresses than it uses. -/
theorem mono (h₁ : EqOff ps h h') (hsub : ps ⊆ qs) : EqOff qs h h' :=
  fun a ha => h₁ a fun hmem => ha (hsub hmem)

end EqOff

/-- Changing one of the cells `ps` changes nothing outside them. -/
theorem EqOff.of_update {ps : List ℕ} {h h' : Heap α} {a : ℕ} {o : Option α} (ha : a ∈ ps)
    (hget : ∀ q, h'.get q = if q = some a then o else h.get q) : EqOff ps h h' := by
  intro b hb
  have hne : (some b : Ptr) ≠ some a := by
    intro heq
    rw [Option.some.inj heq] at hb
    exact hb ha
  rw [hget, if_neg hne]

theorem modify_at {h : Heap α} {a : ℕ} {c : α} (ha : h.get (some a) = some c) (f : α → α) :
    ∃ h', h.modify (some a) f = ok h' ∧ h'.get (some a) = some (f c) ∧ EqOff [a] h h' := by
  obtain ⟨h', hrun, hget, _⟩ := modify_spec ha f
  refine ⟨h', hrun, ?_, EqOff.of_update (List.mem_cons_self ..) hget⟩
  rw [hget, if_pos rfl]

end Heap

end CSem
