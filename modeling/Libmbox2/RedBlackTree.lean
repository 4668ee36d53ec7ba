import Libmbox2.Heap
import Libmbox2.RedBlack

/-!
# The red-black tree (`mbox-redblacktree.c`)

Nodes are cells of a heap. `RB_SENTINAL`, which stands for every leaf, is a node too, at an
address of its own that all trees share; it is not null. A key is a pointer, which is null
in the sentinel; to compare with a null key is a fault.

The two rotations and the two halves of the repair are each other's mirror image, so they
are written once, with the side as a parameter.
-/

namespace Libmbox2

open CSem CSem.Exec

variable {K V : Type}

/-- `rbNode`: a key and a value that may be null, the color, and the links to both children and to
the parent. -/
structure RbNode (K V : Type) where
  key : Option K
  value : Option V
  color : Color
  left : Ptr
  right : Ptr
  parent : Ptr

/-- `RB_SENTINAL`, the one leaf of all trees. It is a cell of the heap, with a color and links of
its own. -/
abbrev rbSentinal : Ptr := some 0

/-- `struct mboxRBTree`: the root and the size. The functions take the comparator as an argument
here. -/
structure MboxRBTree where
  root : Ptr
  size : ℕ

namespace RbNode

/-- The child on one side. -/
def child (n : RbNode K V) : Side → Ptr
  | .left => n.left
  | .right => n.right

def setChild (n : RbNode K V) (p : Ptr) : Side → RbNode K V
  | .left => { n with left := p }
  | .right => { n with right := p }

variable (n : RbNode K V) (p : Ptr) (s : Side)

@[simp] theorem setChild_key : (n.setChild p s).key = n.key := by cases s <;> rfl

@[simp] theorem setChild_value : (n.setChild p s).value = n.value := by cases s <;> rfl

@[simp] theorem setChild_color : (n.setChild p s).color = n.color := by cases s <;> rfl

@[simp] theorem setChild_parent : (n.setChild p s).parent = n.parent := by cases s <;> rfl

@[simp] theorem child_setChild : (n.setChild p s).child s = p := by cases s <;> rfl

@[simp] theorem child_setChild_other : (n.setChild p s).child s.other = n.child s.other := by
  cases s <;> rfl

@[simp] theorem child_other_setChild : (n.setChild p s.other).child s = n.child s := by
  cases s <;> rfl

end RbNode

section Functions

variable (h : Heap (RbNode K V)) (t : MboxRBTree)

/-- Set the link to the parent. -/
def setParent (n p : Ptr) : Exec (Heap (RbNode K V)) :=
  h.modify n fun node => { node with parent := p }

/-- Paint a node. -/
def setColor (n : Ptr) (color : Color) : Exec (Heap (RbNode K V)) :=
  h.modify n fun node => { node with color }

def setChild (n : Ptr) (s : Side) (p : Ptr) : Exec (Heap (RbNode K V)) :=
  h.modify n fun node => node.setChild p s

/-- The key a comparison needs: a node without one, such as the sentinel, is a fault. -/
def keyOf (node : RbNode K V) : Exec K :=
  match node.key with
  | some key => ok key
  | none => fault

/-- A new tree, whose root is the sentinel. The sentinel is written, too. -/
def rbTreeNew : Exec (Heap (RbNode K V) × MboxRBTree) := do
  let h ← h.modify rbSentinal fun node =>
    { node with color := .black, left := none, right := none, key := none, value := none }
  pure (h, ⟨rbSentinal, 0⟩)

/-- A new node: red, with the sentinel on both sides. -/
def rbNodeNew (key : K) (value : Option V) : Ptr × Heap (RbNode K V) :=
  h.alloc ⟨some key, value, .red, rbSentinal, rbSentinal, none⟩

/-- The child of a rotation is told of its new parent; a leaf has no parent to be told of. -/
def reparent (n p : Ptr) : Exec (Heap (RbNode K V)) :=
  if n ≠ rbSentinal then setParent h n p else pure h

/-- `y` takes the place of the child `x` of `parent`; a node that is not the child on side `s`
is taken for the other one. -/
def relink (s : Side) (parent x y : Ptr) : Exec (Heap (RbNode K V) × MboxRBTree) :=
  if parent = none then pure (h, { t with root := y }) else do
  let node ← h.load parent
  let h ← setChild h parent (if x = node.child s then s else s.other) y
  pure (h, t)

/-- `rbLeftRotate` for the left side, `rbRightRotate` for the right one. -/
def rbRotate (s : Side) (x : Ptr) : Exec (Heap (RbNode K V) × MboxRBTree) := do
  let xn ← h.load x
  let y := xn.child s.other
  let yn ← h.load y
  let inner := yn.child s
  let h ← setChild h x s.other inner
  let h ← reparent h inner x
  let h ← setParent h y xn.parent
  let (h, t) ← relink h t s xn.parent x y
  let h ← setChild h y s x
  let h ← setParent h x y
  pure (h, t)

/-- `rbLeftRotate`: the right child goes up. -/
def rbLeftRotate (x : Ptr) : Exec (Heap (RbNode K V) × MboxRBTree) := rbRotate h t .left x

/-- `rbRightRotate`: the left child goes up. -/
def rbRightRotate (y : Ptr) : Exec (Heap (RbNode K V) × MboxRBTree) := rbRotate h t .right y

/-- The uncle `y` is red: it changes colors with the grandparent, as the parent does. -/
def rbFixupRecolor (y parent grandparent : Ptr) : Exec (Heap (RbNode K V)) := do
  let h ← setColor h y .black
  let h ← setColor h parent .black
  setColor h grandparent .red

/-- An inner child changes places with its parent, so that it becomes an outer one. -/
def rbFixupTurn (s : Side) (z parent : Ptr) : Exec (Heap (RbNode K V) × MboxRBTree × Ptr) := do
  let node ← h.load parent
  if z = node.child s.other then do
    let (h, t) ← rbRotate h t s parent
    pure (h, t, parent)
  else pure (h, t, z)

/-- The parent of an outer child takes the place of its own parent. -/
def rbFixupRotate (s : Side) (z : Ptr) : Exec (Heap (RbNode K V) × MboxRBTree) := do
  let node ← h.load z
  let h ← setColor h node.parent .black
  let parent ← h.load node.parent
  let h ← setColor h parent.parent .red
  rbRotate h t s.other parent.parent

/-- The repair when the parent of `z` is the child on side `s` of its own parent. -/
def rbInsertFixupSide (s : Side) (z : Ptr) : Exec (Heap (RbNode K V) × MboxRBTree × Ptr) := do
  let node ← h.load z
  let parent ← h.load node.parent
  let grandparent ← h.load parent.parent
  let y := grandparent.child s.other
  let uncle ← h.load y
  if uncle.color = .red then do
    let h ← rbFixupRecolor h y node.parent parent.parent
    pure (h, t, parent.parent)
  else do
    let (h, t, z) ← rbFixupTurn h t s z node.parent
    let (h, t) ← rbFixupRotate h t s z
    pure (h, t, z)

/-- One iteration of the loop of `rbInsertFixup`, which goes on while the parent is red. -/
def rbInsertFixupStep : Heap (RbNode K V) × MboxRBTree × Ptr →
    Exec (Heap (RbNode K V) × MboxRBTree × Ptr ⊕ Heap (RbNode K V) × MboxRBTree)
  | (h, t, z) => do
    let node ← h.load z
    let parent ← h.load node.parent
    if parent.color ≠ .red then pure (.inr (h, t)) else do
    let grandparent ← h.load parent.parent
    let s := if node.parent = grandparent.left then .left else .right
    let (h, t, z) ← rbInsertFixupSide h t s z
    if z = t.root then pure (.inr (h, t)) else pure (.inl (h, t, z))

/-- `rbInsertFixup`: the loop, behind which the root is painted black. -/
def rbInsertFixup (fuel : ℕ) (z : Ptr) : Exec (Heap (RbNode K V) × MboxRBTree) := do
  let (h, t) ← loop rbInsertFixupStep fuel (h, t, z)
  let h ← setColor h t.root .black
  pure (h, t)

end Functions

section Compare

variable (keycmp : K → K → Int) (h : Heap (RbNode K V)) (t : MboxRBTree)

/-- One step down in `mboxRBTreeInsert`: `x` and the node above it, or where the search
ends, `none` if the key is there. -/
def searchStep (key : K) : Ptr × Ptr → Exec (Ptr × Ptr ⊕ Option Ptr)
  | (x, y) =>
    if x = rbSentinal then pure (.inr (some y)) else do
    let node ← h.load x
    let nodeKey ← keyOf node
    let cmp := keycmp key nodeKey
    if cmp < 0 then pure (.inl (node.left, x))
    else if cmp > 0 then pure (.inl (node.right, x))
    else pure (.inr none)

/-- The rest of `mboxRBTreeInsert`, where the search ended at a leaf below `y`. -/
def rbInsertAt (fuel : ℕ) (key : K) (value : Option V) (y : Ptr) :
    Exec (Heap (RbNode K V) × MboxRBTree) := do
  let (z, h) := rbNodeNew h key value
  let h ← setParent h z y
  if y = none then do
    let h ← setColor h z .black
    pure (h, { t with root := z, size := t.size + 1 })
  else do
    let node ← h.load y
    let nodeKey ← keyOf node
    let h ← setChild h y (if keycmp key nodeKey < 0 then .left else .right) z
    let t := { t with size := t.size + 1 }
    let parent ← h.load y
    if parent.parent = none then pure (h, t) else rbInsertFixup h t fuel z

/-- `mboxRBTreeInsert`: the place is sought from the root down, and the new node is repaired from
there up. A key that is there keeps its value. -/
def mboxRBTreeInsert (fuel : ℕ) (key : K) (value : Option V) :
    Exec (Heap (RbNode K V) × MboxRBTree) := do
  match ← loop (searchStep keycmp h key) fuel (t.root, none) with
  | none => pure (h, t)
  | some y => rbInsertAt keycmp h t fuel key value y

/-- One step of `rbNodeFind`, down to one side or to the node that is looked for. -/
def rbNodeFindStep (key : K) (cur : Ptr) : Exec (Ptr ⊕ Ptr) :=
  if cur = none ∨ cur = rbSentinal then pure (.inr none) else do
  let node ← h.load cur
  let nodeKey ← keyOf node
  let cmp := keycmp key nodeKey
  if cmp = 0 then pure (.inr cur)
  else if cmp < 0 then pure (.inl node.left)
  else pure (.inl node.right)

/-- `rbNodeFind`: the node with the key, or the sentinel. -/
def rbNodeFind (fuel : ℕ) (n : Ptr) (key : K) : Exec Ptr :=
  loop (rbNodeFindStep keycmp h key) fuel n

/-- `mboxRBTreeGet`: the value of the key, or null. -/
def mboxRBTreeGet (fuel : ℕ) (key : K) : Exec (Option V) := do
  let n ← rbNodeFind keycmp h fuel t.root key
  if n ≠ none ∧ n ≠ rbSentinal then do
    let node ← h.load n
    pure node.value
  else pure none

/-- `mboxRBTreeHas`: whether there is a node with the key. -/
def mboxRBTreeHas (fuel : ℕ) (key : K) : Exec Bool := do
  let n ← rbNodeFind keycmp h fuel t.root key
  pure (n ≠ none)

end Compare

/-- The nodes from left to right; `closure` is what the callback works on. -/
def rbForEachHelper {S : Type} (h : Heap (RbNode K V)) (cb : Option K → Option V → S → Exec S) :
    ℕ → Ptr → S → Exec S
  | 0, _, _ => timeout
  | fuel + 1, n, closure =>
    if n = none ∨ n = rbSentinal then pure closure else do
    let node ← h.load n
    let closure ← rbForEachHelper h cb fuel node.left closure
    let closure ← cb node.key node.value closure
    rbForEachHelper h cb fuel node.right closure

/-- `mboxRBTreeForEach`: the callback is called for every entry, in the order of the keys. -/
def mboxRBTreeForEach {S : Type} (h : Heap (RbNode K V)) (t : MboxRBTree)
    (cb : Option K → Option V → S → Exec S) (fuel : ℕ) (closure : S) : Exec S :=
  rbForEachHelper h cb fuel t.root closure

end Libmbox2
