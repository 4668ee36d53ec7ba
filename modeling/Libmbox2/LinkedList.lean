import Mathlib.Data.List.Nodup
import Mathlib.Data.List.Rotate
import Libmbox2.Heap

/-!
# The circular list (`mbox-list.c`)

A list is a ring of nodes on a heap: the last node is followed by the first one, and the
other way round. `Ring` says which addresses the nodes have and what they hold; `Holds` is
that, for a list. The functions without a lock of their own only touch `len` and `root`.

A lock that is not free blocks for ever, as there is one client: `mboxListLock` then never
returns.
-/

namespace Libmbox2

open CSem CSem.Exec

variable {D : Type}

/-- `struct mboxLNode`: the data, and the neighbours on both sides. -/
structure MboxLNode (D : Type) where
  data : D
  next : Ptr
  prev : Ptr

/-- `struct mboxList`, without the function that frees the data. The root is the first node; the
last one is in front of it, as the nodes are a ring. -/
structure MboxList where
  len : ℕ
  root : Ptr
  /-- the mutex `lock` is taken -/
  locked : Bool

section Functions

variable (h : Heap (MboxLNode D)) (l : MboxList)

def setNext (p q : Ptr) : Exec (Heap (MboxLNode D)) :=
  h.modify p fun node => { node with next := q }

def setPrev (p q : Ptr) : Exec (Heap (MboxLNode D)) :=
  h.modify p fun node => { node with prev := q }

def setData (p : Ptr) (data : D) : Exec (Heap (MboxLNode D)) :=
  h.modify p fun node => { node with data }

/-- A node that is linked to nothing yet. -/
def mboxLNodeNew (data : D) : Ptr × Heap (MboxLNode D) := h.alloc ⟨data, none, none⟩

/-- An empty list, with the lock free. -/
def mboxListNew : MboxList := ⟨0, none, false⟩

/-- A node is added in front of the root, and is the root then. -/
def mboxListAddHead (data : D) : Exec (Heap (MboxLNode D) × MboxList) :=
  let (n, h) := mboxLNodeNew h data
  if l.root = none then do
    let h ← setNext h n n
    let h ← setPrev h n n
    pure (h, { l with root := n, len := l.len + 1 })
  else do
    let root ← h.load l.root
    let tail := root.prev
    let head := l.root
    let h ← setNext h n head
    let h ← setPrev h n tail
    let h ← setNext h tail n
    let h ← setPrev h head n
    pure (h, { l with root := n, len := l.len + 1 })

/-- A node is added in front of the root, which is behind the last one. -/
def mboxListAddTail (data : D) : Exec (Heap (MboxLNode D) × MboxList) :=
  let (n, h) := mboxLNodeNew h data
  if l.root = none then do
    let h ← setNext h n n
    let h ← setPrev h n n
    pure (h, { l with root := n, len := l.len + 1 })
  else do
    let root ← h.load l.root
    let tail := root.prev
    let head := l.root
    let h ← setNext h n head
    let h ← setPrev h n tail
    let h ← setNext h tail n
    let h ← setPrev h head n
    pure (h, { l with len := l.len + 1 })

/-- The first node is taken out of the ring and freed; its data are returned, or null when there is
none. -/
def mboxListRemoveHead : Exec (Option D × Heap (MboxLNode D) × MboxList) :=
  if l.len = 0 ∨ l.root = none then pure (none, h, l) else do
  let root ← h.load l.root
  let head := l.root
  if l.len = 1 then
    let h ← h.free head
    pure (some root.data, h, { l with root := none, len := l.len - 1 })
  else
    let tail := root.prev
    let l := { l with root := root.next }
    let h ← setNext h tail l.root
    let h ← setPrev h l.root tail
    let h ← h.free head
    pure (some root.data, h, { l with len := l.len - 1 })

/-- The same with the last node, which is the one in front of the root. -/
def mboxListRemoveTail : Exec (Option D × Heap (MboxLNode D) × MboxList) :=
  if l.len = 0 then pure (none, h, l) else do
  let root ← h.load l.root
  let tail := root.prev
  let last ← h.load tail
  if l.len = 1 then
    let h ← h.free tail
    pure (some last.data, h, { l with root := none, len := l.len - 1 })
  else
    let newTail := last.prev
    let h ← setPrev h l.root newTail
    let h ← setNext h newTail l.root
    let h ← h.free tail
    pure (some last.data, h, { l with len := l.len - 1 })

/-- Plonk `aux` onto the tail of `main`. Unless it is empty `aux` is gone afterwards. -/
def mboxListAppendListTail (main aux : MboxList) : Exec (Heap (MboxLNode D) × MboxList) :=
  if aux.len = 0 then pure (h, main)
  else if main.len = 0 then
    pure (h, { main with root := aux.root, len := main.len + aux.len })
  else do
    let auxHead ← h.load aux.root
    let root ← h.load main.root
    let tail := root.prev
    let head := main.root
    let auxTail := auxHead.prev
    let h ← setPrev h aux.root tail
    let h ← setNext h tail aux.root
    let h ← setPrev h head auxTail
    let h ← setNext h auxTail head
    pure (h, { main with len := main.len + aux.len })

end Functions

/-- `pthread_mutex_lock`. The thread that has taken a lock does not get it a second time: it waits
for ever. -/
def mboxListLock (l : MboxList) : Exec MboxList :=
  if l.locked then timeout else ok { l with locked := true }

/-- `pthread_mutex_unlock`: the lock is free, whoever had it. -/
def mboxListUnlock (l : MboxList) : MboxList := { l with locked := false }

/-- `mboxListTSAddTail`: an element goes to the end, with the lock held. -/
def mboxListTSAddTail (h : Heap (MboxLNode D)) (l : MboxList) (data : D) :
    Exec (Heap (MboxLNode D) × MboxList) := do
  let l ← mboxListLock l
  let (h, l) ← mboxListAddTail h l data
  pure (h, mboxListUnlock l)

/-! ## Rings -/

/-- The address behind the one at position `i`: the first one behind the last. -/
def nextAt (ps : List ℕ) (i : ℕ) : Ptr := if i + 1 = ps.length then ps[0]? else ps[i + 1]?

/-- The address in front of the one at position `i`. -/
def prevAt (ps : List ℕ) (i : ℕ) : Ptr := if i = 0 then ps[ps.length - 1]? else ps[i - 1]?

/-- In front of the last position it is simply the next one. -/
theorem nextAt_of_lt {ps : List ℕ} {i : ℕ} (hi : i + 1 < ps.length) : nextAt ps i = ps[i + 1]? :=
  if_neg hi.ne

/-- Behind the first position the address in front is simply the one before. -/
theorem prevAt_succ (ps : List ℕ) (i : ℕ) : prevAt ps (i + 1) = ps[i]? :=
  if_neg (Nat.succ_ne_zero i)

/-- Two rings put together: only the links at the two seams are others. -/
theorem nextAt_join {ps qs : List ℕ} {i : ℕ} (hps : 0 < ps.length)
    (hi : i < ps.length + qs.length) :
    nextAt (ps ++ qs) i =
      if i = ps.length + qs.length - 1 then ps[0]? else if i = ps.length - 1 then qs[0]?
      else if i < ps.length then nextAt ps i else nextAt qs (i - ps.length) := by
  by_cases hend : i = ps.length + qs.length - 1
  · rw [if_pos hend, nextAt, List.length_append, if_pos (by omega), List.getElem?_append_left hps]
  rw [if_neg hend, nextAt_of_lt (by rw [List.length_append]; omega)]
  by_cases hseam : i = ps.length - 1
  · rw [if_pos hseam, List.getElem?_append_right (by omega)]
    congr 1
    omega
  rw [if_neg hseam]
  by_cases hlt : i < ps.length
  · rw [if_pos hlt, nextAt_of_lt (by omega), List.getElem?_append_left (by omega)]
  · rw [if_neg hlt, nextAt_of_lt (by omega), List.getElem?_append_right (by omega)]
    congr 1
    omega

/-- The addresses in front when two rings are made one. -/
theorem prevAt_join {ps qs : List ℕ} (hps : 0 < ps.length) (hqs : 0 < qs.length) (i : ℕ) :
    prevAt (ps ++ qs) i =
      if i = 0 then qs[qs.length - 1]? else if i = ps.length then ps[ps.length - 1]?
      else if i < ps.length then prevAt ps i else prevAt qs (i - ps.length) := by
  have hlast : ps.length ≤ ps.length + qs.length - 1 := Nat.le_sub_one_of_lt (by simpa using hqs)
  by_cases hstart : i = 0
  · rw [if_pos hstart, prevAt, if_pos hstart, List.length_append, List.getElem?_append_right hlast]
    congr 1
    omega
  obtain ⟨j, rfl⟩ : ∃ j, i = j + 1 := ⟨i - 1, by omega⟩
  rw [if_neg hstart, prevAt_succ]
  by_cases hseam : j + 1 = ps.length
  · rw [if_pos hseam, List.getElem?_append_left (by omega)]
    congr 1
    omega
  rw [if_neg hseam]
  by_cases hlt : j + 1 < ps.length
  · rw [if_pos hlt, prevAt_succ, List.getElem?_append_left (by omega)]
  · obtain ⟨k, rfl⟩ : ∃ k, j = ps.length + k := ⟨j - ps.length, by omega⟩
    rw [if_neg hlt, List.getElem?_append_right (by omega), Nat.add_assoc,
      Nat.add_sub_cancel_left, Nat.add_sub_cancel_left, prevAt_succ]

/-- The addresses behind when a node is put behind a ring. -/
theorem nextAt_concat {ps : List ℕ} {i : ℕ} (a : ℕ) (hps : 0 < ps.length) (hi : i ≤ ps.length) :
    nextAt (ps ++ [a]) i =
      if i = ps.length - 1 then some a else if i = ps.length then ps[0]? else nextAt ps i := by
  have hi' : i < ps.length + [a].length := Nat.lt_succ_of_le hi
  rw [nextAt_join hps hi', List.length_singleton, Nat.add_sub_cancel]
  rcases hi.eq_or_lt with rfl | hlt
  · rw [if_pos rfl, if_neg (by omega), if_pos rfl]
  · rw [if_neg hlt.ne, if_pos hlt, if_neg hlt.ne]
    rfl

/-- And those in front. -/
theorem prevAt_concat {ps : List ℕ} {i : ℕ} (a : ℕ) (hps : 0 < ps.length) (hi : i ≤ ps.length) :
    prevAt (ps ++ [a]) i =
      if i = 0 then some a else if i = ps.length then ps[ps.length - 1]? else prevAt ps i := by
  rw [prevAt_join hps (show 0 < [a].length from Nat.one_pos)]
  rcases hi.eq_or_lt with rfl | hlt
  · rw [if_pos rfl, if_pos rfl]
    rfl
  · rw [if_neg hlt.ne, if_neg hlt.ne, if_pos hlt]
    rfl

/-- The nodes at the addresses `ps` have the data `xs`, and their links are those given. -/
structure Links (h : Heap (MboxLNode D)) (ps : List ℕ) (xs : List D) (next prev : ℕ → Ptr) :
    Prop where
  length : ps.length = xs.length
  nodup : ps.Nodup
  node : ∀ i x, xs[i]? = some x → h.get ps[i]? = some ⟨x, next i, prev i⟩

/-- The nodes at the addresses `ps` form a ring with the data `xs`. -/
def Ring (h : Heap (MboxLNode D)) (ps : List ℕ) (xs : List D) : Prop :=
  Links h ps xs (nextAt ps) (prevAt ps)

/-- The list holds `xs`: its nodes are a ring with these data, the root is the first of them, and
the length is right. -/
def MboxList.Holds (l : MboxList) (h : Heap (MboxLNode D)) (xs : List D) : Prop :=
  ∃ ps, Ring h ps xs ∧ l.root = ps[0]? ∧ l.len = xs.length

/-- The list holds `xs`, at the addresses `ps`, for statements about which cells are changed. -/
structure MboxList.At (l : MboxList) (h : Heap (MboxLNode D)) (ps : List ℕ) (xs : List D) :
    Prop where
  ring : Ring h ps xs
  root : l.root = ps[0]?
  len : l.len = xs.length

/-- A list that holds `xs` does so at some addresses. -/
theorem MboxList.holds_iff {l : MboxList} {h : Heap (MboxLNode D)} {xs : List D} :
    l.Holds h xs ↔ ∃ ps, l.At h ps xs :=
  ⟨fun ⟨ps, hr, hroot, hlen⟩ => ⟨ps, hr, hroot, hlen⟩,
    fun ⟨ps, hr, hroot, hlen⟩ => ⟨ps, hr, hroot, hlen⟩⟩

namespace Links

variable {h : Heap (MboxLNode D)} {ps : List ℕ} {xs A B : List D} {x : D} {next prev : ℕ → Ptr}

theorem inj (hr : Links h ps xs next prev) {i j : ℕ} (hi : i < xs.length)
    (heq : ps[i]? = ps[j]?) : i = j :=
  (List.getElem?_inj (by rw [hr.length]; exact hi) hr.nodup).mp heq

theorem get_lt (hr : Links h ps xs next prev) {i : ℕ} (hi : i < xs.length) :
    h.get ps[i]? = some ⟨xs[i], next i, prev i⟩ :=
  hr.node i _ (List.getElem?_eq_getElem hi)

/-- The node behind the front part `A` of the list. -/
theorem get_append (hr : Links h ps (A ++ x :: B) next prev) :
    h.get ps[A.length]? = some ⟨x, next A.length, prev A.length⟩ :=
  hr.node A.length x (by simp)

/-- One node changes, and the others keep their data and links. -/
theorem modify (hr : Links h ps xs next prev) {j : ℕ} (hj : j < xs.length)
    (f : MboxLNode D → MboxLNode D) :
    ∃ h', h.modify ps[j]? f = ok h' ∧
      (∀ i x, xs[i]? = some x → h'.get ps[i]? =
        some (if i = j then f ⟨x, next i, prev i⟩ else ⟨x, next i, prev i⟩)) ∧
      h.EqOff ps h' := by
  obtain ⟨h', hmod, hget, -⟩ := Heap.modify_spec (hr.get_lt hj) f
  have hjps : ps[j]? = some (ps.get ⟨j, hr.length ▸ hj⟩) := List.getElem?_eq_getElem _
  refine ⟨h', hmod, fun i x hx => ?_, Heap.EqOff.of_update (List.getElem_mem _) (hjps ▸ hget)⟩
  have hi := (List.getElem?_eq_some_iff.mp hx).1
  rw [hget]
  by_cases hij : i = j
  · subst hij
    obtain ⟨-, rfl⟩ := List.getElem?_eq_some_iff.mp hx
    rw [if_pos rfl, if_pos rfl]
  · rw [if_neg fun heq => hij (hr.inj hi heq), if_neg hij, hr.node i x hx]

theorem setNext (hr : Links h ps xs next prev) {j : ℕ} (hj : j < xs.length) (q : Ptr) :
    ∃ h', Libmbox2.setNext h ps[j]? q = ok h' ∧
      Links h' ps xs (Function.update next j q) prev ∧ h.EqOff ps h' := by
  obtain ⟨h', hmod, hget, hoff⟩ := hr.modify hj fun node => { node with next := q }
  refine ⟨h', hmod, ⟨hr.length, hr.nodup, fun i x hx => ?_⟩, hoff⟩
  rw [hget i x hx, Function.update_apply]
  split <;> rfl

theorem setPrev (hr : Links h ps xs next prev) {j : ℕ} (hj : j < xs.length) (q : Ptr) :
    ∃ h', Libmbox2.setPrev h ps[j]? q = ok h' ∧
      Links h' ps xs next (Function.update prev j q) ∧ h.EqOff ps h' := by
  obtain ⟨h', hmod, hget, hoff⟩ := hr.modify hj fun node => { node with prev := q }
  refine ⟨h', hmod, ⟨hr.length, hr.nodup, fun i x hx => ?_⟩, hoff⟩
  rw [hget i x hx, Function.update_apply]
  split <;> rfl

theorem frame {h' : Heap (MboxLNode D)} {qs : List ℕ} (hr : Links h ps xs next prev)
    (hoff : h.EqOff qs h') (hdisj : ps.Disjoint qs) : Links h' ps xs next prev := by
  refine ⟨hr.length, hr.nodup, fun i x hx => ?_⟩
  have hi := (List.getElem?_eq_some_iff.mp hx).1
  rw [← hr.length] at hi
  rw [← hr.node i x hx, List.getElem?_eq_getElem hi, hoff _ (hdisj (List.getElem_mem hi))]

/-- A pointer to one of the nodes is not free to be given out. -/
theorem not_mem (hr : Links h ps xs next prev) {a : ℕ} (ha : h.get (some a) = none) : a ∉ ps := by
  intro hmem
  obtain ⟨i, hi⟩ := List.getElem?_of_mem hmem
  have hlt := (List.getElem?_eq_some_iff.mp hi).1
  rw [hr.length] at hlt
  have hnode := hr.get_lt hlt
  rw [hi, ha] at hnode
  cases hnode

theorem setData (hr : Links h ps (A ++ x :: B) next prev) (y : D) :
    ∃ h', Libmbox2.setData h ps[A.length]? y = ok h' ∧
      Links h' ps (A ++ y :: B) next prev := by
  have hj : A.length < (A ++ x :: B).length := by simp
  obtain ⟨h', hmod, hget, -⟩ := hr.modify hj fun node => { node with data := y }
  refine ⟨h', hmod, ?_, hr.nodup, fun i z hz => ?_⟩
  · rw [hr.length, List.length_append, List.length_append, List.length_cons, List.length_cons]
  · by_cases hi : i = A.length
    · subst hi
      have hzy : y = z := by simpa using hz
      rw [hget A.length x (by simp), if_pos rfl, hzy]
    · have hold : (A ++ x :: B)[i]? = some z := by
        rw [← hz]
        rcases Nat.lt_or_ge i A.length with hlt | hge
        · rw [List.getElem?_append_left hlt, List.getElem?_append_left hlt]
        · obtain ⟨j, rfl⟩ : ∃ j, i = A.length + (j + 1) := ⟨i - A.length - 1, by omega⟩
          rw [List.getElem?_append_right (by omega), List.getElem?_append_right (by omega),
            Nat.add_sub_cancel_left, List.getElem?_cons_succ, List.getElem?_cons_succ]
      rw [hget i z hold, if_neg hi]

/-- A new node behind the last one, linked to whatever it is made with. -/
theorem alloc (hr : Links h ps xs next prev) (x : D) (q r : Ptr) :
    ∃ a, (h.alloc ⟨x, q, r⟩).1 = some a ∧
      Links (h.alloc ⟨x, q, r⟩).2 (ps ++ [a]) (xs ++ [x])
        (fun i => if i = xs.length then q else next i)
        (fun i => if i = xs.length then r else prev i) ∧ a ∉ ps ∧
      h.get (some a) = none ∧ h.EqOff (ps ++ [a]) (h.alloc ⟨x, q, r⟩).2 := by
  have hget := h.get_alloc (⟨x, q, r⟩ : MboxLNode D)
  have hnew := h.get_new (⟨x, q, r⟩ : MboxLNode D)
  obtain ⟨a, ha⟩ : ∃ a, (h.alloc (⟨x, q, r⟩ : MboxLNode D)).1 = some a := ⟨_, rfl⟩
  rw [ha] at hget hnew
  have hfresh : a ∉ ps := hr.not_mem hnew
  have hlen := hr.length
  refine ⟨a, ha, ⟨?_, ?_, fun i z hz => ?_⟩, hfresh, hnew,
    Heap.EqOff.of_update (List.mem_append_right ps (List.mem_singleton_self a)) hget⟩
  · rw [List.length_append, List.length_append, hlen, List.length_singleton,
      List.length_singleton]
  · exact List.nodup_append.mpr ⟨hr.nodup, List.nodup_singleton a, fun b hb c hc => by
      rw [List.mem_singleton.mp hc]
      exact fun heq => hfresh (heq ▸ hb)⟩
  · rw [hget]
    -- an old node, the new one, or none
    rcases Nat.lt_trichotomy i xs.length with hlt | rfl | hgt
    · rw [List.getElem?_append_left hlt] at hz
      rw [List.getElem?_append_left (by omega)]
      have hne : ps[i]? ≠ some a := fun heq => hfresh (List.mem_of_getElem? heq)
      simp only [if_neg hne, if_neg hlt.ne]
      exact hr.node i z hz
    · have hzx : x = z := by simpa using hz
      have hpa : (ps ++ [a])[xs.length]? = some a := by
        rw [← hlen, List.getElem?_concat_length]
      simp only [hpa, if_true, hzx]
    · rw [List.getElem?_eq_none (by rw [List.length_append, List.length_singleton]; omega)] at hz
      cases hz

theorem ring (hr : Links h ps xs next prev)
    (hlinks : ∀ i < xs.length, next i = nextAt ps i ∧ prev i = prevAt ps i) : Ring h ps xs := by
  refine ⟨hr.length, hr.nodup, fun i x hx => ?_⟩
  obtain ⟨hnext, hprev⟩ := hlinks i (List.getElem?_eq_some_iff.mp hx).1
  rw [hr.node i x hx, hnext, hprev]

end Links

/-- The node in front of position `i` is followed by the one at `i`. -/
theorem Ring.get_prevAt {h : Heap (MboxLNode D)} {ps : List ℕ} {xs : List D}
    (hr : Ring h ps xs) {i : ℕ} (hi : i < xs.length) :
    ∃ node, h.get (prevAt ps i) = some node ∧ node.next = ps[i]? := by
  have hlen : ps.length = xs.length := hr.length
  cases i with
  | zero =>
    have hlast := hr.get_lt (show xs.length - 1 < xs.length by omega)
    refine ⟨_, by rw [prevAt, if_pos rfl, hlen]; exact hlast, ?_⟩
    simp only [nextAt]
    rw [if_pos (by omega)]
  | succ i =>
    have hnode := hr.get_lt (show i < xs.length by omega)
    refine ⟨_, by rw [prevAt_succ]; exact hnode, ?_⟩
    simp only [nextAt]
    rw [if_neg (by omega)]

/-- The node behind a position and the one in front of it, all the way round. -/
theorem nextAt_eq_mod {ps : List ℕ} {i : ℕ} (hi : i < ps.length) :
    nextAt ps i = ps[(i + 1) % ps.length]? := by
  rw [nextAt]
  split
  · next hlast => rw [hlast, Nat.mod_self]
  · next hlast => rw [Nat.mod_eq_of_lt (by omega)]

/-- The address in front, counted round the ring. -/
theorem prevAt_eq_mod {ps : List ℕ} {i : ℕ} (hi : i < ps.length) :
    prevAt ps i = ps[(i + (ps.length - 1)) % ps.length]? := by
  rw [prevAt]
  split
  · next hzero => rw [hzero, Nat.zero_add, Nat.mod_eq_of_lt (by omega)]
  · next hzero =>
    obtain ⟨j, rfl⟩ : ∃ j, i = j + 1 := ⟨i - 1, by omega⟩
    rw [show j + 1 + (ps.length - 1) = j + ps.length by omega, Nat.add_mod_right,
      Nat.mod_eq_of_lt (by omega), Nat.add_sub_cancel]

/-- A ring can be looked at from any of its nodes. -/
theorem Ring.rotate {h : Heap (MboxLNode D)} {ps : List ℕ} {xs : List D} (hr : Ring h ps xs)
    (k : ℕ) : Ring h (ps.rotate k) (xs.rotate k) := by
  have hlen : ps.length = xs.length := hr.length
  refine ⟨by rw [List.length_rotate, List.length_rotate, hlen],
    List.nodup_rotate.mpr hr.nodup, fun i x hx => ?_⟩
  have hi := (List.getElem?_eq_some_iff.mp hx).1
  rw [List.length_rotate] at hi
  have hj : (i + k) % ps.length < ps.length := Nat.mod_lt _ (by omega)
  rw [List.getElem?_rotate hi] at hx
  rw [List.getElem?_rotate (by omega), nextAt_eq_mod (by rw [List.length_rotate]; omega),
    prevAt_eq_mod (by rw [List.length_rotate]; omega), List.length_rotate,
    List.getElem?_rotate (Nat.mod_lt _ (by omega)), List.getElem?_rotate (Nat.mod_lt _ (by omega)),
    hr.node _ x (hlen ▸ hx), nextAt_eq_mod hj, prevAt_eq_mod hj]
  have hadd (n : ℕ) : ((i + k) % ps.length + n) % ps.length =
      ((i + n) % ps.length + k) % ps.length := by
    rw [Nat.mod_add_mod, Nat.mod_add_mod, Nat.add_right_comm]
  rw [hadd, hadd]

/-! ## Lists -/

theorem mboxListNew_at (h : Heap (MboxLNode D)) : mboxListNew.At h [] ([] : List D) :=
  ⟨⟨rfl, List.nodup_nil, fun _ _ hx => nomatch hx⟩, rfl, rfl⟩

theorem mboxListNew_holds (h : Heap (MboxLNode D)) : mboxListNew.Holds h ([] : List D) :=
  MboxList.holds_iff.mpr ⟨[], mboxListNew_at h⟩

/-- **A node is added behind the last one**, at an address of its own, and no cell outside of the
list changes. -/
theorem mboxListAddTail_at {h : Heap (MboxLNode D)} {l : MboxList} {ps : List ℕ} {xs : List D}
    (x : D) (hl : l.At h ps xs) :
    ∃ a h', mboxListAddTail h l x = ok (h', { l with root := (ps ++ [a])[0]?, len := l.len + 1 }) ∧
      (h.alloc (⟨x, none, none⟩ : MboxLNode D)).1 = some a ∧ Ring h' (ps ++ [a]) (xs ++ [x]) ∧
      h.get (some a) = none ∧ h.EqOff (ps ++ [a]) h' := by
  obtain ⟨hr, hroot, hlen⟩ := hl
  have hps : ps.length = xs.length := hr.length
  obtain ⟨a, ha, hr₁, -, hnew, hoff₁⟩ := hr.alloc x none none
  have hlast : (ps ++ [a])[xs.length]? = some a := by
    rw [← hps, List.getElem?_concat_length]
  have hold : ∀ i < xs.length, (ps ++ [a])[i]? = ps[i]? := fun i hi =>
    List.getElem?_append_left (by omega)
  have hlen' : (xs ++ [x]).length = xs.length + 1 := by simp
  have hps' : (ps ++ [a]).length = xs.length + 1 := by simp [hps]
  have hn : xs.length < (xs ++ [x]).length := by omega
  rcases Nat.eq_zero_or_pos xs.length with hzero | hpos
  · -- the only node is in front of itself and behind itself
    obtain ⟨h₂, hh₂, hr₂, hoff₂⟩ := hr₁.setNext hn (some a)
    obtain ⟨h₃, hh₃, hr₃, hoff₃⟩ := hr₂.setPrev hn (some a)
    rw [hlast] at hh₂ hh₃
    have hnull : l.root = none := by
      rw [hroot, List.getElem?_eq_none (by omega)]
    have hfirst : (ps ++ [a])[0]? = some a := by rw [← hlast, hzero]
    refine ⟨a, h₃, ?_, ha, hr₃.ring fun i hi => ?_, hnew, (hoff₁.trans hoff₂).trans hoff₃⟩
    · simp only [mboxListAddTail, mboxLNodeNew, hnull, if_true, ha, hh₂, hh₃, hfirst, ok_bind,
        pure_eq]
    · obtain rfl : i = xs.length := by omega
      rw [Function.update_self, Function.update_self, nextAt, prevAt, if_pos (by omega),
        if_pos (by omega), ← hlast, hzero, hps', hzero]
      exact ⟨rfl, rfl⟩
  · -- the new node goes between the last one and the first one
    have h0 := hr.get_lt hpos
    have htail : prevAt ps 0 = (ps ++ [a])[xs.length - 1]? := by
      rw [prevAt, if_pos rfl, hps, hold _ (by omega)]
    have hhead : l.root = (ps ++ [a])[0]? := by rw [hroot, hold 0 hpos]
    have hroot' : l.root ≠ none := by
      rw [hroot, List.getElem?_eq_getElem (show 0 < ps.length by omega)]
      exact Option.some_ne_none _
    have hload : (h.alloc (⟨x, none, none⟩ : MboxLNode D)).2.load l.root =
        ok ⟨xs[0], nextAt ps 0, prevAt ps 0⟩ := by
      refine Heap.load_eq ?_
      have hget := hr₁.node 0 xs[0] (by rw [List.getElem?_append_left hpos]; simp)
      rwa [← hhead, if_neg (by omega), if_neg (by omega)] at hget
    obtain ⟨h₂, hh₂, hr₂, hoff₂⟩ := hr₁.setNext hn l.root
    obtain ⟨h₃, hh₃, hr₃, hoff₃⟩ := hr₂.setPrev hn (prevAt ps 0)
    obtain ⟨h₄, hh₄, hr₄, hoff₄⟩ :=
      hr₃.setNext (show xs.length - 1 < (xs ++ [x]).length by omega) (some a)
    obtain ⟨h₅, hh₅, hr₅, hoff₅⟩ := hr₄.setPrev (show 0 < (xs ++ [x]).length by omega) (some a)
    rw [hlast] at hh₂ hh₃
    rw [← htail] at hh₄
    rw [← hhead] at hh₅
    refine ⟨a, h₅, ?_, ha, hr₅.ring fun i hi => ?_, hnew,
      (((hoff₁.trans hoff₂).trans hoff₃).trans hoff₄).trans hoff₅⟩
    · simp only [mboxListAddTail, mboxLNodeNew, if_neg hroot', ha, hload, hh₂, hh₃, hh₄, hh₅,
        ← hhead, ok_bind, pure_eq]
    · rw [Function.update_apply, Function.update_apply, Function.update_apply,
        Function.update_apply]
      rw [nextAt_concat a (by omega) (by omega), prevAt_concat a (by omega) (by omega), hps, hroot,
        prevAt, if_pos rfl, hps]
      constructor <;> split_ifs <;> rfl

/-- The same, without the addresses. -/
theorem mboxListAddTail_spec {h : Heap (MboxLNode D)} {l : MboxList} {xs : List D} (x : D)
    (hl : l.Holds h xs) :
    ∃ h' l', mboxListAddTail h l x = ok (h', l') ∧ l'.Holds h' (xs ++ [x]) ∧
      l'.locked = l.locked := by
  obtain ⟨ps, hat⟩ := MboxList.holds_iff.mp hl
  obtain ⟨a, h', hadd, -, hr, -, -⟩ := mboxListAddTail_at x hat
  refine ⟨h', _, hadd, ⟨ps ++ [a], hr, rfl, ?_⟩, rfl⟩
  rw [List.length_append, List.length_singleton, hat.len]

/-- With the lock free it is added, and the lock is free again. -/
theorem mboxListTSAddTail_spec {h : Heap (MboxLNode D)} {l : MboxList} {xs : List D} (x : D)
    (hl : l.Holds h xs) (hu : l.locked = false) :
    ∃ h' l', mboxListTSAddTail h l x = ok (h', l') ∧ l'.Holds h' (xs ++ [x]) ∧
      l'.locked = false := by
  have hl' : MboxList.Holds { l with locked := true } h xs := hl
  obtain ⟨h', l', hadd, hholds, -⟩ := mboxListAddTail_spec x hl'
  refine ⟨h', mboxListUnlock l', ?_, hholds, rfl⟩
  rw [mboxListTSAddTail, mboxListLock, hu, if_neg Bool.false_ne_true, ok_bind, hadd, ok_bind]
  rfl

end Libmbox2
