import Libmbox2.LinkedList

/-!
# The list is a deque

Adding and removing at both ends, and putting one list behind another, is described by what
it does to the ring of a list (`mboxListAddHead_at`, …). The two ends are the same up to
turning the ring (`Ring.rotate`): a new head is a new tail that the root then points to, and
the head is taken out as the last node of the ring turned by one.

Lists live in one heap. `Lists` is such a heap with the lists in it, `Deques` what they
hold, and `Lists.run_refines` says that any sequence of operations does to the lists what it
does to the deques.
-/

namespace Libmbox2

open CSem CSem.Exec

variable {D : Type} {h : Heap (MboxLNode D)} {l : MboxList} {ps qs : List ℕ} {xs ys : List D}
  {a : ℕ} {x : D} {next prev next' prev' : ℕ → Ptr}

/-! ## Adding -/

/-- A new head is a new tail that the root then points to. -/
theorem mboxListAddHead_eq (h : Heap (MboxLNode D)) (l : MboxList) (x : D) :
    mboxListAddHead h l x = mboxListAddTail h l x >>= fun r =>
      ok (r.1, { r.2 with root := (h.alloc ⟨x, none, none⟩).1 }) := by
  by_cases hroot : l.root = none
  · simp only [mboxListAddHead, mboxListAddTail, mboxLNodeNew, if_pos hroot, bind_assoc, pure_eq,
      ok_bind]
  · simp only [mboxListAddHead, mboxListAddTail, mboxLNodeNew, if_neg hroot, bind_assoc, pure_eq,
      ok_bind]

/-- **A node is added in front of the first one**, and no cell outside of the list changes. -/
theorem mboxListAddHead_at (x : D) (hl : l.At h ps xs) :
    ∃ a h', mboxListAddHead h l x = ok (h', { l with root := some a, len := l.len + 1 }) ∧
      Ring h' (a :: ps) (x :: xs) ∧ h.get (some a) = none ∧ h.EqOff (ps ++ [a]) h' := by
  obtain ⟨a, h', hadd, ha, hr, hnew, hoff⟩ := mboxListAddTail_at x hl
  refine ⟨a, h', ?_, ?_, hnew, hoff⟩
  · rw [mboxListAddHead_eq, hadd, ok_bind, ha]
  · have hturn := hr.rotate xs.length
    rw [List.rotate_append_length_eq] at hturn
    have hps : ps.length = xs.length := hl.ring.length
    rw [← hps, List.rotate_append_length_eq] at hturn
    exact hturn

/-! ## Removing -/

/-- Without the last one the nodes are linked as before. -/
theorem Links.dropLast (hr : Links h (ps ++ [a]) (xs ++ [x]) next prev) :
    Links h ps xs next prev := by
  have hlen := hr.length
  rw [List.length_append, List.length_append, List.length_singleton, List.length_singleton] at hlen
  refine ⟨by omega, (List.nodup_append.mp hr.nodup).1, fun i y hy => ?_⟩
  have hi := (List.getElem?_eq_some_iff.mp hy).1
  have hnode := hr.node i y (by rw [List.getElem?_append_left hi, hy])
  rwa [List.getElem?_append_left (by omega)] at hnode

/-- The last node is freed once its neighbours point to each other. -/
theorem free_last (hxs : xs ≠ []) (hr : Links h (ps ++ [a]) (xs ++ [x])
      (Function.update (nextAt (ps ++ [a])) (xs.length - 1) ps[0]?)
      (Function.update (prevAt (ps ++ [a])) 0 ps[xs.length - 1]?)) :
    ∃ h', h.free (some a) = ok h' ∧ Ring h' ps xs ∧ h.EqOff (ps ++ [a]) h' := by
  have hps : ps.length = xs.length := hr.dropLast.length
  have hpos := List.length_pos_iff.mpr hxs
  have hlast : (ps ++ [a])[xs.length]? = some a := by
    rw [← hps, List.getElem?_concat_length]
  have hnode := hr.get_append
  rw [hlast] at hnode
  obtain ⟨h', hfree, hget, -⟩ := Heap.free_spec hnode
  have hfresh : ps.Disjoint [a] := List.disjoint_of_nodup_append hr.nodup
  have hoff : h.EqOff [a] h' := Heap.EqOff.of_update (List.mem_singleton_self a) hget
  refine ⟨h', hfree, (hr.dropLast.frame hoff hfresh).ring fun i hi => ?_,
    hoff.mono (List.subset_append_right ps [a])⟩
  have hold (j : ℕ) (hj : j < xs.length) : (ps ++ [a])[j]? = ps[j]? :=
    List.getElem?_append_left (by omega)
  have hlen : (ps ++ [a]).length = xs.length + 1 := by
    rw [List.length_append, List.length_singleton, hps]
  rw [Function.update_apply, Function.update_apply]
  constructor
  · split
    · next h1 => rw [nextAt, if_pos (by omega)]
    · next h1 => rw [nextAt, nextAt, if_neg (by omega), if_neg (by omega), hold _ (by omega)]
  · split
    · next h1 => rw [prevAt, if_pos h1, hps]
    · next h1 => rw [prevAt, prevAt, if_neg h1, if_neg h1, hold _ (by omega)]

/-- The node in front of the first one is the last one. -/
theorem prevAt_zero_concat (ps : List ℕ) (a : ℕ) : prevAt (ps ++ [a]) 0 = some a := by
  rw [prevAt, if_pos rfl, List.length_append, List.length_singleton, Nat.add_sub_cancel,
    List.getElem?_concat_length]

/-- **The last node is taken out**: the two nodes around it are linked, and its cell is freed. -/
theorem mboxListRemoveTail_at (hl : l.At h (ps ++ [a]) (xs ++ [x])) :
    ∃ h', mboxListRemoveTail h l =
        ok (some x, h', { l with root := ps[0]?, len := l.len - 1 }) ∧
      Ring h' ps xs ∧ h.EqOff (ps ++ [a]) h' := by
  obtain ⟨hr, hroot, hlen⟩ := hl
  have hps : ps.length = xs.length := (Links.dropLast hr).length
  have hlen' : l.len = xs.length + 1 := by rw [hlen, List.length_append, List.length_singleton]
  have hfirst := Heap.load_eq (hr.get_lt (i := 0) (by simp))
  rw [← hroot, prevAt_zero_concat] at hfirst
  have hlast := hr.get_append
  rw [← hps, List.getElem?_concat_length] at hlast
  have hne : ¬ l.len = 0 := by omega
  rcases eq_or_ne xs [] with rfl | hxs
  · obtain rfl : ps = [] := List.length_eq_zero_iff.mp hps
    obtain ⟨h', hfree, hget, -⟩ := Heap.free_spec hlast
    refine ⟨h', ?_, ⟨rfl, List.nodup_nil, fun _ _ hx => nomatch hx⟩,
      Heap.EqOff.of_update (List.mem_singleton_self a) hget⟩
    have hone : l.len = 1 := hlen'
    simp only [mboxListRemoveTail, if_neg hne, hfirst, Heap.load_eq hlast, if_pos hone, hfree,
      ok_bind, pure_eq]
    rfl
  · -- the two neighbours point to each other before the node is freed
    have hpos := List.length_pos_iff.mpr hxs
    have hlength : (xs ++ [x]).length = xs.length + 1 := by simp
    have hold (j : ℕ) (hj : j < xs.length) : (ps ++ [a])[j]? = ps[j]? :=
      List.getElem?_append_left (by omega)
    have htail : prevAt (ps ++ [a]) ps.length = ps[xs.length - 1]? := by
      rw [prevAt, if_neg (by omega), hps, hold _ (by omega)]
    obtain ⟨h₁, hh₁, hr₁, hoff₁⟩ := hr.setPrev (j := 0) (by omega) ps[xs.length - 1]?
    obtain ⟨h₂, hh₂, hr₂, hoff₂⟩ := hr₁.setNext (j := xs.length - 1) (by omega) ps[0]?
    rw [← hroot] at hh₁
    rw [hold _ (by omega), ← hold 0 hpos, ← hroot] at hh₂
    obtain ⟨h₃, hfree, hr₃, hoff₃⟩ := free_last hxs hr₂
    have hmany : ¬ l.len = 1 := by omega
    refine ⟨h₃, ?_, hr₃, (hoff₁.trans hoff₂).trans hoff₃⟩
    simp only [mboxListRemoveTail, if_neg hne, hfirst, Heap.load_eq hlast, if_neg hmany, htail,
      hh₁, hh₂, hfree, ok_bind, pure_eq]
    rw [hroot, hold 0 hpos]

/-- **The first node is taken out**: the second one is the root, the links around it are closed, and
the first element is returned. -/
theorem mboxListRemoveHead_at (hl : l.At h (a :: ps) (x :: xs)) :
    ∃ h', mboxListRemoveHead h l =
        ok (some x, h', { l with root := ps[0]?, len := l.len - 1 }) ∧
      Ring h' ps xs ∧ h.EqOff (a :: ps) h' := by
  obtain ⟨hr, hroot, hlen⟩ := hl
  -- the head is the last node of the ring turned by one
  have hturn := hr.rotate 1
  rw [List.rotate_cons_succ, List.rotate_cons_succ, List.rotate_zero, List.rotate_zero] at hturn
  have hps : ps.length = xs.length := (Links.dropLast hturn).length
  have hsub : ps ++ [a] ⊆ a :: ps := by
    intro b hb
    rw [List.mem_append, List.mem_singleton] at hb
    exact List.mem_cons.mpr hb.symm
  have hlast := hturn.get_append
  rw [← hps, List.getElem?_concat_length] at hlast
  have hhead : l.root = some a := hroot
  have hload := Heap.load_eq hlast
  rw [← hhead] at hload
  have hne : ¬ (l.len = 0 ∨ l.root = none) := by
    rw [hlen, hhead]
    simp
  rcases eq_or_ne xs [] with rfl | hxs
  · obtain rfl : ps = [] := List.length_eq_zero_iff.mp hps
    obtain ⟨h', hfree, hget, -⟩ := Heap.free_spec hlast
    refine ⟨h', ?_, ⟨rfl, List.nodup_nil, fun _ _ hx => nomatch hx⟩,
      Heap.EqOff.of_update (List.mem_singleton_self a) hget⟩
    have hone : l.len = 1 := hlen
    rw [← hhead] at hfree
    simp only [mboxListRemoveHead, if_neg hne, hload, if_pos hone, hfree, ok_bind, pure_eq]
    rfl
  · have hpos := List.length_pos_iff.mpr hxs
    have hlength : (xs ++ [x]).length = xs.length + 1 := by simp
    have hold (j : ℕ) (hj : j < xs.length) : (ps ++ [a])[j]? = ps[j]? :=
      List.getElem?_append_left (by omega)
    have htail : prevAt (ps ++ [a]) ps.length = ps[xs.length - 1]? := by
      rw [prevAt, if_neg (by omega), hps, hold _ (by omega)]
    have hnext : nextAt (ps ++ [a]) ps.length = ps[0]? := by
      rw [nextAt, if_pos (by simp), hold _ (by omega)]
    obtain ⟨h₁, hh₁, hr₁, hoff₁⟩ := hturn.setNext (j := xs.length - 1) (by omega) ps[0]?
    obtain ⟨h₂, hh₂, hr₂, hoff₂⟩ := hr₁.setPrev (j := 0) (by omega) ps[xs.length - 1]?
    rw [hold _ (by omega)] at hh₁ hh₂
    obtain ⟨h₃, hfree, hr₃, hoff₃⟩ := free_last hxs hr₂
    have hmany : ¬ l.len = 1 := by
      rw [hlen, List.length_cons]
      omega
    rw [← hhead] at hfree
    refine ⟨h₃, ?_, hr₃, ((hoff₁.trans hoff₂).trans hoff₃).mono hsub⟩
    simp only [mboxListRemoveHead, if_neg hne, hload, if_neg hmany, htail, hnext, hh₁, hh₂, hfree,
      ok_bind, pure_eq]

/-! ## Putting a list behind another -/

/-- Nodes of two lists side by side, each linked as in its list. -/
theorem Links.append (h₁ : Links h ps xs next prev) (h₂ : Links h qs ys next' prev')
    (hdisj : ps.Disjoint qs) :
    Links h (ps ++ qs) (xs ++ ys)
      (fun i => if i < xs.length then next i else next' (i - xs.length))
      (fun i => if i < xs.length then prev i else prev' (i - xs.length)) := by
  have hlen := h₁.length
  refine ⟨by rw [List.length_append, List.length_append, hlen, h₂.length],
    List.nodup_append'.mpr ⟨h₁.nodup, h₂.nodup, hdisj⟩, fun i z hz => ?_⟩
  by_cases hi : i < xs.length
  · rw [List.getElem?_append_left hi] at hz
    rw [List.getElem?_append_left (by omega), if_pos hi, if_pos hi, h₁.node i z hz]
  · rw [List.getElem?_append_right (by omega)] at hz
    rw [List.getElem?_append_right (by omega), if_neg hi, if_neg hi, hlen, h₂.node _ z hz]

/-- **The nodes of `aux` are put behind those of `main`**: four links change, at the two seams. -/
theorem mboxListAppendListTail_at {main aux : MboxList} (hmain : main.At h ps xs)
    (haux : aux.At h qs ys) (hdisj : ps.Disjoint qs) :
    ∃ h', mboxListAppendListTail h main aux =
        ok (h', { main with root := (ps ++ qs)[0]?, len := main.len + aux.len }) ∧
      Ring h' (ps ++ qs) (xs ++ ys) ∧ h.EqOff (ps ++ qs) h' := by
  obtain ⟨hr, hroot, hlen⟩ := hmain
  obtain ⟨hr', hroot', hlen'⟩ := haux
  have hps : ps.length = xs.length := hr.length
  have hqs : qs.length = ys.length := hr'.length
  rcases eq_or_ne ys [] with rfl | hys
  · -- there is nothing to append
    obtain rfl : qs = [] := List.length_eq_zero_iff.mp hqs
    rw [List.length_nil] at hlen'
    refine ⟨h, ?_, ?_, Heap.EqOff.refl _ _⟩
    · rw [mboxListAppendListTail, if_pos hlen', List.append_nil, ← hroot, hlen']
      rfl
    · rw [List.append_nil, List.append_nil]
      exact hr
  have hpos' := List.length_pos_iff.mpr hys
  have hne' : ¬ aux.len = 0 := by omega
  rcases eq_or_ne xs [] with rfl | hxs
  · -- all nodes are those of `aux`
    obtain rfl : ps = [] := List.length_eq_zero_iff.mp hps
    rw [List.length_nil] at hlen
    refine ⟨h, ?_, hr', Heap.EqOff.refl _ _⟩
    rw [mboxListAppendListTail, if_neg hne', if_pos hlen, hroot']
    rfl
  have hpos := List.length_pos_iff.mpr hxs
  have hne : ¬ main.len = 0 := by omega
  have hfirst := Heap.load_eq (hr.get_lt hpos)
  have hfirst' := Heap.load_eq (hr'.get_lt hpos')
  rw [← hroot] at hfirst
  rw [← hroot'] at hfirst'
  have htail : prevAt ps 0 = (ps ++ qs)[xs.length - 1]? := by
    rw [prevAt, if_pos rfl, List.getElem?_append_left (by omega), hps]
  have htail' : prevAt qs 0 = (ps ++ qs)[xs.length + ys.length - 1]? := by
    rw [prevAt, if_pos rfl, List.getElem?_append_right (by omega), hqs, hps]
    congr 1
    omega
  have hhead : main.root = (ps ++ qs)[0]? := by
    rw [hroot, List.getElem?_append_left (by omega)]
  have hhead' : aux.root = (ps ++ qs)[xs.length]? := by
    rw [hroot', List.getElem?_append_right (by omega), hps, Nat.sub_self]
  have hlength : (xs ++ ys).length = xs.length + ys.length := List.length_append
  -- the four links at the two seams, in the order in which they are set
  obtain ⟨h₁, hh₁, hr₁, hoff₁⟩ :=
    (hr.append hr' hdisj).setPrev (j := xs.length) (by omega) (prevAt ps 0)
  obtain ⟨h₂, hh₂, hr₂, hoff₂⟩ := hr₁.setNext (j := xs.length - 1) (by omega) aux.root
  obtain ⟨h₃, hh₃, hr₃, hoff₃⟩ := hr₂.setPrev (j := 0) (by omega) (prevAt qs 0)
  obtain ⟨h₄, hh₄, hr₄, hoff₄⟩ :=
    hr₃.setNext (j := xs.length + ys.length - 1) (by omega) main.root
  rw [← hhead'] at hh₁
  rw [← htail] at hh₂
  rw [← hhead] at hh₃
  rw [← htail'] at hh₄
  refine ⟨h₄, ?_, hr₄.ring fun i hi => ?_, ((hoff₁.trans hoff₂).trans hoff₃).trans hoff₄⟩
  · simp only [mboxListAppendListTail, if_neg hne, if_neg hne', hfirst, hfirst', hh₁, hh₂, hh₃, hh₄,
      ← hhead, ok_bind, pure_eq]
  · rw [hlength] at hi
    rw [Function.update_apply, Function.update_apply, Function.update_apply,
      Function.update_apply, nextAt_join (by omega) (by omega),
      prevAt_join (by omega) (by omega), hps, hqs, hroot, hroot', prevAt, prevAt, if_pos rfl,
      if_pos rfl, hps, hqs]
    exact ⟨rfl, rfl⟩

/-! ## Walking round the ring -/

/-- The data met on `n` steps along a link, and where they end. -/
def walk (link : MboxLNode D → Ptr) (h : Heap (MboxLNode D)) : ℕ → Ptr → Exec (List D × Ptr)
  | 0, p => ok ([], p)
  | n + 1, p => do
    let node ← h.load p
    let (xs, q) ← walk link h n (link node)
    pure (node.data :: xs, q)

/-- The list is the deque `xs`, as far as walking round it can tell. -/
structure IsDeque (h : Heap (MboxLNode D)) (l : MboxList) (xs : List D) : Prop where
  len : l.len = xs.length
  root : l.root = none ↔ l.len = 0
  forward : walk MboxLNode.next h l.len l.root = ok (xs, l.root)
  /-- backwards from the tail -/
  backward : xs ≠ [] → ∃ root, h.load l.root = ok root ∧
    walk MboxLNode.prev h l.len root.prev = ok (xs.reverse, root.prev)
  /-- the ring closes backwards from the root, too -/
  closed : ∃ ys, walk MboxLNode.prev h l.len l.root = ok (ys, l.root)
  inverse : ∀ k < l.len, ∃ ys p node nx pv, walk MboxLNode.next h k l.root = ok (ys, p) ∧
    h.load p = ok node ∧ h.load node.next = ok nx ∧ nx.prev = p ∧
    h.load node.prev = ok pv ∧ pv.next = p

/-- Walking along the links reads the data in their order, and comes to the node behind them. -/
theorem walk_next (hr : Ring h ps xs) {k : ℕ} (hk : k ≤ xs.length) :
    walk MboxLNode.next h k ps[0]? = ok (xs.take k, (ps.rotate k)[0]?) := by
  induction k generalizing ps xs with
  | zero =>
    rw [List.rotate_zero]
    rfl
  | succ k ih =>
    obtain ⟨x, rest, rfl⟩ : ∃ x rest, xs = x :: rest :=
      List.exists_cons_of_ne_nil (List.length_pos_iff.mp (Nat.zero_lt_of_lt hk))
    have hps : ps.length = rest.length + 1 := hr.length
    have hnext : nextAt ps 0 = (ps.rotate 1)[0]? := by
      rw [nextAt_eq_mod (by omega), List.getElem?_rotate (by omega)]
    have hwalk := ih (hr.rotate 1) (by rw [List.length_rotate]; omega)
    rw [List.rotate_rotate, List.rotate_cons_succ, List.rotate_zero,
      List.take_append_of_le_length (by simpa using hk), Nat.add_comm 1 k] at hwalk
    rw [walk, Heap.load_eq (hr.get_lt (Nat.succ_pos _)), ok_bind, hnext, hwalk]
    rfl

/-- All the way round the walk reads what the list holds and is back at the root. -/
theorem walk_round (hr : Ring h ps xs) :
    walk MboxLNode.next h xs.length ps[0]? = ok (xs, ps[0]?) := by
  have hps : ps.length = xs.length := hr.length
  have hwalk := walk_next hr (le_refl xs.length)
  rwa [← hps, List.rotate_length, hps, List.take_length] at hwalk

/-- What a list holds is read off its ring, so a list holds one list of data. -/
theorem MboxList.Holds.unique {l : MboxList} {ys : List D} (hx : l.Holds h xs)
    (hy : l.Holds h ys) : xs = ys := by
  obtain ⟨ps, hring, hroot, hlen⟩ := hx
  obtain ⟨qs, hring', hroot', hlen'⟩ := hy
  have hwalk := walk_round hring
  have hwalk' := walk_round hring'
  rw [← hlen, ← hroot] at hwalk
  rw [← hlen', ← hroot', hwalk] at hwalk'
  exact congrArg Prod.fst (Exec.ok.inj hwalk')

/-- A node whose links have changed places: what was behind it is in front. -/
def MboxLNode.flip (node : MboxLNode D) : MboxLNode D := ⟨node.data, node.prev, node.next⟩

/-- The heap with the links of every node exchanged, for statements about walking backwards. -/
def flipHeap (h : Heap (MboxLNode D)) : Heap (MboxLNode D) :=
  ⟨h.cells.map (Option.map MboxLNode.flip)⟩

/-- Its cells are the flipped cells. -/
theorem get_flipHeap (h : Heap (MboxLNode D)) (p : Ptr) :
    (flipHeap h).get p = (h.get p).map MboxLNode.flip := by
  cases p with
  | none => rfl
  | some a =>
    rw [Heap.get, Heap.get, flipHeap, List.getElem?_map]
    cases h.cells[a]? with
    | none => rfl
    | some o => rfl

/-- A ring read backwards is a ring, of the data in reverse. -/
theorem Ring.flip (hr : Ring h ps xs) : Ring (flipHeap h) ps.reverse xs.reverse := by
  have hlen : ps.length = xs.length := hr.length
  refine ⟨by rw [List.length_reverse, List.length_reverse, hlen],
    List.nodup_reverse.mpr hr.nodup, fun i x hx => ?_⟩
  have hi := (List.getElem?_eq_some_iff.mp hx).1
  rw [List.length_reverse] at hi
  rw [List.getElem?_reverse hi] at hx
  obtain ⟨j, hj, hji⟩ : ∃ j, xs.length - 1 - i = j ∧ i = xs.length - 1 - j :=
    ⟨_, rfl, by omega⟩
  rw [hj] at hx
  have hnext : nextAt ps.reverse i = prevAt ps j := by
    rw [nextAt, prevAt, List.length_reverse]
    by_cases hfirst : j = 0
    · rw [if_pos (by omega), if_pos hfirst, List.getElem?_reverse (by omega)]
      rfl
    · rw [if_neg (by omega), if_neg hfirst, List.getElem?_reverse (by omega)]
      congr 1
      omega
  have hprev : prevAt ps.reverse i = nextAt ps j := by
    rw [nextAt, prevAt, List.length_reverse]
    by_cases hlast : j + 1 = ps.length
    · rw [if_pos hlast, if_pos (by omega), List.getElem?_reverse (by omega)]
      congr 1
      omega
    · rw [if_neg hlast, if_neg (by omega), List.getElem?_reverse (by omega)]
      congr 1
      omega
  rw [hnext, hprev, List.getElem?_reverse (by omega), hlen, hj, get_flipHeap, hr.node j x hx]
  rfl

/-- Walking backwards is walking forwards on the flipped heap. -/
theorem walk_prev (h : Heap (MboxLNode D)) (k : ℕ) (p : Ptr) :
    walk MboxLNode.prev h k p = walk MboxLNode.next (flipHeap h) k p := by
  induction k generalizing p with
  | zero => rfl
  | succ k ih =>
    rw [walk, walk, Heap.load, Heap.load, get_flipHeap]
    cases h.get p with
    | none => rfl
    | some node =>
      rw [Option.map_some, ok_bind, ok_bind, ih]
      rfl

/-- The node behind position `i` is preceded by the one at `i`. -/
theorem Ring.get_nextAt (hr : Ring h ps xs) {i : ℕ} (hi : i < xs.length) :
    ∃ node, h.get (nextAt ps i) = some node ∧ node.prev = ps[i]? := by
  have hlen : ps.length = xs.length := hr.length
  have hj : (i + 1) % ps.length < xs.length := by
    rw [hlen]
    exact Nat.mod_lt _ (by omega)
  refine ⟨_, by rw [nextAt_eq_mod (by omega)]; exact hr.get_lt hj, ?_⟩
  have hback : i + 1 + (ps.length - 1) = i + ps.length := by omega
  simp only
  rw [prevAt_eq_mod (by omega), Nat.mod_add_mod, hback, Nat.add_mod_right,
    Nat.mod_eq_of_lt (by omega)]

/-- **A list that holds `xs` is the deque `xs`**: both traversals read it, from the front and from
the back. -/
theorem MboxList.At.isDeque (hl : l.At h ps xs) : IsDeque h l xs := by
  obtain ⟨hr, hroot, hlen⟩ := hl
  have hps : ps.length = xs.length := hr.length
  have hflip := hr.flip
  refine ⟨hlen, ?_, ?_, fun hxs => ?_, ?_, fun k hk => ?_⟩
  · rw [hroot, List.getElem?_eq_none_iff, hlen, hps, Nat.le_zero]
  · rw [hlen, hroot]
    exact walk_round hr
  · have hpos := List.length_pos_iff.mpr hxs
    refine ⟨_, by rw [hroot]; exact Heap.load_eq (hr.get_lt hpos), ?_⟩
    have htail : prevAt ps 0 = ps.reverse[0]? := by
      rw [prevAt, if_pos rfl, List.getElem?_reverse (by omega)]
      rfl
    have hwalk := walk_round hflip
    rw [List.length_reverse, ← walk_prev, ← htail, ← hlen] at hwalk
    exact hwalk
  · rcases Nat.eq_zero_or_pos xs.length with hzero | hpos
    · exact ⟨[], by rw [hlen, hzero]; rfl⟩
    · have hwalk := walk_round (hflip.rotate (xs.length - 1))
      have hstart : (ps.reverse.rotate (xs.length - 1))[0]? = ps[0]? := by
        rw [List.getElem?_rotate (by rw [List.length_reverse]; omega), List.length_reverse,
          Nat.zero_add, Nat.mod_eq_of_lt (by omega), List.getElem?_reverse (by omega), hps,
          Nat.sub_self]
      rw [hstart, List.length_rotate, List.length_reverse, ← walk_prev, ← hlen, ← hroot] at hwalk
      exact ⟨_, hwalk⟩
  · rw [hlen] at hk
    obtain ⟨nx, hnx, hnxprev⟩ := hr.get_nextAt hk
    obtain ⟨pv, hpv, hpvnext⟩ := hr.get_prevAt hk
    have hwalk := walk_next hr hk.le
    rw [← hroot] at hwalk
    have hend : (ps.rotate k)[0]? = ps[k]? := by
      rw [List.getElem?_rotate (by omega), Nat.zero_add, Nat.mod_eq_of_lt (by omega)]
    rw [hend] at hwalk
    exact ⟨_, _, _, nx, pv, hwalk, Heap.load_eq (hr.get_lt hk), Heap.load_eq hnx, hnxprev,
      Heap.load_eq hpv, hpvnext⟩

/-! ## Any number of lists -/

/-- A call of one of the functions, the lists having numbers. -/
inductive ListCall (D : Type) where
  | new (i : ℕ)
  | addHead (i : ℕ) (data : D)
  | addTail (i : ℕ) (data : D)
  | removeHead (i : ℕ)
  | removeTail (i : ℕ)
  | appendListTail (main aux : ℕ)

/-- A heap and the lists in it, which share its cells. -/
structure Lists (D : Type) where
  heap : Heap (MboxLNode D)
  list : ℕ → Option MboxList

namespace Lists

/-- A heap without a list. -/
def empty : Lists D := ⟨Heap.empty, fun _ => none⟩

/-- The call of a list that is not there is a fault. -/
def get (s : Lists D) (i : ℕ) : Exec MboxList :=
  match s.list i with
  | some l => ok l
  | none => fault

def set (s : Lists D) (h : Heap (MboxLNode D)) (i : ℕ) (l : Option MboxList) : Lists D :=
  ⟨h, Function.update s.list i l⟩

@[simp] theorem set_heap (s : Lists D) (h : Heap (MboxLNode D)) (i : ℕ) (o : Option MboxList) :
    (s.set h i o).heap = h := rfl

@[simp] theorem set_list_self (s : Lists D) (h : Heap (MboxLNode D)) (i : ℕ)
    (o : Option MboxList) : (s.set h i o).list i = o := Function.update_self ..

theorem set_list_of_ne (s : Lists D) (h : Heap (MboxLNode D)) {i k : ℕ} (hk : k ≠ i)
    (o : Option MboxList) : (s.set h i o).list k = s.list k := Function.update_of_ne hk ..

/-- What a call returns, null if it returns nothing, and what it leaves. -/
def call (s : Lists D) : ListCall D → Exec (Option D × Lists D)
  | .new i => ok (none, s.set s.heap i (some mboxListNew))
  | .addHead i x => do
    let l ← s.get i
    let (h, l) ← mboxListAddHead s.heap l x
    pure (none, s.set h i (some l))
  | .addTail i x => do
    let l ← s.get i
    let (h, l) ← mboxListAddTail s.heap l x
    pure (none, s.set h i (some l))
  | .removeHead i => do
    let l ← s.get i
    let (x, h, l) ← mboxListRemoveHead s.heap l
    pure (x, s.set h i (some l))
  | .removeTail i => do
    let l ← s.get i
    let (x, h, l) ← mboxListRemoveTail s.heap l
    pure (x, s.set h i (some l))
  | .appendListTail i j => do
    let main ← s.get i
    let aux ← s.get j
    let (h, main) ← mboxListAppendListTail s.heap main aux
    let s := s.set h j (if aux.len = 0 then some aux else none)
    pure (none, s.set h i (some main))

def run (s : Lists D) : List (ListCall D) → Exec (List (Option D) × Lists D)
  | [] => ok ([], s)
  | c :: cs => do
    let (r, s) ← s.call c
    let (rs, s) ← run s cs
    pure (r :: rs, s)

end Lists

/-- The deques that the lists stand for, by number. -/
abbrev Deques (D : Type) : Type := ℕ → Option (List D)

namespace Deques

def empty : Deques D := fun _ => none

def set (d : Deques D) (i : ℕ) (xs : Option (List D)) : Deques D := Function.update d i xs

/-- The same calls on deques; `none` is a call on a deque that is not there, or one that
puts a deque behind itself. -/
def call (d : Deques D) : ListCall D → Option (Option D × Deques D)
  | .new i => some (none, d.set i (some []))
  | .addHead i x => do
    let xs ← d i
    pure (none, d.set i (some (x :: xs)))
  | .addTail i x => do
    let xs ← d i
    pure (none, d.set i (some (xs ++ [x])))
  | .removeHead i => do
    let xs ← d i
    pure (xs.head?, d.set i (some xs.tail))
  | .removeTail i => do
    let xs ← d i
    pure (xs.getLast?, d.set i (some xs.dropLast))
  | .appendListTail i j =>
    if i = j then none else do
    let xs ← d i
    let ys ← d j
    pure (none, (d.set j (if ys = [] then some [] else none)).set i (some (xs ++ ys)))

def run (d : Deques D) : List (ListCall D) → Option (List (Option D) × Deques D)
  | [] => some ([], d)
  | c :: cs => do
    let (r, d) ← d.call c
    let (rs, d) ← run d cs
    pure (r :: rs, d)

end Deques

/-- The lists hold the deques, each at addresses of its own. -/
structure Lists.Hold (s : Lists D) (d : Deques D) (addr : ℕ → List ℕ) : Prop where
  held : ∀ i xs, d i = some xs → ∃ l, s.list i = some l ∧ l.At s.heap (addr i) xs
  gone : ∀ i, d i = none → s.list i = none ∧ addr i = []
  apart : ∀ i j, i ≠ j → (addr i).Disjoint (addr j)

namespace Lists.Hold

variable {s : Lists D} {d : Deques D} {addr : ℕ → List ℕ} {i j : ℕ} {h' : Heap (MboxLNode D)}
  {l' : MboxList}

/-- A list that stands for a deque is there, and holds it. -/
theorem get_eq (hs : s.Hold d addr) (hi : d i = some xs) :
    ∃ l, s.get i = ok l ∧ l.At s.heap (addr i) xs := by
  obtain ⟨l, hl, hat⟩ := hs.held i xs hi
  exact ⟨l, by rw [Lists.get, hl], hat⟩

/-- A new address is no other list's. -/
theorem disjoint_new (hs : s.Hold d addr) (hnew : s.heap.get (some a) = none) (hij : i ≠ j) :
    (addr j).Disjoint (addr i ++ [a]) := by
  refine List.disjoint_append_right.mpr ⟨hs.apart j i hij.symm, ?_⟩
  rw [List.disjoint_singleton]
  cases hj : d j with
  | none =>
    rw [(hs.gone j hj).2]
    exact List.not_mem_nil
  | some ys =>
    obtain ⟨l, -, hat⟩ := hs.held j ys hj
    exact hat.ring.not_mem hnew

/-- A list changes; it only touches what is no other list's. -/
theorem set (hs : s.Hold d addr) (hat : l'.At h' ps xs) (hoff : s.heap.EqOff qs h')
    (hsub : ps ⊆ qs) (hdisj : ∀ j, i ≠ j → (addr j).Disjoint qs) :
    (s.set h' i (some l')).Hold (d.set i (some xs)) (Function.update addr i ps) := by
  refine ⟨fun k zs hk => ?_, fun k hk => ?_, fun k m hkm => ?_⟩
  · by_cases hki : k = i
    · subst hki
      rw [Deques.set, Function.update_self] at hk
      obtain rfl := Option.some.inj hk
      rw [set_list_self, Function.update_self]
      exact ⟨l', rfl, hat⟩
    · rw [Deques.set, Function.update_of_ne hki] at hk
      obtain ⟨l, hl, hold⟩ := hs.held k zs hk
      rw [set_list_of_ne _ _ hki, Function.update_of_ne hki]
      exact ⟨l, hl, hold.ring.frame hoff (hdisj k (Ne.symm hki)), hold.root, hold.len⟩
  · by_cases hki : k = i
    · subst hki
      rw [Deques.set, Function.update_self] at hk
      cases hk
    · rw [Deques.set, Function.update_of_ne hki] at hk
      rw [set_list_of_ne _ _ hki, Function.update_of_ne hki]
      exact hs.gone k hk
  · rw [Function.update_apply, Function.update_apply]
    split
    · next hki =>
      rw [if_neg fun hmi => hkm (hki.trans hmi.symm)]
      exact List.disjoint_symm
        (List.disjoint_of_subset_right hsub (hdisj m fun him => hkm (hki.trans him)))
    · next hki =>
      split
      · exact List.disjoint_of_subset_right hsub (hdisj k (Ne.symm hki))
      · exact hs.apart k m hkm

/-- A list goes, and with it its addresses. The nodes it had are not freed here. -/
theorem drop (hs : s.Hold d addr) (i : ℕ) :
    (s.set s.heap i none).Hold (d.set i none) (Function.update addr i []) := by
  refine ⟨fun k zs hk => ?_, fun k hk => ?_, fun k m hkm => ?_⟩
  · have hki : k ≠ i := by
      rintro rfl
      rw [Deques.set, Function.update_self] at hk
      cases hk
    rw [Deques.set, Function.update_of_ne hki] at hk
    rw [set_list_of_ne _ _ hki, Function.update_of_ne hki]
    exact hs.held k zs hk
  · by_cases hki : k = i
    · subst hki
      rw [set_list_self, Function.update_self]
      exact ⟨rfl, rfl⟩
    · rw [Deques.set, Function.update_of_ne hki] at hk
      rw [set_list_of_ne _ _ hki, Function.update_of_ne hki]
      exact hs.gone k hk
  · rw [Function.update_apply, Function.update_apply]
    split
    · exact List.disjoint_nil_left _
    · split
      · exact List.disjoint_nil_right _
      · exact hs.apart k m hkm

theorem new (hs : s.Hold d addr) (i : ℕ) :
    (s.set s.heap i (some mboxListNew)).Hold (d.set i (some [])) (Function.update addr i []) :=
  hs.set (mboxListNew_at s.heap) (Heap.EqOff.refl [] s.heap) (List.Subset.refl [])
    fun _ _ => List.disjoint_nil_right _

/-- `mboxListAddHead` puts an element in front of the deque, and leaves the others as they are. -/
theorem addHead (hs : s.Hold d addr) (hi : d i = some xs) (x : D) :
    ∃ s' addr', s.call (.addHead i x) = ok (none, s') ∧
      s'.Hold (d.set i (some (x :: xs))) addr' := by
  obtain ⟨l, hget, hat⟩ := hs.get_eq hi
  obtain ⟨a, h', hcall, hr, hnew, hoff⟩ := mboxListAddHead_at x hat
  have hat' : MboxList.At { l with root := some a, len := l.len + 1 } h' (a :: addr i)
      (x :: xs) := ⟨hr, rfl, congrArg (· + 1) hat.len⟩
  refine ⟨_, _, ?_, hs.set hat' hoff ?_ fun j hij => hs.disjoint_new hnew hij⟩
  · rw [Lists.call, hget, ok_bind, hcall]
    rfl
  · intro b hb
    rw [List.mem_append, List.mem_singleton]
    exact (List.mem_cons.mp hb).symm

/-- `mboxListAddTail` puts it behind. -/
theorem addTail (hs : s.Hold d addr) (hi : d i = some xs) (x : D) :
    ∃ s' addr', s.call (.addTail i x) = ok (none, s') ∧
      s'.Hold (d.set i (some (xs ++ [x]))) addr' := by
  obtain ⟨l, hget, hat⟩ := hs.get_eq hi
  obtain ⟨a, h', hcall, -, hr, hnew, hoff⟩ := mboxListAddTail_at x hat
  have hat' : MboxList.At { l with root := (addr i ++ [a])[0]?, len := l.len + 1 } h'
      (addr i ++ [a]) (xs ++ [x]) := by
    refine ⟨hr, rfl, ?_⟩
    rw [List.length_append, List.length_singleton, hat.len]
  refine ⟨_, _, ?_, hs.set hat' hoff (List.Subset.refl _) fun j hij => hs.disjoint_new hnew hij⟩
  rw [Lists.call, hget, ok_bind, hcall]
  rfl

/-- `mboxListRemoveHead` takes the first element, or nothing from an empty deque. -/
theorem removeHead (hs : s.Hold d addr) (hi : d i = some xs) :
    ∃ s' addr', s.call (.removeHead i) = ok (xs.head?, s') ∧
      s'.Hold (d.set i (some xs.tail)) addr' := by
  obtain ⟨l, hget, hat⟩ := hs.get_eq hi
  cases xs with
  | nil =>
    refine ⟨_, _, ?_, hs.set hat (Heap.EqOff.refl (addr i) s.heap) (List.Subset.refl _)
      fun j hij => hs.apart j i hij.symm⟩
    have hzero : l.len = 0 := hat.len
    rw [Lists.call, hget, ok_bind, mboxListRemoveHead, if_pos (Or.inl hzero)]
    rfl
  | cons x xs =>
    obtain ⟨a, ps, haddr⟩ : ∃ a ps, addr i = a :: ps :=
      List.exists_cons_of_ne_nil (List.length_pos_iff.mp (by
        rw [hat.ring.length]
        exact Nat.succ_pos _))
    rw [haddr] at hat
    obtain ⟨h', hcall, hr, hoff⟩ := mboxListRemoveHead_at hat
    have hat' : MboxList.At { l with root := ps[0]?, len := l.len - 1 } h' ps xs :=
      ⟨hr, rfl, congrArg (· - 1) hat.len⟩
    refine ⟨_, _, ?_, hs.set hat' hoff (List.subset_cons_self a ps) fun j hij => ?_⟩
    · rw [Lists.call, hget, ok_bind, hcall]
      rfl
    · rw [← haddr]
      exact hs.apart j i hij.symm

/-- `mboxListRemoveTail` takes the last one. -/
theorem removeTail (hs : s.Hold d addr) (hi : d i = some xs) :
    ∃ s' addr', s.call (.removeTail i) = ok (xs.getLast?, s') ∧
      s'.Hold (d.set i (some xs.dropLast)) addr' := by
  obtain ⟨l, hget, hat⟩ := hs.get_eq hi
  rcases List.eq_nil_or_concat' xs with rfl | ⟨xs, x, rfl⟩
  · refine ⟨_, _, ?_, hs.set hat (Heap.EqOff.refl (addr i) s.heap) (List.Subset.refl _)
      fun j hij => hs.apart j i hij.symm⟩
    have hzero : l.len = 0 := hat.len
    rw [Lists.call, hget, ok_bind, mboxListRemoveTail, if_pos hzero]
    rfl
  · obtain ⟨ps, a, haddr⟩ : ∃ ps a, addr i = ps ++ [a] := by
      refine (List.eq_nil_or_concat' (addr i)).resolve_left fun hnil => ?_
      have hlen := hat.ring.length
      rw [hnil, List.length_append] at hlen
      cases hlen
    rw [haddr] at hat
    obtain ⟨h', hcall, hr, hoff⟩ := mboxListRemoveTail_at hat
    rw [List.getLast?_concat, List.dropLast_concat]
    have hat' : MboxList.At { l with root := ps[0]?, len := l.len - 1 } h' ps xs := by
      refine ⟨hr, rfl, ?_⟩
      rw [hat.len, List.length_append, List.length_singleton, Nat.add_sub_cancel]
    refine ⟨_, _, ?_, hs.set hat' hoff (List.subset_append_left ps [a]) fun j hij => ?_⟩
    · rw [Lists.call, hget, ok_bind, hcall]
      rfl
    · rw [← haddr]
      exact hs.apart j i hij.symm

/-- The list that is put behind another one is gone, unless it is empty. -/
theorem aux (hs : s.Hold d addr) {l : MboxList} (hat : l.At s.heap (addr j) ys) :
    (s.set s.heap j (if l.len = 0 then some l else none)).Hold
      (d.set j (if ys = [] then some [] else none)) (Function.update addr j []) := by
  rcases eq_or_ne ys [] with rfl | hys
  · have hnil : addr j = [] := List.length_eq_zero_iff.mp hat.ring.length
    rw [hnil] at hat
    have hzero : l.len = 0 := hat.len
    rw [if_pos hzero, if_pos rfl]
    exact hs.set hat (Heap.EqOff.refl [] s.heap) (List.Subset.refl [])
      fun _ _ => List.disjoint_nil_right _
  · have hpos : l.len ≠ 0 := by
      rw [hat.len]
      exact (List.length_pos_iff.mpr hys).ne'
    rw [if_neg hpos, if_neg hys]
    exact hs.drop j

/-- `mboxListAppendListTail` puts the second deque behind the first; a list that gave its nodes away
is gone. -/
theorem appendListTail (hs : s.Hold d addr) (hi : d i = some xs) (hj : d j = some ys)
    (hij : i ≠ j) :
    ∃ s' addr', s.call (.appendListTail i j) = ok (none, s') ∧
      s'.Hold ((d.set j (if ys = [] then some [] else none)).set i (some (xs ++ ys))) addr' := by
  obtain ⟨l, hget, hat⟩ := hs.get_eq hi
  obtain ⟨m, hget', hat'⟩ := hs.get_eq hj
  obtain ⟨h', hcall, hr, hoff⟩ := mboxListAppendListTail_at hat hat' (hs.apart i j hij)
  have hboth : MboxList.At { l with root := (addr i ++ addr j)[0]?, len := l.len + m.len } h'
      (addr i ++ addr j) (xs ++ ys) := by
    refine ⟨hr, rfl, ?_⟩
    rw [List.length_append, hat.len, hat'.len]
  refine ⟨_, _, ?_, (hs.aux hat').set hboth hoff (List.Subset.refl _) fun k hik => ?_⟩
  · rw [Lists.call, hget, ok_bind, hget', ok_bind, hcall]
    rfl
  · rw [Function.update_apply]
    split
    · exact List.disjoint_nil_left _
    · next hkj =>
      exact List.disjoint_append_right.mpr ⟨hs.apart k i hik.symm, hs.apart k j hkj⟩

end Lists.Hold

/-- **A call does to the lists what it does to the deques**, and returns the same; the nodes of
different lists stay apart. -/
theorem Lists.call_refines {s : Lists D} {d d' : Deques D} {addr : ℕ → List ℕ} {c : ListCall D}
    {r : Option D} (hs : s.Hold d addr) (hcall : d.call c = some (r, d')) :
    ∃ s' addr', s.call c = ok (r, s') ∧ s'.Hold d' addr' := by
  cases c with
  | new i =>
    obtain ⟨rfl, rfl⟩ := Prod.mk.inj (Option.some.inj hcall)
    exact ⟨_, _, rfl, hs.new i⟩
  | addHead i x =>
    obtain ⟨xs, hi, hd⟩ := Option.bind_eq_some_iff.mp hcall
    obtain ⟨rfl, rfl⟩ := Prod.mk.inj (Option.some.inj hd)
    exact hs.addHead hi x
  | addTail i x =>
    obtain ⟨xs, hi, hd⟩ := Option.bind_eq_some_iff.mp hcall
    obtain ⟨rfl, rfl⟩ := Prod.mk.inj (Option.some.inj hd)
    exact hs.addTail hi x
  | removeHead i =>
    obtain ⟨xs, hi, hd⟩ := Option.bind_eq_some_iff.mp hcall
    obtain ⟨rfl, rfl⟩ := Prod.mk.inj (Option.some.inj hd)
    exact hs.removeHead hi
  | removeTail i =>
    obtain ⟨xs, hi, hd⟩ := Option.bind_eq_some_iff.mp hcall
    obtain ⟨rfl, rfl⟩ := Prod.mk.inj (Option.some.inj hd)
    exact hs.removeTail hi
  | appendListTail i j =>
    rw [Deques.call] at hcall
    by_cases hij : i = j
    · rw [if_pos hij] at hcall
      cases hcall
    · rw [if_neg hij] at hcall
      obtain ⟨xs, hi, hd⟩ := Option.bind_eq_some_iff.mp hcall
      obtain ⟨ys, hj, hd⟩ := Option.bind_eq_some_iff.mp hd
      obtain ⟨rfl, rfl⟩ := Prod.mk.inj (Option.some.inj hd)
      exact hs.appendListTail hi hj hij

/-- **A run of calls** on the lists does what it does on the deques, and returns the same. -/
theorem Lists.run_hold {s : Lists D} {d d' : Deques D} {addr : ℕ → List ℕ} {rs : List (Option D)}
    (cs : List (ListCall D)) (hs : s.Hold d addr) (hrun : d.run cs = some (rs, d')) :
    ∃ s' addr', s.run cs = ok (rs, s') ∧ s'.Hold d' addr' := by
  induction cs generalizing s d addr rs with
  | nil =>
    obtain ⟨rfl, rfl⟩ := Prod.mk.inj (Option.some.inj hrun)
    exact ⟨s, addr, rfl, hs⟩
  | cons c cs ih =>
    obtain ⟨⟨r, d₁⟩, hcall, hrest⟩ := Option.bind_eq_some_iff.mp hrun
    obtain ⟨⟨rs', d₂⟩, hrun', hd⟩ := Option.bind_eq_some_iff.mp hrest
    obtain ⟨rfl, rfl⟩ := Prod.mk.inj (Option.some.inj hd)
    obtain ⟨s₁, addr₁, hcall₁, hs₁⟩ := Lists.call_refines hs hcall
    obtain ⟨s₂, addr₂, hrun₂, hs₂⟩ := ih hs₁ hrun'
    refine ⟨s₂, addr₂, ?_, hs₂⟩
    simp only [Lists.run, hcall₁, hrun₂, ok_bind, pure_eq]

theorem Lists.empty_hold : (Lists.empty : Lists D).Hold Deques.empty fun _ => [] :=
  ⟨(fun _ _ hi => nomatch hi), fun _ _ => ⟨rfl, rfl⟩, fun _ _ _ => List.disjoint_nil_left _⟩

/-- **The lists refine the deques**: any sequence of calls returns what it returns on the
deques, and every list it leaves is the deque it leaves. -/
theorem Lists.run_refines (cs : List (ListCall D)) {rs : List (Option D)} {d : Deques D}
    (hrun : Deques.empty.run cs = some (rs, d)) :
    ∃ s, Lists.empty.run cs = ok (rs, s) ∧
      ∀ i xs, d i = some xs → ∃ l, s.list i = some l ∧ IsDeque s.heap l xs := by
  obtain ⟨s, addr, hs, hold⟩ := Lists.run_hold cs Lists.empty_hold hrun
  refine ⟨s, hs, fun i xs hi => ?_⟩
  obtain ⟨l, hl, hat⟩ := hold.held i xs hi
  exact ⟨l, hl, hat.isDeque⟩

/-- Two lists are filled, put together and emptied from both ends. -/
theorem Lists.run_refines_twoLists :
    ∃ s, Lists.empty.run [.new 0, .addTail 0 1, .new 1, .addHead 1 2, .addTail 1 3,
        .appendListTail 0 1, .removeTail 0, .removeHead 0] =
        ok ([none, none, none, none, none, none, some 3, some 1], s) ∧
      ∃ l, s.list 0 = some l ∧ IsDeque s.heap l [2] := by
  obtain ⟨s, hrun, hlists⟩ := Lists.run_refines [.new 0, .addTail 0 1, .new 1, .addHead 1 2,
    .addTail 1 3, .appendListTail 0 1, .removeTail 0, .removeHead 0] rfl
  exact ⟨s, hrun, hlists 0 [2] rfl⟩

end Libmbox2
