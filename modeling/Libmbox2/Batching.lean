import Mathlib.Data.List.Basic
import Mathlib.Data.List.Flatten
import Mathlib.Tactic.Common

/-!
# Filling batches

Items are put into a batch one by one, and a batch is closed as soon as it has a property
(`closes`): enough bytes are in it, say. `IsBatching` is what can be said of the batches
without saying how they are made, and `batches` makes them. What is open when the items run out
is the last batch, unless it is empty.
-/

namespace CSem

universe u

variable {α : Type u} (closes : List α → Prop)

/-- `bs` cuts `xs` into batches that are closed as soon as they can be. -/
structure IsBatching (xs : List α) (bs : List (List α)) : Prop where
  flatten : bs.flatten = xs
  ne_nil : ∀ b ∈ bs, b ≠ []
  closed : ∀ b ∈ bs.dropLast, closes b
  minimal : ∀ b ∈ bs, b.dropLast ≠ [] → ¬ closes b.dropLast

/-- A batch that may still be filled, since what is in it does not close it. -/
def IsOpen (cur : List α) : Prop := cur ≠ [] → ¬ closes cur

section Batches

variable [DecidablePred closes]

/-- The batches that are made of `xs`, when `cur` is in the open one. -/
def batchesFrom (cur : List α) : List α → List (List α)
  | [] => if cur = [] then [] else [cur]
  | x :: xs =>
    if closes (cur ++ [x]) then (cur ++ [x]) :: batchesFrom [] xs else batchesFrom (cur ++ [x]) xs

/-- The batches a list is put into, from the empty one on. -/
def batches (xs : List α) : List (List α) := batchesFrom closes [] xs

end Batches

variable {closes} {cur xs b : List α} {x : α} {bs : List (List α)}

theorem isOpen_nil : IsOpen closes ([] : List α) := fun h => absurd rfl h

theorem IsOpen.of_not (h : ¬ closes cur) : IsOpen closes cur := fun _ => h

namespace IsBatching

theorem nil : IsBatching closes [] [] :=
  ⟨rfl, (fun _ hb => nomatch hb), (fun _ hb => nomatch hb), (fun _ hb => nomatch hb)⟩

/-- The open batch is the last one, if anything is in it. -/
theorem last (hne : cur ≠ []) (hopen : cur.dropLast ≠ [] → ¬ closes cur.dropLast) :
    IsBatching closes cur [cur] where
  flatten := List.flatten_singleton
  ne_nil := by
    intro b hb
    rwa [List.mem_singleton.mp hb]
  closed := fun _ hb => nomatch hb
  minimal := by
    intro b hb
    rwa [List.mem_singleton.mp hb]

/-- A batch that was closed goes in front of the others. -/
theorem close (h : IsBatching closes xs bs) (hopen : IsOpen closes cur)
    (hcloses : closes (cur ++ [x])) :
    IsBatching closes (cur ++ x :: xs) ((cur ++ [x]) :: bs) where
  flatten := by
    rw [List.flatten_cons, h.flatten, List.append_assoc, List.singleton_append]
  ne_nil := by
    intro b hb
    rcases List.mem_cons.mp hb with rfl | hb
    · exact List.append_ne_nil_of_right_ne_nil _ (List.cons_ne_nil _ _)
    · exact h.ne_nil b hb
  closed := by
    intro b hb
    rcases List.eq_nil_or_concat' bs with rfl | ⟨bs', b', rfl⟩
    · cases hb
    · rw [← List.cons_append, List.dropLast_concat] at hb
      rcases List.mem_cons.mp hb with rfl | hb
      · exact hcloses
      · exact h.closed b (by rwa [List.dropLast_concat])
  minimal := by
    intro b hb
    rcases List.mem_cons.mp hb with rfl | hb
    · rw [List.dropLast_concat]
      exact hopen
    · exact h.minimal b hb

/-- What holds of any two items in their order holds of those of a batch. -/
theorem pairwise {R : α → α → Prop} (h : IsBatching closes xs bs) (hR : xs.Pairwise R)
    (hb : b ∈ bs) : b.Pairwise R := by
  rw [← h.flatten] at hR
  exact hR.sublist (List.sublist_flatten_of_mem hb)

theorem mem (h : IsBatching closes xs bs) (hb : b ∈ bs) (hx : x ∈ b) : x ∈ xs := by
  rw [← h.flatten]
  exact List.mem_flatten.mpr ⟨b, hb, hx⟩

end IsBatching

variable [DecidablePred closes]

/-- At the end of the list the open batch is given out, unless it is empty. -/
theorem batchesFrom_nil : batchesFrom closes cur [] = if cur = [] then [] else [cur] := rfl

/-- An element that closes the batch is its last one. -/
theorem batchesFrom_close (h : closes (cur ++ [x])) :
    batchesFrom closes cur (x :: xs) = (cur ++ [x]) :: batchesFrom closes [] xs := if_pos h

theorem batchesFrom_push (h : ¬ closes (cur ++ [x])) :
    batchesFrom closes cur (x :: xs) = batchesFrom closes (cur ++ [x]) xs := if_neg h

/-- From an open batch on, what is made is a batching. -/
theorem isBatching_batchesFrom (hopen : IsOpen closes cur)
    (hdrop : cur.dropLast ≠ [] → ¬ closes cur.dropLast) :
    IsBatching closes (cur ++ xs) (batchesFrom closes cur xs) := by
  induction xs generalizing cur with
  | nil =>
    rw [batchesFrom_nil, List.append_nil]
    split
    · next hnil =>
      rw [hnil]
      exact IsBatching.nil
    · next hne => exact IsBatching.last hne hdrop
  | cons x xs ih =>
    by_cases hcloses : closes (cur ++ [x])
    · have hrest : IsBatching closes ([] ++ xs) (batchesFrom closes [] xs) :=
        ih isOpen_nil fun h => absurd rfl h
      rw [batchesFrom_close hcloses]
      exact hrest.close hopen hcloses
    · rw [batchesFrom_push hcloses, List.append_cons]
      refine ih (IsOpen.of_not hcloses) ?_
      rw [List.dropLast_concat]
      exact hopen

/-- **The batches that are made are a batching**: all elements in order, each batch but the last
closed by its last element. -/
theorem isBatching_batches (xs : List α) : IsBatching closes xs (batches closes xs) := by
  have h : IsBatching closes ([] ++ xs) (batchesFrom closes [] xs) :=
    isBatching_batchesFrom isOpen_nil fun h => absurd rfl h
  exact h

example : batches (fun b : List ℕ => 10 ≤ b.sum) [4, 5, 1, 12, 3] = [[4, 5, 1], [12], [3]] := by
  decide

end CSem
