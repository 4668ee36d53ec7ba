import Mathlib.Data.List.Basic
import Libmbox2.Exec

/-!
# Blocks of memory

An allocated block is the list of its cells; an access outside it is a fault.
Beside single cells and runs of cells there are the three scans that C string
code is made of: advance until a cell satisfies a test, the same but not past a
bound, and compare cell by cell with a pattern, stopping at the first difference.

A terminated block has the form `xs ++ z :: rest`: the contents, the terminator,
whatever lies behind. On such a block the scans only depend on `xs`.
-/

namespace CSem

open Exec

variable {α : Type}

/-! ## Cells -/

/-- Read one cell of a block. An address behind the end of the block is undefined behaviour in C,
and a fault here. -/
def load (d : List α) (i : ℕ) : Exec α :=
  match d[i]? with
  | some c => ok c
  | none => fault

/-- Write one cell of a block, which keeps its length. Behind the end of the block it is a fault. -/
def store (d : List α) (i : ℕ) (c : α) : Exec (List α) :=
  if i < d.length then ok (d.set i c) else fault

/-- Read `n` cells from `i` on, as `memcpy` does from its source: all of them have to be in the
block. -/
def loadBytes (d : List α) (i n : ℕ) : Exec (List α) :=
  if i + n ≤ d.length then ok ((d.drop i).take n) else fault

/-- Write the cells `xs` from `i` on, as `memcpy` does to its destination: there has to be room for
all of them. -/
def storeBytes (d : List α) (i : ℕ) (xs : List α) : Exec (List α) :=
  if i + xs.length ≤ d.length then ok (d.take i ++ xs ++ d.drop (i + xs.length)) else fault

/-- `realloc`: the old cells are kept as far as they fit, `fill` is what lies in
fresh memory. -/
def resize (fill : ℕ → α) (d : List α) (n : ℕ) : List α :=
  d.take n ++ (List.range' d.length (n - d.length)).map fill

@[simp] theorem length_resize (fill : ℕ → α) (d : List α) (n : ℕ) :
    (resize fill d n).length = n := by
  simp only [resize, List.length_append, List.length_take, List.length_map, List.length_range']
  omega

theorem load_eq {d : List α} {i : ℕ} {c : α} (h : d[i]? = some c) : load d i = ok c := by
  rw [load, h]

/-- Reading through a pointer into the block: its cells are those of the block, from where it points
to. -/
theorem load_drop (d : List α) (i j : ℕ) : load (d.drop i) j = load d (i + j) := by
  rw [load, load, List.getElem?_drop]

/-- A cell of the front of a block is read whatever is behind it. -/
theorem load_append_left {xs rest : List α} {i : ℕ} {c : α} (h : xs[i]? = some c) :
    load (xs ++ rest) i = ok c := by
  have hi : i < xs.length := by
    rcases Nat.lt_or_ge i xs.length with hlt | hge
    · exact hlt
    · rw [List.getElem?_eq_none hge] at h
      cases h
  exact load_eq (by rw [List.getElem?_append_left hi, h])

/-- Up to its terminator a string may be read; a cell that is not the terminator lies in
front of it. -/
theorem load_terminated (xs rest : List α) (z : α) {i : ℕ} (h : i ≤ xs.length) :
    ∃ c, load (xs ++ z :: rest) i = ok c ∧ (c ≠ z → i < xs.length) := by
  rcases Nat.lt_or_eq_of_le h with hlt | rfl
  · exact ⟨xs[i], load_append_left (List.getElem?_eq_getElem hlt), fun _ => hlt⟩
  · exact ⟨z, load_eq (by simp), fun hne => absurd rfl hne⟩

@[simp] theorem load_append_length (xs rest : List α) (z : α) :
    load (xs ++ z :: rest) xs.length = ok z :=
  load_eq (by simp)

theorem store_append_length (xs rest : List α) (y z : α) :
    store (xs ++ y :: rest) xs.length z = ok (xs ++ z :: rest) := by
  rw [store, if_pos (by simp)]
  simp

/-- Writing cells behind a front of the block replaces as many of those that were there, and the
rest of the block stays. -/
theorem storeBytes_append (xs : List α) {ys rest : List α} (h : ys.length ≤ rest.length) :
    storeBytes (xs ++ rest) xs.length ys = ok (xs ++ ys ++ rest.drop ys.length) := by
  rw [storeBytes, if_pos (by simpa using h), List.take_left, ← List.drop_drop, List.drop_left]

/-- Reading the middle of a block that is given in three pieces. -/
theorem loadBytes_append {pre xs rest : List α} :
    loadBytes (pre ++ xs ++ rest) pre.length xs.length = ok xs := by
  rw [loadBytes, if_pos (by simp), List.append_assoc, List.drop_left, List.take_left]

/-- A store changes no length, and is a fault exactly when it is outside the block. -/
theorem store_of_lt {d : List α} {i : ℕ} (h : i < d.length) (c : α) :
    ∃ d', store d i c = ok d' ∧ d'.length = d.length :=
  ⟨d.set i c, if_pos h, List.length_set⟩

/-- A store that was made was inside the block, and the block is as long as before. -/
theorem store_inv {d d' : List α} {i : ℕ} {c : α} (h : store d i c = ok d') :
    i < d.length ∧ d'.length = d.length := by
  rw [store] at h
  split at h
  · next hlt =>
    cases h
    exact ⟨hlt, List.length_set⟩
  · cases h

theorem store_of_le {d : List α} {i : ℕ} (h : d.length ≤ i) (c : α) : store d i c = fault :=
  if_neg (Nat.not_lt.mpr h)

/-- Where there is room for the cells they are written, and the block is as long as before. -/
theorem storeBytes_of_le {d xs : List α} {i : ℕ} (h : i + xs.length ≤ d.length) :
    ∃ d', storeBytes d i xs = ok d' ∧ d'.length = d.length := by
  refine ⟨_, if_pos h, ?_⟩
  simp only [List.length_append, List.length_take, List.length_drop]
  omega

/-- Writing cells changes these and no others. -/
theorem storeBytes_spec {d xs : List α} {i : ℕ} (h : i + xs.length ≤ d.length) :
    ∃ d', storeBytes d i xs = ok d' ∧ d'.length = d.length ∧ (d'.drop i).take xs.length = xs ∧
      ∀ k, k < i ∨ i + xs.length ≤ k → d'[k]? = d[k]? := by
  have hi : (d.take i).length = i := List.length_take_of_le (by omega)
  obtain ⟨d', hd', hlen⟩ := storeBytes_of_le h
  obtain rfl : d.take i ++ xs ++ d.drop (i + xs.length) = d' := by
    rw [storeBytes, if_pos h] at hd'
    injection hd'
  refine ⟨_, hd', hlen, ?_, fun k hk => ?_⟩
  · rw [List.append_assoc, List.drop_append_of_le_length hi.ge, List.drop_take_self,
      List.nil_append, List.take_left]
  · rcases hk with hk | hk
    · rw [List.append_assoc, List.getElem?_append_left (by rw [hi]; exact hk),
        List.getElem?_take_of_lt hk]
    · rw [List.getElem?_append_right (by rw [List.length_append, hi]; exact hk), List.length_append,
        hi, List.getElem?_drop, Nat.add_sub_cancel' hk]

/-- What is read from where nothing was written is what was there: two blocks of one length that
agree on the cells that are read give the same cells. -/
theorem loadBytes_congr {d d' : List α} {j n : ℕ} (hlen : d'.length = d.length)
    (h : ∀ k, j ≤ k → k < j + n → d'[k]? = d[k]?) : loadBytes d' j n = loadBytes d j n := by
  have hsame : (d'.drop j).take n = (d.drop j).take n := by
    apply List.ext_getElem?
    intro k
    rw [List.getElem?_take, List.getElem?_take, List.getElem?_drop, List.getElem?_drop]
    split
    · rw [h (j + k) (Nat.le_add_right j k) (Nat.add_lt_add_left ‹_› j)]
    · rfl
  rw [loadBytes, loadBytes, hlen, hsame]

theorem loadBytes_self (xs : List α) : loadBytes xs 0 xs.length = ok xs := by
  rw [loadBytes, if_pos (Nat.zero_add _).le, List.drop_zero, List.take_length]

theorem resize_eq_append (fill : ℕ → α) {d : List α} {n : ℕ} (h : d.length ≤ n) :
    ∃ tail, resize fill d n = d ++ tail :=
  ⟨_, by rw [resize, List.take_of_length_le h]⟩

/-- A block that is made bigger or smaller keeps the cells in front of its new end. -/
theorem take_resize (fill : ℕ → α) {d : List α} {k n : ℕ} (hn : k ≤ n) (hd : k ≤ d.length) :
    (resize fill d n).take k = d.take k := by
  have hk : k ≤ (d.take n).length := by
    rw [List.length_take]
    exact Nat.le_min.mpr ⟨hn, hd⟩
  rw [resize, List.take_append_of_le_length hk, List.take_take, Nat.min_eq_left hn]

/-! ## Scans -/

/-- `while (!p(*s)) s++`: the distance to the first cell that satisfies `p`. There is no bound, so a
block without such a cell is read to its end and behind it, which is a fault. -/
def scanUntil (p : α → Bool) : List α → Exec ℕ
  | [] => fault
  | c :: cs => if p c then ok 0 else do
    let k ← scanUntil p cs
    pure (k + 1)

/-- `while (off < len && !p(d[off])) off++`: where the scan stops, which is at the bound at the
latest. The bound is not the length of the block, so the scan may still leave it. -/
def scanWithin (p : α → Bool) (d : List α) (len off : ℕ) : Exec ℕ :=
  if off < len then do
    let c ← load d off
    if p c then pure off else scanWithin p d len (off + 1)
  else pure off
termination_by len - off

/-- `s[0] == pat[0] && s[1] == pat[1] && …`: no cell behind the first difference is
read. -/
def matchAt [DecidableEq α] : List α → List α → Exec Bool
  | [], _ => ok true
  | _ :: _, [] => fault
  | p :: ps, c :: cs => if c = p then matchAt ps cs else ok false

/-- `for (; off < len; off++) if (d + off matches pat) break`: where it breaks. -/
def scanMatch [DecidableEq α] (pat d : List α) (len off : ℕ) : Exec (Option ℕ) :=
  if off < len then do
    if ← matchAt pat (d.drop off) then pure (some off) else scanMatch pat d len (off + 1)
  else pure none
termination_by len - off

/-- A scan stops at the first cell that satisfies `p`, which it finds at the end of those that do
not. -/
theorem scanUntil_append {p : α → Bool} {xs rest : List α} {c : α}
    (hxs : ∀ x ∈ xs, p x = false) (hc : p c = true) :
    scanUntil p (xs ++ c :: rest) = ok xs.length := by
  induction xs with
  | nil => simp [scanUntil, hc]
  | cons x xs ih =>
    have hx : p x = false := hxs x (List.mem_cons_self ..)
    have ih' := ih fun y hy => hxs y (List.mem_cons_of_mem _ hy)
    simp [scanUntil, hx, ih']

/-- A terminator ends a scan at the latest. -/
theorem scanUntil_terminated {p : α → Bool} {z : α} (hz : p z = true) (xs rest : List α) :
    ∃ k, scanUntil p (xs ++ z :: rest) = ok k ∧ k ≤ xs.length := by
  induction xs with
  | nil => exact ⟨0, by simp [scanUntil, hz], Nat.zero_le _⟩
  | cons x xs ih =>
    obtain ⟨k, hk, hle⟩ := ih
    by_cases hx : p x = true
    · exact ⟨0, by simp [scanUntil, hx], Nat.zero_le _⟩
    · exact ⟨k + 1, by simp [scanUntil, hx, hk], Nat.succ_le_succ hle⟩

/-- Inside the contents of a block a bounded scan finds the first match, or stops at
the bound. -/
theorem scanWithin_append (p : α → Bool) (xs rest : List α) {off : ℕ} (h : off ≤ xs.length) :
    scanWithin p (xs ++ rest) xs.length off = ok (off + (xs.drop off).findIdx p) := by
  generalize hm : xs.length - off = m
  induction m generalizing off with
  | zero =>
    obtain rfl : off = xs.length := by omega
    rw [scanWithin, if_neg (Nat.lt_irrefl _)]
    simp
  | succ m ih =>
    have hlt : off < xs.length := by omega
    have hget : xs[off]? = some xs[off] := List.getElem?_eq_getElem hlt
    rw [scanWithin, if_pos hlt, load_append_left hget, ok_bind,
      List.drop_eq_getElem_cons hlt, List.findIdx_cons]
    by_cases hp : p xs[off] = true
    · simp [hp]
    · rw [if_neg hp, ih (by omega) (by omega)]
      simp [hp, Nat.add_assoc, Nat.add_comm 1]

/-- A bounded scan does not go back: it stops at where it began or behind that. -/
theorem le_of_scanWithin {p : α → Bool} {d : List α} {len off k : ℕ}
    (h : scanWithin p d len off = ok k) : off ≤ k := by
  generalize hm : len - off = m
  induction m generalizing off with
  | zero =>
    rw [scanWithin, if_neg (by omega)] at h
    cases h
    exact le_refl _
  | succ m ih =>
    rw [scanWithin, if_pos (by omega)] at h
    obtain ⟨c, -, h⟩ := bind_eq_ok h
    split at h
    · cases h
      exact le_refl _
    · exact Nat.le_of_succ_le (ih h (by omega))

/-- A pattern without the terminator is a prefix of the contents and whatever follows their
terminator exactly when it is one of the contents alone. -/
theorem prefix_terminated_iff {pat xs rest : List α} {z : α} (hz : z ∉ pat) :
    pat <+: xs ++ z :: rest ↔ pat <+: xs := by
  refine ⟨fun h => ?_, fun h => h.trans (List.prefix_append ..)⟩
  rcases Nat.lt_or_ge xs.length pat.length with hlt | hle
  · -- otherwise the terminator is in the pattern
    have hlen : (xs ++ [z]).length ≤ pat.length := by
      rw [List.length_append]
      exact hlt
    have hpre : xs ++ [z] <+: pat :=
      List.prefix_of_prefix_length_le ⟨rest, by simp⟩ h hlen
    exact absurd (hpre.subset (by simp)) hz
  · exact List.prefix_of_prefix_length_le h (List.prefix_append ..) hle

/-- Matching a pattern that does not hold the terminator only looks at the
contents. -/
theorem matchAt_append [DecidableEq α] {pat : List α} {z : α} (hz : z ∉ pat)
    (xs rest : List α) : matchAt pat (xs ++ z :: rest) = ok (decide (pat <+: xs)) := by
  induction pat generalizing xs with
  | nil => simp [matchAt]
  | cons p ps ih =>
    have hzp : z ≠ p := fun e => hz (e ▸ List.mem_cons_self ..)
    have hzps : z ∉ ps := fun e => hz (List.mem_cons_of_mem _ e)
    cases xs with
    | nil => simp [matchAt, hzp]
    | cons x xs =>
      rw [List.cons_append, matchAt]
      by_cases hx : x = p
      · rw [if_pos hx, ih hzps, hx]
        simp [List.cons_prefix_cons]
      · rw [if_neg hx]
        simp [List.cons_prefix_cons, Ne.symm hx]

/-- A pattern is found when the block begins with it, whatever is behind it. -/
theorem matchAt_eq_true [DecidableEq α] {pat d : List α} : matchAt pat d = ok true ↔ pat <+: d := by
  induction pat generalizing d with
  | nil => simp [matchAt]
  | cons p ps ih =>
    cases d with
    | nil => simp [matchAt]
    | cons c d =>
      rw [matchAt, List.cons_prefix_cons]
      by_cases hc : c = p
      · rw [if_pos hc, ih]
        exact ⟨fun h => ⟨hc.symm, h⟩, fun h => h.2⟩
      · rw [if_neg hc]
        refine ⟨fun h => ?_, fun h => absurd h.1.symm hc⟩
        cases h

/-- A pattern for which the block is long enough. -/
theorem matchAt_of_le [DecidableEq α] {pat d : List α} (h : pat.length ≤ d.length) :
    matchAt pat d = ok (decide (pat <+: d)) := by
  induction pat generalizing d with
  | nil => simp [matchAt]
  | cons p ps ih =>
    cases d with
    | nil => exact absurd h (Nat.not_succ_le_zero _)
    | cons c d =>
      rw [matchAt]
      by_cases hc : c = p
      · rw [if_pos hc, ih (Nat.le_of_succ_le_succ h), hc]
        simp [List.cons_prefix_cons]
      · rw [if_neg hc]
        simp [List.cons_prefix_cons, Ne.symm hc]

/-- What a scan for a pattern returns on the contents of a block: the first occurrence,
or that there is none. -/
theorem scanMatch_append [DecidableEq α] {pat : List α} {z : α} (hz : z ∉ pat)
    (xs rest : List α) (off : ℕ) :
    (∃ k, scanMatch pat (xs ++ z :: rest) xs.length off = ok (some k) ∧ off ≤ k ∧
        k < xs.length ∧ pat <+: xs.drop k ∧ ∀ j, off ≤ j → j < k → ¬ pat <+: xs.drop j) ∨
      scanMatch pat (xs ++ z :: rest) xs.length off = ok none ∧
        ∀ j, off ≤ j → j < xs.length → ¬ pat <+: xs.drop j := by
  generalize hm : xs.length - off = m
  induction m generalizing off with
  | zero =>
    right
    rw [scanMatch, if_neg (by omega)]
    exact ⟨rfl, fun j h1 h2 => by omega⟩
  | succ m ih =>
    have hlt : off < xs.length := by omega
    rw [scanMatch, if_pos hlt, List.drop_append_of_le_length hlt.le, matchAt_append hz,
      ok_bind]
    by_cases hp : pat <+: xs.drop off
    · left
      rw [decide_eq_true hp]
      exact ⟨off, rfl, le_refl _, hlt, hp, fun j h1 h2 => by omega⟩
    · rw [decide_eq_false hp]
      have hfirst : ∀ j, off ≤ j → ¬ off + 1 ≤ j → ¬ pat <+: xs.drop j := by
        intro j h1 h2
        obtain rfl : off = j := by omega
        exact hp
      rcases ih (off + 1) (by omega) with ⟨k, hk, hle, hlt', hpk, hmin⟩ | ⟨hk, hno⟩
      · refine Or.inl ⟨k, hk, by omega, hlt', hpk, fun j h1 h2 => ?_⟩
        by_cases h3 : off + 1 ≤ j
        · exact hmin j h3 h2
        · exact hfirst j h1 h3
      · refine Or.inr ⟨hk, fun j h1 h2 => ?_⟩
        by_cases h3 : off + 1 ≤ j
        · exact hno j h3 h2
        · exact hfirst j h1 h3

end CSem
