import Libmbox2.Borders
import Libmbox2.HeaderNames

/-!
# Pattern search (`mboxBufContainsPattern`, `mboxBufContainsCasePattern`)

Both searches are one loop over the text, with the bytes compared by a key: themselves, or their
lower case. The table of borders is that of the bytes themselves in either case, so the search by
lower case moves the pattern along borders that also agree in their letter case, and may step
over an occurrence. It does not where the positions that lead overlap in the same letter case
(`findsCasePattern_of_leadersMatch`).

The borders are kept in an `int`, and so is the index that is returned.
-/

namespace Libmbox2

open CSem CSem.Exec

/-- How many `int`s there is room for in what `malloc(sizeof(int) * n)` gives. -/
def mallocInts (n : ℕ) : ℕ := 4 * n % 2 ^ 64 / 4

/-- Writes the next `int` of a table with room for `room`. What is written of a table is a list;
what is not may not be read. -/
def pushInt (room : ℕ) (table : List ℕ) (k : ℕ) : Exec (List ℕ) :=
  if table.length < room then pure (table ++ [k]) else fault

/-- `k++` of an `int`, which must not overflow. -/
def intSucc (k : ℕ) : Exec ℕ := if k + 1 < 2 ^ 31 then pure (k + 1) else fault

/-- A `size_t` as an `int`, in two's complement. -/
def toInt (n : ℕ) : Int := Int.bmod n (2 ^ 32)

section Functions

variable {β : Type} [DecidableEq β] (key : MboxChar → β)

/-- `while (q > 0 && pattern[q] != ch) q = table[q - 1];` with the bytes compared by `key`. -/
def fallbackStep (table : List ℕ) (pattern : List MboxChar) (ch : MboxChar) (q : ℕ) :
    Exec (ℕ ⊕ ℕ) :=
  if q = 0 then pure (.inr q)
  else do
    let c ← load pattern q
    if key c = key ch then pure (.inr q)
    else do
      let k ← load table (q - 1)
      pure (.inl k)

/-- One iteration over the pattern: its index, the length of the border, the table. -/
def prefixTableStep (room : ℕ) (pattern : List MboxChar) (patternlen fuel : ℕ)
    (s : ℕ × ℕ × List ℕ) : Exec ((ℕ × ℕ × List ℕ) ⊕ List ℕ) :=
  let (i, k, table) := s
  if i < patternlen then do
    let ch ← load pattern i
    let k ← loop (fallbackStep id table pattern ch) fuel k
    let c ← load pattern k
    let k ← (if c = ch then intSucc k else pure k : Exec ℕ)
    let table ← pushInt room table k
    pure (.inl (i + 1, k, table))
  else pure (.inr table)

/-- `mboxBufComputePrefixTable`: the longest border of every start of the pattern, as an array of
`int`. -/
def mboxBufComputePrefixTable (fuel : ℕ) (pattern : List MboxChar) (patternlen : ℕ) :
    Exec (List ℕ) := do
  let room := mallocInts patternlen
  let table ← pushInt room [] 0
  loop (prefixTableStep room pattern patternlen fuel) fuel (1, 0, table)

/-- One iteration over the text: its index, and how much of the pattern agrees. -/
def containsStep (buf : MboxBuf) (table : List ℕ) (pattern : List MboxChar) (patternlen fuel : ℕ)
    (s : ℕ × ℕ) : Exec ((ℕ × ℕ) ⊕ Int) :=
  let (i, q) := s
  if i < buf.len then do
    let ch ← load buf.data i
    if ch = nul then pure (.inr (-1))
    else do
      let q ← loop (fallbackStep key table pattern ch) fuel q
      let c ← load pattern q
      let q := if key c = key ch then q + 1 else q
      if q = patternlen then pure (.inr (toInt ((sizeSub i patternlen + 1) % 2 ^ 64)))
      else pure (.inl (i + 1, q))
  else pure (.inr (-1))

/-- What the two searches with a table have in common. -/
def containsWithTable (fuel : ℕ) (buf : MboxBuf) (table : List ℕ) (pattern : List MboxChar)
    (patternlen : ℕ) : Exec Int :=
  if patternlen = 0 then pure (-1)
  else loop (containsStep key buf table pattern patternlen fuel) fuel (0, 0)

/-- What the two searches without a table of their own have in common: the table is computed, and
the text searched with it. -/
def containsPattern (fuel : ℕ) (buf : MboxBuf) (pattern : List MboxChar) (patternlen : ℕ) :
    Exec Int := do
  let table ← mboxBufComputePrefixTable fuel pattern patternlen
  containsWithTable key fuel buf table pattern patternlen

end Functions

/-- `mboxBufContainsPatternWithTable`: the search with a given table. -/
def mboxBufContainsPatternWithTable (fuel : ℕ) (buf : MboxBuf) (table : List ℕ)
    (pattern : List MboxChar) (patternlen : ℕ) : Exec Int :=
  containsWithTable id fuel buf table pattern patternlen

/-- `mboxBufContainsPattern`: where the pattern occurs in the text, `-1` if it does not. -/
def mboxBufContainsPattern (fuel : ℕ) (buf : MboxBuf) (pattern : List MboxChar)
    (patternlen : ℕ) : Exec Int :=
  containsPattern id fuel buf pattern patternlen

/-- `mboxBufContainsCasePatternWithTable`: the search without case, with a given table. -/
def mboxBufContainsCasePatternWithTable (fuel : ℕ) (buf : MboxBuf) (table : List ℕ)
    (pattern : List MboxChar) (patternlen : ℕ) : Exec Int :=
  containsWithTable tolower fuel buf table pattern patternlen

/-- `mboxBufContainsCasePattern`: where the pattern occurs without case. The table is that of its
bytes. -/
def mboxBufContainsCasePattern (fuel : ℕ) (buf : MboxBuf) (pattern : List MboxChar)
    (patternlen : ℕ) : Exec Int :=
  containsPattern tolower fuel buf pattern patternlen

/-! ## The table -/

/-- Behind each beginning of the pattern the table has the longest border of it. -/
def PrefixTable (p : List MboxChar) (table : List ℕ) : Prop :=
  ∀ i k, table[i]? = some k → LongestBorder p (i + 1) k

variable {β : Type} [DecidableEq β] {key : MboxChar → β} {p : List MboxChar} {table : List ℕ}
  {c : MboxChar} {q i k : ℕ}

/-- With the borders of what it falls back from, the loop falls back as far as it should. -/
theorem fallback_spec (key : MboxChar → β) (htable : PrefixTable p table) (hq : q < p.length)
    (hlen : q ≤ table.length) (c : MboxChar) :
    ∃ q', Converges (fun n => loop (fallbackStep key table p c) n q) q' ∧ FallsTo key p c q q' := by
  -- what has been fallen back to is a border, and no longer one goes on with `c`
  have hstep : ∀ k, (k = q ∨ Border p q k) ∧
      (∀ b, (b = q ∨ Border p q b) → p[b]?.map key = some (key c) → b ≤ k) →
      (∃ q', Converges (fun _ => fallbackStep key table p c k) (.inr q') ∧ FallsTo key p c q q') ∨
      ∃ k', Converges (fun _ => fallbackStep key table p c k) (.inl k') ∧
        ((k' = q ∨ Border p q k') ∧
          ∀ b, (b = q ∨ Border p q b) → p[b]?.map key = some (key c) → b ≤ k') ∧ k' < k := by
    rintro k ⟨hk, hmax⟩
    have hkq := le_of_border hk
    rcases Nat.eq_zero_or_pos k with rfl | hpos
    · exact Or.inl ⟨0, Converges.const (by rw [fallbackStep, if_pos rfl, pure_eq]),
        hk, Or.inl rfl, hmax⟩
    · have hget : p[k]? = some p[k] := List.getElem?_eq_getElem (by omega)
      by_cases hgo : key p[k] = key c
      · refine Or.inl ⟨k, Converges.const ?_, hk, Or.inr (by rw [hget, Option.map_some, hgo]), hmax⟩
        rw [fallbackStep, if_neg (by omega), load_eq hget, ok_bind, if_pos hgo, pure_eq]
      · have hentry : table[k - 1]? = some table[k - 1] := List.getElem?_eq_getElem (by omega)
        have hlongest := htable _ _ hentry
        rw [Nat.sub_add_cancel hpos] at hlongest
        refine Or.inr ⟨table[k - 1], Converges.const ?_, ⟨?_, fun b hb hgo' => ?_⟩,
          hlongest.border.1⟩
        · rw [fallbackStep, if_neg (by omega), load_eq hget, ok_bind, if_neg hgo, load_eq hentry,
            ok_bind, pure_eq]
        · rcases hk with rfl | hk
          · exact Or.inr hlongest.border
          · exact Or.inr (hk.trans hlongest.border)
        · -- the border that is left does not go on, so only shorter ones do
          have hne : b ≠ k := by
            rintro rfl
            rw [hget, Option.map_some] at hgo'
            exact hgo (Option.some.inj hgo')
          have hlt : b < k := lt_of_le_of_ne (hmax b hb hgo') hne
          have hbq : Border p q b := hb.resolve_left (by omega)
          rcases hk with rfl | hk
          · exact hlongest.le b hbq
          · exact hlongest.le b (hk.of_lt hbq hlt)
  have hfirst : ∀ b, (b = q ∨ Border p q b) → p[b]?.map key = some (key c) → b ≤ q :=
    fun b hb _ => le_of_border hb
  obtain ⟨q', hq', hfall⟩ := LoopTo.of_measure id hstep q ⟨Or.inl rfl, hfirst⟩
  exact ⟨q', hq'.converges, hfall⟩

/-- The table is done up to `i`, and `k` is its last entry. -/
structure TableAt (p : List MboxChar) (s : ℕ × ℕ × List ℕ) : Prop where
  pos : 0 < s.1
  le : s.1 ≤ p.length
  length : s.2.2.length = s.1
  longest : LongestBorder p s.1 s.2.1
  table : PrefixTable p s.2.2

/-- The next longest border is added to a table. -/
theorem PrefixTable.push (h : PrefixTable p table) (hk : LongestBorder p (table.length + 1) k) :
    PrefixTable p (table ++ [k]) := by
  intro i k' hk'
  rw [List.getElem?_append] at hk'
  split at hk'
  · exact h i k' hk'
  · next hge =>
    rw [List.getElem?_singleton] at hk'
    split at hk'
    · obtain rfl : table.length = i := by omega
      injection hk' with hk'
      exact hk' ▸ hk
    · cases hk'

/-- An iteration either sets the next entry, or there is no room for it or the border is too long
for an `int`. -/
theorem prefixTableStep_spec (room : ℕ) (h : TableAt p (i, k, table)) (hi : i < p.length) :
    ∃ k', TableAt p (i + 1, k', table ++ [k']) ∧
      ∃ N, ∀ n, N ≤ n → prefixTableStep room p p.length n (i, k, table) =
        if k' < 2 ^ 31 ∧ i < room then ok (.inl (i + 1, k', table ++ [k'])) else fault := by
  have hlen : table.length = i := h.length
  have hch : p[i]? = some p[i] := List.getElem?_eq_getElem hi
  have hki : k < i := h.longest.border.1
  have hlen' : k ≤ table.length := by omega
  obtain ⟨b, hb, hfall⟩ := fallback_spec id h.table (by omega : k < p.length) hlen' p[i]
  have hbk := le_of_border hfall.border
  have hc : p[b]? = some p[b] := List.getElem?_eq_getElem (by omega)
  have hnext : LongestBorder p (i + 1) (if p[b]? = some p[i] then b + 1 else 0) :=
    h.longest.next hch hfall
  have hnextAt : ∀ k', LongestBorder p (i + 1) k' → TableAt p (i + 1, k', table ++ [k']) := by
    intro k' hk'
    refine ⟨Nat.succ_pos i, hi, ?_, hk', h.table.push (by rwa [hlen])⟩
    rw [List.length_append, hlen, List.length_singleton]
  obtain ⟨N, hN⟩ := hb
  by_cases hgo : p[b] = p[i]
  · rw [if_pos (hgo ▸ hc)] at hnext
    refine ⟨b + 1, hnextAt _ hnext, N, fun n hn => ?_⟩
    simp only [prefixTableStep, if_pos hi, load_eq hch, ok_bind, hN n hn, load_eq hc, if_pos hgo,
      intSucc]
    by_cases hfit : b + 1 < 2 ^ 31
    · rw [if_pos hfit, pure_eq, ok_bind, pushInt, hlen]
      by_cases hroom : i < room
      · rw [if_pos hroom, if_pos ⟨hfit, hroom⟩, pure_eq, ok_bind, pure_eq]
      · rw [if_neg hroom, if_neg fun h => hroom h.2, fault_bind]
    · rw [if_neg hfit, if_neg fun h => hfit h.1, fault_bind]
  · have hgo' : p[b]? ≠ some p[i] := fun heq => hgo (Option.some.inj (hc.symm.trans heq))
    -- the fallback has stopped at zero then
    obtain rfl : b = 0 := hfall.stop.resolve_right (by rwa [Option.map_id_fun, id])
    rw [if_neg hgo'] at hnext
    refine ⟨0, hnextAt _ hnext, N, fun n hn => ?_⟩
    simp only [prefixTableStep, if_pos hi, load_eq hch, ok_bind, hN n hn, load_eq hc, if_neg hgo,
      pure_eq, pushInt, hlen]
    by_cases hroom : i < room
    · rw [if_pos hroom, if_pos ⟨by decide, hroom⟩, ok_bind]
    · rw [if_neg hroom, if_neg fun h => hroom h.2, fault_bind]

theorem prefixTableStep_mono (room : ℕ) (s : ℕ × ℕ × List ℕ) :
    FuelMono fun n => prefixTableStep room p p.length n s := by
  refine FuelMono.ite ((FuelMono.const _).bind fun ch => ?_) (FuelMono.const _)
  refine (FuelMono.loop ..).bind fun k => (FuelMono.const _).bind fun c => ?_
  exact (FuelMono.const _).bind fun k => FuelMono.const _

/-- What a step that returns has done: the next entry is there and fits, or the table is
complete. -/
theorem prefixTableStep_inv {room n : ℕ} {x : (ℕ × ℕ × List ℕ) ⊕ List ℕ}
    (h : TableAt p (i, k, table)) (hx : prefixTableStep room p p.length n (i, k, table) = ok x) :
    (∃ k', TableAt p (i + 1, k', table ++ [k']) ∧ k' < 2 ^ 31 ∧ i < room ∧
      x = .inl (i + 1, k', table ++ [k'])) ∨ i = p.length ∧ x = .inr table := by
  have hle : i ≤ p.length := h.le
  rcases Nat.lt_or_eq_of_le hle with hi | rfl
  · obtain ⟨k', h', N, hN⟩ := prefixTableStep_spec room h hi
    have hmax := prefixTableStep_mono room _ (le_max_left n N) hx
    have hspec := (hN _ (le_max_right n N)).symm.trans hmax
    split at hspec
    · next hfit => exact Or.inl ⟨k', h', hfit.1, hfit.2, (Exec.ok.inj hspec).symm⟩
    · cases hspec
  · simp only [prefixTableStep, if_neg (Nat.lt_irrefl _), pure_eq] at hx
    exact Or.inr ⟨rfl, (Exec.ok.inj hx).symm⟩

/-- There is room for the table, and an `int` holds every border. -/
structure FitsInt (p : List MboxChar) : Prop where
  room : p.length < 2 ^ 62
  borders : ∀ q b, q ≤ p.length → Border p q b → b < 2 ^ 31

/-- A short array is allocated as a whole. -/
theorem mallocInts_lt {n : ℕ} (h : n < 2 ^ 62) : mallocInts n = n := by
  rw [mallocInts, Nat.mod_eq_of_lt (by omega), Nat.mul_div_cancel_left n (by decide)]

/-- And one that is allocated as a whole is short. -/
theorem lt_of_le_mallocInts {n : ℕ} (h : n ≤ mallocInts n) : n < 2 ^ 62 := by
  rw [mallocInts] at h
  have hmod := Nat.mod_lt (4 * n) (show 0 < 2 ^ 64 by decide)
  omega

/-- The first entry goes into an array that has room. -/
theorem pushInt_nil {room : ℕ} (h : 0 < room) (k : ℕ) : pushInt room [] k = ok [k] := if_pos h

theorem computePrefixTable_mono : FuelMono fun n => mboxBufComputePrefixTable n p p.length :=
  (FuelMono.const _).bind fun _ => FuelMono.loopBody (prefixTableStep_mono _) _

/-- Behind the first element there is one entry, zero. -/
theorem tableAt_one (hp : p ≠ []) : TableAt p (1, 0, [0]) := by
  have hpos := List.length_pos_iff.mpr hp
  have hone : LongestBorder p 1 0 := by
    refine ⟨border_zero Nat.one_pos, fun b hb => ?_⟩
    exact Nat.le_of_lt_succ hb.1
  have hnil : PrefixTable p [] := fun _ _ hk => by cases hk
  exact ⟨Nat.one_pos, hpos, rfl, hone, hnil.push hone⟩

/-- **The table is computed** where nothing overflows: entry `i` is the longest border of the first
`i + 1` bytes of the pattern. -/
theorem computePrefixTable_spec (hp : p ≠ []) (hfits : FitsInt p) :
    ∃ table, Converges (fun n => mboxBufComputePrefixTable n p p.length) table ∧
      PrefixTable p table ∧ table.length = p.length := by
  have hpos := List.length_pos_iff.mpr hp
  have hroom := mallocInts_lt hfits.room
  have hstep : ∀ s, TableAt p s →
      (∃ table, Converges (fun n => prefixTableStep p.length p p.length n s) (.inr table) ∧
        PrefixTable p table ∧ table.length = p.length) ∨
      ∃ s', Converges (fun n => prefixTableStep p.length p p.length n s) (.inl s') ∧
        TableAt p s' ∧ p.length - s'.1 < p.length - s.1 := by
    rintro ⟨i, k, table⟩ h
    by_cases hi : i < p.length
    · obtain ⟨k', h', N, hN⟩ := prefixTableStep_spec p.length h hi
      have hk' : k' < 2 ^ 31 := hfits.borders _ _ hi h'.longest.border
      refine Or.inr ⟨_, ⟨N, fun n hn => ?_⟩, h', Nat.sub_lt_sub_left hi (Nat.lt_succ_self i)⟩
      exact (hN n hn).trans (if_pos ⟨hk', hi⟩)
    · have hle : i ≤ p.length := h.le
      have hlen : table.length = i := h.length
      refine Or.inl ⟨table, ⟨0, fun n _ => ?_⟩, h.table, by omega⟩
      simp only [prefixTableStep, if_neg hi, pure_eq]
  obtain ⟨table, hloop, htable⟩ := LoopTo.of_measure _ hstep _ (tableAt_one hp)
  refine ⟨table, hloop.converges.congr fun n => ?_, htable⟩
  rw [mboxBufComputePrefixTable, hroom, pushInt_nil hpos, ok_bind]

/-- Nothing has overflowed in the table up to `i`: its room and the borders so far fit. -/
structure FitsUpTo (p : List MboxChar) (s : ℕ × ℕ × List ℕ) : Prop where
  tableAt : TableAt p s
  room : s.1 ≤ mallocInts p.length
  borders : ∀ q b, q ≤ s.1 → Border p q b → b < 2 ^ 31

/-- If the table is computed, nothing has overflowed. -/
theorem fitsInt_of_converges (hp : p ≠ [])
    (h : Converges (fun n => mboxBufComputePrefixTable n p p.length) table) : FitsInt p := by
  have hpos := List.length_pos_iff.mpr hp
  obtain ⟨n, hn⟩ := h.exists_ok
  obtain ⟨first, hfirst, hloop⟩ := bind_eq_ok hn
  obtain ⟨hroom, rfl⟩ : 0 < mallocInts p.length ∧ [0] = first := by
    rcases Nat.eq_zero_or_pos (mallocInts p.length) with hzero | hpos'
    · rw [hzero] at hfirst
      cases hfirst
    · rw [pushInt_nil hpos'] at hfirst
      exact ⟨hpos', Exec.ok.inj hfirst⟩
  -- every entry that was stored was an `int`, and it is the longest border
  have hnext : ∀ s s' : ℕ × ℕ × List ℕ, FitsUpTo p s →
      prefixTableStep (mallocInts p.length) p p.length n s = ok (.inl s') → FitsUpTo p s' := by
    rintro ⟨i, k, table⟩ s' ⟨h, -, hborders⟩ hbody
    rcases prefixTableStep_inv h hbody with ⟨k', h', hk', hroom', hs'⟩ | ⟨-, hs'⟩
    · obtain rfl := Sum.inl.inj hs'
      refine ⟨h', hroom', fun q b hq hb => ?_⟩
      rcases Nat.lt_or_eq_of_le hq with hq | rfl
      · exact hborders q b (Nat.le_of_lt_succ hq) hb
      · exact lt_of_le_of_lt (h'.longest.le b hb) hk'
    · cases hs'
  have hdone : ∀ (s : ℕ × ℕ × List ℕ) (r : List ℕ), FitsUpTo p s →
      prefixTableStep (mallocInts p.length) p p.length n s = ok (.inr r) → FitsInt p := by
    rintro ⟨i, k, table⟩ r ⟨h, hle, hborders⟩ hbody
    rcases prefixTableStep_inv h hbody with ⟨k', -, -, -, hs'⟩ | ⟨rfl, -⟩
    · cases hs'
    · exact ⟨lt_of_le_mallocInts hle, hborders⟩
  refine loop_inv hnext hdone ⟨tableAt_one hp, hroom, fun q b hq hb => ?_⟩ hloop
  exact lt_of_lt_of_le hb.1 (le_trans hq Nat.one_le_two_pow)

/-! ## The search -/

/-- What is searched: the bytes in front of a NUL. -/
def MboxBuf.text (buf : MboxBuf) : List MboxChar := buf.bytes.takeWhile (· ≠ nul)

/-- The index of the first occurrence, or -1 when there is none. -/
def PatternIndex (key : MboxChar → β) (p t : List MboxChar) (r : Int) : Prop :=
  (∃ s : ℕ, FirstOccurs key p t s ∧ r = s) ∨ (∀ s, ¬ Occurs key p t s) ∧ r = -1

/-- The index, as an `int`, of the occurrence that is tried, or -1 when none is. -/
def TriedIndex (key : MboxChar → β) (p t : List MboxChar) (r : Int) : Prop :=
  (∃ s, Tried key p t s ∧ Occurs key p t s ∧ r = toInt s) ∨
    (∀ s, Tried key p t s → ¬ Occurs key p t s) ∧ r = -1

theorem toInt_of_lt {n : ℕ} (h : n < 2 ^ 31) : toInt n = n :=
  Int.bmod_eq_of_le_mul_two (by omega) (by omega)

/-- A remainder keeps the remainder by a divisor. -/
theorem natCast_mod_bmod (n : ℕ) {m k : ℕ} (h : m ∣ k) :
    Int.bmod ((n % k : ℕ) : Int) m = Int.bmod n m := by
  rw [← Int.emod_bmod, ← Int.natCast_emod, Nat.mod_mod_of_dvd n h, Int.natCast_emod, Int.emod_bmod]

/-- So a number and the same as a `size_t` are one `int`. -/
theorem toInt_mod (n : ℕ) : toInt (n % 2 ^ 64) = toInt n :=
  natCast_mod_bmod n ⟨2 ^ 32, by decide⟩

/-- The index the code computes: that of the last byte, less the length of the pattern, plus one. -/
theorem toInt_index {i n : ℕ} (h : n ≤ i + 1) :
    toInt ((sizeSub i n + 1) % 2 ^ 64) = toInt (i + 1 - n) := by
  rcases Nat.lt_or_ge i n with hlt | hge
  · obtain rfl : n = i + 1 := le_antisymm h hlt
    have hsub : sizeSub i (i + 1) + 1 = 2 ^ 64 := by
      rw [sizeSub, if_neg (by omega)]
      omega
    rw [hsub, Nat.mod_self, Nat.sub_self]
  · rw [sizeSub_of_le hge, toInt_mod, Nat.sub_add_comm hge]

variable {buf : MboxBuf}

/-- The element at a place within what is taken. -/
theorem getElem?_takeWhile {f : MboxChar → Bool} {l : List MboxChar}
    (hi : i ≤ (l.takeWhile f).length) : (l.takeWhile f)[i]? = l[i]?.filter f := by
  induction l generalizing i with
  | nil => rfl
  | cons a l ih =>
    rw [List.takeWhile_cons] at hi ⊢
    cases i with
    | zero => cases hf : f a <;> simp only [hf, List.getElem?_cons_zero, Option.filter] <;> rfl
    | succ i =>
      cases hf : f a with
      | false =>
        rw [hf] at hi
        cases hi
      | true =>
        rw [hf] at hi
        exact ih (Nat.le_of_succ_le_succ hi)

/-- The text of a buffer is no longer than its contents. -/
theorem MboxBuf.text_length_le (buf : MboxBuf) : buf.text.length ≤ buf.len := by
  have htext : buf.text.length ≤ buf.bytes.length := (List.takeWhile_prefix _).length_le
  rw [MboxBuf.bytes, List.length_take] at htext
  exact le_trans htext (min_le_left _ _)

/-- The text goes on where the contents do with a byte that is no NUL. -/
theorem MboxBuf.text_getElem? (hlt : i < buf.len) (hi : i ≤ buf.text.length) :
    buf.text[i]? = buf.data[i]?.filter (· ≠ nul) := by
  rw [MboxBuf.text, getElem?_takeWhile hi, MboxBuf.bytes, List.getElem?_take_of_lt hlt]

/-- One iteration over the text, from where `q` bytes agree. -/
theorem containsStep_spec (hbuf : buf.len ≤ buf.data.length) (htable : PrefixTable p table)
    (hlen : table.length = p.length) (hm : Matched key p buf.text i q) (hq : q < p.length)
    (hi : i ≤ buf.text.length) :
    (∃ r, Converges (fun n => containsStep key buf table p p.length n (i, q)) (.inr r) ∧
      TriedIndex key p buf.text r) ∨
    ∃ q', Converges (fun n => containsStep key buf table p p.length n (i, q)) (.inl (i + 1, q')) ∧
      Matched key p buf.text (i + 1) q' ∧ q' < p.length ∧ i + 1 ≤ buf.text.length := by
  have hlen' := buf.text_length_le
  -- at the end of the text the whole pattern does not agree anywhere
  have hend : i = buf.text.length → TriedIndex key p buf.text (-1) := by
    rintro rfl
    exact Or.inr ⟨fun s hs => hm.not_occurs hq hs, rfl⟩
  by_cases hlt : i < buf.len
  · have hdata : buf.data[i]? = some buf.data[i] := List.getElem?_eq_getElem (by omega)
    have htext := MboxBuf.text_getElem? hlt hi
    rw [hdata] at htext
    by_cases hnul : buf.data[i] = nul
    · rw [Option.filter_some, hnul] at htext
      refine Or.inl ⟨-1, ⟨0, fun n _ => ?_⟩, hend (le_antisymm hi ?_)⟩
      · simp only [containsStep, if_pos hlt, load_eq hdata, ok_bind, if_pos hnul, pure_eq]
      · exact List.getElem?_eq_none_iff.mp htext
    · have hc : buf.text[i]? = some buf.data[i] := by
        rw [htext, Option.filter_some, if_pos (decide_eq_true hnul)]
      have hi' : i < buf.text.length := (List.getElem?_eq_some_iff.mp hc).1
      obtain ⟨q', ⟨N, hN⟩, hfall⟩ := fallback_spec key htable hq (by omega) buf.data[i]
      have hq' : q' < p.length := (le_of_border hfall.border).trans_lt hq
      have hp : p[q']? = some p[q'] := List.getElem?_eq_getElem hq'
      have hbody : ∀ n, N ≤ n → containsStep key buf table p p.length n (i, q) =
          if (if key p[q'] = key buf.data[i] then q' + 1 else q') = p.length then
            ok (.inr (toInt ((sizeSub i p.length + 1) % 2 ^ 64)))
          else ok (.inl (i + 1, if key p[q'] = key buf.data[i] then q' + 1 else q')) := by
        intro n hn
        simp only [containsStep, if_pos hlt, load_eq hdata, ok_bind, if_neg hnul, hN n hn,
          load_eq hp, pure_eq]
      by_cases hgo : key p[q'] = key buf.data[i]
      · have hm' := hm.next hq hc hfall (by rw [hp, Option.map_some, hgo])
        simp only [if_pos hgo] at hbody
        by_cases hall : q' + 1 = p.length
        · rw [hall] at hm'
          obtain ⟨htried, hocc⟩ := hm'.occurs
          refine Or.inl ⟨_, ⟨N, fun n hn => (hbody n hn).trans (if_pos hall)⟩, Or.inl ?_⟩
          exact ⟨_, htried, hocc, toInt_index hm'.le⟩
        · refine Or.inr ⟨_, ⟨N, fun n hn => (hbody n hn).trans (if_neg hall)⟩, hm', ?_, hi'⟩
          exact lt_of_le_of_ne hq' hall
      · have hstay : p[q']?.map key ≠ some (key buf.data[i]) := by
          rw [hp, Option.map_some]
          exact fun h => hgo (Option.some.inj h)
        obtain rfl : q' = 0 := hfall.stop.resolve_right hstay
        simp only [if_neg hgo] at hbody
        refine Or.inr ⟨0, ⟨N, fun n hn => (hbody n hn).trans (if_neg hq'.ne)⟩, ?_, hq', hi'⟩
        exact hm.behind hq hc hfall hstay
  · refine Or.inl ⟨-1, ⟨0, fun n _ => ?_⟩, hend (by omega)⟩
    simp only [containsStep, if_neg hlt, pure_eq]

/-- More fuel does not change what a step of the search gives. -/
theorem containsStep_mono (s : ℕ × ℕ) :
    FuelMono fun n => containsStep key buf table p p.length n s := by
  refine FuelMono.ite ((FuelMono.const _).bind fun ch => ?_) (FuelMono.const _)
  refine FuelMono.ite (FuelMono.const _) ((FuelMono.loop ..).bind fun q => FuelMono.const _)

theorem containsPattern_mono : FuelMono fun n => containsPattern key n buf p p.length :=
  computePrefixTable_mono.bind fun _ =>
    FuelMono.ite (FuelMono.const _) (FuelMono.loopBody containsStep_mono _)

/-- **A search with a table of borders** finds the occurrence that is tried, or none if there is
none among the positions it lays the pattern against. -/
theorem containsWithTable_spec (key : MboxChar → β) (hbuf : buf.len ≤ buf.data.length)
    (hp : p ≠ []) (htable : PrefixTable p table) (hlen : table.length = p.length) :
    ∃ r, Converges (fun n => containsWithTable key n buf table p p.length) r ∧
      TriedIndex key p buf.text r := by
  have hpos := List.length_pos_iff.mpr hp
  have hstep : ∀ s : ℕ × ℕ,
      Matched key p buf.text s.1 s.2 ∧ s.2 < p.length ∧ s.1 ≤ buf.text.length →
      (∃ r, Converges (fun n => containsStep key buf table p p.length n s) (.inr r) ∧
        TriedIndex key p buf.text r) ∨
      ∃ s', Converges (fun n => containsStep key buf table p p.length n s) (.inl s') ∧
        (Matched key p buf.text s'.1 s'.2 ∧ s'.2 < p.length ∧ s'.1 ≤ buf.text.length) ∧
        buf.text.length - s'.1 < buf.text.length - s.1 := by
    rintro ⟨i, q⟩ ⟨hm, hq, hi⟩
    rcases containsStep_spec hbuf htable hlen hm hq hi with hdone | ⟨q', hbody, hm', hq', hi'⟩
    · exact Or.inl hdone
    · exact Or.inr ⟨_, hbody, ⟨hm', hq', hi'⟩, Nat.sub_lt_sub_left hi' (Nat.lt_succ_self i)⟩
  obtain ⟨r, hloop, hr⟩ :=
    LoopTo.of_measure _ hstep (0, 0) ⟨matched_zero key p _, hpos, Nat.zero_le _⟩
  refine ⟨r, hloop.converges.congr fun n => ?_, hr⟩
  rw [containsWithTable, if_neg hpos.ne']

omit [DecidableEq β] in
/-- When the occurrence that is tried is the first one, and what is returned is its position. -/
theorem TriedIndex.patternIndex_iff {t : List MboxChar} {r : Int} (h : TriedIndex key p t r) :
    PatternIndex key p t r ↔ (∀ s, ¬ Occurs key p t s) ∨
      ∃ s s', FirstOccurs key p t s ∧ Tried key p t s' ∧ Occurs key p t s' ∧ toInt s' = s := by
  constructor
  · rintro (⟨s, hfirst, rfl⟩ | ⟨hnone, -⟩)
    · rcases h with ⟨s', htried, hocc, heq⟩ | ⟨-, hneg⟩
      · exact Or.inr ⟨s, s', hfirst, htried, hocc, heq.symm⟩
      · cases hneg
    · exact Or.inl hnone
  · rintro (hnone | ⟨s, s', hfirst, htried, hocc, heq⟩)
    · rcases h with ⟨s', -, hocc, -⟩ | ⟨-, rfl⟩
      · exact absurd hocc (hnone s')
      · exact Or.inr ⟨hnone, rfl⟩
    · rcases h with ⟨s'', htried', hocc', hr⟩ | ⟨hnone, -⟩
      · obtain rfl := hocc.tried_unique htried hocc' htried'
        exact Or.inl ⟨s, hfirst, hr.trans heq⟩
      · exact absurd hocc (hnone s' htried)

/-- The first occurrence is found when its index fits an `int` and the positions that lead up to it
match. -/
theorem TriedIndex.patternIndex {t : List MboxChar} {r : Int} (h : TriedIndex key p t r)
    (hp : p ≠ [])
    (hmatch : ∀ s, FirstOccurs key p t s → s < 2 ^ 31 ∧ LeadersMatch key p t s) :
    PatternIndex key p t r := by
  classical
  rw [h.patternIndex_iff]
  by_cases hex : ∃ s, Occurs key p t s
  · have hfirst : FirstOccurs key p t (Nat.find hex) :=
      ⟨Nat.find_spec hex, fun s' hs' => Nat.find_min hex hs'⟩
    obtain ⟨hfits, hleaders⟩ := hmatch _ hfirst
    exact Or.inr ⟨_, _, hfirst, hleaders.tried hp hfirst, hfirst.1, toInt_of_lt hfits⟩
  · exact Or.inl fun s hs => hex ⟨s, hs⟩

/-- In a text whose indices fit an `int` it is found when equal keys mean equal bytes. -/
theorem TriedIndex.patternIndex_of_injOn {t : List MboxChar} {r : Int}
    (h : TriedIndex key p t r) (hp : p ≠ [])
    (hinj : ∀ a ∈ p, ∀ b ∈ p, key a = key b → a = b) (ht : t.length < 2 ^ 31) :
    PatternIndex key p t r := by
  refine h.patternIndex hp fun s hfirst => ⟨?_, leadersMatch_of_injOn hinj s⟩
  have hle := hfirst.1.le_length hp
  omega

/-- The search without a table does what the one with the table does. -/
theorem containsPattern_spec (key : MboxChar → β) (hbuf : buf.len ≤ buf.data.length) (hp : p ≠ [])
    (hfits : FitsInt p) :
    ∃ table r, Converges (fun n => mboxBufComputePrefixTable n p p.length) table ∧
      Converges (fun n => containsWithTable key n buf table p p.length) r ∧
      Converges (fun n => containsPattern key n buf p p.length) r ∧
      TriedIndex key p buf.text r := by
  obtain ⟨table, hrun, htable, hlen⟩ := computePrefixTable_spec hp hfits
  obtain ⟨r, hrun', hr⟩ := containsWithTable_spec key hbuf hp htable hlen
  exact ⟨table, r, hrun, hrun', Converges.bind hrun hrun', hr⟩

/-! ## Search by bytes -/

/-- `mboxBufContainsPattern` returns the index of the first occurrence, or -1. -/
def FindsPattern (buf : MboxBuf) (p : List MboxChar) : Prop :=
  ∃ r, Converges (fun n => mboxBufContainsPattern n buf p p.length) r ∧
    PatternIndex id p buf.text r

theorem containsPattern_fitsInt (hp : p ≠ []) {r : Int}
    (h : Converges (fun n => containsPattern key n buf p p.length) r) : FitsInt p := by
  obtain ⟨n, hn⟩ := h.exists_ok
  obtain ⟨table, htable, -⟩ := bind_eq_ok hn
  exact fitsInt_of_converges hp (computePrefixTable_mono.converges htable)

/-- **Search by bytes is exact**, exactly when the borders of the pattern fit an `int`, in which the
computation of the table counts them. -/
theorem findsPattern_iff (hbuf : buf.len ≤ buf.data.length) (hlen : buf.len < 2 ^ 31)
    (hp : p ≠ []) : FindsPattern buf p ↔ FitsInt p := by
  constructor
  · rintro ⟨r, hrun, -⟩
    exact containsPattern_fitsInt hp hrun
  · intro hfits
    obtain ⟨table, r, -, -, hrun, hr⟩ := containsPattern_spec id hbuf hp hfits
    have ht : buf.text.length < 2 ^ 31 := lt_of_le_of_lt buf.text_length_le hlen
    exact ⟨r, hrun, hr.patternIndex_of_injOn hp (fun _ _ _ _ h => h) ht⟩

/-- `"aabaaa"` is laid against `"aabaabaaa"` a second time at a border of what agreed. -/
theorem findsPattern_iff_selfOverlapping :
    FindsPattern ⟨str "aabaabaaa" ++ [nul], 0, 9, 10⟩ (str "aabaaa") ↔ FitsInt (str "aabaaa") :=
  findsPattern_iff (by decide) (by decide) (List.cons_ne_nil _ _)

theorem replicate_not_fitsInt (c : MboxChar) : ¬ FitsInt (List.replicate (2 ^ 31 + 1) c) := by
  intro hfits
  refine absurd (hfits.borders (2 ^ 31 + 1) (2 ^ 31) (List.length_replicate ..).ge ?_)
    (Nat.lt_irrefl _)
  refine ⟨Nat.lt_succ_self _, fun i hi => ?_⟩
  rw [List.getElem?_replicate_of_lt (by omega), List.getElem?_replicate_of_lt (by omega)]

/-- A pattern with such a border is not searched for, since the table cannot be computed. -/
theorem replicate_not_found :
    ¬ FindsPattern ⟨[97, 0], 0, 1, 1⟩ (List.replicate (2 ^ 31 + 1) 97) := by
  rintro ⟨r, hrun, -⟩
  exact replicate_not_fitsInt 97 (containsPattern_fitsInt (List.cons_ne_nil _ _) hrun)

/-! ## Search by lower case -/

/-- `mboxBufContainsCasePattern`, and the search with the table that is computed, return the index
of the first occurrence in either case, or -1. -/
def FindsCasePattern (buf : MboxBuf) (p : List MboxChar) : Prop :=
  ∃ table r, Converges (fun n => mboxBufComputePrefixTable n p p.length) table ∧
    Converges (fun n => mboxBufContainsCasePatternWithTable n buf table p p.length) r ∧
    Converges (fun n => mboxBufContainsCasePattern n buf p p.length) r ∧
    PatternIndex tolower p buf.text r

/-- What the search by lower case makes of a text depends on the positions the pattern is laid
against: one of them is to be an occurrence, with an index that as an `int` is that of the first. -/
theorem findsCasePattern_iff_tried (hbuf : buf.len ≤ buf.data.length) (hp : p ≠ []) :
    FindsCasePattern buf p ↔ FitsInt p ∧ ((∀ s, ¬ Occurs tolower p buf.text s) ∨
      ∃ s s', FirstOccurs tolower p buf.text s ∧ Tried tolower p buf.text s' ∧
        Occurs tolower p buf.text s' ∧ toInt s' = s) := by
  constructor
  · rintro ⟨table, r, -, -, hrun, hindex⟩
    have hfits := containsPattern_fitsInt hp hrun
    obtain ⟨-, r', -, -, hrun', hr⟩ := containsPattern_spec tolower hbuf hp hfits
    obtain rfl := hrun.unique hrun'
    exact ⟨hfits, hr.patternIndex_iff.mp hindex⟩
  · rintro ⟨hfits, hreached⟩
    obtain ⟨table, r, htable, hrun, hrun', hr⟩ :=
      containsPattern_spec tolower hbuf hp hfits
    exact ⟨table, r, htable, hrun, hrun', hr.patternIndex_iff.mpr hreached⟩

/-- **Search by lower case is exact** when the borders of the pattern fit an `int`, the index of
the first occurrence does, and the positions up to it at which the pattern agrees further than
before overlap in the same letter case. -/
theorem findsCasePattern_of_leadersMatch (hbuf : buf.len ≤ buf.data.length) (hp : p ≠ [])
    (hfits : FitsInt p) (hmatch : ∀ s, FirstOccurs tolower p buf.text s →
      s < 2 ^ 31 ∧ LeadersMatch tolower p buf.text s) : FindsCasePattern buf p := by
  obtain ⟨table, r, htable, hrun, hrun', hr⟩ := containsPattern_spec tolower hbuf hp hfits
  exact ⟨table, r, htable, hrun, hrun', hr.patternIndex hp hmatch⟩

/-- In `"AaAb"` the pattern `"aaB"` agrees for two letters and moves on by one. -/
theorem findsCasePattern_of_leadersMatch_selfOverlapping :
    FindsCasePattern ⟨str "AaAb" ++ [nul], 0, 4, 5⟩ (str "aaB") := by
  refine findsCasePattern_of_leadersMatch (by decide) (List.cons_ne_nil _ _)
    ⟨by decide, fun q b hq hb => ?_⟩ fun s hfirst => ?_
  · have hlt := hb.1
    have hlen : q ≤ 3 := hq
    omega
  · have hocc : Occurs tolower (str "aaB") (MboxBuf.text ⟨str "AaAb" ++ [nul], 0, 4, 5⟩) 1 := by
      decide
    have hle : s ≤ 1 := not_lt.mp fun hlt => hfirst.2 1 hlt hocc
    refine ⟨by omega, fun r r' q hlt hr' _ _ hstop hover => ?_⟩
    have hq : q < 3 := hstop.lt_pattern
    obtain ⟨rfl, rfl⟩ : r = 0 ∧ r' = 1 := by omega
    have hagree : Agree tolower (str "aaB") (MboxBuf.text ⟨str "AaAb" ++ [nul], 0, 4, 5⟩) 0 2 := by
      unfold Agree
      decide
    obtain rfl : q = 2 := le_antisymm (Nat.le_of_lt_succ hq) (hstop.le_of_agree hagree)
    unfold Border
    decide

/-- Two of the three conditions cannot be done without: the table fits an `int`, and so does the
position. -/
theorem FindsCasePattern.fits (hbuf : buf.len ≤ buf.data.length) (hp : p ≠ [])
    (h : FindsCasePattern buf p) :
    FitsInt p ∧ ∀ s, FirstOccurs tolower p buf.text s → s < 2 ^ 31 := by
  obtain ⟨hfits, hfound⟩ := (findsCasePattern_iff_tried hbuf hp).mp h
  refine ⟨hfits, fun s hfirst => ?_⟩
  rcases hfound with hnone | ⟨s₁, s', hfirst₁, -, -, heq⟩
  · exact absurd hfirst.1 (hnone s)
  · obtain rfl : s = s₁ := by
      rcases Nat.lt_trichotomy s s₁ with hlt | heq | hgt
      · exact absurd hfirst.1 (hfirst₁.2 s hlt)
      · exact heq
      · exact absurd hfirst₁.1 (hfirst.2 s₁ hgt)
    have hlt : toInt s' < (2 ^ 32 + 1) / 2 := Int.bmod_lt (by decide)
    omega

/-- A pattern with no letter in both cases is found. -/
theorem findsCasePattern_of_injOn (hbuf : buf.len ≤ buf.data.length) (hlen : buf.len < 2 ^ 31)
    (hp : p ≠ []) (hfits : FitsInt p)
    (hcase : ∀ a ∈ p, ∀ b ∈ p, tolower a = tolower b → a = b) : FindsCasePattern buf p := by
  obtain ⟨table, r, htable, hrun, hrun', hr⟩ := containsPattern_spec tolower hbuf hp hfits
  have ht : buf.text.length < 2 ^ 31 := lt_of_le_of_lt buf.text_length_le hlen
  exact ⟨table, r, htable, hrun, hrun', hr.patternIndex_of_injOn hp hcase ht⟩

/-- `"aAb"` in `"aaAb"`: the table has no border for `"aA"`, so it is moved over the second `a`. -/
theorem mixedCase_not_found :
    ¬ FindsCasePattern ⟨[97, 97, 65, 98, 0], 0, 4, 4⟩ [97, 65, 98] := by
  rintro ⟨table, r, -, -, hrun, hindex⟩
  have hcode : Converges (fun n => mboxBufContainsCasePattern n
      ⟨[97, 97, 65, 98, 0], 0, 4, 4⟩ [97, 65, 98] 3) (-1) :=
    containsPattern_mono.converges (n := 6) (by decide)
  obtain rfl := hrun.unique hcode
  rcases hindex with ⟨s, -, hneg⟩ | ⟨hnone, -⟩
  · cases hneg
  · exact hnone 1 (by decide)

end Libmbox2
