import Mathlib.Data.List.TakeWhile
import Mathlib.Logic.Nontrivial.Defs
import Libmbox2.Buf
import Libmbox2.RbMap

/-!
# Header names as keys (`mbox-common-headers.c`, `mboxBufCaseCmp`)

Headers are kept in a tree by name. The comparator compares over the shorter of the two
names, so a name and a longer one that begins with it are equal to it: it is a comparator
(`isComparator_mboxBufCaseCmp`), but not a total preorder. What a lookup of a name then
gives is the first entry with that name exactly when nothing that is kept is taken for the
name by mistake and an entry with the name is kept if there is one.
-/

namespace Libmbox2

open CSem CSem.Exec

/-- `tolower` of the "C" locale: the capitals of ASCII become small letters, everything else is
kept. -/
def tolower (c : MboxChar) : MboxChar := if 65 ≤ c ∧ c ≤ 90 then c + 32 else c

/-- The blocks the two strings are in reach as far as is compared. -/
def strncasecmp : List MboxChar → List MboxChar → ℕ → Int
  | a :: s, b :: t, n + 1 =>
    if tolower a ≠ tolower b ∨ a = nul then (tolower a).toNat - (tolower b).toNat
    else strncasecmp s t n
  | _, _, _ => 0

/-- `mboxBufCaseCmp`: two names compared without case over the length of the shorter one, as the
dictionary of headers orders its keys. -/
def mboxBufCaseCmp (b1 b2 : MboxBuf) : Int :=
  strncasecmp b1.data b2.data (min b1.len b2.len)

/-- The bytes of a string literal, without the NUL that ends it. -/
def str (s : String) : List MboxChar := s.toList.map fun c => UInt8.ofNat c.toNat

/-- `mboxExpectedHeaders`: string literals, with their NUL, by the number of the header. -/
def mboxExpectedHeaders : List MboxBuf :=
  [⟨str "__FROM_LINE__" ++ [nul], 0, 13, 0⟩,
    ⟨str "Content-Type" ++ [nul], 0, 12, 0⟩,
    ⟨str "Content-Transfer-Encoding" ++ [nul], 0, 25, 0⟩,
    ⟨str "From" ++ [nul], 0, 4, 0⟩,
    ⟨str "Date" ++ [nul], 0, 4, 0⟩,
    ⟨str "X-Gmail-Labels" ++ [nul], 0, 14, 0⟩,
    -- one more than the name has
    ⟨str "Subject" ++ [nul], 0, 8, 0⟩,
    ⟨str "Message-ID" ++ [nul], 0, 10, 0⟩]

/-- `mboxHeadersGet`: the value stored under one of the names the parser knows. -/
def mboxHeadersGet {V : Type} (h : Heap (RbNode MboxBuf V)) (headers : MboxRBTree) (fuel : ℕ)
    (header : ℕ) : Exec (Option V) :=
  match mboxExpectedHeaders[header]? with
  | some key => mboxRBTreeGet mboxBufCaseCmp h headers fuel key
  | none => fault

/-- The name a buffer holds: its contents up to a NUL, where `strncasecmp` stops. -/
def MboxBuf.name (buf : MboxBuf) : List MboxChar := buf.bytes.takeWhile (· ≠ nul)

/-- The same name, ignoring case, as header names are compared outside of the dictionary. -/
def sameName (s t : List MboxChar) : Prop := s.map tolower = t.map tolower

instance (s t : List MboxChar) : Decidable (sameName s t) :=
  inferInstanceAs (Decidable (s.map tolower = t.map tolower))

/-! ## Comparing contents -/

/-- `strncasecmp` over the shorter of the two, which takes a name for every longer one that begins
with it. -/
def caseCmp : List MboxChar → List MboxChar → Int
  | a :: s, b :: t =>
    if tolower a ≠ tolower b ∨ a = nul then (tolower a).toNat - (tolower b).toNat
    else caseCmp s t
  | _, _ => 0

/-- `strncasecmp` over the smaller of two lengths compares what both have within it. -/
theorem strncasecmp_min (s t : List MboxChar) (m n : ℕ) :
    strncasecmp s t (min m n) = caseCmp (s.take m) (t.take n) := by
  induction s generalizing t m n with
  | nil => rw [strncasecmp.eq_def, List.take_nil, caseCmp.eq_def]
  | cons a s ih =>
    cases t with
    | nil => cases m <;> simp [strncasecmp, caseCmp]
    | cons b t =>
      cases m with
      | zero => simp [strncasecmp, caseCmp]
      | succ m =>
        cases n with
        | zero => simp [strncasecmp, caseCmp]
        | succ n =>
          rw [Nat.succ_min_succ, strncasecmp, ih, List.take_succ_cons, List.take_succ_cons, caseCmp]

theorem mboxBufCaseCmp_eq (b1 b2 : MboxBuf) : mboxBufCaseCmp b1 b2 = caseCmp b1.bytes b2.bytes :=
  strncasecmp_min ..

/-- Only a NUL becomes a NUL. -/
theorem tolower_eq_nul {a : MboxChar} : tolower a = nul ↔ a = nul := by
  rw [tolower]
  split
  · rename_i hupper
    simp only [UInt8.le_iff_toNat_le, ← UInt8.toNat_inj, UInt8.toNat_add] at hupper ⊢
    simp only [UInt8.toNat_ofNat] at hupper ⊢
    omega
  · exact Iff.rfl

/-- Of two bytes that are equal without case both are a NUL or neither is. -/
theorem nul_of_tolower {a b : MboxChar} (h : tolower a = tolower b) (ha : a = nul) : b = nul := by
  rw [← tolower_eq_nul, ← h, tolower_eq_nul]
  exact ha

section CaseCmp

variable {a b : MboxChar} {s t u : List MboxChar}

/-- The first bytes decide, unless they are equal and there is more to compare. -/
theorem caseCmp_cons :
    caseCmp (a :: s) (b :: t) =
      if tolower a ≠ tolower b ∨ a = nul then ((tolower a).toNat : Int) - (tolower b).toNat
      else caseCmp s t := rfl

/-- When a name is less: at its first byte, or behind an equal one that is no NUL. -/
theorem caseCmp_lt :
    caseCmp (a :: s) (b :: t) < 0 ↔
      (tolower a).toNat < (tolower b).toNat ∨
        tolower a = tolower b ∧ a ≠ nul ∧ caseCmp s t < 0 := by
  have hinj := UInt8.toNat_inj (a := tolower a) (b := tolower b)
  rw [caseCmp_cons]
  split <;> grind

/-- When it is greater, in the same way. -/
theorem caseCmp_gt :
    0 < caseCmp (a :: s) (b :: t) ↔
      (tolower b).toNat < (tolower a).toNat ∨
        tolower a = tolower b ∧ a ≠ nul ∧ 0 < caseCmp s t := by
  have hinj := UInt8.toNat_inj (a := tolower a) (b := tolower b)
  rw [caseCmp_cons]
  split <;> grind

/-- When it is equal: the first bytes are, and the comparison ends there or goes on and finds
nothing. -/
theorem caseCmp_eq :
    caseCmp (a :: s) (b :: t) = 0 ↔
      tolower a = tolower b ∧ (a = nul ∨ caseCmp s t = 0) := by
  have hinj := UInt8.toNat_inj (a := tolower a) (b := tolower b)
  rw [caseCmp_cons]
  split <;> grind

@[simp] theorem caseCmp_nil_left : caseCmp [] t = 0 := by rw [caseCmp.eq_def]

@[simp] theorem caseCmp_nil_right : caseCmp s [] = 0 := by cases s <;> rfl

/-- What the insertions need of a comparison: it is antisymmetric and transitive where it is strict.
Equality by it is no equivalence. -/
theorem isComparator_caseCmp : IsComparator caseCmp where
  symm := by
    intro s t
    induction s generalizing t with
    | nil => simp
    | cons a s ih =>
      cases t with
      | nil => simp
      | cons b t =>
        rw [caseCmp_lt, caseCmp_gt, ih]
        refine or_congr Iff.rfl ⟨fun ⟨hab, ha, hlt⟩ => ?_, fun ⟨hab, hb, hlt⟩ => ?_⟩
        · exact ⟨hab.symm, mt (nul_of_tolower hab.symm) ha, hlt⟩
        · exact ⟨hab.symm, mt (nul_of_tolower hab.symm) hb, hlt⟩
  trans := by
    intro s t u
    induction s generalizing t u with
    | nil => simp
    | cons a s ih =>
      cases t with
      | nil => simp
      | cons b t =>
        cases u with
        | nil => simp
        | cons c u =>
          rw [caseCmp_lt, caseCmp_lt, caseCmp_lt]
          rintro (hab | ⟨hab, ha, hst⟩) (hbc | ⟨hbc, hb, htu⟩)
          · exact Or.inl (hab.trans hbc)
          · exact Or.inl (hbc ▸ hab)
          · exact Or.inl (hab ▸ hbc)
          · exact Or.inr ⟨hab.trans hbc, ha, ih hst htu⟩

end CaseCmp

/-- The comparison of buffers has the same properties. -/
theorem isComparator_mboxBufCaseCmp : IsComparator mboxBufCaseCmp where
  symm := by
    intro b1 b2
    rw [mboxBufCaseCmp_eq, mboxBufCaseCmp_eq]
    exact isComparator_caseCmp.symm _ _
  trans := by
    intro b1 b2 b3
    rw [mboxBufCaseCmp_eq, mboxBufCaseCmp_eq, mboxBufCaseCmp_eq]
    exact isComparator_caseCmp.trans

/-! ## Names and what is taken for them -/

section Names

variable {s t u rest : List MboxChar}

/-- What has the name, or goes on behind it, is taken for it. -/
theorem caseCmp_of_sameName (hst : sameName s t) : caseCmp (s ++ rest) t = 0 := by
  induction s generalizing t with
  | nil =>
    obtain rfl : t = [] := List.map_eq_nil_iff.1 hst.symm
    rw [caseCmp_nil_right]
  | cons a s ih =>
    cases t with
    | nil => rw [caseCmp_nil_right]
    | cons b t =>
      obtain ⟨hab, hst⟩ := List.cons.inj hst
      rw [List.cons_append, caseCmp_eq]
      exact ⟨hab, Or.inr (ih hst)⟩

/-- A name compares with what it is taken for as its equals do. -/
theorem caseCmp_of_taken (hs : nul ∉ s) (hst : sameName s t) (hu : caseCmp (s ++ rest) u = 0) :
    caseCmp t u = 0 := by
  induction s generalizing t u with
  | nil =>
    obtain rfl : t = [] := List.map_eq_nil_iff.1 hst.symm
    rw [caseCmp_nil_left]
  | cons a s ih =>
    cases t with
    | nil => rw [caseCmp_nil_left]
    | cons b t =>
      cases u with
      | nil => rw [caseCmp_nil_right]
      | cons c u =>
        rw [List.mem_cons, not_or] at hs
        obtain ⟨hab, hst⟩ := List.cons.inj hst
        rw [List.cons_append, caseCmp_eq] at hu
        obtain ⟨hac, hnul | hsu⟩ := hu
        · exact absurd hnul.symm hs.1
        · exact caseCmp_eq.2 ⟨hab.symm.trans hac, Or.inr (ih hs.2 hst hsu)⟩

end Names

namespace MboxBuf

variable (buf : MboxBuf)

theorem nul_notMem_name : nul ∉ buf.name := fun hmem => by
  simpa using List.mem_takeWhile_imp hmem

/-- A buffer holds its name, and what is behind it. -/
theorem name_append : ∃ rest, buf.bytes = buf.name ++ rest :=
  ⟨_, (List.takeWhile_append_dropWhile ..).symm⟩

end MboxBuf

/-- The entries with the name of `k`, and the keys that are taken for it. -/
theorem asked_name (k : MboxBuf) {names : List MboxBuf} (hnames : ∀ n ∈ names, nul ∉ n.bytes) :
    Asked mboxBufCaseCmp names (fun n => sameName k.name n.bytes)
      (fun n => mboxBufCaseCmp k n = 0) := by
  obtain ⟨rest, hrest⟩ := k.name_append
  refine ⟨fun x hx hkx => ?_, fun x hx y hy hkx hky => ?_, fun x hx x' hx' y hy hkx hkx' hxy => ?_⟩
  · rw [mboxBufCaseCmp_eq, hrest]
    exact caseCmp_of_sameName hkx
  · rw [mboxBufCaseCmp_eq, hrest] at hky
    rw [mboxBufCaseCmp_eq]
    exact caseCmp_of_taken k.nul_notMem_name hkx hky
  · rw [mboxBufCaseCmp_eq, ← List.append_nil x.bytes] at hxy
    rw [mboxBufCaseCmp_eq]
    exact caseCmp_of_taken (hnames x hx) (hkx.symm.trans hkx') hxy

/-! ## Lookups -/

/-- `value i` is what is given with the `i`th name. -/
def headerEntries {V : Type} (names : List MboxBuf) (value : ℕ → V) :
    List (MboxBuf × Option V) :=
  names.zipIdx.map fun p => (p.1, some (value p.2))

/-- Whatever values are given, `get` on the tree of the names gives the one that was given
first with the name, and null if there is none. -/
def Answers (V : Type) (h : Heap (RbNode MboxBuf V)) (names : List MboxBuf) (name : List MboxChar)
    (get : Heap (RbNode MboxBuf V) → MboxRBTree → ℕ → Exec (Option V)) : Prop :=
  ∀ value : ℕ → V, ∃ h₀ t₀ h' t', rbTreeNew h = ok (h₀, t₀) ∧
    Converges (fun n => insertAll mboxBufCaseCmp n (headerEntries names value) (h₀, t₀)) (h', t') ∧
    Converges (get h' t')
      (((headerEntries names value).find? fun e => sameName name e.1.bytes).bind Prod.snd)

variable {V : Type} {h : Heap (RbNode MboxBuf V)} {snt₀ : RbNode MboxBuf V}

/-- The names that are kept are those that are not taken for one that is. -/
def KeptApart (names : List MboxBuf) (k : MboxBuf) : Prop :=
  (∀ n ∈ keptKeys mboxBufCaseCmp names, mboxBufCaseCmp k n = 0 → sameName k.name n.bytes) ∧
    ((∃ n ∈ names, sameName k.name n.bytes) →
      ∃ n ∈ keptKeys mboxBufCaseCmp names, sameName k.name n.bytes)

instance (names : List MboxBuf) (k : MboxBuf) : Decidable (KeptApart names k) :=
  inferInstanceAs (Decidable (_ ∧ _))

theorem map_fst_headerEntries (names : List MboxBuf) (value : ℕ → V) :
    (headerEntries names value).map Prod.fst = names := by
  rw [headerEntries, List.map_map]
  exact List.zipIdx_map_fst ..

/-- The tree of the names, and what a lookup gives. -/
theorem headers_lookup (hsnt : h.get rbSentinal = some snt₀) (es : List (MboxBuf × Option V))
    (k : MboxBuf) :
    ∃ h₀ t₀ h' t', ∃ L : List (MboxBuf × Option V), rbTreeNew h = ok (h₀, t₀) ∧
      Converges (fun n => insertAll mboxBufCaseCmp n es (h₀, t₀)) (h', t') ∧
      L.Perm (firstWrites mboxBufCaseCmp es) ∧
      L.Pairwise (fun x y => mboxBufCaseCmp x.1 y.1 < 0) ∧
      ((∃ e ∈ L, mboxBufCaseCmp k e.1 = 0 ∧
        Converges (fun n => mboxRBTreeGet mboxBufCaseCmp h' t' n k) e.2) ∨
      ((∀ e ∈ L, mboxBufCaseCmp k e.1 ≠ 0) ∧
        Converges (fun n => mboxRBTreeGet mboxBufCaseCmp h' t' n k) none)) := by
  obtain ⟨h₀, snt, hnew, ht₀⟩ := rbTreeNew_spec mboxBufCaseCmp hsnt
  obtain ⟨h', t', T, hrun, ht, hperm⟩ := insertAll_spec isComparator_mboxBufCaseCmp es ht₀
  exact ⟨h₀, _, h', t', entriesOf T, hnew, hrun, hperm, entriesOf_ascending ht,
    ht.get_spec isComparator_mboxBufCaseCmp k⟩

/-- What is kept of the entries is kept of the names. -/
theorem mem_keptKeys (names : List MboxBuf) (value : ℕ → V) (n : MboxBuf) :
    n ∈ keptKeys mboxBufCaseCmp names ↔
      ∃ e ∈ firstWrites mboxBufCaseCmp (headerEntries names value), e.1 = n := by
  rw [← map_fst_headerEntries names value, ← map_fst_firstWrites, List.mem_map,
    map_fst_headerEntries]

/-- **Where the names are kept apart the lookup answers**: no stored name is equal to another one or
to the one looked up unless it is the same. -/
theorem answers_of_keptApart (hsnt : h.get rbSentinal = some snt₀) {names : List MboxBuf}
    (hnames : ∀ n ∈ names, nul ∉ n.bytes) {k : MboxBuf} (hkept : KeptApart names k) :
    Answers V h names k.name fun h' t' n => mboxRBTreeGet mboxBufCaseCmp h' t' n k := by
  intro value
  have hfst := map_fst_headerEntries names value
  have hask := asked_name k hnames
  rw [← hfst] at hask
  have hQ : ∀ e ∈ firstWrites mboxBufCaseCmp (headerEntries names value),
      mboxBufCaseCmp k e.1 = 0 → sameName k.name e.1.bytes :=
    fun e he => hkept.1 e.1 ((mem_keptKeys names value _).2 ⟨e, he, rfl⟩)
  have hfind := find_kept isComparator_mboxBufCaseCmp hask hQ fun ⟨e, he, hname⟩ => by
    have hn : e.1 ∈ names := hfst ▸ List.mem_map_of_mem he
    obtain ⟨n, hn', hname'⟩ := hkept.2 ⟨e.1, hn, hname⟩
    obtain ⟨e', he', rfl⟩ := (mem_keptKeys names value n).1 hn'
    exact ⟨e', he', hname'⟩
  obtain ⟨h₀, t₀, h', t', L, hnew, hrun, hperm, hasc, hget⟩ :=
    headers_lookup hsnt (headerEntries names value) k
  refine ⟨h₀, t₀, h', t', hnew, hrun, ?_⟩
  rw [← hfind]
  rcases hget with ⟨e, he, hke, hget⟩ | ⟨hnone, hget⟩
  · -- what is found is the one entry that is taken for the name
    obtain ⟨x, hx⟩ := Option.isSome_iff_exists.1
      ((List.find?_isSome (p := fun e => decide (mboxBufCaseCmp k e.1 = 0))).2
        ⟨e, hperm.mem_iff.1 he, decide_eq_true hke⟩)
    have hxmem := List.mem_of_find?_eq_some hx
    have hsome := List.find?_some hx
    have hkx : mboxBufCaseCmp k x.1 = 0 := by simpa using hsome
    have hkey : ∀ e ∈ firstWrites mboxBufCaseCmp (headerEntries names value),
        e.1 ∈ (headerEntries names value).map Prod.fst := fun e he =>
      List.mem_map_of_mem (mem_of_mem_firstWrites he)
    have hxe := hask.equal x.1 (hkey x hxmem) e.1 (hkey e (hperm.mem_iff.1 he))
      (hQ x hxmem hkx) hke
    rw [hx, eq_of_ascending isComparator_mboxBufCaseCmp hasc (hperm.mem_iff.2 hxmem) he hxe]
    exact hget
  · rw [List.find?_eq_none.2 fun e he => by simpa using hnone e (hperm.mem_iff.2 he)]
    exact hget

/-- Values that tell whether an entry has the name: the dictionary is asked for one that only such
entries have. -/
theorem exists_telling [Nontrivial V] (names : List MboxBuf) (k : MboxBuf) :
    ∃ (v : V) (value : ℕ → V),
      (∀ e ∈ headerEntries names value, e.2 = some v → sameName k.name e.1.bytes) ∧
      (∀ e ∈ headerEntries names value, e.2 ≠ none) ∧
      ((headerEntries names value).find? fun e => sameName k.name e.1.bytes).bind Prod.snd =
        if ∃ n ∈ names, sameName k.name n.bytes then some v else none := by
  obtain ⟨v, w, hvw⟩ := exists_pair_ne V
  obtain ⟨value, hvalue⟩ : ∃ value : ℕ → V, ∀ e ∈ headerEntries names value,
      e.2 = some (if sameName k.name e.1.bytes then v else w) := by
    refine ⟨fun i => if sameName k.name ((names[i]?.map MboxBuf.bytes).getD []) then v else w,
      fun e he => ?_⟩
    obtain ⟨p, hp, rfl⟩ := List.mem_map.1 he
    have hi := List.mem_zipIdx_iff_getElem?.1 hp
    simp only [hi, Option.map_some, Option.getD_some]
  have hfst := map_fst_headerEntries names value
  refine ⟨v, value, fun e he hev => ?_, fun e he hnone => ?_, ?_⟩
  · rw [hvalue e he, Option.some.injEq] at hev
    by_contra hne
    rw [if_neg hne] at hev
    exact hvw hev.symm
  · rw [hvalue e he] at hnone
    cases hnone
  · cases hfind : (headerEntries names value).find? fun e => sameName k.name e.1.bytes with
    | none =>
      rw [List.find?_eq_none] at hfind
      have hnone : ¬ ∃ n ∈ names, sameName k.name n.bytes := by
        rintro ⟨n, hn, hkn⟩
        rw [← hfst] at hn
        obtain ⟨e, he, rfl⟩ := List.mem_map.1 hn
        exact hfind e he (decide_eq_true hkn)
      rw [if_neg hnone, Option.bind_none]
    | some e =>
      have he := List.mem_of_find?_eq_some hfind
      have hsome := List.find?_some hfind
      have hke : sameName k.name e.1.bytes := by simpa using hsome
      rw [if_pos ⟨e.1, hfst ▸ List.mem_map_of_mem he, hke⟩, Option.bind_some, hvalue e he,
        if_pos hke]

/-- **And only there**: a name the comparison takes for another one gets that one's value for some
values that are stored. -/
theorem keptApart_of_answers [Nontrivial V] (hsnt : h.get rbSentinal = some snt₀)
    {names : List MboxBuf} (hnames : ∀ n ∈ names, nul ∉ n.bytes) {k : MboxBuf}
    (hans : Answers V h names k.name fun h' t' n => mboxRBTreeGet mboxBufCaseCmp h' t' n k) :
    KeptApart names k := by
  obtain ⟨v, value, hname, hsome, hexp⟩ := exists_telling (V := V) names k
  have hfst := map_fst_headerEntries names value
  have hask := asked_name k hnames
  obtain ⟨h₀, t₀, h', t', hnew, hrun, hget⟩ := hans value
  obtain ⟨h₁, t₁, h₂, t₂, L, hnew', hrun', hperm, hasc, hget'⟩ :=
    headers_lookup hsnt (headerEntries names value) k
  obtain ⟨rfl, rfl⟩ : h₀ = h₁ ∧ t₀ = t₁ := by
    rw [hnew] at hnew'
    simpa using hnew'
  obtain ⟨rfl, rfl⟩ : h' = h₂ ∧ t' = t₂ := by simpa using hrun.unique hrun'
  rw [hexp] at hget
  have hmemL : ∀ e ∈ L, e ∈ headerEntries names value := fun e he =>
    mem_of_mem_firstWrites (hperm.mem_iff.1 he)
  have hkeptL : ∀ n ∈ keptKeys mboxBufCaseCmp names, ∃ e ∈ L, e.1 = n := fun n hn => by
    obtain ⟨e, he, hen⟩ := (mem_keptKeys names value n).1 hn
    exact ⟨e, hperm.mem_iff.2 he, hen⟩
  have hkey : ∀ e ∈ L, e.1 ∈ names := fun e he => hfst ▸ List.mem_map_of_mem (hmemL e he)
  -- the tree answers one value for the key, and the lookup is said to answer another
  rcases hget' with ⟨e, he, hke, hget'⟩ | ⟨hnone, hget'⟩
  · have hev := hget'.unique hget
    split at hev
    · have hsame := hname e (hmemL e he) hev
      refine ⟨fun n hn hkn => ?_, fun _ => ⟨e.1, ?_, hsame⟩⟩
      · obtain ⟨e', he', rfl⟩ := hkeptL n hn
        have heq := hask.equal e.1 (hkey e he) e'.1 (hkey e' he') hsame hkn
        rw [← eq_of_ascending isComparator_mboxBufCaseCmp hasc he he' heq]
        exact hsame
      · exact (mem_keptKeys names value _).2 ⟨e, hperm.mem_iff.1 he, rfl⟩
    · exact absurd hev (hsome e (hmemL e he))
  · have hev := hget'.unique hget
    split at hev
    · cases hev
    · rename_i habsent
      refine ⟨fun n hn hkn => ?_, fun hn => absurd hn habsent⟩
      obtain ⟨e', he', rfl⟩ := hkeptL n hn
      exact absurd hkn (hnone e' he')

/-- **When a lookup by name is right**: exactly when nothing that is kept is taken for the
name by mistake, and an entry with the name is kept if one was inserted. -/
theorem headers_answers_iff [Nontrivial V] (hsnt : h.get rbSentinal = some snt₀)
    (names : List MboxBuf) (hnames : ∀ n ∈ names, nul ∉ n.bytes) :
    (∀ k, Answers V h names k.name
        (fun h' t' n => mboxRBTreeGet mboxBufCaseCmp h' t' n k) ↔ KeptApart names k) ∧
      ∀ header k, mboxExpectedHeaders[header]? = some k →
        (Answers V h names k.name (fun h' t' n => mboxHeadersGet h' t' n header) ↔
          KeptApart names k) := by
  have hget : ∀ k, Answers V h names k.name
      (fun h' t' n => mboxRBTreeGet mboxBufCaseCmp h' t' n k) ↔ KeptApart names k :=
    fun k => ⟨keptApart_of_answers hsnt hnames, answers_of_keptApart hsnt hnames⟩
  refine ⟨hget, fun header k hk => ?_⟩
  simp only [mboxHeadersGet, hk]
  exact hget k

/-- One stored name, which is looked up in another case. -/
theorem headers_answers_iff_date :
    Answers Bool ⟨[some ⟨none, none, .red, none, none, none⟩]⟩ [⟨str "date" ++ [nul], 0, 4, 5⟩]
        (str "Date") (fun h' t' n => mboxHeadersGet h' t' n 4) ↔
      KeptApart [⟨str "date" ++ [nul], 0, 4, 5⟩] ⟨str "Date" ++ [nul], 0, 4, 0⟩ :=
  (headers_answers_iff rfl [⟨str "date" ++ [nul], 0, 4, 5⟩] (by decide)).2 4 _ rfl

/-- A longer name is taken for `Message-ID`, since the comparison ends with the shorter of the
two. -/
theorem not_answers_messageId :
    ¬ Answers Bool ⟨[some ⟨none, none, .red, none, none, none⟩]⟩
      [⟨str "Message-ID-Hash" ++ [nul], 0, 15, 16⟩] (str "Message-ID")
      (fun h' t' n => mboxHeadersGet h' t' n 7) := by
  intro hans
  have hkept := keptApart_of_answers (k := ⟨str "Message-ID" ++ [nul], 0, 10, 0⟩) rfl
    (by decide) hans
  exact absurd hkept (by decide)

end Libmbox2
