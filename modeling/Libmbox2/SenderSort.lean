import Mathlib.Data.List.Lex
import Libmbox2.MsgSort

/-!
# Sorting by sender (`mboxMsgListSortByFrom`)

Two senders are compared as far as the shorter one goes, so a sender is equal to all that it is
the beginning of, and that equality is not transitive. What becomes of a list then depends on the
pivots: a sender that goes on behind that of the pivot is put in front of it, and one that the
pivot goes on behind is put there too, where it belongs. So the list is sorted exactly when no
pivot is the beginning of another sender of its part (`sortsByFrom_iff`), and always when no
sender is the beginning of another one (`sortsByFrom_of_apart`).
-/

namespace Libmbox2

open CSem CSem.Exec

/-- `mboxBufNCaseCmp`: the first `size` bytes of two buffers are compared without case. -/
def mboxBufNCaseCmp (b1 b2 : MboxBuf) (size : ℕ) : Int := strncasecmp b1.data b2.data size

/-- `mboxMsgListCompareByFrom`: messages are compared by their senders over the length of the
shorter one, with `-1` where one of them has none. -/
def mboxMsgListCompareByFrom (m1 m2 : MboxMsgLite) : Int :=
  match m1.sender, m2.sender with
  | some from1, some from2 =>
    mboxBufNCaseCmp from1 from2 (if from1.len < from2.len then from1.len else from2.len)
  | _, _ => -1

/-- `mboxMsgListSortByFrom`: the list is sorted by that comparison. -/
def mboxMsgListSortByFrom (fuel : ℕ) (h : Heap (MboxLNode MboxMsgLite)) (l : MboxList) :
    Exec (Heap (MboxLNode MboxMsgLite) × MboxList) :=
  mboxListQSort (some mboxMsgListCompareByFrom) fuel h l

/-! ## The order of the senders -/

/-- What is compared of a string when case is ignored. -/
def folded (s : List MboxChar) : List ℕ := s.map fun c => (tolower c).toNat

/-- The string goes on behind the other one, in whatever case. -/
def Extends (s t : List MboxChar) : Prop := folded t <+: folded s ∧ folded t ≠ folded s

instance (s t : List MboxChar) : Decidable (Extends s t) := inferInstanceAs (Decidable (_ ∧ _))

section Order

variable {s t : List MboxChar}

theorem cons_le_cons_iff {a b : ℕ} {u v : List ℕ} : a :: u ≤ b :: v ↔ a < b ∨ a = b ∧ u ≤ v := by
  have hlt : a :: u < b :: v ↔ a < b ∨ a = b ∧ u < v := List.cons_lex_cons_iff
  rw [le_iff_lt_or_eq, hlt, List.cons.injEq, le_iff_lt_or_eq, or_assoc, ← and_or_left]

/-- The order of names without case, by their first bytes. -/
theorem folded_cons_le {a b : MboxChar} : folded (a :: s) ≤ folded (b :: t) ↔
    (tolower a).toNat < (tolower b).toNat ∨ tolower a = tolower b ∧ folded s ≤ folded t := by
  rw [← UInt8.toNat_inj]
  exact cons_le_cons_iff

/-- A name that is not greater is not greater to the comparison. -/
theorem caseCmp_le_of_folded_le (h : folded s ≤ folded t) : caseCmp s t ≤ 0 := by
  induction s generalizing t with
  | nil => rw [caseCmp_nil_left]
  | cons a s ih =>
    cases t with
    | nil => rw [caseCmp_nil_right]
    | cons b t =>
      rw [folded_cons_le] at h
      rw [caseCmp_cons]
      split
      · rcases h with hlt | ⟨heq, -⟩
        · omega
        · rw [heq]
          omega
      · next hsame =>
        rw [not_or, not_not] at hsame
        rcases h with hlt | ⟨-, hle⟩
        · rw [hsame.1] at hlt
          exact absurd hlt (Nat.lt_irrefl _)
        · exact ih hle

/-- Nor is one that begins with the other. -/
theorem caseCmp_le_of_folded (h : folded t <+: folded s) : caseCmp s t ≤ 0 := by
  induction s generalizing t with
  | nil => rw [caseCmp_nil_left]
  | cons a s ih =>
    cases t with
    | nil => rw [caseCmp_nil_right]
    | cons b t =>
      obtain ⟨heq, hrest⟩ := List.cons_prefix_cons.mp h
      rw [caseCmp_cons]
      split
      · rw [← UInt8.toNat_inj.mp heq, Int.sub_self]
      · exact ih hrest

/-- Without a NUL in it, a string that is not greater is less or equal, or goes on behind the other
one. -/
theorem folded_le_or_extends (hs : nul ∉ s) (h : caseCmp s t ≤ 0) :
    folded s ≤ folded t ∨ Extends s t := by
  induction s generalizing t with
  | nil => exact Or.inl (not_lt.mp (List.not_lt_nil _))
  | cons a s ih =>
    cases t with
    | nil => exact Or.inr ⟨List.nil_prefix, fun hnil => nomatch hnil⟩
    | cons b t =>
      rw [List.mem_cons, not_or] at hs
      rw [caseCmp_cons] at h
      rw [folded_cons_le]
      split at h
      · next hdiffer =>
        have hne : (tolower a).toNat ≠ (tolower b).toNat := fun heq =>
          (hdiffer.resolve_right (Ne.symm hs.1)) (UInt8.toNat_inj.mp heq)
        left
        left
        omega
      · next hsame =>
        rw [not_or, not_not] at hsame
        rcases ih hs.2 h with hle | ⟨hpre, hne⟩
        · exact Or.inl (Or.inr ⟨hsame.1, hle⟩)
        · right
          refine ⟨List.cons_prefix_cons.mpr ⟨congrArg UInt8.toNat hsame.1.symm, hpre⟩, ?_⟩
          exact fun heq => hne (List.cons.inj heq).2

/-- A longer name with another one in front of it is the greater one. -/
theorem Extends.lt (h : Extends s t) : folded t < folded s := by
  refine lt_of_le_of_ne (not_lt.mp ?_) h.2
  exact List.IsPrefix.le h.1

end Order

namespace MboxMsgLite

/-- The bytes of the sender, none where there is no sender. -/
def fromBytes (m : MboxMsgLite) : List MboxChar := (m.sender.map MboxBuf.bytes).getD []

/-- There is a sender, with no NUL in it, so all of it is compared. -/
structure HasSender (m : MboxMsgLite) : Prop where
  some : m.sender.isSome
  nul_notMem : nul ∉ m.fromBytes

variable {m m' : MboxMsgLite}

/-- Two messages with senders are compared by the bytes of these. -/
theorem HasSender.compareByFrom (h : m.HasSender) (h' : m'.HasSender) :
    mboxMsgListCompareByFrom m m' = caseCmp m.fromBytes m'.fromBytes := by
  obtain ⟨b, hb⟩ := Option.isSome_iff_exists.mp h.some
  obtain ⟨b', hb'⟩ := Option.isSome_iff_exists.mp h'.some
  have hmin : (if b.len < b'.len then b.len else b'.len) = min b.len b'.len := by
    split <;> omega
  simp only [mboxMsgListCompareByFrom, fromBytes, hb, hb', mboxBufNCaseCmp, hmin]
  exact strncasecmp_min ..

end MboxMsgLite

/-- The sort returns, and leaves the messages in the order of their senders, so that none with
another sender is between two with the same. -/
def SortsByFrom (h : Heap (MboxLNode MboxMsgLite)) (l : MboxList) (ps : List ℕ)
    (xs : List MboxMsgLite) : Prop :=
  ∃ h' l' ys, Converges (fun n => mboxMsgListSortByFrom n h l) (h', l') ∧ l'.At h' ps ys ∧
    xs.Perm ys ∧ (ys.Pairwise fun m m' => folded m.fromBytes ≤ folded m'.fromBytes) ∧
    ∀ as m bs m' cs, ys = as ++ m :: (bs ++ m' :: cs) → sameName m.fromBytes m'.fromBytes →
      ∀ x ∈ bs, sameName x.fromBytes m.fromBytes

/-! ## When a list is sorted -/

section Sorted

variable {h : Heap (MboxLNode MboxMsgLite)} {l : MboxList} {ps : List ℕ}
  {xs ys : List MboxMsgLite} {m p : MboxMsgLite}

/-- Names that are the same folded are the same without case. -/
theorem folded_inj {s t : List MboxChar} : folded s = folded t ↔ sameName s t := by
  have hmap : ∀ s : List MboxChar, folded s = (s.map tolower).map UInt8.toNat :=
    fun s => by rw [List.map_map]; rfl
  have hinj : Function.Injective UInt8.toNat := fun _ _ => UInt8.toNat_inj.mp
  rw [hmap, hmap, (List.map_injective_iff.mpr hinj).eq_iff, sameName]

/-- In a list that is sorted the equal ones are next to each other. -/
theorem sameName_between
    (hsorted : ys.Pairwise fun m m' => folded m.fromBytes ≤ folded m'.fromBytes)
    {as bs cs : List MboxMsgLite} {m m' : MboxMsgLite} (heq : ys = as ++ m :: (bs ++ m' :: cs))
    (hsame : sameName m.fromBytes m'.fromBytes) : ∀ x ∈ bs, sameName x.fromBytes m.fromBytes := by
  intro x hx
  rw [heq] at hsorted
  obtain ⟨-, hsorted, -⟩ := List.pairwise_append.mp hsorted
  obtain ⟨hfirst, hsorted⟩ := List.pairwise_cons.mp hsorted
  have hmx := hfirst x (List.mem_append_left _ hx)
  have hxm' := (List.pairwise_append.mp hsorted).2.2 x hx m' (List.mem_cons_self ..)
  rw [← folded_inj.mpr hsame] at hxm'
  exact folded_inj.mp (le_antisymm hxm' hmx)

theorem Ring.unique (hr : Ring h ps xs) (hr' : Ring h ps ys) : xs = ys := by
  have hlen : xs.length = ys.length := hr.length.symm.trans hr'.length
  refine List.ext_getElem hlen fun i hi hi' => ?_
  have hnode := (hr.get_lt hi).symm.trans (hr'.get_lt hi')
  exact (MboxLNode.mk.inj (Option.some.inj hnode)).1

/-- Against the pivot a sender is in its place exactly when it does not go on behind it. -/
theorem MboxMsgLite.HasSender.not_extends_iff (hm : m.HasSender) (hp : p.HasSender) :
    ¬ Extends m.fromBytes p.fromBytes ↔
      (atMost mboxMsgListCompareByFrom m p → folded m.fromBytes ≤ folded p.fromBytes) := by
  rw [atMost, hm.compareByFrom hp]
  constructor
  · intro hapart hle
    exact (folded_le_or_extends hm.nul_notMem hle).resolve_right hapart
  · intro hplace hextends
    exact absurd hextends.lt (not_lt.mpr (hplace (caseCmp_le_of_folded hextends.1)))

/-- No pivot of the sort has a sender that another one of its part goes on behind. -/
def PivotsApart (xs : List MboxMsgLite) : Prop :=
  PivotsMeet (atMost mboxMsgListCompareByFrom)
    (fun m p => ¬ Extends m.fromBytes p.fromBytes) xs

/-- What quicksort makes of the list is in order exactly when the pivots are apart. -/
theorem pairwise_iff_pivotsApart (hsenders : ∀ m ∈ xs, m.HasSender)
    (hsort : LomutoSorted (atMost mboxMsgListCompareByFrom) xs ys) :
    (ys.Pairwise fun m m' => folded m.fromBytes ≤ folded m'.fromBytes) ↔ PivotsApart xs := by
  have hgt : ∀ m ∈ xs, ∀ p ∈ xs, ¬ atMost mboxMsgListCompareByFrom m p →
      folded p.fromBytes ≤ folded m.fromBytes := by
    intro m hm p hp hgt
    rw [atMost, (hsenders m hm).compareByFrom (hsenders p hp)] at hgt
    exact (not_le.mp fun hle => hgt (caseCmp_le_of_folded_le hle)).le
  have htrans : ∀ m m' m'' : MboxMsgLite, folded m.fromBytes ≤ folded m'.fromBytes →
      folded m'.fromBytes ≤ folded m''.fromBytes → folded m.fromBytes ≤ folded m''.fromBytes :=
    fun _ _ _ => le_trans
  rw [hsort.pairwise_iff htrans hgt]
  constructor
  · exact PivotsMeet.imp fun m hm p hp => ((hsenders m hm).not_extends_iff (hsenders p hp)).mpr
  · exact PivotsMeet.imp fun m hm p hp => ((hsenders m hm).not_extends_iff (hsenders p hp)).mp

/-- **A list that is sorted by its senders** was not locked, and its pivots meet no sender that
begins with theirs and is longer. -/
theorem SortsByFrom.pivotsApart (hl : l.At h ps xs) (hlong : 2 ≤ xs.length)
    (hsenders : ∀ m ∈ xs, m.HasSender) (hsorts : SortsByFrom h l ps xs) :
    l.locked = false ∧ PivotsApart xs := by
  obtain ⟨h', l', ys, hrun, hl', -, hsorted, -⟩ := hsorts
  have hfree : l.locked = false := mboxListQSort_unlocked hrun
  obtain ⟨ys', h'', hrun', hl'', hquick⟩ := mboxListQSort_lomuto hl hlong hfree
  cases hrun.unique hrun'
  obtain rfl := hl'.ring.unique hl''.ring
  exact ⟨hfree, (pairwise_iff_pivotsApart hsenders hquick).mp hsorted⟩

/-- **And such a list is sorted**, with the messages of one sender together and the senders in
order. -/
theorem sortsByFrom_of_pivotsApart (hl : l.At h ps xs) (hlong : 2 ≤ xs.length)
    (hsenders : ∀ m ∈ xs, m.HasSender) (hfree : l.locked = false) (hapart : PivotsApart xs) :
    SortsByFrom h l ps xs := by
  obtain ⟨ys, h', hrun, hl', hquick⟩ : ∃ ys h',
      Converges (fun n => mboxMsgListSortByFrom n h l) (h', l) ∧ l.At h' ps ys ∧
        LomutoSorted (atMost mboxMsgListCompareByFrom) xs ys :=
    mboxListQSort_lomuto hl hlong hfree
  have hsorted : ys.Pairwise fun m m' => folded m.fromBytes ≤ folded m'.fromBytes :=
    (pairwise_iff_pivotsApart hsenders hquick).mpr hapart
  exact ⟨h', l, ys, hrun, hl', hquick.quickSorted.perm, hsorted,
    fun as m bs m' cs heq hsame => sameName_between hsorted heq hsame⟩

/-- **The list is sorted** exactly when its lock is free and no pivot is the beginning of another
sender of its part. The comparator takes a sender and a longer one that begins with it for the
same. -/
theorem sortsByFrom_iff (hl : l.At h ps xs) (hlong : 2 ≤ xs.length)
    (hsenders : ∀ m ∈ xs, m.HasSender) :
    SortsByFrom h l ps xs ↔ l.locked = false ∧ PivotsApart xs := by
  constructor
  · exact SortsByFrom.pivotsApart hl hlong hsenders
  · rintro ⟨hfree, hapart⟩
    exact sortsByFrom_of_pivotsApart hl hlong hsenders hfree hapart

/-- Where no sender goes on behind another one the list is sorted, whatever the order was. -/
theorem sortsByFrom_of_apart (hl : l.At h ps xs) (hlong : 2 ≤ xs.length)
    (hsenders : ∀ m ∈ xs, m.HasSender) (hfree : l.locked = false)
    (hapart : ∀ m ∈ xs, ∀ m' ∈ xs, ¬ Extends m.fromBytes m'.fromBytes) : SortsByFrom h l ps xs :=
  sortsByFrom_of_pivotsApart hl hlong hsenders hfree (PivotsMeet.of_forall hapart)

end Sorted

/-- A message of which only the sender matters. -/
def senderMsg (bytes : List MboxChar) : MboxMsgLite :=
  { datedMsg 0 with sender := some ⟨bytes ++ [nul], 0, bytes.length, bytes.length⟩ }

/-- Three messages in the nodes of a list. -/
def threeNodes (x y z : MboxMsgLite) : Heap (MboxLNode MboxMsgLite) :=
  ⟨[some ⟨x, some 1, some 2⟩, some ⟨y, some 2, some 0⟩, some ⟨z, some 0, some 1⟩]⟩

/-- The list of these nodes. -/
theorem threeNodes_at (x y z : MboxMsgLite) :
    (⟨3, some 0, false⟩ : MboxList).At (threeNodes x y z) [0, 1, 2] [x, y, z] := by
  refine ⟨⟨rfl, by decide, ?_⟩, rfl, rfl⟩
  rintro (_ | _ | _ | i) m hm
  · cases hm
    rfl
  · cases hm
    rfl
  · cases hm
    rfl
  · cases hm

/-- Bob Smith is behind Bob when he is the first pivot. -/
theorem sortsByFrom_iff_bobSmithLast :
    SortsByFrom
      (threeNodes (senderMsg (str "bob")) (senderMsg (str "Alice")) (senderMsg (str "Bob Smith")))
      ⟨3, some 0, false⟩ [0, 1, 2]
      [senderMsg (str "bob"), senderMsg (str "Alice"), senderMsg (str "Bob Smith")] := by
  refine (sortsByFrom_iff (threeNodes_at _ _ _) (by decide) fun m hm => ?_).mpr ⟨rfl, ?_⟩
  · simp only [List.mem_cons, List.not_mem_nil, or_false] at hm
    rcases hm with rfl | rfl | rfl
    · exact ⟨rfl, by decide⟩
    · exact ⟨rfl, by decide⟩
    · exact ⟨rfl, by decide⟩
  · have hbob : PivotsApart [senderMsg (str "bob")] :=
      .split (M := []) rfl (fun m hm => nomatch hm) .nil .nil
    have hfront : PivotsApart [senderMsg (str "bob"), senderMsg (str "Alice")] :=
      .split (M := [senderMsg (str "bob")]) rfl (by decide) .nil hbob
    exact .split (M := [senderMsg (str "bob"), senderMsg (str "Alice")]) rfl (by decide) hfront .nil

/-- Two messages of the same sender are left on both sides of one from another sender, whose name
begins with theirs. -/
theorem bob_not_grouped :
    mboxMsgListSortByFrom 4
        (threeNodes (senderMsg (str "Bob")) (senderMsg (str "Bob Smith")) (senderMsg (str "Bob")))
        ⟨3, some 0, false⟩ =
      ok (threeNodes (senderMsg (str "Bob")) (senderMsg (str "Bob Smith")) (senderMsg (str "Bob")),
        ⟨3, some 0, false⟩) ∧
    ¬ SortsByFrom
        (threeNodes (senderMsg (str "Bob")) (senderMsg (str "Bob Smith")) (senderMsg (str "Bob")))
        ⟨3, some 0, false⟩ [0, 1, 2]
        [senderMsg (str "Bob"), senderMsg (str "Bob Smith"), senderMsg (str "Bob")] := by
  refine ⟨rfl, fun hsorts => ?_⟩
  obtain ⟨-, hapart⟩ := hsorts.pivotsApart (threeNodes_at _ _ _) (by decide) fun m hm => by
    simp only [List.mem_cons, List.not_mem_nil, or_false] at hm
    rcases hm with rfl | rfl | rfl
    · exact ⟨rfl, by decide⟩
    · exact ⟨rfl, by decide⟩
    · exact ⟨rfl, by decide⟩
  have hfirst : PivotsApart ([senderMsg (str "Bob"), senderMsg (str "Bob Smith")] ++
      [senderMsg (str "Bob")]) := hapart
  exact hfirst.split_inv.1 (senderMsg (str "Bob Smith")) (by simp) ⟨by decide, by decide⟩

end Libmbox2
