import Mathlib.Data.List.Chain
import Libmbox2.Contexts
import Libmbox2.Offsets

/-!
# When the ranges of the contexts partition the file

Each seek takes the first From line its latest window shows. A later context may have to
go further back than an earlier one, and then starts in front of it: this happens exactly
when the latest window of a context shows a From line in front of the latest window of
the context before it (`ranges_partition_iff`). Where it does not, the start offsets are
in order and the ranges that survive tile the file.
-/

namespace Libmbox2

open CSem CSem.Exec

variable {file : List MboxChar} {fo fo' w p b : ℕ}

/-- The latest window of a search from `fileOffset` shows a From line in front of `b`. -/
def Crosses (file : List MboxChar) (fileOffset b : ℕ) : Prop :=
  ∃ w p, LatestWindow nlFromWord file fileOffset w ∧ SeenAt nlFromWord file w p ∧ p < b

/-- What a search from `fileOffset` does not come in front of: its latest window, or the
first `From ` of the file. -/
def FloorOf (file : List MboxChar) (fileOffset b : ℕ) : Prop :=
  if fileOffset = 0 then FirstSeen fromWord file 0 b else LatestWindow nlFromWord file fileOffset b

/-- No latest window shows a From line in front of the one of the context before. -/
def InOrder (file : List MboxChar) (chunkSize n : ℕ) : Prop :=
  chunkSize = 0 ∨ ∀ i b, i + 1 < n → FloorOf file (i * chunkSize) b →
    ¬ Crosses file ((i + 1) * chunkSize) b

/-- A seek that does not begin at the start of the file ends at a From line with a newline in
front. -/
theorem EndsAt.of_pos (h : EndsAt file fo p) (hne : file ≠ []) (hfo : fo ≠ 0) :
    ∃ w, LatestWindow nlFromWord file fo w ∧ FirstSeen nlFromWord file w p := by
  rw [EndsAt, if_neg hne, startPattern, if_pos hfo] at h
  exact h

/-- One that does ends at the first `From ` of the file. -/
theorem EndsAt.of_zero (h : EndsAt file 0 p) (hne : file ≠ []) :
    FirstSeen fromWord file 0 p := by
  rw [EndsAt, if_neg hne, startPattern, if_neg (not_not.mpr rfl)] at h
  obtain ⟨w, ⟨k, rfl, -⟩, hp⟩ := h
  rwa [windowStart, Nat.zero_sub] at hp

/-- A window shows a From line in front of `b` when the first one it shows is. -/
theorem crosses_iff (hw : LatestWindow nlFromWord file fo w)
    (hp : FirstSeen nlFromWord file w p) : Crosses file fo b ↔ p < b := by
  constructor
  · rintro ⟨w', p', hw', hp', hlt⟩
    obtain rfl := hw.unique hw'
    exact Nat.lt_of_le_of_lt (hp.2 p' hp') hlt
  · exact fun hlt => ⟨w, p, hw, hp.1, hlt⟩

/-- Two neighbours start in order when the later one does not cross the floor of the
earlier one. -/
theorem endsAt_le_iff (hne : file ≠ []) (hfo' : fo' ≠ 0) {p' : ℕ} (hp : EndsAt file fo p)
    (hp' : EndsAt file fo' p') : p ≤ p' ↔ ∀ b, FloorOf file fo b → ¬ Crosses file fo' b := by
  obtain ⟨w', hw', hfirst'⟩ := hp'.of_pos hne hfo'
  simp only [crosses_iff hw' hfirst', Nat.not_lt]
  rcases Nat.eq_zero_or_pos fo with rfl | hpos
  · have hfirst := hp.of_zero hne
    simp only [FloorOf, if_pos]
    constructor
    · intro hle b hb
      rwa [← hfirst.unique hb]
    · exact fun h => h p hfirst
  · obtain ⟨w, hw, hfirst⟩ := hp.of_pos hne hpos.ne'
    simp only [FloorOf, if_neg hpos.ne']
    constructor
    · intro hle b hb
      obtain rfl := hw.unique hb
      exact hfirst.1.1.trans hle
    · intro h
      by_contra hlt
      have hbound := hfirst.1.2.2
      exact hlt (hfirst.2 p' ⟨h w hw, hfirst'.1.2.1, by omega⟩)

/-- **The start offsets are in order** exactly when no context crosses the floor of the
one before it. -/
theorem endsAt_pairwise_iff {n : ℕ} {starts : List ℕ} (hlen : starts.length = n)
    (h : ∀ i p, starts[i]? = some p → EndsAt file (i * (file.length / n)) p) :
    starts.Pairwise (· ≤ ·) ↔ InOrder file (file.length / n) n := by
  subst hlen
  rw [← List.isChain_iff_pairwise, List.isChain_iff_getElem]
  rcases Nat.eq_zero_or_pos (file.length / starts.length) with hzero | hpos
  · -- all of the searches are the same
    rw [hzero] at h
    refine iff_of_true (fun i hi => ?_) (Or.inl hzero)
    have h1 := h i _ (List.getElem?_eq_getElem (by omega))
    have h2 := h (i + 1) _ (List.getElem?_eq_getElem (by omega))
    rw [Nat.mul_zero] at h1 h2
    exact le_of_eq (h1.unique h2)
  · have hne : file ≠ [] := by
      rintro rfl
      rw [List.length_nil, Nat.zero_div] at hpos
      exact Nat.lt_irrefl 0 hpos
    have hstep : ∀ i (hi : i + 1 < starts.length), starts[i] ≤ starts[i + 1] ↔
        ∀ b, FloorOf file (i * (file.length / starts.length)) b →
          ¬ Crosses file ((i + 1) * (file.length / starts.length)) b := by
      intro i hi
      exact endsAt_le_iff hne (Nat.mul_ne_zero (Nat.succ_ne_zero i) hpos.ne')
        (h i _ (List.getElem?_eq_getElem _)) (h (i + 1) _ (List.getElem?_eq_getElem _))
    rw [InOrder, or_iff_right hpos.ne']
    constructor
    · intro hle i b hi
      exact (hstep i hi).mp (hle i hi) b
    · intro hno i hi
      exact (hstep i hi).mpr fun b => hno i b hi

/-! ## Partitions -/

/-- The start offsets are in order; the ranges that survive follow each other from the
start of context `0` to the end of the file, and so are disjoint and cover it. -/
def RangesPartition (fill : ℕ → MboxChar) (file : List MboxChar) (n : ℕ) : Prop :=
  ∃ all ctxs start starts,
    Converges (fun fuel => mboxSeekAllOffsets fill (preadRegular file) fuel file.length n) all ∧
    Converges (fun fuel => mboxSetAllOffsets fill (preadRegular file) fuel file.length n) ctxs ∧
    all.map (fun ctx => ctx.ioctx.startOffset) = start :: starts ∧
    (start :: starts).Pairwise (· ≤ ·) ∧
    Tiles start file.length (ctxs.map MboxParserCtx.range) ∧
    (ctxs.map MboxParserCtx.range).Pairwise (fun r r' => r.2 ≤ r'.1) ∧
    ∀ x, start ≤ x → x < file.length →
      ∃ r ∈ ctxs.map MboxParserCtx.range, r.1 ≤ x ∧ x < r.2

/-- What the seeks have found, context by context. -/
theorem sought_getElem? {fill : ℕ → MboxChar} {chunkSize n : ℕ} {ctxs : List MboxParserCtx}
    (h : List.Forall₂ (Sought fill file chunkSize) (List.range n) ctxs) {i : ℕ}
    {ctx : MboxParserCtx} (hi : ctxs[i]? = some ctx) : Sought fill file chunkSize i ctx := by
  obtain ⟨hlt, rfl⟩ := List.getElem?_eq_some_iff.mp hi
  have hlen := h.length_eq
  rw [List.length_range] at hlen
  have hget := h.get (i := i) (by rw [List.length_range]; omega) hlt
  simpa using hget

/-- The start offsets are those the seeks have found. -/
theorem starts_setOffsets (prev : MboxParserCtx) (ctxs : List MboxParserCtx) :
    (setOffsets prev ctxs).map (fun ctx => ctx.ioctx.startOffset) =
      (prev :: ctxs).map fun ctx => ctx.ioctx.startOffset := by
  induction ctxs generalizing prev with
  | nil => rfl
  | cons ctx ctxs ih =>
    rw [setOffsets, List.map_cons, ih]
    rfl

/-- Start offsets in order are enough for the ranges to tile the file. -/
theorem rangesPartition_of_pairwise {fill : ℕ → MboxChar} {n : ℕ} {prev : MboxParserCtx}
    {ctxs : List MboxParserCtx}
    (hconv : Converges (fun fuel => mboxSeekAllOffsets fill (preadRegular file) fuel
      file.length n) (setOffsets prev ctxs))
    (hall : List.Forall₂ (Sought fill file (file.length / n)) (List.range n) (prev :: ctxs))
    (hle : ((prev :: ctxs).map fun ctx => ctx.ioctx.startOffset).Pairwise (· ≤ ·)) :
    RangesPartition fill file n := by
  have hmem : ∀ ctx ∈ prev :: ctxs, ∃ i < n, Sought fill file (file.length / n) i ctx := by
    intro ctx hctx
    obtain ⟨i, hi⟩ := List.getElem?_of_mem hctx
    have hlen := hall.length_eq
    rw [List.length_range] at hlen
    have hlt := (List.getElem?_eq_some_iff.mp hi).1
    exact ⟨i, by omega, sought_getElem? hall hi⟩
  have hsize : ∀ ctx ∈ prev :: ctxs, ctx.ioctx.fileSize = file.length := by
    intro ctx hctx
    obtain ⟨i, -, hi⟩ := hmem ctx hctx
    exact hi.fileSize
  have hbound : ∀ x ∈ (prev :: ctxs).map (fun ctx => ctx.ioctx.startOffset),
      x ≤ file.length := by
    intro x hx
    obtain ⟨ctx, hctx, rfl⟩ := List.mem_map.mp hx
    obtain ⟨i, hlt, hi⟩ := hmem ctx hctx
    exact hi.endsAt.le_length (mul_chunk_le hlt)
  -- each range ends where the next one starts
  have htiles : Tiles prev.ioctx.startOffset file.length (List.filter (fun r => r.1 < r.2)
      (rangesOf file.length ((prev :: ctxs).map fun ctx => ctx.ioctx.startOffset))) :=
    tiles_rangesOf hle hbound
  rw [← ranges_setOffsets hsize, ← ranges_filterContexts] at htiles
  exact ⟨_, _, _, _, hconv, mboxSetAllOffsets_converges hconv, starts_setOffsets prev ctxs, hle,
    htiles, htiles.pairwise, fun x => htiles.covers⟩

/-- The start of context `i` is where the seek from its chunk ends. -/
theorem ends_of_sought {fill : ℕ → MboxChar} {chunkSize n : ℕ} {ctxs : List MboxParserCtx}
    (h : List.Forall₂ (Sought fill file chunkSize) (List.range n) ctxs) :
    (ctxs.map fun ctx => ctx.ioctx.startOffset).length = n ∧
      ∀ i p, (ctxs.map fun ctx => ctx.ioctx.startOffset)[i]? = some p →
        EndsAt file (i * chunkSize) p := by
  constructor
  · rw [List.length_map, ← h.length_eq, List.length_range]
  · intro i p hi
    rw [List.getElem?_map] at hi
    obtain ⟨ctx, hctx, rfl⟩ := Option.map_eq_some_iff.mp hi
    exact (sought_getElem? h hctx).endsAt

/-- Ranges that tile the file have starts that are in order, so no seek crosses the one before
it. -/
theorem inOrder_of_rangesPartition {fill : ℕ → MboxChar} {n : ℕ} (hn : 0 < n)
    (h : AllSeeksEnd fill file n) (hpart : RangesPartition fill file n) :
    InOrder file (file.length / n) n := by
  obtain ⟨prev, ctxs, hconv, hall⟩ := mboxSeekAllOffsets_converges fill hn h
  obtain ⟨hlen, hends⟩ := ends_of_sought hall
  obtain ⟨all, -, start, starts, hconv', -, hstarts, hle, -⟩ := hpart
  obtain rfl := hconv'.unique hconv
  rw [starts_setOffsets] at hstarts
  rw [← hstarts] at hle
  exact (endsAt_pairwise_iff hlen hends).mp hle

/-- Where no seek crosses the one before it, the starts are in order and the ranges tile the
file. -/
theorem rangesPartition_of_inOrder {fill : ℕ → MboxChar} {n : ℕ} (hn : 0 < n)
    (h : AllSeeksEnd fill file n) (horder : InOrder file (file.length / n) n) :
    RangesPartition fill file n := by
  obtain ⟨prev, ctxs, hconv, hall⟩ := mboxSeekAllOffsets_converges fill hn h
  obtain ⟨hlen, hends⟩ := ends_of_sought hall
  exact rangesPartition_of_pairwise hconv hall ((endsAt_pairwise_iff hlen hends).mpr horder)

/-- **The ranges partition the file if and only if** no context crosses the floor of the
one before it. -/
theorem ranges_partition_iff (fill : ℕ → MboxChar) (file : List MboxChar) {n : ℕ} (hn : 0 < n)
    (h : AllSeeksEnd fill file n) :
    RangesPartition fill file n ↔ InOrder file (file.length / n) n :=
  ⟨inOrder_of_rangesPartition hn h, rangesPartition_of_inOrder hn h⟩

/-! ## A From line in two ranges -/

/-- The seeks end when the first window of the file shows both patterns. -/
theorem allSeeksEnd_of_seen (fill : ℕ → MboxChar) {n : ℕ} (hfrom : Seen fromWord file 0)
    (hnl : Seen nlFromWord file 0) : AllSeeksEnd fill file n := by
  intro i hi
  have hfo : (initCtx fill file.length (file.length / n) i).ioctx.fileOffset =
      i * (file.length / n) := rfl
  refine terminates_of_seekStops fill (initCtx_sound _ _ _ _) (hfo ▸ mul_chunk_le hi) ?_
  rw [hfo]
  generalize i * (file.length / n) = fo
  refine Or.inr ⟨fo, ?_⟩
  have hzero : windowStart fo fo = 0 := by
    have := Nat.le_mul_of_pos_right (fo + 1) mboxIOReadSize_pos
    rw [windowStart]
    omega
  rw [hzero, startPattern]
  split
  · exact hnl
  · exact hfrom

/-- The equivalence for a file with two short messages and two contexts. -/
theorem ranges_partition_iff_twoMails :
    RangesPartition (fun _ => nul) (mboxFile [xMail 0, xMail 0]) 2 ↔
      InOrder (mboxFile [xMail 0, xMail 0]) 11 2 := by
  have hseen : SeenAt nlFromWord (mboxFile [xMail 0, xMail 0]) 0 10 :=
    seenAt_mboxFile.mpr ⟨⟨1, by decide, by decide, by decide⟩, by decide,
      by rw [mboxIOReadSize]; omega⟩
  have hfrom := (firstSeen_mboxFile (List.length_pos_iff.mpr
    (List.cons_ne_nil (xMail 0) [xMail 0]))).1
  exact ranges_partition_iff _ _ Nat.two_pos (allSeeksEnd_of_seen _ ⟨0, hfrom⟩ ⟨10, hseen⟩)

/-- Two messages in the first two windows of the file, and a long one. -/
def longMails : List Mail := [xMail 39, xMail 99939, xMail 599989]

/-- Where the messages of the example begin: the middle one is longer than a chunk, so the seek
behind it goes back over it. -/
theorem pos_longMails : pos longMails 1 = 50 ∧ pos longMails 2 = 100000 ∧
    (mboxFile longMails).length = 700000 := by
  rw [longMails]
  refine ⟨?_, ?_, ?_⟩
  · rw [pos_cons_succ, length_xMail, pos_zero]
  · rw [pos_cons_succ, pos_cons_succ, length_xMail, length_xMail, pos_zero]
  · rw [length_mboxFile_cons, length_mboxFile_cons, length_mboxFile_cons, length_xMail,
      length_xMail, length_xMail]
    rfl

/-- Four contexts start at `0`, `49`, `99999` and `49`: the From line at `100000` belongs
to the second and to the fourth of them. -/
theorem longMails_no_partition :
    AllSeeksEnd (fun _ => nul) (mboxFile longMails) 4 ∧
      ¬ RangesPartition (fun _ => nul) (mboxFile longMails) 4 := by
  obtain ⟨h1, h2, hlen⟩ := pos_longMails
  have hfirst : SeenAt nlFromWord (mboxFile longMails) 0 49 :=
    seenAt_mboxFile.mpr ⟨⟨1, Nat.one_pos, Nat.lt_of_succ_lt (Nat.lt_succ_self 2), h1.symm⟩,
      Nat.zero_le _, by rw [mboxIOReadSize]; omega⟩
  have hsecond : SeenAt nlFromWord (mboxFile longMails) 50000 99999 :=
    seenAt_mboxFile.mpr ⟨⟨2, Nat.two_pos, Nat.lt_succ_self 2, h2.symm⟩, by omega,
      by rw [mboxIOReadSize]; omega⟩
  have hfrom := (firstSeen_mboxFile (List.length_pos_iff.mpr
    (List.cons_ne_nil (xMail 39) [xMail 99939, xMail 599989]))).1
  have hseeks : AllSeeksEnd (fun _ => nul) (mboxFile longMails) 4 :=
    allSeeksEnd_of_seen _ ⟨0, hfrom⟩ ⟨49, hfirst⟩
  refine ⟨hseeks, fun hpart => ?_⟩
  have horder := inOrder_of_rangesPartition (by omega) hseeks hpart
  rw [hlen] at horder
  rcases horder with h | h
  · exact absurd h (by decide)
  have hfloor : FloorOf (mboxFile longMails) (2 * (700000 / 4)) 50000 := by
    rw [FloorOf, if_neg (by decide)]
    refine ⟨0, ?_, ⟨_, hsecond⟩, fun j hj => absurd hj (Nat.not_lt_zero j)⟩
    rw [windowStart, mboxIOReadSize]
  refine h 2 50000 (by omega) hfloor ⟨0, 49, ⟨1, ?_, ⟨_, hfirst⟩, ?_⟩, hfirst, by omega⟩
  · rw [windowStart, mboxIOReadSize]
  · intro j hj
    obtain rfl : j = 0 := by omega
    rintro ⟨p, hp⟩
    obtain ⟨⟨k, hk0, hk, hp1⟩, hle, -⟩ := seenAt_mboxFile.mp hp
    have hstart : windowStart ((2 + 1) * (700000 / 4)) 0 = 225000 := by
      rw [windowStart, mboxIOReadSize]
    have hk2 : pos longMails k ≤ pos longMails 2 :=
      pos_le (Nat.le_of_lt_succ hk) (Nat.le_succ 2)
    rw [hstart] at hle
    omega

end Libmbox2
