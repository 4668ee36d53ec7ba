import Libmbox2.Mail
import Libmbox2.SeekStart
import Libmbox2.Tiles

/-!
# The contexts of a file

What `mboxSetAllOffsets` makes of the seeks: context `i` starts where its seek ended and
ends where the seek of context `i + 1` did, the last one at the end of the file
(`ranges_setOffsets`). A seek ends at the first place its *latest window* shows; that is
the window nearest to where the search starts among those that show the pattern.
-/

namespace Libmbox2

open CSem CSem.Exec

variable {file : List MboxChar}

/-- The window nearest to `fileOffset` that shows the pattern: the windows between it and
`fileOffset` do not. -/
def LatestWindow (pat file : List MboxChar) (fileOffset w : ℕ) : Prop :=
  ∃ k, w = windowStart fileOffset k ∧ Seen pat file w ∧
    ∀ j < k, ¬ Seen pat file (windowStart fileOffset j)

/-- There is one nearest window only, though several numbers may stand for it at the start of the
file. -/
theorem LatestWindow.unique {pat : List MboxChar} {fo w w' : ℕ}
    (h : LatestWindow pat file fo w) (h' : LatestWindow pat file fo w') : w = w' := by
  obtain ⟨k, rfl, hk, hmin⟩ := h
  obtain ⟨k', rfl, hk', hmin'⟩ := h'
  rcases Nat.lt_trichotomy k k' with hlt | rfl | hgt
  · exact absurd hk (hmin' k hlt)
  · rfl
  · exact absurd hk' (hmin k' hgt)

/-- Where a seek from `fileOffset` ends: at the first match of the nearest window that has one. -/
def EndsAt (file : List MboxChar) (fileOffset p : ℕ) : Prop :=
  if file = [] then p = fileOffset
  else ∃ w, LatestWindow (startPattern fileOffset) file fileOffset w ∧
    FirstSeen (startPattern fileOffset) file w p

/-- A seek ends at one place. -/
theorem EndsAt.unique {fo p p' : ℕ} (h : EndsAt file fo p) (h' : EndsAt file fo p') :
    p = p' := by
  rw [EndsAt] at h h'
  split at h
  · rename_i hnil
    rw [if_pos hnil] at h'
    rw [h, h']
  · rename_i hnil
    rw [if_neg hnil] at h'
    obtain ⟨w, hw, hp⟩ := h
    obtain ⟨w', hw', hp'⟩ := h'
    obtain rfl := hw.unique hw'
    exact hp.unique hp'

/-- It ends inside the file. -/
theorem EndsAt.le_length {fo p : ℕ} (h : EndsAt file fo p) (hfo : fo ≤ file.length) :
    p ≤ file.length := by
  rw [EndsAt] at h
  split at h
  · omega
  · obtain ⟨w, -, hp⟩ := h
    have := hp.1.lt_length (startPattern_ne _)
    omega

/-- A context behind its seek: its range starts where the seek has ended, and it has read the file
up to the end of the window the match was in. -/
structure Sought (fill : ℕ → MboxChar) (file : List MboxChar) (chunkSize i : ℕ)
    (ctx : MboxParserCtx) : Prop where
  endsAt : EndsAt file (i * chunkSize) ctx.ioctx.startOffset
  fileOffset : ctx.ioctx.fileOffset = ctx.ioctx.startOffset
  /-- the offset which is used for bookending messages is still the first one -/
  offset : ctx.ioctx.offset = i * chunkSize
  fileSize : ctx.ioctx.fileSize = file.length
  err : ctx.err = mboxIOOk
  ioErr : file ≠ [] → ctx.ioctx.err = mboxIOOk
  buf : ctx.ioctx.buf.Empty

/-- A seek that ends, ends at the first place its latest window shows. -/
theorem seek_sought (fill : ℕ → MboxChar) {chunkSize i : ℕ}
    (hi : i * chunkSize ≤ file.length)
    (h : Terminates fun n => mboxParserCtxSeekStart fill (preadRegular file) n
      (initCtx fill file.length chunkSize i)) :
    ∃ ctx, Converges (fun n => mboxParserCtxSeekStart fill (preadRegular file) n
        (initCtx fill file.length chunkSize i)) ctx ∧ Sought fill file chunkSize i ctx := by
  have hs := initCtx_sound fill file.length chunkSize i
  by_cases hnil : file = []
  · subst hnil
    obtain ⟨buf, hempty, hconv⟩ := seekStart_empty fill hs
    exact ⟨_, hconv, ⟨by rw [EndsAt, if_pos rfl]; rfl, rfl, rfl, rfl, rfl,
      fun hne => absurd rfl hne, hempty⟩⟩
  · obtain hseen := (seekStops_of_terminates hs hi h).resolve_left hnil
    obtain ⟨k, p, hp, hno⟩ := Seen.first_window hseen
    obtain ⟨buf, hempty, hconv⟩ := seekStart_found fill hs hi hnil hno hp
    refine ⟨_, hconv, ⟨?_, rfl, rfl, rfl, rfl, fun _ => rfl, hempty⟩⟩
    rw [EndsAt, if_neg hnil]
    exact ⟨_, ⟨k, rfl, ⟨p, hp.1⟩, hno⟩, hp⟩

/-! ## Windows of a well-formed file -/

/-- The file begins with `From `, so the first window shows that at its start. -/
theorem firstSeen_mboxFile {ms : List Mail} (h : 0 < ms.length) :
    FirstSeen fromWord (mboxFile ms) 0 0 := by
  refine ⟨⟨le_refl 0, ?_, ?_⟩, fun _ _ => Nat.zero_le _⟩
  · have hfrom := from_at_pos h
    rwa [pos_zero] at hfrom
  · have h5 : fromWord.length = 5 := rfl
    rw [h5, mboxIOReadSize]
    omega

/-- What a window of a well-formed file shows are the newlines in front of its messages, as far as
the whole pattern is in the window. -/
theorem seenAt_mboxFile {ms : List Mail} {w p : ℕ} :
    SeenAt nlFromWord (mboxFile ms) w p ↔
      (∃ k, 0 < k ∧ k < ms.length ∧ p + 1 = pos ms k) ∧ w ≤ p ∧ p + 6 ≤ w + mboxIOReadSize := by
  rw [SeenAt, nlFrom_iff]
  exact ⟨fun h => ⟨h.2.1, h.1, h.2.2⟩, fun h => ⟨h.2.1, h.1, h.2.2⟩⟩

/-! ## The loops behind the seeks -/

/-- The range of a context, from its start offset to its end offset. -/
def MboxParserCtx.range (ctx : MboxParserCtx) : ℕ × ℕ :=
  (ctx.ioctx.startOffset, ctx.ioctx.endOffset)

/-- The ranges are cut at the start offsets: each context ends where the next one starts, and the
last one where the file ends. -/
theorem ranges_setOffsets {N : ℕ} {prev : MboxParserCtx} {ctxs : List MboxParserCtx}
    (h : ∀ ctx ∈ prev :: ctxs, ctx.ioctx.fileSize = N) :
    (setOffsets prev ctxs).map MboxParserCtx.range =
      rangesOf N ((prev :: ctxs).map fun ctx => ctx.ioctx.startOffset) := by
  induction ctxs generalizing prev with
  | nil =>
    simp only [setOffsets, List.map_cons, List.map_nil, rangesOf, MboxParserCtx.range,
      setLastOffset, h prev (List.mem_cons_self ..)]
  | cons ctx ctxs ih =>
    rw [setOffsets, List.map_cons, ih]
    · rfl
    · intro ctx' hctx'
      rcases List.mem_cons.mp hctx' with rfl | hmem
      · exact h ctx (List.mem_cons_of_mem _ (List.mem_cons_self ..))
      · exact h ctx' (List.mem_cons_of_mem _ (List.mem_cons_of_mem _ hmem))

/-- The loops that set the ends leave what the seeks have found: starts, file offsets and
buffers. -/
theorem mem_setOffsets {prev ctx : MboxParserCtx} {ctxs : List MboxParserCtx}
    (h : ctx ∈ setOffsets prev ctxs) :
    ∃ ctx₀ ∈ prev :: ctxs, ctx.ioctx.startOffset = ctx₀.ioctx.startOffset ∧
      ctx.ioctx.fileOffset = ctx₀.ioctx.fileOffset ∧ ctx.ioctx.buf = ctx₀.ioctx.buf ∧
      ctx.ioctx.err = ctx₀.ioctx.err := by
  induction ctxs generalizing prev with
  | nil =>
    obtain rfl := List.mem_singleton.mp h
    exact ⟨prev, List.mem_cons_self .., rfl, rfl, rfl, rfl⟩
  | cons ctx' ctxs ih =>
    rcases List.mem_cons.mp h with rfl | hmem
    · exact ⟨prev, List.mem_cons_self .., rfl, rfl, rfl, rfl⟩
    · obtain ⟨ctx₀, hmem₀, hctx⟩ := ih hmem
      rcases List.mem_cons.mp hmem₀ with rfl | hmem₀
      · exact ⟨ctx', List.mem_cons_of_mem _ (List.mem_cons_self ..), hctx⟩
      · exact ⟨ctx₀, List.mem_cons_of_mem _ (List.mem_cons_of_mem _ hmem₀), hctx⟩

/-- A context ends where another one starts, or at the end of the file. -/
theorem endOffset_setOffsets {prev ctx : MboxParserCtx} {ctxs : List MboxParserCtx}
    (h : ctx ∈ setOffsets prev ctxs) :
    ∃ ctx₀ ∈ prev :: ctxs, ctx.ioctx.endOffset = ctx₀.ioctx.startOffset ∨
      ctx.ioctx.endOffset = ctx₀.ioctx.fileSize := by
  induction ctxs generalizing prev with
  | nil =>
    obtain rfl := List.mem_singleton.mp h
    exact ⟨prev, List.mem_cons_self .., Or.inr rfl⟩
  | cons ctx' ctxs ih =>
    rcases List.mem_cons.mp h with rfl | hmem
    · exact ⟨ctx', List.mem_cons_of_mem _ (List.mem_cons_self ..), Or.inl rfl⟩
    · obtain ⟨ctx₀, hmem₀, hctx⟩ := ih hmem
      rcases List.mem_cons.mp hmem₀ with rfl | hmem₀
      · exact ⟨ctx', List.mem_cons_of_mem _ (List.mem_cons_self ..), hctx⟩
      · exact ⟨ctx₀, List.mem_cons_of_mem _ (List.mem_cons_of_mem _ hmem₀), hctx⟩

/-- The offset which is used for bookending messages is the start offset, if it is for the
first context. -/
theorem offset_setOffsets {prev ctx : MboxParserCtx} {ctxs : List MboxParserCtx}
    (hprev : prev.ioctx.offset = prev.ioctx.startOffset) (h : ctx ∈ setOffsets prev ctxs) :
    ctx.ioctx.offset = ctx.ioctx.startOffset := by
  induction ctxs generalizing prev with
  | nil =>
    obtain rfl := List.mem_singleton.mp h
    rfl
  | cons ctx' ctxs ih =>
    rcases List.mem_cons.mp h with rfl | hmem
    · exact hprev
    · exact ih rfl hmem

/-- The filter keeps the contexts whose range is not empty. -/
theorem mem_filterContexts {ctx : MboxParserCtx} {ctxs : List MboxParserCtx}
    (h : ctx ∈ filterContexts ctxs) :
    ∃ ctx₀ ∈ ctxs, ctx₀.ioctx.startOffset < ctx₀.ioctx.endOffset ∧
      ctx.ioctx = ctx₀.ioctx ∧ ctx.err = ctx₀.err := by
  obtain ⟨i, hi, rfl⟩ := List.mem_mapIdx.mp h
  have hmem := List.getElem_mem (by simpa using hi : i < (ctxs.filter fun ctx =>
    decide (ctx.ioctx.startOffset < ctx.ioctx.endOffset)).length)
  obtain ⟨h1, h2⟩ := List.mem_filter.mp hmem
  exact ⟨_, h1, by simpa using h2, rfl, rfl⟩

/-- A context with a range that is not empty survives the filter. -/
theorem exists_mem_filterContexts {ctx : MboxParserCtx} {ctxs : List MboxParserCtx}
    (hmem : ctx ∈ ctxs) (hlt : ctx.ioctx.startOffset < ctx.ioctx.endOffset) :
    ∃ ctx' ∈ filterContexts ctxs, ctx'.ioctx = ctx.ioctx := by
  have hkept : ctx ∈ ctxs.filter fun ctx =>
      decide (ctx.ioctx.startOffset < ctx.ioctx.endOffset) :=
    List.mem_filter.mpr ⟨hmem, decide_eq_true hlt⟩
  obtain ⟨i, hi, heq⟩ := List.getElem_of_mem hkept
  exact ⟨{ ctx with id := i }, List.mem_mapIdx.mpr ⟨i, hi, by rw [heq]⟩, rfl⟩

/-- The filter keeps the ranges that are not empty. -/
theorem ranges_filterContexts (ctxs : List MboxParserCtx) :
    (filterContexts ctxs).map MboxParserCtx.range =
      (ctxs.map MboxParserCtx.range).filter fun r => r.1 < r.2 := by
  rw [filterContexts, List.filter_map]
  refine List.ext_getElem? fun i => ?_
  rw [List.getElem?_map, List.getElem?_mapIdx, List.getElem?_map, Option.map_map]
  rfl

/-! ## All of the contexts -/

theorem mul_chunk_le {N n i : ℕ} (hi : i < n) : i * (N / n) ≤ N :=
  (Nat.mul_le_mul_right _ hi.le).trans (Nat.mul_div_le N n)

/-- The seeks of all of the contexts end, so that their starts can be spoken of. -/
def AllSeeksEnd (fill : ℕ → MboxChar) (file : List MboxChar) (n : ℕ) : Prop :=
  ∀ i < n, Terminates fun fuel => mboxParserCtxSeekStart fill (preadRegular file) fuel
    (initCtx fill file.length (file.length / n) i)

/-- The contexts are what the loops make of the seeks. -/
theorem mboxSeekAllOffsets_converges (fill : ℕ → MboxChar) {n : ℕ} (hn : 0 < n)
    (h : AllSeeksEnd fill file n) :
    ∃ prev ctxs, Converges (fun fuel => mboxSeekAllOffsets fill (preadRegular file) fuel
        file.length n) (setOffsets prev ctxs) ∧
      List.Forall₂ (Sought fill file (file.length / n)) (List.range n) (prev :: ctxs) := by
  obtain ⟨r, hconv, hall⟩ : ∃ r, Converges (fun fuel => (List.range n).mapM fun i =>
      mboxParserCtxSeekStart fill (preadRegular file) fuel
        (initCtx fill file.length (file.length / n) i)) r ∧
      List.Forall₂ (Sought fill file (file.length / n)) (List.range n) r :=
    Converges.mapM fun i hi =>
      seek_sought fill (mul_chunk_le (List.mem_range.mp hi)) (h i (List.mem_range.mp hi))
  rcases r with _ | ⟨prev, ctxs⟩
  · have hlen := hall.length_eq
    rw [List.length_range, List.length_nil] at hlen
    omega
  · refine ⟨prev, ctxs, Converges.bind (a := prev :: ctxs) ?_ (Converges.const rfl), hall⟩
    simp only [List.mapM_map]
    exact hconv

/-- The filter is the only difference between the contexts and those that are gone through. -/
theorem mboxSetAllOffsets_converges {fill : ℕ → MboxChar} {pread : Pread} {N n : ℕ}
    {ctxs : List MboxParserCtx}
    (h : Converges (fun fuel => mboxSeekAllOffsets fill pread fuel N n) ctxs) :
    Converges (fun fuel => mboxSetAllOffsets fill pread fuel N n) (filterContexts ctxs) :=
  Converges.bind h (Converges.const rfl)

end Libmbox2
