import Libmbox2.Delivered
import Libmbox2.Ranges

/-!
# The offsets a context starts with

`offset` is what the next message gets as its start. It is right as soon as it is the
position of the first byte that is not parsed, whatever the file holds
(`getNextMessage_covers`). The second loop of `mboxSetAllOffsets` sets it for the contexts
from `1` on, and for the last one it is set once more; context `0` keeps the `0` it
searched from, also when its seek ended behind a preamble (`offsets_faithful_iff`).
-/

namespace Libmbox2

open CSem CSem.Exec

variable {fill : ℕ → MboxChar} {file : List MboxChar} {a e : ℕ}

/-! ## Faithful offsets -/

/-- The context stands where it starts, with nothing read, and the first message it
delivers carries the position of its first byte. -/
structure MboxParserCtx.Faithful (fill : ℕ → MboxChar) (file : List MboxChar)
    (ctx : MboxParserCtx) : Prop where
  offset : ctx.ioctx.offset = ctx.ioctx.startOffset
  startOffset : ctx.ioctx.startOffset = ctx.ioctx.fileOffset
  buf : ctx.ioctx.buf.Empty
  /-- the start offset of the first message is the position of its first byte -/
  first : ∀ fuel msg ctx', mboxParserCtxGetNextMessage fill (preadRegular file) fuel ctx =
    ok (some msg, ctx') →
    ∃ b, msg.Covers file ctx.ioctx.startOffset b ∧ ctx.ioctx.startOffset < b ∧ b ≤ file.length

/-- Every context that `mboxSetAllOffsets` leaves is faithful: its file offset is where its next
read should begin. -/
def OffsetsFaithful (fill : ℕ → MboxChar) (file : List MboxChar) (n : ℕ) : Prop :=
  ∃ ctxs, Converges (fun fuel => mboxSetAllOffsets fill (preadRegular file) fuel
      file.length n) ctxs ∧
    ∀ ctx ∈ ctxs, ctx.Faithful fill file

/-- Context `0` is the last one as well, or its first `From ` begins the file, or it is
dropped: the searches of all contexts are the same, or that of context `1` ends in front
of the first `From `. -/
def HeadInPlace (file : List MboxChar) (n : ℕ) : Prop :=
  n = 1 ∨ file.length / n = 0 ∨ FirstSeen fromWord file 0 0 ∨
    ∃ q, FirstSeen fromWord file 0 q ∧ Crosses file (file.length / n) q

/-- Only context `0` keeps the offset it was given first. -/
theorem offset_or_head {prev ctx : MboxParserCtx} {ctxs : List MboxParserCtx}
    (h : ctx ∈ setOffsets prev ctxs) :
    ctx.ioctx.offset = ctx.ioctx.startOffset ∨
      ∃ ctx₁ rest, ctxs = ctx₁ :: rest ∧ ctx.ioctx.offset = prev.ioctx.offset ∧
        ctx.ioctx.startOffset = prev.ioctx.startOffset ∧
        ctx.ioctx.endOffset = ctx₁.ioctx.startOffset := by
  cases ctxs with
  | nil =>
    obtain rfl := List.mem_singleton.mp h
    exact Or.inl rfl
  | cons ctx₁ rest =>
    rcases List.mem_cons.mp h with rfl | hmem
    · exact Or.inr ⟨ctx₁, rest, rfl, rfl, rfl, rfl⟩
    · exact Or.inl (offset_setOffsets rfl hmem)

section Contexts

variable {n : ℕ} {prev : MboxParserCtx} {ctxs : List MboxParserCtx}

/-- A context that survives is faithful as soon as its offset is. -/
theorem faithful_of_offset
    (hall : List.Forall₂ (Sought fill file (file.length / n)) (List.range n) (prev :: ctxs))
    {ctx : MboxParserCtx} (hmem : ctx ∈ setOffsets prev ctxs)
    (hoff : ctx.ioctx.offset = ctx.ioctx.startOffset) {ctx' : MboxParserCtx}
    (hctx' : ctx'.ioctx = ctx.ioctx) : ctx'.Faithful fill file := by
  have hsought : ∀ c ∈ prev :: ctxs, ∃ i < n, Sought fill file (file.length / n) i c := by
    intro c hc
    obtain ⟨i, hi⟩ := List.getElem?_of_mem hc
    have hlen := hall.length_eq
    rw [List.length_range] at hlen
    have hi' := (List.getElem?_eq_some_iff.mp hi).1
    exact ⟨i, by omega, sought_getElem? hall hi⟩
  obtain ⟨ctx₀, hmem₀, hstart, hfile, hbuf, -⟩ := mem_setOffsets hmem
  obtain ⟨i, hi, hs⟩ := hsought ctx₀ hmem₀
  have hle := hs.endsAt.le_length (mul_chunk_le hi)
  have hfo : ctx.ioctx.startOffset = ctx.ioctx.fileOffset := by
    rw [hstart, hfile, hs.fileOffset]
  have hbegins : ctx'.Begins :=
    ⟨by rw [hctx', hoff], by rw [hctx', hfo], by rw [hctx', hbuf]; exact hs.buf⟩
  have hin : ctx'.ioctx.fileOffset ≤ file.length := by
    rw [hctx', ← hfo, hstart]
    exact hle
  refine ⟨hbegins.offset, hbegins.startOffset, hbegins.buf, fun fuel msg ctx'' hcall => ?_⟩
  obtain ⟨hcov, hlt', hunparsed⟩ := getNextMessage_covers (hbegins.unparsed hin) hcall
  rw [hbegins.offset] at hcov hlt'
  exact ⟨_, hcov, hlt', hunparsed.le.trans hunparsed.inFile⟩

/-- The head is dropped, or begins the file, or is the only context. -/
theorem offsetsFaithful_of_headInPlace (hn : 0 < n) (h : AllSeeksEnd fill file n)
    (hhead : HeadInPlace file n) : OffsetsFaithful fill file n := by
  obtain ⟨prev, ctxs, hconv, hall⟩ := mboxSeekAllOffsets_converges fill hn h
  refine ⟨_, mboxSetAllOffsets_converges hconv, fun ctx hctx => ?_⟩
  obtain ⟨ctx₀, hmem, hlt, hioctx, -⟩ := mem_filterContexts hctx
  refine faithful_of_offset hall hmem ?_ hioctx
  rcases offset_or_head hmem with hoff | ⟨ctx₁, rest, rfl, hoff, hstart, hend⟩
  · exact hoff
  · have h0 := sought_getElem? hall (i := 0) rfl
    have h1 := sought_getElem? hall (i := 1) rfl
    have hends0 := h0.endsAt
    have hends1 := h1.endsAt
    rw [Nat.zero_mul] at hends0
    rw [Nat.one_mul] at hends1
    have hne : file.length / n ≠ 0 → file ≠ [] := by
      rintro hchunk rfl
      exact hchunk (Nat.zero_div n)
    rw [hoff, hstart, h0.offset, Nat.zero_mul]
    by_cases hchunk : file.length / n = 0
    · rw [hchunk] at hends1
      have heq := hends0.unique hends1
      omega
    rcases hhead with rfl | hzero | hfirst | ⟨q, hq, hcross⟩
    · have hlen := hall.length_eq
      rw [List.length_range, List.length_cons, List.length_cons] at hlen
      omega
    · exact absurd hzero hchunk
    · exact hfirst.unique (hends0.of_zero (hne hchunk))
    · -- the seek of context `1` ended in front of the first `From `
      obtain ⟨w, hw, hp⟩ := hends1.of_pos (hne hchunk) hchunk
      have hlt' := (crosses_iff hw hp).mp hcross
      have heq := hq.unique (hends0.of_zero (hne hchunk))
      omega

/-- Where all contexts are faithful, the head of the file is in its place, or the first context has
nothing to do. -/
theorem headInPlace_of_offsetsFaithful (hn : 0 < n) (h : AllSeeksEnd fill file n)
    (hfaith : OffsetsFaithful fill file n) : HeadInPlace file n := by
  obtain ⟨prev, ctxs, hconv, hall⟩ := mboxSeekAllOffsets_converges fill hn h
  obtain ⟨kept, hkept, hctxs⟩ := hfaith
  obtain rfl := hkept.unique (mboxSetAllOffsets_converges hconv)
  cases ctxs with
  | nil =>
    have hlen := hall.length_eq
    rw [List.length_range, List.length_singleton] at hlen
    exact Or.inl hlen
  | cons ctx₁ rest =>
    -- without chunks all searches are the same, and context `0` is dropped
    by_cases hchunk : file.length / n = 0
    · exact Or.inr (Or.inl hchunk)
    have hne : file ≠ [] := by
      rintro rfl
      exact hchunk (Nat.zero_div n)
    have h0 := sought_getElem? hall (i := 0) rfl
    have hends0 := h0.endsAt
    rw [Nat.zero_mul] at hends0
    have hfirst := hends0.of_zero hne
    have hends1 := (sought_getElem? hall (i := 1) rfl).endsAt
    rw [Nat.one_mul] at hends1
    obtain ⟨w, hw, hnl⟩ := hends1.of_pos hne hchunk
    right
    right
    rcases Nat.lt_trichotomy prev.ioctx.startOffset ctx₁.ioctx.startOffset with hlt | heq | hgt
    · -- context `0` survives
      obtain ⟨ctx, hctx, hioctx⟩ : ∃ ctx ∈ filterContexts (setOffsets prev (ctx₁ :: rest)),
          ctx.ioctx = { prev.ioctx with endOffset := ctx₁.ioctx.startOffset } :=
        exists_mem_filterContexts (List.mem_cons_self ..) hlt
      have hoff := (hctxs ctx hctx).offset
      have hzero : prev.ioctx.startOffset = 0 := by
        rw [hioctx] at hoff
        exact hoff.symm.trans (h0.offset.trans (Nat.zero_mul _))
      rw [hzero] at hfirst
      exact Or.inl hfirst
    · -- one starts with `F`, the other with a newline
      have hF := prefix_drop_iff.mp hfirst.1.2.1 0 70 rfl
      have hN := prefix_drop_iff.mp hnl.1.2.1 0 nl rfl
      rw [heq, hN] at hF
      exact absurd (Option.some.inj hF) (by decide)
    · exact Or.inr ⟨_, hfirst, (crosses_iff hw hnl).mpr hgt⟩

end Contexts

/-- **The contexts start with faithful offsets if and only if** context `0` is the only
one, begins the file or is dropped. -/
theorem offsets_faithful_iff (fill : ℕ → MboxChar) (file : List MboxChar) {n : ℕ} (hn : 0 < n)
    (h : AllSeeksEnd fill file n) : OffsetsFaithful fill file n ↔ HeadInPlace file n :=
  ⟨headInPlace_of_offsetsFaithful hn h, offsetsFaithful_of_headInPlace hn h⟩

/-- A byte order mark in front of two messages:
`"\xEF\xBB\xBFFrom a\n\nb\nFrom c\n\nd\n"` -/
def markedFile : List MboxChar :=
  [239, 187, 191, 70, 114, 111, 109, 32, 97, 10, 10, 98, 10, 70, 114, 111, 109, 32, 99, 10,
    10, 100, 10]

theorem allSeeksEnd_markedFile : AllSeeksEnd (fun _ => nul) markedFile 2 := by
  have hfrom : SeenAt fromWord markedFile 0 3 :=
    ⟨by decide, by decide, by rw [mboxIOReadSize]; decide⟩
  have hnl : SeenAt nlFromWord markedFile 0 12 :=
    ⟨by decide, by decide, by rw [mboxIOReadSize]; decide⟩
  exact allSeeksEnd_of_seen _ ⟨3, hfrom⟩ ⟨12, hnl⟩

/-- The equivalence for a file with one message and two contexts. -/
theorem offsets_faithful_iff_markedFile :
    OffsetsFaithful (fun _ => nul) markedFile 2 ↔ HeadInPlace markedFile 2 :=
  offsets_faithful_iff _ _ Nat.two_pos allSeeksEnd_markedFile

/-- Context `0` finds the From line behind the mark, and delivers its message with the
start offset `0`. -/
theorem markedFile_not_faithful :
    AllSeeksEnd (fun _ => nul) markedFile 2 ∧ ¬ OffsetsFaithful (fun _ => nul) markedFile 2 := by
  refine ⟨allSeeksEnd_markedFile, fun hfaith => ?_⟩
  have hno : ∀ p < 3, ¬ fromWord <+: markedFile.drop p ∧ ¬ nlFromWord <+: markedFile.drop p := by
    decide
  have h3 : SeenAt fromWord markedFile 0 3 :=
    ⟨by decide, by decide, by rw [mboxIOReadSize]; decide⟩
  rcases headInPlace_of_offsetsFaithful Nat.two_pos allSeeksEnd_markedFile hfaith with
    h | h | h | ⟨q, hq, w, p, -, hp, hlt⟩
  · exact absurd h (by decide)
  · exact absurd h (by decide)
  · exact (hno 0 (by decide)).1 h.1.2.1
  · have hle := hq.2 3 h3
    exact (hno p (by omega)).2 hp.2.1

end Libmbox2
