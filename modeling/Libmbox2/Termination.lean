import Libmbox2.HeaderSearch
import Libmbox2.Delivered

/-!
# When the next message is never returned

The search for the next From line always ends: an iteration reads more of the file or moves the
scan on. The search for the end of the headers does not: a NUL stops its scan, and where that is
not the end of the buffer, the same scan is made again and again. So a call returns unless its
context `Stalls` (`getNextMessage_terminates_iff`).

The counter `offset` of a context takes no part in this, so here it may be any number. What a
context has yet to parse starts at `position`.
-/

namespace Libmbox2

open CSem CSem.Exec

variable {fill : ℕ → MboxChar} {file : List MboxChar} {a : ℕ}

/-! ## The next From line -/

/-- An iteration ends the search, or leaves less to read and to scan. -/
theorem seekNextFromLineStep_cases (fill : ℕ → MboxChar) {ioctx : MboxIOCtx}
    (hw : Window file a ioctx) (hin : a + ioctx.buf.offset ≤ ioctx.fileOffset) :
    (∃ r, seekNextFromLineStep fill (preadRegular file) ioctx = ok (.inr r) ∧
      (r.1 = 1 → Window file a r.2 ∧ a + r.2.buf.offset ≤ r.2.fileOffset)) ∨
    ∃ s, seekNextFromLineStep fill (preadRegular file) ioctx = ok (.inl s) ∧
      (Window file a s ∧ a + s.buf.offset ≤ s.fileOffset) ∧
      2 * file.length - s.fileOffset - (a + s.buf.offset) <
        2 * file.length - ioctx.fileOffset - (a + ioctx.buf.offset) := by
  obtain ⟨hb1, hb2⟩ := lineStop_bounds hw hin
  have hfile := hw.inFile
  by_cases hfound : nlFromWord <+: file.drop (lineStop file ioctx a) ∧
      lineStop file ioctx a + 6 ≤ ioctx.fileOffset
  · refine Or.inl ⟨_, seekNextFromLineStep_from hw hin hfound.1 hfound.2, fun _ => ?_⟩
    refine ⟨hw.setOffset _, ?_⟩
    simp only [mboxBufSetOffset_offset]
    omega
  rcases Nat.lt_or_ge (lineStop file ioctx a + 10) ioctx.fileOffset with hfar | hnear
  · refine Or.inr ⟨_, seekNextFromLineStep_line hw hin hfound hfar, ⟨hw.setOffset _, ?_⟩, ?_⟩ <;>
    · simp only [mboxBufSetOffset_offset]
      omega
  rcases Nat.lt_or_ge ioctx.endOffset ioctx.fileOffset with hpast | hend
  · refine Or.inl ⟨_, seekNextFromLineStep_past hw hin hfound hnear hpast, ?_⟩
    exact fun h01 : (0 : Int) = 1 => absurd h01 (by decide)
  rcases Nat.lt_or_ge ioctx.fileOffset file.length with hmore | hfile'
  · obtain ⟨buf, n, hstep, hn, -, hoff, hwin⟩ :=
      seekNextFromLineStep_read fill hw hin hfound hnear hend hmore
    have hin' := hwin.inFile
    refine Or.inr ⟨_, hstep, ⟨hwin, ?_⟩, ?_⟩ <;>
    · simp only at hin' ⊢
      omega
  · obtain ⟨buf, hstep, hoff, hwin⟩ := seekNextFromLineStep_eof fill hw hin hfound
      hnear hend (le_antisymm hfile hfile')
    refine Or.inl ⟨_, hstep, fun _ => ⟨hwin, ?_⟩⟩
    simp only [hoff]
    omega

/-- **The search for the next From line ends**: every iteration passes a byte or reads more of the
file. -/
theorem seekNextFromLine_terminates (fill : ℕ → MboxChar) {ioctx : MboxIOCtx}
    (hw : Window file a ioctx) (hin : a + ioctx.buf.offset ≤ ioctx.fileOffset) :
    ∃ r, Converges
        (fun n => mboxParserCtxSeekNextFromLine fill (preadRegular file) n ioctx) r ∧
      (r.1 = 1 → Window file a r.2 ∧ a + r.2.buf.offset ≤ r.2.fileOffset) := by
  have hstep : ∀ s : MboxIOCtx, Window file a s ∧ a + s.buf.offset ≤ s.fileOffset →
      (∃ r, Converges (fun _ => seekNextFromLineStep fill (preadRegular file) s) (.inr r) ∧
        (r.1 = 1 → Window file a r.2 ∧ a + r.2.buf.offset ≤ r.2.fileOffset)) ∨
      ∃ s', Converges (fun _ => seekNextFromLineStep fill (preadRegular file) s) (.inl s') ∧
        (Window file a s' ∧ a + s'.buf.offset ≤ s'.fileOffset) ∧
        2 * file.length - s'.fileOffset - (a + s'.buf.offset) <
          2 * file.length - s.fileOffset - (a + s.buf.offset) := by
    rintro s ⟨hs, hsin⟩
    rcases seekNextFromLineStep_cases fill hs hsin with ⟨r, hr, hpost⟩ | ⟨s', hs', hinv, hlt⟩
    · exact Or.inl ⟨r, Converges.const hr, hpost⟩
    · exact Or.inr ⟨s', Converges.const hs', hinv, hlt⟩
  obtain ⟨r, hrun, hpost⟩ := LoopTo.of_measure _ hstep ioctx ⟨hw, hin⟩
  exact ⟨r, hrun.converges, hpost⟩

/-! ## A call -/

/-- Where in the file the bytes begin that are yet to be parsed: those of the buffer have been
read up to `file_offset`. -/
def MboxIOCtx.position (ioctx : MboxIOCtx) : ℕ :=
  ioctx.fileOffset - (ioctx.buf.len - ioctx.buf.offset)

/-- No empty line is seen in front of the first NUL, and the search does not end at the NUL. -/
def Stalls (file : List MboxChar) (ioctx : MboxIOCtx) : Prop :=
  (∀ s n, ¬ SeenLine (preadRegular file) ioctx.fileOffset ioctx.position
    (textOf (file.drop ioctx.position)) s n) ∧ ¬ SearchEnds (file.drop ioctx.position)

/-- What is in the buffer is what the file has from some position on. -/
def Resumes (file : List MboxChar) (ioctx : MboxIOCtx) : Prop :=
  ∃ b, Unparsed file { ioctx with offset := b }

/-- Where a context that has not parsed its buffer stands in the file. -/
theorem Unparsed.position {ioctx : MboxIOCtx} (h : Unparsed file { ioctx with offset := a }) :
    ioctx.position = a := by
  have hlen : ioctx.buf.len = ioctx.buf.offset + (ioctx.fileOffset - a) := h.len
  have hle : a ≤ ioctx.fileOffset := h.le
  rw [MboxIOCtx.position, hlen, Nat.add_sub_cancel_left]
  exact Nat.sub_sub_self hle

/-- Copying out what the search has passed leaves a context that the next call can go on with. -/
theorem cutMessage_resumes (fill : ℕ → MboxChar) (ctx : MboxParserCtx) (msgStart : ℕ)
    {ioctx : MboxIOCtx} (hw : Window file a ioctx)
    (hin : a + ioctx.buf.offset ≤ ioctx.fileOffset) :
    ∃ msg ctx', cutMessage fill ctx msgStart ioctx = ok (msg, ctx') ∧
      Resumes file ctx'.ioctx := by
  obtain ⟨rest, hdata⟩ := hw.holds.data
  have hlen := length_slice hw.le hw.inFile
  have hle : ioctx.buf.offset ≤ ioctx.buf.data.length := by
    rw [hdata, List.length_append]
    omega
  obtain ⟨buf, hdup, -⟩ := mboxBufDupRaw_spec fill hle (Nat.le_add_right _ 9)
  obtain ⟨msg, ctx', hcut, hctx⟩ : ∃ msg ctx', cutMessage fill ctx msgStart ioctx = ok (msg, ctx') ∧
      ctx'.ioctx = { ioctx with offset := ioctx.offset + ioctx.buf.offset } := by
    simp only [cutMessage, hdup, ok_bind, pure_eq]
    exact ⟨_, _, rfl, rfl⟩
  refine ⟨msg, ctx', hcut, a + ioctx.buf.offset, ?_⟩
  rw [hctx]
  exact hw.unparsed hin

/-- **What becomes of a call**: it returns, and behind a message the context resumes; or it stalls
and never returns. -/
theorem getNextMessage_result (fill : ℕ → MboxChar) {ctx : MboxParserCtx}
    (h : Resumes file ctx.ioctx) :
    (∃ o ctx', Converges (fun fuel =>
        mboxParserCtxGetNextMessage fill (preadRegular file) fuel ctx) (o, ctx') ∧
      (o ≠ none → Resumes file ctx'.ioctx)) ∧ ¬ Stalls file ctx.ioctx ∨
    (∀ fuel, mboxParserCtxGetNextMessage fill (preadRegular file) fuel ctx = timeout) ∧
      Stalls file ctx.ioctx := by
  obtain ⟨a, ha⟩ := h
  obtain ⟨buf, hprep, hoff, hwin⟩ := prepareBuffer_window ha
  have hw : Window file a { ctx.ioctx with buf } :=
    ⟨hwin.holds, hwin.le, hwin.inFile, hwin.capacity⟩
  have hresult := seekHeaders_result fill (readsFile_regular file) (hw.searching hoff)
  rw [Stalls, ha.position]
  rcases hresult with ⟨s, n, ioctx, hrun, hfirst, -, hw', hin'⟩ |
      ⟨hnone, ⟨hends, ioctx, hrun⟩ | ⟨hends, hstall⟩⟩
  · left
    refine ⟨?_, fun hs => hs.1 s n hfirst.1⟩
    obtain ⟨⟨found, ioctx'⟩, hrun', hpost⟩ := seekNextFromLine_terminates fill hw' hin'
    by_cases hfound : found = 1
    · obtain ⟨hw'', hin''⟩ := hpost hfound
      obtain ⟨msg, ctx', hcut, hresumes⟩ := cutMessage_resumes fill ctx ctx.ioctx.offset hw'' hin''
      refine ⟨some msg, ctx', ?_, fun _ => hresumes⟩
      simp only [mboxParserCtxGetNextMessage, hprep, ok_bind]
      refine Converges.bind hrun (Converges.bind hrun' (Converges.const ?_))
      simp only [hfound, ne_eq, not_true_eq_false, if_false, hcut, ok_bind, pure_eq]
    · refine ⟨none, { ctx with ioctx := ioctx' }, ?_, fun hne => absurd rfl hne⟩
      simp only [mboxParserCtxGetNextMessage, hprep, ok_bind]
      exact Converges.bind hrun (Converges.bind hrun' (Converges.const (if_pos hfound)))
  · left
    refine ⟨⟨none, { ctx with ioctx }, ?_, fun hne => absurd rfl hne⟩, fun hs => hs.2 hends⟩
    simp only [mboxParserCtxGetNextMessage, hprep, ok_bind]
    exact Converges.bind hrun (Converges.const rfl)
  · right
    refine ⟨fun fuel => ?_, hnone, hends⟩
    rw [mboxParserCtxGetNextMessage, hprep, ok_bind, hstall fuel]
    rfl

/-- Where the search for the empty line comes to a NUL in the middle of the window, the call never
returns. -/
theorem getNextMessage_stalls {ctx : MboxParserCtx} (h : Resumes file ctx.ioctx)
    (hstalls : Stalls file ctx.ioctx) (fuel : ℕ) :
    mboxParserCtxGetNextMessage fill (preadRegular file) fuel ctx = timeout := by
  rcases getNextMessage_result fill h with ⟨-, hnot⟩ | ⟨htimeout, -⟩
  · exact absurd hstalls hnot
  · exact htimeout fuel

/-! ## A run -/

/-- A context with nothing read yet can be called, whatever its counters are. -/
theorem MboxBuf.Empty.resumes {ioctx : MboxIOCtx} (h : ioctx.buf.Empty)
    (hin : ioctx.fileOffset ≤ file.length) : Resumes file ioctx := by
  obtain ⟨y, rest, hdata⟩ := List.exists_cons_of_ne_nil h.room
  refine ⟨ioctx.fileOffset, ⟨[], y, rest, ?_, h.offset.symm⟩, ?_, le_refl _, hin, h.capacity⟩
  · rw [slice_self, hdata]
    rfl
  · rw [h.len, h.offset, Nat.sub_self]

/-- A call that delivers a message leaves a context that can be called again. -/
theorem Resumes.call {ctx ctx' : MboxParserCtx} {fuel : ℕ} {msg : MboxIOMsg}
    (h : Resumes file ctx.ioctx)
    (hcall : mboxParserCtxGetNextMessage fill (preadRegular file) fuel ctx =
      ok (some msg, ctx')) : Resumes file ctx'.ioctx := by
  have hrun := (getNextMessage_mono ctx (preadRegular file)).converges hcall
  rcases getNextMessage_result fill h with ⟨⟨o, ctx'', hrun', hresumes⟩, -⟩ | ⟨hstall, -⟩
  · obtain ⟨rfl, rfl⟩ := Prod.mk.inj (hrun.unique hrun')
    exact hresumes (Option.some_ne_none msg)
  · rw [hstall fuel] at hcall
    cases hcall

theorem Delivers.resumes {ctx ctx' : MboxParserCtx} {msgs : List MboxIOMsg}
    (hrun : Delivers fill (preadRegular file) ctx msgs ctx') (h : Resumes file ctx.ioctx) :
    Resumes file ctx'.ioctx := by
  induction hrun with
  | nil => exact h
  | snoc _ hcall ih => exact ih.call hcall

/-- **Getting the next message terminates**, in every state that is reached, exactly when the
context does not stall. -/
theorem getNextMessage_terminates_iff {ctx ctx' : MboxParserCtx} {msgs : List MboxIOMsg}
    (hempty : ctx.ioctx.buf.Empty) (hrun : Delivers fill (preadRegular file) ctx msgs ctx') :
    Terminates (fun fuel => mboxParserCtxGetNextMessage fill (preadRegular file) fuel ctx') ↔
      ¬ Stalls file ctx'.ioctx := by
  rcases Nat.lt_or_ge file.length ctx.ioctx.fileOffset with hbehind | hin
  · obtain ⟨-, rfl⟩ := hrun.behind hempty hbehind
    obtain ⟨ctx'', hcall⟩ := getNextMessage_behind fill hempty hbehind
    refine ⟨fun _ hstalls => hstalls.2 (Or.inl ?_), fun _ => ⟨_, hcall⟩⟩
    rw [MboxIOCtx.position, hempty.len, Nat.zero_sub, Nat.sub_zero,
      List.drop_eq_nil_of_le hbehind.le]
    rfl
  · rcases getNextMessage_result fill (hrun.resumes (hempty.resumes hin)) with
      ⟨⟨o, ctx'', hcall, -⟩, hstalls⟩ | ⟨htimeout, hstalls⟩
    · exact ⟨fun _ => hstalls, fun _ => ⟨_, hcall⟩⟩
    · exact ⟨fun hterm => absurd hterm (Diverges.not_terminates htimeout),
        fun hnot => absurd hstalls hnot⟩

/-- The equivalence for a file with one message and a new context. -/
theorem getNextMessage_terminates_iff_one :
    Terminates (fun fuel => mboxParserCtxGetNextMessage (fun _ => nul)
        (preadRegular (fromWord ++ [97, nl, nl, 98, nl])) fuel
        ⟨0, 0, 0, ⟨0, 0, 0, 10, 0, 10, ⟨[nul], 0, 0, 1⟩⟩⟩) ↔
      ¬ Stalls (fromWord ++ [97, nl, nl, 98, nl]) ⟨0, 0, 0, 10, 0, 10, ⟨[nul], 0, 0, 1⟩⟩ := by
  refine getNextMessage_terminates_iff ?_ Delivers.nil
  exact ⟨rfl, rfl, List.cons_ne_nil _ _, rfl⟩

/-- `From a`, and a NUL in front of the rest of the headers: no empty line is found, and the search
for it begins again and again. -/
theorem nul_not_terminates :
    ¬ Terminates (fun fuel => mboxParserCtxGetNextMessage (fun _ => nul)
      (preadRegular (fromWord ++ [97, nul, 98, nl, nl, 99, nl])) fuel
      ⟨0, 0, 0, ⟨0, 0, 0, 12, 0, 12, ⟨[nul], 0, 0, 1⟩⟩⟩) := by
  have hstalls : Stalls (fromWord ++ [97, nul, 98, nl, nl, 99, nl])
      ⟨0, 0, 0, 12, 0, 12, ⟨[nul], 0, 0, 1⟩⟩ := by
    refine ⟨fun s n hseen => ?_, by decide⟩
    exact not_emptyLineAt (by decide) hseen.1
  have hempty : MboxBuf.Empty ⟨[nul], 0, 0, 1⟩ := ⟨rfl, rfl, List.cons_ne_nil _ _, rfl⟩
  have hresumes : Resumes (fromWord ++ [97, nul, 98, nl, nl, 99, nl])
      ⟨0, 0, 0, 12, 0, 12, ⟨[nul], 0, 0, 1⟩⟩ := hempty.resumes (Nat.zero_le _)
  exact Diverges.not_terminates (getNextMessage_stalls hresumes hstalls)

end Libmbox2
