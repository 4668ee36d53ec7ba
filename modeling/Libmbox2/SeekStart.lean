import Libmbox2.Mbox

/-!
# Seeking back to the start of a message

`mboxParserCtxSeekStart` looks at windows of the file, each in front of the one before
it, until a pattern is seen in one: `"\nFrom "`, or `"From "` when the search starts at
the start of the file. A window that starts at `0` is followed by itself, so the search
has no end when no window shows the pattern (`seekStart_diverges`); otherwise it ends at
the first place of the first window that does (`seekStart_found`).
-/

namespace Libmbox2

open CSem CSem.Exec

variable {file : List MboxChar} {pat : List MboxChar} {w p : ℕ}

/-- The pattern lies at `p`, inside the window that is read from `w` on. -/
def SeenAt (pat file : List MboxChar) (w p : ℕ) : Prop :=
  w ≤ p ∧ pat <+: file.drop p ∧ p + pat.length ≤ w + mboxIOReadSize

/-- The window that is read from `w` on shows the pattern. -/
def Seen (pat file : List MboxChar) (w : ℕ) : Prop := ∃ p, SeenAt pat file w p

/-- The first place of the window at which the pattern is found. -/
def FirstSeen (pat file : List MboxChar) (w p : ℕ) : Prop :=
  SeenAt pat file w p ∧ ∀ p', SeenAt pat file w p' → p ≤ p'

/-- The pattern the search looks for: at the start of the file `From `, and else `\nFrom `. -/
def startPattern (fileOffset : ℕ) : List MboxChar :=
  if fileOffset ≠ 0 then nlFromWord else fromWord

/-- Where window `k` of the search starts, counted from `0`. -/
def windowStart (fileOffset k : ℕ) : ℕ := fileOffset - (k + 1) * mboxIOReadSize

@[simp] theorem windowStart_zero (o : ℕ) : windowStart o 0 = jumpBack o := by
  rw [windowStart, Nat.zero_add, Nat.one_mul, jumpBack]

/-- The windows behind a jump are those of before, without the first. -/
theorem windowStart_jumpBack (o k : ℕ) : windowStart (jumpBack o) k = windowStart o (k + 1) := by
  rw [windowStart, windowStart, jumpBack, Nat.sub_sub, Nat.succ_mul (k + 1), Nat.add_comm]

/-- A window begins inside of the file, when there are any bytes in it. -/
theorem jumpBack_lt {o : ℕ} (ho : o ≤ file.length) (hne : file ≠ []) :
    jumpBack o < file.length := by
  have := List.length_pos_iff.mpr hne
  have := mboxIOReadSize_pos
  rw [jumpBack]
  omega

/-- A window in which the pattern is seen has a first place where it is. -/
theorem Seen.exists_first (h : Seen pat file w) : ∃ p, FirstSeen pat file w p := by
  obtain ⟨p, hp⟩ := h
  induction p using Nat.strongRecOn with
  | _ p ih =>
    by_cases hmin : ∃ p' < p, SeenAt pat file w p'
    · obtain ⟨p', hlt, hp'⟩ := hmin
      exact ih p' hlt hp'
    · exact ⟨p, hp, fun p' hp' => Nat.le_of_not_lt fun hlt => hmin ⟨p', hlt, hp'⟩⟩

theorem FirstSeen.unique {p' : ℕ} (h : FirstSeen pat file w p) (h' : FirstSeen pat file w p') :
    p = p' :=
  le_antisymm (h.2 p' h'.1) (h'.2 p h.1)

/-- The pattern has no NUL, so a match ends in front of the terminator. -/
theorem nul_notMem_startPattern (fo : ℕ) : nul ∉ startPattern fo := by
  rw [startPattern]
  split <;> decide

theorem startPattern_ne (fo : ℕ) : startPattern fo ≠ [] := by
  rw [startPattern]
  split <;> decide

/-- What is seen from a position of the window's contents is seen in the file, at the place that
position stands for. -/
theorem prefix_window_iff {j : ℕ} (hpat : pat ≠ []) :
    pat <+: ((file.drop w).take mboxIOReadSize).drop j ↔ SeenAt pat file w (w + j) := by
  have hpos := List.length_pos_iff.mpr hpat
  have hslice : ((file.drop w).take mboxIOReadSize).drop j =
      slice file (w + j) (w + mboxIOReadSize) := by
    have h := drop_slice file w (w + mboxIOReadSize) j
    rwa [slice, Nat.add_sub_cancel_left] at h
  rw [hslice, prefix_slice, SeenAt]
  constructor
  · rintro ⟨h1, h2⟩
    exact ⟨by omega, h1, by omega⟩
  · rintro ⟨-, h1, h2⟩
    exact ⟨h1, by omega⟩

theorem SeenAt.lt_length (hpat : pat ≠ []) (h : SeenAt pat file w p) :
    p + pat.length ≤ file.length :=
  prefix_drop_length hpat h.2.1

section Step

variable {ioctx : MboxIOCtx}

/-- **One window**: the search ends at the first place the pattern is seen at, or goes
on to the window in front. -/
theorem seekStartStep_spec (fill : ℕ → MboxChar) {o : ℕ} (hs : ioctx.buf.Sound)
    (hw : jumpBack o < file.length) :
    ∃ buf : MboxBuf, buf.Sound ∧
      ((∃ p, FirstSeen (startPattern ioctx.fileOffset) file (jumpBack o) p ∧
          seekStartStep fill (preadRegular file) (o, ioctx) =
            ok (.inr { ioctx with buf, err := mboxIOOk, startOffset := p })) ∨
        ¬ Seen (startPattern ioctx.fileOffset) file (jumpBack o) ∧
          seekStartStep fill (preadRegular file) (o, ioctx) =
            ok (.inl (jumpBack o, { ioctx with buf, err := mboxIOOk }))) := by
  have hne : (file.drop (jumpBack o)).take mboxIOReadSize ≠ [] := by
    rw [← List.length_pos_iff, List.length_take, List.length_drop]
    have := mboxIOReadSize_pos
    omega
  obtain ⟨buf, hread, hholds, -, hsound⟩ := mboxIORead_some fill hs mboxIOReadSize_lt
    (Nat.zero_le _) hne
  rw [List.take_zero, List.nil_append] at hholds
  generalize ho : jumpBack o = w at *
  have hseen : ∀ j, _ <+: ((file.drop w).take mboxIOReadSize).drop j ↔ _ :=
    fun _ => prefix_window_iff (startPattern_ne ioctx.fileOffset)
  generalize (file.drop w).take mboxIOReadSize = xs at *
  have hn : ¬ ((xs.length : Int) = 0 ∨ mboxIOOk ≠ 0) := by
    rintro (h | h)
    · exact hne (List.eq_nil_of_length_eq_zero (by omega))
    · exact h rfl
  obtain ⟨rest, hdata⟩ := hholds.data
  have hscan := scanMatch_append (nul_notMem_startPattern ioctx.fileOffset) xs rest 0
  rw [← hdata, ← hholds.len] at hscan
  refine ⟨buf, hsound, ?_⟩
  -- the scan stops at the first match, or at the terminator
  rcases hscan with ⟨k, hk, -, -, hpre, hmin⟩ | ⟨hnone, hno⟩
  · refine Or.inl ⟨w + k, ⟨(hseen k).mp hpre, fun p' hp' => ?_⟩, ?_⟩
    · have hp'w := hp'.1
      obtain ⟨j, rfl⟩ : ∃ j, p' = w + j := ⟨p' - w, by omega⟩
      by_contra hcon
      exact hmin j (Nat.zero_le _) (by omega) ((hseen j).mpr hp')
    · rw [startPattern] at hk
      rw [seekStartStep, ho, hread, ok_bind, seekStartScan, if_neg hn]
      simp only [hk, ok_bind, pure_eq]
  · refine Or.inr ⟨?_, ?_⟩
    · rintro ⟨p', hp'⟩
      have hp'w := hp'.1
      obtain ⟨j, rfl⟩ : ∃ j, p' = w + j := ⟨p' - w, by omega⟩
      refine hno j (Nat.zero_le _) ?_ ((hseen j).mpr hp')
      have h1 := ((hseen j).mpr hp').length_le
      have h2 := List.length_pos_iff.mpr (startPattern_ne ioctx.fileOffset)
      rw [List.length_drop] at h1
      rw [hholds.len]
      omega
    · rw [startPattern] at hnone
      rw [seekStartStep, ho, hread, ok_bind, seekStartScan, if_neg hn]
      simp only [hnone, ok_bind, pure_eq]

end Step

/-! ## Runs -/

/-- A search that ends: from `o` on, window `k` is the first that shows the pattern. -/
theorem seekStart_loop (fill : ℕ → MboxChar) {k : ℕ} {o : ℕ} {ioctx : MboxIOCtx}
    (hs : ioctx.buf.Sound) (ho : o ≤ file.length) (hne : file ≠ [])
    (hno : ∀ j < k, ¬ Seen (startPattern ioctx.fileOffset) file (windowStart o j))
    (hp : FirstSeen (startPattern ioctx.fileOffset) file (windowStart o k) p) :
    ∃ buf : MboxBuf, buf.Sound ∧
      LoopTo (fun _ => seekStartStep fill (preadRegular file)) (o, ioctx)
        { ioctx with buf, err := mboxIOOk, startOffset := p } := by
  have hle : ∀ {o}, jumpBack o ≤ o := Nat.sub_le _ _
  induction k generalizing o ioctx with
  | zero =>
    rw [windowStart_zero] at hp
    obtain ⟨buf, hsound, ⟨p', hp', hstep⟩ | ⟨hno', -⟩⟩ :=
      seekStartStep_spec fill hs (jumpBack_lt ho hne)
    · obtain rfl := hp.unique hp'
      exact ⟨buf, hsound, LoopTo.done (Converges.const hstep)⟩
    · exact absurd ⟨p, hp.1⟩ hno'
  | succ k ih =>
    have h0 := hno 0 (Nat.succ_pos k)
    rw [windowStart_zero] at h0
    obtain ⟨buf, hsound, ⟨p', hp', -⟩ | ⟨-, hstep⟩⟩ :=
      seekStartStep_spec fill hs (jumpBack_lt ho hne)
    · exact absurd ⟨p', hp'.1⟩ h0
    · have hno' : ∀ j < k, ¬ Seen (startPattern ioctx.fileOffset) file
          (windowStart (jumpBack o) j) := by
        intro j hj
        rw [windowStart_jumpBack]
        exact hno (j + 1) (Nat.succ_lt_succ hj)
      rw [← windowStart_jumpBack] at hp
      obtain ⟨buf', hsound', hloop⟩ := @ih (jumpBack o) { ioctx with buf, err := mboxIOOk }
        hsound (hle.trans ho) hno' hp
      exact ⟨buf', hsound', LoopTo.step (Converges.const hstep) hloop⟩

/-- What the seek leaves: the buffer is emptied, and the context stands at the place
that was found. -/
def MboxParserCtx.startAt (ctx : MboxParserCtx) (buf : MboxBuf) (err : Int) (p : ℕ) :
    MboxParserCtx :=
  { ctx with ioctx := { ctx.ioctx with buf, err, startOffset := p, fileOffset := p } }

section Run

variable {ctx : MboxParserCtx}

/-- **The search ends** in the first window that shows the pattern, with the context at the place it
was seen. -/
theorem seekStart_found (fill : ℕ → MboxChar) {k : ℕ} (hs : ctx.ioctx.buf.Sound)
    (hfo : ctx.ioctx.fileOffset ≤ file.length) (hne : file ≠ [])
    (hno : ∀ j < k, ¬ Seen (startPattern ctx.ioctx.fileOffset) file
      (windowStart ctx.ioctx.fileOffset j))
    (hp : FirstSeen (startPattern ctx.ioctx.fileOffset) file
      (windowStart ctx.ioctx.fileOffset k) p) :
    ∃ buf : MboxBuf, buf.Empty ∧
      Converges (fun n => mboxParserCtxSeekStart fill (preadRegular file) n ctx)
        (ctx.startAt buf mboxIOOk p) := by
  obtain ⟨buf, hsound, hloop⟩ := seekStart_loop fill hs hfo hne hno hp
  obtain ⟨buf', hset, hempty⟩ := mboxBufSetLen_zero hsound
  refine ⟨_, hempty, Converges.bind hloop.converges (Converges.const ?_)⟩
  simp only [hset, ok_bind, pure_eq]
  rfl

/-- In an empty file the search ends with the first read. -/
theorem seekStart_empty (fill : ℕ → MboxChar) (hs : ctx.ioctx.buf.Sound) :
    ∃ buf : MboxBuf, buf.Empty ∧
      Converges (fun n => mboxParserCtxSeekStart fill (preadRegular []) n ctx)
        (ctx.startAt buf mboxIOEof ctx.ioctx.startOffset) := by
  have hnil : ∀ o, (([] : List MboxChar).drop o).take mboxIOReadSize = [] := by simp
  obtain ⟨buf, tail, hread, -, -, -, hsound⟩ := mboxIORead_nil fill 0 hs mboxIOReadSize_lt
    (hnil (jumpBack ctx.ioctx.fileOffset))
  obtain ⟨buf', hset, hempty⟩ := mboxBufSetLen_zero hsound
  have hstep : seekStartStep fill (preadRegular []) (ctx.ioctx.fileOffset, ctx.ioctx) =
      ok (.inr { ctx.ioctx with buf, err := mboxIOEof }) := by
    simp only [seekStartStep, hread, ok_bind, seekStartScan, true_or, if_true, pure_eq]
  refine ⟨_, hempty, Converges.bind (LoopTo.done (Converges.const hstep)).converges
    (Converges.const ?_)⟩
  simp only [hset, ok_bind, pure_eq]
  rfl

/-- **The search has no end** when no window shows the pattern, as the windows stay at the start of
the file from some point on. -/
theorem seekStart_diverges (fill : ℕ → MboxChar) (hs : ctx.ioctx.buf.Sound)
    (hfo : ctx.ioctx.fileOffset ≤ file.length) (hne : file ≠ [])
    (hno : ∀ k, ¬ Seen (startPattern ctx.ioctx.fileOffset) file
      (windowStart ctx.ioctx.fileOffset k)) :
    Diverges fun n => mboxParserCtxSeekStart fill (preadRegular file) n ctx := by
  -- the offsets the search comes to
  have hstep : ∀ s : ℕ × MboxIOCtx, s.2.buf.Sound ∧
      s.2.fileOffset = ctx.ioctx.fileOffset ∧
      (∃ k, s.1 = ctx.ioctx.fileOffset - k * mboxIOReadSize) →
      ∃ s', seekStartStep fill (preadRegular file) s = ok (.inl s') ∧ s'.2.buf.Sound ∧
        s'.2.fileOffset = ctx.ioctx.fileOffset ∧
        ∃ k, s'.1 = ctx.ioctx.fileOffset - k * mboxIOReadSize := by
    rintro ⟨o, ioctx⟩ ⟨hsound, hfile, k, hk⟩
    simp only at hsound hfile hk
    have hwin : jumpBack o = windowStart ctx.ioctx.fileOffset k := by
      rw [hk, windowStart, jumpBack, Nat.sub_sub, ← Nat.succ_mul]
    obtain ⟨buf, hsound', ⟨p, hp, -⟩ | ⟨-, hnext⟩⟩ :=
      seekStartStep_spec fill hsound (jumpBack_lt (hk ▸ (Nat.sub_le _ _).trans hfo) hne)
    · rw [hfile, hwin] at hp
      exact absurd ⟨p, hp.1⟩ (hno k)
    · exact ⟨_, hnext, hsound', hfile, k + 1, hwin⟩
  intro n
  have hloop := loop_diverges hstep n (ctx.ioctx.fileOffset, ctx.ioctx)
    ⟨hs, rfl, 0, by simp⟩
  change loop _ n _ >>= _ = _
  rw [hloop, timeout_bind]

end Run

/-! ## When the search ends -/

/-- Some window in front of `fileOffset` shows the whole pattern, or there is nothing to
read. -/
def SeekStops (file : List MboxChar) (fileOffset : ℕ) : Prop :=
  file = [] ∨ ∃ k, Seen (startPattern fileOffset) file (windowStart fileOffset k)

/-- Where some window shows the pattern, there is a first one that does. -/
theorem Seen.first_window {fo : ℕ} (h : ∃ k, Seen pat file (windowStart fo k)) :
    ∃ k p, FirstSeen pat file (windowStart fo k) p ∧
      ∀ j < k, ¬ Seen pat file (windowStart fo j) := by
  obtain ⟨k, hk⟩ := h
  induction k using Nat.strongRecOn with
  | _ k ih =>
    by_cases hmin : ∃ j < k, Seen pat file (windowStart fo j)
    · obtain ⟨j, hlt, hj⟩ := hmin
      exact ih j hlt hj
    · obtain ⟨p, hp⟩ := hk.exists_first
      exact ⟨k, p, hp, fun j hj hs => hmin ⟨j, hj, hs⟩⟩

theorem initCtx_sound (fill : ℕ → MboxChar) (fileSize chunkSize i : ℕ) :
    (initCtx fill fileSize chunkSize i).ioctx.buf.Sound :=
  mboxIONew_sound fill fileSize

/-- A search that returns has seen the pattern in one of its windows. -/
theorem seekStops_of_terminates {fill : ℕ → MboxChar} {ctx : MboxParserCtx}
    (hs : ctx.ioctx.buf.Sound) (hfo : ctx.ioctx.fileOffset ≤ file.length)
    (h : Terminates fun n => mboxParserCtxSeekStart fill (preadRegular file) n ctx) :
    SeekStops file ctx.ioctx.fileOffset := by
  by_contra hstop
  rw [SeekStops, not_or, not_exists] at hstop
  exact (seekStart_diverges fill hs hfo hstop.1 hstop.2).not_terminates h

/-- A search one of whose windows shows the pattern returns: it goes back one window at a time, and
so comes to it. -/
theorem terminates_of_seekStops (fill : ℕ → MboxChar) {ctx : MboxParserCtx}
    (hs : ctx.ioctx.buf.Sound) (hfo : ctx.ioctx.fileOffset ≤ file.length)
    (h : SeekStops file ctx.ioctx.fileOffset) :
    Terminates fun n => mboxParserCtxSeekStart fill (preadRegular file) n ctx := by
  rcases h with rfl | hseen
  · obtain ⟨buf, -, hconv⟩ := seekStart_empty fill hs
    exact ⟨_, hconv⟩
  · obtain ⟨k, p, hp, hno⟩ := Seen.first_window hseen
    have hne : file ≠ [] := by
      rintro rfl
      have hlen := hp.1.lt_length (startPattern_ne _)
      have hpat := List.length_pos_iff.mpr (startPattern_ne ctx.ioctx.fileOffset)
      rw [List.length_nil] at hlen
      omega
    obtain ⟨buf, -, hconv⟩ := seekStart_found fill hs hfo hne hno hp
    exact ⟨_, hconv⟩

/-- **The search ends if and only if** some window shows the pattern it looks for, or the file is
empty. Elsewhere it comes to the start of the file and reads the window there again and again. -/
theorem seekStart_terminates_iff (fill : ℕ → MboxChar) (file : List MboxChar)
    {ctx : MboxParserCtx} (hs : ctx.ioctx.buf.Sound)
    (hfo : ctx.ioctx.fileOffset ≤ file.length) :
    Terminates (fun n => mboxParserCtxSeekStart fill (preadRegular file) n ctx) ↔
      SeekStops file ctx.ioctx.fileOffset :=
  ⟨seekStops_of_terminates hs hfo, terminates_of_seekStops fill hs hfo⟩

/-- A file with one message, `"From a\nS: b\n\nc\n"`. -/
def oneMessage : List MboxChar := [70, 114, 111, 109, 32, 97, 10, 83, 58, 32, 98, 10, 10, 99, 10]

/-- The equivalence for the second of two contexts of a file with one message. -/
theorem seekStart_terminates_iff_oneMessage :
    Terminates (fun n => mboxParserCtxSeekStart (fun _ => nul) (preadRegular oneMessage) n
      (initCtx (fun _ => nul) 15 7 1)) ↔ SeekStops oneMessage 7 :=
  seekStart_terminates_iff _ _ (initCtx_sound _ _ _ _) (by decide)

/-- Two workers and a file of one message: no newline stands in front of its From line,
and the second worker searches for ever. -/
theorem seekStart_oneMessage_diverges :
    ¬ Terminates (fun n => mboxParserCtxSeekStart (fun _ => nul) (preadRegular oneMessage) n
      (initCtx (fun _ => nul) 15 7 1)) := by
  refine (seekStart_diverges _ (initCtx_sound _ _ _ _) (by decide) (by decide)
    fun k => ?_).not_terminates
  rintro ⟨p, -, hp, -⟩
  have hlen := prefix_drop_length (by decide) hp
  have hno : ∀ p < 15, ¬ nlFromWord <+: oneMessage.drop p := by decide
  have h6 : p + 6 ≤ 15 := hlen
  exact hno p (by omega) hp

end Libmbox2
