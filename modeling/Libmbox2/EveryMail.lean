import Libmbox2.OwnBytes
import Libmbox2.PipelineReturns
import Libmbox2.Ranges
import Libmbox2.WholeFile

/-!
# Every message of a well-formed file, with any number of workers

Where the ranges of the contexts are in order they tile the file, and every context delivers the
messages of its own range. So with any number of workers there is one message for every From line,
but for those that are lost where the reads of a context end (`mboxMain_reads`); and that is what
the threads make lite messages of (`liteOf_of_parses`).
-/

namespace Libmbox2

open CSem CSem.Exec

variable {file : List MboxChar} {ms : List Mail} {s e : ℕ}

/-! ## The From lines of a range -/

/-- Ranges that tile an interval have its From lines, in their order. -/
theorem fromLines_tiles {a b : ℕ} {rs : List (ℕ × ℕ)} (h : Tiles a b rs) :
    rs.flatMap (fun r => fromLines file r.1 r.2) = fromLines file a b := by
  induction rs generalizing a with
  | nil =>
    obtain rfl : a = b := h
    rw [List.flatMap_nil, fromLines, Nat.sub_self, List.range'_zero, List.filter_nil]
  | cons r rs ih =>
    obtain ⟨rfl, hlt, hrest⟩ := h
    rw [List.flatMap_cons, ih hrest, fromLines_append hlt.le hrest.le]

open scoped Classical in
/-- The From lines whose messages the context of a range delivers: all of them, but for the last
one when it is lost where the reads end. -/
noncomputable def fromLinesRead (file : List MboxChar) (r : ℕ × ℕ) : List ℕ :=
  if r.2 < file.length ∧ LostAtBoundary file r.1 r.2 then (fromLines file r.1 r.2).dropLast
  else fromLines file r.1 r.2

/-- What is delivered of mail `k`: it starts at the From line, or at the newline in front, and ends
where the next mail starts; the last one ends shortly in front of the end of the file. -/
structure MboxIOMsg.OfMail (msg : MboxIOMsg) (ms : List Mail) (k : ℕ) : Prop where
  start : StartsAt ms k msg.startOffset
  bytes : msg.buf.bytes = slice (mboxFile ms) msg.startOffset msg.endOffset
  stop : if k + 1 < ms.length then msg.endOffset = pos ms (k + 1)
    else msg.endOffset ≤ (mboxFile ms).length ∧ (mboxFile ms).length ≤ msg.endOffset + 10

/-- The message is that of the From line at `x`. -/
def MboxIOMsg.Reads (msg : MboxIOMsg) (ms : List Mail) (x : ℕ) : Prop :=
  ∃ k < ms.length, pos ms k = x ∧ msg.OfMail ms k

theorem exists_startsAt (hne : ms ≠ []) (hs : s = 0 ∨ nlFromWord <+: (mboxFile ms).drop s) :
    ∃ i < ms.length, StartsAt ms i s := by
  rcases hs with rfl | hs
  · exact ⟨0, List.length_pos_iff.mpr hne, Or.inl rfl⟩
  · obtain ⟨i, hi0, hi, hsi⟩ := nlFrom_iff.mp hs
    exact ⟨i, hi, Or.inr ⟨hi0, hsi⟩⟩

/-- Messages between the starts of messages are those of the From lines there. -/
theorem reads_of_coverAll {m n a : ℕ} (hmn : m + n < ms.length) (ha : StartsAt ms m a)
    {msgs : List MboxIOMsg} (h : CoverAll (mboxFile ms) (bounds ms a m n) msgs) :
    List.Forall₂ (fun x msg => msg.Reads ms x) ((List.range' m n).map (pos ms)) msgs := by
  induction n generalizing m a msgs with
  | zero =>
    cases h
    exact List.Forall₂.nil
  | succ n ih =>
    rcases h with _ | ⟨hmsg, hrest⟩
    rw [List.range'_succ, List.map_cons]
    refine List.Forall₂.cons ⟨m, by omega, rfl, ?_, ?_, ?_⟩ (ih (by omega) (Or.inl rfl) hrest)
    · rwa [hmsg.startOffset]
    · rw [hmsg.bytes, hmsg.startOffset, hmsg.endOffset]
    · rw [if_pos (by omega), hmsg.endOffset]

/-- The last message of the file reaches nearly to its end. -/
theorem reads_last {l a b : ℕ} (hl : l + 1 = ms.length) (ha : StartsAt ms l a)
    {msg : MboxIOMsg} (h : msg.Covers (mboxFile ms) a b) (hb : b ≤ (mboxFile ms).length)
    (hnear : (mboxFile ms).length ≤ b + 10) : msg.Reads ms (pos ms l) := by
  refine ⟨l, by omega, rfl, ?_, ?_, ?_⟩
  · rwa [h.startOffset]
  · rw [h.bytes, h.startOffset, h.endOffset]
  · rw [if_neg (by omega), h.endOffset]
    exact ⟨hb, hnear⟩

/-! ## A context and its messages -/

section Context

variable {ctx : MboxParserCtx}

/-- Where there is no From line any more the search gives up at most ten bytes in front of the end
of the file. -/
theorem seekNextFromLine_near (fill : ℕ → MboxChar) {a x : ℕ} {P : ℕ → Prop}
    (hno : ∀ p, x ≤ p → ¬ nlFromWord <+: file.drop p) (he : file.length ≤ e)
    (hP : ∀ fo, P fo → P (min file.length (fo + mboxIOReadSize)))
    (hlast : file[file.length - 1]? = some nl) {ioctx : MboxIOCtx}
    (h : Scanning file a e P ioctx) (hx : x ≤ a + ioctx.buf.offset)
    (hxN : a + ioctx.buf.offset < file.length) :
    ∃ r, Converges (fun n => mboxParserCtxSeekNextFromLine fill (preadRegular file) n ioctx) r ∧
      file.length ≤ a + r.2.buf.offset + 10 := by
  refine seekNextFromLine_run fill hlast (fun s hs hsx hstop => ?_) h hx (by omega)
  obtain ⟨hb1, hb2⟩ := lineStop_bounds hs.window hs.inside
  have hfound : ¬ (nlFromWord <+: file.drop (lineStop file s a) ∧
      lineStop file s a + 6 ≤ s.fileOffset) := fun hf => hno _ (by omega) hf.1
  have hfile := hs.window.inFile
  rcases Nat.lt_or_ge (lineStop file s a + 10) s.fileOffset with hfar | hnear
  · exact Or.inr ⟨hfound, Or.inl ⟨hfar, by omega⟩⟩
  · rcases Nat.lt_or_ge s.fileOffset file.length with hmore | hend
    · exact Or.inr ⟨hfound, Or.inr ⟨hnear, by omega, hmore, hP _ hs.fileOffset⟩⟩
    · obtain ⟨buf, hread, hoff, -⟩ := seekNextFromLineStep_eof fill hs.window hs.inside hfound
        hnear (by rw [hs.endOffset]; omega) (by omega)
      refine Or.inl ⟨_, hread, ?_⟩
      simp only [hoff]
      omega

/-- **The last message** ends shortly in front of the end of the file, where the search for the next
From line gives up. -/
theorem getNextMessage_last (fill : ℕ → MboxChar) {a k : ℕ} {P : ℕ → Prop} (h0 : nul ∉ file)
    (hk : headerEnd? (file.drop a) = some k) (hlf : (file.drop a)[k - 2]? = some nl)
    (hno : ∀ p, a + k ≤ p → ¬ nlFromWord <+: file.drop p) (hkN : a + k < file.length)
    (he : file.length ≤ e) (hP : ∀ fo, P fo → P (min file.length (fo + mboxIOReadSize)))
    (hlast : file[file.length - 1]? = some nl) (h : Ready file a e P ctx.ioctx) :
    ∃ msg ctx' b, Converges
        (fun n => mboxParserCtxGetNextMessage fill (preadRegular file) n ctx)
        (some msg, ctx') ∧
      msg.Covers file a b ∧ b ≤ file.length ∧ file.length ≤ b + 10 ∧ ctx'.err = mboxParseDone := by
  obtain ⟨buf, ioctx, hprep, hheaders, hscan, hoff⟩ := getNextMessage_headers fill h0 hk hlf
    (fun fo hfo _ => hP fo hfo) h
  obtain ⟨ioctx', hseek, hwin, hoffset, herr, hfo, hle, hlt⟩ := seekNextFromLine_eof fill hno he
    hP hlast hscan (by omega) (by omega)
  obtain ⟨r, hseek', hnear⟩ := seekNextFromLine_near fill hno he hP hlast hscan (by omega)
    (by omega)
  obtain rfl := hseek'.unique hseek
  obtain ⟨msg, hcut, hmsg⟩ := cutMessage_window fill ctx hwin (by omega) hoffset
  exact ⟨msg, _, _, getNextMessage_cut hprep hheaders hseek h.offset hcut, hmsg, hlt.le, hnear,
    if_pos (Or.inr herr)⟩

/-- The last context delivers the messages up to the end of the file. -/
theorem lastRange_reads (fill : ℕ → MboxChar) {i : ℕ} (hi : i < ms.length)
    (hs : StartsAt ms i s) (hctx : ctx.Fresh s (mboxFile ms).length) :
    ∃ msgs, Converges (fun n => mboxParserCtxGetNextMessageCallback fill
        (preadRegular (mboxFile ms)) n ctx) msgs ∧
      List.Forall₂ (fun x msg => msg.Reads ms x)
        (fromLines (mboxFile ms) s (mboxFile ms).length) msgs := by
  obtain ⟨l, hl⟩ : ∃ l, l + 1 = ms.length := ⟨ms.length - 1, by omega⟩
  have hlt := pos_lt (show l < l + 1 by omega) hl.le
  have hnl := nl_before_pos (show l < ms.length by omega)
  have hlen := pos_length ms
  have hil := pos_le (show i ≤ l by omega) (show l ≤ ms.length by omega)
  have hle := hs.le
  rw [← hl] at hlen
  rw [hlen] at hlt hnl
  obtain ⟨ctx', msgs, hready, -, hcover, hrest⟩ := deliver_prefix fill
    (show l < ms.length by omega) (show pos ms l + 10 ≤ (mboxFile ms).length by omega)
    (P := fun _ => True) (fun _ _ _ => trivial) [] (show i + (l - i) = l by omega) hs
    (hctx.ready (by omega) trivial) hctx.not_done
  have hlast := startsAt_nextStart (n := l - i) hs
  rw [show i + (l - i) = l by omega] at hlast
  obtain ⟨k, hk, hlf, hak⟩ := headers_at (show l < ms.length by omega) hlast
  have hhead := (ms[l]).head_le
  have hsucc := pos_succ (show l < ms.length by omega)
  obtain ⟨last, ctx'', b, hcall, hcovers, hb, hnear, herr⟩ := getNextMessage_last fill
    (nul_notMem_mboxFile ms) hk hlf
    (fun p hp hfrom => by
      obtain ⟨j, -, hj, hpj⟩ := nlFrom_iff.mp hfrom
      have := pos_le (show j ≤ l by omega) (show l ≤ ms.length by omega)
      omega)
    (by omega) (le_refl _) (fun _ _ => trivial) hnl hready
  refine ⟨msgs ++ [last], ?_, ?_⟩
  · have hrun := (hrest _ (callback_done hcall herr)).converges
    rwa [List.nil_append] at hrun
  · have hall := fromLines_messages (show i + (l + 1 - i) ≤ ms.length by omega) hs
    rw [show i + (l + 1 - i) = l + 1 by omega, hlen, show l + 1 - i = l - i + 1 by omega,
      List.range'_concat, List.map_append, Nat.one_mul, show i + (l - i) = l by omega] at hall
    rw [hall]
    refine List.rel_append (reads_of_coverAll (by omega) hs hcover)
      (List.Forall₂.cons (reads_last hl hlast hcovers hb hnear) List.Forall₂.nil)

/-- A context in the middle of the file delivers the messages of its range, but for the last one
when it is lost. -/
theorem middleRange_reads (fill : ℕ → MboxChar)
    (hs : s = 0 ∨ nlFromWord <+: (mboxFile ms).drop s) (hse : s < e)
    (he : nlFromWord <+: (mboxFile ms).drop e) (hctx : ctx.Fresh s e) :
    ∃ msgs, Converges (fun n => mboxParserCtxGetNextMessageCallback fill
        (preadRegular (mboxFile ms)) n ctx) msgs ∧
      List.Forall₂ (fun x msg => msg.Reads ms x)
        (fromLinesRead (mboxFile ms) (s, e)) msgs := by
  obtain ⟨i, l, hil, hl, hsi, hel⟩ := exists_range hs hse he
  have hlines := fromLines_range hil hl hsi hel
  have hlt := pos_lt (show l + 1 < l + 2 by omega) (show l + 2 ≤ ms.length by omega)
  have hend := pos_le_length (show l + 2 ≤ ms.length by omega)
  by_cases hlost : LostAtBoundary (mboxFile ms) s e
  · obtain ⟨msgs, hconv, hcover⟩ := range_lost fill hil hl hsi hel hctx hlost
    refine ⟨msgs, hconv, ?_⟩
    rw [fromLinesRead, if_pos ⟨show e < _ by omega, hlost⟩]
    dsimp only
    rw [hlines, show l + 1 - i = l - i + 1 by omega, List.range'_concat, List.map_append,
      List.map_singleton, List.dropLast_concat]
    exact reads_of_coverAll (by omega) hsi hcover
  · obtain ⟨msgs, hconv, hcover⟩ := range_delivered fill hil hl hsi hel hctx hlost
    refine ⟨msgs, hconv, ?_⟩
    rw [fromLinesRead, if_neg fun h => hlost h.2]
    dsimp only
    rw [hlines]
    exact reads_of_coverAll (by omega) hsi hcover

end Context

/-! ## The contexts of the file -/

section Contexts

variable {fill : ℕ → MboxChar} {chunkSize n : ℕ} {prev ctx : MboxParserCtx}
  {ctxs : List MboxParserCtx}

/-- A context is one that has sought the start of its chunk. -/
theorem sought_of_mem (h : List.Forall₂ (Sought fill file chunkSize) (List.range n) ctxs)
    (hctx : ctx ∈ ctxs) : ∃ i, Sought fill file chunkSize i ctx := by
  obtain ⟨i, hi⟩ := List.getElem?_of_mem hctx
  exact ⟨i, sought_getElem? h hi⟩

/-- Setting the offsets leaves the error fields as they were. -/
theorem err_setOffsets (h : ctx ∈ setOffsets prev ctxs) :
    ∃ ctx₀ ∈ prev :: ctxs, ctx.err = ctx₀.err := by
  induction ctxs generalizing prev with
  | nil =>
    obtain rfl := List.mem_singleton.mp h
    exact ⟨prev, List.mem_cons_self .., rfl⟩
  | cons ctx' ctxs ih =>
    rcases List.mem_cons.mp h with rfl | hmem
    · exact ⟨prev, List.mem_cons_self .., rfl⟩
    · obtain ⟨ctx₀, hmem₀, hctx⟩ := ih hmem
      rcases List.mem_cons.mp hmem₀ with rfl | hmem₀
      · exact ⟨ctx', List.mem_cons_of_mem _ (List.mem_cons_self ..), hctx⟩
      · exact ⟨ctx₀, List.mem_cons_of_mem _ (List.mem_cons_of_mem _ hmem₀), hctx⟩

theorem mboxFile_ne_nil (hne : ms ≠ []) : mboxFile ms ≠ [] := by
  have hlt := pos_lt (List.length_pos_iff.mpr hne) (le_refl ms.length)
  rw [pos_length, pos_zero] at hlt
  exact List.length_pos_iff.mp (by omega)

/-- A seek ends at the start of the file, or in front of a From line. -/
theorem EndsAt.start (hne : ms ≠ []) {fo p : ℕ} (h : EndsAt (mboxFile ms) fo p) :
    p = 0 ∨ nlFromWord <+: (mboxFile ms).drop p := by
  have hpos := List.length_pos_iff.mpr hne
  rcases eq_or_ne fo 0 with rfl | hfo
  · exact Or.inl ((h.of_zero (mboxFile_ne_nil hne)).unique (firstSeen_mboxFile hpos))
  · obtain ⟨w, -, hp⟩ := h.of_pos (mboxFile_ne_nil hne) hfo
    exact Or.inr hp.1.2.1

/-- A context that is kept is as the parsers want it. -/
theorem fresh_of_kept (hne : ms ≠ [])
    (hall : List.Forall₂ (Sought fill (mboxFile ms) chunkSize) (List.range n) (prev :: ctxs))
    (hprev : prev.ioctx.startOffset = 0) (hfirst : prev.ioctx.offset = 0)
    (h : ctx ∈ filterContexts (setOffsets prev ctxs)) :
    ctx.Fresh ctx.ioctx.startOffset ctx.ioctx.endOffset ∧
      ctx.ioctx.startOffset < ctx.ioctx.endOffset ∧
      (ctx.ioctx.startOffset = 0 ∨ nlFromWord <+: (mboxFile ms).drop ctx.ioctx.startOffset) ∧
      (ctx.ioctx.endOffset = (mboxFile ms).length ∨
        nlFromWord <+: (mboxFile ms).drop ctx.ioctx.endOffset) := by
  obtain ⟨ctx₁, hmem, hlt, hio, herr⟩ := mem_filterContexts h
  rw [hio]
  obtain ⟨ctx₀, hmem₀, hstart, hfile, hbuf, hioErr⟩ := mem_setOffsets hmem
  obtain ⟨ctx₂, hmem₂, herr₂⟩ := err_setOffsets hmem
  obtain ⟨ctx₃, hmem₃, hstop⟩ := endOffset_setOffsets hmem
  obtain ⟨i, hi⟩ := sought_of_mem hall hmem₀
  obtain ⟨i₂, hi₂⟩ := sought_of_mem hall hmem₂
  obtain ⟨i₃, hi₃⟩ := sought_of_mem hall hmem₃
  refine ⟨⟨?_, ?_, ?_, ?_, ?_, ?_, ?_⟩, hlt, ?_, ?_⟩
  · rw [herr, herr₂, hi₂.err]
  · rw [hio]
    exact offset_setOffsets (hfirst.trans hprev.symm) hmem
  · rw [hio]
  · rw [hio]
  · rw [hio, hfile, hi.fileOffset, hstart]
  · rw [hio, hioErr, hi.ioErr (mboxFile_ne_nil hne)]
  · rw [hio, hbuf]
    exact hi.buf
  · rw [hstart]
    exact hi.endsAt.start hne
  · rcases hstop with hstop | hstop
    · rcases hi₃.endsAt.start hne with hzero | hfrom
      · omega
      · exact Or.inr (hstop ▸ hfrom)
    · exact Or.inl (hstop.trans hi₃.fileSize)

end Contexts

/-- The range at the end of the file has a From line. -/
theorem fromLinesRead_ne_nil (hne : ms ≠ [])
    (hs : s = 0 ∨ nlFromWord <+: (mboxFile ms).drop s) :
    fromLinesRead (mboxFile ms) (s, (mboxFile ms).length) ≠ [] := by
  obtain ⟨i, hi, hsi⟩ := exists_startsAt hne hs
  have hall := fromLines_messages (show i + (ms.length - i) ≤ ms.length by omega) hsi
  rw [show i + (ms.length - i) = ms.length by omega, pos_length] at hall
  rw [fromLinesRead, if_neg fun h => lt_irrefl _ h.1, hall, ne_eq, List.map_eq_nil_iff]
  exact List.ne_nil_of_length_pos (by rw [List.length_range']; omega)

/-- The contexts of a file, and the messages they deliver. -/
theorem mboxMain_reads (fill : ℕ → MboxChar) (hne : ms ≠ []) {n : ℕ} (hn : 0 < n)
    (hends : AllSeeksEnd fill (mboxFile ms) n)
    (horder : InOrder (mboxFile ms) ((mboxFile ms).length / n) n) :
    ∃ ctxs msgs,
      Converges (fun fuel => mboxSetAllOffsets fill (preadRegular (mboxFile ms)) fuel
        (mboxFile ms).length n) ctxs ∧
      Tiles 0 (mboxFile ms).length (ctxs.map MboxParserCtx.range) ∧
      Converges (fun fuel => mboxMain fill (preadRegular (mboxFile ms)) fuel
        (mboxFile ms).length n) msgs ∧
      List.Forall₂ (fun x msg => msg.Reads ms x)
        ((ctxs.map MboxParserCtx.range).flatMap (fromLinesRead (mboxFile ms))) msgs ∧
      msgs ≠ [] := by
  obtain ⟨prev, ctxs, hconv, hall⟩ := mboxSeekAllOffsets_converges fill hn hends
  obtain ⟨all, kept, start, starts, hseek, hset, hstarts, -, htiles, -⟩ :=
    rangesPartition_of_inOrder hn hends horder
  obtain rfl := hseek.unique hconv
  obtain rfl := hset.unique (mboxSetAllOffsets_converges hconv)
  have hlen := hall.length_eq
  have hsought : Sought fill (mboxFile ms) ((mboxFile ms).length / n) 0 prev :=
    sought_getElem? hall rfl
  have hzero := hsought.endsAt
  rw [Nat.zero_mul] at hzero
  have hprev : prev.ioctx.startOffset = 0 :=
    (hzero.of_zero (mboxFile_ne_nil hne)).unique (firstSeen_mboxFile (List.length_pos_iff.mpr hne))
  have hfirst : prev.ioctx.offset = 0 := hsought.offset.trans (Nat.zero_mul _)
  have hstart : start = 0 := by
    rw [starts_setOffsets, List.map_cons, hprev] at hstarts
    exact (List.cons.inj hstarts).1.symm
  rw [hstart] at htiles
  -- each context by itself
  obtain ⟨r, hparse, hreads⟩ : ∃ r, Converges (fun fuel =>
      (filterContexts (setOffsets prev ctxs)).mapM (mboxParserCtxGetNextMessageCallback fill
        (preadRegular (mboxFile ms)) fuel)) r ∧
      List.Forall₂ (fun ctx msgs => List.Forall₂ (fun x msg => msg.Reads ms x)
        (fromLinesRead (mboxFile ms) ctx.range) msgs)
        (filterContexts (setOffsets prev ctxs)) r := by
    refine Converges.mapM fun ctx hctx => ?_
    obtain ⟨hfresh, hlt, hs, he⟩ := fresh_of_kept hne hall hprev hfirst hctx
    rcases he with he | he
    · obtain ⟨i, hi, hsi⟩ := exists_startsAt hne hs
      rw [he] at hfresh
      obtain ⟨msgs, hmsgs, hread⟩ := lastRange_reads fill hi hsi hfresh
      refine ⟨msgs, hmsgs, ?_⟩
      rw [fromLinesRead, if_neg fun h => absurd h.1 (by rw [MboxParserCtx.range, he]; omega),
        MboxParserCtx.range, he]
      exact hread
    · exact middleRange_reads fill hs hlt he hfresh
  have hflat : List.Forall₂ (fun x msg => msg.Reads ms x)
      (((filterContexts (setOffsets prev ctxs)).map MboxParserCtx.range).flatMap
        (fromLinesRead (mboxFile ms))) r.flatten := by
    rw [List.flatMap_def, List.map_map]
    exact List.rel_flatten (List.forall₂_map_left_iff.mpr hreads)
  refine ⟨_, r.flatten, hset, htiles,
    Converges.bind hset (Converges.bind hparse (Converges.const rfl)), hflat, fun hnil => ?_⟩
  -- the last context has a message
  rw [hnil, List.forall₂_nil_right_iff, List.flatMap_eq_nil_iff] at hflat
  obtain ⟨range, hrange, hend⟩ :=
    htiles.exists_end (List.length_pos_iff.mpr (mboxFile_ne_nil hne)).ne
  obtain ⟨ctx, hctx, rfl⟩ := List.mem_map.mp hrange
  obtain ⟨-, -, hs, -⟩ := fresh_of_kept hne hall hprev hfirst hctx
  have hread := hflat _ hrange
  have hstop : ctx.ioctx.endOffset = (mboxFile ms).length := hend
  rw [MboxParserCtx.range, hstop] at hread
  exact fromLinesRead_ne_nil hne hs hread

/-- The From lines of a file are where its messages begin. -/
theorem fromLines_mboxFile (ms : List Mail) :
    fromLines (mboxFile ms) 0 (mboxFile ms).length = (List.range ms.length).map (pos ms) := by
  have hall : fromLines (mboxFile ms) 0 (pos ms (0 + ms.length)) =
      (List.range' 0 ms.length).map (pos ms) :=
    fromLines_messages (Nat.zero_add _).le (Or.inl rfl)
  rwa [Nat.zero_add, pos_length, ← List.range_eq_range'] at hall

/-- Where no message is lost there is one for every From line of the file. -/
theorem fromLinesRead_all {rs : List (ℕ × ℕ)} (h : Tiles 0 (mboxFile ms).length rs)
    (hclear : ∀ r ∈ rs, r.2 < (mboxFile ms).length → ¬ LostAtBoundary (mboxFile ms) r.1 r.2) :
    rs.flatMap (fromLinesRead (mboxFile ms)) = (List.range ms.length).map (pos ms) := by
  have hsame : rs.flatMap (fromLinesRead (mboxFile ms)) =
      rs.flatMap fun r => fromLines (mboxFile ms) r.1 r.2 :=
    List.flatMap_congr fun r hr => if_neg fun hlost => hclear r hr hlost.1 hlost.2
  rw [hsame, fromLines_tiles h, fromLines_mboxFile]

/-! ## What is made of the messages -/

section Parsed

variable {fill : ℕ → MboxChar} {dateToUnix : List MboxChar → Exec (Option Int)} {pread : Pread}
  {msg : MboxIOMsg}

/-- The headers of a mail can be read, and what is behind them is longer than the preview. -/
structure Mail.Readable (fill : ℕ → MboxChar) (dateToUnix : List MboxChar → Exec (Option Int))
    (m : Mail) : Prop where
  headers : ∃ es, DateReads dateToUnix es ∧ ∀ rest, rest ≠ [] → beginsLine rest = false →
    HeaderBlock (mboxBufAlloc fill 3000).data (m.head ++ rest) es rest
  body : beginsLine m.body = false
  room : mboxBufPreviewLen + 10 ≤ m.body.length

/-- The buffer of a message is one of its own. -/
structure MboxIOMsg.Whole (msg : MboxIOMsg) : Prop where
  offset : msg.buf.offset = 0
  holds : msg.buf.Holds msg.buf.bytes

/-- A message that is delivered has a buffer of its own. -/
theorem getNextMessage_whole {fuel : ℕ} {ctx ctx' : MboxParserCtx}
    (h : mboxParserCtxGetNextMessage fill pread fuel ctx = ok (some msg, ctx')) : msg.Whole := by
  obtain ⟨buf, -, h⟩ := bind_eq_ok h
  obtain ⟨⟨found, ioctx⟩, -, h⟩ := bind_eq_ok h
  dsimp only at h
  by_cases hfound : found ≠ 1
  · rw [if_pos hfound] at h
    cases h
  rw [if_neg hfound] at h
  obtain ⟨⟨found', ioctx'⟩, -, h⟩ := bind_eq_ok h
  dsimp only at h
  by_cases hfound' : found' ≠ 1
  · rw [if_pos hfound'] at h
    cases h
  rw [if_neg hfound'] at h
  obtain ⟨cut, hcut, h⟩ := bind_eq_ok h
  obtain ⟨fullMsg, hdup, hmsg⟩ := bind_eq_ok hcut
  obtain rfl := Exec.ok.inj hmsg
  obtain rfl := Option.some.inj (Prod.mk.inj (Exec.ok.inj h)).1
  obtain ⟨bytes, hload, -⟩ := bind_eq_ok hdup
  have hle : ioctx'.buf.offset ≤ ioctx'.buf.data.length := by
    rw [loadBytes, Nat.zero_add] at hload
    split at hload
    · assumption
    · cases hload
  obtain ⟨buf', hdup', hholds, hoffset, -⟩ :=
    mboxBufDupRaw_spec fill hle (Nat.le_add_right _ 9)
  obtain rfl := Exec.ok.inj (hdup.symm.trans hdup')
  exact ⟨hoffset, hholds.bytes_eq.symm ▸ hholds⟩

/-- So have all that a context delivers. -/
theorem whole_of_callback {fuel : ℕ} {ctx : MboxParserCtx} {msgs : List MboxIOMsg}
    (h : mboxParserCtxGetNextMessageCallback fill pread fuel ctx = ok msgs) :
    ∀ msg ∈ msgs, msg.Whole := by
  have hstep : ∀ (x : MboxParserCtx × List MboxIOMsg) y, (∀ msg ∈ x.2, msg.Whole) →
      getNextMessageCallbackStep fill pread fuel x = ok y →
      y.elim (fun x' => ∀ msg ∈ x'.2, msg.Whole) (fun r => ∀ msg ∈ r, msg.Whole) := by
    intro x y hx hy
    obtain ⟨⟨found, ctx'⟩, hcall, hy⟩ := bind_eq_ok hy
    cases found with
    | none =>
      obtain rfl := Exec.ok.inj hy
      exact hx
    | some msg =>
      have hall : ∀ msg' ∈ x.2 ++ [msg], msg'.Whole := by
        intro msg' hmem
        rcases List.mem_append.mp hmem with hmem | hmem
        · exact hx msg' hmem
        · obtain rfl := List.mem_singleton.mp hmem
          exact getNextMessage_whole hcall
      dsimp only at hy
      split at hy
      · obtain rfl := Exec.ok.inj hy
        exact hall
      · obtain rfl := Exec.ok.inj hy
        exact hall
  have hnil : ∀ msg ∈ (ctx, ([] : List MboxIOMsg)).2, msg.Whole :=
    fun msg hmsg => absurd hmsg List.not_mem_nil
  exact loop_inv (fun x x' hx hx' => hstep x (.inl x') hx hx')
    (fun x r hx hr => hstep x (.inr r) hx hr) hnil h

/-- And all that the whole file gives. -/
theorem whole_of_main {fileSize n : ℕ} {msgs : List MboxIOMsg}
    (h : Converges (fun fuel => mboxMain fill pread fuel fileSize n) msgs) :
    ∀ msg ∈ msgs, msg.Whole := by
  obtain ⟨fuel, hfuel⟩ := h.exists_ok
  obtain ⟨base, -, hparse⟩ := bind_eq_ok hfuel
  obtain ⟨all, hall, hmsgs⟩ := bind_eq_ok hparse
  obtain rfl := Exec.ok.inj hmsgs
  have hgets := Converges.mapM_inv getNextMessageCallback_mono
    ((FuelMono.mapM getNextMessageCallback_mono _).converges hall)
  intro msg hmsg
  obtain ⟨part, hpart, hmem⟩ := List.mem_flatten.mp hmsg
  obtain ⟨i, hi, rfl⟩ := List.getElem_of_mem hpart
  obtain ⟨hlen, hget⟩ := List.forall₂_iff_get.mp hgets
  obtain ⟨m, hm⟩ := (hget i (hlen ▸ hi) hi).exists_ok
  exact whole_of_callback hm msg hmem

/-- The bytes of a delivered mail: there may be a newline in front of them, and at most the last
ones are missing. -/
theorem MboxIOMsg.OfMail.bytes_eq {k : ℕ} (hk : k < ms.length) (h : msg.OfMail ms k)
    (hbody : 10 ≤ ms[k].body.length) :
    ∃ pre t, msg.buf.bytes = pre ++ (ms[k].head ++ t) ∧ (∀ c ∈ pre, isLine c = true) ∧
      t <+: ms[k].body ++ [nl] ∧ ms[k].body.length ≤ t.length + 9 := by
  have hle := h.start.le
  have hsucc := pos_succ hk
  have hnext := pos_le_length (show k + 1 ≤ ms.length by omega)
  have hbytes : ms[k].bytes = ms[k].head ++ (ms[k].body ++ [nl]) := List.append_assoc ..
  have hlen : ms[k].bytes.length = ms[k].head.length + ms[k].body.length + 1 := by
    rw [hbytes, List.length_append, List.length_append, List.length_singleton]
    omega
  have hend : msg.endOffset ≤ pos ms (k + 1) ∧ pos ms (k + 1) ≤ msg.endOffset + 10 := by
    have hstop := h.stop
    split at hstop
    · omega
    · have hlast := pos_length ms
      rw [show ms.length = k + 1 by omega] at hlast
      omega
  have hhead := (ms[k]).length_head
  have hmail : slice (mboxFile ms) (pos ms k) msg.endOffset =
      ms[k].head ++ (ms[k].body ++ [nl]).take (msg.endOffset - pos ms k - ms[k].head.length) := by
    rw [slice, drop_pos_of_lt hk, List.take_append_of_le_length (by omega), hbytes,
      List.take_append, List.take_of_length_le (by omega)]
  obtain ⟨pre, hpre, hline⟩ : ∃ pre, slice (mboxFile ms) msg.startOffset (pos ms k) = pre ∧
      ∀ c ∈ pre, isLine c = true := by
    refine ⟨_, rfl, fun c hc => ?_⟩
    rcases h.start with hs | ⟨hpos, hs⟩
    · rw [hs, slice_self] at hc
      cases hc
    · obtain ⟨j, rfl⟩ : ∃ j, k = j + 1 := ⟨k - 1, by omega⟩
      have hnl := nl_before_pos (show j < ms.length by omega)
      rw [← hs, Nat.add_sub_cancel] at hnl
      obtain ⟨i, hi, rfl⟩ := List.getElem_of_mem hc
      have hget := List.getElem?_eq_getElem hi
      rw [getElem?_slice] at hget
      split at hget
      · obtain rfl : i = 0 := by omega
        rw [Nat.add_zero, hnl] at hget
        rw [← Option.some.inj hget]
        rfl
      · cases hget
  refine ⟨pre, (ms[k].body ++ [nl]).take (msg.endOffset - pos ms k - ms[k].head.length), ?_, hline,
    List.take_prefix _ _, ?_⟩
  · rw [h.bytes, ← slice_append_slice hle.1 (by omega), hpre, hmail]
  · rw [List.length_take, List.length_append, List.length_singleton]
    omega

/-- The headers of a delivered mail, and what is left behind them. -/
theorem Mail.Readable.block {k : ℕ} (hk : k < ms.length) (hm : ms[k].Readable fill dateToUnix)
    (h : msg.OfMail ms k) :
    ∃ es t, DateReads dateToUnix es ∧ mboxBufPreviewLen ≤ t.length ∧
      HeaderBlock (mboxBufAlloc fill 3000).data (msg.buf.bytes.dropWhile isLine) es t := by
  have hroom := hm.room
  obtain ⟨pre, t, hbytes, hpre, htake, hlen⟩ := h.bytes_eq hk (by omega)
  obtain ⟨es, hdate, hblock⟩ := hm.headers
  have hne : t ≠ [] := List.length_pos_iff.mp (by omega)
  obtain ⟨b, body, hbody⟩ := List.exists_cons_of_ne_nil
    (List.length_pos_iff.mp (show 0 < ms[k].body.length by omega))
  have hbegins : beginsLine t = false := by
    obtain ⟨c, t', rfl⟩ := List.exists_cons_of_ne_nil hne
    rw [hbody, List.cons_append, List.cons_prefix_cons] at htake
    rw [htake.1]
    have hfirst := hm.body
    rwa [hbody] at hfirst
  have hdrop : msg.buf.bytes.dropWhile isLine = ms[k].head ++ t := by
    rw [hbytes, List.dropWhile_append_of_pos hpre]
    rfl
  exact ⟨es, t, hdate, by omega, hdrop.symm ▸ hblock t hne hbegins⟩

/-- **What is delivered of a readable mail can be parsed**, even of the last one, of which the end
is missing. -/
theorem Mail.Readable.parses {k : ℕ} (hk : k < ms.length)
    (hm : ms[k].Readable fill dateToUnix) (h : msg.OfMail ms k) (hwhole : msg.Whole) :
    ∃ lite, ParsesTo fill dateToUnix msg lite := by
  obtain ⟨es, t, hdate, hroom, hblock⟩ := hm.block hk h
  have hne : t ≠ [] := List.length_pos_iff.mp (Nat.lt_of_lt_of_le (by decide) hroom)
  obtain ⟨make, -, -, hconv⟩ :=
    mboxMsgLiteFromBuffer_preview fill hblock hne hdate msg.startOffset msg.endOffset
  obtain ⟨rest, hdata⟩ := hwhole.holds.data
  obtain ⟨p, hp, -⟩ := hconv msg.buf (nul :: rest) hwhole.offset hwhole.holds.len hdata
    (hroom.trans (by rw [List.length_append]; exact Nat.le_add_right ..))
  exact ⟨_, hp⟩

/-- What is kept of the From line at `x`: a lite message made of what is delivered there. -/
def LiteOf (fill : ℕ → MboxChar) (dateToUnix : List MboxChar → Exec (Option Int)) (ms : List Mail)
    (x : ℕ) (lite : MboxMsgLite) : Prop :=
  ∃ msg : MboxIOMsg, msg.Reads ms x ∧ ParsesTo fill dateToUnix msg lite

/-- What is made of the delivered messages is what is made of the mails. -/
theorem liteOf_of_parses {xs : List ℕ} {msgs : List MboxIOMsg} {lites : List MboxMsgLite}
    (hreads : List.Forall₂ (fun x msg => msg.Reads ms x) xs msgs)
    (hlites : List.Forall₂ (ParsesTo fill dateToUnix) msgs lites) :
    List.Forall₂ (LiteOf fill dateToUnix ms) xs lites := by
  induction hreads generalizing lites with
  | nil =>
    cases hlites
    exact List.Forall₂.nil
  | cons hread _ ih =>
    rcases hlites with _ | ⟨hlite, hrest⟩
    exact List.Forall₂.cons ⟨_, hread, hlite⟩ (ih hrest)

/-- Something can be made of all of them, when all mails are readable. -/
theorem exists_lites (hgood : ∀ m ∈ ms, m.Readable fill dateToUnix) {xs : List ℕ}
    {msgs : List MboxIOMsg} (hreads : List.Forall₂ (fun x msg => msg.Reads ms x) xs msgs)
    (hwhole : ∀ msg ∈ msgs, msg.Whole) :
    ∃ lites, List.Forall₂ (ParsesTo fill dateToUnix) msgs lites := by
  induction hreads with
  | nil => exact ⟨[], List.Forall₂.nil⟩
  | cons hread _ ih =>
    obtain ⟨k, hk, -, hmail⟩ := hread
    obtain ⟨lite, hlite⟩ := (hgood _ (List.getElem_mem hk)).parses hk hmail
      (hwhole _ (List.mem_cons_self ..))
    obtain ⟨lites, hlites⟩ := ih fun msg hmsg => hwhole msg (List.mem_cons_of_mem _ hmsg)
    exact ⟨lite :: lites, List.Forall₂.cons hlite hlites⟩

theorem allSeeksEnd_of_solo {n : ℕ} {base : List MboxParserCtx} {all : List (List MboxIOMsg)}
    (h : Solo fill (preadRegular file) file.length n base all) :
    AllSeeksEnd fill file (n + 1) := fun i hi => by
  obtain ⟨ctx, hctx⟩ := h.seeks i hi
  exact ⟨ctx, hctx⟩

/-- The contexts deliver messages of different From lines, in the order of the file. -/
theorem fromLinesRead_sublist {rs : List (ℕ × ℕ)} (h : Tiles 0 (mboxFile ms).length rs) :
    (rs.flatMap (fromLinesRead (mboxFile ms))).Sublist ((List.range ms.length).map (pos ms)) := by
  rw [← fromLines_mboxFile, ← fromLines_tiles h]
  refine List.Sublist.flatMap_right rs fun r _ => ?_
  rw [fromLinesRead]
  split
  · exact List.dropLast_sublist _
  · exact List.Sublist.refl _

/-- **What there is when `mboxMain` has returned**: the messages that were delivered are those of
the mails. -/
theorem mails_of_returned {n : ℕ} {acts : List (MboxAction n)} {s : MboxThreads n} (hne : ms ≠ [])
    (horder : InOrder (mboxFile ms) ((mboxFile ms).length / (n + 1)) (n + 1))
    (hrun : Run (MboxThreads.Step fill dateToUnix (preadRegular (mboxFile ms)))
      (.start fill (mboxFile ms).length n) acts s) (hret : s.main = .returned) :
    ∃ ctxs msgs lites xs,
      Converges (fun fuel => mboxSetAllOffsets fill (preadRegular (mboxFile ms)) fuel
        (mboxFile ms).length (n + 1)) ctxs ∧
      Tiles 0 (mboxFile ms).length (ctxs.map MboxParserCtx.range) ∧
      List.Forall₂ (fun x msg => msg.Reads ms x)
        ((ctxs.map MboxParserCtx.range).flatMap (fromLinesRead (mboxFile ms))) msgs ∧
      msgs ≠ [] ∧ (∀ msg ∈ msgs, msg.Whole) ∧
      List.Forall₂ (ParsesTo fill dateToUnix) msgs lites ∧
      s.completedParse.Holds s.heap xs ∧ xs.Perm lites := by
  obtain ⟨msgs, hmsgs, hperm⟩ := messages_of_returned hrun hret
  obtain ⟨lites, xs, hlites, hholds, hperm'⟩ := lites_of_returned hrun hret hperm
  obtain ⟨base, all, hsolo, -⟩ := solo_of_converges hmsgs
  obtain ⟨ctxs, msgs', hset, htiles, hmsgs', hreads, hsome⟩ :=
    mboxMain_reads fill hne (Nat.succ_pos n) (allSeeksEnd_of_solo hsolo) horder
  obtain rfl := hmsgs'.unique hmsgs
  exact ⟨ctxs, msgs', lites, xs, hset, htiles, hreads, hsome, whole_of_main hmsgs, hlites, hholds,
    hperm'⟩

end Parsed

end Libmbox2
