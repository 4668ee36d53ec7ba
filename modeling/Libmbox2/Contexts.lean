import Libmbox2.Deliver

/-!
# What a context in the middle of a file delivers

A context ends at the newline in front of a later From line. It reads in steps of
`MBOX_IO_READ_SIZE` from its start, so one of its reads is the first to reach beyond its
end; where that read ends (`readBoundary`) decides whether the search for the From line
at the end gives up in front of it. The last message of the range is lost exactly when a
newline behind its headers, the one in front of that From line included, lies at most ten
bytes in front of the boundary, unless it is that newline and all of `"\nFrom "` has been
read (`LostAtBoundary`, `context_delivers_iff`).
-/

namespace Libmbox2

open CSem CSem.Exec

variable {file : List MboxChar} {s e : ℕ}

/-- A context as the parsers find it: nothing read yet. -/
structure MboxParserCtx.Fresh (ctx : MboxParserCtx) (s e : ℕ) : Prop where
  err : ctx.err = mboxIOOk
  offset : ctx.ioctx.offset = s
  startOffset : ctx.ioctx.startOffset = s
  endOffset : ctx.ioctx.endOffset = e
  fileOffset : ctx.ioctx.fileOffset = s
  ioErr : ctx.ioctx.err = mboxIOOk
  buf : ctx.ioctx.buf.Empty

/-- A fresh context is ready for its first message. -/
theorem MboxParserCtx.Fresh.ready {ctx : MboxParserCtx} {P : ℕ → Prop} (h : ctx.Fresh s e)
    (hs : s ≤ file.length) (hP : P s) : Ready file s e P ctx.ioctx := by
  obtain ⟨y, rest, hdata⟩ := List.exists_cons_of_ne_nil h.buf.room
  refine ⟨⟨[], y, rest, ?_, h.buf.offset.symm⟩, ?_, h.fileOffset.ge, h.fileOffset.symm ▸ hs,
    h.buf.capacity, h.offset, h.endOffset, h.ioErr, h.fileOffset.symm ▸ hP⟩
  · rw [h.fileOffset, slice_self, hdata]
    rfl
  · rw [h.fileOffset, h.buf.len, h.buf.offset]
    omega

/-- It has not come to the end of its range. -/
theorem MboxParserCtx.Fresh.not_done {ctx : MboxParserCtx} (h : ctx.Fresh s e) :
    ctx.err ≠ mboxParseDone := by
  rw [h.err]
  decide

/-! ## Where the reads end -/

/-- Where the first read of a context at `s` ends that reaches beyond `e`. -/
def readBoundary (s e : ℕ) : ℕ := s + ((e - s) / mboxIOReadSize + 1) * mboxIOReadSize

/-- Where the reads of the context end, up to the one that reaches beyond `e`. -/
def ReadEnd (file : List MboxChar) (s e fo : ℕ) : Prop :=
  ∃ t, t ≤ (e - s) / mboxIOReadSize + 1 ∧ fo = min file.length (s + t * mboxIOReadSize)

/-- The read boundary that decides is the first one behind the end of the range. -/
theorem lt_readBoundary (hse : s ≤ e) : e < readBoundary s e := by
  have h := Nat.lt_div_mul_add (a := e - s) mboxIOReadSize_pos
  rw [readBoundary, Nat.succ_mul]
  omega

/-- Nothing has been read in front of the first read. -/
theorem readEnd_start (hs : s ≤ file.length) : ReadEnd file s e s :=
  ⟨0, Nat.zero_le _, by rw [Nat.zero_mul]; omega⟩

/-- One read more, where the range goes on. -/
theorem ReadEnd.next (hse : s < e) (he : e < file.length) {fo : ℕ}
    (h : ReadEnd file s e fo) (hfo : fo ≤ e) :
    ReadEnd file s e (min file.length (fo + mboxIOReadSize)) := by
  obtain ⟨t, -, rfl⟩ := h
  have ht : t ≤ (e - s) / mboxIOReadSize := by
    rw [Nat.le_div_iff_mul_le mboxIOReadSize_pos]
    omega
  refine ⟨t + 1, by omega, ?_⟩
  rw [Nat.succ_mul]
  omega

/-- Where the reads have passed the end of the range, they have come to the first boundary behind
it. -/
theorem ReadEnd.past (hse : s ≤ e) {fo : ℕ} (h : ReadEnd file s e fo) (hfo : e < fo) :
    fo = min file.length (readBoundary s e) := by
  obtain ⟨t, ht, rfl⟩ := h
  rcases Nat.lt_or_ge t ((e - s) / mboxIOReadSize + 1) with hlt | hge
  · have h := (Nat.le_div_iff_mul_le (y := e - s) (x := t) mboxIOReadSize_pos).mp (by omega)
    omega
  · rw [readBoundary, le_antisymm ht hge]

/-! ## The condition -/

/-- The message carries the From line at `x`: it is the part of the file between two
positions with no other From line in it, up to the next one. -/
structure MboxIOMsg.Carries (msg : MboxIOMsg) (file : List MboxChar) (x : ℕ) : Prop where
  bytes : msg.buf.bytes = slice file msg.startOffset msg.endOffset
  fromLine : fromLines file msg.startOffset msg.endOffset = [x]
  next : FromLineAt file msg.endOffset

/-- The context delivers one message for every From line in `[s, e)`, in order. -/
def DeliversAll (fill : ℕ → MboxChar) (file : List MboxChar) (ctx : MboxParserCtx)
    (s e : ℕ) : Prop :=
  ∃ msgs, Converges
      (fun n => mboxParserCtxGetNextMessageCallback fill (preadRegular file) n ctx) msgs ∧
    List.Forall₂ (fun x msg => msg.Carries file x) (fromLines file s e) msgs

/-- A newline `p` between the headers of the last message in `[s, e)` and `e` lies in the
last ten bytes of the first read that reaches beyond `e`; if it is `e`, the read ends
inside `"\nFrom "`. -/
def LostAtBoundary (file : List MboxChar) (s e : ℕ) : Prop :=
  ∃ x b p, (fromLines file s e).getLast? = some x ∧ headerEnd? (file.drop x) = some b ∧
    x + b ≤ p ∧ p ≤ e ∧ file[p]? = some nl ∧ readBoundary s e ≤ p + 10 ∧
    ¬ (p = e ∧ e + 6 ≤ readBoundary s e)

variable {ms : List Mail} {i l : ℕ}

/-- The range of a context, in terms of the messages it is made of. -/
theorem exists_range (hs : s = 0 ∨ nlFromWord <+: (mboxFile ms).drop s) (hse : s < e)
    (he : nlFromWord <+: (mboxFile ms).drop e) :
    ∃ i l, i ≤ l ∧ l + 1 < ms.length ∧ StartsAt ms i s ∧ e + 1 = pos ms (l + 1) := by
  obtain ⟨j, hj0, hj, hej⟩ := nlFrom_iff.mp he
  obtain ⟨l, rfl⟩ : ∃ l, j = l + 1 := ⟨j - 1, by omega⟩
  rcases hs with rfl | hs
  · exact ⟨0, l, Nat.zero_le l, hj, Or.inl rfl, hej⟩
  · obtain ⟨i, hi0, hi, hsi⟩ := nlFrom_iff.mp hs
    refine ⟨i, l, ?_, hj, Or.inr ⟨hi0, hsi⟩, hej⟩
    by_contra hcon
    have := pos_le (show l + 1 ≤ i by omega) hi.le
    omega

/-- The From lines in a range are those of the messages that start in it. -/
theorem fromLines_range (hil : i ≤ l) (hl : l + 1 < ms.length) (hs : StartsAt ms i s)
    (he : e + 1 = pos ms (l + 1)) :
    fromLines (mboxFile ms) s e = (List.range' i (l + 1 - i)).map (pos ms) := by
  have hse : s ≤ e := by
    have := pos_lt (show i < l + 1 by omega) hl.le
    have := hs.le
    omega
  have hnone : fromLines (mboxFile ms) e (e + 1) = [] := by
    refine fromLines_eq_nil fun x hx hlt hfrom => ?_
    obtain ⟨k, hk, hxk⟩ := fromLineAt_iff.mp hfrom
    have := pos_inj_of_le hk.le hl.le (by omega) (by omega)
    subst this
    omega
  have h := fromLines_messages (show i + (l + 1 - i) ≤ ms.length by omega) hs
  rw [show i + (l + 1 - i) = l + 1 by omega, ← he, ← fromLines_append hse (Nat.le_succ e),
    hnone, List.append_nil] at h
  exact h

/-- Messages between the starts of messages carry their From lines. -/
theorem carries_of_coverAll {m n a : ℕ} (hmn : m + n < ms.length) (ha : StartsAt ms m a)
    {msgs : List MboxIOMsg} (h : CoverAll (mboxFile ms) (bounds ms a m n) msgs) :
    List.Forall₂ (fun x msg => msg.Carries (mboxFile ms) x)
      ((List.range' m n).map (pos ms)) msgs := by
  induction n generalizing m a msgs with
  | zero =>
    cases h
    exact List.Forall₂.nil
  | succ n ih =>
    rcases h with _ | ⟨hmsg, hrest⟩
    rw [List.range'_succ, List.map_cons]
    refine List.Forall₂.cons ⟨?_, ?_, ?_⟩ (ih (by omega) (Or.inl rfl) hrest)
    · rw [hmsg.bytes, hmsg.startOffset, hmsg.endOffset]
    · rw [hmsg.startOffset, hmsg.endOffset, fromLines_messages (n := 1) (by omega) ha]
      rfl
    · rw [hmsg.endOffset]
      exact fromLineAt_iff.mpr ⟨m + 1, by omega, rfl⟩

/-- What the condition says of the last message of the range. -/
theorem lostAtBoundary_iff (hil : i ≤ l) (hl : l + 1 < ms.length) (hs : StartsAt ms i s)
    (he : e + 1 = pos ms (l + 1)) :
    LostAtBoundary (mboxFile ms) s e ↔
      ∃ p, pos ms l + (ms[l]).head.length ≤ p ∧ p ≤ e ∧ (mboxFile ms)[p]? = some nl ∧
        readBoundary s e ≤ p + 10 ∧ ¬ (p = e ∧ e + 6 ≤ readBoundary s e) := by
  have hlast : (fromLines (mboxFile ms) s e).getLast? = some (pos ms l) := by
    rw [fromLines_range hil hl hs he, show l + 1 - i = l - i + 1 by omega,
      List.range'_concat, List.map_append, List.map_singleton, List.getLast?_concat, Nat.one_mul,
      show i + (l - i) = l by omega]
  have hend : headerEnd? ((mboxFile ms).drop (pos ms l)) = some (ms[l]).head.length := by
    rw [drop_pos_of_lt (by omega)]
    exact headerEnd?_append (ms[l]).headerEnd?_bytes _
  constructor
  · rintro ⟨x, b, p, hx, hb, hp⟩
    rw [hlast] at hx
    obtain rfl := Option.some.inj hx
    rw [hend] at hb
    obtain rfl := Option.some.inj hb
    exact ⟨p, hp⟩
  · rintro ⟨p, hp⟩
    exact ⟨_, _, p, hlast, hend, hp⟩

/-! ## Runs -/

section Run

variable {ctx : MboxParserCtx}

/-- The run up to the last message of the range. -/
theorem range_prefix (fill : ℕ → MboxChar) (hil : i ≤ l) (hl : l + 1 < ms.length)
    (hs : StartsAt ms i s) (he : e + 1 = pos ms (l + 1)) (hctx : ctx.Fresh s e) :
    ∃ a ctx' msgs, StartsAt ms l a ∧ a = nextStart ms s i (l - i) ∧
      Ready (mboxFile ms) a e (ReadEnd (mboxFile ms) s e) ctx'.ioctx ∧
      CoverAll (mboxFile ms) (bounds ms s i (l - i)) msgs ∧
      ∀ r, LoopTo (getNextMessageCallbackStep fill (preadRegular (mboxFile ms)))
          (ctx', msgs) r →
        Converges (fun n => mboxParserCtxGetNextMessageCallback fill
          (preadRegular (mboxFile ms)) n ctx) r := by
  have hle := hs.le
  have hpos := pos_lt (show l < l + 1 by omega) hl.le
  have hil' := pos_le hil (show l ≤ ms.length by omega)
  have hend := pos_le_length hl.le
  have hnl := pos_lt (show l + 1 < l + 2 by omega) (show l + 2 ≤ ms.length by omega)
  have hend' := pos_le_length (show l + 2 ≤ ms.length by omega)
  obtain ⟨ctx', msgs, hready, -, hcover, hrest⟩ := deliver_prefix fill
    (show l < ms.length by omega) (show pos ms l + 10 ≤ e by omega)
    (P := ReadEnd (mboxFile ms) s e)
    (fun fo hfo hfoe => hfo.next (by omega) (by omega) hfoe) [] (show i + (l - i) = l by omega)
    hs (hctx.ready (by omega) (readEnd_start (by omega))) hctx.not_done
  refine ⟨_, ctx', msgs, ?_, rfl, hready, hcover, fun r hr => (hrest r hr).converges⟩
  have h := startsAt_nextStart (n := l - i) hs
  rwa [show i + (l - i) = l by omega] at h

/-- Where no read boundary cuts the From line behind it, the last message of the range is delivered,
and so are all of the others. -/
theorem range_delivered (fill : ℕ → MboxChar) (hil : i ≤ l) (hl : l + 1 < ms.length)
    (hs : StartsAt ms i s) (he : e + 1 = pos ms (l + 1)) (hctx : ctx.Fresh s e)
    (hclear : ¬ LostAtBoundary (mboxFile ms) s e) :
    ∃ msgs, Converges (fun n => mboxParserCtxGetNextMessageCallback fill
        (preadRegular (mboxFile ms)) n ctx) msgs ∧
      CoverAll (mboxFile ms) (bounds ms s i (l + 1 - i)) msgs := by
  obtain ⟨a, ctx', msgs, ha, hnext, hready, hcover, hrest⟩ :=
    range_prefix fill hil hl hs he hctx
  obtain ⟨k, hk, hlf, hak⟩ := headers_at (show l < ms.length by omega) ha
  rw [lostAtBoundary_iff hil hl hs he] at hclear
  have hhead := (ms[l]).head_le
  have hbytes := (ms[l]).length_bytes
  have hlen := pos_succ (show l < ms.length by omega)
  have hil' := pos_le hil (show l ≤ ms.length by omega)
  have hse := hs.le
  have hnl := pos_lt (show l + 1 < l + 2 by omega) (show l + 2 ≤ ms.length by omega)
  have hend := pos_le_length (show l + 2 ≤ ms.length by omega)
  have hmin : NoFromBefore (mboxFile ms) (a + k) e := by
    have h := noFromBefore_next (show l < ms.length by omega) (show pos ms l ≤ a + k by omega)
    rwa [← he, Nat.add_sub_cancel] at h
  obtain ⟨msg, ctx'', hcall, hmsg, -, herr⟩ := getNextMessage_found fill
    (nul_notMem_mboxFile ms) hk hlf (q := e) (by omega)
    (nlFrom_iff.mpr ⟨l + 1, by omega, hl, he⟩) (le_refl e) hmin (by omega)
    (fun fo hfo hfoe => hfo.next (by omega) (by omega) hfoe)
    (fun fo hfo hefo p hp hpe hpnl hnear => by
      have hR := hfo.past (by omega) hefo
      by_contra hcon
      exact hclear ⟨p, by omega, hpe, hpnl, by omega, fun h => hcon ⟨h.1, by omega⟩⟩) hready
  rw [if_pos (Nat.le_succ e)] at herr
  refine ⟨msgs ++ [msg], hrest _ (callback_done hcall herr), ?_⟩
  rw [show l + 1 - i = l - i + 1 by omega, bounds_concat, ← hnext,
    show i + (l - i) + 1 = l + 1 by omega, ← he]
  exact List.rel_append hcover (List.Forall₂.cons hmsg List.Forall₂.nil)

/-- The last message of the range is lost, and nothing else. -/
theorem range_lost (fill : ℕ → MboxChar) (hil : i ≤ l) (hl : l + 1 < ms.length)
    (hs : StartsAt ms i s) (he : e + 1 = pos ms (l + 1)) (hctx : ctx.Fresh s e)
    (hlost : LostAtBoundary (mboxFile ms) s e) :
    ∃ msgs, Converges (fun n => mboxParserCtxGetNextMessageCallback fill
        (preadRegular (mboxFile ms)) n ctx) msgs ∧
      CoverAll (mboxFile ms) (bounds ms s i (l - i)) msgs := by
  obtain ⟨a, ctx', msgs, ha, -, hready, hcover, hrest⟩ :=
    range_prefix fill hil hl hs he hctx
  obtain ⟨k, hk, hlf, hak⟩ := headers_at (show l < ms.length by omega) ha
  obtain ⟨p, hp, hpe, hpnl, hnear, hR⟩ := (lostAtBoundary_iff hil hl hs he).mp hlost
  have hil' := pos_le hil (show l ≤ ms.length by omega)
  have hlt := pos_lt (show l < l + 1 by omega) hl.le
  have hse := hs.le
  have hnl := pos_lt (show l + 1 < l + 2 by omega) (show l + 2 ≤ ms.length by omega)
  have hend := pos_le_length (show l + 2 ≤ ms.length by omega)
  have hbound := lt_readBoundary (show s ≤ e by omega)
  have hmin : NoFromBefore (mboxFile ms) (a + k) e := by
    have h := noFromBefore_next (show l < ms.length by omega) (show pos ms l ≤ a + k by omega)
    rwa [← he, Nat.add_sub_cancel] at h
  obtain ⟨ctx'', hcall⟩ := getNextMessage_lost fill (nul_notMem_mboxFile ms) hk hlf hmin
    (by omega) (R := min (mboxFile ms).length (readBoundary s e)) (by omega)
    (fun fo hfo hfoe => hfo.next (by omega) (by omega) hfoe)
    (fun fo hfo hefo => hfo.past (by omega) hefo) hpnl (by omega) hpe (by omega)
    (fun h => hR ⟨h.1, by omega⟩) hready
  exact ⟨msgs, hrest _ (callback_none hcall), hcover⟩

end Run

/-- A context that loses its last message does not deliver all. -/
theorem not_deliversAll {fill : ℕ → MboxChar} {ctx : MboxParserCtx} (hil : i ≤ l)
    (hl : l + 1 < ms.length) (hs : StartsAt ms i s) (he : e + 1 = pos ms (l + 1))
    (hctx : ctx.Fresh s e) (hlost : LostAtBoundary (mboxFile ms) s e) :
    ¬ DeliversAll fill (mboxFile ms) ctx s e := by
  rintro ⟨msgs, hconv, hall⟩
  obtain ⟨msgs', hconv', hcover⟩ := range_lost fill hil hl hs he hctx hlost
  obtain rfl := hconv.unique hconv'
  have h1 := hall.length_eq
  have h2 := hcover.length_eq
  rw [fromLines_range hil hl hs he, List.length_map, List.length_range'] at h1
  rw [length_bounds] at h2
  omega

/-- **A context delivers the messages of its range if and only if** its last message is
not lost where its reads end. -/
theorem context_delivers_iff (fill : ℕ → MboxChar) (ms : List Mail) {s e : ℕ}
    (hs : s = 0 ∨ nlFromWord <+: (mboxFile ms).drop s) (hse : s < e)
    (he : nlFromWord <+: (mboxFile ms).drop e) {ctx : MboxParserCtx} (hctx : ctx.Fresh s e) :
    DeliversAll fill (mboxFile ms) ctx s e ↔ ¬ LostAtBoundary (mboxFile ms) s e := by
  obtain ⟨i, l, hil, hl, hsi, hel⟩ := exists_range hs hse he
  constructor
  · exact fun hall hlost => not_deliversAll hil hl hsi hel hctx hlost hall
  · intro hclear
    obtain ⟨msgs, hconv, hcover⟩ := range_delivered fill hil hl hsi hel hctx hclear
    refine ⟨msgs, hconv, ?_⟩
    rw [fromLines_range hil hl hsi hel]
    exact carries_of_coverAll (by omega) hsi hcover

/-! ## A lost message -/

/-- A context that starts at `s` and ends at `e`. -/
def freshCtx (fill : ℕ → MboxChar) (fileSize s e : ℕ) : MboxParserCtx :=
  let ctx := mboxParserCtxInit fill 0 fileSize
  { ctx with ioctx := { ctx.ioctx with
    offset := s, startOffset := s, endOffset := e, fileOffset := s } }

/-- The context that is made for the range is fresh. -/
theorem freshCtx_fresh (fill : ℕ → MboxChar) (fileSize s e : ℕ) :
    (freshCtx fill fileSize s e).Fresh s e where
  err := rfl
  offset := rfl
  startOffset := rfl
  endOffset := rfl
  fileOffset := rfl
  ioErr := rfl
  buf := mboxIONew_empty fill fileSize

/-- A message whose body is a line of `n` bytes. -/
def xMail (n : ℕ) : Mail :=
  plainMail (List.replicate n 120) (fun h => absurd (List.eq_of_mem_replicate h) (by decide))
    (fun h => absurd (List.eq_of_mem_replicate h) (by decide))

/-- The mails of the examples are as long as their bodies and eleven bytes. -/
theorem length_xMail (n : ℕ) : (xMail n).bytes.length = n + 11 := by
  rw [xMail, length_plainMail, List.length_replicate]

/-- The equivalence for a file with two short messages and the range of the first one. -/
theorem context_delivers_iff_twoMails :
    DeliversAll (fun _ => nul) (mboxFile [xMail 0, xMail 0]) (freshCtx (fun _ => nul) 22 0 10)
        0 10 ↔
      ¬ LostAtBoundary (mboxFile [xMail 0, xMail 0]) 0 10 :=
  context_delivers_iff _ _ (Or.inl rfl) (by decide) (by decide) (freshCtx_fresh _ _ _ _)

/-- A message as long as a read, and a short one. -/
def boundaryMails : List Mail := [xMail 299989, xMail 0]

/-- The first read ends right in front of the second From line: the context that ends
there delivers nothing. -/
theorem boundaryMails_lost :
    nlFromWord <+: (mboxFile boundaryMails).drop 299999 ∧
      (freshCtx (fun _ => nul) 300011 0 299999).Fresh 0 299999 ∧
      ¬ DeliversAll (fun _ => nul) (mboxFile boundaryMails)
        (freshCtx (fun _ => nul) 300011 0 299999) 0 299999 := by
  have hlt : 0 + 1 < boundaryMails.length := Nat.lt_succ_self 1
  have hhead : (xMail 299989).head.length < (xMail 299989).bytes.length := Mail.head_le _
  rw [length_xMail] at hhead
  have hpos : 299999 + 1 = pos boundaryMails (0 + 1) := by
    rw [boundaryMails, pos_cons_succ, length_xMail, pos_zero]
  have hnl := nl_before_pos (Nat.lt_of_succ_lt hlt)
  rw [← hpos, Nat.add_sub_cancel] at hnl
  have hbound : readBoundary 0 299999 = 300000 := by
    rw [readBoundary, mboxIOReadSize]
  have hstart : StartsAt boundaryMails 0 0 := Or.inl rfl
  refine ⟨nlFrom_iff.mpr ⟨1, Nat.one_pos, hlt, hpos⟩, freshCtx_fresh _ _ _ _,
    not_deliversAll (le_refl 0) hlt hstart hpos (freshCtx_fresh _ _ _ _) ?_⟩
  rw [lostAtBoundary_iff (le_refl 0) hlt hstart hpos, hbound]
  refine ⟨299999, ?_, le_refl _, hnl, by omega, by omega⟩
  rw [pos_zero, Nat.zero_add]
  exact Nat.le_of_lt_succ hhead

end Libmbox2
