import Libmbox2.HeaderLines
import Libmbox2.LongerBlock

/-!
# Where the header parser stays in its buffer

Only the outermost loop of the parser looks at the length of the message. The loops inside it
each wait for a byte, and go on behind the terminator where it does not come. So the parser stays
in the buffer exactly on what the grammar of the headers describes (`parsesInside_iff`): every
header has a `:` and a byte behind it, every line of a value has a newline, and there is a header
behind every From line.

That no byte behind the terminator is read is said with a block that ends there: on it, such a
read is a fault.
-/

namespace Libmbox2

open CSem CSem.Exec

/-- The same buffer, in a block that ends behind the terminator. -/
def MboxBuf.cut (buf : MboxBuf) : MboxBuf := { buf with data := buf.data.take (buf.len + 1) }

/-- The parser returns at an offset that is in the buffer, and what it does there does not take
the bytes behind the terminator. -/
def ParsesInside (fill : ℕ → MboxChar) (h : HeaderHeap) (buf : MboxBuf) : Prop :=
  ∃ h' t' o, o ≤ buf.len ∧
    Converges (mboxParseEmailHeaders fill buf h) (h', t', mboxBufSetOffset buf o) ∧
    Converges (mboxParseEmailHeaders fill buf.cut h) (h', t', mboxBufSetOffset buf.cut o)

/-! ## A block that goes on -/

section Longer

variable {fill : ℕ → MboxChar} {buf buf' : MboxBuf}

/-- The same buffer, in a block that may go on. -/
structure MboxBuf.Longer (buf buf' : MboxBuf) : Prop where
  data : buf.data <+: buf'.data
  len : buf'.len = buf.len
  offset : buf'.offset = buf.offset

theorem MboxBuf.cut_longer (buf : MboxBuf) : buf.cut.Longer buf :=
  ⟨List.take_prefix .., rfl, rfl⟩

/-- Reading up to a byte gives the same in a longer block. -/
theorem putUntil_gives {d d' : List MboxChar} (h : d <+: d') (stop : MboxChar)
    (skip : MboxChar → Bool) (out : MboxBuf) :
    Gives (putUntil fill stop skip d out) (putUntil fill stop skip d' out) := by
  obtain ⟨e, rfl⟩ := h
  induction d generalizing out with
  | nil => nofun
  | cons ch d ih =>
    rw [List.cons_append, putUntil, putUntil]
    refine (Gives.refl _).ite ((Gives.refl _).bind fun out₁ => (ih out₁).bind fun r => ?_)
    exact Gives.refl _

variable (hlong : buf.Longer buf')

include hlong

/-- So does reading a From line. -/
theorem parseFromLine_gives (n : ℕ) (ctx : HeaderCtx) :
    Gives (parseFromLine fill buf n ctx) (parseFromLine fill buf' n ctx) := by
  refine (matchAt_gives (hlong.data.drop _) _).bind fun isFrom => (Gives.refl _).ite ?_
  exact (putUntil_gives (hlong.data.drop _) _ _ _).bind fun r => Gives.refl _

/-- So does a line of a value. -/
theorem parseHeaderValueStep_gives (ctx : HeaderCtx) :
    Gives (parseHeaderValueStep fill buf ctx) (parseHeaderValueStep fill buf' ctx) := by
  refine (putUntil_gives (hlong.data.drop _) _ _ _).bind fun r => ?_
  have hmatch : ∀ o ch, Gives (mboxBufMatchChar buf.data o ch) (mboxBufMatchChar buf'.data o ch) :=
    fun o ch => (load_gives hlong.data o).bind fun c => Gives.refl _
  refine (hmatch _ _).bind fun b => (Gives.refl _).ite ((hmatch _ _).bind fun b' => ?_)
  exact Gives.refl _

/-- So does the test for the end of the headers. -/
theorem endHeaders_gives (ctx : HeaderCtx) :
    Gives (endHeaders buf ctx) (endHeaders buf' ctx) := by
  have hlen := hlong.len
  refine Gives.bind ?_ fun ch => Gives.ite (Gives.bind ?_ fun o => Gives.refl _) (Gives.refl _)
  · rw [mboxBufGetChar, mboxBufGetChar, hlen]
    exact (Gives.refl _).ite (load_gives hlong.data _)
  · rw [hlen]
    exact scanWithin_gives hlong.data _ _ _

/-- So does an iteration, in a longer block with the same length field. -/
theorem parseEmailHeadersStep_gives (n : ℕ) (ctx : HeaderCtx) :
    Gives (parseEmailHeadersStep fill buf n ctx) (parseEmailHeadersStep fill buf' n ctx) := by
  rw [parseEmailHeadersStep, parseEmailHeadersStep, hlong.len]
  refine (Gives.refl _).ite ((parseFromLine_gives hlong n ctx).bind fun ctx => ?_)
  refine ((putUntil_gives (hlong.data.drop _) _ _ _).bind fun r => Gives.refl _).bind fun ctx => ?_
  refine (Gives.loop (parseHeaderValueStep_gives hlong) n ctx).bind fun ctx => ?_
  exact (Gives.refl _).bind fun ctx => endHeaders_gives hlong ctx

/-- What the parser does on a block it does on one that goes on. -/
theorem mboxParseEmailHeaders_longer {h h' : HeaderHeap} {t' : MboxRBTree} {o : ℕ}
    (hconv : Converges (mboxParseEmailHeaders fill buf h) (h', t', mboxBufSetOffset buf o)) :
    Converges (mboxParseEmailHeaders fill buf' h) (h', t', mboxBufSetOffset buf' o) := by
  obtain ⟨N, hN⟩ := hconv
  refine ⟨N, fun n hn => ?_⟩
  obtain ⟨⟨h₀, t₀⟩, hnew, hrun⟩ := bind_eq_ok (hN n hn)
  obtain ⟨k, hscan, hrun⟩ := bind_eq_ok hrun
  obtain ⟨ctx, hloop, hrun⟩ := bind_eq_ok hrun
  have hscan' := scanUntil_gives (hlong.data.drop buf.offset) _ hscan
  have hloop' := Gives.loop (parseEmailHeadersStep_gives hlong n) n _ hloop
  rw [← hlong.offset] at hscan' hloop'
  simp only [pure_eq, ok.injEq, Prod.mk.injEq] at hrun
  obtain ⟨rfl, rfl, ho⟩ := hrun
  obtain rfl : ctx.offset = o := congrArg MboxBuf.offset ho
  simp only [mboxParseEmailHeaders, hnew, hscan', hloop', ok_bind, pure_eq]

end Longer

/-! ## What a run says about the bytes it read -/

section Back

variable {fill : ℕ → MboxChar} {snt : RbNode MboxBuf MboxBuf} {buf : MboxBuf}
  {blank pre r : List MboxChar} {es : List (List MboxChar × List MboxChar)}
  {ctx ctx' : HeaderCtx} {x : HeaderCtx ⊕ HeaderCtx} {n : ℕ}

/-- A byte that is waited for and found before the NUL is there. -/
theorem putUntil_mem {stop : MboxChar} {skip : MboxChar → Bool} {out : MboxBuf}
    {y : ℕ × MboxBuf} (hstop : stop ≠ nul)
    (hrun : putUntil fill stop skip (r ++ [nul]) out = ok y) : stop ∈ r := by
  induction r generalizing out y with
  | nil =>
    rw [List.nil_append, putUntil, if_neg (Ne.symm hstop)] at hrun
    obtain ⟨out₁, -, hrun⟩ := bind_eq_ok hrun
    cases hrun
  | cons c r ih =>
    rw [List.cons_append, putUntil] at hrun
    split at hrun
    · rename_i hc
      exact hc ▸ List.mem_cons_self ..
    · obtain ⟨out₁, -, hrun⟩ := bind_eq_ok hrun
      obtain ⟨z, hz, -⟩ := bind_eq_ok hrun
      exact List.mem_cons_of_mem _ (ih hz)

/-- A value that was read within the text has the shape of one. -/
theorem valueLines_of_loop (hs : ctx.value.Sound) (hat : buf.LeftAt [nul] ctx.offset r)
    (hrun : loop (parseHeaderValueStep fill buf) n ctx = ok ctx') :
    ∃ value rest, ValueLines r value rest := by
  induction n generalizing ctx r with
  | zero => cases hrun
  | succ n ih =>
    rw [loop_succ] at hrun
    obtain ⟨x, hstep, hrun⟩ := bind_eq_ok hrun
    obtain ⟨y, hput, -⟩ := bind_eq_ok hstep
    rw [hat.data] at hput
    obtain ⟨text, rest, rfl, htext⟩ :=
      List.eq_append_cons_of_mem (putUntil_mem (by decide) hput)
    obtain ⟨value, hc, hleft, hstep'⟩ :=
      parseHeaderValueStep_spec fill hs htext hat (Ended.nul ..)
    rw [hstep'] at hstep
    cases hblank : beginsBlank rest with
    | false => exact ⟨_, _, ValueLines.last htext hblank⟩
    | true =>
      rw [hblank, if_pos rfl] at hstep
      cases hstep
      obtain ⟨value', rest', hlines⟩ := ih hc.sound hleft hrun
      exact ⟨_, _, ValueLines.more htext hblank hlines⟩

/-- So has a header. -/
theorem namedLines_of_parse (hctx : ctx.Holds snt blank pre es)
    (hat : buf.LeftAt [nul] ctx.offset r) (hrun : parseHeader fill buf n ctx = ok x) :
    ∃ e rest, NamedLines blank pre r e rest := by
  obtain ⟨ctx₁, hname, hrun⟩ := bind_eq_ok hrun
  obtain ⟨y, hput, -⟩ := bind_eq_ok hname
  rw [hat.data] at hput
  obtain ⟨name, rest, rfl, hcolon⟩ :=
    List.eq_append_cons_of_mem (putUntil_mem (by decide) hput)
  have hdata := hat.data
  rw [List.append_assoc, List.cons_append] at hdata
  obtain ⟨key, hname', hkey, hbytes⟩ := parseHeaderName_spec fill hctx.key hcolon hdata
  rw [hname'] at hname
  cases hname
  obtain ⟨ctx₂, hloop, hrun⟩ := bind_eq_ok hrun
  cases rest with
  | nil =>
    -- behind the `:` there is the terminator, and the value would start behind that
    have hend : buf.data.drop (ctx.offset + name.length + 2) = [] :=
      drop_of_append (show buf.data.drop (ctx.offset + name.length + 1) = [nul] ++ [] from
        hat.pass.pass_one.data)
    cases n with
    | zero => cases hloop
    | succ n =>
      rw [loop_succ] at hloop
      obtain ⟨z, hstep, -⟩ := bind_eq_ok hloop
      obtain ⟨y, hput, -⟩ := bind_eq_ok hstep
      rw [hend] at hput
      cases hput
  | cons c text =>
    have hat₁ : buf.LeftAt [nul] (ctx.offset + name.length + 2) text := hat.pass.pass_one.pass_one
    obtain ⟨value, rest, hlines⟩ := valueLines_of_loop (by exact hctx.value.sound)
      (by exact hat₁) hloop
    obtain ⟨m, o, out, hloop', hc, -⟩ := hlines.parse fill
      { ctx with offset := ctx.offset + name.length + 2, key } hctx.value.sound hat₁
      (Ended.nul ..)
    obtain rfl := (Converges.loop hloop').unique (Converges.loop hloop)
    obtain ⟨ctx₃, hstore, -⟩ := bind_eq_ok hrun
    obtain ⟨dupe, -, hstore⟩ := bind_eq_ok hstore
    obtain ⟨stored, hstored, -⟩ := bind_eq_ok hstore
    exact ⟨_, rest, NamedLines.mk hcolon hlines (decodes_of_headerValue hctx.value hc hstored)⟩

/-- So has what an iteration has read. -/
theorem headerLines_of_step (hctx : ctx.Holds snt blank [] es)
    (hat : buf.LeftAt [nul] ctx.offset r) (hne : r ≠ [])
    (hrun : parseEmailHeadersStep fill buf n ctx = ok x) :
    ∃ es' rest, HeaderLines blank r es' rest := by
  have hlt : ctx.offset < buf.len := by
    have hlen := hat.len
    have hpos := List.length_pos_iff.2 hne
    omega
  rw [parseEmailHeadersStep, if_neg (not_not.2 hlt)] at hrun
  obtain ⟨ctx₁, hfromLine, hrun⟩ := bind_eq_ok hrun
  by_cases hfrom : fromWord <+: r
  · have hput := hfromLine
    rw [parseFromLine, mboxBufMatchFromLine_eq hat (Or.inl rfl), decide_eq_true hfrom,
      ok_bind, if_neg (by decide)] at hput
    obtain ⟨y, hput, -⟩ := bind_eq_ok hput
    rw [hat.data] at hput
    obtain ⟨line, rest, rfl, hline⟩ :=
      List.eq_append_cons_of_mem (putUntil_mem (by decide) hput)
    have hword : fromWord <+: line := (prefix_terminated_iff (by decide)).1 hfrom
    obtain ⟨ctx₂, hconv, hat₁, hctx₁⟩ := parseFromLine_spec fill hctx hline hword hat
    obtain rfl := ((parseFromLine_mono buf ctx).converges hfromLine).unique hconv
    obtain ⟨e, rest', hnamed⟩ := namedLines_of_parse hctx₁ hat₁ hrun
    exact ⟨_, rest', HeaderLines.fromLine hline hword hnamed⟩
  · rw [parseFromLine_named fill hat (Or.inl rfl) hfrom] at hfromLine
    cases hfromLine
    obtain ⟨e, rest, hnamed⟩ := namedLines_of_parse hctx hat hrun
    exact ⟨_, rest, HeaderLines.named hfrom hnamed⟩

/-- **So have all headers**: what is read without leaving the text is a block of headers. -/
theorem headerBlock_of_loop {k : ℕ} (hctx : ctx.Holds snt blank [] es)
    (hat : buf.LeftAt [nul] ctx.offset r)
    (hrun : loop (parseEmailHeadersStep fill buf n) k ctx = ok ctx') :
    ∃ es' rest, HeaderBlock blank r es' rest := by
  induction k generalizing ctx blank r es with
  | zero => cases hrun
  | succ k ih =>
    by_cases hne : r = []
    · subst hne
      exact ⟨[], [], HeaderBlock.nil⟩
    · rw [loop_succ] at hrun
      obtain ⟨x, hstep, hrun⟩ := bind_eq_ok hrun
      obtain ⟨es₁, rest, hlines⟩ := headerLines_of_step hctx hat hne hstep
      obtain ⟨y, hconv, hbehind⟩ := hlines.parse fill hctx hat (Ended.nul ..)
      obtain rfl := ((parseEmailHeadersStep_mono buf ctx).converges hstep).unique hconv
      cases x with
      | inl ctx₁ =>
        obtain ⟨es₂, rest₂, hblock⟩ := ih hbehind.2.1 hbehind.2.2 hrun
        exact ⟨_, _, HeaderBlock.more hlines hbehind.1 hblock⟩
      | inr ctx₁ => exact ⟨_, _, HeaderBlock.last hlines hbehind.1⟩

/-- **What the parser returns on is described by the grammar**: where it comes back from a text that
ends with a NUL, the text begins with a block of headers. -/
theorem headerBlock_of_parse {h : HeaderHeap} {y : HeaderHeap × MboxRBTree × MboxBuf}
    (hsnt : h.get rbSentinal = some snt) (hat : buf.LeftAt [nul] buf.offset r)
    (hrun : mboxParseEmailHeaders fill buf h n = ok y) :
    ∃ es rest, HeaderBlock (mboxBufAlloc fill 3000).data (r.dropWhile isLine) es rest := by
  obtain ⟨snt', h₀, t₀, hnew, htree⟩ := treeHolds_new hsnt
  obtain ⟨k, hscan, hat₀⟩ := hat.scanUntil_lines (Ended.nul ..)
  simp only [mboxParseEmailHeaders, hnew, hscan, ok_bind] at hrun
  obtain ⟨ctx, hloop, -⟩ := bind_eq_ok hrun
  have hctx : HeaderCtx.Holds snt' (mboxBufAlloc fill 3000).data [] []
      ⟨buf.offset + k, mboxBufAlloc fill 3000, mboxBufAlloc fill 3000, h₀, t₀⟩ :=
    ⟨mboxBufAlloc_sound fill 3000, List.take_zero, MboxBuf.blank_alloc fill 3000, htree⟩
  exact headerBlock_of_loop hctx hat₀ hloop

end Back

/-! ## The buffer -/

section Inside

variable {buf : MboxBuf}

theorem MboxBuf.cut_data (hnul : buf.data[buf.len]? = some nul) :
    buf.cut.data = buf.bytes ++ [nul] := by
  rw [cut, List.take_add_one, hnul]
  rfl

/-- What is left to read in a cut buffer is what its contents have behind the offset. -/
theorem MboxBuf.leftAt_cut (buf : MboxBuf) (hnul : buf.data[buf.len]? = some nul)
    (ho : buf.offset ≤ buf.len) :
    buf.cut.LeftAt [nul] buf.cut.offset (buf.bytes.drop buf.offset) := by
  have hlen : buf.bytes.length = buf.len :=
    List.length_take_of_le (List.getElem?_eq_some_iff.1 hnul).1.le
  constructor
  · rw [cut_data hnul]
    exact List.drop_append_of_le_length (hlen.symm ▸ ho)
  · rw [List.length_drop, hlen]
    exact Nat.add_sub_cancel' ho

/-- The parser starts in the buffer: there is something to read. -/
theorem offset_le_of_parse {fill : ℕ → MboxChar} {h : HeaderHeap} {n : ℕ}
    {y : HeaderHeap × MboxRBTree × MboxBuf}
    (hrun : mboxParseEmailHeaders fill buf.cut h n = ok y) : buf.offset ≤ buf.len := by
  obtain ⟨ht, -, hrun⟩ := bind_eq_ok hrun
  obtain ⟨k, hscan, -⟩ := bind_eq_ok hrun
  by_contra hlt
  have hend : buf.cut.data.drop buf.cut.offset = [] :=
    List.drop_eq_nil_of_le ((List.length_take_le ..).trans (Nat.lt_of_not_le hlt))
  rw [hend] at hscan
  cases hscan

/-- The parser stays in the buffer exactly where it starts in it and what is left from there, but
for the line endings in front, is a block of headers. -/
theorem parsesInside_iff (fill : ℕ → MboxChar) (h : HeaderHeap) {snt : RbNode MboxBuf MboxBuf}
    (hsnt : h.get rbSentinal = some snt) (buf : MboxBuf) (hnul : buf.data[buf.len]? = some nul) :
    ParsesInside fill h buf ↔
      buf.offset ≤ buf.len ∧ ∃ es rest, HeaderBlock (mboxBufAlloc fill 3000).data
        ((buf.bytes.drop buf.offset).dropWhile isLine) es rest := by
  constructor
  · rintro ⟨h', t', o, ho, -, hcut⟩
    obtain ⟨n, hrun⟩ := hcut.exists_ok
    have hle := offset_le_of_parse hrun
    exact ⟨hle, headerBlock_of_parse hsnt (buf.leftAt_cut hnul hle) hrun⟩
  · rintro ⟨hle, es, rest, hblock⟩
    obtain ⟨snt', h', t', o, hconv, -, hleft⟩ :=
      hblock.parse fill hsnt (buf.leftAt_cut hnul hle) (Ended.nul ..)
    have hlen := hleft.len
    refine ⟨h', t', o, ?_, mboxParseEmailHeaders_longer buf.cut_longer hconv, hconv⟩
    exact (Nat.le_add_right _ _).trans hlen.le

/-- A buffer with a single header is parsed within its bytes. -/
theorem parsesInside_iff_header :
    ParsesInside (fun _ => nul) headerHeapNew ⟨str "A: b\n" ++ [nul], 0, 5, 6⟩ := by
  refine (parsesInside_iff (fun _ => nul) headerHeapNew rfl
    ⟨str "A: b\n" ++ [nul], 0, 5, 6⟩ rfl).2 ⟨Nat.zero_le _, [(str "A", str "b")], [], ?_⟩
  have hvalue : ValueLines (str "b" ++ nl :: []) (unfolded (str "b")) [] :=
    ValueLines.last (by decide) rfl
  have hname : NamedLines (mboxBufAlloc (fun _ => nul) 3000).data []
      (str "A" ++ colon :: space :: (str "b" ++ nl :: [])) (str "A", str "b") [] :=
    NamedLines.mk (by decide) hvalue ⟨by decide, by decide⟩
  exact HeaderBlock.more (HeaderLines.named (by decide) hname) rfl HeaderBlock.nil

/-- A From line with nothing behind it: a `:` is looked for behind the terminator. -/
theorem not_parsesInside_fromLine :
    ¬ ParsesInside (fun _ => nul) headerHeapNew ⟨str "From a\n" ++ [nul], 0, 7, 8⟩ := by
  rintro ⟨h', t', o, -, -, hcut⟩
  obtain ⟨n, hrun⟩ := hcut.exists_ok
  obtain ⟨es, rest, hblock⟩ := headerBlock_of_parse rfl
    (MboxBuf.leftAt_cut ⟨str "From a\n" ++ [nul], 0, 7, 8⟩ rfl (Nat.zero_le _)) hrun
  exact absurd (hblock.colon_mem (by decide)) (by decide)

end Inside

end Libmbox2
