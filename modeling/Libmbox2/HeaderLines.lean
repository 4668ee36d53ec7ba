import Libmbox2.HeaderKey
import Libmbox2.MsgLite

/-!
# What the header parser reads

The bytes in front of the terminator of a message are what the parser has to go by. They are
described by a grammar (`HeaderBlock`): a header is a name up to its `:`, a byte that is not
looked at, and the lines of a value; a line that begins with `From ` may come before the name,
and is then in front of it; an empty line ends the headers, and so does the end of the message.
The grammar also says what is stored, and what is left behind the headers.

On whatever the grammar describes the parser returns, with the first of the entries of each name
in its tree (`HeaderBlock.parse`). Every part of the parser has a lemma that says what it does
with the bytes that are left (`MboxBuf.LeftAt`).
-/

namespace Libmbox2

open CSem CSem.Exec

/-! ## The grammar -/

/-- `"=?utf-8?Q?"`, with which an encoded word begins. -/
def mimePrefix : List MboxChar := str "=?utf-8?Q?"

/-- `"?="`, with which it ends. -/
def mimeSuffix : List MboxChar := str "?="

/-- What `mboxBufIsMimeEncoded` accepts: a value with the prefix in front and the suffix at its end,
which may overlap. -/
def MimeEncoded (value : List MboxChar) : Prop := mimePrefix <+: value ∧ mimeSuffix <:+ value

instance : DecidablePred MimeEncoded := fun _ => inferInstanceAs (Decidable (_ ∧ _))

/-- What is stored of a value that the parser gets over: its bytes, and nothing of an encoded word,
as there is nothing between its two ends. -/
def storedValue (value : List MboxChar) : List MboxChar := if MimeEncoded value then [] else value

/-- What is kept of the line of a value: all but the carriage returns and tabs. -/
def unfolded (line : List MboxChar) : List MboxChar :=
  line.filter fun ch => !(ch == cr || ch == tab)

/-- The next line goes on with the value, as it begins with a space or a tab. -/
def beginsBlank (r : List MboxChar) : Bool := r.head?.any fun ch => ch == space || ch == tab

/-- The headers end, as the next line is empty. -/
def beginsLine (r : List MboxChar) : Bool := r.head?.any isLine

/-- The lines of a value, the value they make, and what is behind them. -/
inductive ValueLines : List MboxChar → List MboxChar → List MboxChar → Prop
  | last {text rest} : nl ∉ text → beginsBlank rest = false →
      ValueLines (text ++ nl :: rest) (unfolded text) rest
  | more {text r value rest} : nl ∉ text → beginsBlank r = true → ValueLines r value rest →
      ValueLines (text ++ nl :: r) (unfolded text ++ value) rest

/-- A value that the parser gets over. An encoded one has ten bytes in front of what is encoded
and two behind it, and there must be nothing in between. An empty one is looked for in what was
in its buffer before. -/
structure Decodes (blank value : List MboxChar) : Prop where
  encoded : MimeEncoded value → value.length = 12
  empty : value = [] → ¬ mimePrefix <+: blank

/-- A header from its name on, when `pre` is in front of the name. -/
inductive NamedLines (blank pre : List MboxChar) :
    List MboxChar → List MboxChar × List MboxChar → List MboxChar → Prop
  | mk {name c text value rest} : colon ∉ name → ValueLines text value rest →
      Decodes blank value →
      NamedLines blank pre (name ++ colon :: c :: text) (pre ++ name, storedValue value) rest

/-- A header, what is stored of it, and what is behind it. -/
inductive HeaderLines (blank : List MboxChar) :
    List MboxChar → List (List MboxChar × List MboxChar) → List MboxChar → Prop
  | named {r e rest} : ¬ fromWord <+: r → NamedLines blank [] r e rest →
      HeaderLines blank r [e] rest
  | fromLine {line r e rest} : nl ∉ line → fromWord <+: line →
      NamedLines blank (line.filter (· ≠ cr)) r e rest →
      HeaderLines blank (line ++ nl :: r)
        [(str "__FROM_LINE__", line.filter (· ≠ cr)), e] rest

/-- The headers of a message. What is `blank` is what the buffer for the values has in it before
the first one. -/
inductive HeaderBlock : List MboxChar → List MboxChar → List (List MboxChar × List MboxChar) →
    List MboxChar → Prop
  | nil {blank} : HeaderBlock blank [] [] []
  | last {blank r es rest} : HeaderLines blank r es rest → beginsLine rest = true →
      HeaderBlock blank r es (rest.dropWhile isLine)
  | more {blank r es r' es' rest} : HeaderLines blank r es r' → beginsLine r' = false →
      HeaderBlock [] r' es' rest → HeaderBlock blank r (es ++ es') rest

section Grammar

variable {blank pre r rest : List MboxChar} {e : List MboxChar × List MboxChar}
  {es : List (List MboxChar × List MboxChar)}

theorem NamedLines.colon_mem (h : NamedLines blank pre r e rest) : colon ∈ r := by
  cases h
  simp

theorem HeaderLines.colon_mem (h : HeaderLines blank r es rest) : colon ∈ r := by
  cases h with
  | named _ hn => exact hn.colon_mem
  | fromLine _ _ hn => exact List.mem_append_right _ (List.mem_cons_of_mem _ hn.colon_mem)

/-- Where there is anything, there is a `:` in it. -/
theorem HeaderBlock.colon_mem (h : HeaderBlock blank r es rest) (hne : r ≠ []) : colon ∈ r := by
  cases h with
  | nil => exact absurd rfl hne
  | last hh => exact hh.colon_mem
  | more hh => exact hh.colon_mem

/-- What is left behind the headers was there in front of them. -/
theorem HeaderBlock.ne_nil (h : HeaderBlock blank r es rest) (hne : rest ≠ []) : r ≠ [] := by
  cases h with
  | nil => exact hne
  | last hh => exact List.ne_nil_of_mem hh.colon_mem
  | more hh => exact List.ne_nil_of_mem hh.colon_mem

end Grammar

/-! ## The bytes that are left -/

/-- From the offset on, what is left of the contents is `r`, and `tail` is behind them. -/
structure MboxBuf.LeftAt (buf : MboxBuf) (tail : List MboxChar) (o : ℕ) (r : List MboxChar) :
    Prop where
  data : buf.data.drop o = r ++ tail
  len : o + r.length = buf.len

/-- When `r` is left, what is behind the contents is a terminator, or is not come to. -/
def Ended (tail r : List MboxChar) : Prop := tail.head? = some nul ∨ r ≠ []

theorem Ended.nul (tail r : List MboxChar) : Ended (Libmbox2.nul :: tail) r := Or.inl rfl

/-- Where what is left after some bytes has an end, the whole has one. -/
theorem Ended.of_dropWhile {tail r : List MboxChar} {p : MboxChar → Bool}
    (h : Ended tail (r.dropWhile p)) : Ended tail r := by
  refine h.imp_right fun hne => ?_
  rintro rfl
  exact hne rfl

namespace MboxBuf.LeftAt

variable {buf : MboxBuf} {tail r xs : List MboxChar} {o : ℕ} {c : MboxChar}

/-- Bytes that were read are passed. -/
theorem pass (h : buf.LeftAt tail o (xs ++ r)) : buf.LeftAt tail (o + xs.length) r where
  data := drop_of_append (by rw [h.data, List.append_assoc])
  len := by
    have hlen := h.len
    rw [List.length_append] at hlen
    omega

/-- So is a single byte. -/
theorem pass_one (h : buf.LeftAt tail o (c :: r)) : buf.LeftAt tail (o + 1) r :=
  pass (show buf.LeftAt tail o ([c] ++ r) from h)

/-- There is a next byte, the NUL behind the text if nothing is left. -/
theorem exists_next (h : buf.LeftAt tail o r) (hend : Ended tail r) :
    ∃ next, buf.data.drop o = r.head?.getD nul :: next := by
  have hdata := h.data
  rcases r with _ | ⟨x, r⟩
  · rcases hend with hnul | hne
    · obtain ⟨next, rfl⟩ := List.head?_eq_some_iff.1 hnul
      exact ⟨next, hdata⟩
    · exact absurd rfl hne
  · exact ⟨r ++ tail, hdata⟩

/-- The lines without anything in front of a header are passed. -/
theorem scanUntil_lines (h : buf.LeftAt tail o r) (hend : Ended tail (r.dropWhile isLine)) :
    ∃ k, scanUntil (fun ch => !isLine ch) (buf.data.drop o) = ok k ∧
      buf.LeftAt tail (o + k) (r.dropWhile isLine) := by
  induction r generalizing o with
  | nil =>
    obtain ⟨next, hnext⟩ := h.exists_next hend
    exact ⟨0, by rw [hnext, scanUntil]; rfl, h⟩
  | cons c r ih =>
    rw [h.data, List.cons_append, scanUntil]
    by_cases hc : isLine c = true
    · rw [List.dropWhile_cons_of_pos hc] at hend ⊢
      obtain ⟨k, hk, hleft⟩ := ih h.pass_one hend
      rw [h.pass_one.data] at hk
      refine ⟨k + 1, ?_, ?_⟩
      · simp only [hc, Bool.not_true, Bool.false_eq_true, if_false, hk, ok_bind, pure_eq]
      · rw [Nat.add_comm k, ← Nat.add_assoc]
        exact hleft
    · refine ⟨0, if_pos (by simp [hc]), ?_⟩
      rw [List.dropWhile_cons_of_neg hc]
      exact h

/-- Line endings are passed over, so the loops behind the headers stop at the first byte that is
none. -/
theorem scanWithin_lines (h : buf.LeftAt tail o r) (hend : Ended tail (r.dropWhile isLine)) :
    ∃ o', scanWithin (fun ch => !isLine ch) buf.data (buf.len + 1) o = ok o' ∧
      buf.LeftAt tail o' (r.dropWhile isLine) := by
  induction r generalizing o with
  | nil =>
    have hlt : o < buf.len + 1 := Nat.lt_succ_of_le h.len.le
    obtain ⟨next, hnext⟩ := h.exists_next hend
    refine ⟨o, ?_, h⟩
    rw [scanWithin, if_pos hlt, load_of_drop hnext, ok_bind]
    rfl
  | cons c r ih =>
    have hlen := h.len
    rw [List.length_cons] at hlen
    have hlt : o < buf.len + 1 := by omega
    rw [scanWithin, if_pos hlt, load_of_drop h.data, ok_bind]
    by_cases hc : isLine c = true
    · rw [List.dropWhile_cons_of_pos hc] at hend ⊢
      rw [if_neg (by simp [hc])]
      exact ih h.pass_one hend
    · rw [if_pos (by simp [hc]), List.dropWhile_cons_of_neg hc]
      exact ⟨o, rfl, h⟩

end MboxBuf.LeftAt

/-! ## The tree -/

section Tree

variable {snt : RbNode MboxBuf MboxBuf} {h : HeaderHeap} {t : MboxRBTree}
  {es : List (List MboxChar × List MboxChar)}

/-- The entries of a tree, by the contents of their buffers. -/
def contentsOf (T : RBTree (RbEntry MboxBuf MboxBuf)) :
    List (List MboxChar × Option (List MboxChar)) :=
  (entriesOf T).map fun e => (e.1.bytes, e.2.map MboxBuf.bytes)

/-- The tree has the entries that were put into it, but for those whose name was there. The
buffers of its values are terminated. -/
def TreeHolds (snt : RbNode MboxBuf MboxBuf) (h : HeaderHeap) (t : MboxRBTree)
    (es : List (List MboxChar × List MboxChar)) : Prop :=
  ∃ T, IsRbTree mboxBufCaseCmp snt h t T ∧
    (contentsOf T).Perm (firstWrites caseCmp (es.map fun e => (e.1, some e.2))) ∧
    ∀ e ∈ entriesOf T, ∀ value ∈ e.2, value.Holds value.bytes

/-- An insertion adds a header to those the dictionary holds. -/
theorem TreeHolds.insert (ht : TreeHolds snt h t es) (key : MboxBuf) {value : MboxBuf}
    {text : List MboxChar} (hvalue : value.Holds text) :
    ∃ h' t', Converges (fun n => mboxRBTreeInsert mboxBufCaseCmp h t n key (some value))
        (h', t') ∧
      TreeHolds snt h' t' (es ++ [(key.bytes, text)]) := by
  obtain ⟨T, hT, hperm, hterminated⟩ := ht
  obtain ⟨h', t', T', hrun, hT', hperm'⟩ :=
    mboxRBTreeInsert_spec isComparator_mboxBufCaseCmp hT key (some value)
  refine ⟨h', t', hrun, T', hT', ?_, fun e he => ?_⟩
  · rw [List.map_append, List.map_singleton, firstWrites_concat, ← hvalue.bytes_eq]
    refine List.Perm.trans ?_ (firstWrite_perm hperm _)
    have hmap := hperm'.map fun e : MboxBuf × Option MboxBuf => (e.1.bytes, e.2.map MboxBuf.bytes)
    rwa [map_firstWrite caseCmp _ fun x y => (mboxBufCaseCmp_eq x.1 y.1).symm] at hmap
  · have hmem := hperm'.mem_iff.1 he
    rw [firstWrite] at hmem
    split at hmem
    · exact hterminated e hmem
    · rcases List.mem_append.1 hmem with hmem | hmem
      · exact hterminated e hmem
      · rw [List.mem_singleton.1 hmem]
        rintro _ ⟨⟩
        rw [hvalue.bytes_eq]
        exact hvalue

theorem treeHolds_new (hsnt : h.get rbSentinal = some snt) :
    ∃ snt' h' t', rbTreeNew h = ok (h', t') ∧ TreeHolds snt' h' t' [] := by
  obtain ⟨h₀, snt', hnew, ht⟩ := rbTreeNew_spec mboxBufCaseCmp hsnt
  exact ⟨snt', h₀, _, hnew, RBTree.nil, ht, List.Perm.refl _, fun e he => nomatch he⟩

end Tree

/-! ## Values -/

section Value

variable {fill : ℕ → MboxChar} {blank value text r rest tail : List MboxChar}
  {out out₀ buf : MboxBuf} {ctx : HeaderCtx}

/-- Before the first value is collected, something may be left in its buffer. -/
structure MboxBuf.Blank (blank : List MboxChar) (out : MboxBuf) : Prop where
  sound : out.Sound
  bytes : out.bytes = []
  data : matchAt mimePrefix out.data = ok (decide (mimePrefix <+: blank))

/-- A new buffer is blank: its first bytes are whatever was in memory. -/
theorem MboxBuf.blank_alloc (fill : ℕ → MboxChar) (capacity : ℕ) :
    (mboxBufAlloc fill capacity).Blank (mboxBufAlloc fill capacity).data := by
  refine ⟨mboxBufAlloc_sound fill capacity, List.take_zero, matchAt_of_le ?_⟩
  rw [mboxBufAlloc_data_length]
  exact (show mimePrefix.length ≤ 10 by decide).trans (Nat.le_add_left _ _)

/-- There is no NUL in the prefix of an encoded word. -/
theorem nul_notMem_mimePrefix : nul ∉ mimePrefix := by decide

/-- An emptied buffer is blank, with a NUL in front. -/
theorem mboxBufSlice_blank (hs : out.Sound) :
    ∃ out', mboxBufSlice out 0 0 0 = ok out' ∧ out'.Blank [] := by
  obtain ⟨out', hrun, hs', hnil, ds, hdata⟩ := mboxBufSlice_zero hs
  refine ⟨out', hrun, hs', hnil, ?_⟩
  rw [hdata]
  exact matchAt_append nul_notMem_mimePrefix [] ds

/-- The two bytes at the end of a value are the suffix exactly when it ends with it. -/
theorem mimeSuffix_drop (h : 2 ≤ value.length) :
    mimeSuffix <+: value.drop (value.length - 2) ↔ mimeSuffix <:+ value := by
  have hlen : mimeSuffix.length = 2 := by decide
  rw [List.suffix_iff_eq_drop, hlen]
  constructor
  · intro hpre
    exact hpre.eq_of_length (by rw [hlen, List.length_drop]; omega)
  · exact fun heq => heq ▸ List.prefix_refl _

/-- What is collected stands at the front of the block with a terminator behind it. -/
theorem Collects.exists_data (hc : Collects out₀ value out) (hnil : out₀.bytes = [])
    (hne : value ≠ []) :
    out.len = value.length ∧ ∃ ds, out.data = value ++ nul :: ds := by
  have hbytes := hc.bytes
  rw [hnil, List.nil_append] at hbytes
  have hlen : out.len = value.length := by rw [← hc.sound.bytes_length, hbytes]
  have hnul := hc.terminated hne
  obtain ⟨hlt, hget⟩ := List.getElem?_eq_some_iff.1 hnul
  refine ⟨hlen, out.data.drop (out.len + 1), ?_⟩
  rw [← hget, ← List.drop_eq_getElem_cons hlt, ← hbytes, MboxBuf.bytes, List.take_append_drop]

/-- The test for an encoded word, when it is known whether the prefix matches. -/
theorem mboxBufIsMimeEncoded_match {found : Bool} (h : matchAt mimePrefix out.data = ok found) :
    mboxBufIsMimeEncoded out =
      if found then
        if out.len < 2 then fault else matchAt mimeSuffix (out.data.drop (out.len - 2))
      else ok false := by
  have hmatch : matchAt (str "=?utf-8?Q?") out.data = ok found := h
  rw [mboxBufIsMimeEncoded, hmatch]
  rfl

/-- **Whether a value is taken for an encoded word.** Only an empty value in a block that happens to
begin with the prefix is read outside. -/
theorem mboxBufIsMimeEncoded_eq (hblank : out₀.Blank blank) (hc : Collects out₀ value out) :
    mboxBufIsMimeEncoded out =
      if value = [] ∧ mimePrefix <+: blank then fault else ok (decide (MimeEncoded value)) := by
  by_cases hne : value = []
  · have hlen : out₀.len = 0 := by
      rw [← hblank.sound.bytes_length, hblank.bytes]
      rfl
    have hnot : ¬ MimeEncoded [] := by decide
    rw [hc.unchanged hne, hne, mboxBufIsMimeEncoded_match hblank.data, hlen]
    by_cases hpre : mimePrefix <+: blank
    · simp [hpre]
    · simp [hpre, hnot]
  · obtain ⟨hlen, ds, hdata⟩ := hc.exists_data hblank.bytes hne
    have hcond : ¬ (value = [] ∧ mimePrefix <+: blank) := fun h => hne h.1
    have hmatch := matchAt_append nul_notMem_mimePrefix value ds
    rw [← hdata] at hmatch
    rw [if_neg hcond, mboxBufIsMimeEncoded_match hmatch]
    by_cases hpre : mimePrefix <+: value
    · have htwo : 2 ≤ value.length :=
        (show 2 ≤ mimePrefix.length by decide).trans hpre.length_le
      have hnot : ¬ out.len < 2 := hlen ▸ not_lt.2 htwo
      have hdrop : out.data.drop (out.len - 2) = value.drop (value.length - 2) ++ nul :: ds := by
        rw [hdata, hlen]
        exact List.drop_append_of_le_length (Nat.sub_le _ _)
      rw [decide_eq_true hpre, if_pos rfl, if_neg hnot, hdrop,
        matchAt_append (show nul ∉ mimeSuffix by decide)]
      simp [MimeEncoded, hpre, mimeSuffix_drop htwo]
    · simp [MimeEncoded, hpre]

theorem MimeEncoded.ne_nil (h : MimeEncoded value) : value ≠ [] := by
  rintro rfl
  exact absurd h (by decide)

/-- The value that is stored, where it can be decoded or is no encoded word. -/
theorem headerValue_spec (fill : ℕ → MboxChar) (hblank : out₀.Blank blank)
    (hc : Collects out₀ value out) (hd : Decodes blank value) :
    ∃ stored, headerValue fill out = ok stored ∧ stored.Holds (storedValue value) := by
  have hmime := mboxBufIsMimeEncoded_eq hblank hc
  rw [if_neg fun h => hd.empty h.1 h.2] at hmime
  rw [headerValue, hmime, ok_bind, storedValue]
  by_cases henc : MimeEncoded value
  · obtain ⟨hlen, -⟩ := hc.exists_data hblank.bytes henc.ne_nil
    have hnone : ¬ sizeSub (sizeSub out.len 10) 2 ≠ 0 := by
      rw [hlen, hd.encoded henc]
      decide
    obtain ⟨y, rest, hdata⟩ := List.exists_cons_of_length_pos
      (show 0 < (mboxBufAlloc fill 512).data.length by rw [mboxBufAlloc_data_length]; decide)
    rw [decide_eq_true henc, if_pos rfl, if_pos henc, mboxBufDecodeMimeEncoded, if_neg hnone]
    exact ⟨_, mboxBufSetLen_append [] rest hdata, rfl, rest, rfl⟩
  · obtain ⟨stored, hdup, hholds⟩ := mboxBufDup_spec fill hc.sound
    rw [decide_eq_false henc, if_neg Bool.false_ne_true, if_neg henc]
    rw [hc.bytes, hblank.bytes, List.nil_append] at hholds
    exact ⟨stored, hdup, hholds⟩

/-- And where a value is stored it could be decoded or was none. -/
theorem decodes_of_headerValue {stored : MboxBuf} (hblank : out₀.Blank blank)
    (hc : Collects out₀ value out) (hrun : headerValue fill out = ok stored) :
    Decodes blank value := by
  rw [headerValue, mboxBufIsMimeEncoded_eq hblank hc] at hrun
  constructor
  · intro henc
    obtain ⟨hlen, -⟩ := hc.exists_data hblank.bytes henc.ne_nil
    have hcond : ¬ (value = [] ∧ mimePrefix <+: blank) := fun h => henc.ne_nil h.1
    have hten : 10 ≤ value.length :=
      (show 10 ≤ mimePrefix.length by decide).trans henc.1.length_le
    rw [if_neg hcond, ok_bind, decide_eq_true henc, if_pos rfl, mboxBufDecodeMimeEncoded,
      hlen, sizeSub_of_le hten] at hrun
    split at hrun
    · cases hrun
    · rename_i hnone
      rw [not_not, sizeSub] at hnone
      split at hnone <;> omega
  · intro hnil hpre
    rw [if_pos ⟨hnil, hpre⟩] at hrun
    cases hrun

end Value

/-! ## The parts of an iteration -/

section Parts

variable {fill : ℕ → MboxChar} {snt : RbNode MboxBuf MboxBuf} {buf : MboxBuf}
  {blank pre line name text value r rest tail : List MboxChar} {c : MboxChar}
  {e : List MboxChar × List MboxChar} {es es' : List (List MboxChar × List MboxChar)}
  {ctx ctx' : HeaderCtx}

/-- A line of a value is collected up to its newline, without its carriage returns and tabs. -/
theorem parseHeaderValueStep_spec (fill : ℕ → MboxChar) (hs : ctx.value.Sound) (htext : nl ∉ text)
    (hat : buf.LeftAt tail ctx.offset (text ++ nl :: r)) (hend : Ended tail r) :
    ∃ value, Collects ctx.value (unfolded text) value ∧
      buf.LeftAt tail (ctx.offset + text.length + 1) r ∧
      parseHeaderValueStep fill buf ctx =
        ok (if beginsBlank r then .inl { ctx with offset := ctx.offset + text.length + 1, value }
          else .inr { ctx with offset := ctx.offset + text.length + 1, value }) := by
  have hleft := hat.pass.pass_one
  obtain ⟨next, hnext⟩ := hleft.exists_next hend
  have hdata : buf.data.drop ctx.offset = text ++ nl :: r.head?.getD nul :: next := by
    rw [← hnext, hleft.data, hat.data, List.append_assoc]
    rfl
  obtain ⟨value, hcollects, hstep⟩ := parseHeaderValueStep_eq fill hs htext hdata
  have hblank : (r.head?.getD nul = space ∨ r.head?.getD nul = tab) ↔ beginsBlank r = true := by
    cases r with
    | nil => decide
    | cons c r => simp [beginsBlank]
  exact ⟨value, hcollects, hleft, by rw [hstep]; simp only [hblank]⟩

/-- **The value of a header** is collected over all of its lines, and the reader stands at the first
line that does not begin with a blank. -/
theorem ValueLines.parse (fill : ℕ → MboxChar) (hv : ValueLines r value rest) (ctx : HeaderCtx)
    (hs : ctx.value.Sound) (hat : buf.LeftAt tail ctx.offset r) (hend : Ended tail rest) :
    ∃ n o out, loop (parseHeaderValueStep fill buf) n ctx =
        ok { ctx with offset := o, value := out } ∧
      Collects ctx.value value out ∧ buf.LeftAt tail o rest := by
  induction hv generalizing ctx with
  | last htext hblank =>
    obtain ⟨out, hcollects, hleft, hstep⟩ := parseHeaderValueStep_spec fill hs htext hat hend
    refine ⟨1, _, out, ?_, hcollects, hleft⟩
    rw [loop_succ, hstep, ok_bind, hblank]
    rfl
  | @more text r value rest htext hblank _ ih =>
    have hgoes : Ended tail r := Or.inr fun hnil => by
      rw [hnil] at hblank
      exact Bool.false_ne_true hblank
    obtain ⟨out₁, hcollects₁, hleft₁, hstep⟩ := parseHeaderValueStep_spec fill hs htext hat hgoes
    obtain ⟨n, o, out, hloop, hcollects, hleft⟩ :=
      ih { ctx with offset := _, value := out₁ } hcollects₁.sound hleft₁ hend
    refine ⟨n + 1, o, out, ?_, hcollects₁.append hcollects, hleft⟩
    rw [loop_succ, hstep, ok_bind, hblank]
    exact hloop

/-- Where the name of a header is read, with `pre` in the buffer for it, and `es` stored. -/
structure HeaderCtx.Holds (snt : RbNode MboxBuf MboxBuf) (blank pre : List MboxChar)
    (es : List (List MboxChar × List MboxChar)) (ctx : HeaderCtx) : Prop where
  key : ctx.key.Sound
  key_bytes : ctx.key.bytes = pre
  value : ctx.value.Blank blank
  tree : TreeHolds snt ctx.h ctx.headers es

/-- Whether a From line begins here is asked of the text alone, when a colon or a NUL comes. -/
theorem mboxBufMatchFromLine_eq {o : ℕ} (hat : buf.LeftAt tail o r)
    (hend : tail.head? = some nul ∨ colon ∈ r) :
    mboxBufMatchFromLine buf.data o = ok (decide (fromWord <+: r)) := by
  rw [mboxBufMatchFromLine, hat.data]
  rcases hend with hnul | hcolon
  · obtain ⟨next, rfl⟩ := List.head?_eq_some_iff.1 hnul
    exact matchAt_append (by decide) r next
  · obtain ⟨xs, ys, rfl⟩ := List.append_of_mem hcolon
    have hcolon : colon ∉ fromWord := by decide
    rw [List.append_assoc, List.cons_append, matchAt_append hcolon]
    simp only [prefix_terminated_iff hcolon]

/-- A header that does not begin as a From line is left to the rest of the iteration. -/
theorem parseFromLine_named (fill : ℕ → MboxChar) (hat : buf.LeftAt tail ctx.offset r)
    (hend : tail.head? = some nul ∨ colon ∈ r) (hnot : ¬ fromWord <+: r) (n : ℕ) :
    parseFromLine fill buf n ctx = ok ctx := by
  rw [parseFromLine, mboxBufMatchFromLine_eq hat hend, decide_eq_false hnot]
  rfl

/-- A From line is stored under a name of its own, which stays in the key buffer. -/
theorem parseFromLine_spec (fill : ℕ → MboxChar) (hctx : ctx.Holds snt blank [] es)
    (hline : nl ∉ line) (hfrom : fromWord <+: line)
    (hat : buf.LeftAt tail ctx.offset (line ++ nl :: r)) :
    ∃ ctx', Converges (fun n => parseFromLine fill buf n ctx) ctx' ∧
      buf.LeftAt tail ctx'.offset r ∧
      ctx'.Holds snt blank (line.filter (· ≠ cr))
        (es ++ [(str "__FROM_LINE__", line.filter (· ≠ cr))]) := by
  have hdata := hat.data
  rw [List.append_assoc, List.cons_append] at hdata
  obtain ⟨key, name, value, hs, hbytes, hname, hvalue, heq⟩ :=
    parseFromLine_eq fill hctx.key hline hfrom hdata
  rw [hctx.key_bytes, List.nil_append] at hbytes
  rw [hbytes] at hvalue
  obtain ⟨h', t', hins, htree⟩ := hctx.tree.insert name hvalue
  refine ⟨_, Converges.congr heq (hins.bind (Converges.const rfl)), hat.pass.pass_one, hs, hbytes,
    hctx.value, ?_⟩
  rw [hname] at htree
  exact htree

/-- Storing a header adds it to the dictionary and empties both buffers. -/
theorem storeHeader_spec (fill : ℕ → MboxChar) {out₀ : MboxBuf} (ctx : HeaderCtx)
    (hkey : ctx.key.Sound) (hblank : out₀.Blank blank)
    (hc : Collects out₀ value ctx.value) (hd : Decodes blank value)
    (htree : TreeHolds snt ctx.h ctx.headers es) :
    ∃ ctx', Converges (fun n => storeHeader fill n ctx) ctx' ∧ ctx'.offset = ctx.offset ∧
      ctx'.Holds snt [] [] (es ++ [(ctx.key.bytes, storedValue value)]) := by
  obtain ⟨name, key, out, hname, hslice, hslice', heq⟩ := storeHeader_eq fill hkey hc.sound
  obtain ⟨stored, hstored, hholds⟩ := headerValue_spec fill hblank hc hd
  obtain ⟨h', t', hins, htree'⟩ := htree.insert name hholds
  obtain ⟨key', hkey', hsound, hnil, -⟩ := mboxBufSlice_zero hkey
  obtain ⟨out', hout', hblank'⟩ := mboxBufSlice_blank hc.sound
  obtain rfl := ok.inj (hslice.symm.trans hkey')
  obtain rfl := ok.inj (hslice'.symm.trans hout')
  rw [hname] at htree'
  exact ⟨_, Converges.congr heq ((Converges.const hstored).bind
    (hins.bind (Converges.const rfl))), rfl, hsound, hnil, hblank', htree'⟩

/-- What is known behind a header, whether the headers end there or not. -/
def HeaderCtx.Behind (snt : RbNode MboxBuf MboxBuf) (buf : MboxBuf) (tail : List MboxChar)
    (es : List (List MboxChar × List MboxChar)) (rest : List MboxChar) :
    HeaderCtx ⊕ HeaderCtx → Prop
  | .inl ctx =>
    beginsLine rest = false ∧ ctx.Holds snt [] [] es ∧ buf.LeftAt tail ctx.offset rest
  | .inr ctx =>
    beginsLine rest = true ∧ TreeHolds snt ctx.h ctx.headers es ∧
      buf.LeftAt tail ctx.offset (rest.dropWhile isLine)

/-- Behind a header the loop ends at an empty line, and is ready for the next header elsewhere. -/
theorem endHeaders_spec (hctx : ctx.Holds snt [] [] es) (hat : buf.LeftAt tail ctx.offset rest)
    (hend : Ended tail (rest.dropWhile isLine)) :
    ∃ x, endHeaders buf ctx = ok x ∧ HeaderCtx.Behind snt buf tail es rest x := by
  have hle : ¬ buf.len < ctx.offset := by
    have hlen := hat.len
    omega
  obtain ⟨next, hnext⟩ := hat.exists_next hend.of_dropWhile
  have hchar : mboxBufGetChar buf ctx.offset = ok (rest.head?.getD nul) := by
    rw [mboxBufGetChar, if_neg hle]
    exact load_of_drop hnext
  have hline : isLine (rest.head?.getD nul) = beginsLine rest := by
    cases rest <;> rfl
  rw [endHeaders, hchar, ok_bind, hline]
  cases hends : beginsLine rest with
  | false => exact ⟨.inl ctx, rfl, hends, hctx, hat⟩
  | true =>
    obtain ⟨o, hscan, hleft⟩ := hat.scanWithin_lines hend
    refine ⟨.inr { ctx with offset := o }, ?_, hends, hctx.tree, hleft⟩
    rw [if_pos rfl, hscan]
    rfl

/-- A header is read from its name on. -/
theorem NamedLines.parse (fill : ℕ → MboxChar) (hn : NamedLines blank pre r e rest)
    (hctx : ctx.Holds snt blank pre es) (hat : buf.LeftAt tail ctx.offset r)
    (hend : Ended tail (rest.dropWhile isLine)) :
    ∃ x, Converges (fun n => parseHeader fill buf n ctx) x ∧
      HeaderCtx.Behind snt buf tail (es ++ [e]) rest x := by
  obtain ⟨hname, hvalue, hd⟩ := hn
  rename_i name c text value
  have hdata := hat.data
  rw [List.append_assoc, List.cons_append, List.cons_append] at hdata
  obtain ⟨key, hcollect, hkey, hbytes⟩ := parseHeaderName_spec fill hctx.key hname hdata
  have hat₁ : buf.LeftAt tail (ctx.offset + name.length + 2) text := hat.pass.pass_one.pass_one
  obtain ⟨n, o, out, hloop, hc, hat₂⟩ := hvalue.parse fill
    { ctx with offset := ctx.offset + name.length + 2, key } hctx.value.sound hat₁
    hend.of_dropWhile
  obtain ⟨ctx', hstore, ho, hholds⟩ := storeHeader_spec fill
    { ctx with offset := o, key, value := out } hkey hctx.value hc hd hctx.tree
  have hat₃ : buf.LeftAt tail ctx'.offset rest := by
    rw [ho]
    exact hat₂
  obtain ⟨x, hendHeaders, hbehind⟩ := endHeaders_spec hholds hat₃ hend
  refine ⟨x, ?_, ?_⟩
  · refine Converges.congr (fun n => ?_)
      ((Converges.loop hloop).bind (g := fun n c => storeHeader fill n c >>= endHeaders buf)
        (hstore.bind (Converges.const hendHeaders)))
    rw [parseHeader, hcollect, ok_bind]
  · rw [hbytes, hctx.key_bytes] at hbehind
    exact hbehind

/-- **An iteration** reads a header, or a From line and the header behind it. -/
theorem HeaderLines.parse (fill : ℕ → MboxChar) (hh : HeaderLines blank r es' rest)
    (hctx : ctx.Holds snt blank [] es) (hat : buf.LeftAt tail ctx.offset r)
    (hend : Ended tail (rest.dropWhile isLine)) :
    ∃ x, Converges (fun n => parseEmailHeadersStep fill buf n ctx) x ∧
      HeaderCtx.Behind snt buf tail (es ++ es') rest x := by
  have hcolon := hh.colon_mem
  have hlt : ctx.offset < buf.len := by
    have hlen := hat.len
    have hpos := List.length_pos_of_mem hcolon
    omega
  cases hh with
  | named hnot hn =>
    obtain ⟨x, hrun, hbehind⟩ := hn.parse fill hctx hat hend
    refine ⟨x, Converges.congr (fun n => ?_) hrun, hbehind⟩
    rw [parseEmailHeadersStep, if_neg (not_not.2 hlt),
      parseFromLine_named fill hat (Or.inr hcolon) hnot, ok_bind]
  | fromLine hline hfrom hn =>
    obtain ⟨ctx₁, hfromLine, hat₁, hctx₁⟩ := parseFromLine_spec fill hctx hline hfrom hat
    obtain ⟨x, hrun, hbehind⟩ := hn.parse fill hctx₁ hat₁ hend
    refine ⟨x, Converges.congr (fun n => ?_) (hfromLine.bind hrun), ?_⟩
    · rw [parseEmailHeadersStep, if_neg (not_not.2 hlt)]
    · rw [List.append_assoc] at hbehind
      exact hbehind

/-- What does not begin with a line ending has none in front. -/
theorem dropWhile_isLine (h : beginsLine r = false) : r.dropWhile isLine = r := by
  cases r with
  | nil => rfl
  | cons c r => exact List.dropWhile_cons_of_neg (by simpa [beginsLine] using h)

/-- **All headers of a message** are read, each stored under the name it was read with. -/
theorem HeaderBlock.parse_loop (fill : ℕ → MboxChar) (hb : HeaderBlock blank r es' rest)
    (hctx : ctx.Holds snt blank [] es) (hat : buf.LeftAt tail ctx.offset r)
    (hend : Ended tail rest) :
    ∃ ctx', LoopTo (parseEmailHeadersStep fill buf) ctx ctx' ∧
      TreeHolds snt ctx'.h ctx'.headers (es ++ es') ∧ buf.LeftAt tail ctx'.offset rest := by
  induction hb generalizing ctx es with
  | nil =>
    have hdone : ¬ ctx.offset < buf.len := Nat.not_lt.2 hat.len.ge
    refine ⟨ctx, LoopTo.done (Converges.congr (fun n => if_pos hdone) (Converges.const rfl)), ?_,
      hat⟩
    rw [List.append_nil]
    exact hctx.tree
  | last hh hends =>
    obtain ⟨x, hrun, hbehind⟩ := hh.parse fill hctx hat hend
    cases x with
    | inl ctx' => exact absurd (hbehind.1.symm.trans hends) Bool.false_ne_true
    | inr ctx' => exact ⟨ctx', LoopTo.done hrun, hbehind.2⟩
  | more hh hgoes hb ih =>
    have hend' : Ended tail (List.dropWhile isLine _) :=
      (dropWhile_isLine hgoes).symm ▸ hend.imp_right hb.ne_nil
    obtain ⟨x, hrun, hbehind⟩ := hh.parse fill hctx hat hend'
    cases x with
    | inl ctx₁ =>
      obtain ⟨ctx', hloop, htree, hleft⟩ := ih hbehind.2.1 hbehind.2.2 hend
      rw [List.append_assoc] at htree
      exact ⟨ctx', LoopTo.step hrun hloop, htree, hleft⟩
    | inr ctx' => exact absurd (hgoes.symm.trans hbehind.1) Bool.false_ne_true

/-- **What the parser makes of the headers of a message**: the dictionary holds them, and the reader
stands behind the empty line. -/
theorem HeaderBlock.parse (fill : ℕ → MboxChar) {h : HeaderHeap} {snt₀ : RbNode MboxBuf MboxBuf}
    (hsnt : h.get rbSentinal = some snt₀)
    (hb : HeaderBlock (mboxBufAlloc fill 3000).data (r.dropWhile isLine) es rest)
    (hat : buf.LeftAt tail buf.offset r) (hend : Ended tail rest) :
    ∃ snt h' t' o, Converges (mboxParseEmailHeaders fill buf h) (h', t', mboxBufSetOffset buf o) ∧
      TreeHolds snt h' t' es ∧ buf.LeftAt tail o rest := by
  obtain ⟨snt, h₀, t₀, hnew, htree⟩ := treeHolds_new hsnt
  obtain ⟨k, hscan, hat₀⟩ := hat.scanUntil_lines (hend.imp_right hb.ne_nil)
  have hctx : HeaderCtx.Holds snt (mboxBufAlloc fill 3000).data [] []
      ⟨buf.offset + k, mboxBufAlloc fill 3000, mboxBufAlloc fill 3000, h₀, t₀⟩ :=
    ⟨mboxBufAlloc_sound fill 3000, List.take_zero, MboxBuf.blank_alloc fill 3000, htree⟩
  obtain ⟨ctx', hloop, htree', hleft⟩ := hb.parse_loop fill hctx hat₀ hend
  refine ⟨snt, ctx'.h, ctx'.headers, ctx'.offset, ?_, htree', hleft⟩
  refine Converges.congr (fun n => ?_) (hloop.converges.bind (g := fun _ c =>
    ok (c.h, c.headers, mboxBufSetOffset buf c.offset)) (Converges.const rfl))
  simp only [mboxParseEmailHeaders, hnew, hscan, ok_bind, pure_eq]

end Parts

end Libmbox2
