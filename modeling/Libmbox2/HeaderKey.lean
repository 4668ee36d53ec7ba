import Libmbox2.HeaderRead

/-!
# The first header behind a From line

The buffer for the names is not emptied between the From line and the first header, so that
header is stored under the From line and its name in one. Whatever comes after it, no key is
the name of the first header unless the parser reads on into the body: a later line that
begins with `From ` swallows the name of the header behind it in the same way, or, when it is
the last one, the empty line and what the body has up to its first `:`.
-/

namespace Libmbox2

open CSem CSem.Exec

/-- A line ending, `"\r\n"` or `"\n"`. -/
def eol (crlf : Bool) : List MboxChar := if crlf then [cr, nl] else [nl]

/-- A header line `name: value` as it stands in a message: a name without a colon, and a value of
one line that is no encoded word. -/
structure Field where
  name : List MboxChar
  value : List MboxChar
  /-- whether the line ends with a CR -/
  crlf : Bool
  name_ne : name ≠ []
  name_plain : colon ∉ name ∧ cr ∉ name ∧ nl ∉ name ∧ nul ∉ name
  name_head : name.head? ≠ some space ∧ name.head? ≠ some tab
  value_ne : value ≠ []
  value_nl : nl ∉ value
  value_plain : ¬ (str "=?utf-8?Q?" <+: value ∧ str "?=" <:+ value)

/-- The line of a header up to its newline. -/
def Field.line (f : Field) : List MboxChar :=
  f.name ++ colon :: space :: (f.value ++ if f.crlf then [cr] else [])

/-- The lines of headers, one behind the other. -/
def fieldLines (fs : List Field) : List MboxChar := fs.flatMap fun f => f.line ++ [nl]

/-- A message as a mailbox stores it: a From line, at least one header, an empty line and the body.
Each line may end in either way. -/
structure StoredMail where
  /-- the From line, behind `From ` -/
  fromText : List MboxChar
  fromCrlf : Bool
  fields : List Field
  emptyCrlf : Bool
  body : List MboxChar
  fromText_nl : nl ∉ fromText
  fields_ne : fields ≠ []
  /-- no name is another one or begins with it, whatever the case -/
  fields_apart : fields.Pairwise fun f g => caseCmp f.name g.name ≠ 0

namespace StoredMail

variable (m : StoredMail)

/-- The From line of the message up to its newline. -/
def fromLine : List MboxChar := fromWord ++ m.fromText ++ if m.fromCrlf then [cr] else []

/-- What is in front of the body: the From line, the headers and the empty line. -/
def head : List MboxChar := m.fromLine ++ nl :: (fieldLines m.fields ++ eol m.emptyCrlf)

end StoredMail

/-- What the parser is for: the tree has the From line, every header under its name, and no
other entry, and the offset is on the body. The entries are what the callback of
`mboxRBTreeForEach` gets. -/
def HeadersRead (fill : ℕ → MboxChar) (h : HeaderHeap) (buf : MboxBuf) (m : StoredMail) : Prop :=
  ∃ h' t' buf', ∃ L : List (Option MboxBuf × Option MboxBuf),
    Converges (mboxParseEmailHeaders fill buf h) (h', t', buf') ∧
    Converges (fun n => mboxRBTreeForEach h' t' (fun k v acc => ok (acc ++ [(k, v)])) n []) L ∧
    (L.map fun e => (e.1.map MboxBuf.bytes, e.2.map MboxBuf.bytes)).Perm
      ((some (str "__FROM_LINE__"), some (m.fromLine.filter (· ≠ cr))) ::
        m.fields.map fun f => (some f.name, some f.value)) ∧
    buf'.offset = buf.offset + m.head.length

/-! ## One header -/

section Parts

variable {fill : ℕ → MboxChar} {snt : RbNode MboxBuf MboxBuf} {P : List MboxChar → Prop}
  {ctx ctx' : HeaderCtx} {buf : MboxBuf} {n : ℕ} {line rest : List MboxChar}

/-- The name a From line is stored under has the bytes of the literal. -/
theorem fromLineName_spec (fill : ℕ → MboxChar) :
    ∃ name, mboxBufDupRaw fill (str "__FROM_LINE__" ++ [nul]) 13 14 = ok name ∧
      name.bytes = str "__FROM_LINE__" := by
  obtain ⟨name, hrun, hholds, -⟩ := mboxBufDupRaw_spec fill
    (show 13 ≤ (str "__FROM_LINE__" ++ [nul]).length by decide) (show 13 ≤ 14 + 9 by decide)
  exact ⟨name, hrun, hholds.bytes_eq.trans (by decide)⟩

/-- What of a From line cannot go wrong: it is collected behind what is in the buffer for the
name, and copied. -/
theorem parseFromLine_eq (fill : ℕ → MboxChar) (hkey : ctx.key.Sound) (hline : nl ∉ line)
    (hfrom : fromWord <+: line) (hdata : buf.data.drop ctx.offset = line ++ nl :: rest) :
    ∃ key name value, key.Sound ∧ key.bytes = ctx.key.bytes ++ line.filter (· ≠ cr) ∧
      name.bytes = str "__FROM_LINE__" ∧ value.Holds key.bytes ∧
      ∀ n, parseFromLine fill buf n ctx =
        mboxRBTreeInsert mboxBufCaseCmp ctx.h ctx.headers n name (some value) >>= fun p =>
          ok { ctx with
            offset := ctx.offset + line.length + 1, key, h := p.1, headers := p.2 } := by
  obtain ⟨key, hput, hcollects⟩ := putUntil_collects fill (· == cr) rest hline hkey
  obtain ⟨name, hname, hnamebytes⟩ := fromLineName_spec fill
  obtain ⟨value, hdup, hvalue⟩ := mboxBufDup_spec fill hcollects.sound
  have hmatch : mboxBufMatchFromLine buf.data ctx.offset = ok true := by
    rw [mboxBufMatchFromLine, hdata, matchAt_append (by decide), decide_eq_true hfrom]
  have hfilter : (line.filter fun ch => !(ch == cr)) = line.filter (· ≠ cr) :=
    List.filter_congr fun ch _ => by rw [Bool.eq_iff_iff]; simp
  refine ⟨key, name, value, hcollects.sound, ?_, hnamebytes, hvalue, fun n => ?_⟩
  · rw [hcollects.bytes, hfilter]
  · simp only [parseFromLine, hmatch, ok_bind, Bool.not_true, Bool.false_eq_true, if_false,
      hdata, hput, hname, hdup, pure_eq]

/-- A From line is collected in the buffer for the name, and stays there. -/
theorem parseFromLine_inv (hrun : parseFromLine fill buf n ctx = ok ctx')
    (hkey : ctx.key.Sound) (htree : TreeOf snt P ctx.h ctx.headers)
    (hP : P (str "__FROM_LINE__")) (hline : nl ∉ line) (hfrom : fromWord <+: line)
    (hdata : buf.data.drop ctx.offset = line ++ nl :: rest) :
    ctx'.offset = ctx.offset + line.length + 1 ∧ ctx'.value = ctx.value ∧ ctx'.key.Sound ∧
      ctx'.key.bytes = ctx.key.bytes ++ line.filter (· ≠ cr) ∧
      TreeOf snt P ctx'.h ctx'.headers := by
  obtain ⟨key, name, value, hs, hbytes, hname, -, heq⟩ :=
    parseFromLine_eq fill hkey hline hfrom hdata
  rw [heq] at hrun
  obtain ⟨⟨h', t'⟩, hins, hrun⟩ := bind_eq_ok hrun
  cases hrun
  exact ⟨rfl, rfl, hs, hbytes, htree.insert hins (hname.symm ▸ hP)⟩

/-- A line that is no From line is left to the next part of the iteration. -/
theorem parseFromLine_of_not (hfrom : ¬ fromWord <+: line)
    (hdata : buf.data.drop ctx.offset = line ++ nl :: rest) :
    parseFromLine fill buf n ctx = ok ctx := by
  have hmatch : mboxBufMatchFromLine buf.data ctx.offset = ok false := by
    rw [mboxBufMatchFromLine, hdata, matchAt_append (by decide), decide_eq_false hfrom]
  rw [parseFromLine, hmatch]
  rfl

end Parts

/-! ## All headers -/

namespace Field

variable (f : Field)

/-- There is no newline within a header line. -/
theorem nl_notMem_line : nl ∉ f.line := by
  obtain ⟨-, -, hname, -⟩ := f.name_plain
  have hvalue := f.value_nl
  have hcolon : nl ≠ colon := by decide
  have hspace : nl ≠ space := by decide
  have hcr : nl ≠ cr := by decide
  rw [line]
  cases f.crlf <;> simp [hname, hvalue, hcolon, hspace, hcr]

theorem colon_mem_line : colon ∈ f.line :=
  List.mem_append_right _ (List.mem_cons_self ..)

/-- A header line begins with a byte that neither goes on with a value nor ends the headers. -/
theorem exists_head : ∃ c rest, f.line ++ [nl] = c :: rest ∧ c ≠ space ∧ c ≠ tab ∧
    isLine c = false := by
  obtain ⟨-, hcr, hnl, -⟩ := f.name_plain
  obtain ⟨hspace, htab⟩ := f.name_head
  rw [line]
  cases hname : f.name with
  | nil => exact absurd hname f.name_ne
  | cons c rest =>
    rw [hname, List.mem_cons, not_or] at hcr hnl
    rw [hname] at hspace htab
    refine ⟨c, _, rfl, fun h => hspace (h ▸ rfl), fun h => htab (h ▸ rfl), ?_⟩
    simp [isLine, Ne.symm hcr.1, Ne.symm hnl.1]

end Field

@[simp] theorem fieldLines_nil : fieldLines [] = [] := rfl

/-- The lines of headers begin with the line of the first one. -/
@[simp] theorem fieldLines_cons (f : Field) (fs : List Field) :
    fieldLines (f :: fs) = f.line ++ nl :: fieldLines fs := by
  simp [fieldLines]

/-- An empty line begins with a byte of a line ending, which ends the headers. -/
theorem exists_eol (crlf : Bool) : ∃ c rest, eol crlf = c :: rest ∧ c ≠ space ∧ c ≠ tab ∧
    c ≠ colon ∧ isLine c = true := by
  cases crlf
  · exact ⟨nl, [], rfl, by decide⟩
  · exact ⟨cr, [nl], rfl, by decide⟩

/-- What comes behind a header: another one, or the empty line. -/
theorem exists_next (fs : List Field) (crlf : Bool) (body : List MboxChar) :
    ∃ c next, fieldLines fs ++ (eol crlf ++ body) = c :: next ∧ c ≠ space ∧ c ≠ tab ∧
      (isLine c = true ↔ fs = []) := by
  cases fs with
  | nil =>
    obtain ⟨c, rest, heq, hspace, htab, -, hline⟩ := exists_eol crlf
    exact ⟨c, rest ++ body, by rw [heq]; rfl, hspace, htab, iff_of_true hline rfl⟩
  | cons f fs =>
    obtain ⟨c, rest, heq, hspace, htab, hline⟩ := f.exists_head
    refine ⟨c, rest ++ (fieldLines fs ++ (eol crlf ++ body)), ?_, hspace, htab, ?_⟩
    · rw [fieldLines_cons, ← List.cons_append, ← heq]
      simp
    · exact iff_of_false (by simp [hline]) (List.cons_ne_nil _ _)

section Run

/-- The empty line and the body start at `B`, and `end'` is what is there. -/
structure HeaderCtx.At (buf : MboxBuf) (B : ℕ) (ending body : List MboxChar) (ctx : HeaderCtx)
    (fs : List Field) : Prop where
  data : buf.data.drop ctx.offset = fieldLines fs ++ (ending ++ body)
  offset : ctx.offset + (fieldLines fs).length + ending.length = B

variable {fill : ℕ → MboxChar} {snt : RbNode MboxBuf MboxBuf} {P : List MboxChar → Prop}
  {ctx : HeaderCtx} {buf : MboxBuf} {n B : ℕ} {crlf : Bool} {body : List MboxChar}
  {r : HeaderCtx ⊕ HeaderCtx} {f : Field} {fs : List Field}

/-- Behind a header: it was the last one, or the next one follows. -/
def HeaderCtx.After (snt : RbNode MboxBuf MboxBuf) (P : List MboxChar → Prop) (buf : MboxBuf)
    (B : ℕ) (crlf : Bool) (body : List MboxChar) (fs : List Field) :
    HeaderCtx ⊕ HeaderCtx → Prop
  | .inl ctx => fs ≠ [] ∧ ctx.Ready snt P ∧ ctx.At buf B (eol crlf) body fs
  | .inr ctx => TreeOf snt P ctx.h ctx.headers

/-- Reading a header stores it under the key that is in the buffer together with its name, and goes
on to the next header or to the body. -/
theorem parseHeader_after (hB : B ≤ buf.len) (hkey : ctx.key.Sound) (hvalue : ctx.value.Sound)
    (htree : TreeOf snt P ctx.h ctx.headers) (hat : ctx.At buf B (eol crlf) body (f :: fs))
    (hP : P (ctx.key.bytes ++ f.name)) (hrun : parseHeader fill buf n ctx = ok r) :
    HeaderCtx.After snt P buf B crlf body fs r := by
  obtain ⟨c, next, hnext, hspace, htab, hline⟩ := exists_next fs crlf body
  have htext : nl ∉ f.value ++ if f.crlf then [cr] else [] := fun hmem =>
    f.nl_notMem_line (List.mem_append_right _ (List.mem_cons_of_mem _
      (List.mem_cons_of_mem _ hmem)))
  have hdata := hat.data
  rw [fieldLines_cons, List.append_assoc, List.cons_append, hnext] at hdata
  have hdata' := hdata
  rw [Field.line, List.append_assoc, List.cons_append, List.cons_append] at hdata
  obtain ⟨ctx', hoffset, hready, hend⟩ := parseHeader_inv hkey hvalue htree f.name_plain.1 htext
    hspace htab hdata hP hrun
  have hlen : ctx'.offset = ctx.offset + (f.line ++ [nl]).length := by
    rw [hoffset, Field.line]
    simp only [List.length_append, List.length_cons, List.length_nil]
    omega
  have hdrop : buf.data.drop ctx'.offset = c :: next := by
    rw [hlen]
    exact drop_of_append (by simpa using hdata')
  have hB' := hat.offset
  simp only [fieldLines_cons, List.length_append, List.length_cons, List.length_nil] at hB' hlen
  have hle : ¬ buf.len < ctx'.offset := by
    rw [hlen]
    omega
  rw [endHeaders, mboxBufGetChar, if_neg hle, load_of_drop hdrop, ok_bind] at hend
  split at hend
  · obtain ⟨k, -, hend⟩ := bind_eq_ok hend
    cases hend
    exact hready.tree
  · rename_i hnot
    cases hend
    refine ⟨fun hnil => hnot (hline.2 hnil), hready, hdrop.trans hnext.symm, ?_⟩
    rw [hlen]
    omega

/-- An iteration at a line that begins with `From `: it goes into the name of the header
behind it, or the parser leaves the headers. -/
theorem step_fromLine {line : List MboxChar} (hB : B ≤ buf.len) (hready : ctx.Ready snt P)
    (hfromP : P (str "__FROM_LINE__")) (hline : nl ∉ line) (hfrom : fromWord <+: line)
    (hdata : buf.data.drop ctx.offset =
      line ++ nl :: (fieldLines fs ++ (eol crlf ++ body)))
    (hoffset : ctx.offset + line.length + 1 + (fieldLines fs).length + (eol crlf).length = B)
    (hP : ∀ f ∈ fs.head?, P (line.filter (· ≠ cr) ++ f.name))
    (hrun : parseEmailHeadersStep fill buf n ctx = ok r) :
    (∃ f fs', fs = f :: fs' ∧ HeaderCtx.After snt P buf B crlf body fs' r) ∨
      B < HeaderCtx.stand r := by
  have hlt : ctx.offset < buf.len := by omega
  rw [parseEmailHeadersStep, if_neg (not_not.2 hlt)] at hrun
  obtain ⟨ctx₁, hfromLine, hrun⟩ := bind_eq_ok hrun
  obtain ⟨ho, hv, hkey, hbytes, htree⟩ := parseFromLine_inv hfromLine hready.key hready.tree
    hfromP hline hfrom hdata
  have hdata₁ : buf.data.drop ctx₁.offset = fieldLines fs ++ (eol crlf ++ body) := by
    have hdrop := drop_of_append (show buf.data.drop ctx.offset =
      line ++ [nl] ++ (fieldLines fs ++ (eol crlf ++ body)) by simpa using hdata)
    rwa [List.length_append, List.length_singleton, ← Nat.add_assoc, ← ho] at hdrop
  have hat : ctx₁.At buf B (eol crlf) body fs := ⟨hdata₁, by omega⟩
  cases fs with
  | nil =>
    -- the empty line is taken for a part of the name
    obtain ⟨c, rest, heq, -, -, hcolon, -⟩ := exists_eol crlf
    obtain ⟨k, key, hput, hstand⟩ := parseHeader_lt hrun
    rw [hdata₁, heq] at hput
    have hk := putUntil_pos hcolon hput
    have hshort : (eol crlf).length ≤ 2 := by cases crlf <;> decide
    have hB' := hat.offset
    rw [fieldLines_nil, List.length_nil] at hB'
    exact Or.inr (by omega)
  | cons f fs' =>
    refine Or.inl ⟨f, fs', rfl, parseHeader_after hB hkey (hv ▸ hready.value) htree hat ?_ hrun⟩
    rw [hbytes, hready.key_nil, List.nil_append]
    exact hP f rfl

/-- From behind the start of the body there is no way back. -/
theorem loop_behind {k : ℕ} {ctx' : HeaderCtx} (hlt : B < ctx.offset)
    (hrun : loop (parseEmailHeadersStep fill buf n) k ctx = ok ctx') : B < ctx'.offset := by
  have hnext : ∀ s s' : HeaderCtx, B < s.offset →
      parseEmailHeadersStep fill buf n s = ok (.inl s') → B < s'.offset :=
    fun s s' hs hstep => lt_of_lt_of_le hs (parseEmailHeadersStep_le hstep)
  have hdone : ∀ s s' : HeaderCtx, B < s.offset →
      parseEmailHeadersStep fill buf n s = ok (.inr s') → B < s'.offset :=
    fun s s' hs hstep => lt_of_lt_of_le hs (parseEmailHeadersStep_le hstep)
  exact loop_inv hnext hdone hlt hrun

/-- An iteration that goes behind it is followed by others that stay there. -/
theorem behind_of_step {k : ℕ} {ctx' : HeaderCtx}
    (hrun : loop (parseEmailHeadersStep fill buf n) (k + 1) ctx = ok ctx')
    (hstep : parseEmailHeadersStep fill buf n ctx = ok r) (hlt : B < HeaderCtx.stand r) :
    B < ctx'.offset := by
  rw [loop_succ, hstep, ok_bind] at hrun
  cases r with
  | inl ctx₁ => exact loop_behind hlt hrun
  | inr ctx₁ =>
    cases hrun
    exact hlt

/-- **The headers of a message.** Their keys are all of the kind, or the parser is behind
where the body starts. -/
theorem headers_inv (hB : B ≤ buf.len) (hfromP : P (str "__FROM_LINE__"))
    (hcolon : ∀ K, colon ∈ K → P K) (hP : ∀ f ∈ fs, P f.name) (hne : fs ≠ [])
    (hready : ctx.Ready snt P) (hat : ctx.At buf B (eol crlf) body fs) {k : ℕ}
    {ctx' : HeaderCtx} (hloop : loop (parseEmailHeadersStep fill buf n) k ctx = ok ctx') :
    TreeOf snt P ctx'.h ctx'.headers ∨ B < ctx'.offset := by
  -- by the number of headers left: an iteration takes one, or two where a line begins with `From `
  induction hm : fs.length using Nat.strongRecOn generalizing fs ctx k with
  | _ m ih =>
    cases k with
    | zero => cases hloop
    | succ k =>
      obtain ⟨r, hstep, hrun⟩ := bind_eq_ok hloop
      -- what is known behind a header, and what follows from it
      have hafter : ∀ fs', fs'.length < m → (∀ f ∈ fs', P f.name) →
          HeaderCtx.After snt P buf B crlf body fs' r →
          TreeOf snt P ctx'.h ctx'.headers ∨ B < ctx'.offset := by
        intro fs' hlen hP' hr
        cases r with
        | inl ctx₁ => exact ih _ hlen hP' hr.1 hr.2.1 hr.2.2 hrun rfl
        | inr ctx₁ =>
          cases hrun
          exact Or.inl hr
      cases fs with
      | nil => exact absurd rfl hne
      | cons f fs =>
        rw [List.length_cons] at hm
        have hP' : ∀ g ∈ fs, P g.name := fun g hg => hP g (List.mem_cons_of_mem _ hg)
        have hdata := hat.data
        have hoffset := hat.offset
        rw [fieldLines_cons] at hdata hoffset
        rw [List.append_assoc, List.cons_append] at hdata
        rw [List.length_append, List.length_cons] at hoffset
        by_cases hfrom : fromWord <+: f.line
        · have hmem : colon ∈ f.line.filter (· ≠ cr) :=
            List.mem_filter.2 ⟨f.colon_mem_line, by decide⟩
          rcases step_fromLine hB hready hfromP f.nl_notMem_line hfrom hdata (by omega)
            (fun g _ => hcolon _ (List.mem_append_left _ hmem)) hstep with
            ⟨g, fs', rfl, hr⟩ | hlt
          · exact hafter fs' (by rw [← hm, List.length_cons]; omega)
              (fun g' hg' => hP' g' (List.mem_cons_of_mem _ hg')) hr
          · exact Or.inr (behind_of_step hloop hstep hlt)
        · have hlt : ctx.offset < buf.len := by omega
          rw [parseEmailHeadersStep, if_neg (not_not.2 hlt), parseFromLine_of_not hfrom hdata,
            ok_bind] at hstep
          refine hafter fs (by omega) hP' (parseHeader_after hB hready.key hready.value
            hready.tree hat ?_ hstep)
          rw [hready.key_nil, List.nil_append]
          exact hP f (List.mem_cons_self ..)

end Run

/-! ## The whole message -/

section Whole

variable {fill : ℕ → MboxChar} {h h' : HeaderHeap} {t' : MboxRBTree} {buf buf' : MboxBuf}
  {m : StoredMail} {n : ℕ} {rest : List MboxChar} {f : Field} {fs : List Field}

theorem StoredMail.nl_notMem_fromLine (m : StoredMail) : nl ∉ m.fromLine := by
  have hword : nl ∉ fromWord := by decide
  have hcr : nl ≠ cr := by decide
  have htext := m.fromText_nl
  rw [StoredMail.fromLine]
  cases m.fromCrlf <;> simp [hword, htext, hcr]

/-- A new buffer is sound. -/
theorem mboxBufAlloc_sound (fill : ℕ → MboxChar) (capacity : ℕ) :
    (mboxBufAlloc fill capacity).Sound := by
  refine ⟨?_, ?_⟩
  · rw [mboxBufAlloc_data_length]
    rfl
  · rw [mboxBufAlloc_len, mboxBufAlloc_data_length]
    exact Nat.succ_pos _

/-- The dictionary starts as an empty tree, so its keys are whatever is asked of them. -/
theorem treeOf_new (P : List MboxChar → Prop) {h₀ : HeaderHeap} {t₀ : MboxRBTree}
    (hnew : rbTreeNew h = ok (h₀, t₀)) : ∃ snt, TreeOf snt P h₀ t₀ := by
  cases hsnt : h.get rbSentinal with
  | none =>
    simp only [rbTreeNew, Heap.modify, hsnt] at hnew
    cases hnew
  | some snt₀ =>
    obtain ⟨h₁, snt, hnew', htree⟩ := rbTreeNew_spec mboxBufCaseCmp hsnt
    rw [hnew'] at hnew
    cases hnew
    exact ⟨snt, RBTree.nil, htree, by simp [entriesOf, RBTree.toList]⟩

/-- **What the parser makes of a stored message**: keys of a kind that the names of the other
headers have, but not that of the first one, unless it is behind the start of the body. -/
theorem storedMail_inv {P : List MboxChar → Prop} (hfields : m.fields = f :: fs)
    (hdata : buf.data.drop buf.offset = m.head ++ (m.body ++ nul :: rest))
    (hlen : buf.len = buf.offset + (m.head ++ m.body).length)
    (hfromP : P (str "__FROM_LINE__")) (hcolon : ∀ K, colon ∈ K → P K)
    (hfirst : P (m.fromLine.filter (· ≠ cr) ++ f.name)) (hP : ∀ g ∈ fs, P g.name)
    (hrun : mboxParseEmailHeaders fill buf h n = ok (h', t', buf')) :
    (∃ snt, TreeOf snt P h' t') ∨ buf.offset + m.head.length < buf'.offset := by
  obtain ⟨⟨h₀, t₀⟩, hnew, hrun⟩ := bind_eq_ok hrun
  obtain ⟨snt, htree⟩ := treeOf_new P hnew
  obtain ⟨k, hscan, hrun⟩ := bind_eq_ok hrun
  obtain ⟨ctx', hloop, hrun⟩ := bind_eq_ok hrun
  cases hrun
  -- it stands at the From line
  have hdata₀ : buf.data.drop buf.offset =
      m.fromLine ++ nl ::
        (fieldLines m.fields ++ (eol m.emptyCrlf ++ (m.body ++ nul :: rest))) := by
    rw [hdata, StoredMail.head]
    simp
  obtain rfl : k = 0 := by
    have hF : buf.data.drop buf.offset = [] ++ 70 :: ((buf.data.drop buf.offset).drop 1) := by
      rw [hdata₀]
      rfl
    rw [hF, scanUntil_append (by simp) (by decide)] at hscan
    cases hscan
    rfl
  have hhead : m.head.length =
      m.fromLine.length + 1 + (fieldLines m.fields).length + (eol m.emptyCrlf).length := by
    simp only [StoredMail.head, List.length_append, List.length_cons]
    omega
  rw [List.length_append] at hlen
  have hB : buf.offset + m.head.length ≤ buf.len := by omega
  have hready : HeaderCtx.Ready snt P
      ⟨buf.offset + 0, mboxBufAlloc fill 3000, mboxBufAlloc fill 3000, h₀, t₀⟩ :=
    ⟨mboxBufAlloc_sound fill 3000, List.take_zero, mboxBufAlloc_sound fill 3000, htree⟩
  cases n with
  | zero => cases hloop
  | succ n =>
    obtain ⟨r, hstep, hrun⟩ := bind_eq_ok hloop
    rw [hfields] at hdata₀ hhead
    have hnext : ∀ g ∈ (f :: fs).head?, P (m.fromLine.filter (· ≠ cr) ++ g.name) := by
      intro g hg
      cases hg
      exact hfirst
    have hoffset : buf.offset + 0 + m.fromLine.length + 1 + (fieldLines (f :: fs)).length +
        (eol m.emptyCrlf).length = buf.offset + m.head.length := by
      rw [hhead]
      simp only [Nat.add_assoc, Nat.zero_add]
    have hword : fromWord <+: m.fromLine := by
      rw [StoredMail.fromLine, List.append_assoc]
      exact List.prefix_append ..
    rcases step_fromLine hB hready hfromP m.nl_notMem_fromLine hword hdata₀ hoffset hnext hstep
      with ⟨g, gs, heq, hr⟩ | hlt
    · cases heq
      cases r with
      | inl ctx₁ =>
        exact (headers_inv hB hfromP hcolon hP hr.1 hr.2.1 hr.2.2 hrun).imp_left fun ht =>
          ⟨snt, ht⟩
      | inr ctx₁ =>
        cases hrun
        exact Or.inl ⟨snt, hr⟩
    · exact Or.inr (behind_of_step hloop hstep hlt)

/-- **The name of the first header is no key**: it is stored behind the name of the From line. -/
theorem first_notMem (hfields : m.fields = f :: fs)
    (hdata : buf.data.drop buf.offset = m.head ++ (m.body ++ nul :: rest))
    (hlen : buf.len = buf.offset + (m.head ++ m.body).length)
    (hname : f.name ≠ str "__FROM_LINE__")
    (hrun : mboxParseEmailHeaders fill buf h n = ok (h', t', buf'))
    (hoffset : buf'.offset = buf.offset + m.head.length) :
    ∃ snt T, IsRbTree mboxBufCaseCmp snt h' t' T ∧
      f.name ∉ (entriesOf T).map fun e => e.1.bytes := by
  have hfirst : m.fromLine.filter (· ≠ cr) ++ f.name ≠ f.name := by
    -- there is an F in front of the name
    intro heq
    have hlength := congrArg List.length heq
    have hmem : (70 : MboxChar) ∈ m.fromLine.filter (· ≠ cr) :=
      List.mem_filter.2 ⟨List.mem_cons_self .., by decide⟩
    rw [List.length_append] at hlength
    have hpos := List.length_pos_of_mem hmem
    omega
  have hothers : ∀ g ∈ fs, g.name ≠ f.name := by
    intro g hg heq
    have hapart := m.fields_apart
    rw [hfields, List.pairwise_cons] at hapart
    refine hapart.1 g hg ?_
    rw [heq]
    exact isComparator_caseCmp.refl _
  rcases storedMail_inv (P := (· ≠ f.name)) hfields hdata hlen (Ne.symm hname)
    (fun K hK heq => f.name_plain.1 (heq ▸ hK)) hfirst hothers hrun with ⟨snt, T, hT, hkeys⟩ | hlt
  · refine ⟨snt, T, hT, fun hmem => ?_⟩
    obtain ⟨e, he, heq⟩ := List.mem_map.1 hmem
    exact hkeys e he heq
  · exact absurd hlt (hoffset ▸ Nat.lt_irrefl _)

theorem keys_nodup {snt : RbNode MboxBuf MboxBuf} {T : RBTree (RbEntry MboxBuf MboxBuf)}
    (ht : IsRbTree mboxBufCaseCmp snt h' t' T) :
    ((entriesOf T).map fun e => e.1.bytes).Nodup := by
  refine List.pairwise_map.2 ((entriesOf_ascending ht).imp fun {x y} hlt heq => ?_)
  rw [mboxBufCaseCmp_eq, heq, isComparator_caseCmp.refl] at hlt
  exact absurd hlt (lt_irrefl _)

/-- A message that is read right has the keys it should have, each of them once. -/
theorem HeadersRead.exists_keys (hread : HeadersRead fill h buf m) :
    ∃ n h' t' buf', mboxParseEmailHeaders fill buf h n = ok (h', t', buf') ∧
      buf'.offset = buf.offset + m.head.length ∧
      ∀ snt T, IsRbTree mboxBufCaseCmp snt h' t' T →
        ((entriesOf T).map fun e => e.1.bytes).Perm
          (str "__FROM_LINE__" :: m.fields.map Field.name) := by
  obtain ⟨h', t', buf', L, hparse, heach, hperm, hoffset⟩ := hread
  obtain ⟨n, hn⟩ := hparse.exists_ok
  refine ⟨n, h', t', buf', hn, hoffset, fun snt T hT => ?_⟩
  obtain rfl := heach.unique hT.forEach_collect
  have hkeys := hperm.map fun e => e.1.getD []
  simpa [Function.comp_def] using hkeys

end Whole

/-- A message of one header, its date. -/
def dateMail : StoredMail where
  fromText := str "alice"
  fromCrlf := false
  fields := [⟨str "Date", str "today", false, by decide, by decide, by decide, by decide,
    by decide, by decide⟩]
  emptyCrlf := false
  body := str "Hello"
  fromText_nl := by decide
  fields_ne := List.cons_ne_nil _ _
  fields_apart := List.pairwise_singleton _ _

/-- That message in a buffer. -/
def dateBuf : MboxBuf := ⟨dateMail.head ++ (dateMail.body ++ [nul]), 0, 29, 30⟩

/-- **The headers of a stored message are never read right**: the name of the From line is left in
the key buffer, so the first header is stored under both names together. -/
theorem not_headersRead (fill : ℕ → MboxChar) (h : HeaderHeap) (m : StoredMail) (buf : MboxBuf)
    (rest : List MboxChar)
    (hdata : buf.data.drop buf.offset = m.head ++ (m.body ++ nul :: rest))
    (hlen : buf.len = buf.offset + (m.head ++ m.body).length) :
    ¬ HeadersRead fill h buf m := by
  intro hread
  obtain ⟨n, h', t', buf', hrun, hoffset, hkeys⟩ := hread.exists_keys
  obtain ⟨f, fs, hfields⟩ := List.exists_cons_of_ne_nil m.fields_ne
  rw [hfields, List.map_cons] at hkeys
  by_cases hname : f.name = str "__FROM_LINE__"
  · -- there would have to be two entries with this key
    rcases storedMail_inv (P := fun _ => True) hfields hdata hlen trivial (fun _ _ => trivial)
      trivial (fun _ _ => trivial) hrun with ⟨snt, T, hT, -⟩ | hlt
    · have hnodup := (hkeys snt T hT).nodup (keys_nodup hT)
      rw [hname] at hnodup
      exact (List.nodup_cons.1 hnodup).1 (List.mem_cons_self ..)
    · exact absurd hlt (hoffset ▸ Nat.lt_irrefl _)
  · obtain ⟨snt, T, hT, hnot⟩ := first_notMem hfields hdata hlen hname hrun hoffset
    exact hnot ((hkeys snt T hT).mem_iff.2 (List.mem_cons_of_mem _ (List.mem_cons_self ..)))

/-- The same message without a body is not read as it says either. -/
theorem not_headersRead_date :
    ¬ HeadersRead (fun _ => nul) ⟨[some ⟨none, none, .red, none, none, none⟩]⟩
      ⟨dateMail.head ++ [nul], 0, 24, 25⟩ { dateMail with body := [] } :=
  not_headersRead _ _ _ _ [] rfl rfl

/-- The `Date` header is stored under `From aliceDate`, so the message has no date. -/
theorem date_notRead :
    ¬ HeadersRead (fun _ => nul) ⟨[some ⟨none, none, .red, none, none, none⟩]⟩ dateBuf
      dateMail := by
  intro hread
  obtain ⟨n, h', t', buf', hrun, hoffset, hkeys⟩ := hread.exists_keys
  have hdata : dateBuf.data.drop dateBuf.offset =
      dateMail.head ++ (dateMail.body ++ nul :: []) := rfl
  obtain ⟨snt, T, hT, hnot⟩ := first_notMem rfl hdata rfl (by decide) hrun hoffset
  exact hnot ((hkeys snt T hT).mem_iff.2 (List.mem_cons_of_mem _ (List.mem_cons_self ..)))

end Libmbox2
