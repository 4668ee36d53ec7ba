import Libmbox2.HeaderLines

/-!
# Headers without a From line

Headers that are written out as names and lines of values, and that nothing in front of a name
spoils: what is written is described by the grammar of the parser (`headerBlock_render`), so it is
read back. The names are apart, so every one of them is kept, and found in any letter case.
-/

namespace Libmbox2

open CSem CSem.Exec

/-! ## Headers as they are written -/

/-- A line of a value, and how it ends. -/
structure FoldedLine where
  text : List MboxChar
  /-- whether the line ends with a CR -/
  crlf : Bool
  text_nl : nl ∉ text

/-- A line as it stands in the message, with its line ending. -/
def FoldedLine.render (l : FoldedLine) : List MboxChar := l.text ++ eol l.crlf

/-- What the lines of a value make together: their texts without carriage returns and tabs, one
behind the other. -/
def foldedValue (lines : List FoldedLine) : List MboxChar :=
  unfolded (lines.flatMap FoldedLine.text)

/-- A header with a value of any number of lines. -/
structure FoldedField where
  name : List MboxChar
  first : FoldedLine
  more : List FoldedLine
  name_ne : name ≠ []
  name_plain : colon ∉ name ∧ cr ∉ name ∧ nl ∉ name ∧ nul ∉ name
  name_head : name.head? ≠ some space ∧ name.head? ≠ some tab ∧ ¬ fromWord <+: name
  more_head : ∀ l ∈ more, l.text.head? = some space ∨ l.text.head? = some tab
  value_ne : foldedValue (first :: more) ≠ []
  value_plain : nul ∉ foldedValue (first :: more) ∧ ¬ MimeEncoded (foldedValue (first :: more))

namespace FoldedField

variable (f : FoldedField)

/-- The value of a header, over all of its lines. -/
def value : List MboxChar := foldedValue (f.first :: f.more)

/-- A header as it stands in the message: the name, `": "`, and the lines of the value. -/
def render : List MboxChar :=
  f.name ++ colon :: space :: (f.first :: f.more).flatMap FoldedLine.render

end FoldedField

/-- A name begins with another one, ignoring case. -/
def namePrefix (s t : List MboxChar) : Prop := s.map tolower <+: t.map tolower

instance (s t : List MboxChar) : Decidable (namePrefix s t) :=
  inferInstanceAs (Decidable (_ <+: _))

/-- A message without a From line: headers of which no name begins with another one, an empty line,
and a body. -/
structure FoldedMail where
  fields : List FoldedField
  emptyCrlf : Bool
  body : List MboxChar
  fields_ne : fields ≠ []
  fields_apart : fields.Pairwise fun f g => ¬ namePrefix f.name g.name ∧ ¬ namePrefix g.name f.name
  body_head : body.head? ≠ some cr ∧ body.head? ≠ some nl

/-- What is in front of the body: the headers and the empty line. -/
def FoldedMail.head (m : FoldedMail) : List MboxChar :=
  m.fields.flatMap FoldedField.render ++ eol m.emptyCrlf

/-- The parser gives a tree in which every name is found in any letter case, with its value, and
which has no other entries, and it is on the body. -/
def FoldedRead (fill : ℕ → MboxChar) (h : HeaderHeap) (buf : MboxBuf) (m : FoldedMail) : Prop :=
  ∃ h' t' buf', ∃ L : List (Option MboxBuf × Option MboxBuf),
    Converges (mboxParseEmailHeaders fill buf h) (h', t', buf') ∧
    (∀ f ∈ m.fields, ∀ k : MboxBuf, sameName k.bytes f.name →
      ∃ value, Converges (fun n => mboxRBTreeGet mboxBufCaseCmp h' t' n k) (some value) ∧
        value.bytes = f.value) ∧
    Converges (fun n => mboxRBTreeForEach h' t' (fun k v acc => ok (acc ++ [(k, v)])) n []) L ∧
    (L.map fun e => (e.1.map MboxBuf.bytes, e.2.map MboxBuf.bytes)).Perm
      (m.fields.map fun f => (some f.name, some f.value)) ∧
    buf'.offset = buf.offset + m.head.length

/-! ## What is written is described by the grammar -/

section Render

variable {blank rest : List MboxChar}

/-- A line ending is a newline, with or without a carriage return. -/
theorem eol_eq (crlf : Bool) : eol crlf = (if crlf then [cr] else []) ++ [nl] := by
  cases crlf <;> rfl

/-- What is kept of two texts is kept of each. -/
theorem unfolded_append (xs ys : List MboxChar) :
    unfolded (xs ++ ys) = unfolded xs ++ unfolded ys := List.filter_append ..

/-- A value begins with what is kept of its first line. -/
theorem foldedValue_cons (l : FoldedLine) (lines : List FoldedLine) :
    foldedValue (l :: lines) = unfolded l.text ++ foldedValue lines := by
  rw [foldedValue, List.flatMap_cons, unfolded_append]
  rfl

/-- A line is a text up to its newline, of which as much is kept. -/
theorem FoldedLine.render_append (l : FoldedLine) (r : List MboxChar) :
    ∃ text, l.render ++ r = text ++ nl :: r ∧ nl ∉ text ∧ unfolded text = unfolded l.text := by
  refine ⟨l.text ++ if l.crlf then [cr] else [], ?_, ?_, ?_⟩
  · rw [render, eol_eq]
    simp
  · have htext := l.text_nl
    have hcr : nl ≠ cr := by decide
    cases l.crlf <;> simp [htext, hcr]
  · rw [unfolded_append]
    cases l.crlf <;> simp [unfolded]

/-- Lines of which all but the first begin with a blank are the lines of one value. -/
theorem valueLines_render (hrest : beginsBlank rest = false) {more : List FoldedLine}
    (hmore : ∀ l ∈ more, l.text.head? = some space ∨ l.text.head? = some tab) (l : FoldedLine) :
    ValueLines ((l :: more).flatMap FoldedLine.render ++ rest) (foldedValue (l :: more)) rest := by
  induction more generalizing l with
  | nil =>
    obtain ⟨text, heq, hnl, hkept⟩ := l.render_append rest
    have hlast := ValueLines.last hnl hrest
    rw [hkept, ← heq] at hlast
    simpa [foldedValue] using hlast
  | cons l' more ih =>
    have hlines := ih (fun x hx => hmore x (List.mem_cons_of_mem _ hx)) l'
    obtain ⟨text, heq, hnl, hkept⟩ :=
      l.render_append ((l' :: more).flatMap FoldedLine.render ++ rest)
    have hblank : beginsBlank ((l' :: more).flatMap FoldedLine.render ++ rest) = true := by
      have hhead := hmore l' (List.mem_cons_self ..)
      obtain ⟨x, xs, htext⟩ : ∃ x xs, l'.text = x :: xs := by
        cases htext : l'.text with
        | nil =>
          rw [htext] at hhead
          simp at hhead
        | cons x xs => exact ⟨x, xs, rfl⟩
      rw [htext] at hhead
      simpa [FoldedLine.render, htext, beginsBlank] using hhead
    have hmore' := ValueLines.more hnl hblank hlines
    rw [hkept, ← heq, ← foldedValue_cons, ← List.append_assoc] at hmore'
    exact hmore'

/-- The first byte of a header is that of its name. -/
theorem FoldedField.exists_render (f : FoldedField) :
    ∃ c s, f.render = c :: s ∧ c ≠ space ∧ c ≠ tab ∧ isLine c = false := by
  obtain ⟨c, s, hname⟩ := List.exists_cons_of_ne_nil f.name_ne
  have hhead := f.name_head
  have hplain := f.name_plain
  rw [hname] at hhead hplain
  refine ⟨c, _, by rw [render, hname, List.cons_append], ?_, ?_, ?_⟩
  · simpa using hhead.1
  · simpa using hhead.2.1
  · have hcr : c ≠ cr := fun heq => hplain.2.1 (heq ▸ List.mem_cons_self ..)
    have hnl : c ≠ nl := fun heq => hplain.2.2.1 (heq ▸ List.mem_cons_self ..)
    simp [isLine, hcr, hnl]

/-- A header is what an iteration reads, and is stored with its name and value. -/
theorem FoldedField.headerLines (f : FoldedField) (blank : List MboxChar)
    (hrest : beginsBlank rest = false) :
    HeaderLines blank (f.render ++ rest) [(f.name, f.value)] rest := by
  have heq : f.render ++ rest = f.name ++ colon :: space ::
      ((f.first :: f.more).flatMap FoldedLine.render ++ rest) := by
    rw [render]
    simp
  have hstored : storedValue f.value = f.value := if_neg f.value_plain.2
  have hdecodes : Decodes blank f.value :=
    ⟨fun henc => absurd henc f.value_plain.2, fun hnil => absurd hnil f.value_ne⟩
  have hnamed : NamedLines blank [] (f.render ++ rest) ([] ++ f.name, storedValue f.value) rest :=
    heq ▸ NamedLines.mk f.name_plain.1 (valueLines_render hrest f.more_head f.first) hdecodes
  rw [hstored] at hnamed
  refine HeaderLines.named ?_ hnamed
  rw [heq, prefix_terminated_iff (by decide)]
  exact f.name_head.2.2

/-- What may come behind a header: the next one, or the empty line. -/
theorem headerBlock_fields {fs : List FoldedField} (hne : fs ≠ []) (crlf : Bool)
    {body : List MboxChar} (hbody : beginsLine body = false) :
    HeaderBlock blank (fs.flatMap FoldedField.render ++ (eol crlf ++ body))
      (fs.map fun f => (f.name, f.value)) body := by
  induction fs generalizing blank with
  | nil => exact absurd rfl hne
  | cons f fs ih =>
    rw [List.flatMap_cons, List.append_assoc, List.map_cons]
    cases fs with
    | nil =>
      have hblank : beginsBlank (eol crlf ++ body) = false := by cases crlf <;> rfl
      have hline : beginsLine (eol crlf ++ body) = true := by cases crlf <;> rfl
      have hdrop : (eol crlf ++ body).dropWhile isLine = body := by
        cases crlf <;> exact dropWhile_isLine hbody
      have hlast := HeaderBlock.last (f.headerLines blank hblank) hline
      rw [hdrop] at hlast
      exact hlast
    | cons g fs =>
      obtain ⟨c, s, hc, hspace, htab, hline⟩ := g.exists_render
      have hgoes : beginsBlank ((g :: fs).flatMap FoldedField.render ++ (eol crlf ++ body)) =
          false := by
        simp [hc, beginsBlank, hspace, htab]
      have hnext : beginsLine ((g :: fs).flatMap FoldedField.render ++ (eol crlf ++ body)) =
          false := by
        simp [hc, beginsLine, hline]
      exact HeaderBlock.more (f.headerLines blank hgoes) hnext (ih (List.cons_ne_nil _ _))

/-- **The headers of a message** are a block of headers: each is stored under its own name, with the
texts of its lines. -/
theorem headerBlock_render (blank : List MboxChar) (m : FoldedMail) :
    HeaderBlock blank (m.head ++ m.body) (m.fields.map fun f => (f.name, f.value)) m.body := by
  have hbody : beginsLine m.body = false := by
    obtain ⟨hcr, hnl⟩ := m.body_head
    cases hbody : m.body with
    | nil => rfl
    | cons c body =>
      rw [hbody] at hcr hnl
      simpa [beginsLine, isLine] using And.intro hcr hnl
  rw [FoldedMail.head, List.append_assoc]
  exact headerBlock_fields m.fields_ne m.emptyCrlf hbody

end Render

/-! ## Apart names -/

section Names

variable {s t : List MboxChar}

/-- What is taken for a name begins with it, or the other way round. -/
theorem namePrefix_of_caseCmp (hnul : nul ∉ s) (h : caseCmp s t = 0) :
    namePrefix s t ∨ namePrefix t s := by
  induction s generalizing t with
  | nil => exact Or.inl (List.nil_prefix ..)
  | cons a s ih =>
    cases t with
    | nil => exact Or.inr (List.nil_prefix ..)
    | cons b t =>
      rw [List.mem_cons, not_or] at hnul
      obtain ⟨hab, ha | hst⟩ := caseCmp_eq.1 h
      · exact absurd ha.symm hnul.1
      · rw [namePrefix, namePrefix, List.map_cons, List.map_cons, hab,
          List.prefix_cons_inj, List.prefix_cons_inj]
        exact ih hnul.2 hst

/-- A name without a NUL has none in another case. -/
theorem nul_notMem_of_sameName (hst : sameName s t) (ht : nul ∉ t) : nul ∉ s := by
  intro hs
  have hmem : nul ∈ t.map tolower := hst ▸ List.mem_map.2 ⟨nul, hs, rfl⟩
  obtain ⟨c, hc, hcn⟩ := List.mem_map.1 hmem
  exact ht (tolower_eq_nul.1 hcn ▸ hc)

/-- The comparison of the dictionary tells the names of a message apart. -/
theorem FoldedMail.fields_caseCmp (m : FoldedMail) :
    m.fields.Pairwise fun f g => caseCmp f.name g.name ≠ 0 := by
  refine m.fields_apart.imp fun {f g} hapart heq => ?_
  rcases namePrefix_of_caseCmp f.name_plain.2.2.2 heq with hpre | hpre
  · exact hapart.1 hpre
  · exact hapart.2 hpre

end Names

/-! ## What is found in the tree -/

section Found

variable {snt : RbNode MboxBuf MboxBuf} {h : HeaderHeap} {t : MboxRBTree}
  {es : List (List MboxChar × List MboxChar)} {e : List MboxChar × List MboxChar}

variable (ht : TreeHolds snt h t es) (hapart : es.Pairwise fun x y => caseCmp x.1 y.1 ≠ 0)

include ht hapart

/-- Of entries whose names are apart, all are in the tree. -/
theorem TreeHolds.exists_perm :
    ∃ T, IsRbTree mboxBufCaseCmp snt h t T ∧
      (contentsOf T).Perm (es.map fun e => (e.1, some e.2)) := by
  obtain ⟨T, hT, hperm, -⟩ := ht
  rw [firstWrites_of_pairwise] at hperm
  · exact ⟨T, hT, hperm⟩
  · refine List.pairwise_map.2 (hapart.imp fun {x y} hne heq => hne ?_)
    exact isComparator_caseCmp.eq_symm heq

/-- A header that is held is found under its name, in any case. -/
theorem TreeHolds.get (hnames : ∀ e ∈ es, nul ∉ e.1) (he : e ∈ es) {k : MboxBuf}
    (hk : sameName k.bytes e.1) :
    ∃ value, Converges (fun n => mboxRBTreeGet mboxBufCaseCmp h t n k) (some value) ∧
      value.bytes = e.2 := by
  obtain ⟨T, hT, hperm⟩ := ht.exists_perm hapart
  rcases hT.get_spec isComparator_mboxBufCaseCmp k with ⟨x, hx, hkx, hget⟩ | ⟨hnone, -⟩
  · obtain ⟨y, hy, hyx⟩ := List.mem_map.1
      (hperm.mem_iff.1 (List.mem_map_of_mem (f := fun e : MboxBuf × Option MboxBuf =>
        (e.1.bytes, e.2.map MboxBuf.bytes)) hx))
    obtain ⟨hname, hvalue⟩ := Prod.mk.inj hyx
    -- what is found is taken for the name, as the name itself is
    have hey : caseCmp e.1 y.1 = 0 := by
      rw [mboxBufCaseCmp_eq, ← hname, ← List.append_nil k.bytes] at hkx
      exact caseCmp_of_taken (nul_notMem_of_sameName hk (hnames e he)) hk hkx
    have heq : e = y := by
      by_contra hne
      have hsymm : Std.Symm fun x y : List MboxChar × List MboxChar => caseCmp x.1 y.1 ≠ 0 :=
        ⟨fun x y hxy hyx => hxy (isComparator_caseCmp.eq_symm hyx)⟩
      exact hapart.forall he hy hne hey
    obtain ⟨value, hx2, hbytes⟩ := Option.map_eq_some_iff.1 hvalue.symm
    rw [hx2] at hget
    exact ⟨value, hget, by rw [hbytes, heq]⟩
  · have hmem := hperm.mem_iff.2 (List.mem_map_of_mem (f := fun e => (e.1, some e.2)) he)
    obtain ⟨x, hx, hxe⟩ := List.mem_map.1 hmem
    refine absurd ?_ (hnone x hx)
    rw [mboxBufCaseCmp_eq, (Prod.mk.inj hxe).1, ← List.append_nil k.bytes]
    exact caseCmp_of_sameName hk

/-- Going over the dictionary gives the headers that are held, each once. -/
theorem TreeHolds.collect :
    ∃ L : List (Option MboxBuf × Option MboxBuf),
      Converges (fun n => mboxRBTreeForEach h t (fun k v acc => ok (acc ++ [(k, v)])) n []) L ∧
      (L.map fun e => (e.1.map MboxBuf.bytes, e.2.map MboxBuf.bytes)).Perm
        (es.map fun e => (some e.1, some e.2)) := by
  obtain ⟨T, hT, hperm⟩ := ht.exists_perm hapart
  refine ⟨_, hT.forEach_collect, ?_⟩
  have hmap := hperm.map fun e => (some e.1, e.2)
  simpa [contentsOf, Function.comp_def] using hmap

end Found

/-- **Headers without a From line are read back**: each is found under its name in any case, with
the texts of its lines put together, nothing else is in the dictionary, and the reader stands at the
body. -/
theorem foldedRead (fill : ℕ → MboxChar) {h : HeaderHeap} {snt : RbNode MboxBuf MboxBuf}
    (hsnt : h.get rbSentinal = some snt) (m : FoldedMail) (buf : MboxBuf) (tail : List MboxChar)
    (hdata : buf.data.drop buf.offset = m.head ++ (m.body ++ nul :: tail))
    (hlen : buf.len = buf.offset + (m.head ++ m.body).length) : FoldedRead fill h buf m := by
  have hat : buf.LeftAt (nul :: tail) buf.offset (m.head ++ m.body) :=
    ⟨by rw [hdata, List.append_assoc], hlen.symm⟩
  -- nothing is in front of the first name
  have hstart : (m.head ++ m.body).dropWhile isLine = m.head ++ m.body := by
    obtain ⟨f, fs, hfields⟩ := List.exists_cons_of_ne_nil m.fields_ne
    obtain ⟨c, s, hc, -, -, hline⟩ := f.exists_render
    rw [FoldedMail.head, hfields, List.flatMap_cons, hc]
    exact List.dropWhile_cons_of_neg (by simp [hline])
  obtain ⟨snt', h', t', o, hconv, htree, hleft⟩ :=
    HeaderBlock.parse fill hsnt (hstart.symm ▸ headerBlock_render _ m) hat (Ended.nul ..)
  have hapart : (m.fields.map fun f => (f.name, f.value)).Pairwise fun x y =>
      caseCmp x.1 y.1 ≠ 0 := List.pairwise_map.2 m.fields_caseCmp
  have hnames : ∀ e ∈ m.fields.map fun f => (f.name, f.value), nul ∉ e.1 := by
    rintro e he
    obtain ⟨f, -, rfl⟩ := List.mem_map.1 he
    exact f.name_plain.2.2.2
  obtain ⟨L, heach, hperm⟩ := htree.collect hapart
  rw [List.map_map] at hperm
  refine ⟨h', t', _, L, hconv, fun f hf k hk => ?_, heach, hperm, ?_⟩
  · have hmem : (f.name, f.value) ∈ m.fields.map fun f => (f.name, f.value) :=
      List.mem_map_of_mem hf
    exact htree.get hapart hnames hmem hk
  · have ho := hleft.len
    rw [hlen, List.length_append] at ho
    rw [mboxBufSetOffset_offset]
    omega

/-- A value of two lines, and one of one line. -/
def foldedMail : FoldedMail where
  fields := [⟨str "Subject", ⟨str "ab", true, by decide⟩, [⟨str "\tc d", false, by decide⟩],
      by decide, by decide, by decide, by decide, by decide, by decide⟩,
    ⟨str "To", ⟨str "e", false, by decide⟩, [], by decide, by decide, by decide, by decide,
      by decide, by decide⟩]
  emptyCrlf := true
  body := str "Hi"
  fields_ne := List.cons_ne_nil _ _
  fields_apart := by decide
  body_head := by decide

/-- A message of two headers, the second folded over two lines. -/
theorem foldedRead_two :
    FoldedRead (fun _ => nul) headerHeapNew
      ⟨str "Subject: ab\r\n\tc d\nTo: e\n\r\nHi" ++ [nul], 0, 28, 29⟩ foldedMail :=
  foldedRead (fun _ => nul) rfl foldedMail
    ⟨str "Subject: ab\r\n\tc d\nTo: e\n\r\nHi" ++ [nul], 0, 28, 29⟩ [] (by decide) (by decide)

end Libmbox2
