import Libmbox2.HeaderLines

/-!
# The shape of the headers of a message

`HeaderBlock` describes the messages whose headers the parser gets over, and that depends on the
values: one that is MIME-encoded is decoded from memory that is not its own. Whether a message is
well formed does not, so its shape has a grammar that leaves the values as they are
(`HeaderShape`). There is at most one way to read a message by it (`HeaderShape.unique`), and the
parser gets over the headers exactly when it gets over their values (`headerBlock_iff`).
-/

namespace Libmbox2

/-- A header as it stands in a message: the line that begins with `From ` in front of it, if there
is one, without its carriage returns; its name; and the value that its lines make. -/
structure RawHeader where
  fromLine : Option (List MboxChar)
  name : List MboxChar
  value : List MboxChar
  deriving DecidableEq, Repr

/-- What goes into the tree of headers: the `From ` line under a name of its own, and the value
under the header's name, with the `From ` line still in front of it. -/
def RawHeader.stored (x : RawHeader) : List (List MboxChar × List MboxChar) :=
  (x.fromLine.map fun line => (str "__FROM_LINE__", line)).toList ++
    [(x.fromLine.getD [] ++ x.name, storedValue x.value)]

/-- A header in front of the rest of the message. The name ends at the first `:`; the byte behind
it is passed whatever it is. -/
inductive RawLines : List MboxChar → RawHeader → List MboxChar → Prop where
  /-- a header alone -/
  | named {name c text value rest} : ¬ fromWord <+: name ++ colon :: c :: text → colon ∉ name →
      ValueLines text value rest → RawLines (name ++ colon :: c :: text) ⟨none, name, value⟩ rest
  /-- a header behind a `From ` line -/
  | fromLine {line name c text value rest} : nl ∉ line → fromWord <+: line → colon ∉ name →
      ValueLines text value rest →
      RawLines (line ++ nl :: (name ++ colon :: c :: text))
        ⟨some (line.filter (· ≠ cr)), name, value⟩ rest

/-- The headers of a well-formed message, and what is behind them and the line endings that end
them. -/
inductive HeaderShape : List MboxChar → List RawHeader → List MboxChar → Prop where
  /-- no bytes -/
  | nil : HeaderShape [] [] []
  /-- the last header, in front of an empty line -/
  | last {r x rest} : RawLines r x rest → beginsLine rest = true →
      HeaderShape r [x] (rest.dropWhile isLine)
  /-- a header in front of others, or of nothing -/
  | more {r x r' xs rest} : RawLines r x r' → beginsLine r' = false → HeaderShape r' xs rest →
      HeaderShape r (x :: xs) rest

/-- The parser gets over the values: none of them is MIME-encoded with anything in between, and the
first one is not looked for, being empty, in a fresh block that happens to look encoded. -/
def HeadersDecode : List MboxChar → List RawHeader → Prop
  | _, [] => True
  | blank, x :: xs => Decodes blank x.value ∧ HeadersDecode [] xs

section Unique

variable {r rest rest' value value' blank : List MboxChar} {x x' : RawHeader}
  {xs xs' : List RawHeader} {es : List (List MboxChar × List MboxChar)}

/-- A list is cut at the first place an element is at in one way. -/
theorem append_cons_inj {α : Type} {x : α} {a b c d : List α} (ha : x ∉ a) (hb : x ∉ b)
    (h : a ++ x :: c = b ++ x :: d) : a = b ∧ c = d := by
  induction a generalizing b with
  | nil =>
    cases b with
    | nil => exact ⟨rfl, (List.cons.inj h).2⟩
    | cons y b => exact absurd (by rw [(List.cons.inj h).1]; exact List.mem_cons_self ..) hb
  | cons z a ih =>
    cases b with
    | nil => exact absurd (by rw [← (List.cons.inj h).1]; exact List.mem_cons_self ..) ha
    | cons y b =>
      obtain ⟨rfl, hrest⟩ := List.cons.inj h
      obtain ⟨rfl, hcd⟩ := ih (fun hmem => ha (List.mem_cons_of_mem _ hmem))
        (fun hmem => hb (List.mem_cons_of_mem _ hmem)) hrest
      exact ⟨rfl, hcd⟩

/-- A value begins with a line of it; the next one goes on with it or does not. -/
theorem ValueLines.exists_line (h : ValueLines r value rest) : ∃ text r', nl ∉ text ∧
    r = text ++ nl :: r' ∧ (beginsBlank r' = false ∧ value = unfolded text ∧ rest = r' ∨
      beginsBlank r' = true ∧
        ∃ value', ValueLines r' value' rest ∧ value = unfolded text ++ value') := by
  cases h with
  | last hnl hblank => exact ⟨_, _, hnl, rfl, Or.inl ⟨hblank, rfl, rfl⟩⟩
  | more hnl hblank hrest => exact ⟨_, _, hnl, rfl, Or.inr ⟨hblank, _, hrest, rfl⟩⟩

/-- The lines of a value can be read in one way only. -/
theorem ValueLines.unique (h : ValueLines r value rest) (h' : ValueLines r value' rest') :
    value = value' ∧ rest = rest' := by
  induction h generalizing value' with
  | @last text rest hnl hblank =>
    obtain ⟨text', r', hnl', heq, hcase⟩ := h'.exists_line
    obtain ⟨rfl, rfl⟩ := append_cons_inj hnl hnl' heq
    rcases hcase with ⟨-, rfl, rfl⟩ | ⟨hblank', -⟩
    · exact ⟨rfl, rfl⟩
    · rw [hblank] at hblank'
      cases hblank'
  | @more text r₁ value₁ rest₁ hnl hblank hrest ih =>
    obtain ⟨text', r', hnl', heq, hcase⟩ := h'.exists_line
    obtain ⟨rfl, rfl⟩ := append_cons_inj hnl hnl' heq
    rcases hcase with ⟨hblank', -⟩ | ⟨-, value₂, hrest', rfl⟩
    · rw [hblank] at hblank'
      cases hblank'
    · obtain ⟨rfl, rfl⟩ := ih hrest'
      exact ⟨rfl, rfl⟩

/-- So can a header from its name on, as there is no colon in a name. -/
theorem named_unique {name name' text text' : List MboxChar} {c c' : MboxChar}
    (hname : colon ∉ name) (hname' : colon ∉ name') (h : ValueLines text value rest)
    (h' : ValueLines text' value' rest')
    (heq : name ++ colon :: c :: text = name' ++ colon :: c' :: text') :
    name = name' ∧ value = value' ∧ rest = rest' := by
  obtain ⟨rfl, hcons⟩ := append_cons_inj hname hname' heq
  obtain ⟨-, rfl⟩ := List.cons.inj hcons
  exact ⟨rfl, h.unique h'⟩

/-- A line that begins with `From ` makes all that it begins do so. -/
theorem fromWord_append {line : List MboxChar} (h : fromWord <+: line) (r : List MboxChar) :
    fromWord <+: line ++ r := h.trans (List.prefix_append line r)

/-- So can what an iteration reads. -/
theorem RawLines.unique (h : RawLines r x rest) (h' : RawLines r x' rest') :
    x = x' ∧ rest = rest' := by
  generalize hr : r = r' at h'
  cases h with
  | @named name c text value rest hfrom hname hvalue =>
    cases h' with
    | named _ hname' hvalue' =>
      obtain ⟨rfl, rfl, rfl⟩ := named_unique hname hname' hvalue hvalue' hr
      exact ⟨rfl, rfl⟩
    | fromLine _ hline => exact absurd (hr ▸ fromWord_append hline _) hfrom
  | @fromLine line name c text value rest hnl hline hname hvalue =>
    cases h' with
    | named hfrom => exact absurd (hr ▸ fromWord_append hline _) hfrom
    | fromLine hnl' _ hname' hvalue' =>
      obtain ⟨rfl, hbehind⟩ := append_cons_inj hnl hnl' hr
      obtain ⟨rfl, rfl, rfl⟩ := named_unique hname hname' hvalue hvalue' hbehind
      exact ⟨rfl, rfl⟩

theorem RawLines.ne_nil (h : RawLines r x rest) : r ≠ [] := by
  cases h with
  | named => exact List.append_ne_nil_of_right_ne_nil _ (List.cons_ne_nil _ _)
  | fromLine => exact List.append_ne_nil_of_right_ne_nil _ (List.cons_ne_nil _ _)

/-- **A message has one shape**: which headers it has, what was on their lines, and what is behind
them can be read off its bytes in one way. -/
theorem HeaderShape.unique (h : HeaderShape r xs rest) (h' : HeaderShape r xs' rest') :
    xs = xs' ∧ rest = rest' := by
  induction h generalizing xs' with
  | nil =>
    cases h' with
    | nil => exact ⟨rfl, rfl⟩
    | last hlines => exact absurd rfl hlines.ne_nil
    | more hlines => exact absurd rfl hlines.ne_nil
  | last hlines hend =>
    cases h' with
    | nil => exact absurd rfl hlines.ne_nil
    | last hlines' =>
      obtain ⟨rfl, rfl⟩ := hlines.unique hlines'
      exact ⟨rfl, rfl⟩
    | more hlines' hgoes =>
      obtain ⟨rfl, rfl⟩ := hlines.unique hlines'
      rw [hend] at hgoes
      cases hgoes
  | more hlines hgoes _ ih =>
    cases h' with
    | nil => exact absurd rfl hlines.ne_nil
    | last hlines' hend =>
      obtain ⟨rfl, rfl⟩ := hlines.unique hlines'
      rw [hend] at hgoes
      cases hgoes
    | more hlines' _ hrest' =>
      obtain ⟨rfl, rfl⟩ := hlines.unique hlines'
      obtain ⟨rfl, rfl⟩ := ih hrest'
      exact ⟨rfl, rfl⟩

/-! ## What the parser gets over -/

/-- With a value that decodes, what is read can be stored. -/
theorem RawLines.headerLines (h : RawLines r x rest) (hdecodes : Decodes blank x.value) :
    HeaderLines blank r x.stored rest := by
  cases h with
  | named hfrom hname hvalue => exact .named hfrom (.mk hname hvalue hdecodes)
  | fromLine hnl hline hname hvalue => exact .fromLine hnl hline (.mk hname hvalue hdecodes)

/-- What can be stored was read, and its value decodes. -/
theorem HeaderLines.exists_raw (h : HeaderLines blank r es rest) :
    ∃ x, RawLines r x rest ∧ Decodes blank x.value ∧ es = x.stored := by
  cases h with
  | named hfrom hnamed =>
    cases hnamed with
    | mk hname hvalue hdecodes => exact ⟨_, .named hfrom hname hvalue, hdecodes, rfl⟩
  | fromLine hnl hline hnamed =>
    cases hnamed with
    | mk hname hvalue hdecodes => exact ⟨_, .fromLine hnl hline hname hvalue, hdecodes, rfl⟩

/-- Headers that all decode are a block of headers. -/
theorem HeaderShape.headerBlock (h : HeaderShape r xs rest) (hdecode : HeadersDecode blank xs) :
    HeaderBlock blank r (xs.flatMap RawHeader.stored) rest := by
  induction h generalizing blank with
  | nil => exact .nil
  | last hlines hend =>
    rw [List.flatMap_cons, List.flatMap_nil, List.append_nil]
    exact .last (hlines.headerLines hdecode.1) hend
  | more hlines hgoes _ ih => exact .more (hlines.headerLines hdecode.1) hgoes (ih hdecode.2)

/-- **The parser gets over the headers** of a well-formed message exactly when it gets over their
values. -/
theorem headerBlock_iff :
    HeaderBlock blank r es rest ↔ ∃ xs, HeaderShape r xs rest ∧ HeadersDecode blank xs ∧
      es = xs.flatMap RawHeader.stored := by
  constructor
  · intro h
    induction h with
    | nil => exact ⟨[], .nil, trivial, rfl⟩
    | last hlines hend =>
      obtain ⟨x, hx, hdecodes, rfl⟩ := hlines.exists_raw
      exact ⟨[x], .last hx hend, ⟨hdecodes, trivial⟩, by simp⟩
    | more hlines hgoes _ ih =>
      obtain ⟨x, hx, hdecodes, rfl⟩ := hlines.exists_raw
      obtain ⟨xs, hxs, hdecode, rfl⟩ := ih
      exact ⟨x :: xs, .more hx hgoes hxs, ⟨hdecodes, hdecode⟩, by rw [List.flatMap_cons]⟩
  · rintro ⟨xs, hshape, hdecode, rfl⟩
    exact hshape.headerBlock hdecode

end Unique

end Libmbox2
