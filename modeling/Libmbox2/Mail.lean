import Mathlib.Data.List.Flatten
import Libmbox2.HeaderEnd
import Libmbox2.Slice

/-!
# Well-formed mbox files

What the parsers are made for: a file of messages one behind the other, each of them a
From line, header fields, an empty line, a body and a final newline, with no other
line that begins with `From `. A `Mail` carries the proof that it is well formed, and
`mboxFile` is the file the messages make.

`pos ms k` is where message `k` starts. The From lines of the file are at these
positions and nowhere else (`fromLineAt_iff`), and the headers of a message end behind
its first empty line (`Mail.headerEnd?_bytes`), which is what the two scans look for.
-/

namespace Libmbox2

open CSem

/-- A header field `name:value`, with its continuation lines. Neither has a newline in it, and a
continuation line begins with a blank or a tab. -/
structure Header where
  /-- the name of the field -/
  name : List MboxChar
  /-- the rest of its first line -/
  value : List MboxChar
  /-- the lines the field is continued on -/
  folds : List (List MboxChar)
  name_ne : name ≠ []
  name_nl : nl ∉ name
  name_colon : colon ∉ name
  value_nl : nl ∉ value
  folds_blank : ∀ l ∈ folds, l.head? = some space ∨ l.head? = some tab
  folds_nl : ∀ l ∈ folds, nl ∉ l

/-- The lines of a header field: the first one with its name, and those that continue it. -/
def Header.lines (h : Header) : List (List MboxChar) :=
  (h.name ++ colon :: h.value) :: h.folds

/-- A line that does not end the headers: it is not empty, it is no lone carriage return, and it has
no newline. -/
structure HeaderLine (l : List MboxChar) : Prop where
  nl_notMem : nl ∉ l
  ne_nil : l ≠ []
  ne_cr : l ≠ [cr]

/-- The lines of a header field do not end the headers, since one of them has a colon and the others
begin with a blank. -/
theorem Header.headerLine (h : Header) {l : List MboxChar} (hl : l ∈ h.lines) :
    HeaderLine l := by
  rcases List.mem_cons.mp hl with rfl | hfold
  · refine ⟨?_, by simp, ?_⟩
    · have h1 : ¬ nl = colon := by decide
      simp [h.name_nl, h.value_nl, h1]
    · intro hcr
      have hmem : colon ∈ [cr] := hcr ▸ List.mem_append_right _ (List.mem_cons_self ..)
      exact absurd hmem (by decide)
  · refine ⟨h.folds_nl l hfold, ?_, ?_⟩ <;>
    · rintro rfl
      rcases h.folds_blank _ hfold with h1 | h1 <;> exact absurd h1 (by decide)

/-- Lines, each with its newline behind it. -/
def endLines (ls : List (List MboxChar)) : List MboxChar := ls.flatMap (· ++ [nl])

@[simp] theorem endLines_cons (l : List MboxChar) (ls : List (List MboxChar)) :
    endLines (l :: ls) = l ++ nl :: endLines ls := by
  simp [endLines]

/-- The text of a message: what follows `From ` in its first line, its header fields and its
body. -/
structure MailText where
  /-- the From line, behind `From ` -/
  fromText : List MboxChar
  /-- the header fields -/
  headers : List Header
  /-- what stands between the empty line and the final newline -/
  body : List MboxChar

namespace MailText

/-- The From line, the headers and the empty line that ends them. -/
def head (t : MailText) : List MboxChar :=
  fromWord ++ t.fromText ++ nl :: (endLines (t.headers.flatMap Header.lines) ++ [nl])

/-- The bytes of a message. A newline follows the body, so the next message begins with a line of
its own. -/
def bytes (t : MailText) : List MboxChar := t.head ++ t.body ++ [nl]

end MailText

/-- A well-formed message: there is at least one header field, no NUL, and no `From ` at the start
of any line but the first. -/
structure Mail extends MailText where
  fromText_nl : nl ∉ fromText
  headers_ne : headers ≠ []
  nul_notMem : nul ∉ toMailText.bytes
  noFrom : ¬ nlFromWord <:+: toMailText.bytes

/-! ## The headers of a message -/

/-- Lines that do not end the headers, and an empty line. -/
theorem headerEnd?_endLines {ls : List (List MboxChar)} (h : ∀ l ∈ ls, HeaderLine l)
    (rest : List MboxChar) :
    headerEnd? (nl :: (endLines ls ++ nl :: rest)) = some ((endLines ls).length + 2) := by
  induction ls with
  | nil => simpa [endLines] using headerEnd?_nl_nl rest
  | cons l ls ih =>
    have hl := h l (List.mem_cons_self ..)
    have ih' := ih fun l' hl' => h l' (List.mem_cons_of_mem _ hl')
    obtain ⟨p, ps, rfl⟩ := List.exists_cons_of_ne_nil hl.ne_nil
    have hp : p ≠ nl := fun e => hl.nl_notMem (e ▸ List.mem_cons_self ..)
    rw [endLines_cons, List.append_assoc, List.cons_append, List.cons_append,
      headerEnd?_nl_cons hp, ← List.cons_append, headerEnd?_append_left hl.nl_notMem, ih']
    · simp only [Option.map_some, List.length_append, List.length_cons]
      congr 1
      omega
    · rintro ⟨rfl, hhead⟩
      cases ps with
      | nil => exact hl.ne_cr rfl
      | cons c cs =>
        obtain rfl : c = nl := by simpa using hhead
        exact hl.nl_notMem (by simp)

namespace Mail

variable (m : Mail)

/-- The lines of the headers of a message do not end the headers. -/
theorem headerLine {l : List MboxChar} (hl : l ∈ m.headers.flatMap Header.lines) :
    HeaderLine l := by
  obtain ⟨h, -, hl⟩ := List.mem_flatMap.mp hl
  exact h.headerLine hl

/-- The bytes of a message, with its lines in a form that the search for the empty line can be
followed through. -/
theorem bytes_eq : m.bytes = fromWord ++ m.fromText ++
    nl :: (endLines (m.headers.flatMap Header.lines) ++ nl :: (m.body ++ [nl])) := by
  simp [MailText.bytes, MailText.head]

/-- The headers of a message end where its head does. -/
theorem headerEnd?_bytes : headerEnd? m.bytes = some m.head.length := by
  have hpre : nl ∉ fromWord ++ m.fromText := by
    rw [List.mem_append, not_or]
    exact ⟨by decide, m.fromText_nl⟩
  rw [bytes_eq, headerEnd?_append_left hpre,
    headerEnd?_endLines fun l hl => m.headerLine hl]
  simp only [Option.map_some, MailText.head, List.length_append, List.length_cons,
    List.length_nil]
  congr 1
  omega

/-- The same behind a newline: that of the message in front. -/
theorem headerEnd?_nl_bytes (rest : List MboxChar) :
    headerEnd? (nl :: (m.bytes ++ rest)) = some (m.head.length + 1) := by
  have hb : m.bytes = 70 :: (m.bytes.drop 1) := rfl
  rw [hb, List.cons_append, headerEnd?_nl_cons (by decide)
    (fun h => absurd h.1 (by decide)), ← List.cons_append, ← hb,
    headerEnd?_append m.headerEnd?_bytes, Option.map_some]

/-- The empty line of a message is ended by LF. -/
theorem head_nl (rest : List MboxChar) :
    (m.bytes ++ rest)[m.head.length - 2]? = some nl := by
  have hlen : m.head.length = (fromWord ++ m.fromText ++
      nl :: endLines (m.headers.flatMap Header.lines)).length + 1 := by
    simp [MailText.head]
    omega
  have hlast : (nl :: endLines (m.headers.flatMap Header.lines)).getLast? = some nl := by
    rcases List.eq_nil_or_concat (m.headers.flatMap Header.lines) with h | ⟨ls, l, h⟩
    · simp [h, endLines]
    · rw [h]
      simp [endLines, List.getLast?_cons, List.flatMap_append]
  have hsplit : m.bytes ++ rest = (fromWord ++ m.fromText) ++
      ((nl :: endLines (m.headers.flatMap Header.lines)) ++
        (nl :: (m.body ++ [nl]) ++ rest)) := by
    rw [bytes_eq]
    simp
  rw [List.getLast?_eq_getElem?] at hlast
  simp only [List.length_append, List.length_cons] at hlen hlast
  rw [hsplit, List.getElem?_append_right (by simp only [List.length_append]; omega),
    List.getElem?_append_left (by simp only [List.length_append, List.length_cons]; omega)]
  rw [← hlast]
  congr 1
  simp only [List.length_append]
  omega

/-- Behind the head there is at least the newline that the message ends with. -/
theorem head_le : m.head.length < m.bytes.length := by
  simp only [MailText.bytes, List.length_append, List.length_cons]
  omega

/-- The shortest message is `From `, a newline, `a:` and three newlines. -/
theorem length_head : 10 ≤ m.head.length := by
  obtain ⟨h, hs, hheaders⟩ := List.exists_cons_of_ne_nil m.headers_ne
  have hname := List.length_pos_iff.mpr h.name_ne
  have h5 : fromWord.length = 5 := rfl
  simp only [MailText.head, hheaders, List.flatMap_cons, Header.lines, List.cons_append,
    endLines_cons, List.length_append, List.length_cons, h5]
  omega

theorem length_bytes : 11 ≤ m.bytes.length := by
  have := m.head_le
  have := m.length_head
  omega

theorem bytes_last : m.bytes[m.bytes.length - 1]? = some nl := by
  rw [← List.getLast?_eq_getElem?, MailText.bytes]
  simp

end Mail

/-- `nlFromWord` does not occur where `F` is only the first byte. -/
theorem not_nlFrom_infix {l : List MboxChar} (h : 70 ∉ l.tail) : ¬ nlFromWord <:+: l := by
  rintro ⟨xs, ys, hl⟩
  refine h ?_
  rw [← hl, nlFromWord, List.append_assoc]
  rcases xs with _ | ⟨x, xs⟩ <;> simp [fromWord]

/-- A text with the header field `a:` and this body. -/
def plainText (body : List MboxChar) : MailText where
  fromText := []
  headers := [⟨[97], [], [], by decide, by decide, by decide, by decide, by simp, by simp⟩]
  body := body

theorem plainText_bytes (body : List MboxChar) : (plainText body).bytes =
    70 :: ([114, 111, 109, 32, nl, 97, colon, nl, nl] ++ body ++ [nl]) := rfl

/-- It is a message when the body has no `F` and no NUL. -/
def plainMail (body : List MboxChar) (hF : 70 ∉ body) (h0 : nul ∉ body) : Mail where
  toMailText := plainText body
  fromText_nl := List.not_mem_nil
  headers_ne := List.cons_ne_nil _ _
  nul_notMem := by
    have h1 : nul ∉ [114, 111, 109, 32, nl, 97, colon, nl, nl] := by decide
    have h2 : nul ∉ [nl] := by decide
    rw [plainText_bytes, List.mem_cons, List.mem_append, List.mem_append]
    rintro (h | (h | h) | h)
    · exact absurd h (by decide)
    · exact h1 h
    · exact h0 h
    · exact h2 h
  noFrom := by
    have h1 : 70 ∉ [114, 111, 109, 32, nl, 97, colon, nl, nl] := by decide
    have h2 : 70 ∉ [nl] := by decide
    refine not_nlFrom_infix ?_
    rw [plainText_bytes, List.tail_cons, List.mem_append, List.mem_append]
    rintro ((h | h) | h)
    · exact h1 h
    · exact hF h
    · exact h2 h

@[simp] theorem length_plainMail (body : List MboxChar) (hF : 70 ∉ body) (h0 : nul ∉ body) :
    (plainMail body hF h0).bytes.length = body.length + 11 := by
  rw [plainMail, plainText_bytes]
  simp only [List.length_cons, List.length_append, List.length_nil]
  omega

/-! ## A file of messages -/

/-- The file the messages make, one behind the other. -/
def mboxFile (ms : List Mail) : List MboxChar := ms.flatMap fun m => m.bytes

/-- Where message `k` starts; for their number, the end of the file. -/
def pos (ms : List Mail) (k : ℕ) : ℕ := (mboxFile (ms.take k)).length

section File

variable {ms : List Mail}

/-- No message has a NUL, so the file has none. -/
theorem nul_notMem_mboxFile (ms : List Mail) : nul ∉ mboxFile ms := by
  intro hmem
  obtain ⟨m, -, hm⟩ := List.mem_flatMap.mp hmem
  exact m.nul_notMem hm

@[simp] theorem pos_zero (ms : List Mail) : pos ms 0 = 0 := rfl

@[simp] theorem length_mboxFile_cons (m : Mail) (ms : List Mail) :
    (mboxFile (m :: ms)).length = m.bytes.length + (mboxFile ms).length := by
  rw [mboxFile, List.flatMap_cons, List.length_append, mboxFile]

@[simp] theorem pos_cons_succ (m : Mail) (ms : List Mail) (k : ℕ) :
    pos (m :: ms) (k + 1) = m.bytes.length + pos ms k := by
  rw [pos, List.take_succ_cons, length_mboxFile_cons, pos]

@[simp] theorem pos_length (ms : List Mail) : pos ms ms.length = (mboxFile ms).length := by
  rw [pos, List.take_length]

/-- A message starts where the one in front of it ends. -/
theorem pos_succ {k : ℕ} (hk : k < ms.length) :
    pos ms (k + 1) = pos ms k + ms[k].bytes.length := by
  rw [pos, pos, List.take_succ_eq_append_getElem hk, mboxFile, List.flatMap_append]
  simp [mboxFile]

/-- The file from message `k` on is the file that the messages from `k` on make. -/
theorem drop_pos (ms : List Mail) (k : ℕ) :
    (mboxFile ms).drop (pos ms k) = mboxFile (ms.drop k) := by
  have h : mboxFile ms = mboxFile (ms.take k) ++ mboxFile (ms.drop k) := by
    rw [mboxFile, mboxFile, mboxFile, ← List.flatMap_append, List.take_append_drop]
  rw [h, pos, List.drop_left]

theorem drop_pos_of_lt {k : ℕ} (hk : k < ms.length) :
    (mboxFile ms).drop (pos ms k) = ms[k].bytes ++ mboxFile (ms.drop (k + 1)) := by
  rw [drop_pos, List.drop_eq_getElem_cons hk]
  rfl

/-- A message is the part of the file between its start and the start of the next. -/
theorem slice_pos {k : ℕ} (hk : k < ms.length) :
    slice (mboxFile ms) (pos ms k) (pos ms (k + 1)) = ms[k].bytes := by
  rw [slice, drop_pos_of_lt hk, pos_succ hk, Nat.add_sub_cancel_left, List.take_left]

/-- Messages that follow each other start eleven bytes apart at least. -/
theorem pos_lt {i j : ℕ} (hij : i < j) (hj : j ≤ ms.length) : pos ms i + 11 ≤ pos ms j := by
  induction j with
  | zero => exact absurd hij (Nat.not_lt_zero i)
  | succ j ih =>
    have hlen := ms[j].length_bytes
    have hsucc := pos_succ (show j < ms.length by omega)
    rcases Nat.lt_or_ge i j with hlt | hge
    · have := ih hlt (by omega)
      omega
    · obtain rfl : i = j := by omega
      omega

theorem pos_le {i j : ℕ} (hij : i ≤ j) (hj : j ≤ ms.length) : pos ms i ≤ pos ms j := by
  rcases Nat.lt_or_ge i j with hlt | hge
  · have := pos_lt hlt hj
    omega
  · obtain rfl : i = j := by omega
    exact le_refl _

theorem pos_le_length {k : ℕ} (hk : k ≤ ms.length) : pos ms k ≤ (mboxFile ms).length := by
  rw [← pos_length]
  exact pos_le hk (le_refl _)

/-- The bytes of a message are found behind where it starts. -/
theorem getElem?_pos {k : ℕ} (hk : k < ms.length) {i : ℕ} (hi : i < ms[k].bytes.length) :
    (mboxFile ms)[pos ms k + i]? = ms[k].bytes[i]? := by
  rw [← List.getElem?_drop, drop_pos_of_lt hk, List.getElem?_append_left hi]

/-- In front of each message but the first there is a newline. -/
theorem nl_before_pos {k : ℕ} (hk : k < ms.length) :
    (mboxFile ms)[pos ms (k + 1) - 1]? = some nl := by
  have hlen := ms[k].length_bytes
  have hget := getElem?_pos hk (show ms[k].bytes.length - 1 < _ by omega)
  rw [ms[k].bytes_last] at hget
  rw [← hget, pos_succ hk, Nat.add_sub_assoc (by omega)]

/-- Every position of the file lies in a message. -/
theorem exists_mail {p : ℕ} (hp : p < (mboxFile ms).length) :
    ∃ k, k < ms.length ∧ pos ms k ≤ p ∧ p < pos ms (k + 1) := by
  have key : ∀ n, n ≤ ms.length → p < pos ms n →
      ∃ k, k < ms.length ∧ pos ms k ≤ p ∧ p < pos ms (k + 1) := by
    intro n
    induction n with
    | zero => exact fun _ h => absurd h (Nat.not_lt_zero p)
    | succ n ih =>
      intro hn h
      rcases Nat.lt_or_ge p (pos ms n) with hlt | hge
      · exact ih (by omega) hlt
      · exact ⟨n, by omega, hge, h⟩
  exact key ms.length (le_refl _) (by rwa [pos_length])

theorem from_at_pos {k : ℕ} (hk : k < ms.length) :
    fromWord <+: (mboxFile ms).drop (pos ms k) := by
  rw [drop_pos_of_lt hk, Mail.bytes_eq, List.append_assoc, List.append_assoc]
  exact List.prefix_append _ _

/-- **The From lines of a file**: `\nFrom ` is found in front of each message but the
first, and nowhere else. -/
theorem nlFrom_iff {p : ℕ} :
    nlFromWord <+: (mboxFile ms).drop p ↔
      ∃ k, 0 < k ∧ k < ms.length ∧ p + 1 = pos ms k := by
  constructor
  · intro h
    have h6 := prefix_drop_length (by decide) h
    have hlen6 : nlFromWord.length = 6 := rfl
    rw [hlen6] at h6
    -- the mail that the newline is in: it is its last byte, since no mail has a From line inside
    obtain ⟨k, hk, hle, hlt⟩ := exists_mail (show p < (mboxFile ms).length by omega)
    rcases Nat.lt_or_ge (pos ms (k + 1)) (p + 6) with hover | hinside
    · -- the word reaches over the newline the message ends with
      rcases Nat.lt_or_ge (p + 1) (pos ms (k + 1)) with hlt' | hge'
      · exfalso
        obtain ⟨c, hc, hcnl⟩ : ∃ c, nlFromWord[pos ms (k + 1) - 1 - p]? = some c ∧
            c ≠ nl := by
          obtain ⟨i, hi, hi5⟩ : ∃ i, pos ms (k + 1) - 1 - p = i + 1 ∧ i < fromWord.length :=
            ⟨pos ms (k + 1) - 2 - p, by omega, show _ < 5 by omega⟩
          have hno : nl ∉ fromWord := by decide
          exact ⟨fromWord[i], by rw [hi]; exact List.getElem?_eq_getElem hi5,
            fun e => hno (e ▸ List.getElem_mem hi5)⟩
        have hget := prefix_drop_iff.mp h _ c hc
        rw [show p + (pos ms (k + 1) - 1 - p) = pos ms (k + 1) - 1 by omega,
          nl_before_pos hk] at hget
        exact hcnl (Option.some.inj hget).symm
      · refine ⟨k + 1, by omega, ?_, by omega⟩
        by_contra hcon
        have heq : k + 1 = ms.length := by omega
        rw [heq, pos_length] at hge'
        omega
    · exfalso
      refine ms[k].noFrom (List.infix_iff_prefix_suffix.mpr
        ⟨ms[k].bytes.drop (p - pos ms k), ?_, List.drop_suffix _ _⟩)
      rw [← slice_pos hk, drop_slice, show pos ms k + (p - pos ms k) = p by omega,
        prefix_slice]
      exact ⟨h, by omega⟩
  · rintro ⟨k, hpos, hk, hp⟩
    obtain ⟨k, rfl⟩ : ∃ j, k = j + 1 := ⟨k - 1, by omega⟩
    have hnl := nl_before_pos (show k < ms.length by omega)
    rw [← hp, Nat.add_sub_cancel] at hnl
    obtain ⟨hlt, hget⟩ := List.getElem?_eq_some_iff.mp hnl
    rw [List.drop_eq_getElem_cons hlt, hget, nlFromWord, List.cons_prefix_cons, hp]
    exact ⟨rfl, from_at_pos hk⟩

end File

end Libmbox2
