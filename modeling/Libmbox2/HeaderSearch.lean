import Mathlib.Data.List.TakeWhile
import Libmbox2.Scan

/-!
# The search for the end of the headers (`mboxParserCtxSeekHeaders`)

The search scans what the buffer holds, reads more when it stands at the end of it, and goes on
from where it stands: behind what was scanned, or on the newline the buffer ended with. So an
empty line is found wherever reads end, with one exception: where a read ends between the `\r`
and the `\n` of an empty line that is ended by CRLF, the scan has passed the newline in front of
it (`SeenLine`).

A NUL stops the scan where it stands, and nothing moves it on. Behind an empty line that is seen
this does not matter; otherwise the search never ends, unless there is nothing in front of the
NUL or nothing behind it (`Ends`). `seekHeaders_result` has all three cases, for every way a file
can be read.
-/

namespace Libmbox2

open CSem CSem.Exec

variable {fill : ℕ → MboxChar} {file : List MboxChar} {pread : Pread} {a fo i : ℕ}
  {l : List MboxChar} {s n w off : ℕ}

/-! ## Reads of any size -/

/-- Reads that succeed: any number of the bytes asked for that are there, at least one. -/
def ReadsFile (file : List MboxChar) (pread : Pread) : Prop :=
  ∀ size offset, 0 < size → ∃ n ≤ size, pread size offset = some ((file.drop offset).take n) ∧
    (offset < file.length → 0 < n)

/-- A regular file is read as far as it goes. -/
theorem readsFile_regular (file : List MboxChar) : ReadsFile file (preadRegular file) :=
  fun size _ hpos => ⟨size, le_refl size, rfl, fun _ => hpos⟩

/-- Where the buffer ends after `i` reads from `fo` on. -/
def readEnd (pread : Pread) (fo : ℕ) : ℕ → ℕ
  | 0 => fo
  | i + 1 => readEnd pread fo i + ((pread mboxIOReadSize (readEnd pread fo i)).getD []).length

theorem readEnd_mono (pread : Pread) (fo : ℕ) : Monotone (readEnd pread fo) :=
  monotone_nat_of_le_succ fun _ => Nat.le_add_right _ _

/-- One read more: the window grows, or the file has ended. -/
theorem Window.read {ioctx : MboxIOCtx} (fill : ℕ → MboxChar) (h : Window file a ioctx)
    (hreads : ReadsFile file pread) (hfo : ioctx.fileOffset = readEnd pread fo i) :
    (∃ buf n, mboxIORead fill pread ioctx mboxIOReadSize ioctx.buf.len ioctx.fileOffset =
        ok (((n : ℕ) : Int), { ioctx with buf, err := mboxIOOk }) ∧ 0 < n ∧
      ioctx.fileOffset + n = readEnd pread fo (i + 1) ∧ buf.offset = ioctx.buf.offset ∧
      Window file a { ioctx with buf, err := mboxIOOk, fileOffset := ioctx.fileOffset + n }) ∨
    ioctx.fileOffset = file.length ∧
      ∃ buf, mboxIORead fill pread ioctx mboxIOReadSize ioctx.buf.len ioctx.fileOffset =
        ok (0, { ioctx with buf, err := mboxIOEof }) := by
  obtain ⟨n, hn, hpread, hpos⟩ := hreads mboxIOReadSize ioctx.fileOffset mboxIOReadSize_pos
  have hin := h.inFile
  rcases Nat.lt_or_ge ioctx.fileOffset file.length with hmore | hend
  · have hbytes : ((file.drop ioctx.fileOffset).take n).length =
        min n (file.length - ioctx.fileOffset) := by
      rw [List.length_take, List.length_drop]
    have hne : (file.drop ioctx.fileOffset).take n ≠ [] := by
      have hn' := hpos hmore
      rw [← List.length_pos_iff, hbytes]
      omega
    obtain ⟨buf, hread, hholds, hoff, hsound⟩ := mboxIORead_bytes fill h.sound mboxIOReadSize_lt
      (le_refl ioctx.buf.len) hpread (by omega) hne
    have hend : ioctx.fileOffset + ((file.drop ioctx.fileOffset).take n).length =
        min file.length (ioctx.fileOffset + n) := by omega
    have hle := h.le
    refine Or.inl ⟨buf, _, hread, List.length_pos_iff.mpr hne, ?_, hoff, ⟨?_, ?_, ?_,
      hsound.capacity⟩⟩
    · rw [readEnd, ← hfo, hpread, Option.getD_some]
    · obtain ⟨rest, hdata⟩ := h.holds.data
      rw [hdata, h.holds.len, List.take_left, slice_append_take h.le h.inFile] at hholds
      simpa only [hend] using hholds
    · exact Nat.le_add_right_of_le hle
    · simp only [hend]
      exact min_le_left _ _
  · have hnil : (file.drop ioctx.fileOffset).take n = [] := by
      rw [List.drop_eq_nil_of_le hend, List.take_nil]
    obtain ⟨buf, -, hread, -⟩ := mboxIORead_empty fill ioctx.buf.len h.sound mboxIOReadSize_lt
      (hpread.trans (congrArg some hnil))
    exact Or.inr ⟨le_antisymm hin hend, buf, hread⟩

/-! ## Empty lines -/

/-- The `n` bytes at `s` are a newline and an empty line behind it, ended by LF or by CRLF. -/
def EmptyLineAt (l : List MboxChar) (s n : ℕ) : Prop :=
  n = 2 ∧ [nl, nl] <+: l.drop s ∨ n = 3 ∧ [nl, cr, nl] <+: l.drop s

/-- An empty line lies inside the text. -/
theorem EmptyLineAt.le_length (h : EmptyLineAt l s n) : s + n ≤ l.length := by
  rcases h with ⟨rfl, hpre⟩ | ⟨rfl, hpre⟩
  · exact prefix_drop_length (List.cons_ne_nil _ _) hpre
  · exact prefix_drop_length (List.cons_ne_nil _ _) hpre

/-- It has two bytes, or three with a carriage return. -/
theorem EmptyLineAt.bounds (h : EmptyLineAt l s n) : 2 ≤ n ∧ n ≤ 3 := by
  rcases h with ⟨rfl, -⟩ | ⟨rfl, -⟩ <;> decide

theorem EmptyLineAt.head (h : EmptyLineAt l s n) : l[s]? = some nl := by
  rcases h with ⟨-, hpre⟩ | ⟨-, hpre⟩
  · exact prefix_drop_iff.mp hpre 0 nl rfl
  · exact prefix_drop_iff.mp hpre 0 nl rfl

theorem EmptyLineAt.second (h : EmptyLineAt l s n) :
    l[s + 1]? = some (if n = 2 then nl else cr) := by
  rcases h with ⟨rfl, hpre⟩ | ⟨rfl, hpre⟩
  · exact prefix_drop_iff.mp hpre 1 nl rfl
  · exact prefix_drop_iff.mp hpre 1 cr rfl

/-- At one place there is one empty line: LF and CRLF differ in the second byte. -/
theorem EmptyLineAt.unique (h : EmptyLineAt l s n) {n' : ℕ} (h' : EmptyLineAt l s n') :
    n = n' := by
  have hsecond := h.second.symm.trans h'.second
  have hn := h.bounds
  have hn' := h'.bounds
  split at hsecond
  · split at hsecond
    · omega
    · cases hsecond
  · split at hsecond
    · cases hsecond
    · omega

/-- An empty line of what is left of the text is one of the text, further behind. -/
theorem emptyLineAt_drop : EmptyLineAt (l.drop off) s n ↔ EmptyLineAt l (off + s) n := by
  rw [EmptyLineAt, EmptyLineAt, List.drop_drop]

/-- An empty line of the front of the text is one that ends there. -/
theorem emptyLineAt_take : EmptyLineAt (l.take w) s n ↔ EmptyLineAt l s n ∧ s + n ≤ w := by
  constructor
  · intro h
    have hle := h.le_length
    rw [List.length_take] at hle
    rw [EmptyLineAt, List.drop_take, List.prefix_take_iff, List.prefix_take_iff] at h
    refine ⟨?_, by omega⟩
    rcases h with ⟨hn, hpre, -⟩ | ⟨hn, hpre, -⟩
    · exact Or.inl ⟨hn, hpre⟩
    · exact Or.inr ⟨hn, hpre⟩
  · rintro ⟨⟨rfl, hpre⟩ | ⟨rfl, hpre⟩, hle⟩
    · refine Or.inl ⟨rfl, ?_⟩
      rw [List.drop_take, List.prefix_take_iff]
      exact ⟨hpre, by simp only [List.length_cons, List.length_nil]; omega⟩
    · refine Or.inr ⟨rfl, ?_⟩
      rw [List.drop_take, List.prefix_take_iff]
      exact ⟨hpre, by simp only [List.length_cons, List.length_nil]; omega⟩

/-- Where the headers have no end there is no empty line anywhere. -/
theorem not_emptyLineAt (h : headerEnd? l = none) : ¬ EmptyLineAt l s n := by
  induction l generalizing s with
  | nil =>
    intro hl
    have hle := hl.le_length
    have hn := hl.bounds
    rw [List.length_nil] at hle
    omega
  | cons c cs ih =>
    rw [headerEnd?] at h
    split at h
    · cases h
    · next hlf =>
      split at h
      · cases h
      · next hcrlf =>
        cases s with
        | zero => exact fun hl => hl.elim (fun h => hlf h.2) fun h => hcrlf h.2
        | succ s => exact ih (Option.map_eq_none_iff.mp h)

/-- What is found is the end of the first empty line. -/
theorem emptyLineAt_of_headerEnd? {k : ℕ} (h : headerEnd? l = some k) :
    ∃ s n, EmptyLineAt l s n ∧ k = s + n ∧ ∀ s' n', EmptyLineAt l s' n' → s ≤ s' := by
  induction l generalizing k with
  | nil => cases h
  | cons c cs ih =>
    rw [headerEnd?] at h
    split at h
    · next hlf =>
      exact ⟨0, 2, Or.inl ⟨rfl, hlf⟩, (Option.some.inj h).symm, fun _ _ _ => Nat.zero_le _⟩
    · next hlf =>
      split at h
      · next hcrlf =>
        exact ⟨0, 3, Or.inr ⟨rfl, hcrlf⟩, (Option.some.inj h).symm, fun _ _ _ => Nat.zero_le _⟩
      · next hcrlf =>
        obtain ⟨j, hj, rfl⟩ := Option.map_eq_some_iff.mp h
        obtain ⟨s, n, hl, rfl, hfirst⟩ := ih hj
        refine ⟨s + 1, n, hl, by omega, fun s' n' hl' => ?_⟩
        cases s' with
        | zero => exact hl'.elim (fun h => absurd h.2 hlf) fun h => absurd h.2 hcrlf
        | succ s' => exact Nat.succ_le_succ (hfirst s' n' hl')

/-- Behind the scan: the end of the text, or the newline it ends with. -/
theorem scanEnd_drop (hoff : off ≤ l.length) :
    off + scanEnd (l.drop off) = l.length ∧ (off < l.length → l[l.length - 1]? ≠ some nl) ∨
      off + scanEnd (l.drop off) + 1 = l.length ∧ l[l.length - 1]? = some nl := by
  have hlen : (l.drop off).length = l.length - off := List.length_drop
  rcases Nat.lt_or_eq_of_le hoff with hlt | rfl
  · have hlast : (l.drop off).getLast? = l[l.length - 1]? := by
      rw [List.getLast?_eq_getElem?, hlen, List.getElem?_drop]
      congr 1
      omega
    rw [scanEnd, hlast, hlen]
    by_cases hnl : l[l.length - 1]? = some nl
    · rw [if_pos hnl]
      exact Or.inr ⟨by omega, hnl⟩
    · rw [if_neg hnl]
      exact Or.inl ⟨by omega, fun _ => hnl⟩
  · rw [List.drop_length]
    exact Or.inl ⟨rfl, fun h => absurd h (Nat.lt_irrefl _)⟩

/-! ## What is seen of a text -/

/-- What is in front of the first NUL, which is all that the string functions see of the
contents. -/
def textOf (l : List MboxChar) : List MboxChar := l.takeWhile (· ≠ nul)

theorem nul_notMem_textOf (l : List MboxChar) : nul ∉ textOf l := by
  intro hmem
  have hne := List.mem_takeWhile_imp hmem
  simp at hne

/-- The text of a window is the front of the text. -/
theorem textOf_take (l : List MboxChar) (w : ℕ) : textOf (l.take w) = (textOf l).take w := by
  induction l generalizing w with
  | nil => rw [List.take_nil, textOf, List.takeWhile_nil, List.take_nil]
  | cons c cs ih =>
    cases w with
    | zero => rfl
    | succ w =>
      rw [List.take_succ_cons, textOf, textOf, List.takeWhile_cons, List.takeWhile_cons]
      split
      · rw [List.take_succ_cons]
        exact congrArg _ (ih w)
      · rw [List.take_nil]

/-- The text is no longer than what it is the text of. -/
theorem textOf_length_le (l : List MboxChar) : (textOf l).length ≤ l.length :=
  (List.takeWhile_prefix _).length_le

/-- The contents and their terminator begin with the text and a NUL, which may be one that stands in
the contents. -/
theorem textOf_append (l : List MboxChar) (rest : List MboxChar) :
    ∃ rest', l ++ nul :: rest = textOf l ++ nul :: rest' := by
  induction l with
  | nil => exact ⟨rest, rfl⟩
  | cons c cs ih =>
    rw [textOf, List.takeWhile_cons]
    split
    · obtain ⟨rest', hrest⟩ := ih
      exact ⟨rest', congrArg (c :: ·) hrest⟩
    · next hc =>
      obtain rfl : c = nul := by simpa using hc
      exact ⟨cs ++ nul :: rest, rfl⟩

theorem textOf_eq_self (h : nul ∉ l) : textOf l = l := by
  rw [textOf, List.takeWhile_eq_self_iff]
  intro c hc
  exact decide_eq_true fun heq => h (heq ▸ hc)

/-- The empty line at `s` is seen: no read ends between its `\r` and its `\n`. -/
def SeenLine (pread : Pread) (fo a : ℕ) (l : List MboxChar) (s n : ℕ) : Prop :=
  EmptyLineAt l s n ∧ (n = 3 → ∀ i, readEnd pread fo i ≠ a + s + 2)

/-- The empty line at `s` is seen, in one of the windows the search comes to, and no empty line in
front of it is. -/
def FirstSeenLine (pread : Pread) (fo a : ℕ) (l : List MboxChar) (s n : ℕ) : Prop :=
  SeenLine pread fo a l s n ∧ ∀ s' n', SeenLine pread fo a l s' n' → s ≤ s'

/-! ## One iteration -/

/-- The search has the window that `i` reads give; an empty line that is seen is not behind the
scan. -/
structure Searching (file : List MboxChar) (pread : Pread) (fo a i : ℕ) (ioctx : MboxIOCtx) :
    Prop where
  window : Window file a ioctx
  inside : a + ioctx.buf.offset ≤ ioctx.fileOffset
  fileOffset : ioctx.fileOffset = readEnd pread fo i
  /-- the scan stands in front of the first NUL, or on it -/
  text : ioctx.buf.offset ≤ (textOf (file.drop a)).length
  ahead : ∀ s n, SeenLine pread fo a (textOf (file.drop a)) s n → ioctx.buf.offset ≤ s
  /-- the windows before were scanned, up to a newline at their end -/
  scanned : ∀ j < i, ∀ w ≤ (textOf (file.drop a)).length, readEnd pread fo j = a + w →
    w ≤ ioctx.buf.offset ∨
      w = ioctx.buf.offset + 1 ∧ (textOf (file.drop a))[ioctx.buf.offset]? = some nl
  /-- it does not pass a newline in front of a NUL -/
  last : 0 < ioctx.buf.offset → ioctx.buf.offset = (textOf (file.drop a)).length →
    (textOf (file.drop a))[(textOf (file.drop a)).length - 1]? ≠ some nl


namespace Searching

variable {ioctx : MboxIOCtx}

/-- What the scan of an iteration comes to: the end of the headers, where the window has it in its
text behind the parser, and else the place where the scan stands. -/
theorem canParse (h : Searching file pread fo a i ioctx) :
    mboxBufCanParseHeaders ioctx.buf =
      match headerEnd? (((textOf (file.drop a)).take (ioctx.fileOffset - a)).drop
        ioctx.buf.offset) with
      | some j => ok (true, mboxBufSetOffset ioctx.buf (ioctx.buf.offset + j))
      | none => ok (false, mboxBufSetOffset ioctx.buf (ioctx.buf.offset +
          scanEnd (((textOf (file.drop a)).take (ioctx.fileOffset - a)).drop
            ioctx.buf.offset))) := by
  obtain ⟨rest, hdata⟩ := h.window.holds.data
  obtain ⟨rest', hrest⟩ := textOf_append (slice file a ioctx.fileOffset) rest
  have htext : textOf (slice file a ioctx.fileOffset) =
      (textOf (file.drop a)).take (ioctx.fileOffset - a) := textOf_take _ _
  have hin := h.inside
  have hoff : ioctx.buf.offset ≤ (textOf (slice file a ioctx.fileOffset)).length := by
    rw [htext, List.length_take]
    exact le_min (by omega) h.text
  have hlen : (textOf (slice file a ioctx.fileOffset)).length ≤ ioctx.buf.len := by
    rw [h.window.holds.len]
    exact textOf_length_le _
  have hspec := canParseHeadersFrom_spec rest' (nul_notMem_textOf _) hoff hlen
  rw [← hrest, ← hdata, htext] at hspec
  rw [mboxBufCanParseHeaders, hspec]
  rcases headerEnd? (((textOf (file.drop a)).take (ioctx.fileOffset - a)).drop
    ioctx.buf.offset) with _ | j <;> rfl

/-- An empty line that the scan finds is the first that is seen. -/
theorem found (h : Searching file pread fo a i ioctx) {j : ℕ}
    (hj : headerEnd? (((textOf (file.drop a)).take (ioctx.fileOffset - a)).drop
      ioctx.buf.offset) = some j) :
    ∃ s n, FirstSeenLine pread fo a (textOf (file.drop a)) s n ∧ ioctx.buf.offset + j = s + n ∧
      a + (ioctx.buf.offset + j) ≤ ioctx.fileOffset := by
  obtain ⟨s, n, hline, rfl, hfirst⟩ := emptyLineAt_of_headerEnd? hj
  rw [emptyLineAt_drop, emptyLineAt_take] at hline
  obtain ⟨hline, hle⟩ := hline
  have hin := h.inside
  refine ⟨ioctx.buf.offset + s, n, ⟨⟨hline, ?_⟩, fun s' n' hseen => ?_⟩, by omega, by omega⟩
  · -- a window that ended in the line was scanned, and the scan went on behind its newline
    rintro rfl j hend
    have hlength := hline.le_length
    have hji : j < i := by
      by_contra hij
      have hmono := readEnd_mono pread fo (Nat.not_lt.mp hij)
      rw [← h.fileOffset, hend] at hmono
      omega
    rcases h.scanned j hji (ioctx.buf.offset + s + 2) (by omega) (by omega) with hle' | ⟨heq, -⟩
    · omega
    · omega
  · by_contra hlt
    have hahead := h.ahead s' n' hseen
    have hn := hline.bounds
    have hn' := hseen.1.bounds
    have hline' : EmptyLineAt (((textOf (file.drop a)).take (ioctx.fileOffset - a)).drop
        ioctx.buf.offset) (s' - ioctx.buf.offset) n' := by
      rw [emptyLineAt_drop, Nat.add_sub_cancel' hahead, emptyLineAt_take]
      exact ⟨hseen.1, by omega⟩
    have hfirst' := hfirst _ _ hline'
    omega

/-- Where the scan stands when it found nothing: at the end of what the window has of the text, or
on the newline there. -/
def scanStop (file : List MboxChar) (a : ℕ) (ioctx : MboxIOCtx) : ℕ :=
  ioctx.buf.offset +
    scanEnd (((textOf (file.drop a)).take (ioctx.fileOffset - a)).drop ioctx.buf.offset)

/-- It stands at the end of what the window has of the text, or on the newline there. -/
theorem scanStop_cases (h : Searching file pread fo a i ioctx) {m : ℕ}
    (hm : m = min (ioctx.fileOffset - a) (textOf (file.drop a)).length) :
    scanStop file a ioctx = m ∧
        (ioctx.buf.offset < m → (textOf (file.drop a))[m - 1]? ≠ some nl) ∨
      scanStop file a ioctx + 1 = m ∧ (textOf (file.drop a))[m - 1]? = some nl := by
  have hin := h.inside
  have hlen : ((textOf (file.drop a)).take (ioctx.fileOffset - a)).length = m := by
    rw [List.length_take, hm]
  have hoff : ioctx.buf.offset ≤
      ((textOf (file.drop a)).take (ioctx.fileOffset - a)).length := by
    rw [hlen, hm]
    exact le_min (by omega) h.text
  have hspec := scanEnd_drop hoff
  rw [hlen] at hspec
  have hget : 0 < m → ((textOf (file.drop a)).take (ioctx.fileOffset - a))[m - 1]? =
      (textOf (file.drop a))[m - 1]? := fun hpos => List.getElem?_take_of_lt (by omega)
  rcases hspec with ⟨hstop, hlast⟩ | ⟨hstop, hlast⟩
  · refine Or.inl ⟨hstop, fun hlt => ?_⟩
    rw [← hget (by omega)]
    exact hlast hlt
  · refine Or.inr ⟨hstop, ?_⟩
    rw [← hget (by omega)]
    exact hlast

section NotFound

variable (h : Searching file pread fo a i ioctx)
  (hnone : headerEnd? (((textOf (file.drop a)).take (ioctx.fileOffset - a)).drop
    ioctx.buf.offset) = none)

include h hnone

/-- An empty line that is only seen later ends behind the window of now. -/
theorem lt_of_seen (hs : SeenLine pread fo a (textOf (file.drop a)) s n) :
    ioctx.fileOffset < a + s + n := by
  by_contra hle
  have hahead := h.ahead s n hs
  refine not_emptyLineAt (s := s - ioctx.buf.offset) (n := n) hnone ?_
  rw [emptyLineAt_drop, Nat.add_sub_cancel' hahead, emptyLineAt_take]
  exact ⟨hs.1, by omega⟩

/-- No line that is seen is behind where the scan stands. -/
theorem scanStop_le_of_seen (hs : SeenLine pread fo a (textOf (file.drop a)) s n) :
    scanStop file a ioctx ≤ s := by
  have hahead := h.ahead s n hs
  have hlt := h.lt_of_seen hnone hs
  have hlength := hs.1.le_length
  have hbounds := hs.1.bounds
  have hle := h.window.le
  have hnl : ∀ m, s + 1 = m → (textOf (file.drop a))[m - 1]? = some nl := by
    rintro m rfl
    exact hs.1.head
  have hcases := h.scanStop_cases rfl
  rw [min_eq_left (by omega)] at hcases
  by_cases hlast : s + 1 = ioctx.fileOffset - a
  · rcases hcases with ⟨-, hne⟩ | ⟨hstop, -⟩
    · exact absurd (hnl _ hlast) (hne (by omega))
    · omega
  · by_cases hcut : n = 3 ∧ s + 2 = ioctx.fileOffset - a
    · have hfo := h.fileOffset
      exact absurd (by omega) (hs.2 hcut.1 i)
    · rcases hcases with ⟨hstop, -⟩ | ⟨hstop, -⟩
      · omega
      · omega

/-- The search with the scan where it stands: nothing that is known of it has changed. -/
theorem stopped : Searching file pread fo a i
    { ioctx with buf := mboxBufSetOffset ioctx.buf (scanStop file a ioctx) } := by
  have hin := h.inside
  have hle : ioctx.buf.offset ≤ scanStop file a ioctx := Nat.le_add_right _ _
  have hcases := h.scanStop_cases rfl
  have hmin := min_le_left (ioctx.fileOffset - a) (textOf (file.drop a)).length
  have hmin' := min_le_right (ioctx.fileOffset - a) (textOf (file.drop a)).length
  have hstop : scanStop file a ioctx ≤
      min (ioctx.fileOffset - a) (textOf (file.drop a)).length := by
    rcases hcases with ⟨hstop, -⟩ | ⟨hstop, -⟩
    · exact hstop.le
    · omega
  refine ⟨h.window.setOffset _, ?_, h.fileOffset, hstop.trans hmin',
    fun s n hs => h.scanStop_le_of_seen hnone hs, fun j hj w hw hend => ?_, ?_⟩
  · simp only [mboxBufSetOffset_offset]
    omega
  · simp only [mboxBufSetOffset_offset]
    rcases h.scanned j hj w hw hend with hbehind | ⟨rfl, hnl⟩
    · exact Or.inl (hbehind.trans hle)
    · rcases Nat.lt_or_eq_of_le hle with hlt | heq
      · exact Or.inl hlt
      · rw [← heq]
        exact Or.inr ⟨rfl, hnl⟩
  · simp only [mboxBufSetOffset_offset]
    intro hpos heq
    have hall : min (ioctx.fileOffset - a) (textOf (file.drop a)).length =
      (textOf (file.drop a)).length := by omega
    rw [hall] at hcases
    rcases hcases with ⟨-, hlast⟩ | ⟨hbad, -⟩
    · rcases Nat.lt_or_ge ioctx.buf.offset (textOf (file.drop a)).length with hlt | hge
      · exact hlast hlt
      · exact h.last (by omega) (le_antisymm h.text hge)
    · omega

/-- The search with the window that one more read gives. -/
theorem next {ioctx' : MboxIOCtx} (hw : Window file a ioctx')
    (hoff : ioctx'.buf.offset = scanStop file a ioctx)
    (hmore : ioctx.fileOffset ≤ ioctx'.fileOffset)
    (hfo : ioctx'.fileOffset = readEnd pread fo (i + 1)) :
    Searching file pread fo a (i + 1) ioctx' := by
  obtain ⟨-, hinside, -, htext, hahead, hscanned, hlast⟩ := h.stopped hnone
  simp only [mboxBufSetOffset_offset, ← hoff] at hinside htext hahead hscanned hlast
  refine ⟨hw, hinside.trans hmore, hfo, htext, hahead, fun j hj w hwle hend => ?_, hlast⟩
  rcases Nat.lt_or_eq_of_le (Nat.le_of_lt_succ hj) with hj | rfl
  · exact hscanned j hj w hwle hend
  · rw [← h.fileOffset] at hend
    have hall : ioctx.fileOffset - a = w := by omega
    have hcases := h.scanStop_cases rfl
    rw [hall, min_eq_left hwle, ← hoff] at hcases
    rcases hcases with ⟨hstop, -⟩ | ⟨hstop, hnl⟩
    · exact Or.inl hstop.ge
    · rw [← hstop, Nat.add_sub_cancel] at hnl
      exact Or.inr ⟨hstop.symm, hnl⟩

/-- Scanning again from where the scan stands comes to the same. -/
theorem canParse_stopped :
    mboxBufCanParseHeaders (mboxBufSetOffset ioctx.buf (scanStop file a ioctx)) =
      ok (false, mboxBufSetOffset ioctx.buf (scanStop file a ioctx)) := by
  have hs := h.stopped hnone
  have hparse := hs.canParse
  have hagain := hs.scanStop_cases rfl
  have hcases := h.scanStop_cases rfl
  have hnone' : headerEnd? (((textOf (file.drop a)).take (ioctx.fileOffset - a)).drop
      (scanStop file a ioctx)) = none := by
    rcases hj : headerEnd? (((textOf (file.drop a)).take (ioctx.fileOffset - a)).drop
      (scanStop file a ioctx)) with _ | j
    · rfl
    · obtain ⟨s, n, hline, -⟩ := emptyLineAt_of_headerEnd? hj
      rw [scanStop, ← List.drop_drop, emptyLineAt_drop] at hline
      exact absurd hline (not_emptyLineAt hnone)
  have hle : scanStop file a ioctx ≤ scanStop file a
      { ioctx with buf := mboxBufSetOffset ioctx.buf (scanStop file a ioctx) } :=
    Nat.le_add_right _ _
  have hsame : scanStop file a
      { ioctx with buf := mboxBufSetOffset ioctx.buf (scanStop file a ioctx) } =
      scanStop file a ioctx := by
    simp only [mboxBufSetOffset_offset] at hagain
    rcases hcases with ⟨hstop, -⟩ | ⟨hstop, hnl⟩
    · rcases hagain with ⟨hstop', -⟩ | ⟨hstop', -⟩
      · rw [hstop', hstop]
      · omega
    · rcases hagain with ⟨-, hne⟩ | ⟨hstop', -⟩
      · exact absurd hnl (hne (by omega))
      · omega
  rw [scanStop, mboxBufSetOffset_offset] at hsame
  simp only [mboxBufSetOffset_offset, hnone', hsame] at hparse
  exact hparse

end NotFound

end Searching

/-! ## The search -/

/-- Behind the text there is nothing that the search would have to pass: it is all there is, or
there is no text, or a NUL that ends the file is all there is behind it, without a newline in
front. -/
def SearchEnds (l : List MboxChar) : Prop :=
  (textOf l).length = l.length ∨ textOf l = [] ∨
    (textOf l).length + 1 = l.length ∧ (textOf l)[(textOf l).length - 1]? ≠ some nl

instance (l : List MboxChar) : Decidable (SearchEnds l) :=
  inferInstanceAs (Decidable (_ ∨ _ ∨ _ ∧ _))

namespace Searching

variable {ioctx : MboxIOCtx}

/-- The first byte of the buffer is a NUL when there is no text. -/
theorem load_zero (h : Searching file pread fo a i ioctx) :
    ∃ c, load ioctx.buf.data 0 = ok c ∧
      (c = nul ↔ min (ioctx.fileOffset - a) (textOf (file.drop a)).length = 0) := by
  obtain ⟨rest, hdata⟩ := h.window.holds.data
  obtain ⟨rest', hrest⟩ := textOf_append (slice file a ioctx.fileOffset) rest
  have htext : textOf (slice file a ioctx.fileOffset) =
      (textOf (file.drop a)).take (ioctx.fileOffset - a) := textOf_take _ _
  rw [hdata, hrest, ← List.length_take, ← htext]
  rcases hcons : textOf (slice file a ioctx.fileOffset) with _ | ⟨c, cs⟩
  · exact ⟨nul, rfl, Iff.intro (fun _ => rfl) fun _ => rfl⟩
  · refine ⟨c, rfl, Iff.intro (fun hc => ?_) fun hlen => by cases hlen⟩
    have hmem : nul ∈ textOf (slice file a ioctx.fileOffset) := by
      rw [hcons, hc]
      exact List.mem_cons_self ..
    exact absurd hmem (nul_notMem_textOf _)

/-- With nothing left to read, the text has been passed. -/
theorem searchEnds (h : Searching file pread fo a i ioctx)
    (hfile : ioctx.fileOffset = file.length)
    (hread : min (ioctx.fileOffset - a) (textOf (file.drop a)).length = 0 ∨
      ioctx.fileOffset - a ≤ scanStop file a ioctx + 1) : SearchEnds (file.drop a) := by
  have hle := textOf_length_le (file.drop a)
  have hcases := h.scanStop_cases rfl
  rw [hfile, ← List.length_drop, min_eq_right hle] at hcases hread
  rcases Nat.lt_or_eq_of_le hle with hlt | heq
  · right
    rcases hread with hzero | hnear
    · exact Or.inl (List.eq_nil_of_length_eq_zero hzero)
    rcases hcases with ⟨hstop, hne⟩ | ⟨hstop, -⟩
    · rcases Nat.eq_zero_or_pos (textOf (file.drop a)).length with hzero | hpos
      · exact Or.inl (List.eq_nil_of_length_eq_zero hzero)
      · refine Or.inr ⟨by omega, ?_⟩
        rcases Nat.lt_or_ge ioctx.buf.offset (textOf (file.drop a)).length with hoff | hoff
        · exact hne hoff
        · exact h.last (by omega) (le_antisymm h.text hoff)
    · omega
  · exact Or.inl heq

/-- In front of the end of the window, with text in it, the scan stands at a NUL. -/
theorem not_searchEnds (h : Searching file pread fo a i ioctx)
    (htext : min (ioctx.fileOffset - a) (textOf (file.drop a)).length ≠ 0)
    (hfar : scanStop file a ioctx + 1 < ioctx.fileOffset - a) :
    (textOf (file.drop a)).length < ioctx.fileOffset - a ∧ ¬ SearchEnds (file.drop a) := by
  have hin := h.window.inFile
  have hlen : (file.drop a).length = file.length - a := List.length_drop
  have hcases := h.scanStop_cases rfl
  have hlt : (textOf (file.drop a)).length < ioctx.fileOffset - a := by
    rcases hcases with ⟨hstop, -⟩ | ⟨hstop, -⟩ <;> omega
  rw [min_eq_right hlt.le] at hcases htext
  refine ⟨hlt, ?_⟩
  rintro (hall | hnil | ⟨hone, hne⟩)
  · omega
  · exact htext (congrArg List.length hnil)
  · rcases hcases with ⟨hstop, -⟩ | ⟨-, hnl⟩
    · omega
    · exact hne hnl

/-- Away from the end of the window the scan is made again and again. -/
theorem stalls (h : Searching file pread fo a i ioctx)
    (hnone : headerEnd? (((textOf (file.drop a)).take (ioctx.fileOffset - a)).drop
      ioctx.buf.offset) = none)
    (htext : min (ioctx.fileOffset - a) (textOf (file.drop a)).length ≠ 0)
    (hfar : scanStop file a ioctx + 1 < ioctx.fileOffset - a) (fuel : ℕ) :
    mboxParserCtxSeekHeaders fill pread fuel ioctx = timeout := by
  obtain ⟨c, hc, hnul⟩ := h.load_zero
  have hlen := h.window.len_eq
  have hstay : ¬ (c = nul ∨ ioctx.buf.len ≤ scanStop file a ioctx + 1) := by
    rw [not_or, hnul, hlen, Nat.not_le]
    exact ⟨htext, hfar⟩
  have hparse := h.canParse
  simp only [hnone] at hparse
  -- neither the offset nor the buffer changes, so the next iteration does the same
  have hagain : ∀ s : MboxIOCtx,
      s = { ioctx with buf := mboxBufSetOffset ioctx.buf (scanStop file a ioctx) } →
      ∃ s', seekHeadersStep fill pread s = ok (.inl s') ∧
        s' = { ioctx with buf := mboxBufSetOffset ioctx.buf (scanStop file a ioctx) } := by
    rintro s rfl
    refine ⟨_, ?_, rfl⟩
    simp only [seekHeadersStep, h.canParse_stopped hnone, ok_bind, Bool.false_eq_true, if_false,
      mboxBufSetOffset_data, mboxBufSetOffset_len, mboxBufSetOffset_offset, hc, pure_eq]
    exact if_neg hstay
  cases fuel with
  | zero => rfl
  | succ fuel =>
    have hfirst : seekHeadersStep fill pread ioctx =
        ok (.inl { ioctx with buf := mboxBufSetOffset ioctx.buf (scanStop file a ioctx) }) := by
      simp only [seekHeadersStep, hparse, ok_bind, Bool.false_eq_true, if_false,
        mboxBufSetOffset_data, mboxBufSetOffset_len, mboxBufSetOffset_offset, hc, pure_eq]
      exact if_neg hstay
    rw [mboxParserCtxSeekHeaders, loop_succ, hfirst, ok_bind]
    exact loop_diverges hagain fuel _ rfl

/-- At the end of the window, or without any text, more of the file is read. -/
theorem step_stopped (fill : ℕ → MboxChar) (h : Searching file pread fo a i ioctx)
    {c : MboxChar}
    (hnone : headerEnd? (((textOf (file.drop a)).take (ioctx.fileOffset - a)).drop
      ioctx.buf.offset) = none)
    (hc : load ioctx.buf.data 0 = ok c)
    (hread : c = nul ∨ ioctx.buf.len ≤ scanStop file a ioctx + 1) :
    seekHeadersStep fill pread ioctx = mboxIORead fill pread
      { ioctx with buf := mboxBufSetOffset ioctx.buf (scanStop file a ioctx) }
      mboxIOReadSize ioctx.buf.len ioctx.fileOffset >>= fun r =>
        if r.1 = 0 ∨ r.2.err ≠ 0 then pure (.inr (0, r.2))
        else pure (.inl { r.2 with fileOffset := r.2.fileOffset + r.1.toNat }) := by
  have hparse := h.canParse
  rw [hnone] at hparse
  simp only [seekHeadersStep, hparse, ok_bind, Bool.false_eq_true, if_false,
    mboxBufSetOffset_data, mboxBufSetOffset_len, mboxBufSetOffset_offset, hc]
  exact if_pos hread

/-- What an iteration comes to: it finds the first empty line that is seen, it goes on with a
greater window, or it ends at the end of the file with the text passed. -/
theorem step_cases (fill : ℕ → MboxChar) (hreads : ReadsFile file pread)
    (h : Searching file pread fo a i ioctx) :
    (∃ s n ioctx', seekHeadersStep fill pread ioctx = ok (.inr (1, ioctx')) ∧
      FirstSeenLine pread fo a (textOf (file.drop a)) s n ∧ ioctx'.buf.offset = s + n ∧
      Window file a ioctx' ∧ a + ioctx'.buf.offset ≤ ioctx'.fileOffset) ∨
    (∃ ioctx', seekHeadersStep fill pread ioctx = ok (.inl ioctx') ∧
      Searching file pread fo a (i + 1) ioctx' ∧ ioctx.fileOffset < ioctx'.fileOffset) ∨
    (∀ s n, ¬ SeenLine pread fo a (textOf (file.drop a)) s n) ∧
      ((SearchEnds (file.drop a) ∧
        ∃ ioctx', seekHeadersStep fill pread ioctx = ok (.inr (0, ioctx'))) ∨
      ¬ SearchEnds (file.drop a) ∧
        ∀ fuel, mboxParserCtxSeekHeaders fill pread fuel ioctx = timeout) := by
  rcases hj : headerEnd? (((textOf (file.drop a)).take (ioctx.fileOffset - a)).drop
    ioctx.buf.offset) with _ | j
  · right
    obtain ⟨c, hc, hnul⟩ := h.load_zero
    have hlen := h.window.len_eq
    have hlength := textOf_length_le (file.drop a)
    rw [List.length_drop] at hlength
    have hnone : (textOf (file.drop a)).length ≤ ioctx.fileOffset - a →
        ∀ s n, ¬ SeenLine pread fo a (textOf (file.drop a)) s n := by
      intro hle s n hs
      have hlt := h.lt_of_seen hj hs
      have hline := hs.1.le_length
      have hle' := h.window.le
      omega
    -- more is read, at the end of the window or of its text; else the scan is stuck at a NUL
    by_cases hread : c = nul ∨ ioctx.buf.len ≤ scanStop file a ioctx + 1
    · have hs := h.stopped hj
      have hstep := h.step_stopped fill hj hc hread
      rcases hs.window.read fill hreads hs.fileOffset with
        ⟨buf, n, hrun, hn, hfo, hoff, hw⟩ | ⟨hfile, buf, hrun⟩
      · left
        refine ⟨_, ?_, h.next hj hw hoff (Nat.le_add_right _ _) hfo, Nat.lt_add_of_pos_right hn⟩
        have hn0 : ¬ ((n : Int) = 0 ∨ mboxIOOk ≠ 0) := by
          simp only [ne_eq, not_true_eq_false, or_false]
          omega
        simp only [mboxBufSetOffset_len] at hrun
        rw [hstep, hrun, ok_bind]
        simp only [if_neg hn0, pure_eq, Int.toNat_natCast]
      · right
        rw [hnul, hlen] at hread
        have hends := h.searchEnds hfile hread
        have hall : ioctx.fileOffset = file.length := hfile
        refine ⟨hnone (by omega), Or.inl ⟨hends, ?_⟩⟩
        simp only [mboxBufSetOffset_len] at hrun
        rw [hstep, hrun, ok_bind]
        exact ⟨_, if_pos (Or.inl rfl)⟩
    · right
      rw [not_or, hnul, hlen, Nat.not_le] at hread
      obtain ⟨hlt, hends⟩ := h.not_searchEnds hread.1 hread.2
      exact ⟨hnone hlt.le, Or.inr ⟨hends, h.stalls hj hread.1 hread.2⟩⟩
  · left
    obtain ⟨s, n, hfirst, heq, hin⟩ := h.found hj
    have hparse := h.canParse
    rw [hj] at hparse
    refine ⟨s, n, _, ?_, hfirst, heq, h.window.setOffset _, hin⟩
    simp only [seekHeadersStep, hparse, ok_bind, if_true, pure_eq]

end Searching

/-- **The search for the end of the headers.** It returns the end of the first empty line that is
seen. Without one it fails at the end of the file, or never ends. -/
theorem seekHeaders_result (fill : ℕ → MboxChar) (hreads : ReadsFile file pread)
    {ioctx : MboxIOCtx} (h : Searching file pread fo a i ioctx) :
    (∃ s n ioctx', Converges (fun fuel => mboxParserCtxSeekHeaders fill pread fuel ioctx)
        (1, ioctx') ∧
      FirstSeenLine pread fo a (textOf (file.drop a)) s n ∧ ioctx'.buf.offset = s + n ∧
      Window file a ioctx' ∧ a + ioctx'.buf.offset ≤ ioctx'.fileOffset) ∨
    (∀ s n, ¬ SeenLine pread fo a (textOf (file.drop a)) s n) ∧
      ((SearchEnds (file.drop a) ∧ ∃ ioctx',
        Converges (fun fuel => mboxParserCtxSeekHeaders fill pread fuel ioctx) (0, ioctx')) ∨
      ¬ SearchEnds (file.drop a) ∧
        ∀ fuel, mboxParserCtxSeekHeaders fill pread fuel ioctx = timeout) := by
  -- by what is left of the file: an iteration that goes on has read some of it
  generalize hm : file.length - ioctx.fileOffset = m
  induction m using Nat.strongRecOn generalizing i ioctx with
  | _ m ih =>
    have hdone : ∀ r, seekHeadersStep fill pread ioctx = ok (.inr r) →
        Converges (fun fuel => mboxParserCtxSeekHeaders fill pread fuel ioctx) r :=
      fun r hr => (LoopTo.done (Converges.const hr)).converges
    rcases h.step_cases fill hreads with ⟨s, n, ioctx', hstep, hpost⟩ | ⟨ioctx', hstep, h', hlt⟩ |
        ⟨hnone, ⟨hends, ioctx', hstep⟩ | hstall⟩
    · exact Or.inl ⟨s, n, ioctx', hdone _ hstep, hpost⟩
    · have hin := h'.window.inFile
      have hmore : ∀ r, Converges (fun fuel => mboxParserCtxSeekHeaders fill pread fuel ioctx') r →
          Converges (fun fuel => mboxParserCtxSeekHeaders fill pread fuel ioctx) r := by
        intro r hr
        obtain ⟨fuel, hfuel⟩ := hr.exists_ok
        refine Converges.loop (n := fuel + 1) ?_
        rw [loop_succ, hstep, ok_bind]
        exact hfuel
      rcases ih (file.length - ioctx'.fileOffset) (by omega) h' rfl with
        ⟨s, n, ioctx'', hrun, hpost⟩ | ⟨hnone, ⟨hends, ioctx'', hrun⟩ | ⟨hends, hstall⟩⟩
      · exact Or.inl ⟨s, n, ioctx'', hmore _ hrun, hpost⟩
      · exact Or.inr ⟨hnone, Or.inl ⟨hends, ioctx'', hmore _ hrun⟩⟩
      · refine Or.inr ⟨hnone, Or.inr ⟨hends, fun fuel => ?_⟩⟩
        cases fuel with
        | zero => rfl
        | succ fuel =>
          rw [mboxParserCtxSeekHeaders, loop_succ, hstep, ok_bind]
          exact hstall fuel
    · exact Or.inr ⟨hnone, Or.inl ⟨hends, ioctx', hdone _ hstep⟩⟩
    · exact Or.inr ⟨hnone, Or.inr hstall⟩

/-- The search begins at the start of a window, in which nothing has been passed. -/
theorem Window.searching {ioctx : MboxIOCtx} (h : Window file a ioctx)
    (hoff : ioctx.buf.offset = 0) :
    Searching file pread ioctx.fileOffset a 0 ioctx := by
  have hle := h.le
  refine ⟨h, by omega, rfl, by omega, fun s n _ => by omega, fun j hj => by omega, fun hpos => ?_⟩
  omega

/-! ## Where reads end does not matter -/

/-- The search finds the end of the first empty line, or that there is none. -/
def SeeksHeaderEnd (fill : ℕ → MboxChar) (file : List MboxChar) (pread : Pread) (a : ℕ)
    (ioctx : MboxIOCtx) : Prop :=
  match headerEnd? (file.drop a) with
  | some k => ∃ ioctx', Converges
      (fun fuel => mboxParserCtxSeekHeaders fill pread fuel ioctx) (1, ioctx') ∧
      ioctx'.buf.offset = k
  | none => ∃ ioctx', Converges
      (fun fuel => mboxParserCtxSeekHeaders fill pread fuel ioctx) (0, ioctx')

/-- A read ends between the `\r` and the `\n` of the first empty line. -/
def CutAtCr (file : List MboxChar) (pread : Pread) (a fo : ℕ) : Prop :=
  ∃ k i, headerEnd? (file.drop a) = some k ∧ (file.drop a)[k - 2]? = some cr ∧
    readEnd pread fo i = a + k - 1

/-- The first empty line is seen exactly when no read ends between its two last bytes. -/
theorem not_cutAtCr_iff (pread : Pread) (fo : ℕ) (hk : headerEnd? (file.drop a) = some (s + n))
    (hline : EmptyLineAt (file.drop a) s n) :
    ¬ CutAtCr file pread a fo ↔ SeenLine pread fo a (file.drop a) s n := by
  have hbounds := hline.bounds
  constructor
  · refine fun hcut => ⟨hline, ?_⟩
    rintro rfl i hi
    exact hcut ⟨_, i, hk, hline.second, hi⟩
  · rintro ⟨-, hends⟩ ⟨k, i, hk', hcr, hi⟩
    obtain rfl := Option.some.inj (hk.symm.trans hk')
    obtain rfl | rfl : n = 2 ∨ n = 3 := by omega
    · rw [Nat.add_sub_cancel, hline.head] at hcr
      cases hcr
    · exact hends rfl i hi

section Boundaries

variable {ioctx : MboxIOCtx} (h0 : nul ∉ file.drop a) (hreads : ReadsFile file pread)
  (h : Window file a ioctx) (hoff : ioctx.buf.offset = 0)

include h0 hreads h hoff

/-- Where no read cuts the empty line, the search finds its end, or that there is none. -/
theorem seeksHeaderEnd_of_not_cut (hcut : ¬ CutAtCr file pread a ioctx.fileOffset) :
    SeeksHeaderEnd fill file pread a ioctx := by
  have hresult := seekHeaders_result fill hreads (h.searching hoff)
  rw [textOf_eq_self h0] at hresult
  rw [SeeksHeaderEnd]
  rcases hk : headerEnd? (file.drop a) with _ | k
  · rcases hresult with ⟨s, n, -, -, hfirst, -⟩ | ⟨-, ⟨-, hrun⟩ | ⟨hends, -⟩⟩
    · exact absurd hfirst.1.1 (not_emptyLineAt hk)
    · exact hrun
    · exact absurd (Or.inl (congrArg List.length (textOf_eq_self h0))) hends
  · obtain ⟨s, n, hline, rfl, hfirst⟩ := emptyLineAt_of_headerEnd? hk
    have hseen := (not_cutAtCr_iff pread ioctx.fileOffset hk hline).mp hcut
    rcases hresult with ⟨s', n', ioctx', hrun, hseen', hoff', -⟩ | ⟨hnone, -⟩
    · refine ⟨ioctx', hrun, ?_⟩
      obtain rfl := le_antisymm (hfirst s' n' hseen'.1.1) (hseen'.2 s n hseen)
      rw [hoff', hline.unique hseen'.1.1]
    · exact absurd hseen (hnone s n)

/-- Where a read does cut it, the carriage return is passed with the rest of the line in front, and
the empty line is not found any more. -/
theorem not_cut_of_seeksHeaderEnd (hseeks : SeeksHeaderEnd fill file pread a ioctx) :
    ¬ CutAtCr file pread a ioctx.fileOffset := by
  have hresult := seekHeaders_result fill hreads (h.searching hoff)
  rw [textOf_eq_self h0] at hresult
  intro hcut
  obtain ⟨k, -, hk, -⟩ := id hcut
  obtain ⟨s, n, hline, rfl, hfirst⟩ := emptyLineAt_of_headerEnd? hk
  rw [SeeksHeaderEnd] at hseeks
  simp only [hk] at hseeks
  obtain ⟨ioctx', hrun, hoff'⟩ := hseeks
  revert hcut
  rw [imp_false, not_cutAtCr_iff pread ioctx.fileOffset hk hline]
  rcases hresult with ⟨s', n', ioctx'', hrun', hseen', hoff'', -⟩ |
      ⟨-, ⟨-, ioctx'', hrun'⟩ | hstall⟩
  · obtain ⟨-, rfl⟩ := Prod.mk.inj (hrun.unique hrun')
    have hbounds := hline.bounds
    have hbounds' := hseen'.1.1.bounds
    have hsum : s' + n' = s + n := hoff''.symm.trans hoff'
    rcases Nat.lt_or_eq_of_le (hfirst s' n' hseen'.1.1) with hlt | rfl
    · -- the second byte of the first line would be a newline
      obtain rfl : s' = s + 1 := by omega
      have hhead := hseen'.1.1.head
      rw [hline.second, if_neg (by omega)] at hhead
      cases hhead
    · rw [Nat.add_left_cancel hsum] at hseen'
      exact hseen'.1
  · cases hrun.unique hrun'
  · exact absurd ⟨_, hrun⟩ (Diverges.not_terminates hstall.2)

end Boundaries

/-- **The end of the headers is independent of read boundaries**, exactly when none is between the
`\r` and the `\n` of the first empty line. -/
theorem seeksHeaderEnd_iff (h0 : nul ∉ file.drop a) (hreads : ReadsFile file pread)
    {ioctx : MboxIOCtx} (h : Window file a ioctx) (hoff : ioctx.buf.offset = 0) :
    SeeksHeaderEnd fill file pread a ioctx ↔ ¬ CutAtCr file pread a ioctx.fileOffset :=
  ⟨not_cut_of_seeksHeaderEnd h0 hreads h hoff, seeksHeaderEnd_of_not_cut h0 hreads h hoff⟩

/-- `"a: b"`, an empty line and `"c"`, with nothing read yet. -/
theorem seeksHeaderEnd_iff_short :
    SeeksHeaderEnd (fun _ => nul) [97, 58, 32, 98, nl, nl, 99]
        (preadRegular [97, 58, 32, 98, nl, nl, 99]) 0 ⟨0, 0, 0, 7, 0, 7, ⟨[nul], 0, 0, 1⟩⟩ ↔
      ¬ CutAtCr [97, 58, 32, 98, nl, nl, 99] (preadRegular [97, 58, 32, 98, nl, nl, 99]) 0 0 :=
  seeksHeaderEnd_iff (by decide) (readsFile_regular _)
    ⟨⟨rfl, [], rfl⟩, le_refl 0, Nat.zero_le _, rfl⟩ rfl

/-- `"a: b"`, an empty line and `"c"`, with lines ended by CRLF, in two reads: the first one ends
behind the `\r` of the empty line. -/
theorem cutAtCr_not_found :
    ¬ SeeksHeaderEnd (fun _ => nul) [97, 58, 32, 98, cr, nl, cr, nl, 99]
      (fun size offset => some (([97, 58, 32, 98, cr, nl, cr, nl, 99].drop offset).take
        (if offset < 7 then min size (7 - offset) else size)))
      0 ⟨0, 0, 0, 9, 0, 9, ⟨[nul], 0, 0, 1⟩⟩ := by
  intro hseeks
  refine not_cut_of_seeksHeaderEnd (by decide) (fun size offset hpos => ?_)
    ⟨⟨rfl, [], rfl⟩, le_refl 0, Nat.zero_le _, rfl⟩ rfl hseeks ⟨8, 1, by decide, by decide, ?_⟩
  · refine ⟨_, ?_, rfl, fun _ => ?_⟩ <;> split <;> omega
  · decide

end Libmbox2
