import Mathlib.Data.List.Forall2
import Libmbox2.Mail
import Libmbox2.NextMessage

/-!
# The messages a context delivers from a well-formed file

A context goes from message to message of a file `mboxFile ms`: as long as its range
reaches beyond the message it is at, it delivers it and is `Ready` for the next one
(`deliver_prefix`). Only the last message of the range can go wrong. When another message
stands behind it, it is delivered unless a newline behind its headers lies in the last
ten bytes of the first window that reaches beyond the range (`deliver_last`,
`deliver_lost`); at the end of the file it is delivered without its last bytes
(`deliver_eof`).
-/

namespace Libmbox2

open CSem CSem.Exec

/-! ## From lines -/

/-- A From line starts at `x`: the word stands there, at the start of the file or of a line. -/
def FromLineAt (file : List MboxChar) (x : ℕ) : Prop :=
  fromWord <+: file.drop x ∧ (x = 0 ∨ file[x - 1]? = some nl)

instance (file : List MboxChar) : DecidablePred (FromLineAt file) :=
  fun _ => inferInstanceAs (Decidable (_ ∧ _))

/-- The From lines that lie in `[a, b)`, in the order of the file. -/
def fromLines (file : List MboxChar) (a b : ℕ) : List ℕ :=
  (List.range' a (b - a)).filter fun x => FromLineAt file x

section FromLines

variable {file : List MboxChar} {a b c x : ℕ}

/-- Two intervals that meet have the From lines of the one they make. -/
theorem fromLines_append (hab : a ≤ b) (hbc : b ≤ c) :
    fromLines file a b ++ fromLines file b c = fromLines file a c := by
  rw [fromLines, fromLines, fromLines, ← List.filter_append]
  congr 1
  have h : List.range' a (b - a) ++ List.range' (a + (b - a)) (c - b) = _ :=
    List.range'_append_1
  rwa [show a + (b - a) = b by omega, show b - a + (c - b) = c - a by omega] at h

theorem fromLines_eq_nil (h : ∀ x, a ≤ x → x < b → ¬ FromLineAt file x) :
    fromLines file a b = [] := by
  rw [fromLines, List.filter_eq_nil_iff]
  intro x hx
  rw [List.mem_range'_1] at hx
  simpa using h x hx.1 (by omega)

/-- An interval with one From line. -/
theorem fromLines_eq_single (hax : a ≤ x) (hxb : x < b) (hx : FromLineAt file x)
    (h : ∀ y, a ≤ y → y < b → FromLineAt file y → y = x) : fromLines file a b = [x] := by
  have h1 : fromLines file a x = [] := fromLines_eq_nil fun y hy hyx hfrom => by
    have := h y hy (by omega) hfrom
    omega
  have h2 : fromLines file (x + 1) b = [] := fromLines_eq_nil fun y hy hyb hfrom => by
    have := h y (by omega) hyb hfrom
    omega
  have h3 : fromLines file x (x + 1) = [x] := by
    rw [fromLines, Nat.add_sub_cancel_left]
    simpa using hx
  rw [← fromLines_append hax hxb.le, ← fromLines_append (Nat.le_succ x) hxb, h1, h2, h3]
  rfl

end FromLines

variable {ms : List Mail}

/-- The From lines of a well-formed file are the starts of its messages. -/
theorem fromLineAt_iff {x : ℕ} :
    FromLineAt (mboxFile ms) x ↔ ∃ k, k < ms.length ∧ x = pos ms k := by
  constructor
  · rintro ⟨hfrom, hnl⟩
    rcases Nat.eq_zero_or_pos x with rfl | hpos
    · refine ⟨0, List.length_pos_iff.mpr ?_, rfl⟩
      rintro rfl
      exact absurd hfrom (by decide)
    · have hnl' : (mboxFile ms)[x - 1]? = some nl := hnl.resolve_left (by omega)
      obtain ⟨hlt, hget⟩ := List.getElem?_eq_some_iff.mp hnl'
      have h : nlFromWord <+: (mboxFile ms).drop (x - 1) := by
        rw [List.drop_eq_getElem_cons hlt, hget, nlFromWord, List.cons_prefix_cons,
          Nat.sub_add_cancel hpos]
        exact ⟨rfl, hfrom⟩
      obtain ⟨k, -, hk, hx⟩ := nlFrom_iff.mp h
      exact ⟨k, hk, by omega⟩
  · rintro ⟨k, hk, rfl⟩
    refine ⟨from_at_pos hk, ?_⟩
    rcases k with _ | k
    · exact Or.inl rfl
    · exact Or.inr (nl_before_pos (by omega))

/-- Where message `m` may be taken to start: its From line, or the newline in front. -/
def StartsAt (ms : List Mail) (m a : ℕ) : Prop := a = pos ms m ∨ 0 < m ∧ a + 1 = pos ms m

/-- A message starts at its From line, or at the newline in front. -/
theorem StartsAt.le {m a : ℕ} (h : StartsAt ms m a) : a ≤ pos ms m ∧ pos ms m ≤ a + 1 := by
  rcases h with rfl | ⟨-, h⟩ <;> omega

/-- Messages are longer than a newline: a position decides which message starts there. -/
theorem pos_inj_of_le {k m : ℕ} (hk : k ≤ ms.length) (hm : m ≤ ms.length)
    (hle : pos ms m ≤ pos ms k + 1) (hge : pos ms k ≤ pos ms m + 1) : k = m := by
  rcases Nat.lt_trichotomy k m with hlt | heq | hgt
  · have := pos_lt hlt hm
    omega
  · exact heq
  · have := pos_lt hgt hk
    omega

/-- The From lines from message `m` up to message `m + n`. -/
theorem fromLines_messages {m n a : ℕ} (hmn : m + n ≤ ms.length) (ha : StartsAt ms m a) :
    fromLines (mboxFile ms) a (pos ms (m + n)) = (List.range' m n).map (pos ms) := by
  induction n with
  | zero =>
    refine fromLines_eq_nil fun x hx hlt hfrom => ?_
    obtain ⟨k, hk, rfl⟩ := fromLineAt_iff.mp hfrom
    rw [Nat.add_zero] at hlt
    have hle := ha.le
    obtain rfl : k = m := pos_inj_of_le hk.le (by omega) (by omega) (by omega)
    omega
  | succ n ih =>
    have hlast : fromLines (mboxFile ms) (pos ms (m + n)) (pos ms (m + n + 1)) =
        [pos ms (m + n)] := by
      have hlt := pos_lt (show m + n < m + n + 1 by omega) hmn
      refine fromLines_eq_single (le_refl _) (by omega)
        (fromLineAt_iff.mpr ⟨m + n, by omega, rfl⟩) fun y hy hylt hfrom => ?_
      obtain ⟨k, hk, rfl⟩ := fromLineAt_iff.mp hfrom
      rcases Nat.lt_trichotomy k (m + n) with h | h | h
      · have := pos_lt h (by omega : m + n ≤ ms.length)
        omega
      · rw [h]
      · have := pos_le (show m + n + 1 ≤ k by omega) hk.le
        omega
    have hle : a ≤ pos ms (m + n) := by
      have := pos_le (show m ≤ m + n by omega) (by omega : m + n ≤ ms.length)
      have := ha.le
      omega
    have hle' := pos_le (show m + n ≤ m + n + 1 by omega) hmn
    rw [show m + (n + 1) = m + n + 1 by omega, ← fromLines_append hle hle', ih (by omega),
      hlast, List.range'_concat, List.map_append]
    simp

/-! ## One message -/

/-- The end of the headers of message `m`, as the search finds it from where the message is taken to
start. -/
theorem headers_at {m a : ℕ} (hm : m < ms.length) (ha : StartsAt ms m a) :
    ∃ k, headerEnd? ((mboxFile ms).drop a) = some k ∧
      ((mboxFile ms).drop a)[k - 2]? = some nl ∧ a + k = pos ms m + ms[m].head.length := by
  have hlen := ms[m].length_head
  rcases ha with rfl | ⟨hpos, ha⟩
  · refine ⟨ms[m].head.length, ?_, ?_, rfl⟩ <;> rw [drop_pos_of_lt hm]
    · exact headerEnd?_append ms[m].headerEnd?_bytes _
    · exact ms[m].head_nl _
  · have hnl : (mboxFile ms)[a]? = some nl := by
      obtain ⟨k, rfl⟩ : ∃ k, m = k + 1 := ⟨m - 1, by omega⟩
      have h := nl_before_pos (show k < ms.length by omega)
      rwa [← ha, Nat.add_sub_cancel] at h
    obtain ⟨hlt, hget⟩ := List.getElem?_eq_some_iff.mp hnl
    have hdrop : (mboxFile ms).drop a = nl :: (ms[m].bytes ++ mboxFile (ms.drop (m + 1))) := by
      rw [List.drop_eq_getElem_cons hlt, hget, ha, drop_pos_of_lt hm]
    refine ⟨ms[m].head.length + 1, ?_, ?_, by omega⟩ <;> rw [hdrop]
    · exact ms[m].headerEnd?_nl_bytes _
    · rw [show ms[m].head.length + 1 - 2 = ms[m].head.length - 2 + 1 by omega,
        List.getElem?_cons_succ]
      exact ms[m].head_nl _

/-- Behind the headers of message `m` there is no From line before the next message. -/
theorem noFromBefore_next {m x : ℕ} (hm : m < ms.length) (hx : pos ms m ≤ x) :
    NoFromBefore (mboxFile ms) x (pos ms (m + 1) - 1) := by
  intro p hxp hlt hfrom
  obtain ⟨k, -, hk, hp⟩ := nlFrom_iff.mp hfrom
  rcases Nat.lt_or_ge m k with h | h
  · have := pos_le (show m + 1 ≤ k by omega) hk.le
    omega
  · have := pos_le h hm.le
    omega

/-! ## The loop -/

section Loop

variable {fill : ℕ → MboxChar} {pread : Pread} {ctx ctx' : MboxParserCtx}
  {msg : MboxIOMsg} {acc : List MboxIOMsg} {r : List MboxIOMsg}

/-- A message that is not the last of the range. -/
theorem callback_next
    (h : Converges (fun n => mboxParserCtxGetNextMessage fill pread n ctx) (some msg, ctx'))
    (herr : ctx'.err ≠ mboxParseDone)
    (hrest : LoopTo (getNextMessageCallbackStep fill pread) (ctx', acc ++ [msg]) r) :
    LoopTo (getNextMessageCallbackStep fill pread) (ctx, acc) r := by
  refine LoopTo.step (Converges.bind h (Converges.const ?_)) hrest
  simp only [if_neg herr, pure_eq]

/-- The last message of the range: the call that delivers it notes that the range is done, so the
loop ends. -/
theorem callback_done
    (h : Converges (fun n => mboxParserCtxGetNextMessage fill pread n ctx) (some msg, ctx'))
    (herr : ctx'.err = mboxParseDone) :
    LoopTo (getNextMessageCallbackStep fill pread) (ctx, acc) (acc ++ [msg]) := by
  refine LoopTo.done (Converges.bind h (Converges.const ?_))
  simp only [if_pos herr, pure_eq]

/-- A call that delivers no message ends the loop, with the messages of before. -/
theorem callback_none
    (h : Converges (fun n => mboxParserCtxGetNextMessage fill pread n ctx) (none, ctx')) :
    LoopTo (getNextMessageCallbackStep fill pread) (ctx, acc) acc :=
  LoopTo.done (Converges.bind h (Converges.const rfl))

end Loop

/-- The bounds of `n` messages from message `m` on, the first of which is taken to start
at `a`. -/
def bounds (ms : List Mail) (a m : ℕ) : ℕ → List (ℕ × ℕ)
  | 0 => []
  | n + 1 => (a, pos ms (m + 1)) :: bounds ms (pos ms (m + 1)) (m + 1) n

/-- Where the message behind these is taken to start: at its From line, but where there are none in
front, at the start of the range. -/
def nextStart (ms : List Mail) (a m n : ℕ) : ℕ := if n = 0 then a else pos ms (m + n)

/-- The messages cover these ranges of the file, each its own. -/
def CoverAll (file : List MboxChar) (bs : List (ℕ × ℕ)) (msgs : List MboxIOMsg) : Prop :=
  List.Forall₂ (fun b msg => msg.Covers file b.1 b.2) bs msgs

@[simp] theorem length_bounds (ms : List Mail) (a m n : ℕ) : (bounds ms a m n).length = n := by
  induction n generalizing a m with
  | zero => rfl
  | succ n ih => rw [bounds, List.length_cons, ih]

/-- The message with a given number, counted from the first of them. -/
theorem covers_getElem? {n i m : ℕ} {msgs : List MboxIOMsg} {msg : MboxIOMsg}
    (h : CoverAll (mboxFile ms) (bounds ms (pos ms m) m n) msgs) (hi : i < n)
    (hmsg : msgs[i]? = some msg) :
    msg.Covers (mboxFile ms) (pos ms (m + i)) (pos ms (m + i + 1)) := by
  induction n generalizing m i msgs with
  | zero => exact absurd hi (Nat.not_lt_zero i)
  | succ n ih =>
    rcases h with _ | ⟨hfirst, hrest⟩
    cases i with
    | zero =>
      obtain rfl := Option.some.inj hmsg
      exact hfirst
    | succ i =>
      have h := ih hrest (by omega) hmsg
      rwa [show m + 1 + i = m + (i + 1) by omega] at h

/-- The start of the one behind is the same, whether the first message is counted or not. -/
theorem nextStart_succ (ms : List Mail) (a m n : ℕ) :
    nextStart ms (pos ms (m + 1)) (m + 1) n = nextStart ms a m (n + 1) := by
  rw [nextStart, nextStart, if_neg (Nat.succ_ne_zero n)]
  split
  · rename_i h
    rw [h]
  · congr 1
    omega

/-- One message more has the range up to the next From line. -/
theorem bounds_concat (ms : List Mail) (a m n : ℕ) :
    bounds ms a m (n + 1) = bounds ms a m n ++ [(nextStart ms a m n, pos ms (m + n + 1))] := by
  induction n generalizing a m with
  | zero => rfl
  | succ n ih =>
    rw [bounds, ih, nextStart_succ ms a, bounds, List.cons_append,
      show m + 1 + n + 1 = m + (n + 1) + 1 by omega]

/-- Where the message behind these is taken to start is where it may start. -/
theorem startsAt_nextStart {a m n : ℕ} (h : StartsAt ms m a) :
    StartsAt ms (m + n) (nextStart ms a m n) := by
  rw [nextStart]
  split
  · rename_i hn
    rwa [hn]
  · exact Or.inl rfl

section Run

variable {e l : ℕ} {P : ℕ → Prop}

/-- **The messages in front of the last one of a range are delivered**, and leave the
context ready for the last one. -/
theorem deliver_prefix (fill : ℕ → MboxChar) (hl : l < ms.length) (hle : pos ms l + 10 ≤ e)
    (hP : ∀ fo, P fo → fo ≤ e → P (min (mboxFile ms).length (fo + mboxIOReadSize)))
    {n m a : ℕ} {ctx : MboxParserCtx} (acc : List MboxIOMsg) (hn : m + n = l)
    (ha : StartsAt ms m a) (h : Ready (mboxFile ms) a e P ctx.ioctx)
    (herr : ctx.err ≠ mboxParseDone) :
    ∃ ctx' msgs, Ready (mboxFile ms) (nextStart ms a m n) e P ctx'.ioctx ∧
      ctx'.err ≠ mboxParseDone ∧ CoverAll (mboxFile ms) (bounds ms a m n) msgs ∧
      ∀ r, LoopTo (getNextMessageCallbackStep fill (preadRegular (mboxFile ms)))
          (ctx', acc ++ msgs) r →
        LoopTo (getNextMessageCallbackStep fill (preadRegular (mboxFile ms))) (ctx, acc) r := by
  induction n generalizing m a ctx acc with
  | zero => exact ⟨ctx, [], h, herr, List.Forall₂.nil, fun r hr => by rwa [List.append_nil] at hr⟩
  | succ n ih =>
    have hm : m < ms.length := by omega
    obtain ⟨k, hk, hlf, hak⟩ := headers_at hm ha
    have hhead := ms[m].head_le
    have hnext := pos_succ hm
    have hmnext := pos_lt (show m + 1 < m + 2 by omega) (show m + 2 ≤ ms.length by omega)
    have hend := pos_le_length (show m + 2 ≤ ms.length by omega)
    have hml := pos_le (show m + 1 ≤ l by omega) hl.le
    obtain ⟨msg, ctx', hcall, hmsg, hready, herr'⟩ := getNextMessage_found fill
      (nul_notMem_mboxFile ms) hk hlf (q := pos ms (m + 1) - 1) (by omega)
      (nlFrom_iff.mpr ⟨m + 1, by omega, by omega, by omega⟩) (by omega)
      (noFromBefore_next hm (by omega)) (by omega) hP
      (fun fo _ hefo p _ hpq _ hnear => by omega) h
    rw [show pos ms (m + 1) - 1 + 1 = pos ms (m + 1) by omega] at hmsg hready herr'
    have herr'' : ctx'.err ≠ mboxParseDone := by
      rw [herr', if_neg (by omega)]
      exact herr
    obtain ⟨ctx'', msgs, hready', herrlast, hcover, hrest⟩ :=
      ih (acc ++ [msg]) (show m + 1 + n = l by omega) (Or.inl rfl) hready herr''
    refine ⟨ctx'', msg :: msgs, ?_, herrlast, List.Forall₂.cons hmsg hcover, fun r hr => ?_⟩
    · rwa [nextStart_succ ms a] at hready'
    · refine callback_next hcall herr'' (hrest r ?_)
      rwa [List.append_assoc, List.singleton_append]

end Run

end Libmbox2
