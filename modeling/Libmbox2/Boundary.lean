import Libmbox2.Sender

/-!
# Boundaries (`mboxIsEOM`, `mboxParseMessageBody`)

Two functions recognise a boundary. `mboxIsEOM` is called at the dashes in front of it,
`mboxParseMessageBody` scans for it and tests behind them; both look at the two bytes behind it
to tell whether the message ends. They do not agree. The first of them takes any byte but a NUL
for the second dash, and the second one goes on by four bytes behind the boundary, as from the
dashes in front of it, though only the two dashes are left to pass (`recognisersAgree_iff`).

A scan that begins at the dashes in front of a boundary all of whose bytes are dashes finds it one
byte too early, between them. The body ends before it begins: its length wraps around, and the copy
leaves the buffer (`mboxParseMessageBody_of_dashes`).
-/

namespace Libmbox2

open CSem CSem.Exec

/-- `'-'`, two of which stand in front of a boundary. -/
abbrev dash : MboxChar := 45

/-- `MBOX_MSG_EOF`, the buffer ends. -/
def mboxMsgEof : Int := -1

/-- `MBOX_MSG_NO_MATCH`, there is no boundary. -/
def mboxMsgNoMatch : Int := 3

/-- `MBOX_MSG_EOM`, the boundary that ends a message. -/
def mboxMsgEom : Int := 4

/-- `MBOX_MSG_MATCH`, one between two parts. -/
def mboxMsgMatch : Int := 5

/-- `strncmp(s, t, n) == 0`, which reads both up to the first difference or NUL. -/
def strncmpEq : ℕ → List MboxChar → List MboxChar → Exec Bool
  | 0, _, _ => pure true
  | n + 1, s, t => do
    let x ← load s 0
    let y ← load t 0
    if x ≠ y then pure false
    else if x = nul then pure true
    else strncmpEq n (s.drop 1) (t.drop 1)

/-- `mboxBufWouldOverflow`: so many bytes more are behind the end of the buffer. -/
def mboxBufWouldOverflow (buf : MboxBuf) (offset additional : ℕ) : Bool :=
  buf.len < offset + additional

/-- `mboxParseIsBoundary`: the boundary stands where the reader does. -/
def mboxParseIsBoundary (ctxbuf : MboxBuf) (offset : ℕ) (boundary : MboxBuf) : Exec Bool :=
  strncmpEq boundary.len (ctxbuf.data.drop offset) boundary.data

/-- A dash, and behind it a byte that `next` accepts. The second byte is only read if the first
one is a dash. -/
def dashAnd (buf : MboxBuf) (i : ℕ) (next : MboxChar → Bool) : Exec Bool := do
  let c ← load buf.data i
  if c = dash then do
    let d ← load buf.data (i + 1)
    pure (next d)
  else pure false

/-- `mboxIsEOM`: what stands here is told by a code, and the reader goes behind a boundary. -/
def mboxIsEOM (buf boundary : MboxBuf) : Exec (Int × MboxBuf) := do
  let first ← mboxBufMatchChar buf.data buf.offset dash
  let dashes ← (if first then mboxBufMatchCharAt buf buf.offset dash 1 else pure false : Exec Bool)
  if dashes then
    if mboxBufWouldOverflow buf buf.offset (3 + boundary.len) then pure (mboxMsgEof, buf)
    else
      let contains ← strncmpEq boundary.len (buf.data.drop (buf.offset + 2)) boundary.data
      if contains then
        -- the byte behind the dash need only not be a NUL
        if ← dashAnd buf (buf.offset + 2 + boundary.len) (· ≠ nul) then
          pure (mboxMsgEom, mboxBufSetOffset buf (buf.offset + (4 + boundary.len)))
        else pure (mboxMsgMatch, mboxBufSetOffset buf (buf.offset + (2 + boundary.len)))
      else pure (mboxMsgNoMatch, buf)
  else pure (mboxMsgNoMatch, buf)

/-- The inner loop of `mboxParseMessageBody`: how far it is to a dash, or to the byte in front of
one that the boundary begins with. -/
def dashScan (boundary : MboxBuf) : List MboxChar → Exec ℕ
  | [] => fault
  | c :: d =>
    if c = dash then pure 0
    else do
      let next ← load d 0
      let first ← load boundary.data 0
      if next = first then pure 0
      else do
        let k ← dashScan boundary d
        pure (k + 1)

/-- An iteration of the outer loop: the offset, and, where the loop is left, whether the boundary
is there. -/
def bodyStep (buf boundary : MboxBuf) (offset : ℕ) : Exec (ℕ ⊕ (ℕ × Bool)) :=
  if offset < buf.len then do
    let k ← dashScan boundary (buf.data.drop offset)
    let offset := offset + k + 1
    let isboundary ← mboxParseIsBoundary buf offset boundary
    if isboundary then pure (.inr (offset, true)) else pure (.inl offset)
  else pure (.inr (offset, false))

/-- The boundary is at `offset`, and the body in front of it. -/
def takeBody (fill : ℕ → MboxChar) (buf boundary : MboxBuf) (start offset : ℕ) :
    Exec (MboxBuf × Int × ℕ) := do
  let bodylen := sizeSub (sizeSub offset 2) start
  let body ← mboxBufDupRaw fill (buf.data.drop start) bodylen (bodylen + 10)
  let offset := offset + boundary.len
  if ← dashAnd buf offset (· = dash) then pure (body, mboxMsgEom, offset + 4)
  else pure (body, mboxMsgMatch, sizeSub offset (boundary.len + 2))

/-- `mboxParseMessageBody`: the body up to the next boundary, if there is one, and `*msgstatus`. -/
def mboxParseMessageBody (fill : ℕ → MboxChar) (fuel : ℕ) (buf boundary : MboxBuf)
    (msgstatus : Int) : Exec (Option MboxBuf × Int × MboxBuf) := do
  let (offset, found) ← loop (bodyStep buf boundary) fuel buf.offset
  let (body, msgstatus, offset) ← (if found then do
      let (body, msgstatus, offset) ← takeBody fill buf boundary buf.offset offset
      pure (some body, msgstatus, offset)
    else pure (none, msgstatus, offset) : Exec (Option MboxBuf × Int × ℕ))
  pure (body, if offset + 1 = buf.len then mboxMsgEof else msgstatus, mboxBufSetOffset buf offset)

/-! ## Agreement -/

/-- The scan that begins at `start` comes to the byte at `p`, whatever it makes of it: an iteration
of the outer loop begins at or before it, and its inner loop goes on as far as there. -/
def Reaches (buf boundary : MboxBuf) (start p : ℕ) : Prop :=
  ∃ o k, Visits (bodyStep buf boundary) start o ∧
    dashScan boundary (buf.data.drop o) = ok k ∧ o ≤ p ∧ p ≤ o + k

/-- With the boundary behind the dashes at `p`, and the bytes `c` and `d` behind it, both report the
end of the message where these are dashes, and a match where they are not; and at the end of the
message they leave the same offset. -/
def RecognisersAgree (fill : ℕ → MboxChar) (buf boundary : MboxBuf) (p : ℕ) (c d : MboxChar) :
    Prop :=
  ∃ verdict buf₁, mboxIsEOM (mboxBufSetOffset buf p) boundary = ok (verdict, buf₁) ∧
    verdict = (if c = dash ∧ d = dash then mboxMsgEom else mboxMsgMatch) ∧
    ∀ start, start ≤ p → Reaches buf boundary start p → ∀ msgstatus, ∃ body buf₂,
      Converges (fun n => mboxParseMessageBody fill n (mboxBufSetOffset buf start) boundary
        msgstatus) (body, verdict, buf₂) ∧
      (verdict = mboxMsgEom → buf₁.offset = buf₂.offset)

/-! ## What is read at an occurrence -/

/-- A text without a NUL is compared as a whole. -/
theorem strncmpEq_eq {b : List MboxChar} (hnul : nul ∉ b) (s rest : List MboxChar) :
    strncmpEq b.length s (b ++ rest) = matchAt b s := by
  induction b generalizing s with
  | nil => simp [strncmpEq, matchAt]
  | cons y b ih =>
    cases s with
    | nil => rfl
    | cons x s =>
      have hy : y ≠ nul := fun heq => hnul (heq ▸ List.mem_cons_self ..)
      have hx : load (x :: s) 0 = ok x := rfl
      have hy' : load (y :: b ++ rest) 0 = ok y := rfl
      rw [List.length_cons, strncmpEq, hx, ok_bind, hy', ok_bind, matchAt]
      by_cases heq : x = y
      · rw [if_neg (not_not.mpr heq), if_neg (heq ▸ hy), if_pos heq]
        exact ih (fun hmem => hnul (List.mem_cons_of_mem _ hmem)) s
      · rw [if_pos heq, if_neg heq, pure_eq]

/-- A list is in front of itself, one place on, when its elements are what is put in front. -/
theorem prefix_cons_self_iff {α : Type} {x : α} (b rest : List α) :
    b <+: x :: (b ++ rest) ↔ ∀ y ∈ b, y = x := by
  induction b generalizing rest with
  | nil => simp
  | cons y b ih =>
    rw [List.cons_prefix_cons, List.forall_mem_cons]
    constructor
    · rintro ⟨rfl, h⟩
      exact ⟨rfl, (ih rest).mp h⟩
    · rintro ⟨rfl, h⟩
      exact ⟨rfl, (ih rest).mpr h⟩

section Occurrence

variable {fill : ℕ → MboxChar} {buf boundary : MboxBuf} {b : List MboxChar} {c d : MboxChar}
  {p start : ℕ}

/-- Behind dashes the boundary is in the buffer, and two bytes behind it. -/
def Occurs (buf : MboxBuf) (b : List MboxChar) (p : ℕ) (c d : MboxChar) : Prop :=
  [dash, dash] ++ b ++ [c, d] <+: buf.bytes.drop p

/-- An occurrence in the block: two dashes, the boundary, and the two bytes behind it. -/
theorem Occurs.exists_data (h : Occurs buf b p c d) :
    ∃ rest, buf.data.drop p = dash :: dash :: (b ++ c :: d :: rest) := by
  obtain ⟨rest, hrest⟩ := h.trans ((List.take_prefix buf.len buf.data).drop p)
  exact ⟨rest, by rw [← hrest]; simp⟩

theorem Occurs.len_le (h : Occurs buf b p c d) : p + 4 + b.length ≤ buf.len := by
  have hle := h.length_le
  have htake : buf.bytes.length ≤ buf.len := List.length_take_le ..
  simp only [List.length_append, List.length_cons, List.length_nil, List.length_drop] at hle
  omega

/-- Whether the boundary stands somewhere is asked of the text. -/
theorem mboxParseIsBoundary_eq (hb : boundary.Holds b) (hnul : nul ∉ b) (o : ℕ) :
    mboxParseIsBoundary buf o boundary = matchAt b (buf.data.drop o) := by
  obtain ⟨rest, hdata⟩ := hb.data
  rw [mboxParseIsBoundary, hb.len, hdata, strncmpEq_eq hnul]

theorem Occurs.matches (h : Occurs buf b p c d) : matchAt b (buf.data.drop (p + 2)) = ok true := by
  obtain ⟨rest, hdata⟩ := h.exists_data
  rw [← List.drop_drop, hdata, List.drop_succ_cons, List.drop_succ_cons, List.drop_zero,
    matchAt_of_le (List.length_append ▸ Nat.le_add_right ..),
    decide_eq_true (List.prefix_append ..)]

/-- Between the dashes it is when it consists of dashes. -/
theorem Occurs.matches_between (h : Occurs buf b p c d) :
    ∃ found, matchAt b (buf.data.drop (p + 1)) = ok found ∧
      (found = true ↔ ∀ x ∈ b, x = dash) := by
  obtain ⟨rest, hdata⟩ := h.exists_data
  have hlen : b.length ≤ (dash :: (b ++ c :: d :: rest)).length := by
    rw [List.length_cons, List.length_append]
    omega
  refine ⟨_, ?_, decide_eq_true_iff.trans (prefix_cons_self_iff b (c :: d :: rest))⟩
  rw [← List.drop_drop, hdata, List.drop_succ_cons, List.drop_zero, matchAt_of_le hlen]

/-- Behind the boundary are its two bytes. -/
theorem Occurs.dashAnd (h : Occurs buf b p c d) (next : MboxChar → Bool) :
    dashAnd buf (p + 2 + b.length) next = ok (decide (c = dash) && next d) := by
  obtain ⟨rest, hdata⟩ := h.exists_data
  have hbehind (j : ℕ) : load buf.data (p + 2 + b.length + j) = load (c :: d :: rest) j := by
    have hdrop : buf.data.drop (p + 2 + b.length) = c :: d :: rest := by
      rw [← List.drop_drop, ← List.drop_drop, hdata, List.drop_succ_cons, List.drop_succ_cons,
        List.drop_zero, List.drop_left]
    rw [← load_drop, hdrop]
  have hc : load buf.data (p + 2 + b.length) = ok c := hbehind 0
  have hd : load buf.data (p + 2 + b.length + 1) = ok d := hbehind 1
  rw [Libmbox2.dashAnd, hc, ok_bind]
  by_cases hdash : c = dash
  · rw [if_pos hdash, hd, ok_bind, decide_eq_true hdash, Bool.true_and, pure_eq]
  · rw [if_neg hdash, decide_eq_false hdash, Bool.false_and, pure_eq]

/-! ## The two verdicts -/

/-- **`mboxIsEOM` at the dashes** tells the two kinds apart by the byte behind the boundary. -/
theorem mboxIsEOM_eq (hb : boundary.Holds b) (hnul : nul ∉ b) (h : Occurs buf b p c d) :
    mboxIsEOM (mboxBufSetOffset buf p) boundary =
      if c = dash ∧ d ≠ nul then ok (mboxMsgEom, mboxBufSetOffset buf (p + (4 + b.length)))
      else ok (mboxMsgMatch, mboxBufSetOffset buf (p + (2 + b.length))) := by
  obtain ⟨rest, hdata⟩ := h.exists_data
  have hlen := h.len_le
  have hfirst : load buf.data p = ok dash := by
    rw [← Nat.add_zero p, ← load_drop, hdata]
    rfl
  have hsecond : load buf.data (p + 1) = ok dash := by
    rw [← load_drop, hdata]
    rfl
  have hchar : mboxBufMatchChar buf.data p dash = ok true := by
    rw [mboxBufMatchChar, hfirst, ok_bind]
    rfl
  have hat : mboxBufMatchCharAt (mboxBufSetOffset buf p) p dash 1 = ok true := by
    rw [mboxBufMatchCharAt, if_neg (by rw [mboxBufSetOffset_len]; omega), mboxBufSetOffset_data,
      hsecond, ok_bind]
    rfl
  have hroom : mboxBufWouldOverflow (mboxBufSetOffset buf p) p (3 + b.length) = false := by
    rw [mboxBufWouldOverflow, mboxBufSetOffset_len]
    exact decide_eq_false (by omega)
  obtain ⟨brest, hbdata⟩ := hb.data
  have hcontains : strncmpEq b.length (buf.data.drop (p + 2)) boundary.data = ok true := by
    rw [hbdata, strncmpEq_eq hnul, h.matches]
  have hbehind : dashAnd (mboxBufSetOffset buf p) (p + 2 + b.length) (· ≠ nul) =
      ok (decide (c = dash) && decide (d ≠ nul)) := h.dashAnd _
  rw [mboxIsEOM, mboxBufSetOffset_offset, mboxBufSetOffset_data, hchar, ok_bind, if_pos rfl, hat,
    ok_bind, if_pos rfl, hb.len, hroom, if_neg Bool.false_ne_true, hcontains, ok_bind, if_pos rfl,
    hbehind, ok_bind, ← Bool.decide_and]
  by_cases hverdict : c = dash ∧ d ≠ nul
  · rw [if_pos hverdict, if_pos (decide_eq_true hverdict)]
    rfl
  · rw [if_neg hverdict, if_neg (by simpa using hverdict)]
    rfl

/-- **What `mboxParseMessageBody` does behind the dashes**: the body ends in front of them, and the
status says by both bytes behind the boundary whether the message ends. -/
theorem takeBody_eq (fill : ℕ → MboxChar) (hb : boundary.Holds b) (h : Occurs buf b p c d)
    (hstart : start ≤ p) :
    ∃ body, takeBody fill buf boundary start (p + 2) =
      ok (body, if c = dash ∧ d = dash then (mboxMsgEom, p + 2 + b.length + 4)
        else (mboxMsgMatch, p)) := by
  obtain ⟨rest, hdata⟩ := h.exists_data
  have hlong := congrArg List.length hdata
  simp only [List.length_drop, List.length_cons] at hlong
  have hsize : sizeSub (sizeSub (p + 2) 2) start = p - start := by
    rw [sizeSub_of_le (Nat.le_add_left 2 p), Nat.add_sub_cancel, sizeSub_of_le hstart]
  have hback : sizeSub (p + 2 + b.length) (b.length + 2) = p := by
    rw [sizeSub_of_le (by omega)]
    omega
  have hroom : p - start ≤ (buf.data.drop start).length := by
    rw [List.length_drop]
    omega
  obtain ⟨body, hbody, -⟩ := mboxBufDupRaw_spec fill hroom
    (show p - start ≤ p - start + 10 + 9 by omega)
  refine ⟨body, ?_⟩
  rw [takeBody]
  simp only [hsize, hbody, ok_bind, hb.len, h.dashAnd]
  rw [← Bool.decide_and]
  by_cases hverdict : c = dash ∧ d = dash
  · rw [if_pos hverdict, if_pos (by simpa using hverdict)]
    rfl
  · rw [if_neg hverdict, if_neg (by simpa using hverdict), hback]
    rfl

/-- Where the scan finds the boundary, this is what the function does. -/
theorem mboxParseMessageBody_of_finds (fill : ℕ → MboxChar) (hb : boundary.Holds b)
    (h : Occurs buf b p c d) (hstart : start ≤ p)
    (hfinds : Converges (fun n => loop (bodyStep buf boundary) n start) (p + 2, true))
    (msgstatus : Int) :
    ∃ body, Converges (fun n => mboxParseMessageBody fill n (mboxBufSetOffset buf start) boundary
        msgstatus)
      (body, if c = dash ∧ d = dash then
          (if p + 2 + b.length + 4 + 1 = buf.len then mboxMsgEof else mboxMsgEom,
            mboxBufSetOffset buf (p + 2 + b.length + 4))
        else (mboxMsgMatch, mboxBufSetOffset buf p)) := by
  obtain ⟨body, hbody⟩ := takeBody_eq fill hb h hstart
  have hlen := h.len_le
  have hloop : Converges (fun n => loop (bodyStep (mboxBufSetOffset buf start) boundary) n start)
      (p + 2, true) := hfinds
  have htake : takeBody fill (mboxBufSetOffset buf start) boundary start (p + 2) = _ := hbody
  refine ⟨some body, Converges.bind hloop (Converges.const ?_)⟩
  simp only [if_true, mboxBufSetOffset_offset, htake, ok_bind, pure_eq, mboxBufSetOffset_len]
  by_cases hverdict : c = dash ∧ d = dash
  · simp only [if_pos hverdict]
    rfl
  · simp only [if_neg hverdict]
    rw [if_neg (by omega)]
    rfl

/-! ## Where the scan comes to -/

/-- The inner loop does not go over a dash. -/
theorem dashScan_le {data : List MboxChar} {k j : ℕ} (hk : dashScan boundary data = ok k)
    (hj : data[j]? = some dash) : k ≤ j := by
  induction data generalizing k j with
  | nil => cases hk
  | cons x data ih =>
    rw [dashScan] at hk
    split at hk
    · cases hk
      exact Nat.zero_le j
    · next hx =>
      obtain ⟨next, -, hk⟩ := bind_eq_ok hk
      obtain ⟨first, -, hk⟩ := bind_eq_ok hk
      split at hk
      · cases hk
        exact Nat.zero_le j
      · obtain ⟨k', hk', hk⟩ := bind_eq_ok hk
        cases hk
        cases j with
        | zero => exact absurd (Option.some.inj hj) hx
        | succ j => exact Nat.succ_le_succ (ih hk' hj)

theorem Occurs.getElem? (h : Occurs buf b p c d) :
    buf.data[p]? = some dash ∧ buf.data[p + 1]? = some dash := by
  obtain ⟨rest, hdata⟩ := h.exists_data
  rw [← Nat.add_zero p, ← List.getElem?_drop, hdata, Nat.add_zero, ← List.getElem?_drop, hdata]
  exact ⟨rfl, rfl⟩

theorem Occurs.dashScan_self (h : Occurs buf b p c d) :
    dashScan boundary (buf.data.drop p) = ok 0 := by
  obtain ⟨rest, hdata⟩ := h.exists_data
  rw [hdata, dashScan, if_pos rfl, pure_eq]

/-- A scan that begins at the dashes comes to them. -/
theorem Occurs.reaches_self (h : Occurs buf b p c d) : Reaches buf boundary p p :=
  ⟨p, 0, .start, h.dashScan_self, le_refl p, le_refl p⟩

/-- A step from a dash tests at the next byte. -/
theorem bodyStep_dash (hb : boundary.Holds b) (hnul : nul ∉ b) {o : ℕ} (hlt : o < buf.len)
    (ho : buf.data[o]? = some dash) {found : Bool}
    (hfound : matchAt b (buf.data.drop (o + 1)) = ok found) :
    bodyStep buf boundary o = ok (if found then .inr (o + 1, true) else .inl (o + 1)) := by
  obtain ⟨hin, hget⟩ := List.getElem?_eq_some_iff.mp ho
  have hscan : dashScan boundary (buf.data.drop o) = ok 0 := by
    rw [List.drop_eq_getElem_cons hin, hget, dashScan, if_pos rfl, pure_eq]
  simp only [bodyStep, if_pos hlt, hscan, ok_bind, mboxParseIsBoundary_eq hb hnul, Nat.add_zero,
    hfound, pure_eq]
  cases found <;> rfl

/-- The last inner loop of a scan that comes to the dashes stops at the first of them. -/
theorem Reaches.exists_visits (h : Occurs buf b p c d) (hreach : Reaches buf boundary start p) :
    ∃ o, Visits (bodyStep buf boundary) start o ∧
      dashScan boundary (buf.data.drop o) = ok (p - o) ∧ o ≤ p := by
  obtain ⟨o, k, hvisits, hscan, hle, hge⟩ := hreach
  have hdash : (buf.data.drop o)[p - o]? = some dash := by
    rw [List.getElem?_drop, Nat.add_sub_cancel' hle]
    exact h.getElem?.1
  have hk : k ≤ p - o := dashScan_le hscan hdash
  obtain rfl : k = p - o := by omega
  exact ⟨o, hvisits, hscan, hle⟩

/-- A boundary that is not made of dashes is found by every scan that comes to the dashes in front
of it: it is not between them. -/
theorem Reaches.finds (hb : boundary.Holds b) (hnul : nul ∉ b) (h : Occurs buf b p c d)
    (hdashes : ¬ ∀ x ∈ b, x = dash) (hreach : Reaches buf boundary start p) :
    Converges (fun n => loop (bodyStep buf boundary) n start) (p + 2, true) := by
  have hlen := h.len_le
  obtain ⟨o, hvisits, hscan, hle⟩ := hreach.exists_visits h
  obtain ⟨between, hbetween, hiff⟩ := h.matches_between
  rw [Bool.eq_false_iff.mpr (mt hiff.mp hdashes)] at hbetween
  have hfirst : bodyStep buf boundary o = ok (.inl (p + 1)) := by
    have hto : o + (p - o) + 1 = p + 1 := by omega
    simp only [bodyStep, if_pos (show o < buf.len by omega), hscan, ok_bind, hto,
      mboxParseIsBoundary_eq hb hnul, hbetween]
    rfl
  have hsecond : bodyStep buf boundary (p + 1) = ok (.inr (p + 2, true)) :=
    bodyStep_dash hb hnul (by omega) h.getElem?.2 h.matches
  have hloop : loop (bodyStep buf boundary) 2 o = ok (p + 2, true) := by
    simp only [loop_succ, hfirst, hsecond, ok_bind]
  obtain ⟨n, hn⟩ := hvisits.loop_eq_ok hloop
  exact Converges.loop hn

/-- A boundary of dashes is found between the dashes in front of it. The body's length is then
`(size_t)-1`, and the bytes copied are not there. -/
theorem mboxParseMessageBody_of_dashes (fill : ℕ → MboxChar) (hb : boundary.Holds b)
    (hnul : nul ∉ b) (h : Occurs buf b p c d) (hsize : buf.data.length + 1 < 2 ^ 64)
    (hdashes : ∀ x ∈ b, x = dash) (msgstatus : Int) (n : ℕ) :
    mboxParseMessageBody fill (n + 1) (mboxBufSetOffset buf p) boundary msgstatus = fault := by
  have hlen := h.len_le
  obtain ⟨between, hbetween, hiff⟩ := h.matches_between
  rw [hiff.mpr hdashes] at hbetween
  have hstep : bodyStep (mboxBufSetOffset buf p) boundary p = ok (.inr (p + 1, true)) :=
    bodyStep_dash hb hnul (by omega) h.getElem?.1 hbetween
  have hloop : loop (bodyStep (mboxBufSetOffset buf p) boundary) (n + 1) p = ok (p + 1, true) := by
    rw [loop_succ, hstep, ok_bind]
  have hbody : sizeSub (sizeSub (p + 1) 2) p = 2 ^ 64 - 1 := by
    simp only [sizeSub]
    split <;> split <;> omega
  have hload : loadBytes (buf.data.drop p) 0 (2 ^ 64 - 1) = fault := by
    rw [loadBytes, if_neg]
    rw [List.length_drop]
    omega
  have htake : takeBody fill (mboxBufSetOffset buf p) boundary p (p + 1) = fault := by
    simp only [takeBody, hbody, mboxBufSetOffset_data, mboxBufDupRaw, hload, fault_bind]
  simp only [mboxParseMessageBody, mboxBufSetOffset_offset, hloop, ok_bind, if_true, htake,
    fault_bind]

/-- Where `mboxIsEOM` takes the boundary for one that does not end the message, it does not. -/
theorem agree_of_match (fill : ℕ → MboxChar) (hb : boundary.Holds b) (hnul : nul ∉ b)
    (h : Occurs buf b p c d) (hdashes : ¬ ∀ x ∈ b, x = dash) (hmatch : ¬ (c = dash ∧ d ≠ nul)) :
    RecognisersAgree fill buf boundary p c d := by
  have hopen : ¬ (c = dash ∧ d = dash) := by
    rintro ⟨hc, rfl⟩
    exact hmatch ⟨hc, by decide⟩
  have hrun := mboxIsEOM_eq hb hnul h
  rw [if_neg hmatch] at hrun
  refine ⟨mboxMsgMatch, _, hrun, (if_neg hopen).symm, fun start hstart hreach msgstatus => ?_⟩
  obtain ⟨body, hbody⟩ := mboxParseMessageBody_of_finds fill hb h hstart
    (hreach.finds hb hnul h hdashes) msgstatus
  rw [if_neg hopen] at hbody
  exact ⟨body, _, hbody, fun heom => absurd heom (by decide)⟩

/-- They never agree on a boundary of dashes: the scan that begins at the dashes in front of it
does not return. -/
theorem not_agree_of_dashes (hb : boundary.Holds b) (hnul : nul ∉ b) (h : Occurs buf b p c d)
    (hsize : buf.data.length + 1 < 2 ^ 64) (hdashes : ∀ x ∈ b, x = dash) :
    ¬ RecognisersAgree fill buf boundary p c d := by
  rintro ⟨verdict, buf₁, -, -, hbody⟩
  obtain ⟨body, buf₂, hconv, -⟩ := hbody p (le_refl p) h.reaches_self mboxMsgNoMatch
  obtain ⟨N, hN⟩ := hconv
  have hok : mboxParseMessageBody fill (N + 1) (mboxBufSetOffset buf p) boundary mboxMsgNoMatch =
      ok (body, verdict, buf₂) := hN (N + 1) (Nat.le_succ N)
  rw [mboxParseMessageBody_of_dashes fill hb hnul h hsize hdashes] at hok
  cases hok

/-- At the end of a message they never leave the same offset. -/
theorem not_agree_of_dash (hb : boundary.Holds b) (hnul : nul ∉ b) (h : Occurs buf b p dash d)
    (hdashes : ¬ ∀ x ∈ b, x = dash) (hd : d ≠ nul) :
    ¬ RecognisersAgree fill buf boundary p dash d := by
  rintro ⟨verdict, buf₁, hrun, hverdict, hbody⟩
  rw [mboxIsEOM_eq hb hnul h, if_pos ⟨rfl, hd⟩] at hrun
  cases hrun
  have hends : dash = dash ∧ d = dash := by
    by_contra hopen
    rw [if_neg hopen] at hverdict
    revert hverdict
    decide
  have hreach : Reaches buf boundary p p := h.reaches_self
  obtain ⟨body, buf₂, hconv, hoffset⟩ := hbody p (le_refl p) hreach mboxMsgNoMatch
  obtain ⟨body', hconv'⟩ := mboxParseMessageBody_of_finds fill hb h (le_refl p)
    (hreach.finds hb hnul h hdashes) mboxMsgNoMatch
  rw [if_pos hends] at hconv'
  have hsame := hconv.unique hconv'
  simp only [Prod.mk.injEq] at hsame
  have hsame' := hoffset rfl
  rw [hsame.2.2, mboxBufSetOffset_offset, mboxBufSetOffset_offset] at hsame'
  omega

/-- **The recognisers agree** exactly on the boundaries with another byte than a dash in them, and
of these where no dash is behind the boundary, or one with a NUL behind it. -/
theorem recognisersAgree_iff (fill : ℕ → MboxChar) (hb : boundary.Holds b) (hnul : nul ∉ b)
    (h : Occurs buf b p c d) (hsize : buf.data.length + 1 < 2 ^ 64) :
    RecognisersAgree fill buf boundary p c d ↔ (∃ x ∈ b, x ≠ dash) ∧ (c ≠ dash ∨ d = nul) := by
  have hiff : (∃ x ∈ b, x ≠ dash) ↔ ¬ ∀ x ∈ b, x = dash := by simp
  rw [hiff]
  constructor
  · intro hagree
    have hdashes : ¬ ∀ x ∈ b, x = dash := fun hall =>
      not_agree_of_dashes hb hnul h hsize hall hagree
    refine ⟨hdashes, ?_⟩
    by_contra hopen
    rw [not_or, not_not] at hopen
    obtain ⟨rfl, hd⟩ := hopen
    exact not_agree_of_dash hb hnul h hdashes hd hagree
  · rintro ⟨hdashes, hcond⟩
    refine agree_of_match fill hb hnul h hdashes ?_
    rintro ⟨hc, hd⟩
    exact hcond.elim (fun hne => hne hc) hd

end Occurrence

/-- Any byte is taken for a second dash by one of the two and not by the other: behind `--b` there
is `-x`, and `mboxIsEOM` ends the message there. -/
theorem dashThenX_not_agree :
    ¬ ∀ (buf boundary : MboxBuf) (b : List MboxChar) (p : ℕ) (c d : MboxChar),
      boundary.Holds b → nul ∉ b → Occurs buf b p c d →
      RecognisersAgree (fun _ => nul) buf boundary p c d := by
  intro hall
  have hholds : (⟨str "b" ++ [nul], 0, 1, 2⟩ : MboxBuf).Holds (str "b") := ⟨rfl, [], rfl⟩
  obtain ⟨verdict, buf₁, hrun, hverdict, -⟩ :=
    hall ⟨str "--b-x" ++ [nul], 0, 5, 6⟩ _ _ 0 dash 120 hholds (by decide) ⟨[], by decide⟩
  have heom : verdict = mboxMsgEom := by
    cases hrun
    rfl
  rw [heom] at hverdict
  revert hverdict
  decide

/-- The second of two parts begins: the boundary has a dash in it, and is in front of a line end. -/
theorem recognisersAgree_iff_lineEnd :
    RecognisersAgree (fun _ => nul) ⟨str "a-b\n--b-b" ++ [cr, nl, nul], 0, 11, 12⟩
      ⟨str "b-b" ++ [nul], 0, 3, 4⟩ 4 cr nl :=
  (recognisersAgree_iff (fun _ => nul) (b := str "b-b") ⟨rfl, [], rfl⟩ (by decide)
    ⟨[], by decide⟩ (by decide)).mpr ⟨by decide, Or.inl (by decide)⟩

end Libmbox2
