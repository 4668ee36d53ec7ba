import Libmbox2.Decimal
import Libmbox2.Mime

/-!
# The sender (`mboxParseFrom`)

A sender is `name <address>`, `"name" <address>`, or `<address>`. The loops of `mboxParseFrom`
look for the bytes that end a part; the one for the address looks for another `<` and not for the
`>`, so that the bracket goes with the address, whatever the address is
(`mboxParseFrom_render`).
-/

namespace Libmbox2

open CSem CSem.Exec

/-- `'<'`, in front of an address. -/
abbrev langle : MboxChar := 60

/-- `'>'`, behind it. -/
abbrev rangle : MboxChar := 62

/-- Where a loop of `mboxParseFrom` stands, and the buffer that it fills. -/
structure PartCtx where
  offset : ℕ
  out : MboxBuf

section Functions

variable (fill : ℕ → MboxChar)

/-- `mboxBufMatchCharAt`: the byte `k` behind where the reader stands is the given one. -/
def mboxBufMatchCharAt (buf : MboxBuf) (offset : ℕ) (ch : MboxChar) (k : ℕ) : Exec Bool :=
  if buf.len < k + offset then pure false
  else do
    let c ← load buf.data (offset + k)
    pure (c = ch)

/-- The name goes on up to a bracket, a dquote, the terminator, or a blank and a bracket. -/
def nameEnds (buf : MboxBuf) (offset : ℕ) : Exec Bool := do
  if ← mboxBufMatchChar buf.data offset langle then pure true
  else if ← mboxBufMatchChar buf.data offset dquote then pure true
  else if ← mboxBufMatchChar buf.data offset nul then pure true
  else if ← mboxBufMatchCharAt buf offset langle 1 then mboxBufMatchChar buf.data offset space
  else pure false

/-- The address ends at a `'<'` or a NUL. -/
def emailEnds (buf : MboxBuf) (offset : ℕ) : Exec Bool := do
  if ← mboxBufMatchChar buf.data offset langle then pure true
  else mboxBufMatchChar buf.data offset nul

/-- One byte of a part goes into a buffer, until the part ends. -/
def collectStep (ends : MboxBuf → ℕ → Exec Bool) (buf : MboxBuf) (ctx : PartCtx) :
    Exec (PartCtx ⊕ PartCtx) := do
  if ← ends buf ctx.offset then pure (.inr ctx)
  else do
    let c ← mboxBufGetChar buf ctx.offset
    let out ← mboxBufPutChar fill ctx.out c
    pure (.inl ⟨ctx.offset + 1, out⟩)

/-- The name, and where the address begins: behind a bracket that is looked for without an end. -/
def parseSenderName (fuel : ℕ) (buf : MboxBuf) (offset : ℕ) : Exec (ℕ × MboxBuf) := do
  let quoted ← mboxBufMatchChar buf.data offset dquote
  let ctx ← loop (collectStep fill nameEnds buf) fuel
    ⟨if quoted then offset + 1 else offset, mboxBufAlloc fill 100⟩
  let k ← scanUntil (fun c => c == langle) (buf.data.drop ctx.offset)
  let encoded ← mboxBufIsMimeEncoded ctx.out
  let name ← if encoded then mboxBufDecodeMimeEncodedInplace fuel ctx.out else pure ctx.out
  pure (ctx.offset + k + 1, name)

/-- The address is read into a buffer of its own. -/
def parseSenderEmail (fuel : ℕ) (buf : MboxBuf) (offset : ℕ) : Exec PartCtx :=
  loop (collectStep fill emailEnds buf) fuel ⟨offset, mboxBufAlloc fill 100⟩

/-- The buffer as it is left, `*name` if it is set, and `*email`. -/
def mboxParseFrom (fuel : ℕ) (buf : MboxBuf) : Exec (MboxBuf × Option MboxBuf × MboxBuf) := do
  let offset ← scanWithin (fun c => !isSpace c) buf.data (buf.len + 1) buf.offset
  if ← mboxBufMatchChar buf.data offset langle then
    let ctx ← parseSenderEmail fill fuel buf (offset + 1)
    pure (mboxBufSetOffset buf ctx.offset, none, ctx.out)
  else do
    let (offset, name) ← parseSenderName fill fuel buf offset
    let ctx ← parseSenderEmail fill fuel buf offset
    pure (mboxBufSetOffset buf ctx.offset, some name, ctx.out)

end Functions

/-! ## The forms of a sender -/

/-- The documented forms of a sender that are not encoded. -/
inductive SenderForm where
  /-- `name <address>` -/
  | plain
  /-- `"name" <address>` -/
  | quoted
  /-- `<address>` -/
  | unnamed
  deriving DecidableEq, Repr

/-- What is in front of the bracket of the address: the name, and the quotes and the blank where the
form has them. -/
def SenderForm.front (name : List MboxChar) : SenderForm → List MboxChar
  | plain => name ++ [space]
  | quoted => dquote :: name ++ [dquote, space]
  | unnamed => []

/-- A sender in one of the forms. -/
def SenderForm.render (form : SenderForm) (name address : List MboxChar) : List MboxChar :=
  form.front name ++ langle :: (address ++ [rangle])

/-- The name that a form shows: that in front of the address, if there is one. -/
def SenderForm.shown (name : List MboxChar) : SenderForm → Option (List MboxChar)
  | unnamed => none
  | _ => some name

/-- A name that can stand in front of an address: not empty, without brackets, quotes and NULs, no
blank at its ends, and no encoded word. -/
structure DisplayName (name : List MboxChar) : Prop where
  ne_nil : name ≠ []
  free : ∀ c ∈ name, c ≠ langle ∧ c ≠ dquote ∧ c ≠ nul
  first : ∀ c, name.head? = some c → isSpace c = false
  last : name.getLast? ≠ some space
  plain : ¬ MimeEncoded name

/-- An address that can stand within brackets: it has none in it, and no NUL. -/
structure MailAddress (address : List MboxChar) : Prop where
  free : ∀ c ∈ address, c ≠ langle ∧ c ≠ rangle ∧ c ≠ nul

/-- The name is returned where there is one, and the address without its brackets. -/
def RecoversSender (fill : ℕ → MboxChar) (form : SenderForm) (name address : List MboxChar)
    (buf : MboxBuf) : Prop :=
  ∃ buf' name' email, Converges (fun n => mboxParseFrom fill n buf) (buf', name', email) ∧
    name'.map MboxBuf.bytes = form.shown name ∧ email.bytes = address

/-! ## What the loops collect -/

section Parts

variable {fill : ℕ → MboxChar} {buf out : MboxBuf} {o : ℕ} {xs rest : List MboxChar}

theorem mboxBufMatchChar_of_drop {c : MboxChar} (h : buf.data.drop o = c :: rest)
    (ch : MboxChar) : mboxBufMatchChar buf.data o ch = ok (decide (c = ch)) := by
  rw [mboxBufMatchChar, load_of_drop h]
  rfl

/-- **A loop** collects the bytes in front of where its part ends, and stops there. -/
theorem collect_run (fill : ℕ → MboxChar) {ends : MboxBuf → ℕ → Exec Bool}
    (hdata : buf.data.drop o = xs ++ rest) (hlen : o + xs.length ≤ buf.len)
    (hgoes : ∀ pre c post, xs = pre ++ c :: post → ends buf (o + pre.length) = ok false)
    (hends : ends buf (o + xs.length) = ok true) (hs : out.Sound) :
    ∃ out', LoopTo (fun _ => collectStep fill ends buf) ⟨o, out⟩ ⟨o + xs.length, out'⟩ ∧
      Collects out xs out' := by
  induction xs generalizing o out with
  | nil =>
    refine ⟨out, LoopTo.done (Converges.const ?_), Collects.nil hs⟩
    have hends : ends buf o = ok true := hends
    simp only [collectStep, hends, ok_bind, if_true, List.length_nil, Nat.add_zero, pure_eq]
  | cons x xs ih =>
    have hfirst : ends buf o = ok false := hgoes [] x xs rfl
    have hle : ¬ buf.len < o := by
      rw [List.length_cons] at hlen
      omega
    have hget : mboxBufGetChar buf o = ok x := by
      rw [mboxBufGetChar, if_neg hle]
      exact load_of_drop hdata
    have hnext : ∀ k, o + 1 + k = o + (k + 1) := fun k => Nat.add_right_comm o 1 k
    have hdata₁ : buf.data.drop (o + 1) = xs ++ rest := by
      rw [← List.drop_drop, hdata]
      rfl
    obtain ⟨out₁, hput, hout₁⟩ := mboxBufPutChar_spec fill hs x
    have hstep : collectStep fill ends buf ⟨o, out⟩ = ok (.inl ⟨o + 1, out₁⟩) := by
      simp only [collectStep, hfirst, hget, hput, ok_bind, pure_eq]
      rfl
    have hgoes₁ : ∀ pre c post, xs = pre ++ c :: post →
        ends buf (o + 1 + pre.length) = ok false := by
      rintro pre c post rfl
      rw [hnext]
      exact hgoes (x :: pre) c post rfl
    obtain ⟨out', hloop, hout'⟩ := ih hdata₁ (by rw [hnext]; exact hlen) hgoes₁
      (by rw [hnext]; exact hends) hout₁.sound
    rw [hnext] at hloop
    exact ⟨out', LoopTo.step (Converges.const hstep) hloop, hout₁.append hout'⟩

/-- Where a name ends, by the next two bytes. -/
theorem nameEnds_eq {c c' : MboxChar} (h : buf.data.drop o = c :: c' :: rest)
    (hlen : o + 1 ≤ buf.len) :
    nameEnds buf o =
      ok (decide (c = langle ∨ c = dquote ∨ c = nul ∨ c' = langle ∧ c = space)) := by
  have hnext : buf.data.drop (o + 1) = c' :: rest := by
    rw [← List.drop_drop, h]
    rfl
  have hlook : mboxBufMatchCharAt buf o langle 1 = ok (decide (c' = langle)) := by
    rw [mboxBufMatchCharAt, if_neg (by omega), load_of_drop hnext]
    rfl
  simp only [nameEnds, mboxBufMatchChar_of_drop h, hlook, ok_bind, pure_eq, decide_eq_true_iff]
  split
  · next hc => simp [hc]
  split
  · next hc => simp [hc]
  split
  · next hc => simp [hc]
  split
  · simp [*]
  · simp [*]

/-- Where an address ends, by the next byte. A `'>'` is not asked for. -/
theorem emailEnds_eq {c : MboxChar} (h : buf.data.drop o = c :: rest) :
    emailEnds buf o = ok (decide (c = langle ∨ c = nul)) := by
  simp only [emailEnds, mboxBufMatchChar_of_drop h, ok_bind, pure_eq, decide_eq_true_iff]
  split
  · next hc => simp [hc]
  · next hc => simp [hc]

/-- The name is collected, up to the gap between it and the bracket. -/
theorem collectName_spec (fill : ℕ → MboxChar) {name gap : List MboxChar} (hname : DisplayName name)
    (hgap : gap = [space] ∨ gap = [dquote, space])
    (hdata : buf.data.drop o = name ++ (gap ++ langle :: rest))
    (hlen : o + name.length + 1 ≤ buf.len) :
    ∃ out, LoopTo (fun _ => collectStep fill nameEnds buf) ⟨o, mboxBufAlloc fill 100⟩
        ⟨o + name.length, out⟩ ∧ Collects (mboxBufAlloc fill 100) name out := by
  obtain ⟨c, c', more, hgap', hc, hends⟩ : ∃ c c' more, gap ++ langle :: rest = c :: c' :: more ∧
      c ≠ langle ∧ (c = langle ∨ c = dquote ∨ c = nul ∨ c' = langle ∧ c = space) := by
    rcases hgap with rfl | rfl
    · exact ⟨space, langle, rest, rfl, by decide, by decide⟩
    · exact ⟨dquote, space, langle :: rest, rfl, by decide, by decide⟩
  rw [hgap'] at hdata
  refine collect_run fill hdata (by omega) (fun pre x post heq => ?_) ?_
    (mboxBufAlloc_sound fill 100)
  · -- in front of no byte of the name is there a bracket
    obtain ⟨y, more', hy, hne⟩ : ∃ y more', post ++ c :: c' :: more = y :: more' ∧ y ≠ langle := by
      cases post with
      | nil => exact ⟨c, c' :: more, rfl, hc⟩
      | cons y post => exact ⟨y, _, rfl, (hname.free y (by simp [heq])).1⟩
    have hat : buf.data.drop (o + pre.length) = x :: y :: more' := by
      refine drop_of_append ?_
      rw [hdata, heq, List.append_assoc, List.cons_append, hy]
    have hle : o + pre.length + 1 ≤ buf.len := by
      have hlong := congrArg List.length heq
      rw [List.length_append, List.length_cons] at hlong
      omega
    obtain ⟨hlangle, hquote, hnul⟩ := hname.free x (by simp [heq])
    rw [nameEnds_eq hat hle, decide_eq_false]
    simp [hlangle, hquote, hnul, hne]
  · rw [nameEnds_eq (drop_of_append hdata) hlen, decide_eq_true hends]

/-- The name is collected, up to the blank or the quote behind it. -/
theorem parseSenderName_spec (fill : ℕ → MboxChar) {quoted : Bool} {o₁ : ℕ}
    {name gap : List MboxChar} (hname : DisplayName name)
    (hgap : gap = [space] ∨ gap = [dquote, space])
    (hquoted : mboxBufMatchChar buf.data o dquote = ok quoted)
    (ho : (if quoted then o + 1 else o) = o₁)
    (hdata : buf.data.drop o₁ = name ++ (gap ++ langle :: rest))
    (hlen : o₁ + name.length + 1 ≤ buf.len) :
    ∃ out, Converges (fun n => parseSenderName fill n buf o)
        (o₁ + name.length + gap.length + 1, out) ∧ out.bytes = name := by
  obtain ⟨out, hloop, hout⟩ := collectName_spec fill hname hgap hdata hlen
  have hscan : scanUntil (fun c => c == langle) (buf.data.drop (o₁ + name.length)) =
      ok gap.length := by
    rw [drop_of_append hdata]
    refine scanUntil_append (fun x hx => ?_) rfl
    rcases hgap with rfl | rfl
    · rw [List.mem_singleton.mp hx]
      rfl
    · rcases List.mem_pair.mp hx with rfl | rfl
      · rfl
      · rfl
  have hplain : mboxBufIsMimeEncoded out = ok false := by
    rw [mboxBufIsMimeEncoded_eq (MboxBuf.blank_alloc fill 100) hout,
      if_neg fun h => hname.ne_nil h.1, decide_eq_false hname.plain]
  have hempty : (mboxBufAlloc fill 100).bytes = [] := List.take_zero
  refine ⟨out, ?_, by rw [hout.bytes, hempty, List.nil_append]⟩
  have hrun := hloop.converges
  rw [← ho] at hrun
  refine Converges.bind (Converges.const hquoted) (Converges.bind hrun ?_)
  refine Converges.congr (fun n => ?_) (Converges.const rfl)
  simp only [ho, hscan, hplain, ok_bind, Bool.false_eq_true, if_false, pure_eq]

/-- The address is collected, and the bracket behind it. -/
theorem parseSenderEmail_spec (fill : ℕ → MboxChar) {address tail : List MboxChar}
    (haddress : MailAddress address)
    (hleft : buf.LeftAt (nul :: tail) o (address ++ [rangle])) :
    ∃ ctx, Converges (fun n => parseSenderEmail fill n buf o) ctx ∧
      ctx.out.bytes = address ++ [rangle] := by
  have hbracket : ∀ c ∈ address ++ [rangle], ¬ (c = langle ∨ c = nul) := by
    intro c hc
    rcases List.mem_append.mp hc with hc | hc
    · obtain ⟨hlangle, -, hnul⟩ := haddress.free c hc
      exact not_or.mpr ⟨hlangle, hnul⟩
    · rw [List.mem_singleton.mp hc]
      decide
  have hgoes : ∀ pre c post, address ++ [rangle] = pre ++ c :: post →
      emailEnds buf (o + pre.length) = ok false := by
    intro pre c post heq
    have hat : buf.data.drop (o + pre.length) = c :: (post ++ nul :: tail) := by
      refine drop_of_append ?_
      rw [hleft.data, heq, List.append_assoc, List.cons_append]
    rw [emailEnds_eq hat, decide_eq_false]
    apply hbracket
    rw [heq]
    exact List.mem_append_right pre (List.mem_cons_self ..)
  have hends : emailEnds buf (o + (address ++ [rangle]).length) = ok true :=
    emailEnds_eq (drop_of_append hleft.data)
  obtain ⟨out, hloop, hout⟩ := collect_run fill hleft.data hleft.len.le hgoes hends
    (mboxBufAlloc_sound fill 100)
  refine ⟨_, hloop.converges, ?_⟩
  have hempty : (mboxBufAlloc fill 100).bytes = [] := List.take_zero
  rw [hout.bytes, hempty, List.nil_append]

theorem skipBlanks_of_drop {c : MboxChar} (h : buf.data.drop o = c :: rest)
    (hc : isSpace c = false) (hlen : o ≤ buf.len) :
    scanWithin (fun c => !isSpace c) buf.data (buf.len + 1) o = ok o := by
  rw [scanWithin, if_pos (Nat.lt_succ_of_le hlen), load_of_drop h, ok_bind, hc]
  rfl

/-- A sender with a name, once it is known how the name stands there. -/
theorem mboxParseFrom_named (fill : ℕ → MboxChar) {quoted : Bool} {o₁ : ℕ} {c : MboxChar}
    {name gap address tail : List MboxChar} (hname : DisplayName name)
    (haddress : MailAddress address) (hgap : gap = [space] ∨ gap = [dquote, space])
    (hfirst : buf.data.drop buf.offset = c :: rest) (hspace : isSpace c = false)
    (hbracket : c ≠ langle) (hquoted : decide (c = dquote) = quoted)
    (ho : (if quoted then buf.offset + 1 else buf.offset) = o₁)
    (hleft : buf.LeftAt (nul :: tail) o₁ (name ++ (gap ++ langle :: (address ++ [rangle])))) :
    ∃ buf' name' email, Converges (fun n => mboxParseFrom fill n buf) (buf', some name', email) ∧
      name'.bytes = name ∧ email.bytes = address ++ [rangle] := by
  have hlen := hleft.len
  simp only [List.length_append, List.length_cons, List.length_nil] at hlen
  have hle : buf.offset ≤ buf.len := by
    have hstart : buf.offset ≤ o₁ := by
      rw [← ho]
      split <;> omega
    omega
  have hdata : buf.data.drop o₁ =
      name ++ (gap ++ langle :: (address ++ [rangle] ++ nul :: tail)) := by
    rw [hleft.data]
    simp
  have hskip := skipBlanks_of_drop hfirst hspace hle
  have hmatch := mboxBufMatchChar_of_drop hfirst langle
  rw [decide_eq_false hbracket] at hmatch
  have hmatch' := mboxBufMatchChar_of_drop hfirst dquote
  rw [hquoted] at hmatch'
  obtain ⟨out, hparse, hout⟩ :=
    parseSenderName_spec fill hname hgap hmatch' ho hdata (by omega)
  obtain ⟨ctx, hemail, hbytes⟩ := parseSenderEmail_spec fill haddress hleft.pass.pass.pass_one
  refine ⟨mboxBufSetOffset buf ctx.offset, out, ctx.out, ?_, hout, hbytes⟩
  refine Converges.bind (Converges.const hskip) (Converges.bind (Converges.const hmatch) ?_)
  exact Converges.bind hparse (Converges.bind hemail (Converges.const rfl))

/-- **What is returned** of a sender in any of the forms: the name, and the address with the bracket
behind it. -/
theorem mboxParseFrom_render (fill : ℕ → MboxChar) (form : SenderForm)
    {name address tail : List MboxChar} (hname : DisplayName name)
    (haddress : MailAddress address)
    (hleft : buf.LeftAt (nul :: tail) buf.offset (form.render name address)) :
    ∃ buf' name' email, Converges (fun n => mboxParseFrom fill n buf) (buf', name', email) ∧
      name'.map MboxBuf.bytes = form.shown name ∧ email.bytes = address ++ [rangle] := by
  have hdata := hleft.data
  have hlen : buf.offset ≤ buf.len := by
    rw [← hleft.len]
    exact Nat.le_add_right _ _
  cases form with
  | plain =>
    obtain ⟨c, cs, rfl⟩ := List.exists_cons_of_ne_nil hname.ne_nil
    obtain ⟨hbracket, hquote, -⟩ := hname.free c (List.mem_cons_self ..)
    have hrender : SenderForm.plain.render (c :: cs) address =
        c :: cs ++ ([space] ++ langle :: (address ++ [rangle])) := List.append_assoc ..
    rw [hrender] at hleft hdata
    obtain ⟨buf', name', email, hrun, hbytes, hemail⟩ :=
      mboxParseFrom_named fill hname haddress (Or.inl rfl) hdata (hname.first c rfl) hbracket
        (decide_eq_false hquote) rfl hleft
    exact ⟨buf', some name', email, hrun, congrArg some hbytes, hemail⟩
  | quoted =>
    have hrender : SenderForm.quoted.render name address =
        dquote :: (name ++ ([dquote, space] ++ langle :: (address ++ [rangle]))) := by
      simp [SenderForm.render, SenderForm.front]
    rw [hrender] at hleft hdata
    obtain ⟨buf', name', email, hrun, hbytes, hemail⟩ := mboxParseFrom_named fill hname haddress
      (Or.inr rfl) hdata rfl (by decide) rfl rfl hleft.pass_one
    exact ⟨buf', some name', email, hrun, congrArg some hbytes, hemail⟩
  | unnamed =>
    have hrender : SenderForm.unnamed.render name address = langle :: (address ++ [rangle]) := rfl
    rw [hrender] at hleft hdata
    obtain ⟨ctx, hemail, hbytes⟩ := parseSenderEmail_spec fill haddress hleft.pass_one
    have hskip := skipBlanks_of_drop hdata rfl hlen
    have hmatch := mboxBufMatchChar_of_drop hdata langle
    refine ⟨mboxBufSetOffset buf ctx.offset, none, ctx.out, ?_, rfl, hbytes⟩
    refine Converges.bind (Converges.const hskip) (Converges.bind (Converges.const hmatch) ?_)
    exact Converges.bind hemail (Converges.const rfl)

/-- **The address is never returned without its bracket**, in none of the forms and for no name: the
loop over the address stops at `'<'` and NUL, and takes the `'>'` for one of its bytes. -/
theorem not_recoversSender (fill : ℕ → MboxChar) (form : SenderForm)
    {name address tail : List MboxChar} (hname : DisplayName name)
    (haddress : MailAddress address)
    (hleft : buf.LeftAt (nul :: tail) buf.offset (form.render name address)) :
    ¬ RecoversSender fill form name address buf := by
  rintro ⟨buf', name', email, hrun, -, hemail⟩
  obtain ⟨buf₁, name₁, email₁, hrun₁, -, hemail₁⟩ :=
    mboxParseFrom_render fill form hname haddress hleft
  cases hrun.unique hrun₁
  rw [hemail₁] at hemail
  exact absurd hemail (by simp)

end Parts

/-- A buffer with a sender. -/
def senderBuf (form : SenderForm) (name address : List MboxChar) : MboxBuf :=
  ⟨form.render name address ++ [nul], 0, (form.render name address).length,
    (form.render name address).length + 1⟩

theorem senderBuf_leftAt (form : SenderForm) (name address : List MboxChar) :
    (senderBuf form name address).LeftAt [nul] 0 (form.render name address) :=
  ⟨rfl, Nat.zero_add _⟩

/-- The name in the comment of the parser. -/
theorem displayName_hackerNoon : DisplayName (str "Hacker Noon") := by
  refine ⟨by decide, fun c hc => ?_, fun c hc => ?_, by decide, by decide⟩
  · have hall : (str "Hacker Noon").all (fun c => c != langle && c != dquote && c != nul) = true :=
      rfl
    simpa [and_assoc] using List.all_eq_true.mp hall c hc
  · cases hc
    rfl

/-- An address is one when a look at each of its bytes says so. -/
theorem mailAddress_of_all {address : List MboxChar}
    (hall : address.all (fun c => c != langle && c != rangle && c != nul) = true) :
    MailAddress address :=
  ⟨fun c hc => by simpa [and_assoc] using List.all_eq_true.mp hall c hc⟩

/-- That name in quotes, and an address of three bytes. -/
theorem not_recoversSender_quoted :
    ¬ RecoversSender (fun _ => nul) .quoted (str "Hacker Noon") (str "a@b")
      (senderBuf .quoted (str "Hacker Noon") (str "a@b")) :=
  not_recoversSender _ _ displayName_hackerNoon (mailAddress_of_all rfl) (senderBuf_leftAt _ _ _)

/-- The example in the comment of the parser, whose address comes with the bracket. -/
theorem hackerNoon_not_recovered :
    ¬ RecoversSender (fun _ => nul) .plain (str "Hacker Noon") (str "support@hackernoon.com")
      (senderBuf .plain (str "Hacker Noon") (str "support@hackernoon.com")) := by
  rintro ⟨buf', name', email, hrun, -, hemail⟩
  have haddress : MailAddress (str "support@hackernoon.com") := mailAddress_of_all rfl
  obtain ⟨buf₁, name₁, email₁, hrun₁, -, hemail₁⟩ := mboxParseFrom_render (fun _ => nul) .plain
    displayName_hackerNoon haddress (senderBuf_leftAt ..)
  cases hrun.unique hrun₁
  rw [hemail₁] at hemail
  exact absurd hemail (by decide)

end Libmbox2
