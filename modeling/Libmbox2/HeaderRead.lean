import Libmbox2.Headers

/-!
# What the parts of the header parser do

The buffers of the parser are sound, so bytes can always be put behind their contents
(`mboxBufPutChar_spec`), and a run of bytes up to a stop byte ends up behind what was there
before (`putUntil_collects`). The offset never goes back (`parseEmailHeadersStep_le`).
-/

namespace Libmbox2

open CSem CSem.Exec

variable {fill : ℕ → MboxChar}

/-! ## The buffers -/

/-- A sound buffer holds as many bytes as it says. -/
theorem MboxBuf.Sound.bytes_length {buf : MboxBuf} (hs : buf.Sound) :
    buf.bytes.length = buf.len := List.length_take_of_le hs.room.le

/-- Bytes have been put behind the contents, one by one: a NUL follows them, if there are any. -/
structure Collects (out : MboxBuf) (xs : List MboxChar) (out' : MboxBuf) : Prop where
  sound : out'.Sound
  bytes : out'.bytes = out.bytes ++ xs
  unchanged : xs = [] → out' = out
  terminated : xs ≠ [] → out'.data[out'.len]? = some nul

namespace Collects

variable {out out₁ out₂ : MboxBuf} {xs ys : List MboxChar}

theorem nil (hs : out.Sound) : Collects out [] out :=
  ⟨hs, (List.append_nil _).symm, fun _ => rfl, fun h => absurd rfl h⟩

/-- What two steps collect is collected one behind the other. -/
theorem append (h₁ : Collects out xs out₁) (h₂ : Collects out₁ ys out₂) :
    Collects out (xs ++ ys) out₂ where
  sound := h₂.sound
  bytes := by rw [h₂.bytes, h₁.bytes, List.append_assoc]
  unchanged := by
    intro hnil
    obtain ⟨hxs, hys⟩ := List.append_eq_nil_iff.1 hnil
    rw [h₂.unchanged hys, h₁.unchanged hxs]
  terminated := by
    intro hne
    by_cases hys : ys = []
    · rw [hys, List.append_nil] at hne
      rw [h₂.unchanged hys]
      exact h₁.terminated hne
    · exact h₂.terminated hys

end Collects

/-- `mboxBufPutChar` puts a byte behind the contents. -/
theorem mboxBufPutChar_spec (fill : ℕ → MboxChar) {buf : MboxBuf} (hs : buf.Sound)
    (ch : MboxChar) :
    ∃ buf', mboxBufPutChar fill buf ch = ok buf' ∧ Collects buf [ch] buf' := by
  obtain ⟨grown, hgrow, hlen, hcap, hbytes, hroom⟩ :
      ∃ grown, (mboxBufExtendBufferIfNeeded fill buf 100).2 = grown ∧ grown.len = buf.len ∧
        grown.capacity = grown.data.length ∧ grown.bytes = buf.bytes ∧
        buf.len + 100 < grown.data.length := by
    obtain ⟨tail, hgrow, hroom⟩ := mboxBufExtendBufferIfNeeded_spec fill hs.capacity hs.room
      (show 100 < 2 ^ 32 by decide)
    exact ⟨_, hgrow, rfl, rfl, List.take_append_of_le_length hs.room.le, hroom⟩
  obtain ⟨rest, hput, hlong⟩ := mboxBufPutChar_grown fill ch hgrow (by omega)
  have hcontents : grown.len + 1 = (buf.bytes ++ [ch]).length := by
    rw [hlen, List.length_append, hs.bytes_length, List.length_singleton]
  rw [hbytes, List.append_cons] at hput hlong
  refine ⟨_, hput, ⟨hcap.trans hlong.symm, ?_⟩, ?_, fun h => ?_, fun _ => ?_⟩
  · simp only
    omega
  · rw [MboxBuf.bytes, hcontents, List.take_left]
  · exact absurd h (List.cons_ne_nil _ _)
  · rw [hcontents, List.getElem?_append_right (le_refl _), Nat.sub_self]
    rfl

theorem mboxBufDup_spec (fill : ℕ → MboxChar) {buf : MboxBuf} (hs : buf.Sound) :
    ∃ buf', mboxBufDup fill buf = ok buf' ∧ buf'.Holds buf.bytes := by
  obtain ⟨buf', hrun, hholds, -⟩ :=
    mboxBufDupRaw_spec fill hs.room.le (Nat.le_add_right buf.len 9)
  exact ⟨buf', hrun, hholds⟩

/-- Moving nothing to the front empties a buffer, and leaves a NUL as its first byte. -/
theorem mboxBufSlice_zero {buf : MboxBuf} (hs : buf.Sound) :
    ∃ buf', mboxBufSlice buf 0 0 0 = ok buf' ∧ buf'.Sound ∧ buf'.bytes = [] ∧
      ∃ rest, buf'.data = nul :: rest := by
  have hroom : 0 < buf.data.length := Nat.zero_lt_of_lt hs.room
  have hload : loadBytes buf.data 0 0 = ok [] := if_pos (Nat.zero_le _)
  have hstore : storeBytes buf.data 0 [] = ok buf.data := by
    exact if_pos (Nat.zero_le _)
  obtain ⟨x, xs, hdata⟩ := List.exists_cons_of_length_pos hroom
  have hnul : store buf.data 0 nul = ok (nul :: xs) := by
    rw [hdata]
    exact store_append_length [] xs x nul
  have hcapacity := hs.capacity
  rw [hdata] at hcapacity
  refine ⟨{ buf with data := nul :: xs, len := 0 }, ?_, ⟨hcapacity, Nat.succ_pos _⟩,
    List.take_zero, xs, rfl⟩
  simp only [mboxBufSlice, hload, hstore, hnul, ok_bind, pure_eq]

/-- **The bytes up to the stop byte** go behind the contents, all but those that are skipped. -/
theorem putUntil_collects (fill : ℕ → MboxChar) {stop : MboxChar} (skip : MboxChar → Bool)
    {xs : List MboxChar} (rest : List MboxChar) (hstop : stop ∉ xs) {out : MboxBuf}
    (hs : out.Sound) :
    ∃ out', putUntil fill stop skip (xs ++ stop :: rest) out = ok (xs.length, out') ∧
      Collects out (xs.filter fun ch => !skip ch) out' := by
  induction xs generalizing out with
  | nil => exact ⟨out, by rw [List.nil_append, putUntil, if_pos rfl]; rfl, Collects.nil hs⟩
  | cons x xs ih =>
    rw [List.mem_cons, not_or] at hstop
    rw [List.cons_append, putUntil, if_neg (Ne.symm hstop.1)]
    by_cases hx : skip x
    · obtain ⟨out', hrun, hout⟩ := ih hstop.2 hs
      refine ⟨out', ?_, ?_⟩
      · simp only [putUnless, hx, if_true, pure_eq, ok_bind, hrun, List.length_cons]
      · rw [List.filter_cons_of_neg (by simp [hx])]
        exact hout
    · obtain ⟨out₁, hput, hout₁⟩ := mboxBufPutChar_spec fill hs x
      obtain ⟨out', hrun, hout⟩ := ih hstop.2 hout₁.sound
      refine ⟨out', ?_, ?_⟩
      · have hunless : putUnless fill (skip x) out x = ok out₁ := (if_neg hx).trans hput
        simp only [hunless, ok_bind, hrun, List.length_cons, pure_eq]
      · rw [List.filter_cons_of_pos (by simp [hx])]
        exact hout₁.append hout

/-- A byte that is not the stop byte is passed. -/
theorem putUntil_pos {stop x : MboxChar} {skip : MboxChar → Bool} {d : List MboxChar}
    {out out' : MboxBuf} {k : ℕ} (hx : x ≠ stop)
    (h : putUntil fill stop skip (x :: d) out = ok (k, out')) : 0 < k := by
  rw [putUntil, if_neg hx] at h
  obtain ⟨out₁, -, h⟩ := bind_eq_ok h
  obtain ⟨⟨j, out₂⟩, -, h⟩ := bind_eq_ok h
  cases h
  exact Nat.succ_pos j

/-! ## The tree -/

variable {snt : RbNode MboxBuf MboxBuf} {h : HeaderHeap}
  {t : MboxRBTree}

/-- The tree of the parser is well-formed, and its keys are all of one kind. -/
def TreeOf (snt : RbNode MboxBuf MboxBuf) (P : List MboxChar → Prop) (h : HeaderHeap)
    (t : MboxRBTree) : Prop :=
  ∃ T, IsRbTree mboxBufCaseCmp snt h t T ∧ ∀ e ∈ entriesOf T, P e.1.bytes

/-- An insertion keeps the dictionary a tree, and a property of all its keys when the new one has
it. -/
theorem TreeOf.insert {P : List MboxChar → Prop} (ht : TreeOf snt P h t) {n : ℕ}
    {key : MboxBuf} {value : Option MboxBuf} {h' : HeaderHeap} {t' : MboxRBTree}
    (hrun : mboxRBTreeInsert mboxBufCaseCmp h t n key value = ok (h', t')) (hkey : P key.bytes) :
    TreeOf snt P h' t' := by
  obtain ⟨T, hT, hP⟩ := ht
  obtain ⟨h₁, t₁, T', hconv, hT', hperm⟩ :=
    mboxRBTreeInsert_spec isComparator_mboxBufCaseCmp hT key value
  obtain ⟨rfl, rfl⟩ : h' = h₁ ∧ t' = t₁ := by
    simpa using ((mboxRBTreeInsert_mono ..).converges hrun).unique hconv
  refine ⟨T', hT', fun e he => ?_⟩
  have hmem := hperm.mem_iff.1 he
  rw [firstWrite] at hmem
  split at hmem
  · exact hP e hmem
  · rcases List.mem_append.1 hmem with hmem | hmem
    · exact hP e hmem
    · rw [List.mem_singleton.1 hmem]
      exact hkey

/-! ## The parts of an iteration -/

/-- Between two headers: both buffers are empty and the dictionary is a tree whose keys are all as
`P` says. -/
structure HeaderCtx.Ready (snt : RbNode MboxBuf MboxBuf) (P : List MboxChar → Prop)
    (ctx : HeaderCtx) : Prop where
  key : ctx.key.Sound
  key_nil : ctx.key.bytes = []
  value : ctx.value.Sound
  tree : TreeOf snt P ctx.h ctx.headers

variable {P : List MboxChar → Prop} {ctx ctx' : HeaderCtx} {buf : MboxBuf} {n : ℕ}

/-- What of storing a header cannot go wrong: the name is copied, and the buffers are emptied. -/
theorem storeHeader_eq (fill : ℕ → MboxChar) (hkey : ctx.key.Sound) (hvalue : ctx.value.Sound) :
    ∃ name key value, name.bytes = ctx.key.bytes ∧ mboxBufSlice ctx.key 0 0 0 = ok key ∧
      mboxBufSlice ctx.value 0 0 0 = ok value ∧
      ∀ n, storeHeader fill n ctx = headerValue fill ctx.value >>= fun stored =>
        mboxRBTreeInsert mboxBufCaseCmp ctx.h ctx.headers n name (some stored) >>= fun p =>
          ok { ctx with key, value, h := p.1, headers := p.2 } := by
  obtain ⟨name, hname, hholds⟩ := mboxBufDup_spec fill hkey
  obtain ⟨key, hslice, -⟩ := mboxBufSlice_zero hkey
  obtain ⟨value, hslice', -⟩ := mboxBufSlice_zero hvalue
  refine ⟨name, key, value, hholds.bytes_eq, hslice, hslice', fun n => ?_⟩
  simp only [storeHeader, hname, hslice, hslice', ok_bind, pure_eq]

/-- A header that is stored is stored under the name that was collected. -/
theorem storeHeader_inv (hrun : storeHeader fill n ctx = ok ctx') (hkey : ctx.key.Sound)
    (hvalue : ctx.value.Sound) (htree : TreeOf snt P ctx.h ctx.headers)
    (hP : P ctx.key.bytes) :
    ctx'.offset = ctx.offset ∧ ctx'.Ready snt P := by
  obtain ⟨name, key, value, hbytes, hslice, hslice', heq⟩ := storeHeader_eq fill hkey hvalue
  rw [heq] at hrun
  obtain ⟨stored, -, hrun⟩ := bind_eq_ok hrun
  obtain ⟨⟨h', t'⟩, hins, hrun⟩ := bind_eq_ok hrun
  cases hrun
  obtain ⟨key', hkey', hsound, hnil, -⟩ := mboxBufSlice_zero hkey
  obtain ⟨value', hvalue', hsound', -⟩ := mboxBufSlice_zero hvalue
  obtain rfl := ok.inj (hslice.symm.trans hkey')
  obtain rfl := ok.inj (hslice'.symm.trans hvalue')
  exact ⟨rfl, hsound, hnil, hsound', htree.insert hins (hbytes ▸ hP)⟩

/-! ## A header at the offset -/

section At

variable {data : List MboxChar} {o : ℕ}

theorem drop_of_append {xs rest : List MboxChar} (h : data.drop o = xs ++ rest) :
    data.drop (o + xs.length) = rest := by
  rw [← List.drop_drop, h, List.drop_left]

/-- The byte at an offset is the first one left there. -/
theorem load_of_drop {c : MboxChar} {rest : List MboxChar} (h : data.drop o = c :: rest) :
    load data o = ok c := by
  refine load_eq ?_
  rw [← List.head?_drop, h]
  rfl

end At

variable {name text next : List MboxChar} {c : MboxChar}

/-- The name is collected behind what is in its buffer. -/
theorem parseHeaderName_spec (fill : ℕ → MboxChar) (hkey : ctx.key.Sound) (hname : colon ∉ name)
    (hdata : buf.data.drop ctx.offset = name ++ colon :: text) :
    ∃ key, parseHeaderName fill buf ctx =
        ok { ctx with offset := ctx.offset + name.length + 2, key } ∧
      key.Sound ∧ key.bytes = ctx.key.bytes ++ name := by
  obtain ⟨key, hput, hcollects⟩ := putUntil_collects fill (fun _ => false) text hname hkey
  refine ⟨key, ?_, hcollects.sound, ?_⟩
  · rw [parseHeaderName, hdata, hput]
    rfl
  · rw [hcollects.bytes]
    simp

/-- A line of a value, and whether the value goes on. -/
theorem parseHeaderValueStep_eq (fill : ℕ → MboxChar) (hvalue : ctx.value.Sound)
    (htext : nl ∉ text) (hdata : buf.data.drop ctx.offset = text ++ nl :: c :: next) :
    ∃ value, Collects ctx.value (text.filter fun ch => !(ch == cr || ch == tab)) value ∧
      parseHeaderValueStep fill buf ctx =
        ok (if c = space ∨ c = tab then .inl { ctx with
            offset := ctx.offset + text.length + 1, value }
          else .inr { ctx with offset := ctx.offset + text.length + 1, value }) := by
  obtain ⟨value, hput, hcollects⟩ :=
    putUntil_collects fill (fun ch => ch == cr || ch == tab) (c :: next) htext hvalue
  have hnext : load buf.data (ctx.offset + text.length + 1) = ok c := by
    have hdrop := drop_of_append (show buf.data.drop ctx.offset =
      text ++ [nl] ++ (c :: next) by simpa using hdata)
    rw [List.length_append, List.length_singleton, ← Nat.add_assoc] at hdrop
    exact load_of_drop hdrop
  refine ⟨value, hcollects, ?_⟩
  simp only [parseHeaderValueStep, hdata, hput, mboxBufMatchChar, hnext, ok_bind, pure_eq,
    decide_eq_true_eq]
  by_cases hspace : c = space
  · simp [hspace]
  · by_cases htab : c = tab <;> simp [hspace, htab]

/-- A value of one line: the next line does not begin with a blank, so the loop has ended and stands
behind the newline. -/
theorem parseHeaderValue_inv (hvalue : ctx.value.Sound) (htext : nl ∉ text) (hspace : c ≠ space)
    (htab : c ≠ tab) (hdata : buf.data.drop ctx.offset = text ++ nl :: c :: next)
    (hrun : loop (parseHeaderValueStep fill buf) n ctx = ok ctx') :
    ∃ value, ctx' = { ctx with offset := ctx.offset + text.length + 1, value } ∧ value.Sound := by
  obtain ⟨value, hcollects, hstep⟩ := parseHeaderValueStep_eq fill hvalue htext hdata
  rw [if_neg (not_or.2 ⟨hspace, htab⟩)] at hstep
  cases n with
  | zero => cases hrun
  | succ n =>
    rw [loop_succ, hstep, ok_bind] at hrun
    cases hrun
    exact ⟨value, rfl, hcollects.sound⟩

/-- **A header of one line**: it is stored, and the parser is behind it. -/
theorem parseHeader_inv (hkey : ctx.key.Sound) (hvalue : ctx.value.Sound)
    (htree : TreeOf snt P ctx.h ctx.headers) (hname : colon ∉ name) (htext : nl ∉ text)
    (hspace : c ≠ space) (htab : c ≠ tab)
    (hdata : buf.data.drop ctx.offset = name ++ colon :: space :: (text ++ nl :: c :: next))
    (hP : P (ctx.key.bytes ++ name)) {r : HeaderCtx ⊕ HeaderCtx}
    (hrun : parseHeader fill buf n ctx = ok r) :
    ∃ ctx', ctx'.offset = ctx.offset + (name ++ colon :: space :: (text ++ [nl])).length ∧
      ctx'.Ready snt P ∧ endHeaders buf ctx' = ok r := by
  obtain ⟨key, hcollect, hkey', hbytes⟩ := parseHeaderName_spec fill hkey hname hdata
  rw [parseHeader, hcollect, ok_bind] at hrun
  obtain ⟨ctx₁, hloop, hrun⟩ := bind_eq_ok hrun
  have hdrop := drop_of_append (show buf.data.drop ctx.offset =
    name ++ [colon, space] ++ (text ++ nl :: c :: next) by simpa using hdata)
  rw [List.length_append, ← Nat.add_assoc] at hdrop
  obtain ⟨value, rfl, hvalue'⟩ :=
    parseHeaderValue_inv (by exact hvalue) htext hspace htab (by exact hdrop) hloop
  obtain ⟨ctx₂, hstore, hend⟩ := bind_eq_ok hrun
  obtain ⟨hoffset, hready⟩ := storeHeader_inv hstore hkey' hvalue' htree (hbytes.symm ▸ hP)
  refine ⟨ctx₂, ?_, hready, hend⟩
  rw [hoffset]
  simp only [List.length_append, List.length_cons, List.length_nil]
  omega

/-! ## The offset never goes back -/

/-- Storing a header reads nothing from the message. -/
theorem storeHeader_offset (hrun : storeHeader fill n ctx = ok ctx') :
    ctx'.offset = ctx.offset := by
  obtain ⟨name, -, hrun⟩ := bind_eq_ok hrun
  obtain ⟨value, -, hrun⟩ := bind_eq_ok hrun
  obtain ⟨ht, -, hrun⟩ := bind_eq_ok hrun
  obtain ⟨key, -, hrun⟩ := bind_eq_ok hrun
  obtain ⟨value, -, hrun⟩ := bind_eq_ok hrun
  cases hrun
  rfl

/-- Where an iteration leaves the parser, whether it is the last one or not. -/
def HeaderCtx.stand (r : HeaderCtx ⊕ HeaderCtx) : ℕ := (r.elim id id).offset

variable {r : HeaderCtx ⊕ HeaderCtx}

/-- The test for the end of the headers does not go back. -/
theorem endHeaders_le (hrun : endHeaders buf ctx = ok r) : ctx.offset ≤ HeaderCtx.stand r := by
  obtain ⟨ch, -, hrun⟩ := bind_eq_ok hrun
  split at hrun
  · obtain ⟨k, hscan, hrun⟩ := bind_eq_ok hrun
    cases hrun
    exact le_of_scanWithin hscan
  · cases hrun
    exact le_refl _

/-- Nor does reading a From line. -/
theorem parseFromLine_le (hrun : parseFromLine fill buf n ctx = ok ctx') :
    ctx.offset ≤ ctx'.offset := by
  obtain ⟨found, -, hrun⟩ := bind_eq_ok hrun
  split at hrun
  · cases hrun
    exact le_refl _
  · obtain ⟨⟨k, key⟩, -, hrun⟩ := bind_eq_ok hrun
    obtain ⟨name, -, hrun⟩ := bind_eq_ok hrun
    obtain ⟨value, -, hrun⟩ := bind_eq_ok hrun
    obtain ⟨ht, -, hrun⟩ := bind_eq_ok hrun
    cases hrun
    exact (Nat.le_add_right _ k).trans (Nat.le_succ _)

/-- A line of a value has at least its newline. -/
theorem parseHeaderValueStep_lt (hrun : parseHeaderValueStep fill buf ctx = ok r) :
    ctx.offset < HeaderCtx.stand r := by
  obtain ⟨⟨k, value⟩, -, hrun⟩ := bind_eq_ok hrun
  have hlt : ctx.offset < ctx.offset + k + 1 := Nat.lt_succ_of_le (Nat.le_add_right _ k)
  obtain ⟨b, -, hrun⟩ := bind_eq_ok hrun
  split at hrun
  · cases hrun
    exact hlt
  · obtain ⟨b', -, hrun⟩ := bind_eq_ok hrun
    split at hrun
    · cases hrun
      exact hlt
    · cases hrun
      exact hlt

/-- So a value is never empty of bytes to read. -/
theorem parseHeaderValue_lt (hrun : loop (parseHeaderValueStep fill buf) n ctx = ok ctx') :
    ctx.offset < ctx'.offset := by
  have hnext : ∀ s s' : HeaderCtx, ctx.offset ≤ s.offset →
      parseHeaderValueStep fill buf s = ok (.inl s') → ctx.offset ≤ s'.offset :=
    fun s s' hs hstep => hs.trans (parseHeaderValueStep_lt hstep).le
  have hdone : ∀ s s' : HeaderCtx, ctx.offset ≤ s.offset →
      parseHeaderValueStep fill buf s = ok (.inr s') → ctx.offset < s'.offset :=
    fun s s' hs hstep => lt_of_le_of_lt hs (parseHeaderValueStep_lt hstep)
  exact loop_inv hnext hdone (le_refl _) hrun

/-- A header takes the bytes in front of the `:`, the two behind it and a newline. -/
theorem parseHeader_lt (hrun : parseHeader fill buf n ctx = ok r) :
    ∃ k key, putUntil fill colon (fun _ => false) (buf.data.drop ctx.offset) ctx.key =
      ok (k, key) ∧ ctx.offset + k + 2 < HeaderCtx.stand r := by
  obtain ⟨ctx₁, hname, hrun⟩ := bind_eq_ok hrun
  obtain ⟨⟨k, key⟩, hput, hname⟩ := bind_eq_ok hname
  cases hname
  obtain ⟨ctx₂, hloop, hrun⟩ := bind_eq_ok hrun
  obtain ⟨ctx₃, hstore, hend⟩ := bind_eq_ok hrun
  have hvalue := parseHeaderValue_lt hloop
  rw [← storeHeader_offset hstore] at hvalue
  exact ⟨k, key, hput, lt_of_lt_of_le hvalue (endHeaders_le hend)⟩

/-- An iteration does not go back. -/
theorem parseEmailHeadersStep_le (hrun : parseEmailHeadersStep fill buf n ctx = ok r) :
    ctx.offset ≤ HeaderCtx.stand r := by
  rw [parseEmailHeadersStep] at hrun
  split at hrun
  · cases hrun
    exact le_refl _
  · obtain ⟨ctx₁, hfrom, hrun⟩ := bind_eq_ok hrun
    obtain ⟨k, key, -, hlt⟩ := parseHeader_lt hrun
    have hle := parseFromLine_le hfrom
    omega

end Libmbox2
