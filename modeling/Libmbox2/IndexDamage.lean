import Libmbox2.HeaderBounds
import Libmbox2.IndexRead

/-!
# An index that is damaged (`indexesToList`, `mboxIdxBatchLoad`)

`indexesToList` looks for a blank and for a newline, and tests neither how long the contents of
the buffer are nor how long its two arrays are. `mboxIdxBatchLoad` takes an entry out of the list
before it tests whether there is one. So what is read without harm is one record after the other,
and at least one (`loadsSafely_iff`).
-/

namespace Libmbox2

open CSem CSem.Exec

/-- A file in the buffer that it was read into. Where there is nothing to read nothing is
written. -/
structure IndexBuf (buf : MboxBuf) (xs : List MboxChar) : Prop where
  offset : buf.offset = 0
  len : buf.len = xs.length
  holds : xs ≠ [] → buf.Holds xs

/-- The list of entries is that with the number `0`. -/
def indexLists (heap : Heap (MboxLNode MboxIdxOffset)) (l : MboxList) : Lists MboxIdxOffset :=
  ⟨heap, fun i => if i = 0 then some l else none⟩

/-- The index is read, and no byte behind the terminator is; its entries are put into batches
none of which is empty. -/
def LoadsSafely (fill : ℕ → MboxChar) (buf : MboxBuf) : Prop :=
  ∃ heap l entries, Converges (fun n => indexesToList fill Heap.empty buf n) (heap, l) ∧
    Converges (fun n => indexesToList fill Heap.empty buf.cut n) (heap, l) ∧
    l.Holds heap entries ∧
    ∃ lists jobs bs, Converges (fun n => mboxIdxBatchLoad n (indexLists heap l)) (lists, jobs) ∧
      List.Forall₂ (fun i b => ∃ l', lists.list i = some l' ∧ IsDeque lists.heap l' b) jobs bs ∧
      bs.flatten = entries ∧ ∀ b ∈ bs, b ≠ []

/-- Records, each of which fits into the arrays with a NUL behind it. -/
inductive IndexLines : List MboxChar → Prop where
  | nil : IndexLines []
  | cons {s e rest} : space ∉ s → s.length ≤ 25 → nl ∉ e → e.length ≤ 25 → IndexLines rest →
      IndexLines (s ++ space :: (e ++ nl :: rest))

/-! ## The file in the buffer -/

section Buffer

variable {fill : ℕ → MboxChar} {buf : MboxBuf} {xs : List MboxChar}

/-- What `loadIndexes` makes of a file: a buffer with its bytes and a NUL. -/
theorem loadIndexes_indexBuf (fill : ℕ → MboxChar) (hsize : xs.length < 2 ^ 32) :
    ∃ ioctx, loadIndexes fill (preadRegular xs) true xs.length = ok (some ioctx) ∧
      IndexBuf ioctx.buf xs := by
  rcases eq_or_ne xs [] with rfl | hne
  · have hnil : (([] : List MboxChar).drop 0).take 0 = [] := rfl
    obtain ⟨buf, tail, hread, -, hlen, hoffset, -⟩ :=
      mboxIORead_nil fill 0 (mboxIONew_sound fill 0) (by decide) hnil
    refine ⟨{ mboxIONew fill 0 with buf, err := mboxIOEof }, ?_, hoffset, hlen, absurd rfl⟩
    simp only [loadIndexes, Bool.not_true, Bool.false_eq_true, if_false, List.length_nil, hread,
      ok_bind]
    rfl
  · obtain ⟨ioctx, hload, hholds, hoffset⟩ := loadIndexes_spec fill hne hsize
    exact ⟨ioctx, hload, hoffset, hholds.len, fun _ => hholds⟩

/-- A buffer cut behind its contents has them and the NUL. -/
theorem MboxBuf.Holds.cut (h : buf.Holds xs) : buf.cut.data = xs ++ [nul] := by
  obtain ⟨rest, hdata⟩ := h.data
  rw [MboxBuf.cut, hdata, h.len, List.append_cons]
  exact List.take_left' (by simp)

/-- The list of entries is the first of the lists. -/
theorem indexLists_hold {heap : Heap (MboxLNode MboxIdxOffset)} {l : MboxList}
    {entries : List MboxIdxOffset} (hl : l.Holds heap entries) :
    ∃ addr, (indexLists heap l).Hold (numbered [entries]) addr := by
  obtain ⟨ps, hat⟩ := MboxList.holds_iff.mp hl
  refine ⟨fun i => if i = 0 then ps else [], fun i ys hi => ?_, fun i hi => ?_, fun i j hij => ?_⟩
  · cases i with
    | zero =>
      obtain rfl : entries = ys := Option.some.inj hi
      exact ⟨l, rfl, hat⟩
    | succ i => cases hi
  · cases i with
    | zero => cases hi
    | succ i => exact ⟨rfl, rfl⟩
  · rcases eq_or_ne i 0 with rfl | hi
    · rw [if_neg hij.symm]
      exact List.disjoint_nil_right _
    · rw [if_neg hi]
      exact List.disjoint_nil_left _

end Buffer

/-! ## Records are read -/

section Read

variable {fill : ℕ → MboxChar} {buf : MboxBuf} {xs rest : List MboxChar} {ctx : EntriesCtx}
  {es : List MboxIdxOffset}

/-- **The loop** reads the records that are left, and ends where the text does. -/
theorem IndexLines.run (hlines : IndexLines rest) (hc : ctx.Has es)
    (hdata : ∃ tail, buf.data.drop ctx.offset = rest ++ tail)
    (hlen : buf.len = ctx.offset + rest.length) :
    ∃ ctx' new, LoopTo (fun _ => indexesToListStep buf) ctx ctx' ∧ ctx'.Has (es ++ new) ∧
      (new = [] → rest = []) := by
  induction hlines generalizing ctx es with
  | nil =>
    have hend : ¬ ctx.offset < buf.len := by
      rw [hlen]
      exact Nat.lt_irrefl _
    refine ⟨ctx, [], LoopTo.done (Converges.const (if_pos hend)), ?_, fun _ => rfl⟩
    rwa [List.append_nil]
  | @cons s e rest hs hslen he helen _ ih =>
    obtain ⟨tail, hdata⟩ := hdata
    simp only [List.append_assoc, List.cons_append] at hdata
    have hlt : ctx.offset < buf.len := by
      simp only [hlen, List.length_append, List.length_cons]
      omega
    obtain ⟨ctx₁, v, w, hstep, hoffset, hdata₁, hhas, -⟩ :=
      hc.step hlt hdata hs he hslen helen
    have hlen₁ : buf.len = ctx₁.offset + rest.length := by
      rw [hlen, hoffset]
      simp only [List.length_append, List.length_cons, List.length_nil]
      omega
    obtain ⟨ctx', new, hloop, hhas', -⟩ := ih hhas ⟨tail, hdata₁⟩ hlen₁
    refine ⟨ctx', ⟨toSize v, toSize w⟩ :: new, LoopTo.step (Converges.const hstep) hloop, ?_,
      fun h => nomatch h⟩
    rwa [List.append_assoc] at hhas'

/-- What is read on a block is read on one that goes on. -/
theorem copyUntil_gives {d d' : List MboxChar} (h : d <+: d') (stop : MboxChar)
    (tmp : List MboxChar) (idx : ℕ) :
    Gives (copyUntil stop d tmp idx) (copyUntil stop d' tmp idx) := by
  obtain ⟨more, rfl⟩ := h
  induction d generalizing tmp idx with
  | nil => nofun
  | cons c d ih =>
    rw [List.cons_append, copyUntil, copyUntil]
    exact (Gives.refl _).ite ((Gives.refl _).bind fun tmp' => ih tmp' (idx + 1))

/-- An iteration gives the same in a longer block. -/
theorem indexesToListStep_gives {buf' : MboxBuf} (hlong : buf.Longer buf') (ctx : EntriesCtx) :
    Gives (indexesToListStep buf ctx) (indexesToListStep buf' ctx) := by
  rw [indexesToListStep, indexesToListStep, hlong.len]
  refine (Gives.refl _).ite ((copyUntil_gives (hlong.data.drop _) _ _ _).bind fun r => ?_)
  exact (copyUntil_gives (hlong.data.drop _) _ _ _).bind fun r' => Gives.refl _

/-- So does the loop. -/
theorem indexesToList_longer {buf' : MboxBuf} (hlong : buf.Longer buf')
    {heap : Heap (MboxLNode MboxIdxOffset)} {r : Heap (MboxLNode MboxIdxOffset) × MboxList}
    (h : Converges (fun n => indexesToList fill heap buf n) r) :
    Converges (fun n => indexesToList fill heap buf' n) r := by
  refine Gives.converges (fun n => ?_) h
  rw [indexesToList, indexesToList, hlong.offset]
  exact (Gives.loop (indexesToListStep_gives hlong) n _).bind fun ctx => Gives.refl _

/-- **The loop** of the batches, for entries of any size: none is lost, although the sizes may wrap
around. -/
theorem BatchCtx.Spread.run {ctx : BatchCtx} {rest cur : List MboxIdxOffset}
    {closed : List (List MboxIdxOffset)} (hf : ctx.Spread rest closed cur) (hne : rest ≠ [])
    (hclosed : ∀ b ∈ closed, b ≠ []) :
    ∃ ctx' closed' cur', LoopTo (fun _ => batchLoadStep) ctx ctx' ∧ ctx'.Spread [] closed' cur' ∧
      (∀ b ∈ closed', b ≠ []) ∧ closed'.flatten ++ cur' = closed.flatten ++ cur ++ rest := by
  induction rest generalizing ctx closed cur with
  | nil => exact absurd rfl hne
  | cons x rest ih =>
    obtain ⟨ctx₁, closed₁, cur₁, hstep, hf₁, hbatches⟩ := hf.step
    obtain ⟨hclosed₁, hflat⟩ : (∀ b ∈ closed₁, b ≠ []) ∧
        closed₁.flatten ++ cur₁ = closed.flatten ++ cur ++ [x] := by
      rw [BatchCtx.Put] at hbatches
      split at hbatches
      · obtain ⟨rfl, rfl, -⟩ := hbatches
        exact ⟨hclosed, (List.append_assoc ..).symm⟩
      · obtain ⟨rfl, rfl, -⟩ := hbatches
        refine ⟨fun b hb => ?_, by simp⟩
        rcases List.mem_append.mp hb with hb | hb
        · exact hclosed b hb
        · rw [List.mem_singleton.mp hb]
          exact List.concat_ne_nil x cur
    by_cases hrest : rest = []
    · subst hrest
      exact ⟨ctx₁, closed₁, cur₁, LoopTo.done (Converges.const hstep), hf₁, hclosed₁, hflat⟩
    · rw [if_neg hrest] at hstep
      obtain ⟨ctx', closed', cur', hloop, hf', hclosed', hflat'⟩ := ih hf₁ hrest hclosed₁
      refine ⟨ctx', closed', cur', LoopTo.step (Converges.const hstep) hloop, hf', hclosed', ?_⟩
      rw [hflat', hflat, List.append_assoc, List.singleton_append]

/-- Any entries, whatever their size, are put into batches that are not empty. -/
theorem mboxIdxBatchLoad_spread {lists : Lists MboxIdxOffset} {entries : List MboxIdxOffset}
    {addr : ℕ → List ℕ} (hhold : lists.Hold (numbered [entries]) addr) (hne : entries ≠ []) :
    ∃ lists' addr' bs L, Converges (fun n => mboxIdxBatchLoad n lists)
        (lists', List.range' 1 bs.length) ∧
      lists'.Hold (numbered ([] :: (bs ++ L))) addr' ∧ bs.flatten = entries ∧
      ∀ b ∈ bs, b ≠ [] := by
  obtain ⟨ctx, closed, cur, hloop, hf, hclosed, hflat⟩ :=
    (BatchCtx.Spread.start hhold).run hne fun b hb => nomatch hb
  obtain ⟨addr', L, hconv, hhold'⟩ := hf.finish hloop rfl
  refine ⟨ctx.lists, addr', _, L, hconv, hhold', ?_, fun b hb => ?_⟩
  · rw [← (show closed.flatten ++ cur = entries from hflat)]
    split
    · next hnil => simp [hnil]
    · simp
  · rcases List.mem_append.mp hb with hb | hb
    · exact hclosed b hb
    · split at hb
      · cases hb
      · next hcur =>
        rw [List.mem_singleton.mp hb]
        exact hcur

/-- An index with at least one record is loaded, and nothing else is read. -/
theorem IndexLines.loadsSafely (fill : ℕ → MboxChar) (hlines : IndexLines xs) (hne : xs ≠ [])
    (hbuf : IndexBuf buf xs) : LoadsSafely fill buf := by
  have hhas :
      EntriesCtx.Has ⟨0, resize fill [] 26, resize fill [] 26, Heap.empty, mboxListNew⟩ [] :=
    ⟨length_resize .., length_resize .., mboxListNew_holds _⟩
  have hdata : buf.cut.data.drop 0 = xs ++ [nul] := (hbuf.holds hne).cut
  have hlen : buf.cut.len = 0 + xs.length := hbuf.len.trans (Nat.zero_add _).symm
  obtain ⟨ctx, entries, hloop, hhas', hsome⟩ := hlines.run hhas ⟨[nul], hdata⟩ hlen
  have hrun := hloop.converges.bind (g := fun _ ctx => ok (ctx.heap, ctx.l)) (Converges.const rfl)
  have hcut : Converges (fun n => indexesToList fill Heap.empty buf.cut n) (ctx.heap, ctx.l) := by
    refine Converges.congr (fun n => ?_) hrun
    rw [indexesToList, show buf.cut.offset = 0 from hbuf.offset]
    rfl
  obtain ⟨addr, hhold⟩ := indexLists_hold hhas'.list
  obtain ⟨lists, addr', bs, L, hconv, hhold', hflat, hbs⟩ :=
    mboxIdxBatchLoad_spread hhold fun h => hne (hsome h)
  refine ⟨ctx.heap, ctx.l, entries, indexesToList_longer buf.cut_longer hcut, hcut, hhas'.list,
    lists, _, bs, hconv, ?_, hflat, hbs⟩
  exact hhold'.batches

end Read

/-! ## Nothing else is -/

section Damaged

variable {fill : ℕ → MboxChar} {buf : MboxBuf} {xs rest : List MboxChar} {ctx ctx' : EntriesCtx}

/-- What was copied is in the block up to the byte that ended it. -/
theorem copyUntil_inv {stop : MboxChar} {d tmp tmp' : List MboxChar} {idx k : ℕ}
    (h : copyUntil stop d tmp idx = ok (tmp', k)) :
    ∃ ys r, d = ys ++ stop :: r ∧ stop ∉ ys ∧ k = idx + ys.length ∧ tmp'.length = tmp.length := by
  induction d generalizing tmp idx with
  | nil => cases h
  | cons c d ih =>
    rw [copyUntil] at h
    split at h
    · next hc =>
      cases h
      exact ⟨[], d, by rw [hc]; rfl, List.not_mem_nil, rfl, rfl⟩
    · next hc =>
      obtain ⟨tmp₁, hstore, h⟩ := bind_eq_ok h
      obtain ⟨ys, r, rfl, hys, rfl, hlen⟩ := ih h
      refine ⟨c :: ys, r, rfl, ?_, ?_, hlen.trans (store_inv hstore).2⟩
      · rintro (_ | ⟨_, hmem⟩)
        · exact hc rfl
        · exact hys hmem
      · rw [List.length_cons]
        omega

/-- What is copied up to a byte that is not the terminator is in the contents. -/
theorem append_terminator {stop : MboxChar} (hstop : stop ≠ nul) {ys r : List MboxChar}
    (h : rest ++ [nul] = ys ++ stop :: r) : ∃ r', r = r' ++ [nul] ∧ rest = ys ++ stop :: r' := by
  rcases List.append_eq_append_iff.mp h with ⟨as, -, has⟩ | ⟨bs, hrest, hbs⟩
  · cases as with
    | nil => exact absurd (List.cons.inj has).1.symm hstop
    | cons a as => cases as <;> cases (List.cons.inj has).2
  · cases bs with
    | nil => exact absurd (List.cons.inj hbs).1 hstop
    | cons b bs =>
      obtain ⟨rfl, rfl⟩ := List.cons.inj hbs
      exact ⟨bs, rfl, hrest⟩

/-- An iteration that returns has read a record. -/
theorem indexesToListStep_inv (h : indexesToListStep buf ctx = ok (.inl ctx'))
    (hdata : buf.data.drop ctx.offset = rest ++ [nul]) (hstart : ctx.tmpstart.length = 26)
    (hend : ctx.tmpend.length = 26) :
    ∃ s e rest', rest = s ++ space :: (e ++ nl :: rest') ∧ space ∉ s ∧ s.length ≤ 25 ∧ nl ∉ e ∧
      e.length ≤ 25 ∧ ctx'.offset = ctx.offset + (s ++ space :: (e ++ [nl])).length ∧
      buf.data.drop ctx'.offset = rest' ++ [nul] ∧ ctx'.tmpstart.length = 26 ∧
      ctx'.tmpend.length = 26 := by
  rw [indexesToListStep] at h
  split at h
  · cases h
  obtain ⟨⟨tmp₁, k₁⟩, hcopy₁, h⟩ := bind_eq_ok h
  obtain ⟨⟨tmp₂, k₂⟩, hcopy₂, h⟩ := bind_eq_ok h
  obtain ⟨tmpstart, hstore₁, h⟩ := bind_eq_ok h
  obtain ⟨tmpend, hstore₂, h⟩ := bind_eq_ok h
  obtain ⟨v, -, h⟩ := bind_eq_ok h
  obtain ⟨w, -, h⟩ := bind_eq_ok h
  obtain ⟨⟨heap, l⟩, -, h⟩ := bind_eq_ok h
  cases h
  rw [hdata] at hcopy₁
  obtain ⟨s, r, hs, hspace, hk₁, hlen₁⟩ := copyUntil_inv hcopy₁
  obtain ⟨r, rfl, rfl⟩ := append_terminator (by decide) hs
  obtain rfl : k₁ = s.length := hk₁.trans (Nat.zero_add _)
  have hdata₁ : buf.data.drop (ctx.offset + s.length + 1) = r ++ [nul] := by
    rw [Nat.add_assoc, ← List.drop_drop, hdata, List.append_assoc, List.drop_append]
    simp
  rw [hdata₁] at hcopy₂
  obtain ⟨e, r', he, hnl, hk₂, hlen₂⟩ := copyUntil_inv hcopy₂
  obtain ⟨r', rfl, rfl⟩ := append_terminator (by decide) he
  obtain rfl : k₂ = e.length := hk₂.trans (Nat.zero_add _)
  obtain ⟨hroom₁, hlen₁'⟩ := store_inv hstore₁
  obtain ⟨hroom₂, hlen₂'⟩ := store_inv hstore₂
  refine ⟨s, e, r', rfl, hspace, by omega, hnl, by omega, ?_, ?_,
    hlen₁'.trans (hlen₁.trans hstart), hlen₂'.trans (hlen₂.trans hend)⟩
  · simp only [List.length_append, List.length_cons, List.length_nil]
    omega
  · rw [Nat.add_assoc, ← List.drop_drop, hdata₁, List.append_assoc, List.drop_append]
    simp

/-- A loop that returns has read records, and nothing but records. -/
theorem indexLines_of_loop {n : ℕ} (h : loop (indexesToListStep buf) n ctx = ok ctx')
    (hdata : buf.data.drop ctx.offset = rest ++ [nul]) (hlen : buf.len = ctx.offset + rest.length)
    (hstart : ctx.tmpstart.length = 26) (hend : ctx.tmpend.length = 26) : IndexLines rest := by
  induction n generalizing ctx rest with
  | zero => cases h
  | succ n ih =>
    rw [loop_succ] at h
    obtain ⟨x, hstep, h⟩ := bind_eq_ok h
    cases x with
    | inl ctx₁ =>
      obtain ⟨s, e, rest', rfl, hs, hslen, he, helen, hoffset, hdata', hstart', hend'⟩ :=
        indexesToListStep_inv hstep hdata hstart hend
      refine IndexLines.cons hs hslen he helen (ih h hdata' ?_ hstart' hend')
      simp only [hlen, hoffset, List.length_append, List.length_cons, List.length_nil]
      omega
    | inr r =>
      rw [indexesToListStep] at hstep
      split at hstep
      · next hover =>
        have hzero : rest.length = 0 := by omega
        rw [List.length_eq_zero_iff.mp hzero]
        exact IndexLines.nil
      · obtain ⟨p, -, hstep⟩ := bind_eq_ok hstep
        obtain ⟨q, -, hstep⟩ := bind_eq_ok hstep
        obtain ⟨t, -, hstep⟩ := bind_eq_ok hstep
        obtain ⟨u, -, hstep⟩ := bind_eq_ok hstep
        obtain ⟨v, -, hstep⟩ := bind_eq_ok hstep
        obtain ⟨w, -, hstep⟩ := bind_eq_ok hstep
        obtain ⟨a, -, hstep⟩ := bind_eq_ok hstep
        cases hstep

/-- What is loaded is one record after the other. -/
theorem LoadsSafely.indexLines (h : LoadsSafely fill buf) (hbuf : IndexBuf buf xs) :
    IndexLines xs := by
  rcases eq_or_ne xs [] with rfl | hne
  · exact IndexLines.nil
  obtain ⟨heap, l, -, -, hcut, -⟩ := h
  obtain ⟨n, hn⟩ := hcut.exists_ok
  obtain ⟨ctx, hloop, -⟩ := bind_eq_ok hn
  rw [show buf.cut.offset = 0 from hbuf.offset] at hloop
  exact indexLines_of_loop hloop (hbuf.holds hne).cut (hbuf.len.trans (Nat.zero_add _).symm)
    (length_resize ..) (length_resize ..)

/-- Of a list without an entry the first is taken out all the same. -/
theorem mboxIdxBatchLoad_nil {lists : Lists MboxIdxOffset} {addr : ℕ → List ℕ}
    (hhold : lists.Hold (numbered [[]]) addr) (n : ℕ)
    (r : Lists MboxIdxOffset × List ℕ) : mboxIdxBatchLoad n lists ≠ ok r := by
  intro h
  have hnew := hhold.new 1
  rw [show (1 : ℕ) = [([] : List MboxIdxOffset)].length from rfl, numbered_concat] at hnew
  obtain ⟨s, addr', hremove, -⟩ := hnew.removeHead (i := 0) rfl
  obtain ⟨⟨_, lists'⟩, hlists, h⟩ := bind_eq_ok h
  cases hlists
  obtain ⟨ctx, hloop, -⟩ := bind_eq_ok h
  cases n with
  | zero => cases hloop
  | succ n =>
    rw [loop_succ, batchLoadStep, List.length_singleton] at *
    simp only [hremove, ok_bind, List.head?_nil, fault_bind] at hloop
    cases hloop

/-- An empty file is not loaded, since the loop reads a record before it looks for the end. -/
theorem LoadsSafely.ne_nil (h : LoadsSafely fill buf) (hbuf : IndexBuf buf xs) : xs ≠ [] := by
  rintro rfl
  obtain ⟨heap, l, -, hread, -, -, lists, jobs, -, hload, -⟩ := h
  obtain ⟨n, hn⟩ := hread.exists_ok
  obtain ⟨ctx, hloop, hctx⟩ := bind_eq_ok hn
  have hempty : ctx.l.Holds ctx.heap [] := by
    cases n with
    | zero => cases hloop
    | succ n =>
      have hend : ¬ buf.offset < buf.len := by
        rw [hbuf.offset, hbuf.len]
        exact Nat.lt_irrefl 0
      rw [loop_succ, indexesToListStep, if_pos hend] at hloop
      cases hloop
      exact mboxListNew_holds _
  cases hctx
  obtain ⟨addr, hhold⟩ := indexLists_hold hempty
  obtain ⟨m, hm⟩ := hload.exists_ok
  exact mboxIdxBatchLoad_nil hhold m _ hm

/-- **An index is loaded without harm** exactly when it is one record after the other, and at least
one. Everything else makes the loop read behind the text, or write behind one of its two blocks. -/
theorem loadsSafely_iff (fill : ℕ → MboxChar) (hbuf : IndexBuf buf xs) :
    LoadsSafely fill buf ↔ IndexLines xs ∧ xs ≠ [] :=
  ⟨fun h => ⟨h.indexLines hbuf, h.ne_nil hbuf⟩, fun h => h.1.loadsSafely fill h.2 hbuf⟩

/-- Three records, of which one has no start and one is no number. -/
theorem loadsSafely_iff_threeRecords :
    LoadsSafely (fun _ => nul) ⟨str "0 5\n -3\nab 12x 9\n" ++ [nul], 0, 17, 18⟩ := by
  have hbuf : IndexBuf ⟨str "0 5\n -3\nab 12x 9\n" ++ [nul], 0, 17, 18⟩
      (str "0 5\n -3\nab 12x 9\n") :=
    ⟨rfl, rfl, fun _ => ⟨rfl, [], rfl⟩⟩
  have hlast : IndexLines (str "ab 12x 9\n") :=
    IndexLines.cons (s := str "ab") (e := str "12x 9") (by decide) (by decide) (by decide)
      (by decide) IndexLines.nil
  have hnoStart : IndexLines (str " -3\nab 12x 9\n") :=
    IndexLines.cons (s := []) (e := str "-3") (by decide) (by decide) (by decide) (by decide) hlast
  exact (loadsSafely_iff _ hbuf).mpr ⟨IndexLines.cons (s := str "0") (e := str "5") (by decide)
    (by decide) (by decide) (by decide) hnoStart, by decide⟩

/-- The empty file that a save leaves when it ends early: a record is read from it all the same. -/
theorem emptyIndex_not_loadsSafely :
    ∃ ioctx, loadIndexes (fun _ => nul) (preadRegular []) true 0 = ok (some ioctx) ∧
      IndexBuf ioctx.buf [] ∧ ¬ LoadsSafely (fun _ => nul) ioctx.buf := by
  obtain ⟨ioctx, hload, hbuf⟩ :=
    loadIndexes_indexBuf (fun _ => nul) (by decide : ([] : List MboxChar).length < 2 ^ 32)
  exact ⟨ioctx, hload, hbuf, fun h => h.ne_nil hbuf rfl⟩

end Damaged

end Libmbox2
