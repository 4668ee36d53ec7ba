import Libmbox2.HeaderBounds
import Libmbox2.HeaderShape
import Libmbox2.IndexLoad

/-!
# What a loaded message depends on

A job reads the bytes of its whole batch into one block, and every entry gets a buffer that
begins in there. The headers are read up to the first byte of the body that is not a line ending,
so nothing behind the message matters to them. The preview is a copy of 420 bytes, though,
whatever is left of the message. So a message depends on its own bytes only if as many are left;
or one less, where the block ends, since there is a NUL behind the batch as there is behind a
message that stands alone. And a header whose value is MIME-encoded is decoded from what lies
behind the buffer it was collected in, which are no bytes of the message either
(`loadsOwnBytes_iff`).
-/

namespace Libmbox2

open CSem CSem.Exec

/-- The bytes of an entry's message in the file. -/
def MboxIdxOffset.bytesIn (e : MboxIdxOffset) (file : List MboxChar) : List MboxChar :=
  (file.drop e.startOffset).take (e.endOffset - e.startOffset)

/-- What the fields of a message that are made of its bytes hold. -/
def MboxMsgLite.contents (msg : MboxMsgLite) : List (Option (List MboxChar)) × Int :=
  ([msg.msgId, msg.sender, msg.subject, msg.date, msg.fromLine, some msg.preview].map
    (Option.map MboxBuf.bytes), msg.unixTimestamp)

/-- The message of an entry is the same in any file with the same bytes there, and the same as
that of a copy which stands alone. -/
def LoadsOwnBytes (fill : ℕ → MboxChar) (dateToUnix : List MboxChar → Exec (Option Int))
    (file : List MboxChar) (b : List MboxIdxOffset) (e : MboxIdxOffset) : Prop :=
  ∀ file', e.bytesIn file' = e.bytesIn file →
    ∀ copy : MboxBuf, copy.Holds (e.bytesIn file) → copy.offset = 0 →
      ∃ msg msg' msg'',
        Converges (idxMessage fill dateToUnix (preadRegular file) b e) msg ∧
        Converges (idxMessage fill dateToUnix (preadRegular file') b e) msg' ∧
        Converges (fun n => mboxMsgLiteFromBuffer fill dateToUnix n copy e.startOffset e.endOffset)
          msg'' ∧
        msg'.contents = msg.contents ∧ msg''.contents = msg.contents ∧
        msg.preview.len ≤ mboxBufPreviewLen

/-- The date of a message can be read, if it has one. -/
def DateReads (dateToUnix : List MboxChar → Exec (Option Int))
    (es : List (List MboxChar × List MboxChar)) : Prop :=
  ∀ e ∈ es, caseCmp (str "Date") e.1 = 0 → ∀ rest, ∃ r, dateToUnix (e.2 ++ nul :: rest) = ok r

/-! ## The message of a tree of headers -/

section Message

variable {fill : ℕ → MboxChar} {dateToUnix : List MboxChar → Exec (Option Int)}
  {snt : RbNode MboxBuf MboxBuf} {h : HeaderHeap} {t : MboxRBTree} {buf : MboxBuf}
  {es : List (List MboxChar × List MboxChar)} {startOffset endOffset o n : ℕ}
  {msg : MboxMsgLite}

/-- What a lookup gives is one of the entries that were stored. -/
theorem TreeHolds.lookup (ht : TreeHolds snt h t es) {header : ℕ} {k : MboxBuf}
    (hk : mboxExpectedHeaders[header]? = some k) :
    ∃ value, Converges (fun n => mboxHeadersGet h t n header) value ∧
      ∀ v ∈ value, ∃ e ∈ es, caseCmp k.bytes e.1 = 0 ∧ v.Holds e.2 := by
  obtain ⟨T, hT, hperm, hterminated⟩ := ht
  have hget : ∀ n, mboxHeadersGet h t n header = mboxRBTreeGet mboxBufCaseCmp h t n k := fun n => by
    simp only [mboxHeadersGet, hk]
  rcases hT.get_spec isComparator_mboxBufCaseCmp k with ⟨x, hx, hkx, hconv⟩ | ⟨-, hconv⟩
  · refine ⟨x.2, Converges.congr hget hconv, fun v hv => ?_⟩
    have hmem := mem_of_mem_firstWrites (hperm.mem_iff.1 (List.mem_map_of_mem hx))
    obtain ⟨e, he, heq⟩ := List.mem_map.1 hmem
    rw [Option.mem_def.1 hv] at heq
    obtain ⟨hname, hvalue⟩ := Prod.mk.inj heq
    rw [mboxBufCaseCmp_eq, ← hname] at hkx
    have hbytes : e.2 = v.bytes := Option.some.inj hvalue
    exact ⟨e, he, hkx, hbytes ▸ hterminated x hx v hv⟩
  · refine ⟨none, Converges.congr hget hconv, fun v hv => ?_⟩
    cases hv

/-- The value of a header can be copied. -/
theorem mboxBufMaybeDup_spec (fill : ℕ → MboxChar) {value : Option MboxBuf}
    (hv : ∀ v ∈ value, ∃ xs, v.Holds xs) : ∃ dupe, mboxBufMaybeDup fill value = ok dupe := by
  cases value with
  | none => exact ⟨none, rfl⟩
  | some v =>
    obtain ⟨xs, hxs⟩ := hv v rfl
    obtain ⟨dupe, hrun, -⟩ := mboxBufDupRaw_spec fill
      (show v.len ≤ v.data.length from hxs.len ▸ hxs.length_lt.le) (Nat.le_add_right v.len 9)
    have hdup : mboxBufDup fill v = ok dupe := hrun
    exact ⟨some dupe, by rw [mboxBufMaybeDup, hdup]; rfl⟩

/-- The timestamp of a message can be made, where its date can be read. -/
theorem msgLiteTimestamp_spec (hdate : DateReads dateToUnix es) {date : Option MboxBuf}
    (hv : ∀ v ∈ date, ∃ e ∈ es, caseCmp (str "Date") e.1 = 0 ∧ v.Holds e.2) :
    ∃ timestamp, msgLiteTimestamp dateToUnix date = ok timestamp := by
  cases date with
  | none => exact ⟨0, rfl⟩
  | some v =>
    obtain ⟨e, he, hname, hholds⟩ := hv v rfl
    obtain ⟨rest, hdata⟩ := hholds.data
    obtain ⟨r, hr⟩ := hdate e he hname rest
    exact ⟨r.getD 0, by rw [msgLiteTimestamp, hdata, hr]; rfl⟩

/-- Whatever the buffer of the message: where its headers give the tree, only the preview is left
to it. -/
theorem mboxMsgLiteFromBuffer_spec (fill : ℕ → MboxChar) (ht : TreeHolds snt h t es)
    (hdate : DateReads dateToUnix es) (startOffset endOffset : ℕ) :
    ∃ make : MboxBuf → MboxMsgLite, (∀ p, (make p).preview = p) ∧
      (∀ p p', p.bytes = p'.bytes → (make p).contents = (make p').contents) ∧
      ∀ buf o p,
        Converges (mboxParseEmailHeaders fill buf headerHeapNew) (h, t, mboxBufSetOffset buf o) →
        mboxBufDupRaw fill (buf.data.drop o) mboxBufPreviewLen mboxBufPreviewLen = ok p →
        Converges (fun n => mboxMsgLiteFromBuffer fill dateToUnix n buf startOffset endOffset)
          (make p) := by
  obtain ⟨sender, hsender, hsender'⟩ := ht.lookup (show mboxExpectedHeaders[3]? = some _ from rfl)
  obtain ⟨subject, hsubject, hsubject'⟩ :=
    ht.lookup (show mboxExpectedHeaders[6]? = some _ from rfl)
  obtain ⟨date, hget, hdate'⟩ := ht.lookup (show mboxExpectedHeaders[4]? = some _ from rfl)
  obtain ⟨msgId, hmsgId, hmsgId'⟩ := ht.lookup (show mboxExpectedHeaders[7]? = some _ from rfl)
  obtain ⟨fromLine, hfromLine, hfromLine'⟩ :=
    ht.lookup (show mboxExpectedHeaders[0]? = some _ from rfl)
  obtain ⟨timestamp, htimestamp⟩ := msgLiteTimestamp_spec hdate hdate'
  have hholds : ∀ {value : Option MboxBuf} {k : MboxBuf},
      (∀ v ∈ value, ∃ e ∈ es, caseCmp k.bytes e.1 = 0 ∧ v.Holds e.2) →
      ∀ v ∈ value, ∃ xs, v.Holds xs := fun hv v hmem => by
    obtain ⟨e, -, -, he⟩ := hv v hmem
    exact ⟨e.2, he⟩
  obtain ⟨msgId₁, hmsgId₁⟩ := mboxBufMaybeDup_spec fill (hholds hmsgId')
  obtain ⟨sender₁, hsender₁⟩ := mboxBufMaybeDup_spec fill (hholds hsender')
  obtain ⟨subject₁, hsubject₁⟩ := mboxBufMaybeDup_spec fill (hholds hsubject')
  obtain ⟨date₁, hdate₁⟩ := mboxBufMaybeDup_spec fill (hholds hdate')
  obtain ⟨fromLine₁, hfromLine₁⟩ := mboxBufMaybeDup_spec fill (hholds hfromLine')
  -- the values are those of one tree, whatever buffer it was read from
  refine ⟨fun p => ⟨msgId₁, sender₁, subject₁, date₁, p, fromLine₁, timestamp, startOffset,
    endOffset⟩, fun p => rfl, fun p p' hp => ?_, fun buf o p hparse hp => ?_⟩
  · simp only [MboxMsgLite.contents, List.map_cons, Option.map_some, hp]
  · refine hparse.bind (hsender.bind (hsubject.bind (hget.bind (hmsgId.bind ?_))))
    refine (Converges.const hp).bind (hfromLine.bind (Converges.const ?_))
    simp only [htimestamp, hmsgId₁, hsender₁, hsubject₁, hdate₁, hfromLine₁, ok_bind, pure_eq]

/-- What a message says about the bytes behind its headers: there are enough of them. -/
theorem preview_of_run
    (hparse : Converges (mboxParseEmailHeaders fill buf headerHeapNew)
      (h, t, mboxBufSetOffset buf o))
    (hrun : mboxMsgLiteFromBuffer fill dateToUnix n buf startOffset endOffset = ok msg) :
    mboxBufPreviewLen ≤ (buf.data.drop o).length ∧
      msg.preview.bytes = (buf.data.drop o).take mboxBufPreviewLen := by
  rw [mboxMsgLiteFromBuffer] at hrun
  obtain ⟨r, hr, hrun⟩ := bind_eq_ok hrun
  obtain rfl := ((mboxParseEmailHeaders_mono buf _).converges hr).unique hparse
  -- the four lookups in front of the preview, and what follows it
  iterate 4
    obtain ⟨_, -, hrun⟩ := bind_eq_ok hrun
  obtain ⟨preview, hpreview, hrun⟩ := bind_eq_ok hrun
  iterate 7
    obtain ⟨_, -, hrun⟩ := bind_eq_ok hrun
  obtain rfl := ok.inj hrun
  have hroom : mboxBufPreviewLen ≤ (buf.data.drop o).length := by
    obtain ⟨bytes, hload, -⟩ := bind_eq_ok hpreview
    rw [loadBytes] at hload
    split at hload
    · rename_i hle
      exact (Nat.zero_add _).symm.le.trans hle
    · cases hload
  obtain ⟨preview', hdup, hholds, -⟩ :=
    mboxBufDupRaw_spec fill hroom (Nat.le_add_right mboxBufPreviewLen 9)
  obtain rfl := ok.inj (hdup.symm.trans hpreview)
  exact ⟨hroom, hholds.bytes_eq⟩

end Message

/-! ## The block of a batch -/

section Block

variable {fill : ℕ → MboxChar} {dateToUnix : List MboxChar → Exec (Option Int)}
  {file r rest : List MboxChar} {es : List (List MboxChar × List MboxChar)}
  {b : List MboxIdxOffset} {e first last : MboxIdxOffset}

/-- The headers are read the same way whatever is behind the message. -/
theorem HeaderBlock.parse_before (fill : ℕ → MboxChar)
    (hblock : HeaderBlock (mboxBufAlloc fill 3000).data (r.dropWhile isLine) es rest)
    (hne : rest ≠ []) :
    ∃ snt h t o, TreeHolds snt h t es ∧ ∀ (buf : MboxBuf) (behind : List MboxChar),
      buf.offset = 0 → buf.len = r.length → buf.data = r ++ behind →
      Converges (mboxParseEmailHeaders fill buf headerHeapNew) (h, t, mboxBufSetOffset buf o) ∧
      buf.data.drop o = rest ++ behind := by
  have hat : (⟨r, 0, r.length, 0⟩ : MboxBuf).LeftAt [] 0 r :=
    ⟨(List.append_nil r).symm, Nat.zero_add _⟩
  obtain ⟨snt, h, t, o, hconv, htree, hleft⟩ :=
    hblock.parse fill (h := headerHeapNew) rfl hat (Or.inr hne)
  refine ⟨snt, h, t, o, htree, fun buf behind ho hlen hdata => ?_⟩
  have hlong : MboxBuf.Longer ⟨r, 0, r.length, 0⟩ buf :=
    ⟨hdata ▸ List.prefix_append r behind, hlen, ho⟩
  have hle : o ≤ r.length := Nat.le_of_add_right_le hleft.len.le
  refine ⟨mboxParseEmailHeaders_longer hlong hconv, ?_⟩
  rw [hdata, List.drop_append_of_le_length hle, show r.drop o = rest ++ [] from hleft.data,
    List.append_nil]

/-- The preview goes on behind the message where there is not enough of it. -/
theorem mboxMsgLiteFromBuffer_preview (fill : ℕ → MboxChar)
    (hblock : HeaderBlock (mboxBufAlloc fill 3000).data (r.dropWhile isLine) es rest)
    (hne : rest ≠ []) (hdate : DateReads dateToUnix es) (startOffset endOffset : ℕ) :
    ∃ make : MboxBuf → MboxMsgLite, (∀ p, (make p).preview = p) ∧
      (∀ p p', p.bytes = p'.bytes → (make p).contents = (make p').contents) ∧
      ∀ (buf : MboxBuf) (behind : List MboxChar),
        buf.offset = 0 → buf.len = r.length → buf.data = r ++ behind →
        mboxBufPreviewLen ≤ (rest ++ behind).length → ∃ p,
          Converges (fun n => mboxMsgLiteFromBuffer fill dateToUnix n buf startOffset endOffset)
            (make p) ∧ p.bytes = (rest ++ behind).take mboxBufPreviewLen ∧
          p.len = mboxBufPreviewLen := by
  obtain ⟨snt, h, t, o, htree, hparse⟩ := hblock.parse_before fill hne
  obtain ⟨make, hmake, hcontents, hconv⟩ :=
    mboxMsgLiteFromBuffer_spec fill htree hdate startOffset endOffset
  refine ⟨make, hmake, hcontents, fun buf behind ho hlen hdata hroom => ?_⟩
  obtain ⟨hread, hleft⟩ := hparse buf behind ho hlen hdata
  obtain ⟨p, hdup, hholds, -⟩ :=
    mboxBufDupRaw_spec fill hroom (Nat.le_add_right mboxBufPreviewLen 9)
  refine ⟨p, hconv buf o p hread (hleft ▸ hdup), hholds.bytes_eq, ?_⟩
  rw [hholds.len, List.length_take_of_le hroom]

/-- What is read of a regular file, and the NUL behind it. -/
theorem readBatch_regular (fill : ℕ → MboxChar) (file : List MboxChar) {diff stop : ℕ}
    (h : diff ≤ stop) :
    ∃ g, readBatch fill (preadRegular file) diff ((stop : Int) - diff) =
      ok ((file.drop diff).take (stop - diff) ++ nul :: g) := by
  have hsize : (stop : Int) - diff = Int.ofNat (stop - diff) := by
    rw [Int.ofNat_eq_natCast, Nat.cast_sub h]
  have hread : ((file.drop diff).take (stop - diff)).length ≤ stop - diff :=
    List.length_take_le ..
  have hblock : (resize fill [] (stop - diff + 10)).length = stop - diff + 10 := length_resize ..
  have hroom : ((file.drop diff).take (stop - diff)).length ≤
      (resize fill [] (stop - diff + 10)).length := by omega
  have hstore := storeBytes_append [] hroom
  -- the read gives no more than is asked for, so there is a byte for the NUL
  have hleft : 0 < ((resize fill [] (stop - diff + 10)).drop
      ((file.drop diff).take (stop - diff)).length).length := by
    rw [List.length_drop]
    omega
  obtain ⟨y, g, hg⟩ := List.exists_cons_of_length_pos hleft
  rw [hg, List.nil_append, List.nil_append, List.length_nil] at hstore
  refine ⟨g, ?_⟩
  simp only [hsize, readBatch, preadRegular, hstore, store_append_length, ok_bind]

/-- Every entry lies between the first and the last one. -/
theorem between_of_pairwise (hvalid : ∀ x ∈ b, x.Valid)
    (hsorted : b.Pairwise fun x y => x.endOffset ≤ y.startOffset) (he : e ∈ b) :
    ∃ first last, b.head? = some first ∧ b.getLast? = some last ∧
      first.startOffset ≤ e.startOffset ∧ e.endOffset ≤ last.endOffset := by
  have hne : b ≠ [] := List.ne_nil_of_mem he
  have hfirst := List.head?_eq_some_head hne
  have hlast := List.getLast?_eq_some_getLast hne
  have hstarts : b.Pairwise fun x y => x.startOffset ≤ y.startOffset :=
    hsorted.imp_of_mem fun hx _ hle => (hvalid _ hx).le.trans hle
  obtain ⟨-, hinside⟩ := idxReadable_of_pairwise hvalid hstarts _ hfirst _ hlast
  refine ⟨_, _, hfirst, hlast, (hinside e he).1, ?_⟩
  obtain ⟨ys, hys⟩ := List.getLast?_eq_some_iff.1 hlast
  rw [hys] at he hsorted
  rcases List.mem_append.1 he with hmem | hmem
  · have hbefore := (List.pairwise_append.1 hsorted).2.2 e hmem _ (List.mem_singleton_self _)
    exact hbefore.trans (hvalid _ (List.getLast_mem hne)).le
  · rw [List.mem_singleton.1 hmem]

/-- The entry lies in what is read for the batch, whose first and last entry these are. -/
structure MboxIdxOffset.Within (e : MboxIdxOffset) (b : List MboxIdxOffset)
    (first last : MboxIdxOffset) : Prop where
  valid : e.Valid
  head : b.head? = some first
  getLast : b.getLast? = some last
  begins : first.startOffset ≤ e.startOffset
  ends : e.endOffset ≤ last.endOffset

/-- An entry of a batch is between the start of the first one and the end of the last one. -/
theorem within_of_pairwise (hvalid : ∀ x ∈ b, x.Valid)
    (hsorted : b.Pairwise fun x y => x.endOffset ≤ y.startOffset) (he : e ∈ b) :
    ∃ first last, e.Within b first last := by
  obtain ⟨first, last, hfirst, hlast, hbegin, hend⟩ := between_of_pairwise hvalid hsorted he
  exact ⟨first, last, hvalid e he, hfirst, hlast, hbegin, hend⟩

/-- What is read from an entry on: its message, and what follows in the block. -/
theorem MboxIdxOffset.drop_block (file : List MboxChar) {diff stop : ℕ}
    (hdiff : diff ≤ e.startOffset) (hle : e.startOffset ≤ e.endOffset)
    (hstop : e.endOffset ≤ stop) :
    ((file.drop diff).take (stop - diff)).drop (e.startOffset - diff) =
      e.bytesIn file ++ (file.drop e.endOffset).take (stop - e.endOffset) := by
  have hsize : stop - diff - (e.startOffset - diff) =
      (e.endOffset - e.startOffset) + (stop - e.endOffset) := by omega
  rw [List.drop_take, List.drop_drop, Nat.add_sub_cancel' hdiff, hsize, List.take_add,
    List.drop_drop, Nat.add_sub_cancel' hle]
  rfl

/-- The buffer a message is parsed in is a part of the block, from the entry on. -/
theorem entryBuf_spec {buf : List MboxChar} {diff : ℕ} (hdiff : diff ≤ e.startOffset)
    (hroom : e.startOffset - diff ≤ buf.length) :
    ∃ tmp, entryBuf buf diff e = ok tmp ∧ tmp.offset = 0 ∧ tmp.len = e.messageSize ∧
      tmp.data = buf.drop (e.startOffset - diff) :=
  ⟨_, if_pos ⟨hdiff, hroom⟩, rfl, rfl, rfl⟩

/-- The buffer that the message of an entry is made from. -/
theorem idxMessage_buf (fill : ℕ → MboxChar) (dateToUnix : List MboxChar → Exec (Option Int))
    (hwithin : e.Within b first last) (hfile : e.endOffset ≤ file.length) :
    ∃ tmp g, tmp.offset = 0 ∧ tmp.len = (e.bytesIn file).length ∧
      tmp.data = e.bytesIn file ++
        ((file.drop e.endOffset).take (last.endOffset - e.endOffset) ++ nul :: g) ∧
      ∀ n, idxMessage fill dateToUnix (preadRegular file) b e n =
        mboxMsgLiteFromBuffer fill dateToUnix n tmp e.startOffset e.endOffset := by
  obtain ⟨hvalid, hfirst, hlast, hbegin, hend⟩ := hwithin
  have hle := hvalid.le
  obtain ⟨g, hread⟩ := readBatch_regular fill file (hbegin.trans (hle.trans hend))
  have hlen : (e.bytesIn file).length = e.endOffset - e.startOffset := by
    rw [MboxIdxOffset.bytesIn, List.length_take, List.length_drop]
    omega
  have hinside : e.startOffset - first.startOffset ≤
      ((file.drop first.startOffset).take (last.endOffset - first.startOffset)).length := by
    rw [List.length_take, List.length_drop]
    omega
  have hentry := hinside.trans (Nat.le_add_right _ (nul :: g).length)
  rw [← List.length_append] at hentry
  obtain ⟨tmp, htmp, hoffset, htmpLen, htmpData⟩ := entryBuf_spec hbegin hentry
  refine ⟨tmp, g, hoffset, ?_, ?_, fun n => ?_⟩
  · rw [htmpLen, hvalid.messageSize_eq, hlen]
  · rw [htmpData, List.drop_append_of_le_length hinside,
      MboxIdxOffset.drop_block file hbegin hle hend, List.append_assoc]
  · simp only [idxMessage, hfirst, hlast, hread, htmp, ok_bind]

/-- Files with the same bytes of an entry have as many. -/
theorem MboxIdxOffset.endOffset_le {file' : List MboxChar} (hle : e.startOffset < e.endOffset)
    (hfile : e.endOffset ≤ file.length) (h : e.bytesIn file' = e.bytesIn file) :
    e.endOffset ≤ file'.length := by
  have hlen := congrArg List.length h
  simp only [bytesIn, List.length_take, List.length_drop] at hlen
  omega

/-- An entry whose message has bytes starts before its end. -/
theorem MboxIdxOffset.lt_of_ne_nil (h : e.bytesIn file ≠ []) : e.startOffset < e.endOffset := by
  by_contra hle
  refine h ?_
  rw [bytesIn, Nat.sub_eq_zero_of_le (Nat.not_lt.1 hle), List.take_zero]

/-- The bytes of an entry are before its end, whatever is behind it in the file. -/
theorem MboxIdxOffset.bytesIn_take_append (hle : e.startOffset ≤ e.endOffset)
    (hfile : e.endOffset ≤ file.length) (xs : List MboxChar) :
    e.bytesIn (file.take e.endOffset ++ xs) = e.bytesIn file := by
  have hlen : (file.take e.endOffset).length = e.endOffset := List.length_take_of_le hfile
  have hroom : e.endOffset - e.startOffset ≤
      ((file.take e.endOffset).drop e.startOffset).length := by
    rw [List.length_drop, hlen]
  rw [bytesIn, bytesIn, List.drop_append_of_le_length (hle.trans hlen.ge),
    List.take_append_of_le_length hroom, List.drop_take, List.take_take, Nat.min_self]

/-- Two messages with the same contents have the same preview. -/
theorem MboxMsgLite.preview_of_contents {msg msg' : MboxMsgLite}
    (h : msg.contents = msg'.contents) : msg.preview.bytes = msg'.preview.bytes := by
  simp only [contents, List.map_cons, Option.map_some, Prod.mk.injEq, List.cons.injEq,
    Option.some.injEq] at h
  exact h.1.2.2.2.2.2.1

/-- A preview that takes one byte from behind a message. -/
theorem take_one_more {n : ℕ} (h : rest.length + 1 = n) (c : MboxChar) (xs : List MboxChar) :
    n ≤ (rest ++ c :: xs).length ∧ (rest ++ c :: xs).take n = rest ++ [c] := by
  have hlen : (rest ++ [c]).length = n := by rw [List.length_append, List.length_singleton, h]
  rw [List.append_cons, List.take_left' hlen, List.length_append, hlen]
  exact ⟨Nat.le_add_right .., rfl⟩

/-- What a preview may take from behind a message: nothing but a NUL. -/
theorem take_preview {behind : List MboxChar} (h : mboxBufPreviewLen ≤ rest.length ∨
      rest.length + 1 = mboxBufPreviewLen ∧ behind.head? = some nul) :
    mboxBufPreviewLen ≤ (rest ++ behind).length ∧
      (rest ++ behind).take mboxBufPreviewLen = (rest ++ [nul]).take mboxBufPreviewLen := by
  rcases h with h | ⟨h, hbehind⟩
  · rw [List.take_append_of_le_length h, List.take_append_of_le_length h, List.length_append]
    exact ⟨h.trans (Nat.le_add_right ..), rfl⟩
  · obtain ⟨g, rfl⟩ := List.head?_eq_some_iff.1 hbehind
    obtain ⟨hle, htake⟩ := take_one_more h nul g
    exact ⟨hle, htake.trans (take_one_more h nul []).2.symm⟩

/-- A message that stands alone is made where there are as many bytes as a preview has. -/
theorem room_of_copy
    (hblock : HeaderBlock (mboxBufAlloc fill 3000).data (r.dropWhile isLine) es rest)
    {msg : MboxMsgLite} {startOffset endOffset : ℕ}
    (hconv : Converges (fun n => mboxMsgLiteFromBuffer fill dateToUnix n
      ⟨r ++ [nul], 0, r.length, r.length⟩ startOffset endOffset) msg) :
    mboxBufPreviewLen ≤ rest.length + 1 := by
  have hat : (⟨r ++ [nul], 0, r.length, r.length⟩ : MboxBuf).LeftAt [nul] 0 r :=
    ⟨rfl, Nat.zero_add _⟩
  obtain ⟨snt, h, t, o, hparse, -, hleft⟩ :=
    hblock.parse fill (h := headerHeapNew) rfl hat (Ended.nul ..)
  obtain ⟨n, hrun⟩ := hconv.exists_ok
  have hroom := (preview_of_run hparse hrun).1
  rwa [hleft.data, List.length_append] at hroom

/-- A copy of a message, with a NUL behind it. -/
theorem holds_copy (r : List MboxChar) :
    (⟨r ++ [nul], 0, r.length, r.length⟩ : MboxBuf).Holds r := ⟨rfl, [], rfl⟩

/-- The bytes of the batch that are behind an entry. -/
def MboxIdxOffset.behind (e last : MboxIdxOffset) (file : List MboxChar) : List MboxChar :=
  (file.drop e.endOffset).take (last.endOffset - e.endOffset)

/-- The message of an entry and that of a copy differ in nothing but the previews. -/
theorem MboxIdxOffset.Within.idxMessage_preview (fill : ℕ → MboxChar)
    (hwithin : e.Within b first last) (hfile : e.endOffset ≤ file.length)
    (hblock : HeaderBlock (mboxBufAlloc fill 3000).data ((e.bytesIn file).dropWhile isLine) es rest)
    (hne : rest ≠ []) (hdate : DateReads dateToUnix es) :
    ∃ make : MboxBuf → MboxMsgLite, (∀ p, (make p).preview = p) ∧
      (∀ p p', p.bytes = p'.bytes → (make p).contents = (make p').contents) ∧
      (∀ copy : MboxBuf, copy.Holds (e.bytesIn file) → copy.offset = 0 →
        ∃ g, mboxBufPreviewLen ≤ (rest ++ nul :: g).length → ∃ p,
          Converges (fun n =>
            mboxMsgLiteFromBuffer fill dateToUnix n copy e.startOffset e.endOffset) (make p) ∧
          p.bytes = (rest ++ nul :: g).take mboxBufPreviewLen ∧ p.len = mboxBufPreviewLen) ∧
      ∀ file', e.bytesIn file' = e.bytesIn file →
        ∃ g, mboxBufPreviewLen ≤ (rest ++ (e.behind last file' ++ nul :: g)).length → ∃ p,
          Converges (idxMessage fill dateToUnix (preadRegular file') b e) (make p) ∧
          p.bytes = (rest ++ (e.behind last file' ++ nul :: g)).take mboxBufPreviewLen ∧
          p.len = mboxBufPreviewLen := by
  obtain ⟨make, hpreview, hcontents, hmake⟩ :=
    mboxMsgLiteFromBuffer_preview fill hblock hne hdate e.startOffset e.endOffset
  refine ⟨make, hpreview, hcontents, fun copy hcopy hoffset => ?_, fun file' hbytes => ?_⟩
  · obtain ⟨g, hdata⟩ := hcopy.data
    exact ⟨g, fun hroom => hmake copy (nul :: g) hoffset hcopy.len hdata hroom⟩
  · have hnonempty : e.bytesIn file ≠ [] := fun hnil => by
      rw [hnil] at hblock
      exact hblock.ne_nil hne rfl
    -- the other file has as many bytes, since those of the entry are there
    have hfile' := e.endOffset_le (MboxIdxOffset.lt_of_ne_nil hnonempty) hfile hbytes
    obtain ⟨tmp, g, hoffset, hlen, hdata, hidx⟩ :=
      idxMessage_buf fill dateToUnix hwithin hfile'
    rw [hbytes] at hlen hdata
    refine ⟨g, fun hroom => ?_⟩
    obtain ⟨p, hconv, hp⟩ := hmake tmp _ hoffset hlen hdata hroom
    exact ⟨p, Converges.congr hidx hconv, hp⟩

/-- **The preview of a message**: 420 bytes from behind its headers on, in a copy of the message and
in the block it is loaded with, where the block has so many. -/
theorem idxMessage_preview (fill : ℕ → MboxChar)
    (hvalid : ∀ x ∈ b, x.Valid) (hsorted : b.Pairwise fun x y => x.endOffset ≤ y.startOffset)
    (he : e ∈ b) (hlast : b.getLast? = some last) (hfile : e.endOffset ≤ file.length)
    (hblock : HeaderBlock (mboxBufAlloc fill 3000).data ((e.bytesIn file).dropWhile isLine) es rest)
    (hne : rest ≠ []) (hdate : DateReads dateToUnix es) :
    ∃ make : MboxBuf → MboxMsgLite, (∀ p, (make p).preview = p) ∧
      (∀ p p', p.bytes = p'.bytes → (make p).contents = (make p').contents) ∧
      (∀ copy : MboxBuf, copy.Holds (e.bytesIn file) → copy.offset = 0 →
        ∃ g, mboxBufPreviewLen ≤ (rest ++ nul :: g).length → ∃ p,
          Converges (fun n =>
            mboxMsgLiteFromBuffer fill dateToUnix n copy e.startOffset e.endOffset) (make p) ∧
          p.bytes = (rest ++ nul :: g).take mboxBufPreviewLen ∧ p.len = mboxBufPreviewLen) ∧
      ∀ file', e.bytesIn file' = e.bytesIn file →
        ∃ g, mboxBufPreviewLen ≤ (rest ++ (e.behind last file' ++ nul :: g)).length → ∃ p,
          Converges (idxMessage fill dateToUnix (preadRegular file') b e) (make p) ∧
          p.bytes = (rest ++ (e.behind last file' ++ nul :: g)).take mboxBufPreviewLen ∧
          p.len = mboxBufPreviewLen := by
  obtain ⟨first, last', hwithin⟩ := within_of_pairwise hvalid hsorted he
  obtain rfl : last' = last := Option.some.inj (hwithin.getLast.symm.trans hlast)
  exact hwithin.idxMessage_preview fill hfile hblock hne hdate

/-- Where there are enough bytes, the previews are the same. -/
theorem MboxIdxOffset.Within.loadsOwnBytes (hwithin : e.Within b first last)
    (hfile : e.endOffset ≤ file.length)
    (hblock : HeaderBlock (mboxBufAlloc fill 3000).data ((e.bytesIn file).dropWhile isLine) es rest)
    (hdate : DateReads dateToUnix es) (hroom : mboxBufPreviewLen ≤ rest.length ∨
      rest.length + 1 = mboxBufPreviewLen ∧ ∀ last ∈ b.getLast?, last.endOffset = e.endOffset) :
    LoadsOwnBytes fill dateToUnix file b e := by
  have hlast := hwithin.getLast
  have hpos : 1 < mboxBufPreviewLen := by decide
  have hne : rest ≠ [] := List.ne_nil_of_length_pos (by omega)
  obtain ⟨make, hpreview, hcontents, hcopied, hloaded⟩ :=
    hwithin.idxMessage_preview fill hfile hblock hne hdate
  -- at the end of the batch there is the NUL that the code puts there
  have hbehind : ∀ file g, mboxBufPreviewLen ≤ rest.length ∨
      rest.length + 1 = mboxBufPreviewLen ∧
        (e.behind last file ++ nul :: g).head? = some nul := fun file g => by
    refine hroom.imp_right (And.imp_right fun hends => ?_)
    rw [MboxIdxOffset.behind, hends last hlast, Nat.sub_self, List.take_zero]
    rfl
  intro file' hbytes copy hcopy hoffset
  obtain ⟨g, hmsg⟩ := hloaded file rfl
  obtain ⟨g', hmsg'⟩ := hloaded file' hbytes
  obtain ⟨g'', hmsg''⟩ := hcopied copy hcopy hoffset
  have hterminated : mboxBufPreviewLen ≤ rest.length ∨
      rest.length + 1 = mboxBufPreviewLen ∧ (nul :: g'').head? = some nul :=
    hroom.imp_right fun h => ⟨h.1, rfl⟩
  obtain ⟨hle, htake⟩ := take_preview (hbehind file g)
  obtain ⟨hle', htake'⟩ := take_preview (hbehind file' g')
  obtain ⟨hle'', htake''⟩ := take_preview hterminated
  obtain ⟨p, hp, hpbytes, hplen⟩ := hmsg hle
  obtain ⟨p', hp', hpbytes', -⟩ := hmsg' hle'
  obtain ⟨p'', hp'', hpbytes'', -⟩ := hmsg'' hle''
  refine ⟨make p, make p', make p'', hp, hp', hp'', hcontents _ _ ?_, hcontents _ _ ?_, ?_⟩
  · rw [hpbytes, hpbytes', htake, htake']
  · rw [hpbytes, hpbytes'', htake, htake'']
  · rw [hpreview, hplen]

section Own

variable (hvalid : ∀ x ∈ b, x.Valid)
  (hsorted : b.Pairwise fun x y => x.endOffset ≤ y.startOffset) (he : e ∈ b)
  (hfile : e.endOffset ≤ file.length)
  (hblock : HeaderBlock (mboxBufAlloc fill 3000).data ((e.bytesIn file).dropWhile isLine) es rest)
  (hdate : DateReads dateToUnix es)

include hvalid hsorted he hfile hblock hdate

/-- A message loads from its own bytes when its body is as long as the preview, or one byte shorter
at the end of the block. -/
theorem loadsOwnBytes_of_room (hroom : mboxBufPreviewLen ≤ rest.length ∨
      rest.length + 1 = mboxBufPreviewLen ∧ ∀ last ∈ b.getLast?, last.endOffset = e.endOffset) :
    LoadsOwnBytes fill dateToUnix file b e := by
  obtain ⟨first, last, hwithin⟩ := within_of_pairwise hvalid hsorted he
  exact hwithin.loadsOwnBytes hfile hblock hdate hroom

/-- Where one byte is missing, it is the NUL behind a copy, but not in a file that goes on. -/
theorem ends_of_loadsOwnBytes (hown : LoadsOwnBytes fill dateToUnix file b e)
    (hlen : rest.length + 1 = mboxBufPreviewLen) :
    ∀ last ∈ b.getLast?, last.endOffset = e.endOffset := by
  obtain ⟨-, last', -, hlast', -, hend⟩ := between_of_pairwise hvalid hsorted he
  have hpos : 1 < mboxBufPreviewLen := by decide
  have hne : rest ≠ [] := List.ne_nil_of_length_pos (by omega)
  intro last hlast
  obtain rfl : last' = last := Option.some.inj (hlast'.symm.trans hlast)
  by_contra hends
  -- in a file with one more byte, that byte is in the preview
  have hbytes := e.bytesIn_take_append (hvalid e he).le hfile [65]
  have hnext : e.behind last' (file.take e.endOffset ++ [65]) = [65] := by
    rw [MboxIdxOffset.behind, List.drop_left' (List.length_take_of_le hfile)]
    exact List.take_of_length_le (by rw [List.length_singleton]; omega)
  obtain ⟨make, hpreview, -, hcopied, hloaded⟩ :=
    idxMessage_preview fill hvalid hsorted he hlast hfile hblock hne hdate
  obtain ⟨g, hcopied⟩ := hcopied _ (holds_copy _) rfl
  obtain ⟨g', hloaded⟩ := hloaded _ hbytes
  rw [hnext] at hloaded
  obtain ⟨p, hp, hpbytes, -⟩ := hcopied (take_one_more hlen ..).1
  obtain ⟨p', hp', hpbytes', -⟩ := hloaded (take_one_more hlen ..).1
  obtain ⟨msg, msg', msg'', -, hmsg', hmsg'', heq', heq'', -⟩ := hown _ hbytes _ (holds_copy _) rfl
  obtain rfl := hmsg''.unique hp
  obtain rfl := hmsg'.unique hp'
  have hsame := MboxMsgLite.preview_of_contents (heq'.trans heq''.symm)
  rw [hpreview, hpreview, hpbytes, hpbytes', (take_one_more hlen ..).2] at hsame
  rw [List.singleton_append, (take_one_more hlen ..).2] at hsame
  exact absurd (List.append_cancel_left hsame) (by decide)

end Own

/-- A message that stands alone is made only where the parser gets over the values of its
headers. -/
theorem headersDecode_of_copy {xs : List RawHeader}
    (hshape : HeaderShape (r.dropWhile isLine) xs rest) {msg : MboxMsgLite}
    {startOffset endOffset : ℕ}
    (hconv : Converges (fun n => mboxMsgLiteFromBuffer fill dateToUnix n
      ⟨r ++ [nul], 0, r.length, r.length⟩ startOffset endOffset) msg) :
    HeadersDecode (mboxBufAlloc fill 3000).data xs := by
  have hat : (⟨r ++ [nul], 0, r.length, r.length⟩ : MboxBuf).LeftAt [nul] 0 r :=
    ⟨rfl, Nat.zero_add _⟩
  obtain ⟨n, hrun⟩ := hconv.exists_ok
  rw [mboxMsgLiteFromBuffer] at hrun
  obtain ⟨y, hparse, -⟩ := bind_eq_ok hrun
  obtain ⟨es', rest', hblock⟩ := headerBlock_of_parse (h := headerHeapNew) rfl hat hparse
  obtain ⟨xs', hshape', hdecode, -⟩ := headerBlock_iff.mp hblock
  obtain ⟨rfl, -⟩ := hshape.unique hshape'
  exact hdecode

/-- **A message depends on its own bytes alone** exactly where the parser gets over the values of
its headers, and as many bytes are left behind these as a preview has, or one less at the end of
the batch. -/
theorem loadsOwnBytes_iff {xs : List RawHeader} (hvalid : ∀ x ∈ b, x.Valid)
    (hsorted : b.Pairwise fun x y => x.endOffset ≤ y.startOffset) (he : e ∈ b)
    (hfile : e.endOffset ≤ file.length)
    (hshape : HeaderShape ((e.bytesIn file).dropWhile isLine) xs rest)
    (hdate : DateReads dateToUnix (xs.flatMap RawHeader.stored)) :
    LoadsOwnBytes fill dateToUnix file b e ↔ HeadersDecode (mboxBufAlloc fill 3000).data xs ∧
      (mboxBufPreviewLen ≤ rest.length ∨ rest.length + 1 = mboxBufPreviewLen ∧
        ∀ last ∈ b.getLast?, last.endOffset = e.endOffset) := by
  constructor
  · intro hown
    obtain ⟨_, _, _, _, _, hcopy, -⟩ := hown file rfl _ (holds_copy _) rfl
    have hdecode := headersDecode_of_copy hshape hcopy
    have hblock := hshape.headerBlock hdecode
    have hroom := room_of_copy hblock hcopy
    refine ⟨hdecode, or_iff_not_imp_left.2 fun hshort => ?_⟩
    have hlen : rest.length + 1 = mboxBufPreviewLen := by omega
    exact ⟨hlen, ends_of_loadsOwnBytes hvalid hsorted he hfile hblock hdate hown hlen⟩
  · rintro ⟨hdecode, hroom⟩
    exact loadsOwnBytes_of_room hvalid hsorted he hfile (hshape.headerBlock hdecode) hdate hroom

end Block

/-! ## Two runs of a job -/

/-- Two lists that are related element by element have related elements at the same place. -/
theorem exists_of_forall₂ {α β : Type} {R : α → β → Prop} {xs : List α} {ys : List β} {i : ℕ}
    {x : α} (h : List.Forall₂ R xs ys) (hx : xs[i]? = some x) : ∃ y, ys[i]? = some y ∧ R x y := by
  obtain ⟨hlen, hget⟩ := List.forall₂_iff_get.1 h
  obtain ⟨hi, rfl⟩ := List.getElem?_eq_some_iff.1 hx
  have hi' : i < ys.length := hlen ▸ hi
  exact ⟨ys[i], List.getElem?_eq_getElem hi', hget i hi hi'⟩

section Jobs

variable {fill : ℕ → MboxChar} {dateToUnix : List MboxChar → Exec (Option Int)}
  {file file' : List MboxChar} {b : List MboxIdxOffset} {e : MboxIdxOffset} {ctx : IdxCtx}
  {d : Deques MboxIdxOffset} {ms : List MboxMsgLite} {batch i : ℕ}

/-- Two jobs on the batch, with files that may differ everywhere else, make the same of it. -/
theorem LoadsOwnBytes.getMessages (hown : LoadsOwnBytes fill dateToUnix file b e)
    (hbytes : e.bytesIn file' = e.bytesIn file) (hc : ctx.Holds d ms) (hd : d batch = some b)
    (hi : b[i]? = some e) (hreadable : IdxReadable b)
    (hparse : EntriesParse fill dateToUnix (preadRegular file) b)
    (hparse' : EntriesParse fill dateToUnix (preadRegular file') b) :
    ∃ ctx₁ ctx₂ new new' msg msg',
      Converges (fun n => mboxIdxGetMessages fill dateToUnix (preadRegular file) n ctx batch) ctx₁ ∧
      Converges (fun n => mboxIdxGetMessages fill dateToUnix (preadRegular file') n ctx batch)
        ctx₂ ∧
      ctx₁.Holds (d.set batch none) (ms ++ new) ∧ ctx₂.Holds (d.set batch none) (ms ++ new') ∧
      new[i]? = some msg ∧ new'[i]? = some msg' ∧ msg'.contents = msg.contents := by
  have hne : b ≠ [] := List.ne_nil_of_mem (List.mem_of_getElem? hi)
  obtain ⟨ctx₁, new, hrun, hc₁, hmade⟩ := mboxIdxGetMessages_spec hc hd hne
    (preadRegular_reads file) hreadable hparse
  obtain ⟨ctx₂, new', hrun', hc₂, hmade'⟩ := mboxIdxGetMessages_spec hc hd hne
    (preadRegular_reads file') hreadable hparse'
  obtain ⟨msg, hmsg, hconv⟩ := exists_of_forall₂ hmade hi
  obtain ⟨msg', hmsg', hconv'⟩ := exists_of_forall₂ hmade' hi
  obtain ⟨msg₁, msg₂, _, h₁, h₂, -, heq, -⟩ := hown file' hbytes _ (holds_copy _) rfl
  obtain rfl := h₁.unique hconv
  obtain rfl := h₂.unique hconv'
  exact ⟨ctx₁, ctx₂, new, new', _, _, hrun, hrun', hc₁, hc₂, hmsg, hmsg', heq⟩

end Jobs

/-! ## Messages of one header -/

/-- A message with one header, and this body. -/
def letter (body : List MboxChar) : List MboxChar := str "A: b\n\n" ++ body

/-- Its header, as it is read. -/
theorem headerShape_letter {body : List MboxChar} (hbody : body.dropWhile isLine = body) :
    HeaderShape ((letter body).dropWhile isLine) [⟨none, str "A", str "b"⟩] body := by
  have hvalue : ValueLines (str "b" ++ nl :: nl :: body) (unfolded (str "b")) (nl :: body) :=
    ValueLines.last (by decide) rfl
  have hfrom : ¬ fromWord <+: str "A" ++ colon :: space :: (str "b" ++ nl :: nl :: body) :=
    fun h => absurd (List.cons_prefix_cons.1 h).1 (by decide)
  have hlast := HeaderShape.last (RawLines.named hfrom (by decide) hvalue) rfl
  rwa [List.dropWhile_cons_of_pos rfl, hbody] at hlast

theorem headersDecode_letter (blank : List MboxChar) :
    HeadersDecode blank [⟨none, str "A", str "b"⟩] :=
  ⟨⟨by decide, fun h => absurd h (by decide)⟩, trivial⟩

theorem headerBlock_letter (blank : List MboxChar) {body : List MboxChar}
    (hbody : body.dropWhile isLine = body) :
    HeaderBlock blank ((letter body).dropWhile isLine) [(str "A", str "b")] body :=
  (headerShape_letter hbody).headerBlock (headersDecode_letter blank)

/-- A message without a date is no problem to one that reads none. -/
theorem dateReads_none (es : List (List MboxChar × List MboxChar)) :
    DateReads (fun _ => ok none) es := fun _ _ _ _ => ⟨none, rfl⟩

/-- The first of two messages, with a body that is as long as a preview. -/
theorem loadsOwnBytes_iff_firstLetter :
    LoadsOwnBytes (fun _ => nul) (fun _ => ok none)
      (letter (List.replicate 420 65) ++ letter (str "Hi")) [⟨0, 426⟩, ⟨426, 434⟩] ⟨0, 426⟩ := by
  have hbytes : MboxIdxOffset.bytesIn ⟨0, 426⟩
      (letter (List.replicate 420 65) ++ letter (str "Hi")) = letter (List.replicate 420 65) := by
    decide +kernel
  have hshape : HeaderShape ((MboxIdxOffset.bytesIn ⟨0, 426⟩
      (letter (List.replicate 420 65) ++ letter (str "Hi"))).dropWhile isLine)
      [⟨none, str "A", str "b"⟩] (List.replicate 420 65) := by
    rw [hbytes]
    exact headerShape_letter (by decide +kernel)
  have hvalid : ∀ x ∈ [⟨0, 426⟩, ⟨426, 434⟩], MboxIdxOffset.Valid x := by
    simp only [List.forall_mem_cons]
    exact ⟨⟨by decide, by decide⟩, ⟨by decide, by decide⟩, fun x hx => nomatch hx⟩
  refine (loadsOwnBytes_iff hvalid (List.pairwise_pair.2 (le_refl _)) (List.mem_cons_self ..)
    (by decide +kernel) hshape (dateReads_none _)).2 ⟨headersDecode_letter _, Or.inl ?_⟩
  rw [List.length_replicate]
  exact le_refl _

/-- Two messages, of which the first one is short, and the second one long enough. -/
def twoLetters : List MboxChar := letter (str "Hi") ++ letter (List.replicate 420 65)

/-- The second message is in the preview of the first one, so another second message gives the first
one another preview. -/
theorem not_loadsOwnBytes_twoLetters :
    (∃ msg, Converges (idxMessage (fun _ => nul) (fun _ => ok none) (preadRegular twoLetters)
        [⟨0, 8⟩, ⟨8, 434⟩] ⟨0, 8⟩) msg ∧
      msg.preview.bytes = str "Hi" ++ (letter (List.replicate 420 65)).take 418) ∧
    ¬ LoadsOwnBytes (fun _ => nul) (fun _ => ok none) twoLetters [⟨0, 8⟩, ⟨8, 434⟩] ⟨0, 8⟩ := by
  have hbytes : MboxIdxOffset.bytesIn ⟨0, 8⟩ twoLetters = letter (str "Hi") := by decide +kernel
  have hblock : HeaderBlock (mboxBufAlloc (fun _ => nul) 3000).data
      ((MboxIdxOffset.bytesIn ⟨0, 8⟩ twoLetters).dropWhile isLine) _ (str "Hi") :=
    hbytes ▸ headerBlock_letter _ (by decide)
  have hvalid : ∀ x ∈ [⟨0, 8⟩, ⟨8, 434⟩], MboxIdxOffset.Valid x := by
    simp only [List.forall_mem_cons]
    exact ⟨⟨by decide, by decide⟩, ⟨by decide, by decide⟩, fun x hx => nomatch hx⟩
  have hlast : [⟨0, 8⟩, ⟨8, 434⟩].getLast? = some (⟨8, 434⟩ : MboxIdxOffset) := rfl
  constructor
  · obtain ⟨make, hpreview, -, -, hloaded⟩ := idxMessage_preview (fun _ => nul) hvalid
      (List.pairwise_pair.2 (le_refl _)) (List.mem_cons_self ..) hlast (by decide +kernel) hblock
      (by decide) (dateReads_none _)
    obtain ⟨g, hmsg⟩ := hloaded twoLetters rfl
    have hbehind : MboxIdxOffset.behind ⟨0, 8⟩ ⟨8, 434⟩ twoLetters =
        letter (List.replicate 420 65) := by decide +kernel
    rw [hbehind] at hmsg
    have hroom : mboxBufPreviewLen ≤
        (str "Hi" ++ letter (List.replicate 420 65)).length := by decide +kernel
    rw [← List.append_assoc, List.length_append] at hmsg
    obtain ⟨p, hp, hbytes, -⟩ := hmsg (hroom.trans (Nat.le_add_right ..))
    refine ⟨make p, hp, ?_⟩
    rw [hpreview, hbytes, List.take_append_of_le_length hroom, List.take_append]
    rfl
  · intro hown
    obtain ⟨_, _, _, _, _, hcopy, -⟩ := hown twoLetters rfl _ (holds_copy _) rfl
    exact absurd (room_of_copy hblock hcopy) (by decide)

end Libmbox2
