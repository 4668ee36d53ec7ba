import Libmbox2.EveryMail

/-!
# What `mboxMain` does with its threads

The results about a whole parse, for the main thread, `n + 1` io workers and `n + 1` parse workers
in every order of their steps. What the threads leave in `completed_parse` is what the sequential
program makes of the file (`mboxMain_parses`), at any time nothing is kept twice
(`completedParse_of_run`), and where the sequential program returns the threads do
(`mboxMain_returns`). For a well-formed file this is one lite message for every mail that is
delivered (`everyMail_parsed`, `everyMail_returns`).

A callback has a step only where its code is defined. A thread whose callback faults, such as one
that parses a message with too few bytes behind its headers, stays in it, and `mboxMain` does not
return: what is said of a state in which it has returned is said of runs without undefined
behaviour. `everyMail_returns` has conditions under which there are only such runs.

All results are seen at work on a file of two mails, with two workers in each pool.
-/

namespace Libmbox2

open CSem CSem.Exec

/-! ## Two mails and two workers -/

/-- A header without further lines has none that begin with anything else. -/
theorem noFolds_blank : ∀ l ∈ ([] : List (List MboxChar)),
    l.head? = some space ∨ l.head? = some tab := by
  simp

theorem noFolds_nl : ∀ l ∈ ([] : List (List MboxChar)), nl ∉ l := by
  simp

/-- A mail with one header and a body that is longer than the preview. -/
def letterText : MailText where
  fromText := []
  headers := [⟨[65], [space, 98], [], List.cons_ne_nil _ _,
    List.not_mem_cons_of_ne_of_not_mem (by decide) List.not_mem_nil,
    List.not_mem_cons_of_ne_of_not_mem (by decide) List.not_mem_nil,
    List.not_mem_cons_of_ne_of_not_mem (by decide)
      (List.not_mem_cons_of_ne_of_not_mem (by decide) List.not_mem_nil),
    noFolds_blank, noFolds_nl⟩]
  body := List.replicate 430 65

/-- A byte of it is one of the first ones, or of the body. -/
theorem mem_letterText {c : MboxChar} (h : c ∈ letterText.bytes.tail) :
    c ∈ [114, 111, 109, 32, nl, 65, colon, space, 98, nl, nl] ∨ c = 65 := by
  have hbytes : letterText.bytes.tail =
      [114, 111, 109, 32, nl, 65, colon, space, 98, nl, nl] ++ List.replicate 430 65 ++ [nl] := rfl
  rw [hbytes, List.mem_append, List.mem_append] at h
  rcases h with (h | h) | h
  · exact Or.inl h
  · exact Or.inr (List.eq_of_mem_replicate h)
  · rw [List.mem_singleton.mp h]
    exact Or.inl (by decide)

/-- A mail with one header and a body of 430 bytes. -/
def letterMail : Mail where
  toMailText := letterText
  fromText_nl := List.not_mem_nil
  headers_ne := List.cons_ne_nil _ _
  nul_notMem := fun h => by
    rcases List.mem_cons.mp (show nul ∈ 70 :: letterText.bytes.tail from h) with h | h
    · exact absurd h (by decide)
    · rcases mem_letterText h with h | h <;> exact absurd h (by decide)
  noFrom := not_nlFrom_infix fun h => by
    rcases mem_letterText h with h | h <;> exact absurd h (by decide)

/-- It is readable, since its body is long enough. -/
theorem letterMail_readable : letterMail.Readable (fun _ => nul) fun _ => ok none := by
  refine ⟨⟨[(str "__FROM_LINE__", fromWord.filter (· ≠ cr)),
    (fromWord.filter (· ≠ cr) ++ str "A", str "b")],
    dateReads_none _, fun rest hne hbegins => ?_⟩, by decide +kernel, by decide +kernel⟩
  have hblank : ∀ c ∈ rest.head?, isLine c = false := by
    intro c hc
    rw [beginsLine, Option.mem_def.mp hc] at hbegins
    exact hbegins
  have hdrop : (nl :: rest).dropWhile isLine = rest := by
    obtain ⟨c, t, rfl⟩ := List.exists_cons_of_ne_nil hne
    rw [List.dropWhile_cons_of_pos rfl, List.dropWhile_cons_of_neg (by simp [hblank c rfl])]
  have hvalue : ValueLines (str "b" ++ nl :: nl :: rest) (unfolded (str "b")) (nl :: rest) :=
    ValueLines.last (by decide) rfl
  have hname : NamedLines (mboxBufAlloc (fun _ => nul) 3000).data (fromWord.filter (· ≠ cr))
      (str "A" ++ colon :: space :: (str "b" ++ nl :: nl :: rest))
      (fromWord.filter (· ≠ cr) ++ str "A", str "b") (nl :: rest) :=
    NamedLines.mk (by decide) hvalue ⟨by decide, fun h => absurd h (by decide)⟩
  have hlines : HeaderLines (mboxBufAlloc (fun _ => nul) 3000).data (letterMail.head ++ rest)
      [(str "__FROM_LINE__", fromWord.filter (· ≠ cr)),
        (fromWord.filter (· ≠ cr) ++ str "A", str "b")] (nl :: rest) :=
    HeaderLines.fromLine (by decide) (List.prefix_refl _) hname
  have hblock := HeaderBlock.last hlines rfl
  rwa [hdrop] at hblock

/-- Two such mails, one after the other. -/
abbrev twoMails : List Mail := [letterMail, letterMail]

/-- Both contexts find where they start. -/
theorem allSeeksEnd_twoMails : AllSeeksEnd (fun _ => nul) (mboxFile twoMails) 2 := by
  have hfrom := (firstSeen_mboxFile (List.length_pos_iff.mpr
    (List.cons_ne_nil letterMail [letterMail]))).1
  have hlen : letterMail.bytes.length = 443 := by decide +kernel
  have hpos : pos twoMails 1 = 443 := by
    rw [pos_cons_succ, pos_zero, Nat.add_zero, hlen]
  have hseen : SeenAt nlFromWord (mboxFile twoMails) 0 442 :=
    seenAt_mboxFile.mpr ⟨⟨1, Nat.one_pos, Nat.one_lt_two, hpos.symm⟩, Nat.zero_le _,
      by rw [mboxIOReadSize]; omega⟩
  exact allSeeksEnd_of_seen _ ⟨0, hfrom⟩ ⟨442, hseen⟩

/-- The second context cannot come in front of the start of the file. -/
theorem inOrder_twoMails (chunkSize : ℕ) : InOrder (mboxFile twoMails) chunkSize 2 := by
  have hfrom := firstSeen_mboxFile (List.length_pos_iff.mpr
    (List.cons_ne_nil letterMail [letterMail]))
  refine Or.inr fun i b hi hfloor => ?_
  obtain rfl : i = 0 := by omega
  rw [Nat.zero_mul, FloorOf, if_pos rfl] at hfloor
  obtain rfl := hfloor.unique hfrom
  rintro ⟨w, p, -, -, hlt⟩
  exact Nat.not_lt_zero p hlt

theorem readable_twoMails : ∀ m ∈ twoMails, m.Readable (fun _ => nul) fun _ => ok none := by
  intro m hm
  have heq : m = letterMail := by simpa [twoMails] using hm
  exact heq ▸ letterMail_readable

/-- A short file is read at once: nothing is lost. -/
theorem not_lostAtBoundary (h : e + 10 < mboxIOReadSize) : ¬ LostAtBoundary file s e := by
  rintro ⟨x, b, p, -, -, -, hpe, -, hR, -⟩
  have hsize := Nat.le_mul_of_pos_left mboxIOReadSize (Nat.succ_pos ((e - s) / mboxIOReadSize))
  rw [Nat.succ_eq_add_one] at hsize
  rw [readBoundary] at hR
  omega

theorem length_twoMails : (mboxFile twoMails).length = 886 := by
  have hlen : letterMail.bytes.length = 443 := by decide +kernel
  rw [length_mboxFile_cons, length_mboxFile_cons, hlen]
  rfl

/-- The sequential program delivers both mails, and a lite message can be made of either. -/
theorem exists_messages_twoMails : ∃ msgs lites,
    Converges (fun fuel => mboxMain (fun _ => nul) (preadRegular (mboxFile twoMails)) fuel
      (mboxFile twoMails).length 2) msgs ∧
    List.Forall₂ (ParsesTo (fun _ => nul) fun _ => ok none) msgs lites ∧ msgs.length = 2 := by
  obtain ⟨ctxs, msgs, -, htiles, hmsgs, hreads, -⟩ := mboxMain_reads (fun _ => nul)
    (List.cons_ne_nil letterMail [letterMail]) Nat.two_pos allSeeksEnd_twoMails (inOrder_twoMails _)
  obtain ⟨lites, hlites⟩ := exists_lites readable_twoMails hreads (whole_of_main hmsgs)
  refine ⟨msgs, lites, hmsgs, hlites, ?_⟩
  rw [← hreads.length_eq, fromLinesRead_all htiles fun r _ hlt => not_lostAtBoundary ?_,
    List.length_map, List.length_range]
  · rfl
  · rw [length_twoMails] at hlt
    rw [mboxIOReadSize]
    omega

/-- There is a run of the threads that cannot go on any more. -/
theorem exists_last_twoMails :
    ∃ (acts : List (SleepingMboxAction 1)) (s : SleepingMbox 1),
      Run (SleepingMbox.Step (fun _ => nul) (fun _ => ok none) (preadRegular (mboxFile twoMails)))
        (.start (fun _ => nul) (mboxFile twoMails).length 1) acts s ∧
      (∀ a t, ¬ SleepingMbox.Step (fun _ => nul) (fun _ => ok none)
        (preadRegular (mboxFile twoMails)) s a t) ∧ s.threads.main = .returned := by
  obtain ⟨msgs, lites, hmsgs, hlites, -⟩ := exists_messages_twoMails
  obtain ⟨base, all, hsolo, -⟩ := solo_of_converges hmsgs
  obtain ⟨acts, s, hrun, hlast⟩ := SleepingMbox.exists_last (fun _ => ok none) hsolo
  exact ⟨acts, s, hrun, hlast, (SleepingMbox.returned_of_run hmsgs hlites hrun hlast).1⟩

/-- The same run, without those who sleep; both mails are kept in the end. -/
theorem exists_returned_twoMails : ∃ (acts : List (MboxAction 1)) (s : MboxThreads 1),
    Run (MboxThreads.Step (fun _ => nul) (fun _ => ok none) (preadRegular (mboxFile twoMails)))
      (.start (fun _ => nul) (mboxFile twoMails).length 1) acts s ∧ s.main = .returned ∧
    ∃ xs, s.completedParse.Holds s.heap xs ∧ xs.length = 2 := by
  obtain ⟨acts, s, hrun, hlast, hret⟩ := exists_last_twoMails
  obtain ⟨acts', hrun'⟩ := (SleepingMbox.reached_of_run hrun).run
  obtain ⟨msgs, lites, hmsgs, hlites, htwo⟩ := exists_messages_twoMails
  obtain ⟨-, xs, hholds, hperm⟩ := SleepingMbox.returned_of_run hmsgs hlites hrun hlast
  have hlen : xs.length = 2 := by rw [hperm.length_eq, ← hlites.length_eq, htwo]
  exact ⟨acts', s.threads, hrun', hret, xs, hholds, hlen⟩

/-! ## The threads and the sequential program -/

section Threads

variable {fill : ℕ → MboxChar} {dateToUnix : List MboxChar → Exec (Option Int)} {pread : Pread}
  {fileSize n : ℕ} {acts : List (MboxAction n)} {s : MboxThreads n}

/-- **The threads do what the sequential program does**: when `mboxMain` has returned, the
sequential run returns, too, and `completed_parse` holds what is made of its messages, each of them
once, in some order. -/
theorem mboxMain_parses
    (hrun : Run (MboxThreads.Step fill dateToUnix pread) (.start fill fileSize n) acts s)
    (hret : s.main = .returned) :
    ∃ msgs lites xs, Converges (fun fuel => mboxMain fill pread fuel fileSize (n + 1)) msgs ∧
      List.Forall₂ (ParsesTo fill dateToUnix) msgs lites ∧
      s.completedParse.Holds s.heap xs ∧ xs.Perm lites := by
  obtain ⟨msgs, hmsgs, hperm⟩ := messages_of_returned hrun hret
  obtain ⟨lites, xs, hlites, hholds, hperm'⟩ := lites_of_returned hrun hret hperm
  exact ⟨msgs, lites, xs, hmsgs, hlites, hholds, hperm'⟩

/-- Two mails, read by two contexts and parsed by two workers. -/
theorem mboxMain_parses_twoMails : ∃ (acts : List (MboxAction 1)) (s : MboxThreads 1),
    Run (MboxThreads.Step (fun _ => nul) (fun _ => ok none) (preadRegular (mboxFile twoMails)))
      (.start (fun _ => nul) (mboxFile twoMails).length 1) acts s ∧ s.main = .returned ∧
    ∃ msgs lites xs, Converges (fun fuel => mboxMain (fun _ => nul)
        (preadRegular (mboxFile twoMails)) fuel (mboxFile twoMails).length 2) msgs ∧
      List.Forall₂ (ParsesTo (fun _ => nul) fun _ => ok none) msgs lites ∧
      s.completedParse.Holds s.heap xs ∧ xs.Perm lites ∧ msgs.length = 2 := by
  obtain ⟨acts, s, hrun, hret, -⟩ := exists_returned_twoMails
  obtain ⟨msgs, lites, xs, hmsgs, hlites, hholds, hperm⟩ := mboxMain_parses hrun hret
  obtain ⟨msgs', -, hmsgs', -, htwo⟩ := exists_messages_twoMails
  obtain rfl := hmsgs'.unique hmsgs
  exact ⟨acts, s, hrun, hret, msgs', lites, xs, hmsgs, hlites, hholds, hperm, htwo⟩

/-- **At any time** the list holds what was made of different messages: nothing is parsed twice
and nothing else is kept. -/
theorem completedParse_of_run
    (hrun : Run (MboxThreads.Step fill dateToUnix pread) (.start fill fileSize n) acts s) :
    ∃ (xs : List MboxMsgLite) (ks : List ℕ), s.completedParse.Holds s.heap xs ∧ ks.Nodup ∧
      List.Forall₂ (fun k lite => ∃ msg, s.messages[k]? = some msg ∧
        ParsesTo fill dateToUnix msg lite) ks xs := by
  have hkept := kept_of_run hrun
  refine ⟨_, ((keptLites acts).map Prod.fst).map MboxWorkerJob.argv, hkept.holds, ?_, ?_⟩
  · refine List.Nodup.map_on (fun job hjob job' hjob' heq => ?_) (hkept.nodup hrun)
    have hid := (hkept.job hrun hjob).2
    have hid' := (hkept.job hrun hjob').2
    rw [hid, hid'] at heq ⊢
    exact congrArg parseJob heq
  · rw [List.forall₂_map_left_iff]
    exact hkept.forall₂

/-- The list of such a run, with a message for each of the mails. -/
theorem completedParse_of_run_twoMails : ∃ (acts : List (MboxAction 1)) (s : MboxThreads 1),
    Run (MboxThreads.Step (fun _ => nul) (fun _ => ok none) (preadRegular (mboxFile twoMails)))
      (.start (fun _ => nul) (mboxFile twoMails).length 1) acts s ∧
    ∃ (xs : List MboxMsgLite) (ks : List ℕ), s.completedParse.Holds s.heap xs ∧ ks.Nodup ∧
      ks.length = 2 ∧ List.Forall₂ (fun k lite => ∃ msg, s.messages[k]? = some msg ∧
        ParsesTo (fun _ => nul) (fun _ => ok none) msg lite) ks xs := by
  obtain ⟨acts, s, hrun, -, xs', hholds', htwo⟩ := exists_returned_twoMails
  obtain ⟨xs, ks, hholds, hnodup, hmade⟩ := completedParse_of_run hrun
  obtain rfl := MboxList.Holds.unique hholds hholds'
  exact ⟨acts, s, hrun, xs, ks, hholds, hnodup, hmade.length_eq.trans htwo, hmade⟩

end Threads

namespace SleepingMbox

variable {fill : ℕ → MboxChar} {dateToUnix : List MboxChar → Exec (Option Int)} {pread : Pread}
  {fileSize n : ℕ} {s : SleepingMbox n}

/-- **`mboxMain` returns**: where the sequential program returns, and each of its messages can be
parsed, a run of the threads ends, whatever the order of the steps, and where no thread can go on
`mboxMain` has returned and `completed_parse` holds what the sequential program makes of the file,
in some order. -/
theorem mboxMain_returns {msgs : List MboxIOMsg} {lites : List MboxMsgLite}
    {acts : List (SleepingMboxAction n)}
    (hmsgs : Converges (fun fuel => mboxMain fill pread fuel fileSize (n + 1)) msgs)
    (hlites : List.Forall₂ (ParsesTo fill dateToUnix) msgs lites)
    (hrun : Run (Step fill dateToUnix pread) (.start fill fileSize n) acts s) :
    acts.length ≤ 2 * (n + 1) * jobCost n + 15 + 4 * (n + 1) + (jobCost n + 1) * msgs.length ∧
      ((∀ a t, ¬ Step fill dateToUnix pread s a t) → s.threads.main = .returned ∧
        ∃ xs, s.threads.completedParse.Holds s.threads.heap xs ∧ xs.Perm lites) :=
  ⟨length_le_of_run hmsgs hrun, returned_of_run hmsgs hlites hrun⟩

/-- Two mails are parsed by two workers in at most 199 steps. -/
theorem mboxMain_returns_twoMails : ∃ (acts : List (SleepingMboxAction 1)) (s : SleepingMbox 1),
    Run (Step (fun _ => nul) (fun _ => ok none) (preadRegular (mboxFile twoMails)))
      (start (fun _ => nul) (mboxFile twoMails).length 1) acts s ∧
      acts.length ≤ 199 ∧
      s.threads.main = .returned ∧
        ∃ xs, s.threads.completedParse.Holds s.threads.heap xs ∧ xs.length = 2 := by
  obtain ⟨msgs, lites, hmsgs, hlites, htwo⟩ := exists_messages_twoMails
  obtain ⟨acts, s, hrun, hlast, -⟩ := exists_last_twoMails
  obtain ⟨hlen, hend⟩ := mboxMain_returns hmsgs hlites hrun
  obtain ⟨hret, xs, hholds, hperm⟩ := hend hlast
  rw [htwo] at hlen
  exact ⟨acts, s, hrun, hlen, hret, xs, hholds,
    hperm.length_eq.trans (hlites.length_eq.symm.trans htwo)⟩

end SleepingMbox

/-! ## The mails of a well-formed file -/

section Mails

variable {fill : ℕ → MboxChar} {dateToUnix : List MboxChar → Exec (Option Int)} {ms : List Mail}

/-- **Every mail is parsed**: when `mboxMain` has returned for a well-formed file whose contexts
are in order, `completed_parse` holds one lite message for every From line of the file, but for the
last one of a range that is lost where the reads of the context end. -/
theorem everyMail_parsed {n : ℕ} {acts : List (MboxAction n)} {s : MboxThreads n} (hne : ms ≠ [])
    (horder : InOrder (mboxFile ms) ((mboxFile ms).length / (n + 1)) (n + 1))
    (hrun : Run (MboxThreads.Step fill dateToUnix (preadRegular (mboxFile ms)))
      (.start fill (mboxFile ms).length n) acts s) (hret : s.main = .returned) :
    ∃ ctxs lites xs,
      Converges (fun fuel => mboxSetAllOffsets fill (preadRegular (mboxFile ms)) fuel
        (mboxFile ms).length (n + 1)) ctxs ∧
      Tiles 0 (mboxFile ms).length (ctxs.map MboxParserCtx.range) ∧
      List.Forall₂ (LiteOf fill dateToUnix ms)
        ((ctxs.map MboxParserCtx.range).flatMap (fromLinesRead (mboxFile ms))) lites ∧
      s.completedParse.Holds s.heap xs ∧ xs.Perm lites := by
  obtain ⟨ctxs, msgs, lites, xs, hset, htiles, hreads, -, -, hlites, hholds, hperm⟩ :=
    mails_of_returned hne horder hrun hret
  exact ⟨ctxs, lites, xs, hset, htiles, liteOf_of_parses hreads hlites, hholds, hperm⟩

/-- Each of the two mails was parsed in it. -/
theorem everyMail_parsed_twoMails :
    ∃ (acts : List (MboxAction 1)) (s : MboxThreads 1),
      Run (MboxThreads.Step (fun _ => nul) (fun _ => ok none) (preadRegular (mboxFile twoMails)))
        (.start (fun _ => nul) (mboxFile twoMails).length 1) acts s ∧ s.main = .returned ∧
      ∃ (ctxs : List MboxParserCtx) (lites xs : List MboxMsgLite),
        Tiles 0 (mboxFile twoMails).length (ctxs.map MboxParserCtx.range) ∧
        List.Forall₂ (LiteOf (fun _ => nul) (fun _ => ok none) twoMails)
          ((ctxs.map MboxParserCtx.range).flatMap (fromLinesRead (mboxFile twoMails))) lites ∧
        s.completedParse.Holds s.heap xs ∧ xs.Perm lites := by
  obtain ⟨acts, s, hrun, hlast, hret⟩ := exists_last_twoMails
  obtain ⟨acts', hrun'⟩ := (SleepingMbox.reached_of_run hrun).run
  obtain ⟨ctxs, lites, xs, -, hall⟩ := everyMail_parsed
    (List.cons_ne_nil letterMail [letterMail]) (inOrder_twoMails _) hrun' hret
  exact ⟨acts', s.threads, hrun', hret, ctxs, lites, xs, hall⟩

/-- **`mboxMain` parses every mail**, whatever the order of the steps: when the seeks end, the
contexts are in order and the mails can be read, the threads come to an end, and where none of them
can go on `mboxMain` has returned with a lite message for every From line that is delivered, which
are all of them where no context loses its last one. -/
theorem everyMail_returns {n : ℕ} {acts : List (SleepingMboxAction n)} {s : SleepingMbox n}
    (hne : ms ≠ []) (hgood : ∀ m ∈ ms, m.Readable fill dateToUnix)
    (hends : AllSeeksEnd fill (mboxFile ms) (n + 1))
    (horder : InOrder (mboxFile ms) ((mboxFile ms).length / (n + 1)) (n + 1))
    (hrun : Run (SleepingMbox.Step fill dateToUnix (preadRegular (mboxFile ms)))
      (.start fill (mboxFile ms).length n) acts s) :
    ∃ ctxs, Converges (fun fuel => mboxSetAllOffsets fill (preadRegular (mboxFile ms)) fuel
        (mboxFile ms).length (n + 1)) ctxs ∧
      acts.length ≤ 2 * (n + 1) * SleepingMbox.jobCost n + 15 + 4 * (n + 1) +
        (SleepingMbox.jobCost n + 1) * ms.length ∧
      ((∀ a t, ¬ SleepingMbox.Step fill dateToUnix (preadRegular (mboxFile ms)) s a t) →
        s.threads.main = .returned ∧ ∃ lites xs,
          List.Forall₂ (LiteOf fill dateToUnix ms)
            ((ctxs.map MboxParserCtx.range).flatMap (fromLinesRead (mboxFile ms))) lites ∧
          s.threads.completedParse.Holds s.threads.heap xs ∧ xs.Perm lites) ∧
      ((∀ ctx ∈ ctxs, ctx.ioctx.endOffset < (mboxFile ms).length →
          ¬ LostAtBoundary (mboxFile ms) ctx.ioctx.startOffset ctx.ioctx.endOffset) →
        (ctxs.map MboxParserCtx.range).flatMap (fromLinesRead (mboxFile ms)) =
          (List.range ms.length).map (pos ms)) := by
  obtain ⟨ctxs, msgs, hset, htiles, hmsgs, hreads, -⟩ :=
    mboxMain_reads fill hne (Nat.succ_pos n) hends horder
  obtain ⟨lites, hlites⟩ := exists_lites hgood hreads (whole_of_main hmsgs)
  have hlen := SleepingMbox.length_le_of_run hmsgs hrun
  have hcount := hreads.length_eq
  have hmax := (fromLinesRead_sublist htiles).length_le
  rw [List.length_map, List.length_range] at hmax
  refine ⟨ctxs, hset, hlen.trans ?_, fun hlast => ?_, fun hclear => ?_⟩
  · have hmul := Nat.mul_le_mul_left (SleepingMbox.jobCost n + 1) (hcount ▸ hmax)
    omega
  · obtain ⟨hret, xs, hholds, hperm⟩ := SleepingMbox.returned_of_run hmsgs hlites hrun hlast
    exact ⟨hret, lites, xs, liteOf_of_parses hreads hlites, hholds, hperm⟩
  · refine fromLinesRead_all htiles fun r hr hlt => ?_
    obtain ⟨ctx, hctx, rfl⟩ := List.mem_map.mp hr
    exact hclear ctx hctx hlt

/-- Such a run, which could not go on. -/
theorem everyMail_returns_twoMails :
    ∃ (acts : List (SleepingMboxAction 1)) (s : SleepingMbox 1),
      Run (SleepingMbox.Step (fun _ => nul) (fun _ => ok none) (preadRegular (mboxFile twoMails)))
        (.start (fun _ => nul) (mboxFile twoMails).length 1) acts s ∧
      s.threads.main = .returned ∧
      ∃ xs, s.threads.completedParse.Holds s.threads.heap xs ∧ xs.length = 2 := by
  obtain ⟨acts, s, hrun, hlast, -⟩ := exists_last_twoMails
  obtain ⟨ctxs, -, -, hend, hclear⟩ := everyMail_returns (List.cons_ne_nil letterMail [letterMail])
    readable_twoMails allSeeksEnd_twoMails (inOrder_twoMails _) hrun
  obtain ⟨hret, lites, xs, hlites, hholds, hperm⟩ := hend hlast
  have hall := hclear fun ctx _ hlt => not_lostAtBoundary (by
    rw [length_twoMails] at hlt
    rw [mboxIOReadSize]
    omega)
  have hlen := hlites.length_eq
  rw [hall, List.length_map, List.length_range] at hlen
  exact ⟨acts, s, hrun, hret, xs, hholds, hperm.length_eq.trans hlen.symm⟩

end Mails

end Libmbox2
