import Mathlib.Data.List.Perm.Basic
import Libmbox2.PipelineRuns

/-!
# When `mboxMain` returns

`mboxMain` with its threads and the `mboxMain` that does one thing after the other: the threads
leave in `completed_parse` what is made of the messages of the sequential run, each of them once,
in an order of their own.
-/

namespace Libmbox2

open CSem CSem.Exec

variable {fill : ℕ → MboxChar} {dateToUnix : List MboxChar → Exec (Option Int)} {pread : Pread}
  {fileSize n : ℕ} {acts : List (MboxAction n)} {s : MboxThreads n}

/-! ## The sequential run -/

/-- The contexts of the threads are those of the sequential run. -/
theorem IsBase.converges {base : List MboxParserCtx} (h : IsBase fill pread fileSize n base) :
    Converges (fun fuel => mboxSetAllOffsets fill pread fuel fileSize (n + 1)) base := by
  obtain ⟨seeks, hseeks, rfl⟩ := h
  have hmap : List.Forall₂ (fun ctx ctx' =>
      Converges (fun fuel => mboxParserCtxSeekStart fill pread fuel ctx) ctx')
      ((List.range (n + 1)).map (initCtx fill fileSize (fileSize / (n + 1)))) seeks :=
    List.forall₂_map_left_iff.mpr hseeks
  refine Converges.bind (Converges.bind (Converges.mapM_forall₂ hmap) ?_) (Converges.const rfl)
  cases seeks with
  | nil => exact Converges.const rfl
  | cons ctx ctxs => exact Converges.const rfl

/-- All contexts have returned: each has enqueued what it delivers alone. -/
theorem Reads.delivers {base : List MboxParserCtx}
    (hrun : Run (MboxThreads.Step fill dateToUnix pread) (.start fill fileSize n) acts s)
    (hi : Reads fill pread fileSize base acts s) (hdone : ContextsDone acts s) :
    Converges (fun fuel => mboxParseAllMessages fill pread fuel base)
      ((List.range base.length).map (messagesOf acts)).flatten := by
  have hall : List.Forall₂ (fun ctx msgs =>
      Converges (fun fuel => mboxParserCtxGetNextMessageCallback fill pread fuel ctx) msgs)
      base ((List.range base.length).map (messagesOf acts)) := by
    refine List.forall₂_iff_get.mpr ⟨by rw [List.length_map, List.length_range], fun i h₁ h₂ => ?_⟩
    rw [List.get_eq_getElem, List.get_eq_getElem, List.getElem_map, List.getElem_range]
    obtain ⟨ctx, -, -, hrets⟩ := hi.ctx i base[i] (List.getElem?_eq_getElem h₁)
    have hone : ioRets acts (n + 1 + i) = 1 :=
      (CallbackPool.retInv_of_run (run_io hrun)).rets_of_finished (hdone i (hi.length ▸ h₁))
    exact (hrets (Nat.lt_of_lt_of_eq Nat.one_pos hone.symm)).converges
  exact Converges.bind (Converges.mapM_forall₂ hall) (Converges.const rfl)

/-! ## What was kept -/

/-- What is kept is made of a message, each by the job of its own. -/
theorem Kept.forall₂ (hi : Kept fill dateToUnix acts s) :
    List.Forall₂ (fun job lite => ∃ msg, s.messages[job.argv]? = some msg ∧
      ParsesTo fill dateToUnix msg lite)
      ((keptLites acts).map Prod.fst) ((keptLites acts).map Prod.snd) := by
  rw [List.forall₂_map_left_iff, List.forall₂_map_right_iff, List.forall₂_same]
  exact hi.parsed

/-- The jobs that have kept something are those of messages. -/
theorem Kept.job (hi : Kept fill dateToUnix acts s)
    (hrun : Run (MboxThreads.Step fill dateToUnix pread) (.start fill fileSize n) acts s)
    {job : MboxWorkerJob} (h : job ∈ (keptLites acts).map Prod.fst) :
    job.id < s.messages.length ∧ job = parseJob job.id := by
  have hcounted := parseCounted_of_run hrun
  have hcount : 0 < ((keptLites acts).map Prod.fst).count job := List.count_pos_iff.mpr h
  rw [hi.once] at hcount
  have hadds := (CallbackPool.retInv_of_run (run_parse hrun)).rets_le_adds job
  rw [← hcounted.enqueued]
  exact (hcounted.jobs job).mp (hcount.trans_le hadds)

/-- No job has kept anything twice. -/
theorem Kept.nodup (hi : Kept fill dateToUnix acts s)
    (hrun : Run (MboxThreads.Step fill dateToUnix pread) (.start fill fileSize n) acts s) :
    ((keptLites acts).map Prod.fst).Nodup := by
  rw [List.nodup_iff_count_le_one]
  intro job
  rw [hi.once]
  exact (CallbackPool.retInv_of_run (run_parse hrun)).rets_le job

theorem parseJob_injective : Function.Injective parseJob :=
  fun _ _ h => congrArg MboxWorkerJob.id h

/-- All jobs are finished: all of them have kept something. -/
theorem Kept.perm (hi : Kept fill dateToUnix acts s)
    (hrun : Run (MboxThreads.Step fill dateToUnix pread) (.start fill fileSize n) acts s)
    (hfin : ∀ k < s.messages.length, ParseFinished acts k) :
    ((List.range s.messages.length).map parseJob).Perm ((keptLites acts).map Prod.fst) := by
  refine (List.perm_ext_iff_of_nodup (List.nodup_range.map parseJob_injective)
    (hi.nodup hrun)).mpr fun job => ⟨fun h => ?_, fun h => ?_⟩
  · obtain ⟨k, hk, rfl⟩ := List.mem_map.mp h
    have hone := (CallbackPool.retInv_of_run (run_parse hrun)).rets_of_finished
      (hfin k (List.mem_range.mp hk))
    rw [← List.count_pos_iff, hi.once, hone]
    exact Nat.one_pos
  · obtain ⟨hlt, hjob⟩ := hi.job hrun h
    exact List.mem_map.mpr ⟨job.id, List.mem_range.mpr hlt, hjob.symm⟩

/-- One lite message for each message, in the order of the messages. -/
theorem Kept.lites (hi : Kept fill dateToUnix acts s)
    (hrun : Run (MboxThreads.Step fill dateToUnix pread) (.start fill fileSize n) acts s)
    (hfin : ∀ k < s.messages.length, ParseFinished acts k) :
    ∃ lites, List.Forall₂ (ParsesTo fill dateToUnix) s.messages lites ∧
      lites.Perm ((keptLites acts).map Prod.snd) := by
  obtain ⟨lites, hparsed, hperm⟩ := List.perm_comp_forall₂ (hi.perm hrun hfin) hi.forall₂
  refine ⟨lites, List.forall₂_iff_get.mpr ?_, hperm⟩
  rw [List.forall₂_map_left_iff, List.forall₂_iff_get] at hparsed
  obtain ⟨hlen, hget⟩ := hparsed
  rw [List.length_range] at hlen
  refine ⟨hlen, fun k h₁ h₂ => ?_⟩
  obtain ⟨msg, hmsg, hparse⟩ := hget k (by rw [List.length_range]; exact h₁) h₂
  rw [List.get_eq_getElem, List.getElem_range, parseJob, List.getElem?_eq_getElem h₁] at hmsg
  rw [List.get_eq_getElem, Option.some.inj hmsg]
  exact hparse

/-! ## The result -/

/-- When `mboxMain` has returned the sequential run returns, too, and the messages are the same,
enqueued in an order of their own. -/
theorem messages_of_returned
    (hrun : Run (MboxThreads.Step fill dateToUnix pread) (.start fill fileSize n) acts s)
    (hret : s.main = .returned) :
    ∃ msgs, Converges (fun fuel => mboxMain fill pread fuel fileSize (n + 1)) msgs ∧
      msgs.Perm s.messages := by
  have hphase := phase_of_run hrun
  rw [hret] at hphase
  obtain ⟨⟨base, hreads⟩, hdone, -⟩ := hphase
  refine ⟨_, Converges.bind hreads.isBase.converges (hreads.delivers hrun hdone), ?_⟩
  rw [(kept_of_run hrun).messages]
  exact perm_flatten_filter hreads.tags

/-- **And the list holds what is made of them**, one for each message. -/
theorem lites_of_returned
    (hrun : Run (MboxThreads.Step fill dateToUnix pread) (.start fill fileSize n) acts s)
    (hret : s.main = .returned) {msgs : List MboxIOMsg} (hmsgs : msgs.Perm s.messages) :
    ∃ lites xs, List.Forall₂ (ParsesTo fill dateToUnix) msgs lites ∧
      s.completedParse.Holds s.heap xs ∧ xs.Perm lites := by
  have hphase := phase_of_run hrun
  rw [hret] at hphase
  have hkept := kept_of_run hrun
  obtain ⟨lites, hlites, hperm⟩ := hkept.lites hrun hphase.2.2
  obtain ⟨lites', hlites', hperm'⟩ := List.perm_comp_forall₂ hmsgs hlites
  exact ⟨lites', _, hlites', hkept.holds, (hperm'.trans hperm).symm⟩

end Libmbox2
