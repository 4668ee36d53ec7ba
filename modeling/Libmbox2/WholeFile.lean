import Libmbox2.Contexts
import Libmbox2.Offsets

/-!
# A whole file with one context

With one worker there is one context, from the first From line to the end of the file.
Every message is delivered, and each but the last is delivered whole
(`wholeFile_delivers`). The last one is not: the read that comes back empty ends the
search where it stands, which is in front of the final newline at the latest
(`finalMessage_incomplete`).
-/

namespace Libmbox2

open CSem CSem.Exec

variable {ms : List Mail}

/-- The seek of the only context finds the From line the file begins with. -/
theorem mboxSetAllOffsets_one (fill : ℕ → MboxChar) (hne : ms ≠ []) :
    ∃ ctx, Converges (fun n => mboxSetAllOffsets fill (preadRegular (mboxFile ms)) n
        (mboxFile ms).length 1) [ctx] ∧
      ctx.Fresh 0 (mboxFile ms).length := by
  have hpos := List.length_pos_iff.mpr hne
  have hlt := pos_lt hpos (le_refl _)
  rw [pos_length, pos_zero] at hlt
  have hfile : mboxFile ms ≠ [] := List.length_pos_iff.mp (by omega)
  -- the first window begins with the file, and the file with `From `
  have hfirst : FirstSeen fromWord (mboxFile ms) (windowStart 0 0) 0 := by
    rw [windowStart, Nat.zero_sub]
    exact firstSeen_mboxFile hpos
  have hends : EndsAt (mboxFile ms) 0 0 := by
    rw [EndsAt, if_neg hfile]
    exact ⟨_, ⟨0, rfl, ⟨0, hfirst.1⟩, fun j hj => absurd hj (Nat.not_lt_zero j)⟩, hfirst⟩
  have hseeks : AllSeeksEnd fill (mboxFile ms) 1 := by
    intro i hi
    obtain rfl : i = 0 := by omega
    have hfo : (initCtx fill (mboxFile ms).length ((mboxFile ms).length / 1) 0).ioctx.fileOffset =
        0 := Nat.zero_mul _
    refine terminates_of_seekStops fill (initCtx_sound _ _ _ _)
      (by rw [hfo]; exact Nat.zero_le _) (Or.inr ⟨0, 0, ?_⟩)
    rw [hfo]
    exact hfirst.1
  obtain ⟨ctx, ctxs, hconv, hall⟩ := mboxSeekAllOffsets_converges fill Nat.one_pos hseeks
  have hconv' := mboxSetAllOffsets_converges hconv
  rcases hall with _ | ⟨hctx, hnil⟩
  obtain rfl : ctxs = [] := by
    have := hnil.length_eq
    exact List.eq_nil_of_length_eq_zero (by simpa using this.symm)
  have hstart : ctx.ioctx.startOffset = 0 := by
    have h := hctx.endsAt
    rw [Nat.zero_mul] at h
    exact h.unique hends
  have hkeep : (setLastOffset ctx).ioctx.startOffset < (setLastOffset ctx).ioctx.endOffset := by
    simp only [setLastOffset, hstart, hctx.fileSize]
    omega
  rw [setOffsets, filterContexts, List.filter_cons_of_pos (by simpa using hkeep)] at hconv'
  exact ⟨{ setLastOffset ctx with id := 0 }, hconv', hctx.err, hstart, hstart, hctx.fileSize,
    hctx.fileOffset.trans hstart, hctx.ioErr hfile, hctx.buf⟩

/-- **The run over a whole file**: the messages in front of the last one are whole, the last
one ends behind its headers and in front of the end of the file. -/
theorem wholeFile_run (fill : ℕ → MboxChar) {l : ℕ} (hl : l + 1 = ms.length) :
    ∃ msgs last b, Converges (fun n => mboxMain fill (preadRegular (mboxFile ms)) n
        (mboxFile ms).length 1) (msgs ++ [last]) ∧
      CoverAll (mboxFile ms) (bounds ms 0 0 l) msgs ∧
      last.Covers (mboxFile ms) (pos ms l) b ∧ b < (mboxFile ms).length := by
  have hne : ms ≠ [] := List.length_pos_iff.mp (by omega)
  have hlt := pos_lt (show l < l + 1 by omega) hl.le
  have hnl := nl_before_pos (show l < ms.length by omega)
  have hlen := pos_length ms
  rw [← hl] at hlen
  rw [hlen] at hlt hnl
  have hzero : StartsAt ms 0 0 := Or.inl rfl
  obtain ⟨ctx, hset, hctx⟩ := mboxSetAllOffsets_one fill hne
  obtain ⟨ctx', msgs, hready, -, hcover, hrest⟩ := deliver_prefix fill
    (show l < ms.length by omega) (show pos ms l + 10 ≤ (mboxFile ms).length by omega)
    (P := fun _ => True) (fun _ _ _ => trivial) [] (Nat.zero_add l) hzero
    (hctx.ready (Nat.zero_le _) trivial) hctx.not_done
  have hstart : nextStart ms 0 0 l = pos ms l := by
    rw [nextStart, Nat.zero_add]
    split
    · rename_i h
      rw [h, pos_zero]
    · rfl
  rw [hstart] at hready
  obtain ⟨k, hk, hlf, hak⟩ := headers_at (show l < ms.length by omega) (Or.inl rfl)
  have hhead := (ms[l]).head_le
  have hsucc := pos_succ (show l < ms.length by omega)
  -- the last message ends at the end of the file, not at a From line
  obtain ⟨last, ctx'', b, hcall, hlast, -, hb, herr⟩ := getNextMessage_eof fill
    (nul_notMem_mboxFile ms) hk hlf
    (fun p hp hfrom => by
      obtain ⟨j, -, hj, hpj⟩ := nlFrom_iff.mp hfrom
      have := pos_le (show j ≤ l by omega) (by omega : l ≤ ms.length)
      omega)
    (by omega) (le_refl _) (fun _ _ => trivial) hnl hready
  have hrun := (hrest _ (callback_done hcall herr)).converges
  rw [List.nil_append] at hrun
  obtain ⟨r, hall, hr⟩ : ∃ r, Converges (fun n => [ctx].mapM (mboxParserCtxGetNextMessageCallback
      fill (preadRegular (mboxFile ms)) n)) r ∧
      List.Forall₂ (fun _ x => x = msgs ++ [last]) [ctx] r :=
    Converges.mapM fun c hc => ⟨_, by rw [List.mem_singleton.mp hc]; exact hrun, rfl⟩
  rcases hr with _ | ⟨rfl, hnil⟩
  cases hnil
  refine ⟨msgs, last, b, Converges.bind hset (Converges.bind hall (Converges.const ?_)), hcover,
    hlast, hb⟩
  simp

/-- **The messages of a whole file**: one for each From line, in order; each starts at its
From line, and those that are followed by another one end where that starts and hold the
bytes in between. -/
theorem wholeFile_delivers (fill : ℕ → MboxChar) (m : Mail) (ms : List Mail) :
    ∃ msgs, Converges (fun n => mboxMain fill (preadRegular (mboxFile (m :: ms))) n
        (mboxFile (m :: ms)).length 1) msgs ∧
      msgs.length = (m :: ms).length ∧
      ∀ i msg, msgs[i]? = some msg → msg.startOffset = pos (m :: ms) i ∧
        (i + 1 < (m :: ms).length →
          msg.endOffset = pos (m :: ms) (i + 1) ∧
          msg.buf.bytes =
            slice (mboxFile (m :: ms)) (pos (m :: ms) i) (pos (m :: ms) (i + 1))) := by
  obtain ⟨msgs, last, b, hconv, hcover, hlast, -⟩ :=
    wholeFile_run fill (show ms.length + 1 = (m :: ms).length from rfl)
  have hlen := hcover.length_eq
  rw [length_bounds] at hlen
  refine ⟨_, hconv, by simp [← hlen], fun i msg hi => ?_⟩
  rcases Nat.lt_or_ge i msgs.length with hlt | hge
  · rw [List.getElem?_append_left hlt] at hi
    have hmsg := covers_getElem? (m := 0) hcover (by omega) hi
    rw [Nat.zero_add] at hmsg
    exact ⟨hmsg.startOffset, fun _ => ⟨hmsg.endOffset, hmsg.bytes⟩⟩
  · have hi' : i = msgs.length := by
      have h := (List.getElem?_eq_some_iff.mp hi).choose
      rw [List.length_append, List.length_singleton] at h
      omega
    subst hi'
    rw [List.getElem?_append_right (le_refl _), Nat.sub_self] at hi
    obtain rfl : last = msg := Option.some.inj hi
    refine ⟨by rw [hlast.startOffset, hlen], fun h => ?_⟩
    rw [List.length_cons] at h
    omega

/-! ## The last message -/

/-- The last message is delivered to the end of the file. -/
def FinalComplete (fill : ℕ → MboxChar) (ms : List Mail) (m : Mail) : Prop :=
  ∃ msgs msg, Converges (fun n => mboxMain fill (preadRegular (mboxFile (ms ++ [m]))) n
      (mboxFile (ms ++ [m])).length 1) msgs ∧
    msgs.getLast? = some msg ∧ msg.endOffset = (mboxFile (ms ++ [m])).length ∧
    msg.buf.bytes = (mboxFile (ms ++ [m])).drop (pos (ms ++ [m]) ms.length)

/-- The last message ends in front of the end of the file. -/
theorem final_endOffset_lt {fill : ℕ → MboxChar} {m : Mail} {msgs : List MboxIOMsg}
    {msg : MboxIOMsg}
    (h : Converges (fun n => mboxMain fill (preadRegular (mboxFile (ms ++ [m]))) n
      (mboxFile (ms ++ [m])).length 1) msgs) (hlast : msgs.getLast? = some msg) :
    msg.endOffset < (mboxFile (ms ++ [m])).length := by
  obtain ⟨msgs', last, b, hconv, -, hcov, hb⟩ :=
    wholeFile_run fill (show ms.length + 1 = (ms ++ [m]).length by simp)
  obtain rfl := h.unique hconv
  rw [List.getLast?_concat] at hlast
  obtain rfl := Option.some.inj hlast
  rw [hcov.endOffset]
  exact hb

/-- **The last message is never complete**: the search for the next From line has to stop at the end
of the file, and does so in front of its last bytes. -/
theorem finalMessage_incomplete (fill : ℕ → MboxChar) (ms : List Mail) (m : Mail) :
    ¬ FinalComplete fill ms m := by
  rintro ⟨msgs, msg, hconv, hlast, hend, -⟩
  have := final_endOffset_lt hconv hlast
  omega

/-- A file of one message with the body `"x\n"`: what is delivered of it lacks the end. -/
theorem oneMail_incomplete : ¬ FinalComplete (fun _ => nul) [] (xMail 1) := by
  rintro ⟨msgs, msg, hconv, hlast, hend, -⟩
  exact absurd (final_endOffset_lt hconv hlast) (by rw [hend]; exact Nat.lt_irrefl _)

end Libmbox2
