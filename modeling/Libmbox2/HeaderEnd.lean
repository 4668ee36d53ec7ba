import Libmbox2.Parser

/-!
# Where the headers end

`headerEnd?` is the distance to the first byte behind the first empty line of a text.
`canParseHeadersFrom_spec` says that the scan of `mboxBufCanParseHeaders` computes it on
the contents of a buffer without NUL, and where it stands when there is no empty line:
at the end of the buffer, or on the newline the buffer ends with.

A window may end anywhere in the text. Nothing is found too early
(`headerEnd?_take_of_lt`), and the scan may go on from any position in front of the
empty line (`headerEnd?_drop`).
-/

namespace Libmbox2

open CSem CSem.Exec

/-- The distance to just behind the first empty line, ended by LF or by CRLF. -/
def headerEnd? : List MboxChar → Option ℕ
  | [] => none
  | c :: cs =>
    if [nl, nl] <+: c :: cs then some 2
    else if [nl, cr, nl] <+: c :: cs then some 3
    else (headerEnd? cs).map (· + 1)

/-- Where the scan stands in a text without an empty line. -/
def scanEnd (ys : List MboxChar) : ℕ :=
  if ys.getLast? = some nl then ys.length - 1 else ys.length

@[simp] theorem headerEnd?_nil : headerEnd? [] = none := rfl

/-- An empty line that is ended by LF ends the headers behind its newline. -/
theorem headerEnd?_nl_nl (l : List MboxChar) : headerEnd? (nl :: nl :: l) = some 2 := by
  rw [headerEnd?, if_pos ⟨l, rfl⟩]

/-- An empty line that is ended by CRLF ends them one byte later. -/
theorem headerEnd?_nl_cr_nl (l : List MboxChar) :
    headerEnd? (nl :: cr :: nl :: l) = some 3 := by
  have h : ¬ [nl, nl] <+: nl :: cr :: nl :: l := by
    simp only [List.cons_prefix_cons, not_and]
    exact fun _ e => absurd e (by decide)
  rw [headerEnd?, if_neg h, if_pos ⟨l, rfl⟩]

/-- A byte that is no newline only puts the end one further. -/
theorem headerEnd?_cons_of_ne {c : MboxChar} (h : c ≠ nl) (l : List MboxChar) :
    headerEnd? (c :: l) = (headerEnd? l).map (· + 1) := by
  have h' : ¬ nl = c := fun e => h e.symm
  rw [headerEnd?, if_neg (by simp [List.cons_prefix_cons, h']),
    if_neg (by simp [List.cons_prefix_cons, h'])]

/-- A newline in front of a line that is not empty. -/
theorem headerEnd?_nl_cons {p : MboxChar} {l : List MboxChar} (hnl : p ≠ nl)
    (hcr : ¬ (p = cr ∧ l.head? = some nl)) :
    headerEnd? (nl :: p :: l) = (headerEnd? (p :: l)).map (· + 1) := by
  have h1 : ¬ nl = p := fun e => hnl e.symm
  have h2 : ¬ [nl, cr, nl] <+: nl :: p :: l := by
    rintro ⟨t, ht⟩
    simp only [List.cons_append, List.cons.injEq, List.nil_append, true_and] at ht
    exact hcr ⟨ht.1.symm, by rw [← ht.2]; rfl⟩
  rw [headerEnd?, if_neg (by simp [List.cons_prefix_cons, h1]), if_neg h2]

/-- So does a text without a newline, by its length. -/
theorem headerEnd?_append_left {pre : List MboxChar} (hpre : nl ∉ pre) (l : List MboxChar) :
    headerEnd? (pre ++ l) = (headerEnd? l).map (· + pre.length) := by
  induction pre with
  | nil => simp
  | cons c cs ih =>
    have hc : c ≠ nl := fun e => hpre (e ▸ List.mem_cons_self ..)
    rw [List.cons_append, headerEnd?_cons_of_ne hc,
      ih fun e => hpre (List.mem_cons_of_mem _ e), Option.map_map]
    rfl

theorem headerEnd?_of_not_mem {l : List MboxChar} (h : nl ∉ l) : headerEnd? l = none := by
  simpa using headerEnd?_append_left h []

/-! ## The scan -/

/-- The scan stops at the first newline of NUL-free contents. -/
theorem scan_to_nl {pre : List MboxChar} (post rest : List MboxChar) (hpre : nl ∉ pre)
    (h0 : nul ∉ pre) :
    scanUntil (fun c => c == nl || c == nul) (pre ++ nl :: post ++ nul :: rest) =
      ok pre.length := by
  rw [List.append_assoc, List.cons_append]
  refine scanUntil_append (fun x hx => ?_) rfl
  have h1 : x ≠ nl := fun e => hpre (e ▸ hx)
  have h2 : x ≠ nul := fun e => h0 (e ▸ hx)
  simp [h1, h2]

/-- Without a newline the scan for one stops at the terminator, behind all of the contents. -/
theorem scan_to_nul {pre rest : List MboxChar} (hpre : nl ∉ pre) (h0 : nul ∉ pre) :
    scanUntil (fun c => c == nl || c == nul) (pre ++ nul :: rest) = ok pre.length := by
  refine scanUntil_append (fun x hx => ?_) rfl
  have h1 : x ≠ nl := fun e => hpre (e ▸ hx)
  have h2 : x ≠ nul := fun e => h0 (e ▸ hx)
  simp [h1, h2]

/-- A list is free of newlines, or splits at its first one. -/
theorem split_at_nl (ys : List MboxChar) :
    nl ∉ ys ∨ ∃ pre post, ys = pre ++ nl :: post ∧ nl ∉ pre := by
  by_cases h : nl ∈ ys
  · obtain ⟨pre, post, hys, hpre⟩ := List.eq_append_cons_of_mem h
    exact Or.inr ⟨pre, post, hys, hpre⟩
  · exact Or.inl h

theorem scanEnd_of_not_mem {ys : List MboxChar} (h : nl ∉ ys) : scanEnd ys = ys.length := by
  rw [scanEnd, if_neg]
  intro hlast
  exact h (List.mem_of_getLast? hlast)

/-- A newline with more behind it is passed, and the scan goes on there. -/
theorem scanEnd_append_nl_cons (pre : List MboxChar) (p : MboxChar) (ps : List MboxChar) :
    scanEnd (pre ++ nl :: p :: ps) = pre.length + 1 + scanEnd (p :: ps) := by
  have h : (pre ++ nl :: p :: ps).getLast? = (p :: ps).getLast? := by
    rw [List.getLast?_append]
    simp [List.getLast?_cons]
  simp only [scanEnd, h, List.length_append, List.length_cons]
  split <;> omega

/-- Reading the bytes at the first newline of the contents; `c2` and `c3` are the two
behind it, as far as they are read. -/
theorem canParseHeadersFrom_at_nl {xs rest pre post : List MboxChar} {off len : ℕ}
    {c2 c3 : MboxChar} (hoff : off < xs.length) (hlen : xs.length ≤ len)
    (hys : xs.drop off = pre ++ nl :: post)
    (hpre : nl ∉ pre) (h0 : nul ∉ pre) (hc2 : (post ++ nul :: rest)[0]? = some c2)
    (hc3 : c2 ≠ nul → (post ++ nul :: rest)[1]? = some c3) :
    canParseHeadersFrom (xs ++ nul :: rest) len off =
      if c2 = nul then ok (false, off + pre.length)
      else if c2 = nl then ok (true, off + pre.length + 2)
      else if c2 = cr ∧ c3 = nl then ok (true, off + pre.length + 3)
      else canParseHeadersFrom (xs ++ nul :: rest) len (off + pre.length + 1) := by
  have hdrop : (xs ++ nul :: rest).drop off = pre ++ nl :: (post ++ nul :: rest) := by
    rw [List.drop_append_of_le_length hoff.le, hys, List.append_assoc, List.cons_append]
  have hload : ∀ i c, (nl :: (post ++ nul :: rest))[i]? = some c →
      load (xs ++ nul :: rest) (off + pre.length + i) = ok c := by
    intro i c hi
    have hi' : (pre ++ nl :: (post ++ nul :: rest))[pre.length + i]? = some c := by
      rw [List.getElem?_append_right (by omega), Nat.add_sub_cancel_left, hi]
    rw [← hdrop, List.getElem?_drop, ← Nat.add_assoc] at hi'
    exact load_eq hi'
  have h1 : load (xs ++ nul :: rest) (off + pre.length) = ok nl := hload 0 nl rfl
  have h2 : load (xs ++ nul :: rest) (off + pre.length + 1) = ok c2 := hload 1 c2 hc2
  have hscan := scan_to_nl post rest hpre h0
  rw [List.append_assoc, List.cons_append] at hscan
  rw [canParseHeadersFrom, if_pos (lt_of_lt_of_le hoff hlen), hdrop, hscan]
  simp only [ok_bind, h1, h2, pure_eq]
  rw [if_neg (by decide)]
  by_cases h : c2 = nul
  · rw [if_pos h, if_pos h]
  · have h3 : load (xs ++ nul :: rest) (off + pre.length + 2) = ok c3 := hload 2 c3 (hc3 h)
    simp only [if_neg h, h3, ok_bind, true_and]

/-- Without a newline the scan runs into the terminator, and the end of the headers is not found. -/
theorem canParseHeadersFrom_no_nl {xs : List MboxChar} (rest : List MboxChar) (h0 : nul ∉ xs)
    {off len : ℕ} (hoff : off ≤ xs.length) (hlen : xs.length ≤ len) (hno : nl ∉ xs.drop off) :
    canParseHeadersFrom (xs ++ nul :: rest) len off = ok (false, xs.length) := by
  have h0' : nul ∉ xs.drop off := fun e => h0 (List.mem_of_mem_drop e)
  have hend : off + (xs.drop off).length = xs.length := by
    rw [List.length_drop, Nat.add_sub_cancel' hoff]
  rw [canParseHeadersFrom]
  split
  · rw [List.drop_append_of_le_length hoff, scan_to_nul hno h0', ok_bind, hend,
      load_append_length, ok_bind, if_pos rfl]
    rfl
  · obtain rfl : off = xs.length := by omega
    rfl

/-- **The scan for the end of the headers**, on what the contents have before a NUL. -/
theorem canParseHeadersFrom_spec {xs : List MboxChar} (rest : List MboxChar) (h0 : nul ∉ xs)
    {off len : ℕ} (hoff : off ≤ xs.length) (hlen : xs.length ≤ len) :
    canParseHeadersFrom (xs ++ nul :: rest) len off =
      ok (match headerEnd? (xs.drop off) with
        | some j => (true, off + j)
        | none => (false, off + scanEnd (xs.drop off))) := by
  -- by how much is left: the scan goes on behind a newline with nothing to end at
  generalize hm : xs.length - off = m
  induction m using Nat.strongRecOn generalizing off with
  | _ m ih =>
    rcases split_at_nl (xs.drop off) with hno | ⟨pre, post, hys, hpre⟩
    · rw [canParseHeadersFrom_no_nl rest h0 hoff hlen hno, headerEnd?_of_not_mem hno,
        scanEnd_of_not_mem hno, List.length_drop, Nat.add_sub_cancel' hoff]
    · have hlt : off < xs.length := by
        refine lt_of_not_ge fun hge => ?_
        rw [List.drop_eq_nil_of_le hge] at hys
        exact List.append_ne_nil_of_right_ne_nil pre (List.cons_ne_nil _ _) hys.symm
      have hsub : ∀ c ∈ pre ++ nl :: post, c ∈ xs := fun c hc => by
        rw [← hys] at hc
        exact List.mem_of_mem_drop hc
      have h0pre : nul ∉ pre := fun e => h0 (hsub _ (List.mem_append_left _ e))
      have hdrop : xs.drop (off + pre.length + 1) = post := by
        rw [← List.drop_drop, ← List.drop_drop, hys, List.drop_left]
        rfl
      have hyslen := congrArg List.length hys
      simp only [List.length_drop, List.length_append, List.length_cons] at hyslen
      rw [hys, headerEnd?_append_left hpre]
      cases post with
      | nil =>
        rw [canParseHeadersFrom_at_nl hlt hlen hys hpre h0pre rfl
          (show nul ≠ nul → _ = some nul from fun h => absurd rfl h), if_pos rfl]
        simp [headerEnd?, scanEnd]
      | cons c2 ps =>
        have hc2 : c2 ≠ nul := fun e => h0 (hsub _ (by simp [e]))
        obtain ⟨c3, hc3⟩ : ∃ c3, (ps ++ nul :: rest)[0]? = some c3 :=
          ⟨_, List.getElem?_eq_getElem (by rw [List.length_append, List.length_cons]; omega)⟩
        rw [canParseHeadersFrom_at_nl hlt hlen hys hpre h0pre rfl (fun _ => hc3), if_neg hc2]
        by_cases hnl : c2 = nl
        · subst hnl
          simp [headerEnd?_nl_nl, Nat.add_assoc, Nat.add_comm 2]
        · rw [if_neg hnl]
          by_cases hcr : c2 = cr ∧ c3 = nl
          · obtain ⟨rfl, rfl⟩ := hcr
            cases ps with
            | nil => exact absurd (Option.some.inj hc3) (by decide)
            | cons c3 ps =>
              obtain rfl : c3 = nl := by simpa using hc3
              simp [headerEnd?_nl_cr_nl, Nat.add_assoc, Nat.add_comm 3]
          · have hcr' : ¬ (c2 = cr ∧ ps.head? = some nl) := by
              rintro ⟨h1, h2⟩
              refine hcr ⟨h1, ?_⟩
              cases ps with
              | nil => cases h2
              | cons c3 ps =>
                obtain rfl : c3 = nl := by simpa using h2
                simpa using hc3.symm
            rw [if_neg hcr, ih (xs.length - (off + pre.length + 1)) (by omega) (by omega) rfl,
              hdrop, headerEnd?_nl_cons hnl hcr', scanEnd_append_nl_cons]
            rcases headerEnd? (c2 :: ps) with _ | j
            · simp only [Option.map_none]
              congr 2
              omega
            · simp only [Option.map_some]
              congr 2
              omega

/-! ## Windows on the text -/

/-- The end of the headers is behind two bytes at least, and inside the text. -/
theorem headerEnd?_le {l : List MboxChar} {k : ℕ} (h : headerEnd? l = some k) :
    2 ≤ k ∧ k ≤ l.length := by
  induction l generalizing k with
  | nil => cases h
  | cons c cs ih =>
    rw [headerEnd?] at h
    split at h
    · rename_i hp
      obtain rfl : 2 = k := by simpa using h
      exact ⟨le_refl 2, hp.length_le⟩
    · split at h
      · rename_i hp
        obtain rfl : 3 = k := by simpa using h
        exact ⟨by omega, hp.length_le⟩
      · obtain ⟨j, hj, rfl⟩ := Option.map_eq_some_iff.mp h
        have := ih hj
        simp only [List.length_cons]
        omega

/-- Text behind the end of the headers does not matter. -/
theorem headerEnd?_append {l : List MboxChar} {k : ℕ} (h : headerEnd? l = some k)
    (t : List MboxChar) : headerEnd? (l ++ t) = some k := by
  induction l generalizing k with
  | nil => cases h
  | cons c cs ih =>
    rw [headerEnd?] at h
    split at h
    · rename_i hp
      have hp' : [nl, nl] <+: c :: (cs ++ t) := hp.trans ⟨t, rfl⟩
      rw [List.cons_append, headerEnd?, if_pos hp', ← h]
    · rename_i hp
      split at h
      · rename_i hp'
        obtain rfl : 3 = k := by simpa using h
        obtain ⟨u, hu⟩ := hp'
        rw [← hu]
        exact headerEnd?_nl_cr_nl _
      · rename_i hp'
        obtain ⟨j, hj, rfl⟩ := Option.map_eq_some_iff.mp h
        have hlen := headerEnd?_le hj
        -- the rest of the list is long enough for both patterns to be decided
        have hpre : ∀ pat : List MboxChar, pat.length ≤ 3 → ¬ pat <+: c :: cs →
            ¬ pat <+: c :: (cs ++ t) := by
          intro pat hpat hnot hcon
          refine hnot (List.prefix_of_prefix_length_le hcon ⟨t, rfl⟩ ?_)
          simp only [List.length_cons]
          omega
        rw [List.cons_append, headerEnd?, if_neg (hpre _ (by simp) hp),
          if_neg (hpre _ (by simp) hp'), ih hj, Option.map_some]

/-- A window that ends in front of the end of the headers does not show one. -/
theorem headerEnd?_take_of_lt {l : List MboxChar} {k m : ℕ} (h : headerEnd? l = some k)
    (hm : m < k) : headerEnd? (l.take m) = none := by
  rcases hj : headerEnd? (l.take m) with _ | j
  · rfl
  · have hj' := headerEnd?_append hj (l.drop m)
    rw [List.take_append_drop, h] at hj'
    obtain rfl : k = j := by simpa using hj'
    have hle := (headerEnd?_le hj).2
    rw [List.length_take] at hle
    omega

/-- A window that holds the end of the headers shows it. -/
theorem headerEnd?_take_of_le {l : List MboxChar} {k m : ℕ} (h : headerEnd? l = some k)
    (hm : k ≤ m) : headerEnd? (l.take m) = some k := by
  induction l generalizing k m with
  | nil => cases h
  | cons c cs ih =>
    obtain ⟨m, rfl⟩ : ∃ j, m = j + 1 := ⟨m - 1, by have := headerEnd?_le h; omega⟩
    have hpre : ∀ pat : List MboxChar, pat.length ≤ k →
        (pat <+: c :: cs.take m ↔ pat <+: c :: cs) := by
      intro pat hpat
      have : pat <+: (c :: cs).take (m + 1) ↔ _ := List.prefix_take_iff
      rw [List.take_succ_cons] at this
      rw [this]
      exact and_iff_left (by omega)
    rw [List.take_succ_cons]
    rw [headerEnd?] at h ⊢
    split at h
    · rename_i hp
      obtain rfl : 2 = k := by simpa using h
      rw [if_pos ((hpre _ (by simp)).mpr hp)]
    · rename_i hp
      split at h
      · rename_i hp'
        obtain rfl : 3 = k := by simpa using h
        rw [if_neg (fun e => hp ((hpre _ (by simp)).mp e)), if_pos ((hpre _ (by simp)).mpr hp')]
      · rename_i hp'
        obtain ⟨j, hj, rfl⟩ := Option.map_eq_some_iff.mp h
        have hlen := headerEnd?_le hj
        rw [if_neg (fun e => hp ((hpre _ (by simp; omega)).mp e)),
          if_neg (fun e => hp' ((hpre _ (by simp; omega)).mp e)), ih hj (by omega),
          Option.map_some]

/-- The scan may start anywhere in front of an empty line ended by LF. -/
theorem headerEnd?_drop {l : List MboxChar} {k d : ℕ} (h : headerEnd? l = some k)
    (hlf : l[k - 2]? = some nl) (hd : d + 2 ≤ k) : headerEnd? (l.drop d) = some (k - d) := by
  induction d generalizing l k with
  | zero => simpa using h
  | succ d ih =>
    cases l with
    | nil => cases h
    | cons c cs =>
      rw [headerEnd?] at h
      split at h
      · have : 2 = k := by simpa using h
        omega
      · split at h
        · rename_i hp
          obtain ⟨t, ht⟩ := hp
          obtain rfl : 3 = k := by simpa using h
          simp only [List.cons_append, List.cons.injEq] at ht
          rw [← ht.2] at hlf
          exact absurd hlf (by simp; decide)
        · obtain ⟨j, hj, rfl⟩ := Option.map_eq_some_iff.mp h
          have hlen := headerEnd?_le hj
          rw [List.drop_succ_cons, ih hj ?_ (by omega)]
          · congr 1
            omega
          · obtain ⟨j, rfl⟩ : ∃ i, j = i + 2 := ⟨j - 2, by omega⟩
            simpa using hlf

end Libmbox2
