import Libmbox2.Mime

/-!
# What `mboxBufIsMimeEncoded` lets through

The decoders take ten and then two bytes off the length, in `size_t`, of whatever the guard
accepts. The guard compares the first ten bytes and the last two, and these may share one:
`=?utf-8?Q?=` is accepted (`overlapped_accepted`), and its payload is 2^64 - 1 bytes long. No
other content is wrong in this way.
-/

namespace Libmbox2

open CSem CSem.Exec

/-- `"=?utf-8?Q?="`, in which the prefix and the suffix share a byte. -/
def overlapped : List MboxChar := str "=?utf-8?Q?="

/-- The length of the payload, as both decoders compute it. -/
def payloadLen (buf : MboxBuf) : ℕ := sizeSub (sizeSub buf.len 10) 2

/-- The payload lies in the buffer, between the prefix and the suffix. -/
structure PayloadInside (buf : MboxBuf) : Prop where
  /-- the prefix and the suffix do not overlap -/
  apart : 12 ≤ buf.len
  /-- the length does not wrap around -/
  size : payloadLen buf + 12 = buf.len
  inside : 10 + payloadLen buf ≤ buf.len
  allocated : buf.len ≤ buf.data.length
  /-- the decoding in place moves these bytes -/
  moved : ∃ buf', mboxBufSlice buf 10 0 (payloadLen buf) = ok buf'

/-- What is accepted has its payload in the buffer, and the decoder that copies it reads nothing
else. -/
def GuardProtects (fill : ℕ → MboxChar) (buf : MboxBuf) : Prop :=
  mboxBufIsMimeEncoded buf = ok true →
    PayloadInside buf ∧ mboxBufDecodeMimeEncoded fill buf ≠ fault

/-- What the guard compares with: the prefix is in front of the block, and the suffix at the end of
the contents. -/
structure Delimited (buf : MboxBuf) : Prop where
  len : 2 ≤ buf.len
  front : mimePrefix <+: buf.data
  back : mimeSuffix <+: buf.data.drop (buf.len - 2)

section Guard

variable {fill : ℕ → MboxChar} {buf : MboxBuf}

/-- **The guard accepts** what is delimited, and nothing else. -/
theorem isMimeEncoded_iff : mboxBufIsMimeEncoded buf = ok true ↔ Delimited buf := by
  constructor
  · intro h
    obtain ⟨found, hfound, hrest⟩ := bind_eq_ok h
    rw [mboxBufIsMimeEncoded_match hfound] at h
    cases found with
    | false => cases h
    | true =>
      rw [if_pos rfl] at h
      split at h
      · cases h
      · next hlen => exact ⟨Nat.not_lt.mp hlen, matchAt_eq_true.mp hfound, matchAt_eq_true.mp h⟩
  · intro h
    rw [mboxBufIsMimeEncoded_match (matchAt_eq_true.mpr h.front), if_pos rfl,
      if_neg (Nat.not_lt.mpr h.len), matchAt_eq_true.mpr h.back]

/-- The suffix begins nowhere in the prefix but at its last byte. -/
theorem suffix_in_prefix {tail : List MboxChar} {k : ℕ} (hk : k < 10)
    (h : mimeSuffix <+: (mimePrefix ++ tail).drop k) :
    k = 9 ∧ overlapped <+: mimePrefix ++ tail := by
  have hten : mimePrefix.length = 10 := rfl
  have htwo : mimeSuffix.length = 2 := rfl
  rw [List.drop_append_of_le_length (hten ▸ hk.le)] at h
  rcases Nat.lt_succ_iff_lt_or_eq.mp hk with hlt | rfl
  · have hnone : ∀ k < 9, ¬ mimeSuffix <+: mimePrefix.drop k := by decide
    refine absurd (List.prefix_of_prefix_length_le h (List.prefix_append ..) ?_) (hnone k hlt)
    rw [List.length_drop, hten, htwo]
    omega
  · refine ⟨rfl, ?_⟩
    have hlast : mimePrefix.drop 9 = [63] := rfl
    have hparts : mimeSuffix = [63] ++ [61] ∧ overlapped = mimePrefix ++ [61] := ⟨rfl, rfl⟩
    rw [hlast, hparts.1, List.prefix_append_right_inj] at h
    rw [hparts.2, List.prefix_append_right_inj]
    exact h

/-- A delimited buffer has twelve bytes, or eleven where the prefix and the suffix overlap. -/
theorem Delimited.twelve_le_or (h : Delimited buf) :
    12 ≤ buf.len ∨ buf.len = 11 ∧ overlapped <+: buf.data := by
  obtain ⟨tail, htail⟩ := h.front
  rcases Nat.lt_or_ge buf.len 12 with hlt | hle
  · have hback := h.back
    rw [← htail] at hback ⊢
    obtain ⟨hnine, hover⟩ := suffix_in_prefix (Nat.sub_lt_right_of_lt_add h.len hlt) hback
    exact Or.inr ⟨Nat.eq_add_of_sub_eq h.len hnine, hover⟩
  · exact Or.inl hle

theorem Delimited.allocated (h : Delimited buf) : buf.len ≤ buf.data.length := by
  have hback := h.back.length_le
  have htwo : mimeSuffix.length = 2 := rfl
  rw [htwo, List.length_drop] at hback
  have hlen := h.len
  omega

theorem payloadLen_of_le (h : 12 ≤ buf.len) : payloadLen buf = buf.len - 12 := by
  have hten : 10 ≤ buf.len := Nat.le_trans (Nat.le_add_right 10 2) h
  rw [payloadLen, sizeSub_of_le hten, sizeSub_of_le (Nat.le_sub_of_add_le' h), Nat.sub_sub]

/-- Bytes of the block are moved to its front. -/
theorem mboxBufSlice_inside {src size : ℕ} (h : src + size < buf.data.length) :
    ∃ buf', mboxBufSlice buf src 0 size = ok buf' := by
  have hload : loadBytes buf.data src size = ok ((buf.data.drop src).take size) := if_pos h.le
  have hbytes : ((buf.data.drop src).take size).length = size := by
    rw [List.length_take, List.length_drop]
    omega
  have hfits : 0 + ((buf.data.drop src).take size).length ≤ buf.data.length := by omega
  obtain ⟨d₁, hd₁, hlen₁⟩ := storeBytes_of_le hfits
  obtain ⟨d₂, hd₂, -⟩ := store_of_lt (d := d₁) (i := size) (by omega) nul
  exact ⟨_, by rw [mboxBufSlice, hload, ok_bind, hd₁, ok_bind, hd₂, ok_bind, pure_eq]⟩

/-- **The payload is inside** the buffer unless the two ends overlap, where its length wraps
around. -/
theorem Delimited.payloadInside_iff (h : Delimited buf) :
    PayloadInside buf ↔ ¬ (buf.len = 11 ∧ overlapped <+: buf.data) := by
  constructor
  · intro hinside hover
    have hapart := hinside.apart
    omega
  · intro hover
    have hapart : 12 ≤ buf.len := h.twelve_le_or.resolve_right hover
    have hsize := payloadLen_of_le hapart
    have halloc := h.allocated
    exact ⟨hapart, by omega, by omega, halloc, mboxBufSlice_inside (by omega)⟩

/-- The other decoder takes the bytes from behind the buffer. -/
theorem mboxBufDecodeMimeEncoded_ne_fault_iff :
    mboxBufDecodeMimeEncoded fill buf ≠ fault ↔ payloadLen buf = 0 := by
  rw [mboxBufDecodeMimeEncoded, ← payloadLen]
  by_cases hsize : payloadLen buf = 0
  · obtain ⟨d, hd, -⟩ := store_of_lt (d := (mboxBufAlloc fill 512).data) (i := 0)
      (by rw [mboxBufAlloc_data_length]; exact Nat.succ_pos _) nul
    rw [if_neg (not_not.mpr hsize), mboxBufSetLen, hd]
    refine ⟨fun _ => hsize, fun _ h => ?_⟩
    cases h
  · rw [if_pos hsize]
    exact ⟨fun h => absurd rfl h, fun h => absurd h hsize⟩

/-- The overlapping ends are accepted. -/
theorem Delimited.of_overlapped (hlen : buf.len = 11) (h : overlapped <+: buf.data) :
    Delimited buf := by
  have hfront : mimePrefix <+: overlapped := by decide
  have hback : overlapped.drop 9 = mimeSuffix := rfl
  refine ⟨?_, hfront.trans h, ?_⟩
  · rw [hlen]
    exact Nat.le_add_left 2 9
  · rw [hlen, ← hback]
    exact h.drop 9

/-- **The guard protects the payload** of everything but `=?utf-8?Q?=`; and it protects both
decoders where it rejects or nothing is encoded. -/
theorem guardProtects_iff (fill : ℕ → MboxChar) (buf : MboxBuf) :
    ((mboxBufIsMimeEncoded buf = ok true → PayloadInside buf) ↔
      ¬ (buf.len = 11 ∧ overlapped <+: buf.data)) ∧
    (GuardProtects fill buf ↔ ¬ Delimited buf ∨ buf.len = 12) := by
  constructor
  · rw [isMimeEncoded_iff]
    constructor
    · rintro hprotects ⟨hlen, hover⟩
      have hinside := hprotects (.of_overlapped hlen hover)
      have hapart := hinside.apart
      rw [hlen] at hapart
      exact Nat.not_succ_le_self 11 hapart
    · intro hover hdelimited
      exact hdelimited.payloadInside_iff.mpr hover
  · rw [GuardProtects, isMimeEncoded_iff, mboxBufDecodeMimeEncoded_ne_fault_iff]
    constructor
    · intro hprotects
      refine or_iff_not_imp_left.mpr fun hdelimited => ?_
      obtain ⟨hinside, hnothing⟩ := hprotects (not_not.mp hdelimited)
      rw [← hinside.size, hnothing]
    · rintro (hrejects | hlen) hdelimited
      · exact absurd hdelimited hrejects
      · have hsize : payloadLen buf = 0 := by
          rw [payloadLen_of_le hlen.ge, hlen]
        refine ⟨hdelimited.payloadInside_iff.mpr fun hover => ?_, hsize⟩
        rw [hlen] at hover
        exact absurd hover.1 (Nat.succ_ne_self 11)

/-- Eleven bytes are accepted, of which the payload has `2^64 - 1`. -/
theorem overlapped_accepted :
    ¬ ∀ buf : MboxBuf, mboxBufIsMimeEncoded buf = ok true → PayloadInside buf := by
  intro hall
  have hinside := hall ⟨overlapped ++ [nul], 0, 11, 12⟩ rfl
  exact absurd hinside.apart (by decide)

end Guard

end Libmbox2
