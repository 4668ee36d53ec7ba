import Libmbox2.Io

/-!
# Cutting a range out of a file (`delete-from-file/main.c`)

`fileRemoveFrom` copies what is behind the range down over it, one block after the other, and
cuts off what is left over behind. A block may be longer than the range, and then what is written
lies over what was read. It never reaches what is still to be read: in front of that there are
always as many bytes to spare as the range has (`RemoveCtx.At.step`).
-/

namespace Libmbox2

open CSem CSem.Exec

/-- `struct fileCtx`, with what is in the file for its descriptor. -/
structure FileCtx where
  file : List MboxChar
  fileSize : ℕ
  buflen : ℕ
  bufoff : ℕ
  buf : List MboxChar
  deriving DecidableEq, Repr

/-- Where the loop of `fileRemoveFrom` stands: the file, and the places that are written and read
next. -/
structure RemoveCtx where
  file : List MboxChar
  startOffset : ℕ
  endOffset : ℕ
  deriving DecidableEq, Repr

section Functions

variable (file : List MboxChar)

/-- What is written, and the file with it. Zeros are put between its end and an offset behind. -/
def pwriteRegular (bytes : List MboxChar) (offset : ℕ) : ℕ × List MboxChar :=
  (bytes.length, file.take offset ++ List.replicate (offset - file.length) 0 ++ bytes ++
    file.drop (offset + bytes.length))

/-- `ftruncate`: the file is cut, or filled up with zeros. -/
def ftruncate (size : ℕ) : List MboxChar :=
  file.take size ++ List.replicate (size - file.length) 0

/-- A regular file that can be opened and read. -/
def fileOpen : FileCtx where
  file := file
  fileSize := file.length
  buflen := file.length
  bufoff := 0
  buf := file ++ [nul]

/-- One iteration of `fileRemoveFrom`: a block is read behind the range and written in front.
`bufsiz` is `BUFSIZ`. -/
def removeStep (bufsiz : ℕ) (ctx : RemoveCtx) : Exec (RemoveCtx ⊕ RemoveCtx) :=
  match preadRegular ctx.file bufsiz ctx.endOffset with
  | some (b :: bs) =>
    let (wbytes, file) := pwriteRegular ctx.file (b :: bs) ctx.startOffset
    pure (.inl ⟨file, ctx.startOffset + wbytes, ctx.endOffset + (b :: bs).length⟩)
  | _ => pure (.inr ctx)

/-- `fileRemoveFrom`: the bytes from one place to another are taken out of a file, in place. -/
def fileRemoveFrom (bufsiz fuel : ℕ) (ctx : FileCtx) (startOffset endOffset : ℕ) :
    Exec FileCtx := do
  let size := sizeSub endOffset startOffset
  let newSize := sizeSub ctx.fileSize size
  let done ← loop (removeStep bufsiz) fuel ⟨ctx.file, startOffset, endOffset⟩
  pure { ctx with file := ftruncate done.file newSize }

end Functions

/-! ## The calls -/

/-- Bytes are written behind the first ones of a file. -/
theorem pwriteRegular_append (pre bytes rest : List MboxChar) :
    pwriteRegular (pre ++ rest) bytes pre.length =
      (bytes.length, pre ++ bytes ++ rest.drop bytes.length) := by
  rw [pwriteRegular, List.take_left, List.length_append,
    Nat.sub_eq_zero_of_le (Nat.le_add_right _ _), List.replicate_zero, List.append_nil,
    ← List.drop_drop, List.drop_left]

theorem ftruncate_append (pre rest : List MboxChar) : ftruncate (pre ++ rest) pre.length = pre := by
  rw [ftruncate, List.take_left, List.length_append, Nat.sub_eq_zero_of_le (Nat.le_add_right _ _),
    List.replicate_zero, List.append_nil]

/-! ## The loop -/

/-- `moved` has been copied down behind the first bytes of the file, and `left` is still to come.
Between them there are as many bytes as the range had. -/
structure RemoveCtx.At (front : List MboxChar) (width : ℕ) (ctx : RemoveCtx)
    (moved left : List MboxChar) : Prop where
  file : ∃ gap, gap.length = width ∧ ctx.file = front ++ moved ++ gap ++ left
  start : ctx.startOffset = (front ++ moved).length
  stop : ctx.endOffset = (front ++ moved).length + width

namespace RemoveCtx.At

variable {front moved left : List MboxChar} {width bufsiz : ℕ} {ctx : RemoveCtx}

/-- What is read is the beginning of what is left. -/
theorem pread (h : ctx.At front width moved left) (bufsiz : ℕ) :
    preadRegular ctx.file bufsiz ctx.endOffset = some (left.take bufsiz) := by
  obtain ⟨gap, hgap, hfile⟩ := h.file
  have hlen : ctx.endOffset = (front ++ moved ++ gap).length := by
    rw [h.stop, ← hgap, ← List.length_append]
  rw [preadRegular, hfile, hlen, List.drop_left]

theorem done (h : ctx.At front width moved []) : removeStep bufsiz ctx = ok (.inr ctx) := by
  rw [removeStep, h.pread, List.take_nil]
  rfl

/-- A block is copied. What it is written over is bytes to spare, and then bytes of its own. -/
theorem step (h : ctx.At front width moved left) (hpos : 0 < bufsiz) (hne : left ≠ []) :
    ∃ ctx', removeStep bufsiz ctx = ok (.inl ctx') ∧
      ctx'.At front width (moved ++ left.take bufsiz) (left.drop bufsiz) := by
  obtain ⟨gap, hgap, hfile⟩ := h.file
  obtain ⟨b, bs, hblock⟩ : ∃ b bs, left.take bufsiz = b :: bs := by
    apply List.exists_cons_of_ne_nil
    simp [hne, hpos.ne']
  have hleft : left = (b :: bs) ++ left.drop bufsiz := by
    rw [← hblock, List.take_append_drop]
  have hwrite : pwriteRegular ctx.file (b :: bs) ctx.startOffset =
      ((b :: bs).length,
        front ++ moved ++ (b :: bs) ++ (gap ++ (b :: bs)).drop (b :: bs).length ++
          left.drop bufsiz) := by
    have hspare : (gap ++ left).drop (b :: bs).length =
        (gap ++ (b :: bs)).drop (b :: bs).length ++ left.drop bufsiz := by
      rw [hleft, ← List.append_assoc, List.drop_append_of_le_length (by simp), ← hleft]
    rw [hfile, h.start, List.append_assoc _ gap, pwriteRegular_append, hspare]
    simp only [List.append_assoc]
  rw [removeStep, h.pread, hblock]
  simp only [hwrite]
  refine ⟨_, rfl, ⟨(gap ++ (b :: bs)).drop (b :: bs).length, ?_, ?_⟩, ?_, ?_⟩
  · rw [List.length_drop, List.length_append, hgap, Nat.add_sub_cancel]
  · simp only [List.append_assoc]
  · simp only [h.start, List.length_append]
    omega
  · simp only [h.stop, List.length_append]
    omega

/-- **The whole rest of the file is copied down**, block by block, each to where it belongs before
the next one is read. -/
theorem run (h : ctx.At front width moved left) (hpos : 0 < bufsiz) :
    ∃ ctx', LoopTo (fun _ => removeStep bufsiz) ctx ctx' ∧
      ctx'.At front width (moved ++ left) [] := by
  generalize hm : left.length = m
  induction m using Nat.strongRecOn generalizing ctx moved left with
  | _ m ih =>
    by_cases hne : left = []
    · subst hne
      refine ⟨ctx, LoopTo.done (Converges.const h.done), ?_⟩
      rwa [List.append_nil]
    · obtain ⟨ctx₁, hstep, h₁⟩ := h.step hpos hne
      have hlt : (left.drop bufsiz).length < m := by
        have hleft := List.length_pos_iff.2 hne
        rw [List.length_drop, ← hm]
        omega
      obtain ⟨ctx', hloop, h'⟩ := ih _ hlt h₁ rfl
      refine ⟨ctx', LoopTo.step (Converges.const hstep) hloop, ?_⟩
      rwa [List.append_assoc, List.take_append_drop] at h'

end RemoveCtx.At

/-! ## The file -/

section File

variable {file : List MboxChar} {startOffset endOffset bufsiz : ℕ}

/-- At first nothing was copied, and all behind the range is left. -/
theorem RemoveCtx.At.initial (hstart : startOffset ≤ endOffset) (hend : endOffset ≤ file.length) :
    RemoveCtx.At (file.take startOffset) (endOffset - startOffset) ⟨file, startOffset, endOffset⟩ []
      (file.drop endOffset) := by
  have hlen : (file.take startOffset).length = startOffset :=
    List.length_take_of_le (hstart.trans hend)
  refine ⟨⟨(file.drop startOffset).take (endOffset - startOffset), ?_, ?_⟩, ?_, ?_⟩
  · rw [List.length_take, List.length_drop]
    omega
  · have hdrop : file.drop endOffset =
        (file.drop startOffset).drop (endOffset - startOffset) := by
      rw [List.drop_drop, Nat.add_sub_cancel' hstart]
    rw [hdrop, List.append_nil, List.append_assoc, List.take_append_drop, List.take_append_drop]
  · rw [List.append_nil, hlen]
  · rw [List.append_nil, hlen, Nat.add_sub_cancel' hstart]

/-- **A range is cut out of a file**: what is in front of it and what is behind it is left, one
after the other, however long a block is. -/
theorem fileRemoveFrom_cuts (hpos : 0 < bufsiz) (hstart : startOffset ≤ endOffset)
    (hend : endOffset ≤ file.length) :
    Converges (fun n => fileRemoveFrom bufsiz n (fileOpen file) startOffset endOffset)
      { fileOpen file with file := file.take startOffset ++ file.drop endOffset } := by
  obtain ⟨ctx, hloop, hat⟩ := (RemoveCtx.At.initial hstart hend).run hpos
  rw [List.nil_append] at hat
  obtain ⟨gap, hgap, hfile⟩ := hat.file
  have hsize : sizeSub file.length (sizeSub endOffset startOffset) =
      (file.take startOffset ++ file.drop endOffset).length := by
    rw [sizeSub_of_le hstart, sizeSub_of_le (by omega), List.length_append,
      List.length_take_of_le (hstart.trans hend), List.length_drop]
    omega
  have hcut : ftruncate ctx.file (sizeSub file.length (sizeSub endOffset startOffset)) =
      file.take startOffset ++ file.drop endOffset := by
    rw [hfile, hsize, List.append_nil]
    exact ftruncate_append _ _
  refine Converges.bind hloop.converges (Converges.const ?_)
  rw [← hcut]
  rfl

/-- The range has two bytes and a block four, so a block is written over part of what it was read
from. -/
theorem fileRemoveFrom_cuts_overlapping :
    Converges (fun n => fileRemoveFrom 4 n (fileOpen [1, 2, 3, 4, 5, 6, 7, 8, 9]) 1 3)
      { fileOpen [1, 2, 3, 4, 5, 6, 7, 8, 9] with file := [1, 4, 5, 6, 7, 8, 9] } :=
  fileRemoveFrom_cuts (by decide) (by decide) (by decide)

end File

end Libmbox2
