/-
Module: Zftl.Legacy.BdiEngine
Layer: Legacy
Purpose: Base-delta-immediate compression of a 64-byte cache line. A `DeltaForm` is one of the six base-delta
  patterns with the arithmetic of its layout; `compress` tries the patterns in the order of the source.
  Decompression under the pattern that was chosen restores the line from any buffer that starts with the
  compressed bytes.
Imports: Zftl.Lib.BaseDelta
Trusted boundary: human-reviewed translation of bdi_engine.hpp and bdi_engine.cpp; signed arithmetic wraps
Main exports: Line, BDIPattern, CompressedLine, DeltaForm, compress, decompressRaw, decompress, compress_cases,
  decompressRaw_compress
Open obligations: none
-/
import Zftl.Lib.BaseDelta

namespace Zftl.Legacy

open BaseDelta

/-- A cache line of `CACHE_LINE_SIZE` bytes, byte 0 in the low bits. -/
abbrev Line := BitVec 512

inductive BDIPattern where
  | zeros
  | repWord
  | base8Delta1
  | base8Delta2
  | base8Delta4
  | base4Delta1
  | base4Delta2
  | base2Delta1
  | uncompressed
deriving Repr, DecidableEq

namespace BDIPattern

/-- The values of the enumerators. -/
def tag : BDIPattern → BitVec 8
  | zeros => 0x0
  | repWord => 0x1
  | base8Delta1 => 0x2
  | base8Delta2 => 0x3
  | base8Delta4 => 0x4
  | base4Delta1 => 0x5
  | base4Delta2 => 0x6
  | base2Delta1 => 0x7
  | uncompressed => 0xF

/-- `static_cast<BDIPattern>`; a value without an enumerator takes the `default` of a `switch`. -/
def ofTag (value : BitVec 8) : Option BDIPattern :=
  match value.toNat with
  | 0x0 => some zeros
  | 0x1 => some repWord
  | 0x2 => some base8Delta1
  | 0x3 => some base8Delta2
  | 0x4 => some base8Delta4
  | 0x5 => some base4Delta1
  | 0x6 => some base4Delta2
  | 0x7 => some base2Delta1
  | 0xF => some uncompressed
  | _ => none

end BDIPattern

/-- A compressed line: the tag and the payload in an array of 65 bytes. -/
structure CompressedLine where
  pattern : BDIPattern := .uncompressed
  compressedSize : Nat := 64
  data : BitVec 520 := 0

/-- Byte `k` of the array. -/
def CompressedLine.byte (c : CompressedLine) (k : Nat) : BitVec 8 := field 8 c.data k

/-- A base-delta pattern: the widths of base and delta in bits, the number of words of a line, and the
    compressed size in bytes, tag included. -/
structure DeltaForm where
  pattern : BDIPattern
  base : Nat
  delta : Nat
  words : Nat
  size : Nat
  positive : 0 < delta
  narrow : delta ≤ base
  whole : 512 = words * base
  size_eq : 8 * size = 8 + (base + (words - 1) * delta)
  size_le : size ≤ 64

namespace BDIEngine

def base8Delta1 : DeltaForm :=
  { pattern := .base8Delta1, base := 64, delta := 8, words := 8, size := 16, positive := by decide,
    narrow := by decide, whole := rfl, size_eq := rfl, size_le := by decide }

def base4Delta1 : DeltaForm :=
  { pattern := .base4Delta1, base := 32, delta := 8, words := 16, size := 20, positive := by decide,
    narrow := by decide, whole := rfl, size_eq := rfl, size_le := by decide }

def base8Delta2 : DeltaForm :=
  { pattern := .base8Delta2, base := 64, delta := 16, words := 8, size := 23, positive := by decide,
    narrow := by decide, whole := rfl, size_eq := rfl, size_le := by decide }

def base2Delta1 : DeltaForm :=
  { pattern := .base2Delta1, base := 16, delta := 8, words := 32, size := 34, positive := by decide,
    narrow := by decide, whole := rfl, size_eq := rfl, size_le := by decide }

def base4Delta2 : DeltaForm :=
  { pattern := .base4Delta2, base := 32, delta := 16, words := 16, size := 35, positive := by decide,
    narrow := by decide, whole := rfl, size_eq := rfl, size_le := by decide }

def base8Delta4 : DeltaForm :=
  { pattern := .base8Delta4, base := 64, delta := 32, words := 8, size := 37, positive := by decide,
    narrow := by decide, whole := rfl, size_eq := rfl, size_le := by decide }

end BDIEngine

namespace DeltaForm

variable (f : DeltaForm)

/-- The loop over the words: every difference from the first one is a signed number of the delta's width. -/
def Fits (src : Line) : Prop := DeltasFit f.base f.delta f.words src

instance (src : Line) : Decidable (f.Fits src) :=
  inferInstanceAs (Decidable (DeltasFit f.base f.delta f.words src))

/-- The bytes behind the tag: the first word, and the low bits of every difference. -/
def payload (src : Line) : BitVec 512 :=
  layout 512 f.words (field f.base src 0) (BaseDelta.delta f.base f.delta src)

def encode (src : Line) : CompressedLine :=
  { pattern := f.pattern, compressedSize := f.size, data := f.payload src ++ f.pattern.tag }

/-- The line a payload stands for. -/
def line (payload : BitVec 512) : Line := pack 512 (deltaWord f.base f.delta payload)

end DeltaForm

namespace BDIEngine

/-- `GetQuantizedSlotSize`. -/
def getQuantizedSlotSize (rawCompressedSize : Nat) : Nat :=
  if rawCompressedSize ≤ 16 then 16
  else if rawCompressedSize ≤ 32 then 32
  else if rawCompressedSize ≤ 48 then 48
  else 64

def AllZero (src : Line) : Prop := ∀ i, i < 8 → field 64 src i = 0

instance (src : Line) : Decidable (AllZero src) :=
  inferInstanceAs (Decidable (∀ i, i < 8 → field 64 src i = 0))

def Repeated (src : Line) : Prop := ∀ i, i < 8 → 1 ≤ i → field 64 src i = field 64 src 0

instance (src : Line) : Decidable (Repeated src) :=
  inferInstanceAs (Decidable (∀ i, i < 8 → 1 ≤ i → field 64 src i = field 64 src 0))

/-- `Compress`. -/
def compress (src : Line) : CompressedLine :=
  if AllZero src then
    { pattern := .zeros, compressedSize := 1, data := (0 : BitVec 512) ++ BDIPattern.zeros.tag }
  else if Repeated src then
    { pattern := .repWord, compressedSize := 9,
      data := (field 64 src 0).setWidth 512 ++ BDIPattern.repWord.tag }
  else if base8Delta1.Fits src then base8Delta1.encode src
  else if base4Delta1.Fits src then base4Delta1.encode src
  else if base8Delta2.Fits src then base8Delta2.encode src
  else if base2Delta1.Fits src then base2Delta1.encode src
  else if base4Delta2.Fits src then base4Delta2.encode src
  else if base8Delta4.Fits src then base8Delta4.encode src
  else
    -- the raw bytes overwrite the tag that was put in byte 0
    { pattern := .uncompressed, compressedSize := 64, data := src.setWidth 520 }

/-- The 64 bytes of a buffer behind its first one. -/
def bufferPayload (compBuffer : Nat → BitVec 8) : BitVec 512 := pack 512 fun k => compBuffer (k + 1)

/-- A base-delta case of the `switch`. -/
def decompressForm (f : DeltaForm) (compBuffer : Nat → BitVec 8) (compSize : Nat) : Option Line :=
  if compSize < f.size then none else some (f.line (bufferPayload compBuffer))

/-- `DecompressRaw`: the line written to the destination, or nothing where the source returns `false`. The explicit
    pattern is any value of the enumeration's type. -/
def decompressRaw (compBuffer : Nat → BitVec 8) (compSize : Nat) (explicitPattern : Option (BitVec 8)) :
    Option Line :=
  if compSize = 0 then none
  else
    match BDIPattern.ofTag (explicitPattern.getD (compBuffer 0)) with
    | some .zeros => some 0
    | some .repWord =>
      if compSize < 9 then none
      else some (pack 512 fun _ => (bufferPayload compBuffer).extractLsb' 0 64)
    | some .base8Delta1 => decompressForm base8Delta1 compBuffer compSize
    | some .base8Delta2 => decompressForm base8Delta2 compBuffer compSize
    | some .base8Delta4 => decompressForm base8Delta4 compBuffer compSize
    | some .base4Delta1 => decompressForm base4Delta1 compBuffer compSize
    | some .base4Delta2 => decompressForm base4Delta2 compBuffer compSize
    | some .base2Delta1 => decompressForm base2Delta1 compBuffer compSize
    | some .uncompressed => some (pack 512 compBuffer)
    | none => none

/-- `Decompress`. -/
def decompress (comp : CompressedLine) : Option Line :=
  decompressRaw comp.byte comp.compressedSize (some comp.pattern.tag)

/-! ### Round trip -/

/-- The buffer starts with the compressed bytes. -/
def Holds (compBuffer : Nat → BitVec 8) (comp : CompressedLine) : Prop :=
  ∀ k, k < comp.compressedSize → compBuffer k = comp.byte k

theorem allZero_iff {src : Line} : AllZero src ↔ src = 0 := by
  constructor
  · intro zero
    refine ext_field (w := 64) (n := 8) (by decide) (by decide) fun i below => ?_
    rw [zero i below]
    exact (BitVec.extractLsb'_zero).symm
  · rintro rfl i -
    exact BitVec.extractLsb'_zero

/-- Behind a tag the buffer holds the payload, as far as the compressed bytes go. -/
theorem getLsbD_bufferPayload {compBuffer : Nat → BitVec 8} {payload : BitVec 512} {tag : BitVec 8}
    {size j : Nat} (holds : ∀ k, k < size → compBuffer k = field 8 (payload ++ tag) k)
    (inside : j + 8 < 8 * size) (below : j < 512) :
    (bufferPayload compBuffer).getLsbD j = payload.getLsbD j := by
  rw [bufferPayload, getLsbD_pack _ below, holds (j / 8 + 1) (by omega), getLsbD_field,
    show (j / 8 + 1) * 8 + j % 8 = j + 8 by omega, BitVec.getLsbD_append]
  simp [Nat.mod_lt]

theorem decompressForm_encode {f : DeltaForm} {src : Line} {compBuffer : Nat → BitVec 8}
    {compSize : Nat} (fits : f.Fits src) (holds : Holds compBuffer (f.encode src))
    (room : f.size ≤ compSize) : decompressForm f compBuffer compSize = some src := by
  have size := f.size_eq
  have limit := f.size_le
  have words : ∀ i, i < f.words → deltaWord f.base f.delta (bufferPayload compBuffer) i =
      deltaWord f.base f.delta (f.payload src) i := fun i below =>
    deltaWord_congr below fun j inside =>
      getLsbD_bufferPayload holds (by change _ < 8 * f.size; omega) (by omega)
  have wide : 0 < f.base := Nat.lt_of_lt_of_le f.positive f.narrow
  have restored : f.line (bufferPayload compBuffer) = src :=
    (pack_congr wide (Nat.le_of_eq f.whole) words).trans
      (pack_layout f.positive f.narrow f.whole (by omega) fits)
  rw [decompressForm, if_neg (by omega), restored]

/-- A base-delta pattern is decompressed by its case of the `switch`. -/
theorem decompressRaw_encode {f : DeltaForm} {src : Line} {compBuffer : Nat → BitVec 8}
    {compSize : Nat}
    (dispatch : decompressRaw compBuffer compSize (some f.pattern.tag) =
      if compSize = 0 then none else decompressForm f compBuffer compSize)
    (fits : f.Fits src) (holds : Holds compBuffer (f.encode src)) (room : f.size ≤ compSize) :
    decompressRaw compBuffer compSize (some f.pattern.tag) = some src := by
  have size := f.size_eq
  rw [dispatch, if_neg (by omega), decompressForm_encode fits holds room]

/-- A repeated line is restored from its first word. -/
theorem pack_repeated {src : Line} (rep : Repeated src) : pack 512 (fun _ => field 64 src 0) = src := by
  refine ext_field (w := 64) (n := 8) (by decide) (by decide) fun i below => ?_
  rw [field_pack _ (by omega)]
  by_cases first : i = 0
  · rw [first]
  · exact (rep i below (by omega)).symm

theorem pack_field_eight (src : Line) : pack 512 (field 8 src) = src :=
  ext_field (w := 8) (n := 64) (by decide) (by decide) fun i below => field_pack _ (by omega)

/-- Under the pattern that was chosen, any buffer that starts with the compressed bytes is decompressed to the
    line. -/
theorem decompressRaw_compress {src : Line} {compBuffer : Nat → BitVec 8} {compSize : Nat}
    (holds : Holds compBuffer (compress src)) (room : (compress src).compressedSize ≤ compSize) :
    decompressRaw compBuffer compSize (some (compress src).pattern.tag) = some src := by
  revert holds room
  fun_cases compress src with
  | case1 zero =>
    intro holds room
    have some_bytes : compSize ≠ 0 := by change 1 ≤ compSize at room; omega
    rw [decompressRaw, if_neg some_bytes, allZero_iff.mp zero]
    rfl
  | case2 _ rep =>
    intro holds room
    change 9 ≤ compSize at room
    have base : (bufferPayload compBuffer).extractLsb' 0 64 = field 64 src 0 := by
      apply BitVec.eq_of_getLsbD_eq
      intro j inside
      have inBuffer : 0 + j + 8 < 8 * 9 := by omega
      rw [BitVec.getLsbD_extractLsb', getLsbD_bufferPayload holds inBuffer (by omega),
        BitVec.getLsbD_setWidth]
      simp [inside]
      omega
    rw [decompressRaw, if_neg (by omega)]
    change (if compSize < 9 then none else some _) = some src
    rw [if_neg (by omega), base, pack_repeated rep]
  | case3 _ _ fits => exact decompressRaw_encode rfl fits
  | case4 _ _ _ fits => exact decompressRaw_encode rfl fits
  | case5 _ _ _ _ fits => exact decompressRaw_encode rfl fits
  | case6 _ _ _ _ _ fits => exact decompressRaw_encode rfl fits
  | case7 _ _ _ _ _ _ fits => exact decompressRaw_encode rfl fits
  | case8 _ _ _ _ _ _ _ fits => exact decompressRaw_encode rfl fits
  | case9 =>
    intro holds room
    have some_bytes : compSize ≠ 0 := by change 64 ≤ compSize at room; omega
    have bytes : ∀ k, k < 64 → compBuffer k = field 8 src k := fun k below => by
      rw [holds k below]
      apply BitVec.eq_of_getLsbD_eq
      intro j inside
      rw [CompressedLine.byte, getLsbD_field, getLsbD_field, BitVec.getLsbD_setWidth]
      simp only [show k * 8 + j < 520 by omega, decide_true, Bool.true_and]
    rw [decompressRaw, if_neg some_bytes]
    change some (pack 512 compBuffer) = some src
    rw [pack_congr (n := 64) (by decide) (by decide) bytes, pack_field_eight]

/-- A compressed line has between one and 64 bytes. -/
theorem compressedSize_bounds (src : Line) :
    1 ≤ (compress src).compressedSize ∧ (compress src).compressedSize ≤ 64 := by
  have form (f : DeltaForm) : 1 ≤ (f.encode src).compressedSize ∧ (f.encode src).compressedSize ≤ 64 := by
    have size := f.size_eq
    have limit := f.size_le
    change 1 ≤ f.size ∧ f.size ≤ 64
    omega
  fun_cases compress src with
  | case1 => exact (show 1 ≤ 1 ∧ 1 ≤ 64 by decide)
  | case2 => exact (show 1 ≤ 9 ∧ 9 ≤ 64 by decide)
  | case9 => exact (show 1 ≤ 64 ∧ 64 ≤ 64 by decide)
  | _ => exact form _

/-- Only the zero line is compressed to the pattern of zeros. -/
theorem eq_zero_of_pattern {src : Line} (zeros : (compress src).pattern = .zeros) : src = 0 := by
  revert zeros
  fun_cases compress src with
  | case1 zero => exact fun _ => allZero_iff.mp zero
  | _ => exact nofun

end BDIEngine

end Zftl.Legacy
