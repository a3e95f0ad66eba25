/-
Module: Zftl.Controller.Lz4Compressor
Layer: Controller
Purpose: In-line compression of a 4 KB host block. The vendored LZ4 library is a parameter, the structure
  `Lz4` of its two entry points; `Lz4.RoundTrips` is what the controller relies on. `compress` classifies
  a block as all-zero, compressed, or raw; the three `compress_` lemmas say what it returns in each class.
Imports: Zftl.Flash.FlashModel
Trusted boundary: human-reviewed translation of lz4_compressor.hpp and lz4_compressor.cpp
Main exports: Lz4, Lz4.RoundTrips, CompressedBlock, compress, decompress, compress_half, compress_full,
  constantLz4
Open obligations: none
-/
import Zftl.Flash.FlashModel

namespace Zftl

/-- The entry points of the vendored LZ4 library. `compressDefault src` is the return value of
    `LZ4_compress_default` on a 4096-byte source and a zeroed 4096-byte destination, with the destination
    afterwards; `decompressSafe src dest` is `LZ4_decompress_safe` on exactly the bytes `src`, with a
    destination of 4096 bytes. -/
structure Lz4 where
  compressDefault : Page → Int × Page
  decompressSafe : List UInt8 → Page → Int × Page

/-- The documented behaviour of LZ4: a compression that fits returns the number of bytes it wrote, and
    decompressing exactly those bytes restores the source. -/
structure Lz4.RoundTrips (lz4 : Lz4) : Prop where
  size_le : ∀ src, (lz4.compressDefault src).1 ≤ flashPageSize
  restores : ∀ src dest, 0 < (lz4.compressDefault src).1 →
    lz4.decompressSafe
      ((lz4.compressDefault src).2.slice 0 (lz4.compressDefault src).1.toNat) dest =
        ((flashPageSize : Int), src)

/-- Bytes in one half of a physical page. -/
def halfPageSize : Nat := 2048

inductive SlotAllocation where
  | sparseZero
  | slot1kb
  | slot2kb
  | slot3kb
  | full4kb
deriving Repr, DecidableEq

/-- Result of a 4 KB block compression; `compressedSize` is a `uint16_t`. -/
structure CompressedBlock where
  isZeroBlock : Bool := false
  isCompressed : Bool := false
  compressedSize : Nat := flashPageSize
  slot : SlotAllocation := .full4kb
  data : Page := Buffer.fill flashPageSize 0

namespace Lz4Compressor

/-- `QuantizeSlot`. -/
def quantizeSlot (bytes : Nat) (isZero : Bool) : SlotAllocation :=
  if isZero || bytes = 0 then .sparseZero
  else if bytes ≤ 1024 then .slot1kb
  else if bytes ≤ 2048 then .slot2kb
  else if bytes ≤ 3072 then .slot3kb
  else .full4kb

/-- Byte `j` of a block. -/
def byteAt (src : Page) (j : Nat) : UInt8 := if inside : j < flashPageSize then src ⟨j, inside⟩ else 0

/-- The little-endian value of a list of bytes. -/
def littleEndian : List UInt8 → Nat
  | [] => 0
  | b :: bs => b.toNat + 256 * littleEndian bs

/-- `u64_ptr[i]`. -/
def u64At (src : Page) (i : Nat) : Nat :=
  littleEndian ((List.range 8).map fun k => byteAt src (8 * i + k))

/-- The loop over the 512 words of a block. -/
def allZeros (src : Page) : Bool := (List.range 512).all fun i => u64At src i == 0

/-- `LZ4Compressor::Compress`. A compressed size of 3072 bytes or more is stored raw. -/
def compress (lz4 : Lz4) (src4kb : Option Page) : CompressedBlock :=
  match src4kb with
  | none => {}
  | some src =>
      if allZeros src then
        { isZeroBlock := true, isCompressed := true, compressedSize := 0, slot := .sparseZero }
      else
        let (compSize, data) := lz4.compressDefault src
        if compSize ≤ 0 ∨ compSize ≥ 3072 then
          { isCompressed := false, compressedSize := flashPageSize, slot := .full4kb, data := src }
        else
          let size := compSize.toNat % 2 ^ 16
          { isCompressed := true, compressedSize := size, slot := quantizeSlot size false, data := data }

/-- `LZ4Compressor::Decompress`: the returned flag and the destination afterwards. -/
def decompress (lz4 : Lz4) (comp : CompressedBlock) (dest : Page) : Bool × Page :=
  if comp.isZeroBlock then (true, Buffer.fill flashPageSize 0)
  else if comp.isCompressed then
    let (decompSize, dest') := lz4.decompressSafe (comp.data.slice 0 comp.compressedSize) dest
    (decompSize == flashPageSize, dest')
  else (true, comp.data)

theorem littleEndian_eq_zero {bytes : List UInt8} :
    littleEndian bytes = 0 ↔ ∀ b ∈ bytes, b = 0 := by
  induction bytes with
  | nil => simp [littleEndian]
  | cons b bs ih =>
      rw [List.forall_mem_cons, ← ih, ← UInt8.toNat_inj]
      simp only [littleEndian, UInt8.toNat_zero]
      omega

/-- The word loop finds exactly the block of 4096 zero bytes. -/
theorem allZeros_iff {src : Page} : allZeros src = true ↔ src = Buffer.fill flashPageSize 0 := by
  constructor
  · intro zeros
    funext j
    have word : u64At src (j.val / 8) = 0 := by
      have below : j.val / 8 ∈ List.range 512 := by
        have := j.isLt
        simp only [List.mem_range, flashPageSize] at this ⊢
        omega
      simpa using List.all_eq_true.mp zeros _ below
    have byte : byteAt src (8 * (j.val / 8) + j.val % 8) = 0 :=
      littleEndian_eq_zero.mp word _
        (List.mem_map.mpr ⟨j.val % 8, List.mem_range.mpr (Nat.mod_lt _ (by decide)), rfl⟩)
    rw [Nat.div_add_mod] at byte
    simpa [byteAt, Buffer.fill] using byte
  · rintro rfl
    refine List.all_eq_true.mpr fun i _ => ?_
    have word : u64At (Buffer.fill flashPageSize 0) i = 0 := by
      refine littleEndian_eq_zero.mpr fun b member => ?_
      rcases List.mem_map.mp member with ⟨k, _, rfl⟩
      simp [byteAt, Buffer.fill]
    simp [word]

-- The 512-word loop is never unfolded again: `allZeros_iff` says what it computes.
attribute [irreducible] allZeros

variable {lz4 : Lz4} {src : Page}

/-- A block is reported as a zero block exactly when all its bytes are zero. -/
theorem compress_isZeroBlock :
    (compress lz4 (some src)).isZeroBlock = true ↔ src = Buffer.fill flashPageSize 0 := by
  rw [← allZeros_iff]
  by_cases zeros : allZeros src = true
  · simp [compress, zeros]
  · by_cases raw : (lz4.compressDefault src).1 ≤ 0 ∨ (lz4.compressDefault src).1 ≥ 3072 <;>
      simp [compress, zeros, raw]

/-- A nonzero block of which LZ4 makes 1 to 3071 bytes is carried as these. -/
theorem compress_compressed (nonzero : ¬allZeros src = true)
    (saves : ¬((lz4.compressDefault src).1 ≤ 0 ∨ (lz4.compressDefault src).1 ≥ 3072)) :
    (compress lz4 (some src)).compressedSize = (lz4.compressDefault src).1.toNat ∧
      (compress lz4 (some src)).data = (lz4.compressDefault src).2 := by
  have fits : (lz4.compressDefault src).1.toNat % 2 ^ 16 =
      (lz4.compressDefault src).1.toNat := Nat.mod_eq_of_lt (by omega)
  simp only [compress, nonzero, saves, if_false, Bool.false_eq_true]
  exact ⟨fits, trivial⟩

/-- A block that is not zero and is stored in a half page: LZ4 returned between 1 and 2048 bytes. -/
theorem compress_half (nonzero : (compress lz4 (some src)).isZeroBlock = false)
    (half : (compress lz4 (some src)).compressedSize ≤ halfPageSize) :
    0 < (lz4.compressDefault src).1 ∧
      (compress lz4 (some src)).compressedSize = (lz4.compressDefault src).1.toNat ∧
      (compress lz4 (some src)).data = (lz4.compressDefault src).2 := by
  by_cases zeros : allZeros src = true
  · simp [compress, zeros] at nonzero
  · by_cases raw : (lz4.compressDefault src).1 ≤ 0 ∨ (lz4.compressDefault src).1 ≥ 3072
    · simp [compress, zeros, raw, flashPageSize, halfPageSize] at half
    · exact ⟨by omega, compress_compressed zeros raw⟩

/-- A half-page block has between 1 and 2048 bytes. -/
theorem compress_half_size (nonzero : (compress lz4 (some src)).isZeroBlock = false)
    (half : (compress lz4 (some src)).compressedSize ≤ halfPageSize) :
    1 ≤ (compress lz4 (some src)).compressedSize := by
  rcases compress_half nonzero half with ⟨positive, size, _⟩
  rw [size]
  exact Int.lt_toNat.mpr positive

/-- A full-page block that LZ4 did not compress is carried as it is. -/
theorem compress_full (nonzero : (compress lz4 (some src)).isZeroBlock = false)
    (raw : (compress lz4 (some src)).isCompressed = false) :
    (compress lz4 (some src)).data = src := by
  by_cases zeros : allZeros src = true
  · simp [compress, zeros] at nonzero
  · by_cases large : (lz4.compressDefault src).1 ≤ 0 ∨ (lz4.compressDefault src).1 ≥ 3072
    · simp [compress, zeros, large]
    · simp [compress, zeros, large] at raw

/-! ### A codec that can be evaluated -/

/-- The 26 bytes LZ4 makes of 4096 equal bytes: one literal, a match of 4090 bytes at offset 1, and five
    literals. -/
def constantStream (b : UInt8) : List UInt8 :=
  [0x1F, b, 0x01, 0x00] ++ List.replicate 15 0xFF ++ [0xF6, 0x50, b, b, b, b, b]

/-- A codec that compresses the constant blocks as LZ4 does and declines every other block. -/
def constantLz4 : Lz4 where
  compressDefault src :=
    if (List.range flashPageSize).all fun i => byteAt src i == byteAt src 0 then
      (26, fun i => (constantStream (byteAt src 0)).getD i.val 0)
    else (0, src)
  decompressSafe bytes _ := ((flashPageSize : Int), Buffer.fill flashPageSize (bytes.getD 1 0))

/-- The constant codec behaves as LZ4 is documented to. -/
theorem constantLz4_roundTrips : constantLz4.RoundTrips where
  size_le src := by
    simp only [constantLz4]
    split
    · show (26 : Int) ≤ 4096
      decide
    · show (0 : Int) ≤ 4096
      decide
  restores src dest compressed := by
    simp only [constantLz4] at compressed ⊢
    split at compressed
    · rename_i constant
      rw [if_pos constant]
      have second : (Buffer.slice
          (fun i : Fin flashPageSize => (constantStream (byteAt src 0)).getD i.val 0) 0
            (26 : Int).toNat).getD 1 0 =
            byteAt src 0 := by
        rw [List.getD_eq_getElem?_getD, Buffer.getElem?_slice]
        simp [flashPageSize, constantStream]
      have block : Buffer.fill flashPageSize (byteAt src 0) = src := by
        funext j
        have same := List.all_eq_true.mp constant j.val (List.mem_range.mpr j.isLt)
        rw [beq_iff_eq, byteAt, dif_pos j.isLt] at same
        exact same.symm
      rw [second, block]
    · exact absurd compressed (Int.lt_irrefl 0)

/-- A block of two interleaved counters. It has no repetition LZ4 could use. -/
def countingBlock (k : UInt8) : Page := fun i =>
  if i.val % 2 = 0 then k + (i.val / 512).toUInt8 else (i.val / 2).toUInt8

/-- A counting block is stored raw. -/
theorem compress_countingBlock (k : UInt8) :
    (compress constantLz4 (some (countingBlock k))).isZeroBlock = false ∧
      (compress constantLz4 (some (countingBlock k))).compressedSize = flashPageSize ∧
      (compress constantLz4 (some (countingBlock k))).data = countingBlock k := by
  have first : byteAt (countingBlock k) 1 = 0 := rfl
  have third : byteAt (countingBlock k) 3 = 1 := rfl
  have nonzero : ¬allZeros (countingBlock k) = true := by
    intro zeros
    rw [allZeros_iff.mp zeros] at third
    exact absurd third (by decide)
  have declined : (constantLz4.compressDefault (countingBlock k)).1 = 0 := by
    have varies : ¬((List.range flashPageSize).all fun i =>
        byteAt (countingBlock k) i == byteAt (countingBlock k) 0) = true := by
      intro constant
      have same := fun i (inside : i < flashPageSize) =>
        beq_iff_eq.mp (List.all_eq_true.mp constant i (List.mem_range.mpr inside))
      have equal := (same 1 (by decide)).trans (same 3 (by decide)).symm
      rw [first, third] at equal
      exact absurd equal (by decide)
    simp only [constantLz4, if_neg varies]
  simp [compress, nonzero, declined]

theorem countingBlock_large (k : UInt8) :
    ¬(compress constantLz4 (some (countingBlock k))).compressedSize ≤ halfPageSize := by
  rw [(compress_countingBlock k).2.1]
  decide

end Lz4Compressor

end Zftl
