/-
Module: Zftl.Legacy.SelfDescribing
Layer: Legacy
Purpose: Decompressing a buffer that names its own pattern. Eight of the nine patterns put their tag into byte 0, and
  such a line is restored from its compressed bytes alone. The raw bytes of an incompressible line overwrite the
  tag, so there the first byte of the line is taken for it, and the line comes back only if that byte happens to
  be the tag of raw bytes: every other pattern decodes to lines that could have been compressed.
Imports: Zftl.Legacy.BdiEngine
Trusted boundary: none
Main exports: Compressible, tag_of_compressible, compressible_of_decompressRaw, decompressRaw_selfDescribing_iff
Open obligations: none
-/
import Zftl.Legacy.BdiEngine

namespace Zftl.Legacy

open BaseDelta

namespace BDIEngine

variable {src : Line}

/-- One of the eight patterns in front of the fallback takes the line. -/
def Compressible (src : Line) : Prop :=
  AllZero src ∨ Repeated src ∨ base8Delta1.Fits src ∨ base4Delta1.Fits src ∨ base8Delta2.Fits src ∨
    base2Delta1.Fits src ∨ base4Delta2.Fits src ∨ base8Delta4.Fits src

instance (src : Line) : Decidable (Compressible src) :=
  inferInstanceAs (Decidable (AllZero src ∨ Repeated src ∨ base8Delta1.Fits src ∨ base4Delta1.Fits src ∨
    base8Delta2.Fits src ∨ base2Delta1.Fits src ∨ base4Delta2.Fits src ∨ base8Delta4.Fits src))

/-! ### The first byte of the compressed bytes -/

/-- The tag in front of a payload. -/
theorem field_append_tag (payload : BitVec 512) (tag : BitVec 8) : field 8 (payload ++ tag) 0 = tag := by
  apply BitVec.eq_of_getLsbD_eq
  intro j below
  rw [getLsbD_field, BitVec.getLsbD_append, Nat.zero_mul, Nat.zero_add]
  simp [below]

theorem tag_of_compressible (compressible : Compressible src) :
    (compress src).byte 0 = (compress src).pattern.tag := by
  fun_cases compress src with
  | case9 zero rep b8d1 b4d1 b8d2 b2d1 b4d2 b8d4 =>
    exact absurd compressible (by simp [Compressible, zero, rep, b8d1, b4d1, b8d2, b2d1, b4d2, b8d4])
  | _ => exact field_append_tag _ _

/-- Without a pattern the raw bytes are all there is. -/
theorem compress_incompressible (incompressible : ¬ Compressible src) :
    compress src = { pattern := .uncompressed, compressedSize := 64, data := src.setWidth 520 } := by
  simp only [Compressible, not_or] at incompressible
  obtain ⟨zero, rep, b8d1, b4d1, b8d2, b2d1, b4d2, b8d4⟩ := incompressible
  rw [compress, if_neg zero, if_neg rep, if_neg b8d1, if_neg b4d1, if_neg b8d2, if_neg b2d1, if_neg b4d2,
    if_neg b8d4]

theorem byte_zero_incompressible (incompressible : ¬ Compressible src) :
    (compress src).byte 0 = field 8 src 0 := by
  rw [compress_incompressible incompressible]
  exact field_setWidth src (by decide)

/-! ### What each tag decodes to -/

/-- A base-delta case only gives lines its form fits. -/
theorem fits_of_decompressForm {f : DeltaForm} {compBuffer : Nat → BitVec 8} {compSize : Nat}
    (decoded : decompressForm f compBuffer compSize = some src) : f.Fits src := by
  rw [decompressForm] at decoded
  split at decoded
  · exact absurd decoded (by simp)
  · rw [← Option.some.inj decoded]
    exact deltasFit_pack _ f.narrow (Nat.le_of_eq f.whole.symm)

theorem repeated_pack (word : BitVec 64) : Repeated (pack 512 fun _ => word) := by
  intro i below _
  rw [field_pack _ (by omega), field_pack _ (by omega)]

theorem tag_of_ofTag {value : BitVec 8} (raw : BDIPattern.ofTag value = some .uncompressed) :
    value = BDIPattern.uncompressed.tag := by
  apply BitVec.eq_of_toNat_eq
  revert raw
  fun_cases BDIPattern.ofTag value with
  | case9 same => exact fun _ => same
  | _ => exact fun other => absurd other (by decide)

/-- A line that comes back under another tag than that of raw bytes is compressible. -/
theorem compressible_of_decompressRaw {compBuffer : Nat → BitVec 8} {compSize : Nat} {value : BitVec 8}
    (other : value ≠ BDIPattern.uncompressed.tag)
    (decoded : decompressRaw compBuffer compSize (some value) = some src) : Compressible src := by
  rw [decompressRaw] at decoded
  split at decoded
  · exact absurd decoded (by simp)
  split at decoded
  · rw [← Option.some.inj decoded]
    exact Or.inl (allZero_iff.mpr rfl)
  · split at decoded
    · exact absurd decoded (by simp)
    · rw [← Option.some.inj decoded]
      exact Or.inr (Or.inl (repeated_pack _))
  · exact .inr (.inr (.inl (fits_of_decompressForm decoded)))
  · exact .inr (.inr (.inr (.inr (.inl (fits_of_decompressForm decoded)))))
  · exact .inr (.inr (.inr (.inr (.inr (.inr (.inr (fits_of_decompressForm decoded)))))))
  · exact .inr (.inr (.inr (.inl (fits_of_decompressForm decoded))))
  · exact .inr (.inr (.inr (.inr (.inr (.inr (.inl (fits_of_decompressForm decoded)))))))
  · exact .inr (.inr (.inr (.inr (.inr (.inl (fits_of_decompressForm decoded))))))
  · next raw => exact absurd (tag_of_ofTag raw) other
  · exact absurd decoded (by simp)

/-! ### The round trip -/

/-- `Decompress` restores every line. -/
theorem decompress_compress (src : Line) : decompress (compress src) = some src :=
  decompressRaw_compress (fun _ _ => rfl) (Nat.le_refl _)

/-- Without an explicit pattern the tag is the first byte. -/
theorem decompressRaw_none (compBuffer : Nat → BitVec 8) (compSize : Nat) :
    decompressRaw compBuffer compSize none = decompressRaw compBuffer compSize (some (compBuffer 0)) := rfl

/-- Read by the tag in its first byte, the compressed line gives the line back, as `Decompress` does, exactly if the
    line is compressible or starts with the tag of raw bytes. -/
theorem decompressRaw_selfDescribing_iff (src : Line) :
    (decompressRaw (compress src).byte (compress src).compressedSize none = some src ∧
      decompressRaw (compress src).byte (compress src).compressedSize none = decompress (compress src)) ↔
    Compressible src ∨ field 8 src 0 = BDIPattern.uncompressed.tag := by
  have restored := decompress_compress src
  rw [restored, and_self, decompressRaw_none]
  by_cases compressible : Compressible src
  · rw [tag_of_compressible compressible]
    exact iff_of_true restored (Or.inl compressible)
  · rw [byte_zero_incompressible compressible]
    constructor
    · intro decoded
      by_cases raw : field 8 src 0 = BDIPattern.uncompressed.tag
      · exact Or.inr raw
      · exact Or.inl (compressible_of_decompressRaw raw decoded)
    · rintro (fits | raw)
      · exact absurd fits compressible
      · rw [decompress, compress_incompressible compressible] at restored
        rw [compress_incompressible compressible, raw]
        exact restored

/-- The bytes from 2 to 65. -/
def ascending : Line := pack 512 fun k => BitVec.ofNat 8 (k + 2)

/-- The first byte is taken for the tag of a base-delta pattern. -/
theorem ascending_misread :
    ¬ (decompressRaw (compress ascending).byte (compress ascending).compressedSize none = some ascending ∧
      decompressRaw (compress ascending).byte (compress ascending).compressedSize none =
        decompress (compress ascending)) := by
  decide +kernel

end BDIEngine

end Zftl.Legacy
