/-
Module: Zftl.Legacy.DecoderAgreement
Layer: Legacy
Purpose: When the hardware decoder makes of a line compressed in software what the software decoder makes of it. The
  hardware has no adders for three of the base-delta patterns and puts out the payload as it is. For every other
  pattern the decoders agree; for these three they agree on the lines that are their own payload.
Imports: Zftl.Lib.SelfLayout, Zftl.Legacy.BdiEngine, Zftl.Legacy.BdiRtl
Trusted boundary: none
Main exports: payload, HardwareDecodes, decoders_agree_iff
Open obligations: none
-/
import Zftl.Lib.SelfLayout
import Zftl.Legacy.BdiEngine
import Zftl.Legacy.BdiRtl

namespace Zftl.Legacy

open BaseDelta BDIEngine

/-- The pattern as the 4-bit tag of the hardware. -/
def BDIPattern.hardwareTag (pattern : BDIPattern) : BitVec 4 := pattern.tag.setWidth 4

/-- The payload for the hardware: the compressed bytes behind the tag, with zeros above them, or the 64 raw bytes. -/
def CompressedLine.hardwarePayload (c : CompressedLine) : BitVec 512 :=
  if c.pattern = .uncompressed then pack 512 c.byte
  else pack 512 fun k => if k + 1 < c.compressedSize then c.byte (k + 1) else 0

/-- The line the hardware decoder puts out at an edge for a compressed line. -/
def hardwareLine (decoder : BdiDecoder) (c : CompressedLine) : BitVec 512 :=
  (decoder.posedge true c.pattern.hardwareTag c.hardwarePayload).lineDataOut

/-- The first of the patterns without an adder that takes the line, if one does before it is stored raw, has the
    line as its own payload. -/
def HardwareDecodes (line : Line) : Prop :=
  base8Delta2.Fits line ∨ base4Delta1.Fits line ∨
    if base2Delta1.Fits line then OnlySecond 16 8 32 line
    else if base4Delta2.Fits line then OnlySecond 32 16 16 line
    else if base8Delta4.Fits line then OnlySecond 64 32 8 line
    else True

instance (line : Line) : Decidable (HardwareDecodes line) :=
  inferInstanceAs (Decidable (base8Delta2.Fits line ∨ base4Delta1.Fits line ∨
    if base2Delta1.Fits line then OnlySecond 16 8 32 line
    else if base4Delta2.Fits line then OnlySecond 32 16 16 line
    else if base8Delta4.Fits line then OnlySecond 64 32 8 line
    else True))

variable {line : Line}

/-! ### Payloads -/

/-- The payload behind a tag comes out whole if the compressed bytes reach as far as it does. -/
theorem hardwarePayload_append {c : CompressedLine} {payload : BitVec 512} (tagged : c.pattern ≠ .uncompressed)
    (data : c.data = payload ++ c.pattern.tag)
    (reach : ∀ j, 8 * c.compressedSize ≤ j + 8 → payload.getLsbD j = false) :
    c.hardwarePayload = payload := by
  rw [CompressedLine.hardwarePayload, if_neg tagged]
  apply BitVec.eq_of_getLsbD_eq
  intro j below
  rw [getLsbD_pack _ below]
  split
  · next inside =>
    rw [CompressedLine.byte, getLsbD_field, data, show (j / 8 + 1) * 8 + j % 8 = j + 8 by omega,
      BitVec.getLsbD_append]
    simp [Nat.mod_lt]
  · next outside =>
    rw [reach j (by omega)]
    exact BitVec.getLsbD_zero

/-- Nothing follows the differences of a base-delta payload. -/
theorem hardwarePayload_encode {f : DeltaForm} (tagged : f.pattern ≠ .uncompressed) :
    (f.encode line).hardwarePayload = f.payload line := by
  refine hardwarePayload_append tagged rfl fun j behind => ?_
  have size := f.size_eq
  change 8 * f.size ≤ j + 8 at behind
  by_cases below : j < 512
  · have place : f.words ≤ (j - f.base) / f.delta + 1 := by
      have least : f.words - 1 ≤ (j - f.base) / f.delta :=
        (Nat.le_div_iff_mul_le f.positive).mpr (by omega)
      omega
    rw [DeltaForm.payload, getLsbD_layout _ _ below, if_neg (by omega), if_neg (by omega)]
  · exact BitVec.getLsbD_of_ge _ _ (by omega)

/-- The raw bytes. -/
theorem hardwarePayload_raw {c : CompressedLine} (raw : c.pattern = .uncompressed)
    (data : c.data = line.setWidth 520) : c.hardwarePayload = line := by
  rw [CompressedLine.hardwarePayload, if_pos raw]
  apply BitVec.eq_of_getLsbD_eq
  intro j below
  rw [getLsbD_pack _ below, CompressedLine.byte, getLsbD_field, data, Nat.div_add_mod',
    BitVec.getLsbD_setWidth]
  simp only [Nat.mod_lt j (show 0 < 8 by decide), show j < 520 by omega, decide_true, Bool.true_and]

/-! ### The patterns with an adder -/

theorem decoded_zeros (x : BitVec 512) : decoded BDIPattern.zeros.hardwareTag x = 0 := by
  rw [decoded, if_pos (by decide)]

theorem decoded_repWord (x : BitVec 512) :
    decoded BDIPattern.repWord.hardwareTag x = pack 512 fun _ => field 64 x 0 := by
  rw [decoded, if_neg (by decide), if_pos (by decide)]

theorem decoded_base8Delta1 (x : BitVec 512) :
    decoded BDIPattern.base8Delta1.hardwareTag x = base8Delta1.line x := by
  rw [decoded, if_neg (by decide), if_neg (by decide), if_pos (by decide)]
  rfl

theorem decoded_base8Delta2 (x : BitVec 512) :
    decoded BDIPattern.base8Delta2.hardwareTag x = base8Delta2.line x := by
  rw [decoded, if_neg (by decide), if_neg (by decide), if_neg (by decide), if_pos (by decide)]
  rfl

theorem decoded_base4Delta1 (x : BitVec 512) :
    decoded BDIPattern.base4Delta1.hardwareTag x = base4Delta1.line x := by
  rw [decoded, if_neg (by decide), if_neg (by decide), if_neg (by decide), if_neg (by decide),
    if_pos (by decide)]
  rfl

theorem base8Delta2_of_repeated (rep : Repeated line) : base8Delta2.Fits line := by
  intro i below later
  change FitsDelta 16 (field 64 line i - field 64 line 0)
  rw [rep i below later, BitVec.sub_self]
  decide

theorem base8Delta2_of_base8Delta1 (fits : base8Delta1.Fits line) : base8Delta2.Fits line :=
  fun i below later => (fits i below later).wider (show 8 ≤ 16 by decide)

/-- A base-delta pattern is decoded by its adders. -/
theorem line_payload {f : DeltaForm} (fits : f.Fits line) : f.line (f.payload line) = line := by
  have size := f.size_eq
  have limit := f.size_le
  exact pack_layout f.positive f.narrow f.whole (by omega) fits

/-! ### The patterns without -/

/-- The payload is put out as it is, by the case for raw data or by the default. -/
theorem decoded_plain {pattern : BDIPattern} (plain : pattern = .base8Delta4 ∨ pattern = .base4Delta2 ∨
    pattern = .base2Delta1 ∨ pattern = .uncompressed) (x : BitVec 512) :
    decoded pattern.hardwareTag x = x := by
  rw [decoded, ite_self]
  obtain rfl | rfl | rfl | rfl := plain
  all_goals
    rw [if_neg (by decide), if_neg (by decide), if_neg (by decide), if_neg (by decide),
      if_neg (by decide)]

theorem payload_base2Delta1 (fits : base2Delta1.Fits line) :
    base2Delta1.payload line = line ↔ OnlySecond 16 8 32 line :=
  layout_self_iff (m := 8) (d := 8) (by decide) (by decide) rfl fits

theorem payload_base4Delta2 (fits : base4Delta2.Fits line) :
    base4Delta2.payload line = line ↔ OnlySecond 32 16 16 line :=
  layout_self_iff (m := 4) (d := 16) (by decide) (by decide) rfl fits

theorem payload_base8Delta4 (fits : base8Delta4.Fits line) :
    base8Delta4.payload line = line ↔ OnlySecond 64 32 8 line :=
  layout_self_iff (m := 2) (d := 32) (by decide) (by decide) rfl fits

/-! ### Agreement -/

theorem decompress_compress (line : Line) : decompress (compress line) = some line :=
  decompressRaw_compress (fun _ _ => rfl) (Nat.le_refl _)

/-- The decoders agree exactly on the lines of `HardwareDecodes`. -/
theorem decoders_agree_iff (decoder : BdiDecoder) (line : Line) :
    some (hardwareLine decoder (compress line)) = decompress (compress line) ↔ HardwareDecodes line := by
  rw [decompress_compress, Option.some_inj]
  change decoded (compress line).pattern.hardwareTag (compress line).hardwarePayload = line ↔ _
  fun_cases compress line with
  | case1 zero =>
    have all : line = 0 := allZero_iff.mp zero
    have rep : Repeated line := fun i below later => (zero i below).trans (zero 0 (by decide)).symm
    rw [decoded_zeros, all]
    exact iff_of_true rfl (Or.inl (base8Delta2_of_repeated (all ▸ rep)))
  | case2 _ rep =>
    have payload : (CompressedLine.mk .repWord 9 ((field 64 line 0).setWidth 512 ++ BDIPattern.repWord.tag)
        ).hardwarePayload = (field 64 line 0).setWidth 512 := by
      have tagged : BDIPattern.repWord ≠ .uncompressed := by decide
      refine hardwarePayload_append tagged rfl fun j behind => ?_
      change 8 * 9 ≤ j + 8 at behind
      rw [BitVec.getLsbD_setWidth, BitVec.getLsbD_of_ge _ _ (by omega), Bool.and_false]
    rw [payload, decoded_repWord, field_setWidth _ (by decide), field_zero (field 64 line 0),
      BitVec.setWidth_eq]
    exact iff_of_true (pack_repeated rep) (Or.inl (base8Delta2_of_repeated rep))
  | case3 _ _ fits =>
    rw [hardwarePayload_encode (by decide)]
    exact iff_of_true ((decoded_base8Delta1 _).trans (line_payload fits))
      (Or.inl (base8Delta2_of_base8Delta1 fits))
  | case4 _ _ _ fits =>
    rw [hardwarePayload_encode (by decide)]
    exact iff_of_true ((decoded_base4Delta1 _).trans (line_payload fits)) (Or.inr (Or.inl fits))
  | case5 _ _ _ _ fits =>
    rw [hardwarePayload_encode (by decide)]
    exact iff_of_true ((decoded_base8Delta2 _).trans (line_payload fits)) (Or.inl fits)
  | case6 _ _ _ narrow wide fits =>
    have plain := @decoded_plain .base2Delta1 (by decide) (base2Delta1.payload line)
    rw [hardwarePayload_encode (by decide)]
    change decoded BDIPattern.base2Delta1.hardwareTag _ = line ↔ _
    rw [plain, HardwareDecodes, if_pos fits, payload_base2Delta1 fits]
    simp only [narrow, wide, false_or]
  | case7 _ _ _ narrow wide first fits =>
    have plain := @decoded_plain .base4Delta2 (by decide) (base4Delta2.payload line)
    rw [hardwarePayload_encode (by decide)]
    change decoded BDIPattern.base4Delta2.hardwareTag _ = line ↔ _
    rw [plain, HardwareDecodes, if_neg first, if_pos fits, payload_base4Delta2 fits]
    simp only [narrow, wide, false_or]
  | case8 _ _ _ narrow wide first second fits =>
    have plain := @decoded_plain .base8Delta4 (by decide) (base8Delta4.payload line)
    rw [hardwarePayload_encode (by decide)]
    change decoded BDIPattern.base8Delta4.hardwareTag _ = line ↔ _
    rw [plain, HardwareDecodes, if_neg first, if_neg second, if_pos fits, payload_base8Delta4 fits]
    simp only [narrow, wide, false_or]
  | case9 _ _ _ _ _ first second third =>
    have plain := @decoded_plain .uncompressed (by decide) line
    rw [hardwarePayload_raw rfl rfl, plain, HardwareDecodes, if_neg first, if_neg second, if_neg third]
    exact iff_of_true rfl (Or.inr (Or.inr trivial))

/-- Eight words at a distance of `0x01234567`, which takes a delta of four bytes. -/
def stridedLine : Line :=
  pack 512 fun i => (0x1122334455667788 : BitVec 64) + BitVec.ofNat 64 (i * 0x01234567)

/-- The hardware puts out base and differences side by side, the software the line. -/
theorem stridedLine_undecoded :
    (compress stridedLine).pattern = .base8Delta4 ∧
      hardwareLine BdiDecoder.reset (compress stridedLine) ≠ stridedLine ∧
      decompress (compress stridedLine) = some stridedLine := by
  decide +kernel

end Zftl.Legacy
