/-
Module: Zftl.Rtl.ErrorReport
Layer: Rtl
Purpose: What the error flag reports. No state raises it, so a stream is reported correctly exactly if there is
  nothing to report.
Imports: Zftl.Rtl.BlockDecoding
Trusted boundary: none
Main exports: WellFormed, Reports, reports_iff, offsetZero_unreported
Open obligations: none
-/
import Zftl.Rtl.BlockDecoding

namespace Zftl.Rtl

open Lz4Format

/-- The stream is a well-formed block of at most 4096 decoded bytes. -/
def WellFormed (stream : List Byte) : Prop :=
  ∃ block : Block, block.encode = stream ∧ block.decode.length ≤ maxBlockSize

namespace Bench

variable {dut : Decompressor}

/-- A run reports its stream correctly: a well-formed stream never raises the error flag, and any other raises
    it at some time. -/
def Reports (bench : Bench) (schedule : Schedule) (stream : List Byte) : Prop :=
  (WellFormed stream → ∀ t, (bench.run schedule t).dut.errorFlag = false) ∧
    (¬WellFormed stream → ∃ t, (bench.run schedule t).dut.errorFlag = true)

/-- A stream is reported correctly exactly if it is well-formed: no malformed stream is reported. -/
theorem reports_iff (reached : dut.Reached) (schedule : Schedule) (lead : Nat) (stream : List Byte) :
    Reports (load dut (Offer.backToBack lead stream)) schedule stream ↔ WellFormed stream := by
  have clear : ∀ t,
      ((load dut (Offer.backToBack lead stream)).run schedule t).dut.errorFlag = false :=
    fun t => (reached_run (load dut _) reached schedule t).errorFlag
  constructor
  · intro reports
    by_contra malformed
    obtain ⟨t, raised⟩ := reports.2 malformed
    rw [clear t] at raised
    cases raised
  · intro wellFormed
    exact ⟨fun _ => clear, fun malformed => absurd wellFormed malformed⟩

/-- The stream of a block with a match. -/
theorem repetitive_reports :
    Reports (load (powerUp fun _ => 0) (Offer.backToBack 1 repetitive.encode)) pulse
        repetitive.encode ↔
      WellFormed repetitive.encode :=
  reports_iff (powerUp_reached _) pulse 1 repetitive.encode

/-- One literal, and a match of four bytes at offset 0. -/
def offsetZero : List Byte := [0x10, 0x41, 0x00, 0x00, 0x10, 0x42]

/-- No parse of the format gets past an offset of 0. -/
theorem offsetZero_malformed : ¬WellFormed offsetZero := by
  rintro ⟨block, encoded, _⟩
  have decodes := decodes_encode block
  rw [encoded, offsetZero] at decodes
  cases decodes with
  | token literal =>
      cases literal with
      | literal offset =>
          cases offset with
          | offsetLow high =>
              cases high with
              | offsetHigh inside _ => exact absurd inside.1 (by decide)

/-- The block of `offsetZero` is processed to its end, and the error flag stays down. -/
theorem offsetZero_unreported :
    ((load (powerUp fun _ => 0) (Offer.backToBack 0 offsetZero)).run pulse 12).dut.done = true ∧
      ¬Reports (load (powerUp fun _ => 0) (Offer.backToBack 0 offsetZero)) pulse offsetZero := by
  refine ⟨by decide, fun reports => ?_⟩
  obtain ⟨t, raised⟩ := reports.2 offsetZero_malformed
  have clear := (reached_run (load (powerUp fun _ => 0) (Offer.backToBack 0 offsetZero))
    (powerUp_reached _) pulse t).errorFlag
  rw [clear] at raised
  cases raised

end Bench

end Zftl.Rtl
