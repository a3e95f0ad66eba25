/-
Module: Zftl.Rtl.BlockDecoding
Layer: Rtl
Purpose: What the decompressor delivers for a well-formed block. Every calm run delivers exactly the decoded
  bytes; a source back to back with a sink that is always ready is such a run, and any two calm runs of one
  block deliver the same, whatever their idle cycles and stalls. A run with a bubble in front of a literal is
  not calm, and a byte comes out twice.
Imports: Zftl.Rtl.Simulation
Trusted boundary: none
Main exports: calmRun_decodes, backToBack_decodes, ScheduleIndependent, calmRuns_agree,
  bubble_duplicates
Open obligations: none
-/
import Zftl.Rtl.Simulation

namespace Zftl.Rtl

open Lz4Format

/-- One pulse of the start wire, and a sink that is always ready. -/
def pulse : Schedule := ⟨fun t => t == 0, fun _ => true⟩

namespace Bench

variable {dut : Decompressor} {offer : Offer} {schedule : Schedule} {block : Block}

/-- A calm run comes to the done state behind the last byte, and the sink accepts exactly the decoded bytes. -/
theorem calmRun_decodes (reached : dut.Reached) (idle : dut.state = .idle)
    (fits : block.decode.length ≤ maxBlockSize) (bytes : offer.bytes = block.encode)
    (started : schedule.start 0 = true) (calm : (load dut offer).CalmRun schedule) :
    ∃ T, Finished block.decode ((load dut offer).run schedule T) ∧
      ∀ t, T < t → ((load dut offer).run schedule t).accepted = tagged block.decode := by
  have serving : Serving block.decode .token ((load dut offer).run schedule 1) [] := by
    have first := serving_start (schedule.ready 0) reached idle bytes
    rwa [← started] at first
  obtain ⟨T, finished⟩ := serving.finishes fits calm
  have still := finished.cycle (schedule.start T) (calm T)
  refine ⟨T, finished, fun t later => ?_⟩
  have settled : ((load dut offer).run schedule (T + 1)).Still := still.1
  exact (settled.run later).2.trans still.2

/-! ### A source back to back -/

/-- The decompressor decodes the format: back to back into a ready sink, every block of at most 4096 bytes
    comes out as exactly its decoded bytes, the last flag beside byte number 4096 only, with the count in the
    done state and without an error. -/
theorem backToBack_decodes (reached : dut.Reached) (idle : dut.state = .idle) (block : Block)
    (fits : block.decode.length ≤ maxBlockSize) (lead : Nat) (started : schedule.start 0 = true)
    (sink : ∀ t, schedule.ready t = true) :
    (∃ T, ((load dut (Offer.backToBack lead block.encode)).run schedule T).dut.state = .done ∧
      ((load dut (Offer.backToBack lead block.encode)).run schedule T).dut.decompressedBytes.toNat =
        block.decode.length ∧
      ∀ t, T < t → ((load dut (Offer.backToBack lead block.encode)).run schedule t).accepted =
        tagged block.decode) ∧
    ∀ t, ((load dut (Offer.backToBack lead block.encode)).run schedule t).dut.errorFlag = false := by
  have calm := calmRun_of_led (led_load idle lead block.encode) sink
  rcases calmRun_decodes reached idle fits (Offer.bytes_backToBack lead block.encode) started calm with
    ⟨T, finished, delivered⟩
  refine ⟨⟨T, finished.state, finished.counted, delivered⟩, fun t => ?_⟩
  exact (reached_run (load dut _) reached schedule t).errorFlag

/-- Five literals, fifteen bytes copied over them, and one more literal. -/
def repetitive : Block :=
  { sequences := [
      { literals := [0x41, 0x42, 0x43, 0x44, 0x45], offset := 5, matchLength := 15
        offset_pos := by decide, offset_lt := by decide, matchLength_ge := by decide }]
    lastLiterals := [0x46]
    offsetsInside := ⟨by decide, trivial⟩
    lastLiterals_ne := by decide }

/-- A block with a match, in front of a history full of other bytes. -/
theorem repetitive_decodes :
    let bench := load (powerUp fun _ => 0xEE) (Offer.backToBack 1 repetitive.encode)
    (∃ T, (bench.run pulse T).dut.state = .done ∧
      (bench.run pulse T).dut.decompressedBytes.toNat = repetitive.decode.length ∧
      ∀ t, T < t → (bench.run pulse t).accepted = tagged repetitive.decode) ∧
    ∀ t, (bench.run pulse t).dut.errorFlag = false :=
  backToBack_decodes (powerUp_reached _) rfl repetitive (by decide) 1 rfl fun _ => rfl

/-! ### Handshake schedules -/

/-- The start pulse comes, and the sink never stalls for ever. -/
structure Legal (schedule : Schedule) : Prop where
  started : schedule.start 0 = true
  fair : ∀ t, ∃ t', t ≤ t' ∧ schedule.ready t' = true

/-- Two runs of one block deliver the same, whatever idle cycles the source inserts and whenever the sink is
    ready. -/
def ScheduleIndependent : Prop :=
  ∀ (dut : Decompressor) (block : Block) (offer offer' : Offer) (schedule schedule' : Schedule),
    dut.Reached → dut.state = .idle → block.decode.length ≤ maxBlockSize →
    offer.bytes = block.encode → offer'.bytes = block.encode → Legal schedule → Legal schedule' →
    ∃ out, (load dut offer).Delivers schedule out ∧ (load dut offer').Delivers schedule' out

/-- Any two calm runs of one block deliver the same: its decoded bytes, none lost, repeated or out of
    order. -/
theorem calmRuns_agree (reached : dut.Reached) (idle : dut.state = .idle) (block : Block)
    (fits : block.decode.length ≤ maxBlockSize) {offer' : Offer} {schedule' : Schedule}
    (bytes : offer.bytes = block.encode) (bytes' : offer'.bytes = block.encode)
    (legal : Legal schedule) (legal' : Legal schedule')
    (calm : (load dut offer).CalmRun schedule) (calm' : (load dut offer').CalmRun schedule') :
    ∃ out, (load dut offer).Delivers schedule out ∧ (load dut offer').Delivers schedule' out ∧
      out.map Prod.fst = block.decode := by
  refine ⟨tagged block.decode, ?_, ?_, map_fst_tagged block.decode⟩
  · obtain ⟨T, _, delivered⟩ := calmRun_decodes reached idle fits bytes legal.started calm
    exact ⟨T + 1, delivered⟩
  · obtain ⟨T, _, delivered⟩ := calmRun_decodes reached idle fits bytes' legal'.started calm'
    exact ⟨T + 1, delivered⟩

theorem pulse_legal : Legal pulse :=
  ⟨rfl, fun t => ⟨t, Nat.le_refl t, rfl⟩⟩

/-- The bytes of `repetitive` with idle cycles in front of the token, the offset and the last token. -/
def halting : Offer :=
  [(2, 0x5B), (0, 0x41), (0, 0x42), (0, 0x43), (0, 0x44), (0, 0x45), (3, 0x05), (1, 0x00), (2, 0x10),
    (0, 0x46)]

/-- A sink that stalls while the machine reads a token and an offset. -/
def stalls : Schedule := ⟨fun t => t == 0, fun t => t != 2 && t != 12 && t != 13⟩

theorem stalls_legal : Legal stalls := by
  refine ⟨rfl, fun t => ⟨t + 14, Nat.le_add_right t 14, ?_⟩⟩
  simp [stalls]

/-- A halting source and a stalling sink against a source back to back. -/
theorem haltingRun_agrees :
    ∃ out, (load (powerUp fun _ => 0) (Offer.backToBack 0 repetitive.encode)).Delivers pulse out ∧
      (load (powerUp fun _ => 0) halting).Delivers stalls out ∧
      out.map Prod.fst = repetitive.decode := by
  have settled : ((load (powerUp fun _ => 0) halting).run stalls 33).Still :=
    ⟨by decide, by decide, by decide⟩
  exact calmRuns_agree (powerUp_reached _) rfl repetitive (by decide) (Offer.bytes_backToBack _ _)
    (by decide) pulse_legal stalls_legal (calmRun_of_led (led_load rfl _ _) fun _ => rfl)
    (calmRun_of_still (by decide) settled)

/-- Two literals and nothing else. -/
def twoLiterals : Block :=
  { sequences := [], lastLiterals := [0x41, 0x42], offsetsInside := trivial,
    lastLiterals_ne := by decide }

/-- The second literal comes one cycle late. -/
def lateLiteral : Offer := [(0, 0x20), (0, 0x41), (1, 0x42)]

/-- An idle cycle in front of a literal repeats the byte before it. -/
theorem bubble_duplicates : ¬ScheduleIndependent := by
  intro independent
  rcases independent (powerUp fun _ => 0) twoLiterals (Offer.backToBack 0 twoLiterals.encode) lateLiteral
    pulse pulse (powerUp_reached _) rfl (by decide) (Offer.bytes_backToBack _ _) (by decide) pulse_legal
    pulse_legal with ⟨out, prompt, late⟩
  have promptStill : ((load (powerUp fun _ => 0)
      (Offer.backToBack 0 twoLiterals.encode)).run pulse 5).Still :=
    ⟨by decide, by decide, by decide⟩
  have lateStill : ((load (powerUp fun _ => 0) lateLiteral).run pulse 6).Still :=
    ⟨by decide, by decide, by decide⟩
  have once := prompt.unique promptStill.delivers
  have twice := late.unique lateStill.delivers
  have different : ((load (powerUp fun _ => 0)
      (Offer.backToBack 0 twoLiterals.encode)).run pulse 5).accepted ≠
      ((load (powerUp fun _ => 0) lateLiteral).run pulse 6).accepted := by decide
  exact different (once.symm.trans twice)

end Bench

end Zftl.Rtl
