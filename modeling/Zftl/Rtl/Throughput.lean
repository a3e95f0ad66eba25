/-
Module: Zftl.Rtl.Throughput
Layer: Rtl
Purpose: How long a block takes. With a source back to back and a ready sink every cycle of the decompressor takes a
  byte of the stream, in whatever state, or copies a byte of a match, so a block is under way for as many cycles
  as its stream and its matches have bytes, and the busy wire is up for one more.
Imports: Zftl.Lib.Lz4Copies, Zftl.Rtl.BlockDecoding
Trusted boundary: none
Main exports: cyclesLeft, Serving.cycle_exact, BusyFor, backToBack_busyFor
Open obligations: none
-/
import Zftl.Lib.Lz4Copies
import Zftl.Rtl.BlockDecoding

namespace Zftl.Rtl

open Lz4Format

namespace Serving

variable {final out : List Byte} {phase : Phase} {bench : Bench} {start : Bool}

/-- The cycles until the last byte is taken: the edges of the source, and the match bytes still to copy. -/
def cyclesLeft (phase : Phase) (bench : Bench) : Nat := bench.offer.work + matchBytes phase bench.offer.bytes

/-- A taken byte is one cycle. -/
theorem cyclesLeft_taken (phase : Phase) {byte : Byte} {tail : Offer} (offered : bench.offer = (0, byte) :: tail)
    (tready : bench.dut.sAxisTready = true) (reading : phase.copies = 0) (ready : Bool) :
    cyclesLeft (phase.reads byte) (bench.cycle start ready) + 1 = cyclesLeft phase bench := by
  rw [cyclesLeft, cyclesLeft, offer_cycle offered tready, offered]
  simp only [Offer.work, Offer.bytes, List.map_cons, List.sum_cons, matchBytes_cons reading]
  omega

/-- A match byte is one cycle, in which the source waits. -/
theorem cyclesLeft_copied {offset left : Nat} (prompt : bench.offer.Prompt) (busy : bench.dut.sAxisTready = false)
    (ready : Bool) :
    cyclesLeft (Phase.afterCopy offset left) (bench.cycle start ready) + 1 =
      cyclesLeft (.copy offset (left + 1)) bench := by
  have waits : (bench.cycle start ready).offer = bench.offer := by
    rw [Bench.cycle, busy]
    rcases offer : bench.offer with _ | ⟨⟨_ | idle, byte⟩, tail⟩
    · rfl
    · rfl
    · rw [offer] at prompt
      exact absurd (prompt _ List.mem_cons_self) (Nat.succ_ne_zero _)
  rw [cyclesLeft, cyclesLeft, waits, matchBytes_copy_succ, Nat.add_assoc]

/-- An idle cycle of the source is one cycle. -/
theorem cyclesLeft_idle {idle : Nat} {byte : Byte} {tail : Offer}
    (offered : bench.offer = (idle + 1, byte) :: tail) (ready : Bool) :
    cyclesLeft phase (bench.cycle start ready) + 1 = cyclesLeft phase bench := by
  rw [cyclesLeft, cyclesLeft, Bench.cycle, offered]
  simp only [Offer.advance, Offer.work, Offer.bytes, List.map_cons, List.sum_cons]
  omega

/-- With a source back to back every calm cycle of a ready sink finishes the block or brings the end closer by
    one. -/
theorem cycle_exact (fits : final.length ≤ maxBlockSize) (serving : Serving final phase bench out)
    (led : bench.Led) (calm : bench.CalmCycle true) :
    (Finished final (bench.cycle start true) ∧ cyclesLeft phase bench = 1) ∨
      ∃ phase' out', Serving final phase' (bench.cycle start true) out' ∧
        cyclesLeft phase' (bench.cycle start true) + 1 = cyclesLeft phase bench := by
  by_cases reading : ∃ offset left, phase = .copy offset left
  · obtain ⟨offset, left, rfl⟩ := reading
    have prompt : bench.offer.Prompt := by
      rcases led with prompt | ⟨_, _, early⟩
      · exact prompt
      · rw [serving.control.1] at early
        rcases early with impossible | impossible
        · cases impossible
        · cases impossible
    generalize bytes : bench.offer.bytes = stream
    have decodes := serving.decodes
    rw [bytes] at decodes
    cases decodes with
    | copy inside next =>
        rw [← bytes] at next
        exact Or.inr ⟨_, _, copy fits serving calm inside next,
          cyclesLeft_copied prompt serving.control.2.1 true⟩
  · match offered : bench.offer with
    | [] => exact absurd (by rw [offered]; rfl) serving.decodes.rest_ne
    | (idle + 1, byte) :: tail =>
        have notOffered : bench.offer.valid = false := by rw [offered]; rfl
        have stays := serving.idle start notOffered calm
          fun offset left same => reading ⟨offset, left, same⟩
        exact Or.inr ⟨_, _, stays, cyclesLeft_idle offered true⟩
    | (0, byte) :: tail =>
        cases phase with
        | token =>
            exact Or.inr ⟨_, _, token serving offered calm,
              cyclesLeft_taken .token offered serving.control.2 rfl true⟩
        | extLit length matchNibble =>
            exact Or.inr ⟨_, _, extLit fits serving offered,
              cyclesLeft_taken (.extLit length matchNibble) offered serving.control.2.1 rfl true⟩
        | literal left matchNibble =>
            have decodes := serving.decodes
            rw [offered] at decodes
            generalize stream : Offer.bytes ((0, byte) :: tail) = bytes at decodes
            cases decodes with
            | literal next =>
                cases stream
                exact Or.inr ⟨_, _, literal fits serving offered rfl next,
                  cyclesLeft_taken (.literal (_ + 1) matchNibble) offered serving.control.2.1 rfl true⟩
            | finish complete =>
                have single : tail = [] := by
                  rw [Offer.bytes, List.map_cons] at stream
                  exact List.map_eq_nil_iff.mp (List.cons.inj stream).2
                have last : byte = _ := (List.cons.inj stream).1
                subst single
                refine Or.inl ⟨finish fits serving offered rfl (last ▸ complete), ?_⟩
                rw [cyclesLeft, offered]
                rfl
        | offsetLow matchNibble =>
            exact Or.inr ⟨_, _, offsetLow serving offered calm,
              cyclesLeft_taken (.offsetLow matchNibble) offered serving.control.2.1 rfl true⟩
        | offsetHigh matchNibble low =>
            exact Or.inr ⟨_, _, offsetHigh serving offered,
              cyclesLeft_taken (.offsetHigh matchNibble low) offered serving.control.2.1 rfl true⟩
        | extMatch offset length =>
            exact Or.inr ⟨_, _, extMatch fits serving offered,
              cyclesLeft_taken (.extMatch offset length) offered serving.control.2.1 rfl true⟩
        | copy offset left => exact absurd ⟨offset, left, rfl⟩ reading

/-- A machine in a phase of the parser is neither idle nor done. -/
theorem ongoing (serving : Serving final phase bench out) : bench.dut.state ≠ .idle ∧ bench.dut.state ≠ .done := by
  have control := serving.control
  cases phase <;> rw [control.1] <;> decide

end Serving

/-! ### The busy wire -/

/-- The busy wire is up exactly outside the idle state. -/
def Decompressor.BusyShown (d : Decompressor) : Prop := d.busy = true ↔ d.state ≠ .idle

theorem Decompressor.BusyShown.step {d : Decompressor} (shown : d.BusyShown) (i : Inputs) : (d.step i).BusyShown := by
  cases state : d.state <;> rw [Decompressor.BusyShown, state] at shown <;>
    simp only [Decompressor.step, state, Decompressor.stepIdle, Decompressor.stepToken, Decompressor.stepExtLit,
      Decompressor.stepLiteral, Decompressor.stepOffsetL, Decompressor.stepOffsetH, Decompressor.stepExtMatch,
      Decompressor.stepMatchCopy, Decompressor.stepDone, Decompressor.observeLast, Decompressor.emit,
      Decompressor.recordByte, Decompressor.BusyShown]
  all_goals repeat' split
  all_goals simp_all

theorem Decompressor.Reached.busyShown {d : Decompressor} (reached : d.Reached) : d.BusyShown := by
  induction reached with
  | reset d => simp [Decompressor.BusyShown, Decompressor.reset]
  | step before i ih => exact ih.step i

namespace Bench

/-- The first block is under way for `cycles` cycles: the busy wire is up in these, and the machine is done in the
    last of them. -/
structure BusyFor (bench : Bench) (schedule : Schedule) (cycles : Nat) : Prop where
  busy : ∀ t, t ≤ cycles + 1 → ((bench.run schedule t).dut.busy = true ↔ 1 ≤ t ∧ t ≤ cycles)
  done : ∀ t, t ≤ cycles → ((bench.run schedule t).dut.state = .done ↔ t = cycles)

section Runs

variable {dut : Decompressor} {schedule : Schedule} {block : Block} {bench : Bench} {final : List Byte}

/-- From a phase of the parser on, the machine works for as many cycles as are left and is done then. -/
theorem run_exact (fits : final.length ≤ maxBlockSize) (ledRun : ∀ t, (bench.run schedule t).Led)
    (calm : bench.CalmRun schedule) (sink : ∀ t, schedule.ready t = true) {phase : Phase} {out : List Byte} {t : Nat}
    (serving : Serving final phase (bench.run schedule t) out) :
    Finished final (bench.run schedule (t + Serving.cyclesLeft phase (bench.run schedule t))) ∧
      ∀ k, k < Serving.cyclesLeft phase (bench.run schedule t) →
        (bench.run schedule (t + k)).dut.state ≠ .idle ∧ (bench.run schedule (t + k)).dut.state ≠ .done := by
  generalize measure : Serving.cyclesLeft phase (bench.run schedule t) = left
  induction left generalizing phase out t with
  | zero =>
      have calmNow := calm t
      rw [sink t] at calmNow
      rcases @Serving.cycle_exact _ _ _ _ true fits serving (ledRun t) calmNow with ⟨_, last⟩ | ⟨_, _, _, closer⟩
      · omega
      · omega
  | succ left ih =>
      have calmNow := calm t
      rw [sink t] at calmNow
      have next : bench.run schedule (t + 1) = (bench.run schedule t).cycle (schedule.start t) true := by
        rw [run, sink t]
      rcases @Serving.cycle_exact _ _ _ _ (schedule.start t) fits serving (ledRun t) calmNow with
        ⟨finished, last⟩ | ⟨phase', out', serving', closer⟩
      · obtain rfl : left = 0 := by omega
        refine ⟨by rw [next]; exact finished, fun k below => ?_⟩
        obtain rfl : k = 0 := by omega
        exact serving.ongoing
      · rw [← next] at serving' closer
        obtain ⟨finished, busy⟩ := ih serving' (by omega)
        refine ⟨by rwa [Nat.add_right_comm, Nat.add_assoc] at finished, fun k below => ?_⟩
        cases k with
        | zero => exact serving.ongoing
        | succ k =>
            have later := busy k (by omega)
            rwa [Nat.add_right_comm, Nat.add_assoc] at later

/-- An edge at which the machine is not ready takes one from the wait of the source. -/
theorem work_backToBack {stream : List Byte} (nonempty : stream ≠ []) (lead : Nat) :
    ((Offer.backToBack lead stream).advance false).work = lead - 1 + stream.length := by
  have prompt : ∀ bytes : List Byte, Offer.work (bytes.map fun byte => (0, byte)) = bytes.length := fun bytes => by
    induction bytes with
    | nil => rfl
    | cons byte bytes ih =>
        simp only [Offer.work, List.map_cons, List.sum_cons, List.length_cons] at ih ⊢
        omega
  obtain ⟨byte, rest, rfl⟩ := List.exists_cons_of_ne_nil nonempty
  cases lead with
  | zero => exact (prompt (byte :: rest)).trans (Nat.zero_add _).symm
  | succ lead =>
      have rest_work := prompt rest
      simp only [Offer.work, Offer.backToBack, Offer.advance, List.map_cons, List.sum_cons, List.length_cons,
        Nat.add_sub_cancel] at rest_work ⊢
      omega

/-- A block back to back into a ready sink keeps the machine busy for one cycle for each byte of its stream and of
    its matches, one more, and those that its source waits behind the start. -/
theorem backToBack_busyFor (reached : dut.Reached) (idle : dut.state = .idle) (block : Block)
    (fits : block.decode.length ≤ maxBlockSize) (lead : Nat) (started : schedule.start 0 = true)
    (sink : ∀ t, schedule.ready t = true) :
    (load dut (Offer.backToBack lead block.encode)).BusyFor schedule
      (lead - 1 + block.encode.length + block.matchBytes + 1) := by
  have ledRun : ∀ t, ((load dut (Offer.backToBack lead block.encode)).run schedule t).Led := by
    intro t
    induction t with
    | zero => exact led_load idle lead block.encode
    | succ t ih => exact ih.cycle _ _
  have reachedRun := reached_run (load dut (Offer.backToBack lead block.encode)) reached schedule
  have calm := calmRun_of_led (led_load idle lead block.encode) sink
  have serving : Serving block.decode .token
      ((load dut (Offer.backToBack lead block.encode)).run schedule 1) [] := by
    have first := serving_start (schedule.ready 0) reached idle (Offer.bytes_backToBack lead block.encode)
    rwa [← started] at first
  have left : Serving.cyclesLeft .token ((load dut (Offer.backToBack lead block.encode)).run schedule 1) =
      lead - 1 + block.encode.length + block.matchBytes := by
    have waits : ((load dut (Offer.backToBack lead block.encode)).run schedule 1).offer =
        (Offer.backToBack lead block.encode).advance false := by
      rw [run, run, Bench.cycle, load, (reached.rest idle).2]
    rw [Serving.cyclesLeft, waits, Offer.bytes_advance_false, Offer.bytes_backToBack, matchBytes_encode,
      work_backToBack]
    exact fun empty => (decodes_encode block).rest_ne empty
  obtain ⟨finished, ongoing⟩ := run_exact fits ledRun calm sink serving
  rw [left, Nat.add_comm 1] at finished
  rw [left] at ongoing
  generalize lead - 1 + block.encode.length + block.matchBytes = n at finished ongoing ⊢
  have idleBefore : (load dut (Offer.backToBack lead block.encode)).dut.state = .idle := idle
  generalize load dut (Offer.backToBack lead block.encode) = bench at finished ongoing reachedRun idleBefore
  have idleAfter : (bench.run schedule (n + 2)).dut.state = .idle := by
    rw [run, Bench.cycle, Decompressor.step_state, Decompressor.nextState, finished.state]
  refine ⟨fun t within => (reachedRun t).busyShown.trans ?busy, fun t within => ?done⟩
  case busy =>
    have place : t = 0 ∨ (∃ k, k < n ∧ t = 1 + k) ∨ t = n + 1 ∨ t = n + 2 := by
      rcases Nat.lt_or_ge t (n + 1) with early | late
      · rcases Nat.eq_zero_or_pos t with rfl | positive
        · exact Or.inl rfl
        · exact Or.inr (Or.inl ⟨t - 1, by omega, by omega⟩)
      · omega
    rcases place with rfl | ⟨k, below, rfl⟩ | rfl | rfl
    · exact ⟨fun busy => absurd idleBefore busy, fun range => by omega⟩
    · exact ⟨fun _ => by omega, fun _ => (ongoing k below).1⟩
    · refine ⟨fun _ => by omega, fun _ => ?_⟩
      rw [finished.state]
      decide
    · exact ⟨fun busy => absurd idleAfter busy, fun range => by omega⟩
  case done =>
    refine ⟨fun ended => ?_, fun last => last ▸ finished.state⟩
    rcases Nat.lt_or_ge t (n + 1) with early | late
    · rcases Nat.eq_zero_or_pos t with rfl | positive
      · rw [run, idleBefore] at ended
        cases ended
      · have busy := (ongoing (t - 1) (by omega)).2
        rw [Nat.add_sub_cancel' positive] at busy
        exact absurd ended busy
    · omega

/-- The block of one match: ten bytes of stream, fifteen match bytes and the done cycle. -/
theorem repetitive_busyFor :
    (load (powerUp fun _ => 0xEE) (Offer.backToBack 1 repetitive.encode)).BusyFor pulse 26 :=
  backToBack_busyFor (powerUp_reached _) rfl repetitive (by decide) 1 rfl fun _ => rfl

end Runs

end Bench

end Zftl.Rtl
