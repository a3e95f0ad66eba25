/-
Module: Zftl.Rtl.Simulation
Layer: Rtl
Purpose: The decompressor decodes the LZ4 block format. `Serving` ties the registers to the parser of the
  format: the state and the length registers are those of the parser's phase, the history holds the bytes
  produced so far, and what has been accepted, with the byte still on the wires, is exactly those bytes.
  Every calm cycle keeps the relation and brings the parser forward or the source closer to its next byte,
  so a calm run of a well-formed block ends with exactly the decoded bytes.
Imports: Mathlib.Data.List.GetD, Mathlib.Data.List.Induction, Zftl.Rtl.Bench
Trusted boundary: none
Main exports: Control, Serving, Finished, Serving.cycle, Serving.finishes, Finished.cycle, serving_start
Open obligations: none
-/
import Mathlib.Data.List.GetD
import Mathlib.Data.List.Induction
import Zftl.Rtl.Bench

namespace Zftl.Rtl

open Lz4Format Lz4Format.Phase

/-- Bytes as they are accepted: the last flag is up beside byte number 4096. -/
def tagged (out : List Byte) : List (Byte × Bool) :=
  out.mapIdx fun i byte => (byte, decide (i + 1 = maxBlockSize))

theorem tagged_append (out : List Byte) (byte : Byte) :
    tagged (out ++ [byte]) = tagged out ++ [(byte, decide (out.length + 1 = maxBlockSize))] :=
  List.mapIdx_concat

theorem map_fst_tagged (out : List Byte) : (tagged out).map Prod.fst = out := by
  induction out using List.reverseRecOn with
  | nil => rfl
  | append_singleton out byte ih =>
      rw [tagged_append, List.map_append, ih]
      rfl

/-- The registers of a phase of the parser. -/
def Control (d : Decompressor) : Phase → Prop
  | .token => d.state = .token ∧ d.sAxisTready = true
  | .extLit length matchNibble =>
      d.state = .extLit ∧ d.sAxisTready = true ∧ d.mAxisTvalid = false ∧ d.litLen.toNat = length ∧
        d.savedMatchToken = matchNibble
  | .literal left matchNibble =>
      d.state = .literal ∧ d.sAxisTready = true ∧ d.litLen.toNat = left ∧
        d.savedMatchToken = matchNibble
  | .offsetLow matchNibble =>
      d.state = .offsetL ∧ d.sAxisTready = true ∧ d.savedMatchToken = matchNibble
  | .offsetHigh matchNibble low =>
      d.state = .offsetH ∧ d.sAxisTready = true ∧ d.mAxisTvalid = false ∧
        d.savedMatchToken = matchNibble ∧ d.offsetLow = low
  | .extMatch offset length =>
      d.state = .extMatch ∧ d.sAxisTready = true ∧ d.mAxisTvalid = false ∧
        d.matchOffset.toNat = offset ∧ d.matchLen.toNat = length
  | .copy offset left =>
      d.state = .matchCopy ∧ d.sAxisTready = false ∧ d.matchOffset.toNat = offset ∧
        d.matchLen.toNat = left

/-- The byte on the output wires. -/
def pending (d : Decompressor) : List (Byte × Bool) :=
  if d.mAxisTvalid then [(d.mAxisTdata, d.mAxisTlast)] else []

/-- The machine has produced `out` and holds it in its history. -/
structure Holding (d : Decompressor) (out : List Byte) : Prop where
  writePtr : d.writePtr.toNat = out.length
  counted : d.decompressedBytes.toNat = out.length
  history : ∀ i, i < out.length → d.historyRam (BitVec.ofNat 12 i) = out.getD i 0
  lastByteSeen : d.lastByteSeen = false

/-- The machine is in the phase of a parser that goes on to decode to `final`, and everything produced so far
    has been accepted or is on the wires. -/
structure Serving (final : List Byte) (phase : Phase) (bench : Bench) (out : List Byte) : Prop where
  decodes : Decodes final phase bench.offer.bytes out
  control : Control bench.dut phase
  holding : Holding bench.dut out
  output : bench.accepted ++ pending bench.dut = tagged out

/-- The machine is done, with everything accepted or on the wires. -/
structure Finished (final : List Byte) (bench : Bench) : Prop where
  state : bench.dut.state = .done
  counted : bench.dut.decompressedBytes.toNat = final.length
  offer : bench.offer = []
  output : bench.accepted ++ pending bench.dut = tagged final

/-! ### The history -/

/-- A cell of the history. -/
theorem setWidth_writePtr {pointer : BitVec 13} {n : Nat} (value : pointer.toNat = n) :
    pointer.setWidth 12 = BitVec.ofNat 12 n := by
  apply BitVec.eq_of_toNat_eq
  rw [BitVec.toNat_setWidth, BitVec.toNat_ofNat, value]

/-- A 13-bit count of at most 4096 bytes. -/
theorem toNat_add_count {register : BitVec 13} {n k : Nat} (value : register.toNat = n)
    (room : n + k ≤ maxBlockSize) : (register + BitVec.ofNat 13 k).toNat = n + k := by
  rw [maxBlockSize] at room
  rw [BitVec.toNat_add, BitVec.toNat_ofNat, value]
  omega

namespace Holding

variable {d : Decompressor} {i : Inputs} {out : List Byte}

/-- A recorded byte extends the history. -/
theorem writeHistory (holding : Holding d out) (room : out.length < maxBlockSize) (byte : Byte) {k : Nat}
    (inside : k < (out ++ [byte]).length) :
    d.writeHistory byte (BitVec.ofNat 12 k) = (out ++ [byte]).getD k 0 := by
  have bound : out.length < 4096 := room
  have written : d.writePtr.toNat < maxBlockSize := by rwa [holding.writePtr]
  rw [Decompressor.writeHistory, if_pos written, setWidth_writePtr holding.writePtr]
  rw [List.length_append, List.length_singleton] at inside
  rcases Nat.lt_succ_iff_lt_or_eq.mp inside with earlier | here
  · have other : BitVec.ofNat 12 k ≠ BitVec.ofNat 12 out.length := fun same => by
      have values := congrArg BitVec.toNat same
      rw [BitVec.toNat_ofNat, BitVec.toNat_ofNat] at values
      omega
    rw [Function.update_of_ne other, holding.history k earlier, List.getD_append _ _ _ _ earlier]
  · rw [here, Function.update_self]
    simp

/-- An edge inside a block adds the recorded byte to what is held. -/
theorem step (holding : Holding d out) (busy : d.state ≠ .idle) (observed : d.observeLast i = d)
    (room : out.length + (d.records i).toList.length ≤ maxBlockSize) :
    Holding (d.step i) (out ++ (d.records i).toList) := by
  have counters := d.step_counters i busy
  refine ⟨?_, ?_, ?_, ?_⟩
  · rw [counters.1, List.length_append]
    exact toNat_add_count holding.writePtr room
  · rw [counters.2, List.length_append]
    exact toNat_add_count holding.counted room
  · intro k inside
    rw [d.step_historyRam]
    cases record : d.records i with
    | none =>
        rw [record] at inside
        simp only [Option.toList_none, List.append_nil] at inside ⊢
        exact holding.history k inside
    | some byte =>
        rw [record] at inside room
        exact holding.writeHistory room byte inside
  · rw [d.step_lastByteSeen i busy, observed]
    exact holding.lastByteSeen

/-- An edge that shows no byte leaves what is held. -/
theorem step_silent (holding : Holding d out) (busy : d.state ≠ .idle) (observed : d.observeLast i = d)
    (silent : d.shows i = none) : Holding (d.step i) out := by
  have nothing : d.records i = none := by
    rw [Decompressor.records, silent]
    exact ite_self none
  have counters := d.step_counters i busy
  rw [nothing] at counters
  refine ⟨?_, ?_, ?_, ?_⟩
  · rw [counters.1, ← holding.writePtr]
    exact congrArg BitVec.toNat (BitVec.add_zero d.writePtr)
  · rw [counters.2, ← holding.counted]
    exact congrArg BitVec.toNat (BitVec.add_zero d.decompressedBytes)
  · rw [d.step_historyRam, nothing]
    exact holding.history
  · rw [d.step_lastByteSeen i busy, observed]
    exact holding.lastByteSeen

/-- The cell a match reads holds the byte `offset` bytes back. -/
theorem matchRead {offset : Nat} (holding : Holding d out) (room : out.length < maxBlockSize)
    (value : d.matchOffset.toNat = offset) (inside : 1 ≤ offset ∧ offset ≤ out.length) :
    d.historyRam d.matchReadAddr = out.getD (out.length - offset) 0 := by
  have bound : out.length < 4096 := room
  have wp := holding.writePtr
  have reaches : d.matchOffset.setWidth 13 ≤ d.writePtr := by
    rw [BitVec.le_def, BitVec.toNat_setWidth, value, wp]
    exact Nat.le_trans (Nat.mod_le _ _) inside.2
  have address : d.matchReadAddr = BitVec.ofNat 12 (out.length - offset) := by
    rw [Decompressor.matchReadAddr, if_pos reaches]
    apply BitVec.eq_of_toNat_eq
    rw [BitVec.toNat_sub, BitVec.toNat_setWidth, BitVec.toNat_setWidth, BitVec.toNat_ofNat, value, wp]
    omega
  rw [address]
  exact holding.history _ (by omega)

/-- What is on the wires after an edge that shows a byte. -/
theorem pending_step (holding : Holding d out) {byte : Byte} (shown : d.shows i = some byte) :
    pending (d.step i) = [(byte, decide (out.length + 1 = maxBlockSize))] := by
  have wires := d.step_of_shows i shown
  have same : (d.writePtr.toNat = maxBlockSize - 1) = (out.length + 1 = maxBlockSize) := by
    rw [holding.writePtr, maxBlockSize]
    exact propext ⟨fun at_end => by omega, fun at_end => by omega⟩
  rw [pending, if_pos wires.1, d.step_mAxisTdata, shown, wires.2]
  simp only [same, Option.getD_some]

end Holding

/-! ### One cycle -/

/-- More bytes are behind the offered one. -/
theorem Offer.last_eq_false {tail : Offer} {byte : Byte} (more : tail.bytes ≠ []) :
    Offer.last ((0, byte) :: tail) = false := by
  cases tail with
  | nil => exact absurd rfl more
  | cons item tail => rfl

namespace Serving

variable {final out : List Byte} {bench : Bench} {start ready : Bool} {byte : Byte} {tail : Offer}

/-- A sink that is ready whenever a byte is on the wires takes it. -/
theorem taken_of_ready (d : Bench) (calm : d.dut.mAxisTvalid = true → ready = true) :
    d.taken ready = pending d.dut := by
  cases valid : d.dut.mAxisTvalid with
  | false => simp [Bench.taken, pending, valid]
  | true => simp [Bench.taken, pending, valid, calm valid]

/-- A cycle that ends with the valid wire down leaves nothing pending. -/
theorem output_of_down (output : bench.accepted ++ pending bench.dut = tagged out)
    (calm : bench.dut.mAxisTvalid = true → ready = true)
    (down : (bench.cycle start ready).dut.mAxisTvalid = false) :
    (bench.cycle start ready).accepted ++ pending (bench.cycle start ready).dut = tagged out := by
  have taken := taken_of_ready bench calm
  simp only [pending, down, Bool.false_eq_true, if_false, List.append_nil]
  rw [Bench.cycle, taken]
  exact output

/-- A cycle that takes nothing and leaves the wires as they were. -/
theorem output_of_same (output : bench.accepted ++ pending bench.dut = tagged out)
    (calm : ¬(bench.dut.mAxisTvalid = true ∧ ready = true))
    (same : pending (bench.cycle start ready).dut = pending bench.dut) :
    (bench.cycle start ready).accepted ++ pending (bench.cycle start ready).dut = tagged out := by
  have taken : bench.taken ready = [] := by
    rw [← Bool.and_eq_true, Bool.not_eq_true] at calm
    simp [Bench.taken, calm]
  rw [same, Bench.cycle, taken, List.append_nil]
  exact output

/-- A cycle that starts with the valid wire down and leaves the wires as they were. -/
theorem output_of_quiet (output : bench.accepted ++ pending bench.dut = tagged out)
    (down : bench.dut.mAxisTvalid = false)
    (same : pending (bench.cycle start ready).dut = pending bench.dut) :
    (bench.cycle start ready).accepted ++ pending (bench.cycle start ready).dut = tagged out := by
  refine output_of_same output ?_ same
  rw [down]
  exact fun taken => Bool.false_ne_true taken.1

/-- A cycle that puts the next byte on the wires. -/
theorem output_of_emit {next : Byte} (output : bench.accepted ++ pending bench.dut = tagged out)
    (calm : ready = true)
    (emitted : pending (bench.cycle start ready).dut =
      [(next, decide (out.length + 1 = maxBlockSize))]) :
    (bench.cycle start ready).accepted ++ pending (bench.cycle start ready).dut =
      tagged (out ++ [next]) := by
  have taken := taken_of_ready bench fun _ => calm
  rw [emitted, tagged_append, ← output, Bench.cycle, taken]

/-! ### Idle cycles of the source -/

/-- Without an offered byte nothing is observed. -/
theorem observeLast_of_idle {d : Decompressor} {i : Inputs} (idle : i.sAxisTvalid = false) :
    d.observeLast i = d := by
  simp [Decompressor.observeLast, Decompressor.transfers, idle]

/-- Before the last byte nothing is observed. -/
theorem observeLast_of_more {d : Decompressor} {i : Inputs} (more : i.sAxisTlast = false) :
    d.observeLast i = d := by
  simp [Decompressor.observeLast, more]

/-- An idle cycle of the source takes no byte. -/
theorem bytes_advance_of_idle {offer : Offer} (idle : offer.valid = false) (taken : Bool) :
    (offer.advance taken).bytes = offer.bytes := by
  match offer, idle with
  | [], _ => rfl
  | (_ + 1, _) :: _, _ => rfl

/-- A cycle that takes no byte of the stream and leaves the machine as it was. -/
theorem stays {phase : Phase} (serving : Serving final phase bench out)
    (stream : (bench.cycle start ready).offer.bytes = bench.offer.bytes)
    (same : (bench.cycle start ready).dut = bench.dut)
    (calm : ¬(bench.dut.mAxisTvalid = true ∧ ready = true)) :
    Serving final phase (bench.cycle start ready) out := by
  refine ⟨?_, ?_, ?_, output_of_same serving.output calm (by rw [same])⟩
  · rw [stream]
    exact serving.decodes
  · rw [same]
    exact serving.control
  · rw [same]
    exact serving.holding

/-- A cycle that takes no byte of the stream and at most takes the valid wire down. -/
theorem lowered {phase : Phase} (serving : Serving final phase bench out)
    (stream : (bench.cycle start ready).offer.bytes = bench.offer.bytes)
    (down : (bench.cycle start ready).dut = { bench.dut with mAxisTvalid := false })
    (control : Control { bench.dut with mAxisTvalid := false } phase)
    (calm : bench.dut.mAxisTvalid = true → ready = true) :
    Serving final phase (bench.cycle start ready) out := by
  have holding := serving.holding
  refine ⟨?_, ?_, ?_, output_of_down serving.output calm (by rw [down])⟩
  · rw [stream]
    exact serving.decodes
  · rw [down]
    exact control
  · rw [down]
    exact ⟨holding.1, holding.2, holding.3, holding.4⟩

/-- A calm cycle without an offered byte leaves the parser where it is. -/
theorem idle {phase : Phase} (start : Bool) (serving : Serving final phase bench out)
    (idle : bench.offer.valid = false) (calm : bench.CalmCycle ready)
    (reading : ∀ offset left, phase ≠ .copy offset left) :
    Serving final phase (bench.cycle start ready) out := by
  have stream : (bench.cycle start ready).offer.bytes = bench.offer.bytes := by
    rw [Bench.cycle, bytes_advance_of_idle idle]
  have nothing : (bench.inputs start ready).sAxisTvalid = false := idle
  have noTransfer : bench.dut.transfers (bench.inputs start ready) = false := by
    rw [Decompressor.transfers, nothing, Bool.false_and]
  have notLast := observeLast_of_idle (d := bench.dut) nothing
  have control := serving.control
  cases phase with
  | token =>
      obtain ⟨state, tready⟩ := control
      rw [Bench.CalmCycle, state] at calm
      apply serving.lowered stream _ ⟨state, tready⟩ calm
      simp [Bench.cycle, Decompressor.step, state, Decompressor.stepToken, noTransfer, notLast]
  | extLit length matchNibble =>
      obtain ⟨state, tready, down, rest⟩ := control
      apply serving.stays stream _ (by simp [down])
      simp [Bench.cycle, Decompressor.step, state, Decompressor.stepExtLit, noTransfer, notLast]
  | literal left matchNibble =>
      obtain ⟨state, rest⟩ := control
      rw [Bench.CalmCycle, state] at calm
      have offered : bench.offer ≠ [] := fun empty =>
        serving.decodes.rest_ne (by rw [empty]; rfl)
      apply serving.stays stream _ (calm.2 offered idle)
      simp [Bench.cycle, Decompressor.step, state, Decompressor.stepLiteral, nothing, notLast]
  | offsetLow matchNibble =>
      obtain ⟨state, rest⟩ := control
      rw [Bench.CalmCycle, state] at calm
      apply serving.lowered stream _ ⟨state, rest⟩ calm
      simp [Bench.cycle, Decompressor.step, state, Decompressor.stepOffsetL, noTransfer, notLast]
  | offsetHigh matchNibble low =>
      obtain ⟨state, tready, down, rest⟩ := control
      apply serving.stays stream _ (by simp [down])
      simp [Bench.cycle, Decompressor.step, state, Decompressor.stepOffsetH, noTransfer, notLast]
  | extMatch offset length =>
      obtain ⟨state, tready, down, rest⟩ := control
      apply serving.stays stream _ (by simp [down])
      simp [Bench.cycle, Decompressor.step, state, Decompressor.stepExtMatch, noTransfer, notLast]
  | copy offset left => exact absurd rfl (reading offset left)

/-! ### Transfers -/

/-- A cycle in which a ready machine takes an offered byte that is not the last. -/
structure Transfer (bench : Bench) (inputs : Inputs) (byte : Byte) : Prop where
  valid : inputs.sAxisTvalid = true
  transfers : bench.dut.transfers inputs = true
  data : inputs.sAxisTdata = byte
  more : inputs.sAxisTlast = false
  observed : bench.dut.observeLast inputs = bench.dut

theorem transfer (start ready : Bool) (offered : bench.offer = (0, byte) :: tail)
    (tready : bench.dut.sAxisTready = true) (more : tail.bytes ≠ []) :
    Transfer bench (bench.inputs start ready) byte := by
  have last : (bench.inputs start ready).sAxisTlast = false := by
    rw [Bench.inputs, offered]
    exact Offer.last_eq_false more
  have valid : (bench.inputs start ready).sAxisTvalid = true := by
    rw [Bench.inputs, offered]
    rfl
  refine ⟨valid, ?_, ?_, last, observeLast_of_more last⟩
  · rw [Decompressor.transfers, valid, tready]
    rfl
  · rw [Bench.inputs, offered]
    rfl

/-- A ready machine takes the offered byte. -/
theorem offer_cycle (offered : bench.offer = (0, byte) :: tail)
    (tready : bench.dut.sAxisTready = true) : (bench.cycle start ready).offer = tail := by
  rw [Bench.cycle, offered, tready]
  rfl

/-- The parser behind a byte that a ready machine takes. -/
theorem decodes_cycle {phase : Phase} (offered : bench.offer = (0, byte) :: tail)
    (tready : bench.dut.sAxisTready = true) (next : Decodes final phase tail.bytes out) :
    Decodes final phase (bench.cycle start ready).offer.bytes out := by
  rw [offer_cycle offered tready]
  exact next

/-- The token byte. -/
theorem token (serving : Serving final .token bench out)
    (offered : bench.offer = (0, byte) :: tail) (calm : bench.CalmCycle ready) :
    Serving final (afterToken byte) (bench.cycle start ready) out := by
  obtain ⟨state, tready⟩ := serving.control
  have next : Decodes final (afterToken byte) tail.bytes out := by
    have decodes := serving.decodes
    rw [offered] at decodes
    cases decodes with
    | token next => exact next
  have wires := transfer start ready offered tready next.rest_ne
  have kept : Holding (bench.cycle start ready).dut out := by
    apply serving.holding.step_silent _ wires.observed (by rw [Decompressor.shows, state])
    rw [state]
    decide
  rw [Bench.CalmCycle, state] at calm
  have stepped : (bench.cycle start ready).dut = bench.dut.stepToken (bench.inputs start ready) := by
    simp only [Bench.cycle, Decompressor.step, state]
  simp only [Decompressor.stepToken, wires.transfers, if_true, wires.observed, wires.data] at stepped
  have decodes : Decodes final (afterToken byte) (bench.cycle start ready).offer.bytes out :=
    decodes_cycle offered tready next
  by_cases extended : byte.extractLsb' 4 4 = 15
  · rw [if_pos extended] at stepped
    refine ⟨decodes, ?_, kept, output_of_down serving.output calm (by rw [stepped])⟩
    rw [afterToken, if_pos extended, stepped]
    exact ⟨rfl, rfl, rfl, rfl, rfl⟩
  · rw [if_neg extended] at stepped
    by_cases none : byte.extractLsb' 4 4 = 0
    · have notPositive : ¬byte.extractLsb' 4 4 > 0 := by
        rw [none]
        exact BitVec.lt_irrefl _
      rw [if_neg notPositive] at stepped
      refine ⟨decodes, ?_, kept, output_of_down serving.output calm (by rw [stepped])⟩
      rw [afterToken, if_neg extended, if_pos none, stepped]
      exact ⟨rfl, rfl, rfl⟩
    · have positive : byte.extractLsb' 4 4 > 0 := (BitVec.pos_iff_ne_zero _).mpr none
      rw [if_pos positive] at stepped
      refine ⟨decodes, ?_, kept, output_of_down serving.output calm (by rw [stepped])⟩
      rw [afterToken, if_neg extended, if_neg none, stepped]
      refine ⟨rfl, rfl, ?_, rfl⟩
      rw [BitVec.toNat_setWidth]
      exact Nat.mod_eq_of_lt (Nat.lt_trans (byte.extractLsb' 4 4).isLt (by decide))

/-- The sum of a 16-bit length and a byte, when it fits a block. -/
theorem toNat_add_byte {length : BitVec 16} {byte : Byte} {total : Nat}
    (sum : length.toNat + byte.toNat = total) (fits : total ≤ maxBlockSize) :
    (length + byte.setWidth 16).toNat = total := by
  have small : byte.toNat < 2 ^ 8 := byte.isLt
  rw [maxBlockSize] at fits
  rw [BitVec.toNat_add, BitVec.toNat_setWidth_of_le (by decide), sum]
  exact Nat.mod_eq_of_lt (by omega)

/-- An extension byte of the literal length. -/
theorem extLit {length : Nat} {matchNibble : BitVec 4} (fits : final.length ≤ maxBlockSize)
    (serving : Serving final (.extLit length matchNibble) bench out)
    (offered : bench.offer = (0, byte) :: tail) :
    Serving final (afterExtLit length matchNibble byte) (bench.cycle start ready) out := by
  obtain ⟨state, tready, down, litLen, saved⟩ := serving.control
  have next : Decodes final (afterExtLit length matchNibble byte) tail.bytes out := by
    have decodes := serving.decodes
    rw [offered] at decodes
    cases decodes with
    | extLit next => exact next
  have wires := transfer start ready offered tready next.rest_ne
  have kept : Holding (bench.cycle start ready).dut out := by
    apply serving.holding.step_silent _ wires.observed (by rw [Decompressor.shows, state])
    rw [state]
    decide
  have stepped : (bench.cycle start ready).dut = bench.dut.stepExtLit (bench.inputs start ready) := by
    simp only [Bench.cycle, Decompressor.step, state]
  simp only [Decompressor.stepExtLit, wires.transfers, if_true, wires.observed, wires.data] at stepped
  have decodes : Decodes final (afterExtLit length matchNibble byte)
      (bench.cycle start ready).offer.bytes out :=
    decodes_cycle offered tready next
  -- What the length has grown to still fits the block.
  have bounded : length + byte.toNat ≤ maxBlockSize := by
    have needed := next.length_le
    rw [afterExtLit] at needed
    split at needed
    · rename_i full
      rw [full]
      exact Nat.le_trans (Nat.le_trans (Nat.le_add_left _ _) needed) fits
    · exact Nat.le_trans (Nat.le_trans (Nat.le_add_left _ _) needed) fits
  have grown := toNat_add_byte (by rw [litLen]) bounded
  by_cases full : byte = 255
  · rw [if_neg (not_not.mpr full)] at stepped
    refine ⟨decodes, ?_, kept, output_of_quiet serving.output down (by rw [stepped]; rfl)⟩
    rw [full] at grown
    rw [afterExtLit, if_pos full, stepped]
    exact ⟨state, tready, down, by rw [full]; exact grown, saved⟩
  · rw [if_pos full] at stepped
    refine ⟨decodes, ?_, kept, output_of_quiet serving.output down (by rw [stepped]; rfl)⟩
    rw [afterExtLit, if_neg full, stepped]
    exact ⟨rfl, rfl, grown, saved⟩

/-- An extension byte of the match length. -/
theorem extMatch {offset length : Nat} (fits : final.length ≤ maxBlockSize)
    (serving : Serving final (.extMatch offset length) bench out)
    (offered : bench.offer = (0, byte) :: tail) :
    Serving final (afterExtMatch offset length byte) (bench.cycle start ready) out := by
  obtain ⟨state, tready, down, matchOffset, matchLen⟩ := serving.control
  have next : Decodes final (afterExtMatch offset length byte) tail.bytes out := by
    have decodes := serving.decodes
    rw [offered] at decodes
    cases decodes with
    | extMatch next => exact next
  have wires := transfer start ready offered tready next.rest_ne
  have kept : Holding (bench.cycle start ready).dut out := by
    apply serving.holding.step_silent _ wires.observed (by rw [Decompressor.shows, state])
    rw [state]
    decide
  have stepped : (bench.cycle start ready).dut = bench.dut.stepExtMatch (bench.inputs start ready) := by
    simp only [Bench.cycle, Decompressor.step, state]
  simp only [Decompressor.stepExtMatch, wires.transfers, if_true, wires.observed, wires.data]
    at stepped
  have decodes : Decodes final (afterExtMatch offset length byte)
      (bench.cycle start ready).offer.bytes out :=
    decodes_cycle offered tready next
  have bounded : length + byte.toNat ≤ maxBlockSize := by
    have needed := next.length_le
    rw [afterExtMatch] at needed
    split at needed
    · rename_i full
      rw [full]
      exact Nat.le_trans (Nat.le_of_succ_le (Nat.le_trans (Nat.le_add_left _ _) needed)) fits
    · exact Nat.le_trans (Nat.le_of_succ_le (Nat.le_trans (Nat.le_add_left _ _) needed)) fits
  have grown := toNat_add_byte (by rw [matchLen]) bounded
  by_cases full : byte = 255
  · rw [if_neg (not_not.mpr full)] at stepped
    refine ⟨decodes, ?_, kept, output_of_quiet serving.output down (by rw [stepped]; rfl)⟩
    rw [full] at grown
    rw [afterExtMatch, if_pos full, stepped]
    exact ⟨state, tready, down, matchOffset, by rw [full]; exact grown⟩
  · rw [if_pos full] at stepped
    refine ⟨decodes, ?_, kept, output_of_quiet serving.output down (by rw [stepped]; rfl)⟩
    rw [afterExtMatch, if_neg full, stepped]
    exact ⟨rfl, rfl, matchOffset, grown⟩

/-- The low byte of an offset. -/
theorem offsetLow {matchNibble : BitVec 4} (serving : Serving final (.offsetLow matchNibble) bench out)
    (offered : bench.offer = (0, byte) :: tail) (calm : bench.CalmCycle ready) :
    Serving final (.offsetHigh matchNibble byte) (bench.cycle start ready) out := by
  obtain ⟨state, tready, saved⟩ := serving.control
  have next : Decodes final (.offsetHigh matchNibble byte) tail.bytes out := by
    have decodes := serving.decodes
    rw [offered] at decodes
    cases decodes with
    | offsetLow next => exact next
  have wires := transfer start ready offered tready next.rest_ne
  have kept : Holding (bench.cycle start ready).dut out := by
    apply serving.holding.step_silent _ wires.observed (by rw [Decompressor.shows, state])
    rw [state]
    decide
  rw [Bench.CalmCycle, state] at calm
  have stepped : (bench.cycle start ready).dut = bench.dut.stepOffsetL (bench.inputs start ready) := by
    simp only [Bench.cycle, Decompressor.step, state]
  simp only [Decompressor.stepOffsetL, wires.transfers, if_true, wires.observed, wires.data] at stepped
  refine ⟨decodes_cycle offered tready next, ?_, kept,
    output_of_down serving.output calm (by rw [stepped])⟩
  rw [stepped]
  exact ⟨rfl, rfl, rfl, saved, rfl⟩

/-- The high byte of an offset. -/
theorem offsetHigh {matchNibble : BitVec 4} {low : Byte}
    (serving : Serving final (.offsetHigh matchNibble low) bench out)
    (offered : bench.offer = (0, byte) :: tail) :
    Serving final (afterOffset matchNibble (byte ++ low).toNat) (bench.cycle start ready) out := by
  obtain ⟨state, tready, down, saved, lowByte⟩ := serving.control
  have next : Decodes final (afterOffset matchNibble (byte ++ low).toNat) tail.bytes out := by
    have decodes := serving.decodes
    rw [offered] at decodes
    cases decodes with
    | offsetHigh _ next => exact next
  have wires := transfer start ready offered tready next.rest_ne
  have kept : Holding (bench.cycle start ready).dut out := by
    apply serving.holding.step_silent _ wires.observed (by rw [Decompressor.shows, state])
    rw [state]
    decide
  have stepped : (bench.cycle start ready).dut = bench.dut.stepOffsetH (bench.inputs start ready) := by
    simp only [Bench.cycle, Decompressor.step, state]
  simp only [Decompressor.stepOffsetH, wires.transfers, if_true, wires.observed, wires.data, saved,
    lowByte] at stepped
  have decodes : Decodes final (afterOffset matchNibble (byte ++ low).toNat)
      (bench.cycle start ready).offer.bytes out :=
    decodes_cycle offered tready next
  by_cases extended : matchNibble = 15
  · rw [if_pos extended] at stepped
    refine ⟨decodes, ?_, kept, output_of_quiet serving.output down (by rw [stepped]; rfl)⟩
    rw [afterOffset, if_pos extended, stepped]
    exact ⟨rfl, rfl, down, rfl, rfl⟩
  · rw [if_neg extended] at stepped
    refine ⟨decodes, ?_, kept, output_of_quiet serving.output down (by rw [stepped]; rfl)⟩
    rw [afterOffset, if_neg extended, stepped]
    refine ⟨rfl, rfl, rfl, ?_⟩
    have small : matchNibble.toNat < 2 ^ 4 := matchNibble.isLt
    have plusFour : (matchNibble.setWidth 16 + 4).toNat = (matchNibble.toNat + 4) % 2 ^ 16 := by
      rw [BitVec.toNat_add, BitVec.toNat_setWidth_of_le (by decide)]
      rfl
    exact plusFour.trans (Nat.mod_eq_of_lt (by omega))

/-! ### Output bytes -/

/-- A cycle that shows a byte to a ready sink and records it. -/
theorem emitted {phase phase' : Phase} {next : Byte} (serving : Serving final phase bench out)
    (busy : bench.dut.state ≠ .idle) (calm : ready = true) (room : out.length < maxBlockSize)
    (shown : bench.dut.shows (bench.inputs start ready) = some next)
    (observed : bench.dut.observeLast (bench.inputs start ready) = bench.dut)
    (decodes : Decodes final phase' (bench.cycle start ready).offer.bytes (out ++ [next]))
    (control : Control (bench.cycle start ready).dut phase') :
    Serving final phase' (bench.cycle start ready) (out ++ [next]) := by
  have recorded : bench.dut.records (bench.inputs start ready) = some next := by
    rw [Decompressor.records, shown]
    exact if_pos calm
  have held := serving.holding.step busy observed (by rw [recorded]; exact room)
  rw [recorded] at held
  exact ⟨decodes, control, held,
    output_of_emit serving.output calm (serving.holding.pending_step shown)⟩

/-- A length that counts down. -/
theorem toNat_pred {length : BitVec 16} {left : Nat} (value : length.toNat = left + 1) :
    (length - 1).toNat = left := by
  have positive : (1 : BitVec 16) ≤ length := by
    rw [BitVec.le_def, value]
    exact Nat.succ_le_succ (Nat.zero_le left)
  rw [BitVec.toNat_sub_of_le positive, value]
  exact Nat.add_sub_cancel left 1

/-- A literal that is not the last byte of the block. -/
theorem literal {left : Nat} {matchNibble : BitVec 4} (fits : final.length ≤ maxBlockSize)
    (serving : Serving final (.literal (left + 1) matchNibble) bench out)
    (offered : bench.offer = (0, byte) :: tail) (calm : ready = true)
    (next : Decodes final (afterLiteral matchNibble left) tail.bytes (out ++ [byte])) :
    Serving final (afterLiteral matchNibble left) (bench.cycle start ready) (out ++ [byte]) := by
  obtain ⟨state, tready, litLen, saved⟩ := serving.control
  have holding := serving.holding
  have wires := transfer start ready offered tready next.rest_ne
  have busy : bench.dut.state ≠ .idle := by
    rw [state]
    decide
  have sink : (bench.inputs start ready).mAxisTready = true := calm
  have shown : bench.dut.shows (bench.inputs start ready) = some byte := by
    rw [Decompressor.shows, state, ← wires.data]
    exact if_pos wires.valid
  have stepped : (bench.cycle start ready).dut = bench.dut.stepLiteral (bench.inputs start ready) := by
    simp only [Bench.cycle, Decompressor.step, state]
  simp only [Decompressor.stepLiteral, wires.valid, sink, if_true, wires.observed, wires.data,
    wires.more, Bool.false_eq_true, or_false] at stepped
  have decodes : Decodes final (afterLiteral matchNibble left)
      (bench.cycle start ready).offer.bytes (out ++ [byte]) :=
    decodes_cycle offered tready next
  -- The block goes on behind this byte, so it is not number 4096.
  have room : out.length + 2 ≤ maxBlockSize := by
    have needed := next.length_le
    rw [List.length_append, List.length_singleton] at needed
    have positive : 1 ≤ (afterLiteral matchNibble left).need := by
      cases left with
      | zero => exact Nat.le_add_left 1 4
      | succ left => exact Nat.le_add_left 1 left
    omega
  cases left with
  | zero =>
      have lastLiteral : bench.dut.litLen = 1 := BitVec.eq_of_toNat_eq litLen
      have notFull : ¬bench.dut.writePtr.toNat + 1 = maxBlockSize := by
        rw [holding.writePtr]
        exact Nat.ne_of_lt room
      rw [if_pos lastLiteral, if_neg notFull] at stepped
      apply serving.emitted busy calm (Nat.lt_of_succ_lt room) shown wires.observed decodes
      rw [stepped]
      exact ⟨rfl, rfl, saved⟩
  | succ left =>
      have moreLiterals : bench.dut.litLen ≠ 1 := fun one => by
        rw [one] at litLen
        exact absurd litLen.symm (Nat.ne_of_gt (Nat.succ_lt_succ (Nat.succ_pos left)))
      rw [if_neg moreLiterals] at stepped
      apply serving.emitted busy calm (Nat.lt_of_succ_lt room) shown wires.observed decodes
      rw [stepped]
      exact ⟨state, rfl, toNat_pred litLen, saved⟩

/-- The last byte of the block. -/
theorem finish {matchNibble : BitVec 4} (fits : final.length ≤ maxBlockSize)
    (serving : Serving final (.literal 1 matchNibble) bench out) (offered : bench.offer = [(0, byte)])
    (calm : ready = true) (complete : out ++ [byte] = final) :
    Finished final (bench.cycle start ready) := by
  obtain ⟨state, tready, litLen, saved⟩ := serving.control
  have holding := serving.holding
  have busy : bench.dut.state ≠ .idle := by
    rw [state]
    decide
  have sink : (bench.inputs start ready).mAxisTready = true := calm
  have valid : (bench.inputs start ready).sAxisTvalid = true := by
    rw [Bench.inputs, offered]
    rfl
  have data : (bench.inputs start ready).sAxisTdata = byte := by
    rw [Bench.inputs, offered]
    rfl
  have last : (bench.inputs start ready).sAxisTlast = true := by
    rw [Bench.inputs, offered]
    rfl
  have lastLiteral : bench.dut.litLen = 1 := BitVec.eq_of_toNat_eq litLen
  have stepped : (bench.cycle start ready).dut = bench.dut.stepLiteral (bench.inputs start ready) := by
    simp only [Bench.cycle, Decompressor.step, state]
  simp only [Decompressor.stepLiteral, valid, sink, if_true, data, last, or_true] at stepped
  rw [if_pos lastLiteral] at stepped
  have room : out.length < maxBlockSize := by
    rw [← complete, List.length_append] at fits
    exact fits
  have shown : bench.dut.shows (bench.inputs start ready) = some byte := by
    rw [Decompressor.shows, state, ← data]
    exact if_pos valid
  have recorded : bench.dut.records (bench.inputs start ready) = some byte := by
    rw [Decompressor.records, shown]
    exact if_pos calm
  rw [← complete]
  have emitted := output_of_emit serving.output calm (holding.pending_step shown)
  refine ⟨?_, ?_, offer_cycle offered tready, emitted⟩
  · rw [stepped]
  · have counters := bench.dut.step_counters (bench.inputs start ready) busy
    rw [recorded] at counters
    rw [Bench.cycle, counters.2, List.length_append]
    exact toNat_add_count holding.counted room

/-- A byte of a match. -/
theorem copy {offset left : Nat} (fits : final.length ≤ maxBlockSize)
    (serving : Serving final (.copy offset (left + 1)) bench out) (calm : bench.CalmCycle ready)
    (inside : 1 ≤ offset ∧ offset ≤ out.length)
    (next : Decodes final (afterCopy offset left) bench.offer.bytes
      (out ++ [out.getD (out.length - offset) 0])) :
    Serving final (afterCopy offset left) (bench.cycle start ready)
      (out ++ [out.getD (out.length - offset) 0]) := by
  obtain ⟨state, tready, matchOffset, matchLen⟩ := serving.control
  have holding := serving.holding
  rw [Bench.CalmCycle, state] at calm
  have busy : bench.dut.state ≠ .idle := by
    rw [state]
    decide
  have sink : (bench.inputs start ready).mAxisTready = true := calm
  have noTransfer : bench.dut.transfers (bench.inputs start ready) = false := by
    rw [Decompressor.transfers, tready, Bool.and_false]
  have observed : bench.dut.observeLast (bench.inputs start ready) = bench.dut := by
    simp [Decompressor.observeLast, noTransfer]
  have room : out.length + 2 ≤ maxBlockSize := by
    have needed := next.length_le
    have left_le := need_afterCopy offset left
    rw [List.length_append, List.length_singleton] at needed
    omega
  have shown : bench.dut.shows (bench.inputs start ready) =
      some (out.getD (out.length - offset) 0) := by
    rw [Decompressor.shows, state, ← holding.matchRead (Nat.lt_of_succ_lt room) matchOffset inside]
  have stepped : (bench.cycle start ready).dut =
      bench.dut.stepMatchCopy (bench.inputs start ready) := by
    simp only [Bench.cycle, Decompressor.step, state]
  simp only [Decompressor.stepMatchCopy, sink, if_true, observed] at stepped
  have decodes : Decodes final (afterCopy offset left) (bench.cycle start ready).offer.bytes
      (out ++ [out.getD (out.length - offset) 0]) := by
    rw [Bench.cycle, tready, Offer.bytes_advance_false]
    exact next
  cases left with
  | zero =>
      have lastByte : bench.dut.matchLen = 1 := BitVec.eq_of_toNat_eq matchLen
      have goesOn : ¬(bench.dut.writePtr.toNat + 1 = maxBlockSize ∨ bench.dut.lastByteSeen = true) := by
        rw [holding.writePtr, holding.lastByteSeen]
        exact not_or.mpr ⟨Nat.ne_of_lt room, Bool.false_ne_true⟩
      rw [if_pos lastByte, if_neg goesOn] at stepped
      apply serving.emitted busy calm (Nat.lt_of_succ_lt room) shown observed decodes
      rw [stepped]
      exact ⟨rfl, rfl⟩
  | succ left =>
      have moreBytes : bench.dut.matchLen ≠ 1 := fun one => by
        rw [one] at matchLen
        exact absurd matchLen.symm (Nat.ne_of_gt (Nat.succ_lt_succ (Nat.succ_pos left)))
      rw [if_neg moreBytes] at stepped
      apply serving.emitted busy calm (Nat.lt_of_succ_lt room) shown observed decodes
      rw [stepped]
      exact ⟨state, rfl, matchOffset, toNat_pred matchLen⟩

/-! ### One calm cycle -/

/-- What is left: bytes to produce, and edges of the source. -/
def remaining (final out : List Byte) (bench : Bench) : Nat :=
  final.length - out.length + bench.offer.work

/-- A byte leaves less to do. -/
theorem remaining_of_byte {next : Byte} {bench' : Bench} (room : out.length < final.length)
    (work : bench'.offer.work ≤ bench.offer.work) :
    remaining final (out ++ [next]) bench' < remaining final out bench := by
  rw [remaining, remaining, List.length_append, List.length_singleton]
  omega

/-- A taken byte of the source leaves less to do. -/
theorem remaining_of_taken (offered : bench.offer = (0, byte) :: tail)
    (tready : bench.dut.sAxisTready = true) :
    remaining final out (bench.cycle start ready) < remaining final out bench := by
  rw [remaining, remaining, offer_cycle offered tready, offered]
  simp only [Offer.work, List.map_cons, List.sum_cons]
  omega

/-- Every calm cycle finishes the block or leaves less to do. -/
theorem cycle {phase : Phase} (start : Bool) (fits : final.length ≤ maxBlockSize)
    (serving : Serving final phase bench out) (calm : bench.CalmCycle ready) :
    Finished final (bench.cycle start ready) ∨
      ∃ phase' out', Serving final phase' (bench.cycle start ready) out' ∧
        remaining final out' (bench.cycle start ready) < remaining final out bench := by
  have bounded := serving.decodes.length_le
  by_cases reading : ∃ offset left, phase = .copy offset left
  · obtain ⟨offset, left, rfl⟩ := reading
    generalize bytes : bench.offer.bytes = stream
    have decodes := serving.decodes
    rw [bytes] at decodes
    cases decodes with
    | copy inside next =>
        rw [← bytes] at next
        refine Or.inr ⟨_, _, copy fits serving calm inside next, remaining_of_byte ?_ ?_⟩
        · exact Nat.lt_of_lt_of_le (Nat.lt_add_of_pos_right (Nat.succ_pos _)) bounded
        · exact Offer.work_advance_le _ _
  · match offered : bench.offer with
    | [] => exact absurd (by rw [offered]; rfl) serving.decodes.rest_ne
    | (idle + 1, byte) :: tail =>
        -- The source idles, and the parser stays where it is.
        have notOffered : bench.offer.valid = false := by rw [offered]; rfl
        have stays := serving.idle start notOffered calm
          fun offset left same => reading ⟨offset, left, same⟩
        refine Or.inr ⟨_, _, stays, ?_⟩
        rw [remaining, remaining, Bench.cycle, offered]
        simp only [Offer.advance, Offer.work, List.map_cons, List.sum_cons]
        omega
    | (0, byte) :: tail =>
        cases phase with
        | token =>
            exact Or.inr ⟨_, _, token serving offered calm,
              remaining_of_taken offered serving.control.2⟩
        | extLit length matchNibble =>
            exact Or.inr ⟨_, _, extLit fits serving offered,
              remaining_of_taken offered serving.control.2.1⟩
        | literal left matchNibble =>
            have sink : ready = true := by
              rw [Bench.CalmCycle, serving.control.1] at calm
              exact calm.1 (by rw [offered]; rfl)
            have decodes := serving.decodes
            rw [offered] at decodes
            generalize stream : Offer.bytes ((0, byte) :: tail) = bytes at decodes
            cases decodes with
            | literal next =>
                cases stream
                refine Or.inr ⟨_, _, literal fits serving offered sink next, remaining_of_byte ?_ ?_⟩
                · exact Nat.lt_of_lt_of_le (Nat.lt_add_of_pos_right (Nat.succ_pos _)) bounded
                · exact Offer.work_advance_le _ _
            | finish complete =>
                have single : tail = [] := by
                  rw [Offer.bytes, List.map_cons] at stream
                  exact List.map_eq_nil_iff.mp (List.cons.inj stream).2
                have last : byte = _ := (List.cons.inj stream).1
                rw [single] at offered
                exact Or.inl (finish fits serving offered sink (last ▸ complete))
        | offsetLow matchNibble =>
            exact Or.inr ⟨_, _, offsetLow serving offered calm,
              remaining_of_taken offered serving.control.2.1⟩
        | offsetHigh matchNibble low =>
            exact Or.inr ⟨_, _, offsetHigh serving offered,
              remaining_of_taken offered serving.control.2.1⟩
        | extMatch offset length =>
            exact Or.inr ⟨_, _, extMatch fits serving offered,
              remaining_of_taken offered serving.control.2.1⟩
        | copy offset left => exact absurd ⟨offset, left, rfl⟩ reading

/-- A calm run finishes the block. -/
theorem finishes {schedule : Schedule} (fits : final.length ≤ maxBlockSize)
    (calm : bench.CalmRun schedule) {phase : Phase} {t : Nat}
    (serving : Serving final phase (bench.run schedule t) out) :
    ∃ T, Finished final (bench.run schedule T) := by
  -- The induction is on what is left to do.
  generalize measure : remaining final out (bench.run schedule t) = left
  induction left using Nat.strongRecOn generalizing phase out t with
  | _ left ih =>
      rcases serving.cycle (schedule.start t) fits (calm t) with
        finished | ⟨phase', out', next, less⟩
      · exact ⟨t + 1, finished⟩
      · rw [measure] at less
        exact ih _ less (t := t + 1) next rfl

end Serving

/-- The cycle behind the last byte: the machine is idle again, and the sink has all bytes. -/
theorem Finished.cycle {final : List Byte} {bench : Bench} {ready : Bool} (start : Bool)
    (finished : Finished final bench) (calm : bench.CalmCycle ready) :
    (bench.cycle start ready).Still ∧ (bench.cycle start ready).accepted = tagged final := by
  rw [Bench.CalmCycle, finished.state] at calm
  have stepped : (bench.cycle start ready).dut = bench.dut.stepDone (bench.inputs start ready) := by
    simp only [Bench.cycle, Decompressor.step, finished.state]
  refine ⟨⟨?_, ?_, ?_⟩, ?_⟩
  · rw [Bench.cycle, finished.offer]
    rfl
  · rw [stepped]
    rfl
  · rw [stepped]
    exact Or.inl rfl
  · rw [← finished.output, Bench.cycle, Serving.taken_of_ready bench calm]

/-- The start of a block. -/
theorem serving_start {dut : Decompressor} {offer : Offer} {block : Block} (ready : Bool)
    (reached : dut.Reached) (idle : dut.state = .idle) (bytes : offer.bytes = block.encode) :
    Serving block.decode .token ((Bench.load dut offer).cycle true ready) [] := by
  have rest := reached.rest idle
  have stepped : ((Bench.load dut offer).cycle true ready).dut =
      dut.stepIdle ((Bench.load dut offer).inputs true ready) := by
    simp only [Bench.cycle, Bench.load, Decompressor.step, idle]
  have started : ((Bench.load dut offer).inputs true ready).start = true := rfl
  simp only [Decompressor.stepIdle, started, if_true] at stepped
  refine ⟨?_, ?_, ?_, ?_⟩
  · simp only [Bench.cycle, Bench.load, rest.2, Offer.bytes_advance_false, bytes]
    exact decodes_encode block
  · rw [stepped]
    exact ⟨rfl, rfl⟩
  · rw [stepped]
    exact ⟨rfl, rfl, fun i inside => absurd inside (Nat.not_lt_zero i), rfl⟩
  · have taken : (Bench.load dut offer).taken ready = [] := by
      simp [Bench.taken, Bench.load, rest.1]
    have silent : pending ((Bench.load dut offer).cycle true ready).dut = [] := by
      rw [stepped]
      rfl
    rw [silent, Bench.cycle, taken]
    rfl

end Zftl.Rtl
