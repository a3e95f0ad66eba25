/-
Module: Zftl.Rtl.Decompressor
Layer: Rtl
Purpose: The LZ4 hardware decompressor, register for register. `Decompressor` holds the registers and the
  history RAM, `Decompressor.step` is one clock edge with the reset inactive, and `Decompressor.reset` is the
  reset branch. Every state of the machine has its own step function, in which all right-hand sides read the
  registers as they were before the edge. Bit widths are those of the registers; the comparisons with the
  block size are wider than the write pointer and do not wrap.
Imports: Mathlib.Logic.Function.Basic, Zftl.Lib.Lz4Format
Trusted boundary: human-reviewed translation of lz4_decompressor_4k.v
Main exports: Decompressor, Inputs, Decompressor.step, Decompressor.reset, shows, records, Reached, Reached.rest,
  powerUp
Open obligations: none
-/
import Mathlib.Logic.Function.Basic
import Zftl.Lib.Lz4Format

namespace Zftl.Rtl

/-- `MAX_BLOCK_SIZE`. -/
def maxBlockSize : Nat := 4096

/-- The states of the machine. -/
inductive FsmState where
  | idle
  | token
  | extLit
  | literal
  | offsetL
  | offsetH
  | extMatch
  | matchCopy
  | done
deriving Repr, DecidableEq

/-- The input wires at a clock edge. -/
structure Inputs where
  start : Bool
  sAxisTdata : Byte
  sAxisTvalid : Bool
  sAxisTlast : Bool
  mAxisTready : Bool

/-- The registers, the output registers among them, and the history RAM. -/
structure Decompressor where
  state : FsmState
  busy : Bool
  done : Bool
  errorFlag : Bool
  decompressedBytes : BitVec 13
  writePtr : BitVec 13
  litLen : BitVec 16
  matchLen : BitVec 16
  matchOffset : BitVec 16
  savedMatchToken : BitVec 4
  offsetLow : Byte
  lastByteSeen : Bool
  sAxisTready : Bool
  mAxisTvalid : Bool
  mAxisTdata : Byte
  mAxisTlast : Bool
  historyRam : BitVec 12 → Byte

namespace Decompressor

/-- The reset branch: every register is cleared, the history RAM is not. -/
def reset (d : Decompressor) : Decompressor :=
  { state := .idle, busy := false, done := false, errorFlag := false, decompressedBytes := 0,
    writePtr := 0, litLen := 0, matchLen := 0, matchOffset := 0, savedMatchToken := 0, offsetLow := 0,
    lastByteSeen := false, sAxisTready := false, mAxisTvalid := false, mAxisTdata := 0,
    mAxisTlast := false, historyRam := d.historyRam }

/-- `match_read_addr`. -/
def matchReadAddr (d : Decompressor) : BitVec 12 :=
  if d.matchOffset.setWidth 13 ≤ d.writePtr then
    d.writePtr.setWidth 12 - d.matchOffset.setWidth 12
  else 0

/-- A byte is transferred on the input stream. -/
def transfers (d : Decompressor) (i : Inputs) : Bool := i.sAxisTvalid && d.sAxisTready

/-- The assignment in front of the state machine: the last byte has been transferred. -/
def observeLast (d : Decompressor) (i : Inputs) : Decompressor :=
  { d with lastByteSeen := d.lastByteSeen || (d.transfers i && i.sAxisTlast) }

/-- The output registers are loaded with a byte. -/
def emit (d : Decompressor) (byte : Byte) : Decompressor :=
  { d with
    mAxisTdata := byte
    mAxisTvalid := true
    mAxisTlast := decide (d.writePtr.toNat = maxBlockSize - 1) }

/-- `history_ram[write_ptr] <= byte`: a write beyond the last cell is lost. -/
def writeHistory (d : Decompressor) (byte : Byte) : BitVec 12 → Byte :=
  if d.writePtr.toNat < maxBlockSize then
    Function.update d.historyRam (d.writePtr.setWidth 12) byte
  else d.historyRam

/-- A byte is put into the history and counted. -/
def recordByte (d : Decompressor) (byte : Byte) : Decompressor :=
  { d with
    historyRam := d.writeHistory byte
    writePtr := d.writePtr + 1
    decompressedBytes := d.decompressedBytes + 1 }

/-- `ST_IDLE`. -/
def stepIdle (d : Decompressor) (i : Inputs) : Decompressor :=
  let d' :=
    { d with
      done := false, errorFlag := false, lastByteSeen := false, mAxisTvalid := false,
      mAxisTlast := false }
  if i.start then
    { d' with
      busy := true, writePtr := 0, decompressedBytes := 0, sAxisTready := true, state := .token }
  else { d' with busy := false, sAxisTready := false }

/-- `ST_TOKEN`. -/
def stepToken (d : Decompressor) (i : Inputs) : Decompressor :=
  let d' := { d.observeLast i with mAxisTvalid := false }
  if d.transfers i then
    let literals := i.sAxisTdata.extractLsb' 4 4
    let d' := { d' with savedMatchToken := i.sAxisTdata.extractLsb' 0 4, sAxisTready := true }
    if literals = 15 then { d' with litLen := 15, state := .extLit }
    else if literals > 0 then { d' with litLen := literals.setWidth 16, state := .literal }
    else { d' with litLen := 0, state := .offsetL }
  else d'

/-- `ST_EXT_LIT`. -/
def stepExtLit (d : Decompressor) (i : Inputs) : Decompressor :=
  let d' := d.observeLast i
  if d.transfers i then
    let d' := { d' with litLen := d.litLen + i.sAxisTdata.setWidth 16 }
    if i.sAxisTdata ≠ 255 then { d' with sAxisTready := true, state := .literal } else d'
  else d'

/-- `ST_LITERAL`: the byte is taken from the wires whenever `s_axis_tvalid` is up, and it is put into the
    history only when the sink is ready. -/
def stepLiteral (d : Decompressor) (i : Inputs) : Decompressor :=
  let d' := d.observeLast i
  if i.sAxisTvalid then
    let d' := d'.emit i.sAxisTdata
    if i.mAxisTready then
      let d' := d'.recordByte i.sAxisTdata
      if d.litLen = 1 then
        if d.writePtr.toNat + 1 = maxBlockSize ∨ i.sAxisTlast then
          { d' with sAxisTready := false, state := .done }
        else { d' with sAxisTready := true, state := .offsetL }
      else { d' with litLen := d.litLen - 1, sAxisTready := true }
    else { d' with sAxisTready := false }
  else d'

/-- `ST_OFFSET_L`. -/
def stepOffsetL (d : Decompressor) (i : Inputs) : Decompressor :=
  let d' := { d.observeLast i with mAxisTvalid := false }
  if d.transfers i then
    { d' with offsetLow := i.sAxisTdata, sAxisTready := true, state := .offsetH }
  else d'

/-- `ST_OFFSET_H`. -/
def stepOffsetH (d : Decompressor) (i : Inputs) : Decompressor :=
  let d' := d.observeLast i
  if d.transfers i then
    let d' := { d' with matchOffset := i.sAxisTdata ++ d.offsetLow }
    if d.savedMatchToken = 15 then
      { d' with matchLen := 19, sAxisTready := true, state := .extMatch }
    else
      { d' with
        matchLen := d.savedMatchToken.setWidth 16 + 4, sAxisTready := false, state := .matchCopy }
  else d'

/-- `ST_EXT_MATCH`. -/
def stepExtMatch (d : Decompressor) (i : Inputs) : Decompressor :=
  let d' := d.observeLast i
  if d.transfers i then
    let d' := { d' with matchLen := d.matchLen + i.sAxisTdata.setWidth 16 }
    if i.sAxisTdata ≠ 255 then { d' with sAxisTready := false, state := .matchCopy } else d'
  else d'

/-- `ST_MATCH_COPY`: the byte is shown whether or not the sink is ready, and it is put into the history only
    when it is. -/
def stepMatchCopy (d : Decompressor) (i : Inputs) : Decompressor :=
  let byte := d.historyRam d.matchReadAddr
  let d' := { (d.observeLast i).emit byte with sAxisTready := false }
  if i.mAxisTready then
    let d' := d'.recordByte byte
    if d.matchLen = 1 then
      if d.writePtr.toNat + 1 = maxBlockSize ∨ d.lastByteSeen then { d' with state := .done }
      else { d' with sAxisTready := true, state := .token }
    else { d' with matchLen := d.matchLen - 1 }
  else d'

/-- `ST_DONE`. -/
def stepDone (d : Decompressor) (i : Inputs) : Decompressor :=
  { d.observeLast i with
    mAxisTvalid := false, mAxisTlast := false, sAxisTready := false, done := true, busy := false,
    state := .idle }

/-- One clock edge with the reset inactive. -/
def step (d : Decompressor) (i : Inputs) : Decompressor :=
  match d.state with
  | .idle => d.stepIdle i
  | .token => d.stepToken i
  | .extLit => d.stepExtLit i
  | .literal => d.stepLiteral i
  | .offsetL => d.stepOffsetL i
  | .offsetH => d.stepOffsetH i
  | .extMatch => d.stepExtMatch i
  | .matchCopy => d.stepMatchCopy i
  | .done => d.stepDone i

/-! ### The bytes of an edge -/

/-- The byte that is put on the wires at an edge. -/
def shows (d : Decompressor) (i : Inputs) : Option Byte :=
  match d.state with
  | .literal => if i.sAxisTvalid then some i.sAxisTdata else none
  | .matchCopy => some (d.historyRam d.matchReadAddr)
  | _ => none

/-- The byte that is put into the history at an edge. -/
def records (d : Decompressor) (i : Inputs) : Option Byte :=
  if i.mAxisTready then d.shows i else none

/-- The history after an edge. -/
theorem step_historyRam (d : Decompressor) (i : Inputs) :
    (d.step i).historyRam = ((d.records i).map d.writeHistory).getD d.historyRam := by
  cases state : d.state <;>
    simp only [step, state, stepIdle, stepToken, stepExtLit, stepLiteral, stepOffsetL, stepOffsetH,
      stepExtMatch, stepMatchCopy, stepDone, observeLast, emit, recordByte, records, shows]
  all_goals repeat' split
  all_goals rfl

/-- The write pointer and the byte count after an edge inside a block. -/
theorem step_counters (d : Decompressor) (i : Inputs) (busy : d.state ≠ .idle) :
    (d.step i).writePtr = d.writePtr + BitVec.ofNat 13 (d.records i).toList.length ∧
      (d.step i).decompressedBytes =
        d.decompressedBytes + BitVec.ofNat 13 (d.records i).toList.length := by
  cases state : d.state
  case idle => exact absurd state busy
  all_goals
    simp only [step, state, stepToken, stepExtLit, stepLiteral, stepOffsetL, stepOffsetH,
      stepExtMatch, stepMatchCopy, stepDone, observeLast, emit, recordByte, records, shows]
  all_goals repeat' split
  all_goals first
    | exact ⟨(BitVec.add_zero _).symm, (BitVec.add_zero _).symm⟩
    | exact ⟨rfl, rfl⟩

/-- The record of the last byte after an edge inside a block. -/
theorem step_lastByteSeen (d : Decompressor) (i : Inputs) (busy : d.state ≠ .idle) :
    (d.step i).lastByteSeen = (d.observeLast i).lastByteSeen := by
  cases state : d.state
  case idle => exact absurd state busy
  all_goals
    simp only [step, state, stepToken, stepExtLit, stepLiteral, stepOffsetL, stepOffsetH,
      stepExtMatch, stepMatchCopy, stepDone, emit, recordByte]
  all_goals repeat' split
  all_goals rfl

/-- The data on the wires after an edge. -/
theorem step_mAxisTdata (d : Decompressor) (i : Inputs) :
    (d.step i).mAxisTdata = (d.shows i).getD d.mAxisTdata := by
  cases state : d.state <;>
    simp only [step, state, stepIdle, stepToken, stepExtLit, stepLiteral, stepOffsetL, stepOffsetH,
      stepExtMatch, stepMatchCopy, stepDone, observeLast, emit, recordByte, shows]
  all_goals repeat' split
  all_goals rfl

/-- A shown byte is valid, and it is the last exactly if it is number 4096. -/
theorem step_of_shows (d : Decompressor) (i : Inputs) {byte : Byte} (shown : d.shows i = some byte) :
    (d.step i).mAxisTvalid = true ∧
      (d.step i).mAxisTlast = decide (d.writePtr.toNat = maxBlockSize - 1) := by
  cases state : d.state
  case literal =>
    rw [shows, state] at shown
    have offered : i.sAxisTvalid = true := by
      by_contra nothing
      rw [if_neg nothing] at shown
      cases shown
    simp only [step, state, stepLiteral, offered, if_true, emit, recordByte, observeLast]
    repeat' split
    all_goals exact ⟨rfl, rfl⟩
  case matchCopy =>
    simp only [step, state, stepMatchCopy, emit, recordByte, observeLast]
    repeat' split
    all_goals exact ⟨rfl, rfl⟩
  all_goals
    rw [shows, state] at shown
    cases shown

/-- Without a shown byte the valid wire does not rise. -/
theorem step_mAxisTvalid (d : Decompressor) (i : Inputs) (silent : d.shows i = none)
    (valid : (d.step i).mAxisTvalid = true) : d.mAxisTvalid = true := by
  cases state : d.state
  case literal =>
    rw [shows, state] at silent
    have nothing : i.sAxisTvalid = false := by
      by_contra offered
      simp [Bool.not_eq_false _ |>.mp offered] at silent
    simpa [step, state, stepLiteral, nothing, observeLast] using valid
  case matchCopy =>
    rw [shows, state] at silent
    cases silent
  all_goals
    simp only [step, state, stepIdle, stepToken, stepExtLit, stepOffsetL, stepOffsetH, stepExtMatch,
      stepDone, observeLast] at valid
  all_goals repeat' split at valid
  all_goals first
    | exact valid
    | cases valid

/-! ### Literal runs and matches -/

/-- Only literals and matches record. -/
theorem state_of_records {d : Decompressor} {i : Inputs} (recorded : (d.records i).isSome) :
    d.state = .literal ∨ d.state = .matchCopy := by
  cases state : d.state
  case literal => exact Or.inl rfl
  case matchCopy => exact Or.inr rfl
  all_goals simp [records, shows, state] at recorded

/-- A byte is recorded from the input stream exactly when it is offered to a ready sink. -/
theorem records_literal {d : Decompressor} {i : Inputs} (state : d.state = .literal) :
    (d.records i).isSome = (i.sAxisTvalid && i.mAxisTready) := by
  cases offered : i.sAxisTvalid <;> cases ready : i.mAxisTready <;>
    simp [records, shows, state, offered, ready]

theorem records_matchCopy {d : Decompressor} {i : Inputs} (state : d.state = .matchCopy) :
    (d.records i).isSome = i.mAxisTready := by
  cases ready : i.mAxisTready <;> simp [records, shows, state, ready]

/-- A recorded literal that is not the last of its run is counted down. -/
theorem stepLiteral_litLen (d : Decompressor) (i : Inputs) :
    (d.stepLiteral i).litLen =
      if (i.sAxisTvalid && i.mAxisTready) = true ∧ d.litLen ≠ 1 then d.litLen - 1 else d.litLen := by
  cases offered : i.sAxisTvalid with
  | false => simp [stepLiteral, offered, observeLast]
  | true =>
      cases ready : i.mAxisTready with
      | false => simp [stepLiteral, offered, ready, observeLast, emit]
      | true =>
          by_cases last : d.litLen = 1
          · simp only [stepLiteral, offered, ready, last, if_true, apply_ite litLen]
            simp [observeLast, emit, recordByte, last]
          · simp only [stepLiteral, offered, ready, last, if_true, if_false, Bool.and_self, ne_eq,
              not_false_eq_true, and_self]

/-- A recorded byte of a match that is not the last is counted down. -/
theorem stepMatchCopy_matchLen (d : Decompressor) (i : Inputs) :
    (d.stepMatchCopy i).matchLen =
      if i.mAxisTready = true ∧ d.matchLen ≠ 1 then d.matchLen - 1 else d.matchLen := by
  cases ready : i.mAxisTready with
  | false => simp [stepMatchCopy, ready, observeLast, emit]
  | true =>
      by_cases last : d.matchLen = 1
      · simp only [stepMatchCopy, ready, last, if_true, apply_ite matchLen]
        simp [observeLast, emit, recordByte, last]
      · simp only [stepMatchCopy, ready, last, if_true, if_false, ne_eq, not_false_eq_true, and_self]

/-- The state after an edge. -/
def nextState (d : Decompressor) (i : Inputs) : FsmState :=
  match d.state with
  | .idle => if i.start then .token else .idle
  | .token =>
      if d.transfers i then
        if i.sAxisTdata.extractLsb' 4 4 = 15 then .extLit
        else if i.sAxisTdata.extractLsb' 4 4 > 0 then .literal
        else .offsetL
      else .token
  | .extLit => if d.transfers i ∧ i.sAxisTdata ≠ 255 then .literal else .extLit
  | .literal =>
      if (i.sAxisTvalid && i.mAxisTready) = true ∧ d.litLen = 1 then
        if d.writePtr.toNat + 1 = maxBlockSize ∨ i.sAxisTlast then .done else .offsetL
      else .literal
  | .offsetL => if d.transfers i then .offsetH else .offsetL
  | .offsetH =>
      if d.transfers i then if d.savedMatchToken = 15 then .extMatch else .matchCopy else .offsetH
  | .extMatch => if d.transfers i ∧ i.sAxisTdata ≠ 255 then .matchCopy else .extMatch
  | .matchCopy =>
      if i.mAxisTready = true ∧ d.matchLen = 1 then
        if d.writePtr.toNat + 1 = maxBlockSize ∨ d.lastByteSeen then .done else .token
      else .matchCopy
  | .done => .idle

theorem step_state (d : Decompressor) (i : Inputs) : (d.step i).state = d.nextState i := by
  cases state : d.state <;>
    simp only [step, nextState, state, stepIdle, stepToken, stepExtLit, stepLiteral, stepOffsetL,
      stepOffsetH, stepExtMatch, stepMatchCopy, stepDone, observeLast, emit, recordByte]
  all_goals repeat' split
  all_goals first
    | rfl
    | exact state
    | simp_all

/-! ### The error flag and the idle state -/

/-- No state raises the error flag. -/
theorem step_errorFlag (d : Decompressor) (i : Inputs) (clear : d.errorFlag = false) :
    (d.step i).errorFlag = false := by
  -- Every branch of every state either clears the flag or does not mention it.
  cases state : d.state <;>
    simp only [step, state, stepIdle, stepToken, stepExtLit, stepLiteral, stepOffsetL, stepOffsetH,
      stepExtMatch, stepMatchCopy, stepDone, observeLast, emit, recordByte]
  all_goals repeat' split
  all_goals first
    | rfl
    | exact clear

/-- In the idle state the two streams are at rest. -/
def Rest (d : Decompressor) : Prop :=
  d.state = .idle → d.mAxisTvalid = false ∧ d.sAxisTready = false

/-- Whatever leads into the idle state brings the streams to rest. -/
theorem step_rest (d : Decompressor) (i : Inputs) : (d.step i).Rest := by
  -- Only the idle and the done state lead there.
  cases state : d.state <;>
    simp only [step, state, stepIdle, stepToken, stepExtLit, stepLiteral, stepOffsetL, stepOffsetH,
      stepExtMatch, stepMatchCopy, stepDone, observeLast, emit, recordByte, Rest]
  all_goals repeat' split
  all_goals first
    | exact fun _ => ⟨rfl, rfl⟩
    | exact fun _ => ⟨trivial, trivial⟩
    | (intro impossible; cases impossible)

/-- The states that follow a reset, whatever the history RAM held. -/
inductive Reached : Decompressor → Prop where
  | reset (d : Decompressor) : Reached d.reset
  | step {d : Decompressor} (before : Reached d) (i : Inputs) : Reached (d.step i)

namespace Reached

variable {d : Decompressor}

/-- The error flag is never up. -/
theorem errorFlag (reached : Reached d) : d.errorFlag = false := by
  induction reached with
  | reset d => rfl
  | step before i ih => exact step_errorFlag _ i ih

/-- A reached idle state has its streams at rest. -/
theorem rest (reached : Reached d) : d.Rest := by
  cases reached with
  | reset d => exact fun _ => ⟨rfl, rfl⟩
  | step before i => exact step_rest _ i

end Reached

end Decompressor

/-- The machine after a reset, with a given history RAM. -/
def powerUp (history : BitVec 12 → Byte) : Decompressor :=
  { state := .idle, busy := false, done := false, errorFlag := false, decompressedBytes := 0,
    writePtr := 0, litLen := 0, matchLen := 0, matchOffset := 0, savedMatchToken := 0, offsetLow := 0,
    lastByteSeen := false, sAxisTready := false, mAxisTvalid := false, mAxisTdata := 0,
    mAxisTlast := false, historyRam := history }

theorem powerUp_reached (history : BitVec 12 → Byte) : (powerUp history).Reached :=
  Decompressor.Reached.reset (powerUp history)

end Zftl.Rtl
