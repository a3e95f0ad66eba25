/-
Module: Zftl.Legacy.HyperRamController
Layer: Legacy
Purpose: The memory controller over the line table: reads and writes of any address and length, taken apart at the
  lines. A whole line is stored as it comes; a part of one is merged into the line that is there. A loop takes at
  least one byte at each turn, so as many turns as bytes are enough (`readLoop_turns`, `writeLoop_turns`).
Imports: Zftl.Lib.Trace, Zftl.Legacy.LineTable
Trusted boundary: human-reviewed translation of hyper_ram_controller.hpp and hyper_ram_controller.cpp; telemetry and
  null pointers are left out
Main exports: ControllerConfig, HyperRamController, create, read, write, MemoryCall, Reply, call
Open obligations: none
-/
import Zftl.Lib.Trace
import Zftl.Legacy.LineTable

namespace Zftl.Legacy

open BaseDelta BDIEngine

/-- The capacities of `ControllerConfig`, both `size_t`. -/
structure ControllerConfig where
  virtualCapacityBytes : BitVec 64 := 16 * 1024 * 1024 * 1024
  physicalDramBytes : BitVec 64 := 8 * 1024 * 1024 * 1024

structure HyperRamController where
  config : ControllerConfig
  lineTable : MemoryLineTable

/-- Bytes of a line buffer. -/
def lineBytes (line : Line) (lineOffset toCopy : Nat) : List (BitVec 8) :=
  (List.range toCopy).map fun k => field 8 line (lineOffset + k)

/-- The line buffer with bytes copied into it. -/
def overwrite (line : Line) (lineOffset : Nat) (src : List (BitVec 8)) : Line :=
  pack 512 fun k => if lineOffset ≤ k then src.getD (k - lineOffset) (field 8 line k) else field 8 line k

/-- The loop of `Read`, with the number of bytes that remain, for at most `turns` turns. -/
def readLoop (t : MemoryLineTable) : (turns startAddr remaining : Nat) → Option (List (BitVec 8))
  | 0, _, remaining => if remaining = 0 then some [] else none
  | turns + 1, startAddr, remaining =>
    if remaining = 0 then some []
    else
      let lineOffset := startAddr % 64
      let toCopy := min remaining (64 - lineOffset)
      match t.loadLine (startAddr / 64) with
      | none => none
      | some lineBuf =>
        (readLoop t turns (startAddr + toCopy) (remaining - toCopy)).map (lineBytes lineBuf lineOffset toCopy ++ ·)

/-- The line buffer at a turn of `Write`, or nothing if the line that is there cannot be loaded. -/
def writeBuffer (t : MemoryLineTable) (startAddr : Nat) (src : List (BitVec 8)) : Option Line :=
  let lineOffset := startAddr % 64
  let toWrite := min src.length (64 - lineOffset)
  if lineOffset = 0 ∧ toWrite = 64 then some (pack 512 fun k => src.getD k 0)
  else (t.loadLine (startAddr / 64)).map fun lineBuf => overwrite lineBuf lineOffset (src.take toWrite)

/-- The loop of `Write`, with the bytes that remain, for at most `turns` turns. -/
def writeLoop : (turns : Nat) → MemoryLineTable → (startAddr : Nat) → List (BitVec 8) → Bool × MemoryLineTable
  | 0, t, _, src => (src.isEmpty, t)
  | turns + 1, t, startAddr, src =>
    if src = [] then (true, t)
    else
      let toWrite := min src.length (64 - startAddr % 64)
      match writeBuffer t startAddr src with
      | none => (false, t)
      | some lineBuf =>
        let stored := t.storeLine (startAddr / 64) (compress lineBuf)
        if stored.1 then writeLoop turns stored.2 (startAddr + toWrite) (src.drop toWrite)
        else (false, stored.2)

/-- A turn takes at least one byte and leaves the others. -/
theorem taken_pos {startAddr remaining : Nat} (left : remaining ≠ 0) :
    1 ≤ min remaining (64 - startAddr % 64) := by
  have offset := Nat.mod_lt startAddr (show 0 < 64 by decide)
  omega

/-- More turns than bytes make no difference. -/
theorem readLoop_turns (t : MemoryLineTable) {turns startAddr remaining : Nat} (enough : remaining ≤ turns) :
    readLoop t (turns + 1) startAddr remaining = readLoop t turns startAddr remaining := by
  induction turns generalizing startAddr remaining with
  | zero =>
    have none : remaining = 0 := by omega
    rw [readLoop, readLoop, if_pos none, if_pos none]
  | succ turns ih =>
    rw [readLoop, readLoop]
    by_cases none : remaining = 0
    · rw [if_pos none, if_pos none]
    · have taken := @taken_pos startAddr _ none
      rw [if_neg none, if_neg none]
      dsimp only
      rw [ih (by omega)]

theorem writeLoop_turns {turns : Nat} (t : MemoryLineTable) {startAddr : Nat} {src : List (BitVec 8)}
    (enough : src.length ≤ turns) : writeLoop (turns + 1) t startAddr src = writeLoop turns t startAddr src := by
  induction turns generalizing t startAddr src with
  | zero =>
    have none : src = [] := List.eq_nil_of_length_eq_zero (by omega)
    rw [writeLoop, writeLoop, if_pos none, none]
    rfl
  | succ turns ih =>
    rw [writeLoop, writeLoop]
    by_cases none : src = []
    · rw [if_pos none, if_pos none]
    · have some_bytes : src.length ≠ 0 := fun zero => none (List.eq_nil_of_length_eq_zero zero)
      have taken := @taken_pos startAddr _ some_bytes
      rw [if_neg none, if_neg none]
      dsimp only
      split
      · rfl
      · rw [ih _ (by rw [List.length_drop]; omega)]

namespace HyperRamController

/-- The constructor. -/
def create (config : ControllerConfig) : HyperRamController :=
  { config := config
    lineTable := MemoryLineTable.create config.virtualCapacityBytes config.physicalDramBytes }

/-- The check of address and size at the head of `Read` and `Write`. -/
def OutOfRange (c : HyperRamController) (byteAddress size : Nat) : Prop :=
  c.config.virtualCapacityBytes.toNat < byteAddress ∨
    c.config.virtualCapacityBytes.toNat - byteAddress < size

instance (c : HyperRamController) (byteAddress size : Nat) : Decidable (c.OutOfRange byteAddress size) :=
  inferInstanceAs (Decidable (c.config.virtualCapacityBytes.toNat < byteAddress ∨
    c.config.virtualCapacityBytes.toNat - byteAddress < size))

/-- `Read`: the bytes, or nothing where the source returns `false`. -/
def read (c : HyperRamController) (byteAddress size : Nat) : Option (List (BitVec 8)) :=
  if size = 0 then none
  else if c.OutOfRange byteAddress size then none
  else readLoop c.lineTable size byteAddress size

/-- `Write`. -/
def write (c : HyperRamController) (byteAddress : Nat) (src : List (BitVec 8)) : Bool × HyperRamController :=
  if src.length = 0 then (false, c)
  else if c.OutOfRange byteAddress src.length then (false, c)
  else
    let written := writeLoop src.length c.lineTable byteAddress src
    (written.1, { c with lineTable := written.2 })

end HyperRamController

inductive MemoryCall where
  | read (byteAddress size : Nat)
  | write (byteAddress : Nat) (src : List (BitVec 8))
deriving DecidableEq

inductive Reply where
  | read (data : Option (List (BitVec 8)))
  | write (ok : Bool)
deriving DecidableEq

namespace HyperRamController

/-- One call; no call faults. -/
def call (c : HyperRamController) : MemoryCall → Except Fault (HyperRamController × Reply)
  | .read byteAddress size => .ok (c, .read (c.read byteAddress size))
  | .write byteAddress src => .ok ((c.write byteAddress src).2, .write (c.write byteAddress src).1)

end HyperRamController

end Zftl.Legacy
