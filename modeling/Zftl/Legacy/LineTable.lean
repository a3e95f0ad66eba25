/-
Module: Zftl.Legacy.LineTable
Layer: Legacy
Purpose: The table of compressed cache lines. Each logical line has an entry that says where in the physical memory its
  compressed bytes are; slots of one to four 16-byte chunks are taken from free lists by size, or cut from the
  memory that was never used. The entry's fields are as wide as the source's bit fields, so storing an offset
  truncates it.
Imports: Mathlib.Logic.Function.Basic, Zftl.Lib.Trace, Zftl.Legacy.BdiEngine
Trusted boundary: human-reviewed translation of line_table.hpp and line_table.cpp; the mutex is held for a whole call
Main exports: LineTableEntry, MemoryLineTable, MemoryLineTable.create, allocateChunks, freeChunks, storeLine, loadLine,
  reset, TableCall, TableReply, call
Open obligations: none
-/
import Mathlib.Logic.Function.Basic
import Zftl.Lib.Trace
import Zftl.Legacy.BdiEngine

namespace Zftl.Legacy

open BDIEngine

/-- `SLOT_CHUNK_SIZE`. -/
def slotChunkSize : Nat := 16

/-- `UINT32_MAX`, the offset of a failed allocation. -/
def uint32Max : Nat := 2 ^ 32 - 1

/-- The bit fields of a table entry. -/
structure LineTableEntry where
  physChunkOffset : BitVec 24 := 0
  allocatedChunks : BitVec 3 := 0
  patternTag : BitVec 4 := 0
  valid : Bool := false
deriving DecidableEq

/-- The line table and the physical memory. `freeChunkLists n` is the free list of the slots of `n` chunks
    (`free_chunks_16b_` to `free_chunks_64b_`), its last element first. -/
structure MemoryLineTable where
  totalLogicalLines : Nat
  totalPhysicalChunks : Nat
  entries : Nat → LineTableEntry := fun _ => {}
  physicalDram : Nat → BitVec 8 := fun _ => 0
  freeChunkLists : Nat → List Nat := fun _ => []
  nextUnpartitionedChunk : Nat := 0
  allocatedChunksCount : BitVec 64 := 0
  totalUncompressedBytesStored : BitVec 64 := 0

namespace MemoryLineTable

/-- The constructor; the sum is a `size_t`. -/
def create (virtualCapacity physicalCapacity : BitVec 64) : MemoryLineTable :=
  { totalLogicalLines := (virtualCapacity.toNat + 64 - 1) % 2 ^ 64 / 64
    totalPhysicalChunks := physicalCapacity.toNat / slotChunkSize }

/-- `AllocateChunks`: the chunk offset, or `UINT32_MAX`. -/
def allocateChunks (t : MemoryLineTable) (numChunks : Nat) : Nat × MemoryLineTable :=
  if numChunks = 0 then (0, t)
  else
    match t.freeChunkLists numChunks with
    | offset :: rest =>
      (offset,
        { t with
          freeChunkLists := Function.update t.freeChunkLists numChunks rest
          allocatedChunksCount := t.allocatedChunksCount + BitVec.ofNat 64 numChunks })
    | [] =>
      if t.nextUnpartitionedChunk + numChunks ≤ t.totalPhysicalChunks then
        -- `static_cast<uint32_t>` of a `size_t`
        (t.nextUnpartitionedChunk % 2 ^ 32,
          { t with
            nextUnpartitionedChunk := t.nextUnpartitionedChunk + numChunks
            allocatedChunksCount := t.allocatedChunksCount + BitVec.ofNat 64 numChunks })
      else (uint32Max, t)

/-- `FreeChunks`. -/
def freeChunks (t : MemoryLineTable) (chunkOffset numChunks : Nat) : MemoryLineTable :=
  if numChunks = 0 ∨ chunkOffset = uint32Max then t
  else
    { t with
      freeChunkLists :=
        if numChunks ≤ 4 then
          Function.update t.freeChunkLists numChunks (chunkOffset :: t.freeChunkLists numChunks)
        else t.freeChunkLists
      allocatedChunksCount := t.allocatedChunksCount - BitVec.ofNat 64 numChunks }

/-- The chunks a compressed line needs: none for a zero line. -/
def neededChunks (compLine : CompressedLine) : Nat :=
  if compLine.pattern ≠ .zeros then getQuantizedSlotSize compLine.compressedSize / slotChunkSize else 0

/-- The end of `StoreLine`: the compressed bytes go to the physical memory, and the entry is updated. -/
def writeLine (t : MemoryLineTable) (logicalLineIdx : Nat) (compLine : CompressedLine)
    (neededChunks chunkOffset : Nat) : MemoryLineTable :=
  { t with
    physicalDram := fun address =>
      if 0 < neededChunks ∧ chunkOffset * slotChunkSize ≤ address ∧
          address < chunkOffset * slotChunkSize + compLine.compressedSize then
        compLine.byte (address - chunkOffset * slotChunkSize)
      else t.physicalDram address
    entries := Function.update t.entries logicalLineIdx
      { physChunkOffset := BitVec.ofNat 24 (if 0 < neededChunks then chunkOffset else 0)
        allocatedChunks := BitVec.ofNat 3 neededChunks
        patternTag := compLine.pattern.tag.setWidth 4
        valid := true } }

/-- `StoreLine`. -/
def storeLine (t : MemoryLineTable) (logicalLineIdx : Nat) (compLine : CompressedLine) :
    Bool × MemoryLineTable :=
  if t.totalLogicalLines ≤ logicalLineIdx then (false, t)
  else
    let needed := neededChunks compLine
    let entry := t.entries logicalLineIdx
    if entry.valid then
      if entry.allocatedChunks.toNat ≠ needed then
        -- the old slot is free before the new one is looked for
        let allocation :=
          (t.freeChunks entry.physChunkOffset.toNat entry.allocatedChunks.toNat).allocateChunks needed
        if 0 < needed ∧ allocation.1 = uint32Max then (false, allocation.2)
        else (true, allocation.2.writeLine logicalLineIdx compLine needed allocation.1)
      else (true, t.writeLine logicalLineIdx compLine needed entry.physChunkOffset.toNat)
    else
      let allocation := t.allocateChunks needed
      if 0 < needed ∧ allocation.1 = uint32Max then (false, allocation.2)
      else
        (true,
          { allocation.2.writeLine logicalLineIdx compLine needed allocation.1 with
            totalUncompressedBytesStored := t.totalUncompressedBytesStored + 64 })

/-- `LoadLine`: the line, or nothing where the source returns `false`. -/
def loadLine (t : MemoryLineTable) (logicalLineIdx : Nat) : Option Line :=
  if t.totalLogicalLines ≤ logicalLineIdx then none
  else
    let entry := t.entries logicalLineIdx
    if entry.valid = false then some 0
    else if entry.allocatedChunks = 0 ∨ entry.patternTag = BDIPattern.zeros.tag.setWidth 4 then some 0
    else
      let byteSrc := entry.physChunkOffset.toNat * slotChunkSize
      decompressRaw (fun k => t.physicalDram (byteSrc + k)) (entry.allocatedChunks.toNat * slotChunkSize)
        (some (entry.patternTag.setWidth 8))

/-- `Reset`. -/
def reset (t : MemoryLineTable) : MemoryLineTable :=
  { totalLogicalLines := t.totalLogicalLines, totalPhysicalChunks := t.totalPhysicalChunks }

/-- What `AllocateChunks` returns to `StoreLine`, if it is called. -/
def storeAllocation (t : MemoryLineTable) (logicalLineIdx : Nat) (compLine : CompressedLine) : Option Nat :=
  if t.totalLogicalLines ≤ logicalLineIdx then none
  else
    let needed := neededChunks compLine
    let entry := t.entries logicalLineIdx
    if entry.valid then
      if entry.allocatedChunks.toNat ≠ needed then
        some ((t.freeChunks entry.physChunkOffset.toNat entry.allocatedChunks.toNat).allocateChunks needed).1
      else none
    else some (t.allocateChunks needed).1

end MemoryLineTable

/-- The calls of the table's users. -/
inductive TableCall where
  | storeLine (logicalLineIdx : Nat) (compLine : CompressedLine)
  | loadLine (logicalLineIdx : Nat)
  | reset

/-- What a call returns; for a store also what `AllocateChunks` returned to it. -/
inductive TableReply where
  | stored (ok : Bool) (allocation : Option Nat)
  | loaded (line : Option Line)
  | reset

namespace MemoryLineTable

/-- One call; no call faults. -/
def call (t : MemoryLineTable) : TableCall → Except Fault (MemoryLineTable × TableReply)
  | .storeLine i compLine =>
    .ok ((t.storeLine i compLine).2, .stored (t.storeLine i compLine).1 (t.storeAllocation i compLine))
  | .loadLine i => .ok (t, .loaded (t.loadLine i))
  | .reset => .ok (t.reset, .reset)

end MemoryLineTable

end Zftl.Legacy
