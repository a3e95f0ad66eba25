/-
Module: Zftl.Legacy.LineAccount
Layer: Legacy
Purpose: What the line table reports about itself. A ledger kept from the calls and their results knows the chunks each
  line holds, and the chunks that a store which then failed has returned although the line still holds them. The
  reported bytes are those of the ledger: the chunks held, less those lost in this way, so the report is right
  until a store fails on a line of another size, and below zero after enough of them.
Imports: Zftl.Lib.Binary64, Zftl.Lib.Counting, Zftl.Legacy.OffsetWidth
Trusted boundary: human-reviewed translation of the capacity metrics of line_table.cpp
Main exports: getEntry, getAllocatedPhysicalBytes, getCurrentCompressionRatio, getMemorySavingPercentage, SlotLedger,
  Accounts, trace_accounted, calm_ratio
Open obligations: none
-/
import Zftl.Lib.Binary64
import Zftl.Lib.Counting
import Zftl.Legacy.OffsetWidth

namespace Zftl.Legacy

open BDIEngine

namespace MemoryLineTable

/-! ### The metrics -/

/-- `GetEntry`. -/
def getEntry (t : MemoryLineTable) (logicalLineIdx : Nat) : LineTableEntry :=
  if t.totalLogicalLines ≤ logicalLineIdx then {} else t.entries logicalLineIdx

/-- `GetAllocatedPhysicalBytes`. -/
def getAllocatedPhysicalBytes (t : MemoryLineTable) : BitVec 64 :=
  t.allocatedChunksCount * BitVec.ofNat 64 slotChunkSize

/-- `GetCurrentCompressionRatio`. -/
def getCurrentCompressionRatio (t : MemoryLineTable) : Binary64 :=
  let physBytes := t.getAllocatedPhysicalBytes.toNat
  let uncompBytes := t.totalUncompressedBytesStored.toNat
  if physBytes = 0 then (if 0 < uncompBytes then .ofNat 999 else .ofNat 1)
  else .ofNat uncompBytes / .ofNat physBytes

/-- `GetMemorySavingPercentage`. -/
def getMemorySavingPercentage (t : MemoryLineTable) : Binary64 :=
  let physBytes := t.getAllocatedPhysicalBytes.toNat
  let uncompBytes := t.totalUncompressedBytesStored.toNat
  if uncompBytes = 0 then .ofNat 0
  else if uncompBytes ≤ physBytes then .ofNat 0
  else (.ofNat 1 - .ofNat physBytes / .ofNat uncompBytes) * .ofNat 100

end MemoryLineTable

open MemoryLineTable

/-! ### The ledger -/

/-- The chunks each stored line holds, and the chunks returned under a line that still holds them. -/
structure SlotLedger where
  sizes : Nat → Option Nat
  lost : Nat

namespace SlotLedger

def empty : SlotLedger := { sizes := fun _ => none, lost := 0 }

/-- A store that succeeds gives the line the chunks it needs. One that fails for want of a slot has returned the
    chunks of the line before. -/
def record (l : SlotLedger) : TableCall × TableReply → SlotLedger
  | (.storeLine i compLine, .stored true _) =>
    { l with sizes := Function.update l.sizes i (some (neededChunks compLine)) }
  | (.storeLine i _, .stored false (some _)) => { l with lost := l.lost + (l.sizes i).getD 0 }
  | (.reset, _) => empty
  | _ => l

/-- The ledger of a run. -/
def of (events : List (TableCall × TableReply)) : SlotLedger := events.foldl record empty

/-- The chunks the lines hold. -/
def held (l : SlotLedger) (lines : Nat) : Nat := ∑ i ∈ Finset.range lines, (l.sizes i).getD 0

/-- The lines that are stored. -/
def stored (l : SlotLedger) (lines : Nat) : Nat := Nat.count (fun i => (l.sizes i).isSome) lines

theorem held_update {l : SlotLedger} {lines i : Nat} (below : i < lines) (n lost : Nat) :
    held { sizes := Function.update l.sizes i (some n), lost := lost } lines + (l.sizes i).getD 0 =
      l.held lines + n := by
  have sum := sum_range_add_of_others (f := fun j => (l.sizes j).getD 0)
    (g := fun j => (Function.update l.sizes i (some n) j).getD 0) below
    (fun j other => by rw [Function.update_of_ne other])
  rw [Function.update_self] at sum
  exact sum

theorem stored_update {l : SlotLedger} {lines i : Nat} (below : i < lines) (n lost : Nat) :
    stored { sizes := Function.update l.sizes i (some n), lost := lost } lines =
      l.stored lines + if (l.sizes i).isSome then 0 else 1 := by
  cases before : (l.sizes i).isSome with
  | true =>
      rw [if_pos rfl, Nat.add_zero]
      refine count_congr fun j _ => ?_
      by_cases here : j = i
      · rw [here]
        simp [before]
      · simp [Function.update_of_ne here]
  | false =>
      rw [if_neg Bool.false_ne_true]
      refine count_eq_add_one below (by simp) (by simp [before]) fun j other => ?_
      simp [Function.update_of_ne other]

end SlotLedger

namespace MemoryLineTable

/-- The chunks on the free lists. -/
def freed (t : MemoryLineTable) : Nat := ∑ n ∈ Finset.range 5, n * (t.freeChunkLists n).length

variable {t t' : MemoryLineTable} {l : SlotLedger} {i n : Nat} {compLine : CompressedLine}

/-! ### Returning and taking chunks -/

theorem freed_push {size offset : Nat} (few : size ≤ 4) :
    ∑ n ∈ Finset.range 5,
        n * (Function.update t.freeChunkLists size (offset :: t.freeChunkLists size) n).length =
      t.freed + size := by
  have sum := sum_range_add_of_others (f := fun n => n * (t.freeChunkLists n).length)
    (g := fun n => n * (Function.update t.freeChunkLists size (offset :: t.freeChunkLists size) n).length)
    (show size < 5 by omega) (fun n other => by rw [Function.update_of_ne other])
  rw [Function.update_self, List.length_cons, Nat.mul_succ] at sum
  rw [freed]
  omega

theorem freed_pop {size offset : Nat} {rest : List Nat} (few : size ≤ 4)
    (list : t.freeChunkLists size = offset :: rest) :
    ∑ n ∈ Finset.range 5, n * (Function.update t.freeChunkLists size rest n).length + size = t.freed := by
  have sum := sum_range_add_of_others (f := fun n => n * (t.freeChunkLists n).length)
    (g := fun n => n * (Function.update t.freeChunkLists size rest n).length)
    (show size < 5 by omega) (fun n other => by rw [Function.update_of_ne other])
  rw [Function.update_self, list, List.length_cons, Nat.mul_succ] at sum
  rw [freed]
  omega

/-- The table has returned `size` chunks. -/
structure Returned (t t' : MemoryLineTable) (size : Nat) : Prop where
  count : t'.allocatedChunksCount + BitVec.ofNat 64 size = t.allocatedChunksCount
  freed : t'.freed = t.freed + size
  next : t'.nextUnpartitionedChunk = t.nextUnpartitionedChunk
  bytes : t'.totalUncompressedBytesStored = t.totalUncompressedBytesStored
  entries : t'.entries = t.entries
  lines : t'.totalLogicalLines = t.totalLogicalLines
  chunks : t'.totalPhysicalChunks = t.totalPhysicalChunks

theorem freeChunks_returned {offset size : Nat} (few : size ≤ 4) (short : offset < 2 ^ 24) :
    Returned t (t.freeChunks offset size) size := by
  rw [freeChunks]
  split
  · next nothing =>
      have none : size = 0 := by
        rcases nothing with zero | failed
        · exact zero
        · rw [uint32Max] at failed
          omega
      rw [none]
      exact ⟨BitVec.add_zero _, rfl, rfl, rfl, rfl, rfl, rfl⟩
  · exact ⟨BitVec.sub_add_cancel _ _, freed_push few, rfl, rfl, rfl, rfl, rfl⟩

theorem vacated_returned (few : (t.entries i).allocatedChunks.toNat ≤ 4)
    (empty : (t.entries i).valid = false → (t.entries i).allocatedChunks.toNat = 0) :
    Returned t (t.vacated i) (t.entries i).allocatedChunks.toNat := by
  rw [vacated]
  split
  · exact freeChunks_returned few (t.entries i).physChunkOffset.isLt
  · next invalid =>
      rw [empty (by simpa using invalid)]
      exact ⟨BitVec.add_zero _, rfl, rfl, rfl, rfl, rfl, rfl⟩

/-- The table has given out `size` chunks. -/
structure Given (t t' : MemoryLineTable) (size : Nat) : Prop where
  count : t'.allocatedChunksCount = t.allocatedChunksCount + BitVec.ofNat 64 size
  balance : t'.nextUnpartitionedChunk + t.freed = t.nextUnpartitionedChunk + t'.freed + size
  next_le : t.nextUnpartitionedChunk ≤ t.totalPhysicalChunks →
    t'.nextUnpartitionedChunk ≤ t.totalPhysicalChunks
  bytes : t'.totalUncompressedBytesStored = t.totalUncompressedBytesStored

/-- An allocation gives out what is asked for, or it fails and nothing changes. -/
theorem allocateChunks_given (few : n ≤ 4) (chunks : t.totalPhysicalChunks < 2 ^ 32)
    (short : ∀ offset, offset ∈ t.freeChunkLists n → offset < 2 ^ 24) :
    if 0 < n ∧ (t.allocateChunks n).1 = uint32Max then (t.allocateChunks n).2 = t
    else Given t (t.allocateChunks n).2 n := by
  have max : uint32Max = 2 ^ 32 - 1 := rfl
  fun_cases allocateChunks t n with
  | case1 zero =>
      rw [if_neg (by omega), zero]
      exact ⟨(BitVec.add_zero _).symm, by simp, fun le => le, rfl⟩
  | case2 pos offset rest list =>
      have near := short offset (by rw [list]; exact List.mem_cons_self)
      rw [if_neg (by omega)]
      refine ⟨rfl, ?_, fun le => le, rfl⟩
      have popped := freed_pop few list
      simp only [freed] at popped ⊢
      omega
  | case3 pos list room =>
      have small : t.nextUnpartitionedChunk % 2 ^ 32 = t.nextUnpartitionedChunk := Nat.mod_eq_of_lt (by omega)
      rw [if_neg (by omega)]
      exact ⟨rfl, by simp only [freed]; omega, fun _ => room, rfl⟩
  | case4 pos list full =>
      rw [if_pos ⟨Nat.pos_of_ne_zero pos, rfl⟩]

/-! ### The account -/

/-- The ledger and the table agree. -/
structure Accounts (t : MemoryLineTable) (l : SlotLedger) : Prop where
  valid : ∀ i, (t.entries i).valid = (l.sizes i).isSome
  size : ∀ i, (t.entries i).allocatedChunks.toNat = (l.sizes i).getD 0
  few : ∀ i, (l.sizes i).getD 0 ≤ 4
  beyond : ∀ i, t.totalLogicalLines ≤ i → l.sizes i = none
  next_le : t.nextUnpartitionedChunk ≤ t.totalPhysicalChunks
  short : ∀ n offset, offset ∈ t.freeChunkLists n → offset < 2 ^ 24
  count : t.allocatedChunksCount + BitVec.ofNat 64 l.lost = BitVec.ofNat 64 (l.held t.totalLogicalLines)
  balance : l.held t.totalLogicalLines + t.freed = t.nextUnpartitionedChunk + l.lost
  bytes : t.totalUncompressedBytesStored = BitVec.ofNat 64 (64 * l.stored t.totalLogicalLines)

namespace Accounts

theorem blank (lines chunks : Nat) :
    Accounts { totalLogicalLines := lines, totalPhysicalChunks := chunks } .empty where
  valid _ := rfl
  size _ := rfl
  few _ := Nat.zero_le _
  beyond _ _ := rfl
  next_le := Nat.zero_le _
  short _ _ member := absurd member List.not_mem_nil
  count := by simp [SlotLedger.held, SlotLedger.empty]
  balance := by simp [SlotLedger.held, SlotLedger.empty, freed]
  bytes := by simp [SlotLedger.stored, SlotLedger.empty, Nat.count_eq_card_filter_range]

theorem vacated (accounts : t.Accounts l) (i : Nat) : Returned t (t.vacated i) ((l.sizes i).getD 0) := by
  rw [← accounts.size i]
  refine vacated_returned (accounts.size i ▸ accounts.few i) fun invalid => ?_
  rw [accounts.valid i, Option.isSome_eq_false_iff, Option.isNone_iff_eq_none] at invalid
  rw [accounts.size i, invalid]
  rfl

/-- Free slots of the size that is asked for are short, also once the old slot has been returned. -/
theorem vacated_short (accounts : t.Accounts l) (i n offset : Nat)
    (member : offset ∈ (t.vacated i).freeChunkLists n) : offset < 2 ^ 24 := by
  rw [MemoryLineTable.vacated] at member
  split at member
  · rw [freeChunks] at member
    split at member
    · exact accounts.short n offset member
    · dsimp only at member
      split at member
      · by_cases here : n = (t.entries i).allocatedChunks.toNat
        · rw [here, Function.update_self] at member
          rcases List.mem_cons.mp member with new | old
          · exact new ▸ (t.entries i).physChunkOffset.isLt
          · exact accounts.short _ offset old
        · rw [Function.update_of_ne here] at member
          exact accounts.short n offset member
      · exact accounts.short n offset member
  · exact accounts.short n offset member

theorem allocate_short (accounts : t.Accounts l) (i n m offset : Nat)
    (member : offset ∈ ((t.vacated i).allocateChunks n).2.freeChunkLists m) : offset < 2 ^ 24 := by
  revert member
  fun_cases allocateChunks (t.vacated i) n with
  | case2 pos first rest list =>
      intro member
      dsimp only at member
      by_cases here : m = n
      · rw [here, Function.update_self] at member
        exact accounts.vacated_short i n offset (by rw [list]; exact List.mem_cons_of_mem _ member)
      · rw [Function.update_of_ne here] at member
        exact accounts.vacated_short i m offset member
  | _ => exact accounts.vacated_short i m offset

/-- A line that is written gets an entry with the chunks it needs. -/
theorem written (accounts : t.Accounts l) (below : i < t.totalLogicalLines) (compLine : CompressedLine)
    {table : MemoryLineTable} (offset : Nat) (entries : table.entries = t.entries)
    (lines : table.totalLogicalLines = t.totalLogicalLines)
    (next_le : table.nextUnpartitionedChunk ≤ table.totalPhysicalChunks)
    (short : ∀ n offset, offset ∈ table.freeChunkLists n → offset < 2 ^ 24)
    (count : table.allocatedChunksCount + BitVec.ofNat 64 l.lost + BitVec.ofNat 64 ((l.sizes i).getD 0) =
      BitVec.ofNat 64 (l.held t.totalLogicalLines) + BitVec.ofNat 64 (neededChunks compLine))
    (balance : l.held t.totalLogicalLines + neededChunks compLine + table.freed =
      table.nextUnpartitionedChunk + l.lost + (l.sizes i).getD 0) :
    Accounts { table.writeLine i compLine (neededChunks compLine) offset with
        totalUncompressedBytesStored :=
          t.totalUncompressedBytesStored + if (t.entries i).valid then 0 else 64 }
      { l with sizes := Function.update l.sizes i (some (neededChunks compLine)) } := by
  have needed := neededChunks_le compLine
  have held := SlotLedger.held_update (l := l) below (neededChunks compLine) l.lost
  refine ⟨fun j => ?_, fun j => ?_, fun j => ?_, fun j far => ?_, next_le, short, ?_, ?_, ?_⟩
  · by_cases here : j = i
    · rw [here]
      simp [writeLine]
    · simp [writeLine, Function.update_of_ne here, entries, accounts.valid j]
  · by_cases here : j = i
    · rw [here]
      simp only [writeLine, Function.update_self, Option.getD_some, BitVec.toNat_ofNat]
      omega
    · simp only [writeLine, Function.update_of_ne here, entries, accounts.size j]
  · by_cases here : j = i
    · rw [here]
      simpa using needed
    · simpa [Function.update_of_ne here] using accounts.few j
  · change table.totalLogicalLines ≤ j at far
    rw [lines] at far
    have other : j ≠ i := by omega
    simpa [Function.update_of_ne other] using accounts.beyond j far
  · change table.allocatedChunksCount + BitVec.ofNat 64 l.lost =
      BitVec.ofNat 64 (SlotLedger.held _ table.totalLogicalLines)
    rw [lines]
    have sum := congrArg (BitVec.ofNat 64) held
    rw [BitVec.ofNat_add, BitVec.ofNat_add, ← count] at sum
    exact (BitVec.add_left_inj _).mp sum.symm
  · change SlotLedger.held _ table.totalLogicalLines + table.freed = table.nextUnpartitionedChunk + l.lost
    rw [lines]
    omega
  · change _ = BitVec.ofNat 64 (64 * SlotLedger.stored _ table.totalLogicalLines)
    rw [lines, SlotLedger.stored_update below, accounts.bytes, accounts.valid i, Nat.mul_add, BitVec.ofNat_add]
    cases (l.sizes i).isSome <;> rfl

theorem allocate_bytes (t : MemoryLineTable) (n : Nat) :
    (t.allocateChunks n).2.totalUncompressedBytesStored = t.totalUncompressedBytesStored := by
  fun_cases allocateChunks t n <;> rfl

/-- The first store of a line counts its 64 bytes. -/
theorem storeLine_bytes (ok : (t.storeLine i compLine).1 = true) :
    (t.storeLine i compLine).2.totalUncompressedBytesStored =
      t.totalUncompressedBytesStored + if (t.entries i).valid then 0 else 64 := by
  have free (offset n : Nat) :
      (t.freeChunks offset n).totalUncompressedBytesStored = t.totalUncompressedBytesStored := by
    rw [freeChunks]
    split <;> rfl
  rw [storeLine] at ok ⊢
  dsimp only at ok ⊢
  split at ok
  · cases ok
  next inside =>
  rw [if_neg inside]
  split at ok
  · next valid =>
    rw [if_pos valid, if_pos valid]
    split at ok
    · next other =>
      rw [if_pos other]
      split at ok
      · cases ok
      · next found =>
        rw [if_neg found]
        exact ((allocate_bytes _ _).trans (free _ _)).trans (BitVec.add_zero _).symm
    · next same =>
      rw [if_neg same]
      exact (BitVec.add_zero _).symm
  · next invalid =>
    rw [if_neg invalid, if_neg invalid]
    split at ok
    · cases ok
    · next found =>
      rw [if_neg found]

theorem storeLine (accounts : t.Accounts l) (chunks : t.totalPhysicalChunks < 2 ^ 32) :
    (t.storeLine i compLine).2.Accounts (l.record (.storeLine i compLine,
      .stored (t.storeLine i compLine).1 (t.storeAllocation i compLine))) := by
  have needed := neededChunks_le compLine
  have bytes := @storeLine_bytes t i compLine
  have stores := t.storeLine_stores i compLine
  generalize result : t.storeLine i compLine = r at stores bytes ⊢
  cases stores with
  | refused beyond =>
      rw [storeAllocation, if_pos beyond]
      exact accounts
  | inPlace below valid size =>
      have written := accounts.written below compLine (t.entries i).physChunkOffset.toNat rfl rfl accounts.next_le
        accounts.short (by rw [accounts.count, ← accounts.size i, size])
        (by have balance := accounts.balance; rw [← accounts.size i, size]; omega)
      rw [← bytes rfl] at written
      exact written
  | full below resized pos failed =>
      have returned := accounts.vacated i
      have given := allocateChunks_given needed (returned.chunks ▸ chunks)
        (accounts.vacated_short i (neededChunks compLine))
      rw [if_pos ⟨pos, failed⟩] at given
      rw [storeAllocation_of_resized below resized, given]
      have entries := returned.entries
      have lines := returned.lines
      have held (lost : Nat) : SlotLedger.held { l with lost := lost } (t.vacated i).totalLogicalLines =
          l.held t.totalLogicalLines := by rw [lines]; rfl
      refine ⟨fun j => by rw [entries]; exact accounts.valid j, fun j => by rw [entries]; exact accounts.size j,
        accounts.few, fun j far => accounts.beyond j (lines ▸ far), ?_, ?_, ?_, ?_, ?_⟩
      · rw [returned.next, returned.chunks]
        exact accounts.next_le
      · exact accounts.vacated_short i
      · rw [SlotLedger.record, held, ← accounts.count, ← returned.count, BitVec.ofNat_add, BitVec.add_assoc,
          BitVec.add_comm (BitVec.ofNat 64 l.lost)]
      · have balance := accounts.balance
        rw [SlotLedger.record, held, returned.freed, returned.next]
        dsimp only
        omega
      · rw [returned.bytes, lines]
        exact accounts.bytes
  | moved below resized stored found =>
      have returned := accounts.vacated i
      have given := allocateChunks_given needed (returned.chunks ▸ chunks)
        (accounts.vacated_short i (neededChunks compLine))
      rw [if_neg (fun both => found both.1 both.2)] at given
      obtain ⟨entries, -, lines, total⟩ := (t.vacated i).allocateChunks_frame (neededChunks compLine)
      rw [storeAllocation_of_resized below resized]
      have written := accounts.written below compLine
        ((t.vacated i).allocateChunks (neededChunks compLine)).1 (entries.trans returned.entries)
        (lines.trans returned.lines)
        (by
          rw [total]
          exact given.next_le (by rw [returned.next, returned.chunks]; exact accounts.next_le))
        (accounts.allocate_short i (neededChunks compLine))
        (by
          rw [given.count, ← accounts.count, ← returned.count]
          generalize (t.vacated i).allocatedChunksCount = c
          ac_rfl)
        (by
          have before := given.balance
          have balance := accounts.balance
          rw [returned.freed, returned.next] at before
          omega)
      rw [← bytes rfl] at written
      exact written

theorem storeLine_frame (t : MemoryLineTable) (i : Nat) (compLine : CompressedLine) :
    (t.storeLine i compLine).2.totalPhysicalChunks = t.totalPhysicalChunks ∧
      (t.storeLine i compLine).2.totalLogicalLines = t.totalLogicalLines := by
  have stores := t.storeLine_stores i compLine
  obtain ⟨-, -, lines, chunks, -⟩ := t.vacated_frame i
  obtain ⟨-, -, lines', chunks'⟩ := (t.vacated i).allocateChunks_frame (neededChunks compLine)
  generalize t.storeLine i compLine = r at stores ⊢
  cases stores with
  | refused beyond => exact ⟨rfl, rfl⟩
  | inPlace below valid size => exact ⟨rfl, rfl⟩
  | full below resized pos failed => exact ⟨chunks'.trans chunks, lines'.trans lines⟩
  | moved below resized stored found => exact ⟨chunks'.trans chunks, lines'.trans lines⟩

theorem call {tableCall : TableCall} {reply : TableReply} (accounts : t.Accounts l)
    (chunks : t.totalPhysicalChunks < 2 ^ 32) (returned : t.call tableCall = .ok (t', reply)) :
    t'.Accounts (l.record (tableCall, reply)) ∧ t'.totalPhysicalChunks = t.totalPhysicalChunks ∧
      t'.totalLogicalLines = t.totalLogicalLines := by
  obtain ⟨i, compLine, rfl, rfl, rfl⟩ | ⟨i, rfl, rfl, rfl⟩ | ⟨rfl, rfl, rfl⟩ := call_eq_ok returned
  · exact ⟨accounts.storeLine chunks, storeLine_frame t i compLine⟩
  · exact ⟨accounts, rfl, rfl⟩
  · exact ⟨blank _ _, rfl, rfl⟩

/-- What the ledger says of an entry. -/
theorem getEntry (accounts : t.Accounts l) (i : Nat) :
    (t.getEntry i).valid = (l.sizes i).isSome ∧ (t.getEntry i).allocatedChunks.toNat = (l.sizes i).getD 0 := by
  rw [MemoryLineTable.getEntry]
  split
  · next far =>
    rw [accounts.beyond i far]
    exact ⟨rfl, rfl⟩
  · exact ⟨accounts.valid i, accounts.size i⟩

/-- The bytes reported, with those of the lost chunks. -/
theorem physicalBytes (accounts : t.Accounts l) :
    t.getAllocatedPhysicalBytes + BitVec.ofNat 64 (16 * l.lost) =
      BitVec.ofNat 64 (16 * l.held t.totalLogicalLines) := by
  rw [getAllocatedPhysicalBytes, slotChunkSize, BitVec.ofNat_mul, BitVec.ofNat_mul, ← accounts.count,
    BitVec.mul_comm, ← BitVec.mul_add]

/-- A line holds at most four chunks. -/
theorem held_le (accounts : t.Accounts l) (lines : Nat) : l.held lines ≤ 4 * l.stored lines := by
  induction lines with
  | zero => exact Nat.le_refl _
  | succ lines ih =>
      have few := accounts.few lines
      rw [SlotLedger.held, SlotLedger.stored] at ih ⊢
      rw [Finset.sum_range_succ, Nat.count_succ]
      cases entry : l.sizes lines with
      | none => simpa using ih
      | some n =>
          rw [entry, Option.getD_some] at few
          rw [if_pos (show (some n).isSome = true from rfl), Option.getD_some]
          omega

theorem stored_le (l : SlotLedger) (lines : Nat) : l.stored lines ≤ lines := Nat.count_le _

end Accounts

/-! ### A run -/

section Run

variable {virtualCapacity physicalCapacity : BitVec 64} {events : List (TableCall × TableReply)}

theorem run_accounts (chunks : physicalCapacity.toNat / slotChunkSize < 2 ^ 32)
    (trace : Trace call (fun _ _ => True) (create virtualCapacity physicalCapacity) events t) :
    t.Accounts (.of events) ∧ t.totalPhysicalChunks = physicalCapacity.toNat / slotChunkSize ∧
      t.totalLogicalLines < 2 ^ 58 := by
  refine trace.invariant (fun events t => t.Accounts (.of events) ∧
    t.totalPhysicalChunks = physicalCapacity.toNat / slotChunkSize ∧ t.totalLogicalLines < 2 ^ 58) ?_ ?_
  · refine ⟨Accounts.blank _ _, rfl, ?_⟩
    rw [create]
    dsimp only
    omega
  · intro events t tableCall t' reply inv _ returned
    obtain ⟨accounts, total, few⟩ := inv
    obtain ⟨accounts', chunks', lines'⟩ := accounts.call (total ▸ chunks) returned
    rw [SlotLedger.of, List.foldl_append]
    exact ⟨accounts', chunks'.trans total, lines' ▸ few⟩

/-- In every run the report is the ledger's, less the chunks lost under lines that still hold them; and the chunks held
    and free are those ever cut and those lost. -/
theorem trace_accounted (chunks : physicalCapacity.toNat / slotChunkSize < 2 ^ 32)
    (trace : Trace call (fun _ _ => True) (create virtualCapacity physicalCapacity) events t) :
    let l := SlotLedger.of events
    (∀ i, (t.getEntry i).valid = (l.sizes i).isSome ∧
      (t.getEntry i).allocatedChunks.toNat = (l.sizes i).getD 0) ∧
    t.getAllocatedPhysicalBytes + BitVec.ofNat 64 (16 * l.lost) =
      BitVec.ofNat 64 (16 * l.held t.totalLogicalLines) ∧
    t.totalUncompressedBytesStored.toNat = 64 * l.stored t.totalLogicalLines ∧
    l.held t.totalLogicalLines + t.freed = t.nextUnpartitionedChunk + l.lost := by
  obtain ⟨accounts, -, few⟩ := run_accounts chunks trace
  have stored := Accounts.stored_le (.of events) t.totalLogicalLines
  refine ⟨accounts.getEntry, accounts.physicalBytes, ?_, accounts.balance⟩
  rw [accounts.bytes, BitVec.toNat_ofNat]
  exact Nat.mod_eq_of_lt (by omega)

theorem ratio_of_le (le : t.getAllocatedPhysicalBytes.toNat ≤ t.totalUncompressedBytesStored.toNat) :
    1 ≤ t.getCurrentCompressionRatio.value := by
  rw [getCurrentCompressionRatio]
  split
  · split
    · rw [Binary64.ofNat_value (by norm_num)]
      norm_num
    · exact Binary64.ofNat_one.ge
  · next some_bytes =>
    exact Binary64.one_le_ofNat_div (Nat.pos_of_ne_zero some_bytes) le

section Saving

variable {part : Binary64} (nonneg : 0 ≤ part.value) (le : part.value ≤ 1)

theorem rest_value (part : Binary64) : (Binary64.ofNat 1 - part).value = (Binary64.nearest (1 - part.value)).value := by
  rw [Binary64.sub_value, Binary64.ofNat_one]

theorem percent_value (part : Binary64) :
    (part * Binary64.ofNat 100).value = (Binary64.nearest (part.value * 100)).value := by
  rw [Binary64.mul_value, Binary64.ofNat_value (n := 100) (by norm_num), Nat.cast_ofNat]

include nonneg le

theorem rest_range : 0 ≤ (Binary64.ofNat 1 - part).value ∧ (Binary64.ofNat 1 - part).value ≤ 1 := by
  rw [rest_value]
  exact ⟨Binary64.nearest_nonneg (by linarith), Binary64.nearest_le_one (by linarith) (by linarith)⟩

theorem percent_range : 0 ≤ (part * Binary64.ofNat 100).value ∧ (part * Binary64.ofNat 100).value ≤ 100 := by
  have hundred : (Binary64.nearest 100).value = 100 := by
    exact_mod_cast Binary64.nearest_intCast (n := 100) (by norm_num)
  rw [percent_value]
  refine ⟨Binary64.nearest_nonneg (by linarith), ?_⟩
  exact (Binary64.nearest_mono (by linarith) (by linarith)).trans_eq hundred

theorem percent_error : |(part * Binary64.ofNat 100).value - part.value * 100| ≤ 1 / 2 ^ 47 := by
  rw [percent_value]
  refine (Binary64.abs_nearest_sub_le_of_lt (k := -46) ?_ (by norm_num)).trans_eq (by norm_num)
  rw [abs_of_nonneg (by linarith)]
  exact (show part.value * 100 ≤ 100 by linarith).trans_lt (by norm_num)

/-- What the saving of a part of the whole loses to the two roundings behind that of the part. -/
theorem saving_error :
    |((Binary64.ofNat 1 - part) * Binary64.ofNat 100).value - (1 - part.value) * 100| ≤ 1 / 2 ^ 45 := by
  have rest : |(Binary64.ofNat 1 - part).value - (1 - part.value)| ≤ 1 / 2 ^ 53 := by
    rw [rest_value]
    exact Binary64.abs_nearest_sub_le_of_le_one (by linarith) (by linarith)
  have percent := percent_error (rest_range nonneg le).1 (rest_range nonneg le).2
  rw [abs_le] at rest percent ⊢
  constructor <;> norm_num at * <;> linarith

end Saving

/-- No more bytes are held than are stored: the saving is in range, and is that of the ratio but for the rounding. -/
theorem saving_of_le (le : t.getAllocatedPhysicalBytes.toNat ≤ t.totalUncompressedBytesStored.toNat) :
    0 ≤ t.getMemorySavingPercentage.value ∧ t.getMemorySavingPercentage.value ≤ 100 ∧
    (0 < t.getAllocatedPhysicalBytes.toNat →
      |t.getMemorySavingPercentage.value - (1 - 1 / t.getCurrentCompressionRatio.value) * 100| ≤ 1 / 2 ^ 44) := by
  rw [getCurrentCompressionRatio, getMemorySavingPercentage]
  generalize t.getAllocatedPhysicalBytes.toNat = phys at le ⊢
  generalize t.totalUncompressedBytesStored.toNat = uncomp at le ⊢
  have nothing := Binary64.ofNat_zero
  split
  · refine ⟨nothing.ge, nothing.le.trans (by norm_num), fun some_bytes => ?_⟩
    omega
  split
  · next stored full =>
    refine ⟨nothing.ge, nothing.le.trans (by norm_num), fun some_bytes => ?_⟩
    have same : phys = uncomp := Nat.le_antisymm le full
    have ratio : (Binary64.ofNat uncomp / Binary64.ofNat uncomp).value = 1 := by
      rw [Binary64.div_value, div_self (Binary64.ofNat_pos (Nat.pos_of_ne_zero stored)).ne', Binary64.nearest_one]
    rw [if_neg (by omega), same, ratio, nothing]
    norm_num
  · next stored less =>
    have nonneg : 0 ≤ (Binary64.ofNat phys / Binary64.ofNat uncomp).value :=
      Binary64.nearest_nonneg (div_nonneg (Binary64.ofNat_nonneg _) (Binary64.ofNat_nonneg _))
    have part := Binary64.ofNat_div_le_one le
    obtain ⟨above, below⟩ := rest_range nonneg part
    refine ⟨(percent_range above below).1, (percent_range above below).2, fun some_bytes => ?_⟩
    have error := saving_error nonneg part
    have inverse := Binary64.abs_div_sub_one_div_le (Binary64.ofNat_pos some_bytes) (Binary64.ofNat_mono le)
    rw [if_neg (by omega)]
    rw [abs_le] at error inverse ⊢
    constructor <;> norm_num at * <;> linarith

/-- While no failed store has lost a chunk, the reported bytes are those the lines hold and fit into the physical memory,
    and the two figures made of them are in range and agree up to the rounding of the doubles. -/
theorem calm_ratio (chunks : physicalCapacity.toNat / slotChunkSize < 2 ^ 32)
    (trace : Trace call (fun _ _ => True) (create virtualCapacity physicalCapacity) events t)
    (calm : (SlotLedger.of events).lost = 0) :
    t.getAllocatedPhysicalBytes.toNat = 16 * (SlotLedger.of events).held t.totalLogicalLines ∧
    t.getAllocatedPhysicalBytes.toNat ≤ physicalCapacity.toNat ∧
    1 ≤ t.getCurrentCompressionRatio.value ∧
    0 ≤ t.getMemorySavingPercentage.value ∧ t.getMemorySavingPercentage.value ≤ 100 ∧
    (0 < t.getAllocatedPhysicalBytes.toNat →
      |t.getMemorySavingPercentage.value - (1 - 1 / t.getCurrentCompressionRatio.value) * 100| ≤ 1 / 2 ^ 44) := by
  obtain ⟨accounts, total, few⟩ := run_accounts chunks trace
  have physical := accounts.physicalBytes
  have held := accounts.held_le t.totalLogicalLines
  have stored := Accounts.stored_le (.of events) t.totalLogicalLines
  have balance := accounts.balance
  have next := accounts.next_le
  rw [calm, BitVec.add_zero] at physical
  rw [calm, Nat.add_zero] at balance
  have bytes : t.getAllocatedPhysicalBytes.toNat = 16 * (SlotLedger.of events).held t.totalLogicalLines := by
    rw [physical, BitVec.toNat_ofNat]
    exact Nat.mod_eq_of_lt (by omega)
  have uncompressed : t.totalUncompressedBytesStored.toNat =
      64 * (SlotLedger.of events).stored t.totalLogicalLines := by
    rw [accounts.bytes, BitVec.toNat_ofNat]
    exact Nat.mod_eq_of_lt (by omega)
  refine ⟨bytes, ?_, ratio_of_le (by omega), saving_of_le (by omega)⟩
  rw [total, slotChunkSize] at next
  omega

end Run

/-! ### Runs with one chunk -/

/-- A line takes the chunk, and twice a larger line for its place is refused. -/
def refusals : List TableCall :=
  [.storeLine 0 (compress (equalWords 1)), .storeLine 0 (compress ascending), .storeLine 0 (compress ascending)]

/-- More chunks are lost than held, and the report is sixteen bytes below zero. -/
theorem trace_accounted_refusals : ∃ events t, Trace call (fun _ _ => True) (create 128 16) events t ∧
    (SlotLedger.of events).lost = 2 ∧ t.getAllocatedPhysicalBytes = BitVec.ofNat 64 (2 ^ 64 - 16) := by
  obtain ⟨⟨events, t⟩, executed, observed⟩ := (Option.any_eq_true _ _).mp
    (by decide +kernel : (execute call (fun _ _ => True) refusals ([], create 128 16)).any fun run =>
      decide ((SlotLedger.of run.1).lost = 2 ∧ (SlotLedger.of run.1).held run.2.totalLogicalLines = 1))
  obtain ⟨lost, held⟩ := of_decide_eq_true observed
  have trace := Trace.nil.execute executed
  have report := (trace_accounted (by decide) trace).2.1
  rw [lost, held] at report
  exact ⟨events, t, trace, lost, (BitVec.eq_sub_iff_add_eq.mpr report).trans (by decide +kernel)⟩

/-- One line in one chunk: a quarter of the line is held, and the two figures are those of a quarter. -/
theorem calm_ratio_stored : ∃ events t, Trace call (fun _ _ => True) (create 128 16) events t ∧
    t.getAllocatedPhysicalBytes.toNat = 16 ∧ t.totalUncompressedBytesStored.toNat = 64 ∧
    1 ≤ t.getCurrentCompressionRatio.value ∧
    |t.getMemorySavingPercentage.value - (1 - 1 / t.getCurrentCompressionRatio.value) * 100| ≤ 1 / 2 ^ 44 := by
  obtain ⟨⟨events, t⟩, executed, observed⟩ := (Option.any_eq_true _ _).mp
    (by decide +kernel : (execute call (fun _ _ => True) (refusals.take 1) ([], create 128 16)).any fun run =>
      decide ((SlotLedger.of run.1).lost = 0 ∧ run.2.getAllocatedPhysicalBytes.toNat = 16 ∧
        run.2.totalUncompressedBytesStored.toNat = 64))
  obtain ⟨calm, held, stored⟩ := of_decide_eq_true observed
  have trace := Trace.nil.execute executed
  obtain ⟨_, _, ratio, _, _, saving⟩ := calm_ratio (by decide) trace calm
  exact ⟨events, t, trace, held, stored, ratio, saving (by rw [held]; decide)⟩

end MemoryLineTable

end Zftl.Legacy
