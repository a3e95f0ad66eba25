/-
Module: Zftl.Legacy.LineStorage
Layer: Legacy
Purpose: The line table refines an array of lines. `Intact` says that the slots of all lines and all free slots are
  pairwise disjoint, and that every entry leads to the compressed bytes of its line; storing a line keeps it, for
  the array with that line replaced, and a line that is loaded is the one in the array. It needs a physical memory
  of at most 2^24 chunks, the range of an entry's offset.
Imports: Zftl.Lib.SlotPool, Zftl.Legacy.LineTable
Trusted boundary: none
Main exports: MemoryLineTable.Intact, WellFormed, Stores, storeLine_stores, loadLine_intact, storeLine_intact
Open obligations: none
-/
import Zftl.Lib.SlotPool
import Zftl.Legacy.LineTable

namespace Zftl.Legacy

open BDIEngine SlotPool

namespace MemoryLineTable

/-- The free lists and the bump pointer. -/
def pool (t : MemoryLineTable) : SlotPool := ⟨t.freeChunkLists, t.nextUnpartitionedChunk⟩

/-- The slot of a line, in chunks. -/
def slotOf (t : MemoryLineTable) (i : Nat) : Option (Nat × Nat) :=
  if (t.entries i).valid ∧ (t.entries i).allocatedChunks ≠ 0 then
    some ((t.entries i).physChunkOffset.toNat, (t.entries i).allocatedChunks.toNat)
  else none

/-- The entry leads to the compressed bytes of the line. -/
def Stored (t : MemoryLineTable) (i : Nat) (line : Line) : Prop :=
  if (t.entries i).valid then
    (t.entries i).allocatedChunks.toNat = neededChunks (compress line) ∧
      (t.entries i).patternTag = (compress line).pattern.tag.setWidth 4 ∧
      (0 < neededChunks (compress line) → ∀ k, k < (compress line).compressedSize →
        t.physicalDram ((t.entries i).physChunkOffset.toNat * slotChunkSize + k) = (compress line).byte k)
  else line = 0

/-- The table holds the array of lines, in slots that are pairwise disjoint. -/
structure Intact (t : MemoryLineTable) (content : Nat → Line) : Prop where
  chunks_le : t.totalPhysicalChunks ≤ 2 ^ 24
  next_le : t.nextUnpartitionedChunk ≤ t.totalPhysicalChunks
  exclusive : t.pool.Exclusive t.slotOf
  stored : ∀ i, i < t.totalLogicalLines → t.Stored i (content i)

/-- The statistics do not matter. -/
theorem Intact.withBytesStored {t : MemoryLineTable} {content : Nat → Line} (intact : t.Intact content)
    (bytes : BitVec 64) : Intact { t with totalUncompressedBytesStored := bytes } content :=
  ⟨intact.chunks_le, intact.next_le, intact.exclusive, intact.stored⟩

/-! ### Sizes -/

/-- A compressed line as `Compress` builds it: at most 64 bytes, and raw bytes are all 64. -/
def WellFormed (compLine : CompressedLine) : Prop :=
  compLine.compressedSize ≤ 64 ∧ (compLine.pattern = .uncompressed → compLine.compressedSize = 64)

instance (compLine : CompressedLine) : Decidable (WellFormed compLine) := inferInstanceAs (Decidable (_ ∧ _))

theorem wellFormed_compress (line : Line) : WellFormed (compress line) := by
  refine ⟨(compressedSize_bounds line).2, ?_⟩
  fun_cases compress line with
  | case9 => exact fun _ => rfl
  | _ =>
    intro raw
    cases raw

/-- The chunks of a line hold its compressed bytes. -/
theorem compressedSize_le {compLine : CompressedLine} (wellFormed : WellFormed compLine)
    (some_chunks : 0 < neededChunks compLine) :
    compLine.compressedSize ≤ neededChunks compLine * slotChunkSize := by
  have bound := wellFormed.1
  rw [neededChunks] at some_chunks ⊢
  split at some_chunks
  · next other =>
    rw [if_pos other, getQuantizedSlotSize, slotChunkSize]
    split
    · omega
    · split
      · omega
      · split <;> omega
  · exact absurd some_chunks (Nat.lt_irrefl 0)

theorem neededChunks_le (compLine : CompressedLine) : neededChunks compLine ≤ 4 := by
  rw [neededChunks, getQuantizedSlotSize, slotChunkSize]
  split
  · split
    · decide
    · split
      · decide
      · split <;> decide
  · decide

/-- Only the zero line has no chunks. -/
theorem eq_zero_of_neededChunks {line : Line} (none : neededChunks (compress line) = 0) : line = 0 := by
  have bounds := compressedSize_bounds line
  rw [neededChunks] at none
  split at none
  · rw [getQuantizedSlotSize, slotChunkSize] at none
    split at none
    · exact absurd none (by decide)
    · split at none
      · exact absurd none (by decide)
      · split at none <;> exact absurd none (by decide)
  · next zeros => exact eq_zero_of_pattern (Decidable.not_not.mp zeros)

/-! ### Loading -/

/-- The four bits of an entry hold every tag. -/
theorem setWidth_tag (pattern : BDIPattern) : (pattern.tag.setWidth 4).setWidth 8 = pattern.tag := by
  cases pattern <;> rfl

/-- They tell the patterns apart. -/
theorem eq_of_tag {pattern other : BDIPattern} (tag : pattern.tag.setWidth 4 = other.tag.setWidth 4) :
    pattern = other := by
  revert tag
  cases pattern <;> cases other <;> decide

theorem intact_create (virtualCapacity physicalCapacity : BitVec 64)
    (chunks : physicalCapacity.toNat / slotChunkSize ≤ 2 ^ 24) :
    (create virtualCapacity physicalCapacity).Intact fun _ => 0 where
  chunks_le := chunks
  next_le := Nat.zero_le _
  exclusive := exclusive_empty
  stored _ _ := rfl

/-- A line that is loaded is the one in the array. -/
theorem loadLine_intact {t : MemoryLineTable} {content : Nat → Line} {i : Nat} (intact : t.Intact content)
    (below : i < t.totalLogicalLines) : t.loadLine i = some (content i) := by
  have stored := intact.stored i below
  rw [loadLine, if_neg (Nat.not_le.mpr below)]
  rw [Stored] at stored
  split at stored
  · next valid =>
    obtain ⟨chunks, tag, bytes⟩ := stored
    change (if (t.entries i).valid = false then some 0 else _) = _
    rw [if_neg (by simp [valid])]
    split
    · next empty =>
      obtain none | zeros := empty
      · have needed : neededChunks (compress (content i)) = 0 := by
          rw [← chunks, none]
          rfl
        rw [eq_zero_of_neededChunks needed]
      · rw [eq_zero_of_pattern (eq_of_tag (tag.symm.trans zeros))]
    · next full =>
      have some_chunks : 0 < neededChunks (compress (content i)) := by
        rw [← chunks, Nat.pos_iff_ne_zero]
        exact fun none => full (Or.inl (BitVec.eq_of_toNat_eq none))
      rw [tag, setWidth_tag, chunks]
      exact decompressRaw_compress (bytes some_chunks) (compressedSize_le (wellFormed_compress _) some_chunks)
  · next invalid =>
    rw [stored]
    exact if_pos (by simpa using invalid)

/-! ### Allocation -/

/-- What an allocation leaves as it is. -/
theorem allocateChunks_frame (t : MemoryLineTable) (n : Nat) :
    (t.allocateChunks n).2.entries = t.entries ∧ (t.allocateChunks n).2.physicalDram = t.physicalDram ∧
      (t.allocateChunks n).2.totalLogicalLines = t.totalLogicalLines ∧
      (t.allocateChunks n).2.totalPhysicalChunks = t.totalPhysicalChunks := by
  fun_cases allocateChunks t n <;> exact ⟨rfl, rfl, rfl, rfl⟩

theorem freeChunks_frame (t : MemoryLineTable) (offset n : Nat) :
    (t.freeChunks offset n).entries = t.entries ∧ (t.freeChunks offset n).physicalDram = t.physicalDram ∧
      (t.freeChunks offset n).totalLogicalLines = t.totalLogicalLines ∧
      (t.freeChunks offset n).totalPhysicalChunks = t.totalPhysicalChunks ∧
      (t.freeChunks offset n).nextUnpartitionedChunk = t.nextUnpartitionedChunk := by
  fun_cases freeChunks t offset n <;> exact ⟨rfl, rfl, rfl, rfl, rfl⟩

/-- The slot a line has after an allocation of `n` chunks at `offset`. -/
def granted (offset n : Nat) : Option (Nat × Nat) := if 0 < n then some (offset, n) else none

theorem allocateChunks_next_le {t : MemoryLineTable} (n : Nat)
    (next : t.nextUnpartitionedChunk ≤ t.totalPhysicalChunks) :
    (t.allocateChunks n).2.nextUnpartitionedChunk ≤ t.totalPhysicalChunks := by
  fun_cases allocateChunks t n with
  | case3 _ _ room => exact room
  | _ => exact next

/-- An allocation that succeeds gives a line without slot one that no other slot overlaps, if the bump pointer fits into
    a `uint32_t` wherever it is returned. -/
theorem allocateChunks_exclusive {t : MemoryLineTable} {slot : Nat → Option (Nat × Nat)} {i n : Nat}
    (near : t.freeChunkLists n = [] → t.nextUnpartitionedChunk + n ≤ t.totalPhysicalChunks →
      t.nextUnpartitionedChunk < 2 ^ 32)
    (exclusive : t.pool.Exclusive slot) (unowned : slot i = none)
    (found : 0 < n → (t.allocateChunks n).1 ≠ uint32Max) :
    (t.allocateChunks n).2.pool.Exclusive (Function.update slot i (granted (t.allocateChunks n).1 n)) := by
  revert found
  fun_cases allocateChunks t n with
  | case1 zero =>
    intro _
    rw [granted, if_neg (by omega), ← unowned, Function.update_eq_self]
    exact exclusive
  | case2 pos offset rest free =>
    intro _
    rw [granted, if_pos (Nat.pos_of_ne_zero pos)]
    exact exclusive.reuse free i
  | case3 pos free room =>
    intro _
    rw [granted, if_pos (Nat.pos_of_ne_zero pos)]
    change SlotPool.Exclusive _ (Function.update slot i (some (t.nextUnpartitionedChunk % 2 ^ 32, n)))
    rw [Nat.mod_eq_of_lt (near free room)]
    exact exclusive.cut n i
  | case4 pos free full =>
    intro found
    exact absurd rfl (found (Nat.pos_of_ne_zero pos))

/-- The slot of a line goes back to its free list. -/
theorem freeChunks_exclusive {t : MemoryLineTable} {i : Nat} (exclusive : t.pool.Exclusive t.slotOf)
    (valid : (t.entries i).valid) (size : (t.entries i).allocatedChunks.toNat ≤ 4) :
    (t.freeChunks (t.entries i).physChunkOffset.toNat (t.entries i).allocatedChunks.toNat).pool.Exclusive
      (Function.update t.slotOf i none) := by
  have short := (t.entries i).physChunkOffset.isLt
  rw [freeChunks]
  split
  · next nothing =>
    have none : t.slotOf i = none := by
      obtain zero | failed := nothing
      · have chunks : (t.entries i).allocatedChunks = 0 := BitVec.eq_of_toNat_eq zero
        rw [slotOf, if_neg (fun both => both.2 chunks)]
      · rw [uint32Max] at failed
        omega
    rw [← none, Function.update_eq_self]
    exact exclusive
  · next something =>
    have pos : (t.entries i).allocatedChunks.toNat ≠ 0 := fun zero => something (Or.inl zero)
    have owned : t.slotOf i =
        some ((t.entries i).physChunkOffset.toNat, (t.entries i).allocatedChunks.toNat) := by
      rw [slotOf, if_pos ⟨valid, fun zero => pos (congrArg BitVec.toNat zero)⟩]
    exact exclusive.release owned (Nat.pos_of_ne_zero pos)

/-! ### What a store does -/

/-- The line has no slot yet, or one of another size. -/
def Resized (t : MemoryLineTable) (i : Nat) (compLine : CompressedLine) : Prop :=
  (t.entries i).valid → (t.entries i).allocatedChunks.toNat ≠ neededChunks compLine

instance (t : MemoryLineTable) (i : Nat) (compLine : CompressedLine) : Decidable (t.Resized i compLine) :=
  inferInstanceAs (Decidable (_ → _))

/-- The table after the old slot of the line has been returned. -/
def vacated (t : MemoryLineTable) (i : Nat) : MemoryLineTable :=
  if (t.entries i).valid then
    t.freeChunks (t.entries i).physChunkOffset.toNat (t.entries i).allocatedChunks.toNat
  else t

/-- What `StoreLine` can do: it refuses the line, writes it where it is, finds no slot, or moves it to a new one. -/
inductive Stores (t : MemoryLineTable) (i : Nat) (compLine : CompressedLine) : Bool × MemoryLineTable → Prop where
  | refused (beyond : t.totalLogicalLines ≤ i) : Stores t i compLine (false, t)
  | inPlace (below : i < t.totalLogicalLines) (valid : (t.entries i).valid)
      (size : (t.entries i).allocatedChunks.toNat = neededChunks compLine) :
      Stores t i compLine
        (true, t.writeLine i compLine (neededChunks compLine) (t.entries i).physChunkOffset.toNat)
  | full (below : i < t.totalLogicalLines) (resized : t.Resized i compLine) (pos : 0 < neededChunks compLine)
      (failed : ((t.vacated i).allocateChunks (neededChunks compLine)).1 = uint32Max) :
      Stores t i compLine (false, ((t.vacated i).allocateChunks (neededChunks compLine)).2)
  | moved (below : i < t.totalLogicalLines) (resized : t.Resized i compLine) (bytes : BitVec 64)
      (found : 0 < neededChunks compLine →
        ((t.vacated i).allocateChunks (neededChunks compLine)).1 ≠ uint32Max) :
      Stores t i compLine
        (true,
          { ((t.vacated i).allocateChunks (neededChunks compLine)).2.writeLine i compLine
              (neededChunks compLine) ((t.vacated i).allocateChunks (neededChunks compLine)).1 with
            totalUncompressedBytesStored := bytes })

theorem storeLine_stores (t : MemoryLineTable) (i : Nat) (compLine : CompressedLine) :
    t.Stores i compLine (t.storeLine i compLine) := by
  rw [storeLine]
  dsimp only
  split
  · next beyond => exact .refused beyond
  next inside =>
  have below : i < t.totalLogicalLines := Nat.lt_of_not_le inside
  split
  · next valid =>
    have old : t.vacated i =
        t.freeChunks (t.entries i).physChunkOffset.toNat (t.entries i).allocatedChunks.toNat := if_pos valid
    split
    · next other =>
      rw [← old]
      split
      · next failed => exact .full below (fun _ => other) failed.1 failed.2
      · next found => exact .moved below (fun _ => other) _ fun pos failed => found ⟨pos, failed⟩
    · next same => exact .inPlace below valid (Decidable.not_not.mp same)
  · next invalid =>
    have old : t.vacated i = t := if_neg invalid
    have resized : t.Resized i compLine := fun valid => absurd valid invalid
    split
    · next failed =>
      have stores := @Stores.full t i compLine below resized failed.1 (by rw [old]; exact failed.2)
      rwa [old] at stores
    · next found =>
      have stores := @Stores.moved t i compLine below resized (t.totalUncompressedBytesStored + 64)
        (by rw [old]; exact fun pos failed => found ⟨pos, failed⟩)
      rwa [old] at stores

/-- What a call does. -/
theorem call_eq_ok {t t' : MemoryLineTable} {tableCall : TableCall} {reply : TableReply}
    (returned : t.call tableCall = .ok (t', reply)) :
    (∃ i compLine, tableCall = .storeLine i compLine ∧ t' = (t.storeLine i compLine).2 ∧
        reply = .stored (t.storeLine i compLine).1 (t.storeAllocation i compLine)) ∨
      (∃ i, tableCall = .loadLine i ∧ t' = t ∧ reply = .loaded (t.loadLine i)) ∨
      (tableCall = .reset ∧ t' = t.reset ∧ reply = .reset) := by
  cases tableCall with
  | storeLine i compLine =>
    obtain ⟨rfl, rfl⟩ := Prod.mk.inj (Except.ok.inj returned)
    exact Or.inl ⟨i, compLine, rfl, rfl, rfl⟩
  | loadLine i =>
    obtain ⟨rfl, rfl⟩ := Prod.mk.inj (Except.ok.inj returned)
    exact Or.inr (Or.inl ⟨i, rfl, rfl, rfl⟩)
  | reset =>
    obtain ⟨rfl, rfl⟩ := Prod.mk.inj (Except.ok.inj returned)
    exact Or.inr (Or.inr ⟨rfl, rfl, rfl⟩)

theorem vacated_frame (t : MemoryLineTable) (i : Nat) :
    (t.vacated i).entries = t.entries ∧ (t.vacated i).physicalDram = t.physicalDram ∧
      (t.vacated i).totalLogicalLines = t.totalLogicalLines ∧
      (t.vacated i).totalPhysicalChunks = t.totalPhysicalChunks ∧
      (t.vacated i).nextUnpartitionedChunk = t.nextUnpartitionedChunk := by
  rw [vacated]
  split
  · exact t.freeChunks_frame _ _
  · exact ⟨rfl, rfl, rfl, rfl, rfl⟩

/-- Once its slot has been returned the line owns nothing. -/
theorem vacated_exclusive {t : MemoryLineTable} {i : Nat} (exclusive : t.pool.Exclusive t.slotOf)
    (few : (t.entries i).valid → (t.entries i).allocatedChunks.toNat ≤ 4) :
    (t.vacated i).pool.Exclusive (Function.update t.slotOf i none) := by
  rw [vacated]
  split
  · next valid => exact freeChunks_exclusive exclusive valid (few valid)
  · next invalid =>
    have unowned : Function.update t.slotOf i none = t.slotOf := by
      rw [Function.update_eq_self_iff, slotOf, if_neg (fun both => invalid both.1)]
    rwa [unowned]

/-- A line that keeps its slot keeps all slots. -/
theorem update_slotOf_inPlace {t : MemoryLineTable} {i n : Nat} (valid : (t.entries i).valid)
    (size : (t.entries i).allocatedChunks.toNat = n) :
    Function.update t.slotOf i (granted (t.entries i).physChunkOffset.toNat n) = t.slotOf := by
  rw [Function.update_eq_self_iff, slotOf, granted, ← size]
  by_cases zero : (t.entries i).allocatedChunks = 0
  · have none : ¬ 0 < (t.entries i).allocatedChunks.toNat := by
      rw [zero]
      exact Nat.lt_irrefl 0
    rw [if_neg none, if_neg (fun both => both.2 zero)]
  · rw [if_pos (Nat.pos_of_ne_zero fun none => zero (BitVec.eq_of_toNat_eq none)), if_pos ⟨valid, zero⟩]

/-! ### Storing -/

section WriteLine

variable {t t' : MemoryLineTable} {content : Nat → Line} {i offset : Nat} {line : Line}

/-- The entry that is written. -/
theorem writeLine_entry (t : MemoryLineTable) (i : Nat) (comp : CompressedLine) (n offset : Nat) :
    (t.writeLine i comp n offset).entries i =
      { physChunkOffset := BitVec.ofNat 24 (if 0 < n then offset else 0)
        allocatedChunks := BitVec.ofNat 3 n
        patternTag := comp.pattern.tag.setWidth 4
        valid := true } :=
  Function.update_self _ _ _

theorem writeLine_other (t : MemoryLineTable) {i j : Nat} (comp : CompressedLine) (n offset : Nat)
    (other : j ≠ i) : (t.writeLine i comp n offset).entries j = t.entries j :=
  Function.update_of_ne other _ _

/-- The entry that is written leads to the bytes that are written. -/
theorem writeLine_bytes (t : MemoryLineTable) (i : Nat) (comp : CompressedLine) {n offset k : Nat} (pos : 0 < n)
    (near : offset < 2 ^ 24) (inside : k < comp.compressedSize) :
    (t.writeLine i comp n offset).physicalDram
        (((t.writeLine i comp n offset).entries i).physChunkOffset.toNat * slotChunkSize + k) =
      comp.byte k := by
  rw [writeLine_entry, if_pos pos, BitVec.toNat_ofNat, Nat.mod_eq_of_lt near]
  refine (if_pos ⟨pos, Nat.le_add_right _ _, Nat.add_lt_add_left inside _⟩).trans ?_
  rw [Nat.add_sub_cancel_left]

/-- The bytes of another slot are not written, as it has no common chunk with that of the line. -/
theorem writeLine_dram_other {p : SlotPool} {slot : Nat → Option (Nat × Nat)} {j n start size k : Nat}
    {comp : CompressedLine} (exclusive : p.Exclusive slot) (own : 0 < n → slot i = some (offset, n))
    (owned : slot j = some (start, size)) (other : j ≠ i)
    (short : 0 < n → comp.compressedSize ≤ n * slotChunkSize) (inside : k < size * slotChunkSize) :
    (t.writeLine i comp n offset).physicalDram (start * slotChunkSize + k) =
      t.physicalDram (start * slotChunkSize + k) := by
  refine if_neg fun written => ?_
  obtain ⟨pos, low, high⟩ := written
  have short := short pos
  rw [slotChunkSize] at low high short inside
  have mem : InSlot start size ((start * 16 + k) / 16) := ⟨by omega, by omega⟩
  have mem' : InSlot offset n ((start * 16 + k) / 16) := ⟨by omega, by omega⟩
  exact other (exclusive.apart_owned owned (own pos) mem mem')

/-- The slot of the line that is written is the one it was granted. -/
theorem writeLine_slotOf {n : Nat} (comp : CompressedLine) (few : n ≤ 4) (near : 0 < n → offset < 2 ^ 24)
    (entries : t'.entries = t.entries) :
    (t'.writeLine i comp n offset).slotOf = Function.update t.slotOf i (granted offset n) := by
  funext j
  by_cases same : j = i
  · rw [same, Function.update_self, slotOf, writeLine_entry, granted]
    by_cases pos : 0 < n
    · have kept : (BitVec.ofNat 24 offset).toNat = offset := by
        rw [BitVec.toNat_ofNat, Nat.mod_eq_of_lt (near pos)]
      have kept' : (BitVec.ofNat 3 n).toNat = n := by
        rw [BitVec.toNat_ofNat, Nat.mod_eq_of_lt (by omega)]
      have some_chunks : BitVec.ofNat 3 n ≠ 0 := fun zero => by
        rw [zero] at kept'
        change 0 = n at kept'
        omega
      rw [if_pos ⟨rfl, some_chunks⟩, if_pos pos, if_pos pos, kept, kept']
    · have zero : n = 0 := by omega
      subst zero
      rw [if_neg (fun both => both.2 rfl), if_neg pos]
  · rw [Function.update_of_ne same, slotOf, writeLine_other _ _ _ _ same, entries]
    rfl

/-- Writing the line and its entry completes an allocation. -/
theorem writeLine_intact (intact : t.Intact content) (entries : t'.entries = t.entries)
    (dram : t'.physicalDram = t.physicalDram) (lines : t'.totalLogicalLines = t.totalLogicalLines)
    (total : t'.totalPhysicalChunks = t.totalPhysicalChunks)
    (next : t'.nextUnpartitionedChunk ≤ t.totalPhysicalChunks)
    (exclusive : t'.pool.Exclusive
      (Function.update t.slotOf i (granted offset (neededChunks (compress line))))) :
    (t'.writeLine i (compress line) (neededChunks (compress line)) offset).Intact
      (Function.update content i line) := by
  have limit := intact.chunks_le
  have few := neededChunks_le (compress line)
  have own (pos : 0 < neededChunks (compress line)) :
      Function.update t.slotOf i (granted offset (neededChunks (compress line))) i =
        some (offset, neededChunks (compress line)) := by
    rw [Function.update_self, granted, if_pos pos]
  have near (pos : 0 < neededChunks (compress line)) : offset < 2 ^ 24 := by
    have inside := exclusive.inside (.owner (own pos))
    change offset + _ ≤ t'.nextUnpartitionedChunk at inside
    omega
  refine ⟨total ▸ limit, total ▸ next, ?_, fun j below => ?_⟩
  · rw [writeLine_slotOf _ few near entries]
    exact exclusive
  by_cases same : j = i
  · subst same
    have bytes (pos : 0 < neededChunks (compress line)) (k : Nat)
        (inside : k < (compress line).compressedSize) := writeLine_bytes t' j (compress line) pos (near pos) inside
    rw [Function.update_self, Stored]
    rw [writeLine_entry] at bytes ⊢
    refine (if_pos rfl).mpr ⟨?_, rfl, bytes⟩
    rw [BitVec.toNat_ofNat, Nat.mod_eq_of_lt (by omega)]
  · rw [Function.update_of_ne same, Stored, writeLine_other _ _ _ _ same, entries]
    have before := intact.stored j (lines ▸ below)
    rw [Stored] at before
    split
    · next valid =>
      rw [if_pos valid] at before
      obtain ⟨chunks, tag, bytes⟩ := before
      refine ⟨chunks, tag, fun pos k inside => ?_⟩
      rw [← bytes pos k inside, ← dram]
      have full : (t.entries j).allocatedChunks ≠ 0 := fun zero => by
        rw [zero] at chunks
        change 0 = _ at chunks
        omega
      have owned : Function.update t.slotOf i (granted offset (neededChunks (compress line))) j =
          some ((t.entries j).physChunkOffset.toNat, (t.entries j).allocatedChunks.toNat) := by
        rw [Function.update_of_ne same, slotOf, if_pos ⟨valid, full⟩]
      have size := compressedSize_le (wellFormed_compress _) pos
      exact writeLine_dram_other exclusive own owned same (compressedSize_le (wellFormed_compress line))
        (by rw [chunks]; omega)
    · next invalid => rwa [if_neg invalid] at before

end WriteLine

/-- The slots of an intact table have at most four chunks. -/
theorem Intact.few {t : MemoryLineTable} {content : Nat → Line} (intact : t.Intact content) {i : Nat}
    (below : i < t.totalLogicalLines) (valid : (t.entries i).valid) :
    (t.entries i).allocatedChunks.toNat ≤ 4 := by
  have stored := intact.stored i below
  rw [Stored, if_pos valid] at stored
  rw [stored.1]
  exact neededChunks_le _

/-- An allocation for a line, after its old slot was returned, and the writing of the line. -/
theorem allocate_writeLine_intact {t : MemoryLineTable} {content : Nat → Line} {i : Nat} {line : Line}
    (intact : t.Intact content) (below : i < t.totalLogicalLines)
    (found : 0 < neededChunks (compress line) →
      ((t.vacated i).allocateChunks (neededChunks (compress line))).1 ≠ uint32Max) :
    (((t.vacated i).allocateChunks (neededChunks (compress line))).2.writeLine i (compress line)
      (neededChunks (compress line)) ((t.vacated i).allocateChunks (neededChunks (compress line))).1).Intact
        (Function.update content i line) := by
  obtain ⟨entries, dram, lines, total, next⟩ := t.vacated_frame i
  obtain ⟨entries', dram', lines', total'⟩ :=
    (t.vacated i).allocateChunks_frame (neededChunks (compress line))
  have limit := intact.chunks_le
  have next_le := intact.next_le
  rw [← next, ← total] at next_le
  have exclusive := allocateChunks_exclusive (fun _ room => by omega)
    (vacated_exclusive intact.exclusive (intact.few below)) (Function.update_self _ _ _) found
  rw [Function.update_idem] at exclusive
  have bounded := allocateChunks_next_le (neededChunks (compress line)) next_le
  rw [total] at bounded
  exact writeLine_intact intact (entries'.trans entries) (dram'.trans dram) (lines'.trans lines)
    (total'.trans total) bounded exclusive

/-- Storing a line replaces it in the array. -/
theorem storeLine_intact {t t' : MemoryLineTable} {content : Nat → Line} {i : Nat} {line : Line}
    (intact : t.Intact content) (stored : t.storeLine i (compress line) = (true, t')) :
    t'.Intact (Function.update content i line) ∧ t'.totalLogicalLines = t.totalLogicalLines := by
  have stores := t.storeLine_stores i (compress line)
  rw [stored] at stores
  cases stores with
  | inPlace below valid size =>
    have exclusive := intact.exclusive
    rw [← update_slotOf_inPlace valid size] at exclusive
    exact ⟨writeLine_intact intact rfl rfl rfl rfl intact.next_le exclusive, rfl⟩
  | moved below _ bytes found =>
    obtain ⟨-, -, lines, -⟩ := t.vacated_frame i
    obtain ⟨-, -, lines', -⟩ := (t.vacated i).allocateChunks_frame (neededChunks (compress line))
    exact ⟨(allocate_writeLine_intact intact below found).withBytesStored bytes, lines'.trans lines⟩

end MemoryLineTable

end Zftl.Legacy
