/-
Module: Zftl.Legacy.OffsetWidth
Layer: Legacy
Purpose: The width of an entry's chunk offset. `AllocateChunks` computes offsets in 32 bits and compares them with the
  chunks there are, and the entry keeps 24 bits of them. An offset that comes back from a free list was read from
  an entry, so it fits; one cut at the bump pointer fits exactly if the pointer is below 2^24. As long as every
  cut meets this, each entry reads back the slot that was granted to its line.
Imports: Zftl.Legacy.LineStorage, Zftl.Legacy.SelfDescribing, Zftl.Legacy.HyperRamController
Trusted boundary: none
Main exports: slotsGranted, KeepsOffsets, OffsetFits, OffsetsNear, keepsOffsets_call_iff, trace_keepsOffsets
Open obligations: none
-/
import Zftl.Legacy.LineStorage
import Zftl.Legacy.SelfDescribing
import Zftl.Legacy.HyperRamController

namespace Zftl.Legacy

open BaseDelta BDIEngine

namespace MemoryLineTable

/-! ### What was granted, and what the entries say -/

/-- The slots of the lines after one more call: a store that called `AllocateChunks` and succeeded has a new one. -/
def grant (slots : Nat → Option (Nat × Nat)) : TableCall × TableReply → Nat → Option (Nat × Nat)
  | (.storeLine i compLine, .stored true (some offset)) =>
    Function.update slots i (some (offset, neededChunks compLine))
  | (.reset, _) => fun _ => none
  | _ => slots

/-- The slot of each line, as `AllocateChunks` returned it. -/
def slotsGranted (events : List (TableCall × TableReply)) : Nat → Option (Nat × Nat) :=
  events.foldl grant fun _ => none

/-- The slot of a line, as `LoadLine` and `FreeChunks` take it from the entry. -/
def entrySlot (t : MemoryLineTable) (i : Nat) : Option (Nat × Nat) :=
  if (t.entries i).valid then
    some ((t.entries i).physChunkOffset.toNat, (t.entries i).allocatedChunks.toNat)
  else none

/-- Every entry reads back the slot that was granted to its line. -/
def KeepsOffsets (events : List (TableCall × TableReply)) (t : MemoryLineTable) : Prop :=
  ∀ i, t.entrySlot i = slotsGranted events i

/-- An allocation of `n` chunks cuts its slot at the bump pointer. -/
def Cuts (t : MemoryLineTable) (n : Nat) : Prop :=
  0 < n ∧ t.freeChunkLists n = [] ∧ t.nextUnpartitionedChunk + n ≤ t.totalPhysicalChunks

instance (t : MemoryLineTable) (n : Nat) : Decidable (t.Cuts n) := inferInstanceAs (Decidable (_ ∧ _))

/-- A store that cuts a new slot does so where an entry can still say it. -/
def OffsetFits (t : MemoryLineTable) : TableCall → Prop
  | .storeLine i compLine =>
    i < t.totalLogicalLines → t.Resized i compLine → t.Cuts (neededChunks compLine) →
      t.nextUnpartitionedChunk < 2 ^ 24
  | .loadLine _ => True
  | .reset => True

instance (t : MemoryLineTable) (tableCall : TableCall) : Decidable (t.OffsetFits tableCall) :=
  match tableCall with
  | .storeLine _ _ => inferInstanceAs (Decidable (_ → _ → _ → _))
  | .loadLine _ => .isTrue trivial
  | .reset => .isTrue trivial

theorem slotsGranted_append (events : List (TableCall × TableReply)) (event : TableCall × TableReply) :
    slotsGranted (events ++ [event]) = grant (slotsGranted events) event := by
  rw [slotsGranted, List.foldl_append]
  rfl

theorem entrySlot_congr {t t' : MemoryLineTable} (entries : t'.entries = t.entries) :
    t'.entrySlot = t.entrySlot := by
  funext i
  rw [entrySlot, entrySlot, entries]

/-! ### Offsets that fit -/

/-- The bump pointer is at most one slot beyond 2^24, free slots start below, and an entry without chunks has
    offset zero. -/
structure OffsetsNear (t : MemoryLineTable) : Prop where
  next_le : t.nextUnpartitionedChunk ≤ 2 ^ 24 + 3
  free_lt : ∀ n offset, offset ∈ t.freeChunkLists n → offset < 2 ^ 24
  zero : ∀ i, (t.entries i).valid → (t.entries i).allocatedChunks = 0 → (t.entries i).physChunkOffset = 0

variable {t t' : MemoryLineTable} {i n : Nat} {compLine : CompressedLine}

/-- Returning a slot leaves the lists of the other sizes as they are. -/
theorem vacated_freeChunkLists (other : (t.entries i).valid → (t.entries i).allocatedChunks.toNat ≠ n) :
    (t.vacated i).freeChunkLists n = t.freeChunkLists n := by
  rw [vacated]
  split
  · next valid =>
    rw [freeChunks]
    split
    · rfl
    · dsimp only
      split
      · exact Function.update_of_ne (other valid).symm _ _
      · rfl
  · rfl

theorem cuts_vacated (resized : t.Resized i compLine) :
    (t.vacated i).Cuts (neededChunks compLine) ↔ t.Cuts (neededChunks compLine) := by
  obtain ⟨-, -, -, total, next⟩ := t.vacated_frame i
  rw [Cuts, Cuts, vacated_freeChunkLists resized, total, next]

/-- The condition is about the table once the old slot has been returned. -/
theorem OffsetFits.vacated (fits : t.OffsetFits (.storeLine i compLine)) (below : i < t.totalLogicalLines)
    (resized : t.Resized i compLine) :
    (t.vacated i).Cuts (neededChunks compLine) → (t.vacated i).nextUnpartitionedChunk < 2 ^ 24 := by
  obtain ⟨-, -, -, -, next⟩ := t.vacated_frame i
  rw [cuts_vacated resized, next]
  exact fits below resized

namespace OffsetsNear

theorem create (virtualCapacity physicalCapacity : BitVec 64) :
    (create virtualCapacity physicalCapacity).OffsetsNear :=
  ⟨Nat.zero_le _, fun _ _ member => absurd member List.not_mem_nil, fun _ _ _ => rfl⟩

theorem reset (t : MemoryLineTable) : t.reset.OffsetsNear :=
  ⟨Nat.zero_le _, fun _ _ member => absurd member List.not_mem_nil, fun _ _ _ => rfl⟩

/-- What is put on a free list was read from an entry. -/
theorem vacated (near : t.OffsetsNear) (i : Nat) : (t.vacated i).OffsetsNear := by
  obtain ⟨entries, -, -, -, next⟩ := t.vacated_frame i
  refine ⟨next ▸ near.next_le, fun n offset member => ?_, entries ▸ near.zero⟩
  by_cases other : (t.entries i).valid → (t.entries i).allocatedChunks.toNat ≠ n
  · rw [vacated_freeChunkLists other] at member
    exact near.free_lt n offset member
  · obtain ⟨valid, size⟩ := Classical.not_imp.mp other
    obtain rfl := Decidable.not_not.mp size
    rw [MemoryLineTable.vacated, if_pos valid, freeChunks] at member
    split at member
    · exact near.free_lt _ offset member
    · dsimp only at member
      split at member
      · rw [Function.update_self] at member
        obtain rfl | member := List.mem_cons.mp member
        · exact (t.entries i).physChunkOffset.isLt
        · exact near.free_lt _ offset member
      · exact near.free_lt _ offset member

/-- An allocation whose cut starts below 2^24 keeps the bump pointer near. -/
theorem allocateChunks (near : t.OffsetsNear) (few : n ≤ 4)
    (fits : t.Cuts n → t.nextUnpartitionedChunk < 2 ^ 24) : (t.allocateChunks n).2.OffsetsNear := by
  fun_cases MemoryLineTable.allocateChunks t n with
  | case1 => exact near
  | case2 pos offset rest free =>
    refine ⟨near.next_le, fun m other member => ?_, near.zero⟩
    by_cases same : m = n
    · subst same
      change other ∈ Function.update t.freeChunkLists m rest m at member
      rw [Function.update_self] at member
      exact near.free_lt m other (free ▸ List.mem_cons_of_mem _ member)
    · change other ∈ Function.update t.freeChunkLists n rest m at member
      rw [Function.update_of_ne same] at member
      exact near.free_lt m other member
  | case3 pos free room =>
    have below := fits ⟨Nat.pos_of_ne_zero pos, free, room⟩
    exact ⟨by change t.nextUnpartitionedChunk + n ≤ _; omega, near.free_lt, near.zero⟩
  | case4 => exact near

/-- An offset that is returned fits into an entry exactly if no cut starts beyond 2^24. -/
theorem allocateChunks_lt_iff (near : t.OffsetsNear)
    (found : 0 < n → (t.allocateChunks n).1 ≠ uint32Max) :
    (t.allocateChunks n).1 < 2 ^ 24 ↔ (t.Cuts n → t.nextUnpartitionedChunk < 2 ^ 24) := by
  have next_le := near.next_le
  revert found
  fun_cases MemoryLineTable.allocateChunks t n with
  | case1 zero => exact fun _ => iff_of_true (show 0 < 2 ^ 24 by decide) fun cuts => absurd cuts.1 (by omega)
  | case2 pos offset rest free =>
    intro _
    have below := near.free_lt n offset (free ▸ List.mem_cons_self)
    exact iff_of_true below fun cuts => absurd (cuts.2.1.symm.trans free) (by simp)
  | case3 pos free room =>
    intro _
    have cuts : t.Cuts n := ⟨Nat.pos_of_ne_zero pos, free, room⟩
    change t.nextUnpartitionedChunk % 2 ^ 32 < 2 ^ 24 ↔ _
    rw [Nat.mod_eq_of_lt (by omega)]
    exact ⟨fun below _ => below, fun below => below cuts⟩
  | case4 pos free full => exact fun found => absurd rfl (found (Nat.pos_of_ne_zero pos))

/-- An allocation only fails if there is neither a free slot nor room for a new one. -/
theorem exhausted (near : t.OffsetsNear) (pos : 0 < n) (failed : (t.allocateChunks n).1 = uint32Max) :
    t.freeChunkLists n = [] ∧ t.totalPhysicalChunks < t.nextUnpartitionedChunk + n ∧
      (t.allocateChunks n).2 = t := by
  have next_le := near.next_le
  revert failed
  fun_cases MemoryLineTable.allocateChunks t n with
  | case1 zero => omega
  | case2 pos offset rest free =>
    intro failed
    have below := near.free_lt n offset (free ▸ List.mem_cons_self)
    change offset = 2 ^ 32 - 1 at failed
    omega
  | case3 pos free room =>
    intro failed
    change t.nextUnpartitionedChunk % 2 ^ 32 = 2 ^ 32 - 1 at failed
    omega
  | case4 pos free full => exact fun _ => ⟨free, Nat.lt_of_not_le full, rfl⟩

/-- Writing a line keeps the offsets near. -/
theorem writeLine (near : t.OffsetsNear) (i offset : Nat) (compLine : CompressedLine) :
    (t.writeLine i compLine (neededChunks compLine) offset).OffsetsNear := by
  refine ⟨near.next_le, near.free_lt, fun j valid empty => ?_⟩
  by_cases same : j = i
  · subst same
    rw [writeLine_entry] at empty ⊢
    have few := neededChunks_le compLine
    have none := congrArg BitVec.toNat empty
    change (BitVec.ofNat 3 (neededChunks compLine)).toNat = 0 at none
    rw [BitVec.toNat_ofNat, Nat.mod_eq_of_lt (by omega)] at none
    change BitVec.ofNat 24 (if 0 < neededChunks compLine then offset else 0) = 0
    rw [if_neg (by omega)]
    rfl
  · rw [writeLine_other _ _ _ _ same] at valid empty ⊢
    exact near.zero j valid empty

/-- A store that meets the condition keeps the offsets near. -/
theorem storeLine (near : t.OffsetsNear) (fits : t.OffsetFits (.storeLine i compLine)) :
    (t.storeLine i compLine).2.OffsetsNear := by
  have few := neededChunks_le compLine
  have stores := t.storeLine_stores i compLine
  generalize t.storeLine i compLine = result at stores
  cases stores with
  | refused => exact near
  | inPlace => exact near.writeLine _ _ _
  | full below resized => exact (near.vacated i).allocateChunks few (fits.vacated below resized)
  | moved below resized bytes =>
    have allocated := (near.vacated i).allocateChunks few (fits.vacated below resized)
    have written := allocated.writeLine i ((t.vacated i).allocateChunks (neededChunks compLine)).1 compLine
    exact ⟨written.next_le, written.free_lt, written.zero⟩

theorem call {tableCall : TableCall} {reply : TableReply} (near : t.OffsetsNear)
    (fits : t.OffsetFits tableCall) (returned : t.call tableCall = .ok (t', reply)) : t'.OffsetsNear := by
  obtain ⟨i, compLine, rfl, rfl, -⟩ | ⟨i, rfl, rfl, -⟩ | ⟨rfl, rfl, -⟩ := call_eq_ok returned
  · exact near.storeLine fits
  · exact near
  · exact .reset t

end OffsetsNear

/-! ### What one call does to the offsets -/

/-- The entry of a line that was written says its slot again exactly if the offset fits. -/
theorem writeLine_entrySlot_iff (offset : Nat) (none : neededChunks compLine = 0 → offset = 0) :
    (t.writeLine i compLine (neededChunks compLine) offset).entrySlot i =
      some (offset, neededChunks compLine) ↔ offset < 2 ^ 24 := by
  have few := neededChunks_le compLine
  rw [entrySlot, writeLine_entry, if_pos rfl, Option.some_inj, Prod.mk.injEq, BitVec.toNat_ofNat,
    BitVec.toNat_ofNat, Nat.mod_eq_of_lt (show neededChunks compLine < 2 ^ 3 by omega)]
  split
  · omega
  · next zero =>
    have start := none (by omega)
    omega

theorem writeLine_entrySlot_other {j : Nat} (other : j ≠ i) (n offset : Nat) :
    (t.writeLine i compLine n offset).entrySlot j = t.entrySlot j := by
  rw [entrySlot, writeLine_other _ _ _ _ other, entrySlot]

/-- A store that calls `AllocateChunks` does so once the old slot of the line has been returned. -/
theorem storeAllocation_of_resized (below : i < t.totalLogicalLines) (resized : t.Resized i compLine) :
    t.storeAllocation i compLine = some ((t.vacated i).allocateChunks (neededChunks compLine)).1 := by
  rw [storeAllocation, if_neg (Nat.not_le.mpr below), vacated]
  dsimp only
  by_cases valid : (t.entries i).valid
  · rw [if_pos valid, if_pos valid, if_pos (resized valid)]
  · rw [if_neg valid, if_neg valid]

theorem storeAllocation_inPlace (valid : (t.entries i).valid)
    (size : (t.entries i).allocatedChunks.toNat = neededChunks compLine) : t.storeAllocation i compLine = none := by
  rw [storeAllocation]
  dsimp only
  split
  · rfl
  · rw [if_neg (fun other => other size)]

theorem allocateChunks_zero (none : n = 0) : (t.allocateChunks n).1 = 0 := by
  rw [allocateChunks, if_pos none]

/-- A store leaves every entry saying its slot exactly if the slot it cut, if any, starts below 2^24. -/
theorem keepsOffsets_storeLine_iff {events : List (TableCall × TableReply)} (near : t.OffsetsNear)
    (keeps : KeepsOffsets events t) (i : Nat) (compLine : CompressedLine) :
    KeepsOffsets (events ++ [(.storeLine i compLine,
        .stored (t.storeLine i compLine).1 (t.storeAllocation i compLine))]) (t.storeLine i compLine).2 ↔
      t.OffsetFits (.storeLine i compLine) := by
  have stores := t.storeLine_stores i compLine
  generalize t.storeLine i compLine = result at stores
  rw [KeepsOffsets, slotsGranted_append]
  cases stores with
  | refused beyond =>
    exact iff_of_true keeps fun below => absurd below (Nat.not_lt.mpr beyond)
  | inPlace below valid size =>
    rw [storeAllocation_inPlace valid size]
    refine iff_of_true (fun j => ?_) fun _ resized => absurd size (resized valid)
    change _ = slotsGranted events j
    rw [← keeps j]
    by_cases same : j = i
    · subst same
      have here : t.entrySlot j =
          some ((t.entries j).physChunkOffset.toNat, neededChunks compLine) := by
        rw [entrySlot, if_pos valid, size]
      rw [here]
      refine (writeLine_entrySlot_iff _ fun none => ?_).mpr (t.entries j).physChunkOffset.isLt
      rw [near.zero j valid (BitVec.eq_of_toNat_eq (size.trans none))]
      rfl
    · exact writeLine_entrySlot_other same _ _
  | full below resized pos failed =>
    -- the entries are as they were, and nothing was cut
    obtain ⟨entries, -⟩ := t.vacated_frame i
    obtain ⟨entries', -⟩ := (t.vacated i).allocateChunks_frame (neededChunks compLine)
    refine iff_of_true (fun j => ?_) fun _ _ cuts => ?_
    · rw [entrySlot_congr (entries'.trans entries)]
      exact keeps j
    · obtain ⟨_, _, room⟩ := (cuts_vacated resized).mpr cuts
      exact absurd room (Nat.not_le.mpr ((near.vacated i).exhausted pos failed).2.1)
  | moved below resized bytes found =>
    obtain ⟨entries, -, -, -, next⟩ := t.vacated_frame i
    obtain ⟨entries', -⟩ := (t.vacated i).allocateChunks_frame (neededChunks compLine)
    have fits := (near.vacated i).allocateChunks_lt_iff found
    rw [cuts_vacated resized, next] at fits
    have own := @writeLine_entrySlot_iff ((t.vacated i).allocateChunks (neededChunks compLine)).2 i compLine
      ((t.vacated i).allocateChunks (neededChunks compLine)).1 allocateChunks_zero
    rw [storeAllocation_of_resized below resized, grant]
    constructor
    · intro kept _ _
      have here := kept i
      rw [Function.update_self] at here
      exact fits.mp (own.mp here)
    · intro condition j
      by_cases same : j = i
      · subst same
        rw [Function.update_self]
        exact own.mpr (fits.mpr (condition below resized))
      · rw [Function.update_of_ne same, ← keeps j]
        exact (writeLine_entrySlot_other same _ _).trans
          (congrFun (entrySlot_congr (entries'.trans entries)) j)

/-- A call leaves every entry saying its slot exactly if it meets the condition. -/
theorem keepsOffsets_call_iff {events : List (TableCall × TableReply)} {tableCall : TableCall}
    {reply : TableReply} (near : t.OffsetsNear) (keeps : KeepsOffsets events t)
    (returned : t.call tableCall = .ok (t', reply)) :
    KeepsOffsets (events ++ [(tableCall, reply)]) t' ↔ t.OffsetFits tableCall := by
  obtain ⟨i, compLine, rfl, rfl, rfl⟩ | ⟨i, rfl, rfl, rfl⟩ | ⟨rfl, rfl, rfl⟩ := call_eq_ok returned
  · exact keepsOffsets_storeLine_iff near keeps i compLine
  · rw [KeepsOffsets, slotsGranted_append]
    exact iff_of_true keeps trivial
  · rw [KeepsOffsets, slotsGranted_append]
    exact iff_of_true (fun _ => rfl) trivial

/-- A store that meets the condition leaves the entry leading to the bytes it wrote. -/
theorem OffsetsNear.stored_bytes (near : t.OffsetsNear) (fits : t.OffsetFits (.storeLine i compLine))
    (stored : t.storeLine i compLine = (true, t')) (pos : 0 < neededChunks compLine) {k : Nat}
    (inside : k < compLine.compressedSize) :
    t'.physicalDram ((t'.entries i).physChunkOffset.toNat * slotChunkSize + k) = compLine.byte k := by
  have stores := t.storeLine_stores i compLine
  rw [stored] at stores
  cases stores with
  | inPlace below valid size => exact writeLine_bytes t i compLine pos (t.entries i).physChunkOffset.isLt inside
  | moved below resized bytes found =>
    exact writeLine_bytes _ i compLine pos
      (((near.vacated i).allocateChunks_lt_iff found).mpr (fits.vacated below resized)) inside

/-! ### Runs -/

theorem trace_offsetsNear {virtualCapacity physicalCapacity : BitVec 64}
    {events : List (TableCall × TableReply)}
    (trace : Trace call OffsetFits (create virtualCapacity physicalCapacity) events t) :
    t.OffsetsNear ∧ KeepsOffsets events t := by
  refine trace.invariant (fun events t => t.OffsetsNear ∧ KeepsOffsets events t)
    ⟨.create _ _, fun _ => rfl⟩ ?_
  rintro events t tableCall t' reply ⟨near, keeps⟩ fits returned
  exact ⟨near.call fits returned, (keepsOffsets_call_iff near keeps returned).mpr fits⟩

/-- In a run that cuts no slot beyond 2^24, every entry reads back the slot that was granted to its line, and a further
    call leaves it so exactly if it does not cut one there; a store that does not leads to the bytes it wrote. -/
theorem trace_keepsOffsets {virtualCapacity physicalCapacity : BitVec 64}
    {events : List (TableCall × TableReply)}
    (trace : Trace call OffsetFits (create virtualCapacity physicalCapacity) events t) :
    KeepsOffsets events t ∧
      (∀ tableCall t' reply, t.call tableCall = .ok (t', reply) →
        (KeepsOffsets (events ++ [(tableCall, reply)]) t' ↔ t.OffsetFits tableCall)) ∧
      ∀ i compLine t', t.OffsetFits (.storeLine i compLine) → t.storeLine i compLine = (true, t') →
        0 < neededChunks compLine → ∀ k, k < compLine.compressedSize →
          t'.physicalDram ((t'.entries i).physChunkOffset.toNat * slotChunkSize + k) = compLine.byte k := by
  obtain ⟨near, keeps⟩ := trace_offsetsNear trace
  exact ⟨keeps, fun _ _ _ returned => keepsOffsets_call_iff near keeps returned,
    fun _ _ _ fits stored pos _ inside => near.stored_bytes fits stored pos inside⟩

/-- A line of eight equal words. -/
def equalWords (word : BitVec 64) : Line := pack 512 fun _ => word

/-- Two lines are stored, the first one is stored again in a larger slot, and a third one takes its old slot. -/
def recycle : List TableCall :=
  [.storeLine 0 (compress (equalWords 1)), .storeLine 1 (compress ascending),
    .storeLine 0 (compress ascending), .storeLine 2 (compress (equalWords 2))]

theorem recycle_keepsOffsets :
    ∃ events t, Trace call OffsetFits (create 192 192) events t ∧ KeepsOffsets events t ∧
      slotsGranted events 0 = some (5, 4) ∧ slotsGranted events 2 = some (0, 1) := by
  obtain ⟨⟨events, t⟩, executed, observed⟩ := (Option.any_eq_true _ _).mp
    (by decide +kernel : (execute call OffsetFits recycle ([], create 192 192)).any fun run =>
      decide (slotsGranted run.1 0 = some (5, 4) ∧ slotsGranted run.1 2 = some (0, 1)))
  have trace := Trace.nil.execute executed
  exact ⟨events, t, trace, (trace_keepsOffsets trace).1, of_decide_eq_true observed⟩

/-! ### The default capacities -/

/-- The stores of an incompressible line to the first `n` lines. -/
def fillCalls (n : Nat) : List TableCall := (List.range n).map fun i => .storeLine i (compress ascending)

theorem neededChunks_ascending : neededChunks (compress ascending) = 4 := by decide +kernel

/-- The table of the default capacities after these stores, as far as `n` says. -/
structure FilledTo (t : MemoryLineTable) (n : Nat) : Prop where
  lines : t.totalLogicalLines = 2 ^ 28
  chunks : t.totalPhysicalChunks = 2 ^ 29
  next : t.nextUnpartitionedChunk = 4 * n
  free : ∀ m, t.freeChunkLists m = []
  later : ∀ i, n ≤ i → (t.entries i).valid = false

/-- One more line is stored in the next four chunks. -/
theorem FilledTo.storeLine (filled : t.FilledTo n) (room : n ≤ 2 ^ 22) :
    (t.storeLine n (compress ascending)).1 = true ∧
      t.storeAllocation n (compress ascending) = some (4 * n) ∧
      (t.storeLine n (compress ascending)).2.entries n =
        { physChunkOffset := BitVec.ofNat 24 (4 * n), allocatedChunks := 4, patternTag := 15, valid := true } ∧
      (t.storeLine n (compress ascending)).2.FilledTo (n + 1) := by
  have inside : ¬ t.totalLogicalLines ≤ n := by
    rw [filled.lines]
    omega
  have allocation : t.allocateChunks 4 = (4 * n,
      { t with
        nextUnpartitionedChunk := t.nextUnpartitionedChunk + 4
        allocatedChunksCount := t.allocatedChunksCount + BitVec.ofNat 64 4 }) := by
    rw [allocateChunks, if_neg (by decide), filled.free 4]
    dsimp only
    rw [if_pos (by rw [filled.next, filled.chunks]; omega), filled.next, Nat.mod_eq_of_lt (by omega)]
  have invalid := filled.later n (Nat.le_refl n)
  have some_chunks : ¬ (0 < 4 ∧ 4 * n = uint32Max) := by
    rw [uint32Max]
    omega
  rw [MemoryLineTable.storeLine, storeAllocation, if_neg inside, if_neg inside]
  dsimp only
  rw [invalid, neededChunks_ascending, allocation, if_neg Bool.false_ne_true, if_neg Bool.false_ne_true,
    if_neg some_chunks]
  refine ⟨rfl, rfl, ?_, filled.lines, filled.chunks, ?_, filled.free, fun i later => ?_⟩
  · refine (Function.update_self _ _ _).trans ?_
    rw [compress_incompressible (by decide +kernel)]
    rfl
  · change t.nextUnpartitionedChunk + 4 = _
    rw [filled.next]
    rfl
  · refine (congrArg LineTableEntry.valid (Function.update_of_ne (by omega) _ _)).trans ?_
    exact filled.later i (by omega)

theorem filledTo_default :
    (create ({} : ControllerConfig).virtualCapacityBytes ({} : ControllerConfig).physicalDramBytes).FilledTo 0 :=
  ⟨by decide, by decide, rfl, fun _ => rfl, fun _ _ => rfl⟩

/-- The stores have a run, up to the first one whose offset does not fit. -/
theorem exists_filled (n : Nat) (room : n ≤ 2 ^ 22) : ∃ events t,
    Trace call (fun _ _ => True)
      (create ({} : ControllerConfig).virtualCapacityBytes ({} : ControllerConfig).physicalDramBytes) events t ∧
    events.map Prod.fst = fillCalls n ∧ t.FilledTo n := by
  induction n with
  | zero => exact ⟨[], _, .nil, rfl, filledTo_default⟩
  | succ n ih =>
    obtain ⟨events, t, trace, calls, filled⟩ := ih (by omega)
    refine ⟨_, _, @Trace.snoc _ _ _ _ _ _ _ _ _ (.storeLine n (compress ascending)) _ trace trivial rfl, ?_,
      (filled.storeLine (by omega)).2.2.2⟩
    rw [List.map_append, calls, fillCalls, fillCalls, List.range_succ, List.map_append]
    rfl

/-- With the default capacities the entry of line 2^22 says the slot of line 0. -/
theorem default_truncates : ∃ events t,
    Trace call (fun _ _ => True)
      (create ({} : ControllerConfig).virtualCapacityBytes ({} : ControllerConfig).physicalDramBytes) events t ∧
    events.map Prod.fst = fillCalls (2 ^ 22 + 1) ∧
    slotsGranted events (2 ^ 22) = some (2 ^ 24, 4) ∧ t.entrySlot (2 ^ 22) = some (0, 4) ∧
    ¬ KeepsOffsets events t := by
  obtain ⟨events, t, trace, calls, filled⟩ := exists_filled (2 ^ 22) (Nat.le_refl _)
  obtain ⟨stored, allocation, entry, -⟩ := filled.storeLine (Nat.le_refl _)
  have returned : t.call (.storeLine (2 ^ 22) (compress ascending)) =
      .ok ((t.storeLine (2 ^ 22) (compress ascending)).2, .stored true (some (4 * 2 ^ 22))) := by
    rw [call, stored, allocation]
  have granted : slotsGranted (events ++ [(.storeLine (2 ^ 22) (compress ascending),
      .stored true (some (4 * 2 ^ 22)))]) (2 ^ 22) = some (2 ^ 24, 4) := by
    rw [slotsGranted_append, grant, Function.update_self, neededChunks_ascending]
    rfl
  have read : (t.storeLine (2 ^ 22) (compress ascending)).2.entrySlot (2 ^ 22) = some (0, 4) := by
    rw [entrySlot, entry]
    rfl
  refine ⟨_, _, trace.snoc trivial returned, ?_, granted, read, fun keeps => ?_⟩
  · rw [List.map_append, calls, fillCalls, fillCalls, List.range_succ, List.map_append]
    rfl
  · have same := keeps (2 ^ 22)
    rw [granted, read] at same
    exact absurd same (by decide)

end MemoryLineTable

end Zftl.Legacy
