/-
Module: Zftl.Legacy.Footprint
Layer: Legacy
Purpose: How much physical memory the line table takes. A slot never changes its size, so for each size there are as
  many slots as lines have ever needed one of it at once. The bump pointer is the sum of these peaks, and a store
  succeeds exactly if the peaks with the new line fit into the physical memory.
Imports: Zftl.Lib.SlotStock, Zftl.Legacy.StoreFailure
Trusted boundary: none
Main exports: chunksOf, Stocked, storeLine_fits_iff, Stocked.stored, SlotPeaks, trace_footprint
Open obligations: none
-/
import Zftl.Lib.SlotStock
import Zftl.Legacy.StoreFailure

namespace Zftl.Legacy

open BDIEngine SlotPool

namespace MemoryLineTable

/-! ### The stock of slots -/

/-- The chunks a line holds. -/
def chunksOf (t : MemoryLineTable) (i : Nat) : Nat :=
  if (t.entries i).valid then (t.entries i).allocatedChunks.toNat else 0

/-- The slots of `n` chunks, free or of a line. -/
def slots (t : MemoryLineTable) (n : Nat) : Nat := t.pool.stock t.chunksOf t.totalLogicalLines n

/-- The chunks that were cut are those of the slots, and the physical memory has them. -/
structure Stocked (t : MemoryLineTable) : Prop where
  next_le : t.nextUnpartitionedChunk ≤ t.totalPhysicalChunks
  balanced : t.pool.Balanced t.chunksOf t.totalLogicalLines 4

/-- The chunks a store has to cut. -/
def chunksCut (t : MemoryLineTable) (i : Nat) (compLine : CompressedLine) : Nat :=
  if t.chunksOf i ≠ neededChunks compLine ∧ t.freeChunkLists (neededChunks compLine) = [] then
    neededChunks compLine
  else 0

variable {t t' : MemoryLineTable} {i n : Nat} {compLine : CompressedLine}

theorem chunksOf_of_empty (entries : t.entries = fun _ => {}) : t.chunksOf = fun _ => 0 := by
  funext i
  rw [chunksOf, entries]
  rfl

/-- An empty table has no slots. -/
theorem slots_of_empty (entries : t.entries = fun _ => {}) (lists : t.freeChunkLists = fun _ => [])
    (some_chunks : 0 < n) : t.slots n = 0 := by
  rw [slots, chunksOf_of_empty entries, stock, inUse_none some_chunks]
  change (t.freeChunkLists n).length = 0
  rw [lists]
  rfl

theorem stocked_of_empty (entries : t.entries = fun _ => {}) (lists : t.freeChunkLists = fun _ => [])
    (next : t.nextUnpartitionedChunk = 0) : t.Stocked where
  next_le := next ▸ Nat.zero_le _
  balanced := by
    refine next.trans (Finset.sum_eq_zero fun n _ => ?_).symm
    rcases Nat.eq_zero_or_pos n with rfl | some_chunks
    · exact Nat.zero_mul _
    · exact Nat.mul_eq_zero.mpr (Or.inr (slots_of_empty entries lists some_chunks))

/-- The old slot of a line goes to its free list, and the stock is the same. -/
theorem vacated_stock (below : i < t.totalLogicalLines)
    (few : (t.entries i).valid → (t.entries i).allocatedChunks.toNat ≤ 4) (some_chunks : 0 < n) :
    (t.vacated i).pool.stock (Function.update t.chunksOf i 0) t.totalLogicalLines n = t.slots n := by
  have short := (t.entries i).physChunkOffset.isLt
  by_cases holds : t.chunksOf i = 0
  · have same : t.vacated i = t := by
      rw [vacated]
      split
      · next valid =>
        rw [chunksOf, if_pos valid] at holds
        exact if_pos (Or.inl holds)
      · rfl
    rw [same, ← holds, Function.update_eq_self, slots]
  · have valid : (t.entries i).valid := by
      by_contra invalid
      exact holds (if_neg invalid)
    have size : t.chunksOf i = (t.entries i).allocatedChunks.toNat := if_pos valid
    have released : (t.vacated i).pool =
        ⟨Function.update t.freeChunkLists (t.chunksOf i)
          ((t.entries i).physChunkOffset.toNat :: t.freeChunkLists (t.chunksOf i)), t.nextUnpartitionedChunk⟩ := by
      rw [vacated, if_pos valid, ← size, freeChunks, if_neg (by rw [uint32Max]; omega), pool]
      dsimp only
      rw [if_pos (by rw [size]; exact few valid)]
    rw [released]
    exact stock_release (p := t.pool) below rfl (Nat.pos_of_ne_zero holds) some_chunks

/-- An allocation takes a slot from its free list, or cuts one where the list is empty. -/
theorem allocateChunks_stock {sizes : Nat → Nat} {owners m : Nat} (below : i < owners) (unowned : sizes i = 0)
    (found : 0 < n → (t.allocateChunks n).1 ≠ uint32Max) (some_chunks : 0 < m) :
    (t.allocateChunks n).2.nextUnpartitionedChunk =
        t.nextUnpartitionedChunk + (if t.freeChunkLists n = [] then n else 0) ∧
      (t.allocateChunks n).2.pool.stock (Function.update sizes i n) owners m =
        t.pool.stock sizes owners m + if m = n ∧ t.freeChunkLists n = [] then 1 else 0 := by
  revert found
  fun_cases allocateChunks t n with
  | case1 zero =>
    intro _
    have same : Function.update sizes i n = sizes :=
      Function.update_eq_self_iff.mpr (zero.trans unowned.symm)
    have other : ¬(m = n ∧ t.freeChunkLists n = []) := fun both => absurd both.1 (by omega)
    rw [same, if_neg other, zero, ite_self]
    exact ⟨rfl, rfl⟩
  | case2 pos offset rest free =>
    intro _
    have listed : t.freeChunkLists n ≠ [] := by
      rw [free]
      exact List.cons_ne_nil _ _
    rw [if_neg listed, if_neg fun both => listed both.2]
    exact ⟨rfl, stock_reuse (p := t.pool) below unowned free some_chunks⟩
  | case3 pos free room =>
    intro _
    rw [if_pos free, if_congr (and_iff_left free) rfl rfl]
    exact ⟨rfl, stock_cut (p := t.pool) below unowned some_chunks⟩
  | case4 pos free full =>
    intro found
    exact absurd rfl (found (Nat.pos_of_ne_zero pos))

/-- The chunks of the line that is written are those it was given. -/
theorem writeLine_chunksOf (entries : t'.entries = t.entries) (offset : Nat) :
    (t'.writeLine i compLine (neededChunks compLine) offset).chunksOf =
      Function.update t.chunksOf i (neededChunks compLine) := by
  have few := neededChunks_le compLine
  funext j
  by_cases same : j = i
  · rw [same, Function.update_self, chunksOf, writeLine_entry, if_pos rfl, BitVec.toNat_ofNat]
    exact Nat.mod_eq_of_lt (by omega)
  · rw [Function.update_of_ne same, chunksOf, writeLine_other _ _ _ _ same, entries]
    rfl

/-! ### A store -/

/-- What a store that succeeds does to the stock: a slot is cut exactly if the lines of its size are more than ever. -/
structure Restocked (t t' : MemoryLineTable) (i : Nat) (compLine : CompressedLine) : Prop where
  lines : t'.totalLogicalLines = t.totalLogicalLines
  total : t'.totalPhysicalChunks = t.totalPhysicalChunks
  chunksOf : t'.chunksOf = Function.update t.chunksOf i (neededChunks compLine)
  next : t'.nextUnpartitionedChunk = t.nextUnpartitionedChunk + t.chunksCut i compLine
  slots : ∀ n, 0 < n → t'.slots n =
    max (t.slots n) (inUse (Function.update t.chunksOf i (neededChunks compLine)) t.totalLogicalLines n)

/-- The bump pointer after a store is the sum of the peaks with its line. -/
theorem Stocked.sum_peaks (stocked : t.Stocked) (below : i < t.totalLogicalLines) (compLine : CompressedLine) :
    ∑ n ∈ Finset.range 5, n * max (t.slots n)
        (inUse (Function.update t.chunksOf i (neededChunks compLine)) t.totalLogicalLines n) =
      t.nextUnpartitionedChunk + t.chunksCut i compLine :=
  stocked.balanced.sum_peaks below (neededChunks_le compLine)

theorem chunksCut_of_eq (same : t.chunksOf i = neededChunks compLine) : t.chunksCut i compLine = 0 :=
  if_neg fun both => both.1 same

/-- A line that is resized held another number of chunks, or needs none. -/
theorem eq_zero_of_resized (resized : t.Resized i compLine) (same : t.chunksOf i = neededChunks compLine) :
    neededChunks compLine = 0 := by
  rw [MemoryLineTable.chunksOf] at same
  split at same
  · next valid => exact absurd same (resized valid)
  · exact same.symm

theorem chunksCut_of_resized (resized : t.Resized i compLine) :
    t.chunksCut i compLine =
      if t.freeChunkLists (neededChunks compLine) = [] then neededChunks compLine else 0 := by
  by_cases same : t.chunksOf i = neededChunks compLine
  · rw [chunksCut_of_eq same, eq_zero_of_resized resized same, ite_self]
  · rw [chunksCut, if_congr (and_iff_right same) rfl rfl]

theorem Partitioned.restocked (partitioned : t.Partitioned) (stored : t.storeLine i compLine = (true, t')) :
    Restocked t t' i compLine := by
  have stores := t.storeLine_stores i compLine
  rw [stored] at stores
  cases stores with
  | inPlace below valid size =>
    have same : t.chunksOf i = neededChunks compLine := (if_pos valid).trans size
    have chunks := @writeLine_chunksOf t t i compLine rfl (t.entries i).physChunkOffset.toNat
    refine ⟨rfl, rfl, chunks, (by rw [chunksCut_of_eq same]; rfl), fun n _ => ?_⟩
    rw [MemoryLineTable.slots, chunks, ← same, Function.update_eq_self]
    exact (Nat.max_eq_left (inUse_le_stock _ _ _ _)).symm
  | moved below resized bytes found =>
    obtain ⟨entries, -, lines, total, next⟩ := t.vacated_frame i
    obtain ⟨entries', -, lines', total'⟩ := (t.vacated i).allocateChunks_frame (neededChunks compLine)
    have chunks := @writeLine_chunksOf t _ i compLine (entries'.trans entries)
      ((t.vacated i).allocateChunks (neededChunks compLine)).1
    have unowned : Function.update t.chunksOf i 0 i = 0 := Function.update_self _ _ _
    have allocated (n : Nat) (some_chunks : 0 < n) := allocateChunks_stock below unowned found some_chunks
    rw [vacated_freeChunkLists resized, next] at allocated
    refine ⟨lines'.trans lines, total'.trans total, chunks, ?_, fun n some_chunks => ?_⟩
    · rw [chunksCut_of_resized resized]
      exact (allocated 1 Nat.one_pos).1
    · have taken := (allocated n some_chunks).2
      rw [Function.update_idem, vacated_stock below (partitioned.few i) some_chunks] at taken
      have pool := congrArg₂ (fun sizes owners =>
        stock ((t.vacated i).allocateChunks (neededChunks compLine)).2.pool sizes owners n) chunks (lines'.trans lines)
      have peak := @max_inUse_update t.chunksOf _ i (neededChunks compLine) n t.pool below
      refine ((pool.trans taken).trans (congrArg (t.slots n + ·) (if_congr ?_ rfl rfl))).trans peak.symm
      refine and_congr_right fun same => (and_iff_right fun held => ?_).symm
      exact absurd (eq_zero_of_resized resized held) (by omega)

/-- A store that succeeds is in range. -/
theorem lt_of_stored (stored : (t.storeLine i compLine).1 = true) : i < t.totalLogicalLines := by
  by_contra beyond
  rw [storeLine, if_pos (Nat.le_of_not_lt beyond)] at stored
  cases stored

/-- A store in range succeeds exactly if there is room for what it has to cut. -/
theorem Partitioned.storeLine_iff (partitioned : t.Partitioned) (stocked : t.Stocked)
    (below : i < t.totalLogicalLines) :
    (t.storeLine i compLine).1 = true ↔
      t.nextUnpartitionedChunk + t.chunksCut i compLine ≤ t.totalPhysicalChunks := by
  have stores := t.storeLine_stores i compLine
  generalize result : t.storeLine i compLine = outcome at stores
  cases stores with
  | refused beyond => exact absurd below (Nat.not_lt.mpr beyond)
  | inPlace _ valid size =>
    rw [chunksCut_of_eq ((if_pos valid).trans size)]
    exact iff_of_true rfl stocked.next_le
  | full _ resized pos failed =>
    obtain ⟨free, full, -⟩ := (partitioned.near.vacated i).exhausted pos failed
    obtain ⟨-, -, -, total, next⟩ := t.vacated_frame i
    rw [vacated_freeChunkLists resized] at free
    rw [total, next] at full
    rw [chunksCut_of_resized resized, if_pos free]
    exact iff_of_false Bool.false_ne_true (Nat.not_le.mpr full)
  | moved _ resized bytes found =>
    obtain ⟨-, -, -, total, next⟩ := t.vacated_frame i
    have room := allocateChunks_next_le (neededChunks compLine) (next.trans_le (stocked.next_le.trans total.ge))
    have cut := (partitioned.restocked result).next
    rw [← cut]
    exact iff_of_true rfl (room.trans total.le)

/-- A store that succeeds keeps the balance. -/
theorem Stocked.stored (stocked : t.Stocked) (partitioned : t.Partitioned) (below : i < t.totalLogicalLines)
    (stored : t.storeLine i compLine = (true, t')) : t'.Stocked := by
  have restocked := partitioned.restocked stored
  have peaks := stocked.sum_peaks below compLine
  refine ⟨?_, ?_⟩
  · rw [restocked.next, restocked.total]
    exact (partitioned.storeLine_iff stocked below).mp (by rw [stored])
  · refine (restocked.next.trans peaks.symm).trans (Finset.sum_congr rfl fun n _ => ?_)
    rcases Nat.eq_zero_or_pos n with rfl | some_chunks
    · rw [Nat.zero_mul, Nat.zero_mul]
    · exact congrArg (n * ·) (restocked.slots n some_chunks).symm

/-- The slots of a size are never fewer than the lines that hold one, nor than before. -/
theorem Restocked.slots_le (restocked : Restocked t t' i compLine) (some_chunks : 0 < n) : t.slots n ≤ t'.slots n := by
  rw [restocked.slots n some_chunks]
  exact Nat.le_max_left _ _

/-- They are never more than the lines. -/
theorem Restocked.slots_le_lines (restocked : Restocked t t' i compLine) (some_chunks : 0 < n)
    (few : t.slots n ≤ t.totalLogicalLines) : t'.slots n ≤ t'.totalLogicalLines := by
  rw [restocked.slots n some_chunks, restocked.lines]
  exact Nat.max_le.mpr ⟨few, inUse_le _ _ _⟩

end MemoryLineTable

open MemoryLineTable

/-! ### The peaks of a run -/

/-- The chunks each line holds, and for each size the most lines that have held as many at once. -/
structure SlotPeaks where
  sizes : Nat → Nat
  peak : Nat → Nat

namespace SlotPeaks

def empty : SlotPeaks := { sizes := fun _ => 0, peak := fun _ => 0 }

/-- The peaks once line `i` holds `n` chunks. -/
def withLine (peaks : SlotPeaks) (lines i n : Nat) : SlotPeaks :=
  { sizes := Function.update peaks.sizes i n
    peak := fun m => max (peaks.peak m) (inUse (Function.update peaks.sizes i n) lines m) }

/-- The chunks it takes to have as many slots of each size as the peak. -/
def footprint (peaks : SlotPeaks) : Nat := ∑ n ∈ Finset.range 5, n * peaks.peak n

/-- A store that succeeds gives the line the chunks it needs. -/
def record (lines : Nat) (peaks : SlotPeaks) : TableCall × TableReply → SlotPeaks
  | (.storeLine i compLine, .stored true _) => peaks.withLine lines i (neededChunks compLine)
  | (.reset, _) => empty
  | _ => peaks

/-- The peaks of a run. -/
def of (lines : Nat) (events : List (TableCall × TableReply)) : SlotPeaks := events.foldl (record lines) empty

end SlotPeaks

namespace MemoryLineTable

variable {t t' : MemoryLineTable} {i n : Nat} {compLine : CompressedLine} {peaks : SlotPeaks}

/-- The table has a slot for each peak, and no others. -/
structure Peaked (t : MemoryLineTable) (peaks : SlotPeaks) : Prop where
  partitioned : t.Partitioned
  stocked : t.Stocked
  sizes : t.chunksOf = peaks.sizes
  slots : ∀ n, 0 < n → t.slots n = peaks.peak n

theorem peaked_of_empty (partitioned : t.Partitioned) (entries : t.entries = fun _ => {})
    (lists : t.freeChunkLists = fun _ => []) (next : t.nextUnpartitionedChunk = 0) : t.Peaked .empty :=
  ⟨partitioned, stocked_of_empty entries lists next, chunksOf_of_empty entries, fun _ =>
    slots_of_empty entries lists⟩

/-- The bump pointer is where the peaks put it. -/
theorem Peaked.next (peaked : t.Peaked peaks) : t.nextUnpartitionedChunk = peaks.footprint := by
  refine peaked.stocked.balanced.trans (Finset.sum_congr rfl fun n _ => ?_)
  rcases Nat.eq_zero_or_pos n with rfl | some_chunks
  · rw [Nat.zero_mul, Nat.zero_mul]
  · exact congrArg (n * ·) (peaked.slots n some_chunks)

/-- It would move to where the peaks with the new line put it. -/
theorem Peaked.withLine (peaked : t.Peaked peaks) (below : i < t.totalLogicalLines) (compLine : CompressedLine) :
    (peaks.withLine t.totalLogicalLines i (neededChunks compLine)).footprint =
      t.nextUnpartitionedChunk + t.chunksCut i compLine := by
  refine (Finset.sum_congr rfl fun n _ => ?_).trans (peaked.stocked.sum_peaks below compLine)
  rcases Nat.eq_zero_or_pos n with rfl | some_chunks
  · rw [Nat.zero_mul, Nat.zero_mul]
  · change n * max (peaks.peak n) (inUse (Function.update peaks.sizes _ _) _ n) = _
    rw [← peaked.sizes, ← peaked.slots n some_chunks]

/-- A call keeps the table in step with the peaks. -/
theorem Peaked.call (peaked : t.Peaked peaks) {tableCall : TableCall} {reply : TableReply}
    (conforms : t.Conforms tableCall) (returned : t.call tableCall = .ok (t', reply)) :
    t'.Peaked (peaks.record t.totalLogicalLines (tableCall, reply)) ∧
      t'.totalLogicalLines = t.totalLogicalLines ∧ t'.totalPhysicalChunks = t.totalPhysicalChunks := by
  have partitioned := peaked.partitioned.call conforms returned
  obtain ⟨i, compLine, rfl, rfl, rfl⟩ | ⟨i, rfl, rfl, rfl⟩ | ⟨rfl, rfl, rfl⟩ := call_eq_ok returned
  · cases ok : (t.storeLine i compLine).1 with
    | true =>
      have stored : t.storeLine i compLine = (true, (t.storeLine i compLine).2) := Prod.ext ok rfl
      have restocked := peaked.partitioned.restocked stored
      refine ⟨⟨partitioned, peaked.stocked.stored peaked.partitioned (lt_of_stored ok) stored, ?_, fun n some_chunks => ?_⟩,
        restocked.lines, restocked.total⟩
      · rw [restocked.chunksOf, peaked.sizes]
        rfl
      · rw [restocked.slots n some_chunks, peaked.slots n some_chunks, peaked.sizes]
        rfl
    | false =>
      have same : (t.storeLine i compLine).2 = t :=
        peaked.partitioned.failed conforms.2.1 (Prod.ext ok rfl)
      rw [same]
      exact ⟨peaked, rfl, rfl⟩
  · exact ⟨peaked, rfl, rfl⟩
  · exact ⟨peaked_of_empty partitioned rfl rfl rfl, rfl, rfl⟩

/-- In a run in which every store that returns a slot finds another and every offset fits its entry, the bump pointer
    is where the peaks put it, and a store succeeds exactly if the peaks with its line fit. -/
theorem trace_footprint {virtualCapacity physicalCapacity : BitVec 64} {events : List (TableCall × TableReply)}
    (trace : Trace call Conforms (create virtualCapacity physicalCapacity) events t) :
    t.nextUnpartitionedChunk = (SlotPeaks.of t.totalLogicalLines events).footprint ∧
      ∀ i, i < t.totalLogicalLines → ∀ compLine, (t.storeLine i compLine).1 = true ↔
        ((SlotPeaks.of t.totalLogicalLines events).withLine t.totalLogicalLines i
          (neededChunks compLine)).footprint ≤ physicalCapacity.toNat / slotChunkSize := by
  have peaked : t.Peaked (.of (create virtualCapacity physicalCapacity).totalLogicalLines events) ∧
      t.totalLogicalLines = (create virtualCapacity physicalCapacity).totalLogicalLines ∧
      t.totalPhysicalChunks = physicalCapacity.toNat / slotChunkSize := by
    refine trace.invariant (fun events s =>
      s.Peaked (.of (create virtualCapacity physicalCapacity).totalLogicalLines events) ∧
        s.totalLogicalLines = (create virtualCapacity physicalCapacity).totalLogicalLines ∧
        s.totalPhysicalChunks = physicalCapacity.toNat / slotChunkSize)
      ⟨peaked_of_empty (.create _ _) rfl rfl rfl, rfl, rfl⟩ ?_
    rintro events s tableCall s' reply ⟨peaked, lines, total⟩ conforms returned
    obtain ⟨peaked', lines', total'⟩ := peaked.call conforms returned
    rw [SlotPeaks.of, List.foldl_append]
    rw [lines] at peaked'
    exact ⟨peaked', lines'.trans lines, total'.trans total⟩
  obtain ⟨peaked, lines, total⟩ := peaked
  rw [← lines] at peaked
  refine ⟨peaked.next, fun i below compLine => ?_⟩
  rw [peaked.withLine below, ← total]
  exact peaked.partitioned.storeLine_iff peaked.stocked below

/-- Line 0 grows from one chunk to four, and its old chunk goes to line 1: of six chunks five are cut, so a second line
    of one chunk fits and one of four does not. -/
theorem trace_footprint_grown : ∃ events t, Trace call Conforms (create 192 96) events t ∧
    t.nextUnpartitionedChunk = 5 ∧ (SlotPeaks.of t.totalLogicalLines events).footprint = 5 ∧
    (t.storeLine 2 (compress ascending)).1 = false ∧ (t.storeLine 2 (compress (equalWords 1))).1 = true := by
  obtain ⟨⟨events, t⟩, executed, observed⟩ := (Option.any_eq_true _ _).mp
    (by decide +kernel : (execute call Conforms [.storeLine 0 (compress (equalWords 1)),
      .storeLine 0 (compress ascending), .storeLine 1 (compress (equalWords 2))]
      ([], create 192 96)).any fun run =>
        decide (2 < run.2.totalLogicalLines ∧ run.2.nextUnpartitionedChunk = 5 ∧
          ¬((SlotPeaks.of run.2.totalLogicalLines run.1).withLine run.2.totalLogicalLines 2
            (neededChunks (compress ascending))).footprint ≤ (96 : BitVec 64).toNat / slotChunkSize ∧
          ((SlotPeaks.of run.2.totalLogicalLines run.1).withLine run.2.totalLogicalLines 2
            (neededChunks (compress (equalWords 1)))).footprint ≤ (96 : BitVec 64).toNat / slotChunkSize))
  obtain ⟨below, next, tooMany, few⟩ := of_decide_eq_true observed
  have trace := Trace.nil.execute executed
  obtain ⟨footprint, accepts⟩ := trace_footprint trace
  refine ⟨events, t, trace, next, footprint.symm.trans next, ?_, (accepts 2 below _).mpr few⟩
  exact Bool.eq_false_iff.mpr fun stored => tooMany ((accepts 2 below _).mp stored)

end MemoryLineTable

end Zftl.Legacy
