/-
Module: Zftl.Legacy.StoreFailure
Layer: Legacy
Purpose: What a failed store leaves behind. A store that needs another size returns the old slot before it looks for a
  new one, so if there is none the old slot is free and still in the entry. Every other failure leaves the table
  as it was. `Partitioned` says that no chunk is in two slots, live or free; calls keep it as long as no store fails
  in this way and every offset fits its entry, and a successful store then changes no other line.
Imports: Zftl.Legacy.OffsetWidth
Trusted boundary: none
Main exports: ResizeFits, Conforms, Partitioned, Unharmed, Partitioned.stored, Partitioned.failed,
  storeLine_failure_iff
Open obligations: none
-/
import Zftl.Legacy.OffsetWidth

namespace Zftl.Legacy

open BaseDelta BDIEngine SlotPool

/-! ### What a load reads -/

namespace BDIEngine

variable {compBuffer other : Nat → BitVec 8} {compSize : Nat}

theorem getLsbD_bufferPayload_congr {size j : Nat} (same : ∀ k, k < size → compBuffer k = other k)
    (inside : j + 8 < 8 * size) (below : j < 512) :
    (bufferPayload compBuffer).getLsbD j = (bufferPayload other).getLsbD j := by
  rw [bufferPayload, bufferPayload, getLsbD_pack _ below, getLsbD_pack _ below, same _ (by omega)]

theorem decompressForm_congr (f : DeltaForm) (same : ∀ k, k < compSize → compBuffer k = other k) :
    decompressForm f compBuffer compSize = decompressForm f other compSize := by
  rw [decompressForm, decompressForm]
  split
  · rfl
  · next room =>
    have size := f.size_eq
    have limit := f.size_le
    have wide : 0 < f.base := Nat.lt_of_lt_of_le f.positive f.narrow
    have line : f.line (bufferPayload compBuffer) = f.line (bufferPayload other) :=
      pack_congr wide (Nat.le_of_eq f.whole) fun i below =>
        deltaWord_congr below fun j inside => getLsbD_bufferPayload_congr same (by omega) (by omega)
    rw [line]

/-- Decompression reads the bytes of the slot, if the slot of raw bytes is a whole line. -/
theorem decompressRaw_congr {value : BitVec 8} (same : ∀ k, k < compSize → compBuffer k = other k)
    (raw : BDIPattern.ofTag value = some .uncompressed → 64 ≤ compSize) :
    decompressRaw compBuffer compSize (some value) = decompressRaw other compSize (some value) := by
  rw [decompressRaw, decompressRaw, Option.getD_some, Option.getD_some]
  split
  · rfl
  cases pattern : BDIPattern.ofTag value with
  | none => rfl
  | some p =>
    cases p with
    | zeros => rfl
    | repWord =>
      dsimp only
      split
      · rfl
      · have base : (bufferPayload compBuffer).extractLsb' 0 64 = (bufferPayload other).extractLsb' 0 64 := by
          apply BitVec.eq_of_getLsbD_eq
          intro j inside
          rw [BitVec.getLsbD_extractLsb', BitVec.getLsbD_extractLsb',
            getLsbD_bufferPayload_congr same (by omega) (by omega)]
        rw [base]
    | uncompressed =>
      have whole := raw pattern
      dsimp only
      rw [pack_congr (n := 64) (by decide) (by decide) fun k below => same k (by omega)]
    | _ => exact decompressForm_congr _ same

end BDIEngine

namespace MemoryLineTable

variable {t t' : MemoryLineTable} {i j : Nat} {compLine : CompressedLine}

/-- A load depends on the entry of the line and on the bytes of its slot. -/
theorem loadLine_congr (lines : t'.totalLogicalLines = t.totalLogicalLines)
    (entry : t'.entries j = t.entries j)
    (raw : (t.entries j).valid → (t.entries j).patternTag = BDIPattern.uncompressed.tag.setWidth 4 →
      (t.entries j).allocatedChunks.toNat = 4)
    (bytes : ∀ start size, t.slotOf j = some (start, size) → ∀ k, k < size * slotChunkSize →
      t'.physicalDram (start * slotChunkSize + k) = t.physicalDram (start * slotChunkSize + k)) :
    t'.loadLine j = t.loadLine j := by
  rw [loadLine, loadLine, lines, entry]
  split
  · rfl
  dsimp only
  split
  · rfl
  next valid =>
  split
  · rfl
  next full =>
  have valid : (t.entries j).valid = true := by simpa using valid
  have owned : t.slotOf j =
      some ((t.entries j).physChunkOffset.toNat, (t.entries j).allocatedChunks.toNat) := by
    rw [slotOf, if_pos ⟨valid, fun zero => full (Or.inl zero)⟩]
  refine decompressRaw_congr (bytes _ _ owned) fun pattern => ?_
  have tag : (t.entries j).patternTag = BDIPattern.uncompressed.tag.setWidth 4 := by
    have wide := congrArg (BitVec.setWidth 4) (tag_of_ofTag pattern)
    rwa [BitVec.setWidth_setWidth_of_le _ (by decide), BitVec.setWidth_eq] at wide
  rw [raw valid tag]
  decide

/-! ### The invariant -/

/-- A store that returns a slot finds another one. -/
def ResizeFits (t : MemoryLineTable) (i : Nat) (compLine : CompressedLine) : Prop :=
  (t.entries i).valid → (t.entries i).allocatedChunks ≠ 0 →
    (t.entries i).allocatedChunks.toNat ≠ neededChunks compLine → 0 < neededChunks compLine →
      t.freeChunkLists (neededChunks compLine) ≠ [] ∨
        t.nextUnpartitionedChunk + neededChunks compLine ≤ t.totalPhysicalChunks

instance (t : MemoryLineTable) (i : Nat) (compLine : CompressedLine) : Decidable (t.ResizeFits i compLine) :=
  inferInstanceAs (Decidable (_ → _ → _ → _ → _))

/-- The calls that keep live and free slots apart. -/
def Conforms (t : MemoryLineTable) : TableCall → Prop
  | .storeLine i compLine =>
    WellFormed compLine ∧ t.ResizeFits i compLine ∧ t.OffsetFits (.storeLine i compLine)
  | .loadLine _ => True
  | .reset => True

instance (t : MemoryLineTable) (tableCall : TableCall) : Decidable (t.Conforms tableCall) :=
  match tableCall with
  | .storeLine _ _ => inferInstanceAs (Decidable (_ ∧ _ ∧ _))
  | .loadLine _ => .isTrue trivial
  | .reset => .isTrue trivial

/-- No chunk is in two slots, whether of a line or free, and raw bytes are in a slot of four chunks. -/
structure Partitioned (t : MemoryLineTable) : Prop where
  near : t.OffsetsNear
  exclusive : t.pool.Exclusive t.slotOf
  few : ∀ i, (t.entries i).valid → (t.entries i).allocatedChunks.toNat ≤ 4
  raw : ∀ i, (t.entries i).valid → (t.entries i).patternTag = BDIPattern.uncompressed.tag.setWidth 4 →
    (t.entries i).allocatedChunks.toNat = 4

namespace Partitioned

theorem create (virtualCapacity physicalCapacity : BitVec 64) :
    (create virtualCapacity physicalCapacity).Partitioned :=
  ⟨.create _ _, exclusive_empty, fun _ _ => Nat.zero_le _, fun _ valid => absurd valid Bool.false_ne_true⟩

theorem reset (t : MemoryLineTable) : t.reset.Partitioned :=
  ⟨.reset t, exclusive_empty, fun _ _ => Nat.zero_le _, fun _ valid => absurd valid Bool.false_ne_true⟩

/-- No chunk of a line is in a free slot. -/
theorem apart {start size free n chunk : Nat} (partitioned : t.Partitioned)
    (owned : t.slotOf i = some (start, size)) (member : free ∈ t.freeChunkLists n)
    (mem : InSlot start size chunk) : ¬ InSlot free n chunk := fun mem' =>
  nomatch partitioned.exclusive.apart (.owner owned) (.free member) mem mem'

/-- Writing a line and its entry completes an allocation, and every other line is loaded as before. -/
theorem writeLine {offset : Nat} (partitioned : t.Partitioned) (wellFormed : WellFormed compLine)
    (near : t'.OffsetsNear) (entries : t'.entries = t.entries) (dram : t'.physicalDram = t.physicalDram)
    (lines : t'.totalLogicalLines = t.totalLogicalLines) (short : offset < 2 ^ 24)
    (exclusive : t'.pool.Exclusive (Function.update t.slotOf i (granted offset (neededChunks compLine)))) :
    (t'.writeLine i compLine (neededChunks compLine) offset).Partitioned ∧
      ∀ j, j ≠ i → (t'.writeLine i compLine (neededChunks compLine) offset).loadLine j = t.loadLine j := by
  have few := neededChunks_le compLine
  have entry : ((t'.writeLine i compLine (neededChunks compLine) offset).entries i).allocatedChunks.toNat =
      neededChunks compLine := by
    rw [writeLine_entry]
    dsimp only
    rw [BitVec.toNat_ofNat, Nat.mod_eq_of_lt (by omega)]
  refine ⟨⟨near.writeLine i offset compLine, ?_, fun j valid => ?_, fun j valid tag => ?_⟩, fun j other => ?_⟩
  · rw [writeLine_slotOf compLine few (fun _ => short) entries]
    exact exclusive
  · by_cases same : j = i
    · rw [same, entry]
      exact few
    · rw [writeLine_other _ _ _ _ same, entries] at valid ⊢
      exact partitioned.few j valid
  · by_cases same : j = i
    · subst same
      rw [writeLine_entry] at tag
      have raw : compLine.pattern = .uncompressed := eq_of_tag tag
      rw [entry, neededChunks, if_pos (by rw [raw]; decide), wellFormed.2 raw]
      rfl
    · rw [writeLine_other _ _ _ _ same, entries] at valid tag ⊢
      exact partitioned.raw j valid tag
  · refine loadLine_congr lines ((writeLine_other _ _ _ _ other).trans (congrFun entries j))
      (partitioned.raw j) fun start size owned k inside => ?_
    rw [← dram]
    refine writeLine_dram_other exclusive (fun pos => ?_) ?_ other (compressedSize_le wellFormed) inside
    · rw [Function.update_self, granted, if_pos pos]
    · rwa [Function.update_of_ne other]

/-- A store that succeeds keeps the slots apart, and every other line as it was. -/
theorem stored (partitioned : t.Partitioned) (wellFormed : WellFormed compLine)
    (fits : t.OffsetFits (.storeLine i compLine)) (stored : t.storeLine i compLine = (true, t')) :
    t'.Partitioned ∧ ∀ j, j ≠ i → t'.loadLine j = t.loadLine j := by
  have stores := t.storeLine_stores i compLine
  rw [stored] at stores
  cases stores with
  | inPlace below valid size =>
    have exclusive := partitioned.exclusive
    rw [← update_slotOf_inPlace valid size] at exclusive
    exact partitioned.writeLine wellFormed partitioned.near rfl rfl rfl (t.entries i).physChunkOffset.isLt exclusive
  | moved below resized bytes found =>
    obtain ⟨entries, dram, lines, -⟩ := t.vacated_frame i
    obtain ⟨entries', dram', lines', -⟩ := (t.vacated i).allocateChunks_frame (neededChunks compLine)
    have near := partitioned.near.vacated i
    have condition := fits.vacated below resized
    have exclusive := allocateChunks_exclusive (fun _ _ => Nat.lt_of_le_of_lt near.next_le (by decide))
      (vacated_exclusive partitioned.exclusive (partitioned.few i)) (Function.update_self _ _ _) found
    rw [Function.update_idem] at exclusive
    obtain ⟨written, loads⟩ := partitioned.writeLine wellFormed
      (near.allocateChunks (neededChunks_le compLine) condition) (entries'.trans entries) (dram'.trans dram)
      (lines'.trans lines) ((near.allocateChunks_lt_iff found).mpr condition) exclusive
    exact ⟨⟨⟨written.near.next_le, written.near.free_lt, written.near.zero⟩, written.exclusive, written.few,
      written.raw⟩, loads⟩

/-- A store that fails changes nothing, if it has not returned a slot. -/
theorem failed (partitioned : t.Partitioned) (fits : t.ResizeFits i compLine)
    (failed : t.storeLine i compLine = (false, t')) : t' = t := by
  have stores := t.storeLine_stores i compLine
  rw [failed] at stores
  cases stores with
  | refused => rfl
  | full below resized pos noSlot =>
    obtain ⟨free, full, same⟩ := (partitioned.near.vacated i).exhausted pos noSlot
    obtain ⟨-, -, -, total, next⟩ := t.vacated_frame i
    rw [vacated_freeChunkLists resized] at free
    rw [total, next] at full
    rw [same, vacated]
    split
    · next valid =>
      -- the line has no chunks, or `ResizeFits` would promise a slot
      have none : (t.entries i).allocatedChunks = 0 := by
        refine Decidable.byContradiction fun some_chunks => ?_
        obtain listed | room := fits valid some_chunks (resized valid) pos
        · exact listed free
        · omega
      rw [freeChunks, none]
      exact if_pos (Or.inl rfl)
    · rfl

theorem call {tableCall : TableCall} {reply : TableReply} (partitioned : t.Partitioned)
    (conforms : t.Conforms tableCall) (returned : t.call tableCall = .ok (t', reply)) : t'.Partitioned := by
  obtain ⟨i, compLine, rfl, rfl, -⟩ | ⟨i, rfl, rfl, -⟩ | ⟨rfl, rfl, -⟩ := call_eq_ok returned
  · obtain ⟨wellFormed, resizes, fits⟩ := conforms
    cases ok : (t.storeLine i compLine).1 with
    | true => exact (partitioned.stored wellFormed fits (Prod.ext ok rfl)).1
    | false =>
      have same : (t.storeLine i compLine).2 = t := partitioned.failed resizes (Prod.ext ok rfl)
      rwa [same]
  · exact partitioned
  · exact .reset t

end Partitioned

/-! ### A failed store -/

/-- The calls after which the line must read as before: loads, and stores to other lines that succeed. -/
def StoresElsewhere (j : Nat) (t : MemoryLineTable) : TableCall → Prop
  | .storeLine i compLine =>
    i ≠ j ∧ WellFormed compLine ∧ (t.storeLine i compLine).1 = true ∧ t.OffsetFits (.storeLine i compLine)
  | .loadLine _ => True
  | .reset => False

/-- Nothing is lost: the table is as it was, every line is loaded as before, now and after further stores to other
    lines, and no chunk of a line is in a free slot. -/
structure Unharmed (before after : MemoryLineTable) : Prop where
  entries : after.entries = before.entries
  freeChunkLists : after.freeChunkLists = before.freeChunkLists
  nextUnpartitionedChunk : after.nextUnpartitionedChunk = before.nextUnpartitionedChunk
  allocatedChunksCount : after.allocatedChunksCount = before.allocatedChunksCount
  physicalDram : after.physicalDram = before.physicalDram
  loads : ∀ j, after.loadLine j = before.loadLine j
  later : ∀ j events final, Trace call (StoresElsewhere j) after events final →
    final.loadLine j = before.loadLine j
  apart : ∀ i start size, after.slotOf i = some (start, size) → ∀ n free, free ∈ after.freeChunkLists n →
    ∀ chunk, InSlot start size chunk → ¬ InSlot free n chunk

/-- Stores to other lines keep what a line is loaded as. -/
theorem Partitioned.later {events : List (TableCall × TableReply)} (partitioned : t.Partitioned)
    (trace : Trace MemoryLineTable.call (StoresElsewhere j) t events t') :
    t'.Partitioned ∧ t'.loadLine j = t.loadLine j := by
  refine trace.invariant (fun _ s => s.Partitioned ∧ s.loadLine j = t.loadLine j) ⟨partitioned, rfl⟩ ?_
  rintro _ s tableCall s' reply ⟨partitioned, same⟩ elsewhere returned
  obtain ⟨i, compLine, rfl, rfl, -⟩ | ⟨i, rfl, rfl, -⟩ | ⟨rfl, -, -⟩ := call_eq_ok returned
  · obtain ⟨other, wellFormed, ok, fits⟩ := elsewhere
    obtain ⟨kept, loads⟩ := partitioned.stored wellFormed fits (Prod.ext ok rfl)
    exact ⟨kept, (loads j other.symm).trans same⟩
  · exact ⟨partitioned, same⟩
  · exact elsewhere.elim

theorem Partitioned.unharmed (partitioned : t.Partitioned) : Unharmed t t where
  entries := rfl
  freeChunkLists := rfl
  nextUnpartitionedChunk := rfl
  allocatedChunksCount := rfl
  physicalDram := rfl
  loads _ := rfl
  later _ _ _ trace := (partitioned.later trace).2
  apart _ _ _ owned _ _ member _ mem := partitioned.apart owned member mem

/-- Without a free slot and without room an allocation fails. -/
theorem allocateChunks_exhausted {n : Nat} (pos : 0 < n) (free : t.freeChunkLists n = [])
    (full : ¬ t.nextUnpartitionedChunk + n ≤ t.totalPhysicalChunks) : t.allocateChunks n = (uint32Max, t) := by
  rw [allocateChunks, if_neg (by omega), free]
  exact if_neg full

/-- A store that returns a slot and finds no other fails, and the slot is free. -/
theorem not_unharmed (partitioned : t.Partitioned) (below : i < t.totalLogicalLines)
    (stuck : ¬ t.ResizeFits i compLine) :
    (t.storeLine i compLine).1 = false ∧ ¬ Unharmed t (t.storeLine i compLine).2 := by
  simp only [ResizeFits, Classical.not_imp, not_or, not_not] at stuck
  obtain ⟨valid, some_chunks, resized, pos, free, full⟩ := stuck
  obtain ⟨-, -, -, total, next⟩ := t.vacated_frame i
  have exhausted : (t.vacated i).allocateChunks (neededChunks compLine) = (uint32Max, t.vacated i) := by
    refine allocateChunks_exhausted pos ?_ (by rwa [total, next])
    rw [vacated_freeChunkLists fun _ => resized, free]
  have stores := t.storeLine_stores i compLine
  generalize t.storeLine i compLine = result at stores
  cases stores with
  | refused beyond => exact absurd below (Nat.not_lt.mpr beyond)
  | inPlace _ _ size => exact absurd size resized
  | moved _ _ _ found => exact absurd (by rw [exhausted]) (found pos)
  | full =>
    refine ⟨rfl, fun unharmed => ?_⟩
    have lists := congrFun unharmed.freeChunkLists (t.entries i).allocatedChunks.toNat
    have short := (t.entries i).physChunkOffset.isLt
    have nonzero : (t.entries i).allocatedChunks.toNat ≠ 0 := fun zero =>
      some_chunks (BitVec.eq_of_toNat_eq zero)
    rw [exhausted, vacated, if_pos valid, freeChunks, if_neg (by rw [uint32Max]; omega)] at lists
    dsimp only at lists
    rw [if_pos (partitioned.few i valid), Function.update_self] at lists
    exact absurd lists (List.cons_ne_self _ _)

/-- In a run in which every store that returns a slot finds another and every offset fits its entry, a store that
    fails does no harm, exactly if it is not one that returns its slot and finds no other. -/
theorem storeLine_failure_iff {virtualCapacity physicalCapacity : BitVec 64}
    {events : List (TableCall × TableReply)}
    (trace : Trace call Conforms (create virtualCapacity physicalCapacity) events t)
    (below : i < t.totalLogicalLines) (line : Line) :
    ((t.storeLine i (compress line)).1 = false → Unharmed t (t.storeLine i (compress line)).2) ↔
      t.ResizeFits i (compress line) := by
  have partitioned : t.Partitioned := by
    refine trace.invariant (fun _ t => t.Partitioned) (.create _ _) ?_
    exact fun _ _ _ _ _ partitioned conforms returned => partitioned.call conforms returned
  constructor
  · intro atomic
    refine Decidable.byContradiction fun stuck => ?_
    obtain ⟨failed, harmed⟩ := not_unharmed partitioned below stuck
    exact harmed (atomic failed)
  · intro resizes failed
    have same : (t.storeLine i (compress line)).2 = t := partitioned.failed resizes (Prod.ext failed rfl)
    rw [same]
    exact partitioned.unharmed

/-- One chunk is all there is, and line 0 has it: a line that finds no room beside it is refused without harm. -/
theorem refused_unharmed : ∃ events t, Trace call Conforms (create 128 16) events t ∧
    (t.storeLine 1 (compress ascending)).1 = false ∧ Unharmed t (t.storeLine 1 (compress ascending)).2 := by
  obtain ⟨⟨events, t⟩, executed, observed⟩ := (Option.any_eq_true _ _).mp
    (by decide +kernel : (execute call Conforms [.storeLine 0 (compress (equalWords 1))]
      ([], create 128 16)).any fun run =>
        decide (1 < run.2.totalLogicalLines ∧ (run.2.storeLine 1 (compress ascending)).1 = false ∧
          run.2.ResizeFits 1 (compress ascending)))
  obtain ⟨below, failed, resizes⟩ := of_decide_eq_true observed
  have trace := Trace.nil.execute executed
  exact ⟨events, t, trace, failed, (storeLine_failure_iff trace below ascending).mpr resizes failed⟩

/-- A larger line does not fit into the place of line 0, and the store of it fails. Afterwards line 1 gets the chunk of
    line 0, and line 0 reads as line 1. -/
theorem failedResize_harms : ∃ events t, Trace call (fun _ _ => True) (create 128 16) events t ∧
    (t.storeLine 0 (compress ascending)).1 = false ∧ ¬ Unharmed t (t.storeLine 0 (compress ascending)).2 ∧
    t.loadLine 0 = some (equalWords 1) ∧
    ((t.storeLine 0 (compress ascending)).2.storeLine 1 (compress (equalWords 2))).2.loadLine 0 =
      some (equalWords 2) := by
  obtain ⟨⟨events, t⟩, executed, observed⟩ := (Option.any_eq_true _ _).mp
    (by decide +kernel : (execute call (fun _ _ => True) [.storeLine 0 (compress (equalWords 1))]
      ([], create 128 16)).any fun run =>
        decide ((run.2.storeLine 0 (compress ascending)).1 = false ∧ run.2.freeChunkLists 1 = [] ∧
          (run.2.storeLine 0 (compress ascending)).2.freeChunkLists 1 = [0] ∧
          run.2.loadLine 0 = some (equalWords 1) ∧
          ((run.2.storeLine 0 (compress ascending)).2.storeLine 1 (compress (equalWords 2))).2.loadLine 0 =
            some (equalWords 2)))
  obtain ⟨failed, before, after, first, second⟩ := of_decide_eq_true observed
  refine ⟨events, t, Trace.nil.execute executed, failed, fun unharmed => ?_, first, second⟩
  have lists := congrFun unharmed.freeChunkLists 1
  rw [before, after] at lists
  exact absurd lists (by decide)

end MemoryLineTable

end Zftl.Legacy
