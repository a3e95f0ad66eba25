/-
Module: Zftl.Flash.Endurance
Layer: Flash
Purpose: The counters of the array. After any calls the totals are the numbers of accepted calls of each kind, the erase
  count of a block the number of its erases, and the programs are bounded by the pages of the device and those
  that erases have given back.
Imports: Mathlib.Algebra.Order.BigOperators.Group.Finset, Zftl.Flash.NandArray
Trusted boundary: human-reviewed translation of `GetEraseCount`
Main exports: getEraseCount, peCycles, SameErasures, Counted, trace_counted
Open obligations: none
-/
import Mathlib.Algebra.Order.BigOperators.Group.Finset
import Zftl.Flash.NandArray

namespace Zftl

open Fallible

/-! ### Erase counts -/

namespace FlashModel

variable {cfg : FlashConfig}

/-- `GetEraseCount`. -/
def getEraseCount (flash : FlashModel cfg) (blockIdx : Nat) : Nat :=
  if blockIdx ≥ cfg.totalBlocks then 0 else (flash.blocks blockIdx).eraseCount

/-- The erase cycles of all blocks together. -/
def peCycles (flash : FlashModel cfg) : Nat := ∑ b ∈ Finset.range cfg.totalBlocks, flash.getEraseCount b

/-- Two arrays that have been erased equally often. -/
structure SameErasures (left right : FlashModel cfg) : Prop where
  counts : ∀ b, left.getEraseCount b = right.getEraseCount b
  totalBlocksErased : left.totalBlocksErased = right.totalBlocksErased

theorem SameErasures.trans {left middle right : FlashModel cfg} (first : SameErasures left middle)
    (second : SameErasures middle right) : SameErasures left right :=
  ⟨fun b => (first.counts b).trans (second.counts b),
    first.totalBlocksErased.trans second.totalBlocksErased⟩

theorem SameErasures.peCycles_eq {left right : FlashModel cfg} (same : SameErasures left right) :
    left.peCycles = right.peCycles :=
  Finset.sum_congr rfl fun b _ => same.counts b

variable (flash : FlashModel cfg) (blockIdx pageIdx : Nat)

theorem programPage_sameErasures (src4kb : Option Page) :
    SameErasures (flash.programPage blockIdx pageIdx src4kb).1 flash := by
  cases src4kb with
  | none => exact ⟨fun _ => rfl, rfl⟩
  | some src =>
      by_cases out : blockIdx ≥ cfg.totalBlocks ∨ pageIdx ≥ cfg.pagesPerBlock
      · constructor <;> simp [programPage, out, recordCall, getEraseCount]
      · cases programmed : ((flash.blocks blockIdx).pages pageIdx).isProgrammed with
        | true => constructor <;> simp [programPage, out, programmed, recordCall, getEraseCount]
        | false =>
            refine ⟨fun b => ?_, by simp [programPage, out, programmed, recordCall]⟩
            by_cases same : b = blockIdx
            · subst same
              simp [programPage, out, programmed, recordCall, getEraseCount]
            · simp [programPage, out, programmed, recordCall, getEraseCount, same]

theorem readPage_sameErasures (dest : Page) :
    SameErasures (flash.readPage blockIdx pageIdx dest).1 flash := by
  by_cases out : blockIdx ≥ cfg.totalBlocks ∨ pageIdx ≥ cfg.pagesPerBlock <;>
    constructor <;> simp [readPage, out, getEraseCount]

theorem invalidatePage_sameErasures : SameErasures (flash.invalidatePage blockIdx pageIdx) flash := by
  refine ⟨fun b => by simp [getEraseCount], ?_⟩
  by_cases out : blockIdx ≥ cfg.totalBlocks ∨ pageIdx ≥ cfg.pagesPerBlock
  · simp [invalidatePage, out]
  · cases valid : (flash.blocks blockIdx).pageValid pageIdx <;> simp [invalidatePage, out, valid]

variable {flash blockIdx}

/-- An erase is counted once for its block, whose counter may wrap. -/
theorem eraseBlock_getEraseCount (inside : blockIdx < cfg.totalBlocks) (b : Nat) :
    (flash.eraseBlock blockIdx).1.getEraseCount b =
      if b = blockIdx then u32 (flash.getEraseCount b + 1) else flash.getEraseCount b := by
  have inRange : ¬blockIdx ≥ cfg.totalBlocks := Nat.not_le.mpr inside
  by_cases same : b = blockIdx
  · subst same
    simp [getEraseCount, eraseBlock, inRange]
  · rw [getEraseCount, getEraseCount, eraseBlock_blocks_of_ne same, if_neg same]

/-- An erase is counted once for the array and at most once for its block. -/
theorem eraseBlock_counted (inside : blockIdx < cfg.totalBlocks) :
    (flash.eraseBlock blockIdx).1.totalBlocksErased = flash.totalBlocksErased + 1 ∧
      (flash.eraseBlock blockIdx).1.peCycles + flash.getEraseCount blockIdx =
        flash.peCycles + u32 (flash.getEraseCount blockIdx + 1) := by
  have inRange : ¬blockIdx ≥ cfg.totalBlocks := Nat.not_le.mpr inside
  have others : ∀ b, b ≠ blockIdx →
      (flash.eraseBlock blockIdx).1.getEraseCount b = flash.getEraseCount b := fun b other => by
    rw [eraseBlock_getEraseCount inside, if_neg other]
  have sum := sum_range_add_of_others inside others
  rw [eraseBlock_getEraseCount inside, if_pos rfl] at sum
  exact ⟨by simp [eraseBlock, inRange], sum⟩

/-! ### The counters of a history -/

/-- An accepted program. -/
def programs : FlashCall × FlashAnswer → Bool
  | (.programPage _ _ _, answer) => answer.ok
  | _ => false

/-- An accepted read. -/
def reads : FlashCall × FlashAnswer → Bool
  | (.readPage _ _ _, answer) => answer.ok
  | _ => false

/-- An accepted erase. -/
def erases : FlashCall × FlashAnswer → Bool
  | (.eraseBlock _, answer) => answer.ok
  | _ => false

/-- An accepted erase of the block. -/
def erasesBlock (b : Nat) : FlashCall × FlashAnswer → Bool
  | (.eraseBlock blockIdx, answer) => decide (blockIdx = b) && answer.ok
  | _ => false

/-- The counters tell what has happened: each is the number of accepted calls of its kind, those of a block as far as
    a `uint32_t` holds it, and no more pages have been programmed than the blocks had at the start and got back with
    every erase. -/
structure Counted (flash : FlashModel cfg) (events : List (FlashCall × FlashAnswer)) : Prop where
  programs : flash.totalPagesProgrammed = events.countP programs
  reads : flash.totalPagesRead = events.countP reads
  erases : flash.totalBlocksErased = events.countP erases
  eraseCounts : ∀ b, b < cfg.totalBlocks → flash.getEraseCount b = u32 (events.countP (erasesBlock b))
  cycles : events.length < 2 ^ 32 → flash.peCycles = flash.totalBlocksErased
  capacity : flash.totalPagesProgrammed ≤ flash.programmedPages + cfg.pagesPerBlock * flash.totalBlocksErased

/-- A program is counted if it is accepted. -/
theorem programPage_counters (flash : FlashModel cfg) (blockIdx pageIdx : Nat) (src4kb : Option Page) :
    (flash.programPage blockIdx pageIdx src4kb).1.totalPagesProgrammed =
        flash.totalPagesProgrammed + (flash.programPage blockIdx pageIdx src4kb).2.toNat ∧
      (flash.programPage blockIdx pageIdx src4kb).1.programmedPages =
        flash.programmedPages + (flash.programPage blockIdx pageIdx src4kb).2.toNat ∧
      (flash.programPage blockIdx pageIdx src4kb).1.totalPagesRead = flash.totalPagesRead := by
  cases src4kb with
  | none => exact ⟨rfl, rfl, rfl⟩
  | some src =>
      cases accepted : (flash.programPage blockIdx pageIdx (some src)).2 with
      | false =>
          have kept := programPage_blocks_of_refused _ _ _ _ accepted
          refine ⟨?_, programmedPages_congr kept, ?_⟩
          all_goals
            by_cases out : blockIdx ≥ cfg.totalBlocks ∨ pageIdx ≥ cfg.pagesPerBlock
            · simp [programPage, out, recordCall]
            · cases programmed : ((flash.blocks blockIdx).pages pageIdx).isProgrammed with
              | false => simp [programPage, out, programmed] at accepted
              | true => simp [programPage, out, programmed, recordCall]
      | true =>
          refine ⟨?_, programPage_programmedPages accepted, ?_⟩
          all_goals
            have target := (programPage_accepted _ _ _ _).mp accepted
            have inRange : ¬(blockIdx ≥ cfg.totalBlocks ∨ pageIdx ≥ cfg.pagesPerBlock) := by omega
            have blank : ((flash.blocks blockIdx).pages pageIdx).isProgrammed = false := by
              simpa [isPageProgrammed, inRange] using target.2.2
            simp [programPage, inRange, blank, recordCall]

namespace Counted

variable {events : List (FlashCall × FlashAnswer)}

theorem fresh : Counted ({} : FlashModel cfg) [] :=
  ⟨rfl, rfl, rfl, fun b inside => by simp [getEraseCount, u32], fun _ => by simp [peCycles, getEraseCount],
    Nat.zero_le _⟩

/-- A call that erases nothing. -/
theorem keeps {flash' : FlashModel cfg} {event : FlashCall × FlashAnswer} (counted : Counted flash events)
    (same : flash'.SameErasures flash) (notErase : FlashModel.erases event = false)
    (notBlock : ∀ b, erasesBlock b event = false)
    (programmed : flash'.totalPagesProgrammed = flash.totalPagesProgrammed + (FlashModel.programs event).toNat)
    (held : flash'.programmedPages = flash.programmedPages + (FlashModel.programs event).toNat)
    (read : flash'.totalPagesRead = flash.totalPagesRead + (FlashModel.reads event).toNat) :
    Counted flash' (events ++ [event]) := by
  have capacity := counted.capacity
  have single : ∀ p : FlashCall × FlashAnswer → Bool, [event].countP p = (p event).toNat := fun p => by
    cases kind : p event <;> simp [kind]
  refine ⟨?_, ?_, ?_, fun b inside => ?_, fun short => ?_, ?_⟩
  · rw [List.countP_append, single, programmed, counted.programs]
  · rw [List.countP_append, single, read, counted.reads]
  · rw [List.countP_append, single, notErase, same.totalBlocksErased, counted.erases]
    rfl
  · rw [List.countP_append, single, notBlock, same.counts, counted.eraseCounts b inside]
    rfl
  · rw [List.length_append, List.length_singleton] at short
    rw [same.peCycles_eq, same.totalBlocksErased, counted.cycles (by omega)]
  · rw [programmed, held, same.totalBlocksErased]
    omega

/-- An erase, accepted or not. -/
theorem eraseBlock (counted : Counted flash events) (blockIdx : Nat) :
    Counted (flash.eraseBlock blockIdx).1
      (events ++ [(.eraseBlock blockIdx, { ok := (flash.eraseBlock blockIdx).2 })]) := by
  by_cases out : blockIdx ≥ cfg.totalBlocks
  · have refused : flash.eraseBlock blockIdx = (flash, false) := by simp [FlashModel.eraseBlock, out]
    rw [refused]
    exact counted.keeps ⟨fun _ => rfl, rfl⟩ rfl (fun b => Bool.and_false _) rfl rfl rfl
  · have inside : blockIdx < cfg.totalBlocks := Nat.not_le.mp out
    have accepted : (flash.eraseBlock blockIdx).2 = true := by simp [FlashModel.eraseBlock, out]
    have cycles := @eraseBlock_counted cfg flash blockIdx inside
    have pages : (flash.eraseBlock blockIdx).1.programmedPages + flash.programmedIn blockIdx =
        flash.programmedPages := eraseBlock_programmedPages inside
    have held : flash.programmedIn blockIdx ≤ cfg.pagesPerBlock := Nat.count_le _
    have capacity := counted.capacity
    refine ⟨?programs, ?reads, ?erases, fun b below => ?eraseCounts, fun short => ?cycles, ?capacity⟩
    case programs =>
      rw [List.countP_append, eraseBlock_totalPagesProgrammed, counted.programs]
      rfl
    case reads =>
      rw [List.countP_append, show (flash.eraseBlock blockIdx).1.totalPagesRead = flash.totalPagesRead by
        simp [FlashModel.eraseBlock, out], counted.reads]
      rfl
    case erases =>
      rw [List.countP_append, cycles.1, counted.erases, accepted]
      rfl
    case eraseCounts =>
      rw [List.countP_append, eraseBlock_getEraseCount inside, counted.eraseCounts b below, accepted]
      by_cases same : b = blockIdx
      · subst same
        simp [erasesBlock, u32, Nat.mod_add_mod]
      · have other : ¬blockIdx = b := fun h => same h.symm
        simp [erasesBlock, same, other]
    case cycles =>
      rw [List.length_append, List.length_singleton] at short
      have once : flash.getEraseCount blockIdx ≤ events.length := by
        rw [counted.eraseCounts blockIdx inside]
        exact Nat.le_trans (u32_le _) List.countP_le_length
      have noWrap : u32 (flash.getEraseCount blockIdx + 1) = flash.getEraseCount blockIdx + 1 :=
        u32_of_lt (by omega)
      have before := counted.cycles (by omega)
      omega
    case capacity =>
      rw [cycles.1, eraseBlock_totalPagesProgrammed, Nat.mul_succ]
      omega

/-- Every call keeps the counters in step with the history. -/
theorem call (counted : Counted flash events) {flashCall : FlashCall} {flash' : FlashModel cfg}
    {answer : FlashAnswer} (returned : flash.call flashCall = .ok (flash', answer)) :
    Counted flash' (events ++ [(flashCall, answer)]) := by
  cases flashCall with
  | programPage b p src4kb =>
      simp only [FlashModel.call, Except.ok.injEq, Prod.mk.injEq] at returned
      obtain ⟨rfl, rfl⟩ := returned
      have counters := programPage_counters flash b p src4kb
      exact counted.keeps (programPage_sameErasures flash b p src4kb) rfl (fun _ => rfl) counters.1 counters.2.1
        counters.2.2
  | readPage b p dest =>
      simp only [FlashModel.call, Except.ok.injEq, Prod.mk.injEq] at returned
      obtain ⟨rfl, rfl⟩ := returned
      have same := readPage_sameArray flash b p dest
      refine counted.keeps (readPage_sameErasures flash b p dest) rfl (fun _ => rfl) same.totalPagesProgrammed
        (programmedPages_congr same.blocks) ?_
      by_cases out : b ≥ cfg.totalBlocks ∨ p ≥ cfg.pagesPerBlock <;>
        simp [FlashModel.readPage, FlashModel.reads, out]
  | eraseBlock b =>
      simp only [FlashModel.call, Except.ok.injEq, Prod.mk.injEq] at returned
      obtain ⟨rfl, rfl⟩ := returned
      exact counted.eraseBlock b
  | invalidatePage b p =>
      simp only [FlashModel.call, Except.ok.injEq, Prod.mk.injEq] at returned
      obtain ⟨rfl, rfl⟩ := returned
      have held : (flash.invalidatePage b p).programmedPages = flash.programmedPages :=
        Finset.sum_congr rfl fun b' _ => count_congr fun p' _ => by rw [invalidatePage_isPageProgrammed]
      refine counted.keeps (invalidatePage_sameErasures flash b p) rfl (fun _ => rfl)
        (invalidatePage_totalPagesProgrammed flash b p) held ?_
      by_cases out : b ≥ cfg.totalBlocks ∨ p ≥ cfg.pagesPerBlock
      · simp [FlashModel.invalidatePage, FlashModel.reads, out]
      · cases valid : (flash.blocks b).pageValid p <;>
          simp [FlashModel.invalidatePage, FlashModel.reads, out, valid]

end Counted

theorem programmedPages_le (flash : FlashModel cfg) :
    flash.programmedPages ≤ cfg.pagesPerBlock * cfg.totalBlocks := by
  have perBlock : flash.programmedPages ≤ ∑ _b ∈ Finset.range cfg.totalBlocks, cfg.pagesPerBlock :=
    Finset.sum_le_sum fun b _ => Nat.count_le _
  rwa [Finset.sum_const_nat fun _ _ => rfl, Finset.card_range, Nat.mul_comm] at perBlock

/-- The endurance account of an array: its counters are those of its history, and it has programmed no more pages than
    the device has and its erases have given back. -/
structure Endures (flash : FlashModel cfg) (events : List (FlashCall × FlashAnswer)) : Prop where
  counted : Counted flash events
  device : flash.totalPagesProgrammed ≤ cfg.pagesPerBlock * (cfg.totalBlocks + flash.totalBlocksErased)

/-- After any calls the counters are those of the history, and bound the programs by the pages of the device. -/
theorem trace_counted {events : List (FlashCall × FlashAnswer)}
    (trace : Trace FlashModel.call (fun _ _ => True) ({} : FlashModel cfg) events flash) : flash.Endures events := by
  have counted : Counted flash events :=
    trace.invariant (fun events s => Counted s events) .fresh fun _ _ _ _ _ counted _ returned => counted.call returned
  refine ⟨counted, ?_⟩
  have capacity := counted.capacity
  have device := programmedPages_le flash
  rw [Nat.mul_add]
  omega

/-- A page is programmed twice, its block erased and the page programmed again; a block outside the device is erased. -/
def reusedPage : List FlashCall :=
  [.programPage 0 0 (some (Buffer.fill flashPageSize 1)), .programPage 0 0 (some (Buffer.fill flashPageSize 2)),
    .eraseBlock 0, .programPage 0 0 (some (Buffer.fill flashPageSize 3)), .eraseBlock 9,
    .readPage 0 0 (Buffer.fill flashPageSize 0)]

theorem reusedPage_counted :
    ∃ (events : List (FlashCall × FlashAnswer)) (flash : FlashModel { pagesPerBlock := 1, totalBlocks := 1 }),
      events.map Prod.fst = reusedPage ∧ flash.totalPagesProgrammed = 2 ∧ flash.totalBlocksErased = 1 ∧
        flash.Endures events := by
  rcases (Option.any_eq_true _ _).mp
      (by decide +kernel : (execute FlashModel.call (fun _ _ => True) reusedPage
        ([], ({} : FlashModel { pagesPerBlock := 1, totalBlocks := 1 }))).any fun run =>
          run.2.totalPagesProgrammed == 2 && run.2.totalBlocksErased == 1) with
    ⟨⟨events, flash⟩, executed, observed⟩
  simp only [Bool.and_eq_true, beq_iff_eq] at observed
  exact ⟨events, flash, (Trace.nil.execute_inputs executed).2, observed.1, observed.2,
    trace_counted (Trace.nil.execute executed)⟩

end FlashModel

end Zftl
