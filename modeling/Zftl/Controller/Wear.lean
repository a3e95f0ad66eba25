/-
Module: Zftl.Controller.Wear
Layer: Controller
Purpose: What the host's writes can cost the array. A collection erases one block, and it takes place when the
  active block is full, so a block full of host pages has been written for every erase; the victim has a stale
  page, so a collection moves fewer pages than a block has. `Worn` keeps this account through a call, for a
  controller that begins with some pages and some blocks already on the account.
Imports: Mathlib.Algebra.Order.BigOperators.Group.List, Mathlib.Data.Nat.Cast.Order.Field,
  Mathlib.Tactic.FieldSimp, Mathlib.Tactic.Linarith, Zftl.Controller.StaleCount,
  Zftl.Controller.WriteAmplification, Zftl.Flash.Endurance
Trusted boundary: none
Main exports: PassCounted, Allowance, Worn, Worn.call, Enduring, reachable_enduring
Open obligations: none
-/
import Mathlib.Algebra.Order.BigOperators.Group.List
import Mathlib.Data.Nat.Cast.Order.Field
import Mathlib.Tactic.FieldSimp
import Mathlib.Tactic.Linarith
import Zftl.Controller.StaleCount
import Zftl.Controller.WriteAmplification
import Zftl.Flash.Endurance

namespace Zftl

open Fallible Lz4Compressor

/-! ### The reported erase counts -/

namespace FlashModel

variable {cfg : FlashConfig} {flash : FlashModel cfg} {blockIdx : Nat}

theorem foldl_max_le {counts : List Nat} {start bound : Nat} (first : start ≤ bound)
    (all : ∀ count ∈ counts, count ≤ bound) : counts.foldl max start ≤ bound := by
  induction counts generalizing start with
  | nil => exact first
  | cons count counts ih =>
      exact ih (Nat.max_le.mpr ⟨first, all count List.mem_cons_self⟩)
        fun other member => all other (List.mem_cons_of_mem _ member)

theorem peCycles_eq_sum (flash : FlashModel cfg) :
    flash.peCycles = ((List.range cfg.totalBlocks).map fun b => (flash.blocks b).eraseCount).sum := by
  have below : ∀ b ∈ Finset.range cfg.totalBlocks, flash.getEraseCount b = (flash.blocks b).eraseCount :=
    fun b member => if_neg (Nat.not_le.mpr (Finset.mem_range.mp member))
  rw [peCycles, Finset.sum_congr rfl below]
  rfl

/-- The reported mean is that of the erase counts. -/
theorem getTelemetry_avgPeCycles_le {bound : Nat} (few : flash.peCycles ≤ bound) :
    flash.getTelemetry.avgPeCycles.value ≤ (Binary64.ofNat bound / Binary64.ofNat cfg.totalBlocks).value := by
  rw [peCycles_eq_sum] at few
  simp only [getTelemetry]
  split
  · rw [Binary64.ofNat_zero]
    exact Binary64.nearest_nonneg (div_nonneg (Binary64.ofNat_nonneg _) (Binary64.ofNat_nonneg _))
  · exact Binary64.ofNat_div_mono ((Nat.mod_le _ _).trans few) _

/-- No block has been erased more often than all blocks together. -/
theorem getTelemetry_maxPeCycles (flash : FlashModel cfg) :
    flash.getTelemetry.maxPeCycles ≤ flash.peCycles := by
  rw [peCycles_eq_sum]
  exact foldl_max_le (Nat.zero_le _) fun _ member => List.le_sum_of_mem member

/-- A block whose counter is not zero has a page that is not valid. -/
theorem Tallied.exists_invalid (tallied : flash.Tallied) (inside : blockIdx < cfg.totalBlocks)
    (counted : flash.getInvalidCount blockIdx ≠ 0) :
    ∃ p < cfg.pagesPerBlock, flash.isPageValid blockIdx p = false := by
  by_contra allValid
  have fresh : flash.stalePages blockIdx = 0 := by
    rw [stalePages, Nat.count_iff_forall_not]
    rintro p below ⟨_, invalid⟩
    exact allValid ⟨p, below, invalid⟩
  rw [tallied.counted _ inside, fresh] at counted
  exact counted rfl

end FlashModel

namespace FtlController

variable {cfg : FlashConfig} {lbas : Nat}

/-! ### One pass of the collection -/

/-- What making room has added to the counters: a collection for every block that became free by an erase, and
    fewer migrations than the block has pages. -/
structure PassCounted (start room : FtlController cfg lbas) : Prop where
  slots : room.gcCount * cfg.pagesPerBlock + room.activePageIdx ≤
    start.gcCount * cfg.pagesPerBlock + start.activePageIdx
  migrations : room.gcMigratedPages + room.gcCount + start.gcCount * cfg.pagesPerBlock ≤
    start.gcMigratedPages + start.gcCount + room.gcCount * cfg.pagesPerBlock
  erases : room.flash.totalBlocksErased + start.gcCount = start.flash.totalBlocksErased + room.gcCount
  cycles : room.flash.peCycles + start.gcCount ≤ start.flash.peCycles + room.gcCount

/-- The counters while the pages of the victim are migrated. -/
structure VictimCounted (start : FtlController cfg lbas) (p : Nat) (ftl : FtlController cfg lbas) : Prop where
  gcCount : ftl.gcCount = start.gcCount + 1
  gcMigratedPages : ftl.gcMigratedPages =
    start.gcMigratedPages + start.flash.validBelow start.selectVictim.1 p
  erasures : ftl.flash.SameErasures start.flash

theorem movePage_sameErasures (ftl : FtlController cfg lbas) (victim target p : Nat) :
    (ftl.movePage victim target p).flash.SameErasures ftl.flash :=
  (FlashModel.programPage_sameErasures _ _ _ _).trans (FlashModel.readPage_sameErasures _ _ _ _)

/-- The victim of a collection has fewer valid pages than a block has pages. -/
theorem Collects.validBelow_lt {ftl : FtlController cfg lbas} (collects : ftl.Collects)
    (tallied : ftl.flash.Tallied) :
    ftl.flash.validBelow ftl.selectVictim.1 cfg.pagesPerBlock < cfg.pagesPerBlock := by
  have found := ftl.selectVictim_spec.found collects.found
  have counted : ftl.flash.getInvalidCount ftl.selectVictim.1 ≠ 0 := by
    rw [found.2.2]
    exact collects.found
  obtain ⟨p, below, invalid⟩ := tallied.exists_invalid found.1 counted
  exact FlashModel.validBelow_lt_of_invalid below invalid

theorem makeRoom_passCounted {ftl room : FtlController cfg lbas} (tallied : ftl.flash.Tallied)
    (made : ftl.makeRoom = .ok room) : PassCounted ftl room := by
  refine makeRoom_rule made (VictimCounted ftl) (PassCounted ftl) ?stay ?adopt ?init ?forget ?move ?reclaim
  case stay => exact fun _ => ⟨Nat.le_refl _, Nat.le_refl _, rfl, Nat.le_refl _⟩
  case adopt =>
    exact fun _ _ => ⟨Nat.add_le_add_left (Nat.zero_le _) _, Nat.le_refl _, rfl, Nat.le_refl _⟩
  case init => exact fun _ => ⟨rfl, rfl, fun _ => rfl, rfl⟩
  case forget =>
    intro p s _ _ _ invalid counted
    refine ⟨counted.gcCount, ?_, counted.erasures⟩
    rw [FlashModel.validBelow_succ_of_invalid invalid]
    exact counted.gcMigratedPages
  case move =>
    intro p s _ _ _ valid counted
    refine ⟨counted.gcCount, ?_, (movePage_sameErasures _ _ _ _).trans counted.erasures⟩
    rw [FlashModel.validBelow_succ_of_valid valid, ← Nat.add_assoc, ← counted.gcMigratedPages]
    rfl
  case reclaim =>
    intro migrated collects _ counted
    have full := collects.full
    have fewer := collects.validBelow_lt tallied
    have erased := @FlashModel.eraseBlock_counted cfg migrated.flash _ collects.victimLt
    have once := u32_le (migrated.flash.getEraseCount ftl.selectVictim.1 + 1)
    rw [counted.erasures.totalBlocksErased, counted.erasures.peCycles_eq] at erased
    constructor <;>
      simp only [FtlController.reclaimed, counted.gcCount, counted.gcMigratedPages, Nat.succ_mul] <;> omega

/-! ### The account of a run -/

/-- What a controller has used when its counters start: pages of the active block, blocks in the staging buffer,
    and erase cycles. -/
structure Allowance where
  pages : Nat := 0
  blocks : Nat := 0
  cycles : Nat := 0

/-- The account of a run: the pages of the collected blocks and of the active one, and the pages the array has
    programmed, are covered by the host writes and the migrations, a zero block and a packed pair standing for
    a page saved. -/
structure Worn (allowed : Allowance) (write : Option (Nat × Page)) (ftl : FtlController cfg lbas) : Prop where
  slots : ftl.gcCount * cfg.pagesPerBlock + ftl.activePageIdx + ftl.zeroBlocks + ftl.halfPagePacks +
      ftl.stagedCount + (if write.isSome then 1 else 0) ≤ ftl.hostWrites + allowed.pages + allowed.blocks
  programs : ftl.flash.totalPagesProgrammed + ftl.zeroBlocks + ftl.halfPagePacks + ftl.stagedCount +
      (if write.isSome then 1 else 0) ≤ ftl.hostWrites + ftl.gcMigratedPages + allowed.blocks
  migrations : ftl.gcMigratedPages + ftl.gcCount ≤ ftl.gcCount * cfg.pagesPerBlock
  erases : ftl.flash.totalBlocksErased = ftl.gcCount
  cycles : ftl.flash.peCycles ≤ ftl.gcCount + allowed.cycles
  activePage : ftl.activePageIdx ≤ cfg.pagesPerBlock
  tallied : ftl.flash.Tallied

section Steps

variable {lz4 : Lz4} {allowed : Allowance} {write write' : Option (Nat × Page)}
  {ftl ftl' room : FtlController cfg lbas}

theorem Worn.fresh (capacity : Nat) : Worn {} none (FtlController.fresh cfg capacity) :=
  ⟨by simp [FtlController.fresh, stagedCount], by simp [FtlController.fresh, stagedCount],
    by simp [FtlController.fresh], rfl,
    by simp [FlashModel.peCycles, FlashModel.getEraseCount, FtlController.fresh], Nat.zero_le _,
    FlashModel.Tallied.fresh⟩

theorem Worn.mono {allowed' : Allowance} (worn : Worn allowed write ftl) (pages : allowed.pages ≤ allowed'.pages)
    (blocks : allowed.blocks ≤ allowed'.blocks) (cycles : allowed.cycles ≤ allowed'.cycles) :
    Worn allowed' write ftl := by
  have slots := worn.slots
  have programs := worn.programs
  have counted := worn.cycles
  exact ⟨by omega, by omega, worn.migrations, worn.erases, by omega, worn.activePage, worn.tallied⟩

theorem invalidateOld_sameErasures (ftl : FtlController cfg lbas) (lba : Nat) :
    (ftl.invalidateOld lba).SameErasures ftl.flash := by
  by_cases mapped : (ftl.lbaTable lba).Mapped
  · simpa only [invalidateOld, mapped, if_true] using FlashModel.invalidatePage_sameErasures _ _ _
  · simpa only [invalidateOld, mapped, if_false] using ⟨fun _ => rfl, rfl⟩

theorem invalidateOld_tallied (tallied : ftl.flash.Tallied) (lba : Nat) : (ftl.invalidateOld lba).Tallied := by
  by_cases mapped : (ftl.lbaTable lba).Mapped
  · simpa only [invalidateOld, mapped, if_true] using tallied.invalidatePage _ _
  · simpa only [invalidateOld, mapped, if_false] using tallied

theorem ReadFrom.sameErasures {before after : FlashModel cfg} (reads : ReadFrom before after) :
    after.SameErasures before := by
  rcases reads with rfl | ⟨blockIdx, pageIdx, dest, rfl⟩
  · exact ⟨fun _ => rfl, rfl⟩
  · exact FlashModel.readPage_sameErasures _ _ _ _

theorem Worn.makeRoom (worn : Worn allowed write ftl) (made : ftl.makeRoom = .ok room)
    (inside : room.activePageIdx ≤ cfg.pagesPerBlock) : Worn allowed write room := by
  have moved := makeRoom_migrationsCounted made
  have pass := makeRoom_passCounted worn.tallied made
  have slots := worn.slots
  have programs := worn.programs
  have migrations := worn.migrations
  have erases := worn.erases
  refine ⟨?_, ?_, ?_, ?_, ?_, inside, worn.tallied.makeRoom made⟩ <;>
    simp only [stagedCount, moved.hostWrites, moved.zeroBlocks, moved.halfPagePacks,
      moved.stagedHalf] at slots programs ⊢
  · have counted := pass.slots
    omega
  · have counted := moved.programs
    omega
  · have counted := pass.migrations
    omega
  · have counted := pass.erases
    omega
  · have counted := pass.cycles
    have cycles := worn.cycles
    omega

/-- The page of a program site fills one page of the active block. -/
theorem worn_keptByProgram :
    KeptByProgram lz4 (@Worn cfg lbas allowed) fun _ _ => True := by
  intro s write buf tenants packs raws write' room worn _ site made inside _
  have ready := worn.makeRoom made (Nat.le_of_lt inside.2)
  have staged := makeRoom_stagedHalf made
  have slots := ready.slots
  have programs := ready.programs
  have program := FlashModel.programPage_totalPagesProgrammed_le room.flash room.activeBlockIdx
    room.activePageIdx buf
  have erasures := FlashModel.programPage_sameErasures room.flash room.activeBlockIdx room.activePageIdx buf
  refine ⟨?_, ?_, ready.migrations, erasures.totalBlocksErased.trans ready.erases,
    erasures.peCycles_eq.trans_le ready.cycles, inside.2, ready.tallied.programPage _ _ _⟩ <;>
  simp only [stagedCount, occupyPage, withOwners, programActivePage, staged] at slots programs ⊢ <;>
  cases site with
  | flush waiting _ =>
      simp only [waiting, Option.isSome_some, Option.isSome_none, Bool.false_eq_true, if_true,
        if_false] at slots programs ⊢
      omega
  | pack waiting _ _ _ _ =>
      simp only [waiting, Option.isSome_some, Option.isSome_none, Bool.false_eq_true, if_true,
        if_false] at slots programs ⊢
      omega
  | full idle _ _ =>
      simp only [idle, Option.isSome_some, Option.isSome_none, Bool.false_eq_true, if_true,
        if_false] at slots programs ⊢
      omega

theorem Worn.beginWrite (worn : Worn allowed none ftl) (lba : Nat) (src : Page) :
    Worn allowed (some (lba, src)) (ftl.beginWrite lba) := by
  have slots := worn.slots
  have programs := worn.programs
  have erasures := invalidateOld_sameErasures ftl lba
  rw [beginWrite_eq]
  refine ⟨?_, ?_, worn.migrations, erasures.totalBlocksErased.trans worn.erases,
    erasures.peCycles_eq.trans_le worn.cycles, worn.activePage, invalidateOld_tallied worn.tallied lba⟩ <;>
  simp only [stagedCount, invalidateOld_totalPagesProgrammed, Option.isSome_some, Option.isSome_none,
    Bool.false_eq_true, if_true, if_false] at slots programs ⊢ <;>
  by_cases dropped : ftl.stagedLba = some lba
  all_goals
    simp only [dropped, if_true, if_false, Option.isSome_none, Bool.false_eq_true]
    omega

/-- Every host call keeps the account. -/
theorem Worn.call (worn : Worn allowed none ftl) {hostCall : HostCall} {ok : Bool}
    (returned : ftl.call lz4 hostCall = .ok (ftl', ok)) : Worn allowed none ftl' := by
  refine call_readRule returned (fun lba src _ => worn.beginWrite lba src) (fun _ => worn)
    (atEveryProgram_true lz4 ftl hostCall) ?read ?zero ?stage worn_keptByProgram
  case read =>
    intro s flash worn touched
    have same := touched.sameArray
    refine ⟨worn.slots, ?_, worn.migrations, touched.sameErasures.totalBlocksErased.trans worn.erases,
      touched.sameErasures.peCycles_eq.trans_le worn.cycles, worn.activePage, worn.tallied.congr same.blocks⟩
    simpa only [stagedCount, same.totalPagesProgrammed] using worn.programs
  case zero =>
    intro s lba src worn _ _
    have slots := worn.slots
    have programs := worn.programs
    have staged : (s.zeroed lba).stagedCount = s.stagedCount := rfl
    refine ⟨?_, ?_, worn.migrations, worn.erases, worn.cycles, worn.activePage, worn.tallied⟩ <;>
    simp only [staged, Option.isSome_some, Option.isSome_none, Bool.false_eq_true, if_true,
      if_false] at slots programs ⊢ <;>
    simp only [zeroed, withEntry] <;>
    omega
  case stage =>
    intro s lba src data worn _ idle _ _ _
    have slots := worn.slots
    have programs := worn.programs
    refine ⟨?_, ?_, worn.migrations, worn.erases, worn.cycles, worn.activePage, worn.tallied⟩ <;>
    simp only [stagedCount, idle, Option.isSome_some, Option.isSome_none, Bool.false_eq_true, if_true,
      if_false] at slots programs ⊢ <;>
    omega

end Steps

/-- What a controller has cost its array: an erase for each collection, at most one collection for every block full
    of host pages, fewer migrations than pages for each, and so fewer than two programs for each host write. -/
structure Enduring (ftl : FtlController cfg lbas) : Prop where
  erases : ftl.getTelemetry.flashTel.totalBlocksErased = ftl.getTelemetry.gcInvocations
  collections : ftl.getTelemetry.gcInvocations * cfg.pagesPerBlock + ftl.getTelemetry.zeroBlocksFiltered +
    ftl.getTelemetry.compressedHalfPagesPacked ≤ ftl.getTelemetry.totalHostWrites
  migrations : ftl.getTelemetry.gcPagesMigrated + ftl.getTelemetry.gcInvocations ≤
    ftl.getTelemetry.gcInvocations * cfg.pagesPerBlock
  amplification : ftl.getTelemetry.totalHostWrites < 2 ^ 52 →
    ftl.getTelemetry.writeAmplificationFactor.value ≤ (Binary64.nearest (2 - 1 / cfg.pagesPerBlock)).value
  maxPeCycles : ftl.getTelemetry.flashTel.maxPeCycles * cfg.pagesPerBlock ≤ ftl.getTelemetry.totalHostWrites
  avgPeCycles : ftl.getTelemetry.flashTel.avgPeCycles.value ≤
    (Binary64.ofNat (ftl.getTelemetry.totalHostWrites / cfg.pagesPerBlock) / Binary64.ofNat cfg.totalBlocks).value

/-- The programs of `m` migrations on top of the host writes, where each block full of host pages allows fewer
    migrations than it has pages. -/
theorem amplification_le {programs writes migrated collections pages : ℕ} (covered : programs ≤ writes + migrated)
    (fewer : migrated + collections ≤ collections * pages) (paid : collections * pages ≤ writes)
    (written : 0 < writes) : (programs : ℚ) / writes ≤ 2 - 1 / pages := by
  have positive : (0 : ℚ) < writes := Nat.cast_pos.mpr written
  rw [div_le_iff₀ positive]
  rcases Nat.eq_zero_or_pos pages with rfl | some
  · have all : (programs : ℚ) ≤ writes := Nat.cast_le.mpr (by omega)
    simp only [Nat.cast_zero, div_zero, sub_zero]
    linarith
  · have block : (0 : ℚ) < pages := Nat.cast_pos.mpr some
    have covered' : (programs : ℚ) ≤ writes + migrated := mod_cast covered
    have fewer' : (migrated : ℚ) + collections ≤ collections * pages := mod_cast fewer
    have perBlock : (collections : ℚ) * (pages - 1) ≤ writes / pages * (pages - 1) := by
      have atLeastOne : (1 : ℚ) ≤ pages := mod_cast some
      have full : (collections : ℚ) ≤ writes / pages := (le_div_iff₀ block).mpr (mod_cast paid)
      exact mul_le_mul_of_nonneg_right full (sub_nonneg.mpr atLeastOne)
    calc (programs : ℚ) ≤ writes + migrated := covered'
      _ ≤ writes + collections * (pages - 1) := by linarith
      _ ≤ writes + writes / pages * (pages - 1) := add_le_add_right perBlock _
      _ = (2 - 1 / pages) * writes := by
          field_simp
          linarith

/-- In every reachable state each collection has been paid for by a block full of host pages, and the array has
    programmed fewer than two pages for each host write. -/
theorem reachable_enduring {lz4 : Lz4} {capacity : Nat} {ftl : FtlController cfg (lbaCount capacity)}
    (reachable : Reachable (FtlController.call lz4) (FtlController.fresh cfg capacity) ftl) : ftl.Enduring := by
  have worn : Worn {} none ftl :=
    reachable.invariant (Worn {} none) (.fresh capacity) fun _ _ _ _ worn returned => worn.call returned
  have slots := worn.slots
  have programs := worn.programs
  have cycles := worn.cycles
  have migrations := worn.migrations
  simp only [Nat.add_zero] at slots programs cycles
  have paid : ftl.gcCount * cfg.pagesPerBlock ≤ ftl.hostWrites := by omega
  have covered : ftl.flash.totalPagesProgrammed ≤ ftl.hostWrites + ftl.gcMigratedPages := by omega
  refine ⟨worn.erases, ?collections, worn.migrations, fun fits => ?amplification, ?maxPeCycles, ?avgPeCycles⟩
  case collections =>
    simp only [getTelemetry]
    omega
  case amplification =>
    refine writeAmplificationFactor_le fits (by omega) ?_ (amplification_le covered worn.migrations paid)
    have small : (0 : ℚ) ≤ 1 - 1 / cfg.pagesPerBlock := Nat.one_sub_one_div_cast_nonneg _
    linarith
  case maxPeCycles =>
    refine Nat.le_trans (Nat.mul_le_mul_right _ ?_) paid
    exact Nat.le_trans ftl.flash.getTelemetry_maxPeCycles cycles
  case avgPeCycles =>
    refine FlashModel.getTelemetry_avgPeCycles_le (cycles.trans ?_)
    rcases Nat.eq_zero_or_pos cfg.pagesPerBlock with none | some_pages
    · -- a block without pages is never collected
      rw [none, Nat.mul_zero] at migrations
      exact (show ftl.gcCount ≤ 0 by omega).trans (Nat.zero_le _)
    · exact (Nat.le_div_iff_mul_le some_pages).mpr paid

/-- The second write to an LBA finds its block full, and moves the page of the other LBA. -/
def overwriteFull : List HostCall := [writeCounting 0 1, writeCounting 1 2, writeCounting 0 3]

theorem overwriteFull_enduring :
    ∃ ftl : FtlController { pagesPerBlock := 2, totalBlocks := 3 } (lbaCount 8192),
      ftl.gcMigratedPages = 1 ∧ ftl.flash.totalPagesProgrammed = 4 ∧ ftl.Enduring := by
  rcases (Option.any_eq_true _ _).mp
      (by decide +kernel : (execute (FtlController.call constantLz4) (fun _ _ => True)
        overwriteFull ([], FtlController.fresh { pagesPerBlock := 2, totalBlocks := 3 } 8192)).any
          fun run => run.2.gcMigratedPages == 1 && run.2.flash.totalPagesProgrammed == 4) with
    ⟨⟨events, ftl⟩, executed, observed⟩
  simp only [Bool.and_eq_true, beq_iff_eq] at observed
  exact ⟨ftl, observed.1, observed.2, reachable_enduring ⟨events, Trace.nil.execute executed⟩⟩

end FtlController

end Zftl
