/-
Module: Zftl.Controller.Reserve
Layer: Controller
Purpose: The rotation of the reserve block. `SpareErased` says that the reserve is entirely erased and that
  the active block is erased from the page pointer on. Every program then lands on an erased page; what a
  pass of the garbage collection needs, to leave the same behind, is that the block it rotates the reserve
  pointer onto is erased. Nothing in the controller sees to that: the pointer advances by one, and the old
  reserve keeps the pages migrated into it.
Imports: Zftl.Controller.Collection
Trusted boundary: none
Main exports: nextReserve, RotatesOntoErased, SpareErased, spareErased_keptByProgram, trace_programs_erased
Open obligations: none
-/
import Zftl.Controller.Collection

namespace Zftl

open Fallible Lz4Compressor

/-- The reserve pointer does not come back to the block it leaves. -/
theorem FtlController.rotateReserve_ne_reserve {totalBlocks reserve : Nat} (victim : Nat)
    (threeBlocks : 3 ≤ totalBlocks) (reserveLt : reserve < totalBlocks) :
    rotateReserve totalBlocks reserve victim ≠ reserve := by
  have step : ∀ k, k < totalBlocks → (k + 1) % totalBlocks = if k + 1 = totalBlocks then 0 else k + 1 := by
    intro k below
    split
    · rename_i last
      rw [last, Nat.mod_self]
    · exact Nat.mod_eq_of_lt (by omega)
  have nextLt : (reserve + 1) % totalBlocks < totalBlocks := Nat.mod_lt _ (by omega)
  have next := step reserve reserveLt
  have skipped := step _ nextLt
  simp only [rotateReserve]
  split
  · rw [skipped, next]
    split <;> split <;> omega
  · rw [next]
    split <;> omega

namespace FtlController

variable {cfg : FlashConfig} {lbas : Nat} {lz4 : Lz4}

/-- The block the reserve pointer moves to when room is made in a full active block. -/
def nextReserve (ftl : FtlController cfg lbas) : Nat :=
  if ftl.selectVictim.2 = 0 then (ftl.reserveBlockIdx + 1) % cfg.totalBlocks
  else rotateReserve cfg.totalBlocks ftl.reserveBlockIdx ftl.selectVictim.1

/-- If room has to be made, the reserve pointer moves onto an entirely erased block. -/
def RotatesOntoErased (ftl : FtlController cfg lbas) : Prop :=
  cfg.pagesPerBlock ≤ ftl.activePageIdx → ftl.flash.BlockErased ftl.nextReserve

instance (ftl : FtlController cfg lbas) : Decidable ftl.RotatesOntoErased :=
  inferInstanceAs (Decidable (_ → _))

/-- The reserve is erased, and so is the active block from the page pointer on. -/
structure SpareErased (ftl : FtlController cfg lbas) : Prop where
  reserve : ftl.flash.BlockErased ftl.reserveBlockIdx
  active : ∀ p, ftl.activePageIdx ≤ p →
    ftl.flash.isPageProgrammed ftl.activeBlockIdx p = false

namespace SpareErased

variable {ftl room : FtlController cfg lbas}

/-- With erased spare pages every target is erased. -/
theorem targetErased (spare : ftl.SpareErased) : ftl.TargetErased :=
  ⟨fun _ => spare.active _ (Nat.le_refl _), fun _ _ => spare.reserve 0,
    fun _ j _ => spare.reserve j⟩

/-- Only the programmed pages and the block pointers matter. -/
theorem congr {ftl' : FtlController cfg lbas} (spare : ftl.SpareErased)
    (pages : ∀ b p, ftl'.flash.isPageProgrammed b p = ftl.flash.isPageProgrammed b p)
    (activeBlock : ftl'.activeBlockIdx = ftl.activeBlockIdx)
    (activePage : ftl'.activePageIdx = ftl.activePageIdx)
    (reserveBlock : ftl'.reserveBlockIdx = ftl.reserveBlockIdx) : ftl'.SpareErased := by
  constructor
  · intro p
    rw [pages, reserveBlock]
    exact spare.reserve p
  · intro p beyond
    rw [pages, activeBlock]
    exact spare.active p (activePage ▸ beyond)

theorem beginWrite (spare : ftl.SpareErased) (lba : Nat) : (ftl.beginWrite lba).SpareErased := by
  refine spare.congr (beginWrite_isPageProgrammed ftl lba) ?_ ?_ ?_ <;> rw [beginWrite_eq]

/-- A pass of the garbage collection leaves an erased reserve behind if it rotates onto one. -/
theorem makeRoom (spare : ftl.SpareErased) (safe : ftl.IndexSafe) (threeBlocks : 3 ≤ cfg.totalBlocks)
    (rotates : ftl.RotatesOntoErased) (made : ftl.makeRoom = .ok room) : room.SpareErased := by
  refine makeRoom_rule made (fun _ _ => True) SpareErased ?stay ?adopt ?init ?forget ?move ?reclaim
  case stay => exact fun _ => spare
  case adopt =>
    intro full noInvalid
    have next := rotates full
    simp only [nextReserve, noInvalid, if_true] at next
    exact ⟨next, fun p _ => spare.reserve p⟩
  case init => exact fun _ => trivial
  case forget => exact fun _ _ _ _ _ _ _ => trivial
  case move => exact fun _ _ _ _ _ _ _ => trivial
  case reclaim =>
    intro migrated collects migration _
    have next := rotates collects.full
    simp only [nextReserve, collects.found, if_false] at next
    constructor
    · intro p
      -- The new reserve is neither the victim nor the block the pages were migrated into.
      have notVictim := rotateReserve_ne (by omega) collects.victimLt ftl.reserveBlockIdx
      have notReserve := rotateReserve_ne_reserve ftl.selectVictim.1 threeBlocks safe.reserveBlock
      simp only [reclaimed, migration.reserve]
      rw [FlashModel.eraseBlock_isPageProgrammed_of_ne notVictim.symm,
        (migration.elsewhere _ p fun reached => notReserve reached.1).1]
      exact next p
    · exact fun p _ => FlashModel.eraseBlock_erased p

/-- Occupying the next page of the active block keeps the spare pages erased. -/
theorem occupyPage (spare : ftl.SpareErased) (safe : ftl.IndexSafe) (buf : Page)
    (tenants : List Tenant) (packs raws : Nat) :
    (ftl.occupyPage buf tenants packs raws).SpareErased := by
  constructor
  · intro p
    have other : ¬(ftl.reserveBlockIdx = ftl.activeBlockIdx ∧ p = ftl.activePageIdx) :=
      fun same => safe.distinct same.1.symm
    exact (FlashModel.programPage_isPageProgrammed_of_ne other).trans (spare.reserve p)
  · intro p beyond
    have later : ftl.activePageIdx < p := beyond
    have other : ¬(ftl.activeBlockIdx = ftl.activeBlockIdx ∧ p = ftl.activePageIdx) :=
      fun same => Nat.ne_of_gt later same.2
    exact (FlashModel.programPage_isPageProgrammed_of_ne other).trans
      (spare.active p (Nat.le_of_lt later))

end SpareErased

/-- The invariant of the runs that rotate onto erased blocks. -/
structure ProgramsErased (ftl : FtlController cfg lbas) : Prop where
  safe : ftl.IndexSafe
  spare : ftl.SpareErased
  accepted : ∀ call ∈ ftl.flash.programCalls, call.accepted = true

section Runs

variable {ftl ftl' : FtlController cfg lbas}

/-- A program site that rotates onto an erased block keeps the invariant. -/
theorem programsErased_keptByProgram (threeBlocks : 3 ≤ cfg.totalBlocks)
    (onePage : 1 ≤ cfg.pagesPerBlock) :
    KeptByProgram lz4 (fun _ (s : FtlController cfg lbas) => s.ProgramsErased)
      fun _ s => s.RotatesOntoErased := by
  intro s write buf tenants packs raws write' room erased rotates site made inside _
  rcases erased.safe.makeRoom (by omega) onePage with ⟨room', made', roomSafe, _⟩
  obtain rfl : room = room' := Except.ok.inj (made.symm.trans made')
  have roomSpare : room.SpareErased := erased.spare.makeRoom erased.safe threeBlocks rotates made
  refine ⟨roomSafe.occupyPage inside (site.sizeSafe erased.safe), roomSpare.occupyPage roomSafe _ _ _ _,
    ?_⟩
  rcases programCalls_of_site erased.safe made inside buf tenants packs raws with
    ⟨calls, logged, accepted⟩
  rw [logged, List.forall_mem_append]
  exact ⟨erased.accepted, accepted.mpr erased.spare.targetErased⟩

theorem ProgramsErased.beginWrite (erased : ftl.ProgramsErased) (lba : Nat) :
    (ftl.beginWrite lba).ProgramsErased := by
  refine ⟨erased.safe.beginWrite lba, erased.spare.beginWrite lba, ?_⟩
  rw [beginWrite_programCalls]
  exact erased.accepted

/-- A call whose collections rotate onto erased blocks keeps the invariant. -/
theorem ProgramsErased.call (erased : ftl.ProgramsErased) (threeBlocks : 3 ≤ cfg.totalBlocks)
    (onePage : 1 ≤ cfg.pagesPerBlock) {hostCall : HostCall} {ok : Bool}
    (rotates : AtEveryProgram lz4 (fun _ s => s.RotatesOntoErased) ftl hostCall)
    (returned : ftl.call lz4 hostCall = .ok (ftl', ok)) : ftl'.ProgramsErased := by
  refine call_rule (I := fun _ s => s.ProgramsErased) (Q := fun _ s => s.RotatesOntoErased) returned
    (fun lba _ _ => erased.beginWrite lba) (fun _ => erased) rotates ?read ?zero ?stage
    (programsErased_keptByProgram threeBlocks onePage)
  case read =>
    intro s flash erased same
    refine ⟨erased.safe.read flash, erased.spare.congr (same.isPageProgrammed_eq) rfl rfl rfl, ?_⟩
    simpa [same.programCalls] using erased.accepted
  case zero =>
    exact fun s lba src erased _ _ => ⟨erased.safe.zeroed lba,
      erased.spare.congr (fun _ _ => rfl) rfl rfl rfl, erased.accepted⟩
  case stage =>
    intro s lba src data erased inside _ nonzero half _
    exact ⟨erased.safe.stage inside (compress_half_size nonzero half) half,
      erased.spare.congr (fun _ _ => rfl) rfl rfl rfl, erased.accepted⟩

/-- The spare pages are erased at every place where the call starts a collection or programs a page. -/
theorem ProgramsErased.atEveryProgram (erased : ftl.ProgramsErased)
    (threeBlocks : 3 ≤ cfg.totalBlocks) (onePage : 1 ≤ cfg.pagesPerBlock) {hostCall : HostCall}
    (rotates : AtEveryProgram lz4 (fun _ s => s.RotatesOntoErased) ftl hostCall) :
    AtEveryProgram lz4 (fun _ s => s.SpareErased) ftl hostCall := by
  have kept : AtEveryProgram lz4 (fun _ (s : FtlController cfg lbas) => s.ProgramsErased) ftl hostCall :=
    atEveryProgram_rule (fun lba _ _ => erased.beginWrite lba) (fun _ => erased) rotates
      (programsErased_keptByProgram threeBlocks onePage)
  exact kept.imp fun _ _ erased => erased.spare

/-- In a run whose collections all rotate the reserve pointer onto an entirely erased block, every program was
    accepted; the reserve is erased and the active block is erased from the page pointer on, at the end
    of the run and at every collection and program of a further such call. -/
theorem trace_programs_erased {capacity : Nat} {events : List (HostCall × Bool)}
    {ftl : FtlController cfg (lbaCount capacity)} (threeBlocks : 3 ≤ cfg.totalBlocks)
    (onePage : 1 ≤ cfg.pagesPerBlock)
    (trace : Trace (FtlController.call lz4)
      (AtEveryProgram lz4 fun _ s => s.RotatesOntoErased) (FtlController.fresh cfg capacity)
      events ftl) :
    (∀ call ∈ ftl.flash.programCalls, call.accepted = true) ∧ ftl.SpareErased ∧
      ∀ hostCall, AtEveryProgram lz4 (fun _ s => s.RotatesOntoErased) ftl hostCall →
        AtEveryProgram lz4 (fun _ s => s.SpareErased) ftl hostCall := by
  have erased : ftl.ProgramsErased := by
    refine trace.invariant (fun _ s => s.ProgramsErased) ?init ?keeps
    case init =>
      have safe := IndexSafe.fresh capacity (by omega : 2 ≤ cfg.totalBlocks) onePage
      exact ⟨safe, ⟨FlashModel.isPageProgrammed_fresh _, fun p _ => FlashModel.isPageProgrammed_fresh _ p⟩,
        by simp [FtlController.fresh]⟩
    case keeps =>
      exact fun _ _ _ _ _ erased rotates returned => erased.call threeBlocks onePage rotates returned
  exact ⟨erased.accepted, erased.spare,
    fun _ rotates => erased.atEveryProgram threeBlocks onePage rotates⟩

end Runs

/-- Up to the third of the alternate writes every collection rotates onto an erased block. -/
theorem threeWrites_programs_erased :
    ∃ ftl : FtlController fourPages (lbaCount 8192), ftl.gcCount = 1 ∧
      (∀ call ∈ ftl.flash.programCalls, call.accepted = true) ∧ ftl.SpareErased ∧
      ∀ hostCall, AtEveryProgram constantLz4 (fun _ s => s.RotatesOntoErased) ftl hostCall →
        AtEveryProgram constantLz4 (fun _ s => s.SpareErased) ftl hostCall := by
  rcases (Option.any_eq_true _ _).mp
      (by decide +kernel : (execute (FtlController.call constantLz4)
        (AtEveryProgram constantLz4 fun _ s => s.RotatesOntoErased) (alternateWrites.take 3)
        ([], FtlController.fresh fourPages 8192)).any fun run => run.2.gcCount == 1) with
    ⟨⟨events, ftl⟩, executed, collected⟩
  exact ⟨ftl, by simpa using collected,
    trace_programs_erased (by decide) (by decide) (Trace.nil.execute executed)⟩

/-- The fourth alternate write rotates the reserve pointer onto the programmed block 0, and the program of the
    fifth is refused, with two spare blocks beyond the two LBAs. -/
theorem fifthWrite_refused :
    lbaCount 8192 ≤ (fourPages.totalBlocks - 2) * fourPages.pagesPerBlock ∧
      ∃ ftl : FtlController fourPages (lbaCount 8192),
        Reachable (FtlController.call constantLz4) (FtlController.fresh fourPages 8192) ftl ∧
          ¬∀ call ∈ ftl.flash.programCalls, call.accepted = true := by
  refine ⟨by decide, ?_⟩
  rcases (Option.any_eq_true _ _).mp
      (by decide +kernel : (execute (FtlController.call constantLz4) (fun _ _ => True)
        alternateWrites ([], FtlController.fresh fourPages 8192)).any fun run =>
          !run.2.flash.programCalls.all fun call => call.accepted) with
    ⟨⟨events, ftl⟩, executed, refused⟩
  refine ⟨ftl, ⟨events, Trace.nil.execute executed⟩, fun accepted => ?_⟩
  rw [Bool.not_eq_true', ← Bool.not_eq_true] at refused
  exact refused (List.all_eq_true.mpr accepted)

end FtlController

end Zftl
