/-
Module: Zftl.Controller.StaleCount
Layer: Controller
Purpose: The count the garbage collection decides by. On an array reached by any calls the counter of a block is
  the number of its pages that are programmed and not valid, and the victim is a block with the most of
  them. A collection keeps the counters in agreement with the flags, and takes away as many programmed pages
  as its victim has stale ones.
Imports: Zftl.Controller.Collection, Zftl.Flash.NandArray
Trusted boundary: none
Main exports: PicksStalest, WriteOnce, Tallied.makeRoom, Tallied.makeRoom_programmedPages, trace_writeOnce
Open obligations: none
-/
import Zftl.Controller.Collection
import Zftl.Flash.NandArray

namespace Zftl

open Fallible

variable {cfg : FlashConfig}

/-- The search for a victim finds a block with the most stale pages among those other than the reserve, or finds
    that they have none. -/
structure FlashModel.PicksStalest (flash : FlashModel cfg) {lbas : Nat} (ftl : FtlController cfg lbas) :
    Prop where
  maximal : ∀ b, b < cfg.totalBlocks → b ≠ ftl.reserveBlockIdx →
    flash.stalePages b ≤ ftl.selectVictim.2
  found : ftl.selectVictim.2 ≠ 0 → ftl.selectVictim.1 < cfg.totalBlocks ∧
    ftl.selectVictim.1 ≠ ftl.reserveBlockIdx ∧
    flash.stalePages ftl.selectVictim.1 = ftl.selectVictim.2

/-- The array is write-once until erased: it programs and reads as its history says, valid pages are
    programmed, and the counters are the numbers of stale pages and decide the search for a victim. -/
structure FlashModel.WriteOnce (flash : FlashModel cfg) (events : List (FlashCall × FlashAnswer)) :
    Prop where
  programs : ∀ b p src, (flash.programPage b p (some src)).2 = true ↔
    b < cfg.totalBlocks ∧ p < cfg.pagesPerBlock ∧ sinceErase events b p = none
  reads : ∀ b p dest, b < cfg.totalBlocks → p < cfg.pagesPerBlock →
    (flash.readPage b p dest).2 =
      (true, (sinceErase events b p).getD (Buffer.fill flashPageSize 0xFF))
  programmed : ∀ b p, flash.isPageProgrammed b p = (sinceErase events b p).isSome
  validProgrammed : ∀ b p, flash.isPageValid b p = true → flash.isPageProgrammed b p = true
  counted : ∀ b, b < cfg.totalBlocks → flash.getInvalidCount b = flash.stalePages b
  victim : ∀ {lbas : Nat} (ftl : FtlController cfg lbas), ftl.flash = flash → flash.PicksStalest ftl

namespace FlashModel

variable {flash : FlashModel cfg}

/-- With fewer than 2^32 pages in a block no counter wraps. -/
theorem Tallied.getInvalidCount_eq (tallied : flash.Tallied) (pages : cfg.pagesPerBlock < 2 ^ 32) {b : Nat}
    (inside : b < cfg.totalBlocks) : flash.getInvalidCount b = flash.stalePages b := by
  rw [tallied.counted b inside]
  exact u32_of_lt (Nat.lt_of_le_of_lt (flash.stalePages_le b) pages)

theorem Tallied.picksStalest (tallied : flash.Tallied) (pages : cfg.pagesPerBlock < 2 ^ 32) {lbas : Nat}
    {ftl : FtlController cfg lbas} (same : ftl.flash = flash) : flash.PicksStalest ftl := by
  subst same
  refine ⟨fun b inside other => ?_, fun nonzero => ?_⟩
  · rw [← tallied.getInvalidCount_eq pages inside]
    exact ftl.selectVictim_spec.maximal b inside other
  · obtain ⟨inside, other, count⟩ := ftl.selectVictim_spec.found nonzero
    exact ⟨inside, other, (tallied.getInvalidCount_eq pages inside).symm.trans count⟩

/-! ### Collections -/

section Collections

variable {lbas : Nat} {ftl room : FtlController cfg lbas}

/-- The counters agree with the flags after a move, whatever the program answered. -/
theorem Tallied.movePage (tallied : ftl.flash.Tallied) (victim target p : Nat) :
    (ftl.movePage victim target p).flash.Tallied :=
  (tallied.congr (readPage_blocks ftl.flash victim p _)).programPage _ _ _

/-- The counters agree with the flags after room has been made. -/
theorem Tallied.makeRoom (tallied : ftl.flash.Tallied) (made : ftl.makeRoom = .ok room) :
    room.flash.Tallied :=
  FtlController.makeRoom_rule made (fun _ s => s.flash.Tallied) (fun room => room.flash.Tallied)
    (fun _ => tallied) (fun _ _ => tallied) (fun _ => tallied) (fun _ _ _ _ _ _ kept => kept)
    (fun _ _ _ _ _ _ kept => kept.movePage _ _ _) (fun _ _ _ kept => kept.eraseBlock _)

/-- A move onto an erased page adds a programmed page. -/
theorem movePage_programmedPages {victim target : Nat} (p : Nat)
    (reserveLt : ftl.reserveBlockIdx < cfg.totalBlocks) (targetLt : target < cfg.pagesPerBlock)
    (blank : ftl.flash.isPageProgrammed ftl.reserveBlockIdx target = false) :
    (ftl.movePage victim target p).flash.programmedPages = ftl.flash.programmedPages + 1 := by
  have same := readPage_blocks ftl.flash victim p (Buffer.fill flashPageSize 0)
  rw [← programmedPages_congr same]
  refine programPage_programmedPages ((programPage_accepted _ _ _ _).mpr ⟨reserveLt, targetLt, ?_⟩)
  rwa [readPage_isPageProgrammed]

theorem validBelow_eq_count (flash : FlashModel cfg) (b p : Nat) :
    flash.validBelow b p = Nat.count (fun q => flash.isPageValid b q = true) p := by
  induction p with
  | zero => rfl
  | succ p ih =>
      rw [Nat.count_succ, ← ih]
      cases valid : flash.isPageValid b p with
      | false => simp [validBelow_succ_of_invalid valid]
      | true => simp [validBelow_succ_of_valid valid]

/-- A collection that programs erased pages only takes the stale pages of its victim away. -/
theorem Tallied.makeRoom_programmedPages (tallied : ftl.flash.Tallied) (safe : ftl.IndexSafe)
    (collects : ftl.Collects) (erased : ftl.TargetErased) (made : ftl.makeRoom = .ok room) :
    room.flash.programmedPages + ftl.flash.stalePages ftl.selectVictim.1 =
      ftl.flash.programmedPages := by
  refine FtlController.makeRoom_rule made
    (fun p s => s.flash.programmedPages =
      ftl.flash.programmedPages + ftl.flash.validBelow ftl.selectVictim.1 p)
    (fun room => room.flash.programmedPages + ftl.flash.stalePages ftl.selectVictim.1 =
      ftl.flash.programmedPages)
    ?stay ?adopt ?init ?forget ?move ?reclaim
  case stay => exact fun notFull => absurd notFull (Nat.not_lt.mpr collects.full)
  case adopt => exact fun _ noInvalid => absurd noInvalid collects.found
  case init => exact fun _ => rfl
  case forget =>
    intro p s _ _ _ invalid counted
    rw [validBelow_succ_of_invalid invalid]
    exact counted
  case move =>
    intro p s collects pageLt migration valid counted
    have reserveLt : s.reserveBlockIdx < cfg.totalBlocks := by
      rw [migration.reserve]
      exact safe.reserveBlock
    rw [movePage_programmedPages p reserveLt (Nat.lt_of_le_of_lt (validBelow_le _ _ _) pageLt)
      (erased.blank collects pageLt migration valid), counted, validBelow_succ_of_valid valid,
      Nat.add_assoc]
  case reclaim =>
    intro migrated collects migration counted
    have removed : (migrated.flash.eraseBlock ftl.selectVictim.1).1.programmedPages + _ = _ :=
      eraseBlock_programmedPages collects.victimLt
    have untouched : migrated.flash.programmedIn ftl.selectVictim.1 =
        ftl.flash.programmedIn ftl.selectVictim.1 :=
      count_congr fun p _ => by
        rw [(migration.elsewhere _ p fun reached => collects.apart reached.1).1]
    have split := tallied.programmedIn_eq ftl.selectVictim.1
    rw [← validBelow_eq_count] at split
    show (migrated.flash.eraseBlock ftl.selectVictim.1).1.programmedPages + _ = _
    omega

end Collections

/-! ### Any calls -/

/-- Whatever the calls, the model is a write-once-until-erase array. -/
theorem trace_writeOnce {events : List (FlashCall × FlashAnswer)}
    (fullPage : cfg.pageSizeBytes = flashPageSize) (pages : cfg.pagesPerBlock < 2 ^ 32)
    (trace : Trace FlashModel.call (fun _ _ => True) {} events flash) : flash.WriteOnce events := by
  have represents : Represents flash (sinceErase events) := trace_represents fullPage trace
  refine ⟨fun b p src => ?_, fun b p dest blockLt pageLt => ?_, represents.programmed,
    represents.tallied.validProgrammed, fun b => represents.tallied.getInvalidCount_eq pages,
    fun ftl => represents.tallied.picksStalest pages⟩
  · rw [programPage_accepted, represents.programmed, Option.isSome_eq_false_iff, Option.isNone_iff_eq_none]
  · have answered := represents.readPage fullPage b p dest
    rw [NandArray.answer, if_pos ⟨blockLt, pageLt⟩, FlashAnswer.mk.injEq, Option.some_inj] at answered
    exact Prod.ext answered.1 answered.2

/-- A page is programmed twice, invalidated twice and its neighbour invalidated before it is programmed. -/
def repeatedCalls : List FlashCall :=
  [.programPage 0 0 (some (Buffer.fill flashPageSize 1)),
    .programPage 0 0 (some (Buffer.fill flashPageSize 2)), .invalidatePage 1 0, .invalidatePage 0 0,
    .invalidatePage 0 0, .programPage 1 0 (some (Buffer.fill flashPageSize 3)), .eraseBlock 1,
    .programPage 7 0 (some (Buffer.fill flashPageSize 4)), .readPage 0 0 (Buffer.fill flashPageSize 0)]

theorem repeatedCalls_writeOnce :
    ∃ (events : List (FlashCall × FlashAnswer)) (flash : FlashModel FtlController.fourPages),
      events.map Prod.fst = repeatedCalls ∧ flash.getInvalidCount 0 = 1 ∧ flash.WriteOnce events := by
  rcases (Option.any_eq_true _ _).mp
      (by decide +kernel : (execute FlashModel.call (fun _ _ => True) repeatedCalls
        ([], ({} : FlashModel FtlController.fourPages))).any fun run => run.2.getInvalidCount 0 == 1) with
    ⟨⟨events, flash⟩, executed, observed⟩
  exact ⟨events, flash, (Trace.nil.execute_inputs executed).2, by simpa using observed,
    trace_writeOnce (by decide) (by decide) (Trace.nil.execute executed)⟩

end FlashModel

end Zftl
