/-
Module: Zftl.Controller.Telemetry
Layer: Controller
Purpose: `ResetTelemetry` between host calls. No function of the controller or of the array reads a counter, so two
  controllers that differ in their counters answer every call alike and stay alike: taking the resets out of a
  run changes no answer. What the counters say after a reset is an account of the calls since, up to the block and
  the staged half page that were begun before it.
Imports: Zftl.Controller.Wear, Zftl.Lib.Views
Trusted boundary: human-reviewed translation of both `ResetTelemetry` functions
Main exports: FlashModel.resetTelemetry, FtlController.resetTelemetry, Command, command
Open obligations: none
-/
import Zftl.Controller.Wear
import Zftl.Lib.Views

namespace Zftl

open Fallible Lz4Compressor

/-! ### The array -/

namespace FlashModel

variable {cfg : FlashConfig}

/-- `FlashModel::ResetTelemetry`: the erase counts of the blocks stay. -/
def resetTelemetry (flash : FlashModel cfg) : FlashModel cfg :=
  { flash with totalPagesProgrammed := 0, totalPagesRead := 0, totalBlocksErased := 0 }

theorem resetTelemetry_eq_iff {left right : FlashModel cfg} :
    left.resetTelemetry = right.resetTelemetry ↔
      left.blocks = right.blocks ∧ left.programCalls = right.programCalls := by
  simp [resetTelemetry]

section Congr

variable {left right : FlashModel cfg} (same : left.resetTelemetry = right.resetTelemetry)
include same

theorem programPage_congr (blockIdx pageIdx : Nat) (src : Page) :
    (left.programPage blockIdx pageIdx (some src)).1.resetTelemetry =
      (right.programPage blockIdx pageIdx (some src)).1.resetTelemetry := by
  obtain ⟨blocks, calls⟩ := resetTelemetry_eq_iff.mp same
  by_cases out : blockIdx ≥ cfg.totalBlocks ∨ pageIdx ≥ cfg.pagesPerBlock
  · simp [programPage, resetTelemetry, out, recordCall, blocks, calls]
  · cases programmed : ((right.blocks blockIdx).pages pageIdx).isProgrammed <;>
      simp [programPage, resetTelemetry, out, programmed, recordCall, blocks, calls]

theorem readPage_congr (blockIdx pageIdx : Nat) (dest : Page) :
    (left.readPage blockIdx pageIdx dest).1.resetTelemetry =
        (right.readPage blockIdx pageIdx dest).1.resetTelemetry ∧
      (left.readPage blockIdx pageIdx dest).2 = (right.readPage blockIdx pageIdx dest).2 := by
  obtain ⟨blocks, calls⟩ := resetTelemetry_eq_iff.mp same
  by_cases out : blockIdx ≥ cfg.totalBlocks ∨ pageIdx ≥ cfg.pagesPerBlock <;>
    simp [readPage, resetTelemetry, out, blocks, calls]

theorem invalidatePage_congr (blockIdx pageIdx : Nat) :
    (left.invalidatePage blockIdx pageIdx).resetTelemetry =
      (right.invalidatePage blockIdx pageIdx).resetTelemetry := by
  obtain ⟨blocks, calls⟩ := resetTelemetry_eq_iff.mp same
  by_cases out : blockIdx ≥ cfg.totalBlocks ∨ pageIdx ≥ cfg.pagesPerBlock
  · simpa [invalidatePage, out] using same
  · cases valid : (right.blocks blockIdx).pageValid pageIdx <;>
      simp [invalidatePage, resetTelemetry, out, valid, blocks, calls]

theorem eraseBlock_congr (blockIdx : Nat) :
    (left.eraseBlock blockIdx).1.resetTelemetry = (right.eraseBlock blockIdx).1.resetTelemetry := by
  obtain ⟨blocks, calls⟩ := resetTelemetry_eq_iff.mp same
  by_cases out : blockIdx ≥ cfg.totalBlocks
  · simpa [eraseBlock, out] using same
  · simp [eraseBlock, resetTelemetry, out, blocks, calls]

end Congr

end FlashModel

namespace FtlController

variable {cfg : FlashConfig} {lbas : Nat}

/-- `FTLController::ResetTelemetry`. -/
def resetTelemetry (ftl : FtlController cfg lbas) : FtlController cfg lbas :=
  { ftl with
    hostWrites := 0
    hostReads := 0
    zeroBlocks := 0
    halfPagePacks := 0
    rawFullPages := 0
    gcCount := 0
    gcMigratedPages := 0
    flash := ftl.flash.resetTelemetry }

/-- The calls of a host that also resets the telemetry. -/
inductive Command where
  | host (hostCall : HostCall)
  | resetTelemetry

/-- One host call with all it returned: the flag and, for a read, the destination. -/
def answer (lz4 : Lz4) (ftl : FtlController cfg lbas) :
    HostCall → Except Fault (FtlController cfg lbas × Bool × Option Page)
  | .writeBlock lba src4kb => do
      let (ftl, ok) ← ftl.writeBlock lz4 lba src4kb
      .ok (ftl, ok, none)
  | .readBlock lba dest4kb => ftl.readBlock lz4 lba dest4kb
  | .flushStagedWrites => do
      let ftl ← ftl.flushStagedWrites
      .ok (ftl, true, none)

/-- One command and what it returned. -/
def command (lz4 : Lz4) (ftl : FtlController cfg lbas) :
    Command → Except Fault (FtlController cfg lbas × Bool × Option Page)
  | .host hostCall => ftl.answer lz4 hostCall
  | .resetTelemetry => .ok (ftl.resetTelemetry, true, none)

/-! ### No call reads a counter -/

theorem resetTelemetry_eq_iff {left right : FtlController cfg lbas} :
    left.resetTelemetry = right.resetTelemetry ↔
      left.flash.resetTelemetry = right.flash.resetTelemetry ∧ left.lbaTable = right.lbaTable ∧
        left.activeBlockIdx = right.activeBlockIdx ∧ left.activePageIdx = right.activePageIdx ∧
        left.reserveBlockIdx = right.reserveBlockIdx ∧ left.stagedHalf = right.stagedHalf ∧
        left.blockPageOwners = right.blockPageOwners := by
  simp [resetTelemetry]

section Agreement

variable {left right : FtlController cfg lbas} (same : left.resetTelemetry = right.resetTelemetry)
include same

/-- An entry made of what is left by a reset. -/
theorem setEntry_agree (lba : Nat) (entry : FtlController cfg lbas → MappingEntry)
    (reads : ∀ s, entry s.resetTelemetry = entry s) :
    Agree resetTelemetry (left.setEntry lba (entry left)) (right.setEntry lba (entry right)) := by
  rw [congr_of_view reads same]
  exact .check (.ok (congrArg (fun s => s.withEntry lba (entry right)) same))

theorem setOwners_agree (blockIdx pageIdx : Nat) (owners : List PageOwner) :
    Agree resetTelemetry (left.setOwners blockIdx pageIdx owners) (right.setOwners blockIdx pageIdx owners) :=
  .check (.check (.ok (congrArg (fun s => s.withOwners blockIdx pageIdx owners) same)))

theorem pushOwner_agree (owner : PageOwner) :
    Agree resetTelemetry (left.pushOwner left.activeBlockIdx left.activePageIdx owner)
      (right.pushOwner right.activeBlockIdx right.activePageIdx owner) := by
  obtain ⟨_, _, block, page, _, _, owners⟩ := resetTelemetry_eq_iff.mp same
  rw [pushOwner, pushOwner, block, page, owners]
  exact setOwners_agree same _ _ _

theorem programActivePage_congr (src : Page) :
    (left.programActivePage src).resetTelemetry = (right.programActivePage src).resetTelemetry := by
  obtain ⟨array, table, block, page, reserve, staged, owners⟩ := resetTelemetry_eq_iff.mp same
  rw [resetTelemetry_eq_iff, programActivePage, programActivePage, block, page]
  exact ⟨FlashModel.programPage_congr array _ _ _, table, rfl, rfl, reserve, staged, owners⟩

theorem migratePage_agree (victim reserveWritePage p : Nat) :
    Agree (Prod.map resetTelemetry id) (migratePage victim (left, reserveWritePage) p)
      (migratePage victim (right, reserveWritePage) p) := by
  obtain ⟨array, table, block, page, reserve, staged, owners⟩ := resetTelemetry_eq_iff.mp same
  have blocks := (FlashModel.resetTelemetry_eq_iff.mp array).1
  have valid : left.flash.isPageValid victim p = right.flash.isPageValid victim p := by
    simp only [FlashModel.isPageValid, blocks]
  simp only [migratePage, valid]
  cases right.flash.isPageValid victim p with
  | false =>
      exact (setOwners_agree same victim p []).bind fun _ _ same' => .ok (congrArg (·, reserveWritePage) same')
  | true =>
      obtain ⟨readArray, bytes⟩ := FlashModel.readPage_congr array victim p (Buffer.fill flashPageSize 0)
      simp only [bytes, table, reserve, owners]
      refine .check (.check (Agree.bind (setOwners_agree ?_ _ _ _) fun _ _ moved => ?_))
      · rw [resetTelemetry_eq_iff]
        exact ⟨FlashModel.programPage_congr readArray _ _ _, rfl, block, page, rfl, staged, rfl⟩
      · exact (setOwners_agree moved victim p []).bind fun _ _ same' =>
          .ok (congrArg (·, reserveWritePage + 1) same')

theorem migration_agree (victim : Nat) :
    Agree (Prod.map resetTelemetry id) ((List.range cfg.pagesPerBlock).foldlM (migratePage victim) (left, 0))
      ((List.range cfg.pagesPerBlock).foldlM (migratePage victim) (right, 0)) := by
  refine Agree.foldlM ?_ _ (congrArg (·, 0) same)
  rintro ⟨s, k⟩ ⟨s', k'⟩ p same'
  obtain ⟨alike, rfl⟩ : s.resetTelemetry = s'.resetTelemetry ∧ k = k' := Prod.mk.inj same'
  exact migratePage_agree alike victim k p

theorem reclaimVictim_agree (victim : Nat) :
    Agree resetTelemetry (left.reclaimVictim victim) (right.reclaimVictim victim) := by
  obtain ⟨array, table, _, _, reserve, staged, owners⟩ := resetTelemetry_eq_iff.mp same
  refine .check (.ok ?_)
  rw [resetTelemetry_eq_iff]
  exact ⟨FlashModel.eraseBlock_congr array victim, table, rfl, rfl,
    congrArg (rotateReserve cfg.totalBlocks · victim) reserve, staged,
    congrArg (Function.update · victim fun _ => []) owners⟩

theorem selectVictim_congr : left.selectVictim = right.selectVictim := by
  obtain ⟨array, _, _, _, reserve, _, _⟩ := resetTelemetry_eq_iff.mp same
  have counts : left.flash.getInvalidCount = right.flash.getInvalidCount := funext fun b => by
    rw [FlashModel.getInvalidCount, FlashModel.getInvalidCount, (FlashModel.resetTelemetry_eq_iff.mp array).1]
  rw [selectVictim, selectVictim, counts, reserve]

theorem adoptReserve_congr : left.adoptReserve.resetTelemetry = right.adoptReserve.resetTelemetry := by
  obtain ⟨array, table, _, _, reserve, staged, owners⟩ := resetTelemetry_eq_iff.mp same
  rw [resetTelemetry_eq_iff]
  exact ⟨array, table, reserve, rfl, congrArg (fun block => (block + 1) % cfg.totalBlocks) reserve, staged, owners⟩

theorem makeRoom_agree : Agree resetTelemetry left.makeRoom right.makeRoom := by
  obtain ⟨_, _, _, page, _, _, _⟩ := resetTelemetry_eq_iff.mp same
  rw [makeRoom_eq, makeRoom_eq, runGarbageCollectionIfNeeded, runGarbageCollectionIfNeeded,
    selectVictim_congr same]
  by_cases room : right.activePageIdx < cfg.pagesPerBlock
  · rw [if_pos room, if_pos (page.trans_lt room)]
    exact .ok same
  · rw [if_neg room, if_neg (page ▸ room)]
    by_cases noInvalid : right.selectVictim.2 = 0
    · simpa only [noInvalid, if_true] using Agree.ok (adoptReserve_congr same)
    · simp only [noInvalid, if_false]
      have begun : ({ left with gcCount := left.gcCount + 1 } : FtlController cfg lbas).resetTelemetry =
          ({ right with gcCount := right.gcCount + 1 } : FtlController cfg lbas).resetTelemetry := same
      exact (migration_agree begun _).bind fun _ _ same' => reclaimVictim_agree (Prod.mk.inj same').1 _

theorem flushStagedWrites_agree : Agree resetTelemetry left.flushStagedWrites right.flushStagedWrites := by
  obtain ⟨_, _, _, _, _, staged, _⟩ := resetTelemetry_eq_iff.mp same
  rw [flushStagedWrites, flushStagedWrites, staged]
  cases right.stagedHalf with
  | none => exact .ok same
  | some block =>
      refine (Agree.refl id _).bind fun buf _ copied => ?_
      obtain rfl := copied
      refine (makeRoom_agree same).bind fun _ _ made => ?_
      refine (setEntry_agree (programActivePage_congr made buf) block.lba
        (fun s =>
          { state := .compressedHalfPage, blockIdx := u32 s.activeBlockIdx, pageIdx := u32 s.activePageIdx
            subSlot := 0, compressedSize := block.compSize }) fun _ => rfl).bind fun _ _ entered => ?_
      refine (pushOwner_agree entered ⟨block.lba, 0⟩).bind fun _ _ listed => ?_
      exact .ok (congrArg (β := FtlController cfg lbas)
        (fun s => { s with activePageIdx := s.activePageIdx + 1, stagedHalf := none }) listed)

theorem packWithStaged_agree (staged : StagedHalfPage) (lba : Nat) (comp : CompressedBlock) :
    Agree resetTelemetry (left.packWithStaged staged lba comp) (right.packWithStaged staged lba comp) := by
  refine (Agree.refl id _).bind fun half _ copied => ?_
  obtain rfl := copied
  refine (Agree.refl id _).bind fun buf _ copied => ?_
  obtain rfl := copied
  refine (makeRoom_agree same).bind fun _ _ made => ?_
  refine (setEntry_agree (programActivePage_congr made buf) staged.lba
    (fun s =>
      { state := .compressedHalfPage, blockIdx := u32 s.activeBlockIdx, pageIdx := u32 s.activePageIdx
        subSlot := 0, compressedSize := staged.compSize }) fun _ => rfl).bind fun _ _ first => ?_
  refine (setEntry_agree first lba
    (fun s =>
      { state := .compressedHalfPage, blockIdx := u32 s.activeBlockIdx, pageIdx := u32 s.activePageIdx
        subSlot := 1, compressedSize := comp.compressedSize }) fun _ => rfl).bind fun _ _ second => ?_
  refine (pushOwner_agree second ⟨staged.lba, 0⟩).bind fun _ _ front => ?_
  refine (pushOwner_agree front ⟨lba, 1⟩).bind fun _ _ back => ?_
  exact .ok (congrArg (β := FtlController cfg lbas)
    (fun s => { s with stagedHalf := none, activePageIdx := s.activePageIdx + 1 }) back)

theorem writeFullPage_agree (lba : Nat) (comp : CompressedBlock) :
    Agree resetTelemetry (left.writeFullPage lba comp) (right.writeFullPage lba comp) := by
  obtain ⟨_, _, _, _, _, staged, _⟩ := resetTelemetry_eq_iff.mp same
  have flush : Agree resetTelemetry (if left.stagedHalf.isSome then left.flushStagedWrites else .ok left)
      (if right.stagedHalf.isSome then right.flushStagedWrites else .ok right) := by
    rw [staged]
    by_cases waiting : right.stagedHalf.isSome
    · rw [if_pos waiting, if_pos waiting]
      exact flushStagedWrites_agree same
    · rw [if_neg waiting, if_neg waiting]
      exact .ok same
  refine flush.bind fun _ _ flushed => ?_
  refine (makeRoom_agree flushed).bind fun _ _ made => ?_
  refine (setEntry_agree (programActivePage_congr made comp.data) lba
    (fun s =>
      { state := .rawFullPage, blockIdx := u32 s.activeBlockIdx, pageIdx := u32 s.activePageIdx
        subSlot := 0, compressedSize := comp.compressedSize }) fun _ => rfl).bind fun _ _ entered => ?_
  refine (pushOwner_agree entered ⟨lba, 0⟩).bind fun _ _ listed => ?_
  exact .ok (congrArg (β := FtlController cfg lbas) (fun s => { s with activePageIdx := s.activePageIdx + 1 }) listed)

theorem storeBlock_agree (lba : Nat) (comp : CompressedBlock) :
    Agree resetTelemetry (left.storeBlock lba comp) (right.storeBlock lba comp) := by
  obtain ⟨_, table, _, _, _, staged, _⟩ := resetTelemetry_eq_iff.mp same
  rw [storeBlock, storeBlock, staged]
  by_cases zero : comp.isZeroBlock
  · rw [if_pos zero, if_pos zero]
    refine (setEntry_agree same lba (fun s => { s.lbaTable lba with state := .sparseZero, compressedSize := 0 })
      fun _ => rfl).bind fun _ _ entered => ?_
    exact .ok entered
  · rw [if_neg zero, if_neg zero]
    by_cases half : comp.compressedSize ≤ halfPageSize
    · rw [if_pos half, if_pos half]
      cases right.stagedHalf with
      | some block => exact packWithStaged_agree same block lba comp
      | none =>
          refine (Agree.refl id _).bind fun data _ copied => ?_
          obtain rfl := copied
          exact .ok (congrArg (β := FtlController cfg lbas)
            (fun s => { s with stagedHalf := some ⟨lba, comp.compressedSize, data⟩ }) same)
    · rw [if_neg half, if_neg half]
      exact writeFullPage_agree same lba comp

theorem beginWrite_congr (lba : Nat) :
    (left.beginWrite lba).resetTelemetry = (right.beginWrite lba).resetTelemetry := by
  obtain ⟨array, table, block, page, reserve, staged, owners⟩ := resetTelemetry_eq_iff.mp same
  have invalidated : (left.invalidateOld lba).resetTelemetry = (right.invalidateOld lba).resetTelemetry := by
    by_cases mapped : (right.lbaTable lba).Mapped
    · simpa only [invalidateOld, table, mapped, if_true] using FlashModel.invalidatePage_congr array _ _
    · simpa only [invalidateOld, table, mapped, if_false] using array
  have kept : (if left.stagedLba = some lba then none else left.stagedHalf) =
      if right.stagedLba = some lba then none else right.stagedHalf := by
    rw [stagedLba, stagedLba, staged]
  rw [beginWrite_eq, beginWrite_eq, resetTelemetry_eq_iff]
  exact ⟨invalidated, table, block, page, reserve, kept, owners⟩

theorem writeBlock_agree (lz4 : Lz4) (lba : Nat) (src4kb : Option Page) :
    Agree (Prod.map resetTelemetry id) (left.writeBlock lz4 lba src4kb) (right.writeBlock lz4 lba src4kb) := by
  cases src4kb with
  | none => exact .ok (congrArg (·, false) same)
  | some src =>
      simp only [writeBlock]
      by_cases refused : lba ≥ lbas
      · rw [if_pos refused, if_pos refused]
        exact .ok (congrArg (·, false) same)
      · rw [if_neg refused, if_neg refused]
        refine .check ((storeBlock_agree (beginWrite_congr same lba) lba _).bind fun _ _ stored => ?_)
        exact .ok (congrArg (·, true) stored)

end Agreement

theorem readBlock_resetTelemetry (lz4 : Lz4) (ftl : FtlController cfg lbas) (lba : Nat) (dest4kb : Option Page) :
    Agree (Prod.map resetTelemetry id) (ftl.resetTelemetry.readBlock lz4 lba dest4kb)
      (ftl.readBlock lz4 lba dest4kb) := by
  cases dest4kb with
  | none => exact .ok rfl
  | some dest =>
      simp only [readBlock]
      by_cases refused : lba ≥ lbas
      · rw [if_pos refused, if_pos refused]
        exact .ok rfl
      · rw [if_neg refused, if_neg refused, show ftl.resetTelemetry.stagedHalf = ftl.stagedHalf from rfl]
        cases ftl.stagedHalf.filter (·.lba = lba) with
        | some staged =>
            refine (Agree.refl id _).bind fun unpacked _ alike => ?_
            obtain rfl := alike
            exact .ok rfl
        | none =>
            have array : ftl.flash.resetTelemetry.resetTelemetry = ftl.flash.resetTelemetry := rfl
            refine .check ?_
            rw [show ftl.resetTelemetry.lbaTable = ftl.lbaTable from rfl]
            cases (ftl.lbaTable lba).state with
            | unmapped => exact .ok rfl
            | sparseZero => exact .ok rfl
            | rawFullPage =>
                obtain ⟨readArray, bytes⟩ := FlashModel.readPage_congr array (ftl.lbaTable lba).blockIdx
                  (ftl.lbaTable lba).pageIdx dest
                have state := congrArg (β := FtlController cfg lbas)
                  (fun flash => { ftl.resetTelemetry with flash := flash }) readArray
                exact .ok (Prod.ext state (congrArg (fun read => (read.1, some read.2)) bytes))
            | compressedHalfPage =>
                obtain ⟨readArray, bytes⟩ := FlashModel.readPage_congr array (ftl.lbaTable lba).blockIdx
                  (ftl.lbaTable lba).pageIdx (Buffer.fill flashPageSize 0)
                have state := congrArg (β := FtlController cfg lbas)
                  (fun flash => { ftl.resetTelemetry with flash := flash }) readArray
                simp only [show ftl.resetTelemetry.flash = ftl.flash.resetTelemetry from rfl, bytes]
                by_cases refused' : (!(ftl.flash.readPage (ftl.lbaTable lba).blockIdx (ftl.lbaTable lba).pageIdx
                    (Buffer.fill flashPageSize 0)).2.1) = true
                · rw [if_pos refused', if_pos refused']
                  exact .ok (congrArg (·, false, some dest) state)
                · rw [if_neg refused', if_neg refused']
                  refine (Agree.refl id _).bind fun unpacked _ alike => ?_
                  obtain rfl := alike
                  exact .ok (congrArg (·, unpacked.1, some unpacked.2) state)

/-- Controllers that differ in their counters answer a host call alike, and still differ in nothing else. -/
theorem answer_agree (lz4 : Lz4) {left right : FtlController cfg lbas}
    (same : left.resetTelemetry = right.resetTelemetry) (hostCall : HostCall) :
    Agree (Prod.map resetTelemetry id) (left.answer lz4 hostCall) (right.answer lz4 hostCall) := by
  cases hostCall with
  | writeBlock lba src4kb =>
      refine (writeBlock_agree same lz4 lba src4kb).bind fun first second alike => ?_
      obtain ⟨stored, acknowledged⟩ := Prod.mk.inj alike
      exact .ok (Prod.ext stored (congrArg (·, none) acknowledged))
  | readBlock lba dest4kb =>
      exact .of_view (f := fun s => s.readBlock lz4 lba dest4kb)
        (fun s => readBlock_resetTelemetry lz4 s lba dest4kb) same
  | flushStagedWrites =>
      exact (flushStagedWrites_agree same).bind fun _ _ flushed => .ok (congrArg (·, true, none) flushed)

theorem call_of_answer {lz4 : Lz4} {ftl ftl' : FtlController cfg lbas} {hostCall : HostCall} {ok : Bool}
    {dest' : Option Page} (answered : ftl.answer lz4 hostCall = .ok (ftl', ok, dest')) :
    ftl.call lz4 hostCall = .ok (ftl', ok) := by
  cases hostCall with
  | writeBlock lba src4kb =>
      simp only [answer, bind_eq_ok, ok_eq_ok, Prod.mk.injEq, Prod.exists] at answered
      obtain ⟨_, _, wrote, rfl, rfl, _⟩ := answered
      exact wrote
  | readBlock lba dest4kb => simp only [call, show ftl.readBlock lz4 lba dest4kb = _ from answered, ok_bind]
  | flushStagedWrites =>
      simp only [answer, bind_eq_ok, ok_eq_ok, Prod.mk.injEq] at answered
      obtain ⟨_, flushed, rfl, rfl, _⟩ := answered
      simp only [call, flushed, ok_bind]

/-! ### Runs with resets -/

/-- The host call of a command. -/
def Command.hostCall : Command → Option HostCall
  | .host hostCall => some hostCall
  | .resetTelemetry => none

/-- The host calls of a run and what they returned. -/
def hostEvents (events : List (Command × Bool × Option Page)) : List (HostCall × Bool × Option Page) :=
  events.filterMap fun event => event.1.hostCall.map (·, event.2)

/-- A run with resets answers the host as the run without them, and ends with the same data: only the counters
    can tell. -/
theorem trace_withoutResets {lz4 : Lz4} {capacity : Nat} {events : List (Command × Bool × Option Page)}
    {ftl : FtlController cfg (lbaCount capacity)}
    (trace : Trace (command lz4) (fun _ _ => True) (FtlController.fresh cfg capacity) events ftl) :
    ∃ quiet : FtlController cfg (lbaCount capacity),
      Trace (answer lz4) (fun _ _ => True) (FtlController.fresh cfg capacity) (hostEvents events) quiet ∧
        Reachable (FtlController.call lz4) (FtlController.fresh cfg capacity) quiet ∧
        quiet.resetTelemetry = ftl.resetTelemetry := by
  have blind : ∀ (s s' : FtlController cfg (lbaCount capacity)) (i : Command) (k : HostCall),
      i.hostCall = some k → s.resetTelemetry = s'.resetTelemetry →
        Agree (Prod.map resetTelemetry id) (s.command lz4 i) (s'.answer lz4 k) := by
    intro s s' i k keeps alike
    cases i with
    | host hostCall =>
        cases keeps
        exact answer_agree lz4 alike _
    | resetTelemetry => cases keeps
  have silent : ∀ (s : FtlController cfg (lbaCount capacity)) i s' returned, i.hostCall = none →
      s.command lz4 i = .ok (s', returned) → s'.resetTelemetry = s.resetTelemetry := by
    intro s i s' returned dropped stepped
    cases i with
    | host hostCall => cases dropped
    | resetTelemetry =>
        obtain ⟨rfl, _⟩ := Prod.mk.inj (ok_eq_ok.mp stepped)
        rfl
  obtain ⟨quiet, answered, same⟩ := trace.without blind silent
  exact ⟨quiet, answered, ⟨_, answered.project fun _ _ _ _ returned => call_of_answer returned⟩, same⟩

/-- A full block is written, the counters are reset, and the overwrite that follows collects it. -/
def resetOnFull : List Command :=
  [.host (writeCounting 0 1), .host (writeCounting 1 2), .resetTelemetry, .host (writeCounting 0 3),
    .host (.readBlock 1 (some (Buffer.fill flashPageSize 0)))]

theorem resetOnFull_withoutResets :
    ∃ (events : List (Command × Bool × Option Page))
      (ftl quiet : FtlController { pagesPerBlock := 2, totalBlocks := 3 } (lbaCount 8192)),
      events.map Prod.fst = resetOnFull ∧ ftl.hostWrites = 1 ∧
        Trace (answer constantLz4) (fun _ _ => True)
          (FtlController.fresh { pagesPerBlock := 2, totalBlocks := 3 } 8192) (hostEvents events) quiet ∧
        quiet.resetTelemetry = ftl.resetTelemetry := by
  rcases (Option.any_eq_true _ _).mp
      (by decide +kernel : (execute (command constantLz4) (fun _ _ => True)
        resetOnFull ([], FtlController.fresh { pagesPerBlock := 2, totalBlocks := 3 } 8192)).any
          fun run => run.2.hostWrites == 1) with
    ⟨⟨events, ftl⟩, executed, observed⟩
  obtain ⟨trace, recorded⟩ := Trace.nil.execute_inputs executed
  obtain ⟨quiet, answered, _, same⟩ := trace_withoutResets trace
  exact ⟨events, ftl, quiet, recorded, by simpa using observed, answered, same⟩

/-- What the counters say after a reset: the erases are the collections since, and the host writes since have paid
    for all of them but the one that the pages of the active block brought about. -/
structure SinceReset (ftl : FtlController cfg lbas) : Prop where
  erases : ftl.getTelemetry.flashTel.totalBlocksErased = ftl.getTelemetry.gcInvocations
  collections : ftl.getTelemetry.gcInvocations * cfg.pagesPerBlock ≤
    ftl.getTelemetry.totalHostWrites + cfg.pagesPerBlock + 1
  migrations : ftl.getTelemetry.gcPagesMigrated + ftl.getTelemetry.gcInvocations ≤
    ftl.getTelemetry.gcInvocations * cfg.pagesPerBlock
  programs : ftl.getTelemetry.flashTel.totalPagesProgrammed ≤
    2 * ftl.getTelemetry.totalHostWrites + cfg.pagesPerBlock

/-- A reset carries over the active block, the staged half page and the erase counts. -/
theorem Worn.resetTelemetry {allowed : Allowance} {ftl : FtlController cfg lbas} (worn : Worn allowed none ftl) :
    Worn ⟨cfg.pagesPerBlock, 1, ftl.flash.peCycles⟩ none ftl.resetTelemetry := by
  have staged : ftl.stagedCount ≤ 1 := by
    rw [stagedCount]
    split <;> decide
  have activePage := worn.activePage
  refine ⟨?slots, ?programs, Nat.zero_le _, rfl, ?cycles, worn.activePage,
    worn.tallied.congr rfl⟩
  case slots =>
    show 0 * cfg.pagesPerBlock + ftl.activePageIdx + 0 + 0 + ftl.stagedCount + 0 ≤ 0 + cfg.pagesPerBlock + 1
    omega
  case programs =>
    show 0 + 0 + 0 + ftl.stagedCount + 0 ≤ 0 + 0 + 1
    omega
  case cycles => exact Nat.le_add_left _ _

/-- In every run with resets the counters show at most two programs for each host write since the last one, and
    one block of programs on top. -/
theorem trace_sinceReset {lz4 : Lz4} {capacity : Nat} {events : List (Command × Bool × Option Page)}
    {ftl : FtlController cfg (lbaCount capacity)} (onePage : 1 ≤ cfg.pagesPerBlock)
    (trace : Trace (command lz4) (fun _ _ => True) (FtlController.fresh cfg capacity) events ftl) :
    ftl.SinceReset := by
  have worn : ∃ cycles, Worn ⟨cfg.pagesPerBlock, 1, cycles⟩ none ftl := by
    have start : Worn {} none (FtlController.fresh cfg capacity) := .fresh capacity
    refine trace.invariant (fun _ s => ∃ cycles, Worn ⟨cfg.pagesPerBlock, 1, cycles⟩ none s)
      ⟨0, start.mono (Nat.zero_le _) (Nat.zero_le _) (Nat.zero_le _)⟩ ?keeps
    case keeps =>
      rintro _ s input s' ⟨ok, dest'⟩ ⟨cycles, worn⟩ _ stepped
      cases input with
      | host hostCall => exact ⟨cycles, worn.call (call_of_answer stepped)⟩
      | resetTelemetry =>
          obtain ⟨rfl, _⟩ := Prod.mk.inj (ok_eq_ok.mp stepped)
          exact ⟨_, worn.resetTelemetry⟩
  obtain ⟨cycles, worn⟩ := worn
  have slots := worn.slots
  have programs := worn.programs
  have migrations := worn.migrations
  dsimp only at slots programs
  refine ⟨worn.erases, ?collections, worn.migrations, ?programs⟩
  case collections =>
    show ftl.gcCount * cfg.pagesPerBlock ≤ ftl.hostWrites + cfg.pagesPerBlock + 1
    omega
  case programs =>
    show ftl.flash.totalPagesProgrammed ≤ 2 * ftl.hostWrites + cfg.pagesPerBlock
    -- A single collection moves less than the block it fills; two of them are paid for but for one migration.
    rcases Nat.lt_or_ge ftl.gcCount 2 with few | many
    · have atMostOne : ftl.gcCount = 0 ∨ ftl.gcCount = 1 := by omega
      rcases atMostOne with none | one
      · rw [none] at migrations
        omega
      · rw [one] at migrations
        omega
    · omega

theorem resetOnFull_sinceReset :
    ∃ ftl : FtlController { pagesPerBlock := 2, totalBlocks := 3 } (lbaCount 8192),
      ftl.hostWrites = 1 ∧ ftl.flash.totalPagesProgrammed = 2 ∧ ftl.SinceReset := by
  rcases (Option.any_eq_true _ _).mp
      (by decide +kernel : (execute (command constantLz4) (fun _ _ => True)
        resetOnFull ([], FtlController.fresh { pagesPerBlock := 2, totalBlocks := 3 } 8192)).any
          fun run => run.2.hostWrites == 1 && run.2.flash.totalPagesProgrammed == 2) with
    ⟨⟨events, ftl⟩, executed, observed⟩
  simp only [Bool.and_eq_true, beq_iff_eq] at observed
  exact ⟨ftl, observed.1, observed.2, trace_sinceReset (by decide) (Trace.nil.execute executed)⟩

end FtlController

end Zftl
