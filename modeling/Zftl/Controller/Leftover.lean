/-
Module: Zftl.Controller.Leftover
Layer: Controller
Purpose: The table entry of a staged LBA. Staging leaves the entry of the LBA as it was, and the next write of the LBA
  invalidates through it once more. The page it designates was invalidated when the write of the staged block
  began, and no page is programmed or erased before the LBA leaves the staging buffer (`call_waited`), so the
  page is still not valid, and the second invalidation does nothing.
Imports: Zftl.Controller.Collection, Zftl.Flash.NandArray
Trusted boundary: none
Main exports: Undisturbed, Waited, call_waited, LeftoverInvalid, Spares, leftover_harmless
Open obligations: none
-/
import Zftl.Controller.Collection
import Zftl.Flash.NandArray

namespace Zftl

open Fallible Lz4Compressor

variable {cfg : FlashConfig}

/-- Nothing was programmed or erased, and no page has become valid. -/
structure FlashModel.Undisturbed (before after : FlashModel cfg) : Prop where
  programCalls : after.programCalls = before.programCalls
  pages : ∀ b, (after.blocks b).pages = (before.blocks b).pages
  eraseCount : ∀ b, (after.blocks b).eraseCount = (before.blocks b).eraseCount
  invalid : ∀ b p, before.isPageValid b p = false → after.isPageValid b p = false

namespace FlashModel

variable {before between after : FlashModel cfg}

theorem Undisturbed.refl (flash : FlashModel cfg) : Undisturbed flash flash :=
  ⟨rfl, fun _ => rfl, fun _ => rfl, fun _ _ invalid => invalid⟩

theorem Undisturbed.trans (first : Undisturbed before between) (second : Undisturbed between after) :
    Undisturbed before after where
  programCalls := second.programCalls.trans first.programCalls
  pages b := (second.pages b).trans (first.pages b)
  eraseCount b := (second.eraseCount b).trans (first.eraseCount b)
  invalid b p invalid := second.invalid b p (first.invalid b p invalid)

theorem SameArray.undisturbed (same : after.SameArray before) : Undisturbed before after where
  programCalls := same.programCalls
  pages b := by rw [same.blocks]
  eraseCount b := by rw [same.blocks]
  invalid b p invalid := by rwa [same.isPageValid_eq]

theorem undisturbed_invalidatePage (flash : FlashModel cfg) (blockIdx pageIdx : Nat) :
    Undisturbed flash (flash.invalidatePage blockIdx pageIdx) where
  programCalls := invalidatePage_programCalls _ _ _
  pages b := invalidatePage_pages _ _ _ b
  eraseCount b := invalidatePage_eraseCount _ _ _ b
  invalid b p invalid := by rw [invalidatePage_isPageValid, invalid, Bool.false_and]

end FlashModel

namespace FtlController

open FlashModel

variable {lbas : Nat} {lz4 : Lz4} {ftl ftl' room : FtlController cfg lbas} {lba : Nat}

/-! ### A call that leaves the LBA in the staging buffer -/

theorem undisturbed_invalidateOld (ftl : FtlController cfg lbas) (lba : Nat) :
    Undisturbed ftl.flash (ftl.invalidateOld lba) := by
  rw [invalidateOld]
  split
  · exact undisturbed_invalidatePage _ _ _
  · exact .refl _

/-- An LBA that is staged once a write has begun was so before, and is not the one written. -/
theorem staged_of_beginWrite {other : Nat} (waiting : (ftl.beginWrite other).stagedLba = some lba) :
    other ≠ lba ∧ ftl.stagedLba = some lba := by
  rw [beginWrite_eq] at waiting
  change (if ftl.stagedLba = some other then none else ftl.stagedHalf).map (·.lba) = some lba at waiting
  by_cases same : ftl.stagedLba = some other
  · rw [if_pos same] at waiting
    cases waiting
  · rw [if_neg same] at waiting
    exact ⟨fun eq => same (eq ▸ waiting), waiting⟩

/-- What a call can have done after which the LBA is staged: the LBA was staged before it, or the call has just
    invalidated its old page. -/
structure Waited (lba : Nat) (before after : FtlController cfg lbas) : Prop where
  entry : after.lbaTable lba = before.lbaTable lba
  flash : Undisturbed before.flash after.flash
  staged : before.stagedLba = some lba ∨ after.flash = before.invalidateOld lba

theorem writeBlock_waited {other : Nat} {src : Page} {ok : Bool}
    (returned : ftl.writeBlock lz4 other (some src) = .ok (ftl', ok)) (inside : other < lbas)
    (waiting : ftl'.stagedLba = some lba) : Waited lba ftl ftl' := by
  obtain ⟨-, stored⟩ := writeBlock_stored returned inside
  cases stored with
  | zero =>
      obtain ⟨apart, staged⟩ := staged_of_beginWrite waiting
      refine ⟨?_, ?_, Or.inl staged⟩
      · rw [← beginWrite_lbaTable ftl other]
        exact Function.update_of_ne apart.symm _ _
      · rw [show ((ftl.beginWrite other).zeroed other).flash = ftl.invalidateOld other by
          rw [beginWrite_eq]; rfl]
        exact undisturbed_invalidateOld ftl other
  | staged =>
      obtain rfl : other = lba := Option.some.inj waiting
      rw [beginWrite_eq]
      exact ⟨rfl, undisturbed_invalidateOld ftl other, Or.inr rfl⟩
  -- a page was programmed, so the staging buffer is empty
  | packed => exact absurd waiting (by simp [stagedLba, occupyPage])
  | full => exact absurd waiting (by simp [stagedLba, occupyPage])

theorem call_waited {hostCall : HostCall} {ok : Bool} (returned : ftl.call lz4 hostCall = .ok (ftl', ok))
    (waiting : ftl'.stagedLba = some lba) : Waited lba ftl ftl' := by
  have refused (same : ftl' = ftl) : Waited lba ftl ftl' := by
    subst same
    exact ⟨rfl, .refl _, Or.inl waiting⟩
  cases hostCall with
  | writeBlock other src4kb =>
      cases src4kb with
      | none =>
          simp only [call, writeBlock, ok_eq_ok, Prod.mk.injEq] at returned
          exact refused returned.1
      | some src =>
          by_cases inside : other < lbas
          · exact writeBlock_waited returned inside waiting
          · simp only [call, writeBlock, Nat.not_lt.mp inside, if_true, ok_eq_ok, Prod.mk.injEq] at returned
            exact refused returned.1
  | readBlock other dest4kb =>
      simp only [call, bind_eq_ok, ok_eq_ok, Prod.mk.injEq, Prod.exists] at returned
      obtain ⟨read, _, _, reads, rfl, _⟩ := returned
      obtain rfl | ⟨flash, same, rfl⟩ := readBlock_state reads
      · exact refused rfl
      · exact ⟨rfl, same.undisturbed, Or.inl waiting⟩
  | flushStagedWrites =>
      simp only [call, bind_eq_ok, ok_eq_ok, Prod.mk.injEq] at returned
      obtain ⟨flushed, flushes, rfl, _⟩ := returned
      rw [stagedLba, flushStagedWrites_stagedHalf flushes] at waiting
      cases waiting

/-- As long as the LBA stays staged, its entry is kept, and nothing is programmed or erased. -/
theorem trace_waited {events : List (HostCall × Bool)}
    (trace : Trace (FtlController.call lz4) (fun s _ => s.stagedLba = some lba) ftl events ftl')
    (waiting : ftl'.stagedLba = some lba) :
    ftl'.lbaTable lba = ftl.lbaTable lba ∧ Undisturbed ftl.flash ftl'.flash := by
  refine trace.invariant (fun _ s => s.stagedLba = some lba →
    s.lbaTable lba = ftl.lbaTable lba ∧ Undisturbed ftl.flash s.flash) ?init ?keeps waiting
  case init => exact fun _ => ⟨rfl, .refl _⟩
  case keeps =>
    intro _ s hostCall s' ok before staged returned waiting
    have waited := call_waited returned waiting
    obtain ⟨entry, flash⟩ := before staged
    exact ⟨waited.entry.trans entry, flash.trans waited.flash⟩

/-! ### The invariant -/

/-- The page the entry of a staged LBA designates is not valid. -/
def LeftoverInvalid (ftl : FtlController cfg lbas) : Prop :=
  ∀ lba, ftl.stagedLba = some lba → (ftl.lbaTable lba).Mapped →
    ftl.flash.isPageValid (ftl.lbaTable lba).blockIdx (ftl.lbaTable lba).pageIdx = false

theorem LeftoverInvalid.call {hostCall : HostCall} {ok : Bool} (leftover : ftl.LeftoverInvalid)
    (returned : ftl.call lz4 hostCall = .ok (ftl', ok)) : ftl'.LeftoverInvalid := by
  intro lba waiting mapped
  have waited := call_waited returned waiting
  rw [waited.entry] at mapped ⊢
  obtain staged | flash := waited.staged
  · exact waited.flash.invalid _ _ (leftover lba staged mapped)
  · rw [flash, invalidateOld, if_pos mapped, invalidatePage_isPageValid]
    simp

theorem reachable_leftoverInvalid {capacity : Nat} {ftl : FtlController cfg (lbaCount capacity)}
    (reachable : Reachable (FtlController.call lz4) (FtlController.fresh cfg capacity) ftl) :
    ftl.LeftoverInvalid := by
  refine reachable.invariant LeftoverInvalid ?init fun _ _ _ _ leftover returned => leftover.call returned
  case init =>
    intro _ waiting
    cases waiting

/-- Beginning a write of a staged LBA leaves the flash as it is. -/
theorem LeftoverInvalid.beginWrite_flash (leftover : ftl.LeftoverInvalid)
    (staged : ftl.stagedLba = some lba) : (ftl.beginWrite lba).flash = ftl.flash := by
  rw [beginWrite_eq]
  by_cases mapped : (ftl.lbaTable lba).Mapped
  · exact (if_pos mapped).trans (invalidatePage_of_invalid (leftover lba staged mapped))
  · exact if_neg mapped

/-! ### Overwriting a staged LBA -/

/-- No counter of invalid pages has risen, and every valid page still is, but for those of a block that a
    collection has erased. -/
structure Spares (before after : FtlController cfg lbas) : Prop where
  invalidCount : ∀ b, after.flash.getInvalidCount b ≤ before.flash.getInvalidCount b
  valid : ∀ b p, before.flash.isPageValid b p = true →
    after.flash.isPageValid b p = true ∨ before.Collects ∧ b = before.selectVictim.1

namespace Spares

theorem of_flash (same : ftl'.flash = ftl.flash) : Spares ftl ftl' :=
  ⟨fun b => by rw [same], fun b p valid => Or.inl (by rwa [same])⟩

/-- The program of a page spares every other. -/
theorem occupyPage (spares : Spares ftl room) (buf : Page) (tenants : List Tenant) (packs raws : Nat) :
    Spares ftl (room.occupyPage buf tenants packs raws) where
  invalidCount b := (programPage_getInvalidCount _ _ _ _ b).trans_le (spares.invalidCount b)
  valid b p valid := (spares.valid b p valid).imp_left programPage_isPageValid_of_valid

end Spares

theorem eraseBlock_getInvalidCount_le (flash : FlashModel cfg) (blockIdx b : Nat) :
    (flash.eraseBlock blockIdx).1.getInvalidCount b ≤ flash.getInvalidCount b := by
  by_cases other : b = blockIdx
  · subst other
    by_cases out : b ≥ cfg.totalBlocks <;> simp [eraseBlock, getInvalidCount, out]
  · exact Nat.le_of_eq (getInvalidCount_of_blocks (by rw [eraseBlock_blocks_of_ne other]))

/-- A collection spares what is not on its victim. -/
theorem makeRoom_spares (made : ftl.makeRoom = .ok room) : Spares ftl room := by
  refine makeRoom_rule made
    (fun _ s => (∀ b, s.flash.getInvalidCount b = ftl.flash.getInvalidCount b) ∧
      ∀ b p, ftl.flash.isPageValid b p = true → s.flash.isPageValid b p = true)
    (Spares ftl) ?stay ?adopt ?init ?forget ?move ?reclaim
  case stay => exact fun _ => .of_flash rfl
  case adopt => exact fun _ _ => .of_flash rfl
  case init => exact fun _ => ⟨fun _ => rfl, fun _ _ valid => valid⟩
  case forget => exact fun _ _ _ _ _ _ kept => kept
  case move =>
    rintro p s - - - - ⟨counts, valid⟩
    refine ⟨fun b => ?_, fun b q before => ?_⟩
    · rw [← counts b]
      exact (programPage_getInvalidCount _ _ _ _ b).trans
        (getInvalidCount_of_blocks (by rw [readPage_blocks]))
    · refine programPage_isPageValid_of_valid ?_
      rw [readPage_isPageValid]
      exact valid b q before
  case reclaim =>
    rintro migrated collects - ⟨counts, valid⟩
    refine ⟨fun b => ?_, fun b p before => ?_⟩
    · rw [← counts b]
      exact eraseBlock_getInvalidCount_le _ _ b
    · by_cases victim : b = ftl.selectVictim.1
      · exact Or.inr ⟨collects, victim⟩
      · refine Or.inl ((eraseBlock_isPageValid_of_ne victim p).trans (valid b p before))

/-- Overwriting a staged LBA clears no validity bit but by a collection, and raises no counter. -/
theorem LeftoverInvalid.overwrite_spares {src4kb : Option Page} {ok : Bool} (leftover : ftl.LeftoverInvalid)
    (staged : ftl.stagedLba = some lba) (returned : ftl.call lz4 (.writeBlock lba src4kb) = .ok (ftl', ok)) :
    Spares ftl ftl' := by
  -- the staged copy is dropped, and nothing else changes before the branches
  have begun : ftl.beginWrite lba = { ftl with hostWrites := ftl.hostWrites + 1, stagedHalf := none } := by
    have flash := leftover.beginWrite_flash staged
    rw [beginWrite_eq] at flash
    change ftl.invalidateOld lba = ftl.flash at flash
    rw [beginWrite_eq, flash, if_pos staged]
  cases src4kb with
  | none =>
      simp only [FtlController.call, writeBlock, ok_eq_ok, Prod.mk.injEq] at returned
      exact .of_flash (by rw [returned.1])
  | some src =>
      by_cases inside : lba < lbas
      · obtain ⟨-, stored⟩ := writeBlock_stored returned inside
        rw [begun] at stored
        cases stored with
        | zero => exact .of_flash rfl
        | staged => exact .of_flash rfl
        | packed waiting => exact absurd waiting (by simp)
        | @full flushed room flushes nonzero large made =>
            simp only [flushStagedWrites, ok_eq_ok] at flushes
            subst flushes
            have made := makeRoom_spares made
            have spares : Spares ftl room := ⟨made.invalidCount, fun b p before =>
              (made.valid b p before).imp_right fun erased =>
                ⟨⟨erased.1.full, erased.1.found⟩, erased.2⟩⟩
            exact spares.occupyPage _ _ _ _
      · simp only [FtlController.call, writeBlock, Nat.not_lt.mp inside, if_true, ok_eq_ok,
          Prod.mk.injEq] at returned
        exact .of_flash (by rw [returned.1])

/-- The entry left over for a staged LBA designates no valid page; so a write of the LBA begins without touching the
    flash, and spares every page. As long as the LBA stays staged, nothing is programmed or erased. -/
theorem leftover_harmless {capacity : Nat} {ftl : FtlController cfg (lbaCount capacity)}
    (reachable : Reachable (FtlController.call lz4) (FtlController.fresh cfg capacity) ftl) {lba : Nat}
    (staged : ftl.stagedLba = some lba) :
    ((ftl.lbaTable lba).Mapped →
      ftl.flash.isPageValid (ftl.lbaTable lba).blockIdx (ftl.lbaTable lba).pageIdx = false) ∧
    (ftl.beginWrite lba).flash = ftl.flash ∧
    (∀ src4kb ftl' ok, ftl.call lz4 (.writeBlock lba src4kb) = .ok (ftl', ok) → Spares ftl ftl') ∧
    ∀ events ftl',
      Trace (FtlController.call lz4) (fun s _ => s.stagedLba = some lba) ftl events ftl' →
      ftl'.stagedLba = some lba →
        ftl'.lbaTable lba = ftl.lbaTable lba ∧ Undisturbed ftl.flash ftl'.flash := by
  have leftover := reachable_leftoverInvalid reachable
  exact ⟨leftover lba staged, leftover.beginWrite_flash staged,
    fun _ _ _ returned => leftover.overwrite_spares staged returned,
    fun _ _ trace waiting => trace_waited trace waiting⟩

/-- A full page is written, then a block that fits into half a page for the same LBA, twice. -/
def restage : List HostCall :=
  [writeCounting 0 1, .writeBlock 0 (some (Buffer.fill flashPageSize 2)),
    .writeBlock 0 (some (Buffer.fill flashPageSize 3))]

theorem restage_harmless :
    ∃ ftl : FtlController fourPages (lbaCount 8192), ftl.stagedLba = some 0 ∧ (ftl.lbaTable 0).Mapped ∧
      ftl.flash.isPageValid (ftl.lbaTable 0).blockIdx (ftl.lbaTable 0).pageIdx = false ∧
      (ftl.beginWrite 0).flash = ftl.flash := by
  obtain ⟨⟨events, ftl⟩, executed, observed⟩ := (Option.any_eq_true _ _).mp
    (by decide +kernel : (execute (FtlController.call constantLz4) (fun _ _ => True) restage
      ([], FtlController.fresh fourPages 8192)).any fun run =>
        decide (run.2.stagedLba = some 0 ∧ (run.2.lbaTable 0).Mapped))
  obtain ⟨staged, mapped⟩ := of_decide_eq_true observed
  obtain ⟨invalid, flash, -⟩ := leftover_harmless ⟨events, Trace.nil.execute executed⟩ staged
  exact ⟨ftl, staged, mapped, invalid mapped, flash⟩

end FtlController

end Zftl
