/-
Module: Zftl.Controller.IndexSafety
Layer: Controller
Purpose: Index and size safety. `IndexSafe` bounds the two block pointers, the page pointer, the indices of
  every table entry and the sizes of every compressed block. A safe controller takes every host call
  without a fault and stays safe, whatever the flash answers, so no run from a fresh controller leaves the
  bounds of the table, of the inverted index or of a buffer.
Imports: Zftl.Controller.Steps
Trusted boundary: none
Main exports: IndexSafe, IndexSafe.fresh, IndexSafe.makeRoom, IndexSafe.call, reachable_indexSafe,
  reachable_inBounds
Open obligations: none
-/
import Zftl.Controller.Steps

namespace Zftl

open Fallible Lz4Compressor

/-- A tenant whose half-page size, if it has one, is in range. -/
def Tenant.SizeSafe (tenant : Tenant) : Prop :=
  tenant.state = .compressedHalfPage →
    tenant.subSlot ≤ 1 ∧ 1 ≤ tenant.compressedSize ∧ tenant.compressedSize ≤ halfPageSize

/-- A page holds two half pages. -/
theorem halfPageSize_add : halfPageSize + halfPageSize = flashPageSize := rfl

namespace FtlController

variable {cfg : FlashConfig} {lbas : Nat}

/-- The indices and sizes of a controller are in range. -/
structure IndexSafe (ftl : FtlController cfg lbas) : Prop where
  activeBlock : ftl.activeBlockIdx < cfg.totalBlocks
  reserveBlock : ftl.reserveBlockIdx < cfg.totalBlocks
  distinct : ftl.activeBlockIdx ≠ ftl.reserveBlockIdx
  activePage : ftl.activePageIdx ≤ cfg.pagesPerBlock
  entryBlock : ∀ lba, (ftl.lbaTable lba).blockIdx < cfg.totalBlocks
  entryPage : ∀ lba, (ftl.lbaTable lba).pageIdx < cfg.pagesPerBlock
  halfPage : ∀ lba, (ftl.lbaTable lba).state = .compressedHalfPage →
    (ftl.lbaTable lba).subSlot ≤ 1 ∧ 1 ≤ (ftl.lbaTable lba).compressedSize ∧
      (ftl.lbaTable lba).compressedSize ≤ halfPageSize
  staged : ∀ staged, ftl.stagedHalf = some staged →
    staged.lba < lbas ∧ 1 ≤ staged.compSize ∧ staged.compSize ≤ halfPageSize

theorem rotateReserve_lt {totalBlocks : Nat} (twoBlocks : 2 ≤ totalBlocks) (reserve victim : Nat) :
    rotateReserve totalBlocks reserve victim < totalBlocks := by
  have positive : 0 < totalBlocks := by omega
  simp only [rotateReserve]
  split
  · exact Nat.mod_lt _ positive
  · exact Nat.mod_lt _ positive

/-- The reserve pointer steps over the victim. -/
theorem rotateReserve_ne {totalBlocks victim : Nat} (twoBlocks : 2 ≤ totalBlocks)
    (victimLt : victim < totalBlocks) (reserve : Nat) :
    victim ≠ rotateReserve totalBlocks reserve victim := by
  simp only [rotateReserve]
  split
  · rename_i collides
    rw [collides]
    by_cases last : victim + 1 = totalBlocks
    · rw [last, Nat.mod_self]
      omega
    · rw [Nat.mod_eq_of_lt (by omega)]
      omega
  · rename_i apart
    exact fun same => apart same.symm

namespace IndexSafe

/-- A fresh controller is safe. -/
theorem fresh (capacity : Nat) (twoBlocks : 2 ≤ cfg.totalBlocks) (onePage : 1 ≤ cfg.pagesPerBlock) :
    (FtlController.fresh cfg capacity).IndexSafe where
  activeBlock := Nat.lt_of_lt_of_le Nat.zero_lt_two twoBlocks
  reserveBlock := Nat.lt_of_lt_of_le Nat.one_lt_two twoBlocks
  distinct := Nat.zero_ne_one
  activePage := Nat.zero_le _
  entryBlock := fun _ => Nat.lt_of_lt_of_le Nat.zero_lt_two twoBlocks
  entryPage := fun _ => onePage
  halfPage := fun _ state => nomatch state
  staged := fun _ waiting => nomatch waiting

variable {ftl : FtlController cfg lbas} (safe : ftl.IndexSafe)
include safe

/-- The owner lists play no part in index safety. -/
theorem withOwners (blockIdx pageIdx : Nat) (owners : List PageOwner) :
    (ftl.withOwners blockIdx pageIdx owners).IndexSafe :=
  ⟨safe.activeBlock, safe.reserveBlock, safe.distinct, safe.activePage, safe.entryBlock,
    safe.entryPage, safe.halfPage, safe.staged⟩

/-- Re-pointing the tenants of a migrated page keeps their indices in range. -/
theorem movePage {victim reserveWritePage p : Nat}
    (target : reserveWritePage < cfg.pagesPerBlock) :
    (ftl.movePage victim reserveWritePage p).IndexSafe := by
  have entry : ∀ lba, ∃ b k, b < cfg.totalBlocks ∧ k < cfg.pagesPerBlock ∧
      (ftl.movePage victim reserveWritePage p).lbaTable lba =
        { ftl.lbaTable lba with blockIdx := b, pageIdx := k } := by
    intro lba
    rw [movePage_lbaTable]
    by_cases owned : lba < lbas ∧ ∃ owner ∈ ftl.blockPageOwners victim p, owner.lba = lba
    · refine ⟨u32 ftl.reserveBlockIdx, u32 reserveWritePage,
        Nat.lt_of_le_of_lt (u32_le _) safe.reserveBlock, Nat.lt_of_le_of_lt (u32_le _) target, ?_⟩
      rw [if_pos owned]
    · refine ⟨_, _, safe.entryBlock lba, safe.entryPage lba, ?_⟩
      rw [if_neg owned]
  refine ⟨safe.activeBlock, safe.reserveBlock, safe.distinct, safe.activePage, fun lba => ?_,
    fun lba => ?_, fun lba => ?_, safe.staged⟩
  · obtain ⟨b, k, blockLt, _, same⟩ := entry lba
    rwa [same]
  · obtain ⟨b, k, _, pageLt, same⟩ := entry lba
    rwa [same]
  · obtain ⟨b, k, _, _, same⟩ := entry lba
    rw [same]
    exact safe.halfPage lba

/-- The controller after a reclaim is safe and has room for a page. -/
theorem reclaimed {victim : Nat} (twoBlocks : 2 ≤ cfg.totalBlocks)
    (victimLt : victim < cfg.totalBlocks) : (ftl.reclaimed victim).IndexSafe :=
  ⟨victimLt, rotateReserve_lt twoBlocks _ _, rotateReserve_ne twoBlocks victimLt _, Nat.zero_le _,
    safe.entryBlock, safe.entryPage, safe.halfPage, safe.staged⟩

/-- The controller after the reserve has been adopted is safe. -/
theorem adoptReserve (twoBlocks : 2 ≤ cfg.totalBlocks) : ftl.adoptReserve.IndexSafe := by
  refine ⟨safe.reserveBlock, Nat.mod_lt _ (by omega), ?_, Nat.zero_le _, safe.entryBlock,
    safe.entryPage, safe.halfPage, safe.staged⟩
  have reserveLt := safe.reserveBlock
  simp only [FtlController.adoptReserve]
  by_cases last : ftl.reserveBlockIdx + 1 = cfg.totalBlocks
  · rw [last, Nat.mod_self]
    omega
  · rw [Nat.mod_eq_of_lt (by omega)]
    omega

/-- Making room returns, keeps the controller safe, and leaves a page to program. -/
theorem makeRoom (twoBlocks : 2 ≤ cfg.totalBlocks) (onePage : 1 ≤ cfg.pagesPerBlock) :
    ∃ room, ftl.makeRoom = .ok room ∧ room.IndexSafe ∧ room.ActivePageInside := by
  rw [makeRoom_eq]
  by_cases notFull : ftl.activePageIdx < cfg.pagesPerBlock
  · exact ⟨ftl, runGarbageCollectionIfNeeded_eq_ok.mpr (Or.inl ⟨notFull, rfl⟩), safe,
      safe.activeBlock, notFull⟩
  · have full : cfg.pagesPerBlock ≤ ftl.activePageIdx := by omega
    by_cases noInvalid : ftl.selectVictim.2 = 0
    · exact ⟨ftl.adoptReserve,
        runGarbageCollectionIfNeeded_eq_ok.mpr (Or.inr (Or.inl ⟨full, noInvalid, rfl⟩)),
        safe.adoptReserve twoBlocks, safe.reserveBlock, onePage⟩
    · have victim := ftl.selectVictim_spec.found noInvalid
      -- Page `p` of the victim goes to a page at most `p` of the reserve.
      rcases foldlM_range_total (migratePage ftl.selectVictim.1)
          ({ ftl with gcCount := ftl.gcCount + 1 }, 0) cfg.pagesPerBlock
          (fun p (acc : FtlController cfg lbas × Nat) => acc.1.IndexSafe ∧ acc.2 ≤ p)
          ⟨⟨safe.activeBlock, safe.reserveBlock, safe.distinct, safe.activePage, safe.entryBlock,
            safe.entryPage, safe.halfPage, safe.staged⟩, Nat.le_refl _⟩
          (by
            rintro p ⟨s, k⟩ pageLt ⟨safe', behind⟩
            have target : k < cfg.pagesPerBlock := Nat.lt_of_le_of_lt behind pageLt
            cases valid : s.flash.isPageValid ftl.selectVictim.1 p with
            | false =>
                exact ⟨(s.withOwners _ p [], k),
                  (migratePage_eq_ok victim.1 pageLt).mpr (Or.inl ⟨valid, rfl, rfl⟩),
                  safe'.withOwners _ _ _, Nat.le_succ_of_le behind⟩
            | true =>
                exact ⟨(s.movePage _ k p, k + 1),
                  (migratePage_eq_ok victim.1 pageLt).mpr
                    (Or.inr ⟨valid, ⟨safe'.reserveBlock, target⟩, rfl, rfl⟩),
                  safe'.movePage target, Nat.succ_le_succ behind⟩)
        with ⟨⟨migrated, moved⟩, loop, migratedSafe, _⟩
      exact ⟨migrated.reclaimed ftl.selectVictim.1,
        runGarbageCollectionIfNeeded_eq_ok.mpr
          (Or.inr (Or.inr ⟨full, noInvalid, migrated, moved, loop, victim.1, rfl⟩)),
        migratedSafe.reclaimed twoBlocks victim.1, victim.1, onePage⟩

/-- Occupying the next page keeps the controller safe. -/
theorem occupyPage (inside : ftl.ActivePageInside) {src : Page} {tenants : List Tenant}
    {packs raws : Nat} (sizes : ∀ tenant ∈ tenants, tenant.SizeSafe) :
    (ftl.occupyPage src tenants packs raws).IndexSafe := by
  have entry := ftl.occupyPage_lbaTable src tenants packs raws
  refine ⟨safe.activeBlock, safe.reserveBlock, safe.distinct, inside.2, fun lba => ?_,
    fun lba => ?_, fun lba => ?_, fun _ waiting => nomatch waiting⟩
  · rcases entry lba with ⟨_, same⟩ | ⟨tenant, _, _, same⟩
    · rw [same]
      exact safe.entryBlock lba
    · rw [same]
      exact Nat.lt_of_le_of_lt (u32_le _) inside.1
  · rcases entry lba with ⟨_, same⟩ | ⟨tenant, _, _, same⟩
    · rw [same]
      exact safe.entryPage lba
    · rw [same]
      exact Nat.lt_of_le_of_lt (u32_le _) inside.2
  · rcases entry lba with ⟨_, same⟩ | ⟨tenant, member, _, same⟩
    · rw [same]
      exact safe.halfPage lba
    · rw [same]
      exact sizes tenant member

/-- Beginning a write keeps the controller safe. -/
theorem beginWrite (lba : Nat) : (ftl.beginWrite lba).IndexSafe := by
  rw [beginWrite_eq]
  refine ⟨safe.activeBlock, safe.reserveBlock, safe.distinct, safe.activePage, safe.entryBlock,
    safe.entryPage, safe.halfPage, fun staged waiting => ?_⟩
  by_cases dropped : ftl.stagedLba = some lba
  · simp [dropped] at waiting
  · exact safe.staged staged (by simpa [dropped] using waiting)

/-- Recording a zero block keeps the controller safe. -/
theorem zeroed (lba : Nat) : (ftl.zeroed lba).IndexSafe := by
  have entry : ∀ l, l ≠ lba → (ftl.zeroed lba).lbaTable l = ftl.lbaTable l := fun l other =>
    Function.update_of_ne other _ _
  have self : (ftl.zeroed lba).lbaTable lba =
      { ftl.lbaTable lba with state := .sparseZero, compressedSize := 0 } :=
    Function.update_self _ _ _
  refine ⟨safe.activeBlock, safe.reserveBlock, safe.distinct, safe.activePage, fun l => ?_,
    fun l => ?_, fun l state => ?_, safe.staged⟩
  all_goals by_cases same : l = lba
  · rw [same, self]
    exact safe.entryBlock lba
  · rw [entry l same]
    exact safe.entryBlock l
  · rw [same, self]
    exact safe.entryPage lba
  · rw [entry l same]
    exact safe.entryPage l
  · rw [same, self] at state
    cases state
  · rw [entry l same] at state ⊢
    exact safe.halfPage l state

/-- Staging a block of 1 to 2048 bytes keeps the controller safe. -/
theorem stage {staged : StagedHalfPage} (lbaLt : staged.lba < lbas) (positive : 1 ≤ staged.compSize)
    (fits : staged.compSize ≤ halfPageSize) :
    ({ ftl with stagedHalf := some staged } : FtlController cfg lbas).IndexSafe :=
  ⟨safe.activeBlock, safe.reserveBlock, safe.distinct, safe.activePage, safe.entryBlock,
    safe.entryPage, safe.halfPage, fun staged' same => by
      obtain rfl : staged = staged' := Option.some.inj same
      exact ⟨lbaLt, positive, fits⟩⟩

/-- Reading keeps the controller safe. -/
theorem read (flash : FlashModel cfg) :
    ({ ftl with hostReads := ftl.hostReads + 1, flash := flash } :
      FtlController cfg lbas).IndexSafe :=
  ⟨safe.activeBlock, safe.reserveBlock, safe.distinct, safe.activePage, safe.entryBlock,
    safe.entryPage, safe.halfPage, safe.staged⟩

end IndexSafe

section Calls

variable {lz4 : Lz4} {ftl ftl' : FtlController cfg lbas}

/-- The tenants of every program site have sizes in range. -/
theorem ProgramSite.sizeSafe {write write' : Option (Nat × Page)} {buf : Page}
    {tenants : List Tenant} {packs raws : Nat} (safe : ftl.IndexSafe)
    (site : ProgramSite lz4 ftl write buf tenants packs raws write') :
    ∀ tenant ∈ tenants, tenant.SizeSafe := by
  cases site with
  | flush waiting first =>
      have staged := safe.staged _ waiting
      simp only [List.forall_mem_singleton]
      exact fun _ => ⟨Nat.zero_le _, staged.2⟩
  | pack waiting nonzero half first second =>
      have staged := safe.staged _ waiting
      have positive := compress_half_size nonzero half
      simp only [List.forall_mem_cons]
      exact ⟨fun _ => ⟨Nat.zero_le _, staged.2⟩, fun _ => ⟨Nat.le_refl _, positive, half⟩,
        fun _ member => nomatch member⟩
  | full idle nonzero large =>
      simp only [List.forall_mem_singleton]
      exact fun state => nomatch state

/-- Every program site keeps the controller safe, whether or not the flash accepts the program. -/
theorem indexSafe_keptByProgram (twoBlocks : 2 ≤ cfg.totalBlocks)
    (onePage : 1 ≤ cfg.pagesPerBlock) :
    KeptByProgram lz4 (fun _ (s : FtlController cfg lbas) => s.IndexSafe) fun _ _ => True := by
  intro s write buf tenants packs raws write' room safe _ site made inside _
  obtain ⟨room', made', roomSafe, _⟩ := safe.makeRoom twoBlocks onePage
  obtain rfl : room = room' := Except.ok.inj (made.symm.trans made')
  exact roomSafe.occupyPage inside (site.sizeSafe safe)

/-- A call keeps the controller safe. -/
theorem IndexSafe.call (safe : ftl.IndexSafe) (twoBlocks : 2 ≤ cfg.totalBlocks)
    (onePage : 1 ≤ cfg.pagesPerBlock) {hostCall : HostCall} {ok : Bool}
    (returned : ftl.call lz4 hostCall = .ok (ftl', ok)) : ftl'.IndexSafe := by
  refine call_rule (I := fun _ s => s.IndexSafe) (Q := fun _ _ => True) returned
    (fun lba _ _ => safe.beginWrite lba) (fun _ => safe) (atEveryProgram_true lz4 ftl hostCall)
    (fun _ flash safe _ => safe.read flash) (fun _ lba _ safe _ _ => safe.zeroed lba) ?_
    (indexSafe_keptByProgram twoBlocks onePage)
  intro s lba src data safe inside _ nonzero half _
  have positive := compress_half_size nonzero half
  exact safe.stage inside positive half

/-- A flush of a safe controller returns. -/
theorem IndexSafe.flushStagedWrites (safe : ftl.IndexSafe) (twoBlocks : 2 ≤ cfg.totalBlocks)
    (onePage : 1 ≤ cfg.pagesPerBlock) :
    ∃ flushed, ftl.flushStagedWrites = .ok flushed ∧ flushed.IndexSafe := by
  cases waiting : ftl.stagedHalf with
  | none => exact ⟨ftl, by simp [FtlController.flushStagedWrites, waiting], safe⟩
  | some staged =>
      have sizes := safe.staged staged waiting
      rcases memcpy_total (Buffer.fill flashPageSize 0) staged.data 0 0 halfPageSize
        (by have := halfPageSize_add; omega) (by omega) with ⟨buf, copied⟩
      obtain ⟨room, made, roomSafe, inside⟩ := safe.makeRoom twoBlocks onePage
      refine ⟨_, (flushStagedWrites_eq_ok waiting).mpr
        ⟨buf, room, copied, made, sizes.1, inside, rfl⟩, roomSafe.occupyPage inside ?_⟩
      simp only [List.forall_mem_singleton]
      exact fun _ => ⟨Nat.zero_le _, sizes.2⟩

/-- Storing a block in a safe controller returns. -/
theorem IndexSafe.storeBlock (lz4 : Lz4) (safe : ftl.IndexSafe) (twoBlocks : 2 ≤ cfg.totalBlocks)
    (onePage : 1 ≤ cfg.pagesPerBlock) {lba : Nat} (inside : lba < lbas) (src : Page) :
    ∃ stored, ftl.storeBlock lba (compress lz4 (some src)) = .ok stored := by
  have halves := halfPageSize_add
  cases nonzero : (compress lz4 (some src)).isZeroBlock with
  | true =>
      refine ⟨ftl.zeroed lba, ?_⟩
      simp only [FtlController.storeBlock, nonzero, if_true]
      exact writeZeroBlock_eq_ok.mpr ⟨inside, rfl⟩
  | false =>
      by_cases half : (compress lz4 (some src)).compressedSize ≤ halfPageSize
      · simp only [FtlController.storeBlock, nonzero, half, if_true, if_false, Bool.false_eq_true]
        cases waiting : ftl.stagedHalf with
        | none =>
            rcases memcpy_total (Buffer.fill halfPageSize 0) (compress lz4 (some src)).data 0 0
              (compress lz4 (some src)).compressedSize (by omega) (by omega) with ⟨data, copied⟩
            exact ⟨_, stageHalfPage_eq_ok.mpr ⟨data, copied, rfl⟩⟩
        | some staged =>
            rcases memcpy_total (Buffer.fill flashPageSize 0) staged.data 0 0 halfPageSize
              (by omega) (by omega) with ⟨front, first⟩
            rcases memcpy_total front (compress lz4 (some src)).data halfPageSize 0
              (compress lz4 (some src)).compressedSize (by omega) (by omega) with ⟨buf, second⟩
            obtain ⟨room, made, _, active⟩ := safe.makeRoom twoBlocks onePage
            exact ⟨_, packWithStaged_eq_ok.mpr ⟨front, buf, room, first, second, made,
              ⟨(safe.staged staged waiting).1, inside⟩, active, rfl⟩⟩
      · simp only [FtlController.storeBlock, nonzero, half, if_false, Bool.false_eq_true]
        obtain ⟨flushed, flushes, flushedSafe⟩ := safe.flushStagedWrites twoBlocks onePage
        obtain ⟨room, made, _, active⟩ := flushedSafe.makeRoom twoBlocks onePage
        exact ⟨_, writeFullPage_eq_ok.mpr ⟨flushed, room, flushes, made, inside, active, rfl⟩⟩

/-- Unpacking a half page of a buffer returns when the bytes lie in the buffer and fit a page. -/
theorem unpackHalfPage_total (lz4 : Lz4) {srcSize : Nat} (src : Buffer UInt8 srcSize)
    (offset size : Nat) (dest : Page) (inside : offset + size ≤ srcSize) (fits : size ≤ flashPageSize) :
    ∃ result, unpackHalfPage lz4 src offset size dest = .ok result := by
  rcases memcpy_total (Buffer.fill flashPageSize 0) src 0 offset size (by omega) inside with
    ⟨data, copied⟩
  exact ⟨_, bind_eq_ok.mpr ⟨data, copied, rfl⟩⟩

/-- A read of a safe controller returns. -/
theorem IndexSafe.readBlock (lz4 : Lz4) (safe : ftl.IndexSafe) (lba : Nat) (dest4kb : Option Page) :
    ∃ result, ftl.readBlock lz4 lba dest4kb = .ok result := by
  have halves := halfPageSize_add
  cases dest4kb with
  | none => exact ⟨_, rfl⟩
  | some dest =>
      by_cases refused : lba ≥ lbas
      · exact ⟨(ftl, false, some dest), by simp only [FtlController.readBlock, refused, if_true]⟩
      · have inside : lba < lbas := by omega
        simp only [FtlController.readBlock, refused, if_false]
        cases found : ftl.stagedHalf.filter (·.lba = lba) with
        | some staged =>
            have sizes := safe.staged staged (Option.filter_eq_some_iff.mp found).1
            rcases unpackHalfPage_total lz4 staged.data 0 staged.compSize dest (by omega)
              (by omega) with ⟨⟨ok, page⟩, unpacked⟩
            exact ⟨_, bind_eq_ok.mpr ⟨_, unpacked, rfl⟩⟩
        | none =>
            simp only [checkIndex_of_lt inside, ok_bind]
            cases state : (ftl.lbaTable lba).state with
            | unmapped => exact ⟨_, rfl⟩
            | sparseZero => exact ⟨_, rfl⟩
            | rawFullPage => exact ⟨_, rfl⟩
            | compressedHalfPage =>
                have sizes := safe.halfPage lba state
                dsimp only
                split
                · exact ⟨_, rfl⟩
                · rcases unpackHalfPage_total lz4
                    (ftl.flash.readPage (ftl.lbaTable lba).blockIdx (ftl.lbaTable lba).pageIdx
                      (Buffer.fill flashPageSize 0)).2.2
                    (if (ftl.lbaTable lba).subSlot = 0 then 0 else halfPageSize)
                    (ftl.lbaTable lba).compressedSize dest
                    (by split <;> omega) (by omega) with ⟨⟨ok, page⟩, unpacked⟩
                  exact ⟨_, bind_eq_ok.mpr ⟨_, unpacked, rfl⟩⟩

/-- A safe controller takes every call without a fault. -/
theorem IndexSafe.call_total (lz4 : Lz4) (safe : ftl.IndexSafe) (twoBlocks : 2 ≤ cfg.totalBlocks)
    (onePage : 1 ≤ cfg.pagesPerBlock) (hostCall : HostCall) :
    ∃ ftl' ok, ftl.call lz4 hostCall = .ok (ftl', ok) := by
  cases hostCall with
  | writeBlock lba src4kb =>
      cases src4kb with
      | none => exact ⟨_, _, rfl⟩
      | some src =>
          by_cases refused : lba ≥ lbas
          · exact ⟨ftl, false, by simp only [FtlController.call, writeBlock, refused, if_true]⟩
          · have inside : lba < lbas := by omega
            rcases (safe.beginWrite lba).storeBlock lz4 twoBlocks onePage inside src with
              ⟨stored, storing⟩
            refine ⟨stored, true, ?_⟩
            simp only [FtlController.call, writeBlock, refused, if_false, checkIndex_of_lt inside,
              ok_bind, storing]
  | readBlock lba dest4kb =>
      obtain ⟨⟨ftl', ok, dest'⟩, reads⟩ := safe.readBlock lz4 lba dest4kb
      exact ⟨ftl', ok, bind_eq_ok.mpr ⟨_, reads, rfl⟩⟩
  | flushStagedWrites =>
      obtain ⟨flushed, flushes, _⟩ := safe.flushStagedWrites twoBlocks onePage
      exact ⟨flushed, true, bind_eq_ok.mpr ⟨_, flushes, rfl⟩⟩

/-- Every reachable controller is safe. -/
theorem reachable_indexSafe {capacity : Nat} {ftl : FtlController cfg (lbaCount capacity)}
    (twoBlocks : 2 ≤ cfg.totalBlocks) (onePage : 1 ≤ cfg.pagesPerBlock)
    (reachable : Reachable (FtlController.call lz4) (FtlController.fresh cfg capacity) ftl) :
    ftl.IndexSafe :=
  reachable.invariant _ (IndexSafe.fresh _ twoBlocks onePage)
    fun _ _ _ _ safe returned => safe.call twoBlocks onePage returned

/-- No run leaves the bounds of a vector or a buffer: every reachable controller is safe and takes every call
    without a fault. -/
theorem reachable_inBounds {capacity : Nat} {ftl : FtlController cfg (lbaCount capacity)}
    (twoBlocks : 2 ≤ cfg.totalBlocks) (onePage : 1 ≤ cfg.pagesPerBlock)
    (reachable : Reachable (FtlController.call lz4) (FtlController.fresh cfg capacity) ftl) :
    ftl.IndexSafe ∧ ∀ hostCall, ∃ ftl' ok, ftl.call lz4 hostCall = .ok (ftl', ok) := by
  have safe : ftl.IndexSafe := reachable_indexSafe twoBlocks onePage reachable
  exact ⟨safe, fun hostCall => safe.call_total lz4 twoBlocks onePage hostCall⟩

/-- Every list of host calls has a run. -/
theorem calls_run (lz4 : Lz4) (capacity : Nat) (twoBlocks : 2 ≤ cfg.totalBlocks)
    (onePage : 1 ≤ cfg.pagesPerBlock) (hostCalls : List HostCall) :
    ∃ events ftl, Trace (FtlController.call lz4) (fun _ _ => True) (FtlController.fresh cfg capacity)
      events ftl ∧ events.map Prod.fst = hostCalls := by
  have run := @Trace.exists_of_total _ _ _ (FtlController.call lz4) _ IndexSafe
    (IndexSafe.fresh capacity twoBlocks onePage) (fun ftl hostCall safe => by
      obtain ⟨ftl', ok, returned⟩ := safe.call_total lz4 twoBlocks onePage hostCall
      exact ⟨ftl', ok, returned, safe.call twoBlocks onePage returned⟩) hostCalls
  obtain ⟨events, ftl, trace, recorded, _⟩ := run
  exact ⟨events, ftl, trace, recorded⟩

end Calls

/-- Four blocks of one page. -/
def fourPages : FlashConfig := { pagesPerBlock := 1, totalBlocks := 4 }

/-- Write incompressible block number `k` to an LBA. -/
def writeCounting (lba : Nat) (k : UInt8) : HostCall := .writeBlock lba (some (countingBlock k))

/-- Two LBAs overwritten in turn until the four pages have been through two collections. -/
def alternateWrites : List HostCall :=
  [writeCounting 0 1, writeCounting 1 2, writeCounting 0 3, writeCounting 1 4, writeCounting 0 5]

theorem alternateWrites_inBounds :
    ∃ ftl : FtlController fourPages (lbaCount 8192), ftl.gcCount = 2 ∧ ftl.IndexSafe ∧
      ∀ hostCall, ∃ ftl' ok, ftl.call constantLz4 hostCall = .ok (ftl', ok) := by
  rcases (Option.any_eq_true _ _).mp
      (by decide +kernel : (execute (FtlController.call constantLz4) (fun _ _ => True)
        alternateWrites ([], FtlController.fresh fourPages 8192)).any
          fun run => run.2.gcCount == 2) with
    ⟨⟨events, ftl⟩, executed, collected⟩
  exact ⟨ftl, by simpa using collected,
    reachable_inBounds (by decide) (by decide) ⟨events, Trace.nil.execute executed⟩⟩

end FtlController

end Zftl
