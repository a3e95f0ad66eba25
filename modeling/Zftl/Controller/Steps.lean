/-
Module: Zftl.Controller.Steps
Layer: Controller
Purpose: What each function of the controller can do, said once. Every page program of the controller, in
  the flush, in pair packing and in the full-page write, is a `makeRoom` followed by `occupyPage` with the
  tenants of the new page; `writeBlock_rule` and `call_rule` reduce a property of a host call to its steps:
  begin, zero, stage, and the program sites. The garbage collection is described by the step of its
  loop and its three outcomes.
Imports: Zftl.Controller.FtlController, Zftl.Lib.Trace
Trusted boundary: none
Main exports: Tenant, occupyPage, ProgramSite, AtEveryProgram, migratePage_eq_ok,
  runGarbageCollectionIfNeeded_eq_ok, flushStagedWrites_eq_ok, writeBlock_rule, call_rule
Open obligations: none
-/
import Zftl.Controller.FtlController
import Zftl.Lib.Trace

namespace Zftl

open Fallible Lz4Compressor

/-- What the table and the index record for one LBA of a freshly programmed page. -/
structure Tenant where
  lba : Nat
  state : MappingState
  subSlot : Nat
  compressedSize : Nat

/-- The table entry of a tenant. -/
def Tenant.entry (tenant : Tenant) (blockIdx pageIdx : Nat) : MappingEntry :=
  { state := tenant.state
    blockIdx := u32 blockIdx
    pageIdx := u32 pageIdx
    subSlot := tenant.subSlot
    compressedSize := tenant.compressedSize }

/-- The index record of a tenant. -/
def Tenant.owner (tenant : Tenant) : PageOwner := ⟨tenant.lba, tenant.subSlot⟩

/-- A staged block as the tenant of the first half of a page. -/
def StagedHalfPage.tenant (staged : StagedHalfPage) : Tenant :=
  ⟨staged.lba, .compressedHalfPage, 0, staged.compSize⟩

namespace FtlController

variable {cfg : FlashConfig} {lbas : Nat}

/-! ### Accesses -/

theorem setEntry_eq_ok {ftl ftl' : FtlController cfg lbas} {lba : Nat} {entry : MappingEntry} :
    ftl.setEntry lba entry = .ok ftl' ↔ lba < lbas ∧ ftl' = ftl.withEntry lba entry := by
  simp only [setEntry, check_bind_eq_ok, ok_eq_ok]

theorem setOwners_eq_ok {ftl ftl' : FtlController cfg lbas} {blockIdx pageIdx : Nat}
    {owners : List PageOwner} :
    ftl.setOwners blockIdx pageIdx owners = .ok ftl' ↔
      (blockIdx < cfg.totalBlocks ∧ pageIdx < cfg.pagesPerBlock) ∧
        ftl' = ftl.withOwners blockIdx pageIdx owners := by
  simp only [setOwners, check_bind_eq_ok, ok_eq_ok, and_assoc]

theorem pushOwner_eq_ok {ftl ftl' : FtlController cfg lbas} {blockIdx pageIdx : Nat}
    {owner : PageOwner} :
    ftl.pushOwner blockIdx pageIdx owner = .ok ftl' ↔
      (blockIdx < cfg.totalBlocks ∧ pageIdx < cfg.pagesPerBlock) ∧
        ftl' = ftl.withOwners blockIdx pageIdx
          (ftl.blockPageOwners blockIdx pageIdx ++ [owner]) :=
  setOwners_eq_ok

/-- The owner list of one page after an update of one page. -/
theorem withOwners_blockPageOwners (ftl : FtlController cfg lbas) (blockIdx pageIdx : Nat)
    (owners : List PageOwner) (b p : Nat) :
    (ftl.withOwners blockIdx pageIdx owners).blockPageOwners b p =
      if b = blockIdx ∧ p = pageIdx then owners else ftl.blockPageOwners b p := by
  by_cases sameBlock : b = blockIdx
  · subst sameBlock
    by_cases samePage : p = pageIdx <;> simp [withOwners, samePage]
  · simp [withOwners, sameBlock]

/-! ### Garbage collection -/

/-- The state after a valid page of the victim has moved to the reserve. -/
def movePage (ftl : FtlController cfg lbas) (victim reserveWritePage p : Nat) :
    FtlController cfg lbas :=
  let read := ftl.flash.readPage victim p (Buffer.fill flashPageSize 0)
  let owners := ftl.blockPageOwners victim p
  let moved : FtlController cfg lbas :=
    { ftl with
      flash := (read.1.programPage ftl.reserveBlockIdx reserveWritePage (some read.2.2)).1
      gcMigratedPages := ftl.gcMigratedPages + 1
      lbaTable :=
        owners.foldl (repointOwner lbas ftl.reserveBlockIdx reserveWritePage) ftl.lbaTable }
  (moved.withOwners ftl.reserveBlockIdx reserveWritePage owners).withOwners victim p []

/-- One iteration of the migration loop forgets an invalid page or moves a valid one. -/
theorem migratePage_eq_ok {ftl ftl' : FtlController cfg lbas} {victim reserveWritePage next p : Nat}
    (victimLt : victim < cfg.totalBlocks) (pageLt : p < cfg.pagesPerBlock) :
    migratePage victim (ftl, reserveWritePage) p = .ok (ftl', next) ↔
      (ftl.flash.isPageValid victim p = false ∧ ftl' = ftl.withOwners victim p [] ∧
          next = reserveWritePage) ∨
        (ftl.flash.isPageValid victim p = true ∧
          (ftl.reserveBlockIdx < cfg.totalBlocks ∧ reserveWritePage < cfg.pagesPerBlock) ∧
          ftl' = ftl.movePage victim reserveWritePage p ∧ next = reserveWritePage + 1) := by
  cases valid : ftl.flash.isPageValid victim p with
  | false =>
      simp only [migratePage, valid, Bool.not_false, if_true, bind_eq_ok, setOwners_eq_ok,
        Except.ok.injEq, Prod.mk.injEq]
      constructor
      · rintro ⟨_, ⟨_, rfl⟩, rfl, rfl⟩
        simp
      · rintro (⟨_, rfl, rfl⟩ | ⟨impossible, _⟩)
        · exact ⟨_, ⟨⟨victimLt, pageLt⟩, rfl⟩, rfl, rfl⟩
        · cases impossible
  | true =>
      simp only [migratePage, valid, Bool.not_true, Bool.false_eq_true, if_false,
        checkIndex_of_lt victimLt, checkIndex_of_lt pageLt, ok_bind, bind_eq_ok, setOwners_eq_ok,
        Except.ok.injEq, Prod.mk.injEq]
      constructor
      · rintro ⟨_, ⟨reserveLt, rfl⟩, _, ⟨_, rfl⟩, rfl, rfl⟩
        exact Or.inr ⟨trivial, reserveLt, rfl, rfl⟩
      · rintro (⟨impossible, _⟩ | ⟨_, reserveLt, rfl, rfl⟩)
        · cases impossible
        · exact ⟨_, ⟨reserveLt, rfl⟩, _, ⟨⟨victimLt, pageLt⟩, rfl⟩, rfl, rfl⟩

/-- The table after the owners of a page have been re-pointed. -/
theorem repoint_apply (owners : List PageOwner) (blockIdx pageIdx lba : Nat)
    (table : Nat → MappingEntry) :
    owners.foldl (repointOwner lbas blockIdx pageIdx) table lba =
      if lba < lbas ∧ ∃ owner ∈ owners, owner.lba = lba then
        { table lba with blockIdx := u32 blockIdx, pageIdx := u32 pageIdx }
      else table lba := by
  induction owners generalizing table with
  | nil => simp
  | cons owner owners ih =>
      rw [List.foldl_cons, ih]
      by_cases same : owner.lba = lba
      · subst same
        by_cases inside : owner.lba < lbas <;> simp [repointOwner, inside]
      · have untouched : repointOwner lbas blockIdx pageIdx table owner lba = table lba := by
          by_cases inside : owner.lba < lbas <;>
            simp [repointOwner, inside, Function.update_of_ne (Ne.symm same)]
        simp [untouched, same]

/-- A table entry after a page has moved is re-pointed exactly if its LBA owns the page. -/
theorem movePage_lbaTable (ftl : FtlController cfg lbas) (victim reserveWritePage p lba : Nat) :
    (ftl.movePage victim reserveWritePage p).lbaTable lba =
      if lba < lbas ∧ ∃ owner ∈ ftl.blockPageOwners victim p, owner.lba = lba then
        { ftl.lbaTable lba with
          blockIdx := u32 ftl.reserveBlockIdx, pageIdx := u32 reserveWritePage }
      else ftl.lbaTable lba :=
  repoint_apply _ _ _ _ _

/-- The state after the victim has been erased and made the active block. -/
def reclaimed (ftl : FtlController cfg lbas) (victim : Nat) : FtlController cfg lbas :=
  { ftl with
    flash := (ftl.flash.eraseBlock victim).1
    blockPageOwners := Function.update ftl.blockPageOwners victim fun _ => []
    activeBlockIdx := victim
    activePageIdx := 0
    reserveBlockIdx := rotateReserve cfg.totalBlocks ftl.reserveBlockIdx victim }

theorem reclaimVictim_eq_ok {ftl ftl' : FtlController cfg lbas} {victim : Nat} :
    ftl.reclaimVictim victim = .ok ftl' ↔
      victim < cfg.totalBlocks ∧ ftl' = ftl.reclaimed victim := by
  simp only [reclaimVictim, check_bind_eq_ok, ok_eq_ok, reclaimed]

/-- The three outcomes of `RunGarbageCollectionIfNeeded`. -/
theorem runGarbageCollectionIfNeeded_eq_ok {ftl ftl' : FtlController cfg lbas} :
    ftl.runGarbageCollectionIfNeeded = .ok ftl' ↔
      (ftl.activePageIdx < cfg.pagesPerBlock ∧ ftl' = ftl) ∨
      (cfg.pagesPerBlock ≤ ftl.activePageIdx ∧ ftl.selectVictim.2 = 0 ∧ ftl' = ftl.adoptReserve) ∨
      (cfg.pagesPerBlock ≤ ftl.activePageIdx ∧ ftl.selectVictim.2 ≠ 0 ∧
        ∃ migrated moved,
          (List.range cfg.pagesPerBlock).foldlM (migratePage ftl.selectVictim.1)
              ({ ftl with gcCount := ftl.gcCount + 1 }, 0) = .ok (migrated, moved) ∧
            ftl.selectVictim.1 < cfg.totalBlocks ∧
            ftl' = migrated.reclaimed ftl.selectVictim.1) := by
  by_cases room : ftl.activePageIdx < cfg.pagesPerBlock
  · have notFull : ¬cfg.pagesPerBlock ≤ ftl.activePageIdx := by omega
    simp [runGarbageCollectionIfNeeded, room, notFull, eq_comm]
  · have full : cfg.pagesPerBlock ≤ ftl.activePageIdx := by omega
    by_cases noInvalid : ftl.selectVictim.2 = 0
    · simp [runGarbageCollectionIfNeeded, room, full, noInvalid, eq_comm]
    · simp only [runGarbageCollectionIfNeeded, room, noInvalid, if_false, bind_eq_ok, Prod.exists,
        reclaimVictim_eq_ok, full, false_and, true_and, false_or, ne_eq, not_false_eq_true]

/-- `makeRoom` is the garbage collection, which itself checks for a full block. -/
theorem makeRoom_eq (ftl : FtlController cfg lbas) :
    ftl.makeRoom = ftl.runGarbageCollectionIfNeeded := by
  by_cases full : ftl.activePageIdx ≥ cfg.pagesPerBlock
  · simp [makeRoom, full]
  · have room : ftl.activePageIdx < cfg.pagesPerBlock := by omega
    simp [makeRoom, runGarbageCollectionIfNeeded, full, room]

/-- Loop invariant of the victim search over the first `count` blocks. -/
structure VictimBelow (ftl : FtlController cfg lbas) (count : Nat) (best : Nat × Nat) : Prop where
  maximal : ∀ b, b < count → b ≠ ftl.reserveBlockIdx → ftl.flash.getInvalidCount b ≤ best.2
  found : best.2 ≠ 0 →
    best.1 < count ∧ best.1 ≠ ftl.reserveBlockIdx ∧ ftl.flash.getInvalidCount best.1 = best.2

/-- The victim is a block other than the reserve with the most invalid pages. -/
theorem selectVictim_spec (ftl : FtlController cfg lbas) :
    VictimBelow ftl cfg.totalBlocks ftl.selectVictim := by
  unfold selectVictim
  induction cfg.totalBlocks with
  | zero => exact ⟨by simp, by simp⟩
  | succ count ih =>
      rw [List.range_succ, List.foldl_append, List.foldl_cons, List.foldl_nil]
      generalize (List.range count).foldl _ (0, 0) = best at ih ⊢
      by_cases reserve : count = ftl.reserveBlockIdx
      · rw [if_pos reserve]
        refine ⟨fun b below other => ih.maximal b (by omega) other, fun nonzero => ?_⟩
        have found := ih.found nonzero
        exact ⟨by omega, found.2⟩
      · rw [if_neg reserve]
        by_cases better : ftl.flash.getInvalidCount count > best.2
        · rw [if_pos better]
          refine ⟨fun b below other => ?_, fun _ => ⟨Nat.lt_succ_self _, reserve, rfl⟩⟩
          by_cases last : b = count
          · rw [last]
          · have := ih.maximal b (by omega) other
            omega
        · rw [if_neg better]
          refine ⟨fun b below other => ?_, fun nonzero => ?_⟩
          · by_cases last : b = count
            · rw [last]
              omega
            · exact ih.maximal b (by omega) other
          · have found := ih.found nonzero
            exact ⟨by omega, found.2⟩

/-! ### Program sites -/

/-- The state after the next page of the active block has been programmed for `tenants`: the table and the
    index record them, the page pointer moves on and the staging buffer is empty. -/
def occupyPage (ftl : FtlController cfg lbas) (src : Page) (tenants : List Tenant)
    (packs raws : Nat) : FtlController cfg lbas :=
  let programmed : FtlController cfg lbas := ftl.programActivePage src
  let placed : FtlController cfg lbas :=
    { programmed with
      lbaTable :=
        tenants.foldl
          (fun table tenant => Function.update table tenant.lba
            (tenant.entry ftl.activeBlockIdx ftl.activePageIdx))
          ftl.lbaTable }
  let listed : FtlController cfg lbas :=
    placed.withOwners ftl.activeBlockIdx ftl.activePageIdx
      (ftl.blockPageOwners ftl.activeBlockIdx ftl.activePageIdx ++ tenants.map Tenant.owner)
  { listed with
    activePageIdx := ftl.activePageIdx + 1
    stagedHalf := none
    halfPagePacks := ftl.halfPagePacks + packs
    rawFullPages := ftl.rawFullPages + raws }

/-- The table after some tenants have been recorded: an entry is untouched or that of a tenant. -/
theorem record_apply (tenants : List Tenant) (blockIdx pageIdx lba : Nat)
    (table : Nat → MappingEntry) :
    let recorded :=
      tenants.foldl
        (fun table tenant => Function.update table tenant.lba (tenant.entry blockIdx pageIdx)) table
    ((∀ tenant ∈ tenants, tenant.lba ≠ lba) ∧ recorded lba = table lba) ∨
      ∃ tenant ∈ tenants, tenant.lba = lba ∧ recorded lba = tenant.entry blockIdx pageIdx := by
  induction tenants generalizing table with
  | nil => exact Or.inl ⟨by simp, rfl⟩
  | cons tenant tenants ih =>
      rcases ih (Function.update table tenant.lba (tenant.entry blockIdx pageIdx)) with
        ⟨others, kept⟩ | ⟨later, member, same, recorded⟩
      · by_cases same : tenant.lba = lba
        · refine Or.inr ⟨tenant, List.mem_cons_self, same, ?_⟩
          subst same
          exact kept.trans (by simp)
        · refine Or.inl ⟨?_, kept.trans (Function.update_of_ne (Ne.symm same) _ _)⟩
          simpa [same] using others
      · exact Or.inr ⟨later, List.mem_cons_of_mem _ member, same, recorded⟩

/-- A table entry after a page has been occupied is untouched or that of a tenant. -/
theorem occupyPage_lbaTable (ftl : FtlController cfg lbas) (src : Page) (tenants : List Tenant)
    (packs raws lba : Nat) :
    ((∀ tenant ∈ tenants, tenant.lba ≠ lba) ∧
        (ftl.occupyPage src tenants packs raws).lbaTable lba = ftl.lbaTable lba) ∨
      ∃ tenant ∈ tenants, tenant.lba = lba ∧
        (ftl.occupyPage src tenants packs raws).lbaTable lba =
          tenant.entry ftl.activeBlockIdx ftl.activePageIdx :=
  record_apply tenants ftl.activeBlockIdx ftl.activePageIdx lba ftl.lbaTable

/-- The next page of the active block exists. -/
def ActivePageInside (ftl : FtlController cfg lbas) : Prop :=
  ftl.activeBlockIdx < cfg.totalBlocks ∧ ftl.activePageIdx < cfg.pagesPerBlock

/-- `FlushStagedWrites` with a staged block is a program site with one tenant. -/
theorem flushStagedWrites_eq_ok {ftl ftl' : FtlController cfg lbas} {staged : StagedHalfPage}
    (waiting : ftl.stagedHalf = some staged) :
    ftl.flushStagedWrites = .ok ftl' ↔
      ∃ buf room, memcpy (Buffer.fill flashPageSize 0) 0 staged.data 0 halfPageSize = .ok buf ∧
        ftl.makeRoom = .ok room ∧ staged.lba < lbas ∧ room.ActivePageInside ∧
        ftl' = room.occupyPage buf [staged.tenant] 0 0 := by
  simp only [flushStagedWrites, waiting, bind_eq_ok, setEntry_eq_ok, pushOwner_eq_ok, ok_eq_ok]
  constructor
  · rintro ⟨buf, copied, room, made, _, ⟨lbaLt, rfl⟩, _, ⟨inside, rfl⟩, rfl⟩
    exact ⟨buf, room, copied, made, lbaLt, inside, rfl⟩
  · rintro ⟨buf, room, copied, made, lbaLt, inside, rfl⟩
    exact ⟨buf, copied, room, made, _, ⟨lbaLt, rfl⟩, _, ⟨inside, rfl⟩, rfl⟩

/-- Pair packing is a program site with two tenants. -/
theorem packWithStaged_eq_ok {ftl ftl' : FtlController cfg lbas} {staged : StagedHalfPage}
    {lba : Nat} {comp : CompressedBlock} :
    ftl.packWithStaged staged lba comp = .ok ftl' ↔
      ∃ half buf room, memcpy (Buffer.fill flashPageSize 0) 0 staged.data 0 halfPageSize = .ok half ∧
        memcpy half halfPageSize comp.data 0 comp.compressedSize = .ok buf ∧
        ftl.makeRoom = .ok room ∧ (staged.lba < lbas ∧ lba < lbas) ∧ room.ActivePageInside ∧
        ftl' = room.occupyPage buf
          [staged.tenant, ⟨lba, .compressedHalfPage, 1, comp.compressedSize⟩] 1 0 := by
  simp only [packWithStaged, bind_eq_ok, setEntry_eq_ok, pushOwner_eq_ok, ok_eq_ok]
  constructor
  · rintro ⟨half, first, buf, second, room, made, _, ⟨stagedLt, rfl⟩, _, ⟨lbaLt, rfl⟩, _,
      ⟨inside, rfl⟩, _, ⟨_, rfl⟩, rfl⟩
    refine ⟨half, buf, room, first, second, made, ⟨stagedLt, lbaLt⟩, inside, ?_⟩
    simp [occupyPage, withOwners, withEntry, programActivePage, Tenant.entry, Tenant.owner,
      StagedHalfPage.tenant]
  · rintro ⟨half, buf, room, first, second, made, ⟨stagedLt, lbaLt⟩, inside, rfl⟩
    refine ⟨half, first, buf, second, room, made, _, ⟨stagedLt, rfl⟩, _, ⟨lbaLt, rfl⟩, _,
      ⟨inside, rfl⟩, _, ⟨inside, rfl⟩, ?_⟩
    simp [occupyPage, withOwners, withEntry, programActivePage, Tenant.entry, Tenant.owner,
      StagedHalfPage.tenant]

/-- The tenant of a full page. -/
def fullTenant (lba : Nat) (comp : CompressedBlock) : Tenant :=
  ⟨lba, .rawFullPage, 0, comp.compressedSize⟩

/-- Collecting does not touch the staging buffer. -/
theorem makeRoom_stagedHalf {ftl room : FtlController cfg lbas} (made : ftl.makeRoom = .ok room) :
    room.stagedHalf = ftl.stagedHalf := by
  rw [makeRoom_eq] at made
  rcases runGarbageCollectionIfNeeded_eq_ok.mp made with
    ⟨_, rfl⟩ | ⟨_, _, rfl⟩ | ⟨_, _, migrated, moved, loop, victimLt, rfl⟩
  · rfl
  · rfl
  · refine foldlM_range_invariant (fun _ acc => acc.1.stagedHalf = ftl.stagedHalf) rfl ?_ loop
    rintro p ⟨s, k⟩ ⟨s', k'⟩ pageLt kept stepped
    rcases (migratePage_eq_ok victimLt pageLt).mp stepped with ⟨_, rfl, _⟩ | ⟨_, _, rfl, _⟩
    · exact kept
    · exact kept

/-- The staging buffer is empty after a flush. -/
theorem flushStagedWrites_stagedHalf {ftl flushed : FtlController cfg lbas}
    (flushes : ftl.flushStagedWrites = .ok flushed) : flushed.stagedHalf = none := by
  cases waiting : ftl.stagedHalf with
  | none =>
      simp only [flushStagedWrites, waiting, ok_eq_ok] at flushes
      rw [flushes, waiting]
  | some staged =>
      rcases (flushStagedWrites_eq_ok waiting).mp flushes with ⟨_, _, _, _, _, _, rfl⟩
      rfl

/-- A full-page write is a program site with one tenant, after the flush. -/
theorem writeFullPage_eq_ok {ftl ftl' : FtlController cfg lbas} {lba : Nat}
    {comp : CompressedBlock} :
    ftl.writeFullPage lba comp = .ok ftl' ↔
      ∃ flushed room, ftl.flushStagedWrites = .ok flushed ∧ flushed.makeRoom = .ok room ∧
        lba < lbas ∧ room.ActivePageInside ∧
        ftl' = room.occupyPage comp.data [fullTenant lba comp] 0 1 := by
  have flush : (if ftl.stagedHalf.isSome then ftl.flushStagedWrites else .ok ftl) =
      ftl.flushStagedWrites := by
    cases waiting : ftl.stagedHalf <;> simp [flushStagedWrites, waiting]
  have emptied : ∀ flushed room : FtlController cfg lbas, ftl.flushStagedWrites = .ok flushed →
      flushed.makeRoom = .ok room → room.stagedHalf = none := fun flushed room flushes made =>
    (makeRoom_stagedHalf made).trans (flushStagedWrites_stagedHalf flushes)
  simp only [writeFullPage, flush, bind_eq_ok, setEntry_eq_ok, pushOwner_eq_ok, ok_eq_ok]
  constructor
  · rintro ⟨flushed, flushes, room, made, _, ⟨lbaLt, rfl⟩, _, ⟨inside, rfl⟩, rfl⟩
    refine ⟨flushed, room, flushes, made, lbaLt, inside, ?_⟩
    simp [occupyPage, withOwners, withEntry, programActivePage, Tenant.entry, Tenant.owner,
      fullTenant, emptied flushed room flushes made]
  · rintro ⟨flushed, room, flushes, made, lbaLt, inside, rfl⟩
    refine ⟨flushed, flushes, room, made, _, ⟨lbaLt, rfl⟩, _, ⟨inside, rfl⟩, ?_⟩
    simp [occupyPage, withOwners, withEntry, programActivePage, Tenant.entry, Tenant.owner,
      fullTenant, emptied flushed room flushes made]

/-- Staging copies the compressed bytes into the buffer. -/
theorem stageHalfPage_eq_ok {ftl ftl' : FtlController cfg lbas} {lba : Nat}
    {comp : CompressedBlock} :
    ftl.stageHalfPage lba comp = .ok ftl' ↔
      ∃ data, memcpy (Buffer.fill halfPageSize 0) 0 comp.data 0 comp.compressedSize = .ok data ∧
        ftl' = { ftl with stagedHalf := some ⟨lba, comp.compressedSize, data⟩ } := by
  simp only [stageHalfPage, bind_eq_ok, ok_eq_ok]

/-- The flash after the old page of an LBA has been invalidated. -/
def invalidateOld (ftl : FtlController cfg lbas) (lba : Nat) : FlashModel cfg :=
  if (ftl.lbaTable lba).Mapped then
    ftl.flash.invalidatePage (ftl.lbaTable lba).blockIdx (ftl.lbaTable lba).pageIdx
  else ftl.flash

/-- Beginning a write invalidates the old page, drops a staged copy, and does nothing else. -/
theorem beginWrite_eq (ftl : FtlController cfg lbas) (lba : Nat) :
    ftl.beginWrite lba =
      { ftl with
        hostWrites := ftl.hostWrites + 1
        flash := ftl.invalidateOld lba
        stagedHalf := if ftl.stagedLba = some lba then none else ftl.stagedHalf } := by
  by_cases mapped : (ftl.lbaTable lba).Mapped <;>
    by_cases staged : ftl.stagedHalf.map (·.lba) = some lba <;>
      simp only [beginWrite, invalidateOld, stagedLba, mapped, staged, if_true, if_false]

section BeginWrite

variable (ftl : FtlController cfg lbas) (lba : Nat)

@[simp] theorem invalidateOld_isPageProgrammed (b p : Nat) :
    (ftl.invalidateOld lba).isPageProgrammed b p = ftl.flash.isPageProgrammed b p := by
  by_cases mapped : (ftl.lbaTable lba).Mapped <;> simp [invalidateOld, mapped]

@[simp] theorem invalidateOld_pageData (b p : Nat) :
    (ftl.invalidateOld lba).pageData b p = ftl.flash.pageData b p := by
  by_cases mapped : (ftl.lbaTable lba).Mapped <;> simp [invalidateOld, mapped]

@[simp] theorem invalidateOld_programCalls :
    (ftl.invalidateOld lba).programCalls = ftl.flash.programCalls := by
  by_cases mapped : (ftl.lbaTable lba).Mapped <;> simp [invalidateOld, mapped]

@[simp] theorem invalidateOld_totalPagesProgrammed :
    (ftl.invalidateOld lba).totalPagesProgrammed = ftl.flash.totalPagesProgrammed := by
  by_cases mapped : (ftl.lbaTable lba).Mapped <;> simp [invalidateOld, mapped]

theorem beginWrite_lbaTable : (ftl.beginWrite lba).lbaTable = ftl.lbaTable := by
  rw [beginWrite_eq]

theorem beginWrite_isPageProgrammed (b p : Nat) :
    (ftl.beginWrite lba).flash.isPageProgrammed b p = ftl.flash.isPageProgrammed b p := by
  rw [beginWrite_eq, invalidateOld_isPageProgrammed]

theorem beginWrite_pageData (b p : Nat) :
    (ftl.beginWrite lba).flash.pageData b p = ftl.flash.pageData b p := by
  rw [beginWrite_eq, invalidateOld_pageData]

theorem beginWrite_programCalls :
    (ftl.beginWrite lba).flash.programCalls = ftl.flash.programCalls := by
  rw [beginWrite_eq, invalidateOld_programCalls]

end BeginWrite

/-- The state after a zero block has been recorded. -/
def zeroed (ftl : FtlController cfg lbas) (lba : Nat) : FtlController cfg lbas :=
  { ftl.withEntry lba { ftl.lbaTable lba with state := .sparseZero, compressedSize := 0 } with
    zeroBlocks := ftl.zeroBlocks + 1 }

theorem writeZeroBlock_eq_ok {ftl ftl' : FtlController cfg lbas} {lba : Nat} :
    ftl.writeZeroBlock lba = .ok ftl' ↔ lba < lbas ∧ ftl' = ftl.zeroed lba := by
  simp only [writeZeroBlock, bind_eq_ok, setEntry_eq_ok, ok_eq_ok]
  constructor
  · rintro ⟨_, ⟨lbaLt, rfl⟩, rfl⟩
    exact ⟨lbaLt, rfl⟩
  · rintro ⟨lbaLt, rfl⟩
    exact ⟨_, ⟨lbaLt, rfl⟩, rfl⟩

/-- A block that is programmed: the page contents, the tenants and the block still being written afterwards,
    for each of the three places that program a page. The current write is `some (lba, src)` inside
    `WriteBlock` until its block has a place. -/
inductive ProgramSite (lz4 : Lz4) (ftl : FtlController cfg lbas) :
    Option (Nat × Page) → Page → List Tenant → Nat → Nat → Option (Nat × Page) → Prop where
  | flush {write : Option (Nat × Page)} {staged : StagedHalfPage} {buf : Page}
      (waiting : ftl.stagedHalf = some staged)
      (first : ∀ count, count ≤ halfPageSize → buf.slice 0 count = staged.data.slice 0 count) :
      ProgramSite lz4 ftl write buf [staged.tenant] 0 0 write
  | pack {lba : Nat} {src : Page} {staged : StagedHalfPage} {buf : Page}
      (waiting : ftl.stagedHalf = some staged)
      (nonzero : (compress lz4 (some src)).isZeroBlock = false)
      (half : (compress lz4 (some src)).compressedSize ≤ halfPageSize)
      (first : ∀ count, count ≤ halfPageSize → buf.slice 0 count = staged.data.slice 0 count)
      (second : ∀ count, count ≤ (compress lz4 (some src)).compressedSize →
        buf.slice halfPageSize count = (compress lz4 (some src)).data.slice 0 count) :
      ProgramSite lz4 ftl (some (lba, src)) buf
        [staged.tenant,
          ⟨lba, .compressedHalfPage, 1, (compress lz4 (some src)).compressedSize⟩] 1 0 none
  | full {lba : Nat} {src : Page} (idle : ftl.stagedHalf = none)
      (nonzero : (compress lz4 (some src)).isZeroBlock = false)
      (large : ¬(compress lz4 (some src)).compressedSize ≤ halfPageSize) :
      ProgramSite lz4 ftl (some (lba, src)) (compress lz4 (some src)).data
        [fullTenant lba (compress lz4 (some src))] 0 1 none

/-- `Q` holds of every state in which the call is about to program a page, before the check for a full
    block, together with the write in progress. -/
def AtEveryProgram (lz4 : Lz4) (Q : Option (Nat × Page) → FtlController cfg lbas → Prop)
    (ftl : FtlController cfg lbas) : HostCall → Prop
  | .writeBlock lba (some src) =>
      lba < lbas → (compress lz4 (some src)).isZeroBlock = false →
        ((ftl.beginWrite lba).stagedHalf.isSome → Q (some (lba, src)) (ftl.beginWrite lba)) ∧
        (¬(compress lz4 (some src)).compressedSize ≤ halfPageSize →
          ∀ flushed, (ftl.beginWrite lba).flushStagedWrites = .ok flushed →
            Q (some (lba, src)) flushed)
  | .flushStagedWrites => ftl.stagedHalf.isSome → Q none ftl
  | _ => True

instance {lz4 : Lz4} {Q : Option (Nat × Page) → FtlController cfg lbas → Prop}
    [∀ write s, Decidable (Q write s)] (ftl : FtlController cfg lbas) (hostCall : HostCall) :
    Decidable (AtEveryProgram lz4 Q ftl hostCall) :=
  match hostCall with
  | .writeBlock lba (some src) =>
      inferInstanceAs (Decidable (lba < lbas → (compress lz4 (some src)).isZeroBlock = false →
        ((ftl.beginWrite lba).stagedHalf.isSome → Q (some (lba, src)) (ftl.beginWrite lba)) ∧
        (¬(compress lz4 (some src)).compressedSize ≤ halfPageSize →
          ∀ flushed, (ftl.beginWrite lba).flushStagedWrites = .ok flushed →
            Q (some (lba, src)) flushed)))
  | .writeBlock _ none => .isTrue trivial
  | .readBlock _ _ => .isTrue trivial
  | .flushStagedWrites => inferInstanceAs (Decidable (ftl.stagedHalf.isSome → Q none ftl))

/-- A condition that always holds, holds at every program. -/
theorem atEveryProgram_true (lz4 : Lz4) (ftl : FtlController cfg lbas) (hostCall : HostCall) :
    AtEveryProgram lz4 (fun _ _ => True) ftl hostCall :=
  match hostCall with
  | .writeBlock _ (some _) => fun _ _ => ⟨fun _ => trivial, fun _ _ _ => trivial⟩
  | .writeBlock _ none => trivial
  | .readBlock _ _ => trivial
  | .flushStagedWrites => fun _ => trivial

/-- What follows from a condition at a state, follows at every program. -/
theorem AtEveryProgram.imp {lz4 : Lz4} {Q R : Option (Nat × Page) → FtlController cfg lbas → Prop}
    {ftl : FtlController cfg lbas} {hostCall : HostCall} (holds : AtEveryProgram lz4 Q ftl hostCall)
    (implies : ∀ write s, Q write s → R write s) : AtEveryProgram lz4 R ftl hostCall :=
  match hostCall, holds with
  | .writeBlock _ (some _), holds => fun inside nonzero =>
      ⟨fun waiting => implies _ _ ((holds inside nonzero).1 waiting),
        fun large flushed flushes => implies _ _ ((holds inside nonzero).2 large flushed flushes)⟩
  | .writeBlock _ none, _ => trivial
  | .readBlock _ _, _ => trivial
  | .flushStagedWrites, holds => fun waiting => implies _ _ (holds waiting)

/-- What the branches of `WriteBlock` make of a block, once the write has begun. -/
inductive Stored (lz4 : Lz4) (begun : FtlController cfg lbas) (lba : Nat) (src : Page) :
    FtlController cfg lbas → Prop where
  | zero (zero : (compress lz4 (some src)).isZeroBlock = true) :
      Stored lz4 begun lba src (begun.zeroed lba)
  | staged {data : Buffer UInt8 halfPageSize} (idle : begun.stagedHalf = none)
      (nonzero : (compress lz4 (some src)).isZeroBlock = false)
      (half : (compress lz4 (some src)).compressedSize ≤ halfPageSize)
      (copied : ∀ count, count ≤ (compress lz4 (some src)).compressedSize →
        data.slice 0 count = (compress lz4 (some src)).data.slice 0 count) :
      Stored lz4 begun lba src
        { begun with stagedHalf := some ⟨lba, (compress lz4 (some src)).compressedSize, data⟩ }
  | packed {buf : Page} {tenants : List Tenant} {room : FtlController cfg lbas}
      (waiting : begun.stagedHalf.isSome)
      (nonzero : (compress lz4 (some src)).isZeroBlock = false)
      (half : (compress lz4 (some src)).compressedSize ≤ halfPageSize)
      (site : ProgramSite lz4 begun (some (lba, src)) buf tenants 1 0 none)
      (made : begun.makeRoom = .ok room) (inside : room.ActivePageInside)
      (tenantsLt : ∀ tenant ∈ tenants, tenant.lba < lbas) :
      Stored lz4 begun lba src (room.occupyPage buf tenants 1 0)
  | full {flushed room : FtlController cfg lbas} (flushes : begun.flushStagedWrites = .ok flushed)
      (nonzero : (compress lz4 (some src)).isZeroBlock = false)
      (large : ¬(compress lz4 (some src)).compressedSize ≤ halfPageSize)
      (made : flushed.makeRoom = .ok room) (inside : room.ActivePageInside) (lbaLt : lba < lbas) :
      Stored lz4 begun lba src
        (room.occupyPage (compress lz4 (some src)).data [fullTenant lba (compress lz4 (some src))] 0 1)

/-- A write that is not refused is begun and stored. -/
theorem writeBlock_stored {lz4 : Lz4} {ftl ftl' : FtlController cfg lbas} {lba : Nat} {src : Page}
    {ok : Bool} (returned : ftl.writeBlock lz4 lba (some src) = .ok (ftl', ok)) (inside : lba < lbas) :
    ok = true ∧ Stored lz4 (ftl.beginWrite lba) lba src ftl' := by
  have notRefused : ¬lba ≥ lbas := Nat.not_le.mpr inside
  simp only [writeBlock, notRefused, if_false, checkIndex_of_lt inside, ok_bind, bind_eq_ok,
    ok_eq_ok, Prod.mk.injEq] at returned
  rcases returned with ⟨stored, storing, rfl, rfl⟩
  refine ⟨rfl, ?_⟩
  cases nonzero : (compress lz4 (some src)).isZeroBlock with
  | true =>
      simp only [storeBlock, nonzero, if_true, writeZeroBlock_eq_ok] at storing
      rw [storing.2]
      exact .zero nonzero
  | false =>
      by_cases half : (compress lz4 (some src)).compressedSize ≤ halfPageSize
      · simp only [storeBlock, nonzero, half, if_true, if_false, Bool.false_eq_true] at storing
        cases waiting : (ftl.beginWrite lba).stagedHalf with
        | none =>
            simp only [waiting, stageHalfPage_eq_ok] at storing
            rcases storing with ⟨data, copied, rfl⟩
            exact .staged waiting nonzero half fun count within => slice_memcpy_self copied within
        | some staged =>
            simp only [waiting, packWithStaged_eq_ok] at storing
            rcases storing with ⟨front, buf, room, first, second, made, tenantsLt, active, rfl⟩
            refine .packed (by simp [waiting]) nonzero half (.pack waiting nonzero half ?_ ?_) made
              active (by simpa [StagedHalfPage.tenant] using tenantsLt)
            · intro count within
              rw [slice_memcpy_before second (by omega), slice_memcpy_self first within]
            · exact fun count within => slice_memcpy_self second within
      · simp only [storeBlock, nonzero, half, if_false, Bool.false_eq_true,
          writeFullPage_eq_ok] at storing
        rcases storing with ⟨flushed, room, flushes, made, lbaLt, active, rfl⟩
        exact .full flushes nonzero half made active lbaLt

/-! ### Rules for host calls -/

section Rules

variable {lz4 : Lz4} {I Q : Option (Nat × Page) → FtlController cfg lbas → Prop}
  {ftl ftl' : FtlController cfg lbas}

/-- What a property must satisfy at the program sites: it is kept when room is made and a page is occupied. -/
def KeptByProgram (lz4 : Lz4) (I Q : Option (Nat × Page) → FtlController cfg lbas → Prop) : Prop :=
  ∀ s write buf tenants packs raws write' room, I write s → Q write s →
    ProgramSite lz4 s write buf tenants packs raws write' → s.makeRoom = .ok room →
      room.ActivePageInside → (∀ tenant ∈ tenants, tenant.lba < lbas) →
        I write' (room.occupyPage buf tenants packs raws)

/-- A flush keeps what its program site keeps. -/
theorem flushStagedWrites_rule (program : KeptByProgram lz4 I Q) (write : Option (Nat × Page))
    (flushes : ftl.flushStagedWrites = .ok ftl') (before : I write ftl)
    (site : ftl.stagedHalf.isSome → Q write ftl) : I write ftl' := by
  cases waiting : ftl.stagedHalf with
  | none =>
      simp only [flushStagedWrites, waiting, ok_eq_ok] at flushes
      rwa [flushes]
  | some staged =>
      rcases (flushStagedWrites_eq_ok waiting).mp flushes with
        ⟨buf, room, copied, made, lbaLt, inside, rfl⟩
      refine program _ _ _ _ _ _ _ _ before (site (by simp [waiting])) (.flush waiting ?_) made
        inside (by simpa [StagedHalfPage.tenant] using lbaLt)
      exact fun count within => slice_memcpy_self copied within

/-- A write that is not refused keeps what its branches keep. -/
theorem writeBlock_rule {lba : Nat} {src : Page} {ok : Bool}
    (returned : ftl.writeBlock lz4 lba (some src) = .ok (ftl', ok)) (inside : lba < lbas)
    (sites : AtEveryProgram lz4 Q ftl (.writeBlock lba (some src)))
    (begun : I (some (lba, src)) (ftl.beginWrite lba))
    (zero : ∀ s, I (some (lba, src)) s → (compress lz4 (some src)).isZeroBlock = true →
      I none (s.zeroed lba))
    (stage : ∀ s data, I (some (lba, src)) s → s.stagedHalf = none →
      (compress lz4 (some src)).isZeroBlock = false →
      (compress lz4 (some src)).compressedSize ≤ halfPageSize →
      (∀ count, count ≤ (compress lz4 (some src)).compressedSize →
        data.slice 0 count = (compress lz4 (some src)).data.slice 0 count) →
      I none { s with stagedHalf := some ⟨lba, (compress lz4 (some src)).compressedSize, data⟩ })
    (program : KeptByProgram lz4 I Q) :
    ok = true ∧ I none ftl' := by
  obtain ⟨acknowledged, stored⟩ := writeBlock_stored returned inside
  refine ⟨acknowledged, ?_⟩
  cases stored with
  | zero isZero => exact zero _ begun isZero
  | staged idle nonzero half copied => exact stage _ _ begun idle nonzero half copied
  | packed waiting nonzero half site made active tenantsLt =>
      exact program _ _ _ _ _ _ _ _ begun ((sites inside nonzero).1 waiting) site made active tenantsLt
  | full flushes nonzero large made active lbaLt =>
      have here := sites inside nonzero
      have after : I (some (lba, src)) _ :=
        flushStagedWrites_rule program _ flushes begun here.1
      exact program _ _ _ _ _ _ _ _ after (here.2 large _ flushes)
        (.full (flushStagedWrites_stagedHalf flushes) nonzero large) made active
        (by simpa [fullTenant] using lbaLt)

/-- The array after at most one `ReadPage`. -/
def ReadFrom (before after : FlashModel cfg) : Prop :=
  after = before ∨ ∃ blockIdx pageIdx dest, after = (before.readPage blockIdx pageIdx dest).1

theorem ReadFrom.sameArray {before after : FlashModel cfg} (reads : ReadFrom before after) :
    after.SameArray before := by
  rcases reads with rfl | ⟨blockIdx, pageIdx, dest, rfl⟩
  · exact ⟨rfl, rfl, rfl⟩
  · exact FlashModel.readPage_sameArray _ _ _ _

/-- A read is counted, and touches the array with one `ReadPage` at most. -/
theorem readBlock_flash {lba : Nat} {dest4kb dest' : Option Page} {ok : Bool}
    (returned : ftl.readBlock lz4 lba dest4kb = .ok (ftl', ok, dest')) :
    ftl' = ftl ∨ ∃ flash, ReadFrom ftl.flash flash ∧
      ftl' = { ftl with hostReads := ftl.hostReads + 1, flash := flash } := by
  cases dest4kb with
  | none =>
      simp only [readBlock, ok_eq_ok, Prod.mk.injEq] at returned
      exact Or.inl returned.1
  | some dest =>
      by_cases refused : lba ≥ lbas
      · simp only [readBlock, refused, if_true, ok_eq_ok, Prod.mk.injEq] at returned
        exact Or.inl returned.1
      · have inside : lba < lbas := by omega
        apply Or.inr
        simp only [readBlock, refused, if_false] at returned
        cases staged : ftl.stagedHalf.filter (·.lba = lba) with
        | some staged' =>
            simp only [staged, bind_eq_ok, ok_eq_ok, Prod.mk.injEq] at returned
            rcases returned with ⟨_, _, rfl, _⟩
            exact ⟨ftl.flash, Or.inl rfl, rfl⟩
        | none =>
            simp only [staged, checkIndex_of_lt inside, ok_bind] at returned
            cases state : (ftl.lbaTable lba).state with
            | unmapped =>
                simp only [state, ok_eq_ok, Prod.mk.injEq] at returned
                exact ⟨ftl.flash, Or.inl rfl, returned.1⟩
            | sparseZero =>
                simp only [state, ok_eq_ok, Prod.mk.injEq] at returned
                exact ⟨ftl.flash, Or.inl rfl, returned.1⟩
            | rawFullPage =>
                simp only [state, ok_eq_ok, Prod.mk.injEq] at returned
                exact ⟨_, Or.inr ⟨_, _, _, rfl⟩, returned.1⟩
            | compressedHalfPage =>
                refine ⟨_, Or.inr ⟨(ftl.lbaTable lba).blockIdx, (ftl.lbaTable lba).pageIdx,
                  Buffer.fill flashPageSize 0, rfl⟩, ?_⟩
                simp only [state] at returned
                split at returned
                · simp only [ok_eq_ok, Prod.mk.injEq] at returned
                  exact returned.1
                · simp only [bind_eq_ok, ok_eq_ok, Prod.mk.injEq] at returned
                  rcases returned with ⟨_, _, rfl, _⟩
                  rfl

/-- A read is counted and leaves everything but the read counters as it was. -/
theorem readBlock_state {lba : Nat} {dest4kb dest' : Option Page} {ok : Bool}
    (returned : ftl.readBlock lz4 lba dest4kb = .ok (ftl', ok, dest')) :
    ftl' = ftl ∨ ∃ flash : FlashModel cfg, flash.SameArray ftl.flash ∧
      ftl' = { ftl with hostReads := ftl.hostReads + 1, flash := flash } := by
  rcases readBlock_flash returned with rfl | ⟨flash, reads, rfl⟩
  · exact Or.inl rfl
  · exact Or.inr ⟨flash, reads.sameArray, rfl⟩

/-- The call is a write of `src` to an LBA in range. -/
def HostCall.Writes (lbas : Nat) (hostCall : HostCall) (lba : Nat) (src : Page) : Prop :=
  hostCall = .writeBlock lba (some src) ∧ lba < lbas

/-- The invariant rule for a host call: a property holds after a call if it holds once a write has begun,
    respectively before any other call, and is kept by reading, by recording a zero block, by staging, and
    by the program sites. -/
theorem call_readRule {hostCall : HostCall} {ok : Bool}
    (returned : ftl.call lz4 hostCall = .ok (ftl', ok))
    (begun : ∀ lba src, hostCall.Writes lbas lba src → I (some (lba, src)) (ftl.beginWrite lba))
    (before : (∀ lba src, ¬hostCall.Writes lbas lba src) → I none ftl)
    (sites : AtEveryProgram lz4 Q ftl hostCall)
    (read : ∀ s flash, I none s → ReadFrom s.flash flash →
      I none { s with hostReads := s.hostReads + 1, flash := flash })
    (zero : ∀ s lba src, I (some (lba, src)) s → lba < lbas →
      (compress lz4 (some src)).isZeroBlock = true → I none (s.zeroed lba))
    (stage : ∀ s lba src data, I (some (lba, src)) s → lba < lbas → s.stagedHalf = none →
      (compress lz4 (some src)).isZeroBlock = false →
      (compress lz4 (some src)).compressedSize ≤ halfPageSize →
      (∀ count, count ≤ (compress lz4 (some src)).compressedSize →
        data.slice 0 count = (compress lz4 (some src)).data.slice 0 count) →
      I none { s with stagedHalf := some ⟨lba, (compress lz4 (some src)).compressedSize, data⟩ })
    (program : KeptByProgram lz4 I Q) : I none ftl' := by
  cases hostCall with
  | writeBlock lba src4kb =>
      cases src4kb with
      | none =>
          simp only [call, writeBlock, ok_eq_ok, Prod.mk.injEq] at returned
          rw [returned.1]
          exact before fun _ _ writes => nomatch writes.1
      | some src =>
          by_cases inside : lba < lbas
          · exact (writeBlock_rule returned inside sites (begun lba src ⟨rfl, inside⟩)
              (fun s kept => zero s lba src kept inside)
              (fun s data kept => stage s lba src data kept inside) program).2
          · have refused : lba ≥ lbas := Nat.not_lt.mp inside
            simp only [call, writeBlock, refused, if_true, ok_eq_ok, Prod.mk.injEq] at returned
            rw [returned.1]
            apply before
            rintro _ _ ⟨same, inside'⟩
            cases same
            exact inside inside'
  | readBlock lba dest4kb =>
      have unchanged : I none ftl := before fun _ _ writes => nomatch writes.1
      simp only [call, bind_eq_ok, ok_eq_ok, Prod.mk.injEq, Prod.exists] at returned
      rcases returned with ⟨read', _, _, reads, rfl, _⟩
      rcases readBlock_flash reads with rfl | ⟨flash, touched, rfl⟩
      · exact unchanged
      · exact read _ _ unchanged touched
  | flushStagedWrites =>
      simp only [call, bind_eq_ok, ok_eq_ok, Prod.mk.injEq] at returned
      rcases returned with ⟨flushed, flushes, rfl, _⟩
      exact flushStagedWrites_rule program _ flushes (before fun _ _ writes => nomatch writes.1) sites

/-- The invariant rule for a host call, for a property that does not depend on how often the array has been read. -/
theorem call_rule {hostCall : HostCall} {ok : Bool}
    (returned : ftl.call lz4 hostCall = .ok (ftl', ok))
    (begun : ∀ lba src, hostCall.Writes lbas lba src → I (some (lba, src)) (ftl.beginWrite lba))
    (before : (∀ lba src, ¬hostCall.Writes lbas lba src) → I none ftl)
    (sites : AtEveryProgram lz4 Q ftl hostCall)
    (read : ∀ s flash, I none s → flash.SameArray s.flash →
      I none { s with hostReads := s.hostReads + 1, flash := flash })
    (zero : ∀ s lba src, I (some (lba, src)) s → lba < lbas →
      (compress lz4 (some src)).isZeroBlock = true → I none (s.zeroed lba))
    (stage : ∀ s lba src data, I (some (lba, src)) s → lba < lbas → s.stagedHalf = none →
      (compress lz4 (some src)).isZeroBlock = false →
      (compress lz4 (some src)).compressedSize ≤ halfPageSize →
      (∀ count, count ≤ (compress lz4 (some src)).compressedSize →
        data.slice 0 count = (compress lz4 (some src)).data.slice 0 count) →
      I none { s with stagedHalf := some ⟨lba, (compress lz4 (some src)).compressedSize, data⟩ })
    (program : KeptByProgram lz4 I Q) : I none ftl' :=
  call_readRule returned begun before sites (fun s flash kept touched => read s flash kept touched.sameArray) zero
    stage program

/-- What holds once a write has begun, respectively before any other call, and is kept by the program sites,
    holds at every program of the call. -/
theorem atEveryProgram_rule {hostCall : HostCall}
    (begun : ∀ lba src, hostCall.Writes lbas lba src → I (some (lba, src)) (ftl.beginWrite lba))
    (before : (∀ lba src, ¬hostCall.Writes lbas lba src) → I none ftl)
    (sites : AtEveryProgram lz4 Q ftl hostCall) (program : KeptByProgram lz4 I Q) :
    AtEveryProgram lz4 I ftl hostCall := by
  match hostCall with
  | .writeBlock lba (some src) =>
      intro inside nonzero
      have first := begun lba src ⟨rfl, inside⟩
      exact ⟨fun _ => first, fun _ flushed flushes =>
        flushStagedWrites_rule program (some (lba, src)) flushes first (sites inside nonzero).1⟩
  | .writeBlock _ none => trivial
  | .readBlock _ _ => trivial
  | .flushStagedWrites => exact fun _ => before fun _ _ writes => nomatch writes.1

end Rules

end FtlController

end Zftl
