/-
Module: Zftl.Controller.SizeClasses
Layer: Controller
Purpose: The forms of a block on its way through the controller: elided, staged, alone in the first half of a
  page, in either half of a packed page, or in a full page. `Kept` says that the host's block can be
  recovered from the form it has at the moment, and every step that programs no used page keeps it. The
  classes of `Compress` and `WriteBlock` leave a gap: 2049 to 3071 compressed bytes go to a full page, which
  `ReadBlock` does not decompress.
Imports: Zftl.Controller.ReadYourWrites
Trusted boundary: none
Main exports: Reads, NextPagesErased, WriteReadsBack, InvertibleForm, Kept, Kept.occupyPage, Stored.kept,
  writeReadsBack_iff
Open obligations: none
-/
import Zftl.Controller.ReadYourWrites

namespace Zftl

open Fallible Lz4Compressor

variable {lz4 : Lz4}

/-- LZ4 is not asked for the block, or does not compress it to 2049 to 3071 bytes, or returns it unchanged. -/
def InvertibleForm (lz4 : Lz4) (src : Page) : Prop :=
  src = Buffer.fill flashPageSize 0 ∨ (lz4.compressDefault src).1 ≤ 2048 ∨
    3072 ≤ (lz4.compressDefault src).1 ∨ (lz4.compressDefault src).2 = src

/-- What the controller keeps of a block: the block itself as far as it is elided or compressed into a half page,
    and otherwise the bytes it programs. -/
def keptBlock (lz4 : Lz4) (src : Page) : Page :=
  if (compress lz4 (some src)).isZeroBlock = true ∨
      (compress lz4 (some src)).compressedSize ≤ halfPageSize then src
  else (compress lz4 (some src)).data

/-- The controller keeps exactly the blocks of invertible form. -/
theorem keptBlock_eq_iff {src : Page} : keptBlock lz4 src = src ↔ InvertibleForm lz4 src := by
  have zero := @compress_isZeroBlock lz4 src
  by_cases zeros : allZeros src = true
  · have isZero := allZeros_iff.mp zeros
    rw [keptBlock, if_pos (Or.inl (zero.mpr isZero))]
    exact iff_of_true rfl (Or.inl isZero)
  · have nonzero := mt allZeros_iff.mpr zeros
    have notZero : (compress lz4 (some src)).isZeroBlock = false := Bool.eq_false_iff.mpr (mt zero.mp nonzero)
    simp only [keptBlock, notZero, Bool.false_eq_true, false_or, InvertibleForm, nonzero]
    by_cases raw : (lz4.compressDefault src).1 ≤ 0 ∨ (lz4.compressDefault src).1 ≥ 3072
    · -- LZ4 declines the block, or saves less than 1024 bytes.
      have data : (compress lz4 (some src)).data = src := by simp [compress, zeros, raw]
      rw [data, ite_self]
      exact iff_of_true rfl (by omega)
    · obtain ⟨size, data⟩ := compress_compressed zeros raw
      rw [size, data]
      by_cases half : (lz4.compressDefault src).1.toNat ≤ halfPageSize
      · have small : (lz4.compressDefault src).1 ≤ 2048 := by
          rw [halfPageSize] at half
          omega
        rw [if_pos half]
        exact iff_of_true rfl (Or.inl small)
      · have between : ¬(lz4.compressDefault src).1 ≤ 2048 ∧ ¬3072 ≤ (lz4.compressDefault src).1 := by
          rw [halfPageSize] at half
          omega
        rw [if_neg half]
        simp [between]

namespace FtlController

variable {cfg : FlashConfig} {lbas : Nat}

/-- The host reads `page` from an LBA, whatever is in its buffer. -/
def Reads (lz4 : Lz4) (ftl : FtlController cfg lbas) (lba : Nat) (page : Page) : Prop :=
  ∀ dest, ∃ ftl', ftl.readBlock lz4 lba (some dest) = .ok (ftl', true, some page)

/-- A read delivers one block. -/
theorem Reads.unique {ftl : FtlController cfg lbas} {lba : Nat} {page page' : Page}
    (reads : Reads lz4 ftl lba page) (reads' : Reads lz4 ftl lba page') : page = page' := by
  obtain ⟨_, read⟩ := reads page
  obtain ⟨_, read'⟩ := reads' page
  have same := Except.ok.inj (read.symm.trans read')
  exact Option.some.inj (Prod.mk.inj (Prod.mk.inj same).2).2

/-- The next `count` pages of the active block exist and are erased. -/
def NextPagesErased (ftl : FtlController cfg lbas) (count : Nat) : Prop :=
  ∀ k < count, ftl.activePageIdx + k < cfg.pagesPerBlock ∧
    ftl.flash.isPageProgrammed ftl.activeBlockIdx (ftl.activePageIdx + k) = false

instance (ftl : FtlController cfg lbas) (count : Nat) : Decidable (ftl.NextPagesErased count) :=
  inferInstanceAs (Decidable (∀ k < count, _))

/-- After a write the host reads back what it wrote: at once, and from then on while the block is staged, after
    a flush and after a write to any other LBA. -/
def WriteReadsBack (lz4 : Lz4) (ftl : FtlController cfg lbas) (lba : Nat) (src : Page) : Prop :=
  ∃ written, ftl.writeBlock lz4 lba (some src) = .ok (written, true) ∧ Reads lz4 written lba src ∧
    (written.stagedLba = some lba →
      (∃ flushed, written.flushStagedWrites = .ok flushed ∧ Reads lz4 flushed lba src) ∧
        ∀ other second, other ≠ lba → ∃ later ok,
          written.writeBlock lz4 other (some second) = .ok (later, ok) ∧ Reads lz4 later lba src)

/-! ### Erased pages ahead -/

namespace NextPagesErased

variable {ftl : FtlController cfg lbas} {count : Nat}

/-- No collection runs while a page is left. -/
theorem makeRoom (erased : ftl.NextPagesErased (count + 1)) : ftl.makeRoom = .ok ftl := by
  have inside := (erased 0 (Nat.succ_pos count)).1
  rw [makeRoom_eq]
  exact runGarbageCollectionIfNeeded_eq_ok.mpr (Or.inl ⟨inside, rfl⟩)

/-- The next page is erased. -/
theorem blank (erased : ftl.NextPagesErased (count + 1)) :
    ftl.flash.isPageProgrammed ftl.activeBlockIdx ftl.activePageIdx = false :=
  (erased 0 (Nat.succ_pos count)).2

theorem beginWrite (erased : ftl.NextPagesErased count) (lba : Nat) :
    (ftl.beginWrite lba).NextPagesErased count := by
  intro k below
  have page := erased k below
  rw [beginWrite_isPageProgrammed]
  simpa only [beginWrite_eq] using page

/-- Occupying the next page uses it up. -/
theorem occupyPage (erased : ftl.NextPagesErased (count + 1)) (buf : Page) (tenants : List Tenant)
    (packs raws : Nat) : (ftl.occupyPage buf tenants packs raws).NextPagesErased count := by
  intro k below
  have page := erased (k + 1) (Nat.succ_lt_succ below)
  have later : ftl.activePageIdx + 1 + k = ftl.activePageIdx + (k + 1) := by omega
  have other : ¬(ftl.activeBlockIdx = ftl.activeBlockIdx ∧
      ftl.activePageIdx + (k + 1) = ftl.activePageIdx) := by omega
  show ftl.activePageIdx + 1 + k < cfg.pagesPerBlock ∧ _
  refine ⟨later ▸ page.1, ?_⟩
  show (ftl.occupyPage buf tenants packs raws).flash.isPageProgrammed ftl.activeBlockIdx
    (ftl.activePageIdx + 1 + k) = false
  rw [later, (occupyPage_page_of_ne buf tenants packs raws other).1]
  exact page.2

/-- A flush uses up at most one page. -/
theorem flushStagedWrites (erased : ftl.NextPagesErased (count + 1)) {flushed : FtlController cfg lbas}
    (flushes : ftl.flushStagedWrites = .ok flushed) : flushed.NextPagesErased count := by
  cases waiting : ftl.stagedHalf with
  | none =>
      simp only [FtlController.flushStagedWrites, waiting, ok_eq_ok] at flushes
      rw [flushes]
      exact fun k below => erased k (Nat.lt_succ_of_lt below)
  | some staged =>
      obtain ⟨_, room, _, made, _, _, rfl⟩ := (flushStagedWrites_eq_ok waiting).mp flushes
      obtain rfl : ftl = room := Except.ok.inj (erased.makeRoom.symm.trans made)
      exact erased.occupyPage _ _ _ _

end NextPagesErased

/-! ### One block -/

/-- The block can be recovered from the staging buffer, or else from where the entry of its LBA says. -/
inductive Kept (lz4 : Lz4) (ftl : FtlController cfg lbas) (lba : Nat) (page : Page) : Prop where
  | staged {staged : StagedHalfPage} (waiting : ftl.stagedHalf = some staged) (same : staged.lba = lba)
      (restores : ∀ dest, lz4.decompressSafe (staged.data.slice 0 staged.compSize) dest =
        ((flashPageSize : Int), page))
  | stored (notStaged : ftl.stagedLba ≠ some lba)
      (programmed : (ftl.lbaTable lba).Mapped →
        ftl.flash.isPageProgrammed (ftl.lbaTable lba).blockIdx (ftl.lbaTable lba).pageIdx = true)
      (holds : Holds lz4 ftl.flash (ftl.lbaTable lba) page)

namespace Kept

variable {ftl : FtlController cfg lbas} {lba : Nat} {page : Page}

/-- A block that is kept is read. -/
theorem reads (kept : Kept lz4 ftl lba page) (geometry : cfg.Addressable) (safe : ftl.IndexSafe)
    (inside : lba < lbas) : Reads lz4 ftl lba page := by
  intro dest
  cases kept with
  | staged waiting same restores =>
      subst same
      exact readBlock_of_staged waiting inside (safe.staged _ waiting).2.2 dest (restores dest)
  | stored notStaged programmed holds =>
      exact readBlock_of_holds geometry.fullPage safe inside notStaged programmed holds dest

/-- Beginning a write to another LBA. -/
theorem beginWrite (kept : Kept lz4 ftl lba page) {other : Nat} (apart : other ≠ lba) :
    Kept lz4 (ftl.beginWrite other) lba page := by
  cases kept with
  | @staged staged waiting same restores =>
      refine .staged ?_ same restores
      have notDropped : ftl.stagedLba ≠ some other := by
        rw [stagedLba, waiting, Option.map_some, same]
        exact fun dropped => apart (Option.some.inj dropped).symm
      rw [beginWrite_eq, if_neg notDropped]
      exact waiting
  | stored notStaged programmed holds =>
      refine .stored ?_ ?_ ?_
      · rw [Placed.beginWrite_stagedLba]
        split
        · exact (Option.some_ne_none lba).symm
        · exact notStaged
      · rw [beginWrite_lbaTable, beginWrite_isPageProgrammed]
        exact programmed
      · rw [beginWrite_lbaTable]
        exact holds.moved fun _ => beginWrite_pageData ftl other _ _

/-- Recording a zero block for another LBA. -/
theorem zeroed (kept : Kept lz4 ftl lba page) {other : Nat} (apart : other ≠ lba) :
    Kept lz4 (ftl.zeroed other) lba page := by
  have entry : (ftl.zeroed other).lbaTable lba = ftl.lbaTable lba :=
    Placed.zeroed_lbaTable_of_ne ftl apart.symm
  cases kept with
  | staged waiting same restores => exact .staged waiting same restores
  | stored notStaged programmed holds =>
      refine .stored notStaged ?_ ?_
      · rw [entry]
        exact programmed
      · rw [entry]
        exact holds

/-- A tenant of a freshly occupied page is kept. -/
theorem of_tenant {buf : Page} {tenants : List Tenant} {packs raws : Nat} (geometry : cfg.Addressable)
    (inside : ftl.ActivePageInside)
    (blank : ftl.flash.isPageProgrammed ftl.activeBlockIdx ftl.activePageIdx = false)
    (unique : ∀ left ∈ tenants, ∀ right ∈ tenants, left.lba = right.lba → left = right)
    {tenant : Tenant} (member : tenant ∈ tenants) (stores : tenant.Stores lz4 buf page) :
    Kept lz4 (ftl.occupyPage buf tenants packs raws) tenant.lba page := by
  have target := occupyPage_page buf tenants packs raws geometry.fullPage inside blank
  have entry := occupyPage_entry_of_tenant buf packs raws geometry inside unique member
  refine .stored nofun ?_ ?_
  · rw [entry]
    exact fun _ => target.1
  · rw [entry]
    exact holds_of_stores stores target.2.2

/-- Programming the next page for a write to other LBAs keeps the block: a staged one goes along into the first
    half, and no other page is touched. -/
theorem occupyPage (kept : Kept lz4 ftl lba page) (geometry : cfg.Addressable) (safe : ftl.IndexSafe)
    (inside : ftl.ActivePageInside)
    (blank : ftl.flash.isPageProgrammed ftl.activeBlockIdx ftl.activePageIdx = false)
    {write write' : Option (Nat × Page)} {buf : Page} {tenants : List Tenant} {packs raws : Nat}
    (site : ProgramSite lz4 ftl write buf tenants packs raws write')
    (fit : TenantsFit write ftl tenants write') (notWritten : write.map Prod.fst ≠ some lba) :
    Kept lz4 (ftl.occupyPage buf tenants packs raws) lba page := by
  cases kept with
  | @staged staged waiting same restores =>
      subst same
      have sizes := safe.staged staged waiting
      have seated : staged.tenant ∈ tenants ∧ staged.tenant.Stores lz4 buf page := by
        cases site with
        | flush waiting' first =>
            obtain rfl := Option.some.inj (waiting.symm.trans waiting')
            exact ⟨List.mem_singleton_self _, StagedHalfPage.tenant_stores sizes.2.2 first restores⟩
        | pack waiting' _ _ first _ =>
            obtain rfl := Option.some.inj (waiting.symm.trans waiting')
            exact ⟨List.mem_cons_self, StagedHalfPage.tenant_stores sizes.2.2 first restores⟩
        | full idle _ _ =>
            rw [idle] at waiting
            cases waiting
      exact of_tenant geometry inside blank fit.unique seated.1 seated.2
  | stored notStaged programmed holds =>
      have notTenant : ¬∃ tenant ∈ tenants, tenant.lba = lba := fun tenanted =>
        ((fit.inFlight lba).mpr (Or.inl tenanted)).elim notWritten notStaged
      have entry : (ftl.occupyPage buf tenants packs raws).lbaTable lba = ftl.lbaTable lba := by
        rcases ftl.occupyPage_lbaTable buf tenants packs raws lba with
          ⟨_, untouched⟩ | ⟨tenant, member, same, _⟩
        · exact untouched
        · exact absurd ⟨tenant, member, same⟩ notTenant
      have elsewhere : (ftl.lbaTable lba).Mapped →
          ¬(ftl.lbaTable lba).At ftl.activeBlockIdx ftl.activePageIdx := by
        rintro mapped ⟨sameBlock, samePage⟩
        have used := programmed mapped
        rw [sameBlock, samePage, blank] at used
        cases used
      refine .stored nofun ?_ ?_
      · rw [entry]
        intro mapped
        rw [(occupyPage_page_of_ne buf tenants packs raws (elsewhere mapped)).1]
        exact programmed mapped
      · rw [entry]
        exact holds.moved fun mapped =>
          (occupyPage_page_of_ne buf tenants packs raws (elsewhere mapped)).2.2

end Kept

/-! ### Calls -/

section Calls

variable {ftl ftl' : FtlController cfg lbas} {lba : Nat} {src page : Page}

/-- A flush keeps every block. -/
theorem Kept.flushStagedWrites (kept : Kept lz4 ftl lba page) (geometry : cfg.Addressable)
    (safe : ftl.IndexSafe) {count : Nat} (erased : ftl.NextPagesErased (count + 1))
    (flushes : ftl.flushStagedWrites = .ok ftl') : Kept lz4 ftl' lba page := by
  cases waiting : ftl.stagedHalf with
  | none =>
      simp only [FtlController.flushStagedWrites, waiting, ok_eq_ok] at flushes
      rwa [flushes]
  | some staged =>
      obtain ⟨buf, room, copied, made, lbaLt, inside, rfl⟩ :=
        (flushStagedWrites_eq_ok waiting).mp flushes
      obtain rfl : ftl = room := Except.ok.inj (erased.makeRoom.symm.trans made)
      have site : ProgramSite lz4 ftl none buf [staged.tenant] 0 0 none :=
        .flush waiting fun count within => slice_memcpy_self copied within
      have fit := site.tenantsFit (fun other written => absurd written (notWritten_none other))
        (by simpa [StagedHalfPage.tenant] using lbaLt)
      exact kept.occupyPage geometry safe inside erased.blank site fit (notWritten_none lba)

/-- What a write leaves behind: the block it keeps, and both pages as long as the block is staged. -/
theorem Stored.kept (stored : Stored lz4 ftl lba src ftl') (codec : lz4.RoundTrips)
    (geometry : cfg.Addressable) (erased : ftl.NextPagesErased 2) (notStaged : ftl.stagedLba ≠ some lba) :
    Kept lz4 ftl' lba (keptBlock lz4 src) ∧
      (ftl'.stagedLba = some lba → ftl'.NextPagesErased 2) := by
  cases stored with
  | zero zero =>
      have entry : (ftl.zeroed lba).lbaTable lba =
          { ftl.lbaTable lba with state := .sparseZero, compressedSize := 0 } :=
        Function.update_self _ _ _
      rw [keptBlock, if_pos (Or.inl zero)]
      refine ⟨.stored notStaged ?_ ?_, fun staged => absurd staged notStaged⟩
      · rw [entry]
        rintro (state | state) <;> cases state
      · rw [entry]
        exact compress_isZeroBlock.mp zero
  | staged idle nonzero half copied =>
      rw [keptBlock, if_pos (Or.inr half)]
      refine ⟨.staged rfl rfl fun dest => ?_, fun _ => erased⟩
      rw [copied _ (Nat.le_refl _)]
      exact restores_compress codec nonzero half dest
  | packed waiting nonzero half site made inside tenantsLt =>
      obtain rfl := Except.ok.inj (erased.makeRoom.symm.trans made)
      have distinct : ∀ other, (some (lba, src)).map Prod.fst = some other →
          ftl.stagedLba ≠ some other := fun other written => Option.some.inj written ▸ notStaged
      have fit := site.tenantsFit distinct tenantsLt
      rw [keptBlock, if_pos (Or.inr half)]
      refine ⟨?_, nofun⟩
      cases site with
      | pack _ _ _ _ second =>
          exact .of_tenant geometry inside erased.blank fit.unique
            (List.mem_cons_of_mem _ (List.mem_singleton_self _))
            (stores_second codec lba nonzero half second)
  | full flushes nonzero large made inside lbaLt =>
      have after := erased.flushStagedWrites flushes
      obtain rfl := Except.ok.inj (after.makeRoom.symm.trans made)
      rw [keptBlock, if_neg (by simp [nonzero, large])]
      refine ⟨?_, nofun⟩
      exact .of_tenant geometry inside after.blank (by simp) (List.mem_singleton_self _)
        (Or.inl ⟨rfl, rfl⟩)

/-- A write to another LBA keeps the block. -/
theorem Kept.writeBlock (kept : Kept lz4 ftl lba page) (geometry : cfg.Addressable) (safe : ftl.IndexSafe)
    (erased : ftl.NextPagesErased 2) {other : Nat} {second : Page} {ok : Bool} (apart : other ≠ lba)
    (returned : ftl.writeBlock lz4 other (some second) = .ok (ftl', ok)) : Kept lz4 ftl' lba page := by
  by_cases refused : other ≥ lbas
  · simp only [FtlController.writeBlock, refused, if_true, ok_eq_ok, Prod.mk.injEq] at returned
    rwa [returned.1]
  have begun := kept.beginWrite apart
  have begunSafe := safe.beginWrite other
  have begunErased := erased.beginWrite other
  have distinct : ∀ written, (some (other, second)).map Prod.fst = some written →
      (ftl.beginWrite other).stagedLba ≠ some written := fun written same =>
    Option.some.inj same ▸ Placed.beginWrite_notStaged ftl other
  have notWritten : (some (other, second)).map Prod.fst ≠ some lba := fun same =>
    apart (Option.some.inj same)
  obtain ⟨_, stored⟩ := writeBlock_stored returned (Nat.not_le.mp refused)
  cases stored with
  | zero _ => exact begun.zeroed apart
  | staged idle _ _ _ =>
      cases begun with
      | staged waiting _ _ =>
          rw [idle] at waiting
          cases waiting
      | stored _ programmed holds =>
          exact .stored (fun same => apart (Option.some.inj same)) programmed holds
  | packed _ _ _ site made inside tenantsLt =>
      obtain rfl := Except.ok.inj (begunErased.makeRoom.symm.trans made)
      exact begun.occupyPage geometry begunSafe inside begunErased.blank site
        (site.tenantsFit distinct tenantsLt) notWritten
  | full flushes nonzero large made inside lbaLt =>
      have after := begunErased.flushStagedWrites flushes
      obtain rfl := Except.ok.inj (after.makeRoom.symm.trans made)
      obtain ⟨flushed, flushes', flushedSafe⟩ :=
        begunSafe.flushStagedWrites geometry.twoBlocks geometry.onePage
      obtain rfl := Except.ok.inj (flushes'.symm.trans flushes)
      have idle := flushStagedWrites_stagedHalf flushes
      have site : ProgramSite lz4 flushed (some (other, second)) _ _ 0 1 none :=
        .full idle nonzero large
      have fit := site.tenantsFit (fun _ _ => by simp [stagedLba, idle])
        (by simpa [fullTenant] using lbaLt)
      exact (begun.flushStagedWrites geometry begunSafe begunErased flushes).occupyPage geometry
        flushedSafe inside after.blank site fit notWritten

/-- A write with two erased pages ahead reads back exactly if the controller keeps the block it was given: elided,
    staged, alone or paired in the first half of a page, in the second half, or in a full page. -/
theorem writeReadsBack_iff {capacity : Nat} {ftl : FtlController cfg (lbaCount capacity)}
    (codec : lz4.RoundTrips) (geometry : cfg.Addressable)
    (reachable : Reachable (FtlController.call lz4) (FtlController.fresh cfg capacity) ftl)
    (erased : ftl.NextPagesErased 2) {lba : Nat} (inside : lba < lbaCount capacity) (src : Page) :
    WriteReadsBack lz4 ftl lba src ↔ InvertibleForm lz4 src := by
  have safe : ftl.IndexSafe := reachable_indexSafe geometry.twoBlocks geometry.onePage reachable
  obtain ⟨written, ok, returned⟩ :=
    safe.call_total lz4 geometry.twoBlocks geometry.onePage (.writeBlock lba (some src))
  have writtenSafe := safe.call geometry.twoBlocks geometry.onePage returned
  have returned : ftl.writeBlock lz4 lba (some src) = .ok (written, ok) := returned
  obtain ⟨rfl, stored⟩ := writeBlock_stored returned inside
  obtain ⟨kept, pagesLeft⟩ := stored.kept codec geometry (erased.beginWrite lba)
    (Placed.beginWrite_notStaged ftl lba)
  have reads := kept.reads geometry writtenSafe inside
  rw [← keptBlock_eq_iff]
  constructor
  · rintro ⟨written', returned', reads', _⟩
    obtain rfl := (Prod.mk.inj (Except.ok.inj (returned.symm.trans returned'))).1
    exact reads.unique reads'
  · intro same
    rw [same] at kept reads
    refine ⟨written, returned, reads, fun staged => ⟨?_, fun other second apart => ?_⟩⟩
    · have erased' := pagesLeft staged
      obtain ⟨flushed, flushes, flushedSafe⟩ :=
        writtenSafe.flushStagedWrites geometry.twoBlocks geometry.onePage
      have keptOn := kept.flushStagedWrites geometry writtenSafe erased' flushes
      exact ⟨flushed, flushes, keptOn.reads geometry flushedSafe inside⟩
    · have erased' := pagesLeft staged
      obtain ⟨later, ok, returned'⟩ :=
        writtenSafe.call_total lz4 geometry.twoBlocks geometry.onePage (.writeBlock other (some second))
      have laterSafe := writtenSafe.call geometry.twoBlocks geometry.onePage returned'
      have keptOn := kept.writeBlock geometry writtenSafe erased' apart returned'
      exact ⟨later, ok, returned', keptOn.reads geometry laterSafe inside⟩

end Calls

/-- Two blocks of three pages. -/
def sixPages : FlashConfig := { fourPages with pagesPerBlock := 3, totalBlocks := 2 }

/-- With LBA 1 staged, a write of LBA 0 goes into the second half of a page. -/
theorem secondHalf_readsBack :
    ∃ ftl : FtlController sixPages (lbaCount 8192), ftl.stagedLba = some 1 ∧
      WriteReadsBack constantLz4 ftl 0 (Buffer.fill flashPageSize 2) := by
  rcases (Option.any_eq_true _ _).mp
      (by decide +kernel : (execute (FtlController.call constantLz4) (fun _ _ => True)
        [.writeBlock 1 (some (Buffer.fill flashPageSize 1))] ([], FtlController.fresh sixPages 8192)).any
          fun run => decide (run.2.stagedLba = some 1 ∧ run.2.NextPagesErased 2)) with
    ⟨⟨events, ftl⟩, executed, observed⟩
  obtain ⟨staged, erased⟩ := of_decide_eq_true observed
  refine ⟨ftl, staged, ?_⟩
  rw [writeReadsBack_iff constantLz4_roundTrips (by decide) ⟨events, Trace.nil.execute executed⟩ erased
    (by decide)]
  exact Or.inr (Or.inl (by decide +kernel))

/-! ### A size between the two thresholds -/

/-- Whether the last 1596 bytes of a block are zero. -/
def zeroTail (src : Page) : Bool := (List.range 1596).all fun i => byteAt src (2500 + i) == 0

/-- An LZ4 stream of a block whose last 1596 bytes are zero: 2509 literals, a match of 1582 bytes at offset 9, and
    five literals. The search takes steps of nine bytes by then. -/
def zeroTailStream (src : Page) : Page := fun i =>
  let header : List UInt8 := List.replicate 10 0xFF ++ [0xC7]
  let trailer : List UInt8 := [0x09, 0x00] ++ List.replicate 6 0xFF ++ [0x21, 0x50]
  if i.val < 11 then header.getD i.val 0
  else if i.val < 2520 then byteAt src (i.val - 11)
  else trailer.getD (i.val - 2520) 0

/-- A codec that compresses the blocks with a zero tail to 2535 bytes and declines every other block. -/
def zeroTailLz4 : Lz4 where
  compressDefault src := if zeroTail src then (2535, zeroTailStream src) else (0, src)
  decompressSafe bytes _ :=
    ((flashPageSize : Int), fun i => if i.val < 2500 then bytes.getD (11 + i.val) 0 else 0)

/-- The codec behaves as LZ4 is documented to. -/
theorem zeroTailLz4_roundTrips : zeroTailLz4.RoundTrips where
  size_le src := by
    simp only [zeroTailLz4]
    split
    · show (2535 : Int) ≤ 4096
      decide
    · show (0 : Int) ≤ 4096
      decide
  restores src dest compressed := by
    simp only [zeroTailLz4] at compressed ⊢
    split at compressed
    · rename_i tail
      rw [if_pos tail, Prod.mk.injEq]
      refine ⟨rfl, funext fun i => ?_⟩
      by_cases literal : i.val < 2500
      · have stream : 11 + i.val < flashPageSize := by simp only [flashPageSize]; omega
        have cell : zeroTailStream src ⟨11 + i.val, stream⟩ = src i := by
          simp [zeroTailStream, byteAt, show 11 + i.val < 2520 by omega]
        rw [if_pos literal, List.getD_eq_getElem?_getD, Buffer.getElem?_slice,
          if_pos (show 11 + i.val < (2535 : Int).toNat by simp; omega)]
        simp only [Nat.zero_add, stream, dite_true, cell, Option.getD_some]
      · have zero := List.all_eq_true.mp tail (i.val - 2500)
          (List.mem_range.mpr (by have := i.isLt; simp only [flashPageSize] at this; omega))
        rw [beq_iff_eq, show 2500 + (i.val - 2500) = i.val by omega, byteAt, dif_pos i.isLt] at zero
        rw [if_neg literal]
        exact zero.symm
    · exact absurd compressed (Int.lt_irrefl 0)

/-- A block of 2500 bytes without a repetition and 1596 zeros. -/
def halfCountingBlock : Page := fun i => if i.val < 2500 then countingBlock 1 i else 0

/-- A block that compresses to 2535 bytes goes to a full page, and the host reads its compressed bytes. -/
theorem halfCountingBlock_misread :
    zeroTailLz4.RoundTrips ∧ ∃ ftl : FtlController sixPages (lbaCount 8192),
      Reachable (FtlController.call zeroTailLz4) (FtlController.fresh sixPages 8192) ftl ∧
        ftl.NextPagesErased 2 ∧ ¬WriteReadsBack zeroTailLz4 ftl 0 halfCountingBlock := by
  refine ⟨zeroTailLz4_roundTrips, FtlController.fresh sixPages 8192, ⟨[], .nil⟩, by decide, ?_⟩
  rintro ⟨written, returned, reads, _⟩
  obtain ⟨_, read⟩ := reads (Buffer.fill flashPageSize 0)
  have observed : test ((FtlController.fresh sixPages 8192).writeBlock zeroTailLz4 0
      (some halfCountingBlock)) (fun result =>
        test (result.1.readBlock zeroTailLz4 0 (some (Buffer.fill flashPageSize 0))) fun answer =>
          answer.2.2.any fun page => byteAt page 0 != byteAt halfCountingBlock 0) = true := by
    decide +kernel
  simp [returned, read, test] at observed

end FtlController

end Zftl
