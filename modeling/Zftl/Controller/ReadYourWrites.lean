/-
Module: Zftl.Controller.ReadYourWrites
Layer: Controller
Purpose: The controller as a disk. `lastWritten` replays a run on an abstract disk: an LBA holds the block of
  its most recent acknowledged write, and zeros before the first. `Holds` relates a table entry and the
  array to such a block, and `Shadows` relates a controller to a disk through the staging buffer, packing,
  flushing and collection. The relation is kept by every call whose programs land on safe sites and that
  does not store compressed bytes in a full page, which a read would deliver as they are.
Imports: Zftl.Controller.Placement
Trusted boundary: none
Main exports: lastWritten, Holds, Shadows, shadows_keptByProgram, readBlock_of_shadows,
  trace_reads_lastWritten
Open obligations: none
-/
import Zftl.Controller.Placement

namespace Zftl

open Fallible Lz4Compressor

variable {lz4 : Lz4}

/-- A block that LZ4 compressed is stored in a half page. The controller stores larger compressed blocks in a
    full page, and reads those bytes back as if they were the block. -/
def HalfOrRaw (lz4 : Lz4) (src : Page) : Prop :=
  (compress lz4 (some src)).isCompressed = true →
    (compress lz4 (some src)).compressedSize ≤ halfPageSize

instance (src : Page) : Decidable (HalfOrRaw lz4 src) := inferInstanceAs (Decidable (_ → _))

/-- The bytes of a compressed block decompress to it. -/
theorem restores_compress (codec : lz4.RoundTrips) {src : Page}
    (nonzero : (compress lz4 (some src)).isZeroBlock = false)
    (half : (compress lz4 (some src)).compressedSize ≤ halfPageSize) (dest : Page) :
    lz4.decompressSafe ((compress lz4 (some src)).data.slice 0
      (compress lz4 (some src)).compressedSize) dest = ((flashPageSize : Int), src) := by
  obtain ⟨positive, size, data⟩ := compress_half nonzero half
  rw [size, data]
  exact codec.restores src dest positive

/-- Where the bytes of a half begin. -/
def MappingEntry.offset (entry : MappingEntry) : Nat :=
  if entry.subSlot = 0 then 0 else halfPageSize

/-- A tenant of a page with contents `buf` stores `page`. -/
def Tenant.Stores (lz4 : Lz4) (buf : Page) (tenant : Tenant) (page : Page) : Prop :=
  (tenant.state = .rawFullPage ∧ buf = page) ∨
    (tenant.state = .compressedHalfPage ∧ ∀ dest,
      lz4.decompressSafe (buf.slice (if tenant.subSlot = 0 then 0 else halfPageSize)
        tenant.compressedSize) dest = ((flashPageSize : Int), page))

/-- The first half of a page stores the block whose bytes were staged. -/
theorem StagedHalfPage.tenant_stores {staged : StagedHalfPage} {buf page : Page}
    (fits : staged.compSize ≤ halfPageSize)
    (first : ∀ count, count ≤ halfPageSize → buf.slice 0 count = staged.data.slice 0 count)
    (restores : ∀ dest, lz4.decompressSafe (staged.data.slice 0 staged.compSize) dest =
      ((flashPageSize : Int), page)) : staged.tenant.Stores lz4 buf page := by
  refine Or.inr ⟨rfl, fun dest => ?_⟩
  rw [StagedHalfPage.tenant, if_pos rfl, first _ fits]
  exact restores dest

/-- The second half of a page stores the block that was compressed into it. -/
theorem stores_second (codec : lz4.RoundTrips) {src buf : Page} (lba : Nat)
    (nonzero : (compress lz4 (some src)).isZeroBlock = false)
    (half : (compress lz4 (some src)).compressedSize ≤ halfPageSize)
    (second : ∀ count, count ≤ (compress lz4 (some src)).compressedSize →
      buf.slice halfPageSize count = (compress lz4 (some src)).data.slice 0 count) :
    Tenant.Stores lz4 buf
      ⟨lba, .compressedHalfPage, 1, (compress lz4 (some src)).compressedSize⟩ src := by
  refine Or.inr ⟨rfl, fun dest => ?_⟩
  rw [if_neg Nat.one_ne_zero, second _ (Nat.le_refl _)]
  exact restores_compress codec nonzero half dest

namespace FtlController

variable {cfg : FlashConfig} {lbas : Nat}

/-! ### The abstract disk -/

/-- One acknowledged event on the disk. -/
def replay (disk : Nat → Page) : HostCall × Bool → Nat → Page
  | (.writeBlock lba (some src), true) => Function.update disk lba src
  | _ => disk

/-- The disk after a run: the contents of the most recent acknowledged write of each LBA, or zeros. -/
def lastWritten (events : List (HostCall × Bool)) : Nat → Page :=
  events.foldl replay fun _ => Buffer.fill flashPageSize 0

theorem lastWritten_append (events : List (HostCall × Bool)) (event : HostCall × Bool) :
    lastWritten (events ++ [event]) = replay (lastWritten events) event := by
  rw [lastWritten, List.foldl_append]
  rfl

/-! ### What an entry stores -/

/-- The entry stores `page`: an entry without a location stores zeros, a full page its bytes, and a half page
    bytes that decompress to it. -/
def Holds (lz4 : Lz4) (flash : FlashModel cfg) (entry : MappingEntry) (page : Page) : Prop :=
  match entry.state with
  | .unmapped => page = Buffer.fill flashPageSize 0
  | .sparseZero => page = Buffer.fill flashPageSize 0
  | .rawFullPage => flash.pageData entry.blockIdx entry.pageIdx = page
  | .compressedHalfPage => ∀ dest,
      lz4.decompressSafe ((flash.pageData entry.blockIdx entry.pageIdx).slice
        entry.offset entry.compressedSize) dest = ((flashPageSize : Int), page)

/-- An entry that moves with the bytes of its page stores what it stored. -/
theorem Holds.moved {flash flash' : FlashModel cfg} {entry : MappingEntry} {page : Page} {b p : Nat}
    (holds : Holds lz4 flash entry page)
    (same : entry.Mapped → flash'.pageData b p = flash.pageData entry.blockIdx entry.pageIdx) :
    Holds lz4 flash' { entry with blockIdx := b, pageIdx := p } page := by
  cases state : entry.state with
  | unmapped => simpa only [Holds, state] using holds
  | sparseZero => simpa only [Holds, state] using holds
  | rawFullPage =>
      simp only [Holds, state] at holds ⊢
      rw [same (Or.inl state), holds]
  | compressedHalfPage =>
      simp only [Holds, state] at holds ⊢
      rw [same (Or.inr state)]
      exact holds

/-! ### The controller and the disk -/

/-- The controller holds the disk: every LBA out of flight in the array, and the staged one in the staging
    buffer; the write in progress is on the disk already. -/
structure Shadows (lz4 : Lz4) (disk : Nat → Page) (write : Option (Nat × Page))
    (ftl : FtlController cfg lbas) : Prop where
  inPlace : InPlace write ftl
  stored : ∀ lba, lba < lbas → write.map Prod.fst ≠ some lba → ftl.stagedLba ≠ some lba →
    Holds lz4 ftl.flash (ftl.lbaTable lba) (disk lba)
  staged : ∀ staged, ftl.stagedHalf = some staged → ∀ dest,
    lz4.decompressSafe (staged.data.slice 0 staged.compSize) dest =
      ((flashPageSize : Int), disk staged.lba)
  written : ∀ lba src, write = some (lba, src) → disk lba = src ∧ HalfOrRaw lz4 src

section Steps

variable {disk : Nat → Page} {write write' : Option (Nat × Page)} {ftl ftl' : FtlController cfg lbas}

/-- Every tenant of a program site stores the disk's block. -/
theorem ProgramSite.stores (codec : lz4.RoundTrips) {buf : Page} {tenants : List Tenant}
    {packs raws : Nat} (shadows : Shadows lz4 disk write ftl)
    (site : ProgramSite lz4 ftl write buf tenants packs raws write') :
    ∀ tenant ∈ tenants, tenant.Stores lz4 buf (disk tenant.lba) := by
  have stagedStores : ∀ {staged : StagedHalfPage}, ftl.stagedHalf = some staged →
      (∀ count, count ≤ halfPageSize → buf.slice 0 count = staged.data.slice 0 count) →
      staged.tenant.Stores lz4 buf (disk staged.tenant.lba) := fun waiting first =>
    StagedHalfPage.tenant_stores (shadows.inPlace.safe.staged _ waiting).2.2 first
      (shadows.staged _ waiting)
  cases site with
  | flush waiting first =>
      rw [List.forall_mem_singleton]
      exact stagedStores waiting first
  | @pack lba src staged _ waiting nonzero half first second =>
      rw [List.forall_mem_cons, List.forall_mem_singleton, (shadows.written lba src rfl).1]
      exact ⟨stagedStores waiting first, stores_second codec lba nonzero half second⟩
  | @full lba src idle nonzero large =>
      rw [List.forall_mem_singleton]
      have written := shadows.written lba src rfl
      refine Or.inl ⟨rfl, ?_⟩
      rw [fullTenant, written.1]
      apply compress_full nonzero
      cases compressed : (compress lz4 (some src)).isCompressed with
      | false => rfl
      | true => exact absurd (written.2 compressed) large

/-- A tenant's entry stores what the tenant stores. -/
theorem holds_of_stores {flash : FlashModel cfg} {buf page : Page} {tenant : Tenant} {b p : Nat}
    (stores : tenant.Stores lz4 buf page) (contents : flash.pageData b p = buf) :
    Holds lz4 flash
      { state := tenant.state, blockIdx := b, pageIdx := p, subSlot := tenant.subSlot,
        compressedSize := tenant.compressedSize } page := by
  rcases stores with ⟨raw, same⟩ | ⟨half, restores⟩
  · simp only [Holds, raw, contents]
    exact same
  · simp only [Holds, half, contents]
    exact restores

/-- An LBA out of flight stores the same block when room has been made and a page occupied for others. -/
theorem Shadows.holds_afterProgram (shadows : Shadows lz4 disk write ftl)
    {room : FtlController cfg lbas} {buf : Page} {tenants : List Tenant} {packs raws : Nat}
    (ready : SiteReady write ftl room tenants write') {lba : Nat} (below : lba < lbas)
    (notTenant : ¬∃ tenant ∈ tenants, tenant.lba = lba)
    (notWritten : write'.map Prod.fst ≠ some lba) :
    Holds lz4 (room.occupyPage buf tenants packs raws).flash
      ((room.occupyPage buf tenants packs raws).lbaTable lba) (disk lba) := by
  have outOfFlight : ¬(write.map Prod.fst = some lba ∨ room.stagedLba = some lba) := fun inFlight =>
    ((ready.fit.inFlight lba).mp inFlight).elim notTenant notWritten
  have notStaged : ftl.stagedLba ≠ some lba := fun staged =>
    outOfFlight (Or.inr (by rw [stagedLba, ready.relocated.staged]; exact staged))
  have before := shadows.stored lba below (fun written => outOfFlight (Or.inl written)) notStaged
  have kept : (room.occupyPage buf tenants packs raws).lbaTable lba = room.lbaTable lba := by
    rcases room.occupyPage_lbaTable buf tenants packs raws lba with
      ⟨_, kept⟩ | ⟨tenant, member, same, _⟩
    · exact kept
    · exact absurd ⟨tenant, member, same⟩ notTenant
  obtain ⟨b, p, moved⟩ := ready.relocated.entry lba
  rw [kept, moved]
  refine before.moved fun mapped => ?_
  have liveBefore : Live write ftl lba :=
    ⟨below, fun written => outOfFlight (Or.inl written), notStaged, mapped⟩
  have live : Live write room lba := (ready.relocated.live_iff lba).mpr liveBefore
  have elsewhere := ready.inPlace.placed.not_at_blank live ready.blank
  have contents := ready.relocated.contents lba liveBefore
  rw [moved] at elsewhere contents
  exact (occupyPage_page_of_ne _ _ _ _ elsewhere).2.2.trans contents

/-- A program at a safe site keeps the disk. -/
theorem shadows_keptByProgram (codec : lz4.RoundTrips) (geometry : cfg.Addressable) :
    KeptByProgram lz4 (@Shadows cfg lbas lz4 disk) SafeSite := by
  intro s write buf tenants packs raws write' room shadows safeSite site made inside tenantsLt
  have ready := shadows.inPlace.siteReady geometry safeSite site made tenantsLt
  refine ⟨inPlace_keptByProgram geometry s write buf tenants packs raws write' room shadows.inPlace
    safeSite site made inside tenantsLt, ?_, nofun, ?_⟩
  · intro lba below notWritten _
    by_cases tenanted : ∃ tenant ∈ tenants, tenant.lba = lba
    · obtain ⟨tenant, member, rfl⟩ := tenanted
      rw [occupyPage_entry_of_tenant _ _ _ geometry inside ready.fit.unique member]
      exact holds_of_stores (site.stores codec shadows tenant member)
        (occupyPage_page _ _ _ _ geometry.fullPage inside ready.blank).2.2
    · exact shadows.holds_afterProgram ready below tenanted notWritten
  · intro lba src same
    cases site with
    | flush _ _ => exact shadows.written lba src same
    | pack _ _ _ _ _ => cases same
    | full _ _ _ => cases same

/-- Between writes no LBA is being written. -/
theorem notWritten_none (lba : Nat) : (none : Option (Nat × Page)).map Prod.fst ≠ some lba :=
  (Option.some_ne_none lba).symm

/-- Once a write has begun the controller holds the disk after it. -/
theorem Shadows.beginWrite (shadows : Shadows lz4 disk none ftl) {lba : Nat} {src : Page}
    (storable : HalfOrRaw lz4 src) :
    Shadows lz4 (Function.update disk lba src) (some (lba, src)) (ftl.beginWrite lba) := by
  refine ⟨shadows.inPlace.beginWrite lba, ?_, ?_, ?_⟩
  · intro other below notWritten notStaged
    have apart : other ≠ lba := fun same => notWritten (congrArg some same.symm)
    have notStagedBefore : ftl.stagedLba ≠ some other := by
      intro staged
      rw [Placed.beginWrite_stagedLba, staged] at notStaged
      rw [if_neg fun same => apart (Option.some.inj same)] at notStaged
      exact notStaged rfl
    rw [beginWrite_lbaTable, Function.update_of_ne apart]
    exact (shadows.stored other below (notWritten_none other) notStagedBefore).moved fun _ =>
      beginWrite_pageData ftl lba _ _
  · intro staged waiting dest
    have stagedBefore : ftl.stagedHalf = some staged ∧ staged.lba ≠ lba := by
      rw [beginWrite_eq] at waiting
      by_cases dropped : ftl.stagedLba = some lba
      · simp [dropped] at waiting
      · simp only [dropped, if_false] at waiting
        refine ⟨waiting, fun same => dropped ?_⟩
        rw [stagedLba, waiting, ← same]
        rfl
    rw [Function.update_of_ne stagedBefore.2]
    exact shadows.staged staged stagedBefore.1 dest
  · rintro _ _ ⟨⟩
    exact ⟨Function.update_self _ _ _, storable⟩

/-- Recording a zero block. -/
theorem Shadows.zeroed {lba : Nat} {src : Page} (shadows : Shadows lz4 disk (some (lba, src)) ftl)
    (zero : (compress lz4 (some src)).isZeroBlock = true) :
    Shadows lz4 disk none (ftl.zeroed lba) := by
  refine ⟨shadows.inPlace.zeroed, ?_, shadows.staged, nofun⟩
  intro other below _ notStaged
  by_cases same : other = lba
  · subst same
    have entry : (ftl.zeroed other).lbaTable other =
        { ftl.lbaTable other with state := .sparseZero, compressedSize := 0 } :=
      Function.update_self _ _ _
    rw [entry, (shadows.written other src rfl).1]
    exact compress_isZeroBlock.mp zero
  · rw [Placed.zeroed_lbaTable_of_ne ftl same]
    exact shadows.stored other below (fun written => same (Option.some.inj written).symm) notStaged

/-- Staging a compressed block. -/
theorem Shadows.stage (codec : lz4.RoundTrips) {lba : Nat} {src : Page}
    {data : Buffer UInt8 halfPageSize} (shadows : Shadows lz4 disk (some (lba, src)) ftl)
    (inside : lba < lbas) (idle : ftl.stagedHalf = none)
    (nonzero : (compress lz4 (some src)).isZeroBlock = false)
    (half : (compress lz4 (some src)).compressedSize ≤ halfPageSize)
    (copied : ∀ count, count ≤ (compress lz4 (some src)).compressedSize →
      data.slice 0 count = (compress lz4 (some src)).data.slice 0 count) :
    Shadows lz4 disk none
      ({ ftl with stagedHalf := some ⟨lba, (compress lz4 (some src)).compressedSize, data⟩ } :
        FtlController cfg lbas) := by
  refine ⟨shadows.inPlace.stage inside idle nonzero half data, ?_, ?_, nofun⟩
  · intro other below _ notStaged
    exact shadows.stored other below notStaged (by simp [stagedLba, idle])
  · rintro _ ⟨⟩ dest
    rw [copied _ (Nat.le_refl _), restores_compress codec nonzero half,
      (shadows.written lba src rfl).1]

/-! ### Reading -/

/-- Unpacking bytes that decompress to a block delivers the block. -/
theorem unpackHalfPage_of_restores {srcSize : Nat} {src : Buffer UInt8 srcSize} {offset size : Nat}
    {page : Page} (dest : Page) (inside : offset + size ≤ srcSize) (fits : size ≤ flashPageSize)
    (restores : lz4.decompressSafe (src.slice offset size) dest = ((flashPageSize : Int), page)) :
    unpackHalfPage lz4 src offset size dest = .ok (true, page) := by
  rcases memcpy_total (Buffer.fill flashPageSize 0) src 0 _ _ (by omega) inside with
    ⟨data, copied⟩
  have bytes : data.slice 0 size = src.slice offset size := slice_memcpy_self copied (Nat.le_refl _)
  refine bind_eq_ok.mpr ⟨data, copied, ?_⟩
  simp [decompress, bytes, restores]

/-- A staged block is read from the staging buffer. -/
theorem readBlock_of_staged {staged : StagedHalfPage} {page : Page} (waiting : ftl.stagedHalf = some staged)
    (inside : staged.lba < lbas) (fits : staged.compSize ≤ halfPageSize) (dest : Page)
    (restores : lz4.decompressSafe (staged.data.slice 0 staged.compSize) dest =
      ((flashPageSize : Int), page)) :
    ∃ ftl', ftl.readBlock lz4 staged.lba (some dest) = .ok (ftl', true, some page) := by
  have halves := halfPageSize_add
  have notRefused : ¬staged.lba ≥ lbas := Nat.not_le.mpr inside
  have unpacked := unpackHalfPage_of_restores dest (by omega) (by omega) restores
  simp only [readBlock, notRefused, if_false, waiting, Option.filter_some, decide_true, if_true]
  exact ⟨_, bind_eq_ok.mpr ⟨_, unpacked, rfl⟩⟩

/-- An LBA that is not staged reads as what its entry stores. -/
theorem readBlock_of_holds {lba : Nat} {page : Page} (fullPage : cfg.pageSizeBytes = flashPageSize)
    (safe : ftl.IndexSafe) (inside : lba < lbas) (notStaged : ftl.stagedLba ≠ some lba)
    (programmed : (ftl.lbaTable lba).Mapped →
      ftl.flash.isPageProgrammed (ftl.lbaTable lba).blockIdx (ftl.lbaTable lba).pageIdx = true)
    (holds : Holds lz4 ftl.flash (ftl.lbaTable lba) page) (dest : Page) :
    ∃ ftl', ftl.readBlock lz4 lba (some dest) = .ok (ftl', true, some page) := by
  have halves := halfPageSize_add
  have notRefused : ¬lba ≥ lbas := Nat.not_le.mpr inside
  have notFound : ftl.stagedHalf.filter (·.lba = lba) = none := by
    rw [Option.filter_eq_none_iff]
    exact fun staged waiting same => notStaged (by simpa [stagedLba, waiting] using same)
  simp only [readBlock, notRefused, if_false, notFound, checkIndex_of_lt inside, ok_bind]
  cases state : (ftl.lbaTable lba).state with
  | unmapped =>
      simp only [Holds, state] at holds
      exact ⟨_, by rw [holds]⟩
  | sparseZero =>
      simp only [Holds, state] at holds
      exact ⟨_, by rw [holds]⟩
  | rawFullPage =>
      simp only [Holds, state] at holds
      have read := FlashModel.readPage_of_programmed dest fullPage (programmed (Or.inl state))
      exact ⟨_, by simp only [read, holds]; rfl⟩
  | compressedHalfPage =>
      simp only [Holds, state] at holds
      have read := FlashModel.readPage_of_programmed (Buffer.fill flashPageSize 0) fullPage
        (programmed (Or.inr state))
      have sizes := safe.halfPage lba state
      have offset : (ftl.lbaTable lba).offset ≤ halfPageSize := by
        rw [MappingEntry.offset]
        split <;> omega
      have unpacked := unpackHalfPage_of_restores dest (by omega) (by omega) (holds dest)
      simp only [read, Bool.not_true, Bool.false_eq_true, if_false]
      exact ⟨_, bind_eq_ok.mpr ⟨_, unpacked, rfl⟩⟩

/-- A controller that holds the disk reads every LBA back. -/
theorem readBlock_of_shadows (shadows : Shadows lz4 disk none ftl) (geometry : cfg.Addressable)
    {lba : Nat} (inside : lba < lbas) (dest : Page) :
    ∃ ftl', ftl.readBlock lz4 lba (some dest) = .ok (ftl', true, some (disk lba)) := by
  by_cases isStaged : ftl.stagedLba = some lba
  · obtain ⟨staged, waiting, rfl⟩ := Option.map_eq_some_iff.mp isStaged
    have sizes := shadows.inPlace.safe.staged staged waiting
    exact readBlock_of_staged waiting inside sizes.2.2 dest (shadows.staged staged waiting dest)
  · exact readBlock_of_holds geometry.fullPage shadows.inPlace.safe inside isStaged
      (fun mapped => shadows.inPlace.placed.programmed lba
        ⟨inside, notWritten_none lba, isStaged, mapped⟩)
      (shadows.stored lba inside (notWritten_none lba) isStaged) dest

/-! ### Runs -/

/-- The call programs safe sites only, and stores no compressed block in a full page. -/
def Storable (lz4 : Lz4) (ftl : FtlController cfg lbas) (hostCall : HostCall) : Prop :=
  AtEveryProgram lz4 SafeSite ftl hostCall ∧
    match hostCall with
    | .writeBlock lba (some src) => lba < lbas → HalfOrRaw lz4 src
    | _ => True

instance (ftl : FtlController cfg lbas) (hostCall : HostCall) :
    Decidable (Storable lz4 ftl hostCall) :=
  match hostCall with
  | .writeBlock _ (some _) => inferInstanceAs (Decidable (_ ∧ (_ → _)))
  | .writeBlock _ none => inferInstanceAs (Decidable (_ ∧ True))
  | .readBlock _ _ => inferInstanceAs (Decidable (_ ∧ True))
  | .flushStagedWrites => inferInstanceAs (Decidable (_ ∧ True))

/-- A write is acknowledged exactly if its LBA is in range. -/
theorem writeBlock_acknowledged {lba : Nat} {src : Page} {ok : Bool}
    (returned : ftl.writeBlock lz4 lba (some src) = .ok (ftl', ok)) : ok = decide (lba < lbas) := by
  by_cases inside : lba < lbas
  · simp only [writeBlock, Nat.not_le.mpr inside, if_false, checkIndex_of_lt inside, ok_bind,
      bind_eq_ok, ok_eq_ok, Prod.mk.injEq] at returned
    obtain ⟨_, _, _, rfl⟩ := returned
    exact (decide_eq_true inside).symm
  · simp only [writeBlock, ge_iff_le, Nat.not_lt.mp inside, if_true, ok_eq_ok,
      Prod.mk.injEq] at returned
    rw [returned.2, decide_eq_false inside]

/-- A storable call keeps the controller and the disk in step. -/
theorem Shadows.call (shadows : Shadows lz4 disk none ftl) (codec : lz4.RoundTrips)
    (geometry : cfg.Addressable) {hostCall : HostCall} {ok : Bool}
    (storable : Storable lz4 ftl hostCall) (returned : ftl.call lz4 hostCall = .ok (ftl', ok)) :
    Shadows lz4 (replay disk (hostCall, ok)) none ftl' := by
  refine call_rule (I := Shadows lz4 (replay disk (hostCall, ok))) returned ?begun ?before storable.1
    ?read ?zero ?stage (shadows_keptByProgram codec geometry)
  case begun =>
    rintro lba src ⟨rfl, inside⟩
    obtain rfl : ok = true := (writeBlock_acknowledged returned).trans (decide_eq_true inside)
    exact shadows.beginWrite (storable.2 inside)
  case before =>
    intro noWrite
    have unchanged : replay disk (hostCall, ok) = disk := by
      match hostCall, noWrite with
      | .writeBlock lba (some src), noWrite =>
          have outside : ¬lba < lbas := fun inside => noWrite lba src ⟨rfl, inside⟩
          rw [writeBlock_acknowledged returned, decide_eq_false outside]
          rfl
      | .writeBlock _ none, _ => rfl
      | .readBlock _ _, _ => rfl
      | .flushStagedWrites, _ => rfl
    rw [unchanged]
    exact shadows
  case read =>
    intro s flash shadows same
    refine ⟨shadows.inPlace.read same, fun lba below notWritten notStaged => ?_, shadows.staged,
      nofun⟩
    exact (shadows.stored lba below notWritten notStaged).moved fun _ => same.pageData_eq _ _
  case zero => exact fun s lba src shadows _ zero => shadows.zeroed zero
  case stage =>
    exact fun s lba src data shadows inside idle nonzero half copied =>
      shadows.stage codec inside idle nonzero half copied

/-- In a run of storable calls every read of an LBA in range delivers the most recent acknowledged write, or
    zeros. -/
theorem trace_reads_lastWritten {capacity : Nat} {events : List (HostCall × Bool)}
    {ftl : FtlController cfg (lbaCount capacity)} (codec : lz4.RoundTrips)
    (geometry : cfg.Addressable)
    (trace : Trace (FtlController.call lz4) (Storable lz4) (FtlController.fresh cfg capacity) events
      ftl) {lba : Nat} (inside : lba < lbaCount capacity) (dest : Page) :
    ∃ ftl', ftl.readBlock lz4 lba (some dest) = .ok (ftl', true, some (lastWritten events lba)) := by
  have shadows : Shadows lz4 (lastWritten events) none ftl := by
    refine trace.invariant (fun events s => Shadows lz4 (lastWritten events) none s) ?init ?keeps
    case init =>
      exact ⟨⟨.fresh _ geometry.twoBlocks geometry.onePage, .fresh⟩, fun _ _ _ _ => rfl, nofun, nofun⟩
    case keeps =>
      intro events s hostCall s' ok shadows storable returned
      rw [lastWritten_append]
      exact shadows.call codec geometry storable returned
  exact readBlock_of_shadows shadows geometry inside dest

end Steps

/-- Two blocks packed, one LBA overwritten with full pages, a zero block, a staged block and a flush. -/
def mixedCalls : List HostCall :=
  [.writeBlock 0 (some (Buffer.fill flashPageSize 1)), .writeBlock 1 (some (Buffer.fill flashPageSize 2)),
    writeCounting 2 3, writeCounting 2 4, .writeBlock 2 (some (Buffer.fill flashPageSize 0)),
    .writeBlock 2 (some (Buffer.fill flashPageSize 5)), .flushStagedWrites]

theorem mixedCalls_reads_lastWritten :
    ∃ (events : List (HostCall × Bool)) (ftl : FtlController fourPages (lbaCount 12288)),
      events.map Prod.fst = mixedCalls ∧ ftl.gcCount = 2 ∧
        ∃ ftl', ftl.readBlock constantLz4 1 (some (Buffer.fill flashPageSize 0)) =
          .ok (ftl', true, some (lastWritten events 1)) := by
  rcases (Option.any_eq_true _ _).mp
      (by decide +kernel : (execute (FtlController.call constantLz4) (Storable constantLz4)
        mixedCalls ([], FtlController.fresh fourPages 12288)).any fun run =>
          run.2.gcCount == 2) with
    ⟨⟨events, ftl⟩, executed, observed⟩
  exact ⟨events, ftl, (Trace.nil.execute_inputs executed).2, by simpa using observed,
    trace_reads_lastWritten constantLz4_roundTrips (by decide) (Trace.nil.execute executed)
      (by decide) _⟩

/-- After five alternate writes LBA 0 reads its third-last block: the last write was acknowledged, and its
    program was refused. -/
theorem fifthWrite_lost :
    ∃ (events : List (HostCall × Bool)) (ftl : FtlController fourPages (lbaCount 8192)),
      Trace (FtlController.call constantLz4) (fun _ _ => True) (FtlController.fresh fourPages 8192)
          events ftl ∧
        ¬∃ ftl', ftl.readBlock constantLz4 0 (some (Buffer.fill flashPageSize 0)) =
          .ok (ftl', true, some (lastWritten events 0)) := by
  rcases (Option.any_eq_true _ _).mp
      (by decide +kernel : (execute (FtlController.call constantLz4) (fun _ _ => True)
        alternateWrites ([], FtlController.fresh fourPages 8192)).any fun run =>
          !test (run.2.readBlock constantLz4 0 (some (Buffer.fill flashPageSize 0))) fun read =>
            read.2.2.any fun page => byteAt page 0 == byteAt (lastWritten run.1 0) 0) with
    ⟨⟨events, ftl⟩, executed, observed⟩
  refine ⟨events, ftl, Trace.nil.execute executed, ?_⟩
  rintro ⟨ftl', delivered⟩
  simp [delivered, test] at observed

end FtlController

end Zftl
