/-
Module: Zftl.Controller.Tracking
Layer: Controller
Purpose: Where the data of each LBA is, by its history. `Homes` is a ghost: for each LBA the page its data was
  last programmed or migrated to, as long as that page has not been invalidated since. `Tracked` runs the
  ghost along the steps of the controller. A table entry may outlive the data it was made for, so the
  state alone does not say which entries can be trusted; `Tracking` says that those of the LBAs with a home
  can: the controller that has forgotten all others is `Placed`, whatever the others point at.
Imports: Zftl.Controller.Placement, Zftl.Controller.ProgramFailure, Zftl.Controller.StaleCount
Trusted boundary: none
Main exports: Homes, Tracked, Tracking, Tracking.makeRoom, Carried, tracked_tracking, reachable_tracked
Open obligations: none
-/
import Zftl.Controller.Placement
import Zftl.Controller.ProgramFailure
import Zftl.Controller.StaleCount

namespace Zftl

open Fallible Lz4Compressor

/-- The entry made to designate another page. -/
def MappingEntry.movedTo (entry : MappingEntry) (home : Nat × Nat) : MappingEntry :=
  { entry with blockIdx := home.1, pageIdx := home.2 }

namespace FtlController

variable {cfg : FlashConfig} {lbas : Nat} {lz4 : Lz4}

/-! ### The ghost -/

/-- The page the data of each LBA was last programmed or migrated to, until that page is invalidated. -/
abbrev Homes := Nat → Option (Nat × Nat)

namespace Homes

/-- Beginning a write supersedes the data of the LBA, and its call of `InvalidatePage` ends the homes on the page
    the old entry designates. -/
def superseded (homes : Homes) (ftl : FtlController cfg lbas) (lba : Nat) : Homes := fun other =>
  if other = lba then none
  else
    (homes other).filter fun home =>
      ¬((ftl.lbaTable lba).Mapped ∧ (ftl.lbaTable lba).At home.1 home.2)

/-- A collection moves the valid pages of the victim, in order, to the first pages of the reserve. -/
def collected (homes : Homes) (ftl : FtlController cfg lbas) : Homes := fun lba =>
  if ftl.Collects then
    (homes lba).bind fun home =>
      if home.1 ≠ ftl.selectVictim.1 then some home
      else if ftl.flash.isPageValid home.1 home.2 then
        some (ftl.reserveBlockIdx, ftl.flash.validBelow home.1 home.2)
      else none
  else homes lba

/-- The tenants of a freshly programmed page are at home there. -/
def settled (homes : Homes) (tenants : List Tenant) (blockIdx pageIdx : Nat) : Homes := fun lba =>
  if ∃ tenant ∈ tenants, tenant.lba = lba then some (blockIdx, pageIdx) else homes lba

end Homes

/-- The states of the runs from a fresh controller between the steps of its calls, with the write in progress and
    the homes by then. -/
inductive Tracked (lz4 : Lz4) (capacity : Nat) :
    Option (Nat × Page) → FtlController cfg (lbaCount capacity) → Homes → Prop where
  | fresh : Tracked lz4 capacity none (FtlController.fresh cfg capacity) fun _ => none
  | read {ftl : FtlController cfg (lbaCount capacity)} {homes : Homes} {flash : FlashModel cfg}
      (before : Tracked lz4 capacity none ftl homes) (same : flash.SameArray ftl.flash) :
      Tracked lz4 capacity none { ftl with hostReads := ftl.hostReads + 1, flash := flash } homes
  | begin {ftl : FtlController cfg (lbaCount capacity)} {homes : Homes} {lba : Nat} {src : Page}
      (before : Tracked lz4 capacity none ftl homes) :
      Tracked lz4 capacity (some (lba, src)) (ftl.beginWrite lba) (homes.superseded ftl lba)
  | zero {ftl : FtlController cfg (lbaCount capacity)} {homes : Homes} {lba : Nat} {src : Page}
      (before : Tracked lz4 capacity (some (lba, src)) ftl homes)
      (zero : (compress lz4 (some src)).isZeroBlock = true) :
      Tracked lz4 capacity none (ftl.zeroed lba) homes
  | stage {ftl : FtlController cfg (lbaCount capacity)} {homes : Homes} {lba : Nat} {src : Page}
      {data : Buffer UInt8 halfPageSize} (before : Tracked lz4 capacity (some (lba, src)) ftl homes)
      (inside : lba < lbaCount capacity) (idle : ftl.stagedHalf = none)
      (nonzero : (compress lz4 (some src)).isZeroBlock = false)
      (half : (compress lz4 (some src)).compressedSize ≤ halfPageSize) :
      Tracked lz4 capacity none
        { ftl with stagedHalf := some ⟨lba, (compress lz4 (some src)).compressedSize, data⟩ } homes
  | program {ftl room : FtlController cfg (lbaCount capacity)} {homes : Homes}
      {write write' : Option (Nat × Page)} {buf : Page} {tenants : List Tenant} {packs raws : Nat}
      (before : Tracked lz4 capacity write ftl homes)
      (site : ProgramSite lz4 ftl write buf tenants packs raws write')
      (made : ftl.makeRoom = .ok room) (inside : room.ActivePageInside)
      (tenantsLt : ∀ tenant ∈ tenants, tenant.lba < lbaCount capacity) :
      Tracked lz4 capacity write' (room.occupyPage buf tenants packs raws)
        ((homes.collected ftl).settled tenants room.activeBlockIdx room.activePageIdx)

/-- A tracked controller is safe. -/
theorem Tracked.indexSafe {capacity : Nat} {write : Option (Nat × Page)}
    {ftl : FtlController cfg (lbaCount capacity)} {homes : Homes}
    (tracked : Tracked lz4 capacity write ftl homes) (twoBlocks : 2 ≤ cfg.totalBlocks)
    (onePage : 1 ≤ cfg.pagesPerBlock) : ftl.IndexSafe := by
  induction tracked with
  | fresh => exact .fresh capacity twoBlocks onePage
  | read _ _ safe => exact safe.read _
  | begin _ safe => exact safe.beginWrite _
  | zero _ _ safe => exact safe.zeroed _
  | stage _ inside _ nonzero half safe => exact safe.stage inside (compress_half_size nonzero half) half
  | program _ site made inside _ safe =>
      obtain ⟨room', made', roomSafe, _⟩ := safe.makeRoom twoBlocks onePage
      obtain rfl := Except.ok.inj (made.symm.trans made')
      exact roomSafe.occupyPage inside (site.sizeSafe safe)

/-- Every state between two calls of a run is tracked, and so is every state a call programs in. -/
theorem reachable_tracked {capacity : Nat} {ftl : FtlController cfg (lbaCount capacity)}
    (reachable : Reachable (FtlController.call lz4) (FtlController.fresh cfg capacity) ftl) :
    (∃ homes, Tracked lz4 capacity none ftl homes) ∧
      ∀ hostCall, AtEveryProgram lz4 (fun write s => ∃ homes, Tracked lz4 capacity write s homes) ftl
        hostCall := by
  have program : KeptByProgram lz4
      (fun write (s : FtlController cfg (lbaCount capacity)) => ∃ homes, Tracked lz4 capacity write s homes)
      fun _ _ => True := by
    rintro s write buf tenants packs raws write' room ⟨homes, tracked⟩ _ site made inside tenantsLt
    exact ⟨_, tracked.program site made inside tenantsLt⟩
  have tracked : ∃ homes, Tracked lz4 capacity none ftl homes := by
    refine reachable.invariant (fun s => ∃ homes, Tracked lz4 capacity none s homes) ⟨_, .fresh⟩ ?_
    rintro s hostCall s' ok ⟨homes, tracked⟩ returned
    refine call_rule (I := fun write s => ∃ homes, Tracked lz4 capacity write s homes) returned
      (fun lba src _ => ⟨_, tracked.begin⟩) (fun _ => ⟨_, tracked⟩)
      (atEveryProgram_true lz4 s hostCall) ?read ?zero ?stage program
    case read => exact fun s flash ⟨_, tracked⟩ same => ⟨_, tracked.read same⟩
    case zero => exact fun s lba src ⟨_, tracked⟩ _ zero => ⟨_, tracked.zero zero⟩
    case stage =>
      exact fun s lba src data ⟨_, tracked⟩ inside idle nonzero half _ =>
        ⟨_, tracked.stage inside idle nonzero half⟩
  obtain ⟨homes, tracked⟩ := tracked
  exact ⟨⟨homes, tracked⟩, fun hostCall =>
    atEveryProgram_rule (fun lba src _ => ⟨_, tracked.begin⟩) (fun _ => ⟨_, tracked⟩)
      (atEveryProgram_true lz4 ftl hostCall) program⟩

/-! ### Trusted entries -/

/-- The controller that has forgotten the entries of the LBAs without a home. -/
def only (ftl : FtlController cfg lbas) (homes : Homes) : FtlController cfg lbas :=
  { ftl with lbaTable := fun lba => if (homes lba).isSome then ftl.lbaTable lba else {} }

theorem only_lbaTable {ftl : FtlController cfg lbas} {homes : Homes} {lba : Nat} {home : Nat × Nat}
    (here : homes lba = some home) : (ftl.only homes).lbaTable lba = ftl.lbaTable lba := by
  simp [only, here]

theorem live_only {write : Option (Nat × Page)} {ftl : FtlController cfg lbas} {homes : Homes}
    {lba : Nat} :
    Live write (ftl.only homes) lba ↔ (homes lba).isSome ∧ Live write ftl lba := by
  cases here : homes lba with
  | none => simp [Live, only, here, MappingEntry.Mapped]
  | some home => simp [Live, only, here, stagedLba]

/-- The entries of the LBAs with a home can be trusted: their data is on a valid page, and there the index lists
    exactly them. -/
structure Tracking (write : Option (Nat × Page)) (ftl : FtlController cfg lbas) (homes : Homes) :
    Prop where
  safe : ftl.IndexSafe
  placed : Placed write (ftl.only homes)
  resident : ∀ lba home, homes lba = some home →
    Live write ftl lba ∧ (ftl.lbaTable lba).At home.1 home.2 ∧
      ftl.flash.isPageValid home.1 home.2 = true
  tallied : ftl.flash.Tallied

namespace Tracking

variable {write write' : Option (Nat × Page)} {ftl room : FtlController cfg lbas} {homes : Homes}

theorem fresh {capacity : Nat} (twoBlocks : 2 ≤ cfg.totalBlocks) (onePage : 1 ≤ cfg.pagesPerBlock) :
    Tracking none (FtlController.fresh cfg capacity) fun _ => none :=
  ⟨.fresh capacity twoBlocks onePage, .fresh, nofun, .fresh⟩

theorem read (tracking : Tracking write ftl homes) {flash : FlashModel cfg}
    (same : flash.SameArray ftl.flash) :
    Tracking write ({ ftl with hostReads := ftl.hostReads + 1, flash := flash } : FtlController cfg lbas)
      homes := by
  refine ⟨tracking.safe.read flash, tracking.placed.read same, fun lba home here => ?_,
    tracking.tallied.congr same.blocks⟩
  rw [same.isPageValid_eq]
  exact tracking.resident lba home here

/-- The LBA being written has no home. -/
theorem homes_of_written {lba : Nat} {src : Page} (tracking : Tracking (some (lba, src)) ftl homes) :
    homes lba = none := by
  cases here : homes lba with
  | none => rfl
  | some home => exact absurd rfl (tracking.resident lba home here).1.2.1

theorem superseded_eq_some {lba other : Nat} {home : Nat × Nat} :
    homes.superseded ftl lba other = some home ↔
      other ≠ lba ∧ homes other = some home ∧
        ((ftl.lbaTable lba).Mapped → ¬(ftl.lbaTable lba).At home.1 home.2) := by
  by_cases same : other = lba
  · simp [Homes.superseded, same]
  · simp only [Homes.superseded, same, if_false, Option.filter_eq_some_iff, decide_eq_true_eq, not_and,
      ne_eq, not_false_eq_true, true_and]

/-- Beginning a write. -/
theorem beginWrite {lba : Nat} {src : Page} (tracking : Tracking none ftl homes) :
    Tracking (some (lba, src)) (ftl.beginWrite lba) (homes.superseded ftl lba) := by
  have kept : ∀ other, Live (some (lba, src)) ((ftl.beginWrite lba).only (homes.superseded ftl lba)) other →
      ∃ home, homes.superseded ftl lba other = some home ∧ homes other = some home ∧
        Live none ftl other := by
    intro other live
    obtain ⟨home, here⟩ := Option.isSome_iff_exists.mp (live_only.mp live).1
    exact ⟨home, here, (superseded_eq_some.mp here).2.1,
      (Placed.live_beginWrite.mp (live_only.mp live).2).1⟩
  refine ⟨tracking.safe.beginWrite lba, tracking.placed.narrow ?owners ?programmed ?valid ?distinct
    ?live ?entry ?stays, fun other home here => ?resident, ?tallied⟩
  case owners =>
    show (ftl.beginWrite lba).blockPageOwners = ftl.blockPageOwners
    rw [beginWrite_eq]
  case programmed => exact beginWrite_isPageProgrammed ftl lba
  case valid => exact fun b p valid => (Placed.valid_of_beginWrite valid).1
  case distinct =>
    rintro other written
    obtain rfl : lba = other := Option.some.inj written
    exact Placed.beginWrite_notStaged ftl lba
  case live =>
    intro other live
    obtain ⟨home, _, before, liveBefore⟩ := kept other live
    exact live_only.mpr ⟨Option.isSome_iff_exists.mpr ⟨home, before⟩, liveBefore⟩
  case entry =>
    intro other live
    obtain ⟨home, here, before, _⟩ := kept other live
    rw [only_lbaTable here, only_lbaTable before, beginWrite_lbaTable]
  case stays =>
    intro other live valid
    obtain ⟨home, before⟩ := Option.isSome_iff_exists.mp (live_only.mp live).1
    have resident := tracking.resident other home before
    rw [only_lbaTable before, resident.2.1.1, resident.2.1.2] at valid
    have elsewhere := (Placed.valid_of_beginWrite valid).2
    have apart : other ≠ lba := by
      rintro rfl
      exact elsewhere resident.1.2.2.2 resident.2.1
    have here : homes.superseded ftl lba other = some home :=
      superseded_eq_some.mpr ⟨apart, before, elsewhere⟩
    exact live_only.mpr ⟨Option.isSome_iff_exists.mpr ⟨home, here⟩,
      Placed.live_beginWrite.mpr ⟨resident.1, apart.symm⟩⟩
  case resident =>
    obtain ⟨apart, before, elsewhere⟩ := superseded_eq_some.mp here
    obtain ⟨live, located, valid⟩ := tracking.resident other home before
    rw [beginWrite_lbaTable]
    exact ⟨Placed.live_beginWrite.mpr ⟨live, apart.symm⟩, located,
      Placed.valid_beginWrite valid elsewhere⟩
  case tallied =>
    rw [beginWrite_eq]
    by_cases mapped : (ftl.lbaTable lba).Mapped
    · simpa only [invalidateOld, mapped, if_true] using tracking.tallied.invalidatePage _ _
    · simpa only [invalidateOld, mapped, if_false] using tracking.tallied

/-- Recording a zero block. -/
theorem zeroed {lba : Nat} {src : Page} (tracking : Tracking (some (lba, src)) ftl homes) :
    Tracking none (ftl.zeroed lba) homes := by
  have nowhere := tracking.homes_of_written
  have apart : ∀ other home, homes other = some home → other ≠ lba := by
    rintro other home here rfl
    rw [nowhere] at here
    cases here
  have live : ∀ other, Live none ((ftl.zeroed lba).only homes) other ↔
      Live (some (lba, src)) (ftl.only homes) other := fun other => by
    rw [live_only, live_only, Placed.live_zeroed src]
  refine ⟨tracking.safe.zeroed lba, tracking.placed.narrow rfl (fun _ _ => rfl) (fun _ _ => id) nofun
    (fun other => (live other).mp) (fun other liveAfter => ?_) (fun other before _ => (live other).mpr before),
    fun other home here => ?_, tracking.tallied⟩
  · obtain ⟨home, here⟩ := Option.isSome_iff_exists.mp (live_only.mp liveAfter).1
    rw [only_lbaTable here, only_lbaTable here, Placed.zeroed_lbaTable_of_ne ftl (apart other home here)]
  · rw [Placed.live_zeroed src, Placed.zeroed_lbaTable_of_ne ftl (apart other home here)]
    exact tracking.resident other home here

/-- Staging a compressed block. -/
theorem stage {lba : Nat} {src : Page} {data : Buffer UInt8 halfPageSize}
    (tracking : Tracking (some (lba, src)) ftl homes) (inside : lba < lbas)
    (idle : ftl.stagedHalf = none) (nonzero : (compress lz4 (some src)).isZeroBlock = false)
    (half : (compress lz4 (some src)).compressedSize ≤ halfPageSize) :
    Tracking none
      ({ ftl with stagedHalf := some ⟨lba, (compress lz4 (some src)).compressedSize, data⟩ } :
        FtlController cfg lbas) homes := by
  refine ⟨tracking.safe.stage inside (compress_half_size nonzero half) half,
    tracking.placed.stage idle rfl, fun other home here => ?_, tracking.tallied⟩
  obtain ⟨live, located, valid⟩ := tracking.resident other home here
  refine ⟨⟨live.1, nofun, fun staged => ?_, live.2.2.2⟩, located, valid⟩
  exact live.2.1 staged

end Tracking

/-! ### Collections -/

/-- Where the data at `home` is after the first `p` pages of the victim. -/
def destination (ftl : FtlController cfg lbas) (p : Nat) (home : Nat × Nat) : Nat × Nat :=
  if home.1 = ftl.selectVictim.1 ∧ home.2 < p then
    (ftl.reserveBlockIdx, ftl.flash.validBelow ftl.selectVictim.1 home.2)
  else home

theorem destination_of_ne {ftl : FtlController cfg lbas} {p : Nat} {home : Nat × Nat}
    (other : home ≠ (ftl.selectVictim.1, p)) :
    ftl.destination (p + 1) home = ftl.destination p home := by
  have same : home.1 = ftl.selectVictim.1 ∧ home.2 < p + 1 ↔
      home.1 = ftl.selectVictim.1 ∧ home.2 < p := by
    refine and_congr_right fun block => ?_
    have apart : home.2 ≠ p := fun page => other (Prod.ext block page)
    omega
  simp only [destination, same]

section Collect

variable {write : Option (Nat × Page)} {start ftl room : FtlController cfg lbas} {homes : Homes}

/-- The loop invariant of a collection: the trusted entries are in their place and point where their data has
    gone. -/
structure Carrying (write : Option (Nat × Page)) (homes : Homes) (start : FtlController cfg lbas) (p : Nat)
    (ftl : FtlController cfg lbas) : Prop where
  migrating : Migrating write (start.only homes) p (ftl.only homes)
  pointed : ∀ lba home, homes lba = some home →
    ftl.lbaTable lba = (start.lbaTable lba).movedTo (start.destination p home)

/-- Forgetting entries commutes with a move if the owners of the moved page all have a home. -/
theorem only_movePage {victim target p : Nat}
    (owned : ∀ owner ∈ ftl.blockPageOwners victim p, (homes owner.lba).isSome) :
    (ftl.movePage victim target p).only homes = (ftl.only homes).movePage victim target p := by
  have table : (fun lba => if (homes lba).isSome then
        (ftl.blockPageOwners victim p).foldl (repointOwner lbas ftl.reserveBlockIdx target) ftl.lbaTable lba
        else ({} : MappingEntry)) =
      (ftl.blockPageOwners victim p).foldl (repointOwner lbas ftl.reserveBlockIdx target)
        (fun lba => if (homes lba).isSome then ftl.lbaTable lba else {}) := by
    funext lba
    rw [repoint_apply, repoint_apply]
    cases here : homes lba with
    | some home => simp
    | none =>
        have notOwner : ¬∃ owner ∈ ftl.blockPageOwners victim p, owner.lba = lba := by
          rintro ⟨owner, member, rfl⟩
          have trusted := owned owner member
          rw [here] at trusted
          cases trusted
        simp [notOwner]
  simp only [only, movePage, withOwners, table]

namespace Carrying

variable {p : Nat}

theorem init (tracking : Tracking write start homes) :
    Carrying write homes start 0 { start with gcCount := start.gcCount + 1 } := by
  refine ⟨.init tracking.placed fun lba live here => ?_, fun lba home here => ?_⟩
  · obtain ⟨home, at'⟩ := Option.isSome_iff_exists.mp (live_only.mp live).1
    obtain ⟨_, located, valid⟩ := tracking.resident lba home at'
    rw [only_lbaTable at'] at here ⊢
    show start.flash.isPageValid start.selectVictim.1 (start.lbaTable lba).pageIdx = true
    rw [located.2]
    have block : home.1 = start.selectVictim.1 := located.1.symm.trans here
    rwa [← block]
  · have located := (tracking.resident lba home here).2.1
    simp [destination, MappingEntry.movedTo, ← located.1, ← located.2]

theorem forget (carrying : Carrying write homes start p ftl) (tracking : Tracking write start homes)
    (invalid : start.flash.isPageValid start.selectVictim.1 p = false) :
    Carrying write homes start (p + 1) (ftl.withOwners start.selectVictim.1 p []) := by
  refine ⟨carrying.migrating.forget invalid, fun lba home here => ?_⟩
  have other : home ≠ (start.selectVictim.1, p) := by
    rintro rfl
    have valid := (tracking.resident lba _ here).2.2
    rw [invalid] at valid
    cases valid
  rw [destination_of_ne other]
  exact carrying.pointed lba home here

/-- The owners of a valid page are the LBAs whose data is there. -/
theorem owner_iff (carrying : Carrying write homes start p ftl) (tracking : Tracking write start homes)
    (collects : start.Collects) (migration : Migration start start.selectVictim.1 p ftl)
    (valid : start.flash.isPageValid start.selectVictim.1 p = true) {lba : Nat} :
    (∃ owner ∈ ftl.blockPageOwners start.selectVictim.1 p, owner.lba = lba) ↔
      homes lba = some (start.selectVictim.1, p) := by
  have stillValid : ftl.flash.isPageValid start.selectVictim.1 p = true := by
    rw [migration.victimValid collects.apart]
    exact valid
  constructor
  · rintro ⟨owner, member, rfl⟩
    obtain ⟨live, located, _⟩ := carrying.migrating.placed.current _ p stillValid owner member
    obtain ⟨home, here⟩ := Option.isSome_iff_exists.mp (live_only.mp live).1
    rw [only_lbaTable here, carrying.pointed owner.lba home here] at located
    by_cases gone : home.1 = start.selectVictim.1 ∧ home.2 < p
    · rw [destination, if_pos gone] at located
      exact absurd located.1.symm collects.apart
    · rw [destination, if_neg gone] at located
      have same : home = (start.selectVictim.1, p) := Prod.ext located.1 located.2
      rw [here, same]
  · intro here
    have live : Live write (ftl.only homes) lba := by
      have before : Live write (start.only homes) lba :=
        live_only.mpr ⟨by simp [here], (tracking.resident lba _ here).1⟩
      exact (carrying.migrating.relocated.live_iff lba).mpr before
    have record := carrying.migrating.placed.recorded lba live
    rw [ownersOf, only_lbaTable here, carrying.pointed lba _ here, destination,
      if_neg fun gone => Nat.lt_irrefl _ gone.2] at record
    exact ⟨_, record, rfl⟩

theorem move (carrying : Carrying write homes start p ftl) (tracking : Tracking write start homes)
    (geometry : cfg.Addressable) (collects : start.Collects)
    (migration : Migration start start.selectVictim.1 p ftl) (pageLt : p < cfg.pagesPerBlock)
    (blank : ftl.flash.isPageProgrammed ftl.reserveBlockIdx
      (start.flash.validBelow start.selectVictim.1 p) = false)
    (valid : start.flash.isPageValid start.selectVictim.1 p = true) :
    Carrying write homes start (p + 1)
      (ftl.movePage start.selectVictim.1 (start.flash.validBelow start.selectVictim.1 p) p) := by
  have owner_iff : ∀ lba, (∃ owner ∈ ftl.blockPageOwners start.selectVictim.1 p, owner.lba = lba) ↔
      homes lba = some (start.selectVictim.1, p) := fun _ =>
    carrying.owner_iff tracking collects migration valid
  have owned : ∀ owner ∈ ftl.blockPageOwners start.selectVictim.1 p, (homes owner.lba).isSome := by
    intro owner member
    rw [(owner_iff owner.lba).mp ⟨owner, member, rfl⟩]
    rfl
  have reserveLt := tracking.safe.reserveBlock
  have targetLt : start.flash.validBelow start.selectVictim.1 p < cfg.pagesPerBlock :=
    Nat.lt_of_le_of_lt (FlashModel.validBelow_le _ _ _) pageLt
  refine ⟨?_, fun lba home here => ?_⟩
  · rw [only_movePage owned]
    exact carrying.migrating.move geometry reserveLt ⟨collects.full, collects.found⟩
      ⟨migration.reserve, migration.active, migration.activePage, migration.staged,
        migration.elsewhere⟩ pageLt blank valid
  · rw [movePage_lbaTable, migration.reserve,
      u32_of_lt (Nat.lt_of_lt_of_le reserveLt geometry.blocks_le),
      u32_of_lt (Nat.lt_of_lt_of_le targetLt geometry.pages_le), carrying.pointed lba home here]
    by_cases moved : home = (start.selectVictim.1, p)
    · subst moved
      have inside := (tracking.resident lba _ here).1.1
      rw [if_pos ⟨inside, (owner_iff lba).mpr here⟩]
      simp [destination, MappingEntry.movedTo]
    · have notOwner : ¬∃ owner ∈ ftl.blockPageOwners start.selectVictim.1 p, owner.lba = lba := fun owns =>
        moved (Option.some.inj (here.symm.trans ((owner_iff lba).mp owns)))
      rw [if_neg fun owns => notOwner owns.2, destination_of_ne moved]

end Carrying

/-- The data of an LBA with a home is carried along by room that is made, and its entry with it. -/
structure Carried (homes : Homes) (ftl room : FtlController cfg lbas) : Prop where
  staged : room.stagedHalf = ftl.stagedHalf
  carried : ∀ lba home, homes lba = some home → ∃ home', homes.collected ftl lba = some home' ∧
    room.lbaTable lba = (ftl.lbaTable lba).movedTo home' ∧
      room.flash.pageData home'.1 home'.2 = ftl.flash.pageData home.1 home.2

theorem only_congr {homes' : Homes} (same : ∀ lba, (homes' lba).isSome = (homes lba).isSome) :
    ftl.only homes' = ftl.only homes := by
  simp only [only, same]

namespace Tracking

/-- The data of an LBA with a home is on a valid page, so a collection moves it. -/
theorem collected_eq (tracking : Tracking write ftl homes) (collects : ftl.Collects) {lba : Nat}
    {home : Nat × Nat} (here : homes lba = some home) :
    homes.collected ftl lba = some (ftl.destination cfg.pagesPerBlock home) := by
  have valid := (tracking.resident lba home here).2.2
  have inside := (FlashModel.isPageValid_inRange valid).2
  by_cases victim : home.1 = ftl.selectVictim.1
  · rw [destination, if_pos ⟨victim, inside⟩, ← victim]
    simp [Homes.collected, collects, here, victim, victim ▸ valid]
  · rw [destination, if_neg fun gone => victim gone.1]
    simp [Homes.collected, collects, here, victim]

theorem collected_isSome (tracking : Tracking write ftl homes) (collects : ftl.Collects) (lba : Nat) :
    (homes.collected ftl lba).isSome = (homes lba).isSome := by
  cases here : homes lba with
  | none => simp [Homes.collected, collects, here]
  | some home => rw [tracking.collected_eq collects here]; rfl

/-- Making room without a collection. -/
theorem makeRoom_of_not_collects (tracking : Tracking write ftl homes) (roomSafe : room.IndexSafe)
    (made : ftl.makeRoom = .ok room) (kept : ¬ftl.Collects) :
    Tracking write room (homes.collected ftl) ∧ Carried homes ftl room := by
  obtain ⟨flash, table, staged, owners⟩ := FtlController.makeRoom_of_not_collects made kept
  have same : homes.collected ftl = homes := by
    funext lba
    simp [Homes.collected, kept]
  have live : ∀ lba, Live write room lba ↔ Live write ftl lba := fun lba => by
    simp only [Live, stagedLba, table, staged]
  have distinct : ∀ lba, write.map Prod.fst = some lba → room.stagedLba ≠ some lba := fun lba => by
    rw [stagedLba, staged]
    exact tracking.placed.distinct lba
  rw [same]
  refine ⟨⟨roomSafe, tracking.placed.congr ?_ owners (fun b p => ?_) (fun b p => ?_) distinct
    (fun lba => ?_), fun lba home here => ?_, flash ▸ tracking.tallied⟩, staged, fun lba home here => ?_⟩
  · simp only [only, table]
  · show room.flash.isPageProgrammed b p = ftl.flash.isPageProgrammed b p
    rw [flash]
  · show room.flash.isPageValid b p = ftl.flash.isPageValid b p
    rw [flash]
  · rw [live_only, live_only, live]
  · rw [live, table, flash]
    exact tracking.resident lba home here
  · have located := (tracking.resident lba home here).2.1
    refine ⟨home, by rw [same, here], ?_, by rw [flash]⟩
    rw [table, MappingEntry.movedTo, ← located.1, ← located.2]

/-- Making room with a collection that programs erased pages only. -/
theorem makeRoom_of_collects (tracking : Tracking write ftl homes) (geometry : cfg.Addressable)
    (roomSafe : room.IndexSafe) (made : ftl.makeRoom = .ok room) (collects : ftl.Collects)
    (erased : ftl.TargetErased) :
    Tracking write room (homes.collected ftl) ∧ Carried homes ftl room := by
  have result : (Placed write (room.only homes) ∧
      Relocated write (ftl.only homes) (room.only homes)) ∧
        ∀ lba home, homes lba = some home →
          room.lbaTable lba = (ftl.lbaTable lba).movedTo (ftl.destination cfg.pagesPerBlock home) := by
    refine makeRoom_rule made (Carrying write homes ftl)
      (fun room => (Placed write (room.only homes) ∧
        Relocated write (ftl.only homes) (room.only homes)) ∧
          ∀ lba home, homes lba = some home →
            room.lbaTable lba = (ftl.lbaTable lba).movedTo (ftl.destination cfg.pagesPerBlock home))
      (fun notFull => absurd notFull (Nat.not_lt.mpr collects.full))
      (fun _ noInvalid => absurd noInvalid collects.found)
      (fun _ => .init tracking)
      (fun _ _ _ _ _ invalid carrying => carrying.forget tracking invalid) ?move
      (fun _ _ _ carrying => ⟨carrying.migrating.reclaim, carrying.pointed⟩)
    exact fun p s _ pageLt migration valid carrying =>
      carrying.move tracking geometry collects migration pageLt
        (erased.blank collects pageLt migration valid) valid
  obtain ⟨⟨placed, relocated⟩, pointed⟩ := result
  have same : room.only (homes.collected ftl) = room.only homes :=
    only_congr (tracking.collected_isSome collects)
  have live : ∀ lba home, homes lba = some home → Live write (ftl.only homes) lba := fun lba home here =>
    live_only.mpr ⟨by simp [here], (tracking.resident lba home here).1⟩
  refine ⟨⟨roomSafe, same ▸ placed, fun lba home' there => ?_, tracking.tallied.makeRoom made⟩,
    relocated.staged, fun lba home here => ?_⟩
  · obtain ⟨home, here⟩ : ∃ home, homes lba = some home := Option.isSome_iff_exists.mp (by
      rw [← tracking.collected_isSome collects, there]
      rfl)
    obtain rfl : ftl.destination cfg.pagesPerBlock home = home' :=
      Option.some.inj ((tracking.collected_eq collects here).symm.trans there)
    obtain ⟨_, located, valid⟩ := tracking.resident lba home here
    have validAfter := relocated.valid lba (live lba home here)
    rw [only_lbaTable here, only_lbaTable here, located.1, located.2, pointed lba home here] at validAfter
    refine ⟨(live_only.mp ((relocated.live_iff lba).mpr (live lba home here))).2, ?_, validAfter valid⟩
    rw [pointed lba home here]
    exact ⟨rfl, rfl⟩
  · have located := (tracking.resident lba home here).2.1
    have contents := relocated.contents lba (live lba home here)
    rw [only_lbaTable here, only_lbaTable here, located.1, located.2, pointed lba home here] at contents
    exact ⟨_, tracking.collected_eq collects here, pointed lba home here, contents⟩

/-- Making room keeps the homes, as long as a collection programs erased pages only. -/
theorem makeRoom (tracking : Tracking write ftl homes) (geometry : cfg.Addressable)
    (made : ftl.makeRoom = .ok room) (erased : ftl.Collects → ftl.TargetErased) :
    Tracking write room (homes.collected ftl) ∧ Carried homes ftl room := by
  obtain ⟨room', made', roomSafe, _⟩ := tracking.safe.makeRoom geometry.twoBlocks geometry.onePage
  obtain rfl : room = room' := Except.ok.inj (made.symm.trans made')
  by_cases collects : ftl.Collects
  · exact tracking.makeRoom_of_collects geometry roomSafe made collects (erased collects)
  · exact tracking.makeRoom_of_not_collects roomSafe made collects

end Tracking

end Collect

/-! ### Runs -/

section Runs

variable {write write' : Option (Nat × Page)} {homes : Homes} {tenants : List Tenant} {buf : Page}
  {packs raws : Nat}

/-- Forgetting entries commutes with occupying a page. -/
theorem only_occupyPage {ftl : FtlController cfg lbas} (home : Nat × Nat)
    (unique : ∀ left ∈ tenants, ∀ right ∈ tenants, left.lba = right.lba → left = right) :
    (ftl.occupyPage buf tenants packs raws).only (homes.settled tenants home.1 home.2) =
      (ftl.only homes).occupyPage buf tenants packs raws := by
  have table : (fun lba => if (homes.settled tenants home.1 home.2 lba).isSome then
        tenants.foldl (fun table tenant => Function.update table tenant.lba
          (tenant.entry ftl.activeBlockIdx ftl.activePageIdx)) ftl.lbaTable lba
        else ({} : MappingEntry)) =
      tenants.foldl (fun table tenant => Function.update table tenant.lba
          (tenant.entry ftl.activeBlockIdx ftl.activePageIdx))
        (fun lba => if (homes lba).isSome then ftl.lbaTable lba else {}) := by
    funext lba
    rcases record_apply tenants ftl.activeBlockIdx ftl.activePageIdx lba ftl.lbaTable with
      ⟨others, kept⟩ | ⟨tenant, member, same, recorded⟩ <;>
    rcases record_apply tenants ftl.activeBlockIdx ftl.activePageIdx lba
      (fun lba => if (homes lba).isSome then ftl.lbaTable lba else {}) with
      ⟨others', kept'⟩ | ⟨tenant', member', same', recorded'⟩
    · have notTenant : ¬∃ tenant ∈ tenants, tenant.lba = lba := fun ⟨tenant, member, same⟩ =>
        others tenant member same
      rw [kept, kept', Homes.settled, if_neg notTenant]
    · exact absurd same' (others tenant' member')
    · exact absurd same (others' tenant member)
    · obtain rfl := unique tenant member tenant' member' (same.trans same'.symm)
      have tenanted : ∃ tenant ∈ tenants, tenant.lba = lba := ⟨tenant, member, same⟩
      rw [recorded, recorded', Homes.settled, if_pos tenanted]
      rfl
  simp only [only, occupyPage, programActivePage, withOwners, table]

/-- Occupying an erased page gives its tenants a home. -/
theorem Tracking.occupyPage {ftl : FtlController cfg lbas} (tracking : Tracking write ftl homes)
    (geometry : cfg.Addressable) (inside : ftl.ActivePageInside)
    (blank : ftl.flash.isPageProgrammed ftl.activeBlockIdx ftl.activePageIdx = false)
    (fit : TenantsFit write ftl tenants write') (sizes : ∀ tenant ∈ tenants, tenant.SizeSafe) :
    Tracking write' (ftl.occupyPage buf tenants packs raws)
      (homes.settled tenants ftl.activeBlockIdx ftl.activePageIdx) := by
  refine ⟨tracking.safe.occupyPage inside sizes, ?placed, fun lba home here => ?resident,
    tracking.tallied.programPage _ _ _⟩
  case placed =>
    rw [only_occupyPage (ftl.activeBlockIdx, ftl.activePageIdx) fit.unique]
    exact tracking.placed.occupyPage geometry inside blank (fit.of_staged rfl)
  case resident =>
    by_cases tenanted : ∃ tenant ∈ tenants, tenant.lba = lba
    · rw [Homes.settled, if_pos tenanted] at here
      obtain rfl := Option.some.inj here
      obtain ⟨tenant, member, rfl⟩ := tenanted
      rw [occupyPage_entry_of_tenant buf packs raws geometry inside fit.unique member]
      exact ⟨(live_occupyPage fit _).mpr (Or.inl ⟨tenant, member, rfl⟩), ⟨rfl, rfl⟩,
        (occupyPage_page buf tenants packs raws geometry.fullPage inside blank).2.1⟩
    · rw [Homes.settled, if_neg tenanted] at here
      obtain ⟨live, located, valid⟩ := tracking.resident lba home here
      have elsewhere : ¬(home.1 = ftl.activeBlockIdx ∧ home.2 = ftl.activePageIdx) := by
        rintro ⟨sameBlock, samePage⟩
        have programmed := tracking.tallied.validProgrammed _ _ valid
        rw [sameBlock, samePage, blank] at programmed
        cases programmed
      rw [occupyPage_entry_of_live buf packs raws fit live,
        (occupyPage_page_of_ne buf tenants packs raws elsewhere).2.1]
      exact ⟨(live_occupyPage fit lba).mpr (Or.inr live), located, valid⟩

/-- As long as every program has been accepted, the entries of the LBAs with a home can be trusted. -/
theorem tracked_tracking {capacity : Nat} {ftl : FtlController cfg (lbaCount capacity)}
    (tracked : Tracked lz4 capacity write ftl homes) (geometry : cfg.Addressable)
    (accepted : ∀ call ∈ ftl.flash.programCalls, call.accepted = true) : Tracking write ftl homes := by
  induction tracked with
  | fresh => exact .fresh geometry.twoBlocks geometry.onePage
  | read before same ih =>
      rw [same.programCalls] at accepted
      exact (ih accepted).read same
  | begin before ih =>
      rw [beginWrite_programCalls] at accepted
      exact (ih accepted).beginWrite
  | zero before isZero ih => exact (ih accepted).zeroed
  | stage before inside idle nonzero half ih => exact (ih accepted).stage inside idle nonzero half
  | @program ftl room homes write write' buf tenants packs raws before site made inside tenantsLt ih =>
      -- An accepted program had an erased target, and so had the programs of the collection before it.
      have safe : ftl.IndexSafe := before.indexSafe geometry.twoBlocks geometry.onePage
      obtain ⟨calls, logged, erased⟩ := programCalls_of_site safe made inside buf tenants packs raws
      rw [logged, List.forall_mem_append] at accepted
      have targetErased := erased.mp accepted.2
      obtain ⟨_, _, free⟩ := makeRoom_programCalls safe made
      have tracking := ih accepted.1
      have distinct : ∀ lba, write.map Prod.fst = some lba → ftl.stagedLba ≠ some lba :=
        tracking.placed.distinct
      obtain ⟨roomTracking, carried⟩ := tracking.makeRoom geometry made fun _ => targetErased
      exact roomTracking.occupyPage geometry inside (free.mpr targetErased).2
        ((site.tenantsFit distinct tenantsLt).of_staged carried.staged)
        (site.sizeSafe safe)

end Runs

end FtlController

end Zftl
