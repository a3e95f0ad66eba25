/-
Module: Zftl.Controller.Placement
Layer: Controller
Purpose: Where blocks live. An LBA is live when its bytes are in the array: not in the staging buffer, not in
  the write in progress, and with an entry that designates a page. `Placed` ties the table, the inverted
  index and the array together: every live LBA is listed with its half among the owners of its page, and
  the owners of a valid page are live and point back at it. Every step of the controller keeps `Placed`
  provided that its programs land on erased pages and that a collected victim holds no live LBA on an
  invalid page. `Relocated` says what a collection does to a live LBA on the way: it may move, its bytes
  do not change.
Imports: Zftl.Controller.Collection
Trusted boundary: none
Main exports: Live, Placed, Relocated, VictimLive, SafeSite, Placed.makeRoom, placed_keptByProgram,
  trace_noAliasing
Open obligations: none
-/
import Zftl.Controller.Collection

namespace Zftl

open Fallible Lz4Compressor

/-- A geometry whose pages hold a whole block and whose indices fit the `uint32_t` fields of an entry. -/
structure FlashConfig.Addressable (cfg : FlashConfig) : Prop where
  fullPage : cfg.pageSizeBytes = flashPageSize
  twoBlocks : 2 ≤ cfg.totalBlocks
  onePage : 1 ≤ cfg.pagesPerBlock
  blocks_le : cfg.totalBlocks ≤ 2 ^ 32
  pages_le : cfg.pagesPerBlock ≤ 2 ^ 32

instance (cfg : FlashConfig) : Decidable cfg.Addressable :=
  decidable_of_iff
    (cfg.pageSizeBytes = flashPageSize ∧ 2 ≤ cfg.totalBlocks ∧ 1 ≤ cfg.pagesPerBlock ∧
      cfg.totalBlocks ≤ 2 ^ 32 ∧ cfg.pagesPerBlock ≤ 2 ^ 32)
    ⟨fun ⟨page, two, one, blocks, pages⟩ => ⟨page, two, one, blocks, pages⟩,
      fun ⟨page, two, one, blocks, pages⟩ => ⟨page, two, one, blocks, pages⟩⟩

/-- The entry designates page `pageIdx` of block `blockIdx`. -/
abbrev MappingEntry.At (entry : MappingEntry) (blockIdx pageIdx : Nat) : Prop :=
  entry.blockIdx = blockIdx ∧ entry.pageIdx = pageIdx

/-- The owner lists a page can have: free, one LBA in the first half, or two LBAs in the two halves. -/
inductive Sharing : List PageOwner → Prop where
  | free : Sharing []
  | alone (lba : Nat) : Sharing [⟨lba, 0⟩]
  | pair {first second : Nat} (apart : first ≠ second) : Sharing [⟨first, 0⟩, ⟨second, 1⟩]

/-- An LBA has at most one record on a page. -/
theorem Sharing.filter_lba {owners : List PageOwner} (sharing : Sharing owners) {owner : PageOwner}
    (member : owner ∈ owners) : owners.filter (fun other => other.lba = owner.lba) = [owner] := by
  cases sharing with
  | free => cases member
  | alone lba =>
      obtain rfl := List.mem_singleton.mp member
      simp
  | pair apart =>
      rcases List.mem_pair.mp member with rfl | rfl
      · simp [apart.symm]
      · simp [apart]

/-- Two LBAs on one page are in different halves. -/
theorem Sharing.subSlot_ne {owners : List PageOwner} (sharing : Sharing owners)
    {left right : PageOwner} (leftMember : left ∈ owners) (rightMember : right ∈ owners)
    (other : left.lba ≠ right.lba) : left.subSlot ≠ right.subSlot ∧ owners.length = 2 := by
  cases sharing with
  | free => cases leftMember
  | alone lba =>
      obtain rfl := List.mem_singleton.mp leftMember
      obtain rfl := List.mem_singleton.mp rightMember
      exact absurd rfl other
  | pair apart =>
      refine ⟨?_, rfl⟩
      rcases List.mem_pair.mp leftMember with rfl | rfl <;>
        rcases List.mem_pair.mp rightMember with rfl | rfl
      · exact absurd rfl other
      · exact Nat.zero_ne_one
      · exact Nat.one_ne_zero
      · exact absurd rfl other

namespace FtlController

variable {cfg : FlashConfig} {lbas : Nat} {lz4 : Lz4}

/-- The LBA's bytes are neither in the write in progress nor in the staging buffer, and its entry designates
    a page. -/
def Live (write : Option (Nat × Page)) (ftl : FtlController cfg lbas) (lba : Nat) : Prop :=
  lba < lbas ∧ write.map Prod.fst ≠ some lba ∧ ftl.stagedLba ≠ some lba ∧ (ftl.lbaTable lba).Mapped

instance (write : Option (Nat × Page)) (ftl : FtlController cfg lbas) (lba : Nat) :
    Decidable (Live write ftl lba) :=
  inferInstanceAs (Decidable (_ ∧ _))

/-- The owner list of the page an LBA's entry designates. -/
def ownersOf (ftl : FtlController cfg lbas) (lba : Nat) : List PageOwner :=
  ftl.blockPageOwners (ftl.lbaTable lba).blockIdx (ftl.lbaTable lba).pageIdx

/-- The table, the inverted index and the array agree on where the live LBAs are. -/
structure Placed (write : Option (Nat × Page)) (ftl : FtlController cfg lbas) : Prop where
  distinct : ∀ lba, write.map Prod.fst = some lba → ftl.stagedLba ≠ some lba
  programmed : ∀ lba, Live write ftl lba →
    ftl.flash.isPageProgrammed (ftl.lbaTable lba).blockIdx (ftl.lbaTable lba).pageIdx = true
  recorded : ∀ lba, Live write ftl lba → ⟨lba, (ftl.lbaTable lba).subSlot⟩ ∈ ftl.ownersOf lba
  whole : ∀ lba, Live write ftl lba → (ftl.lbaTable lba).state = .rawFullPage →
    (ftl.ownersOf lba).length = 1
  current : ∀ b p, ftl.flash.isPageValid b p = true → ∀ owner ∈ ftl.blockPageOwners b p,
    Live write ftl owner.lba ∧ (ftl.lbaTable owner.lba).At b p ∧
      (ftl.lbaTable owner.lba).subSlot = owner.subSlot
  blank : ∀ b p, ftl.flash.isPageProgrammed b p = false → ftl.blockPageOwners b p = []
  sharing : ∀ b p, Sharing (ftl.blockPageOwners b p)
  validProgrammed : ∀ b p, ftl.flash.isPageValid b p = true →
    ftl.flash.isPageProgrammed b p = true

namespace Placed

variable {write : Option (Nat × Page)} {ftl : FtlController cfg lbas}

/-- A fresh controller holds nothing. -/
theorem fresh {capacity : Nat} : Placed none (FtlController.fresh cfg capacity) where
  distinct := fun _ same => nomatch same
  programmed := fun _ live => by rcases live.2.2.2 with state | state <;> cases state
  recorded := fun _ live => by rcases live.2.2.2 with state | state <;> cases state
  whole := fun _ _ state => nomatch state
  current := fun _ _ _ _ member => nomatch member
  blank := fun _ _ _ => rfl
  sharing := fun _ _ => .free
  validProgrammed := fun b p valid => by
    rw [FtlController.fresh, FlashModel.isPageValid_fresh] at valid
    cases valid

/-- Two live LBAs on one page are the two halves of it. -/
theorem halves (placed : Placed write ftl) {first second : Nat} (other : first ≠ second)
    (firstLive : Live write ftl first) (secondLive : Live write ftl second)
    (same : (ftl.lbaTable first).At (ftl.lbaTable second).blockIdx (ftl.lbaTable second).pageIdx) :
    ((ftl.lbaTable first).state = .compressedHalfPage ∧
        (ftl.lbaTable second).state = .compressedHalfPage) ∧
      (ftl.lbaTable first).subSlot ≠ (ftl.lbaTable second).subSlot := by
  have samePage : ftl.ownersOf first = ftl.ownersOf second := by rw [ownersOf, same.1, same.2, ownersOf]
  have firstRecord := placed.recorded first firstLive
  have secondRecord := placed.recorded second secondLive
  rw [samePage] at firstRecord
  have pair := (placed.sharing _ _).subSlot_ne firstRecord secondRecord other
  refine ⟨⟨?_, ?_⟩, pair.1⟩
  · refine firstLive.2.2.2.resolve_left fun raw => ?_
    have single := placed.whole first firstLive raw
    rw [samePage, ownersOf, pair.2] at single
    cases single
  · refine secondLive.2.2.2.resolve_left fun raw => ?_
    have single := placed.whole second secondLive raw
    rw [ownersOf, pair.2] at single
    cases single

/-- LBAs may cease to be live, as long as none of them is on a page that stays valid. -/
theorem narrow {write' : Option (Nat × Page)} {ftl' : FtlController cfg lbas} (placed : Placed write ftl)
    (owners : ftl'.blockPageOwners = ftl.blockPageOwners)
    (programmed : ∀ b p, ftl'.flash.isPageProgrammed b p = ftl.flash.isPageProgrammed b p)
    (valid : ∀ b p, ftl'.flash.isPageValid b p = true → ftl.flash.isPageValid b p = true)
    (distinct : ∀ lba, write'.map Prod.fst = some lba → ftl'.stagedLba ≠ some lba)
    (live : ∀ lba, Live write' ftl' lba → Live write ftl lba)
    (entry : ∀ lba, Live write' ftl' lba → ftl'.lbaTable lba = ftl.lbaTable lba)
    (stays : ∀ lba, Live write ftl lba →
      ftl'.flash.isPageValid (ftl.lbaTable lba).blockIdx (ftl.lbaTable lba).pageIdx = true →
        Live write' ftl' lba) : Placed write' ftl' := by
  refine ⟨distinct, ?_, ?_, ?_, ?_, ?_, ?_, ?_⟩
  · intro lba live'
    rw [programmed, entry lba live']
    exact placed.programmed lba (live lba live')
  · intro lba live'
    rw [ownersOf, owners, entry lba live']
    exact placed.recorded lba (live lba live')
  · intro lba live'
    rw [ownersOf, owners, entry lba live']
    exact placed.whole lba (live lba live')
  · intro b p valid' owner member
    rw [owners] at member
    obtain ⟨before, ⟨rfl, rfl⟩, subSlot⟩ := placed.current b p (valid b p valid') owner member
    have live' := stays owner.lba before valid'
    rw [entry owner.lba live']
    exact ⟨live', ⟨rfl, rfl⟩, subSlot⟩
  · intro b p unprogrammed
    rw [programmed] at unprogrammed
    rw [owners]
    exact placed.blank b p unprogrammed
  · intro b p
    rw [owners]
    exact placed.sharing b p
  · intro b p valid'
    rw [programmed]
    exact placed.validProgrammed b p (valid b p valid')

/-- Only the table, the index, the array and the LBAs in flight matter. -/
theorem congr {write' : Option (Nat × Page)} {ftl' : FtlController cfg lbas}
    (placed : Placed write ftl)
    (table : ftl'.lbaTable = ftl.lbaTable) (owners : ftl'.blockPageOwners = ftl.blockPageOwners)
    (programmed : ∀ b p, ftl'.flash.isPageProgrammed b p = ftl.flash.isPageProgrammed b p)
    (valid : ∀ b p, ftl'.flash.isPageValid b p = ftl.flash.isPageValid b p)
    (distinct : ∀ lba, write'.map Prod.fst = some lba → ftl'.stagedLba ≠ some lba)
    (live : ∀ lba, Live write' ftl' lba ↔ Live write ftl lba) : Placed write' ftl' :=
  placed.narrow owners programmed (fun b p valid' => (valid b p).symm.trans valid') distinct
    (fun lba => (live lba).mp) (fun lba _ => congrFun table lba) fun lba before _ => (live lba).mpr before

/-! ### Host steps -/

/-- Reading changes nothing that matters. -/
theorem read (placed : Placed write ftl) {flash : FlashModel cfg} (same : flash.SameArray ftl.flash) :
    Placed write
      ({ ftl with hostReads := ftl.hostReads + 1, flash := flash } : FtlController cfg lbas) :=
  placed.congr rfl rfl same.isPageProgrammed_eq same.isPageValid_eq placed.distinct
    fun _ => Iff.rfl

/-- A block that is staged is no longer being written; it is in flight all the same. -/
theorem stage {lba : Nat} {src : Page} {staged : StagedHalfPage}
    (placed : Placed (some (lba, src)) ftl) (idle : ftl.stagedHalf = none)
    (same : staged.lba = lba) :
    Placed none ({ ftl with stagedHalf := some staged } : FtlController cfg lbas) := by
  refine placed.congr rfl rfl (fun _ _ => rfl) (fun _ _ => rfl)
    nofun fun other => ?_
  simp [Live, stagedLba, idle, same]

theorem beginWrite_stagedLba (ftl : FtlController cfg lbas) (lba : Nat) :
    (ftl.beginWrite lba).stagedLba = if ftl.stagedLba = some lba then none else ftl.stagedLba := by
  rw [beginWrite_eq]
  by_cases dropped : ftl.stagedLba = some lba
  · rw [if_pos dropped, if_pos dropped]
    rfl
  · rw [if_neg dropped, if_neg dropped]
    rfl

/-- The LBA being written is not staged. -/
theorem beginWrite_notStaged (ftl : FtlController cfg lbas) (lba : Nat) :
    (ftl.beginWrite lba).stagedLba ≠ some lba := by
  rw [beginWrite_stagedLba]
  split
  · exact nofun
  · assumption

/-- A page valid after a write has begun was valid before, and is not the old page of the LBA. -/
theorem valid_of_beginWrite {lba b p : Nat}
    (valid : (ftl.beginWrite lba).flash.isPageValid b p = true) :
    ftl.flash.isPageValid b p = true ∧
      ((ftl.lbaTable lba).Mapped → ¬(ftl.lbaTable lba).At b p) := by
  rw [beginWrite_eq] at valid
  by_cases mapped : (ftl.lbaTable lba).Mapped
  · simp only [invalidateOld, mapped, if_true] at valid
    have kept := FlashModel.isPageValid_of_invalidatePage valid
    exact ⟨kept.1, fun _ same => kept.2 ⟨same.1.symm, same.2.symm⟩⟩
  · simp only [invalidateOld, mapped, if_false] at valid
    exact ⟨valid, fun mapped' => absurd mapped' mapped⟩

/-- A page that is not the old page of the LBA stays valid. -/
theorem valid_beginWrite {lba b p : Nat} (valid : ftl.flash.isPageValid b p = true)
    (elsewhere : (ftl.lbaTable lba).Mapped → ¬(ftl.lbaTable lba).At b p) :
    (ftl.beginWrite lba).flash.isPageValid b p = true := by
  rw [beginWrite_eq]
  by_cases mapped : (ftl.lbaTable lba).Mapped
  · simp only [invalidateOld, mapped, if_true, FlashModel.invalidatePage_isPageValid, valid,
      Bool.true_and, Bool.not_eq_true', decide_eq_false_iff_not]
    exact fun same => elsewhere mapped ⟨same.1.symm, same.2.symm⟩
  · simpa only [invalidateOld, mapped, if_false] using valid

/-- Beginning a write takes the LBA out of the live ones and no other. -/
theorem live_beginWrite {lba other : Nat} {src : Page} :
    Live (some (lba, src)) (ftl.beginWrite lba) other ↔ Live none ftl other ∧ lba ≠ other := by
  simp only [Live, beginWrite_stagedLba, beginWrite_lbaTable, Option.map_some, Option.map_none]
  constructor
  · rintro ⟨inside, notWritten, notStaged, mapped⟩
    have apart : lba ≠ other := fun same => notWritten (congrArg some same)
    refine ⟨⟨inside, nofun, fun staged => ?_, mapped⟩, apart⟩
    have kept : ftl.stagedLba ≠ some lba := by
      rw [staged]
      exact fun same => apart (Option.some.inj same).symm
    rw [if_neg kept] at notStaged
    exact notStaged staged
  · rintro ⟨⟨inside, _, notStaged, mapped⟩, apart⟩
    refine ⟨inside, fun same => apart (Option.some.inj same), ?_, mapped⟩
    split
    · exact nofun
    · exact notStaged

/-- Beginning a write invalidates the only page that lists the LBA. -/
theorem beginWrite {lba : Nat} {src : Page} (placed : Placed none ftl) :
    Placed (some (lba, src)) (ftl.beginWrite lba) := by
  refine placed.narrow (by rw [beginWrite_eq]) (beginWrite_isPageProgrammed ftl lba)
    (fun b p valid => (valid_of_beginWrite valid).1) ?_ (fun other live => (live_beginWrite.mp live).1)
    (fun other _ => congrFun (beginWrite_lbaTable ftl lba) other) ?_
  · rintro other written
    obtain rfl : lba = other := Option.some.inj written
    exact beginWrite_notStaged ftl lba
  · intro other live valid
    refine live_beginWrite.mpr ⟨live, ?_⟩
    rintro rfl
    exact (valid_of_beginWrite valid).2 live.2.2.2 ⟨rfl, rfl⟩

theorem zeroed_lbaTable_of_ne (ftl : FtlController cfg lbas) {lba other : Nat} (apart : other ≠ lba) :
    (ftl.zeroed lba).lbaTable other = ftl.lbaTable other :=
  Function.update_of_ne apart _ _

/-- A zero block leaves the live LBAs as they are. -/
theorem live_zeroed {lba other : Nat} (src : Page) :
    Live none (ftl.zeroed lba) other ↔ Live (some (lba, src)) ftl other := by
  by_cases same : other = lba
  · subst same
    constructor
    · rintro ⟨_, _, _, mapped⟩
      have entry : (ftl.zeroed other).lbaTable other =
          { ftl.lbaTable other with state := .sparseZero, compressedSize := 0 } :=
        Function.update_self _ _ _
      rw [entry] at mapped
      rcases mapped with state | state <;> cases state
    · exact fun live => absurd rfl live.2.1
  · have apart : lba ≠ other := Ne.symm same
    simp only [Live, zeroed_lbaTable_of_ne ftl same, Option.map_none, Option.map_some]
    simp [apart, zeroed, withEntry, stagedLba]

/-- Recording a zero block ends the write without a page. -/
theorem zeroed {lba : Nat} {src : Page} (placed : Placed (some (lba, src)) ftl) :
    Placed none (ftl.zeroed lba) := by
  refine placed.narrow rfl (fun _ _ => rfl) (fun _ _ => id) nofun
    (fun other => (live_zeroed src).mp) (fun other live => ?_)
    fun other live _ => (live_zeroed src).mpr live
  have before := (live_zeroed src).mp live
  exact zeroed_lbaTable_of_ne ftl fun same => before.2.1 (congrArg some same.symm)

end Placed

/-! ### Moving pages -/

/-- What a collection does to the table and the array: an entry changes its location at most, and the bytes
    and the validity of a live LBA's page move along with it. -/
structure Relocated (write : Option (Nat × Page)) (before after : FtlController cfg lbas) : Prop where
  staged : after.stagedHalf = before.stagedHalf
  entry : ∀ lba, ∃ b p, after.lbaTable lba = { before.lbaTable lba with blockIdx := b, pageIdx := p }
  contents : ∀ lba, Live write before lba →
    after.flash.pageData (after.lbaTable lba).blockIdx (after.lbaTable lba).pageIdx =
      before.flash.pageData (before.lbaTable lba).blockIdx (before.lbaTable lba).pageIdx
  valid : ∀ lba, Live write before lba →
    before.flash.isPageValid (before.lbaTable lba).blockIdx (before.lbaTable lba).pageIdx = true →
      after.flash.isPageValid (after.lbaTable lba).blockIdx (after.lbaTable lba).pageIdx = true

namespace Relocated

variable {write : Option (Nat × Page)} {before middle after : FtlController cfg lbas}

/-- A change that keeps the table, the bytes and the validity bits. -/
theorem of_same (staged : after.stagedHalf = before.stagedHalf)
    (table : after.lbaTable = before.lbaTable)
    (pages : ∀ lba, Live write before lba → ∀ b p, (before.lbaTable lba).At b p →
      after.flash.pageData b p = before.flash.pageData b p ∧
        after.flash.isPageValid b p = before.flash.isPageValid b p) :
    Relocated write before after := by
  refine ⟨staged, fun lba => ⟨_, _, congrFun table lba⟩, fun lba live => ?_, fun lba live => ?_⟩
  · rw [table]
    exact (pages lba live _ _ ⟨rfl, rfl⟩).1
  · rw [table, (pages lba live _ _ ⟨rfl, rfl⟩).2]
    exact id

/-- The same LBAs are live before and after. -/
theorem live_iff (relocated : Relocated write before after) (lba : Nat) :
    Live write after lba ↔ Live write before lba := by
  obtain ⟨b, p, entry⟩ := relocated.entry lba
  simp only [Live, stagedLba, relocated.staged, entry]
  exact Iff.rfl

theorem trans (first : Relocated write before middle) (second : Relocated write middle after) :
    Relocated write before after := by
  refine ⟨second.staged.trans first.staged, fun lba => ?_, fun lba live => ?_,
    fun lba live valid => ?_⟩
  · obtain ⟨b, p, moved⟩ := first.entry lba
    obtain ⟨b', p', movedAgain⟩ := second.entry lba
    exact ⟨b', p', by rw [movedAgain, moved]⟩
  · exact (second.contents lba ((first.live_iff lba).mpr live)).trans (first.contents lba live)
  · exact second.valid lba ((first.live_iff lba).mpr live) (first.valid lba live valid)

end Relocated

/-- The owner lists after a page has moved. -/
theorem movePage_blockPageOwners (ftl : FtlController cfg lbas) (victim target p b q : Nat) :
    (ftl.movePage victim target p).blockPageOwners b q =
      if b = victim ∧ q = p then []
      else if b = ftl.reserveBlockIdx ∧ q = target then ftl.blockPageOwners victim p
      else ftl.blockPageOwners b q := by
  simp only [movePage, withOwners_blockPageOwners]

namespace Placed

/-- The page of a live LBA is not an erased one. -/
theorem not_at_blank {write : Option (Nat × Page)} {ftl : FtlController cfg lbas} {lba b p : Nat}
    (placed : Placed write ftl) (live : Live write ftl lba)
    (blank : ftl.flash.isPageProgrammed b p = false) : ¬(ftl.lbaTable lba).At b p := by
  rintro ⟨rfl, rfl⟩
  rw [placed.programmed lba live] at blank
  cases blank

section Move

variable {write : Option (Nat × Page)} {ftl : FtlController cfg lbas} {victim target p : Nat}
  (placed : Placed write ftl) (geometry : cfg.Addressable)
  (reserveLt : ftl.reserveBlockIdx < cfg.totalBlocks) (targetLt : target < cfg.pagesPerBlock)
  (blank : ftl.flash.isPageProgrammed ftl.reserveBlockIdx target = false)
  (valid : ftl.flash.isPageValid victim p = true)
include placed geometry reserveLt targetLt valid

/-- The entry of a live LBA after a valid page has moved: re-pointed exactly if the LBA is on that page. -/
theorem movePage_entry {lba : Nat} (live : Live write ftl lba) :
    (ftl.movePage victim target p).lbaTable lba =
      if (ftl.lbaTable lba).At victim p then
        { ftl.lbaTable lba with blockIdx := ftl.reserveBlockIdx, pageIdx := target }
      else ftl.lbaTable lba := by
  have block : u32 ftl.reserveBlockIdx = ftl.reserveBlockIdx :=
    u32_of_lt (Nat.lt_of_lt_of_le reserveLt geometry.blocks_le)
  have page : u32 target = target := u32_of_lt (Nat.lt_of_lt_of_le targetLt geometry.pages_le)
  have owned : (lba < lbas ∧ ∃ owner ∈ ftl.blockPageOwners victim p, owner.lba = lba) ↔
      (ftl.lbaTable lba).At victim p := by
    constructor
    · rintro ⟨_, owner, member, rfl⟩
      exact (placed.current victim p valid owner member).2.1
    · intro here
      have record := placed.recorded lba live
      rw [ownersOf, here.1, here.2] at record
      exact ⟨live.1, _, record, rfl⟩
  rw [movePage_lbaTable, block, page]
  simp only [owned]

include blank

/-- Moving a valid page onto an erased one takes the bytes of its LBAs along. -/
theorem relocated_movePage : Relocated write ftl (ftl.movePage victim target p) := by
  have copied := ftl.movePage_flash_target p geometry.fullPage reserveLt targetLt blank
    (placed.validProgrammed victim p valid)
  have entry : ∀ {lba}, Live write ftl lba → _ := fun live =>
    placed.movePage_entry geometry reserveLt targetLt valid live
  refine ⟨rfl, fun lba => ?_, fun lba live => ?_, fun lba live before => ?_⟩
  · rw [movePage_lbaTable]
    split
    · exact ⟨_, _, rfl⟩
    · exact ⟨_, _, rfl⟩
  · rw [entry live]
    by_cases here : (ftl.lbaTable lba).At victim p
    · rw [if_pos here, here.1, here.2]
      exact copied.2.2
    · rw [if_neg here]
      exact (ftl.movePage_flash_of_ne victim p
        (placed.not_at_blank live blank)).2.2
  · rw [entry live]
    by_cases here : (ftl.lbaTable lba).At victim p
    · rw [if_pos here]
      exact copied.2.1
    · rw [if_neg here, (ftl.movePage_flash_of_ne victim p
        (placed.not_at_blank live blank)).2.1]
      exact before

/-- The owners of a live LBA's page after the move are those of its page before. -/
theorem movePage_ownersOf {lba : Nat} (live : Live write ftl lba) :
    (ftl.movePage victim target p).ownersOf lba = ftl.ownersOf lba := by
  have programmed := placed.validProgrammed victim p valid
  have apart : ¬(ftl.reserveBlockIdx = victim ∧ target = p) := by
    rintro ⟨sameBlock, samePage⟩
    rw [sameBlock, samePage, programmed] at blank
    cases blank
  rw [ownersOf, placed.movePage_entry geometry reserveLt targetLt valid live,
    movePage_blockPageOwners]
  by_cases here : (ftl.lbaTable lba).At victim p
  · rw [if_pos here, if_neg apart, if_pos ⟨rfl, rfl⟩, ownersOf, here.1, here.2]
  · rw [if_neg here]
    exact (if_neg here).trans (if_neg (placed.not_at_blank live blank))

/-- Moving a valid page onto an erased one keeps everything in its place. -/
theorem movePage : Placed write (ftl.movePage victim target p) := by
  have relocated := placed.relocated_movePage geometry reserveLt targetLt blank valid
  have entry : ∀ {lba}, Live write ftl lba → _ := fun live =>
    placed.movePage_entry geometry reserveLt targetLt valid live
  have owners : ∀ {lba}, Live write ftl lba → _ := fun live =>
    placed.movePage_ownersOf geometry reserveLt targetLt blank valid live
  have copied := ftl.movePage_flash_target p geometry.fullPage reserveLt targetLt blank
    (placed.validProgrammed victim p valid)
  have kept : ∀ {b q}, ¬(b = ftl.reserveBlockIdx ∧ q = target) → _ := fun other =>
    ftl.movePage_flash_of_ne victim p other
  refine ⟨placed.distinct, ?_, ?_, ?_, ?_, ?_, ?_, ?_⟩
  · intro lba live
    rw [relocated.live_iff] at live
    rw [entry live]
    by_cases here : (ftl.lbaTable lba).At victim p
    · rw [if_pos here]
      exact copied.1
    · rw [if_neg here,
        (kept (placed.not_at_blank live blank)).1]
      exact placed.programmed lba live
  · intro lba live
    rw [relocated.live_iff] at live
    have subSlot : ((ftl.movePage victim target p).lbaTable lba).subSlot =
        (ftl.lbaTable lba).subSlot := by
      obtain ⟨b, q, moved⟩ := relocated.entry lba
      rw [moved]
    rw [owners live, subSlot]
    exact placed.recorded lba live
  · intro lba live state
    rw [relocated.live_iff] at live
    obtain ⟨b, q, moved⟩ := relocated.entry lba
    rw [moved] at state
    rw [owners live]
    exact placed.whole lba live state
  · intro b q valid' owner member
    rw [movePage_blockPageOwners] at member
    by_cases old : b = victim ∧ q = p
    · rw [if_pos old] at member
      cases member
    · rw [if_neg old] at member
      by_cases new : b = ftl.reserveBlockIdx ∧ q = target
      · -- The owners of the moved page point at its new location.
        rw [if_pos new] at member
        have before := placed.current victim p valid owner member
        rw [relocated.live_iff, entry before.1, if_pos before.2.1]
        exact ⟨before.1, ⟨new.1.symm, new.2.symm⟩, before.2.2⟩
      · rw [if_neg new] at member
        rw [(kept new).2.1] at valid'
        have before := placed.current b q valid' owner member
        have elsewhere : ¬(ftl.lbaTable owner.lba).At victim p := fun here =>
          old ⟨before.2.1.1.symm.trans here.1, before.2.1.2.symm.trans here.2⟩
        rw [relocated.live_iff, entry before.1, if_neg elsewhere]
        exact before
  · intro b q unprogrammed
    rw [movePage_blockPageOwners]
    by_cases new : b = ftl.reserveBlockIdx ∧ q = target
    · rw [new.1, new.2, copied.1] at unprogrammed
      cases unprogrammed
    · rw [(kept new).1] at unprogrammed
      rw [if_neg new, placed.blank b q unprogrammed, ite_self]
  · intro b q
    rw [movePage_blockPageOwners]
    split
    · exact .free
    · split
      · exact placed.sharing victim p
      · exact placed.sharing b q
  · intro b q valid'
    by_cases new : b = ftl.reserveBlockIdx ∧ q = target
    · rw [new.1, new.2]
      exact copied.1
    · rw [(kept new).2.1] at valid'
      rw [(kept new).1]
      exact placed.validProgrammed b q valid'

end Move

/-! ### Collections -/

section Collect

variable {write : Option (Nat × Page)} {ftl room : FtlController cfg lbas}

/-- Forgetting the owners of a page without a live LBA. -/
theorem forget {victim p : Nat} (placed : Placed write ftl)
    (vacant : ∀ lba, Live write ftl lba → ¬(ftl.lbaTable lba).At victim p) :
    Placed write (ftl.withOwners victim p []) := by
  have owners : ∀ {lba}, Live write ftl lba →
      (ftl.withOwners victim p []).ownersOf lba = ftl.ownersOf lba := by
    intro lba live
    rw [ownersOf, withOwners_blockPageOwners]
    exact if_neg (vacant lba live)
  refine ⟨placed.distinct, placed.programmed, ?_, ?_, ?_, ?_, ?_, placed.validProgrammed⟩
  · intro lba live
    rw [owners live]
    exact placed.recorded lba live
  · intro lba live
    rw [owners live]
    exact placed.whole lba live
  · intro b q valid owner member
    rw [withOwners_blockPageOwners] at member
    split at member
    · cases member
    · exact placed.current b q valid owner member
  · intro b q unprogrammed
    rw [withOwners_blockPageOwners, placed.blank b q unprogrammed, ite_self]
  · intro b q
    rw [withOwners_blockPageOwners]
    split
    · exact .free
    · exact placed.sharing b q

/-- Reclaiming a block without a live LBA. -/
theorem reclaimed {victim : Nat} (placed : Placed write ftl)
    (vacant : ∀ lba, Live write ftl lba → (ftl.lbaTable lba).blockIdx ≠ victim) :
    Placed write (ftl.reclaimed victim) := by
  have owners : ∀ {b}, b ≠ victim → ∀ p,
      (ftl.reclaimed victim).blockPageOwners b p = ftl.blockPageOwners b p := fun other p =>
    congrFun (Function.update_of_ne other _ _) p
  have sameOwners : ∀ {lba}, Live write ftl lba →
      (ftl.reclaimed victim).ownersOf lba = ftl.ownersOf lba := fun {lba} live =>
    owners (vacant lba live) _
  refine ⟨placed.distinct, ?_, ?_, ?_, ?_, ?_, ?_, ?_⟩
  · intro lba live
    exact (FlashModel.eraseBlock_isPageProgrammed_of_ne (vacant lba live) _).trans
      (placed.programmed lba live)
  · intro lba live
    rw [sameOwners live]
    exact placed.recorded lba live
  · intro lba live
    rw [sameOwners live]
    exact placed.whole lba live
  all_goals
    intro b p
    by_cases erased : b = victim
    · subst erased
      simp [Sharing.free, FtlController.reclaimed, FlashModel.eraseBlock_isPageValid_self]
  · intro valid owner member
    rw [owners erased] at member
    exact placed.current b p
      ((FlashModel.eraseBlock_isPageValid_of_ne erased p).symm.trans valid) owner member
  · intro unprogrammed
    rw [owners erased]
    exact placed.blank b p
      ((FlashModel.eraseBlock_isPageProgrammed_of_ne erased p).symm.trans unprogrammed)
  · rw [owners erased]
    exact placed.sharing b p
  · intro valid
    exact (FlashModel.eraseBlock_isPageProgrammed_of_ne erased p).trans
      (placed.validProgrammed b p
        ((FlashModel.eraseBlock_isPageValid_of_ne erased p).symm.trans valid))

end Collect

end Placed

/-- If a victim is about to be collected, every live LBA on it is on a valid page. -/
def VictimLive (write : Option (Nat × Page)) (ftl : FtlController cfg lbas) : Prop :=
  ftl.Collects → ∀ lba, lba < lbas → Live write ftl lba →
    (ftl.lbaTable lba).blockIdx = ftl.selectVictim.1 →
      ftl.flash.isPageValid ftl.selectVictim.1 (ftl.lbaTable lba).pageIdx = true

instance (write : Option (Nat × Page)) (ftl : FtlController cfg lbas) :
    Decidable (VictimLive write ftl) :=
  inferInstanceAs (Decidable (_ → _))

/-- The place is safe for a program: it and the collection before it program erased pages only, and the
    collection loses no live LBA. -/
structure SafeSite (write : Option (Nat × Page)) (ftl : FtlController cfg lbas) : Prop where
  targetErased : ftl.TargetErased
  victimLive : VictimLive write ftl

instance (write : Option (Nat × Page)) (ftl : FtlController cfg lbas) :
    Decidable (SafeSite write ftl) :=
  decidable_of_iff (ftl.TargetErased ∧ VictimLive write ftl)
    ⟨fun both => ⟨both.1, both.2⟩, fun site => ⟨site.targetErased, site.victimLive⟩⟩

section MakeRoom

variable {write : Option (Nat × Page)} {ftl room : FtlController cfg lbas}

/-- The invariant of the migration loop: the live LBAs still on the victim are on valid pages ahead. -/
structure Migrating (write : Option (Nat × Page)) (start : FtlController cfg lbas) (p : Nat)
    (ftl : FtlController cfg lbas) : Prop where
  placed : Placed write ftl
  relocated : Relocated write start ftl
  ahead : ∀ lba, Live write ftl lba → (ftl.lbaTable lba).blockIdx = start.selectVictim.1 →
    p ≤ (ftl.lbaTable lba).pageIdx ∧
      start.flash.isPageValid start.selectVictim.1 (ftl.lbaTable lba).pageIdx = true

namespace Migrating

variable {start : FtlController cfg lbas} {p : Nat}

/-- The loop starts with every live LBA of the victim on a valid page. -/
theorem init (placed : Placed write start)
    (victimLive : ∀ lba, Live write start lba → (start.lbaTable lba).blockIdx = start.selectVictim.1 →
      start.flash.isPageValid start.selectVictim.1 (start.lbaTable lba).pageIdx = true) :
    Migrating write start 0 { start with gcCount := start.gcCount + 1 } := by
  refine ⟨placed.congr rfl rfl (fun _ _ => rfl) (fun _ _ => rfl) placed.distinct fun _ => Iff.rfl,
    .of_same rfl rfl fun _ _ _ _ _ => ⟨rfl, rfl⟩, fun lba live here => ?_⟩
  exact ⟨Nat.zero_le _, victimLive lba live here⟩

/-- Forgetting an invalid page. -/
theorem forget (migrating : Migrating write start p ftl)
    (invalid : start.flash.isPageValid start.selectVictim.1 p = false) :
    Migrating write start (p + 1) (ftl.withOwners start.selectVictim.1 p []) := by
  obtain ⟨placed, relocated, ahead⟩ := migrating
  have vacant : ∀ lba, Live write ftl lba → ¬(ftl.lbaTable lba).At start.selectVictim.1 p := by
    rintro lba live ⟨sameBlock, samePage⟩
    have valid := (ahead lba live sameBlock).2
    rw [samePage, invalid] at valid
    cases valid
  refine ⟨placed.forget vacant, relocated.trans (.of_same rfl rfl fun _ _ _ _ _ => ⟨rfl, rfl⟩),
    fun lba live here => ?_⟩
  have before := ahead lba live here
  refine ⟨Nat.lt_of_le_of_ne before.1 fun samePage => ?_, before.2⟩
  exact vacant lba live ⟨here, samePage.symm⟩

/-- Moving a valid page onto an erased one. -/
theorem move (migrating : Migrating write start p ftl) (geometry : cfg.Addressable)
    (reserveLt : start.reserveBlockIdx < cfg.totalBlocks) (collects : start.Collects)
    (migration : Migration start start.selectVictim.1 p ftl) (pageLt : p < cfg.pagesPerBlock)
    (blank : ftl.flash.isPageProgrammed ftl.reserveBlockIdx
      (start.flash.validBelow start.selectVictim.1 p) = false)
    (valid : start.flash.isPageValid start.selectVictim.1 p = true) :
    Migrating write start (p + 1)
      (ftl.movePage start.selectVictim.1 (start.flash.validBelow start.selectVictim.1 p) p) := by
  obtain ⟨placed, relocated, ahead⟩ := migrating
  have reserveLt : ftl.reserveBlockIdx < cfg.totalBlocks := by
    rw [migration.reserve]
    exact reserveLt
  have targetLt : start.flash.validBelow start.selectVictim.1 p < cfg.pagesPerBlock :=
    Nat.lt_of_le_of_lt (FlashModel.validBelow_le _ _ _) pageLt
  have stillValid : ftl.flash.isPageValid start.selectVictim.1 p = true := by
    rw [migration.victimValid collects.apart]
    exact valid
  have moved := placed.relocated_movePage geometry reserveLt targetLt blank stillValid
  refine ⟨placed.movePage geometry reserveLt targetLt blank stillValid, relocated.trans moved,
    fun lba live here => ?_⟩
  rw [moved.live_iff] at live
  rw [placed.movePage_entry geometry reserveLt targetLt stillValid live] at here ⊢
  by_cases onPage : (ftl.lbaTable lba).At start.selectVictim.1 p
  · rw [if_pos onPage] at here
    exact absurd here.symm (migration.reserve ▸ collects.apart)
  · rw [if_neg onPage] at here ⊢
    have before := ahead lba live here
    exact ⟨Nat.lt_of_le_of_ne before.1 fun samePage => onPage ⟨here, samePage.symm⟩, before.2⟩

/-- Reclaiming the victim once the loop is through. -/
theorem reclaim (migrating : Migrating write start cfg.pagesPerBlock ftl) :
    Placed write (ftl.reclaimed start.selectVictim.1) ∧
      Relocated write start (ftl.reclaimed start.selectVictim.1) := by
  obtain ⟨placed, relocated, ahead⟩ := migrating
  have vacant : ∀ lba, Live write ftl lba → (ftl.lbaTable lba).blockIdx ≠ start.selectVictim.1 := by
    intro lba live here
    have before := ahead lba live here
    exact absurd (FlashModel.isPageValid_inRange before.2).2 (Nat.not_lt.mpr before.1)
  refine ⟨placed.reclaimed vacant, relocated.trans (.of_same rfl rfl fun lba live b p here => ?_)⟩
  have other : b ≠ start.selectVictim.1 := here.1 ▸ vacant lba live
  exact ⟨FlashModel.eraseBlock_pageData_of_ne other p,
    FlashModel.eraseBlock_isPageValid_of_ne other p⟩

end Migrating

/-- Making room at a safe place keeps everything in its place and relocates the live LBAs. -/
theorem Placed.makeRoom (placed : Placed write ftl) (geometry : cfg.Addressable)
    (safe : ftl.IndexSafe) (site : SafeSite write ftl) (made : ftl.makeRoom = .ok room) :
    Placed write room ∧ Relocated write ftl room := by
  refine makeRoom_rule made (Migrating write ftl)
    (fun room => Placed write room ∧ Relocated write ftl room)
    ?stay ?adopt ?init ?forget ?move ?reclaim
  case stay => exact fun _ => ⟨placed, .of_same rfl rfl fun _ _ _ _ _ => ⟨rfl, rfl⟩⟩
  case adopt =>
    exact fun _ _ => ⟨placed.congr rfl rfl (fun _ _ => rfl) (fun _ _ => rfl) placed.distinct
      fun _ => Iff.rfl, .of_same rfl rfl fun _ _ _ _ _ => ⟨rfl, rfl⟩⟩
  case init =>
    exact fun collects => .init placed fun lba live => site.victimLive collects lba live.1 live
  case forget => exact fun _ _ _ _ _ invalid migrating => migrating.forget invalid
  case move =>
    exact fun p s collects pageLt migration valid migrating =>
      migrating.move geometry safe.reserveBlock collects migration pageLt
        (site.targetErased.blank collects pageLt migration valid) valid
  case reclaim => exact fun _ _ _ migrating => migrating.reclaim

end MakeRoom

/-! ### Program sites -/

/-- How the tenants of a page relate to the LBAs in flight before and after the program. -/
structure TenantsFit (write : Option (Nat × Page)) (ftl : FtlController cfg lbas)
    (tenants : List Tenant) (write' : Option (Nat × Page)) : Prop where
  inside : ∀ tenant ∈ tenants, tenant.lba < lbas
  sharing : Sharing (tenants.map Tenant.owner)
  mapped : ∀ tenant ∈ tenants, tenant.state = .rawFullPage ∨ tenant.state = .compressedHalfPage
  whole : ∀ tenant ∈ tenants, tenant.state = .rawFullPage → tenants.length = 1
  unique : ∀ left ∈ tenants, ∀ right ∈ tenants, left.lba = right.lba → left = right
  landed : ∀ tenant ∈ tenants, write'.map Prod.fst ≠ some tenant.lba
  inFlight : ∀ lba, (write.map Prod.fst = some lba ∨ ftl.stagedLba = some lba) ↔
    (∃ tenant ∈ tenants, tenant.lba = lba) ∨ write'.map Prod.fst = some lba

/-- The tenants of every program site fit. -/
theorem ProgramSite.tenantsFit {ftl : FtlController cfg lbas} {write write' : Option (Nat × Page)}
    {buf : Page} {tenants : List Tenant} {packs raws : Nat}
    (distinct : ∀ lba, write.map Prod.fst = some lba → ftl.stagedLba ≠ some lba)
    (inside : ∀ tenant ∈ tenants, tenant.lba < lbas)
    (site : ProgramSite lz4 ftl write buf tenants packs raws write') :
    TenantsFit write ftl tenants write' := by
  cases site with
  | flush waiting _ =>
      refine ⟨inside, .alone _, by simp [StagedHalfPage.tenant], by simp, by simp, ?_, ?_⟩
      · simp only [List.forall_mem_singleton]
        exact fun written => distinct _ written (by simp [stagedLba, waiting,
          StagedHalfPage.tenant])
      · simp [stagedLba, waiting, StagedHalfPage.tenant, or_comm]
  | @pack lba src staged _ waiting _ _ _ _ =>
      have apart : staged.lba ≠ lba := fun same =>
        distinct lba rfl (by simp [stagedLba, waiting, same])
      refine ⟨inside, .pair apart, by simp [StagedHalfPage.tenant], by simp [StagedHalfPage.tenant],
        ?_, by simp, ?_⟩
      · simp [StagedHalfPage.tenant, apart, apart.symm]
      · simp [stagedLba, waiting, StagedHalfPage.tenant, or_comm]
  | full idle _ _ =>
      refine ⟨inside, .alone _, by simp [fullTenant], by simp, by simp, by simp, ?_⟩
      simp [stagedLba, idle, fullTenant]

section Occupy

variable {write write' : Option (Nat × Page)} {ftl : FtlController cfg lbas} {tenants : List Tenant}
  {buf : Page} {packs raws : Nat}

/-- The LBAs that are live after a page has been occupied: the tenants and those live before. -/
theorem live_occupyPage (fit : TenantsFit write ftl tenants write') (lba : Nat) :
    Live write' (ftl.occupyPage buf tenants packs raws) lba ↔
      (∃ tenant ∈ tenants, tenant.lba = lba) ∨ Live write ftl lba := by
  have inFlight := fit.inFlight lba
  have entry := ftl.occupyPage_lbaTable buf tenants packs raws lba
  constructor
  · rintro ⟨inside, notWritten, _, mapped⟩
    by_cases tenanted : ∃ tenant ∈ tenants, tenant.lba = lba
    · exact Or.inl tenanted
    · have notInFlight := fun before => (inFlight.mp before).elim tenanted notWritten
      rcases entry with ⟨_, kept⟩ | ⟨tenant, member, same, _⟩
      · exact Or.inr ⟨inside, fun written => notInFlight (Or.inl written),
          fun staged => notInFlight (Or.inr staged), kept ▸ mapped⟩
      · exact absurd ⟨tenant, member, same⟩ tenanted
  · rintro (⟨tenant, member, rfl⟩ | live)
    · refine ⟨fit.inside tenant member, fit.landed tenant member, nofun, ?_⟩
      rcases entry with ⟨others, _⟩ | ⟨tenant', member', _, recorded⟩
      · exact absurd rfl (others tenant member)
      · rw [recorded]
        exact fit.mapped tenant' member'
    · have notInFlight : ¬((∃ tenant ∈ tenants, tenant.lba = lba) ∨
          write'.map Prod.fst = some lba) := fun after =>
        (inFlight.mpr after).elim live.2.1 live.2.2.1
      rcases entry with ⟨_, kept⟩ | ⟨tenant, member, same, _⟩
      · exact ⟨live.1, fun written => notInFlight (Or.inr written), nofun, kept ▸ live.2.2.2⟩
      · exact absurd (Or.inl ⟨tenant, member, same⟩) notInFlight

/-- The entry of a tenant after its page has been occupied. -/
theorem occupyPage_entry_of_tenant (buf : Page) (packs raws : Nat) (geometry : cfg.Addressable)
    (inside : ftl.ActivePageInside)
    (unique : ∀ left ∈ tenants, ∀ right ∈ tenants, left.lba = right.lba → left = right)
    {tenant : Tenant} (member : tenant ∈ tenants) :
    (ftl.occupyPage buf tenants packs raws).lbaTable tenant.lba =
      { state := tenant.state, blockIdx := ftl.activeBlockIdx, pageIdx := ftl.activePageIdx,
        subSlot := tenant.subSlot, compressedSize := tenant.compressedSize } := by
  rcases ftl.occupyPage_lbaTable buf tenants packs raws tenant.lba with
    ⟨others, _⟩ | ⟨tenant', member', same, recorded⟩
  · exact absurd rfl (others tenant member)
  · obtain rfl := unique tenant' member' tenant member same
    rw [recorded, Tenant.entry, u32_of_lt (Nat.lt_of_lt_of_le inside.1 geometry.blocks_le),
      u32_of_lt (Nat.lt_of_lt_of_le inside.2 geometry.pages_le)]

/-- The entry of an LBA that was live before is untouched. -/
theorem occupyPage_entry_of_live (buf : Page) (packs raws : Nat)
    (fit : TenantsFit write ftl tenants write') {lba : Nat} (live : Live write ftl lba) :
    (ftl.occupyPage buf tenants packs raws).lbaTable lba = ftl.lbaTable lba := by
  rcases ftl.occupyPage_lbaTable buf tenants packs raws lba with
    ⟨_, kept⟩ | ⟨tenant, member, same, _⟩
  · exact kept
  · exact ((fit.inFlight lba).mpr (Or.inl ⟨tenant, member, same⟩)).elim
      (fun written => absurd written live.2.1) fun staged => absurd staged live.2.2.1

/-- The programmed page after an accepted program, and the others. -/
theorem occupyPage_page (buf : Page) (tenants : List Tenant) (packs raws : Nat)
    (fullPage : cfg.pageSizeBytes = flashPageSize) (inside : ftl.ActivePageInside)
    (blank : ftl.flash.isPageProgrammed ftl.activeBlockIdx ftl.activePageIdx = false) :
    let after := (ftl.occupyPage buf tenants packs raws).flash
    after.isPageProgrammed ftl.activeBlockIdx ftl.activePageIdx = true ∧
      after.isPageValid ftl.activeBlockIdx ftl.activePageIdx = true ∧
      after.pageData ftl.activeBlockIdx ftl.activePageIdx = buf := by
  have accepted := (FlashModel.programPage_accepted ftl.flash ftl.activeBlockIdx ftl.activePageIdx
    buf).mpr ⟨inside.1, inside.2, blank⟩
  have page := FlashModel.programPage_page_of_accepted accepted
  rw [Buffer.overlay_full _ _ (Nat.le_of_eq fullPage.symm)] at page
  exact page

theorem occupyPage_page_of_ne (buf : Page) (tenants : List Tenant) (packs raws : Nat) {b p : Nat}
    (other : ¬(b = ftl.activeBlockIdx ∧ p = ftl.activePageIdx)) :
    let after := (ftl.occupyPage buf tenants packs raws).flash
    after.isPageProgrammed b p = ftl.flash.isPageProgrammed b p ∧
      after.isPageValid b p = ftl.flash.isPageValid b p ∧
      after.pageData b p = ftl.flash.pageData b p :=
  ⟨FlashModel.programPage_isPageProgrammed_of_ne other,
    FlashModel.programPage_isPageValid_of_ne other, FlashModel.programPage_pageData_of_ne other⟩

/-- Occupying an erased page puts its tenants in their place. -/
theorem Placed.occupyPage (placed : Placed write ftl) (geometry : cfg.Addressable)
    (inside : ftl.ActivePageInside)
    (blank : ftl.flash.isPageProgrammed ftl.activeBlockIdx ftl.activePageIdx = false)
    (fit : TenantsFit write ftl tenants write') :
    Placed write' (ftl.occupyPage buf tenants packs raws) := by
  have page := occupyPage_page buf tenants packs raws geometry.fullPage inside blank
  have others : ∀ {b p}, ¬(b = ftl.activeBlockIdx ∧ p = ftl.activePageIdx) → _ := fun other =>
    occupyPage_page_of_ne buf tenants packs raws other
  have landed : ∀ {tenant}, tenant ∈ tenants → _ := fun member =>
    occupyPage_entry_of_tenant buf packs raws geometry inside fit.unique member
  have kept : ∀ {lba}, Live write ftl lba → _ := fun live =>
    occupyPage_entry_of_live buf packs raws fit live
  have owners : ∀ b p, (ftl.occupyPage buf tenants packs raws).blockPageOwners b p =
      if b = ftl.activeBlockIdx ∧ p = ftl.activePageIdx then tenants.map Tenant.owner
      else ftl.blockPageOwners b p := by
    intro b p
    apply (withOwners_blockPageOwners _ _ _ _ b p).trans
    rw [placed.blank _ _ blank, List.nil_append]
    rfl
  refine ⟨fun _ _ => nofun, ?_, ?_, ?_, ?_, ?_, ?_, ?_⟩
  · intro lba live
    rcases (live_occupyPage fit lba).mp live with ⟨tenant, member, rfl⟩ | before
    · rw [landed member]
      exact page.1
    · rw [kept before, (others (placed.not_at_blank before blank)).1]
      exact placed.programmed lba before
  · intro lba live
    rcases (live_occupyPage fit lba).mp live with ⟨tenant, member, rfl⟩ | before
    · rw [ownersOf, owners, landed member, if_pos ⟨rfl, rfl⟩]
      exact List.mem_map_of_mem member
    · rw [ownersOf, owners, kept before, if_neg (placed.not_at_blank before blank)]
      exact placed.recorded lba before
  · intro lba live state
    rcases (live_occupyPage fit lba).mp live with ⟨tenant, member, rfl⟩ | before
    · rw [landed member] at state
      rw [ownersOf, owners, landed member, if_pos ⟨rfl, rfl⟩, List.length_map]
      exact fit.whole tenant member state
    · rw [kept before] at state
      rw [ownersOf, owners, kept before, if_neg (placed.not_at_blank before blank)]
      exact placed.whole lba before state
  · intro b p valid owner member
    rw [owners] at member
    by_cases new : b = ftl.activeBlockIdx ∧ p = ftl.activePageIdx
    · rw [if_pos new] at member
      obtain ⟨tenant, tenanted, rfl⟩ := List.mem_map.mp member
      rw [live_occupyPage fit, Tenant.owner, landed tenanted]
      exact ⟨Or.inl ⟨tenant, tenanted, rfl⟩, ⟨new.1.symm, new.2.symm⟩, rfl⟩
    · rw [if_neg new] at member
      rw [(others new).2.1] at valid
      have before := placed.current b p valid owner member
      rw [live_occupyPage fit, kept before.1]
      exact ⟨Or.inr before.1, before.2⟩
  · intro b p unprogrammed
    rw [owners]
    by_cases new : b = ftl.activeBlockIdx ∧ p = ftl.activePageIdx
    · rw [new.1, new.2, page.1] at unprogrammed
      cases unprogrammed
    · rw [if_neg new]
      rw [(others new).1] at unprogrammed
      exact placed.blank b p unprogrammed
  · intro b p
    rw [owners]
    split
    · exact fit.sharing
    · exact placed.sharing b p
  · intro b p valid
    by_cases new : b = ftl.activeBlockIdx ∧ p = ftl.activePageIdx
    · rw [new.1, new.2]
      exact page.1
    · rw [(others new).2.1] at valid
      rw [(others new).1]
      exact placed.validProgrammed b p valid

end Occupy

/-- The staging buffer is all that `TenantsFit` reads of the controller. -/
theorem TenantsFit.of_staged {write write' : Option (Nat × Page)} {ftl room : FtlController cfg lbas}
    {tenants : List Tenant} (fit : TenantsFit write ftl tenants write')
    (staged : room.stagedHalf = ftl.stagedHalf) : TenantsFit write room tenants write' := by
  refine ⟨fit.inside, fit.sharing, fit.mapped, fit.whole, fit.unique, fit.landed, fun lba => ?_⟩
  rw [stagedLba, staged]
  exact fit.inFlight lba

/-! ### Runs -/

/-- The index-safe controllers with everything in its place. -/
structure InPlace (write : Option (Nat × Page)) (ftl : FtlController cfg lbas) : Prop where
  safe : ftl.IndexSafe
  placed : Placed write ftl

section Runs

variable {write write' : Option (Nat × Page)} {ftl ftl' room : FtlController cfg lbas}

/-- What a program at a safe site finds once room is made. -/
structure SiteReady (write : Option (Nat × Page)) (ftl room : FtlController cfg lbas)
    (tenants : List Tenant) (write' : Option (Nat × Page)) : Prop where
  inPlace : InPlace write room
  relocated : Relocated write ftl room
  blank : room.flash.isPageProgrammed room.activeBlockIdx room.activePageIdx = false
  fit : TenantsFit write room tenants write'

theorem InPlace.siteReady (inPlace : InPlace write ftl) (geometry : cfg.Addressable)
    (safeSite : SafeSite write ftl) {buf : Page} {tenants : List Tenant} {packs raws : Nat}
    (site : ProgramSite lz4 ftl write buf tenants packs raws write')
    (made : ftl.makeRoom = .ok room) (tenantsLt : ∀ tenant ∈ tenants, tenant.lba < lbas) :
    SiteReady write ftl room tenants write' := by
  obtain ⟨room', made', roomSafe, _⟩ := inPlace.safe.makeRoom geometry.twoBlocks geometry.onePage
  obtain rfl : room = room' := Except.ok.inj (made.symm.trans made')
  obtain ⟨roomPlaced, relocated⟩ := inPlace.placed.makeRoom geometry inPlace.safe safeSite made
  obtain ⟨_, _, erased⟩ := makeRoom_programCalls inPlace.safe made
  exact ⟨⟨roomSafe, roomPlaced⟩, relocated, (erased.mpr safeSite.targetErased).2,
    (site.tenantsFit inPlace.placed.distinct tenantsLt).of_staged relocated.staged⟩

/-- A safe program site keeps everything in its place. -/
theorem inPlace_keptByProgram (geometry : cfg.Addressable) :
    KeptByProgram lz4 (@InPlace cfg lbas) SafeSite := by
  intro s write buf tenants packs raws write' room inPlace safeSite site made inside tenantsLt
  have ready := inPlace.siteReady geometry safeSite site made tenantsLt
  exact ⟨ready.inPlace.safe.occupyPage inside (site.sizeSafe inPlace.safe),
    ready.inPlace.placed.occupyPage geometry inside ready.blank ready.fit⟩

theorem InPlace.beginWrite (inPlace : InPlace none ftl) (lba : Nat) {src : Page} :
    InPlace (some (lba, src)) (ftl.beginWrite lba) :=
  ⟨inPlace.safe.beginWrite lba, inPlace.placed.beginWrite⟩

theorem InPlace.zeroed {lba : Nat} {src : Page} (inPlace : InPlace (some (lba, src)) ftl) :
    InPlace none (ftl.zeroed lba) :=
  ⟨inPlace.safe.zeroed lba, inPlace.placed.zeroed⟩

theorem InPlace.read (inPlace : InPlace write ftl) {flash : FlashModel cfg}
    (same : flash.SameArray ftl.flash) :
    InPlace write
      ({ ftl with hostReads := ftl.hostReads + 1, flash := flash } : FtlController cfg lbas) :=
  ⟨inPlace.safe.read flash, inPlace.placed.read same⟩

theorem InPlace.stage {lba : Nat} {src : Page} (inPlace : InPlace (some (lba, src)) ftl)
    (inside : lba < lbas) (idle : ftl.stagedHalf = none)
    (nonzero : (compress lz4 (some src)).isZeroBlock = false)
    (half : (compress lz4 (some src)).compressedSize ≤ halfPageSize)
    (data : Buffer UInt8 halfPageSize) :
    InPlace none
      ({ ftl with stagedHalf := some ⟨lba, (compress lz4 (some src)).compressedSize, data⟩ } :
        FtlController cfg lbas) :=
  ⟨inPlace.safe.stage inside (compress_half_size nonzero half) half, inPlace.placed.stage idle rfl⟩

/-- A call whose programs all land on safe sites keeps everything in its place. -/
theorem InPlace.call (inPlace : InPlace none ftl) (geometry : cfg.Addressable)
    {hostCall : HostCall} {ok : Bool} (sites : AtEveryProgram lz4 SafeSite ftl hostCall)
    (returned : ftl.call lz4 hostCall = .ok (ftl', ok)) : InPlace none ftl' := by
  refine call_rule (I := InPlace) returned (fun lba _ _ => inPlace.beginWrite lba)
    (fun _ => inPlace) sites ?read ?zero ?stage (inPlace_keptByProgram geometry)
  case read => exact fun s flash inPlace same => inPlace.read same
  case zero => exact fun s lba src inPlace _ _ => inPlace.zeroed
  case stage =>
    exact fun s lba src data inPlace inside idle nonzero half _ =>
      inPlace.stage inside idle nonzero half data

/-- No two LBAs whose entries designate a page, neither of them staged, share bytes: they are on different
    pages or in different halves of one, and each is listed exactly once on its page, under its half. -/
structure NoAliasing (ftl : FtlController cfg lbas) : Prop where
  apart : ∀ first second, first ≠ second → Live none ftl first → Live none ftl second →
    ¬(ftl.lbaTable first).At (ftl.lbaTable second).blockIdx (ftl.lbaTable second).pageIdx ∨
      ((ftl.lbaTable first).state = .compressedHalfPage ∧
          (ftl.lbaTable second).state = .compressedHalfPage) ∧
        (ftl.lbaTable first).subSlot ≠ (ftl.lbaTable second).subSlot
  recordedOnce : ∀ lba, Live none ftl lba →
    (ftl.ownersOf lba).filter (fun owner => owner.lba = lba) =
      [⟨lba, (ftl.lbaTable lba).subSlot⟩]

theorem Placed.noAliasing (placed : Placed none ftl) : NoAliasing ftl where
  apart first second other firstLive secondLive := by
    by_cases same : (ftl.lbaTable first).At (ftl.lbaTable second).blockIdx
        (ftl.lbaTable second).pageIdx
    · exact Or.inr (placed.halves other firstLive secondLive same)
    · exact Or.inl same
  recordedOnce lba live := (placed.sharing _ _).filter_lba (placed.recorded lba live)

/-- In a run whose programs all land on erased pages and whose victims hold no live LBA on an invalid page, no
    two LBAs ever share bytes. -/
theorem trace_noAliasing {capacity : Nat} {events : List (HostCall × Bool)}
    {ftl : FtlController cfg (lbaCount capacity)} (geometry : cfg.Addressable)
    (trace : Trace (FtlController.call lz4) (AtEveryProgram lz4 SafeSite)
      (FtlController.fresh cfg capacity) events ftl) : ftl.NoAliasing := by
  have inPlace : InPlace none ftl :=
    trace.invariant (fun _ s => InPlace none s)
      ⟨.fresh _ geometry.twoBlocks geometry.onePage, .fresh⟩
      fun _ _ _ _ _ inPlace sites returned => inPlace.call geometry sites returned
  exact inPlace.placed.noAliasing

end Runs

/-- The first four alternate writes are safe. -/
theorem fourWrites_noAliasing :
    ∃ ftl : FtlController fourPages (lbaCount 8192), ftl.gcCount = 2 ∧ Live none ftl 0 ∧
      Live none ftl 1 ∧ ftl.NoAliasing := by
  rcases (Option.any_eq_true _ _).mp
      (by decide +kernel : (execute (FtlController.call constantLz4)
        (AtEveryProgram constantLz4 SafeSite) (alternateWrites.take 4)
        ([], FtlController.fresh fourPages 8192)).any fun run =>
          run.2.gcCount == 2 && decide (Live none run.2 0 ∧ Live none run.2 1)) with
    ⟨⟨events, ftl⟩, executed, observed⟩
  rw [Bool.and_eq_true, beq_iff_eq, decide_eq_true_iff] at observed
  exact ⟨ftl, observed.1, observed.2.1, observed.2.2,
    trace_noAliasing (by decide) (Trace.nil.execute executed)⟩

/-- After six alternate writes both LBAs are full pages at page 0 of block 0. -/
theorem sixWrites_alias :
    lbaCount 8192 ≤ (fourPages.totalBlocks - 2) * fourPages.pagesPerBlock ∧
      ∃ ftl : FtlController fourPages (lbaCount 8192),
        Reachable (FtlController.call constantLz4) (FtlController.fresh fourPages 8192) ftl ∧
          ¬ftl.NoAliasing := by
  refine ⟨by decide, ?_⟩
  rcases (Option.any_eq_true _ _).mp
      (by decide +kernel : (execute (FtlController.call constantLz4) (fun _ _ => True)
        (alternateWrites ++ [writeCounting 1 6]) ([], FtlController.fresh fourPages 8192)).any
          fun run => decide (Live none run.2 0 ∧ Live none run.2 1 ∧
            (run.2.lbaTable 0).state = .rawFullPage ∧
            (run.2.lbaTable 0).At (run.2.lbaTable 1).blockIdx (run.2.lbaTable 1).pageIdx)) with
    ⟨⟨events, ftl⟩, executed, observed⟩
  obtain ⟨firstLive, secondLive, raw, same⟩ := of_decide_eq_true observed
  refine ⟨ftl, ⟨events, Trace.nil.execute executed⟩, fun noAliasing => ?_⟩
  rcases noAliasing.apart 0 1 (by decide) firstLive secondLive with differ | ⟨⟨half, _⟩, _⟩
  · exact differ same
  · rw [raw] at half
    cases half

end FtlController

end Zftl
