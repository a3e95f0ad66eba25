/-
Module: Zftl.Controller.Transparency
Layer: Controller
Purpose: What the host notices of a collection. While every program has been accepted, a pass of the garbage
  collection changes no answer of `ReadBlock` for an LBA whose data is where the controller last put it,
  re-points the LBAs of a page together, leaves none of them on the erased victim, and frees as many pages
  as the victim had invalid ones. Blocks of more than 2^32 pages, whose page numbers do not fit a table
  entry, are where this ends.
Imports: Zftl.Controller.Tracking
Trusted boundary: none
Main exports: Intact, Transparent, hostView_congr, Tracking.transparent, collection_transparent,
  wrappedPage_noticed
Open obligations: none
-/
import Zftl.Controller.Tracking

namespace Zftl

open Fallible Lz4Compressor

namespace FtlController

variable {cfg : FlashConfig} {lbas : Nat} {lz4 : Lz4}

/-- The entry of the LBA designates a page, and the page that holds its data has not been invalidated. -/
def Intact (homes : Homes) (ftl : FtlController cfg lbas) (lba : Nat) : Prop :=
  (ftl.lbaTable lba).Mapped ∧ (homes lba).isSome

/-- A pass of the garbage collection that the host does not notice. -/
structure Transparent (lz4 : Lz4) (homes : Homes) (ftl room : FtlController cfg lbas) : Prop where
  view : ∀ lba, ftl.stagedLba = some lba ∨ (ftl.lbaTable lba).state = .unmapped ∨
      (ftl.lbaTable lba).state = .sparseZero ∨ Intact homes ftl lba →
    ∀ dest, room.hostView lz4 lba dest = ftl.hostView lz4 lba dest
  vacated : ftl.Collects → ∀ lba, Intact homes ftl lba →
    (room.lbaTable lba).blockIdx ≠ ftl.selectVictim.1
  repointed : ftl.Collects → ∀ lba p, Intact homes ftl lba → homes lba = some (ftl.selectVictim.1, p) →
    room.lbaTable lba = (ftl.lbaTable lba).movedTo
      (ftl.reserveBlockIdx, ftl.flash.validBelow ftl.selectVictim.1 p)
  together : ftl.Collects → ∀ p, ftl.flash.isPageValid ftl.selectVictim.1 p = true →
    ∀ owner ∈ ftl.blockPageOwners ftl.selectVictim.1 p, Intact homes ftl owner.lba ∧
      homes owner.lba = some (ftl.selectVictim.1, p) ∧ (room.lbaTable owner.lba).subSlot = owner.subSlot
  reclaimed : ftl.Collects →
    room.flash.programmedPages + ftl.flash.getInvalidCount ftl.selectVictim.1 =
      ftl.flash.programmedPages
  unchanged : ¬ftl.Collects → room.flash.programmedPages = ftl.flash.programmedPages

/-! ### The view of the host -/

section View

variable {ftl room : FtlController cfg lbas}

/-- The flag and the buffer of a read depend on the staging buffer, the entry and the page it designates. -/
theorem hostView_congr {lba : Nat} {home : Nat × Nat} (dest : Page)
    (staged : room.stagedHalf = ftl.stagedHalf)
    (entry : room.lbaTable lba = (ftl.lbaTable lba).movedTo home)
    (page : ftl.stagedLba ≠ some lba → (ftl.lbaTable lba).Mapped → ∀ dest,
      (room.flash.readPage home.1 home.2 dest).2 =
        (ftl.flash.readPage (ftl.lbaTable lba).blockIdx (ftl.lbaTable lba).pageIdx dest).2) :
    room.hostView lz4 lba dest = ftl.hostView lz4 lba dest := by
  have unpacked : ∀ (left right : FtlController cfg lbas) (result : Except Fault (Bool × Page)),
      (result >>= fun answer => Except.ok (left, answer.1, some answer.2)).map Prod.snd =
        (result >>= fun answer => Except.ok (right, answer.1, some answer.2)).map Prod.snd := by
    intro left right result
    cases result <;> rfl
  by_cases refused : lba ≥ lbas
  · simp only [hostView, readBlock, refused, if_true]
    rfl
  · have inside : lba < lbas := Nat.not_le.mp refused
    simp only [hostView, readBlock, refused, if_false, staged]
    cases found : ftl.stagedHalf.filter (·.lba = lba) with
    | some waiting => exact unpacked _ _ _
    | none =>
        have notStaged : ftl.stagedLba ≠ some lba := by
          intro isStaged
          obtain ⟨waiting, here, same⟩ := Option.map_eq_some_iff.mp isStaged
          simp [here, same] at found
        have sameState : (room.lbaTable lba).state = (ftl.lbaTable lba).state := by rw [entry]; rfl
        simp only [checkIndex_of_lt inside, ok_bind, sameState]
        cases state : (ftl.lbaTable lba).state with
        | unmapped => rfl
        | sparseZero => rfl
        | rawFullPage =>
            have read := page notStaged (Or.inl state) dest
            simp only [entry, MappingEntry.movedTo, Except.map, read]
        | compressedHalfPage =>
            have read := page notStaged (Or.inr state) (Buffer.fill flashPageSize 0)
            simp only [entry, MappingEntry.movedTo, read]
            split
            · rfl
            · exact unpacked _ _ _

/-- An LBA with a raw page reads as that page. -/
theorem hostView_of_raw (lz4 : Lz4) {lba : Nat} (inside : lba < lbas)
    (fullPage : cfg.pageSizeBytes = flashPageSize) (idle : ftl.stagedHalf = none)
    (raw : (ftl.lbaTable lba).state = .rawFullPage)
    (programmed : ftl.flash.isPageProgrammed (ftl.lbaTable lba).blockIdx (ftl.lbaTable lba).pageIdx = true)
    (dest : Page) :
    ftl.hostView lz4 lba dest =
      .ok (true, some (ftl.flash.pageData (ftl.lbaTable lba).blockIdx (ftl.lbaTable lba).pageIdx)) := by
  have notRefused : ¬lba ≥ lbas := Nat.not_le.mpr inside
  have read := FlashModel.readPage_of_programmed dest fullPage programmed
  simp only [hostView, readBlock, notRefused, if_false, idle, Option.filter_none, checkIndex_of_lt inside,
    ok_bind, raw, read]
  rfl

/-- A collection changes the location in an entry at most. -/
theorem makeRoom_entry (made : ftl.makeRoom = .ok room) (lba : Nat) :
    ∃ home, room.lbaTable lba = (ftl.lbaTable lba).movedTo home := by
  refine makeRoom_rule made
    (fun _ s => ∃ home, s.lbaTable lba = (ftl.lbaTable lba).movedTo home)
    (fun room => ∃ home, room.lbaTable lba = (ftl.lbaTable lba).movedTo home)
    (fun _ => ⟨((ftl.lbaTable lba).blockIdx, (ftl.lbaTable lba).pageIdx), rfl⟩)
    (fun _ _ => ⟨((ftl.lbaTable lba).blockIdx, (ftl.lbaTable lba).pageIdx), rfl⟩)
    (fun _ => ⟨((ftl.lbaTable lba).blockIdx, (ftl.lbaTable lba).pageIdx), rfl⟩)
    (fun _ _ _ _ _ _ moved => moved) ?_ (fun _ _ _ moved => moved)
  rintro p s _ _ _ _ ⟨home, moved⟩
  rw [movePage_lbaTable, moved]
  split
  · exact ⟨(_, _), rfl⟩
  · exact ⟨home, rfl⟩

end View

/-! ### One pass -/

section Pass

variable {write : Option (Nat × Page)} {ftl room : FtlController cfg lbas} {homes : Homes}

/-- The data of an LBA with a home reads the same after room has been made. -/
theorem Carried.hostView_eq (carried : Carried homes ftl room) (tracking : Tracking write ftl homes)
    (roomTracking : Tracking write room (homes.collected ftl)) (geometry : cfg.Addressable) {lba : Nat}
    {home : Nat × Nat} (here : homes lba = some home) (dest : Page) :
    room.hostView lz4 lba dest = ftl.hostView lz4 lba dest := by
  obtain ⟨home', there, entry, contents⟩ := carried.carried lba home here
  obtain ⟨_, located, valid⟩ := tracking.resident lba home here
  have valid' := (roomTracking.resident lba home' there).2.2
  refine hostView_congr dest carried.staged entry fun _ _ dest => ?_
  rw [FlashModel.readPage_of_programmed dest geometry.fullPage
      (roomTracking.tallied.validProgrammed _ _ valid'), located.1, located.2,
    FlashModel.readPage_of_programmed dest geometry.fullPage
      (tracking.tallied.validProgrammed _ _ valid), contents]

/-- An LBA without data in the array reads the same. -/
theorem hostView_of_unmapped (made : ftl.makeRoom = .ok room) {lba : Nat}
    (elsewhere : ftl.stagedLba = some lba ∨ ¬(ftl.lbaTable lba).Mapped) (dest : Page) :
    room.hostView lz4 lba dest = ftl.hostView lz4 lba dest := by
  obtain ⟨home, entry⟩ := makeRoom_entry made lba
  refine hostView_congr dest (makeRoom_stagedHalf made) entry fun notStaged mapped => ?_
  exact elsewhere.elim (fun staged => absurd staged notStaged) fun unmapped => absurd mapped unmapped

/-- With fewer than 2^32 stale pages the counter of a victim is their number. -/
theorem Tracking.stalePages_victim (tracking : Tracking write ftl homes) (geometry : cfg.Addressable)
    (collects : ftl.Collects) :
    ftl.flash.stalePages ftl.selectVictim.1 = ftl.flash.getInvalidCount ftl.selectVictim.1 := by
  obtain ⟨inside, _, count⟩ := ftl.selectVictim_spec.found collects.found
  have counted := tracking.tallied.counted _ inside
  have bound := Nat.le_trans (ftl.flash.stalePages_le ftl.selectVictim.1) geometry.pages_le
  have notWrapped : ftl.flash.stalePages ftl.selectVictim.1 ≠ 2 ^ 32 := by
    intro full
    rw [full, count] at counted
    exact collects.found counted
  rw [counted]
  exact (u32_of_lt (Nat.lt_of_le_of_ne bound notWrapped)).symm

/-- A pass whose programs are all accepted is transparent. -/
theorem Tracking.transparent (tracking : Tracking write ftl homes) (geometry : cfg.Addressable)
    (made : ftl.makeRoom = .ok room)
    (accepted : ∀ call ∈ room.flash.programCalls, call.accepted = true) :
    Transparent lz4 homes ftl room := by
  have erased : ftl.Collects → ftl.TargetErased := fun collects =>
    collects.targetErased tracking.safe made accepted
  obtain ⟨roomTracking, carried⟩ := tracking.makeRoom geometry made erased
  have pointed : ftl.Collects → ∀ lba home, homes lba = some home →
      room.lbaTable lba = (ftl.lbaTable lba).movedTo (ftl.destination cfg.pagesPerBlock home) := by
    intro collects lba home here
    obtain ⟨home', there, entry, _⟩ := carried.carried lba home here
    rw [tracking.collected_eq collects here] at there
    rw [entry, Option.some.inj there]
  refine ⟨?view, ?vacated, ?repointed, ?together, ?reclaimed, ?unchanged⟩
  case view =>
    rintro lba (staged | unmapped | sparse | ⟨_, hasHome⟩) dest
    · exact hostView_of_unmapped made (Or.inl staged) dest
    · exact hostView_of_unmapped made (Or.inr (by simp [MappingEntry.Mapped, unmapped])) dest
    · exact hostView_of_unmapped made (Or.inr (by simp [MappingEntry.Mapped, sparse])) dest
    · obtain ⟨home, here⟩ := Option.isSome_iff_exists.mp hasHome
      exact carried.hostView_eq tracking roomTracking geometry here dest
  case vacated =>
    rintro collects lba ⟨_, hasHome⟩
    obtain ⟨home, here⟩ := Option.isSome_iff_exists.mp hasHome
    have inside := (FlashModel.isPageValid_inRange (tracking.resident lba home here).2.2).2
    rw [pointed collects lba home here, destination]
    split
    · exact collects.apart.symm
    · rename_i stays
      exact fun victim => stays ⟨victim, inside⟩
  case repointed =>
    intro collects lba p _ here
    have inside := (FlashModel.isPageValid_inRange (tracking.resident lba _ here).2.2).2
    rw [pointed collects lba _ here, destination, if_pos ⟨rfl, inside⟩]
  case together =>
    intro collects p valid owner member
    obtain ⟨live, located, subSlot⟩ := tracking.placed.current _ p valid owner member
    obtain ⟨home, here⟩ := Option.isSome_iff_exists.mp (live_only.mp live).1
    have resident := tracking.resident owner.lba home here
    rw [only_lbaTable here] at located subSlot
    have same : home = (ftl.selectVictim.1, p) :=
      Prod.ext (resident.2.1.1.symm.trans located.1) (resident.2.1.2.symm.trans located.2)
    refine ⟨⟨resident.1.2.2.2, by simp [here]⟩, by rw [here, same], ?_⟩
    rw [pointed collects owner.lba home here]
    exact subSlot
  case reclaimed =>
    intro collects
    rw [← tracking.stalePages_victim geometry collects]
    exact tracking.tallied.makeRoom_programmedPages tracking.safe collects (erased collects) made
  case unchanged =>
    intro kept
    rw [(FtlController.makeRoom_of_not_collects made kept).1]

end Pass

/-! ### Every pass -/

/-- In every run whose programs were all accepted, every pass of the garbage collection is transparent: wherever
    a call is about to program a page, the pass in front of it returns, and if its own programs are accepted
    as well the host does not notice it. -/
theorem collection_transparent {capacity : Nat} {ftl : FtlController cfg (lbaCount capacity)}
    (geometry : cfg.Addressable)
    (reachable : Reachable (FtlController.call lz4) (FtlController.fresh cfg capacity) ftl)
    (hostCall : HostCall) :
    AtEveryProgram lz4 (fun write s => (∃ homes, Tracked lz4 capacity write s homes) ∧
      ∀ homes, Tracked lz4 capacity write s homes →
        ∃ room, s.runGarbageCollectionIfNeeded = .ok room ∧
          ((∀ call ∈ room.flash.programCalls, call.accepted = true) → Transparent lz4 homes s room))
      ftl hostCall := by
  refine ((reachable_tracked reachable).2 hostCall).imp fun write s tracked => ⟨tracked, ?_⟩
  intro homes tracked
  have safe : s.IndexSafe := tracked.indexSafe geometry.twoBlocks geometry.onePage
  obtain ⟨room, made, _, _⟩ := safe.makeRoom geometry.twoBlocks geometry.onePage
  refine ⟨room, (makeRoom_eq s).symm.trans made, fun accepted => ?_⟩
  obtain ⟨calls, logged, _⟩ := makeRoom_programCalls safe made
  have before : ∀ call ∈ s.flash.programCalls, call.accepted = true := fun call member =>
    accepted call (by simp [logged, member])
  exact (tracked_tracking tracked geometry before).transparent geometry made accepted

def twoPerBlock : FlashConfig := { fourPages with pagesPerBlock := 2, totalBlocks := 3 }

theorem overwrite_transparent :
    ∃ ftl : FtlController twoPerBlock (lbaCount 8192), (ftl.beginWrite 1).Collects ∧
      (ftl.beginWrite 1).flash.isPageValid (ftl.beginWrite 1).selectVictim.1 0 = true ∧
        AtEveryProgram constantLz4
          (fun write s => (∃ homes, Tracked constantLz4 8192 write s homes) ∧
            ∀ homes, Tracked constantLz4 8192 write s homes →
              ∃ room, s.runGarbageCollectionIfNeeded = .ok room ∧
                ((∀ call ∈ room.flash.programCalls, call.accepted = true) →
                  Transparent constantLz4 homes s room))
          ftl (writeCounting 1 3) := by
  rcases (Option.any_eq_true _ _).mp
      (by decide +kernel : (execute (FtlController.call constantLz4) (fun _ _ => True)
        [writeCounting 0 1, writeCounting 1 2] ([], FtlController.fresh twoPerBlock 8192)).any
          fun run => decide ((run.2.beginWrite 1).Collects ∧
            (run.2.beginWrite 1).flash.isPageValid (run.2.beginWrite 1).selectVictim.1 0 = true)) with
    ⟨⟨events, ftl⟩, executed, observed⟩
  obtain ⟨collects, valid⟩ := of_decide_eq_true observed
  exact ⟨ftl, collects, valid,
    collection_transparent (by decide) ⟨events, Trace.nil.execute executed⟩ (writeCounting 1 3)⟩

/-! ### A page number that does not fit an entry -/

section Written

variable {cfg : FlashConfig} {lbas : Nat} {ftl : FtlController cfg lbas} {lba : Nat}

/-- The state after a block that is stored raw has been written to the next page, if no room has to be made. -/
def written (ftl : FtlController cfg lbas) (lba : Nat) (block : Page) : FtlController cfg lbas :=
  (ftl.beginWrite lba).occupyPage block [⟨lba, .rawFullPage, 0, flashPageSize⟩] 0 1

theorem beginWrite_idle (idle : ftl.stagedHalf = none) : (ftl.beginWrite lba).stagedHalf = none := by
  rw [beginWrite_eq]
  simp [idle]

theorem ActivePageInside.beginWrite (active : ftl.ActivePageInside) (lba : Nat) :
    (ftl.beginWrite lba).ActivePageInside := by
  rw [beginWrite_eq]
  exact active

/-- A counting block that fits the active block is written to its next page. -/
theorem call_writeCounting (inside : lba < lbas) (idle : ftl.stagedHalf = none)
    (active : ftl.ActivePageInside) (k : UInt8) :
    ftl.call constantLz4 (writeCounting lba k) = .ok (ftl.written lba (countingBlock k), true) := by
  obtain ⟨nonzero, size, data⟩ := compress_countingBlock k
  have notRefused : ¬lba ≥ lbas := Nat.not_le.mpr inside
  have active' : (ftl.beginWrite lba).ActivePageInside := active.beginWrite lba
  have stored : (ftl.beginWrite lba).storeBlock lba (compress constantLz4 (some (countingBlock k))) =
      .ok (ftl.written lba (countingBlock k)) := by
    simp only [storeBlock, nonzero, countingBlock_large, if_false, Bool.false_eq_true]
    refine writeFullPage_eq_ok.mpr ⟨ftl.beginWrite lba, ftl.beginWrite lba, ?_, ?_, inside, active', ?_⟩
    · simp [flushStagedWrites, beginWrite_idle idle]
    · simp [makeRoom, Nat.not_le.mpr active'.2]
    · rw [fullTenant, size, data, written]
  simp only [call, writeCounting, writeBlock, notRefused, if_false, checkIndex_of_lt inside, ok_bind,
    stored]

theorem written_lbaTable (block : Page) :
    (ftl.written lba block).lbaTable = Function.update ftl.lbaTable lba
      { state := .rawFullPage, blockIdx := u32 ftl.activeBlockIdx, pageIdx := u32 ftl.activePageIdx,
        compressedSize := flashPageSize } := by
  simp [written, occupyPage, withOwners, programActivePage, beginWrite_eq, Tenant.entry]

theorem written_flash (block : Page) :
    (ftl.written lba block).flash =
      ((ftl.invalidateOld lba).programPage ftl.activeBlockIdx ftl.activePageIdx (some block)).1 := by
  simp [written, occupyPage, withOwners, programActivePage, beginWrite_eq]

theorem written_blockPageOwners (block : Page) (b p : Nat) :
    (ftl.written lba block).blockPageOwners b p =
      if b = ftl.activeBlockIdx ∧ p = ftl.activePageIdx then ftl.blockPageOwners b p ++ [⟨lba, 0⟩]
      else ftl.blockPageOwners b p := by
  simp only [written, occupyPage, withOwners_blockPageOwners, programActivePage, beginWrite_eq]
  split
  · rename_i here
    rw [here.1, here.2]
    rfl
  · rfl

/-- The LBA is at home on the page it has been written to. -/
theorem Tracked.written {capacity : Nat} {ftl : FtlController cfg (lbaCount capacity)} {homes : Homes}
    (tracked : Tracked constantLz4 capacity none ftl homes) (inside : lba < lbaCount capacity)
    (idle : ftl.stagedHalf = none) (active : ftl.ActivePageInside) (k : UInt8) :
    ∃ homes', Tracked constantLz4 capacity none (ftl.written lba (countingBlock k)) homes' ∧
      homes' lba = some (ftl.activeBlockIdx, ftl.activePageIdx) := by
  obtain ⟨nonzero, size, data⟩ := compress_countingBlock k
  have active' : (ftl.beginWrite lba).ActivePageInside := active.beginWrite lba
  have made : (ftl.beginWrite lba).makeRoom = .ok (ftl.beginWrite lba) := by
    simp [makeRoom, Nat.not_le.mpr active'.2]
  have begun : Tracked constantLz4 capacity (some (lba, countingBlock k)) (ftl.beginWrite lba)
      (homes.superseded ftl lba) := tracked.begin
  have step := begun.program (.full (beginWrite_idle idle) nonzero (countingBlock_large k)) made active'
    (by simpa [fullTenant] using inside)
  rw [fullTenant, size, data] at step
  refine ⟨_, step, ?_⟩
  simp [Homes.settled, beginWrite_eq]

end Written


section Filling

/-- Two blocks with one page more than an entry can designate. -/
def largeBlocks : FlashConfig := { fourPages with pagesPerBlock := 2 ^ 32 + 1, totalBlocks := 2 }

/-- A run has programmed the first `n` pages of the first block and nothing else. -/
structure Filled (n : Nat) (ftl : FtlController largeBlocks (lbaCount 12288)) : Prop where
  reachable : Reachable (FtlController.call constantLz4) (FtlController.fresh largeBlocks 12288) ftl
  tracked : ∃ homes, Tracked constantLz4 12288 none ftl homes
  active : ftl.activeBlockIdx = 0 ∧ ftl.activePageIdx = n
  reserve : ftl.reserveBlockIdx = 1
  idle : ftl.stagedHalf = none
  programmed : ∀ b p, ftl.flash.isPageProgrammed b p = true ↔ b = 0 ∧ p < n
  unlisted : ∀ p, n ≤ p → ftl.blockPageOwners 0 p = []
  accepted : ∀ call ∈ ftl.flash.programCalls, call.accepted = true

variable {ftl : FtlController largeBlocks (lbaCount 12288)} {n lba : Nat}

namespace Filled

theorem fresh : Filled 0 (FtlController.fresh largeBlocks 12288) :=
  ⟨⟨[], .nil⟩, ⟨_, .fresh⟩, ⟨rfl, rfl⟩, rfl, rfl, fun b p => by simp [FtlController.fresh],
    fun _ _ => rfl, nofun⟩

theorem activePageInside (filled : Filled n ftl) (room : n < 2 ^ 32 + 1) : ftl.ActivePageInside := by
  rw [ActivePageInside, filled.active.1, filled.active.2]
  exact ⟨Nat.zero_lt_two, room⟩

theorem program_accepted (filled : Filled n ftl) (room : n < 2 ^ 32 + 1) (lba : Nat) (block : Page) :
    ((ftl.invalidateOld lba).programPage ftl.activeBlockIdx ftl.activePageIdx (some block)).2 = true := by
  have inside := filled.activePageInside room
  refine (FlashModel.programPage_accepted _ _ _ _).mpr ⟨inside.1, inside.2, ?_⟩
  rw [← Bool.not_eq_true, invalidateOld_isPageProgrammed, filled.programmed, filled.active.2]
  exact fun below => Nat.lt_irrefl n below.2

/-- The next page is programmed with the block. -/
theorem written_page (filled : Filled n ftl) (room : n < 2 ^ 32 + 1) (lba : Nat) (block : Page) :
    (ftl.written lba block).flash.isPageProgrammed 0 n = true ∧
      (ftl.written lba block).flash.isPageValid 0 n = true ∧
      (ftl.written lba block).flash.pageData 0 n = block := by
  have page := FlashModel.programPage_page_of_accepted (filled.program_accepted room lba block)
  rw [Buffer.overlay_full _ _ (by decide), filled.active.1, filled.active.2] at page
  rw [written_flash, filled.active.1, filled.active.2]
  exact page

/-- A raw block fills one page more. -/
theorem write (filled : Filled n ftl) (room : n < 2 ^ 32 + 1) (inside : lba < lbaCount 12288)
    (k : UInt8) : Filled (n + 1) (ftl.written lba (countingBlock k)) := by
  have active := filled.activePageInside room
  have page := filled.written_page room lba (countingBlock k)
  obtain ⟨events, trace⟩ := filled.reachable
  obtain ⟨homes, tracked⟩ := filled.tracked
  obtain ⟨homes', tracked', _⟩ := tracked.written inside filled.idle active k
  refine ⟨⟨_, trace.snoc trivial (call_writeCounting inside filled.idle active k)⟩, ⟨_, tracked'⟩,
    ?active, ?reserve, rfl, fun b p => ?programmed, fun p after => ?unlisted, ?accepted⟩
  case active =>
    rw [← filled.active.1, ← filled.active.2]
    simp [FtlController.written, occupyPage, withOwners, programActivePage, beginWrite_eq]
  case reserve =>
    rw [← filled.reserve]
    simp [FtlController.written, occupyPage, withOwners, programActivePage, beginWrite_eq]
  case programmed =>
    by_cases here : b = 0 ∧ p = n
    · obtain ⟨rfl, rfl⟩ := here
      simp [page.1]
    · rw [written_flash, filled.active.1, filled.active.2,
        FlashModel.programPage_isPageProgrammed_of_ne here, invalidateOld_isPageProgrammed, filled.programmed]
      omega
  case unlisted =>
    rw [written_blockPageOwners, filled.active.1, filled.active.2, if_neg (by omega)]
    exact filled.unlisted p (by omega)
  case accepted =>
    rw [written_flash, FlashModel.programPage_programCalls, invalidateOld_programCalls,
      List.forall_mem_append, List.forall_mem_singleton]
    exact ⟨filled.accepted, filled.program_accepted room lba _⟩

end Filled

/-- After the first write of LBA 0 and `n` overwrites, all in the first block. -/
structure Overwritten (n : Nat) (ftl : FtlController largeBlocks (lbaCount 12288)) : Prop where
  filled : Filled (n + 1) ftl
  entry : ftl.lbaTable 0 =
    { state := .rawFullPage, blockIdx := 0, pageIdx := n, compressedSize := flashPageSize }
  others : ∀ lba, lba ≠ 0 → ftl.lbaTable lba = {}
  newest : ftl.flash.isPageValid 0 n = true
  stale : ∀ p, p < n → ftl.flash.isPageValid 0 p = false
  count : ftl.flash.getInvalidCount 0 = n
  first : ftl.flash.pageData 0 0 = countingBlock 1

theorem Overwritten.init :
    Overwritten 0 ((FtlController.fresh largeBlocks 12288).written 0 (countingBlock 1)) := by
  have page := Filled.fresh.written_page (by decide) 0 (countingBlock 1)
  refine ⟨Filled.fresh.write (by decide) (by decide) 1, ?_, fun lba other => ?_, page.2.1, nofun, ?_,
    page.2.2⟩
  · rw [written_lbaTable, Function.update_self]
    rfl
  · rw [written_lbaTable, Function.update_of_ne other]
    rfl
  · rw [written_flash, FlashModel.programPage_getInvalidCount]
    rfl

/-- An overwrite adds a stale page. -/
theorem Overwritten.overwrite (overwritten : Overwritten n ftl) (fits : n + 1 < 2 ^ 32) :
    Overwritten (n + 1) (ftl.written 0 (countingBlock 1)) := by
  have filled := overwritten.filled
  have room : n + 1 < 2 ^ 32 + 1 := Nat.lt_succ_of_lt fits
  have page := filled.written_page room 0 (countingBlock 1)
  have old : ftl.invalidateOld 0 = ftl.flash.invalidatePage 0 n := by
    have mapped : (ftl.lbaTable 0).Mapped := Or.inl (by rw [overwritten.entry])
    rw [invalidateOld, if_pos mapped, overwritten.entry]
  refine ⟨filled.write room (by decide) 1, ?_, fun lba other => ?_, page.2.1, fun p before => ?_, ?_, ?_⟩
  · rw [written_lbaTable, Function.update_self, filled.active.1, filled.active.2, u32_of_lt fits]
    rfl
  · rw [written_lbaTable, Function.update_of_ne other]
    exact overwritten.others lba other
  · rw [written_flash, filled.active.1, filled.active.2,
      FlashModel.programPage_isPageValid_of_ne fun same => Nat.ne_of_lt before same.2, old,
      FlashModel.invalidatePage_isPageValid]
    rcases Nat.lt_succ_iff_lt_or_eq.mp before with older | rfl
    · rw [overwritten.stale p older, Bool.false_and]
    · simp
  · rw [written_flash, FlashModel.programPage_getInvalidCount, old,
      FlashModel.invalidatePage_getInvalidCount, if_pos ⟨rfl, overwritten.newest⟩, overwritten.count]
    exact u32_of_lt fits
  · rw [written_flash, filled.active.1, filled.active.2,
      FlashModel.programPage_pageData_of_ne fun same => Nat.succ_ne_zero n same.2.symm, old,
      FlashModel.invalidatePage_pageData]
    exact overwritten.first

/-- LBA 0 can be overwritten until every page number an entry can hold has been used. -/
theorem exists_overwritten : ∀ n, n < 2 ^ 32 → ∃ ftl, Overwritten n ftl
  | 0, _ => ⟨_, .init⟩
  | n + 1, fits =>
      let ⟨_, overwritten⟩ := exists_overwritten n (Nat.lt_of_succ_lt fits)
      ⟨_, overwritten.overwrite fits⟩

/-- About to write LBA 2 to a full block: the data of LBA 1 is on page 2^32, but its entry designates page 0. -/
structure Shadowed (ftl : FtlController largeBlocks (lbaCount 12288)) : Prop where
  tracked : ∃ homes, Tracked constantLz4 12288 (some (2, countingBlock 3)) ftl homes ∧
    homes 1 = some (0, 2 ^ 32)
  active : ftl.activePageIdx = 2 ^ 32 + 1
  reserve : ftl.reserveBlockIdx = 1
  idle : ftl.stagedHalf = none
  programmed : ∀ b p, ftl.flash.isPageProgrammed b p = true ↔ b = 0 ∧ p < 2 ^ 32 + 1
  accepted : ∀ call ∈ ftl.flash.programCalls, call.accepted = true
  count : ftl.flash.getInvalidCount 0 ≠ 0
  entry : ftl.lbaTable 1 =
    { state := .rawFullPage, blockIdx := 0, pageIdx := 0, compressedSize := flashPageSize }
  owners : ftl.blockPageOwners 0 (2 ^ 32) = [⟨1, 0⟩]
  first : ftl.flash.isPageValid 0 0 = false ∧ ftl.flash.pageData 0 0 = countingBlock 1
  last : ftl.flash.isPageValid 0 (2 ^ 32) = true ∧ ftl.flash.pageData 0 (2 ^ 32) = countingBlock 2

/-- The write of LBA 1 behind the overwrites of LBA 0 gets the page number that does not fit. -/
theorem Overwritten.shadowed (overwritten : Overwritten (2 ^ 32 - 1) ftl) :
    Shadowed ((ftl.written 1 (countingBlock 2)).beginWrite 2) := by
  have filled : Filled (2 ^ 32) ftl := overwritten.filled
  have room : 2 ^ 32 < 2 ^ 32 + 1 := Nat.lt_succ_self _
  have page := filled.written_page room 1 (countingBlock 2)
  have after : Filled (2 ^ 32 + 1) (ftl.written 1 (countingBlock 2)) := filled.write room (by decide) 2
  have fresh : ¬(ftl.lbaTable 1).Mapped := by
    rw [overwritten.others 1 (by decide)]
    decide
  have old : ftl.invalidateOld 1 = ftl.flash := by rw [invalidateOld, if_neg fresh]
  have entry2 : (ftl.written 1 (countingBlock 2)).lbaTable 2 = {} := by
    rw [written_lbaTable, Function.update_of_ne (by decide), overwritten.others 2 (by decide)]
  have unmapped : ¬((ftl.written 1 (countingBlock 2)).lbaTable 2).Mapped := by
    rw [entry2]
    decide
  obtain ⟨homes, tracked⟩ := filled.tracked
  obtain ⟨homes', tracked', home⟩ := tracked.written (by decide : 1 < lbaCount 12288) filled.idle
    (filled.activePageInside room) 2
  rw [filled.active.1, filled.active.2] at home
  have begun : ∃ homes, Tracked constantLz4 12288 (some (2, countingBlock 3))
      ((ftl.written 1 (countingBlock 2)).beginWrite 2) homes ∧ homes 1 = some (0, 2 ^ 32) :=
    ⟨_, tracked'.begin, Tracking.superseded_eq_some.mpr ⟨by decide, home, fun mapped =>
      absurd mapped unmapped⟩⟩
  rw [beginWrite_eq, invalidateOld, if_neg unmapped] at begun ⊢
  refine ⟨begun, after.active.2, after.reserve, ?idle, after.programmed, after.accepted, ?count, ?entry,
    ?owners, ?first, ?last⟩
  case idle => simp [after.idle]
  case count =>
    show (ftl.written 1 (countingBlock 2)).flash.getInvalidCount 0 ≠ 0
    rw [written_flash, FlashModel.programPage_getInvalidCount, old, overwritten.count]
    decide
  case entry =>
    show (ftl.written 1 (countingBlock 2)).lbaTable 1 = _
    rw [written_lbaTable, Function.update_self, filled.active.1, filled.active.2]
    rfl
  case owners =>
    show (ftl.written 1 (countingBlock 2)).blockPageOwners 0 (2 ^ 32) = _
    rw [written_blockPageOwners, filled.active.1, filled.active.2, if_pos ⟨rfl, rfl⟩,
      filled.unlisted _ (Nat.le_refl _)]
    rfl
  case first =>
    have other : ¬(0 = 0 ∧ 0 = 2 ^ 32) := by decide
    show (ftl.written 1 (countingBlock 2)).flash.isPageValid 0 0 = false ∧
      (ftl.written 1 (countingBlock 2)).flash.pageData 0 0 = _
    rw [written_flash, filled.active.1, filled.active.2, FlashModel.programPage_isPageValid_of_ne other,
      FlashModel.programPage_pageData_of_ne other, old]
    exact ⟨overwritten.stale 0 (by decide), overwritten.first⟩
  case last => exact page.2

/-- The entry of LBA 1 designates page `target` of the second block, where its data is. -/
structure Redirected (target : Nat) (ftl : FtlController largeBlocks (lbaCount 12288)) : Prop where
  block : (ftl.lbaTable 1).blockIdx = 1
  page : (ftl.lbaTable 1).pageIdx = target
  programmed : ftl.flash.isPageProgrammed 1 target = true
  contents : ftl.flash.pageData 1 target = countingBlock 2

namespace Shadowed

variable {room : FtlController largeBlocks (lbaCount 12288)}

theorem collects (shadowed : Shadowed ftl) : ftl.Collects ∧ ftl.selectVictim.1 = 0 := by
  have apart : 0 ≠ ftl.reserveBlockIdx := by
    rw [shadowed.reserve]
    decide
  have stale := ftl.selectVictim_spec.maximal 0 (by decide) apart
  have found : ftl.selectVictim.2 ≠ 0 := by
    have := shadowed.count
    omega
  obtain ⟨inside, other, _⟩ := ftl.selectVictim_spec.found found
  refine ⟨⟨Nat.le_of_eq shadowed.active.symm, found⟩, ?_⟩
  have inside : ftl.selectVictim.1 < 2 := inside
  rw [shadowed.reserve] at other
  omega

theorem reserve_blank (shadowed : Shadowed ftl) (p : Nat) : ftl.flash.isPageProgrammed 1 p = false := by
  rw [← Bool.not_eq_true, shadowed.programmed]
  exact fun programmed => Nat.one_ne_zero programmed.1

theorem targetErased (shadowed : Shadowed ftl) : ftl.TargetErased :=
  ⟨fun room => absurd room (Nat.not_lt.mpr shadowed.collects.1.full),
    fun _ none => absurd none shadowed.collects.1.found, fun _ j _ => by
      rw [shadowed.reserve]
      exact shadowed.reserve_blank j⟩

/-- Page 2^32 moves to the reserve, and the entry of LBA 1 with it. -/
theorem moved (shadowed : Shadowed ftl) (made : ftl.makeRoom = .ok room) :
    Redirected (ftl.flash.validBelow 0 (2 ^ 32)) room := by
  obtain ⟨collects, victim⟩ := shadowed.collects
  have fits : ftl.flash.validBelow 0 (2 ^ 32) < 2 ^ 32 :=
    FlashModel.validBelow_lt_of_invalid (by decide) shadowed.first.1
  have apart : (0 : Nat) ≠ 1 := by decide
  -- The owner list of page 2^32 is untouched until the loop gets there.
  refine makeRoom_rule made
    (fun p s => (p ≤ 2 ^ 32 → s.blockPageOwners 0 (2 ^ 32) = [⟨1, 0⟩]) ∧
      (2 ^ 32 < p → Redirected (ftl.flash.validBelow 0 (2 ^ 32)) s))
    (Redirected (ftl.flash.validBelow 0 (2 ^ 32)))
    (fun notFull => absurd notFull (Nat.not_lt.mpr collects.full))
    (fun _ noInvalid => absurd noInvalid collects.found)
    (fun _ => ⟨fun _ => shadowed.owners, fun after => absurd after (by decide)⟩)
    ?forget ?move ?reclaim
  case forget =>
    rw [victim]
    rintro p s _ pageLt _ invalid ⟨listed, _⟩
    have other : p ≠ 2 ^ 32 := by
      rintro rfl
      rw [shadowed.last.1] at invalid
      cases invalid
    have before : p < 2 ^ 32 := Nat.lt_of_le_of_ne (Nat.le_of_lt_succ pageLt) other
    refine ⟨fun _ => ?_, fun after => absurd after (by omega)⟩
    rw [withOwners_blockPageOwners, if_neg fun here => other here.2.symm]
    exact listed (Nat.le_of_lt before)
  case move =>
    rw [victim]
    rintro p s _ pageLt migration valid ⟨listed, _⟩
    have reserve : s.reserveBlockIdx = 1 := migration.reserve.trans shadowed.reserve
    by_cases last : p = 2 ^ 32
    · subst last
      have kept := migration.elsewhere 0 (2 ^ 32) (by rw [shadowed.reserve]; exact fun gone => apart gone.1)
      have blank := migration.targetBlank
      rw [shadowed.reserve, shadowed.reserve_blank] at blank
      have target := s.movePage_flash_target (2 ^ 32) rfl (by rw [reserve]; decide)
        (Nat.lt_succ_of_lt fits) blank (kept.1.trans ((shadowed.programmed 0 (2 ^ 32)).mpr (by decide)))
      rw [reserve, kept.2.2, shadowed.last.2] at target
      have owned : ∃ owner ∈ s.blockPageOwners 0 (2 ^ 32), owner.lba = 1 :=
        ⟨⟨1, 0⟩, by rw [listed (Nat.le_refl _)]; exact List.mem_singleton_self _, rfl⟩
      have entry := s.movePage_lbaTable 0 (ftl.flash.validBelow 0 (2 ^ 32)) (2 ^ 32) 1
      rw [if_pos ⟨by decide, owned⟩, reserve, u32_of_lt fits, u32_of_lt (by decide)] at entry
      exact ⟨fun gone => absurd gone (Nat.not_succ_le_self _), fun _ =>
        ⟨by rw [entry], by rw [entry], target.1, target.2.2⟩⟩
    · have before : p < 2 ^ 32 := Nat.lt_of_le_of_ne (Nat.le_of_lt_succ pageLt) last
      refine ⟨fun _ => ?_, fun after => absurd after (by omega)⟩
      rw [movePage_blockPageOwners, if_neg fun here => last here.2.symm, reserve,
        if_neg fun here => apart here.1]
      exact listed (Nat.le_of_lt before)
  case reclaim =>
    rw [victim]
    rintro migrated _ _ ⟨_, after⟩
    obtain ⟨block, page, programmed, contents⟩ := after (Nat.lt_succ_self _)
    refine ⟨block, page, ?_, ?_⟩
    · rw [← programmed]
      exact FlashModel.eraseBlock_isPageProgrammed_of_ne apart.symm _
    · rw [← contents]
      exact FlashModel.eraseBlock_pageData_of_ne apart.symm _

theorem room_accepted (shadowed : Shadowed ftl) (made : ftl.makeRoom = .ok room) :
    ∀ call ∈ room.flash.programCalls, call.accepted = true := by
  obtain ⟨_, tracked, _⟩ := shadowed.tracked
  obtain ⟨calls, logged, erased⟩ :=
    makeRoom_programCalls (tracked.indexSafe (by decide) (by decide)) made
  rw [logged]
  exact List.forall_mem_append.mpr ⟨shadowed.accepted, (erased.mpr shadowed.targetErased).1⟩

/-- LBA 1 reads as page 0 before the collection and as page 2^32 after it. -/
theorem noticed (shadowed : Shadowed ftl) (made : ftl.makeRoom = .ok room) {homes : Homes}
    (home : homes 1 = some (0, 2 ^ 32)) : ¬Transparent constantLz4 homes ftl room := by
  intro transparent
  have redirected := shadowed.moved made
  obtain ⟨_, entry⟩ := makeRoom_entry made 1
  have raw : (ftl.lbaTable 1).state = .rawFullPage := by rw [shadowed.entry]
  have rawAfter : (room.lbaTable 1).state = .rawFullPage := by rw [entry]; exact raw
  have idleAfter : room.stagedHalf = none := (makeRoom_stagedHalf made).trans shadowed.idle
  have before := hostView_of_raw constantLz4 (by decide) rfl shadowed.idle raw
    (by rw [shadowed.entry]; exact (shadowed.programmed 0 0).mpr (by decide)) (Buffer.fill flashPageSize 0)
  have after := hostView_of_raw constantLz4 (by decide) rfl idleAfter rawAfter
    (by rw [redirected.block, redirected.page]; exact redirected.programmed) (Buffer.fill flashPageSize 0)
  have intact : Intact homes ftl 1 := ⟨Or.inl raw, by rw [home]; rfl⟩
  have same := transparent.view 1 (Or.inr (Or.inr (Or.inr intact))) (Buffer.fill flashPageSize 0)
  rw [before, after, redirected.block, redirected.page, redirected.contents, shadowed.entry,
    shadowed.first.2] at same
  have blocks : countingBlock 2 = countingBlock 1 := by simpa using same
  exact absurd (congrFun blocks ⟨0, by decide⟩) (by decide)

end Shadowed

/-- With 2^32 + 1 pages in a block, a run in which every program is accepted comes to a collection the host
    notices: LBA 1 has been reading as another LBA's page, and the collection re-points it at its own. -/
theorem wrappedPage_noticed :
    ∃ ftl : FtlController largeBlocks (lbaCount 12288),
      Reachable (FtlController.call constantLz4) (FtlController.fresh largeBlocks 12288) ftl ∧
        ¬AtEveryProgram constantLz4
          (fun write s => (∃ homes, Tracked constantLz4 12288 write s homes) ∧
            ∀ homes, Tracked constantLz4 12288 write s homes →
              ∃ room, s.runGarbageCollectionIfNeeded = .ok room ∧
                ((∀ call ∈ room.flash.programCalls, call.accepted = true) →
                  Transparent constantLz4 homes s room))
          ftl (writeCounting 2 3) := by
  obtain ⟨ftl, overwritten⟩ := exists_overwritten (2 ^ 32 - 1) (by decide)
  have shadowed := overwritten.shadowed
  have filled : Filled (2 ^ 32 + 1) (ftl.written 1 (countingBlock 2)) :=
    overwritten.filled.write (Nat.lt_succ_self _) (by decide) 2
  refine ⟨ftl.written 1 (countingBlock 2), filled.reachable, fun everywhere => ?_⟩
  obtain ⟨nonzero, _, _⟩ := compress_countingBlock 3
  have flushes : ((ftl.written 1 (countingBlock 2)).beginWrite 2).flushStagedWrites =
      .ok ((ftl.written 1 (countingBlock 2)).beginWrite 2) := by
    simp [FtlController.flushStagedWrites, shadowed.idle]
  obtain ⟨homes, tracked, home⟩ := shadowed.tracked
  obtain ⟨room, made, transparent⟩ :=
    ((everywhere (by decide) nonzero).2 (countingBlock_large 3) _ flushes).2 homes tracked
  rw [← makeRoom_eq] at made
  exact shadowed.noticed made home (transparent (shadowed.room_accepted made))

end Filling

end FtlController

end Zftl
