/-
Module: Zftl.Controller.Collection
Layer: Controller
Purpose: One pass of the garbage collection. `Migration` says what the migration loop has done to the flash
  after the first pages of the victim, whatever the programs returned: it touches only the pages of the
  reserve it has reached, in order, one for each valid page of the victim. `migration_rule` is the
  invariant rule of the loop. `TargetErased` is the condition under which a program site, its collection
  included, programs erased pages only; `programCalls_of_site` shows that it is exactly the condition under
  which no program of the site fails.
Imports: Zftl.Controller.IndexSafety
Trusted boundary: none
Main exports: validBelow, Migration, migration_rule, makeRoom_rule, TargetErased, programCalls_of_site
Open obligations: none
-/
import Zftl.Controller.IndexSafety

namespace Zftl

open Fallible Lz4Compressor

namespace FlashModel

variable {cfg : FlashConfig}

/-- How many of the first `p` pages of a block are valid. -/
def validBelow (flash : FlashModel cfg) (blockIdx p : Nat) : Nat :=
  ((List.range p).filter fun q => flash.isPageValid blockIdx q).length

@[simp] theorem validBelow_zero (flash : FlashModel cfg) (blockIdx : Nat) :
    flash.validBelow blockIdx 0 = 0 := rfl

theorem validBelow_succ_of_valid {flash : FlashModel cfg} {blockIdx p : Nat}
    (valid : flash.isPageValid blockIdx p = true) :
    flash.validBelow blockIdx (p + 1) = flash.validBelow blockIdx p + 1 := by
  simp [validBelow, List.range_succ, valid]

theorem validBelow_succ_of_invalid {flash : FlashModel cfg} {blockIdx p : Nat}
    (invalid : flash.isPageValid blockIdx p = false) :
    flash.validBelow blockIdx (p + 1) = flash.validBelow blockIdx p := by
  simp [validBelow, List.range_succ, invalid]

theorem validBelow_le (flash : FlashModel cfg) (blockIdx p : Nat) :
    flash.validBelow blockIdx p ≤ p :=
  (List.length_filter_le _ _).trans_eq List.length_range

theorem validBelow_mono (flash : FlashModel cfg) (blockIdx : Nat) {p q : Nat} (le : p ≤ q) :
    flash.validBelow blockIdx p ≤ flash.validBelow blockIdx q :=
  (List.Sublist.filter _ (List.range_sublist.mpr le)).length_le

/-- A valid page is counted before every later one. -/
theorem validBelow_lt {flash : FlashModel cfg} {blockIdx p q : Nat} (before : p < q)
    (valid : flash.isPageValid blockIdx p = true) :
    flash.validBelow blockIdx p < flash.validBelow blockIdx q :=
  Nat.lt_of_lt_of_le (by rw [validBelow_succ_of_valid valid]; exact Nat.lt_succ_self _)
    (flash.validBelow_mono blockIdx before)

/-- A block with an invalid page among the first `p` has fewer than `p` valid ones. -/
theorem validBelow_lt_of_invalid {flash : FlashModel cfg} {blockIdx p q : Nat}
    (before : q < p) (invalid : flash.isPageValid blockIdx q = false) :
    flash.validBelow blockIdx p < p := by
  have shorter := List.length_filter_lt_length_iff_exists.mpr
    ⟨q, List.mem_range.mpr before, Bool.not_eq_true _ ▸ invalid⟩
  rwa [List.length_range] at shorter

end FlashModel

namespace FtlController

variable {cfg : FlashConfig} {lbas : Nat}

/-! ### The migration loop -/

/-- A page that is not the target of a move is as it was. -/
theorem movePage_flash_of_ne (ftl : FtlController cfg lbas) (victim p : Nat) {target b q : Nat}
    (other : ¬(b = ftl.reserveBlockIdx ∧ q = target)) :
    (ftl.movePage victim target p).flash.isPageProgrammed b q = ftl.flash.isPageProgrammed b q ∧
      (ftl.movePage victim target p).flash.isPageValid b q = ftl.flash.isPageValid b q ∧
      (ftl.movePage victim target p).flash.pageData b q = ftl.flash.pageData b q := by
  simp only [movePage, withOwners]
  rw [FlashModel.programPage_isPageProgrammed_of_ne other,
    FlashModel.programPage_isPageValid_of_ne other, FlashModel.programPage_pageData_of_ne other]
  simp

/-- A move calls `ProgramPage` once, and the call is accepted exactly if the target is erased. -/
theorem movePage_programCalls (ftl : FtlController cfg lbas) (victim p : Nat) {target : Nat}
    (reserveLt : ftl.reserveBlockIdx < cfg.totalBlocks) (targetLt : target < cfg.pagesPerBlock) :
    ∃ call : ProgramCall,
      (ftl.movePage victim target p).flash.programCalls = ftl.flash.programCalls ++ [call] ∧
        (call.accepted = true ↔ ftl.flash.isPageProgrammed ftl.reserveBlockIdx target = false) := by
  refine ⟨_, by simp [movePage, withOwners]; rfl, ?_⟩
  rw [FlashModel.programPage_accepted]
  simp [reserveLt, targetLt]

/-- A move onto an erased page copies the page. -/
theorem movePage_flash_target (ftl : FtlController cfg lbas) (p : Nat) {victim target : Nat}
    (fullPage : cfg.pageSizeBytes = flashPageSize)
    (reserveLt : ftl.reserveBlockIdx < cfg.totalBlocks) (targetLt : target < cfg.pagesPerBlock)
    (blank : ftl.flash.isPageProgrammed ftl.reserveBlockIdx target = false)
    (programmed : ftl.flash.isPageProgrammed victim p = true) :
    (ftl.movePage victim target p).flash.isPageProgrammed ftl.reserveBlockIdx target = true ∧
      (ftl.movePage victim target p).flash.isPageValid ftl.reserveBlockIdx target = true ∧
      (ftl.movePage victim target p).flash.pageData ftl.reserveBlockIdx target =
        ftl.flash.pageData victim p := by
  have read := FlashModel.readPage_of_programmed (Buffer.fill flashPageSize 0) fullPage programmed
  have accepted :
      ((ftl.flash.readPage victim p (Buffer.fill flashPageSize 0)).1.programPage
        ftl.reserveBlockIdx target (some (ftl.flash.pageData victim p))).2 = true := by
    rw [FlashModel.programPage_accepted]
    exact ⟨reserveLt, targetLt, by simpa using blank⟩
  have page := FlashModel.programPage_page_of_accepted accepted
  rw [Buffer.overlay_full _ _ (Nat.le_of_eq fullPage.symm)] at page
  simp only [movePage, withOwners, read]
  exact page

/-- What the loop has done after the first `p` pages of the victim. -/
structure Migration (start : FtlController cfg lbas) (victim p : Nat)
    (ftl : FtlController cfg lbas) : Prop where
  reserve : ftl.reserveBlockIdx = start.reserveBlockIdx
  active : ftl.activeBlockIdx = start.activeBlockIdx
  activePage : ftl.activePageIdx = start.activePageIdx
  staged : ftl.stagedHalf = start.stagedHalf
  elsewhere : ∀ b q, ¬(b = start.reserveBlockIdx ∧ q < start.flash.validBelow victim p) →
    ftl.flash.isPageProgrammed b q = start.flash.isPageProgrammed b q ∧
      ftl.flash.isPageValid b q = start.flash.isPageValid b q ∧
      ftl.flash.pageData b q = start.flash.pageData b q

namespace Migration

variable {start ftl : FtlController cfg lbas} {victim p : Nat}

/-- The victim's validity bits are those the loop started with. -/
theorem victimValid (migration : Migration start victim p ftl)
    (apart : victim ≠ start.reserveBlockIdx) (q : Nat) :
    ftl.flash.isPageValid victim q = start.flash.isPageValid victim q :=
  (migration.elsewhere victim q fun reached => apart reached.1).2.1

/-- The page of the reserve the loop programs next is as it was. -/
theorem targetBlank (migration : Migration start victim p ftl) :
    ftl.flash.isPageProgrammed ftl.reserveBlockIdx (start.flash.validBelow victim p) =
      start.flash.isPageProgrammed start.reserveBlockIdx (start.flash.validBelow victim p) := by
  rw [migration.reserve]
  exact (migration.elsewhere _ _ fun reached => Nat.lt_irrefl _ reached.2).1

theorem forget (migration : Migration start victim p ftl)
    (invalid : start.flash.isPageValid victim p = false) :
    Migration start victim (p + 1) (ftl.withOwners victim p []) := by
  refine ⟨migration.reserve, migration.active, migration.activePage, migration.staged, ?_⟩
  rw [FlashModel.validBelow_succ_of_invalid invalid]
  exact migration.elsewhere

theorem move (migration : Migration start victim p ftl)
    (valid : start.flash.isPageValid victim p = true) :
    Migration start victim (p + 1)
      (ftl.movePage victim (start.flash.validBelow victim p) p) := by
  refine ⟨migration.reserve, migration.active, migration.activePage, migration.staged, ?_⟩
  intro b q unreached
  rw [FlashModel.validBelow_succ_of_valid valid] at unreached
  have other : ¬(b = ftl.reserveBlockIdx ∧ q = start.flash.validBelow victim p) := by
    rw [migration.reserve]
    omega
  have moved := ftl.movePage_flash_of_ne victim p other
  have before := migration.elsewhere b q (by omega)
  exact ⟨moved.1.trans before.1, moved.2.1.trans before.2.1, moved.2.2.trans before.2.2⟩

end Migration

/-- The invariant rule of the migration loop: a property that is kept when an invalid page is forgotten and
    when a valid page moves to the next page of the reserve holds after the whole loop. -/
theorem migration_rule {start begun migrated : FtlController cfg lbas} {victim moved : Nat}
    (loop : (List.range cfg.pagesPerBlock).foldlM (migratePage victim) (begun, 0) =
      .ok (migrated, moved))
    (victimLt : victim < cfg.totalBlocks) (apart : victim ≠ start.reserveBlockIdx)
    (X : Nat → FtlController cfg lbas → Prop) (begins : Migration start victim 0 begun)
    (init : X 0 begun)
    (forget : ∀ p s, p < cfg.pagesPerBlock → Migration start victim p s →
      start.flash.isPageValid victim p = false → X p s → X (p + 1) (s.withOwners victim p []))
    (move : ∀ p s, p < cfg.pagesPerBlock → Migration start victim p s →
      start.flash.isPageValid victim p = true → X p s →
      X (p + 1) (s.movePage victim (start.flash.validBelow victim p) p)) :
    Migration start victim cfg.pagesPerBlock migrated ∧ X cfg.pagesPerBlock migrated := by
  have result := foldlM_range_invariant
    (fun p (acc : FtlController cfg lbas × Nat) =>
      acc.2 = start.flash.validBelow victim p ∧ Migration start victim p acc.1 ∧ X p acc.1)
    ⟨rfl, begins, init⟩
    (by
      rintro p ⟨s, k⟩ ⟨s', k'⟩ pageLt ⟨rfl, migration, kept⟩ stepped
      rcases (migratePage_eq_ok victimLt pageLt).mp stepped with
        ⟨invalid, rfl, rfl⟩ | ⟨valid, _, rfl, rfl⟩
      · rw [migration.victimValid apart] at invalid
        exact ⟨(FlashModel.validBelow_succ_of_invalid invalid).symm, migration.forget invalid,
          forget p s pageLt migration invalid kept⟩
      · rw [migration.victimValid apart] at valid
        exact ⟨(FlashModel.validBelow_succ_of_valid valid).symm, migration.move valid,
          move p s pageLt migration valid kept⟩)
    loop
  exact result.2

/-- The active block is full and some block has an invalid page: the next program collects a victim. -/
structure Collects (ftl : FtlController cfg lbas) : Prop where
  full : cfg.pagesPerBlock ≤ ftl.activePageIdx
  found : ftl.selectVictim.2 ≠ 0

theorem Collects.victimLt {ftl : FtlController cfg lbas} (collects : ftl.Collects) :
    ftl.selectVictim.1 < cfg.totalBlocks :=
  (ftl.selectVictim_spec.found collects.found).1

theorem Collects.apart {ftl : FtlController cfg lbas} (collects : ftl.Collects) :
    ftl.selectVictim.1 ≠ ftl.reserveBlockIdx :=
  (ftl.selectVictim_spec.found collects.found).2.1

/-- The invariant rule for making room: nothing happens, the reserve is adopted, or a victim is migrated page
    by page and reclaimed. -/
theorem makeRoom_rule {ftl room : FtlController cfg lbas} (made : ftl.makeRoom = .ok room)
    (X : Nat → FtlController cfg lbas → Prop) (Y : FtlController cfg lbas → Prop)
    (stay : ftl.activePageIdx < cfg.pagesPerBlock → Y ftl)
    (adopt : cfg.pagesPerBlock ≤ ftl.activePageIdx → ftl.selectVictim.2 = 0 → Y ftl.adoptReserve)
    (init : ftl.Collects → X 0 { ftl with gcCount := ftl.gcCount + 1 })
    (forget : ∀ p s, ftl.Collects → p < cfg.pagesPerBlock → Migration ftl ftl.selectVictim.1 p s →
      ftl.flash.isPageValid ftl.selectVictim.1 p = false → X p s →
      X (p + 1) (s.withOwners ftl.selectVictim.1 p []))
    (move : ∀ p s, ftl.Collects → p < cfg.pagesPerBlock → Migration ftl ftl.selectVictim.1 p s →
      ftl.flash.isPageValid ftl.selectVictim.1 p = true → X p s →
      X (p + 1) (s.movePage ftl.selectVictim.1
        (ftl.flash.validBelow ftl.selectVictim.1 p) p))
    (reclaim : ∀ migrated, ftl.Collects →
      Migration ftl ftl.selectVictim.1 cfg.pagesPerBlock migrated → X cfg.pagesPerBlock migrated →
      Y (migrated.reclaimed ftl.selectVictim.1)) : Y room := by
  rw [makeRoom_eq] at made
  rcases runGarbageCollectionIfNeeded_eq_ok.mp made with
    ⟨notFull, rfl⟩ | ⟨full, noInvalid, rfl⟩ | ⟨full, found, migrated, moved, loop, _, rfl⟩
  · exact stay notFull
  · exact adopt full noInvalid
  · have collects : ftl.Collects := ⟨full, found⟩
    have begins : Migration ftl ftl.selectVictim.1 0 { ftl with gcCount := ftl.gcCount + 1 } :=
      ⟨rfl, rfl, rfl, rfl, fun _ _ _ => ⟨rfl, rfl, rfl⟩⟩
    rcases migration_rule loop collects.victimLt collects.apart X begins (init collects)
      (fun p s => forget p s collects) (fun p s => move p s collects) with ⟨migration, kept⟩
    exact reclaim migrated collects migration kept

/-! ### Refused programs -/

/-- Every page that making room and the program after it are about to program is erased. -/
structure TargetErased (ftl : FtlController cfg lbas) : Prop where
  room : ftl.activePageIdx < cfg.pagesPerBlock →
    ftl.flash.isPageProgrammed ftl.activeBlockIdx ftl.activePageIdx = false
  adopt : cfg.pagesPerBlock ≤ ftl.activePageIdx → ftl.selectVictim.2 = 0 →
    ftl.flash.isPageProgrammed ftl.reserveBlockIdx 0 = false
  migrate : ftl.Collects →
    ∀ j, j < ftl.flash.validBelow ftl.selectVictim.1 cfg.pagesPerBlock →
      ftl.flash.isPageProgrammed ftl.reserveBlockIdx j = false

instance (ftl : FtlController cfg lbas) : Decidable ftl.Collects :=
  decidable_of_iff (cfg.pagesPerBlock ≤ ftl.activePageIdx ∧ ftl.selectVictim.2 ≠ 0)
    ⟨fun both => ⟨both.1, both.2⟩, fun collects => ⟨collects.full, collects.found⟩⟩

instance (ftl : FtlController cfg lbas) : Decidable ftl.TargetErased :=
  decidable_of_iff
    ((ftl.activePageIdx < cfg.pagesPerBlock →
        ftl.flash.isPageProgrammed ftl.activeBlockIdx ftl.activePageIdx = false) ∧
      (cfg.pagesPerBlock ≤ ftl.activePageIdx → ftl.selectVictim.2 = 0 →
        ftl.flash.isPageProgrammed ftl.reserveBlockIdx 0 = false) ∧
      (ftl.Collects → ∀ j, j < ftl.flash.validBelow ftl.selectVictim.1 cfg.pagesPerBlock →
        ftl.flash.isPageProgrammed ftl.reserveBlockIdx j = false))
    ⟨fun all => ⟨all.1, all.2.1, all.2.2⟩, fun erased => ⟨erased.room, erased.adopt, erased.migrate⟩⟩

/-- On an array without a programmed page every target is erased. -/
theorem TargetErased.of_blank {ftl : FtlController cfg lbas}
    (blank : ∀ b p, ftl.flash.isPageProgrammed b p = false) : ftl.TargetErased :=
  ⟨fun _ => blank _ _, fun _ _ => blank _ _, fun _ _ _ => blank _ _⟩

/-- The page of the reserve that a migration step programs is erased. -/
theorem TargetErased.blank {ftl s : FtlController cfg lbas} {p : Nat} (erased : ftl.TargetErased)
    (collects : ftl.Collects) (pageLt : p < cfg.pagesPerBlock)
    (migration : Migration ftl ftl.selectVictim.1 p s)
    (valid : ftl.flash.isPageValid ftl.selectVictim.1 p = true) :
    s.flash.isPageProgrammed s.reserveBlockIdx (ftl.flash.validBelow ftl.selectVictim.1 p) =
      false := by
  rw [migration.targetBlank]
  exact erased.migrate collects _ (FlashModel.validBelow_lt pageLt valid)

/-- The calls made while room is made, and the page that is free afterwards, against `TargetErased`. -/
theorem makeRoom_programCalls {ftl room : FtlController cfg lbas} (safe : ftl.IndexSafe)
    (made : ftl.makeRoom = .ok room) :
    ∃ calls, room.flash.programCalls = ftl.flash.programCalls ++ calls ∧
      ((∀ call ∈ calls, call.accepted = true) ∧
        room.flash.isPageProgrammed room.activeBlockIdx room.activePageIdx = false ↔
          ftl.TargetErased) := by
  refine makeRoom_rule made
    (fun p s => ∃ calls, s.flash.programCalls = ftl.flash.programCalls ++ calls ∧
      ((∀ call ∈ calls, call.accepted = true) ↔
        ∀ j, j < ftl.flash.validBelow ftl.selectVictim.1 p →
          ftl.flash.isPageProgrammed ftl.reserveBlockIdx j = false))
    (fun room => ∃ calls, room.flash.programCalls = ftl.flash.programCalls ++ calls ∧
      ((∀ call ∈ calls, call.accepted = true) ∧
        room.flash.isPageProgrammed room.activeBlockIdx room.activePageIdx = false ↔
          ftl.TargetErased))
    ?stay ?adopt ?init ?forget ?move ?reclaim
  case stay =>
    intro notFull
    refine ⟨[], by simp, ?_⟩
    constructor
    · rintro ⟨_, blank⟩
      exact ⟨fun _ => blank, fun full => absurd notFull (Nat.not_lt.mpr full),
        fun collects => absurd notFull (Nat.not_lt.mpr collects.full)⟩
    · exact fun erased => ⟨by simp, erased.room notFull⟩
  case adopt =>
    intro full noInvalid
    refine ⟨[], by simp [adoptReserve], ?_⟩
    constructor
    · rintro ⟨_, blank⟩
      exact ⟨fun notFull => absurd notFull (Nat.not_lt.mpr full), fun _ _ => blank,
        fun collects => absurd noInvalid collects.found⟩
    · exact fun erased => ⟨by simp, erased.adopt full noInvalid⟩
  case init => exact fun _ => ⟨[], by simp, by simp⟩
  case forget =>
    rintro p s collects pageLt migration invalid ⟨calls, logged, accepted⟩
    refine ⟨calls, logged, ?_⟩
    rwa [FlashModel.validBelow_succ_of_invalid invalid]
  case move =>
    rintro p s collects pageLt migration valid ⟨calls, logged, accepted⟩
    have reserveLt : s.reserveBlockIdx < cfg.totalBlocks := by
      rw [migration.reserve]
      exact safe.reserveBlock
    have targetLt : ftl.flash.validBelow ftl.selectVictim.1 p < cfg.pagesPerBlock :=
      Nat.lt_of_le_of_lt (FlashModel.validBelow_le _ _ _) pageLt
    rcases s.movePage_programCalls ftl.selectVictim.1 p reserveLt targetLt with
      ⟨call, appended, answer⟩
    refine ⟨calls ++ [call], by rw [appended, logged, List.append_assoc], ?_⟩
    rw [FlashModel.validBelow_succ_of_valid valid, List.forall_mem_append,
      List.forall_mem_singleton, accepted, answer, migration.targetBlank]
    constructor
    · rintro ⟨earlier, last⟩ j below
      rcases Nat.lt_succ_iff_lt_or_eq.mp below with before | rfl
      · exact earlier j before
      · exact last
    · exact fun all => ⟨fun j below => all j (Nat.lt_succ_of_lt below),
        all _ (Nat.lt_succ_self _)⟩
  case reclaim =>
    rintro migrated collects migration ⟨calls, logged, accepted⟩
    refine ⟨calls, by simpa [reclaimed] using logged, ?_⟩
    have free : (migrated.reclaimed ftl.selectVictim.1).flash.isPageProgrammed
        ftl.selectVictim.1 0 = false := FlashModel.eraseBlock_erased 0
    rw [accepted]
    constructor
    · rintro ⟨erased, _⟩
      exact ⟨fun notFull => absurd notFull (Nat.not_lt.mpr collects.full),
        fun _ noInvalid => absurd noInvalid collects.found, fun _ => erased⟩
    · exact fun erased => ⟨erased.migrate collects, free⟩

/-- If every program of a collection is accepted, every page it programs was erased. -/
theorem Collects.targetErased {ftl room : FtlController cfg lbas} (collects : ftl.Collects)
    (safe : ftl.IndexSafe) (made : ftl.makeRoom = .ok room)
    (accepted : ∀ call ∈ room.flash.programCalls, call.accepted = true) : ftl.TargetErased := by
  obtain ⟨calls, logged, erased⟩ := makeRoom_programCalls safe made
  refine erased.mp ⟨fun call member => accepted call (by simp [logged, member]), ?_⟩
  rw [makeRoom_eq] at made
  rcases runGarbageCollectionIfNeeded_eq_ok.mp made with
    ⟨notFull, _⟩ | ⟨_, noInvalid, _⟩ | ⟨_, _, migrated, _, _, _, rfl⟩
  · exact absurd notFull (Nat.not_lt.mpr collects.full)
  · exact absurd noInvalid collects.found
  · exact FlashModel.eraseBlock_erased 0

/-- Making room without a collection moves the block pointers at most. -/
theorem makeRoom_of_not_collects {ftl room : FtlController cfg lbas} (made : ftl.makeRoom = .ok room)
    (kept : ¬ftl.Collects) : room.flash = ftl.flash ∧ room.lbaTable = ftl.lbaTable ∧
      room.stagedHalf = ftl.stagedHalf ∧ room.blockPageOwners = ftl.blockPageOwners := by
  rw [makeRoom_eq] at made
  rcases runGarbageCollectionIfNeeded_eq_ok.mp made with
    ⟨_, rfl⟩ | ⟨_, _, rfl⟩ | ⟨full, found, _⟩
  · exact ⟨rfl, rfl, rfl, rfl⟩
  · exact ⟨rfl, rfl, rfl, rfl⟩
  · exact absurd ⟨full, found⟩ kept

/-- No program of a site is refused exactly if every page it is about to program is erased. -/
theorem programCalls_of_site {ftl room : FtlController cfg lbas} (safe : ftl.IndexSafe)
    (made : ftl.makeRoom = .ok room) (inside : room.ActivePageInside) (buf : Page)
    (tenants : List Tenant) (packs raws : Nat) :
    ∃ calls, (room.occupyPage buf tenants packs raws).flash.programCalls =
        ftl.flash.programCalls ++ calls ∧
      ((∀ call ∈ calls, call.accepted = true) ↔ ftl.TargetErased) := by
  obtain ⟨calls, logged, erased⟩ := makeRoom_programCalls safe made
  refine ⟨calls ++ [⟨room.activeBlockIdx, room.activePageIdx,
    (room.flash.programPage room.activeBlockIdx room.activePageIdx (some buf)).2⟩], ?_, ?_⟩
  · simp [occupyPage, withOwners, programActivePage, logged]
  · rw [List.forall_mem_append, List.forall_mem_singleton, FlashModel.programPage_accepted, ← erased]
    constructor
    · rintro ⟨accepted, _, _, blank⟩
      exact ⟨accepted, blank⟩
    · rintro ⟨accepted, blank⟩
      exact ⟨accepted, inside.1, inside.2, blank⟩

end FtlController

end Zftl
