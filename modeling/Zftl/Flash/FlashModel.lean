/-
Module: Zftl.Flash.FlashModel
Layer: Flash
Purpose: The physical NAND array: blocks of pages that are programmed once and erased block by block, with a
  validity bit per page and a count of stale pages per block. `ProgramPage`, `ReadPage`, `EraseBlock` and
  `InvalidatePage` check their indices and are total. Each operation is followed by what it does to the
  three observations the controller makes of a page: whether it is programmed, whether it is valid, and
  what it holds.
Imports: Mathlib.Algebra.Ring.Nat, Mathlib.Logic.Function.Basic, Zftl.Lib.Buffer
Trusted boundary: human-reviewed translation of flash_model.hpp and flash_model.cpp
Main exports: FlashConfig, FlashModel, programPage, readPage, eraseBlock, invalidatePage
Open obligations: none
-/
import Mathlib.Algebra.Ring.Nat
import Mathlib.Logic.Function.Basic
import Zftl.Lib.Buffer

namespace Zftl

/-- `FLASH_PAGE_SIZE`: the NVMe sector and flash page granularity. -/
def flashPageSize : Nat := 4096

/-- The contents of one 4 KB page or host block. -/
abbrev Page := Buffer UInt8 flashPageSize

/-- `static_cast<uint32_t>`. -/
def u32 (value : Nat) : Nat := value % 2 ^ 32

theorem u32_le (value : Nat) : u32 value ≤ value := Nat.mod_le _ _

theorem u32_of_lt {value : Nat} (fits : value < 2 ^ 32) : u32 value = value :=
  Nat.mod_eq_of_lt fits

/-- The geometry of the array. `PhysicalPage::data` has 4096 bytes, and a larger page size would run over
    it in every copy, so such a configuration cannot be built. -/
structure FlashConfig where
  pageSizeBytes : Nat := 4096
  pagesPerBlock : Nat := 64
  totalBlocks : Nat := 256
  pageSize_le : pageSizeBytes ≤ flashPageSize := by decide

structure PhysicalPage where
  isProgrammed : Bool := false
  data : Page := Buffer.fill flashPageSize 0

structure FlashBlock where
  eraseCount : Nat := 0
  freePageIdx : Nat := 0
  invalidPageCount : Nat := 0
  pages : Nat → PhysicalPage := fun _ => {}
  pageValid : Nat → Bool := fun _ => false

/-- One call of `ProgramPage` and what it returned. -/
structure ProgramCall where
  blockIdx : Nat
  pageIdx : Nat
  accepted : Bool
deriving Repr, DecidableEq

/-- The array. `programCalls` is a ghost: it lists the calls of `ProgramPage` in order, and no operation
    reads it. -/
structure FlashModel (cfg : FlashConfig) where
  blocks : Nat → FlashBlock := fun _ => {}
  totalPagesProgrammed : Nat := 0
  totalPagesRead : Nat := 0
  totalBlocksErased : Nat := 0
  programCalls : List ProgramCall := []

namespace FlashModel

variable {cfg : FlashConfig}

/-- Append one call to the ghost list. -/
def recordCall (flash : FlashModel cfg) (call : ProgramCall) : FlashModel cfg :=
  { flash with programCalls := flash.programCalls ++ [call] }

/-- `ProgramPage`: a page that is already programmed cannot be programmed again without an erase. -/
def programPage (flash : FlashModel cfg) (blockIdx pageIdx : Nat) (src4kb : Option Page) :
    FlashModel cfg × Bool :=
  match src4kb with
  | none => (flash.recordCall ⟨blockIdx, pageIdx, false⟩, false)
  | some src =>
      if blockIdx ≥ cfg.totalBlocks ∨ pageIdx ≥ cfg.pagesPerBlock then
        (flash.recordCall ⟨blockIdx, pageIdx, false⟩, false)
      else
        let blk := flash.blocks blockIdx
        let page := blk.pages pageIdx
        if page.isProgrammed then
          (flash.recordCall ⟨blockIdx, pageIdx, false⟩, false)
        else
          let page' : PhysicalPage :=
            { isProgrammed := true, data := page.data.overlay src cfg.pageSizeBytes }
          let blk' : FlashBlock :=
            { blk with
              pages := Function.update blk.pages pageIdx page'
              pageValid := Function.update blk.pageValid pageIdx true }
          ({ flash.recordCall ⟨blockIdx, pageIdx, true⟩ with
              blocks := Function.update flash.blocks blockIdx blk'
              totalPagesProgrammed := flash.totalPagesProgrammed + 1 }, true)

/-- `ReadPage`: an unprogrammed page reads as 0xFF. -/
def readPage (flash : FlashModel cfg) (blockIdx pageIdx : Nat) (dest4kb : Page) :
    FlashModel cfg × Bool × Page :=
  if blockIdx ≥ cfg.totalBlocks ∨ pageIdx ≥ cfg.pagesPerBlock then (flash, false, dest4kb)
  else
    let page := (flash.blocks blockIdx).pages pageIdx
    let bytes := if page.isProgrammed then page.data else Buffer.fill flashPageSize 0xFF
    ({ flash with totalPagesRead := flash.totalPagesRead + 1 }, true,
      dest4kb.overlay bytes cfg.pageSizeBytes)

/-- `EraseBlock`. -/
def eraseBlock (flash : FlashModel cfg) (blockIdx : Nat) : FlashModel cfg × Bool :=
  if blockIdx ≥ cfg.totalBlocks then (flash, false)
  else
    let blk := flash.blocks blockIdx
    let blk' : FlashBlock :=
      { eraseCount := u32 (blk.eraseCount + 1)
        freePageIdx := 0
        invalidPageCount := 0
        pages := fun p =>
          if p < cfg.pagesPerBlock then
            { isProgrammed := false
              data := (blk.pages p).data.overlay (Buffer.fill flashPageSize 0xFF) cfg.pageSizeBytes }
          else blk.pages p
        pageValid := fun p => if p < cfg.pagesPerBlock then false else blk.pageValid p }
    ({ flash with
        blocks := Function.update flash.blocks blockIdx blk'
        totalBlocksErased := flash.totalBlocksErased + 1 }, true)

/-- `InvalidatePage`: a page is counted as stale once, however often it is invalidated. -/
def invalidatePage (flash : FlashModel cfg) (blockIdx pageIdx : Nat) : FlashModel cfg :=
  if blockIdx ≥ cfg.totalBlocks ∨ pageIdx ≥ cfg.pagesPerBlock then flash
  else
    let blk := flash.blocks blockIdx
    if blk.pageValid pageIdx then
      let blk' : FlashBlock :=
        { blk with
          pageValid := Function.update blk.pageValid pageIdx false
          invalidPageCount := u32 (blk.invalidPageCount + 1) }
      { flash with blocks := Function.update flash.blocks blockIdx blk' }
    else flash

/-- `IsPageProgrammed`. -/
def isPageProgrammed (flash : FlashModel cfg) (blockIdx pageIdx : Nat) : Bool :=
  if blockIdx ≥ cfg.totalBlocks ∨ pageIdx ≥ cfg.pagesPerBlock then false
  else ((flash.blocks blockIdx).pages pageIdx).isProgrammed

/-- `IsPageValid`. -/
def isPageValid (flash : FlashModel cfg) (blockIdx pageIdx : Nat) : Bool :=
  if blockIdx ≥ cfg.totalBlocks ∨ pageIdx ≥ cfg.pagesPerBlock then false
  else (flash.blocks blockIdx).pageValid pageIdx

/-- `GetInvalidCount`. -/
def getInvalidCount (flash : FlashModel cfg) (blockIdx : Nat) : Nat :=
  if blockIdx ≥ cfg.totalBlocks then 0 else (flash.blocks blockIdx).invalidPageCount

/-- What the cells of a page hold, whether or not it is programmed. -/
def pageData (flash : FlashModel cfg) (blockIdx pageIdx : Nat) : Page :=
  ((flash.blocks blockIdx).pages pageIdx).data

/-- No page of the block is programmed. -/
def BlockErased (flash : FlashModel cfg) (blockIdx : Nat) : Prop :=
  ∀ p, flash.isPageProgrammed blockIdx p = false

instance (flash : FlashModel cfg) (blockIdx : Nat) : Decidable (flash.BlockErased blockIdx) :=
  decidable_of_iff (∀ p < cfg.pagesPerBlock, flash.isPageProgrammed blockIdx p = false)
    ⟨fun inRange p => by
      by_cases below : p < cfg.pagesPerBlock
      · exact inRange p below
      · simp [isPageProgrammed, Nat.not_lt.mp below],
    fun erased p _ => erased p⟩

@[simp] theorem isPageProgrammed_fresh (blockIdx pageIdx : Nat) :
    ({} : FlashModel cfg).isPageProgrammed blockIdx pageIdx = false := by
  simp [isPageProgrammed]

@[simp] theorem isPageValid_fresh (blockIdx pageIdx : Nat) :
    ({} : FlashModel cfg).isPageValid blockIdx pageIdx = false := by
  simp [isPageValid]

theorem isPageProgrammed_inRange {flash : FlashModel cfg} {blockIdx pageIdx : Nat}
    (programmed : flash.isPageProgrammed blockIdx pageIdx = true) :
    blockIdx < cfg.totalBlocks ∧ pageIdx < cfg.pagesPerBlock := by
  by_cases out : blockIdx ≥ cfg.totalBlocks ∨ pageIdx ≥ cfg.pagesPerBlock
  · simp [isPageProgrammed, out] at programmed
  · omega

theorem isPageValid_inRange {flash : FlashModel cfg} {blockIdx pageIdx : Nat}
    (valid : flash.isPageValid blockIdx pageIdx = true) :
    blockIdx < cfg.totalBlocks ∧ pageIdx < cfg.pagesPerBlock := by
  by_cases out : blockIdx ≥ cfg.totalBlocks ∨ pageIdx ≥ cfg.pagesPerBlock
  · simp [isPageValid, out] at valid
  · omega

/-! ### ProgramPage -/

section ProgramPage

variable (flash : FlashModel cfg) (blockIdx pageIdx : Nat) (src : Page)

/-- A program is accepted exactly on an in-range page that is not programmed. -/
theorem programPage_accepted :
    (flash.programPage blockIdx pageIdx (some src)).2 = true ↔
      blockIdx < cfg.totalBlocks ∧ pageIdx < cfg.pagesPerBlock ∧
        flash.isPageProgrammed blockIdx pageIdx = false := by
  by_cases out : blockIdx ≥ cfg.totalBlocks ∨ pageIdx ≥ cfg.pagesPerBlock
  · simp only [programPage, out, if_true, Bool.false_eq_true, false_iff]
    omega
  · have blockLt : blockIdx < cfg.totalBlocks := by omega
    have pageLt : pageIdx < cfg.pagesPerBlock := by omega
    cases programmed : ((flash.blocks blockIdx).pages pageIdx).isProgrammed <;>
      simp [programPage, isPageProgrammed, out, programmed, blockLt, pageLt]

/-- Every call is listed with what it returned. -/
@[simp] theorem programPage_programCalls :
    (flash.programPage blockIdx pageIdx (some src)).1.programCalls =
      flash.programCalls ++
        [⟨blockIdx, pageIdx, (flash.programPage blockIdx pageIdx (some src)).2⟩] := by
  by_cases out : blockIdx ≥ cfg.totalBlocks ∨ pageIdx ≥ cfg.pagesPerBlock
  · simp [programPage, out, recordCall]
  · cases programmed : ((flash.blocks blockIdx).pages pageIdx).isProgrammed <;>
      simp [programPage, out, programmed, recordCall]

/-- A call programs at most one page. -/
theorem programPage_totalPagesProgrammed_le :
    (flash.programPage blockIdx pageIdx (some src)).1.totalPagesProgrammed ≤
      flash.totalPagesProgrammed + 1 := by
  by_cases out : blockIdx ≥ cfg.totalBlocks ∨ pageIdx ≥ cfg.pagesPerBlock
  · simp [programPage, out, recordCall]
  · cases programmed : ((flash.blocks blockIdx).pages pageIdx).isProgrammed <;>
      simp [programPage, out, programmed, recordCall]

/-- A refused program changes no block. -/
theorem programPage_blocks_of_refused
    (refused : (flash.programPage blockIdx pageIdx (some src)).2 = false) :
    (flash.programPage blockIdx pageIdx (some src)).1.blocks = flash.blocks := by
  by_cases out : blockIdx ≥ cfg.totalBlocks ∨ pageIdx ≥ cfg.pagesPerBlock
  · simp [programPage, out, recordCall]
  · cases programmed : ((flash.blocks blockIdx).pages pageIdx).isProgrammed with
    | false => simp [programPage, out, programmed] at refused
    | true => simp [programPage, out, programmed, recordCall]

variable {flash blockIdx pageIdx src} {b p : Nat}

/-- A program leaves every other page as it was. -/
theorem programPage_pages_of_ne (other : ¬(b = blockIdx ∧ p = pageIdx)) :
    (((flash.programPage blockIdx pageIdx (some src)).1.blocks b).pages p =
        (flash.blocks b).pages p) ∧
      (((flash.programPage blockIdx pageIdx (some src)).1.blocks b).pageValid p =
        (flash.blocks b).pageValid p) := by
  cases returned : (flash.programPage blockIdx pageIdx (some src)).2 with
  | false =>
      rw [programPage_blocks_of_refused _ _ _ _ returned]
      exact ⟨rfl, rfl⟩
  | true =>
      have accepted := (programPage_accepted _ _ _ _).mp returned
      have inRange : ¬(blockIdx ≥ cfg.totalBlocks ∨ pageIdx ≥ cfg.pagesPerBlock) := by omega
      have blank : ((flash.blocks blockIdx).pages pageIdx).isProgrammed = false := by
        simpa [isPageProgrammed, inRange] using accepted.2.2
      by_cases sameBlock : b = blockIdx
      · subst sameBlock
        have otherPage : p ≠ pageIdx := fun same => other ⟨rfl, same⟩
        simp [programPage, inRange, blank, otherPage]
      · simp [programPage, inRange, blank, sameBlock]

theorem programPage_isPageProgrammed_of_ne (other : ¬(b = blockIdx ∧ p = pageIdx)) :
    (flash.programPage blockIdx pageIdx (some src)).1.isPageProgrammed b p =
      flash.isPageProgrammed b p := by
  simp [isPageProgrammed, (programPage_pages_of_ne other).1]

theorem programPage_isPageValid_of_ne (other : ¬(b = blockIdx ∧ p = pageIdx)) :
    (flash.programPage blockIdx pageIdx (some src)).1.isPageValid b p = flash.isPageValid b p := by
  simp [isPageValid, (programPage_pages_of_ne other).2]

theorem programPage_pageData_of_ne (other : ¬(b = blockIdx ∧ p = pageIdx)) :
    (flash.programPage blockIdx pageIdx (some src)).1.pageData b p = flash.pageData b p := by
  simp [pageData, (programPage_pages_of_ne other).1]

/-- An accepted program leaves its page programmed, valid and holding the source. -/
theorem programPage_page_of_accepted
    (accepted : (flash.programPage blockIdx pageIdx (some src)).2 = true) :
    (flash.programPage blockIdx pageIdx (some src)).1.isPageProgrammed blockIdx pageIdx = true ∧
      (flash.programPage blockIdx pageIdx (some src)).1.isPageValid blockIdx pageIdx = true ∧
      (flash.programPage blockIdx pageIdx (some src)).1.pageData blockIdx pageIdx =
        (flash.pageData blockIdx pageIdx).overlay src cfg.pageSizeBytes := by
  have target := (programPage_accepted _ _ _ _).mp accepted
  have inRange : ¬(blockIdx ≥ cfg.totalBlocks ∨ pageIdx ≥ cfg.pagesPerBlock) := by omega
  have blank : ((flash.blocks blockIdx).pages pageIdx).isProgrammed = false := by
    simpa [isPageProgrammed, inRange] using target.2.2
  simp [programPage, isPageProgrammed, isPageValid, pageData, inRange, blank]

/-- No program ends the validity of a page. -/
theorem programPage_isPageValid_of_valid (valid : flash.isPageValid b p = true) :
    (flash.programPage blockIdx pageIdx (some src)).1.isPageValid b p = true := by
  by_cases target : b = blockIdx ∧ p = pageIdx
  · obtain ⟨rfl, rfl⟩ := target
    cases returned : (flash.programPage b p (some src)).2 with
    | false =>
        rw [isPageValid, programPage_blocks_of_refused _ _ _ _ returned]
        exact valid
    | true => exact (programPage_page_of_accepted returned).2.1
  · rwa [programPage_isPageValid_of_ne target]

end ProgramPage

/-! ### ReadPage -/

section ReadPage

variable (flash : FlashModel cfg) (blockIdx pageIdx : Nat) (dest : Page)

@[simp] theorem readPage_blocks : (flash.readPage blockIdx pageIdx dest).1.blocks = flash.blocks := by
  by_cases out : blockIdx ≥ cfg.totalBlocks ∨ pageIdx ≥ cfg.pagesPerBlock <;> simp [readPage, out]

@[simp] theorem readPage_programCalls :
    (flash.readPage blockIdx pageIdx dest).1.programCalls = flash.programCalls := by
  by_cases out : blockIdx ≥ cfg.totalBlocks ∨ pageIdx ≥ cfg.pagesPerBlock <;> simp [readPage, out]

@[simp] theorem readPage_isPageProgrammed (b p : Nat) :
    (flash.readPage blockIdx pageIdx dest).1.isPageProgrammed b p = flash.isPageProgrammed b p := by
  simp [isPageProgrammed]

@[simp] theorem readPage_isPageValid (b p : Nat) :
    (flash.readPage blockIdx pageIdx dest).1.isPageValid b p = flash.isPageValid b p := by
  simp [isPageValid]

@[simp] theorem readPage_pageData (b p : Nat) :
    (flash.readPage blockIdx pageIdx dest).1.pageData b p = flash.pageData b p := by
  simp [pageData]

/-- Two arrays with the same blocks, programmed by the same calls: they differ at most in how often they
    have been read. -/
structure SameArray (left right : FlashModel cfg) : Prop where
  blocks : left.blocks = right.blocks
  programCalls : left.programCalls = right.programCalls
  totalPagesProgrammed : left.totalPagesProgrammed = right.totalPagesProgrammed

theorem readPage_sameArray : SameArray (flash.readPage blockIdx pageIdx dest).1 flash := by
  by_cases out : blockIdx ≥ cfg.totalBlocks ∨ pageIdx ≥ cfg.pagesPerBlock <;>
    constructor <;> simp [readPage, out]

namespace SameArray

variable {left right : FlashModel cfg} (same : SameArray left right)
include same

theorem isPageProgrammed_eq (b p : Nat) :
    left.isPageProgrammed b p = right.isPageProgrammed b p := by
  simp [isPageProgrammed, same.blocks]

theorem isPageValid_eq (b p : Nat) : left.isPageValid b p = right.isPageValid b p := by
  simp [isPageValid, same.blocks]

theorem pageData_eq (b p : Nat) : left.pageData b p = right.pageData b p := by
  simp [pageData, same.blocks]

end SameArray

/-- A programmed page reads back as what it holds. -/
theorem readPage_of_programmed {flash : FlashModel cfg} {blockIdx pageIdx : Nat} (dest : Page)
    (fullPage : cfg.pageSizeBytes = flashPageSize)
    (programmed : flash.isPageProgrammed blockIdx pageIdx = true) :
    (flash.readPage blockIdx pageIdx dest).2 = (true, flash.pageData blockIdx pageIdx) := by
  have inside := isPageProgrammed_inRange programmed
  have inRange : ¬(blockIdx ≥ cfg.totalBlocks ∨ pageIdx ≥ cfg.pagesPerBlock) := by omega
  have set : ((flash.blocks blockIdx).pages pageIdx).isProgrammed = true := by
    simpa [isPageProgrammed, inRange] using programmed
  simp [readPage, inRange, set, pageData, Buffer.overlay_full _ _ (Nat.le_of_eq fullPage.symm)]

end ReadPage

/-! ### EraseBlock -/

section EraseBlock

variable (flash : FlashModel cfg) (blockIdx : Nat)

@[simp] theorem eraseBlock_programCalls :
    (flash.eraseBlock blockIdx).1.programCalls = flash.programCalls := by
  by_cases out : blockIdx ≥ cfg.totalBlocks <;> simp [eraseBlock, out]

@[simp] theorem eraseBlock_totalPagesProgrammed :
    (flash.eraseBlock blockIdx).1.totalPagesProgrammed = flash.totalPagesProgrammed := by
  by_cases out : blockIdx ≥ cfg.totalBlocks <;> simp [eraseBlock, out]

variable {flash blockIdx}

theorem eraseBlock_erased : (flash.eraseBlock blockIdx).1.BlockErased blockIdx := by
  intro p
  by_cases out : blockIdx ≥ cfg.totalBlocks ∨ p ≥ cfg.pagesPerBlock
  · simp [isPageProgrammed, out]
  · have blockLt : ¬blockIdx ≥ cfg.totalBlocks := by omega
    have pageLt : p < cfg.pagesPerBlock := by omega
    simp [isPageProgrammed, eraseBlock, blockLt, pageLt]

theorem eraseBlock_isPageValid_self (p : Nat) :
    (flash.eraseBlock blockIdx).1.isPageValid blockIdx p = false := by
  by_cases out : blockIdx ≥ cfg.totalBlocks ∨ p ≥ cfg.pagesPerBlock
  · simp [isPageValid, out]
  · have blockLt : ¬blockIdx ≥ cfg.totalBlocks := by omega
    have pageLt : p < cfg.pagesPerBlock := by omega
    simp [isPageValid, eraseBlock, blockLt, pageLt]

/-- An erase leaves every other block as it was. -/
theorem eraseBlock_blocks_of_ne {b : Nat} (other : b ≠ blockIdx) :
    (flash.eraseBlock blockIdx).1.blocks b = flash.blocks b := by
  by_cases out : blockIdx ≥ cfg.totalBlocks <;> simp [eraseBlock, out, other]

theorem eraseBlock_isPageProgrammed_of_ne {b : Nat} (other : b ≠ blockIdx) (p : Nat) :
    (flash.eraseBlock blockIdx).1.isPageProgrammed b p = flash.isPageProgrammed b p := by
  simp [isPageProgrammed, eraseBlock_blocks_of_ne other]

theorem eraseBlock_isPageValid_of_ne {b : Nat} (other : b ≠ blockIdx) (p : Nat) :
    (flash.eraseBlock blockIdx).1.isPageValid b p = flash.isPageValid b p := by
  simp [isPageValid, eraseBlock_blocks_of_ne other]

theorem eraseBlock_pageData_of_ne {b : Nat} (other : b ≠ blockIdx) (p : Nat) :
    (flash.eraseBlock blockIdx).1.pageData b p = flash.pageData b p := by
  simp [pageData, eraseBlock_blocks_of_ne other]

end EraseBlock

/-! ### InvalidatePage -/

section InvalidatePage

variable (flash : FlashModel cfg) (blockIdx pageIdx : Nat)

@[simp] theorem invalidatePage_pages (b : Nat) :
    ((flash.invalidatePage blockIdx pageIdx).blocks b).pages = (flash.blocks b).pages := by
  by_cases out : blockIdx ≥ cfg.totalBlocks ∨ pageIdx ≥ cfg.pagesPerBlock
  · simp [invalidatePage, out]
  · cases valid : (flash.blocks blockIdx).pageValid pageIdx with
    | false => simp [invalidatePage, valid]
    | true =>
        by_cases same : b = blockIdx
        · subst same
          simp [invalidatePage, out, valid]
        · simp [invalidatePage, out, valid, same]

@[simp] theorem invalidatePage_eraseCount (b : Nat) :
    ((flash.invalidatePage blockIdx pageIdx).blocks b).eraseCount = (flash.blocks b).eraseCount := by
  by_cases out : blockIdx ≥ cfg.totalBlocks ∨ pageIdx ≥ cfg.pagesPerBlock
  · simp [invalidatePage, out]
  · cases valid : (flash.blocks blockIdx).pageValid pageIdx with
    | false => simp [invalidatePage, out, valid]
    | true =>
        by_cases same : b = blockIdx
        · subst same
          simp [invalidatePage, out, valid]
        · simp [invalidatePage, out, valid, same]

@[simp] theorem invalidatePage_programCalls :
    (flash.invalidatePage blockIdx pageIdx).programCalls = flash.programCalls := by
  by_cases out : blockIdx ≥ cfg.totalBlocks ∨ pageIdx ≥ cfg.pagesPerBlock
  · simp [invalidatePage, out]
  · cases valid : (flash.blocks blockIdx).pageValid pageIdx <;> simp [invalidatePage, out, valid]

@[simp] theorem invalidatePage_totalPagesProgrammed :
    (flash.invalidatePage blockIdx pageIdx).totalPagesProgrammed = flash.totalPagesProgrammed := by
  by_cases out : blockIdx ≥ cfg.totalBlocks ∨ pageIdx ≥ cfg.pagesPerBlock
  · simp [invalidatePage, out]
  · cases valid : (flash.blocks blockIdx).pageValid pageIdx <;> simp [invalidatePage, out, valid]

@[simp] theorem invalidatePage_isPageProgrammed (b p : Nat) :
    (flash.invalidatePage blockIdx pageIdx).isPageProgrammed b p = flash.isPageProgrammed b p := by
  simp [isPageProgrammed]

@[simp] theorem invalidatePage_pageData (b p : Nat) :
    (flash.invalidatePage blockIdx pageIdx).pageData b p = flash.pageData b p := by
  simp [pageData]

/-- The invalidated page is not valid, and no other validity bit changes. -/
theorem invalidatePage_isPageValid (b p : Nat) :
    (flash.invalidatePage blockIdx pageIdx).isPageValid b p =
      (flash.isPageValid b p && !decide (b = blockIdx ∧ p = pageIdx)) := by
  by_cases out : blockIdx ≥ cfg.totalBlocks ∨ pageIdx ≥ cfg.pagesPerBlock
  · by_cases same : b = blockIdx ∧ p = pageIdx
    · rcases same with ⟨rfl, rfl⟩
      simp [isPageValid, out]
    · simp [invalidatePage, out, same]
  · cases valid : (flash.blocks blockIdx).pageValid pageIdx with
    | false =>
        by_cases same : b = blockIdx ∧ p = pageIdx
        · rcases same with ⟨rfl, rfl⟩
          simp [invalidatePage, isPageValid, valid]
        · simp [invalidatePage, valid, same]
    | true =>
        by_cases sameBlock : b = blockIdx
        · subst sameBlock
          by_cases samePage : p = pageIdx
          · subst samePage
            simp [invalidatePage, isPageValid, out, valid]
          · simp [invalidatePage, isPageValid, out, valid, samePage]
        · simp [invalidatePage, isPageValid, out, valid, sameBlock]

/-- Invalidating a page that is not valid does nothing. -/
theorem invalidatePage_of_invalid {flash : FlashModel cfg} {blockIdx pageIdx : Nat}
    (invalid : flash.isPageValid blockIdx pageIdx = false) :
    flash.invalidatePage blockIdx pageIdx = flash := by
  by_cases out : blockIdx ≥ cfg.totalBlocks ∨ pageIdx ≥ cfg.pagesPerBlock
  · simp [invalidatePage, out]
  · have flag : (flash.blocks blockIdx).pageValid pageIdx = false := by simpa [isPageValid, out] using invalid
    simp [invalidatePage, flag]

/-- A page valid after an invalidation was valid before it, and is another page. -/
theorem isPageValid_of_invalidatePage {flash : FlashModel cfg} {blockIdx pageIdx b p : Nat}
    (valid : (flash.invalidatePage blockIdx pageIdx).isPageValid b p = true) :
    flash.isPageValid b p = true ∧ ¬(b = blockIdx ∧ p = pageIdx) := by
  rw [invalidatePage_isPageValid, Bool.and_eq_true, Bool.not_eq_true', decide_eq_false_iff_not]
    at valid
  exact valid

end InvalidatePage

end FlashModel

end Zftl
