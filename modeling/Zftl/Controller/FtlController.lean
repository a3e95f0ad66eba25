/-
Module: Zftl.Controller.FtlController
Layer: Controller
Purpose: The flash translation layer: the LBA table, the active and reserve blocks, the staging buffer for
  half pages, the inverted index from pages to their tenants, and the three host calls with the garbage
  collection they trigger. The state is indexed by the flash configuration and the size of the LBA table,
  which never change. Every unchecked vector access and every `memcpy` of the source is a checked step here,
  so a run that would leave a vector's bounds returns a `Fault`.
Imports: Zftl.Controller.Lz4Compressor
Trusted boundary: human-reviewed translation of ftl_controller.hpp and ftl_controller.cpp
Main exports: FtlController, writeBlock, readBlock, flushStagedWrites, runGarbageCollectionIfNeeded,
  HostCall, FtlController.call
Open obligations: none
-/
import Zftl.Controller.Lz4Compressor

namespace Zftl

/-- `MappingState`. -/
inductive MappingState where
  | unmapped
  | sparseZero
  | compressedHalfPage
  | rawFullPage
deriving Repr, DecidableEq

/-- `MappingEntry`: `blockIdx` and `pageIdx` are `uint32_t`. -/
structure MappingEntry where
  state : MappingState := .unmapped
  blockIdx : Nat := 0
  pageIdx : Nat := 0
  subSlot : Nat := 0
  compressedSize : Nat := 0
deriving Repr, DecidableEq

/-- The entry designates a physical page. -/
def MappingEntry.Mapped (entry : MappingEntry) : Prop :=
  entry.state = .rawFullPage ∨ entry.state = .compressedHalfPage

instance (entry : MappingEntry) : Decidable entry.Mapped :=
  inferInstanceAs (Decidable (entry.state = .rawFullPage ∨ entry.state = .compressedHalfPage))

/-- `StagedHalfPage`: a compressed block waiting for a second one. -/
structure StagedHalfPage where
  lba : Nat
  compSize : Nat
  data : Buffer UInt8 halfPageSize

/-- `PageOwner`: one record of the inverted index. -/
structure PageOwner where
  lba : Nat
  subSlot : Nat
deriving Repr, DecidableEq

/-- `FTLController` over an array of `cfg`'s geometry and a table of `lbas` entries. -/
structure FtlController (cfg : FlashConfig) (lbas : Nat) where
  flash : FlashModel cfg := {}
  lbaTable : Nat → MappingEntry := fun _ => {}
  activeBlockIdx : Nat := 0
  activePageIdx : Nat := 0
  reserveBlockIdx : Nat := 1
  stagedHalf : Option StagedHalfPage := none
  blockPageOwners : Nat → Nat → List PageOwner := fun _ _ => []
  hostWrites : Nat := 0
  hostReads : Nat := 0
  zeroBlocks : Nat := 0
  halfPagePacks : Nat := 0
  rawFullPages : Nat := 0
  gcCount : Nat := 0
  gcMigratedPages : Nat := 0

/-- Entries of the table for a logical capacity in bytes; the sum is a `size_t`. -/
def lbaCount (logicalCapacityBytes : Nat) : Nat :=
  (logicalCapacityBytes + flashPageSize - 1) % 2 ^ 64 / flashPageSize

namespace FtlController

variable {cfg : FlashConfig} {lbas : Nat}

/-- The constructor. -/
def fresh (cfg : FlashConfig) (logicalCapacityBytes : Nat) :
    FtlController cfg (lbaCount logicalCapacityBytes) := {}

/-! ### Table and index accesses -/

/-- The table with one entry replaced. -/
def withEntry (ftl : FtlController cfg lbas) (lba : Nat) (entry : MappingEntry) :
    FtlController cfg lbas :=
  { ftl with lbaTable := Function.update ftl.lbaTable lba entry }

/-- The inverted index with the owner list of one page replaced. -/
def withOwners (ftl : FtlController cfg lbas) (blockIdx pageIdx : Nat) (owners : List PageOwner) :
    FtlController cfg lbas :=
  { ftl with
    blockPageOwners :=
      Function.update ftl.blockPageOwners blockIdx
        (Function.update (ftl.blockPageOwners blockIdx) pageIdx owners) }

/-- A write through `lba_table_[lba]`. -/
def setEntry (ftl : FtlController cfg lbas) (lba : Nat) (entry : MappingEntry) :
    Except Fault (FtlController cfg lbas) := do
  checkIndex lba lbas
  .ok (ftl.withEntry lba entry)

/-- A write through `block_page_owners_[blockIdx][pageIdx]`. -/
def setOwners (ftl : FtlController cfg lbas) (blockIdx pageIdx : Nat) (owners : List PageOwner) :
    Except Fault (FtlController cfg lbas) := do
  checkIndex blockIdx cfg.totalBlocks
  checkIndex pageIdx cfg.pagesPerBlock
  .ok (ftl.withOwners blockIdx pageIdx owners)

/-- `block_page_owners_[blockIdx][pageIdx].push_back(owner)`. -/
def pushOwner (ftl : FtlController cfg lbas) (blockIdx pageIdx : Nat) (owner : PageOwner) :
    Except Fault (FtlController cfg lbas) :=
  ftl.setOwners blockIdx pageIdx (ftl.blockPageOwners blockIdx pageIdx ++ [owner])

/-- `ProgramPage` on the next page of the active block; the result is not looked at. -/
def programActivePage (ftl : FtlController cfg lbas) (src : Page) : FtlController cfg lbas :=
  { ftl with flash := (ftl.flash.programPage ftl.activeBlockIdx ftl.activePageIdx (some src)).1 }

/-! ### Garbage collection -/

/-- Phase 1 of `RunGarbageCollectionIfNeeded`: the block other than the reserve with the most invalid
    pages, and that number. -/
def selectVictim (ftl : FtlController cfg lbas) : Nat × Nat :=
  (List.range cfg.totalBlocks).foldl
    (fun best b =>
      if b = ftl.reserveBlockIdx then best
      else if ftl.flash.getInvalidCount b > best.2 then (b, ftl.flash.getInvalidCount b)
      else best)
    (0, 0)

/-- No block has an invalid page: the reserve becomes the active block. -/
def adoptReserve (ftl : FtlController cfg lbas) : FtlController cfg lbas :=
  { ftl with
    activeBlockIdx := ftl.reserveBlockIdx
    activePageIdx := 0
    reserveBlockIdx := (ftl.reserveBlockIdx + 1) % cfg.totalBlocks }

/-- Re-point one LBA of a migrated page. -/
def repointOwner (lbas blockIdx pageIdx : Nat) (table : Nat → MappingEntry) (owner : PageOwner) :
    Nat → MappingEntry :=
  if owner.lba < lbas then
    Function.update table owner.lba
      { table owner.lba with blockIdx := u32 blockIdx, pageIdx := u32 pageIdx }
  else table

/-- One iteration of phase 2: page `p` of the victim moves to page `reserveWritePage` of the reserve if it
    is valid, and is forgotten otherwise. -/
def migratePage (victim : Nat) (acc : FtlController cfg lbas × Nat) (p : Nat) :
    Except Fault (FtlController cfg lbas × Nat) := do
  let (ftl, reserveWritePage) := acc
  if !ftl.flash.isPageValid victim p then
    let ftl ← ftl.setOwners victim p []
    .ok (ftl, reserveWritePage)
  else
    let (flash, _, tmp) := ftl.flash.readPage victim p (Buffer.fill flashPageSize 0)
    let flash := (flash.programPage ftl.reserveBlockIdx reserveWritePage (some tmp)).1
    let ftl : FtlController cfg lbas := { ftl with flash := flash, gcMigratedPages := ftl.gcMigratedPages + 1 }
    checkIndex victim cfg.totalBlocks
    checkIndex p cfg.pagesPerBlock
    let owners := ftl.blockPageOwners victim p
    let ftl : FtlController cfg lbas :=
      { ftl with
        lbaTable :=
          owners.foldl (repointOwner lbas ftl.reserveBlockIdx reserveWritePage) ftl.lbaTable }
    let ftl ← ftl.setOwners ftl.reserveBlockIdx reserveWritePage owners
    let ftl ← ftl.setOwners victim p []
    .ok (ftl, reserveWritePage + 1)

/-- Where the reserve pointer goes when `victim` becomes the active block. -/
def rotateReserve (totalBlocks reserve victim : Nat) : Nat :=
  let next := (reserve + 1) % totalBlocks
  if next = victim then (next + 1) % totalBlocks else next

/-- Phase 3: the victim is erased and becomes the active block. -/
def reclaimVictim (ftl : FtlController cfg lbas) (victim : Nat) :
    Except Fault (FtlController cfg lbas) := do
  let ftl : FtlController cfg lbas := { ftl with flash := (ftl.flash.eraseBlock victim).1 }
  checkIndex victim cfg.totalBlocks
  .ok
    { ftl with
      blockPageOwners := Function.update ftl.blockPageOwners victim fun _ => []
      activeBlockIdx := victim
      activePageIdx := 0
      reserveBlockIdx := rotateReserve cfg.totalBlocks ftl.reserveBlockIdx victim }

/-- `RunGarbageCollectionIfNeeded`. -/
def runGarbageCollectionIfNeeded (ftl : FtlController cfg lbas) :
    Except Fault (FtlController cfg lbas) :=
  if ftl.activePageIdx < cfg.pagesPerBlock then .ok ftl
  else
    let victim := ftl.selectVictim.1
    let maxInvalid := ftl.selectVictim.2
    if maxInvalid = 0 then .ok ftl.adoptReserve
    else do
      let ftl : FtlController cfg lbas := { ftl with gcCount := ftl.gcCount + 1 }
      let (ftl, _) ← (List.range cfg.pagesPerBlock).foldlM (migratePage victim) (ftl, 0)
      ftl.reclaimVictim victim

/-- The check in front of every host program: collect when the active block is full. -/
def makeRoom (ftl : FtlController cfg lbas) : Except Fault (FtlController cfg lbas) :=
  if ftl.activePageIdx ≥ cfg.pagesPerBlock then ftl.runGarbageCollectionIfNeeded else .ok ftl

/-! ### Host calls -/

/-- `FlushStagedWrites`: the staged half page is programmed alone. -/
def flushStagedWrites (ftl : FtlController cfg lbas) : Except Fault (FtlController cfg lbas) :=
  match ftl.stagedHalf with
  | none => .ok ftl
  | some staged => do
      let pageBuf ← memcpy (Buffer.fill flashPageSize 0) 0 staged.data 0 halfPageSize
      let ftl ← ftl.makeRoom
      let ftl : FtlController cfg lbas := ftl.programActivePage pageBuf
      let ftl ← ftl.setEntry staged.lba
        { state := .compressedHalfPage
          blockIdx := u32 ftl.activeBlockIdx
          pageIdx := u32 ftl.activePageIdx
          subSlot := 0
          compressedSize := staged.compSize }
      let ftl ← ftl.pushOwner ftl.activeBlockIdx ftl.activePageIdx ⟨staged.lba, 0⟩
      .ok { ftl with activePageIdx := ftl.activePageIdx + 1, stagedHalf := none }

/-- The LBA waiting in the staging buffer. -/
def stagedLba (ftl : FtlController cfg lbas) : Option Nat := ftl.stagedHalf.map (·.lba)

/-- What `WriteBlock` does before it looks at the data: the old page of the LBA is invalidated and a staged
    copy of the LBA is dropped. -/
def beginWrite (ftl : FtlController cfg lbas) (lba : Nat) : FtlController cfg lbas :=
  let ftl : FtlController cfg lbas := { ftl with hostWrites := ftl.hostWrites + 1 }
  let oldEntry := ftl.lbaTable lba
  let ftl : FtlController cfg lbas :=
    if oldEntry.Mapped then
      { ftl with flash := ftl.flash.invalidatePage oldEntry.blockIdx oldEntry.pageIdx }
    else ftl
  if ftl.stagedLba = some lba then { ftl with stagedHalf := none } else ftl

/-- Branch 1 of `WriteBlock`: a zero block does not touch the flash. -/
def writeZeroBlock (ftl : FtlController cfg lbas) (lba : Nat) :
    Except Fault (FtlController cfg lbas) := do
  let ftl ← ftl.setEntry lba { ftl.lbaTable lba with state := .sparseZero, compressedSize := 0 }
  .ok { ftl with zeroBlocks := ftl.zeroBlocks + 1 }

/-- Branch 2 with a block in the staging buffer: both go into one page. -/
def packWithStaged (ftl : FtlController cfg lbas) (staged : StagedHalfPage) (lba : Nat)
    (comp : CompressedBlock) : Except Fault (FtlController cfg lbas) := do
  let pageBuf ← memcpy (Buffer.fill flashPageSize 0) 0 staged.data 0 halfPageSize
  let pageBuf ← memcpy pageBuf halfPageSize comp.data 0 comp.compressedSize
  let ftl ← ftl.makeRoom
  let ftl : FtlController cfg lbas := ftl.programActivePage pageBuf
  let ftl ← ftl.setEntry staged.lba
    { state := .compressedHalfPage
      blockIdx := u32 ftl.activeBlockIdx
      pageIdx := u32 ftl.activePageIdx
      subSlot := 0
      compressedSize := staged.compSize }
  let ftl ← ftl.setEntry lba
    { state := .compressedHalfPage
      blockIdx := u32 ftl.activeBlockIdx
      pageIdx := u32 ftl.activePageIdx
      subSlot := 1
      compressedSize := comp.compressedSize }
  let ftl ← ftl.pushOwner ftl.activeBlockIdx ftl.activePageIdx ⟨staged.lba, 0⟩
  let ftl ← ftl.pushOwner ftl.activeBlockIdx ftl.activePageIdx ⟨lba, 1⟩
  .ok
    { ftl with
      halfPagePacks := ftl.halfPagePacks + 1
      stagedHalf := none
      activePageIdx := ftl.activePageIdx + 1 }

/-- Branch 2 with an empty staging buffer: the block waits for a second one. -/
def stageHalfPage (ftl : FtlController cfg lbas) (lba : Nat) (comp : CompressedBlock) :
    Except Fault (FtlController cfg lbas) := do
  let data ← memcpy (Buffer.fill halfPageSize 0) 0 comp.data 0 comp.compressedSize
  .ok { ftl with stagedHalf := some ⟨lba, comp.compressedSize, data⟩ }

/-- Branch 3 of `WriteBlock`: a full page, behind a flush of the staging buffer. -/
def writeFullPage (ftl : FtlController cfg lbas) (lba : Nat) (comp : CompressedBlock) :
    Except Fault (FtlController cfg lbas) := do
  let ftl ← (if ftl.stagedHalf.isSome then ftl.flushStagedWrites else .ok ftl)
  let ftl ← ftl.makeRoom
  let ftl : FtlController cfg lbas := ftl.programActivePage comp.data
  let ftl ← ftl.setEntry lba
    { state := .rawFullPage
      blockIdx := u32 ftl.activeBlockIdx
      pageIdx := u32 ftl.activePageIdx
      subSlot := 0
      compressedSize := comp.compressedSize }
  let ftl ← ftl.pushOwner ftl.activeBlockIdx ftl.activePageIdx ⟨lba, 0⟩
  .ok { ftl with rawFullPages := ftl.rawFullPages + 1, activePageIdx := ftl.activePageIdx + 1 }

/-- The choice between the three branches of `WriteBlock`. -/
def storeBlock (ftl : FtlController cfg lbas) (lba : Nat) (comp : CompressedBlock) :
    Except Fault (FtlController cfg lbas) :=
  if comp.isZeroBlock then ftl.writeZeroBlock lba
  else if comp.compressedSize ≤ halfPageSize then
    match ftl.stagedHalf with
    | some staged => ftl.packWithStaged staged lba comp
    | none => ftl.stageHalfPage lba comp
  else ftl.writeFullPage lba comp

/-- `WriteBlock`; `none` is the null pointer. -/
def writeBlock (lz4 : Lz4) (ftl : FtlController cfg lbas) (lba : Nat) (src4kb : Option Page) :
    Except Fault (FtlController cfg lbas × Bool) :=
  match src4kb with
  | none => .ok (ftl, false)
  | some src =>
      if lba ≥ lbas then .ok (ftl, false)
      else do
        checkIndex lba lbas
        let ftl ←
          (ftl.beginWrite lba).storeBlock lba (Lz4Compressor.compress lz4 (some src))
        .ok (ftl, true)

/-- The decompression of a half page in `ReadBlock`: the compressed bytes are copied out of `src` from
    `offset` on. -/
def unpackHalfPage (lz4 : Lz4) {srcSize : Nat} (src : Buffer UInt8 srcSize) (offset size : Nat)
    (dest : Page) : Except Fault (Bool × Page) := do
  let data ← memcpy (Buffer.fill flashPageSize 0) 0 src offset size
  .ok (Lz4Compressor.decompress lz4
    { isCompressed := true, compressedSize := size, data := data } dest)

/-- `ReadBlock`: the returned flag and the destination afterwards; `none` is the null pointer. -/
def readBlock (lz4 : Lz4) (ftl : FtlController cfg lbas) (lba : Nat) (dest4kb : Option Page) :
    Except Fault (FtlController cfg lbas × Bool × Option Page) :=
  match dest4kb with
  | none => .ok (ftl, false, none)
  | some dest =>
      if lba ≥ lbas then .ok (ftl, false, some dest)
      else do
        let ftl : FtlController cfg lbas := { ftl with hostReads := ftl.hostReads + 1 }
        match ftl.stagedHalf.filter (·.lba = lba) with
        | some staged =>
            let (ok, page) ← unpackHalfPage lz4 staged.data 0 staged.compSize dest
            .ok (ftl, ok, some page)
        | none =>
            checkIndex lba lbas
            let entry := ftl.lbaTable lba
            match entry.state with
            | .unmapped => .ok (ftl, true, some (Buffer.fill flashPageSize 0))
            | .sparseZero => .ok (ftl, true, some (Buffer.fill flashPageSize 0))
            | .rawFullPage =>
                let (flash, ok, page) := ftl.flash.readPage entry.blockIdx entry.pageIdx dest
                .ok ({ ftl with flash := flash }, ok, some page)
            | .compressedHalfPage =>
                let (flash, ok, flashPage) :=
                  ftl.flash.readPage entry.blockIdx entry.pageIdx (Buffer.fill flashPageSize 0)
                let ftl : FtlController cfg lbas := { ftl with flash := flash }
                if !ok then .ok (ftl, false, some dest)
                else
                  let offset := if entry.subSlot = 0 then 0 else halfPageSize
                  let (ok, page) ← unpackHalfPage lz4 flashPage offset entry.compressedSize dest
                  .ok (ftl, ok, some page)

/-- The calls a host can make. -/
inductive HostCall where
  | writeBlock (lba : Nat) (src4kb : Option Page)
  | readBlock (lba : Nat) (dest4kb : Option Page)
  | flushStagedWrites

/-- One host call and the flag it returned. -/
def call (lz4 : Lz4) (ftl : FtlController cfg lbas) :
    HostCall → Except Fault (FtlController cfg lbas × Bool)
  | .writeBlock lba src4kb => ftl.writeBlock lz4 lba src4kb
  | .readBlock lba dest4kb => do
      let (ftl, ok, _) ← ftl.readBlock lz4 lba dest4kb
      .ok (ftl, ok)
  | .flushStagedWrites => do
      let ftl ← ftl.flushStagedWrites
      .ok (ftl, true)

end FtlController

end Zftl
