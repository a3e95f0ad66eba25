/-
Module: Zftl.Controller.WriteAmplification
Layer: Controller
Purpose: The reported counters. Every page the flash has programmed is paid for by a host write or by a
  migrated page, and a host write pays for one thing only: a zero block, one half of a packed pair that
  saves the program of the other, a block still in the staging buffer, or a page. `Balanced` keeps this
  account while a write is under way.
Imports: Zftl.Lib.Binary64, Zftl.Controller.Collection
Trusted boundary: human-reviewed translation of both `GetTelemetry` functions; the `uint64_t` counters are
  natural numbers, and the byte counts made of them wrap
Main exports: FlashModel.getTelemetry, FtlController.getTelemetry, Balanced, writeAmplificationFactor_le,
  reachable_accounted
Open obligations: none
-/
import Zftl.Lib.Binary64
import Zftl.Controller.Collection

namespace Zftl

open Fallible Lz4Compressor

/-! ### GetTelemetry -/

/-- `FlashTelemetry`, without the simulated time. -/
structure FlashTelemetry where
  totalPagesProgrammed : Nat
  totalPagesRead : Nat
  totalBlocksErased : Nat
  totalPhysicalBytesWritten : Nat
  maxPeCycles : Nat
  avgPeCycles : Binary64

/-- `FTLTelemetry`. -/
structure FtlTelemetry where
  totalHostWrites : Nat
  totalHostReads : Nat
  totalHostBytesWritten : Nat
  totalHostBytesRead : Nat
  zeroBlocksFiltered : Nat
  compressedHalfPagesPacked : Nat
  rawFullPagesWritten : Nat
  gcInvocations : Nat
  gcPagesMigrated : Nat
  writeAmplificationFactor : Binary64
  effectiveCompressionRatio : Binary64
  flashTel : FlashTelemetry

/-- `FlashModel::GetTelemetry`. -/
def FlashModel.getTelemetry {cfg : FlashConfig} (flash : FlashModel cfg) : FlashTelemetry :=
  let eraseCounts := (List.range cfg.totalBlocks).map fun b => (flash.blocks b).eraseCount
  { totalPagesProgrammed := flash.totalPagesProgrammed
    totalPagesRead := flash.totalPagesRead
    totalBlocksErased := flash.totalBlocksErased
    totalPhysicalBytesWritten := flash.totalPagesProgrammed * cfg.pageSizeBytes % 2 ^ 64
    maxPeCycles := eraseCounts.foldl max 0
    avgPeCycles :=
      if cfg.totalBlocks = 0 then .ofNat 0
      else .ofNat (eraseCounts.sum % 2 ^ 64) / .ofNat cfg.totalBlocks }

namespace FtlController

variable {cfg : FlashConfig} {lbas : Nat}

/-- `FTLController::GetTelemetry`. -/
def getTelemetry (ftl : FtlController cfg lbas) : FtlTelemetry :=
  let flashTel := ftl.flash.getTelemetry
  let totalHostBytesWritten := ftl.hostWrites * flashPageSize % 2 ^ 64
  { totalHostWrites := ftl.hostWrites
    totalHostReads := ftl.hostReads
    totalHostBytesWritten := totalHostBytesWritten
    totalHostBytesRead := ftl.hostReads * flashPageSize % 2 ^ 64
    zeroBlocksFiltered := ftl.zeroBlocks
    compressedHalfPagesPacked := ftl.halfPagePacks
    rawFullPagesWritten := ftl.rawFullPages
    gcInvocations := ftl.gcCount
    gcPagesMigrated := ftl.gcMigratedPages
    writeAmplificationFactor :=
      if totalHostBytesWritten > 0 then
        .ofNat flashTel.totalPhysicalBytesWritten / .ofNat totalHostBytesWritten
      else .ofNat 0
    effectiveCompressionRatio :=
      if flashTel.totalPhysicalBytesWritten > 0 then
        .ofNat totalHostBytesWritten / .ofNat flashTel.totalPhysicalBytesWritten
      else .ofNat 0
    flashTel := flashTel }

/-! ### The account of a run -/

/-- Half pages in the staging buffer. -/
def stagedCount (ftl : FtlController cfg lbas) : Nat := if ftl.stagedHalf.isSome then 1 else 0

/-- The account: programs, elided and packed blocks, the staged block and the block being written are covered
    by the host writes and the migrations. -/
def Balanced (write : Option (Nat × Page)) (ftl : FtlController cfg lbas) : Prop :=
  ftl.flash.totalPagesProgrammed + ftl.zeroBlocks + ftl.halfPagePacks + ftl.stagedCount +
      (if write.isSome then 1 else 0) ≤
    ftl.hostWrites + ftl.gcMigratedPages

/-- A collection has programmed no more pages than it counted as migrated, and changed no other counter of the
    account. -/
structure MigrationsCounted (start ftl : FtlController cfg lbas) : Prop where
  programs : ftl.flash.totalPagesProgrammed + start.gcMigratedPages ≤
    start.flash.totalPagesProgrammed + ftl.gcMigratedPages
  hostWrites : ftl.hostWrites = start.hostWrites
  zeroBlocks : ftl.zeroBlocks = start.zeroBlocks
  halfPagePacks : ftl.halfPagePacks = start.halfPagePacks
  stagedHalf : ftl.stagedHalf = start.stagedHalf

namespace MigrationsCounted

variable {start ftl : FtlController cfg lbas} (counted : MigrationsCounted start ftl)
include counted

/-- A move programs at most one page and counts one migration. -/
theorem movePage (victim reserveWritePage p : Nat) :
    MigrationsCounted start (ftl.movePage victim reserveWritePage p) := by
  refine ⟨?_, counted.hostWrites, counted.zeroBlocks, counted.halfPagePacks, counted.stagedHalf⟩
  have read := FlashModel.readPage_sameArray ftl.flash victim p (Buffer.fill flashPageSize 0)
  have program := FlashModel.programPage_totalPagesProgrammed_le
    (ftl.flash.readPage victim p (Buffer.fill flashPageSize 0)).1 ftl.reserveBlockIdx reserveWritePage
    (ftl.flash.readPage victim p (Buffer.fill flashPageSize 0)).2.2
  rw [read.totalPagesProgrammed] at program
  have before := counted.programs
  simp only [FtlController.movePage, withOwners]
  omega

theorem reclaimed (victim : Nat) : MigrationsCounted start (ftl.reclaimed victim) := by
  refine ⟨?_, counted.hostWrites, counted.zeroBlocks, counted.halfPagePacks, counted.stagedHalf⟩
  simpa [FtlController.reclaimed] using counted.programs

end MigrationsCounted

/-- Making room counts a migration for every page it programs. -/
theorem makeRoom_migrationsCounted {ftl room : FtlController cfg lbas}
    (made : ftl.makeRoom = .ok room) : MigrationsCounted ftl room := by
  have unchanged : MigrationsCounted ftl ftl := ⟨Nat.le_refl _, rfl, rfl, rfl, rfl⟩
  refine makeRoom_rule made (fun _ s => MigrationsCounted ftl s) (MigrationsCounted ftl)
    (fun _ => unchanged) (fun _ _ => ?adopt) (fun _ => ?init) (fun p s _ _ _ _ counted => ?forget)
    (fun p s _ _ _ _ counted => counted.movePage _ _ _) (fun _ _ _ counted => counted.reclaimed _)
  case adopt => exact ⟨unchanged.programs, rfl, rfl, rfl, rfl⟩
  case init => exact ⟨unchanged.programs, rfl, rfl, rfl, rfl⟩
  case forget =>
    exact ⟨counted.programs, counted.hostWrites, counted.zeroBlocks, counted.halfPagePacks,
      counted.stagedHalf⟩

section Steps

variable {lz4 : Lz4} {write write' : Option (Nat × Page)} {ftl ftl' room : FtlController cfg lbas}

theorem Balanced.makeRoom (balanced : Balanced write ftl) (made : ftl.makeRoom = .ok room) :
    Balanced write room := by
  have counted := makeRoom_migrationsCounted made
  have programs := counted.programs
  simp only [Balanced, stagedCount, counted.hostWrites, counted.zeroBlocks, counted.halfPagePacks,
    counted.stagedHalf] at balanced ⊢
  omega

/-- The page of a program site is paid for by the staged block or by the block being written, and a packed pair
    has both to pay with. -/
theorem balanced_keptByProgram :
    KeptByProgram lz4 (@Balanced cfg lbas) fun _ _ => True := by
  intro s write buf tenants packs raws write' room balanced _ site made _ _
  have ready := balanced.makeRoom made
  have staged := makeRoom_stagedHalf made
  have program := FlashModel.programPage_totalPagesProgrammed_le room.flash room.activeBlockIdx
    room.activePageIdx buf
  simp only [Balanced, stagedCount, occupyPage, withOwners, programActivePage, staged] at ready ⊢
  cases site with
  | flush waiting _ =>
      simp only [waiting, Option.isSome_some, Option.isSome_none, Bool.false_eq_true, if_true,
        if_false] at ready ⊢
      omega
  | pack waiting _ _ _ _ =>
      simp only [waiting, Option.isSome_some, Option.isSome_none, Bool.false_eq_true, if_true,
        if_false] at ready ⊢
      omega
  | full idle _ _ =>
      simp only [idle, Option.isSome_some, Option.isSome_none, Bool.false_eq_true, if_true,
        if_false] at ready ⊢
      omega

/-- Beginning a write counts it, and can only empty the staging buffer. -/
theorem Balanced.beginWrite (balanced : Balanced none ftl) (lba : Nat) (src : Page) :
    Balanced (some (lba, src)) (ftl.beginWrite lba) := by
  rw [beginWrite_eq]
  simp only [Balanced, stagedCount, invalidateOld_totalPagesProgrammed, Option.isSome_some, Option.isSome_none,
    Bool.false_eq_true, if_true, if_false] at balanced ⊢
  by_cases dropped : ftl.stagedLba = some lba
  · simp only [dropped, if_true, Option.isSome_none, Bool.false_eq_true, if_false]
    omega
  · simp only [dropped, if_false]
    omega

theorem Balanced.call (balanced : Balanced none ftl) {hostCall : HostCall} {ok : Bool}
    (returned : ftl.call lz4 hostCall = .ok (ftl', ok)) : Balanced none ftl' := by
  refine call_rule returned (fun lba src _ => balanced.beginWrite lba src) (fun _ => balanced)
    (atEveryProgram_true lz4 ftl hostCall) ?read ?zero ?stage balanced_keptByProgram
  case read =>
    intro s flash balanced same
    simpa [Balanced, stagedCount, same.totalPagesProgrammed] using balanced
  case zero =>
    intro s lba src balanced _ _
    have staged : (s.zeroed lba).stagedCount = s.stagedCount := rfl
    simp only [Balanced, staged, Option.isSome_some, Option.isSome_none, Bool.false_eq_true, if_true,
      if_false] at balanced ⊢
    simp only [zeroed, withEntry]
    omega
  case stage =>
    intro s lba src data balanced _ idle _ _ _
    simp only [Balanced, stagedCount, idle, Option.isSome_some, Option.isSome_none,
      Bool.false_eq_true, if_true, if_false] at balanced ⊢
    omega

end Steps

/-- What the counters of a controller say about its programs. -/
structure Accounted (ftl : FtlController cfg lbas) : Prop where
  paid : ftl.getTelemetry.flashTel.totalPagesProgrammed + ftl.getTelemetry.zeroBlocksFiltered +
      ftl.getTelemetry.compressedHalfPagesPacked + (if ftl.stagedHalf.isSome then 1 else 0) ≤
    ftl.getTelemetry.totalHostWrites + ftl.getTelemetry.gcPagesMigrated
  saved : ftl.getTelemetry.gcPagesMigrated = 0 →
    ftl.getTelemetry.flashTel.totalPagesProgrammed ≤ ftl.getTelemetry.totalHostWrites -
      ftl.getTelemetry.zeroBlocksFiltered - ftl.getTelemetry.compressedHalfPagesPacked
  amplification : ftl.getTelemetry.gcPagesMigrated = 0 → ftl.getTelemetry.totalHostWrites < 2 ^ 52 →
    ftl.getTelemetry.writeAmplificationFactor.value ≤ 1

/-- A bound on the programs for each host write bounds the reported factor, while the bytes the host wrote fit
    their counter. Both numbers of pages then have at most 53 bits, so only the quotient is rounded. -/
theorem writeAmplificationFactor_le {ftl : FtlController cfg lbas} {bound : ℚ}
    (fits : ftl.hostWrites < 2 ^ 52) (twice : ftl.flash.totalPagesProgrammed ≤ 2 * ftl.hostWrites)
    (nonneg : 0 ≤ bound)
    (covered : 0 < ftl.hostWrites → (ftl.flash.totalPagesProgrammed : ℚ) / ftl.hostWrites ≤ bound) :
    ftl.getTelemetry.writeAmplificationFactor.value ≤ (Binary64.nearest bound).value := by
  have whole : ftl.hostWrites * flashPageSize % 2 ^ 64 = ftl.hostWrites * 2 ^ 12 :=
    Nat.mod_eq_of_lt (by rw [flashPageSize]; omega)
  have bytes : ftl.flash.totalPagesProgrammed * cfg.pageSizeBytes % 2 ^ 64 ≤
      ftl.flash.totalPagesProgrammed * 2 ^ 12 :=
    (Nat.mod_le _ _).trans (Nat.mul_le_mul_left _ cfg.pageSize_le)
  simp only [getTelemetry, FlashModel.getTelemetry, whole]
  split
  · next some_bytes =>
    have written : 0 < ftl.hostWrites := Nat.pos_of_mul_pos_right some_bytes
    refine (Binary64.ofNat_div_mono bytes _).trans ?_
    rw [Binary64.div_value, Binary64.ofNat_mul_two_pow (by omega), Binary64.ofNat_mul_two_pow (by omega),
      mul_div_mul_right _ _ (pow_ne_zero _ two_ne_zero)]
    exact Binary64.nearest_mono (div_nonneg (Nat.cast_nonneg _) (Nat.cast_nonneg _)) (covered written)
  · rw [Binary64.ofNat_zero]
    exact Binary64.nearest_nonneg nonneg

/-- The amplification of a controller that programmed no more pages than the host wrote. -/
theorem writeAmplificationFactor_le_one {ftl : FtlController cfg lbas}
    (programs : ftl.flash.totalPagesProgrammed ≤ ftl.hostWrites) (fits : ftl.hostWrites < 2 ^ 52) :
    ftl.getTelemetry.writeAmplificationFactor.value ≤ 1 := by
  refine (writeAmplificationFactor_le fits (by omega) zero_le_one fun written => ?_).trans_eq Binary64.nearest_one
  exact (div_le_one (Nat.cast_pos.mpr written)).mpr (Nat.cast_le.mpr programs)

/-- In every reachable state the programs, the elided blocks, the packed pairs and the staged block are covered
    by the host writes and the migrations; without a migration the amplification is at most 1 while the bytes
    written fit 64 bits. -/
theorem reachable_accounted {lz4 : Lz4} {capacity : Nat} {ftl : FtlController cfg (lbaCount capacity)}
    (reachable : Reachable (FtlController.call lz4) (FtlController.fresh cfg capacity) ftl) :
    ftl.Accounted := by
  have balanced : Balanced none ftl :=
    reachable.invariant (Balanced none) (by simp [Balanced, stagedCount, FtlController.fresh])
      fun _ _ _ _ balanced returned => balanced.call returned
  simp only [Balanced, stagedCount, Option.isSome_none, Bool.false_eq_true, if_false] at balanced
  refine ⟨balanced, fun unmigrated => ?_, fun unmigrated fits => ?_⟩
  · simp only [getTelemetry, FlashModel.getTelemetry] at unmigrated ⊢
    omega
  · simp only [getTelemetry] at unmigrated
    exact writeAmplificationFactor_le_one (by omega) fits

/-- A zero block, a packed pair, a full page that flushes a staged block, and a block left in the staging
    buffer. -/
def savingCalls : List HostCall :=
  [.writeBlock 0 (some (Buffer.fill flashPageSize 0)), .writeBlock 1 (some (Buffer.fill flashPageSize 1)),
    .writeBlock 2 (some (Buffer.fill flashPageSize 2)), .writeBlock 0 (some (Buffer.fill flashPageSize 3)),
    writeCounting 1 4, .writeBlock 0 (some (Buffer.fill flashPageSize 5))]

theorem savingCalls_accounted :
    ∃ ftl : FtlController { pagesPerBlock := 3, totalBlocks := 2 } (lbaCount 12288),
      ftl.stagedHalf.isSome = true ∧ ftl.getTelemetry.gcPagesMigrated = 0 ∧
        ftl.getTelemetry.flashTel.totalPagesProgrammed = 3 ∧ ftl.Accounted := by
  rcases (Option.any_eq_true _ _).mp
      (by decide +kernel : (execute (FtlController.call constantLz4) (fun _ _ => True) savingCalls
        ([], FtlController.fresh { pagesPerBlock := 3, totalBlocks := 2 } 12288)).any fun run =>
          run.2.stagedHalf.isSome && run.2.gcMigratedPages == 0 &&
            run.2.flash.totalPagesProgrammed == 3) with
    ⟨⟨events, ftl⟩, executed, observed⟩
  simp only [Bool.and_eq_true, beq_iff_eq] at observed
  exact ⟨ftl, observed.1.1, observed.1.2, observed.2,
    reachable_accounted ⟨events, Trace.nil.execute executed⟩⟩

/-! ### A run that wraps the byte count -/

/-- The call that writes a zero block. -/
def writeZeros (lba : Nat) : HostCall := .writeBlock lba (some (Buffer.fill flashPageSize 0))

/-- `n` zero blocks have been written to `lba`, which has no page: the host writes are counted, and nothing was
    programmed or staged. -/
structure ZerosWritten (start : FtlController cfg lbas) (lba n : Nat) (ftl : FtlController cfg lbas) : Prop where
  hostWrites : ftl.hostWrites = start.hostWrites + n
  flash : ftl.flash = start.flash
  gcMigratedPages : ftl.gcMigratedPages = start.gcMigratedPages
  stagedHalf : ftl.stagedHalf = none
  unmapped : ¬(ftl.lbaTable lba).Mapped

theorem ZerosWritten.call (lz4 : Lz4) {start ftl : FtlController cfg lbas} {lba n : Nat}
    (written : ZerosWritten start lba n ftl) (inside : lba < lbas) :
    ∃ ftl', ftl.call lz4 (writeZeros lba) = .ok (ftl', true) ∧ ZerosWritten start lba (n + 1) ftl' := by
  have elided : (compress lz4 (some (Buffer.fill flashPageSize 0))).isZeroBlock = true :=
    compress_isZeroBlock.mpr rfl
  refine ⟨(ftl.beginWrite lba).zeroed lba, ?returned, ?hostWrites, ?flash, ?migrated, ?staged, ?unmapped⟩
  case returned =>
    simp only [FtlController.call, writeZeros, writeBlock, Nat.not_le.mpr inside, if_false, checkIndex_of_lt inside,
      ok_bind, storeBlock, elided, if_true, writeZeroBlock_eq_ok.mpr ⟨inside, rfl⟩]
  case hostWrites =>
    simp only [zeroed, withEntry, beginWrite_eq, written.hostWrites]
    omega
  case flash =>
    simp only [zeroed, withEntry, beginWrite_eq, invalidateOld, written.unmapped, if_false, written.flash]
  case migrated => simp only [zeroed, withEntry, beginWrite_eq, written.gcMigratedPages]
  case staged => simp only [zeroed, withEntry, beginWrite_eq, written.stagedHalf, ite_self]
  case unmapped => simp [zeroed, withEntry, MappingEntry.Mapped]

/-- Any number of zero blocks can follow a run. -/
theorem trace_writeZeros {lz4 : Lz4} {init start : FtlController cfg lbas} {lba : Nat}
    {events : List (HostCall × Bool)} (trace : Trace (FtlController.call lz4) (fun _ _ => True) init events start)
    (idle : start.stagedHalf = none) (unmapped : ¬(start.lbaTable lba).Mapped) (inside : lba < lbas) (n : Nat) :
    ∃ events' ftl, Trace (FtlController.call lz4) (fun _ _ => True) init events' ftl ∧
      events'.map Prod.fst = events.map Prod.fst ++ List.replicate n (writeZeros lba) ∧
      ZerosWritten start lba n ftl := by
  induction n with
  | zero => exact ⟨events, start, trace, (List.append_nil _).symm, rfl, rfl, rfl, idle, unmapped⟩
  | succ n ih =>
      obtain ⟨events', ftl, before, recorded, written⟩ := ih
      obtain ⟨ftl', returned, written'⟩ := written.call lz4 inside
      refine ⟨_, ftl', before.snoc trivial returned, ?_, written'⟩
      rw [List.map_append, recorded, List.append_assoc, List.replicate_succ']
      rfl

/-- Two full pages, and zero blocks until the bytes written are 2^64 and one page. -/
def wrappingCalls : List HostCall :=
  [writeCounting 0 1, writeCounting 1 2] ++ List.replicate (2 ^ 52 - 1) (writeZeros 2)

/-- The reported bytes are those of one page where two were programmed. -/
theorem wrappingCalls_amplified :
    ∃ events, ∃ ftl : FtlController fourPages (lbaCount 12288),
      Trace (FtlController.call constantLz4) (fun _ _ => True) (FtlController.fresh fourPages 12288) events ftl ∧
      events.map Prod.fst = wrappingCalls ∧ ftl.getTelemetry.gcPagesMigrated = 0 ∧
      ftl.getTelemetry.writeAmplificationFactor.value = 2 := by
  rcases (Option.any_eq_true _ _).mp
      (by decide +kernel : (execute (FtlController.call constantLz4) (fun _ _ => True)
        [writeCounting 0 1, writeCounting 1 2]
        ([], FtlController.fresh fourPages 12288)).any fun run =>
          run.2.hostWrites == 2 && run.2.flash.totalPagesProgrammed == 2 && run.2.gcMigratedPages == 0 &&
            run.2.stagedHalf.isNone && !decide (run.2.lbaTable 2).Mapped) with
    ⟨⟨events, start⟩, executed, observed⟩
  simp only [Bool.and_eq_true, beq_iff_eq, Option.isNone_iff_eq_none, Bool.not_eq_true', decide_eq_false_iff_not]
    at observed
  obtain ⟨⟨⟨⟨writes, programs⟩, migrated⟩, idle⟩, unmapped⟩ := observed
  obtain ⟨trace, calls⟩ := Trace.nil.execute_inputs executed
  obtain ⟨events', ftl, run, recorded, written⟩ :=
    trace_writeZeros trace idle unmapped (by decide) (2 ^ 52 - 1)
  refine ⟨events', ftl, run, ?_, written.gcMigratedPages.trans migrated, ?_⟩
  · rw [recorded, calls]
    rfl
  · have bytes : ftl.hostWrites * flashPageSize % 2 ^ 64 = 4096 := by
      rw [written.hostWrites, writes]
      rfl
    have physical : ftl.flash.totalPagesProgrammed * fourPages.pageSizeBytes % 2 ^ 64 = 8192 := by
      rw [written.flash, programs]
      rfl
    simp only [getTelemetry, FlashModel.getTelemetry, bytes, physical]
    rw [if_pos (by decide), Binary64.div_value, Binary64.ofNat_value (by decide), Binary64.ofNat_value (by decide)]
    have two : ((8192 : Nat) : ℚ) / (4096 : Nat) = (2 : Int) := by norm_num
    rw [two, Binary64.nearest_intCast (by decide)]
    rfl

end FtlController

end Zftl
