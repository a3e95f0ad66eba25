/-
Module: Zftl.Controller.Validity
Layer: Controller
Purpose: Live data on valid pages. The array keeps one validity bit for a page of two halves, and a write
  clears the bit of its LBA's old page whoever else is on it. As long as every write finds its LBA alone on
  its page, and every program lands on an erased page, each live LBA stays on a valid page, through
  packing, flushing and every migration, so that no collection can lose it.
Imports: Zftl.Controller.Placement
Trusted boundary: none
Main exports: SoleTenant, Retained, retained_keptByProgram, trace_live_valid
Open obligations: none
-/
import Zftl.Controller.Placement

namespace Zftl

open Fallible Lz4Compressor

namespace FtlController

variable {cfg : FlashConfig} {lbas : Nat} {lz4 : Lz4}

/-- A write finds no other live LBA on the page its LBA's entry designates. -/
def SoleTenant (ftl : FtlController cfg lbas) : HostCall → Prop
  | .writeBlock lba (some _) =>
      lba < lbas → (ftl.lbaTable lba).Mapped → ∀ other < lbas, other ≠ lba → Live none ftl other →
        ¬(ftl.lbaTable other).At (ftl.lbaTable lba).blockIdx (ftl.lbaTable lba).pageIdx
  | _ => True

instance (ftl : FtlController cfg lbas) (hostCall : HostCall) : Decidable (ftl.SoleTenant hostCall) :=
  match hostCall with
  | .writeBlock _ (some _) => inferInstanceAs (Decidable (_ → _))
  | .writeBlock _ none => .isTrue trivial
  | .readBlock _ _ => .isTrue trivial
  | .flushStagedWrites => .isTrue trivial

/-- The call programs erased pages only and invalidates no page another live LBA is on. -/
def KeepsNeighbours (lz4 : Lz4) (ftl : FtlController cfg lbas) (hostCall : HostCall) : Prop :=
  AtEveryProgram lz4 (fun _ s => s.TargetErased) ftl hostCall ∧ ftl.SoleTenant hostCall

instance (ftl : FtlController cfg lbas) (hostCall : HostCall) :
    Decidable (KeepsNeighbours lz4 ftl hostCall) :=
  inferInstanceAs (Decidable (_ ∧ _))

/-- Everything is in its place, and every live LBA is on a valid page. -/
structure Retained (write : Option (Nat × Page)) (ftl : FtlController cfg lbas) : Prop where
  inPlace : InPlace write ftl
  valid : ∀ lba, Live write ftl lba →
    ftl.flash.isPageValid (ftl.lbaTable lba).blockIdx (ftl.lbaTable lba).pageIdx = true

namespace Retained

variable {write : Option (Nat × Page)} {ftl ftl' : FtlController cfg lbas}

/-- A collection of a retained controller loses no live LBA. -/
theorem victimLive (retained : Retained write ftl) : VictimLive write ftl := by
  intro _ lba _ live here
  have valid := retained.valid lba live
  rwa [here] at valid

/-- Beginning a write keeps the other LBAs valid if none of them is on the old page. -/
theorem beginWrite {lba : Nat} {src : Page} (retained : Retained none ftl) (inside : lba < lbas)
    (sole : ftl.SoleTenant (.writeBlock lba (some src))) :
    Retained (some (lba, src)) (ftl.beginWrite lba) := by
  refine ⟨retained.inPlace.beginWrite lba, fun other live => ?_⟩
  rcases Placed.live_beginWrite.mp live with ⟨before, apart⟩
  rw [beginWrite_lbaTable]
  refine Placed.valid_beginWrite (retained.valid other before) fun mapped same => ?_
  exact sole inside mapped other before.1 apart.symm before ⟨same.1.symm, same.2.symm⟩

theorem zeroed {lba : Nat} {src : Page} (retained : Retained (some (lba, src)) ftl) :
    Retained none (ftl.zeroed lba) := by
  refine ⟨retained.inPlace.zeroed, fun other live => ?_⟩
  have before : Live (some (lba, src)) ftl other := (Placed.live_zeroed src).mp live
  have apart : other ≠ lba := fun same => before.2.1 (congrArg some same.symm)
  rw [Placed.zeroed_lbaTable_of_ne ftl apart]
  exact retained.valid other before

end Retained

section Runs

variable {ftl ftl' : FtlController cfg lbas}

/-- A program onto erased pages keeps every live LBA on a valid page, its collection included. -/
theorem retained_keptByProgram (geometry : cfg.Addressable) :
    KeptByProgram lz4 (@Retained cfg lbas) fun _ s => s.TargetErased := by
  intro s write buf tenants packs raws write' room retained erased site made inside tenantsLt
  have safeSite : SafeSite write s := ⟨erased, retained.victimLive⟩
  have ready := retained.inPlace.siteReady geometry safeSite site made tenantsLt
  refine ⟨inPlace_keptByProgram geometry s write buf tenants packs raws write' room retained.inPlace
    safeSite site made inside tenantsLt, fun lba live => ?_⟩
  rcases (live_occupyPage ready.fit lba).mp live with ⟨tenant, member, rfl⟩ | before
  · rw [occupyPage_entry_of_tenant _ _ _ geometry inside ready.fit.unique member]
    exact (occupyPage_page _ _ _ _ geometry.fullPage inside ready.blank).2.1
  · have moved := ready.relocated.valid lba ((ready.relocated.live_iff lba).mp before)
      (retained.valid lba ((ready.relocated.live_iff lba).mp before))
    rw [occupyPage_entry_of_live _ _ _ ready.fit before, (occupyPage_page_of_ne _ _ _ _
      (ready.inPlace.placed.not_at_blank before ready.blank)).2.1]
    exact moved

/-- A call that keeps its neighbours keeps every live LBA on a valid page. -/
theorem Retained.call (retained : Retained none ftl) (geometry : cfg.Addressable)
    {hostCall : HostCall} {ok : Bool} (keeps : KeepsNeighbours lz4 ftl hostCall)
    (returned : ftl.call lz4 hostCall = .ok (ftl', ok)) : Retained none ftl' := by
  refine call_rule (I := Retained) returned ?begun (fun _ => retained) keeps.1 ?read ?zero ?stage
    (retained_keptByProgram geometry)
  case begun =>
    rintro lba src ⟨rfl, inside⟩
    exact retained.beginWrite inside keeps.2
  case read =>
    intro s flash retained same
    refine ⟨retained.inPlace.read same, fun lba live => ?_⟩
    exact (same.isPageValid_eq _ _).trans (retained.valid lba live)
  case zero => exact fun s lba src retained _ _ => retained.zeroed
  case stage =>
    intro s lba src data retained inside idle nonzero half _
    refine ⟨retained.inPlace.stage inside idle nonzero half data, fun other live => ?_⟩
    refine retained.valid other ⟨live.1, fun written => live.2.2.1 written, ?_, live.2.2.2⟩
    simp [stagedLba, idle]

/-- In a run that programs erased pages only and in which every write finds its LBA alone on its page, every
    live LBA is on a programmed and valid page. -/
theorem trace_live_valid {capacity : Nat} {events : List (HostCall × Bool)}
    {ftl : FtlController cfg (lbaCount capacity)} (geometry : cfg.Addressable)
    (trace : Trace (FtlController.call lz4) (KeepsNeighbours lz4) (FtlController.fresh cfg capacity)
      events ftl) {lba : Nat} (live : Live none ftl lba) :
    ftl.flash.isPageProgrammed (ftl.lbaTable lba).blockIdx (ftl.lbaTable lba).pageIdx = true ∧
      ftl.flash.isPageValid (ftl.lbaTable lba).blockIdx (ftl.lbaTable lba).pageIdx = true := by
  have retained : Retained none ftl := by
    refine trace.invariant (fun _ s => Retained none s) ?init ?keeps
    case init =>
      refine ⟨⟨.fresh _ geometry.twoBlocks geometry.onePage, .fresh⟩, fun lba live => ?_⟩
      rcases live.2.2.2 with state | state <;> cases state
    case keeps =>
      exact fun _ _ _ _ _ retained keeps returned => retained.call geometry keeps returned
  exact ⟨retained.inPlace.placed.programmed lba live, retained.valid lba live⟩

end Runs

/-- Write a block of equal bytes to an LBA. -/
def writeConstant (lba : Nat) (byte : UInt8) : HostCall :=
  .writeBlock lba (some (Buffer.fill flashPageSize byte))

/-- Two compressible blocks share a page, and a third full page makes room by a collection. -/
def packAndFill : List HostCall :=
  [writeConstant 0 1, writeConstant 1 2, writeCounting 2 3, writeCounting 2 4, writeCounting 2 5]

theorem packAndFill_live_valid :
    ∃ ftl : FtlController fourPages (lbaCount 12288), ftl.gcCount = 2 ∧ ftl.halfPagePacks = 1 ∧
      ftl.flash.isPageProgrammed (ftl.lbaTable 1).blockIdx (ftl.lbaTable 1).pageIdx = true ∧
      ftl.flash.isPageValid (ftl.lbaTable 1).blockIdx (ftl.lbaTable 1).pageIdx = true := by
  rcases (Option.any_eq_true _ _).mp
      (by decide +kernel : (execute (FtlController.call constantLz4) (KeepsNeighbours constantLz4)
        packAndFill ([], FtlController.fresh fourPages 12288)).any fun run =>
          decide (run.2.gcCount = 2 ∧ run.2.halfPagePacks = 1 ∧ Live none run.2 1)) with
    ⟨⟨events, ftl⟩, executed, observed⟩
  rcases of_decide_eq_true observed with ⟨collected, packed, live⟩
  exact ⟨ftl, collected, packed, trace_live_valid (by decide) (Trace.nil.execute executed) live⟩

/-- Overwriting the first half of a packed pair invalidates the page of the second. -/
theorem overwrittenHalf_invalidates :
    ∃ ftl : FtlController fourPages (lbaCount 8192),
      Reachable (FtlController.call constantLz4) (FtlController.fresh fourPages 8192) ftl ∧
        Live none ftl 1 ∧
        ftl.flash.isPageValid (ftl.lbaTable 1).blockIdx (ftl.lbaTable 1).pageIdx = false := by
  rcases (Option.any_eq_true _ _).mp
      (by decide +kernel : (execute (FtlController.call constantLz4) (fun _ _ => True)
        [writeConstant 0 1, writeConstant 1 2, writeConstant 0 3]
        ([], FtlController.fresh fourPages 8192)).any fun run =>
          decide (Live none run.2 1 ∧ run.2.flash.isPageValid (run.2.lbaTable 1).blockIdx
            (run.2.lbaTable 1).pageIdx = false)) with
    ⟨⟨events, ftl⟩, executed, observed⟩
  exact ⟨ftl, ⟨events, Trace.nil.execute executed⟩, of_decide_eq_true observed⟩

end FtlController

end Zftl
