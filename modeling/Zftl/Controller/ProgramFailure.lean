/-
Module: Zftl.Controller.ProgramFailure
Layer: Controller
Purpose: What a host write does when the array refuses a program. The controller never looks at the answer
  of `ProgramPage`: a write in range returns true whatever happened, so a write is honest about a refused
  program exactly when no program can be refused, that is, when every page it is about to program is erased.
Imports: Zftl.Controller.Collection
Trusted boundary: none
Main exports: MigrationFails, HonestFailure, writeBlock_programCalls, writeBlock_honest_iff
Open obligations: none
-/
import Zftl.Controller.Collection

namespace Zftl

open Fallible Lz4Compressor

namespace FtlController

variable {cfg : FlashConfig} {lbas : Nat} {lz4 : Lz4} {ftl ftl' : FtlController cfg lbas}

/-- What the host gets from reading an LBA: the flag and the buffer afterwards. -/
def hostView (lz4 : Lz4) (ftl : FtlController cfg lbas) (lba : Nat) (dest : Page) :
    Except Fault (Bool × Option Page) :=
  (ftl.readBlock lz4 lba (some dest)).map Prod.snd

/-- Some call of `ProgramPage` returned false. -/
def Refused (calls : List ProgramCall) : Prop := ∃ call ∈ calls, call.accepted = false

theorem not_refused_iff {calls : List ProgramCall} :
    ¬Refused calls ↔ ∀ call ∈ calls, call.accepted = true := by
  simp [Refused]

theorem refused_append {first second : List ProgramCall} :
    Refused (first ++ second) ↔ Refused first ∨ Refused second := by
  simp [Refused, or_and_right, exists_or]

/-- The collection in front of the next program migrates page `pageIdx` of its victim onto a page of the reserve that
    refuses the program. -/
structure MigrationFails (ftl : FtlController cfg lbas) (blockIdx pageIdx : Nat) : Prop where
  collects : ftl.Collects
  victim : blockIdx = ftl.selectVictim.1
  inside : pageIdx < cfg.pagesPerBlock
  valid : ftl.flash.isPageValid blockIdx pageIdx = true
  refused : ftl.flash.isPageProgrammed ftl.reserveBlockIdx (ftl.flash.validBelow blockIdx pageIdx) = true

/-- A write that met a refused program returns false, every LBA reads as before, no table entry is pointed at the
    page whose program was refused, and no page whose migration failed is erased. -/
def HonestFailure (lz4 : Lz4) (ftl : FtlController cfg lbas) (lba : Nat) (src4kb : Option Page) :
    Prop :=
  ∀ ftl' ok calls, ftl.writeBlock lz4 lba src4kb = .ok (ftl', ok) →
    ftl'.flash.programCalls = ftl.flash.programCalls ++ calls → Refused calls →
      ok = false ∧
      (∀ other dest, ftl'.hostView lz4 other dest = ftl.hostView lz4 other dest) ∧
      (∀ call ∈ calls, call.accepted = false → ∀ other,
        (ftl'.lbaTable other).blockIdx = call.blockIdx →
          (ftl'.lbaTable other).pageIdx = call.pageIdx → ftl'.lbaTable other = ftl.lbaTable other) ∧
      AtEveryProgram lz4
        (fun _ s => ∀ b p, s.MigrationFails b p →
          (ftl'.flash.blocks b).eraseCount = (s.flash.blocks b).eraseCount)
        ftl (.writeBlock lba src4kb)

/-- The programs of a flush. -/
theorem flushStagedWrites_programCalls (safe : ftl.IndexSafe)
    (flushes : ftl.flushStagedWrites = .ok ftl') :
    ∃ calls, ftl'.flash.programCalls = ftl.flash.programCalls ++ calls ∧
      (¬Refused calls ↔ (ftl.stagedHalf.isSome → ftl.TargetErased)) := by
  cases waiting : ftl.stagedHalf with
  | none =>
      simp only [flushStagedWrites, waiting, ok_eq_ok] at flushes
      exact ⟨[], by simp [flushes], by simp [Refused]⟩
  | some staged =>
      rcases (flushStagedWrites_eq_ok waiting).mp flushes with
        ⟨buf, room, _, made, _, inside, rfl⟩
      rcases programCalls_of_site safe made inside buf [staged.tenant] 0 0 with
        ⟨calls, logged, accepted⟩
      exact ⟨calls, logged, by simpa [not_refused_iff] using accepted⟩

/-- The programs of a write: none of them is refused exactly if every target is erased. -/
theorem writeBlock_programCalls (safe : ftl.IndexSafe) (twoBlocks : 2 ≤ cfg.totalBlocks)
    (onePage : 1 ≤ cfg.pagesPerBlock) {lba : Nat} {src : Page} {ok : Bool}
    (returned : ftl.writeBlock lz4 lba (some src) = .ok (ftl', ok)) (inside : lba < lbas) :
    ok = true ∧ ∃ calls, ftl'.flash.programCalls = ftl.flash.programCalls ++ calls ∧
      (¬Refused calls ↔
        AtEveryProgram lz4 (fun _ s => s.TargetErased) ftl (.writeBlock lba (some src))) := by
  obtain ⟨acknowledged, stored⟩ := writeBlock_stored returned inside
  have begun : (ftl.beginWrite lba).IndexSafe := safe.beginWrite lba
  rw [← ftl.beginWrite_programCalls lba]
  refine ⟨acknowledged, ?_⟩
  cases stored with
  | zero zero =>
      -- A zero block programs nothing.
      refine ⟨[], by simp [zeroed, withEntry], ?_⟩
      simp [Refused, AtEveryProgram, zero]
  | staged idle nonzero half copied =>
      refine ⟨[], by simp, ?_⟩
      simp [Refused, AtEveryProgram, idle, half]
  | @packed buf tenants room waiting nonzero half site made active _ =>
      rcases programCalls_of_site begun made active buf tenants 1 0 with ⟨calls, logged, accepted⟩
      refine ⟨calls, logged, ?_⟩
      rw [not_refused_iff, accepted]
      simp [AtEveryProgram, inside, nonzero, waiting, half]
  | @full flushed room flushes nonzero large made active _ =>
      have flushedSafe : flushed.IndexSafe := by
        rcases begun.flushStagedWrites twoBlocks onePage with ⟨flushed', flushes', safe'⟩
        obtain rfl : flushed' = flushed := Except.ok.inj (flushes'.symm.trans flushes)
        exact safe'
      rcases flushStagedWrites_programCalls begun flushes with ⟨first, firstLogged, firstAccepted⟩
      rcases programCalls_of_site flushedSafe made active (compress lz4 (some src)).data
        [fullTenant lba (compress lz4 (some src))] 0 1 with ⟨second, secondLogged, secondAccepted⟩
      refine ⟨first ++ second, by rw [secondLogged, firstLogged, List.append_assoc], ?_⟩
      rw [refused_append, not_or, firstAccepted, not_refused_iff, secondAccepted]
      constructor
      · rintro ⟨flushErased, fullErased⟩ _ _
        refine ⟨flushErased, fun _ flushed' flushes' => ?_⟩
        obtain rfl : flushed = flushed' := Except.ok.inj (flushes.symm.trans flushes')
        exact fullErased
      · intro sites
        have here := sites inside nonzero
        exact ⟨here.1, here.2 large flushed flushes⟩

/-- A write is honest about refused programs exactly when every page it is about to program is erased. -/
theorem writeBlock_honest_iff {capacity : Nat} {ftl : FtlController cfg (lbaCount capacity)}
    (twoBlocks : 2 ≤ cfg.totalBlocks) (onePage : 1 ≤ cfg.pagesPerBlock)
    (reachable : Reachable (FtlController.call lz4) (FtlController.fresh cfg capacity) ftl)
    (lba : Nat) (src4kb : Option Page) :
    HonestFailure lz4 ftl lba src4kb ↔
      AtEveryProgram lz4 (fun _ s => s.TargetErased) ftl (.writeBlock lba src4kb) := by
  have safe : ftl.IndexSafe := reachable_indexSafe twoBlocks onePage reachable
  cases src4kb with
  | none =>
      -- A null source is refused before anything is programmed.
      refine ⟨fun _ => trivial, fun _ ftl' ok calls returned logged refused => ?_⟩
      simp only [writeBlock, ok_eq_ok, Prod.mk.injEq] at returned
      have noCalls : calls = [] := by simpa [returned.1] using logged
      rcases refused with ⟨call, member, _⟩
      simp [noCalls] at member
  | some src =>
      by_cases inside : lba < lbaCount capacity
      · rcases safe.call_total lz4 twoBlocks onePage (.writeBlock lba (some src)) with
          ⟨ftl', ok, returned⟩
        have returned : ftl.writeBlock lz4 lba (some src) = .ok (ftl', ok) := returned
        rcases writeBlock_programCalls safe twoBlocks onePage returned inside with
          ⟨acknowledged, calls, logged, accepted⟩
        rw [← accepted]
        constructor
        · intro honest refused
          have refusedOk : ok = false := (honest ftl' ok calls returned logged refused).1
          rw [acknowledged] at refusedOk
          cases refusedOk
        · intro noneRefused other ok' calls' returned' logged' refused
          obtain ⟨rfl, rfl⟩ : ftl' = other ∧ ok = ok' := by
            simpa using returned.symm.trans returned'
          rw [List.append_cancel_left (logged.symm.trans logged')] at noneRefused
          exact absurd refused noneRefused
      · have outside : lba ≥ lbaCount capacity := Nat.not_lt.mp inside
        refine ⟨fun _ here => absurd here inside,
          fun _ ftl' ok calls returned logged refused => ?_⟩
        simp only [writeBlock, outside, if_true, ok_eq_ok, Prod.mk.injEq] at returned
        have noCalls : calls = [] := by simpa [returned.1] using logged
        rcases refused with ⟨call, member, _⟩
        simp [noCalls] at member

/-- The first write of a fresh controller is honest. -/
theorem freshWrite_honest :
    HonestFailure constantLz4 (FtlController.fresh fourPages 8192) 0 (some (countingBlock 1)) := by
  refine (writeBlock_honest_iff (by decide) (by decide) ⟨[], .nil⟩ 0 _).mpr fun _ _ => ?_
  have begun : ((FtlController.fresh fourPages 8192).beginWrite 0).TargetErased :=
    .of_blank FlashModel.isPageProgrammed_fresh
  refine ⟨fun _ => begun, fun _ flushed flushes => ?_⟩
  obtain rfl : (FtlController.fresh fourPages 8192).beginWrite 0 = flushed := Except.ok.inj flushes
  exact begun

/-- After four alternate writes of two LBAs the pages of the active and of the reserve block are all
    programmed; the fifth write is refused by the array and acknowledged to the host. -/
theorem refusedProgram_acknowledged :
    ∃ ftl : FtlController fourPages (lbaCount 8192),
      Reachable (FtlController.call constantLz4) (FtlController.fresh fourPages 8192) ftl ∧
        ¬HonestFailure constantLz4 ftl 0 (some (countingBlock 5)) := by
  rcases (Option.any_eq_true _ _).mp
      (by decide +kernel : (execute (FtlController.call constantLz4) (fun _ _ => True)
        (alternateWrites.take 4) ([], FtlController.fresh fourPages 8192)).any fun run =>
          test (run.2.writeBlock constantLz4 0 (some (countingBlock 5))) fun result =>
            result.2 &&
              result.1.flash.programCalls == run.2.flash.programCalls ++ [⟨0, 0, false⟩]) with
    ⟨⟨events, ftl⟩, executed, checked⟩
  refine ⟨ftl, ⟨events, Trace.nil.execute executed⟩, fun honest => ?_⟩
  rcases exists_of_test checked with ⟨⟨ftl', ok⟩, returned, observed⟩
  rw [Bool.and_eq_true, beq_iff_eq] at observed
  have refusedOk : ok = false :=
    (honest ftl' ok _ returned observed.2 ⟨_, List.mem_singleton_self _, rfl⟩).1
  rw [refusedOk] at observed
  cases observed.1

end FtlController

end Zftl
