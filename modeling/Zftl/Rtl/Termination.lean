/-
Module: Zftl.Rtl.Termination
Layer: Rtl
Purpose: When a block ends. The machine looks at the last flag of the input stream only where a literal run or a match
  ends, so a stream that stops anywhere else leaves it waiting for a byte that never comes. With a sink that
  is always ready a block ends exactly if the cycle that takes the last byte closes a sequence, whether the
  source is back to back or waits between its bytes. `Pending` says what is left while a block goes on, and
  `distance` counts it.
Imports: Zftl.Rtl.BlockDecoding
Trusted boundary: none
Main exports: NeedsByte, TakesLast, ClosesSequence, Ends, Pending, distance, ends_iff, truncated_waits
Open obligations: none
-/
import Zftl.Rtl.BlockDecoding

namespace Zftl.Rtl

/-- The states that only another input byte leaves. -/
def FsmState.needsByte : FsmState → Bool
  | .token | .extLit | .literal | .offsetL | .offsetH | .extMatch => true
  | .idle | .matchCopy | .done => false

namespace Decompressor

/-- A byte taken here is the last of a literal run, or completes the length of a match. -/
def ClosesSequence (d : Decompressor) (byte : Byte) : Prop :=
  match d.state with
  | .literal => d.litLen = 1
  | .offsetH => d.savedMatchToken ≠ 15
  | .extMatch => byte ≠ 255
  | _ => False

instance (d : Decompressor) (byte : Byte) : Decidable (d.ClosesSequence byte) := by
  delta ClosesSequence
  cases d.state <;> exact inferInstance

/-- With a ready sink the input is ready exactly in the states that need a byte. -/
theorem step_sAxisTready {d : Decompressor} {i : Inputs} (sink : i.mAxisTready = true)
    (ready : d.sAxisTready = d.state.needsByte) :
    (d.step i).sAxisTready = (d.step i).state.needsByte := by
  cases state : d.state <;> rw [state] at ready <;>
    simp only [step, state, stepIdle, stepToken, stepExtLit, stepLiteral, stepOffsetL, stepOffsetH,
      stepExtMatch, stepMatchCopy, stepDone, observeLast, emit, recordByte, sink, if_true]
  all_goals repeat' split
  all_goals first
    | rfl
    | exact ready

end Decompressor

namespace Bench

/-- The first block goes on at `t`, or has just ended there. -/
def InBlock (bench : Bench) (schedule : Schedule) (t : Nat) : Prop :=
  1 ≤ t ∧ ∀ s, 1 ≤ s → s < t → (bench.run schedule s).dut.state ≠ .idle

/-- The last byte of the stream is transferred at the next edge. -/
def TakesLast (bench : Bench) : Prop := bench.offer.last = true ∧ bench.dut.sAxisTready = true

instance (bench : Bench) : Decidable bench.TakesLast :=
  inferInstanceAs (Decidable (bench.offer.last = true ∧ bench.dut.sAxisTready = true))

/-- The first block ends: once its last byte is taken it never waits for another, and it comes to the done state,
    after which the machine is idle and not busy. -/
structure Ends (bench : Bench) (schedule : Schedule) : Prop where
  neverWaits : ∀ s t, 1 ≤ s → s < t → bench.InBlock schedule t → TakesLast (bench.run schedule s) →
    (bench.run schedule t).dut.state.needsByte = false
  done : ∃ t, bench.InBlock schedule t ∧ (bench.run schedule t).dut.state = .done ∧
    (bench.run schedule (t + 1)).dut.state = .idle ∧ (bench.run schedule (t + 1)).dut.busy = false

theorem last_offer {offer : Offer} (last : offer.last = true) : ∃ byte, offer = [(0, byte)] := by
  match offer with
  | [] => cases last
  | [(0, byte)] => exact ⟨byte, rfl⟩
  | [(_ + 1, _)] => cases last
  | (0, _) :: _ :: _ => cases last
  | (_ + 1, _) :: _ :: _ => cases last

/-- What is left of a block under way: there are bytes to come, or the machine needs none. -/
def Pending (bench : Bench) : Prop :=
  bench.offer ≠ [] ∨ bench.dut.state = .done ∨
    bench.dut.state = .matchCopy ∧ bench.dut.lastByteSeen = true

/-- The edges it can take at most until a block under way takes its next byte or ends, most significant first. -/
def distance (bench : Bench) : Nat :=
  bench.offer.work * 2 ^ 17 +
    if bench.dut.state = .matchCopy then (bench.dut.matchLen - 1).toNat + 1 else 0

section Cycles

variable {bench : Bench} {start : Bool}

/-- A source that has something left comes closer to its end at every ready edge. -/
theorem work_advance_lt {offer : Offer} (nonempty : offer ≠ []) :
    (offer.advance true).work < offer.work := by
  match offer with
  | [] => exact absurd rfl nonempty
  | (0, _) :: rest => simp [Offer.advance, Offer.work]
  | (_ + 1, _) :: _ => simp [Offer.advance, Offer.work]

/-- A cycle that takes the last byte leaves a state that needs no further byte exactly if it closes a sequence. -/
theorem needsByte_of_takesLast (takes : TakesLast bench)
    (ready : bench.dut.sAxisTready = bench.dut.state.needsByte) :
    (bench.cycle start true).dut.state.needsByte = false ↔
      bench.dut.ClosesSequence bench.offer.byte := by
  obtain ⟨byte, offer⟩ := last_offer takes.1
  have up := takes.2
  rw [Bench.cycle, Decompressor.step_state]
  simp only [Decompressor.nextState, Decompressor.transfers, Decompressor.ClosesSequence, inputs, offer,
    up, Offer.byte, Offer.valid, Offer.last, Bool.and_self, if_true, or_true, true_and]
  cases state : bench.dut.state
  case token =>
    simp only [iff_false]
    (repeat' split) <;> decide
  case extLit =>
    simp only [iff_false]
    split <;> decide
  case offsetL =>
    simp only [iff_false]
    decide
  case literal =>
    by_cases last : bench.dut.litLen = 1
    · simp only [last, if_true]
      decide
    · simp only [last, if_false]
      decide
  case offsetH =>
    by_cases full : bench.dut.savedMatchToken = 15
    · simp only [full, if_true]
      decide
    · simp only [full, if_false, ne_eq, not_false_eq_true, iff_true]
      decide
  case extMatch =>
    by_cases full : byte = 255
    · simp only [full]
      decide
    · simp only [full, ne_eq, not_false_eq_true, if_true]
      decide
  all_goals
    rw [ready, state] at up
    cases up

/-- A match that is completed by the last byte knows that it was the last. -/
theorem lastByteSeen_of_takesLast (takes : TakesLast bench) (busy : bench.dut.state ≠ .idle) :
    (bench.cycle start true).dut.lastByteSeen = true := by
  obtain ⟨byte, offer⟩ := last_offer takes.1
  rw [Bench.cycle, Decompressor.step_lastByteSeen _ _ busy]
  simp [Decompressor.observeLast, Decompressor.transfers, inputs, offer, Offer.valid, Offer.last,
    takes.2]

/-- Only the transfer of its last byte empties a source. -/
theorem last_of_advance_eq_nil {offer : Offer} {ready : Bool} (nonempty : offer ≠ [])
    (empty : offer.advance ready = []) : offer.last = true ∧ ready = true := by
  match offer, ready with
  | [], _ => exact absurd rfl nonempty
  | [(0, _)], true => exact ⟨rfl, rfl⟩
  | (0, _) :: _ :: _, true => cases empty
  | (0, _) :: _, false => cases empty
  | (_ + 1, _) :: _, _ => cases empty

/-- Only the done state leads out of a block. -/
theorem busy_cycle (busy : bench.dut.state ≠ .idle) (ongoing : bench.dut.state ≠ .done) (ready : Bool) :
    (bench.cycle start ready).dut.state ≠ .idle := by
  rw [Bench.cycle, Decompressor.step_state]
  cases state : bench.dut.state
  case idle => exact absurd state busy
  case done => exact absurd state ongoing
  all_goals
    simp only [Decompressor.nextState, state]
    (repeat' split) <;> decide

/-- A cycle leaves something to come or ends in a state that needs nothing, if a last byte closes its sequence. -/
theorem Pending.cycle (pending : bench.Pending)
    (ready : bench.dut.sAxisTready = bench.dut.state.needsByte) (busy : bench.dut.state ≠ .idle)
    (ongoing : bench.dut.state ≠ .done)
    (closes : TakesLast bench → bench.dut.ClosesSequence bench.offer.byte) :
    (bench.cycle start true).Pending := by
  by_cases left : (bench.cycle start true).offer = []
  · apply Or.inr
    by_cases empty : bench.offer = []
    · -- The last byte has been taken before: a match is being copied.
      rcases pending with nonempty | ended | ⟨state, seen⟩
      · exact absurd empty nonempty
      · exact absurd ended ongoing
      · have kept : (bench.cycle start true).dut.lastByteSeen = true := by
          rw [Bench.cycle, Decompressor.step_lastByteSeen _ _ busy]
          simp [Decompressor.observeLast, seen]
        by_cases last : bench.dut.matchLen = 1
        · left
          rw [Bench.cycle, Decompressor.step_state]
          simp only [Decompressor.nextState, state, last, seen, inputs, and_self, or_true, if_true]
        · right
          refine ⟨?_, kept⟩
          rw [Bench.cycle, Decompressor.step_state]
          simp only [Decompressor.nextState, state, last, and_false, if_false]
    · -- The last byte is taken in this cycle.
      have takes : TakesLast bench := last_of_advance_eq_nil empty left
      have closed := (@needsByte_of_takesLast _ start takes ready).mpr (closes takes)
      have seen := @lastByteSeen_of_takesLast _ start takes busy
      have notIdle := @busy_cycle _ start busy ongoing true
      cases state : (bench.cycle start true).dut.state
      case idle => exact absurd state notIdle
      case matchCopy => exact Or.inr ⟨rfl, seen⟩
      case done => exact Or.inl rfl
      all_goals
        rw [state] at closed
        cases closed
  · exact Or.inl left

/-- Every cycle of a block that has not come to its end brings the end closer. -/
theorem distance_cycle (pending : bench.Pending)
    (ready : bench.dut.sAxisTready = bench.dut.state.needsByte) (busy : bench.dut.state ≠ .idle)
    (ongoing : bench.dut.state ≠ .done) : (bench.cycle start true).distance < bench.distance := by
  by_cases copying : bench.dut.state = .matchCopy
  · have work : (bench.cycle start true).offer.work ≤ bench.offer.work :=
      Offer.work_advance_le bench.dut.sAxisTready bench.offer
    by_cases last : bench.dut.matchLen = 1
    · have ended : (bench.cycle start true).dut.state ≠ .matchCopy := by
        rw [Bench.cycle, Decompressor.step_state]
        simp only [Decompressor.nextState, copying, last, inputs, and_self, if_true]
        split <;> decide
      rw [distance, distance, if_neg ended, if_pos copying]
      omega
    · have left : (bench.cycle start true).dut.matchLen = bench.dut.matchLen - 1 := by
        simp only [Bench.cycle, Decompressor.step, copying, Decompressor.stepMatchCopy_matchLen, inputs,
          last, ne_eq, not_false_eq_true, and_self, if_true]
      have fewer : (bench.dut.matchLen - 1 - 1).toNat < (bench.dut.matchLen - 1).toNat := by
        bv_omega
      rw [distance, distance, left, if_pos copying]
      split <;> omega
  · have consuming : bench.dut.state.needsByte = true := by
      cases state : bench.dut.state
      case idle => exact absurd state busy
      case done => exact absurd state ongoing
      case matchCopy => exact absurd state copying
      all_goals rfl
    have nonempty : bench.offer ≠ [] := by
      rcases pending with nonempty | ended | ⟨state, _⟩
      · exact nonempty
      · exact absurd ended ongoing
      · exact absurd state copying
    have work : (bench.cycle start true).offer.work < bench.offer.work := by
      have taken := work_advance_lt nonempty
      rwa [← consuming, ← ready] at taken
    have length := ((bench.cycle start true).dut.matchLen - 1).isLt
    rw [distance, distance, if_neg copying]
    split <;> omega

end Cycles

section Runs

variable {bench : Bench} {dut : Decompressor} {offer : Offer} {schedule : Schedule} {t : Nat}

theorem run_succ (sink : ∀ t, schedule.ready t = true) (t : Nat) :
    bench.run schedule (t + 1) = (bench.run schedule t).cycle (schedule.start t) true := by
  rw [Bench.run, sink]

theorem InBlock.earlier (inBlock : bench.InBlock schedule t) {s : Nat} (begun : 1 ≤ s) (within : s ≤ t) :
    bench.InBlock schedule s :=
  ⟨begun, fun r one below => inBlock.2 r one (Nat.lt_of_lt_of_le below within)⟩

theorem InBlock.next (inBlock : bench.InBlock schedule t)
    (busy : (bench.run schedule t).dut.state ≠ .idle) : bench.InBlock schedule (t + 1) := by
  refine ⟨Nat.le_add_left 1 t, fun s one below => ?_⟩
  rcases Nat.lt_succ_iff_lt_or_eq.mp below with earlier | here
  · exact inBlock.2 s one earlier
  · rwa [here]

/-- The input is ready exactly in the states that need a byte, at every time of a run. -/
theorem run_ready (reached : dut.Reached) (idle : dut.state = .idle)
    (sink : ∀ t, schedule.ready t = true) (t : Nat) :
    ((load dut offer).run schedule t).dut.sAxisTready =
      ((load dut offer).run schedule t).dut.state.needsByte := by
  induction t with
  | zero =>
      have rest := (reached.rest idle).2
      simp only [run, load, rest, idle]
      rfl
  | succ t ih => exact Decompressor.step_sAxisTready (sink t) ih

/-- The first cycle of a block leaves the source as it is, up to a cycle of waiting. -/
theorem run_one (reached : dut.Reached) (idle : dut.state = .idle) (nonempty : offer ≠ [])
    (started : schedule.start 0 = true) :
    ((load dut offer).run schedule 1).dut.state = .token ∧
      ((load dut offer).run schedule 1).offer ≠ [] := by
  have rest := (reached.rest idle).2
  refine ⟨?_, fun empty => ?_⟩
  · simp only [run, cycle, load, Decompressor.step_state, Decompressor.nextState, idle, inputs, started,
      if_true]
  · have taken := last_of_advance_eq_nil nonempty empty
    simp [run, load, rest] at taken

/-- If every last byte closes its sequence, there is something left of the block until it is done. -/
theorem run_pending (reached : dut.Reached) (idle : dut.state = .idle) (nonempty : offer ≠ [])
    (started : schedule.start 0 = true) (sink : ∀ t, schedule.ready t = true)
    (closes : ∀ t, (load dut offer).InBlock schedule t → TakesLast ((load dut offer).run schedule t) →
      ((load dut offer).run schedule t).dut.ClosesSequence
        ((load dut offer).run schedule t).offer.byte)
    (inBlock : (load dut offer).InBlock schedule t)
    (busy : ((load dut offer).run schedule t).dut.state ≠ .idle) :
    ((load dut offer).run schedule t).Pending := by
  obtain ⟨begun, earlier⟩ := inBlock
  induction begun with
  | refl => exact Or.inl (run_one reached idle nonempty started).2
  | @step t begun ih =>
      have inBlock : (load dut offer).InBlock schedule t :=
        ⟨begun, fun s one below => earlier s one (Nat.lt_succ_of_lt below)⟩
      have before := earlier t begun (Nat.lt_succ_self t)
      have ongoing : ((load dut offer).run schedule t).dut.state ≠ .done := by
        intro ended
        rw [run, cycle, Decompressor.step_state] at busy
        simp [Decompressor.nextState, ended] at busy
      rw [run_succ sink]
      exact (ih before inBlock.2).cycle (run_ready reached idle sink t) before ongoing
        (closes t inBlock)

/-- A block in which something is left until it is done comes to its end. -/
theorem run_done (reached : dut.Reached) (idle : dut.state = .idle) (sink : ∀ t, schedule.ready t = true)
    (pending : ∀ t, (load dut offer).InBlock schedule t →
      ((load dut offer).run schedule t).dut.state ≠ .idle → ((load dut offer).run schedule t).Pending)
    (inBlock : (load dut offer).InBlock schedule t)
    (busy : ((load dut offer).run schedule t).dut.state ≠ .idle) :
    ∃ t', (load dut offer).InBlock schedule t' ∧
      ((load dut offer).run schedule t').dut.state = .done := by
  generalize left : ((load dut offer).run schedule t).distance = n
  induction n using Nat.strong_induction_on generalizing t with
  | _ n closer =>
      by_cases ended : ((load dut offer).run schedule t).dut.state = .done
      · exact ⟨t, inBlock, ended⟩
      · have nearer := @distance_cycle _ (schedule.start t) (pending t inBlock busy)
          (run_ready reached idle sink t) busy ended
        have next := @busy_cycle _ (schedule.start t) busy ended true
        rw [← run_succ sink] at nearer next
        exact closer _ (left ▸ nearer) (inBlock.next busy) next rfl

/-- A source that has sent everything stays empty. -/
theorem offer_empty {s : Nat} (empty : (bench.run schedule s).offer = []) (later : s ≤ t) :
    (bench.run schedule t).offer = [] := by
  induction later with
  | refl => exact empty
  | @step t later ih =>
      rw [run, cycle, ih]
      rfl

/-- Between an offer and a sink that is always ready the first block ends exactly if the cycle that takes the last
    byte of the offer closes a sequence. -/
theorem ends_iff (reached : dut.Reached) (idle : dut.state = .idle) (nonempty : offer ≠ [])
    (started : schedule.start 0 = true) (sink : ∀ t, schedule.ready t = true) :
    (load dut offer).Ends schedule ↔
      ∀ t, (load dut offer).InBlock schedule t → TakesLast ((load dut offer).run schedule t) →
        ((load dut offer).run schedule t).dut.ClosesSequence
          ((load dut offer).run schedule t).offer.byte := by
  constructor
  · intro ends t inBlock takes
    have ready := @run_ready _ offer _ reached idle sink t
    have busy : ((load dut offer).run schedule t).dut.state ≠ .idle := by
      intro ended
      rw [takes.2, ended] at ready
      cases ready
    have served := ends.neverWaits t (t + 1) inBlock.1 (Nat.lt_succ_self t) (inBlock.next busy) takes
    rw [run_succ sink] at served
    exact (needsByte_of_takesLast takes ready).mp served
  · intro closes
    have pending : ∀ t, (load dut offer).InBlock schedule t →
        ((load dut offer).run schedule t).dut.state ≠ .idle →
          ((load dut offer).run schedule t).Pending :=
      fun t inBlock busy => run_pending reached idle nonempty started sink closes inBlock busy
    have first : (load dut offer).InBlock schedule 1 :=
      ⟨Nat.le_refl 1, fun s one below => absurd one (Nat.not_le.mpr below)⟩
    have begun : ((load dut offer).run schedule 1).dut.state ≠ .idle := by
      rw [(run_one reached idle nonempty started).1]
      decide
    refine ⟨fun s t one below inBlock takes => ?_, ?_⟩
    · have empty : ((load dut offer).run schedule t).offer = [] := by
        obtain ⟨byte, last⟩ := last_offer takes.1
        refine offer_empty (s := s + 1) ?_ below
        rw [run, cycle, last, takes.2]
        rfl
      by_cases ended : ((load dut offer).run schedule t).dut.state = .idle
      · rw [ended]
        rfl
      · rcases pending t inBlock ended with left | done | ⟨copying, _⟩
        · exact absurd empty left
        · rw [done]
          rfl
        · rw [copying]
          rfl
    · obtain ⟨t, inBlock, done⟩ := run_done reached idle sink pending first begun
      have last : ((load dut offer).run schedule (t + 1)).dut =
          ((load dut offer).run schedule t).dut.stepDone
            (((load dut offer).run schedule t).inputs (schedule.start t) (schedule.ready t)) := by
        rw [run, cycle]
        simp only [Decompressor.step, done]
      exact ⟨t, inBlock, done, by rw [last]; rfl, by rw [last]; rfl⟩

end Runs

/-- The last of two literals closes the block. -/
theorem twoLiterals_ends :
    (load (powerUp fun _ => 0) (Offer.backToBack 0 [0x20, 0x41, 0x42])).Ends pulse := by
  have idle : ((load (powerUp fun _ => 0) (Offer.backToBack 0 [0x20, 0x41, 0x42])).run pulse 5).dut.state =
      .idle := by decide
  have closes : ∀ t, t < 6 →
      TakesLast ((load (powerUp fun _ => 0) (Offer.backToBack 0 [0x20, 0x41, 0x42])).run pulse t) →
        ((load (powerUp fun _ => 0) (Offer.backToBack 0 [0x20, 0x41, 0x42])).run pulse t).dut.ClosesSequence
          ((load (powerUp fun _ => 0) (Offer.backToBack 0 [0x20, 0x41, 0x42])).run pulse t).offer.byte := by
    decide
  refine (ends_iff (powerUp_reached _) rfl (by decide) rfl fun _ => rfl).mpr fun t inBlock => ?_
  refine closes t (Nat.lt_of_not_le fun late => ?_)
  exact inBlock.2 5 (by decide) late idle

/-- A token that announces a literal which does not come. -/
theorem truncated_waits :
    ¬(load (powerUp fun _ => 0) (Offer.backToBack 0 [0x10])).Ends pulse := by
  intro ends
  have waits := ends.neverWaits 1 2 (Nat.le_refl 1) (by decide) ⟨by decide, by decide⟩
    ⟨by decide, by decide⟩
  revert waits
  decide

end Bench

end Zftl.Rtl
