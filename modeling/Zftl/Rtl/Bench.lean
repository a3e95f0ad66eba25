/-
Module: Zftl.Rtl.Bench
Layer: Rtl
Purpose: The decompressor between a stream source and a stream sink. The source offers its bytes in order,
  each after some idle cycles, and holds an offered byte until the edge that transfers it; the sink raises
  its ready wire as a schedule says. `Bench.run` lists nothing but what is accepted: the bytes, with their
  last flag, at the edges where the output is valid and the sink ready. `CalmCycle` names the cycles in which
  the handshakes ask nothing of the machine that it does not do.
Imports: Zftl.Rtl.Decompressor
Trusted boundary: human-reviewed reading of the AXI4-Stream handshake
Main exports: Bench, Bench.cycle, Schedule, Bench.run, CalmCycle, Delivers, Led,
  calmRun_of_led, Still
Open obligations: none
-/
import Zftl.Rtl.Decompressor

namespace Zftl.Rtl

open Lz4Format

/-- The bytes a source still has to send, each with the idle cycles in front of it. -/
abbrev Offer := List (Nat × Byte)

namespace Offer

/-- The offered byte is on the wires. -/
def valid : Offer → Bool
  | (0, _) :: _ => true
  | _ => false

def byte : Offer → Byte
  | (0, byte) :: _ => byte
  | _ => 0

def last : Offer → Bool
  | [(0, _)] => true
  | _ => false

/-- The source after an edge: an idle cycle has passed, or a ready machine has taken the byte. -/
def advance (ready : Bool) : Offer → Offer
  | [] => []
  | (0, byte) :: rest => if ready then rest else (0, byte) :: rest
  | (idle + 1, byte) :: rest => (idle, byte) :: rest

/-- The bytes of an offer, whenever they come. -/
def bytes (offer : Offer) : List Byte := offer.map Prod.snd

/-- The edges it takes at least to send an offer. -/
def work (offer : Offer) : Nat := (offer.map fun item => item.1 + 1).sum

/-- An edge at which the machine is not ready takes no byte. -/
theorem bytes_advance_false (offer : Offer) : (offer.advance false).bytes = offer.bytes := by
  match offer with
  | [] => rfl
  | (0, _) :: _ => rfl
  | (_ + 1, _) :: _ => rfl

theorem work_advance_le (ready : Bool) (offer : Offer) : (offer.advance ready).work ≤ offer.work := by
  match offer, ready with
  | [], _ => exact Nat.le_refl _
  | (0, _) :: _, true => exact Nat.le_add_left _ _
  | (0, _) :: _, false => exact Nat.le_refl _
  | (_ + 1, _) :: _, _ =>
      simp only [advance, work, List.map_cons, List.sum_cons]
      omega

/-- No byte waits. -/
def Prompt (offer : Offer) : Prop := ∀ item ∈ offer, item.1 = 0

/-- A source that waits for `lead` cycles and then offers a byte in every cycle. -/
def backToBack (lead : Nat) : List Byte → Offer
  | [] => []
  | byte :: rest => (lead, byte) :: rest.map fun next => (0, next)

theorem prompt_map (stream : List Byte) : Prompt (stream.map fun byte => (0, byte)) := by
  intro item member
  obtain ⟨byte, _, rfl⟩ := List.mem_map.mp member
  rfl

@[simp] theorem bytes_backToBack (lead : Nat) (stream : List Byte) :
    (backToBack lead stream).bytes = stream := by
  cases stream with
  | nil => rfl
  | cons byte rest => simp [backToBack, bytes, Function.comp_def]

theorem prompt_advance {offer : Offer} (prompt : offer.Prompt) (ready : Bool) :
    (offer.advance ready).Prompt := by
  match offer, ready with
  | [], _ => exact prompt
  | (0, _) :: _, true => exact fun item member => prompt item (List.mem_cons_of_mem _ member)
  | (0, _) :: _, false => exact prompt
  | (_ + 1, _) :: _, _ => exact absurd (prompt _ List.mem_cons_self) (Nat.succ_ne_zero _)

/-- The offer of a prompt source is on the wires. -/
theorem valid_of_prompt {offer : Offer} (prompt : offer.Prompt) (nonempty : offer ≠ []) :
    offer.valid = true := by
  match offer with
  | [] => exact absurd rfl nonempty
  | (0, _) :: _ => rfl
  | (_ + 1, _) :: _ => exact absurd (prompt _ List.mem_cons_self) (Nat.succ_ne_zero _)

end Offer

/-- The machine, the source, and what the sink has accepted: bytes with the last flag beside them. -/
structure Bench where
  dut : Decompressor
  offer : Offer
  accepted : List (Byte × Bool)

/-- The wires a schedule drives. -/
structure Schedule where
  start : Nat → Bool
  ready : Nat → Bool

namespace Bench

/-- A machine in front of a stream it has not begun to read. -/
def load (dut : Decompressor) (offer : Offer) : Bench := ⟨dut, offer, []⟩

/-- The input wires in a cycle. -/
def inputs (bench : Bench) (start ready : Bool) : Inputs :=
  { start := start
    sAxisTdata := bench.offer.byte
    sAxisTvalid := bench.offer.valid
    sAxisTlast := bench.offer.last
    mAxisTready := ready }

/-- What the sink accepts at the next edge. -/
def taken (bench : Bench) (ready : Bool) : List (Byte × Bool) :=
  if bench.dut.mAxisTvalid && ready then [(bench.dut.mAxisTdata, bench.dut.mAxisTlast)] else []

/-- One clock edge. -/
def cycle (bench : Bench) (start ready : Bool) : Bench :=
  { dut := bench.dut.step (bench.inputs start ready)
    offer := bench.offer.advance bench.dut.sAxisTready
    accepted := bench.accepted ++ bench.taken ready }

/-- The bench after `t` edges. -/
def run (bench : Bench) (schedule : Schedule) : Nat → Bench
  | 0 => bench
  | t + 1 => (bench.run schedule t).cycle (schedule.start t) (schedule.ready t)

/-- In the long run the sink accepts `out` and no more. -/
def Delivers (bench : Bench) (schedule : Schedule) (out : List (Byte × Bool)) : Prop :=
  ∃ T, ∀ t, T ≤ t → (bench.run schedule t).accepted = out

/-- Two deliveries of one run are the same. -/
theorem Delivers.unique {bench : Bench} {schedule : Schedule} {left right : List (Byte × Bool)}
    (first : bench.Delivers schedule left) (second : bench.Delivers schedule right) :
    left = right := by
  obtain ⟨T, delivered⟩ := first
  obtain ⟨T', delivered'⟩ := second
  exact (delivered _ (Nat.le_max_left T T')).symm.trans (delivered' _ (Nat.le_max_right T T'))

/-- A bench from a reached machine stays on reached machines. -/
theorem reached_run (bench : Bench) (reached : bench.dut.Reached) (schedule : Schedule) (t : Nat) :
    (bench.run schedule t).dut.Reached := by
  induction t with
  | zero => exact reached
  | succ t ih => exact ih.step _

/-! ### Calm cycles -/

/-- The handshake of a cycle is one the machine serves. In the literal state an offered byte meets a ready
    sink, and no accepted byte stays on the wires through an idle cycle of the source; a match is copied
    into a ready sink; and a byte still on the wires when a state takes the valid wire down is accepted in
    that cycle. -/
def CalmCycle (bench : Bench) (ready : Bool) : Prop :=
  match bench.dut.state with
  | .literal =>
      (bench.offer.valid = true → ready = true) ∧
        (bench.offer ≠ [] → bench.offer.valid = false →
          ¬(bench.dut.mAxisTvalid = true ∧ ready = true))
  | .matchCopy => ready = true
  | .token => bench.dut.mAxisTvalid = true → ready = true
  | .offsetL => bench.dut.mAxisTvalid = true → ready = true
  | .done => bench.dut.mAxisTvalid = true → ready = true
  | _ => True

instance (bench : Bench) (ready : Bool) : Decidable (CalmCycle bench ready) := by
  delta CalmCycle
  cases bench.dut.state <;> exact inferInstance

/-- Every cycle of a run is calm. -/
def CalmRun (bench : Bench) (schedule : Schedule) : Prop :=
  ∀ t, CalmCycle (bench.run schedule t) (schedule.ready t)

/-- The source is back to back, and any wait in front of its first byte falls into a state that has produced
    nothing. -/
inductive Led (bench : Bench) : Prop where
  | prompt (prompt : bench.offer.Prompt)
  | waiting {lead : Nat} {byte : Byte} {rest : Offer} (offer : bench.offer = (lead, byte) :: rest)
      (prompt : rest.Prompt) (early : bench.dut.state = .idle ∨ bench.dut.state = .token)

theorem led_load {dut : Decompressor} (idle : dut.state = .idle) (lead : Nat) (stream : List Byte) :
    Led (load dut (Offer.backToBack lead stream)) := by
  cases stream with
  | nil => exact .prompt fun item member => absurd member List.not_mem_nil
  | cons byte rest => exact .waiting rfl (Offer.prompt_map rest) (Or.inl idle)

theorem Led.cycle {bench : Bench} (led : bench.Led) (start ready : Bool) :
    (bench.cycle start ready).Led := by
  rcases led with prompt | @⟨lead, byte, rest, offer, prompt, early⟩
  · exact .prompt (Offer.prompt_advance prompt _)
  · cases lead with
    | zero =>
        -- The wait is over.
        refine .prompt (Offer.prompt_advance ?_ _)
        rw [offer]
        intro item member
        rcases List.mem_cons.mp member with rfl | behind
        · rfl
        · exact prompt item behind
    | succ lead =>
        refine @Led.waiting _ lead byte rest ?_ prompt ?_
        · rw [Bench.cycle, offer]
          rfl
        · have nothing : (bench.inputs start ready).sAxisTvalid = false := by
            rw [inputs, offer]
            rfl
          rcases early with state | state
          · simp only [Bench.cycle, Decompressor.step, state, Decompressor.stepIdle]
            split
            · exact Or.inr rfl
            · exact Or.inl rfl
          · apply Or.inr
            simp [Bench.cycle, Decompressor.step, state, Decompressor.stepToken,
              Decompressor.transfers, nothing, Decompressor.observeLast]

/-- With a source back to back and a sink that is always ready every cycle is calm. -/
theorem calmRun_of_led {bench : Bench} {schedule : Schedule} (led : bench.Led)
    (ready : ∀ t, schedule.ready t = true) : bench.CalmRun schedule := by
  have ledRun : ∀ t, (bench.run schedule t).Led := by
    intro t
    induction t with
    | zero => exact led
    | succ t ih => exact ih.cycle _ _
  intro t
  rw [ready t, CalmCycle]
  split
  · rename_i state
    refine ⟨fun _ => rfl, fun nonempty idle => ?_⟩
    rcases ledRun t with prompt | ⟨_, _, early⟩
    · rw [Offer.valid_of_prompt prompt nonempty] at idle
      cases idle
    · rw [state] at early
      rcases early with impossible | impossible
      · cases impossible
      · cases impossible
  all_goals first
    | exact fun _ => rfl
    | rfl
    | trivial

/-! ### Still benches -/

/-- Nothing is offered, nothing is on the wires, and the machine waits. -/
structure Still (bench : Bench) : Prop where
  offer : bench.offer = []
  valid : bench.dut.mAxisTvalid = false
  waits : bench.dut.state = .idle ∨ bench.dut.state = .token

/-- A still bench stays still, and nothing more is accepted. -/
theorem Still.cycle {bench : Bench} (still : bench.Still) (start ready : Bool) :
    (bench.cycle start ready).Still ∧ (bench.cycle start ready).accepted = bench.accepted := by
  have accepted : (bench.cycle start ready).accepted = bench.accepted := by
    simp [Bench.cycle, taken, still.valid]
  have offer : (bench.cycle start ready).offer = [] := by
    simp [Bench.cycle, still.offer, Offer.advance]
  refine ⟨⟨offer, ?_, ?_⟩, accepted⟩
  · rcases still.waits with state | state
    · simp only [Bench.cycle, Decompressor.step, state, Decompressor.stepIdle]
      split <;> rfl
    · simp [Bench.cycle, Decompressor.step, state, Decompressor.stepToken, Decompressor.transfers,
        inputs, still.offer, Offer.valid, Decompressor.observeLast]
  · rcases still.waits with state | state
    · simp only [Bench.cycle, Decompressor.step, state, Decompressor.stepIdle]
      split
      · exact Or.inr rfl
      · exact Or.inl rfl
    · apply Or.inr
      simp [Bench.cycle, Decompressor.step, state, Decompressor.stepToken, Decompressor.transfers,
        inputs, still.offer, Offer.valid, Decompressor.observeLast]

/-- From a still bench on everything stays still, and the accepted bytes do not change. -/
theorem Still.run {bench : Bench} {schedule : Schedule} {T : Nat}
    (still : (bench.run schedule T).Still) {t : Nat} (later : T ≤ t) :
    (bench.run schedule t).Still ∧
      (bench.run schedule t).accepted = (bench.run schedule T).accepted := by
  induction later with
  | refl => exact ⟨still, rfl⟩
  | @step t later ih =>
      have next := ih.1.cycle (schedule.start t) (schedule.ready t)
      exact ⟨next.1, next.2.trans ih.2⟩

/-- A run that comes to a still bench has delivered. -/
theorem Still.delivers {bench : Bench} {schedule : Schedule} {T : Nat}
    (still : (bench.run schedule T).Still) :
    bench.Delivers schedule (bench.run schedule T).accepted :=
  ⟨T, fun _ later => (still.run later).2⟩

theorem Still.calm {bench : Bench} (still : bench.Still) (ready : Bool) : bench.CalmCycle ready := by
  rcases still.waits with state | state
  · rw [CalmCycle, state]
    trivial
  · rw [CalmCycle, state]
    intro shown
    rw [still.valid] at shown
    cases shown

/-- A run that is calm until it is still is calm. -/
theorem calmRun_of_still {bench : Bench} {schedule : Schedule} {T : Nat}
    (before : ∀ t, t < T → CalmCycle (bench.run schedule t) (schedule.ready t))
    (still : (bench.run schedule T).Still) : bench.CalmRun schedule := by
  intro t
  rcases Nat.lt_or_ge t T with early | later
  · exact before t early
  · exact (still.run later).1.calm _

end Bench

end Zftl.Rtl
