/-
Module: Zftl.Lib.Trace
Layer: Lib
Purpose: Runs of a fallible machine. A machine takes an input, answers with an output, and may fault; a
  `Trace` is a run from a fixed start state that records every input with its output. A trace carries a
  side condition on each step, so one relation serves both for all runs (`Reachable`) and for the runs
  whose steps avoid a given situation. Invariants are proved once per machine by `Trace.invariant`.
Imports: Mathlib.Data.List.Induction, Zftl.Lib.Fallible
Trusted boundary: none
Main exports: Trace, Reachable, Trace.invariant, Trace.exists_of_total, Reachable.invariant, execute,
  Trace.execute, follow, Trace.follow, exists_done
Open obligations: none
-/
import Mathlib.Data.List.Induction
import Zftl.Lib.Fallible

namespace Zftl

variable {σ ι ο : Type}

/-- The runs of `step` from `start` whose steps all satisfy `Guard`, with the inputs taken and the outputs
    given in order. -/
inductive Trace (step : σ → ι → Except Fault (σ × ο)) (Guard : σ → ι → Prop) (start : σ) :
    List (ι × ο) → σ → Prop where
  | nil : Trace step Guard start [] start
  | snoc {events : List (ι × ο)} {state state' : σ} {input : ι} {output : ο}
      (before : Trace step Guard start events state) (guarded : Guard state input)
      (stepped : step state input = .ok (state', output)) :
      Trace step Guard start (events ++ [(input, output)]) state'

/-- The states of the unrestricted runs. -/
def Reachable (step : σ → ι → Except Fault (σ × ο)) (start state : σ) : Prop :=
  ∃ events, Trace step (fun _ _ => True) start events state

variable {step : σ → ι → Except Fault (σ × ο)} {Guard : σ → ι → Prop} {start state : σ}
  {events : List (ι × ο)}

namespace Trace

/-- The invariant rule: what holds at the start and is kept by every guarded step holds at the end of every
    guarded run. The invariant may speak of the events so far. -/
theorem invariant (trace : Trace step Guard start events state)
    (Inv : List (ι × ο) → σ → Prop) (init : Inv [] start)
    (keeps : ∀ events state input state' output, Inv events state → Guard state input →
      step state input = .ok (state', output) → Inv (events ++ [(input, output)]) state') :
    Inv events state := by
  induction trace with
  | nil => exact init
  | snoc before guarded stepped ih => exact keeps _ _ _ _ _ ih guarded stepped

/-- If an invariant makes every input return, every list of inputs has a run. -/
theorem exists_of_total (Inv : σ → Prop) (init : Inv start)
    (steps : ∀ state input, Inv state →
      ∃ state' output, step state input = .ok (state', output) ∧ Inv state') (inputs : List ι) :
    ∃ events state, Trace step (fun _ _ => True) start events state ∧
      events.map Prod.fst = inputs ∧ Inv state := by
  induction inputs using List.reverseRecOn with
  | nil => exact ⟨[], start, .nil, rfl, init⟩
  | append_singleton inputs input ih =>
      obtain ⟨events, state, trace, recorded, inv⟩ := ih
      obtain ⟨state', output, stepped, inv'⟩ := steps state input inv
      exact ⟨_, state', trace.snoc trivial stepped, by simp [recorded], inv'⟩

end Trace

/-- Execute a list of inputs on top of a run, as long as every step is allowed and returns. -/
def execute (step : σ → ι → Except Fault (σ × ο)) (Guard : σ → ι → Prop)
    [∀ state input, Decidable (Guard state input)] (inputs : List ι) (run : List (ι × ο) × σ) :
    Option (List (ι × ο) × σ) :=
  inputs.foldlM
    (fun run input =>
      if Guard run.2 input then
        match step run.2 input with
        | .ok (state, output) => some (run.1 ++ [(input, output)], state)
        | .error _ => none
      else none) run

/-- What is executed on top of a run extends it by the inputs. -/
theorem Trace.execute_inputs [∀ state input, Decidable (Guard state input)] {inputs : List ι}
    {events' : List (ι × ο)} {state' : σ} (trace : Trace step Guard start events state)
    (executed : Zftl.execute step Guard inputs (events, state) = some (events', state')) :
    Trace step Guard start events' state' ∧
      events'.map Prod.fst = events.map Prod.fst ++ inputs := by
  induction inputs generalizing events state with
  | nil =>
      cases executed
      exact ⟨trace, (List.append_nil _).symm⟩
  | cons input inputs ih =>
      simp only [Zftl.execute, List.foldlM_cons, Option.bind_eq_bind, Option.bind_eq_some_iff]
        at executed
      obtain ⟨⟨events₁, state₁⟩, first, rest⟩ := executed
      by_cases guarded : Guard state input
      · rw [if_pos guarded] at first
        cases stepped : step state input with
        | error fault =>
            rw [stepped] at first
            cases first
        | ok result =>
            rw [stepped] at first
            cases first
            obtain ⟨extended, recorded⟩ := ih (trace.snoc guarded stepped) rest
            exact ⟨extended, by simpa using recorded⟩
      · rw [if_neg guarded] at first
        cases first

/-- What is executed on top of a run extends it. -/
theorem Trace.execute [∀ state input, Decidable (Guard state input)] {inputs : List ι}
    {events' : List (ι × ο)} {state' : σ} (trace : Trace step Guard start events state)
    (executed : Zftl.execute step Guard inputs (events, state) = some (events', state')) :
    Trace step Guard start events' state' :=
  (trace.execute_inputs executed).1

/-- The run of a machine that never faults: the events and the state after the inputs. -/
def follow (next : σ → ι → σ × ο) (start : σ) (inputs : List ι) : List (ι × ο) × σ :=
  inputs.foldl
    (fun run input => (run.1 ++ [(input, (next run.2 input).2)], (next run.2 input).1)) ([], start)

theorem Trace.follow {next : σ → ι → σ × ο} (total : ∀ state input, step state input = .ok (next state input))
    (start : σ) (inputs : List ι) :
    Trace step (fun _ _ => True) start (Zftl.follow next start inputs).1 (Zftl.follow next start inputs).2 := by
  induction inputs using List.reverseRecOn with
  | nil => exact .nil
  | append_singleton inputs input ih =>
      rw [Zftl.follow, List.foldl_append]
      exact ih.snoc trivial (total _ _)

/-- The progress rule: where every good input leaves less work while there is any, good inputs, as many as there is
    work, reach a state with none. -/
theorem exists_done {next : σ → ι → σ} (Inv : σ → Prop) (Good : ι → Prop) (work : σ → Nat)
    (keeps : ∀ state input, Inv state → Inv (next state input))
    (falls : ∀ state input, Inv state → Good input → work state ≠ 0 → work (next state input) < work state)
    (state : σ) (inv : Inv state) (inputs : List ι) (good : ∀ input ∈ inputs, Good input)
    (enough : work state ≤ inputs.length) :
    ∃ k, k ≤ work state ∧ Inv ((inputs.take k).foldl next state) ∧ work ((inputs.take k).foldl next state) = 0 := by
  induction inputs generalizing state with
  | nil => exact ⟨0, Nat.zero_le _, inv, Nat.le_zero.mp enough⟩
  | cons input inputs ih =>
      by_cases none : work state = 0
      · exact ⟨0, Nat.zero_le _, inv, none⟩
      · have less := falls state input inv (good input List.mem_cons_self) none
        rw [List.length_cons] at enough
        obtain ⟨k, bound, inv', done⟩ := ih (next state input) (keeps state input inv)
          (fun other mem => good other (List.mem_cons_of_mem _ mem)) (by omega)
        exact ⟨k + 1, by omega, inv', done⟩

/-- The invariant rule for reachable states. -/
theorem Reachable.invariant (reachable : Reachable step start state) (Inv : σ → Prop)
    (init : Inv start)
    (keeps : ∀ state input state' output, Inv state →
      step state input = .ok (state', output) → Inv state') : Inv state := by
  obtain ⟨events, trace⟩ := reachable
  exact trace.invariant (fun _ state => Inv state) init
    fun _ state input state' output inv _ stepped => keeps state input state' output inv stepped

end Zftl
