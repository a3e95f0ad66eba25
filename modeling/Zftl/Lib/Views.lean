/-
Module: Zftl.Lib.Views
Layer: Lib
Purpose: Fallible computations observed through a view. Two computations `Agree` if they return values with the
  same view or fault alike; agreement passes through sequencing and loops, and a step that cannot tell a
  state from its view cannot be told by its answers how often the rest of the state has changed: an input
  that leaves the view alone can be taken out of a run, and the answers to the other inputs stay.
Imports: Zftl.Lib.Trace
Trusted boundary: none
Main exports: congr_of_view, Agree, Agree.of_view, Agree.bind, Agree.foldlM, Trace.without, Trace.project
Open obligations: none
-/
import Zftl.Lib.Trace

namespace Zftl

open Fallible

variable {α β γ δ σ τ ι κ ο : Type}

/-- What cannot tell a state from its view cannot tell two states of one view apart. -/
theorem congr_of_view {view : σ → σ} {f : σ → α} (through : ∀ s, f (view s) = f s) {left right : σ}
    (same : view left = view right) : f left = f right :=
  (through left).symm.trans (same ▸ through right)

/-- Two computations that return values with the same view, or fault alike. -/
def Agree (view : α → β) (left right : Except Fault α) : Prop := left.map view = right.map view

namespace Agree

variable {view : α → β} {left right : Except Fault α}

theorem refl (view : α → β) (computed : Except Fault α) : Agree view computed computed := rfl

theorem ok {a b : α} (same : view a = view b) : Agree view (.ok a) (.ok b) := congrArg Except.ok same

/-- A step that cannot tell a state from its view takes two states of one view to results of one view. -/
theorem of_view {view : σ → σ} {view' : α → β} {f : σ → Except Fault α}
    (through : ∀ s, Agree view' (f (view s)) (f s)) {left right : σ} (same : view left = view right) :
    Agree view' (f left) (f right) :=
  congr_of_view (f := fun s => (f s).map view') through same

/-- A value on one side comes with a value of the same view on the other. -/
theorem exists_ok {a : α} (agree : Agree view left right) (returned : left = .ok a) :
    ∃ b, right = .ok b ∧ view b = view a := by
  subst returned
  cases right with
  | error fault => cases agree
  | ok b => exact ⟨b, rfl, (Except.ok.inj agree).symm⟩

/-- Sequencing keeps agreement if the second step goes by the view. -/
theorem bind {view' : γ → δ} {f g : α → Except Fault γ} (agree : Agree view left right)
    (next : ∀ a b, view a = view b → Agree view' (f a) (g b)) :
    Agree view' (left >>= f) (right >>= g) := by
  cases left with
  | error fault =>
      cases right with
      | error other =>
          obtain rfl : fault = other := Except.error.inj agree
          rfl
      | ok b => cases agree
  | ok a =>
      cases right with
      | error other => cases agree
      | ok b => exact next a b (Except.ok.inj agree)

/-- A checked access in front of two steps that agree. -/
theorem check {index size : Nat} {f g : Unit → Except Fault α} (next : Agree view (f ()) (g ())) :
    Agree view (checkIndex index size >>= f) (checkIndex index size >>= g) :=
  (refl id _).bind fun _ _ _ => next

/-- A loop whose body goes by the view goes by the view. -/
theorem foldlM {body : α → ι → Except Fault α}
    (blind : ∀ a b i, view a = view b → Agree view (body a i) (body b i)) (inputs : List ι) {a b : α}
    (same : view a = view b) : Agree view (inputs.foldlM body a) (inputs.foldlM body b) := by
  induction inputs generalizing a b with
  | nil => exact ok same
  | cons i inputs ih =>
      rw [List.foldlM_cons, List.foldlM_cons]
      exact (blind a b i same).bind fun _ _ same' => ih same'

end Agree

/-- Inputs that leave the view alone can be taken out of a run: a machine that goes by the view answers the others
    as before, and ends in a state of the same view. -/
theorem Trace.without {step : σ → ι → Except Fault (σ × ο)} {step' : σ → κ → Except Fault (σ × ο)} {view : σ → τ}
    {kept : ι → Option κ}
    (blind : ∀ s s' i k, kept i = some k → view s = view s' → Agree (Prod.map view id) (step s i) (step' s' k))
    (silent : ∀ s i s' o, kept i = none → step s i = .ok (s', o) → view s' = view s)
    {start state : σ} {events : List (ι × ο)} (trace : Trace step (fun _ _ => True) start events state) :
    ∃ state', Trace step' (fun _ _ => True) start
      (events.filterMap fun event => (kept event.1).map (·, event.2)) state' ∧ view state' = view state := by
  induction trace with
  | nil => exact ⟨start, .nil, rfl⟩
  | @snoc events state state' input output before _ stepped ih =>
      obtain ⟨quiet, trace, same⟩ := ih
      rw [List.filterMap_append]
      cases keeps : kept input with
      | none =>
          refine ⟨quiet, ?_, same.trans (silent _ _ _ _ keeps stepped).symm⟩
          simpa [keeps] using trace
      | some k =>
          obtain ⟨⟨quiet', output'⟩, stepped', same'⟩ := (blind _ _ input k keeps same.symm).exists_ok stepped
          obtain ⟨view', rfl⟩ : view quiet' = view state' ∧ output' = output := Prod.mk.inj same'
          refine ⟨quiet', ?_, view'⟩
          simpa [keeps] using trace.snoc trivial stepped'

/-- A machine that gives away less of its answers has the same runs. -/
theorem Trace.project {step : σ → ι → Except Fault (σ × ο)} {step' : σ → ι → Except Fault (σ × α)} {answer : ο → α}
    (steps : ∀ s i s' o, step s i = .ok (s', o) → step' s i = .ok (s', answer o)) {start state : σ}
    {events : List (ι × ο)} (trace : Trace step (fun _ _ => True) start events state) :
    Trace step' (fun _ _ => True) start (events.map (Prod.map id answer)) state := by
  induction trace with
  | nil => exact .nil
  | snoc before _ stepped ih =>
      rw [List.map_append]
      exact ih.snoc trivial (steps _ _ _ _ stepped)

end Zftl
