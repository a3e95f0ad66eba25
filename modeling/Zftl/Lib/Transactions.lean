/-
Module: Zftl.Lib.Transactions
Layer: Lib
Purpose: Event sequences made of transactions. A component that serves one transaction after the other has shown,
  at any time, the events of whole transactions and the beginning of one more; what the beginning may be depends on
  the state. Each step adds events that either carry the beginning on or finish it.
Imports: Zftl.Lib.Trace
Trusted boundary: none
Main exports: Transactions, Transactions.step, Trace.transactions
Open obligations: none
-/
import Zftl.Lib.Trace

namespace Zftl

variable {τ ε : Type} {Whole : τ → Prop} {shape : τ → List ε} {Begun Begun' : List ε → Prop}

/-- The events are those of whole transactions, one after the other, and a beginning. -/
def Transactions (Whole : τ → Prop) (shape : τ → List ε) (Begun : List ε → Prop) (events : List ε) :
    Prop :=
  ∃ (done : List τ) (rest : List ε), (∀ t ∈ done, Whole t) ∧ Begun rest ∧ events = done.flatMap shape ++ rest

/-- New events carry a beginning on, or they finish a transaction and the next one has not begun. -/
def Continues (Whole : τ → Prop) (shape : τ → List ε) (Begun' : List ε → Prop) (rest new : List ε) :
    Prop :=
  Begun' (rest ++ new) ∨ (∃ t, Whole t ∧ rest ++ new = shape t) ∧ Begun' []

/-- What has begun after the new events. -/
theorem Continues.exists_begun {rest new : List ε} (continues : Continues Whole shape Begun' rest new) :
    ∃ rest', Begun' rest' := by
  cases continues with
  | inl more => exact ⟨_, more⟩
  | inr done => exact ⟨[], done.2⟩

namespace Transactions

theorem start (begun : Begun []) : Transactions Whole shape Begun [] :=
  ⟨[], [], fun _ mem => absurd mem (List.not_mem_nil), begun, rfl⟩

theorem step {events new : List ε} (sofar : Transactions Whole shape Begun events)
    (continues : ∀ rest, Begun rest → Continues Whole shape Begun' rest new) :
    Transactions Whole shape Begun' (events ++ new) := by
  obtain ⟨done, rest, whole, begun, rfl⟩ := sofar
  cases continues rest begun with
  | inl begun' => exact ⟨done, rest ++ new, whole, begun', List.append_assoc _ _ _⟩
  | inr finished =>
      obtain ⟨⟨t, wholeT, same⟩, begun'⟩ := finished
      refine ⟨done ++ [t], [], ?_, begun', ?_⟩
      · intro u mem
        rcases List.mem_append.mp mem with before | last
        · exact whole u before
        · exact List.mem_singleton.mp last ▸ wholeT
      · rw [List.append_assoc, same]
        simp

/-- There is always a beginning, if only an empty one. -/
theorem exists_begun {events : List ε} (sofar : Transactions Whole shape Begun events) : ∃ rest, Begun rest :=
  let ⟨_, rest, _, begun, _⟩ := sofar
  ⟨rest, begun⟩

end Transactions

/-- The rule for runs: where nothing has begun at the start and every step carries on or finishes what has begun, the
    events of a run are transactions. -/
theorem Trace.transactions {σ ι ο : Type} {step : σ → ι → Except Fault (σ × ο)} {Guard : σ → ι → Prop}
    {start state : σ} {events : List (ι × ο)} (trace : Trace step Guard start events state)
    (shown : ο → List ε) (Begun : σ → List ε → Prop) (init : Begun start [])
    (steps : ∀ state input state' output rest, Begun state rest → Guard state input →
      step state input = .ok (state', output) → Continues Whole shape (Begun state') rest (shown output)) :
    Transactions Whole shape (Begun state) (events.flatMap fun event => shown event.2) := by
  refine trace.invariant
    (fun events state => Transactions Whole shape (Begun state) (events.flatMap fun event => shown event.2))
    (.start init) ?_
  intro events state input state' output sofar guarded stepped
  rw [List.flatMap_append, List.flatMap_singleton]
  exact sofar.step fun rest begun => steps state input state' output rest begun guarded stepped

end Zftl
