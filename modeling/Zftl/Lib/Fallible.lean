/-
Module: Zftl.Lib.Fallible
Layer: Lib
Purpose: Computations that may leave the bounds of a fixed-size object. A C or C++ program that indexes a
  vector without a check has undefined behaviour when the index is out of range; here such an access is a
  checked one that returns a `Fault`. The module gives the checked access, the inversion of a sequence of
  fallible steps, and the invariant rules for a counted loop.
Imports: Mathlib.Data.List.Basic, Mathlib.Tactic.Common
Trusted boundary: none
Main exports: Fault, checkIndex, bind_eq_ok, test, foldlM_range_invariant, foldlM_range_total
Open obligations: none
-/
import Mathlib.Data.List.Basic
import Mathlib.Tactic.Common

namespace Zftl

/-- What an unchecked access of the source does instead of returning a value. -/
inductive Fault where
  | outOfBounds
deriving Repr, Inhabited, DecidableEq

/-- The bounds check that stands for `v[index]` on a vector of `size` elements. -/
def checkIndex (index size : Nat) : Except Fault Unit :=
  if index < size then .ok () else .error .outOfBounds

@[simp] theorem checkIndex_eq_ok {index size : Nat} :
    checkIndex index size = .ok () ↔ index < size := by
  simp [checkIndex]

theorem checkIndex_of_lt {index size : Nat} (inside : index < size) :
    checkIndex index size = .ok () :=
  checkIndex_eq_ok.mpr inside

namespace Fallible

variable {α β σ : Type}

theorem ok_eq_ok {value result : α} :
    (Except.ok value : Except Fault α) = .ok result ↔ result = value :=
  ⟨fun same => (Except.ok.inj same).symm, fun same => same ▸ rfl⟩

theorem ok_bind (value : α) (next : α → Except Fault β) :
    ((Except.ok value : Except Fault α) >>= next) = next value := rfl

/-- A property of the value of a fallible computation, if it returns one. -/
instance decidableForallOk {computed : Except Fault α} {P : α → Prop} [DecidablePred P] :
    Decidable (∀ value, computed = .ok value → P value) :=
  match computed with
  | .ok value => decidable_of_iff (P value) ⟨fun holds _ same => Except.ok.inj same ▸ holds, fun all => all _ rfl⟩
  | .error _ => .isTrue fun _ same => nomatch same

/-- A sequence of two fallible steps returns only if both do. -/
theorem bind_eq_ok {first : Except Fault α} {next : α → Except Fault β} {result : β} :
    (first >>= next) = .ok result ↔ ∃ value, first = .ok value ∧ next value = .ok result := by
  cases first with
  | error fault => simp [bind, Except.bind]
  | ok value => simp [bind, Except.bind]

/-- A checked access followed by a step returns only inside the bounds. -/
theorem check_bind_eq_ok {index size : Nat} {next : Unit → Except Fault β} {result : β} :
    (checkIndex index size >>= next) = .ok result ↔ index < size ∧ next () = .ok result := by
  rw [bind_eq_ok]
  constructor
  · rintro ⟨⟨⟩, checked, returned⟩
    exact ⟨checkIndex_eq_ok.mp checked, returned⟩
  · rintro ⟨inside, returned⟩
    exact ⟨(), checkIndex_of_lt inside, returned⟩

/-- Check the value of a fallible computation; a fault fails the check. -/
def test (computed : Except Fault α) (check : α → Bool) : Bool :=
  match computed with
  | .ok value => check value
  | .error _ => false

theorem exists_of_test {computed : Except Fault α} {check : α → Bool}
    (passed : test computed check = true) : ∃ value, computed = .ok value ∧ check value = true := by
  cases computed with
  | error fault => cases passed
  | ok value => exact ⟨value, rfl, passed⟩

/-- Partial correctness of a counted loop: what holds initially and is kept by every returning iteration
    holds of the value a returning loop ends with. -/
theorem foldlM_range_invariant {body : σ → Nat → Except Fault σ} {start final : σ} {count : Nat}
    (Inv : Nat → σ → Prop) (init : Inv 0 start)
    (keeps : ∀ i s s', i < count → Inv i s → body s i = .ok s' → Inv (i + 1) s')
    (returned : (List.range count).foldlM body start = .ok final) :
    Inv count final := by
  induction count generalizing final with
  | zero =>
      cases returned
      exact init
  | succ count ih =>
      rw [List.range_succ, List.foldlM_append] at returned
      obtain ⟨middle, prefixReturned, lastReturned⟩ := bind_eq_ok.mp returned
      have prefixInv : Inv count middle :=
        ih (fun i s s' below => keeps i s s' (by omega)) prefixReturned
      simp only [List.foldlM_cons, List.foldlM_nil] at lastReturned
      obtain ⟨last, stepped, lastEq⟩ := bind_eq_ok.mp lastReturned
      obtain rfl : last = final := Except.ok.inj lastEq
      exact keeps count middle last (by omega) prefixInv stepped

/-- Total correctness of a counted loop: if the invariant also makes every iteration return, so does the
    loop. -/
theorem foldlM_range_total (body : σ → Nat → Except Fault σ) (start : σ) (count : Nat)
    (Inv : Nat → σ → Prop) (init : Inv 0 start)
    (steps : ∀ i s, i < count → Inv i s → ∃ s', body s i = .ok s' ∧ Inv (i + 1) s') :
    ∃ final, (List.range count).foldlM body start = .ok final ∧ Inv count final := by
  induction count with
  | zero => exact ⟨start, rfl, init⟩
  | succ count ih =>
      obtain ⟨middle, prefixReturned, prefixInv⟩ := ih (fun i s below => steps i s (by omega))
      obtain ⟨last, stepped, lastInv⟩ := steps count middle (by omega) prefixInv
      refine ⟨last, ?_, lastInv⟩
      rw [List.range_succ, List.foldlM_append]
      refine bind_eq_ok.mpr ⟨middle, prefixReturned, ?_⟩
      simp only [List.foldlM_cons, List.foldlM_nil]
      exact bind_eq_ok.mpr ⟨last, stepped, rfl⟩

end Fallible

end Zftl
