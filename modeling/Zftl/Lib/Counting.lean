/-
Module: Zftl.Lib.Counting
Layer: Lib
Purpose: Counting the numbers below a bound that satisfy a predicate, on top of `Nat.count`: a count depends on
  the predicate below the bound only, grows by one when the predicate gains one number, and splits along
  a second predicate. A sum below a bound changes by what one of its terms changes by.
Imports: Mathlib.Algebra.BigOperators.Group.Finset.Basic, Mathlib.Data.Nat.Count
Trusted boundary: none
Main exports: count_congr, count_eq_add_one, count_and_add_count_and_not, sum_range_add_of_others
Open obligations: none
-/
import Mathlib.Algebra.BigOperators.Group.Finset.Basic
import Mathlib.Data.Nat.Count

namespace Zftl

variable {P Q : Nat → Prop} [DecidablePred P] [DecidablePred Q] {n : Nat}

theorem count_congr (same : ∀ i, i < n → (P i ↔ Q i)) : Nat.count P n = Nat.count Q n := by
  rw [Nat.count_eq_card_filter_range, Nat.count_eq_card_filter_range]
  congr 1
  exact Finset.filter_congr fun i member => same i (Finset.mem_range.mp member)

/-- A predicate that gains one number below the bound counts one more there. -/
theorem count_eq_add_one {k : Nat} (below : k < n) (gained : Q k) (new : ¬P k)
    (others : ∀ i, i ≠ k → (Q i ↔ P i)) : Nat.count Q n = Nat.count P n + 1 := by
  induction n with
  | zero => exact absurd below (Nat.not_lt_zero k)
  | succ n ih =>
      rw [Nat.count_succ, Nat.count_succ]
      rcases Nat.lt_succ_iff_lt_or_eq.mp below with before | rfl
      · rw [ih before, if_congr (others n (Nat.ne_of_gt before)) rfl rfl]
        omega
      · rw [count_congr fun i before => others i (Nat.ne_of_lt before), if_pos gained, if_neg new]

/-- A count splits along a second predicate. -/
theorem count_and_add_count_and_not :
    Nat.count (fun i => P i ∧ Q i) n + Nat.count (fun i => P i ∧ ¬Q i) n = Nat.count P n := by
  induction n with
  | zero => simp
  | succ n ih =>
      simp only [Nat.count_succ]
      by_cases first : P n <;> by_cases second : Q n <;> simp only [first, second] <;> simp <;> omega

/-- Two sums that differ in one term differ by what the term differs by. -/
theorem sum_range_add_of_others {f g : Nat → Nat} {k : Nat} (below : k < n)
    (others : ∀ i, i ≠ k → g i = f i) :
    ∑ i ∈ Finset.range n, g i + f k = ∑ i ∈ Finset.range n, f i + g k := by
  have member : k ∈ Finset.range n := Finset.mem_range.mpr below
  have rest : ∑ i ∈ (Finset.range n).erase k, g i = ∑ i ∈ (Finset.range n).erase k, f i :=
    Finset.sum_congr rfl fun i other => others i (Finset.ne_of_mem_erase other)
  rw [← Finset.add_sum_erase _ g member, ← Finset.add_sum_erase _ f member, rest]
  omega

end Zftl
