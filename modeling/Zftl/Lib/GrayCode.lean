/-
Module: Zftl.Lib.GrayCode
Layer: Lib
Purpose: Binary reflected Gray codes of bit vectors. A word and its successor have different codes, and adding half
  the range inverts the two top bits of the code.
Imports: Mathlib.Algebra.Ring.Nat, Mathlib.Tactic.Common
Trusted boundary: none
Main exports: gray, getLsbD_gray, gray_injective, getLsbD_gray_add_half
Open obligations: none
-/
import Mathlib.Algebra.Ring.Nat
import Mathlib.Tactic.Common

namespace Zftl

/-- The Gray code of a word. -/
def gray {w : Nat} (x : BitVec w) : BitVec w := (x >>> 1) ^^^ x

namespace GrayCode

variable {w : Nat}

theorem getLsbD_gray (x : BitVec w) (i : Nat) :
    (gray x).getLsbD i = (x.getLsbD (i + 1) ^^ x.getLsbD i) := by
  simp [gray, Nat.add_comm 1 i]

/-- Words with the same code are the same: their bits agree from the top down. -/
theorem gray_injective {x y : BitVec w} (same : gray x = gray y) : x = y := by
  have fromTop : ∀ k i, w ≤ i + k → x.getLsbD i = y.getLsbD i := by
    intro k
    induction k with
    | zero =>
        intro i beyond
        rw [BitVec.getLsbD_of_ge x i beyond, BitVec.getLsbD_of_ge y i beyond]
    | succ k ih =>
        intro i beyond
        have bit := congrArg (BitVec.getLsbD · i) same
        simp only [getLsbD_gray, ih (i + 1) (by omega)] at bit
        exact Bool.xor_right_inj.mp bit
  exact BitVec.eq_of_getLsbD_eq fun i _ => fromTop w i (by omega)

/-- A word of at least one bit is not its successor. -/
theorem ne_add_one (x : BitVec (w + 1)) : x ≠ x + 1 := by
  intro same
  have bit := congrArg (BitVec.getLsbD · 0) (BitVec.self_eq_add_right.mp same)
  simp at bit

/-- The bits of the code of a number half the range further on: the two top bits are inverted. -/
theorem getLsbD_gray_add_half (n i : Nat) :
    (gray (BitVec.ofNat (w + 1) (n + 2 ^ w))).getLsbD i =
      ((gray (BitVec.ofNat (w + 1) n)).getLsbD i ^^ decide (i = w ∨ i + 1 = w)) := by
  have bit : ∀ j, (BitVec.ofNat (w + 1) (n + 2 ^ w)).getLsbD j =
      ((BitVec.ofNat (w + 1) n).getLsbD j ^^ decide (j = w)) := by
    intro j
    rw [BitVec.getLsbD_ofNat, BitVec.getLsbD_ofNat, Nat.add_comm n]
    rcases Nat.lt_trichotomy j w with below | rfl | above
    · have inside : j ≠ w := by omega
      simp [Nat.testBit_two_pow_add_gt below, inside]
    · simp [Nat.testBit_two_pow_add_eq]
    · have outside : ¬j < w + 1 := by omega
      have other : j ≠ w := by omega
      simp [outside, other]
  rw [getLsbD_gray, getLsbD_gray, bit, bit]
  by_cases top : i = w
  · have other : i + 1 ≠ w := by omega
    simp [top]
  · by_cases second : i + 1 = w <;> simp [top, second]

end GrayCode

end Zftl
