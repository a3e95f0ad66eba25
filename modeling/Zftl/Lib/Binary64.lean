/-
Module: Zftl.Lib.Binary64
Layer: Lib
Purpose: Double-precision arithmetic. A finite double is an integer of at most 53 bits times a power of two; the result
  of an operation is the exact rational result rounded to the nearest double, and to the even one of two.
  Rounding is monotone, keeps what is a double already, and moves a number by half a unit in its last place at
  most. Overflow, division by zero, infinities and signed zeros are left out.
Imports: Mathlib.Algebra.Order.Field.Rat, Mathlib.Algebra.Order.Round, Mathlib.Data.Int.Log, Mathlib.Data.Rat.Floor,
  Mathlib.Tactic.FieldSimp, Mathlib.Tactic.Linarith, Mathlib.Tactic.NormNum.Pow
Trusted boundary: none
Main exports: roundToEven, ulp, Binary64, Binary64.nearest, nearest_mono, nearest_eq, abs_nearest_sub_le
Open obligations: none
-/
import Mathlib.Algebra.Order.Field.Rat
import Mathlib.Algebra.Order.Round
import Mathlib.Data.Int.Log
import Mathlib.Data.Rat.Floor
import Mathlib.Tactic.FieldSimp
import Mathlib.Tactic.Linarith
import Mathlib.Tactic.NormNum.Pow

namespace Zftl

/-! ### Rounding to an integer -/

/-- The integer nearest to `x`; of two, the even one. -/
def roundToEven (x : ℚ) : ℤ :=
  if Int.fract x < 1 / 2 ∨ (Int.fract x = 1 / 2 ∧ ⌊x⌋ % 2 = 0) then ⌊x⌋ else ⌊x⌋ + 1

theorem floor_le_roundToEven (x : ℚ) : ⌊x⌋ ≤ roundToEven x := by
  rw [roundToEven]
  split <;> omega

theorem roundToEven_le_floor_add_one (x : ℚ) : roundToEven x ≤ ⌊x⌋ + 1 := by
  rw [roundToEven]
  split <;> omega

theorem roundToEven_intCast (n : ℤ) : roundToEven n = n := by
  rw [roundToEven, Int.fract_intCast, if_pos (Or.inl (by norm_num)), Int.floor_intCast]

theorem roundToEven_mono {x y : ℚ} (le : x ≤ y) : roundToEven x ≤ roundToEven y := by
  rcases (Int.floor_mono le).lt_or_eq with less | same
  · calc roundToEven x ≤ ⌊x⌋ + 1 := roundToEven_le_floor_add_one x
      _ ≤ ⌊y⌋ := less
      _ ≤ roundToEven y := floor_le_roundToEven y
  · have part : Int.fract x ≤ Int.fract y := by
      rw [Int.fract, Int.fract, same]
      exact sub_le_sub_right le _
    rw [roundToEven, roundToEven, same]
    split
    · split <;> omega
    · next up =>
      rw [if_neg]
      rintro (below | ⟨half, even⟩)
      · exact up (Or.inl (lt_of_le_of_lt part below))
      · rcases (half ▸ part).lt_or_eq with below | tie
        · exact up (Or.inl below)
        · exact up (Or.inr ⟨tie, even⟩)

theorem roundToEven_le {x : ℚ} {n : ℤ} (le : x ≤ n) : roundToEven x ≤ n :=
  (roundToEven_mono le).trans_eq (roundToEven_intCast n)

theorem le_roundToEven {x : ℚ} {n : ℤ} (le : (n : ℚ) ≤ x) : n ≤ roundToEven x :=
  (roundToEven_intCast n).symm.trans_le (roundToEven_mono le)

theorem abs_roundToEven_sub_le (x : ℚ) : |(roundToEven x : ℚ) - x| ≤ 1 / 2 := by
  have whole := Int.floor_add_fract x
  have small := Int.fract_lt_one x
  have notNegative := Int.fract_nonneg x
  rw [roundToEven]
  split
  · next down =>
    have half : Int.fract x ≤ 1 / 2 := by
      rcases down with below | ⟨tie, -⟩
      · exact le_of_lt below
      · exact le_of_eq tie
    rw [abs_le]
    constructor <;> linarith
  · next up =>
    have half : 1 / 2 ≤ Int.fract x := not_lt.mp fun below => up (Or.inl below)
    rw [abs_le]
    push_cast
    constructor <;> linarith

/-! ### The last place -/

/-- The exponent of the last place of a double of the size of `x`. Subnormal numbers share the least one. -/
def lastPlace (x : ℚ) : ℤ := max (Int.log 2 |x|) (-1022) - 52

/-- The unit in the last place. -/
def ulp (x : ℚ) : ℚ := 2 ^ lastPlace x

theorem ulp_pos (x : ℚ) : 0 < ulp x := zpow_pos two_pos _

theorem lastPlace_mono {x y : ℚ} (pos : 0 < x) (le : x ≤ y) : lastPlace x ≤ lastPlace y := by
  have log : Int.log 2 |x| ≤ Int.log 2 |y| := by
    rw [abs_of_pos pos, abs_of_pos (pos.trans_le le)]
    exact Int.log_mono_right pos le
  rw [lastPlace, lastPlace]
  omega

/-- A number below a power of two has its last place 53 binary places further down. -/
theorem lastPlace_le {x : ℚ} {k : ℤ} (some_number : x ≠ 0) (small : |x| < 2 ^ (k + 53)) (least : -1074 ≤ k) :
    lastPlace x ≤ k := by
  have log : Int.log 2 |x| < k + 53 :=
    (Int.lt_zpow_iff_log_lt one_lt_two (abs_pos.mpr some_number)).mp (by exact_mod_cast small)
  rw [lastPlace]
  omega

/-- Nothing is larger than 53 binary places of its last place. -/
theorem abs_lt_ulp (x : ℚ) : |x| < 2 ^ (lastPlace x + 53) := by
  calc |x| < 2 ^ (Int.log 2 |x| + 1) := by exact_mod_cast Int.lt_zpow_succ_log_self one_lt_two |x|
    _ ≤ 2 ^ (lastPlace x + 53) := zpow_le_zpow_right₀ one_le_two (by rw [lastPlace]; omega)

theorem ulp_of_le {k n : ℤ} (le : k ≤ n) : (2 : ℚ) ^ n / 2 ^ k = ((2 ^ (n - k).toNat : ℤ) : ℚ) := by
  rw [← zpow_sub₀ two_ne_zero]
  conv_lhs => rw [← Int.toNat_of_nonneg (Int.sub_nonneg_of_le le), zpow_natCast]
  push_cast
  rfl

/-! ### Doubles -/

/-- A finite double: a significand of 53 bits and an exponent. -/
structure Binary64 where
  value : ℚ
  representable : ∃ m k : ℤ, |m| < 2 ^ 53 ∧ -1074 ≤ k ∧ value = m * 2 ^ k

theorem representable_of_le {m k : ℤ} (bits : |m| ≤ 2 ^ 53) (least : -1074 ≤ k) :
    ∃ m' k' : ℤ, |m'| < 2 ^ 53 ∧ -1074 ≤ k' ∧ (m * 2 ^ k : ℚ) = m' * 2 ^ k' := by
  rcases bits.lt_or_eq with fits | carry
  · exact ⟨m, k, fits, least, rfl⟩
  · -- a carry out of the significand: the last bit is zero and moves into the exponent
    have half : 2 * (m / 2) = m := by
      rcases abs_eq_abs.mp (carry.trans (abs_of_pos (by norm_num : (0 : ℤ) < 2 ^ 53)).symm) with rfl | rfl <;>
        norm_num
    refine ⟨m / 2, k + 1, ?_, by omega, ?_⟩
    · rw [abs_lt]
      rw [abs_eq (by norm_num)] at carry
      omega
    · have half' : 2 * ((m / 2 : ℤ) : ℚ) = m := by exact_mod_cast congrArg (Int.cast : ℤ → ℚ) half
      rw [zpow_add_one₀ two_ne_zero, ← half']
      ring

theorem abs_roundToEven_div_ulp_le (x : ℚ) : |roundToEven (x / ulp x)| ≤ 2 ^ 53 := by
  have small : |x / ulp x| ≤ ((2 ^ 53 : ℤ) : ℚ) := by
    rw [abs_div, abs_of_pos (ulp_pos x), div_le_iff₀ (ulp_pos x), ulp]
    refine le_of_lt ((abs_lt_ulp x).trans_eq ?_)
    rw [zpow_add₀ two_ne_zero, mul_comm]
    push_cast
    rfl
  rw [abs_le] at small ⊢
  refine ⟨le_roundToEven ?_, roundToEven_le small.2⟩
  exact_mod_cast small.1

namespace Binary64

/-- The double nearest to `x`. -/
def nearest (x : ℚ) : Binary64 :=
  { value := roundToEven (x / ulp x) * ulp x
    representable := representable_of_le (abs_roundToEven_div_ulp_le x) (by rw [lastPlace]; omega) }

/-- `static_cast<double>` of an integer. -/
def ofNat (n : Nat) : Binary64 := nearest n

instance : Sub Binary64 := ⟨fun a b => nearest (a.value - b.value)⟩
instance : Mul Binary64 := ⟨fun a b => nearest (a.value * b.value)⟩
instance : Div Binary64 := ⟨fun a b => nearest (a.value / b.value)⟩

theorem sub_value (a b : Binary64) : (a - b).value = (nearest (a.value - b.value)).value := rfl
theorem mul_value (a b : Binary64) : (a * b).value = (nearest (a.value * b.value)).value := rfl
theorem div_value (a b : Binary64) : (a / b).value = (nearest (a.value / b.value)).value := rfl

/-- A number that is a double is not rounded. -/
theorem nearest_eq (a : Binary64) : (nearest a.value).value = a.value := by
  obtain ⟨x, m, k, bits, least, rfl⟩ := a
  change (roundToEven _ : ℚ) * _ = _
  by_cases zero : m = 0
  · simp [zero, roundToEven]
  · have place : lastPlace (m * 2 ^ k) ≤ k := by
      refine lastPlace_le (mul_ne_zero (Int.cast_ne_zero.mpr zero) (zpow_ne_zero _ two_ne_zero)) ?_ least
      have bits' : |(m : ℚ)| < 2 ^ (53 : ℤ) := by exact_mod_cast bits
      rw [abs_mul, abs_of_pos (zpow_pos two_pos k : (0 : ℚ) < 2 ^ k), zpow_add₀ two_ne_zero, mul_comm]
      exact mul_lt_mul_of_pos_left bits' (zpow_pos two_pos k)
    have whole : (m * 2 ^ k : ℚ) / ulp (m * 2 ^ k) =
        ((m * 2 ^ (k - lastPlace (m * 2 ^ k)).toNat : ℤ) : ℚ) := by
      rw [ulp, mul_div_assoc, ulp_of_le place]
      push_cast
      rfl
    rw [whole, roundToEven_intCast, ← whole, div_mul_cancel₀ _ (ulp_pos _).ne']

/-- Integers of 53 bits times a power of two are doubles. -/
theorem nearest_mul_zpow {m k : ℤ} (bits : |m| ≤ 2 ^ 53) (least : -1074 ≤ k) :
    (nearest (m * 2 ^ k)).value = m * 2 ^ k :=
  nearest_eq ⟨m * 2 ^ k, representable_of_le bits least⟩

theorem nearest_intCast {n : ℤ} (bits : |n| ≤ 2 ^ 53) : (nearest n).value = n := by
  have kept := nearest_mul_zpow bits (k := 0) (by norm_num)
  rwa [zpow_zero, mul_one] at kept

theorem ofNat_value {n : Nat} (bits : n ≤ 2 ^ 53) : (ofNat n).value = n :=
  nearest_intCast (n := n) (by rw [Nat.abs_cast]; exact_mod_cast bits)

theorem nearest_zero : (nearest 0).value = 0 := by exact_mod_cast nearest_intCast (n := 0) (by norm_num)

theorem nearest_one : (nearest 1).value = 1 := by exact_mod_cast nearest_intCast (n := 1) (by norm_num)

@[simp] theorem ofNat_zero : (ofNat 0).value = 0 := by exact_mod_cast nearest_zero

@[simp] theorem ofNat_one : (ofNat 1).value = 1 := by exact_mod_cast nearest_one

/-- A multiple of a power of two is a double if the factor has at most 53 bits. -/
theorem ofNat_mul_two_pow {n e : Nat} (bits : n ≤ 2 ^ 53) : (ofNat (n * 2 ^ e)).value = n * 2 ^ e := by
  have kept := nearest_mul_zpow (m := n) (k := e) (by rw [Nat.abs_cast]; exact_mod_cast bits) (by omega)
  rw [Int.cast_natCast, zpow_natCast] at kept
  rw [ofNat, Nat.cast_mul, Nat.cast_pow, Nat.cast_ofNat, kept]

/-! ### Order and error -/

theorem multiple_of_ulp {x : ℚ} {k : ℤ} (place : lastPlace x ≤ k) : ∃ n : ℤ, (2 ^ k : ℚ) = n * ulp x :=
  ⟨2 ^ (k - lastPlace x).toNat, by rw [← ulp_of_le place, ulp, div_mul_cancel₀ _ (zpow_pos two_pos _).ne']⟩

/-- Rounding does not pass a multiple of the last place. -/
theorem nearest_le {x a : ℚ} {n : ℤ} (multiple : a = n * ulp x) (le : x ≤ a) : (nearest x).value ≤ a := by
  rw [multiple] at le ⊢
  have bound : roundToEven (x / ulp x) ≤ n := roundToEven_le ((div_le_iff₀ (ulp_pos x)).mpr le)
  exact mul_le_mul_of_nonneg_right (Int.cast_le.mpr bound) (ulp_pos x).le

theorem le_nearest {x a : ℚ} {n : ℤ} (multiple : a = n * ulp x) (le : a ≤ x) : a ≤ (nearest x).value := by
  rw [multiple] at le ⊢
  have bound : n ≤ roundToEven (x / ulp x) := le_roundToEven ((le_div_iff₀ (ulp_pos x)).mpr le)
  exact mul_le_mul_of_nonneg_right (Int.cast_le.mpr bound) (ulp_pos x).le

theorem nearest_nonneg {x : ℚ} (nonneg : 0 ≤ x) : 0 ≤ (nearest x).value :=
  le_nearest (n := 0) (by simp) nonneg

/-- Rounding keeps the order. Where `y` has a larger last place than `x`, there is a power of two between them, and
    it is a multiple of both last places. -/
theorem nearest_mono {x y : ℚ} (nonneg : 0 ≤ x) (le : x ≤ y) : (nearest x).value ≤ (nearest y).value := by
  rcases nonneg.eq_or_lt with rfl | pos
  · rw [nearest_zero]
    exact nearest_nonneg le
  rcases (lastPlace_mono pos le).eq_or_lt with same | smaller
  · have unit : ulp x = ulp y := by rw [ulp, ulp, same]
    change (roundToEven _ : ℚ) * _ ≤ (roundToEven _ : ℚ) * _
    rw [unit]
    refine mul_le_mul_of_nonneg_right (Int.cast_le.mpr (roundToEven_mono ?_)) (ulp_pos y).le
    exact div_le_div_of_nonneg_right le (ulp_pos y).le
  · have below : x ≤ 2 ^ (lastPlace y + 52) :=
      calc x = |x| := (abs_of_pos pos).symm
        _ ≤ 2 ^ (lastPlace x + 53) := (abs_lt_ulp x).le
        _ ≤ 2 ^ (lastPlace y + 52) := zpow_le_zpow_right₀ one_le_two (by omega)
    have above : (2 : ℚ) ^ (lastPlace y + 52) ≤ y := by
      have normal : lastPlace y + 52 = Int.log 2 |y| := by
        rw [lastPlace, lastPlace] at smaller
        rw [lastPlace]
        omega
      rw [normal, abs_of_pos (pos.trans_le le)]
      exact_mod_cast Int.zpow_log_le_self one_lt_two (pos.trans_le le)
    obtain ⟨n, ofX⟩ := multiple_of_ulp (x := x) (k := lastPlace y + 52) (by omega)
    obtain ⟨m, ofY⟩ := multiple_of_ulp (x := y) (k := lastPlace y + 52) (by omega)
    exact (nearest_le ofX below).trans (le_nearest ofY above)

theorem nearest_le_one {x : ℚ} (nonneg : 0 ≤ x) (le : x ≤ 1) : (nearest x).value ≤ 1 :=
  (nearest_mono nonneg le).trans_eq nearest_one

theorem one_le_nearest {x : ℚ} (le : 1 ≤ x) : 1 ≤ (nearest x).value :=
  nearest_one.symm.trans_le (nearest_mono zero_le_one le)

theorem ofNat_mono {m n : Nat} (le : m ≤ n) : (ofNat m).value ≤ (ofNat n).value :=
  nearest_mono (Nat.cast_nonneg m) (Nat.cast_le.mpr le)

theorem ofNat_nonneg (n : Nat) : 0 ≤ (ofNat n).value := nearest_nonneg (Nat.cast_nonneg n)

theorem ofNat_pos {n : Nat} (pos : 0 < n) : 0 < (ofNat n).value :=
  zero_lt_one.trans_le (one_le_nearest (by exact_mod_cast pos))

/-- The rounded quotient of two integers, the first at most the second. -/
theorem ofNat_div_le_one {m n : Nat} (le : m ≤ n) : (ofNat m / ofNat n).value ≤ 1 :=
  nearest_le_one (div_nonneg (ofNat_nonneg m) (ofNat_nonneg n)) (div_le_one_of_le₀ (ofNat_mono le) (ofNat_nonneg n))

theorem one_le_ofNat_div {m n : Nat} (pos : 0 < m) (le : m ≤ n) : 1 ≤ (ofNat n / ofNat m).value :=
  one_le_nearest ((one_le_div (ofNat_pos pos)).mpr (ofNat_mono le))

theorem ofNat_div_mono {m n : Nat} (le : m ≤ n) (d : Nat) : (ofNat m / ofNat d).value ≤ (ofNat n / ofNat d).value :=
  nearest_mono (div_nonneg (ofNat_nonneg m) (ofNat_nonneg d))
    (div_le_div_of_nonneg_right (ofNat_mono le) (ofNat_nonneg d))

/-- Rounding moves a number by half a unit in its last place. -/
theorem abs_nearest_sub_le (x : ℚ) : |(nearest x).value - x| ≤ ulp x / 2 := by
  have unit := ulp_pos x
  have same : (nearest x).value - x = (roundToEven (x / ulp x) - x / ulp x) * ulp x := by
    rw [sub_mul, div_mul_cancel₀ _ unit.ne']
    rfl
  calc |(nearest x).value - x| = |roundToEven (x / ulp x) - x / ulp x| * ulp x := by
        rw [same, abs_mul, abs_of_pos unit]
    _ ≤ 1 / 2 * ulp x := mul_le_mul_of_nonneg_right (abs_roundToEven_sub_le _) unit.le
    _ = ulp x / 2 := one_div_mul_eq_div 2 _

/-- Below `2 ^ (k + 53)` the last place is at most `2 ^ k`. -/
theorem abs_nearest_sub_le_of_lt {x : ℚ} {k : ℤ} (small : |x| < 2 ^ (k + 53)) (least : -1074 ≤ k) :
    |(nearest x).value - x| ≤ 2 ^ k / 2 := by
  by_cases zero : x = 0
  · rw [zero, nearest_zero, sub_zero, abs_zero]
    exact div_nonneg (zpow_pos two_pos k).le two_pos.le
  · refine (abs_nearest_sub_le x).trans ?_
    exact div_le_div_of_nonneg_right (zpow_le_zpow_right₀ one_le_two (lastPlace_le zero small least)) two_pos.le

theorem abs_nearest_sub_le_of_le_one {x : ℚ} (nonneg : 0 ≤ x) (le : x ≤ 1) :
    |(nearest x).value - x| ≤ 1 / 2 ^ 53 := by
  refine (abs_nearest_sub_le_of_lt (k := -52) ?_ (by norm_num)).trans_eq (by norm_num)
  rw [abs_of_nonneg nonneg]
  exact le.trans_lt (by norm_num)

/-- From 1 on the error is at most the number times `2 ^ -53`. -/
theorem abs_nearest_sub_le_mul {x : ℚ} (large : 1 ≤ x) : |(nearest x).value - x| ≤ x * 2 ^ (-53 : ℤ) := by
  have pos : 0 < x := zero_lt_one.trans_le large
  have log : 0 ≤ Int.log 2 x := (Int.log_one_right 2).symm.trans_le (Int.log_mono_right zero_lt_one large)
  have unit : ulp x = 2 ^ Int.log 2 x * 2 ^ (-52 : ℤ) := by
    rw [ulp, lastPlace, abs_of_pos pos, max_eq_left (by omega), sub_eq_add_neg, zpow_add₀ two_ne_zero]
  have power : (2 : ℚ) ^ Int.log 2 x ≤ x := by exact_mod_cast Int.zpow_log_le_self one_lt_two pos
  calc |(nearest x).value - x| ≤ ulp x / 2 := abs_nearest_sub_le x
    _ = 2 ^ Int.log 2 x * 2 ^ (-53 : ℤ) := by
        rw [unit]
        norm_num
        ring
    _ ≤ x * 2 ^ (-53 : ℤ) := mul_le_mul_of_nonneg_right power (by positivity)

/-- The rounded quotient and the inverse of the rounded inverse quotient agree but for two roundings. -/
theorem abs_div_sub_one_div_le {a b : Binary64} (pos : 0 < a.value) (le : a.value ≤ b.value) :
    |(a / b).value - 1 / (b / a).value| ≤ 1 / 2 ^ 52 := by
  have pos' : 0 < b.value := pos.trans_le le
  have small : a.value / b.value ≤ 1 := (div_le_one pos').mpr le
  have large : 1 ≤ b.value / a.value := (one_le_div pos).mpr le
  have rounded : 0 < (b / a).value := zero_lt_one.trans_le (one_le_nearest large)
  have first : |(a / b).value - a.value / b.value| ≤ 1 / 2 ^ 53 :=
    abs_nearest_sub_le_of_le_one (div_nonneg pos.le pos'.le) small
  have second : |a.value / b.value - 1 / (b / a).value| ≤ 1 / 2 ^ 53 := by
    have shift : a.value / b.value - 1 / (b / a).value =
        a.value / b.value * ((b / a).value - b.value / a.value) / (b / a).value := by
      field_simp
    have error := abs_nearest_sub_le_mul large
    have cancel : a.value / b.value * (b.value / a.value * 2 ^ (-53 : ℤ)) = 1 / 2 ^ 53 := by
      rw [← mul_assoc, div_mul_div_cancel₀ pos'.ne', div_self pos.ne']
      norm_num
    rw [shift, abs_div, abs_mul, abs_of_nonneg (div_nonneg pos.le pos'.le), abs_of_pos rounded,
      div_le_iff₀ rounded]
    calc a.value / b.value * |(b / a).value - b.value / a.value|
        ≤ a.value / b.value * (b.value / a.value * 2 ^ (-53 : ℤ)) :=
          mul_le_mul_of_nonneg_left error (div_nonneg pos.le pos'.le)
      _ = 1 / 2 ^ 53 := cancel
      _ ≤ 1 / 2 ^ 53 * (b / a).value := le_mul_of_one_le_right (by norm_num) (one_le_nearest large)
  calc |(a / b).value - 1 / (b / a).value|
      ≤ |(a / b).value - a.value / b.value| + |a.value / b.value - 1 / (b / a).value| := abs_sub_le _ _ _
    _ ≤ 1 / 2 ^ 53 + 1 / 2 ^ 53 := add_le_add first second
    _ = 1 / 2 ^ 52 := by norm_num

end Binary64

end Zftl
