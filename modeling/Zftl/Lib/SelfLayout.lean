/-
Module: Zftl.Lib.SelfLayout
Layer: Lib
Purpose: The vectors that are their own base-delta layout, for differences of half the width of a word. A reader
  that takes the layout for the vector is right about these and no others. The differences of the second half fill
  a word of the second quarter, which is only possible if they are all zero; then so is every earlier one but the
  first.
Imports: Mathlib.Tactic.Ring, Zftl.Lib.BaseDelta
Trusted boundary: none
Main exports: OnlySecond, layout_self_iff
Open obligations: none
-/
import Mathlib.Tactic.Ring
import Zftl.Lib.BaseDelta

namespace Zftl

namespace BaseDelta

variable {N d : Nat}

/-- The first word is zero, the second a number below half the range of a difference, and nothing follows. -/
def OnlySecond (b d n : Nat) (x : BitVec N) : Prop :=
  field b x 0 = 0 ∧ (field b x 1).toNat < 2 ^ (d - 1) ∧ ∀ i, i < n → 2 ≤ i → field b x i = 0

instance (b d n : Nat) (x : BitVec N) : Decidable (OnlySecond b d n x) :=
  inferInstanceAs (Decidable (field b x 0 = 0 ∧ (field b x 1).toNat < 2 ^ (d - 1) ∧
    ∀ i, i < n → 2 ≤ i → field b x i = 0))

/-- The value of a word of two lanes. -/
theorem toNat_lanes (x : BitVec N) (i : Nat) : (field (2 * d) x i).toNat =
    (field d x (i * 2)).toNat + 2 ^ d * (field d x (i * 2 + 1)).toNat := by
  have low := field_field (q := 2) (d := d) rfl x i (show 0 < 2 by decide)
  have high := field_field (q := 2) (d := d) rfl x i (show 1 < 2 by decide)
  have bound := (field (2 * d) x i).isLt
  rw [show 2 ^ (2 * d) = 2 ^ d * 2 ^ d by rw [← Nat.pow_add]; congr 1; omega] at bound
  rw [Nat.add_zero] at low
  rw [← low, ← high, toNat_field _ 0, toNat_field _ 1, Nat.zero_mul, Nat.pow_zero, Nat.div_one,
    Nat.one_mul, Nat.mod_eq_of_lt (Nat.div_lt_of_lt_mul bound)]
  exact (Nat.mod_add_div _ _).symm

/-- A difference that is the value of one word, and both lanes of another, is zero. -/
theorem eq_zero_of_lanes {single double : BitVec (2 * d)} {e first second : BitVec d} (large : 2 ≤ d)
    (singleLanes : single.toNat = e.toNat) (doubleLanes : double.toNat = e.toNat + 2 ^ d * e.toNat)
    (singleValue : single.toInt = first.toInt - e.toInt)
    (doubleValue : double.toInt = second.toInt - e.toInt) : e = 0 := by
  have whole : 2 ^ d = 2 * 2 ^ (d - 1) := by rw [← pow_succ', Nat.sub_add_cancel (by omega)]
  have square : 2 ^ (2 * d) = 4 * (2 ^ (d - 1) * 2 ^ (d - 1)) := by
    rw [show 2 * d = d + d by omega, Nat.pow_add, whole]
    ring
  have two_le : 2 ≤ 2 ^ (d - 1) := Nat.le_self_pow (by omega) 2
  have high := first.toInt_lt
  have high' := second.toInt_lt
  have low := second.le_toInt
  have bound := e.isLt
  have cast : (2 : Int) ^ (d - 1) = ((2 ^ (d - 1) : Nat) : Int) := by push_cast; rfl
  rw [cast] at high high' low
  rw [BitVec.toInt_eq_toNat_cond, BitVec.toInt_eq_toNat_cond e, singleLanes, square] at singleValue
  rw [BitVec.toInt_eq_toNat_cond, BitVec.toInt_eq_toNat_cond e, doubleLanes, square] at doubleValue
  rw [whole] at bound singleValue doubleValue
  apply BitVec.eq_of_toNat_eq
  change e.toNat = 0
  generalize 2 ^ (d - 1) = half at *
  generalize e.toNat = value at *
  have bigger : 2 * half ≤ half * half := Nat.mul_le_mul_right half two_le
  have product : 2 * half * value = 2 * (half * value) := by ring
  rw [product] at doubleValue
  by_cases negative : 2 * value < 2 * half
  · rw [if_pos negative] at singleValue doubleValue
    rw [if_pos (by omega)] at singleValue
    have small : half * (2 * value + 1) ≤ half * half := Nat.mul_le_mul_left half (by omega)
    have expand : half * (2 * value + 1) = 2 * (half * value) + half := by ring
    rw [if_pos (by omega)] at doubleValue
    by_contra some_value
    have large_product : half * 1 ≤ half * value := Nat.mul_le_mul_left half (by omega)
    omega
  · rw [if_neg negative] at singleValue doubleValue
    rw [if_pos (by omega)] at singleValue
    have small : half * (2 * value + 1) ≤ half * (3 * half) := Nat.mul_le_mul_left half (by omega)
    have expand : half * (2 * value + 1) = 2 * (half * value) + half := by ring
    have expand' : half * (3 * half) = 3 * (half * half) := by ring
    have large_product : half * half ≤ half * value := Nat.mul_le_mul_left half (by omega)
    rw [if_neg (by omega)] at doubleValue
    omega

section SelfLayout

variable {m : Nat} {x : BitVec N}

/-- The lanes of a vector that is its own layout: behind the base the differences, and then zeros. -/
theorem lane_of_self (whole : N = 4 * m * (2 * d))
    (self : layout N (4 * m) (field (2 * d) x 0) (delta (2 * d) d x) = x) {k : Nat} (below : k + 3 ≤ 8 * m) :
    field d x (2 + k) = if k + 1 < 4 * m then delta (2 * d) d x (k + 1) else 0 := by
  have room : (2 + k + 1) * d ≤ N := by
    rw [whole, show 4 * m * (2 * d) = 8 * m * d by ring]
    exact Nat.mul_le_mul_right d (by omega)
  rw [← field_layout_delta (q := 2) (field (2 * d) x 0) (delta (2 * d) d x) rfl room, self]

/-- In the second half of a vector that is its own layout every word is zero. -/
theorem word_of_self_high (whole : N = 4 * m * (2 * d))
    (self : layout N (4 * m) (field (2 * d) x 0) (delta (2 * d) d x) = x) {i : Nat} (high : 2 * m < i)
    (below : i < 4 * m) : field (2 * d) x i = 0 := by
  apply BitVec.eq_of_toNat_eq
  rw [toNat_lanes, show i * 2 = 2 + (2 * i - 2) by omega, show 2 + (2 * i - 2) + 1 = 2 + (2 * i - 1) by omega,
    lane_of_self whole self (by omega), lane_of_self whole self (by omega), if_neg (by omega),
    if_neg (by omega)]
  simp

/-- The first word of a vector that is its own layout is zero: the differences of the second half are all the
    one that takes it to zero, and they fill a word of the second quarter and half of the middle one. -/
theorem base_of_self (large : 2 ≤ d) (many : 2 ≤ m) (whole : N = 4 * m * (2 * d))
    (fits : DeltasFit (2 * d) d (4 * m) x)
    (self : layout N (4 * m) (field (2 * d) x 0) (delta (2 * d) d x) = x) : field (2 * d) x 0 = 0 := by
  have word (i : Nat) (later : 1 ≤ i) (below : i < 4 * m) := field_of_fits (by omega) (by omega) fits below later
  have zero (i : Nat) (high : 2 * m < i) (below : i < 4 * m) :
      0 = field (2 * d) x 0 + (delta (2 * d) d x i).signExtend (2 * d) := by
    rw [← word i (by omega) below, word_of_self_high whole self high below]
  have same (i : Nat) (high : 2 * m < i) (below : i < 4 * m) :
      delta (2 * d) d x i = delta (2 * d) d x (4 * m - 1) := by
    have sums := (zero i high below).symm.trans (zero (4 * m - 1) (by omega) (by omega))
    exact signExtend_inj (by omega) ((BitVec.add_right_inj _).mp sums)
  have middle : (field (2 * d) x (2 * m)).toNat = (delta (2 * d) d x (4 * m - 1)).toNat := by
    rw [toNat_lanes, show 2 * m * 2 = 2 + (4 * m - 2) by omega,
      show 2 + (4 * m - 2) + 1 = 2 + (4 * m - 1) by omega, lane_of_self whole self (by omega),
      lane_of_self whole self (by omega), if_pos (by omega), if_neg (by omega),
      show 4 * m - 2 + 1 = 4 * m - 1 by omega]
    simp
  have quarter : (field (2 * d) x (m + 1)).toNat = (delta (2 * d) d x (4 * m - 1)).toNat +
      2 ^ d * (delta (2 * d) d x (4 * m - 1)).toNat := by
    rw [toNat_lanes, show (m + 1) * 2 = 2 + 2 * m by omega, Nat.add_assoc,
      lane_of_self whole self (by omega), lane_of_self whole self (by omega), if_pos (by omega),
      if_pos (by omega), same (2 * m + 1) (by omega) (by omega),
      same (2 * m + 1 + 1) (by omega) (by omega)]
  have last := zero (4 * m - 1) (by omega) (by omega)
  have none := eq_zero_of_lanes large middle quarter
    (toInt_apart (by omega) (by omega) last (word (2 * m) (by omega) (by omega)))
    (toInt_apart (by omega) (by omega) last (word (m + 1) (by omega) (by omega)))
  rw [none, add_signExtend_zero] at last
  exact last.symm

/-- From the third word on a vector that is its own layout has no differences, as a word is made of later ones. -/
theorem delta_of_self (large : 2 ≤ d) (many : 2 ≤ m) (whole : N = 4 * m * (2 * d))
    (fits : DeltasFit (2 * d) d (4 * m) x)
    (self : layout N (4 * m) (field (2 * d) x 0) (delta (2 * d) d x) = x) (rest : Nat) :
    ∀ i, 4 * m ≤ i + rest → 2 ≤ i → i < 4 * m → delta (2 * d) d x i = 0 := by
  have base := base_of_self large many whole fits self
  induction rest with
  | zero => intro i last _ below; omega
  | succ rest ih =>
    intro i last later below
    have lane (k : Nat) (behind : i < k + 1) (inside : k + 3 ≤ 8 * m) : field d x (2 + k) = 0 := by
      rw [lane_of_self whole self inside]
      split
      · next within => exact ih (k + 1) (by omega) (by omega) within
      · rfl
    have none : field (2 * d) x i = 0 := by
      apply BitVec.eq_of_toNat_eq
      rw [toNat_lanes, show i * 2 = 2 + (2 * i - 2) by omega,
        show 2 + (2 * i - 2) + 1 = 2 + (2 * i - 1) by omega, lane _ (by omega) (by omega),
        lane _ (by omega) (by omega)]
      simp
    have word := field_of_fits (by omega) (by omega) fits below (by omega)
    rw [none, base] at word
    exact eq_zero_of_add (by omega) word

theorem onlySecond_of_self (large : 2 ≤ d) (many : 2 ≤ m) (whole : N = 4 * m * (2 * d))
    (fits : DeltasFit (2 * d) d (4 * m) x)
    (self : layout N (4 * m) (field (2 * d) x 0) (delta (2 * d) d x) = x) :
    OnlySecond (2 * d) d (4 * m) x := by
  have base := base_of_self large many whole fits self
  have none (i : Nat) (later : 2 ≤ i) (below : i < 4 * m) : delta (2 * d) d x i = 0 :=
    delta_of_self large many whole fits self (4 * m) i (by omega) later below
  have word (i : Nat) (later : 1 ≤ i) (below : i < 4 * m) :
      field (2 * d) x i = (delta (2 * d) d x i).signExtend (2 * d) := by
    rw [field_of_fits (by omega) (by omega) fits below later, base]
    exact BitVec.zero_add _
  refine ⟨base, ?_, fun i below later => ?_⟩
  · have lanes : (field (2 * d) x 1).toNat = (delta (2 * d) d x 1).toNat := by
      rw [toNat_lanes, lane_of_self whole self (show 0 + 3 ≤ 8 * m by omega),
        lane_of_self whole self (show 1 + 3 ≤ 8 * m by omega), if_pos (by omega), if_pos (by omega),
        none (1 + 1) (by omega) (by omega)]
      simp
    have value := congrArg BitVec.toInt (word 1 (by omega) (by omega))
    rw [BitVec.toInt_signExtend_of_le (by omega), BitVec.toInt_eq_toNat_cond,
      BitVec.toInt_eq_toNat_cond, lanes] at value
    have bound := (delta (2 * d) d x 1).isLt
    have whole : 2 ^ d = 2 * 2 ^ (d - 1) := by rw [← pow_succ', Nat.sub_add_cancel (by omega)]
    have wide : 2 * 2 ^ d ≤ 2 ^ (2 * d) := by
      rw [← pow_succ']
      exact Nat.pow_le_pow_right (by decide) (by omega)
    rw [lanes]
    rw [if_pos (by omega)] at value
    split at value <;> omega
  · rw [word i (by omega) below, none i later below, signExtend_zero]

/-- A vector with only a small second word is its own layout. -/
theorem self_of_onlySecond (large : 2 ≤ d) (many : 2 ≤ m) (whole : N = 4 * m * (2 * d))
    (only : OnlySecond (2 * d) d (4 * m) x) :
    layout N (4 * m) (field (2 * d) x 0) (delta (2 * d) d x) = x := by
  obtain ⟨base, small, others⟩ := only
  have room : N ≤ 8 * m * d := Nat.le_of_eq (by rw [whole]; ring)
  have none (i : Nat) (later : 2 ≤ i) (below : i < 4 * m) : delta (2 * d) d x i = 0 := by
    rw [delta, others i below later, base, BitVec.sub_self]
    exact BitVec.setWidth_zero _ _
  refine ext_field (by omega) room fun k below => ?_
  obtain first | ⟨k, rfl⟩ : k < 2 ∨ ∃ j, k = 2 + j := by
    by_cases first : k < 2
    · exact Or.inl first
    · exact Or.inr ⟨k - 2, by omega⟩
  · have wide : 2 * d ≤ N := by
      rw [whole]
      exact Nat.le_mul_of_pos_left _ (by omega)
    rw [field_layout_base (q := 2) _ _ rfl wide first, field_field (q := 2) rfl x 0 first,
      Nat.zero_mul, Nat.zero_add]
  · have inside : (2 + k + 1) * d ≤ N := by
      rw [whole, show 4 * m * (2 * d) = 8 * m * d by ring]
      exact Nat.mul_le_mul_right d (by omega)
    rw [field_layout_delta (q := 2) _ _ rfl inside]
    obtain rfl | rfl | ⟨k, rfl⟩ : k = 0 ∨ k = 1 ∨ ∃ j, k = j + 2 := by
      by_cases early : k < 2
      · omega
      · exact Or.inr (Or.inr ⟨k - 2, by omega⟩)
    · have lane := field_field (q := 2) (d := d) rfl x 1 (show 0 < 2 by decide)
      have first : delta (2 * d) d x 1 = field d (field (2 * d) x 1) 0 := by
        rw [delta, base, field_zero]
        exact congrArg _ (BitVec.sub_zero _)
      rw [if_pos (by omega)]
      exact first.trans lane
    · have lane := field_field (q := 2) (d := d) rfl x 1 (show 1 < 2 by decide)
      have high : field d (field (2 * d) x 1) 1 = 0 := by
        have short : 2 ^ (d - 1) ≤ 2 ^ d := Nat.pow_le_pow_right (by decide) (by omega)
        apply BitVec.eq_of_toNat_eq
        rw [toNat_field, Nat.one_mul, Nat.div_eq_of_lt (by omega)]
        simp
      rw [if_pos (by omega), none (1 + 1) (by omega) (by omega)]
      exact high.symm.trans lane
    · have lane := field_field (q := 2) (d := d) rfl x ((k + 4) / 2) (Nat.mod_lt (k + 4) (by decide))
      rw [others _ (by omega) (by omega), field_of_zero, Nat.div_add_mod'] at lane
      rw [show 2 + (k + 2) = k + 4 by omega, ← lane]
      split
      · exact none _ (by omega) (by omega)
      · rfl

/-- A vector whose differences fit is its own layout exactly if it has only a second word, small enough to be a
    difference. -/
theorem layout_self_iff (large : 2 ≤ d) (many : 2 ≤ m) (whole : N = 4 * m * (2 * d))
    (fits : DeltasFit (2 * d) d (4 * m) x) :
    layout N (4 * m) (field (2 * d) x 0) (delta (2 * d) d x) = x ↔ OnlySecond (2 * d) d (4 * m) x :=
  ⟨onlySecond_of_self large many whole fits, self_of_onlySecond large many whole⟩

end SelfLayout

end BaseDelta

end Zftl
