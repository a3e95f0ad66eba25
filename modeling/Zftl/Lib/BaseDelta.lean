/-
Module: Zftl.Lib.BaseDelta
Layer: Lib
Purpose: Base-delta encoding of a bit vector. A vector is a sequence of words of some width; it is stored as its first
  word and the difference of every other word from it, cut to a smaller width. If every difference fits the
  smaller width as a signed number, decoding gives the vector back, and only such vectors are decoded to.
  The layout is that of little-endian memory: the first word in the low bits, the differences behind it.
Imports: Mathlib.Data.BitVec, Mathlib.Tactic.Common
Trusted boundary: none
Main exports: field, pack, ext_field, FitsDelta, DeltasFit, layout, deltaWord, pack_layout, deltasFit_pack
Open obligations: none
-/
import Mathlib.Data.BitVec
import Mathlib.Tactic.Common

namespace Zftl

namespace BaseDelta

variable {N M w b d : Nat}

/-! ### Words of a vector -/

/-- Word `i` of a vector. -/
def field (w : Nat) (x : BitVec N) (i : Nat) : BitVec w := x.extractLsb' (i * w) w

/-- The vector whose bits are given. -/
def ofBits : (N : Nat) → (Nat → Bool) → BitVec N
  | 0, _ => 0
  | N + 1, bit => BitVec.cons (bit N) (ofBits N bit)

theorem getLsbD_ofBits (bit : Nat → Bool) {j : Nat} (inside : j < N) :
    (ofBits N bit).getLsbD j = bit j := by
  induction N with
  | zero => omega
  | succ N ih =>
    rw [ofBits, BitVec.getLsbD_cons]
    split
    · next last => rw [last]
    · exact ih (by omega)

/-- The vector whose words are given. -/
def pack (N : Nat) (word : Nat → BitVec w) : BitVec N :=
  ofBits N fun j => (word (j / w)).getLsbD (j % w)

theorem getLsbD_field (x : BitVec N) (i j : Nat) :
    (field w x i).getLsbD j = (decide (j < w) && x.getLsbD (i * w + j)) := by
  simp [field]

theorem getLsbD_pack (word : Nat → BitVec w) {j : Nat} (inside : j < N) :
    (pack N word).getLsbD j = (word (j / w)).getLsbD (j % w) := by
  rw [pack, getLsbD_ofBits _ inside]

/-- The words of a packed vector. -/
theorem field_pack (word : Nat → BitVec w) {i : Nat} (inside : (i + 1) * w ≤ N) :
    field w (pack N word) i = word i := by
  apply BitVec.eq_of_getLsbD_eq
  intro j below
  have end_eq : (i + 1) * w = i * w + w := Nat.succ_mul i w
  have place : (i * w + j) / w = i ∧ (i * w + j) % w = j := by
    rw [Nat.mul_comm, Nat.mul_add_div (by omega), Nat.div_eq_of_lt below, Nat.mul_add_mod,
      Nat.mod_eq_of_lt below]
    exact ⟨Nat.add_zero i, rfl⟩
  rw [getLsbD_field, getLsbD_pack word (by omega), place.1, place.2]
  simp [below]

/-- Vectors with the same words are the same. -/
theorem ext_field {x y : BitVec N} {n : Nat} (pos : 0 < w) (whole : N ≤ n * w)
    (words : ∀ i, i < n → field w x i = field w y i) : x = y := by
  apply BitVec.eq_of_getLsbD_eq
  intro j below
  have word := congrArg (BitVec.getLsbD · (j % w))
    (words (j / w) ((Nat.div_lt_iff_lt_mul pos).mpr (by omega)))
  simp only [getLsbD_field, Nat.mod_lt j pos, decide_true, Bool.true_and, Nat.div_add_mod'] at word
  exact word

/-- A word of a word. -/
theorem field_field {q : Nat} (whole : b = q * d) (x : BitVec N) (i : Nat) {k : Nat} (inside : k < q) :
    field d (field b x i) k = field d x (i * q + k) := by
  have end_eq : (k + 1) * d = k * d + d := Nat.succ_mul k d
  have room : (k + 1) * d ≤ b := whole ▸ Nat.mul_le_mul_right d inside
  have place : (i * q + k) * d = i * b + k * d := by rw [whole, Nat.add_mul, Nat.mul_assoc]
  apply BitVec.eq_of_getLsbD_eq
  intro j below
  rw [getLsbD_field, getLsbD_field, getLsbD_field, place, Nat.add_assoc]
  simp only [show k * d + j < b by omega, decide_true, Bool.true_and]

/-- The first word is the low bits. -/
theorem field_zero (x : BitVec N) : field w x 0 = x.setWidth w := by
  apply BitVec.eq_of_getLsbD_eq
  intro j _
  rw [getLsbD_field, BitVec.getLsbD_setWidth, Nat.zero_mul, Nat.zero_add]

/-- The words of a vector that is made longer: its own, and then zeros. -/
theorem field_setWidth (x : BitVec b) {k : Nat} (inside : (k + 1) * w ≤ N) :
    field w (x.setWidth N) k = field w x k := by
  have end_eq : (k + 1) * w = k * w + w := Nat.succ_mul k w
  apply BitVec.eq_of_getLsbD_eq
  intro j below
  rw [getLsbD_field, getLsbD_field, BitVec.getLsbD_setWidth]
  simp only [show k * w + j < N by omega, decide_true, Bool.true_and]

theorem field_behind (x : BitVec b) {k : Nat} (behind : b ≤ k * w) : field w x k = 0 := by
  apply BitVec.eq_of_getLsbD_eq
  intro j _
  rw [getLsbD_field, BitVec.getLsbD_of_ge _ _ (by omega), Bool.and_false]
  exact BitVec.getLsbD_zero.symm

theorem field_of_zero (i : Nat) : field w (0 : BitVec N) i = 0 := BitVec.extractLsb'_zero

/-- The value of a word. -/
theorem toNat_field (x : BitVec N) (i : Nat) :
    (field w x i).toNat = x.toNat / 2 ^ (i * w) % 2 ^ w := by
  rw [field, BitVec.extractLsb'_toNat, Nat.shiftRight_eq_div_pow]

/-- A packed vector depends only on its words. -/
theorem pack_congr {n : Nat} {word other : Nat → BitVec w} (pos : 0 < w) (whole : N ≤ n * w)
    (words : ∀ i, i < n → word i = other i) : pack N word = pack N other := by
  apply BitVec.eq_of_getLsbD_eq
  intro j below
  rw [getLsbD_pack _ below, getLsbD_pack _ below,
    words (j / w) ((Nat.div_lt_iff_lt_mul pos).mpr (by omega))]

/-! ### Signed differences -/

/-- The difference is a signed number of `d` bits. -/
def FitsDelta (d : Nat) (diff : BitVec b) : Prop :=
  -2 ^ (d - 1) ≤ diff.toInt ∧ diff.toInt ≤ 2 ^ (d - 1) - 1

instance (d : Nat) (diff : BitVec b) : Decidable (FitsDelta d diff) :=
  inferInstanceAs (Decidable (-2 ^ (d - 1) ≤ diff.toInt ∧ diff.toInt ≤ 2 ^ (d - 1) - 1))

theorem FitsDelta.wider {diff : BitVec b} {e : Nat} (fits : FitsDelta d diff) (le : d ≤ e) :
    FitsDelta e diff := by
  have power : (2 : Int) ^ (d - 1) ≤ 2 ^ (e - 1) := by
    exact_mod_cast Nat.pow_le_pow_right (show 0 < 2 by decide) (Nat.sub_le_sub_right le 1)
  obtain ⟨low, high⟩ := fits
  exact ⟨by omega, by omega⟩

/-- A difference that fits is restored from its low bits. -/
theorem signExtend_setWidth {diff : BitVec b} (pos : 0 < d) (narrow : d ≤ b)
    (fits : FitsDelta d diff) : (diff.setWidth d).signExtend b = diff := by
  have double : (2 : Int) ^ d = 2 * 2 ^ (d - 1) := by
    rw [← pow_succ', Nat.sub_add_cancel pos]
  have divides : 2 ^ d ∣ 2 ^ b := Nat.pow_dvd_pow 2 narrow
  obtain ⟨low, high⟩ := fits
  apply BitVec.eq_of_toInt_eq
  calc
    ((diff.setWidth d).signExtend b).toInt = (diff.toNat : Int).bmod (2 ^ d) := by
      rw [BitVec.toInt_signExtend_of_le narrow, BitVec.toInt_setWidth]
    _ = diff.toInt.bmod (2 ^ d) := by
      rw [BitVec.toInt_eq_toNat_bmod, Int.bmod_bmod_of_dvd divides]
    _ = diff.toInt := by
      apply Int.bmod_eq_of_le <;> push_cast <;> omega

theorem signExtend_zero : (0 : BitVec d).signExtend b = 0 := by
  apply BitVec.eq_of_getLsbD_eq
  intro j _
  simp [BitVec.getLsbD_signExtend]

theorem add_signExtend_zero (base : BitVec b) : base + (0 : BitVec d).signExtend b = base := by
  rw [signExtend_zero]
  exact BitVec.add_zero base

theorem signExtend_inj {x y : BitVec d} (narrow : d ≤ b) (same : x.signExtend b = y.signExtend b) :
    x = y := by
  have values := congrArg BitVec.toInt same
  rw [BitVec.toInt_signExtend_of_le narrow, BitVec.toInt_signExtend_of_le narrow] at values
  exact BitVec.eq_of_toInt_eq values

/-- A sign-extended difference that adds nothing is zero. -/
theorem eq_zero_of_add {base : BitVec b} {diff : BitVec d} (narrow : d ≤ b)
    (same : base = base + diff.signExtend b) : diff = 0 := by
  apply BitVec.eq_of_toInt_eq
  rw [← BitVec.toInt_signExtend_of_le narrow, BitVec.self_eq_add_right.mp same, BitVec.toInt_zero]
  exact BitVec.toInt_zero.symm

/-- The low bits of a difference are the difference of the low bits. -/
theorem setWidth_sub (x y : BitVec b) (narrow : d ≤ b) :
    x.setWidth d - y.setWidth d = (x - y).setWidth d := by
  have whole : (x - y).setWidth d + y.setWidth d = x.setWidth d := by
    rw [← BitVec.setWidth_add _ _ narrow, BitVec.sub_add_cancel]
  rw [← whole, BitVec.add_sub_cancel]

/-- The low part of a sum with a sign-extended difference. -/
theorem field_add_signExtend (base : BitVec b) (diff : BitVec d) {c : Nat} (short : c ≤ b) :
    field c (base + diff.signExtend b) 0 = field c base 0 + diff.signExtend c := by
  have low : (diff.signExtend b).setWidth c = diff.signExtend c := by
    apply BitVec.eq_of_getLsbD_eq
    intro j below
    rw [BitVec.getLsbD_setWidth, BitVec.getLsbD_signExtend, BitVec.getLsbD_signExtend]
    simp only [below, show j < b by omega, decide_true, Bool.true_and]
  rw [field_zero, field_zero, BitVec.setWidth_add _ _ short, low]

/-- Two words with the same base differ by the difference of their differences. -/
theorem toInt_apart {base word : BitVec b} {first last : BitVec d} (pos : 0 < d) (narrow : d < b)
    (zero : 0 = base + last.signExtend b) (sum : word = base + first.signExtend b) :
    word.toInt = first.toInt - last.toInt := by
  have difference : word = first.signExtend b - last.signExtend b := by
    rw [BitVec.eq_sub_iff_add_eq, sum, BitVec.add_assoc, BitVec.add_comm (first.signExtend b),
      ← BitVec.add_assoc, ← zero]
    exact BitVec.zero_add _
  have low := first.le_toInt
  have high := first.toInt_lt
  have low' := last.le_toInt
  have high' := last.toInt_lt
  rw [difference, BitVec.toInt_sub, BitVec.toInt_signExtend_of_le (by omega),
    BitVec.toInt_signExtend_of_le (by omega)]
  have double : (2 : Int) ^ d = 2 * 2 ^ (d - 1) := by rw [← pow_succ', Nat.sub_add_cancel pos]
  have half : (2 : Int) ^ b = 2 * 2 ^ (b - 1) := by rw [← pow_succ', Nat.sub_add_cancel (by omega)]
  have room : (2 : Int) ^ d ≤ 2 ^ (b - 1) := by
    exact_mod_cast Nat.pow_le_pow_right (show 0 < 2 by decide) (show d ≤ b - 1 by omega)
  apply Int.bmod_eq_of_le <;> push_cast <;> omega

/-- What a difference of `d` bits extends to fits. -/
theorem fitsDelta_signExtend (x : BitVec d) (narrow : d ≤ b) :
    FitsDelta d (x.signExtend b) := by
  have low := x.le_toInt
  have high := x.toInt_lt
  rw [FitsDelta, BitVec.toInt_signExtend_of_le narrow]
  omega

/-- Every word differs from the first by a signed number of `d` bits. -/
def DeltasFit (b d n : Nat) (x : BitVec N) : Prop :=
  ∀ i, i < n → 1 ≤ i → FitsDelta d (field b x i - field b x 0)

instance (b d n : Nat) (x : BitVec N) : Decidable (DeltasFit b d n x) :=
  inferInstanceAs (Decidable (∀ i, i < n → 1 ≤ i → FitsDelta d (field b x i - field b x 0)))

/-- The difference of a word from the first one, cut to `d` bits. -/
def delta (b d : Nat) (x : BitVec N) (i : Nat) : BitVec d := (field b x i - field b x 0).setWidth d

/-- A word is the first one and its difference. -/
theorem field_of_fits {n i : Nat} {x : BitVec N} (pos : 0 < d) (narrow : d ≤ b)
    (fits : DeltasFit b d n x) (below : i < n) (later : 1 ≤ i) :
    field b x i = field b x 0 + (delta b d x i).signExtend b := by
  rw [delta, signExtend_setWidth pos narrow (fits i below later), BitVec.add_comm, BitVec.sub_add_cancel]

/-! ### The layout -/

/-- The base in the low bits, and the differences of the other `n - 1` words behind it. -/
def layout (N n : Nat) (base : BitVec b) (delta : Nat → BitVec d) : BitVec N :=
  ofBits N fun j =>
    if j < b then base.getLsbD j
    else if (j - b) / d + 1 < n then (delta ((j - b) / d + 1)).getLsbD ((j - b) % d)
    else false

theorem getLsbD_layout {n : Nat} (base : BitVec b) (delta : Nat → BitVec d) {j : Nat}
    (inside : j < N) :
    (layout N n base delta).getLsbD j =
      if j < b then base.getLsbD j
      else if (j - b) / d + 1 < n then (delta ((j - b) / d + 1)).getLsbD ((j - b) % d)
      else false := by
  rw [layout, getLsbD_ofBits _ inside]

/-- The base of a layout. -/
theorem base_layout {n : Nat} (base : BitVec b) (delta : Nat → BitVec d) (inside : b ≤ N) :
    (layout N n base delta).extractLsb' 0 b = base := by
  apply BitVec.eq_of_getLsbD_eq
  intro j below
  rw [BitVec.getLsbD_extractLsb', Nat.zero_add, getLsbD_layout base delta (by omega), if_pos below]
  simp [below]

/-- The difference at place `i` of a layout; behind the last one there is nothing. -/
theorem delta_layout {n : Nat} (base : BitVec b) (delta : Nat → BitVec d) {i : Nat} (positive : 1 ≤ i)
    (inside : b + i * d ≤ N) :
    (layout N n base delta).extractLsb' (b + (i - 1) * d) d = if i < n then delta i else 0 := by
  obtain ⟨k, rfl⟩ := Nat.exists_eq_add_of_le' positive
  rw [Nat.add_sub_cancel]
  have end_eq : (k + 1) * d = k * d + d := Nat.succ_mul k d
  apply BitVec.eq_of_getLsbD_eq
  intro j below
  have place : (b + k * d + j - b) / d = k ∧ (b + k * d + j - b) % d = j := by
    rw [show b + k * d + j - b = d * k + j by rw [Nat.mul_comm d k]; omega,
      Nat.mul_add_div (by omega), Nat.div_eq_of_lt below, Nat.mul_add_mod, Nat.mod_eq_of_lt below]
    exact ⟨Nat.add_zero k, rfl⟩
  rw [BitVec.getLsbD_extractLsb', getLsbD_layout base delta (by omega), place.1, place.2,
    if_neg (by omega)]
  split <;> simp [below]

/-- The lanes of a layout: those of the base, and then the differences. -/
theorem field_layout_base {n q : Nat} (base : BitVec b) (delta : Nat → BitVec d) (whole : b = q * d)
    (inside : b ≤ N) {k : Nat} (below : k < q) :
    field d (layout N n base delta) k = field d base k := by
  have outer := field_field whole (layout N n base delta) 0 below
  rw [Nat.zero_mul, Nat.zero_add] at outer
  have first : field b (layout N n base delta) 0 = base := by
    rw [field, Nat.zero_mul, base_layout _ _ inside]
  rw [← outer, first]

theorem field_layout_delta {n q : Nat} (base : BitVec b) (delta : Nat → BitVec d) (whole : b = q * d)
    {k : Nat} (inside : (q + k + 1) * d ≤ N) :
    field d (layout N n base delta) (q + k) = if k + 1 < n then delta (k + 1) else 0 := by
  have place : (q + k) * d = b + (k + 1 - 1) * d := by rw [Nat.add_sub_cancel, whole, Nat.add_mul]
  have room : b + (k + 1) * d ≤ N := by rw [whole, ← Nat.add_mul]; exact inside
  rw [field, place, delta_layout _ _ (by omega) room]

/-! ### Decoding -/

/-- Word `i` of the vector a layout stands for: the base, or the base and a sign-extended difference. -/
def deltaWord (b d : Nat) (x : BitVec M) (i : Nat) : BitVec b :=
  if i = 0 then x.extractLsb' 0 b
  else x.extractLsb' 0 b + (x.extractLsb' (b + (i - 1) * d) d).signExtend b

theorem deltaWord_zero (x : BitVec M) : deltaWord b d x 0 = field b x 0 := by
  rw [deltaWord, if_pos rfl, field, Nat.zero_mul]

theorem deltaWord_succ {q : Nat} (whole : b = q * d) (x : BitVec M) (i : Nat) :
    deltaWord b d x (i + 1) = field b x 0 + (field d x (q + i)).signExtend b := by
  rw [deltaWord, if_neg (Nat.succ_ne_zero i), Nat.add_sub_cancel, field, field, Nat.zero_mul, whole,
    Nat.add_mul]

/-- The words of a decoded vector. -/
theorem field_zero_decoded {x : BitVec M} {y : BitVec N} (same : pack N (deltaWord b d x) = y)
    (room : b ≤ N) : field b y 0 = field b x 0 := by
  rw [← same, field_pack _ (by omega), deltaWord_zero]

theorem field_succ_decoded {q i : Nat} {x : BitVec M} {y : BitVec N} (whole : b = q * d)
    (same : pack N (deltaWord b d x) = y) (room : (i + 2) * b ≤ N) :
    field b y (i + 1) = field b y 0 + (field d x (q + i)).signExtend b := by
  have wide : b ≤ (i + 2) * b := Nat.le_mul_of_pos_left b (by omega)
  rw [field_zero_decoded same (by omega), ← same, field_pack _ room, deltaWord_succ whole]

/-- The first `n` words are read from the base and the first `n - 1` differences. -/
theorem deltaWord_congr {n i : Nat} {x : BitVec M} {y : BitVec N} (below : i < n)
    (bits : ∀ j, j < b + (n - 1) * d → x.getLsbD j = y.getLsbD j) :
    deltaWord b d x i = deltaWord b d y i := by
  have base : x.extractLsb' 0 b = y.extractLsb' 0 b := by
    apply BitVec.eq_of_getLsbD_eq
    intro j inside
    rw [BitVec.getLsbD_extractLsb', BitVec.getLsbD_extractLsb', bits _ (by omega)]
  rw [deltaWord, deltaWord, base]
  split
  · rfl
  · next later =>
    have place : i * d ≤ (n - 1) * d := Nat.mul_le_mul_right d (by omega)
    have before : i * d = (i - 1) * d + d := by
      rw [← Nat.succ_mul, Nat.succ_eq_add_one, Nat.sub_add_cancel (by omega)]
    have delta : x.extractLsb' (b + (i - 1) * d) d = y.extractLsb' (b + (i - 1) * d) d := by
      apply BitVec.eq_of_getLsbD_eq
      intro j inside
      rw [BitVec.getLsbD_extractLsb', BitVec.getLsbD_extractLsb', bits _ (by omega)]
    rw [delta]

/-- A vector whose differences fit is restored from its layout. -/
theorem pack_layout {n : Nat} {x : BitVec N} (pos : 0 < d) (narrow : d ≤ b) (whole : N = n * b)
    (room : b + (n - 1) * d ≤ M) (fits : DeltasFit b d n x) :
    pack N (deltaWord b d (layout M n (field b x 0) (delta b d x))) = x := by
  refine ext_field (Nat.lt_of_lt_of_le pos narrow) (Nat.le_of_eq whole) fun i below => ?_
  have inside : (i + 1) * b ≤ N := whole ▸ Nat.mul_le_mul_right b below
  rw [field_pack _ inside, deltaWord]
  have wide : b ≤ M := by omega
  by_cases first : i = 0
  · rw [if_pos first, base_layout _ _ wide, first]
  · have place : i * d ≤ (n - 1) * d := Nat.mul_le_mul_right d (by omega)
    rw [if_neg first, base_layout _ _ wide, delta_layout _ _ (by omega) (by omega), if_pos below,
      delta, signExtend_setWidth pos narrow (fits i below (by omega))]
    rw [BitVec.add_comm, BitVec.sub_add_cancel]

/-- Only vectors whose differences fit are decoded to. -/
theorem deltasFit_pack {n : Nat} (x : BitVec M) (narrow : d ≤ b) (whole : n * b ≤ N) :
    DeltasFit b d n (pack N (deltaWord b d x)) := by
  intro i below positive
  have inside : ∀ k, k < n → (k + 1) * b ≤ N := fun k less =>
    Nat.le_trans (Nat.mul_le_mul_right b less) whole
  rw [field_pack _ (inside i below), field_pack _ (inside 0 (by omega)), deltaWord, deltaWord,
    if_neg (by omega), if_pos rfl]
  have cancel : ∀ base extra : BitVec b, base + extra - base = extra := fun base extra => by
    rw [BitVec.add_comm, BitVec.add_sub_cancel]
  rw [cancel]
  exact fitsDelta_signExtend _ narrow

end BaseDelta

end Zftl
