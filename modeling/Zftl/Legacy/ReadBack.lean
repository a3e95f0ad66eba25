/-
Module: Zftl.Legacy.ReadBack
Layer: Legacy
Purpose: When the read channel of the memory controller gives back the line its write channel stored. The DRAM
  word carries no tag: the reader takes the low four bits of the base for it. For each pattern the encoder has,
  a lemma says under which tags the stored word decodes to the line; `Recovers` collects them.
Imports: Zftl.Legacy.BdiRtl
Trusted boundary: none
Main exports: Recovers, readBack_iff
Open obligations: none
-/
import Zftl.Legacy.BdiRtl

namespace Zftl.Legacy

open BaseDelta BdiEncoder AxiTop

/-- The bits of a line that the reader takes for the tag. -/
def lowNibble (line : BitVec 512) : BitVec 4 := line.extractLsb' 0 4

/-- The second word is the first one plus at most 127, and the others equal the first. -/
def OnlySecondDiffers (line : BitVec 512) : Prop :=
  0 ≤ (field 64 line 1 - field 64 line 0).toInt ∧
    ∀ i, i < 8 → 2 ≤ i → field 64 line i = field 64 line 0

instance (line : BitVec 512) : Decidable (OnlySecondDiffers line) :=
  inferInstanceAs (Decidable (0 ≤ (field 64 line 1 - field 64 line 0).toInt ∧
    ∀ i, i < 8 → 2 ≤ i → field 64 line i = field 64 line 0))

/-- The low nibble of the line is a tag under which the stored word decodes to the line. -/
def Recovers (line : BitVec 512) : Prop :=
  if line = 0 then True
  else if IsRepWord line then
    lowNibble line = Pat.repWord.value ∨ lowNibble line = Pat.base8Delta1.value ∨
      lowNibble line = Pat.base8Delta2.value
  else if IsB8d1 line then
    lowNibble line = Pat.base8Delta1.value ∨
      lowNibble line = Pat.base8Delta2.value ∧ OnlySecondDiffers line
  else if IsB4d1 line then lowNibble line = Pat.base4Delta1.value
  else
    lowNibble line ≠ Pat.zeros.value ∧ lowNibble line ≠ Pat.repWord.value ∧
      lowNibble line ≠ Pat.base8Delta1.value ∧ lowNibble line ≠ Pat.base8Delta2.value ∧
      lowNibble line ≠ Pat.base4Delta1.value

/-! ### Words and lanes -/

variable {line : BitVec 512}

theorem lowNibble_eq_zero (low : field 8 line 0 = 0) : lowNibble line = 0 := by
  have bits : lowNibble line = (field 8 line 0).setWidth 4 := by
    apply BitVec.eq_of_getLsbD_eq
    intro j below
    rw [lowNibble, BitVec.getLsbD_extractLsb', BitVec.getLsbD_setWidth, getLsbD_field]
    simp only [below, show j < 8 by omega, decide_true, Bool.true_and, Nat.zero_mul]
  rw [bits, low]
  rfl

/-- The halves of a 64-bit word. -/
theorem field_low (line : BitVec 512) (i : Nat) : field 32 (field 64 line i) 0 = field 32 line (i * 2) :=
  field_field (q := 2) rfl line i (by decide)

theorem field_high (line : BitVec 512) (i : Nat) :
    field 32 (field 64 line i) 1 = field 32 line (i * 2 + 1) :=
  field_field (q := 2) rfl line i (by decide)

theorem isRepWord_iff : IsRepWord line ↔ ∀ i, i < 8 → field 64 line i = field 64 line 0 := by
  constructor
  · intro rep i below
    induction i with
    | zero => rfl
    | succ i ih => rw [← rep i (by omega), ih (by omega)]
  · intro same i below
    rw [same i (by omega), same (i + 1) (by omega)]

theorem b8d1Data_eq : b8d1Data line = layout 512 8 (field 64 line 0) (delta 64 8 line) := by
  simp only [b8d1Data, setWidth_sub _ _ (show 8 ≤ 64 by decide)]
  rfl

theorem b4d1Data_eq : b4d1Data line = layout 512 16 (field 32 line 0) (delta 32 8 line) := by
  simp only [b4d1Data, setWidth_sub _ _ (show 8 ≤ 32 by decide)]
  rfl

/-! ### What each decoding can give -/

theorem isB8d1_of_decoded {word : BitVec 512} (same : b8d1Line word = line) : IsB8d1 line :=
  same ▸ deltasFit_pack word (by decide) (by decide)

theorem isB4d1_of_decoded {word : BitVec 512} (same : b4d1Line word = line) : IsB4d1 line :=
  same ▸ deltasFit_pack word (by decide) (by decide)

theorem isRepWord_of_decoded {base : BitVec 64} (same : pack 512 (fun _ => base) = line) :
    IsRepWord line := by
  rw [isRepWord_iff, ← same]
  intro i below
  rw [field_pack _ (by omega), field_pack _ (by omega)]

theorem b8d1Line_data (fits : IsB8d1 line) : b8d1Line (b8d1Data line) = line := by
  rw [b8d1Data_eq]
  exact pack_layout (by decide) (by decide) rfl (by decide) fits

theorem b4d1Line_data (fits : IsB4d1 line) : b4d1Line (b4d1Data line) = line := by
  rw [b4d1Data_eq]
  exact pack_layout (by decide) (by decide) rfl (by decide) fits

/-! ### A repeated word -/

/-- The stored word has no differences, of whichever width the decoder takes them. -/
theorem deltaLine_repWord {d q : Nat} (rep : IsRepWord line) (whole : 64 = q * d)
    (room : ∀ i, i < 7 → (q + i + 1) * d ≤ 512) :
    pack 512 (deltaWord 64 d ((field 64 line 0).setWidth 512)) = line := by
  rw [isRepWord_iff] at rep
  have base : field 64 ((field 64 line 0).setWidth 512) 0 = field 64 line 0 := by
    rw [field_setWidth _ (by omega), field_zero, BitVec.setWidth_eq]
  refine ext_field (w := 64) (n := 8) (by decide) (by decide) fun i below => ?_
  rw [field_pack _ (by omega), rep i below]
  cases i with
  | zero => rw [deltaWord_zero, base]
  | succ i =>
    have behind : 64 ≤ (q + i) * d := by rw [Nat.add_mul, ← whole]; exact Nat.le_add_right _ _
    rw [deltaWord_succ whole, base, field_setWidth _ (room i (by omega)), field_behind _ behind,
      add_signExtend_zero]

/-! ### A line with 1-byte deltas, decoded with deltas of 4-byte words -/

/-- The bytes of a word. -/
theorem byte_of_word32 (line : BitVec 512) (i : Nat) {k : Nat} (inside : k < 4) :
    field 8 (field 32 line i) k = field 8 line (i * 4 + k) :=
  field_field rfl line i inside

theorem byte_of_word64 (line : BitVec 512) (i : Nat) {k : Nat} (inside : k < 8) :
    field 8 (field 64 line i) k = field 8 line (i * 8 + k) :=
  field_field rfl line i inside

theorem byte_of_word16 (line : BitVec 512) (i : Nat) {k : Nat} (inside : k < 2) :
    field 8 (field 16 line i) k = field 8 line (i * 2 + k) :=
  field_field rfl line i inside

/-- If the first two 4-byte words agree, so do their low bytes. -/
theorem low_byte_eq (same : field 32 line 1 = field 32 line 0) : field 8 line 4 = field 8 line 0 := by
  have first := byte_of_word32 line 0 (show 0 < 4 by decide)
  have second := byte_of_word32 line 1 (show 0 < 4 by decide)
  rw [same] at second
  exact second.symm.trans first

/-- The lanes of the stored word behind the base: the differences, and then zeros. -/
theorem lane_b8d1 (line : BitVec 512) {k : Nat} (inside : k < 56) :
    field 8 (b8d1Data line) (8 + k) =
      if k + 1 < 8 then delta 64 8 line (k + 1) else 0 := by
  rw [b8d1Data_eq, field_layout_delta (q := 8) _ _ rfl (by omega)]

theorem low_of_b8d1_b4d1 (fits : IsB8d1 line) (same : b4d1Line (b8d1Data line) = line) :
    field 8 line 0 = 0 := by
  have word (i : Nat) (below : i + 2 ≤ 16) : field 32 line (i + 1) = field 32 line 0 +
      (field 8 (b8d1Data line) (4 + i)).signExtend 32 :=
    field_succ_decoded (q := 4) rfl same (by omega)
  have unchanged (k : Nat) (last : 7 ≤ k) (inside : k ≤ 10) :
      field 32 line (k + 5) = field 32 line 0 := by
    have behind : field 8 (b8d1Data line) (8 + k) = 0 := by
      rw [lane_b8d1 line (by omega), if_neg (by omega)]
    rw [word (k + 4) (by omega), show 4 + (k + 4) = 8 + k by omega, behind, add_signExtend_zero]
  -- the word 6 of 8 bytes starts as the base does, so it is the base
  have six := field_of_fits (by decide) (by decide) fits (show 6 < 8 by decide) (by decide)
  have nothing : delta 64 8 line 6 = 0 := by
    have low := congrArg (field 32 · 0) six
    rw [field_add_signExtend _ _ (by decide), field_low, field_low, unchanged 7 (by decide) (by decide)]
      at low
    exact eq_zero_of_add (by decide) low
  rw [nothing, add_signExtend_zero] at six
  have halves : field 32 line 1 = field 32 line 0 := by
    rw [← unchanged 8 (by decide) (by decide), ← field_high line 6, six]
    exact (field_high line 0).symm
  have byte : field 8 (b8d1Data line) 4 = 0 :=
    eq_zero_of_add (by decide) (halves.symm.trans (word 0 (by decide)))
  rw [b8d1Data_eq, field_layout_base (q := 8) _ _ rfl (by decide) (by decide),
    byte_of_word64 line 0 (by decide)] at byte
  exact (low_byte_eq halves).symm.trans byte

/-! ### A line with 1-byte deltas of 4-byte words, decoded with 2-byte deltas -/

/-- A 16-bit number is its two bytes. -/
theorem toNat_pair (x : BitVec 16) :
    x.toNat = (field 8 x 0).toNat + 256 * (field 8 x 1).toNat := by
  have bound := x.isLt
  simp only [field, BitVec.extractLsb'_toNat, Nat.shiftRight_eq_div_pow]
  omega

/-- The lanes of the stored word behind the base: the differences, and then zeros. -/
theorem lane_b4d1 (line : BitVec 512) {k : Nat} (inside : k < 60) :
    field 8 (b4d1Data line) (4 + k) =
      if k + 1 < 16 then delta 32 8 line (k + 1) else 0 := by
  rw [b4d1Data_eq, field_layout_delta (q := 4) _ _ rfl (by omega)]

/-- A 2-byte difference read from the stored word. -/
theorem pair_b4d1 (line : BitVec 512) (k : Nat) :
    (field 16 (b4d1Data line) (2 + k)).toNat =
      (field 8 (b4d1Data line) (4 + 2 * k)).toNat +
        256 * (field 8 (b4d1Data line) (4 + (2 * k + 1))).toNat := by
  rw [toNat_pair, byte_of_word16 _ _ (by decide), byte_of_word16 _ _ (by decide),
    show (2 + k) * 2 + 0 = 4 + 2 * k by omega, show (2 + k) * 2 + 1 = 4 + (2 * k + 1) by omega]

/-- A byte that is the value of a pair without high byte, and the high byte of a pair whose value is a byte. -/
theorem eq_zero_of_pairs {both other low last : BitVec 8} {bare full : BitVec 16}
    (bareBytes : bare.toNat = last.toNat) (fullBytes : full.toNat = low.toNat + 256 * both.toNat)
    (bareValue : both.toInt = bare.toInt) (fullValue : other.toInt = full.toInt) : last = 0 := by
  have lowBound := low.isLt
  have lastBound := last.isLt
  have otherBound := other.isLt
  apply BitVec.eq_of_toNat_eq
  simp only [BitVec.toInt_eq_toNat_cond] at bareValue fullValue
  change last.toNat = 0
  omega

theorem low_of_b4d1_b8d2 (fits : IsB4d1 line) (same : b8d2Line (b4d1Data line) = line) :
    field 8 line 0 = 0 := by
  have word (i : Nat) (below : i + 2 ≤ 8) : field 64 line (i + 1) = field 64 line 0 +
      (field 16 (b4d1Data line) (4 + i)).signExtend 64 :=
    field_succ_decoded (q := 4) rfl same (by omega)
  -- an even 4-byte word has a 1-byte difference and the low part of a 2-byte one
  have even (i : Nat) (below : i + 2 ≤ 8) :
      (delta 32 8 line ((i + 1) * 2)).toInt =
        (field 16 (b4d1Data line) (4 + i)).toInt := by
    have low := congrArg (field 32 · 0) (word i below)
    rw [field_add_signExtend _ _ (by decide), field_low, field_low, Nat.zero_mul,
      field_of_fits (by decide) (by decide) fits (by omega) (by omega), BitVec.add_right_inj] at low
    have values := congrArg BitVec.toInt low
    rwa [BitVec.toInt_signExtend_of_le (by decide), BitVec.toInt_signExtend_of_le (by decide)]
      at values
  have last : field 32 line 15 = field 32 line 1 := by
    have nothing : field 16 (b4d1Data line) 10 = 0 := by
      apply BitVec.eq_of_toNat_eq
      rw [pair_b4d1 line 8, lane_b4d1 line (by decide), lane_b4d1 line (by decide)]
      rfl
    have seven := word 6 (by decide)
    rw [nothing, add_signExtend_zero] at seven
    rw [← field_high line 7, ← field_high line 0, seven]
  -- the difference at 12 is that at 15, so not negative, and as the high byte at 8 it must be 0
  have twelve := even 5 (by decide)
  have eight := even 3 (by decide)
  have pair := pair_b4d1 line 7
  have pair' := pair_b4d1 line 5
  rw [lane_b4d1 line (by decide), lane_b4d1 line (by decide), if_pos (by decide)] at pair pair'
  rw [if_neg (by decide)] at pair
  rw [if_pos (by decide)] at pair'
  have first : delta 32 8 line 1 = 0 := by
    rw [delta, ← last]
    exact eq_zero_of_pairs pair pair' twelve eight
  have halves := field_of_fits (by decide) (by decide) fits (show 1 < 16 by decide) (by decide)
  rw [first, add_signExtend_zero] at halves
  have byte := lane_b4d1 line (show 0 < 60 by decide)
  rw [if_pos (by decide), first] at byte
  have base : field 8 line 4 = field 8 (b4d1Data line) 4 := by
    rw [← byte_of_word64 line 0 (show 4 < 8 by decide), field_zero_decoded same (by decide),
      byte_of_word64 _ 0 (by decide)]
  exact (low_byte_eq halves).symm.trans (base.trans byte)

theorem low_of_raw_b8d2 (same : b8d2Line line = line) : field 8 line 0 = 0 := by
  have one : field 64 line 1 = field 64 line 0 + (field 16 line 4).signExtend 64 :=
    field_succ_decoded (q := 4) (i := 0) rfl same (by decide)
  have low := congrArg (field 16 · 0) one
  rw [field_add_signExtend _ _ (by decide), field_field (q := 4) rfl _ _ (by decide),
    field_field (q := 4) rfl _ _ (by decide), BitVec.signExtend_eq] at low
  have none : field 16 line 0 = 0 := by
    exact BitVec.self_eq_add_left.mp low
  have byte := byte_of_word16 line 0 (show 0 < 2 by decide)
  rw [none] at byte
  exact byte.symm.trans rfl

/-! ### A line that is its own stored word -/

/-- A word near `0` or near the end of the range, as the difference of two 1-byte numbers is. -/
theorem near_zero {b : Nat} {base word : BitVec b} {first last : BitVec 8} (wide : 10 ≤ b)
    (zero : 0 = base + last.signExtend b) (sum : word = base + first.signExtend b) :
    word.toNat ≤ 255 ∨ 2 ^ b - 255 ≤ word.toNat := by
  have power : 2 ^ 10 ≤ 2 ^ b := Nat.pow_le_pow_right (by decide) wide
  have low := first.le_toInt
  have high := first.toInt_lt
  have low' := last.le_toInt
  have high' := last.toInt_lt
  have value := toInt_apart (by decide) (by omega) zero sum
  rw [BitVec.toInt_eq_toNat_cond] at value
  have bound := word.isLt
  generalize 2 ^ b = range at *
  omega

theorem low_of_b8d1_raw (fits : IsB8d1 line) (same : b8d1Data line = line) : field 8 line 0 = 0 := by
  have lane {k : Nat} (inside : k < 56) := same ▸ lane_b8d1 line inside
  have last : field 64 line 7 = 0 := by
    refine ext_field (w := 8) (n := 8) (by decide) (by decide) fun k below => ?_
    rw [byte_of_word64 line 7 below, show 7 * 8 + k = 8 + (48 + k) by omega, lane (by omega),
      if_neg (by omega)]
    exact (field_of_zero k).symm
  have seven := field_of_fits (by decide) (by decide) fits (show 7 < 8 by decide) (by decide)
  have one := field_of_fits (by decide) (by decide) fits (show 1 < 8 by decide) (by decide)
  rw [last] at seven
  have range := near_zero (by decide) seven one
  -- the last difference is byte 6 of the second word, and its byte 7 is zero
  have byte : field 8 line (8 + 6) = delta 64 8 line 7 := lane (show 6 < 56 by decide)
  have top : field 8 line (8 + 7) = 0 := lane (show 7 < 56 by decide)
  rw [show 8 + 6 = 1 * 8 + 6 by rfl, ← byte_of_word64 line 1 (by decide)] at byte
  rw [show 8 + 7 = 1 * 8 + 7 by rfl, ← byte_of_word64 line 1 (by decide)] at top
  have none : field 8 (field 64 line 1) 6 = 0 := by
    have value := congrArg BitVec.toNat top
    apply BitVec.eq_of_toNat_eq
    rw [toNat_field] at value ⊢
    change _ = 0 at value
    change _ = 0
    omega
  rw [← byte, none, add_signExtend_zero] at seven
  have low := byte_of_word64 line 0 (show 0 < 8 by decide)
  rw [← seven] at low
  exact low.symm.trans (field_of_zero 0)

theorem low_of_b4d1_raw (fits : IsB4d1 line) (same : b4d1Data line = line) : field 8 line 0 = 0 := by
  have lane {k : Nat} (inside : k < 60) := same ▸ lane_b4d1 line inside
  have last : field 32 line 15 = 0 := by
    refine ext_field (w := 8) (n := 4) (by decide) (by decide) fun k below => ?_
    rw [byte_of_word32 line 15 below, show 15 * 4 + k = 4 + (56 + k) by omega, lane (by omega),
      if_neg (by omega)]
    exact (field_of_zero k).symm
  have fifteen := field_of_fits (by decide) (by decide) fits (show 15 < 16 by decide) (by decide)
  have four := field_of_fits (by decide) (by decide) fits (show 4 < 16 by decide) (by decide)
  rw [last] at fifteen
  have range := near_zero (by decide) fifteen four
  -- the last difference is byte 2 of the fifth word, and its byte 3 is zero
  have byte : field 8 line (4 + 14) = delta 32 8 line 15 := lane (show 14 < 60 by decide)
  have top : field 8 line (4 + 15) = 0 := lane (show 15 < 60 by decide)
  rw [show 4 + 14 = 4 * 4 + 2 by rfl, ← byte_of_word32 line 4 (by decide)] at byte
  rw [show 4 + 15 = 4 * 4 + 3 by rfl, ← byte_of_word32 line 4 (by decide)] at top
  have none : field 8 (field 32 line 4) 2 = 0 := by
    have value := congrArg BitVec.toNat top
    apply BitVec.eq_of_toNat_eq
    rw [toNat_field] at value ⊢
    change _ = 0 at value
    change _ = 0
    omega
  rw [← byte, none, add_signExtend_zero] at fifteen
  have low := byte_of_word32 line 0 (show 0 < 4 by decide)
  rw [← fifteen] at low
  exact low.symm.trans (field_of_zero 0)

/-! ### A line with 1-byte deltas, decoded with 2-byte deltas -/

/-- A 2-byte difference read from the stored word. -/
theorem pair_b8d1 (line : BitVec 512) (k : Nat) :
    (field 16 (b8d1Data line) (4 + k)).toNat =
      (field 8 (b8d1Data line) (8 + 2 * k)).toNat +
        256 * (field 8 (b8d1Data line) (8 + (2 * k + 1))).toNat := by
  rw [toNat_pair, byte_of_word16 _ _ (by decide), byte_of_word16 _ _ (by decide),
    show (4 + k) * 2 + 0 = 8 + 2 * k by omega, show (4 + k) * 2 + 1 = 8 + (2 * k + 1) by omega]

/-- Decoding is right if the 2-byte differences read have the values of the 1-byte differences. -/
theorem b8d2Line_iff (fits : IsB8d1 line) : b8d2Line (b8d1Data line) = line ↔
    ∀ i, i < 7 → (delta 64 8 line (i + 1)).toInt = (field 16 (b8d1Data line) (4 + i)).toInt := by
  have word (i : Nat) (below : i < 7) : field 64 line (i + 1) =
      field 64 line 0 + (delta 64 8 line (i + 1)).signExtend 64 :=
    field_of_fits (by decide) (by decide) fits (by omega) (by omega)
  constructor
  · intro same i below
    have decoded : field 64 line (i + 1) =
        field 64 line 0 + (field 16 (b8d1Data line) (4 + i)).signExtend 64 :=
      field_succ_decoded (q := 4) rfl same (by omega)
    rw [word i below, BitVec.add_right_inj] at decoded
    have values := congrArg BitVec.toInt decoded
    rwa [BitVec.toInt_signExtend_of_le (by decide), BitVec.toInt_signExtend_of_le (by decide)]
      at values
  · intro values
    have base : field 64 (b8d1Data line) 0 = field 64 line 0 :=
      (field_zero_decoded (b8d1Line_data fits) (by decide)).symm
    refine ext_field (w := 64) (n := 8) (by decide) (by decide) fun i below => ?_
    rw [b8d2Line, field_pack _ (by omega)]
    cases i with
    | zero => rw [deltaWord_zero, base]
    | succ i =>
      have same : (field 16 (b8d1Data line) (4 + i)).signExtend 64 =
          (delta 64 8 line (i + 1)).signExtend 64 := by
        apply BitVec.eq_of_toInt_eq
        rw [BitVec.toInt_signExtend_of_le (by decide), BitVec.toInt_signExtend_of_le (by decide),
          values i (by omega)]
      rw [deltaWord_succ (show 64 = 4 * 16 from rfl), base, same, word i (by omega)]

/-- Where both bytes read are zero, so is the value. -/
theorem pair_eq_zero {i : Nat} (first : field 8 (b8d1Data line) (8 + 2 * i) = 0)
    (second : field 8 (b8d1Data line) (8 + (2 * i + 1)) = 0) :
    field 16 (b8d1Data line) (4 + i) = 0 := by
  apply BitVec.eq_of_toNat_eq
  rw [pair_b8d1, first, second]
  rfl

/-- If only the second 1-byte difference may be other than zero, the first value read is the byte itself. -/
theorem pair_first (line : BitVec 512) (second : field 8 (b8d1Data line) 9 = 0) :
    (field 16 (b8d1Data line) 4).toNat = (delta 64 8 line 1).toNat := by
  have low : field 8 (b8d1Data line) 8 = delta 64 8 line 1 := lane_b8d1 line (show 0 < 56 by decide)
  have pair := pair_b8d1 line 0
  rw [second, low] at pair
  exact pair.trans (Nat.add_zero _)

theorem onlySecondDiffers_of_values
    (values : ∀ i, i < 7 → (delta 64 8 line (i + 1)).toInt = (field 16 (b8d1Data line) (4 + i)).toInt) :
    0 ≤ (delta 64 8 line 1).toInt ∧ ∀ i, i < 8 → 2 ≤ i → delta 64 8 line i = 0 := by
  have none (i : Nat) (below : i < 7) (first : field 8 (b8d1Data line) (8 + 2 * i) = 0)
      (second : field 8 (b8d1Data line) (8 + (2 * i + 1)) = 0) : delta 64 8 line (i + 1) = 0 := by
    apply BitVec.eq_of_toInt_eq
    rw [values i below, pair_eq_zero first second]
    rfl
  have behind (k : Nat) (last : 7 ≤ k) (inside : k < 14) : field 8 (b8d1Data line) (8 + k) = 0 := by
    rw [lane_b8d1 line (by omega), if_neg (by omega)]
  have lane (k : Nat) (inside : k < 7) : field 8 (b8d1Data line) (8 + k) = delta 64 8 line (k + 1) := by
    rw [lane_b8d1 line (by omega), if_pos (by omega)]
  -- the differences vanish from the last one down, as each is read from two later ones
  have seven := none 6 (by decide) (behind 12 (by decide) (by decide)) (behind 13 (by decide) (by decide))
  have six := none 5 (by decide) (behind 10 (by decide) (by decide)) (behind 11 (by decide) (by decide))
  have five := none 4 (by decide) (behind 8 (by decide) (by decide)) (behind 9 (by decide) (by decide))
  have four := none 3 (by decide) ((lane 6 (by decide)).trans seven) (behind 7 (by decide) (by decide))
  have three := none 2 (by decide) ((lane 4 (by decide)).trans five) ((lane 5 (by decide)).trans six)
  have two := none 1 (by decide) ((lane 2 (by decide)).trans three) ((lane 3 (by decide)).trans four)
  refine ⟨?_, fun i below later => ?_⟩
  · have pair := pair_first line ((lane 1 (by decide)).trans two)
    have value := values 0 (by decide)
    have bound := (delta 64 8 line 1).isLt
    rw [Nat.zero_add, Nat.add_zero, BitVec.toInt_eq_toNat_cond (field 16 _ _)] at value
    rw [value]
    split <;> omega
  · have places : i = 2 ∨ i = 3 ∨ i = 4 ∨ i = 5 ∨ i = 6 ∨ i = 7 := by omega
    rcases places with rfl | rfl | rfl | rfl | rfl | rfl
    exacts [two, three, four, five, six, seven]

theorem values_of_onlySecondDiffers (first : 0 ≤ (delta 64 8 line 1).toInt)
    (others : ∀ i, i < 8 → 2 ≤ i → delta 64 8 line i = 0) {i : Nat} (below : i < 7) :
    (delta 64 8 line (i + 1)).toInt = (field 16 (b8d1Data line) (4 + i)).toInt := by
  have lane (k : Nat) (later : 1 ≤ k) (inside : k < 14) : field 8 (b8d1Data line) (8 + k) = 0 := by
    rw [lane_b8d1 line (by omega)]
    split
    · exact others (k + 1) (by omega) (by omega)
    · rfl
  cases i with
  | zero =>
    have pair := pair_first line (lane 1 (by decide) (by decide))
    have bound := (delta 64 8 line 1).isLt
    rw [Nat.zero_add, Nat.add_zero, BitVec.toInt_eq_toNat_cond (field 16 _ _)]
    rw [BitVec.toInt_eq_toNat_cond] at first ⊢
    split at first <;> omega
  | succ i =>
    rw [others (i + 1 + 1) (by omega) (by omega),
      pair_eq_zero (lane _ (by omega) (by omega)) (lane _ (by omega) (by omega))]
    rfl

theorem b8d2Line_b8d1 (fits : IsB8d1 line) :
    b8d2Line (b8d1Data line) = line ↔ OnlySecondDiffers line := by
  have second : (delta 64 8 line 1).toInt = (field 64 line 1 - field 64 line 0).toInt := by
    rw [← BitVec.toInt_signExtend_of_le (show 8 ≤ 64 by decide)]
    exact congrArg BitVec.toInt (signExtend_setWidth (by decide) (by decide) (fits 1 (by decide) (by decide)))
  rw [b8d2Line_iff fits, OnlySecondDiffers, ← second]
  constructor
  · intro values
    obtain ⟨first, others⟩ := onlySecondDiffers_of_values values
    refine ⟨first, fun i below later => ?_⟩
    have word := field_of_fits (by decide) (by decide) fits below (by omega)
    rw [word]
    have none := others i below later
    rw [none, add_signExtend_zero]
  · rintro ⟨first, others⟩ i below
    refine values_of_onlySecondDiffers first (fun k inside later => ?_) below
    rw [delta, others k inside later, BitVec.sub_self]
    rfl

/-! ### A repeated word, decoded with deltas of 4-byte words -/

theorem not_repWord_b4d1 (rep : IsRepWord line) (same : b4d1Line ((field 64 line 0).setWidth 512) = line) :
    line = 0 := by
  rw [isRepWord_iff] at rep
  have word (i : Nat) (below : i + 2 ≤ 16) : field 32 line (i + 1) = field 32 line 0 +
      (field 8 (field 64 line 0) (4 + i)).signExtend 32 := by
    rw [← field_setWidth (N := 512) (field 64 line 0) (by omega)]
    exact field_succ_decoded (q := 4) rfl same (by omega)
  have even (i : Nat) (below : i < 8) : field 32 line (i * 2) = field 32 line 0 := by
    rw [← field_low, rep i below, field_low, Nat.zero_mul]
  have odd (i : Nat) (below : i < 8) : field 32 line (i * 2 + 1) = field 32 line 0 := by
    have behind : field 8 (field 64 line 0) (4 + 4) = 0 := field_behind _ (by decide)
    rw [← field_high, rep i below, ← rep 2 (by decide), field_high, word 4 (by decide), behind,
      add_signExtend_zero]
  have all (k : Nat) (below : k < 16) : field 32 line k = field 32 line 0 := by
    obtain half | half := Nat.mod_two_eq_zero_or_one k
    · rw [show k = k / 2 * 2 by omega, even (k / 2) (by omega)]
    · rw [show k = k / 2 * 2 + 1 by omega, odd (k / 2) (by omega)]
  -- the bytes of the upper half of the base are differences that add nothing
  have upper : field 32 line 1 = 0 := by
    refine ext_field (w := 8) (n := 4) (by decide) (by decide) fun k below => ?_
    rw [byte_of_word32 line 1 below, field_of_zero]
    have byte := eq_zero_of_add (by decide) ((all (k + 1) (by omega)).symm.trans (word k (by omega)))
    rwa [byte_of_word64 line 0 (by omega), Nat.zero_mul, Nat.zero_add] at byte
  refine ext_field (w := 32) (n := 16) (by decide) (by decide) fun k below => ?_
  rw [all k below, ← all 1 (by decide), upper, field_of_zero]

theorem not_repWord_raw (rep : IsRepWord line) (same : (field 64 line 0).setWidth 512 = line) :
    line = 0 := by
  have one : field 64 line 1 = 0 := by
    rw [← same, field_setWidth _ (by decide), field_behind _ (by decide)]
  rw [isRepWord_iff] at rep
  refine ext_field (w := 64) (n := 8) (by decide) (by decide) fun i below => ?_
  rw [rep i below, ← rep 1 (by decide), one]
  exact (field_of_zero i).symm

/-! ### The round trip -/

/-- What the `case` over the tag does. -/
theorem decoded_cases (tag : BitVec 4) (word : BitVec 512) :
    (tag = Pat.zeros.value ∧ decoded tag word = 0) ∨
    (tag = Pat.repWord.value ∧ decoded tag word = pack 512 fun _ => field 64 word 0) ∨
    (tag = Pat.base8Delta1.value ∧ decoded tag word = b8d1Line word) ∨
    (tag = Pat.base8Delta2.value ∧ decoded tag word = b8d2Line word) ∨
    (tag = Pat.base4Delta1.value ∧ decoded tag word = b4d1Line word) ∨
    ((tag ≠ Pat.zeros.value ∧ tag ≠ Pat.repWord.value ∧ tag ≠ Pat.base8Delta1.value ∧
      tag ≠ Pat.base8Delta2.value ∧ tag ≠ Pat.base4Delta1.value) ∧ decoded tag word = word) := by
  fun_cases decoded tag word <;> simp_all [Pat.value]

theorem readBack_repWord (nonzero : line ≠ 0) (rep : IsRepWord line) :
    decoded (lowNibble line) ((field 64 line 0).setWidth 512) = line ↔
      lowNibble line = Pat.repWord.value ∨ lowNibble line = Pat.base8Delta1.value ∨
        lowNibble line = Pat.base8Delta2.value := by
  have base : field 64 ((field 64 line 0).setWidth 512) 0 = field 64 line 0 := by
    rw [field_setWidth _ (by decide), field_zero, BitVec.setWidth_eq]
  obtain ⟨tag, out⟩ | ⟨tag, out⟩ | ⟨tag, out⟩ | ⟨tag, out⟩ | ⟨tag, out⟩ | ⟨tags, out⟩ :=
    decoded_cases (lowNibble line) ((field 64 line 0).setWidth 512)
  · rw [out, tag]
    exact iff_of_false (fun same => nonzero same.symm) (by decide)
  · rw [out, tag, base]
    refine iff_of_true ?_ (by decide)
    refine ext_field (w := 64) (n := 8) (by decide) (by decide) fun i below => ?_
    rw [field_pack _ (by omega), isRepWord_iff.mp rep i below]
  · rw [out, tag]
    exact iff_of_true (deltaLine_repWord (q := 8) rep rfl fun i below => by omega) (by decide)
  · rw [out, tag]
    exact iff_of_true (deltaLine_repWord (q := 4) rep rfl fun i below => by omega) (by decide)
  · rw [out, tag]
    exact iff_of_false (fun same => nonzero (not_repWord_b4d1 rep same)) (by decide)
  · obtain ⟨-, one, two, three, -⟩ := tags
    rw [out]
    refine iff_of_false (fun same => nonzero (not_repWord_raw rep same)) ?_
    rintro (eq | eq | eq)
    exacts [one eq, two eq, three eq]

theorem readBack_b8d1 (nonzero : line ≠ 0) (mixed : ¬ IsRepWord line) (fits : IsB8d1 line) :
    decoded (lowNibble line) (b8d1Data line) = line ↔
      lowNibble line = Pat.base8Delta1.value ∨
        lowNibble line = Pat.base8Delta2.value ∧ OnlySecondDiffers line := by
  obtain ⟨tag, out⟩ | ⟨tag, out⟩ | ⟨tag, out⟩ | ⟨tag, out⟩ | ⟨tag, out⟩ | ⟨tags, out⟩ :=
    decoded_cases (lowNibble line) (b8d1Data line)
  · rw [out, tag]
    exact iff_of_false (fun same => nonzero same.symm) (fun any => any.elim (by decide) fun both =>
      absurd both.1 (by decide))
  · rw [out, tag]
    exact iff_of_false (fun same => mixed (isRepWord_of_decoded same)) (fun any =>
      any.elim (by decide) fun both => absurd both.1 (by decide))
  · rw [out, tag]
    exact iff_of_true (b8d1Line_data fits) (Or.inl rfl)
  · rw [out, tag, b8d2Line_b8d1 fits]
    exact ⟨fun only => Or.inr ⟨rfl, only⟩, fun any => any.elim (fun eq => absurd eq (by decide)) And.right⟩
  · have nibble : lowNibble line ≠ 0 := fun eq => absurd (tag.symm.trans eq) (by decide)
    rw [out, tag]
    exact iff_of_false (fun same => nibble (lowNibble_eq_zero (low_of_b8d1_b4d1 fits same)))
      (fun any => any.elim (by decide) fun both => absurd both.1 (by decide))
  · obtain ⟨zero, -, two, three, -⟩ := tags
    rw [out]
    exact iff_of_false (fun same => zero (lowNibble_eq_zero (low_of_b8d1_raw fits same)))
      (fun any => any.elim two fun both => three both.1)

theorem readBack_b4d1 (nonzero : line ≠ 0) (mixed : ¬ IsRepWord line) (wide : ¬ IsB8d1 line)
    (fits : IsB4d1 line) :
    decoded (lowNibble line) (b4d1Data line) = line ↔ lowNibble line = Pat.base4Delta1.value := by
  obtain ⟨tag, out⟩ | ⟨tag, out⟩ | ⟨tag, out⟩ | ⟨tag, out⟩ | ⟨tag, out⟩ | ⟨tags, out⟩ :=
    decoded_cases (lowNibble line) (b4d1Data line)
  · rw [out, tag]
    exact iff_of_false (fun same => nonzero same.symm) (by decide)
  · rw [out, tag]
    exact iff_of_false (fun same => mixed (isRepWord_of_decoded same)) (by decide)
  · rw [out, tag]
    exact iff_of_false (fun same => wide (isB8d1_of_decoded same)) (by decide)
  · have nibble : lowNibble line ≠ 0 := fun eq => absurd (tag.symm.trans eq) (by decide)
    rw [out, tag]
    exact iff_of_false (fun same => nibble (lowNibble_eq_zero (low_of_b4d1_b8d2 fits same))) (by decide)
  · rw [out, tag]
    exact iff_of_true (b4d1Line_data fits) rfl
  · obtain ⟨zero, -, -, -, five⟩ := tags
    rw [out]
    exact iff_of_false (fun same => zero (lowNibble_eq_zero (low_of_b4d1_raw fits same))) five

theorem readBack_raw (nonzero : line ≠ 0) (mixed : ¬ IsRepWord line) (wide : ¬ IsB8d1 line)
    (wider : ¬ IsB4d1 line) :
    decoded (lowNibble line) line = line ↔
      lowNibble line ≠ Pat.zeros.value ∧ lowNibble line ≠ Pat.repWord.value ∧
        lowNibble line ≠ Pat.base8Delta1.value ∧ lowNibble line ≠ Pat.base8Delta2.value ∧
        lowNibble line ≠ Pat.base4Delta1.value := by
  obtain ⟨tag, out⟩ | ⟨tag, out⟩ | ⟨tag, out⟩ | ⟨tag, out⟩ | ⟨tag, out⟩ | ⟨tags, out⟩ :=
    decoded_cases (lowNibble line) line
  · rw [out]
    exact iff_of_false (fun same => nonzero same.symm) (fun all => all.1 tag)
  · rw [out]
    exact iff_of_false (fun same => mixed (isRepWord_of_decoded same)) (fun all => all.2.1 tag)
  · rw [out]
    exact iff_of_false (fun same => wide (isB8d1_of_decoded same)) (fun all => all.2.2.1 tag)
  · have nibble : lowNibble line ≠ 0 := fun eq => absurd (tag.symm.trans eq) (by decide)
    rw [out]
    exact iff_of_false (fun same => nibble (lowNibble_eq_zero (low_of_raw_b8d2 same)))
      (fun all => all.2.2.2.1 tag)
  · rw [out]
    exact iff_of_false (fun same => wider (isB4d1_of_decoded same)) (fun all => all.2.2.2.2 tag)
  · rw [out]
    exact iff_of_true rfl tags

/-- The stored word starts with the base, so with the low nibble of the line. -/
theorem tag_of_base {word : BitVec 512} {b : Nat} (wide : 4 ≤ b)
    (base : field b word 0 = field b line 0) : word.extractLsb' 0 4 = lowNibble line := by
  have nibble (x : BitVec 512) : x.extractLsb' 0 4 = (field b x 0).setWidth 4 := by
    apply BitVec.eq_of_getLsbD_eq
    intro j below
    rw [BitVec.getLsbD_extractLsb', BitVec.getLsbD_setWidth, getLsbD_field]
    simp only [below, show j < b by omega, decide_true, Bool.true_and, Nat.zero_mul]
  rw [nibble, base, lowNibble, nibble]

/-- The read channel gives back the line the write channel stored exactly if `Recovers` holds. -/
theorem readBack_iff (encoder : BdiEncoder) (decoder : BdiDecoder) (line : BitVec 512) :
    (dramWdata encoder line).bind (rdata decoder) = some line ↔ Recovers line := by
  have read {edge : BdiEncoder} (stored : encoder.posedge true line = edge)
      (valid : edge.compressValid = true) : (dramWdata encoder line).bind (rdata decoder) = some line ↔
        decoded (edge.compDataOut.extractLsb' 0 4) edge.compDataOut = line := by
    have sent : dramWdata encoder line = some edge.compDataOut := by
      rw [dramWdata, stored]
      exact if_pos valid
    rw [sent]
    exact Option.some_inj
  by_cases zero : line = 0
  · have tag : (0 : BitVec 512).extractLsb' 0 4 = Pat.zeros.value := BitVec.extractLsb'_zero
    rw [read (by rw [posedge, if_pos rfl, if_pos zero]) rfl, Recovers, if_pos zero, zero, decoded,
      if_pos tag]
    exact iff_of_true rfl trivial
  by_cases rep : IsRepWord line
  · have base : field 64 ((field 64 line 0).setWidth 512) 0 = field 64 line 0 := by
      rw [field_setWidth _ (by decide), field_zero, BitVec.setWidth_eq]
    rw [read (by rw [posedge, if_pos rfl, if_neg zero, if_pos rep]) rfl, Recovers, if_neg zero,
      if_pos rep, tag_of_base (by decide) base]
    exact readBack_repWord zero rep
  by_cases wide : IsB8d1 line
  · have base := (field_zero_decoded (b8d1Line_data wide) (by decide)).symm
    rw [read (by rw [posedge, if_pos rfl, if_neg zero, if_neg rep, if_pos wide]) rfl, Recovers,
      if_neg zero, if_neg rep, if_pos wide, tag_of_base (by decide) base]
    exact readBack_b8d1 zero rep wide
  by_cases narrow : IsB4d1 line
  · have base := (field_zero_decoded (b4d1Line_data narrow) (by decide)).symm
    rw [read (by rw [posedge, if_pos rfl, if_neg zero, if_neg rep, if_neg wide, if_pos narrow]) rfl,
      Recovers, if_neg zero, if_neg rep, if_neg wide, if_pos narrow, tag_of_base (by decide) base]
    exact readBack_b4d1 zero rep wide narrow
  · rw [read (by rw [posedge, if_pos rfl, if_neg zero, if_neg rep, if_neg wide, if_neg narrow]) rfl,
      Recovers, if_neg zero, if_neg rep, if_neg wide, if_neg narrow]
    exact readBack_raw zero rep wide narrow

/-- A line of eight equal words, as the testbench writes it. Its low nibble is no tag of a compressed line, so the
    reader gives back the base with zeros above it. -/
theorem repeatedWord_lost :
    (dramWdata reset (pack 512 fun _ => (0xCAFEBABEDEADBEEF : BitVec 64))).bind (rdata BdiDecoder.reset) =
      some 0xCAFEBABEDEADBEEF ∧
    (pack 512 fun _ => (0xCAFEBABEDEADBEEF : BitVec 64)) ≠ (0xCAFEBABEDEADBEEF : BitVec 512) := by
  decide +kernel

end Zftl.Legacy
