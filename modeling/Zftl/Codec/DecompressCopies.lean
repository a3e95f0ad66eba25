/-
Module: Zftl.Codec.DecompressCopies
Layer: Codec
Purpose: The copies of the decoder. Each of them stays inside its buffers and extends the agreement with the stream it
  copies to at least the end it is given, whatever it writes beyond. A copy inside the destination may read what
  an earlier one wrote, at a distance at which the stream of the match repeats.
Imports: Mathlib.Tactic.IntervalCases, Zftl.Codec.Lz4Decompress
Trusted boundary: none
Main exports: wildCopy8From_agrees, wildCopy32From_agrees, wildCopy8_agrees, wildCopy32_agrees, copyFirstEight_agrees,
  copyNearEnd_agrees, memcpyUsingOffset_agrees, copyEighteen_agrees
Open obligations: none
-/
import Mathlib.Tactic.IntervalCases
import Zftl.Codec.Lz4Decompress

namespace Zftl.Codec

open Buffer Lz4Format Fallible

variable {srcSize cap : Nat} {src : Buffer Byte srcSize} {dst : Buffer Byte cap} {stream : Nat → Byte}
  {d s e low distance : Nat}

/-! ### Copies from the source -/

theorem wildCopy8From_agrees (limit : Nat) (agrees : dst.Agrees stream d)
    (copied : ∀ k, stream (d + k) = src.cell (s + k))
    (room : d + 8 ≤ limit) (stop : e + 8 ≤ limit + 1) (inside : limit ≤ cap)
    (srcInside : s + (limit - d) ≤ srcSize) :
    ∃ dst', wildCopy8From src dst d s e = .ok dst' ∧ dst'.Agrees stream e := by
  have round : ∀ (dst : Buffer Byte cap) d' s', (dst.Agrees stream d' ∧ d ≤ d' ∧ s' = s + (d' - d)) →
      d' + 8 ≤ limit → ∃ dst', memcpy dst d' src s' 8 = .ok dst' ∧
        (dst'.Agrees stream (d' + 8) ∧ d ≤ d' + 8 ∧ s' + 8 = s + (d' + 8 - d)) := by
    rintro dst d' _ ⟨agrees, behind, rfl⟩ room
    obtain ⟨dst', ok, agrees'⟩ := agrees.memcpy src (s + (d' - d)) 8
      (by omega) (by omega) fun k _ => by
        have value := copied (d' - d + k)
        rwa [← Nat.add_assoc, Nat.add_sub_cancel' behind, ← Nat.add_assoc] at value
    exact ⟨dst', ok, agrees', by omega, by omega⟩
  obtain ⟨dst', d', ok, ⟨agrees', -⟩, -, reached⟩ :=
    copyRounds_rule _ round ⟨agrees, Nat.le_refl d, by rw [Nat.sub_self, Nat.add_zero]⟩ room stop
  exact ⟨dst', ok, agrees'.mono reached⟩

theorem wildCopy32From_agrees (limit : Nat) (agrees : dst.Agrees stream d)
    (copied : ∀ k, stream (d + k) = src.cell (s + k))
    (room : d + 32 ≤ limit) (stop : e + 32 ≤ limit + 1) (inside : limit ≤ cap)
    (srcInside : s + (limit - d) ≤ srcSize) :
    ∃ dst', wildCopy32From src dst d s e = .ok dst' ∧ dst'.Agrees stream e := by
  have round : ∀ (dst : Buffer Byte cap) d' s', (dst.Agrees stream d' ∧ d ≤ d' ∧ s' = s + (d' - d)) →
      d' + 32 ≤ limit →
      ∃ dst', (memcpy dst d' src s' 16 >>= fun dst => memcpy dst (d' + 16) src (s' + 16) 16) = .ok dst' ∧
        (dst'.Agrees stream (d' + 32) ∧ d ≤ d' + 32 ∧ s' + 32 = s + (d' + 32 - d)) := by
    rintro dst d' _ ⟨agrees, behind, rfl⟩ room
    have value : ∀ k, stream (d' + k) = src.cell (s + (d' - d) + k) := fun k => by
      have value := copied (d' - d + k)
      rwa [← Nat.add_assoc, Nat.add_sub_cancel' behind, ← Nat.add_assoc] at value
    obtain ⟨first, ok, agrees⟩ := agrees.memcpy src (s + (d' - d)) 16
      (by omega) (by omega) fun k _ => value k
    obtain ⟨second, ok', agrees⟩ := agrees.memcpy src (s + (d' - d) + 16) 16
      (by omega) (by omega) fun k _ => by rw [Nat.add_assoc, Nat.add_assoc (s + _)]; exact value (16 + k)
    refine ⟨second, ?_, agrees, by omega, by omega⟩
    rw [ok]
    exact ok'
  obtain ⟨dst', d', ok, ⟨agrees', -⟩, -, reached⟩ :=
    copyRounds_rule _ round ⟨agrees, Nat.le_refl d, by rw [Nat.sub_self, Nat.add_zero]⟩ room stop
  exact ⟨dst', ok, agrees'.mono reached⟩

/-! ### Copies inside the destination -/

/-- One copy at a distance at which the stream repeats. -/
theorem moveWithin_agrees (length : Nat) (agrees : dst.Agrees stream d) (shifts : Shifts stream low distance)
    (source : s + distance = d) (above : low ≤ s) (apart : length ≤ distance) (inside : d + length ≤ cap) :
    ∃ dst', moveWithin dst d s length = .ok dst' ∧ dst'.Agrees stream (d + length) := by
  refine agrees.moveWithin inside (by omega) fun k _ => ?_
  have value := shifts (s + k) (by omega)
  rw [← value]
  congr 1
  omega

theorem wildCopy8_agrees (agrees : dst.Agrees stream d) (shifts : Shifts stream low distance)
    (source : s + distance = d) (above : low ≤ s) (apart : 8 ≤ distance) (room : d + 8 ≤ cap)
    (stop : e + 8 ≤ cap + 1) :
    ∃ dst', wildCopy8 dst d s e = .ok dst' ∧ dst'.Agrees stream e := by
  have round : ∀ (dst : Buffer Byte cap) d' s', (dst.Agrees stream d' ∧ s' + distance = d' ∧ low ≤ s') →
      d' + 8 ≤ cap → ∃ dst', moveWithin dst d' s' 8 = .ok dst' ∧
        (dst'.Agrees stream (d' + 8) ∧ s' + 8 + distance = d' + 8 ∧ low ≤ s' + 8) := by
    rintro dst d' s' ⟨agrees, source, above⟩ room
    obtain ⟨dst', ok, agrees'⟩ := moveWithin_agrees 8 agrees shifts source above apart room
    exact ⟨dst', ok, agrees', by omega, by omega⟩
  obtain ⟨dst', d', ok, ⟨agrees', -⟩, -, reached⟩ := copyRounds_rule _ round ⟨agrees, source, above⟩ room stop
  exact ⟨dst', ok, agrees'.mono reached⟩

theorem wildCopy32_agrees (agrees : dst.Agrees stream d) (shifts : Shifts stream low distance)
    (source : s + distance = d) (above : low ≤ s) (apart : 16 ≤ distance) (room : d + 32 ≤ cap)
    (stop : e + 32 ≤ cap + 1) :
    ∃ dst', wildCopy32 dst d s e = .ok dst' ∧ dst'.Agrees stream e := by
  have round : ∀ (dst : Buffer Byte cap) d' s', (dst.Agrees stream d' ∧ s' + distance = d' ∧ low ≤ s') →
      d' + 32 ≤ cap →
      ∃ dst', (moveWithin dst d' s' 16 >>= fun dst => moveWithin dst (d' + 16) (s' + 16) 16) = .ok dst' ∧
        (dst'.Agrees stream (d' + 32) ∧ s' + 32 + distance = d' + 32 ∧ low ≤ s' + 32) := by
    rintro dst d' s' ⟨agrees, source, above⟩ room
    obtain ⟨first, ok, agrees⟩ := moveWithin_agrees 16 agrees shifts source above apart (by omega)
    obtain ⟨second, ok', agrees⟩ := moveWithin_agrees (s := s' + 16) 16 agrees shifts (by omega)
      (by omega) apart (by omega)
    refine ⟨second, ?_, agrees, by omega, by omega⟩
    rw [ok]
    exact ok'
  obtain ⟨dst', d', ok, ⟨agrees', -⟩, -, reached⟩ := copyRounds_rule _ round ⟨agrees, source, above⟩ room stop
  exact ⟨dst', ok, agrees'.mono reached⟩

theorem copyBytes_agrees (agrees : dst.Agrees stream d) (shifts : Shifts stream low distance)
    (source : s + distance = d) (above : low ≤ s) (apart : 1 ≤ distance) (inside : e ≤ cap) :
    ∃ dst', copyBytes dst d s e = .ok dst' ∧ dst'.Agrees stream e := by
  induction left : e - d generalizing dst d s with
  | zero =>
      rw [copyBytes, if_neg (by omega)]
      exact ⟨dst, rfl, agrees.mono (by omega)⟩
  | succ left ih =>
      obtain ⟨first, ok, agrees⟩ := moveWithin_agrees 1 agrees shifts source above apart (by omega)
      obtain ⟨dst', ok', agrees⟩ := ih agrees (s := s + 1) (by omega) (by omega) (by omega)
      refine ⟨dst', ?_, agrees⟩
      rw [copyBytes, if_pos (by omega), ok]
      exact ok'

/-- Writing four bytes behind the agreement. -/
theorem write32_agrees {p : Nat} (value : BitVec 32) (agrees : dst.Agrees stream d) (behind : d ≤ p)
    (inside : p + 4 ≤ cap) : ∃ dst', write32 dst p value = .ok dst' ∧ dst'.Agrees stream d := by
  obtain ⟨dst', ok, cells⟩ := memcpy_eq dst (fun k : Fin 4 => value.extractLsb' (8 * k.val) 8) p 0 4 inside
    (by omega)
  refine ⟨dst', ok, agrees.inside, fun i below => ?_⟩
  rw [cells i, if_neg (by omega)]
  exact agrees.cells i below

/-- Writing four zeros of the stream. -/
theorem write32_zero (agrees : dst.Agrees stream d) (zeros : ∀ k, k < 4 → stream (d + k) = 0)
    (inside : d + 4 ≤ cap) : ∃ dst', write32 dst d 0 = .ok dst' ∧ dst'.Agrees stream (d + 4) := by
  refine agrees.memcpy _ 0 4 inside (by omega) fun k below => ?_
  rw [zeros k below, cell_of_lt _ (by omega)]
  exact (BitVec.extractLsb'_zero).symm

/-! ### Matches -/

variable {out : List Byte} {offset : Nat}

/-- How far into the eight bytes in front of it a short offset sends `match`. -/
def skip (offset : Nat) : Nat := ((inc32table.getD offset 0 : Int) - dec64table.getD offset 0).toNat

/-- The tables turn a short offset into distances at which the match repeats. -/
theorem short_distances : ∀ offset, offset < 8 → 1 ≤ offset →
    inc32table.getD offset 0 ≤ offset ∧ offset ∣ 4 + offset - inc32table.getD offset 0 ∧
      (skip offset : Int) = inc32table.getD offset 0 - dec64table.getD offset 0 ∧ skip offset ≤ offset ∧
      offset ∣ 8 + offset - skip offset := by
  decide

theorem toNat_sub_dec64 {m : Nat} (short : offset < 8) :
    (((m + inc32table.getD offset 0 : Nat) : Int) - dec64table.getD offset 0).toNat = m + skip offset := by
  have exact_skip : ∀ offset, offset < 8 →
      (skip offset : Int) = inc32table.getD offset 0 - dec64table.getD offset 0 := by decide
  have value := exact_skip offset short
  omega

theorem matchStream_shifts_of_dvd (reaches : offset ≤ out.length) (multiple : offset ∣ distance) :
    Shifts (matchStream offset out) (out.length - offset) distance := by
  obtain ⟨times, rfl⟩ := multiple
  rw [Nat.mul_comm]
  exact (matchStream_shifts reaches).mul times

/-- The first eight bytes of a match leave `match` at a distance of at least eight at which the match repeats. -/
theorem copyFirstEight_agrees (agrees : dst.Agrees (matchStream offset out) out.length)
    (reaches : offset ≤ out.length) (room : out.length + 8 ≤ cap) :
    ∃ dst' mtch distance,
      copyFirstEight dst out.length (out.length - offset) offset = .ok (dst', mtch) ∧
        dst'.Agrees (matchStream offset out) (out.length + 8) ∧
        Shifts (matchStream offset out) (out.length - offset) distance ∧ mtch + distance = out.length + 8 ∧
        out.length - offset ≤ mtch ∧ 8 ≤ distance := by
  have shifts := matchStream_shifts reaches
  rw [copyFirstEight]
  by_cases short : offset < 8
  · rw [if_pos short]
    by_cases zero : offset = 0
    · subst zero
      rw [Nat.sub_zero]
      have any := matchStream_zero_shifts out
      obtain ⟨dst0, ok0, agrees⟩ := write32_zero agrees (fun k _ => matchStream_zero (by omega)) (by omega)
      obtain ⟨dst1, ok1, agrees⟩ := moveWithin_self out.length 1 agrees (by omega)
      obtain ⟨dst2, ok2, agrees⟩ := moveWithin_self (out.length + 1) 1 agrees (by omega)
      obtain ⟨dst3, ok3, agrees⟩ := moveWithin_self (out.length + 2) 1 agrees (by omega)
      obtain ⟨dst4, ok4, agrees⟩ := moveWithin_self (out.length + 3) 1 agrees (by omega)
      obtain ⟨dst5, ok5, agrees⟩ := moveWithin_agrees (s := out.length) 4 agrees (any 4) rfl
        (Nat.le_refl _) (Nat.le_refl _) (by omega)
      refine ⟨dst5, out.length, 8, ?_, agrees, any 8, rfl, Nat.le_refl _, Nat.le_refl _⟩
      rw [ok0, ok_bind, ok1, ok_bind, ok2, ok_bind, ok3, ok_bind, ok4, ok_bind]
      change (moveWithin dst4 (out.length + 4) out.length 4 >>= _) = _
      rw [ok5]
      rfl
    · obtain ⟨inc_le, middle, -, skip_le, far⟩ := short_distances offset short (by omega)
      have first : offset ∣ offset := Nat.dvd_refl offset
      have byOffset := matchStream_shifts_of_dvd reaches first
      obtain ⟨dst0, ok0, agrees⟩ := write32_agrees 0 agrees (Nat.le_refl _) (by omega)
      obtain ⟨dst1, ok1, agrees⟩ := moveWithin_agrees (s := out.length - offset) 1 agrees byOffset
        (by omega) (by omega) (by omega) (by omega)
      obtain ⟨dst2, ok2, agrees⟩ := moveWithin_agrees (s := out.length - offset + 1) 1 agrees byOffset
        (by omega) (by omega) (by omega) (by omega)
      obtain ⟨dst3, ok3, agrees⟩ := moveWithin_agrees (s := out.length - offset + 2) 1 agrees byOffset
        (by omega) (by omega) (by omega) (by omega)
      obtain ⟨dst4, ok4, agrees⟩ := moveWithin_agrees (s := out.length - offset + 3) 1 agrees byOffset
        (by omega) (by omega) (by omega) (by omega)
      obtain ⟨dst5, ok5, agrees⟩ := moveWithin_agrees (s := out.length - offset + inc32table.getD offset 0)
        4 agrees (matchStream_shifts_of_dvd reaches middle) (by omega) (by omega) (by omega) (by omega)
      refine ⟨dst5, out.length - offset + skip offset, 8 + offset - skip offset, ?_, agrees,
        matchStream_shifts_of_dvd reaches far, by omega, by omega, by omega⟩
      rw [ok0, ok_bind, ok1, ok_bind, ok2, ok_bind, ok3, ok_bind, ok4, ok_bind]
      dsimp only
      rw [ok5, ok_bind, toNat_sub_dec64 short]
      rfl
  · rw [if_neg short]
    obtain ⟨dst', ok, agrees⟩ := moveWithin_agrees (s := out.length - offset) 8 agrees shifts
      (by omega) (Nat.le_refl _) (by omega) room
    refine ⟨dst', out.length - offset + 8, offset, ?_, agrees, shifts, by omega, by omega, by omega⟩
    rw [ok]
    rfl

/-- The end of a match near the end of the destination. -/
theorem copyNearEnd_agrees (agrees : dst.Agrees stream d) (shifts : Shifts stream low distance)
    (source : s + distance = d) (above : low ≤ s) (apart : 8 ≤ distance) (inside : e ≤ cap) (positive : 7 ≤ cap) :
    ∃ dst', copyNearEnd dst d s e = .ok dst' ∧ dst'.Agrees stream e := by
  rw [copyNearEnd, wildCopyLength]
  by_cases far : d < cap - (8 - 1)
  · rw [if_pos far]
    obtain ⟨first, ok, agrees⟩ := wildCopy8_agrees (e := cap - (8 - 1)) agrees shifts source above apart (by omega)
      (by omega)
    obtain ⟨dst', ok', agrees⟩ := copyBytes_agrees (s := s + (cap - (8 - 1) - d)) agrees shifts (by omega)
      (by omega) (by omega) inside
    refine ⟨dst', ?_, agrees⟩
    rw [ok]
    exact ok'
  · rw [if_neg far]
    exact copyBytes_agrees agrees shifts source above (by omega) inside

/-- The pattern of an offset of 1, 2 or 4 holds the first eight bytes of the match. -/
theorem offsetPattern_eq (agrees : dst.Agrees (matchStream offset out) out.length) (reaches : offset ≤ out.length)
    (pattern : offset = 1 ∨ offset = 2 ∨ offset = 4) :
    ∃ v, offsetPattern dst (out.length - offset) offset = .ok (some v) ∧
      ∀ k, k < 8 → matchStream offset out (out.length + k) = v.cell k := by
  have inside := agrees.inside
  have source : ∀ k, k < offset →
      dst.cell (out.length - offset + k) = matchStream offset out (out.length - offset + k) :=
    fun k below => agrees.cells _ (by omega)
  -- a byte of the match is one of the `offset` bytes in front of it
  have back : ∀ k r, k % offset = r →
      matchStream offset out (out.length + k) = matchStream offset out (out.length - offset + r) := by
    rintro k _ rfl
    have shifts := (matchStream_shifts reaches).mul (k / offset + 1) (out.length - offset + k % offset) (by omega)
    rw [← shifts]
    congr 1
    rw [Nat.succ_mul, Nat.mul_comm]
    have parts := Nat.div_add_mod k offset
    omega
  obtain rfl | rfl | rfl := pattern
  · have byte := source 0 (by omega)
    rw [Nat.add_zero, cell_of_lt _ (by omega)] at byte
    refine ⟨Buffer.fill 8 (dst ⟨out.length - 1, by omega⟩), ?_, fun k below => ?_⟩
    · rw [offsetPattern, readByte, dif_pos (by omega)]
      rfl
    · rw [back k 0 (Nat.mod_one k), Nat.add_zero, cell_of_lt _ below, ← byte]
      rfl
  · obtain ⟨v1, ok1, cells1⟩ := memcpy_eq (Buffer.fill 8 0 : Buffer Byte 8) dst 0 (out.length - 2) 2
      (by omega) (by omega)
    obtain ⟨v2, ok2, cells2⟩ := memcpy_eq v1 dst 2 (out.length - 2) 2 (by omega) (by omega)
    obtain ⟨v3, ok3, cells3⟩ := memcpy_eq v2 v2 4 0 4 (by omega) (by omega)
    refine ⟨v3, ?_, fun k below => ?_⟩
    · change (memcpy (Buffer.fill 8 0 : Buffer Byte 8) 0 dst (out.length - 2) 2 >>= _) = _
      rw [ok1, ok_bind, ok2, ok_bind, ok3]
      rfl
    · rw [back k (k % 2) rfl, ← source (k % 2) (Nat.mod_lt _ (by omega)), cells3 k, cells2, cells1, cells2 k, cells1 k]
      interval_cases k <;> rfl
  · obtain ⟨v1, ok1, cells1⟩ := memcpy_eq (Buffer.fill 8 0 : Buffer Byte 8) dst 0 (out.length - 4) 4
      (by omega) (by omega)
    obtain ⟨v2, ok2, cells2⟩ := memcpy_eq v1 dst 4 (out.length - 4) 4 (by omega) (by omega)
    refine ⟨v2, ?_, fun k below => ?_⟩
    · change (memcpy (Buffer.fill 8 0 : Buffer Byte 8) 0 dst (out.length - 4) 4 >>= _) = _
      rw [ok1, ok_bind, ok2]
      rfl
    · rw [back k (k % 4) rfl, ← source (k % 4) (Nat.mod_lt _ (by omega)), cells2 k, cells1 k]
      interval_cases k <;> rfl

theorem memcpyUsingOffsetBase_agrees (agrees : dst.Agrees (matchStream offset out) out.length)
    (reaches : offset ≤ out.length) (other : ¬(offset = 1 ∨ offset = 2 ∨ offset = 4)) (room : out.length + 16 ≤ cap)
    (stop : e + 8 ≤ cap + 1) :
    ∃ dst', memcpyUsingOffsetBase dst out.length (out.length - offset) e offset = .ok dst' ∧
      dst'.Agrees (matchStream offset out) e := by
  have shifts := matchStream_shifts reaches
  rw [memcpyUsingOffsetBase]
  by_cases short : offset < 8
  · rw [if_pos short]
    by_cases zero : offset = 0
    · subst zero
      rw [Nat.sub_zero]
      have any := matchStream_zero_shifts out
      obtain ⟨dst0, ok0, agrees⟩ := write32_zero agrees (fun k _ => matchStream_zero (by omega)) (by omega)
      obtain ⟨dst1, ok1, agrees⟩ := moveWithin_self out.length 2 agrees (by omega)
      obtain ⟨dst2, ok2, agrees⟩ := moveWithin_self (out.length + 2) 2 agrees (by omega)
      obtain ⟨dst3, ok3, agrees⟩ := moveWithin_agrees (s := out.length) 4 agrees (any 4) rfl
        (Nat.le_refl _) (Nat.le_refl _) (by omega)
      obtain ⟨dst4, ok4, agrees⟩ := wildCopy8_agrees (e := e) (s := out.length) agrees (any 8) rfl (Nat.le_refl _)
        (Nat.le_refl _) (by omega) stop
      refine ⟨dst4, ?_, agrees⟩
      rw [ok0, ok_bind, ok1, ok_bind, ok2, ok_bind]
      change (moveWithin dst2 (out.length + 4) out.length 4 >>= _) = _
      rw [ok3]
      exact ok4
    · obtain ⟨inc_le, middle, -, skip_le, far⟩ := short_distances offset short (by omega)
      obtain ⟨dst0, ok0, agrees⟩ := write32_agrees 0 agrees (Nat.le_refl _) (by omega)
      obtain ⟨dst1, ok1, agrees⟩ := moveWithin_agrees (s := out.length - offset) 2 agrees shifts
        (by omega) (by omega) (by omega) (by omega)
      obtain ⟨dst2, ok2, agrees⟩ := moveWithin_agrees (s := out.length - offset + 2) 2 agrees shifts
        (by omega) (by omega) (by omega) (by omega)
      obtain ⟨dst3, ok3, agrees⟩ := moveWithin_agrees (s := out.length - offset + inc32table.getD offset 0)
        4 agrees (matchStream_shifts_of_dvd reaches middle) (by omega) (by omega) (by omega) (by omega)
      obtain ⟨dst4, ok4, agrees⟩ := wildCopy8_agrees (e := e) (s := out.length - offset + skip offset) agrees
        (matchStream_shifts_of_dvd reaches far) (by omega) (by omega) (by omega) (by omega) stop
      refine ⟨dst4, ?_, agrees⟩
      rw [ok0, ok_bind, ok1, ok_bind, ok2, ok_bind]
      dsimp only
      rw [ok3, ok_bind, toNat_sub_dec64 short, ok4]
  · rw [if_neg short]
    obtain ⟨dst1, ok1, agrees⟩ := moveWithin_agrees (s := out.length - offset) 8 agrees shifts
      (by omega) (Nat.le_refl _) (by omega) (by omega)
    obtain ⟨dst2, ok2, agrees⟩ := wildCopy8_agrees (e := e) (s := out.length - offset + 8) agrees shifts
      (by omega) (by omega) (by omega) (by omega) stop
    refine ⟨dst2, ?_, agrees⟩
    rw [ok1]
    exact ok2

/-- A match with any offset, copied in steps of eight bytes. -/
theorem memcpyUsingOffset_agrees (agrees : dst.Agrees (matchStream offset out) out.length)
    (reaches : offset ≤ out.length) (room : out.length + 16 ≤ cap) (stop : e + 8 ≤ cap + 1) :
    ∃ dst', memcpyUsingOffset dst out.length (out.length - offset) e offset = .ok dst' ∧
      dst'.Agrees (matchStream offset out) e := by
  by_cases pattern : offset = 1 ∨ offset = 2 ∨ offset = 4
  · obtain ⟨v, ok, cells⟩ := offsetPattern_eq agrees reaches pattern
    have eight : offset ∣ 8 := by
      obtain rfl | rfl | rfl := pattern <;> decide
    have shifts := matchStream_shifts_of_dvd reaches eight
    -- each round writes the same eight bytes
    have round : ∀ (dst : Buffer Byte cap) d' (s' : Nat),
        (dst.Agrees (matchStream offset out) d' ∧ ∃ times, d' = out.length + times * 8) → d' + 8 ≤ cap →
        ∃ dst', memcpy dst d' v 0 8 = .ok dst' ∧
          (dst'.Agrees (matchStream offset out) (d' + 8) ∧ ∃ times, d' + 8 = out.length + times * 8) := by
      rintro dst _ - ⟨agrees, times, rfl⟩ room
      obtain ⟨dst', ok, agrees⟩ := agrees.memcpy v 0 8 room (by omega)
        fun k below => by
          have value := (shifts.mul times) (out.length + k) (by omega)
          rw [Nat.zero_add, ← cells k below, ← value]
          congr 1
          omega
      exact ⟨dst', ok, agrees, times + 1, by omega⟩
    obtain ⟨dst', d', ok', ⟨agrees', -⟩, -, reached⟩ :=
      copyRounds_rule (fun (dst : Buffer Byte cap) d' _ => dst.Agrees (matchStream offset out) d' ∧
        ∃ times, d' = out.length + times * 8) (s := 0) round ⟨agrees, 0, by omega⟩ (by omega) stop
    refine ⟨dst', ?_, agrees'.mono reached⟩
    rw [memcpyUsingOffset, ok]
    exact ok'
  · have none : offsetPattern dst (out.length - offset) offset = .ok none := by
      rw [offsetPattern]
      · rfl
      · exact fun one => pattern (Or.inl one)
      · exact fun two => pattern (Or.inr (Or.inl two))
      · exact fun four => pattern (Or.inr (Or.inr four))
    rw [memcpyUsingOffset, none]
    exact memcpyUsingOffsetBase_agrees agrees reaches pattern room stop

/-- Eighteen bytes of a match with an offset of eight or more. -/
theorem copyEighteen_agrees (agrees : dst.Agrees (matchStream offset out) out.length)
    (reaches : offset ≤ out.length) (long : 8 ≤ offset) (room : out.length + 18 ≤ cap) :
    ∃ dst', copyEighteen dst out.length (out.length - offset) = .ok dst' ∧
      dst'.Agrees (matchStream offset out) (out.length + 18) := by
  have shifts := matchStream_shifts reaches
  obtain ⟨first, ok, agrees⟩ := moveWithin_agrees (s := out.length - offset) 8 agrees shifts
    (by omega) (Nat.le_refl _) long (by omega)
  obtain ⟨second, ok', agrees⟩ := moveWithin_agrees (s := out.length - offset + 8) 8 agrees shifts
    (by omega) (by omega) long (by omega)
  obtain ⟨third, ok'', agrees⟩ := moveWithin_agrees (s := out.length - offset + 16) 2 agrees shifts
    (by omega) (by omega) (by omega) (by omega)
  refine ⟨third, ?_, agrees⟩
  rw [copyEighteen, ok, ok_bind, ok', ok_bind]
  exact ok''

end Zftl.Codec
