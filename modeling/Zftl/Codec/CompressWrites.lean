/-
Module: Zftl.Codec.CompressWrites
Layer: Codec
Purpose: What the compressor writes. Each of its writes puts the bytes of the format behind the ones the destination
  begins with, given room for what it touches on the way: four bytes at a time for a long match, eight at a time for
  literals.
Imports: Zftl.Codec.DecompressSteps, Zftl.Codec.Lz4Compress
Trusted boundary: none
Main exports: extension_eq, writeRunToken_begins, encodeMatchLength_begins, encodeLiterals_begins,
  encodeLastLiterals_begins
Open obligations: none
-/
import Zftl.Codec.DecompressSteps
import Zftl.Codec.Lz4Compress

namespace Zftl.Codec

open Buffer Lz4Format Fallible

variable {srcSize cap : Nat} {src : Buffer Byte srcSize} {dst : Buffer Byte cap} {bytes front back : List Byte}

/-! ### Bytes -/

theorem writeByte_begins (begins : dst.Begins bytes) (room : bytes.length < cap) (value : Byte) :
    ∃ dst', writeByte dst bytes.length value = .ok dst' ∧ dst'.Begins (bytes ++ [value]) := by
  obtain ⟨dst', ok, begins⟩ := begins.memcpy (fun _ : Fin 1 => value) 0 1 room (Nat.le_refl 1)
  exact ⟨dst', ok, begins⟩

theorem writeLE16_begins (begins : dst.Begins bytes) (room : bytes.length + 2 ≤ cap) (value : Nat) :
    ∃ dst', writeLE16 dst bytes.length value = .ok dst' ∧
      dst'.Begins (bytes ++ [BitVec.ofNat 8 value, BitVec.ofNat 8 (value / 256)]) := by
  obtain ⟨first, ok, begins⟩ := writeByte_begins begins (by omega) (BitVec.ofNat 8 value)
  obtain ⟨second, ok', begins⟩ := writeByte_begins begins (by rw [List.length_append, List.length_singleton]; omega)
    (BitVec.ofNat 8 (value / 256))
  rw [List.length_append, List.length_singleton] at ok'
  rw [List.append_assoc] at begins
  refine ⟨second, ?_, begins⟩
  rw [writeLE16, ok, ok_bind, ok']

theorem addToToken_begins {token : Byte} (begins : dst.Begins (front ++ token :: back)) (value : Nat) :
    ∃ dst', addToToken dst front.length value = .ok dst' ∧
      dst'.Begins (front ++ (token + BitVec.ofNat 8 value) :: back) := by
  have inside := begins.inside
  rw [List.length_append, List.length_cons] at inside
  have cell := begins.agrees.cells front.length (by rw [List.length_append, List.length_cons]; omega)
  rw [List.getD_append_right _ _ _ _ (Nat.le_refl _), Nat.sub_self, List.getD_cons_zero] at cell
  rw [addToToken, readByte_of_lt (by omega), ok_bind, cell]
  exact begins.set _

/-- Four full bytes. -/
theorem write32_full (begins : dst.Begins bytes) (room : bytes.length + 4 ≤ cap) :
    ∃ dst', write32 dst bytes.length 0xFFFFFFFF = .ok dst' ∧ dst'.Begins (bytes ++ List.replicate 4 255) := by
  obtain ⟨dst', ok, begins⟩ :=
    begins.memcpy (fun k : Fin 4 => (0xFFFFFFFF : BitVec 32).extractLsb' (8 * k.val) 8) 0 4 room (Nat.le_refl 4)
  have full : Buffer.slice (fun k : Fin 4 => (0xFFFFFFFF : BitVec 32).extractLsb' (8 * k.val) 8) 0 4 =
      List.replicate 4 255 := by decide
  rw [full] at begins
  exact ⟨dst', ok, begins⟩

/-! ### Lengths -/

/-- The extension bytes of a length: full ones, and the rest. -/
theorem extension_eq (length : Nat) :
    extension length = List.replicate (length / 255) 255 ++ [BitVec.ofNat 8 (length % 255)] := by
  induction length using Nat.strongRecOn with
  | _ length ih =>
    by_cases small : length < 255
    · rw [extension_of_lt small, Nat.div_eq_of_lt small, Nat.mod_eq_of_lt small]
      rfl
    · have quotient : length / 255 = (length - 255) / 255 + 1 := by omega
      have remainder : length % 255 = (length - 255) % 255 := by omega
      rw [extension_of_le (by omega), ih (length - 255) (by omega), quotient, remainder]
      rfl

theorem length_extension (length : Nat) : (extension length).length = length / 255 + 1 := by
  rw [extension_eq, List.length_append, List.length_replicate, List.length_singleton]

theorem length_lengthTail (length : Nat) :
    (lengthTail length).length = if length < 15 then 0 else (length - 15) / 255 + 1 := by
  rw [lengthTail]
  split
  · rfl
  · exact length_extension _

/-- The extension bytes of a length that is not written beyond the destination. -/
theorem writeLength_begins (len : Nat) (begins : dst.Begins bytes)
    (room : bytes.length + (extension len).length ≤ cap) :
    ∃ dst', writeLength dst bytes.length len = .ok (bytes.length + (extension len).length, dst') ∧
      dst'.Begins (bytes ++ extension len) := by
  induction len using Nat.strongRecOn generalizing dst bytes with
  | _ len ih =>
    rw [writeLength]
    by_cases large : 255 ≤ len
    · rw [extension_of_le large, List.length_cons] at room ⊢
      obtain ⟨first, ok, begins⟩ := writeByte_begins begins (by omega) 255
      obtain ⟨dst', ok', begins⟩ := ih (len - 255) (by omega) begins
        (by rw [List.length_append, List.length_singleton]; omega)
      rw [List.length_append, List.length_singleton] at ok'
      rw [List.append_assoc] at begins
      refine ⟨dst', ?_, begins⟩
      rw [if_pos large, ok, ok_bind, ok', Nat.add_assoc, Nat.add_comm 1]
    · rw [extension_of_lt (by omega)] at room ⊢
      obtain ⟨dst', ok, begins⟩ := writeByte_begins begins room (BitVec.ofNat 8 len)
      refine ⟨dst', ?_, begins⟩
      rw [if_neg large, ok]
      rfl

/-- A run length below fifteen in the high nibble. -/
theorem token_of_lt {length : Nat} (short : length < 15) :
    BitVec.ofNat 8 (length <<< 4) = (nibble length ++ 0#4 : Byte) := by
  have value := (nibble_of_lt short).2
  apply BitVec.eq_of_toNat_eq
  rw [BitVec.toNat_append, value, BitVec.toNat_ofNat, BitVec.toNat_ofNat, Nat.zero_mod, Nat.or_zero,
    Nat.shiftLeft_eq]
  omega

theorem token_add {high : BitVec 4} {value : Nat} (small : value < 16) :
    (high ++ 0#4 : Byte) + BitVec.ofNat 8 value = high ++ BitVec.ofNat 4 value := by
  have bound : high.toNat < 2 ^ 4 := high.isLt
  apply BitVec.eq_of_toNat_eq
  rw [BitVec.toNat_add, BitVec.toNat_append, BitVec.toNat_append, BitVec.toNat_ofNat, BitVec.toNat_ofNat,
    BitVec.toNat_ofNat, Nat.zero_mod, Nat.or_zero, ← Nat.shiftLeft_add_eq_or_of_lt (Nat.mod_lt _ (by decide)),
    Nat.shiftLeft_eq]
  omega

/-- The token of a run of literals and its extension bytes. -/
theorem writeRunToken_begins (length : Nat) (begins : dst.Begins bytes)
    (room : bytes.length + 1 + (lengthTail length).length ≤ cap) :
    ∃ dst', writeRunToken dst bytes.length length = .ok (bytes.length + 1 + (lengthTail length).length, dst') ∧
      dst'.Begins (bytes ++ (nibble length ++ 0#4 : Byte) :: lengthTail length) := by
  have fifteen : runMask = 15 := rfl
  rw [writeRunToken]
  by_cases long : runMask ≤ length
  · have tail : lengthTail length = extension (length - 15) := if_neg (by omega)
    rw [tail] at room ⊢
    obtain ⟨first, ok, begins⟩ := writeByte_begins begins (by omega) (BitVec.ofNat 8 (runMask <<< 4))
    obtain ⟨dst', ok', begins⟩ := writeLength_begins (length - 15) begins
      (by rw [List.length_append, List.length_singleton]; exact room)
    rw [List.length_append, List.length_singleton] at ok'
    rw [List.append_assoc] at begins
    refine ⟨dst', ?_, ?_⟩
    · rw [if_pos long, ok, ok_bind]
      exact ok'
    · rw [nibble_of_ge (by omega)]
      exact begins
  · have tail : lengthTail length = [] := if_pos (by omega)
    rw [tail] at room ⊢
    obtain ⟨dst', ok, begins⟩ := writeByte_begins begins (by omega) (BitVec.ofNat 8 (length <<< 4))
    rw [token_of_lt (by omega)] at begins
    refine ⟨dst', ?_, begins⟩
    rw [if_neg long, ok]
    rfl

/-- The loop over four full bytes writes them in front of it, too. -/
theorem writeFours_begins (matchCode : Nat) (begins : dst.Begins (bytes ++ List.replicate 4 255))
    (room : bytes.length + matchCode / 255 + 4 ≤ cap) :
    ∃ dst' rounds, writeFours dst bytes.length matchCode =
        .ok (bytes.length + 4 * rounds, matchCode - 4 * 255 * rounds, dst') ∧ 4 * 255 * rounds ≤ matchCode ∧
      matchCode < 4 * 255 * (rounds + 1) ∧ dst'.Begins (bytes ++ List.replicate (4 * rounds + 4) 255) := by
  induction matchCode using Nat.strongRecOn generalizing dst bytes with
  | _ matchCode ih =>
    rw [writeFours]
    by_cases more : 4 * 255 ≤ matchCode
    · have length : (bytes ++ List.replicate 4 255).length = bytes.length + 4 := by
        rw [List.length_append, List.length_replicate]
      obtain ⟨first, ok, begins⟩ := write32_full begins (by omega)
      obtain ⟨dst', rounds, ok', within, below, begins⟩ := ih (matchCode - 4 * 255) (by omega) begins (by omega)
      rw [length] at ok ok'
      refine ⟨dst', rounds + 1, ?_, by omega, by omega, ?_⟩
      · have position : bytes.length + 4 + 4 * rounds = bytes.length + 4 * (rounds + 1) := by omega
        have left : matchCode - 4 * 255 - 4 * 255 * rounds = matchCode - 4 * 255 * (rounds + 1) := by omega
        rw [if_pos more, ok, ok_bind, ok', position, left]
      · rw [List.append_assoc, List.replicate_append_replicate] at begins
        have sum : 4 * (rounds + 1) + 4 = 4 + (4 * rounds + 4) := by omega
        rwa [sum]
    · refine ⟨dst, 0, ?_, by omega, by omega, begins⟩
      rw [if_neg more]
      rfl

/-- The length of a match goes into the token and behind the offset. -/
theorem encodeMatchLength_begins {high : BitVec 4} (matchCode : Nat)
    (begins : dst.Begins (front ++ (high ++ 0#4 : Byte) :: back))
    (room : front.length + 1 + back.length + (matchCode + 240) / 255 + 3 ≤ cap) :
    ∃ dst', encodeMatchLength dst front.length (front.length + 1 + back.length) matchCode =
        .ok (front.length + 1 + back.length + (lengthTail matchCode).length, dst') ∧
      dst'.Begins (front ++ (high ++ nibble matchCode : Byte) :: (back ++ lengthTail matchCode)) := by
  have fifteen : mlMask = 15 := rfl
  rw [encodeMatchLength]
  by_cases long : mlMask ≤ matchCode
  · have tail : lengthTail matchCode = extension (matchCode - 15) := if_neg (by omega)
    obtain ⟨dst1, ok1, begins⟩ := addToToken_begins begins mlMask
    rw [token_add (by omega)] at begins
    have total : (front ++ (high ++ BitVec.ofNat 4 mlMask : Byte) :: back).length = front.length + 1 + back.length := by
      rw [List.length_append, List.length_cons]
      omega
    obtain ⟨dst2, ok2, begins⟩ := write32_full begins (by omega)
    obtain ⟨dst3, rounds, ok3, within, below, begins⟩ := writeFours_begins (matchCode - mlMask) begins (by omega)
    rw [total] at ok2 ok3
    -- of the full bytes written, `matchCode / 255` belong to the length
    have split : 4 * rounds + 4 =
        (matchCode - mlMask) / 255 + (4 * rounds + 4 - (matchCode - mlMask) / 255) := by omega
    rw [split, ← List.replicate_append_replicate, ← List.append_assoc] at begins
    have position : ((front ++ (high ++ BitVec.ofNat 4 mlMask : Byte) :: back) ++
        List.replicate ((matchCode - mlMask) / 255) 255).length =
        front.length + 1 + back.length + 4 * rounds + (matchCode - mlMask - 4 * 255 * rounds) / 255 := by
      rw [List.length_append, List.length_replicate, total]
      omega
    obtain ⟨dst4, ok4, begins⟩ := writeByte_begins begins.left (by omega)
      (BitVec.ofNat 8 ((matchCode - mlMask - 4 * 255 * rounds) % 255))
    have remainder : (matchCode - mlMask - 4 * 255 * rounds) % 255 = (matchCode - mlMask) % 255 := by omega
    refine ⟨dst4, ?_, ?_⟩
    · rw [if_pos long, ok1, ok_bind, ok2, ok_bind, ok3, ok_bind]
      dsimp only
      rw [← position, ok4, ok_bind, position, tail, length_extension]
      have same : front.length + 1 + back.length + 4 * rounds + (matchCode - mlMask - 4 * 255 * rounds) / 255 + 1 =
          front.length + 1 + back.length + ((matchCode - 15) / 255 + 1) := by omega
      rw [same]
      rfl
    · rw [tail, extension_eq, nibble_of_ge (by omega)]
      rw [remainder, List.append_assoc, List.append_assoc] at begins
      exact begins
  · have tail : lengthTail matchCode = [] := if_pos (by omega)
    have low : nibble matchCode = BitVec.ofNat 4 matchCode := if_pos (by omega)
    obtain ⟨dst', ok, begins⟩ := addToToken_begins begins matchCode
    rw [token_add (by omega)] at begins
    refine ⟨dst', ?_, ?_⟩
    · rw [if_neg long, ok, tail]
      rfl
    · rw [tail, low, List.append_nil]
      exact begins

/-! ### Literals -/

/-- The literals of a sequence behind their token, when the check of the room passes. -/
theorem encodeLiterals_begins {outputDirective : OutputDirective} {anchor ip : Nat} (src : Buffer Byte srcSize)
    (begins : dst.Begins bytes)
    (order : anchor ≤ ip) (inside : ip + 12 ≤ srcSize)
    (enough : outputDirective = .notLimited →
      bytes.length + 1 + (ip - anchor) + 8 + (ip - anchor) / 255 ≤ cap) :
    ∃ result, encodeLiterals outputDirective src anchor ip bytes.length dst = .ok result ∧
      ((result = none ∧ outputDirective = .limitedOutput) ∨
        ∃ dst', result = some (bytes.length + 1 + (lengthTail (ip - anchor)).length + (ip - anchor), dst') ∧
          bytes.length + 1 + (lengthTail (ip - anchor)).length + (ip - anchor) + 7 ≤ cap ∧
          dst'.Begins (bytes ++ (nibble (ip - anchor) ++ 0#4 : Byte) ::
            (lengthTail (ip - anchor) ++ src.slice anchor (ip - anchor)))) := by
  have five : lastLiterals = 5 := rfl
  rw [encodeLiterals]
  dsimp only
  by_cases exceeds : outputDirective = .limitedOutput ∧
      cap < bytes.length + 1 + (ip - anchor) + (2 + 1 + lastLiterals) + (ip - anchor) / 255
  · rw [if_pos exceeds]
    exact ⟨none, rfl, Or.inl ⟨rfl, exceeds.1⟩⟩
  · rw [if_neg exceeds]
    have fits : bytes.length + 1 + (ip - anchor) + 8 + (ip - anchor) / 255 ≤ cap := by
      cases outputDirective with
      | notLimited => exact enough rfl
      | limitedOutput =>
        have passed := Nat.not_lt.mp fun wrong => exceeds ⟨rfl, wrong⟩
        omega
    have tail := length_lengthTail (ip - anchor)
    have tailRoom : (lengthTail (ip - anchor)).length ≤ (ip - anchor) / 255 + 1 ∧
        (ip - anchor < 15 → (lengthTail (ip - anchor)).length = 0) := by
      rw [tail]
      split
      · omega
      · omega
    obtain ⟨first, ok, begins⟩ := writeRunToken_begins (ip - anchor) begins (by omega)
    rw [ok, ok_bind]
    dsimp only
    have total : (bytes ++ (nibble (ip - anchor) ++ 0#4 : Byte) :: lengthTail (ip - anchor)).length =
        bytes.length + 1 + (lengthTail (ip - anchor)).length := by
      rw [List.length_append, List.length_cons]
      omega
    have agrees := begins.agrees.congr fun i below =>
      (if_pos below : literalStream src _ anchor i = _).symm
    obtain ⟨dst', ok', agrees⟩ := wildCopy8From_agrees (s := anchor)
      (e := (bytes ++ (nibble (ip - anchor) ++ 0#4 : Byte) :: lengthTail (ip - anchor)).length + (ip - anchor))
      (max ((bytes ++ (nibble (ip - anchor) ++ 0#4 : Byte) :: lengthTail (ip - anchor)).length + (ip - anchor) + 7)
        ((bytes ++ (nibble (ip - anchor) ++ 0#4 : Byte) :: lengthTail (ip - anchor)).length + 8))
      agrees (literalStream_copied anchor) (by omega) (by omega) (by omega) (by omega)
    have within : anchor + (ip - anchor) ≤ srcSize := by omega
    have holds := (holds_literals 0 within agrees).begins
    rw [total] at ok'
    refine ⟨some (_, dst'), ?_, Or.inr ⟨dst', rfl, by omega, ?_⟩⟩
    · rw [ok', ok_bind]
      rfl
    · rw [List.append_assoc] at holds
      exact holds

/-- The last literals, when the check of the room passes. -/
theorem encodeLastLiterals_begins {outputDirective : OutputDirective} {anchor : Nat} (src : Buffer Byte srcSize)
    (begins : dst.Begins bytes)
    (order : anchor ≤ srcSize)
    (enough : outputDirective = .notLimited →
      bytes.length + (srcSize - anchor) + 1 + (srcSize - anchor + 240) / 255 ≤ cap) :
    ∃ n dst', encodeLastLiterals outputDirective src anchor bytes.length dst = .ok (n, dst') ∧
      ((n = 0 ∧ outputDirective = .limitedOutput) ∨
        n = (bytes ++ lastRun (src.suffix anchor) 0#4).length ∧
          dst'.Begins (bytes ++ lastRun (src.suffix anchor) 0#4)) := by
  have fifteen : runMask = 15 := rfl
  rw [encodeLastLiterals]
  dsimp only
  by_cases exceeds : outputDirective = .limitedOutput ∧
      cap < bytes.length + (srcSize - anchor) + 1 + (srcSize - anchor + 255 - runMask) / 255
  · rw [if_pos exceeds]
    exact ⟨0, dst, rfl, Or.inl ⟨rfl, exceeds.1⟩⟩
  · rw [if_neg exceeds]
    have fits : bytes.length + (srcSize - anchor) + 1 + (srcSize - anchor + 240) / 255 ≤ cap := by
      cases outputDirective with
      | notLimited => exact enough rfl
      | limitedOutput =>
        have passed := Nat.not_lt.mp fun wrong => exceeds ⟨rfl, wrong⟩
        omega
    have tail := length_lengthTail (srcSize - anchor)
    have tailRoom : (lengthTail (srcSize - anchor)).length ≤ (srcSize - anchor + 240) / 255 := by
      rw [tail]
      split
      · omega
      · omega
    obtain ⟨first, ok, begins⟩ := writeRunToken_begins (srcSize - anchor) begins (by omega)
    have total : (bytes ++ (nibble (srcSize - anchor) ++ 0#4 : Byte) :: lengthTail (srcSize - anchor)).length =
        bytes.length + 1 + (lengthTail (srcSize - anchor)).length := by
      rw [List.length_append, List.length_cons]
      omega
    have within : anchor + (srcSize - anchor) ≤ srcSize := by omega
    obtain ⟨dst', ok', begins⟩ := begins.memcpy src anchor (srcSize - anchor) (by omega) within
    have whole : src.slice anchor (srcSize - anchor) = src.suffix anchor := by
      have parts := slice_append_suffix src anchor (srcSize - anchor)
      rwa [suffix_end src (by omega), List.append_nil] at parts
    have run : (bytes ++ (nibble (srcSize - anchor) ++ 0#4 : Byte) :: lengthTail (srcSize - anchor)) ++
        src.slice anchor (srcSize - anchor) = bytes ++ lastRun (src.suffix anchor) 0#4 := by
      rw [whole, lastRun, length_suffix, List.append_assoc]
      rfl
    rw [total] at ok'
    rw [run] at begins
    refine ⟨_, dst', ?_, Or.inr ⟨rfl, begins⟩⟩
    rw [ok, ok_bind]
    dsimp only
    rw [ok', ok_bind, ← run, List.length_append, total, length_slice src within]
    rfl

end Zftl.Codec
