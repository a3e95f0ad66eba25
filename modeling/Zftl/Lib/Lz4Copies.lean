/-
Module: Zftl.Lib.Lz4Copies
Layer: Lib
Purpose: The work of a parser of the LZ4 format beside reading its bytes: the match bytes it copies on its way
  through a stream. They are counted phase by phase, as the parser goes, and for the encoding of a block they are
  the match lengths of its sequences.
Imports: Mathlib.Algebra.BigOperators.Group.List.Basic, Zftl.Lib.Lz4Format
Trusted boundary: none
Main exports: Phase.reads, matchBytes, matchBytes_copy_succ, matchBytes_encode
Open obligations: none
-/
import Mathlib.Algebra.BigOperators.Group.List.Basic
import Zftl.Lib.Lz4Format

namespace Zftl

namespace Lz4Format

open Phase

/-- The match bytes a phase has in front of it. -/
def Phase.copies : Phase → Nat
  | copy _ left => left
  | _ => 0

/-- The phase behind the next byte of the stream, in front of which a match is copied to its end. -/
def Phase.reads (byte : Byte) : Phase → Phase
  | token => afterToken byte
  | extLit length matchNibble => afterExtLit length matchNibble byte
  | literal left matchNibble => afterLiteral matchNibble (left - 1)
  | offsetLow matchNibble => offsetHigh matchNibble byte
  | offsetHigh matchNibble low => afterOffset matchNibble (byte ++ low).toNat
  | extMatch offset length => afterExtMatch offset length byte
  | copy _ _ => afterToken byte

/-- The match bytes a parser copies on its way through a stream. -/
def matchBytes : Phase → List Byte → Nat
  | phase, [] => phase.copies
  | phase, byte :: rest => phase.copies + matchBytes (phase.reads byte) rest

/-- The match lengths of a block. -/
def Block.matchBytes (block : Block) : Nat := (block.sequences.map Sequence.matchLength).sum

variable {phase : Phase} {matchNibble : BitVec 4} {rest : List Byte}

/-- A phase that reads a byte copies nothing. -/
theorem matchBytes_cons (reading : phase.copies = 0) (byte : Byte) (rest : List Byte) :
    matchBytes phase (byte :: rest) = matchBytes (phase.reads byte) rest := by
  rw [matchBytes, reading, Nat.zero_add]

/-- A match is copied in front of the next token. -/
theorem matchBytes_copy (offset left : Nat) (rest : List Byte) :
    matchBytes (.copy offset left) rest = left + matchBytes .token rest := by
  cases rest with
  | nil => rfl
  | cons byte rest => rw [@matchBytes_cons .token rfl, matchBytes, copies, reads, reads]

theorem matchBytes_copy_succ (offset left : Nat) (rest : List Byte) :
    matchBytes (.copy offset (left + 1)) rest = matchBytes (afterCopy offset left) rest + 1 := by
  cases left with
  | zero =>
      rw [matchBytes_copy, afterCopy]
      omega
  | succ left =>
      rw [afterCopy, matchBytes_copy, matchBytes_copy]
      omega

/-! ### The encoding of a block -/

theorem matchBytes_literals {literals : List Byte} (nonempty : literals ≠ []) (rest : List Byte) :
    matchBytes (.literal literals.length matchNibble) (literals ++ rest) =
      matchBytes (.offsetLow matchNibble) rest := by
  induction literals with
  | nil => exact absurd rfl nonempty
  | cons byte literals ih =>
      rw [List.cons_append, matchBytes_cons rfl]
      cases literals with
      | nil => rfl
      | cons second literals => exact ih (List.cons_ne_nil _ _)

/-- The extension bytes of a length lead from the phase that gathers it to the phase that uses it. -/
theorem matchBytes_extension {gather use : Nat → Phase} (reading : ∀ start, (gather start).copies = 0)
    (full : ∀ start, (gather start).reads 255 = gather (start + 255))
    (last : ∀ start (byte : Byte), byte ≠ 255 → (gather start).reads byte = use (start + byte.toNat))
    (length start : Nat) :
    matchBytes (gather start) (extension length ++ rest) = matchBytes (use (start + length)) rest := by
  induction length using Nat.strongRecOn generalizing start with
  | _ length ih =>
      rw [extension]
      split
      · rename_i small
        have byte := ofNat_extension small
        rw [List.singleton_append, matchBytes_cons (reading start), last start _ byte.1, byte.2]
      · rename_i large
        rw [List.cons_append, matchBytes_cons (reading start), full, ih (length - 255) (by omega), Nat.add_assoc,
          Nat.add_sub_cancel' (by omega)]

/-- A token and the extension of its literal length lead to the literals, if there are any. -/
theorem matchBytes_token {length : Nat} (positive : 1 ≤ length) (rest : List Byte) :
    matchBytes .token ((nibble length ++ matchNibble : Byte) :: (lengthTail length ++ rest)) =
      matchBytes (.literal length matchNibble) rest := by
  rw [matchBytes_cons rfl, reads, afterToken, (token_nibbles _ _).1, (token_nibbles _ _).2]
  by_cases short : length < 15
  · have value := nibble_of_lt short
    have nonzero : nibble length ≠ 0 := fun zero => by
      rw [zero] at value
      exact absurd value.2.symm (Nat.ne_of_gt positive)
    rw [if_neg value.1, if_neg nonzero, value.2, lengthTail, if_pos short]
    rfl
  · have full : nibble length = 15 := if_neg short
    rw [if_pos full, lengthTail, if_neg short]
    have gathered := @matchBytes_extension rest (fun gathered => .extLit gathered matchNibble)
      (fun gathered => .literal gathered matchNibble) (fun _ => rfl)
      (fun start => by rw [reads, afterExtLit, if_pos rfl])
      (fun start byte ends => by rw [reads, afterExtLit, if_neg ends]) (length - 15) 15
    rwa [Nat.add_sub_cancel' (by omega)] at gathered

/-- A token without literals leads to the offset. -/
theorem matchBytes_token_zero (rest : List Byte) :
    matchBytes .token ((nibble 0 ++ matchNibble : Byte) :: rest) = matchBytes (.offsetLow matchNibble) rest := by
  rw [matchBytes_cons rfl, reads, afterToken, (token_nibbles _ _).1, (token_nibbles _ _).2]
  rfl

/-- The offset and the match length of a sequence lead to the match. -/
theorem matchBytes_match (low high : Byte) (length : Nat) (rest : List Byte) :
    matchBytes (.offsetLow (nibble length)) (low :: high :: (lengthTail length ++ rest)) =
      length + 4 + matchBytes .token rest := by
  rw [matchBytes_cons rfl, reads, matchBytes_cons rfl, reads, afterOffset]
  by_cases short : length < 15
  · have value := nibble_of_lt short
    rw [if_neg value.1, value.2, lengthTail, if_pos short, List.nil_append, matchBytes_copy]
  · have full : nibble length = 15 := if_neg short
    rw [if_pos full, lengthTail, if_neg short]
    have gathered := @matchBytes_extension rest (fun gathered => .extMatch (high ++ low).toNat gathered)
      (fun gathered => .copy (high ++ low).toNat gathered) (fun _ => rfl)
      (fun start => by rw [reads, afterExtMatch, if_pos rfl])
      (fun start byte ends => by rw [reads, afterExtMatch, if_neg ends]) (length - 15) 19
    rw [gathered, matchBytes_copy]
    omega

theorem matchBytes_sequence (sequence : Sequence) (rest : List Byte) :
    matchBytes .token (sequence.encode ++ rest) = sequence.matchLength + matchBytes .token rest := by
  have long := sequence.matchLength_ge
  have matched := matchBytes_match (BitVec.ofNat 8 sequence.offset) (BitVec.ofNat 8 (sequence.offset / 256))
    (sequence.matchLength - 4) rest
  rw [Nat.sub_add_cancel long] at matched
  rw [Sequence.encode, List.cons_append, List.append_assoc, List.append_assoc, List.cons_append, List.cons_append]
  by_cases empty : sequence.literals = []
  · rw [empty, List.length_nil, List.nil_append]
    exact (matchBytes_token_zero _).trans matched
  · have positive : 1 ≤ sequence.literals.length := List.length_pos_iff.mpr empty
    rw [matchBytes_token positive, matchBytes_literals empty]
    exact matched

/-- The parser copies the matches of a block and nothing else. -/
theorem matchBytes_encode (block : Block) : Lz4Format.matchBytes .token block.encode = block.matchBytes := by
  have sequences : ∀ (sequences : List Sequence) (rest : List Byte),
      Lz4Format.matchBytes .token (sequences.flatMap Sequence.encode ++ rest) =
        (sequences.map Sequence.matchLength).sum + Lz4Format.matchBytes .token rest := by
    intro sequences rest
    induction sequences with
    | nil => exact (Nat.zero_add _).symm
    | cons sequence sequences ih =>
        rw [List.flatMap_cons, List.append_assoc, matchBytes_sequence, ih, List.map_cons, List.sum_cons,
          Nat.add_assoc]
  have last := @matchBytes_literals block.lastNibble block.lastLiterals block.lastLiterals_ne []
  rw [List.append_nil] at last
  rw [Block.encode, sequences, matchBytes_token (List.length_pos_iff.mpr block.lastLiterals_ne), last]
  rfl

end Lz4Format

end Zftl
