/-
Module: Zftl.Lib.Lz4Format
Layer: Lib
Purpose: The LZ4 block format. A `Block` is a list of sequences, each with literals and a match whose offset
  reaches back into the bytes produced so far, and at least one last literal; a block that breaks the format
  cannot be built. `Block.decode` is its meaning and `Block.encode` its bytes. `Decodes` is the format as a
  byte parser reads it, phase by phase: `decodes_encode` runs the parser over the encoding of a block, and
  `Decodes.length_le` bounds what a phase still has to produce.
Imports: Mathlib.Algebra.Ring.Nat, Mathlib.Data.List.Basic, Mathlib.Tactic.Common
Trusted boundary: none
Main exports: Sequence, Block, Block.decode, Block.encode, Phase, Decodes, decodes_encode,
  Decodes.length_le, Decodes.rest_ne
Open obligations: none
-/
import Mathlib.Algebra.Ring.Nat
import Mathlib.Data.List.Basic
import Mathlib.Tactic.Common

namespace Zftl

abbrev Byte := BitVec 8

namespace Lz4Format

/-- One sequence: literals and a match. -/
structure Sequence where
  literals : List Byte
  offset : Nat
  matchLength : Nat
  offset_pos : 1 ≤ offset
  offset_lt : offset < 2 ^ 16
  matchLength_ge : 4 ≤ matchLength

/-- Append `length` bytes, each a copy of the one `offset` bytes back; the copy may overlap its source. -/
def copyMatch (offset : Nat) : Nat → List Byte → List Byte
  | 0, out => out
  | length + 1, out => copyMatch offset length (out ++ [out.getD (out.length - offset) 0])

/-- The output after a sequence. -/
def Sequence.expand (out : List Byte) (sequence : Sequence) : List Byte :=
  copyMatch sequence.offset sequence.matchLength (out ++ sequence.literals)

/-- Every match offset reaches back into the bytes produced so far. -/
def OffsetsInside : List Byte → List Sequence → Prop
  | _, [] => True
  | out, sequence :: sequences =>
      sequence.offset ≤ (out ++ sequence.literals).length ∧
        OffsetsInside (sequence.expand out) sequences

/-- A well-formed block. The match nibble of its last token is not used. -/
structure Block where
  sequences : List Sequence
  lastLiterals : List Byte
  lastNibble : BitVec 4 := 0
  offsetsInside : OffsetsInside [] sequences
  lastLiterals_ne : lastLiterals ≠ []

/-- The bytes a block stands for. -/
def Block.decode (block : Block) : List Byte :=
  block.sequences.foldl Sequence.expand [] ++ block.lastLiterals

/-! ### Encoding -/

/-- The nibble of a length: lengths from 15 on continue in extension bytes. -/
def nibble (length : Nat) : BitVec 4 := if length < 15 then BitVec.ofNat 4 length else 15

/-- A run of 0xFF bytes closed by a smaller one, which add up to `length`. -/
def extension (length : Nat) : List Byte :=
  if length < 255 then [BitVec.ofNat 8 length] else 255 :: extension (length - 255)
termination_by length

/-- The extension bytes of a length, if it has any. -/
def lengthTail (length : Nat) : List Byte := if length < 15 then [] else extension (length - 15)

def Sequence.encode (sequence : Sequence) : List Byte :=
  (nibble sequence.literals.length ++ nibble (sequence.matchLength - 4) : Byte) ::
    (lengthTail sequence.literals.length ++ (sequence.literals ++
      (BitVec.ofNat 8 sequence.offset :: BitVec.ofNat 8 (sequence.offset / 256) ::
        lengthTail (sequence.matchLength - 4))))

/-- The bytes of a block. -/
def Block.encode (block : Block) : List Byte :=
  block.sequences.flatMap Sequence.encode ++
    ((nibble block.lastLiterals.length ++ block.lastNibble : Byte) ::
      (lengthTail block.lastLiterals.length ++ block.lastLiterals))

/-! ### Parsing -/

/-- What a parser is reading, with the lengths it has gathered: `literal` and `copy` count what is left. -/
inductive Phase where
  | token
  | extLit (length : Nat) (matchNibble : BitVec 4)
  | literal (left : Nat) (matchNibble : BitVec 4)
  | offsetLow (matchNibble : BitVec 4)
  | offsetHigh (matchNibble : BitVec 4) (low : Byte)
  | extMatch (offset length : Nat)
  | copy (offset left : Nat)

namespace Phase

def afterToken (byte : Byte) : Phase :=
  if byte.extractLsb' 4 4 = 15 then extLit 15 (byte.extractLsb' 0 4)
  else if byte.extractLsb' 4 4 = 0 then offsetLow (byte.extractLsb' 0 4)
  else literal (byte.extractLsb' 4 4).toNat (byte.extractLsb' 0 4)

def afterExtLit (length : Nat) (matchNibble : BitVec 4) (byte : Byte) : Phase :=
  if byte = 255 then extLit (length + 255) matchNibble
  else literal (length + byte.toNat) matchNibble

def afterLiteral (matchNibble : BitVec 4) : Nat → Phase
  | 0 => offsetLow matchNibble
  | left + 1 => literal (left + 1) matchNibble

def afterOffset (matchNibble : BitVec 4) (offset : Nat) : Phase :=
  if matchNibble = 15 then extMatch offset 19 else copy offset (matchNibble.toNat + 4)

def afterExtMatch (offset length : Nat) (byte : Byte) : Phase :=
  if byte = 255 then extMatch offset (length + 255) else copy offset (length + byte.toNat)

def afterCopy (offset : Nat) : Nat → Phase
  | 0 => token
  | left + 1 => copy offset (left + 1)

/-- A lower bound of the bytes a phase still produces. -/
def need : Phase → Nat
  | token => 1
  | extLit length _ => length
  | literal left _ => left
  | offsetLow _ => 5
  | offsetHigh _ _ => 5
  | extMatch _ length => length + 1
  | copy _ left => left + 1

theorem need_afterToken (byte : Byte) : 1 ≤ (afterToken byte).need := by
  rw [afterToken]
  split
  · exact Nat.le_add_left 1 14
  · split
    · exact Nat.le_add_left 1 4
    · rename_i nonzero
      exact Nat.one_le_iff_ne_zero.mpr fun zero => nonzero (BitVec.eq_of_toNat_eq zero)

theorem need_afterExtLit (length : Nat) (matchNibble : BitVec 4) (byte : Byte) :
    length ≤ (afterExtLit length matchNibble byte).need := by
  rw [afterExtLit]
  split
  · exact Nat.le_add_right _ _
  · exact Nat.le_add_right _ _

theorem need_afterLiteral (matchNibble : BitVec 4) (left : Nat) :
    left ≤ (afterLiteral matchNibble left).need := by
  cases left with
  | zero => exact Nat.zero_le _
  | succ left => exact Nat.le_refl _

theorem need_afterOffset (matchNibble : BitVec 4) (offset : Nat) :
    5 ≤ (afterOffset matchNibble offset).need := by
  rw [afterOffset]
  split
  · exact Nat.le_add_left 5 15
  · exact Nat.succ_le_succ (Nat.le_add_left 4 _)

theorem need_afterExtMatch (offset length : Nat) (byte : Byte) :
    length + 1 ≤ (afterExtMatch offset length byte).need := by
  rw [afterExtMatch]
  split
  · exact Nat.succ_le_succ (Nat.le_add_right _ _)
  · exact Nat.succ_le_succ (Nat.le_add_right _ _)

theorem need_afterCopy (offset left : Nat) : left + 1 ≤ (afterCopy offset left).need := by
  cases left with
  | zero => exact Nat.le_refl _
  | succ left => exact Nat.le_refl _

end Phase

open Phase

/-- From a phase, with `out` produced so far, the remaining bytes are those of a well-formed block that decodes
    to `final`. -/
inductive Decodes (final : List Byte) : Phase → List Byte → List Byte → Prop where
  | token {byte rest out} (next : Decodes final (afterToken byte) rest out) :
      Decodes final .token (byte :: rest) out
  | extLit {length matchNibble byte rest out}
      (next : Decodes final (afterExtLit length matchNibble byte) rest out) :
      Decodes final (.extLit length matchNibble) (byte :: rest) out
  | literal {left matchNibble byte rest out}
      (next : Decodes final (afterLiteral matchNibble left) rest (out ++ [byte])) :
      Decodes final (.literal (left + 1) matchNibble) (byte :: rest) out
  | finish {matchNibble byte out} (complete : out ++ [byte] = final) :
      Decodes final (.literal 1 matchNibble) [byte] out
  | offsetLow {matchNibble low rest out} (next : Decodes final (.offsetHigh matchNibble low) rest out) :
      Decodes final (.offsetLow matchNibble) (low :: rest) out
  | offsetHigh {matchNibble} {low high : Byte} {rest} {out : List Byte}
      (inside : 1 ≤ (high ++ low).toNat ∧ (high ++ low).toNat ≤ out.length)
      (next : Decodes final (afterOffset matchNibble (high ++ low).toNat) rest out) :
      Decodes final (.offsetHigh matchNibble low) (high :: rest) out
  | extMatch {offset length byte rest out}
      (next : Decodes final (afterExtMatch offset length byte) rest out) :
      Decodes final (.extMatch offset length) (byte :: rest) out
  | copy {offset left rest} {out : List Byte} (inside : 1 ≤ offset ∧ offset ≤ out.length)
      (next : Decodes final (afterCopy offset left) rest
        (out ++ [out.getD (out.length - offset) 0])) :
      Decodes final (.copy offset (left + 1)) rest out

/-- What a phase still has to produce fits the decoded block. -/
theorem Decodes.length_le {final : List Byte} {phase : Phase} {rest out : List Byte}
    (decodes : Decodes final phase rest out) : out.length + phase.need ≤ final.length := by
  induction decodes with
  | token _ ih => exact Nat.le_trans (Nat.add_le_add_left (need_afterToken _) _) ih
  | extLit _ ih => exact Nat.le_trans (Nat.add_le_add_left (need_afterExtLit _ _ _) _) ih
  | @literal left matchNibble _ _ _ _ ih =>
      have left_le := need_afterLiteral matchNibble left
      rw [List.length_append, List.length_singleton] at ih
      simp only [need]
      omega
  | finish complete => simp [← complete, need]
  | offsetLow _ ih => exact ih
  | offsetHigh _ _ ih => exact Nat.le_trans (Nat.add_le_add_left (need_afterOffset _ _) _) ih
  | extMatch _ ih => exact Nat.le_trans (Nat.add_le_add_left (need_afterExtMatch _ _ _) _) ih
  | @copy offset left _ _ _ _ ih =>
      have left_le := need_afterCopy offset left
      rw [List.length_append, List.length_singleton] at ih
      simp only [need]
      omega

/-- No phase ends without a byte. -/
theorem Decodes.rest_ne {final : List Byte} {phase : Phase} {rest out : List Byte}
    (decodes : Decodes final phase rest out) : rest ≠ [] := by
  induction decodes with
  | copy _ _ ih => exact ih
  | token _ _ => exact List.cons_ne_nil _ _
  | extLit _ _ => exact List.cons_ne_nil _ _
  | literal _ _ => exact List.cons_ne_nil _ _
  | finish _ => exact List.cons_ne_nil _ _
  | offsetLow _ _ => exact List.cons_ne_nil _ _
  | offsetHigh _ _ _ => exact List.cons_ne_nil _ _
  | extMatch _ _ => exact List.cons_ne_nil _ _

/-! ### The parser reads the encoding -/

section Encode

variable {final rest out : List Byte} {matchNibble : BitVec 4}

/-- The literals of a sequence. -/
theorem decodes_literals {literals : List Byte} (nonempty : literals ≠ [])
    (next : Decodes final (.offsetLow matchNibble) rest (out ++ literals)) :
    Decodes final (.literal literals.length matchNibble) (literals ++ rest) out := by
  induction literals generalizing out with
  | nil => exact absurd rfl nonempty
  | cons byte literals ih =>
      apply Decodes.literal
      cases literals with
      | nil => exact next
      | cons second literals =>
          exact ih (List.cons_ne_nil _ _) (by simpa using next)

/-- The literals of the last sequence. -/
theorem decodes_lastLiterals {literals : List Byte} (nonempty : literals ≠ [])
    (complete : out ++ literals = final) :
    Decodes final (.literal literals.length matchNibble) literals out := by
  induction literals generalizing out with
  | nil => exact absurd rfl nonempty
  | cons byte literals ih =>
      cases literals with
      | nil => exact .finish complete
      | cons second literals =>
          exact .literal (ih (List.cons_ne_nil _ _) (by simpa using complete))

/-- A byte below 255 as an extension byte. -/
theorem ofNat_extension {length : Nat} (small : length < 255) :
    BitVec.ofNat 8 length ≠ 255 ∧ (BitVec.ofNat 8 length).toNat = length := by
  have value : (BitVec.ofNat 8 length).toNat = length := by
    rw [BitVec.toNat_ofNat]
    exact Nat.mod_eq_of_lt (by omega)
  refine ⟨fun same => ?_, value⟩
  rw [same] at value
  exact absurd value.symm (Nat.ne_of_lt small)

/-- The extension bytes of a length lead from the phase that gathers it, `gather`, to the phase that uses it,
    `use`, when a full byte keeps gathering and a smaller one ends it. -/
theorem decodes_extension {gather use : Nat → Phase}
    (full : ∀ {start rest}, Decodes final (gather (start + 255)) rest out →
      Decodes final (gather start) (255 :: rest) out)
    (last : ∀ {start byte rest}, byte ≠ 255 → Decodes final (use (start + byte.toNat)) rest out →
      Decodes final (gather start) (byte :: rest) out)
    (length : Nat) {start : Nat} (next : Decodes final (use (start + length)) rest out) :
    Decodes final (gather start) (extension length ++ rest) out := by
  induction length using Nat.strongRecOn generalizing start with
  | _ length ih =>
      rw [extension]
      split
      · rename_i small
        have byte := ofNat_extension small
        apply last byte.1
        rw [byte.2]
        exact next
      · rename_i large
        refine full (ih (length - 255) (by omega) ?_)
        rwa [Nat.add_assoc, Nat.add_sub_cancel' (by omega)]

/-- The extension bytes of a literal length. -/
theorem decodes_extLit (length : Nat) {start : Nat}
    (next : Decodes final (.literal (start + length) matchNibble) rest out) :
    Decodes final (.extLit start matchNibble) (extension length ++ rest) out := by
  refine @decodes_extension final rest out (fun gathered => .extLit gathered matchNibble)
    (fun gathered => .literal gathered matchNibble) ?full ?last length start next
  case full =>
    intro start rest gathered
    apply Decodes.extLit
    rwa [afterExtLit, if_pos rfl]
  case last =>
    intro start byte rest ends used
    apply Decodes.extLit
    rwa [afterExtLit, if_neg ends]

/-- The extension bytes of a match length. -/
theorem decodes_extMatch (length : Nat) {offset start : Nat}
    (next : Decodes final (.copy offset (start + length)) rest out) :
    Decodes final (.extMatch offset start) (extension length ++ rest) out := by
  refine @decodes_extension final rest out (fun gathered => .extMatch offset gathered)
    (fun gathered => .copy offset gathered) ?full ?last length start next
  case full =>
    intro start rest gathered
    apply Decodes.extMatch
    rwa [afterExtMatch, if_pos rfl]
  case last =>
    intro start byte rest ends used
    apply Decodes.extMatch
    rwa [afterExtMatch, if_neg ends]

/-- The nibbles of a token. -/
theorem token_nibbles (high low : BitVec 4) :
    ((high ++ low : Byte).extractLsb' 4 4 = high) ∧ (high ++ low : Byte).extractLsb' 0 4 = low :=
  ⟨BitVec.extractLsb'_append_eq_left, BitVec.extractLsb'_append_eq_right⟩

theorem nibble_of_lt {length : Nat} (short : length < 15) :
    nibble length ≠ 15 ∧ (nibble length).toNat = length := by
  have value : (nibble length).toNat = length := by
    rw [nibble, if_pos short, BitVec.toNat_ofNat]
    exact Nat.mod_eq_of_lt (by omega)
  refine ⟨fun same => ?_, value⟩
  rw [same] at value
  exact absurd value.symm (Nat.ne_of_lt short)

/-- A token and the extension of its literal length lead to the literals, if there are any. -/
theorem decodes_token {length : Nat} (positive : 1 ≤ length)
    (next : Decodes final (.literal length matchNibble) rest out) :
    Decodes final .token ((nibble length ++ matchNibble : Byte) :: (lengthTail length ++ rest)) out := by
  apply Decodes.token
  rw [afterToken, (token_nibbles _ _).1, (token_nibbles _ _).2]
  by_cases short : length < 15
  · have value := nibble_of_lt short
    have nonzero : nibble length ≠ 0 := fun zero => by
      rw [zero] at value
      exact absurd value.2.symm (Nat.ne_of_gt positive)
    rw [if_neg value.1, if_neg nonzero, value.2, lengthTail, if_pos short]
    exact next
  · have full : nibble length = 15 := if_neg short
    rw [if_pos full, lengthTail, if_neg short]
    apply decodes_extLit _
    rwa [Nat.add_sub_cancel' (by omega)]

/-- The bytes of a match. -/
theorem decodes_copy {offset length : Nat} (positive : 1 ≤ length)
    (inside : 1 ≤ offset ∧ offset ≤ out.length)
    (next : Decodes final .token rest (copyMatch offset length out)) :
    Decodes final (.copy offset length) rest out := by
  induction length generalizing out with
  | zero => exact absurd positive (Nat.not_succ_le_zero 0)
  | succ length ih =>
      apply Decodes.copy inside
      cases length with
      | zero => exact next
      | succ length =>
          refine ih (Nat.succ_le_succ (Nat.zero_le _)) ⟨inside.1, ?_⟩ next
          rw [List.length_append]
          omega

/-- The two bytes of an offset. -/
theorem offset_bytes {offset : Nat} (fits : offset < 2 ^ 16) :
    (BitVec.ofNat 8 (offset / 256) ++ BitVec.ofNat 8 offset).toNat = offset := by
  rw [BitVec.toNat_append, ← Nat.shiftLeft_add_eq_or_of_lt (BitVec.isLt _), BitVec.toNat_ofNat,
    BitVec.toNat_ofNat, Nat.shiftLeft_eq]
  omega

/-- The offset and the match length of a sequence lead to the match. -/
theorem decodes_match {offset length : Nat} (fits : offset < 2 ^ 16)
    (inside : 1 ≤ offset ∧ offset ≤ out.length)
    (next : Decodes final .token rest (copyMatch offset (length + 4) out)) :
    Decodes final (.offsetLow (nibble length))
      (BitVec.ofNat 8 offset :: BitVec.ofNat 8 (offset / 256) :: (lengthTail length ++ rest)) out := by
  have bytes := offset_bytes fits
  refine .offsetLow (.offsetHigh (by rwa [bytes]) ?_)
  rw [bytes, afterOffset]
  by_cases short : length < 15
  · have value := nibble_of_lt short
    rw [if_neg value.1, value.2, lengthTail, if_pos short]
    exact decodes_copy (Nat.le_add_left 1 _) inside next
  · have full : nibble length = 15 := if_neg short
    rw [if_pos full, lengthTail, if_neg short]
    apply decodes_extMatch _
    have total : 19 + (length - 15) = length + 4 := by omega
    rw [total]
    exact decodes_copy (Nat.le_add_left 1 _) inside next

/-- A whole sequence. -/
theorem decodes_sequence {sequence : Sequence}
    (inside : sequence.offset ≤ (out ++ sequence.literals).length)
    (next : Decodes final .token rest (sequence.expand out)) :
    Decodes final .token (sequence.encode ++ rest) out := by
  have matched : Decodes final (.offsetLow (nibble (sequence.matchLength - 4)))
      (BitVec.ofNat 8 sequence.offset :: BitVec.ofNat 8 (sequence.offset / 256) ::
        (lengthTail (sequence.matchLength - 4) ++ rest)) (out ++ sequence.literals) := by
    refine decodes_match sequence.offset_lt ⟨sequence.offset_pos, inside⟩ ?_
    rwa [Nat.sub_add_cancel sequence.matchLength_ge]
  by_cases empty : sequence.literals = []
  · rw [Sequence.encode, empty]
    rw [empty, List.append_nil] at matched
    apply Decodes.token
    rw [afterToken, (token_nibbles _ _).1, (token_nibbles _ _).2]
    exact matched
  · have positive : 1 ≤ sequence.literals.length := List.length_pos_iff.mpr empty
    have literals := decodes_token positive (decodes_literals empty matched)
    simpa [Sequence.encode] using literals

/-- All sequences. -/
theorem decodes_sequences {sequences : List Sequence} (inside : OffsetsInside out sequences)
    (next : Decodes final .token rest (sequences.foldl Sequence.expand out)) :
    Decodes final .token (sequences.flatMap Sequence.encode ++ rest) out := by
  induction sequences generalizing out with
  | nil => exact next
  | cons sequence sequences ih =>
      rw [List.flatMap_cons, List.append_assoc]
      exact decodes_sequence inside.1 (ih inside.2 next)

/-- The parser accepts the encoding of a block and produces what the block decodes to. -/
theorem decodes_encode (block : Block) : Decodes block.decode .token block.encode [] := by
  apply decodes_sequences block.offsetsInside
  exact decodes_token (List.length_pos_iff.mpr block.lastLiterals_ne)
    (decodes_lastLiterals block.lastLiterals_ne rfl)

end Encode

end Lz4Format

end Zftl
