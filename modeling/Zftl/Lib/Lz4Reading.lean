/-
Module: Zftl.Lib.Lz4Reading
Layer: Lib
Purpose: Reading LZ4 blocks back. A `LooseBlock` is what a decoder can be made to read: as a block of the format, but
  an offset may be zero and the last literals may be missing. Its bytes can be read in one way only, so a decoder
  that finds a sequence has found the one that was written. `matchStream` is what a match produces if it never
  ends, and `EndsWell` is what the format asks of the end of a block.
Imports: Mathlib.Data.List.GetD, Zftl.Lib.CopyStream, Zftl.Lib.Lz4Format
Trusted boundary: none
Main exports: LooseSequence, LooseBlock, lastRun, LooseSequence.encode_append_inj, LooseSequence.encode_append_ne,
  lastRun_inj, readBack, matchStream, matchStream_shifts, EndsWell, Block.loose, LooseBlock.strict
Open obligations: none
-/
import Mathlib.Data.List.GetD
import Zftl.Lib.CopyStream
import Zftl.Lib.Lz4Format

namespace Zftl

namespace Lz4Format

/-- A sequence whose offset may be zero. -/
structure LooseSequence where
  literals : List Byte
  offset : Nat
  matchLength : Nat
  offset_lt : offset < 2 ^ 16
  matchLength_ge : 4 ≤ matchLength

namespace LooseSequence

def expand (out : List Byte) (sequence : LooseSequence) : List Byte :=
  copyMatch sequence.offset sequence.matchLength (out ++ sequence.literals)

def encode (sequence : LooseSequence) : List Byte :=
  (nibble sequence.literals.length ++ nibble (sequence.matchLength - 4) : Byte) ::
    (lengthTail sequence.literals.length ++ (sequence.literals ++
      (BitVec.ofNat 8 sequence.offset :: BitVec.ofNat 8 (sequence.offset / 256) ::
        lengthTail (sequence.matchLength - 4))))

end LooseSequence

/-- The literals that end a block, with their token. -/
def lastRun (literals : List Byte) (lowNibble : BitVec 4) : List Byte :=
  (nibble literals.length ++ lowNibble : Byte) :: (lengthTail literals.length ++ literals)

/-- No match reaches back beyond the first byte. -/
def ReachesInside : List Byte → List LooseSequence → Prop
  | _, [] => True
  | out, sequence :: sequences =>
      sequence.offset ≤ (out ++ sequence.literals).length ∧ ReachesInside (sequence.expand out) sequences

/-- What a decoder can be made to read. -/
structure LooseBlock where
  sequences : List LooseSequence
  lastLiterals : List Byte
  lastNibble : BitVec 4
  reachesInside : ReachesInside [] sequences

namespace LooseBlock

def decode (block : LooseBlock) : List Byte :=
  block.sequences.foldl LooseSequence.expand [] ++ block.lastLiterals

def encode (block : LooseBlock) : List Byte :=
  block.sequences.flatMap LooseSequence.encode ++ lastRun block.lastLiterals block.lastNibble

end LooseBlock

/-! ### Reading lengths -/

theorem length_copyMatch (offset length : Nat) (out : List Byte) :
    (copyMatch offset length out).length = out.length + length := by
  induction length generalizing out with
  | zero => rfl
  | succ length ih =>
      rw [copyMatch, ih, List.length_append, List.length_singleton]
      omega

theorem extension_of_lt {length : Nat} (small : length < 255) : extension length = [BitVec.ofNat 8 length] := by
  rw [extension, if_pos small]

theorem extension_of_le {length : Nat} (large : 255 ≤ length) :
    extension length = 255 :: extension (length - 255) := by
  rw [extension, if_neg (Nat.not_lt.mpr large)]

/-- The extension bytes of a length can be read in one way only. -/
theorem extension_append_inj {first second : Nat} {rest rest' : List Byte}
    (same : extension first ++ rest = extension second ++ rest') : first = second ∧ rest = rest' := by
  induction first using Nat.strongRecOn generalizing second with
  | _ first ih =>
    by_cases small : first < 255 <;> by_cases small' : second < 255
    · rw [extension_of_lt small, extension_of_lt small'] at same
      obtain ⟨byte, rest⟩ := List.cons.inj same
      have value := congrArg BitVec.toNat byte
      rw [(ofNat_extension small).2, (ofNat_extension small').2] at value
      exact ⟨value, rest⟩
    · rw [extension_of_lt small, extension_of_le (by omega)] at same
      exact absurd (List.cons.inj same).1 (ofNat_extension small).1
    · rw [extension_of_le (by omega), extension_of_lt small'] at same
      exact absurd (List.cons.inj same).1.symm (ofNat_extension small').1
    · rw [extension_of_le (Nat.not_lt.mp small), extension_of_le (Nat.not_lt.mp small')] at same
      obtain ⟨lengths, rest⟩ := ih (first - 255) (by omega) (List.cons.inj same).2
      exact ⟨by omega, rest⟩

theorem nibble_of_ge {length : Nat} (long : 15 ≤ length) : nibble length = 15 := if_neg (Nat.not_lt.mpr long)

/-- A length can be read in one way only, given its nibble. -/
theorem length_inj {first second : Nat} {rest rest' : List Byte} (nibbles : nibble first = nibble second)
    (tails : lengthTail first ++ rest = lengthTail second ++ rest') : first = second ∧ rest = rest' := by
  rw [lengthTail, lengthTail] at tails
  by_cases short : first < 15 <;> by_cases short' : second < 15
  · have value := congrArg BitVec.toNat nibbles
    rw [(nibble_of_lt short).2, (nibble_of_lt short').2] at value
    rw [if_pos short, if_pos short'] at tails
    exact ⟨value, tails⟩
  · exact absurd (nibbles.trans (nibble_of_ge (by omega))) (nibble_of_lt short).1
  · exact absurd (nibbles.symm.trans (nibble_of_ge (by omega))) (nibble_of_lt short').1
  · rw [if_neg short, if_neg short'] at tails
    obtain ⟨lengths, rest⟩ := extension_append_inj tails
    exact ⟨by omega, rest⟩

theorem token_inj {high low high' low' : BitVec 4} (same : (high ++ low : Byte) = high' ++ low') :
    high = high' ∧ low = low' := by
  have left := congrArg (BitVec.extractLsb' 4 4) same
  have right := congrArg (BitVec.extractLsb' 0 4) same
  rw [(token_nibbles _ _).1, (token_nibbles _ _).1] at left
  rw [(token_nibbles _ _).2, (token_nibbles _ _).2] at right
  exact ⟨left, right⟩

/-- The literals behind a token can be read in one way only. -/
theorem literals_inj {literals literals' rest rest' : List Byte} {low low' : BitVec 4}
    (same : (nibble literals.length ++ low : Byte) :: (lengthTail literals.length ++ (literals ++ rest)) =
      (nibble literals'.length ++ low' : Byte) :: (lengthTail literals'.length ++ (literals' ++ rest'))) :
    literals = literals' ∧ low = low' ∧ rest = rest' := by
  obtain ⟨token, tails⟩ := List.cons.inj same
  obtain ⟨nibbles, lows⟩ := token_inj token
  obtain ⟨lengths, bytes⟩ := length_inj nibbles tails
  obtain ⟨literals, rest⟩ := List.append_inj bytes lengths
  exact ⟨literals, lows, rest⟩

/-- A sequence in front of other bytes can be read in one way only. -/
theorem LooseSequence.encode_append_inj {first second : LooseSequence} {rest rest' : List Byte}
    (same : first.encode ++ rest = second.encode ++ rest') : first = second ∧ rest = rest' := by
  have bytes : ∀ s : LooseSequence, ∀ tail, s.encode ++ tail =
      (nibble s.literals.length ++ nibble (s.matchLength - 4) : Byte) ::
        (lengthTail s.literals.length ++ (s.literals ++
          (BitVec.ofNat 8 s.offset :: BitVec.ofNat 8 (s.offset / 256) ::
            (lengthTail (s.matchLength - 4) ++ tail)))) := fun s tail => by
    simp [LooseSequence.encode]
  rw [bytes, bytes] at same
  obtain ⟨literals, nibbles, behind⟩ := literals_inj same
  obtain ⟨low, behind⟩ := List.cons.inj behind
  obtain ⟨high, behind⟩ := List.cons.inj behind
  obtain ⟨lengths, rests⟩ := length_inj nibbles behind
  have offsets : first.offset = second.offset := by
    have fits := offset_bytes first.offset_lt
    rw [low, high, offset_bytes second.offset_lt] at fits
    exact fits.symm
  have ge := first.matchLength_ge
  have ge' := second.matchLength_ge
  have matchLengths : first.matchLength = second.matchLength := by omega
  cases first
  cases second
  cases literals
  cases offsets
  cases matchLengths
  exact ⟨rfl, rests⟩

theorem lastRun_inj {literals literals' : List Byte} {low low' : BitVec 4}
    (same : lastRun literals low = lastRun literals' low') : literals = literals' ∧ low = low' := by
  have behind := @literals_inj literals literals' [] [] low low' (by simpa [lastRun] using same)
  exact ⟨behind.1, behind.2.1⟩

/-- What ends a block is not a sequence with something behind it. -/
theorem LooseSequence.encode_append_ne (sequence : LooseSequence) (rest literals : List Byte) (low : BitVec 4) :
    sequence.encode ++ rest ≠ lastRun literals low := by
  intro same
  have behind := @literals_inj sequence.literals literals
    (BitVec.ofNat 8 sequence.offset :: BitVec.ofNat 8 (sequence.offset / 256) ::
      (lengthTail (sequence.matchLength - 4) ++ rest)) [] _ low (by
    simpa [LooseSequence.encode, lastRun] using same)
  exact absurd behind.2.2 (List.cons_ne_nil _ _)

/-- What has been read off the front of a block is the front of the block. -/
theorem readBack {read sequences : List LooseSequence} {rest literals : List Byte} {low : BitVec 4}
    (same : read.flatMap LooseSequence.encode ++ rest =
      sequences.flatMap LooseSequence.encode ++ lastRun literals low) :
    ∃ left, sequences = read ++ left ∧ rest = left.flatMap LooseSequence.encode ++ lastRun literals low := by
  induction read generalizing sequences with
  | nil => exact ⟨sequences, rfl, same⟩
  | cons first read ih =>
      cases sequences with
      | nil =>
          rw [List.flatMap_cons, List.append_assoc] at same
          exact absurd same (first.encode_append_ne _ _ _)
      | cons sequence sequences =>
          rw [List.flatMap_cons, List.append_assoc, List.flatMap_cons, List.append_assoc] at same
          obtain ⟨rfl, behind⟩ := LooseSequence.encode_append_inj same
          obtain ⟨left, rfl, bytes⟩ := ih behind
          exact ⟨left, rfl, bytes⟩

/-- Two blocks with the same bytes have the same sequences and the same last literals. -/
theorem LooseBlock.encode_inj {first second : LooseBlock} (same : first.encode = second.encode) :
    first.sequences = second.sequences ∧ first.lastLiterals = second.lastLiterals := by
  obtain ⟨left, sequences, bytes⟩ := readBack same
  cases left with
  | nil => exact ⟨by rw [sequences, List.append_nil], (lastRun_inj bytes).1⟩
  | cons sequence left =>
      rw [List.flatMap_cons, List.append_assoc] at bytes
      exact absurd bytes.symm (sequence.encode_append_ne _ _ _)

theorem LooseBlock.decode_eq_of_encode_eq {first second : LooseBlock} (same : first.encode = second.encode) :
    first.decode = second.decode := by
  obtain ⟨sequences, literals⟩ := LooseBlock.encode_inj same
  rw [LooseBlock.decode, LooseBlock.decode, sequences, literals]

/-! ### The end of a block -/

/-- What the format asks of the end of a block with a match: five last literals, and twelve bytes from the start of
    the last match on. -/
def EndsWell (sequences : List LooseSequence) (literals : List Byte) : Prop :=
  ∀ sequence ∈ sequences.getLast?, 5 ≤ literals.length ∧ 12 ≤ sequence.matchLength + literals.length

theorem length_foldl_expand (sequences : List LooseSequence) (out : List Byte) :
    out.length ≤ (sequences.foldl LooseSequence.expand out).length := by
  induction sequences generalizing out with
  | nil => exact Nat.le_refl _
  | cons sequence sequences ih =>
      have behind := ih (sequence.expand out)
      rw [LooseSequence.expand, length_copyMatch, List.length_append] at behind
      rw [List.foldl_cons, LooseSequence.expand]
      omega

/-- The room that a block that ends well leaves behind each of its matches. -/
theorem EndsWell.room {literals : List Byte} {sequences : List LooseSequence} {sequence : LooseSequence}
    (endsWell : EndsWell (sequence :: sequences) literals) (out : List Byte) :
    5 ≤ literals.length ∧
      (out ++ sequence.literals).length + 12 ≤
        (sequences.foldl LooseSequence.expand (sequence.expand out)).length + literals.length ∧
      (sequence.expand out).length + 5 ≤
        (sequences.foldl LooseSequence.expand (sequence.expand out)).length + literals.length := by
  have expanded : ∀ s : LooseSequence, ∀ out, (s.expand out).length = (out ++ s.literals).length + s.matchLength :=
    fun s out => by rw [LooseSequence.expand, length_copyMatch]
  have long := sequence.matchLength_ge
  have first := expanded sequence out
  rcases List.eq_nil_or_concat sequences with rfl | ⟨sequences, last, rfl⟩
  · obtain ⟨five, twelve⟩ := endsWell sequence rfl
    rw [List.foldl_nil]
    omega
  · obtain ⟨five, twelve⟩ := endsWell last
      (by rw [List.concat_eq_append, ← List.cons_append, List.getLast?_concat]; rfl)
    have middle := length_foldl_expand sequences (sequence.expand out)
    have final := expanded last (sequences.foldl LooseSequence.expand (sequence.expand out))
    rw [List.length_append] at final
    rw [List.concat_eq_append, List.foldl_concat]
    omega

/-- What is left of a block that ends well ends well. -/
theorem EndsWell.drop {literals : List Byte} {read left : List LooseSequence}
    (endsWell : EndsWell (read ++ left) literals) : EndsWell left literals := by
  intro sequence last
  refine endsWell sequence ?_
  rw [List.getLast?_append, Option.mem_def.mp last]
  rfl

theorem reachesInside_append {out : List Byte} {read left : List LooseSequence}
    (reaches : ReachesInside out (read ++ left)) : ReachesInside (read.foldl LooseSequence.expand out) left := by
  induction read generalizing out with
  | nil => exact reaches
  | cons sequence read ih => exact ih reaches.2

/-! ### Blocks of the format -/

/-- A sequence of the format. -/
def Sequence.loose (sequence : Sequence) : LooseSequence :=
  ⟨sequence.literals, sequence.offset, sequence.matchLength, sequence.offset_lt, sequence.matchLength_ge⟩

theorem foldl_loose (sequences : List Sequence) (out : List Byte) :
    (sequences.map Sequence.loose).foldl LooseSequence.expand out = sequences.foldl Sequence.expand out := by
  rw [List.foldl_map]
  rfl

theorem flatMap_loose (sequences : List Sequence) :
    (sequences.map Sequence.loose).flatMap LooseSequence.encode = sequences.flatMap Sequence.encode := by
  rw [List.flatMap_map]
  rfl

theorem reachesInside_loose {sequences : List Sequence} {out : List Byte} :
    ReachesInside out (sequences.map Sequence.loose) ↔ OffsetsInside out sequences := by
  induction sequences generalizing out with
  | nil => exact Iff.rfl
  | cons sequence sequences ih => exact and_congr Iff.rfl ih

/-- A block of the format can be read. -/
def Block.loose (block : Block) : LooseBlock :=
  ⟨block.sequences.map Sequence.loose, block.lastLiterals, block.lastNibble,
    reachesInside_loose.mpr block.offsetsInside⟩

theorem Block.loose_encode (block : Block) : block.loose.encode = block.encode :=
  congrArg (· ++ _) (flatMap_loose block.sequences)

theorem Block.loose_decode (block : Block) : block.loose.decode = block.decode :=
  congrArg (· ++ _) (foldl_loose block.sequences [])

theorem exists_strict {sequences : List LooseSequence} (positive : ∀ sequence ∈ sequences, 1 ≤ sequence.offset) :
    ∃ strict : List Sequence, strict.map Sequence.loose = sequences := by
  induction sequences with
  | nil => exact ⟨[], rfl⟩
  | cons sequence sequences ih =>
      obtain ⟨strict, rfl⟩ := ih fun other member => positive other (List.mem_cons_of_mem _ member)
      exact ⟨⟨sequence.literals, sequence.offset, sequence.matchLength, positive sequence List.mem_cons_self,
        sequence.offset_lt, sequence.matchLength_ge⟩ :: strict, rfl⟩

/-- What can be read is a block of the format if no offset is zero and there are last literals. -/
theorem LooseBlock.strict {block : LooseBlock} (positive : ∀ sequence ∈ block.sequences, 1 ≤ sequence.offset)
    (nonempty : block.lastLiterals ≠ []) : ∃ strict : Block, strict.loose = block := by
  obtain ⟨sequences, mapped⟩ := exists_strict positive
  cases block with
  | mk _ literals low reaches =>
      cases mapped
      exact ⟨⟨sequences, literals, low, reachesInside_loose.mp reaches, nonempty⟩, rfl⟩

/-! ### Matches without end -/

/-- The bytes of a match that never ends, behind what it starts from. -/
def matchStream (offset : Nat) (out : List Byte) (i : Nat) : Byte :=
  (copyMatch offset (i + 1 - out.length) out).getD i 0

theorem getD_copyMatch_of_lt {offset : Nat} {out : List Byte} (length : Nat) {i : Nat} (below : i < out.length) :
    (copyMatch offset length out).getD i 0 = out.getD i 0 := by
  induction length generalizing out with
  | zero => rfl
  | succ length ih =>
      rw [copyMatch, ih (by rw [List.length_append]; omega), List.getD_append _ _ _ _ below]

/-- A match can be cut in two. -/
theorem copyMatch_add (offset first second : Nat) (out : List Byte) :
    copyMatch offset (first + second) out = copyMatch offset second (copyMatch offset first out) := by
  induction first generalizing out with
  | zero => rw [Nat.zero_add, copyMatch]
  | succ first ih =>
      rw [Nat.add_right_comm, copyMatch, ih, copyMatch]

/-- A match begins as the one without end. -/
theorem getD_copyMatch {offset length : Nat} {out : List Byte} {i : Nat} (below : i < out.length + length) :
    (copyMatch offset length out).getD i 0 = matchStream offset out i := by
  have cut : length = (i + 1 - out.length) + (length - (i + 1 - out.length)) := by omega
  have inside : i < (copyMatch offset (i + 1 - out.length) out).length := by
    rw [length_copyMatch]
    omega
  rw [matchStream, cut, copyMatch_add, getD_copyMatch_of_lt _ inside]

theorem matchStream_of_lt {offset : Nat} {out : List Byte} {i : Nat} (below : i < out.length) :
    matchStream offset out i = out.getD i 0 := getD_copyMatch_of_lt _ below

/-- Behind the start each byte is the one an offset back. -/
theorem matchStream_of_le {offset : Nat} {out : List Byte} {i : Nat} (behind : out.length ≤ i)
    (reaches : offset ≤ i) :
    matchStream offset out i = if offset = 0 then 0 else matchStream offset out (i - offset) := by
  have length : i + 1 - out.length = (i - out.length) + 1 := by omega
  have produced : (copyMatch offset (i - out.length) out).length = i := by
    rw [length_copyMatch]
    omega
  rw [matchStream, length, copyMatch_add, copyMatch, copyMatch, List.getD_append_right _ _ _ _ (by omega), produced,
    Nat.sub_self, List.getD_cons_zero]
  split
  · next zero =>
    rw [zero] at produced ⊢
    rw [Nat.sub_zero, List.getD_eq_default _ _ (Nat.le_of_eq produced)]
  · exact getD_copyMatch (by omega)

/-- The stream of a match repeats every `offset` bytes, from where the match starts to read. -/
theorem matchStream_shifts {offset : Nat} {out : List Byte} (reaches : offset ≤ out.length) :
    Shifts (matchStream offset out) (out.length - offset) offset := by
  intro i above
  rw [matchStream_of_le (by omega) (by omega), Nat.add_sub_cancel]
  split
  · next zero =>
    -- the stream of an offset of zero is zero
    rw [matchStream_of_le (by omega) (by omega), if_pos zero]
  · rfl

/-- With an offset of zero every byte is zero. -/
theorem matchStream_zero {out : List Byte} {i : Nat} (behind : out.length ≤ i) : matchStream 0 out i = 0 := by
  rw [matchStream_of_le behind (Nat.zero_le _), if_pos rfl]

theorem matchStream_zero_shifts (out : List Byte) (distance : Nat) :
    Shifts (matchStream 0 out) out.length distance := fun i behind => by
  rw [matchStream_zero behind, matchStream_zero (by omega)]

theorem copyMatch_eq_map (offset length : Nat) (out : List Byte) :
    copyMatch offset length out = (List.range (out.length + length)).map (matchStream offset out) := by
  apply List.ext_getElem?
  intro i
  by_cases below : i < out.length + length
  · rw [List.getElem?_map, List.getElem?_range below, Option.map_some, ← getD_copyMatch below,
      List.getD_eq_getElem?_getD, List.getElem?_eq_getElem (by rwa [length_copyMatch]), Option.getD_some]
  · rw [List.getElem?_eq_none (by rw [length_copyMatch]; omega), List.getElem?_eq_none (by simpa using below)]

end Lz4Format

end Zftl
