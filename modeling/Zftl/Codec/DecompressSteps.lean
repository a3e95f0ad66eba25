/-
Module: Zftl.Codec.DecompressSteps
Layer: Codec
Purpose: What one turn of the decoder's loops does. `Reads` is the specification of a turn, the same for both loops: it
  reads a sequence and appends what the sequence stands for, or it reads the last literals, or it reports an error
  and then no sequence that the format allows so close to the end begins there. No turn leaves the buffers.
Imports: Zftl.Codec.DecompressCopies
Trusted boundary: none
Main exports: Cursor.Holds, Reads, MatchReads, readVariableLength_reads, safeMatchCopy_reads, reads_of_match,
  safeIteration_reads, fastIteration_reads
Open obligations: none
-/
import Zftl.Codec.DecompressCopies

namespace Zftl.Codec

open Buffer Lz4Format Fallible

variable {srcSize cap : Nat} {src : Buffer Byte srcSize} {out : List Byte}

/-- The bytes produced so far are in the destination. -/
structure Cursor.Holds (c : Cursor cap) (out : List Byte) : Prop where
  op : c.op = out.length
  begins : c.dst.slice 0 out.length = out

/-- What a turn that begins at `ip` does. -/
inductive Reads (src : Buffer Byte srcSize) (out : List Byte) (ip : Nat) : Outcome cap → Prop where
  | next (sequence : LooseSequence) (c : Cursor cap) (bytes : src.suffix ip = sequence.encode ++ src.suffix c.ip)
      (reaches : sequence.offset ≤ (out ++ sequence.literals).length) (more : c.ip < srcSize)
      (holds : c.Holds (sequence.expand out)) : Reads src out ip (.next c)
  | finished (literals : List Byte) (lowNibble : BitVec 4) (c : Cursor cap)
      (bytes : src.suffix ip = lastRun literals lowNibble) (holds : c.Holds (out ++ literals)) :
      Reads src out ip (.finished c)
  | outputError (c : Cursor cap) (inside : c.ip ≤ srcSize)
      (noSequence : ∀ sequence rest, src.suffix ip = LooseSequence.encode sequence ++ rest →
        ¬(6 ≤ rest.length ∧ sequence.offset ≤ (out ++ sequence.literals).length ∧
          (out ++ sequence.literals).length + 12 ≤ cap ∧ (sequence.expand out).length + 5 ≤ cap))
      (noLast : ∀ literals lowNibble, src.suffix ip = lastRun literals lowNibble → ¬(out ++ literals).length ≤ cap) :
      Reads src out ip (.outputError c)

/-- What the rest of a turn does behind the two bytes of an offset; `out` are the bytes in front of the match. -/
inductive MatchReads (src : Buffer Byte srcSize) (out : List Byte) (lowNibble : BitVec 4) (offset ip : Nat) :
    Outcome cap → Prop where
  | next (length : Nat) (c : Cursor cap) (long : 4 ≤ length) (nibbles : nibble (length - 4) = lowNibble)
      (bytes : src.suffix ip = lengthTail (length - 4) ++ src.suffix c.ip) (reaches : offset ≤ out.length)
      (more : c.ip < srcSize) (holds : c.Holds (copyMatch offset length out)) :
      MatchReads src out lowNibble offset ip (.next c)
  | outputError (c : Cursor cap) (inside : c.ip ≤ srcSize)
      (refused : ∀ length rest, 4 ≤ length → nibble (length - 4) = lowNibble →
        src.suffix ip = lengthTail (length - 4) ++ rest →
          ¬(6 ≤ rest.length ∧ offset ≤ out.length ∧ out.length + length + 5 ≤ cap)) :
      MatchReads src out lowNibble offset ip (.outputError c)

theorem Cursor.Holds.agrees {c : Cursor cap} (holds : c.Holds out) (offset : Nat) :
    c.dst.Agrees (matchStream offset out) out.length :=
  (agrees_of_slice 0 holds.begins).congr fun _ below => (matchStream_of_lt below).symm

theorem Cursor.Holds.op_le {c : Cursor cap} (holds : c.Holds out) : c.op ≤ cap := by
  rw [holds.op]
  exact (holds.agrees 0).inside

/-- A destination that agrees with the stream of a match holds the match. -/
theorem holds_copyMatch {dst : Buffer Byte cap} {offset length : Nat} (ip : Nat)
    (agrees : dst.Agrees (matchStream offset out) (out.length + length)) :
    (Cursor.mk ip (out.length + length) dst).Holds (copyMatch offset length out) := by
  refine ⟨(length_copyMatch _ _ _).symm, ?_⟩
  rw [length_copyMatch, slice_of_agrees agrees, copyMatch_eq_map]

/-! ### Tokens, lengths and offsets -/

theorem literalNibble_eq (token : Byte) : literalNibble token = (token.extractLsb' 4 4).toNat := by
  rw [literalNibble, BitVec.toNat_ushiftRight, BitVec.extractLsb'_toNat, Nat.mod_eq_of_lt]
  have bound : token.toNat < 2 ^ 8 := token.isLt
  rw [Nat.shiftRight_eq_div_pow]
  omega

theorem matchNibble_eq (token : Byte) : matchNibble token = (token.extractLsb' 0 4).toNat := by
  rw [matchNibble, BitVec.toNat_and, BitVec.extractLsb'_toNat, Nat.shiftRight_zero]
  exact Nat.and_two_pow_sub_one_eq_mod token.toNat 4

theorem token_eq (token : Byte) : (token.extractLsb' 4 4 ++ token.extractLsb' 0 4 : Byte) = token := by
  apply BitVec.eq_of_getLsbD_eq
  intro i below
  rw [BitVec.getLsbD_append, BitVec.getLsbD_extractLsb', BitVec.getLsbD_extractLsb']
  by_cases low : i < 4
  · simp [low]
  · have high : i - 4 < 4 := by omega
    have same : 4 + (i - 4) = i := by omega
    simp [low, high, same]

/-- A nibble below 15 is its length. -/
theorem nibble_toNat {n : BitVec 4} (short : n.toNat ≠ 15) : nibble n.toNat = n ∧ lengthTail n.toNat = [] := by
  have bound : n.toNat < 2 ^ 4 := n.isLt
  have small : n.toNat < 15 := by omega
  refine ⟨?_, if_pos small⟩
  rw [nibble, if_pos small, BitVec.ofNat_toNat, BitVec.setWidth_eq]

/-- A nibble of 15 belongs to a length of 15 or more. -/
theorem le_of_nibble {length : Nat} {n : BitVec 4} (nibbles : nibble length = n) (full : n.toNat = 15) :
    15 ≤ length := by
  refine Nat.not_lt.mp fun short => (nibble_of_lt short).1 ?_
  rw [nibbles]
  exact BitVec.eq_of_toNat_eq full

/-- A nibble of 15 and its extension bytes. -/
theorem nibble_add {n : BitVec 4} (full : n.toNat = 15) (length : Nat) :
    nibble (15 + length) = n ∧ lengthTail (15 + length) = extension length := by
  refine ⟨?_, ?_⟩
  · rw [nibble_of_ge (by omega)]
    exact (BitVec.eq_of_toNat_eq full).symm
  · rw [lengthTail, if_neg (by omega), Nat.add_sub_cancel_left]

theorem length_extension_pos (length : Nat) : 1 ≤ (extension length).length := by
  rw [extension]
  split
  · exact Nat.le_refl 1
  · exact Nat.succ_le_succ (Nat.zero_le _)

/-- The bytes of a length, up to the limit; none of a longer one. -/
inductive LengthReads (src : Buffer Byte srcSize) (reserve ip gathered : Nat) : Option Nat × Nat → Prop where
  | read (length ip' : Nat) (bytes : src.suffix ip = extension length ++ src.suffix ip')
      (ahead : ip' + reserve ≤ srcSize) : LengthReads src reserve ip gathered (some (gathered + length), ip')
  | stopped (ip' : Nat) (inside : ip' ≤ srcSize)
      (close : ∀ length rest, src.suffix ip = extension length ++ rest → rest.length < reserve) :
      LengthReads src reserve ip gathered (none, ip')

theorem readByte_of_lt {p : Nat} (inside : p < srcSize) : readByte src p = .ok (src.cell p) := by
  rw [readByte, dif_pos inside, cell_of_lt _ inside]

theorem readMore_reads (reserve gathered : Nat) {ip : Nat} (inside : ip ≤ srcSize) :
    ∃ result, readMore src reserve ip gathered = .ok result ∧ LengthReads src reserve ip gathered result := by
  induction left : srcSize - ip using Nat.strongRecOn generalizing ip gathered with
  | _ left ih =>
    rw [readMore]
    by_cases limit : srcSize ≤ ip + reserve
    · rw [if_pos limit]
      refine ⟨_, rfl, .stopped ip inside fun length rest bytes => ?_⟩
      have lengths := congrArg List.length bytes
      have positive := length_extension_pos length
      rw [length_suffix, List.length_append] at lengths
      omega
    · have cons := suffix_eq_cons src (by omega : ip < srcSize)
      rw [if_neg limit, readByte_of_lt (by omega), ok_bind]
      by_cases full : src.cell ip = 255
      · rw [if_pos full]
        obtain ⟨result, ok, reads⟩ := ih (srcSize - (ip + 1)) (by omega) (gathered + 255)
          (by omega : ip + 1 ≤ srcSize) rfl
        refine ⟨result, ok, ?_⟩
        cases reads with
        | read length ip' bytes ahead =>
          rw [Nat.add_assoc]
          refine .read (255 + length) ip' ?_ ahead
          rw [cons, full, extension_of_le (by omega), Nat.add_sub_cancel_left, bytes]
          rfl
        | stopped ip' inside close =>
          refine .stopped ip' inside fun length rest bytes => ?_
          by_cases small : length < 255
          · rw [cons, full, extension_of_lt small] at bytes
            exact absurd (List.cons.inj bytes).1.symm (ofNat_extension small).1
          · rw [cons, extension_of_le (by omega)] at bytes
            exact close _ _ (List.cons.inj bytes).2
      · rw [if_neg full]
        refine ⟨_, rfl, .read (src.cell ip).toNat (ip + 1) ?_ (by omega)⟩
        have bound : (src.cell ip).toNat < 2 ^ 8 := (src.cell ip).isLt
        have small : (src.cell ip).toNat < 255 := by
          have other : (src.cell ip).toNat ≠ 255 := fun same => full (BitVec.eq_of_toNat_eq same)
          omega
        rw [cons, extension_of_lt small, BitVec.ofNat_toNat, BitVec.setWidth_eq]
        rfl

theorem readVariableLength_reads (src : Buffer Byte srcSize) (reserve : Nat) {ip : Nat} (inside : ip ≤ srcSize) :
    ∃ result, readVariableLength src reserve ip = .ok result ∧ LengthReads src reserve ip 0 result :=
  readMore_reads reserve 0 inside

/-- The two bytes of an offset and what is behind them. -/
theorem readLE16_reads (src : Buffer Byte srcSize) {ip : Nat} (inside : ip + 2 ≤ srcSize) :
    ∃ offset, readLE16 src ip = .ok offset ∧ offset < 2 ^ 16 ∧
      src.suffix ip = BitVec.ofNat 8 offset :: BitVec.ofNat 8 (offset / 256) :: src.suffix (ip + 2) := by
  refine ⟨(src.cell (ip + 1) ++ src.cell ip : BitVec 16).toNat, ?_, BitVec.isLt _, ?_⟩
  · rw [readLE16, readByte_of_lt (by omega), ok_bind, readByte_of_lt (by omega), ok_bind]
    rfl
  · have value : (src.cell (ip + 1) ++ src.cell ip : BitVec 16).toNat =
        (src.cell (ip + 1)).toNat * 256 + (src.cell ip).toNat := by
      rw [BitVec.toNat_append, ← Nat.shiftLeft_add_eq_or_of_lt (BitVec.isLt _), Nat.shiftLeft_eq]
    have low : (src.cell ip).toNat < 2 ^ 8 := (src.cell ip).isLt
    have high : (src.cell (ip + 1)).toNat < 2 ^ 8 := (src.cell (ip + 1)).isLt
    rw [suffix_eq_cons src (by omega), suffix_eq_cons src (by omega : ip + 1 < srcSize), value]
    refine congrArg₂ List.cons (BitVec.eq_of_toNat_eq ?_) (congrArg (· :: _) (BitVec.eq_of_toNat_eq ?_))
    · rw [BitVec.toNat_ofNat]
      omega
    · rw [BitVec.toNat_ofNat]
      omega

/-! ### Matches -/

/-- The label `safe_match_copy`. -/
theorem safeMatchCopy_eq {c : Cursor cap} {length : Nat} (offset : Nat) (holds : c.Holds out) (long : 4 ≤ length)
    (room : out.length + 8 ≤ cap) :
    ∃ outcome, safeMatchCopy c length offset = .ok outcome ∧
      ((offset ≤ out.length ∧ ∃ c', outcome = .next c' ∧ c'.ip = c.ip ∧ c'.Holds (copyMatch offset length out)) ∨
        ¬(offset ≤ out.length ∧ out.length + length + 5 ≤ cap) ∧ ∃ c', outcome = .outputError c' ∧ c'.ip = c.ip) := by
  rw [safeMatchCopy, holds.op]
  by_cases below : out.length < offset
  · rw [if_pos below]
    exact ⟨_, rfl, Or.inr ⟨fun both => absurd both.1 (by omega), _, rfl, rfl⟩⟩
  rw [if_neg below]
  have reaches : offset ≤ out.length := Nat.not_lt.mp below
  obtain ⟨first, mtch, distance, ok, agrees, shifts, source, above, apart⟩ :=
    copyFirstEight_agrees (holds.agrees offset) reaches room
  have guard : matchSafeguardDistance = 12 := rfl
  have last : lastLiterals = 5 := rfl
  rw [ok, ok_bind]
  dsimp only
  by_cases near : cap < out.length + length + matchSafeguardDistance
  · rw [if_pos near]
    by_cases beyond : cap < out.length + length + lastLiterals
    · rw [if_pos beyond]
      exact ⟨_, rfl, Or.inr ⟨fun both => absurd both.2 (by omega), _, rfl, rfl⟩⟩
    · rw [if_neg beyond]
      obtain ⟨dst, ok', agrees⟩ := copyNearEnd_agrees (e := out.length + length) agrees shifts source above apart
        (by omega) (by omega)
      refine ⟨.next ⟨c.ip, out.length + length, dst⟩, ?_, Or.inl ⟨reaches, _, rfl, rfl, holds_copyMatch c.ip agrees⟩⟩
      rw [ok']
      rfl
  · rw [if_neg near]
    obtain ⟨second, ok', agrees⟩ := moveWithin_agrees 8 agrees shifts source above apart (by omega)
    rw [ok', ok_bind]
    by_cases more : 16 < length
    · rw [if_pos more]
      obtain ⟨dst, ok'', agrees⟩ := wildCopy8_agrees (e := out.length + length) (s := mtch + 8) agrees shifts (by omega)
        (by omega) apart (by omega) (by omega)
      refine ⟨.next ⟨c.ip, out.length + length, dst⟩, ?_, Or.inl ⟨reaches, _, rfl, rfl, holds_copyMatch c.ip agrees⟩⟩
      rw [ok'']
      rfl
    · rw [if_neg more]
      exact ⟨_, rfl, Or.inl ⟨reaches, _, rfl, rfl, holds_copyMatch c.ip (agrees.mono (by omega))⟩⟩

/-- The label `safe_match_copy`, once the length of the match has been read. -/
theorem safeMatchCopy_reads {c : Cursor cap} {ip length : Nat} {lowNibble : BitVec 4} (offset : Nat)
    (holds : c.Holds out) (long : 4 ≤ length) (room : out.length + 8 ≤ cap) (nibbles : nibble (length - 4) = lowNibble)
    (bytes : src.suffix ip = lengthTail (length - 4) ++ src.suffix c.ip) (more : c.ip < srcSize) :
    ∃ outcome, safeMatchCopy c length offset = .ok outcome ∧ MatchReads src out lowNibble offset ip outcome := by
  obtain ⟨outcome, ok, copied | failed⟩ := safeMatchCopy_eq offset holds long room
  · obtain ⟨reaches, c', rfl, same, holds'⟩ := copied
    exact ⟨_, ok, .next length c' long nibbles (by rwa [same]) reaches (by rwa [same]) holds'⟩
  · obtain ⟨wrong, c', rfl, same⟩ := failed
    refine ⟨_, ok, .outputError c' (by omega) fun length' rest long' nibbles' bytes' allowed => ?_⟩
    have lengths := (length_inj (nibbles.trans nibbles'.symm) (bytes.symm.trans bytes')).1
    have equal : length = length' := by omega
    subst equal
    exact wrong allowed.2

/-- The label `_copy_match`. -/
theorem copyMatchLabel_reads {c : Cursor cap} (src : Buffer Byte srcSize) (token : Byte) (offset : Nat)
    (holds : c.Holds out)
    (room : out.length + 8 ≤ cap) (more : c.ip < srcSize) :
    ∃ outcome, copyMatchLabel src c (matchNibble token) offset = .ok outcome ∧
      MatchReads src out (token.extractLsb' 0 4) offset c.ip outcome := by
  rw [copyMatchLabel, matchNibble_eq]
  have four : minMatch = 4 := rfl
  have last : lastLiterals = 5 := rfl
  by_cases full : (token.extractLsb' 0 4).toNat = mlMask
  · rw [if_pos full]
    obtain ⟨result, ok, reads⟩ := readVariableLength_reads src (1 + lastLiterals) (Nat.le_of_lt more)
    rw [ok, ok_bind]
    cases reads with
    | read length ip' bytes ahead =>
      have nibbles := nibble_add full length
      have sum : mlMask + (0 + length) + minMatch - 4 = 15 + length := by rw [four, mlMask]; omega
      rw [full]
      exact @safeMatchCopy_reads _ _ src out { c with ip := ip' } _ _ _ offset ⟨holds.op, holds.begins⟩ (by omega) room
        (by rw [sum]; exact nibbles.1) (by rw [sum, nibbles.2]; exact bytes) (by change ip' < _; omega)
    | stopped ip' inside close =>
      refine ⟨_, rfl, .outputError _ inside fun length rest long nibbles bytes allowed => ?_⟩
      have large := le_of_nibble nibbles full
      rw [lengthTail, if_neg (by omega)] at bytes
      have limit := close _ _ bytes
      omega
  · rw [if_neg full]
    have nibbles := nibble_toNat full
    refine safeMatchCopy_reads offset holds (by omega) room ?_ ?_ more
    · rw [four, Nat.add_sub_cancel]
      exact nibbles.1
    · rw [four, Nat.add_sub_cancel, nibbles.2, List.nil_append]

/-- The match behind its literals makes a whole turn. -/
theorem reads_of_match {ip ip' offset : Nat} {token : Byte} {literals : List Byte} {outcome : Outcome cap}
    (high : nibble literals.length = token.extractLsb' 4 4) (small : offset < 2 ^ 16)
    (bytes : src.suffix ip = token :: (lengthTail literals.length ++ (literals ++
      (BitVec.ofNat 8 offset :: BitVec.ofNat 8 (offset / 256) :: src.suffix ip'))))
    (reads : MatchReads src (out ++ literals) (token.extractLsb' 0 4) offset ip' outcome) :
    Reads src out ip outcome := by
  rw [← token_eq token, ← high] at bytes
  cases reads with
  | next length c long nibbles bytes' reaches more holds =>
    refine .next ⟨literals, offset, length, small, long⟩ c ?_ reaches more holds
    rw [bytes, bytes', ← nibbles]
    simp [LooseSequence.encode]
  | outputError c inside refused =>
    refine .outputError c inside (fun sequence rest bytes' allowed => ?_) fun last lowNibble bytes' _ => ?_
    · rw [bytes] at bytes'
      have behind := @literals_inj literals sequence.literals
        (BitVec.ofNat 8 offset :: BitVec.ofNat 8 (offset / 256) :: src.suffix ip')
        (BitVec.ofNat 8 sequence.offset :: BitVec.ofNat 8 (sequence.offset / 256) ::
          (lengthTail (sequence.matchLength - 4) ++ rest)) _ (nibble (sequence.matchLength - 4))
        (by simpa [LooseSequence.encode] using bytes')
      obtain ⟨same, lows, behind⟩ := behind
      obtain ⟨low, behind⟩ := List.cons.inj behind
      obtain ⟨high, behind⟩ := List.cons.inj behind
      have offsets : sequence.offset = offset := by
        have value := offset_bytes sequence.offset_lt
        rw [← low, ← high, offset_bytes small] at value
        exact value.symm
      obtain ⟨room, reaches, -, expanded⟩ := allowed
      rw [LooseSequence.expand, length_copyMatch] at expanded
      refine refused sequence.matchLength rest sequence.matchLength_ge lows.symm behind ⟨room, ?_, ?_⟩
      · rwa [same, ← offsets]
      · rwa [same]
    · rw [bytes] at bytes'
      have behind := @literals_inj literals last _ [] _ lowNibble (by simpa [lastRun] using bytes')
      exact absurd behind.2.2 (List.cons_ne_nil _ _)

/-! ### Literals -/

/-- What is in the destination once literals have been copied, and whatever is behind them in the source. -/
def literalStream (src : Buffer Byte srcSize) (out : List Byte) (ip i : Nat) : Byte :=
  if i < out.length then out.getD i 0 else src.cell (ip + (i - out.length))

theorem literalStream_copied (ip k : Nat) : literalStream src out ip (out.length + k) = src.cell (ip + k) := by
  rw [literalStream, if_neg (by omega), Nat.add_sub_cancel_left]

theorem Cursor.Holds.agrees_literal {c : Cursor cap} (holds : c.Holds out) (src : Buffer Byte srcSize) (ip : Nat) :
    c.dst.Agrees (literalStream src out ip) out.length :=
  (agrees_of_slice 0 holds.begins).congr fun _ below => (if_pos below).symm

/-- A destination that agrees with the stream of the literals holds them. -/
theorem holds_literals {dst : Buffer Byte cap} {ip length : Nat} (ip' : Nat) (inside : ip + length ≤ srcSize)
    (agrees : dst.Agrees (literalStream src out ip) (out.length + length)) :
    (Cursor.mk ip' (out.length + length) dst).Holds (out ++ src.slice ip length) := by
  have copied := length_slice src inside
  refine ⟨by rw [List.length_append, copied], ?_⟩
  rw [List.length_append, copied, slice_of_agrees agrees]
  apply List.ext_getElem?
  intro i
  by_cases below : i < out.length + length
  · rw [List.getElem?_map, List.getElem?_range below, Option.map_some, literalStream]
    by_cases produced : i < out.length
    · rw [if_pos produced, List.getElem?_append_left produced, List.getD_eq_getElem?_getD,
        List.getElem?_eq_getElem produced, Option.getD_some]
    · rw [if_neg produced, List.getElem?_append_right (by omega), getElem?_slice_of_lt _ (by omega) (by omega)]
  · rw [List.getElem?_eq_none (by simpa using below), List.getElem?_eq_none]
    rw [List.length_append, copied]
    omega

/-- The literals, the offset behind them and the rest. -/
theorem suffix_literals {ip length offset : Nat}
    (bytes : src.suffix (ip + length) =
      BitVec.ofNat 8 offset :: BitVec.ofNat 8 (offset / 256) :: src.suffix (ip + length + 2)) :
    src.suffix ip = src.slice ip length ++
      (BitVec.ofNat 8 offset :: BitVec.ofNat 8 (offset / 256) :: src.suffix (ip + length + 2)) := by
  rw [← bytes, slice_append_suffix]

/-- The label `safe_literal_copy`, once the length of the literals has been read. -/
theorem safeLiteralCopy_reads {c : Cursor cap} {ip length : Nat} {token : Byte} (holds : c.Holds out)
    (inside : c.ip ≤ srcSize) (high : nibble length = token.extractLsb' 4 4)
    (bytes : src.suffix ip = token :: (lengthTail length ++ src.suffix c.ip)) :
    ∃ outcome, safeLiteralCopy src c token length = .ok outcome ∧ Reads src out ip outcome := by
  have twelve : mfLimit = 12 := rfl
  have five : lastLiterals = 5 := rfl
  have tokens := token_eq token
  rw [← high] at tokens
  rw [safeLiteralCopy, holds.op]
  by_cases near : cap < out.length + length + mfLimit ∨ srcSize < c.ip + length + (2 + 1 + lastLiterals)
  · rw [if_pos near]
    by_cases wrong : c.ip + length ≠ srcSize ∨ cap < out.length + length
    · rw [if_pos wrong]
      refine ⟨_, rfl, .outputError c inside (fun sequence rest bytes' allowed => ?_)
        fun last lowNibble bytes' fits => ?_⟩
      · rw [bytes, ← tokens] at bytes'
        have behind := List.cons.inj bytes'
        obtain ⟨lengths, behind⟩ := length_inj (token_inj behind.1).1
          (by simpa [LooseSequence.encode] using behind.2)
        have count := congrArg List.length behind
        simp only [length_suffix, List.length_append, List.length_cons] at count
        simp only [List.length_append] at allowed
        omega
      · rw [bytes, ← tokens] at bytes'
        have behind := List.cons.inj bytes'
        obtain ⟨lengths, behind⟩ := length_inj (token_inj behind.1).1 behind.2
        have count := congrArg List.length behind
        rw [length_suffix] at count
        rw [List.length_append] at fits
        omega
    · rw [if_neg wrong]
      rw [not_or, not_not, Nat.not_lt] at wrong
      obtain ⟨dst, ok, agrees⟩ := (holds.agrees_literal src c.ip).memcpy src c.ip length wrong.2
        (Nat.le_of_eq wrong.1) fun k _ => literalStream_copied c.ip k
      rw [ok, ok_bind]
      refine ⟨_, rfl, .finished (src.slice c.ip length) (token.extractLsb' 0 4) _ ?_
        (holds_literals _ (Nat.le_of_eq wrong.1) agrees)⟩
      have whole := slice_append_suffix src c.ip length
      rw [suffix_end src (Nat.le_of_eq wrong.1.symm), List.append_nil] at whole
      rw [bytes, lastRun, length_slice src (Nat.le_of_eq wrong.1), tokens, whole]
  · rw [if_neg near]
    rw [not_or, Nat.not_lt, Nat.not_lt] at near
    obtain ⟨dst, ok, agrees⟩ := wildCopy8From_agrees (s := c.ip) (e := out.length + length)
      (out.length + length + 8) (holds.agrees_literal src c.ip)
      (literalStream_copied c.ip) (by omega) (by omega) (by omega) (by omega)
    obtain ⟨offset, ok', small, behind⟩ := readLE16_reads src (by omega : c.ip + length + 2 ≤ srcSize)
    have within : c.ip + length ≤ srcSize := by omega
    have copied := length_slice src within
    have grown := holds_literals (c.ip + length + 2) within agrees
    obtain ⟨outcome, ok'', reads⟩ := copyMatchLabel_reads src token offset grown
      (by rw [List.length_append, copied]; omega) (by change c.ip + length + 2 < srcSize; omega)
    refine ⟨outcome, ?_, reads_of_match (by rwa [copied]) small ?_ reads⟩
    · rw [ok, ok_bind]
      dsimp only
      rw [ok', ok_bind, ok'']
    · rw [bytes, copied, suffix_literals behind]

/-- A length that runs into the last fifteen bytes is the length of no literals. -/
theorem reads_of_long {ip : Nat} {c : Cursor cap} (inside : ip < srcSize) (inside' : c.ip ≤ srcSize)
    (full : ((src.cell ip).extractLsb' 4 4).toNat = 15)
    (close : ∀ length rest, src.suffix (ip + 1) = extension length ++ rest → rest.length < 15) :
    Reads src out ip (.outputError c) := by
  have cons := suffix_eq_cons src inside
  have tokens := token_eq (src.cell ip)
  refine .outputError c inside' (fun sequence rest bytes _ => ?_) fun last lowNibble bytes _ => ?_
  · rw [cons, ← tokens] at bytes
    have behind := List.cons.inj bytes
    have large := le_of_nibble (token_inj behind.1).1.symm full
    have limit := close (sequence.literals.length - 15) (sequence.literals ++
      (BitVec.ofNat 8 sequence.offset :: BitVec.ofNat 8 (sequence.offset / 256) ::
        (lengthTail (sequence.matchLength - 4) ++ rest)))
      (by rw [behind.2, lengthTail, if_neg (by omega)]; simp)
    rw [List.length_append] at limit
    omega
  · rw [cons, ← tokens] at bytes
    have behind := List.cons.inj bytes
    have large := le_of_nibble (token_inj behind.1).1.symm full
    have limit := close (last.length - 15) last (by rw [behind.2, lengthTail, if_neg (by omega)])
    omega

/-- The label `safe_literal_copy_early`, with the token at `ip` taken. -/
theorem safeLiteralCopyEarly_reads {ip : Nat} {c : Cursor cap} (holds : c.Holds out) (inside : ip < srcSize)
    (taken : c.ip = ip + 1) :
    ∃ outcome, safeLiteralCopyEarly src c (src.cell ip) (literalNibble (src.cell ip)) = .ok outcome ∧
      Reads src out ip outcome := by
  have cons := suffix_eq_cons src inside
  have tokens := token_eq (src.cell ip)
  rw [safeLiteralCopyEarly, literalNibble_eq]
  by_cases full : ((src.cell ip).extractLsb' 4 4).toNat = runMask
  · rw [if_pos full]
    obtain ⟨result, ok, reads⟩ := readVariableLength_reads src runMask (by omega : c.ip ≤ srcSize)
    rw [ok, ok_bind]
    have fifteen : runMask = 15 := rfl
    cases reads with
    | read length ip' bytes ahead =>
      have nibbles := nibble_add full length
      rw [full, Nat.zero_add]
      refine safeLiteralCopy_reads (c := { c with ip := ip' }) ⟨holds.op, holds.begins⟩ (by change ip' ≤ _; omega)
        nibbles.1 ?_
      rw [cons, ← taken, bytes]
      change _ = _ :: (lengthTail (15 + length) ++ _)
      rw [nibbles.2]
    | stopped ip' inside' close =>
      refine ⟨_, rfl, reads_of_long inside inside' full ?_⟩
      rwa [← taken]
  · rw [if_neg full]
    have nibbles := nibble_toNat full
    refine safeLiteralCopy_reads holds (by omega) nibbles.1 ?_
    rw [nibbles.2, List.nil_append, taken]
    exact cons

/-! ### Turns -/

/-- Sixteen bytes that hold a short run of literals. -/
theorem copySixteen_holds {c : Cursor cap} {length : Nat} (src : Buffer Byte srcSize) (ip ip' : Nat)
    (holds : c.Holds out) (short : length ≤ 16)
    (room : out.length + 16 ≤ cap) (inside : ip + 16 ≤ srcSize) :
    ∃ dst, memcpy c.dst c.op src ip 16 = .ok dst ∧
      (Cursor.mk ip' (out.length + length) dst).Holds (out ++ src.slice ip length) := by
  obtain ⟨dst, ok, agrees⟩ := (holds.agrees_literal src ip).memcpy src ip 16 room inside
    fun k _ => literalStream_copied ip k
  rw [holds.op]
  exact ⟨dst, ok, holds_literals ip' (by omega) (agrees.mono (by omega))⟩

/-- Eighteen bytes that hold a short match with an offset of eight or more. -/
theorem copyEighteen_reads {c : Cursor cap} {token : Byte} {offset : Nat} (src : Buffer Byte srcSize)
    (holds : c.Holds out)
    (short : matchNibble token ≠ mlMask) (long : 8 ≤ offset) (reaches : offset ≤ out.length)
    (room : out.length + 18 ≤ cap) (more : c.ip < srcSize) :
    ∃ dst, copyEighteen c.dst c.op (c.op - offset) = .ok dst ∧
      MatchReads src out (token.extractLsb' 0 4) offset c.ip
        (.next ⟨c.ip, c.op + (matchNibble token + minMatch), dst⟩) := by
  obtain ⟨dst, ok, agrees⟩ := copyEighteen_agrees (holds.agrees offset) reaches long room
  have four : minMatch = 4 := rfl
  have fifteen : mlMask = 15 := rfl
  rw [matchNibble_eq] at short ⊢
  have bound : (token.extractLsb' 0 4).toNat < 2 ^ 4 := BitVec.isLt _
  have nibbles := nibble_toNat short
  rw [holds.op]
  refine ⟨dst, ok, .next ((token.extractLsb' 0 4).toNat + minMatch) _ (by omega) ?_ ?_ reaches more
    (holds_copyMatch c.ip (agrees.mono (by omega)))⟩
  · rw [four, Nat.add_sub_cancel]
    exact nibbles.1
  · rw [four, Nat.add_sub_cancel, nibbles.2, List.nil_append]

/-- A turn of the safe loop. -/
theorem safeIteration_reads {c : Cursor cap} (src : Buffer Byte srcSize) (holds : c.Holds out)
    (inside : c.ip < srcSize) :
    ∃ outcome, safeIteration src c = .ok outcome ∧ Reads src out c.ip outcome := by
  have cons := suffix_eq_cons src inside
  rw [safeIteration, readByte_of_lt inside, ok_bind]
  by_cases shortcut : literalNibble (src.cell c.ip) ≠ runMask ∧ c.ip + 1 + (14 + 2) < srcSize ∧ c.op + (14 + 18) ≤ cap
  · rw [if_pos shortcut]
    obtain ⟨short, srcRoom, room⟩ := shortcut
    rw [literalNibble_eq] at short ⊢
    rw [holds.op] at room
    have fifteen : runMask = 15 := rfl
    have bound : ((src.cell c.ip).extractLsb' 4 4).toNat < 2 ^ 4 := BitVec.isLt _
    obtain ⟨nibbles, tail⟩ := nibble_toNat short
    revert bound short nibbles tail
    generalize ((src.cell c.ip).extractLsb' 4 4).toNat = length
    intro short bound nibbles tail
    obtain ⟨dst, ok, grown⟩ := copySixteen_holds src (c.ip + 1) (c.ip + 1 + length + 2) holds
      (by omega : length ≤ 16) (by omega) (by omega)
    obtain ⟨offset, ok', small, behind⟩ := readLE16_reads src (by omega : c.ip + 1 + length + 2 ≤ srcSize)
    have copied := length_slice src (by omega : c.ip + 1 + length ≤ srcSize)
    have bytes : src.suffix c.ip = src.cell c.ip :: (lengthTail (src.slice (c.ip + 1) length).length ++
        (src.slice (c.ip + 1) length ++ (BitVec.ofNat 8 offset :: BitVec.ofNat 8 (offset / 256) ::
          src.suffix (c.ip + 1 + length + 2)))) := by
      rw [copied, tail, cons, suffix_literals behind]
      rfl
    have more : c.ip + 1 + length + 2 < srcSize := by omega
    have grownLength : (out ++ src.slice (c.ip + 1) length).length = out.length + length := by
      rw [List.length_append, copied]
    rw [ok, ok_bind]
    dsimp only
    rw [ok', ok_bind, holds.op]
    by_cases eighteen : matchNibble (src.cell c.ip) ≠ mlMask ∧ 8 ≤ offset ∧ offset ≤ out.length + length
    · rw [if_pos eighteen]
      obtain ⟨shortMatch, long, reaches⟩ := eighteen
      obtain ⟨dst', ok'', reads⟩ := copyEighteen_reads src grown shortMatch long (by omega) (by omega) more
      refine ⟨_, ?_, reads_of_match (by rwa [copied]) small bytes reads⟩
      rw [ok'']
      rfl
    · rw [if_neg eighteen]
      obtain ⟨outcome, ok'', reads⟩ := copyMatchLabel_reads src (src.cell c.ip) offset grown (by omega) more
      exact ⟨outcome, ok'', reads_of_match (by rwa [copied]) small bytes reads⟩
  · rw [if_neg shortcut]
    exact safeLiteralCopyEarly_reads ⟨holds.op, holds.begins⟩ inside rfl

/-! ### Turns of the fast loop -/

/-- The outcome a turn of the fast loop leads to. -/
def FastJump.outcome : FastJump cap → Outcome cap
  | .again c => .next c
  | .leave outcome => outcome

/-- The room that the fast loop keeps in front of it. -/
def FastJump.KeepsDistance (jump : FastJump cap) : Prop := ∀ c, jump = .again c → c.op + fastLoopSafeDistance ≤ cap

theorem keepsDistance_leave (outcome : Outcome cap) : (FastJump.leave outcome).KeepsDistance := fun _ same => by
  cases same

theorem keepsDistance_again {c : Cursor cap} (room : c.op + fastLoopSafeDistance ≤ cap) :
    (FastJump.again c).KeepsDistance := fun _ same => by
  cases same
  exact room

/-- A match that is copied without a check on each chunk. -/
theorem fastMatchCopy_reads {c : Cursor cap} {ip length offset : Nat} {lowNibble : BitVec 4} (holds : c.Holds out)
    (long : 4 ≤ length) (room : out.length + length + fastLoopSafeDistance < cap)
    (nibbles : nibble (length - 4) = lowNibble)
    (bytes : src.suffix ip = lengthTail (length - 4) ++ src.suffix c.ip) (more : c.ip < srcSize) :
    ∃ jump, fastMatchCopy c length offset = .ok jump ∧ MatchReads src out lowNibble offset ip jump.outcome ∧
      jump.KeepsDistance := by
  have distance : fastLoopSafeDistance = 64 := rfl
  rw [fastMatchCopy, holds.op]
  by_cases below : out.length < offset
  · rw [if_pos below]
    refine ⟨_, rfl, .outputError c (Nat.le_of_lt more) fun length' rest _ _ _ allowed => ?_, keepsDistance_leave _⟩
    omega
  rw [if_neg below]
  have reaches : offset ≤ out.length := Nat.not_lt.mp below
  have again : ∀ dst : Buffer Byte cap, dst.Agrees (matchStream offset out) (out.length + length) →
      MatchReads src out lowNibble offset ip (.next ⟨c.ip, out.length + length, dst⟩) := fun _ agrees =>
    .next length _ long nibbles bytes reaches more (holds_copyMatch c.ip agrees)
  dsimp only
  by_cases near : offset < 16
  · rw [if_pos near]
    obtain ⟨dst, ok, agrees⟩ := memcpyUsingOffset_agrees (e := out.length + length) (holds.agrees offset) reaches
      (by omega) (by omega)
    refine ⟨.again ⟨c.ip, out.length + length, dst⟩, ?_, again dst agrees, keepsDistance_again (Nat.le_of_lt room)⟩
    rw [ok]
    rfl
  · rw [if_neg near]
    obtain ⟨dst, ok, agrees⟩ := wildCopy32_agrees (s := out.length - offset) (e := out.length + length)
      (holds.agrees offset) (matchStream_shifts reaches) (by omega) (Nat.le_refl _) (by omega) (by omega) (by omega)
    refine ⟨.again ⟨c.ip, out.length + length, dst⟩, ?_, again dst agrees, keepsDistance_again (Nat.le_of_lt room)⟩
    rw [ok]
    rfl

/-- A match of the fast loop once its length has been read. -/
theorem fastMatch_leaves {c : Cursor cap} {ip length offset : Nat} {lowNibble : BitVec 4} (holds : c.Holds out)
    (long : 4 ≤ length) (room : out.length + 8 ≤ cap) (nibbles : nibble (length - 4) = lowNibble)
    (bytes : src.suffix ip = lengthTail (length - 4) ++ src.suffix c.ip) (more : c.ip < srcSize) :
    ∃ jump : FastJump cap,
      (safeMatchCopy c length offset >>= fun outcome => pure (.leave outcome)) = .ok jump ∧
        MatchReads src out lowNibble offset ip jump.outcome ∧ jump.KeepsDistance := by
  obtain ⟨outcome, ok, reads⟩ := safeMatchCopy_reads offset holds long room nibbles bytes more
  refine ⟨.leave outcome, ?_, reads, keepsDistance_leave _⟩
  rw [ok]
  rfl

/-- The rest of a turn of the fast loop, behind the literals. -/
theorem fastMatch_reads {c : Cursor cap} (src : Buffer Byte srcSize) (token : Byte) (holds : c.Holds out)
    (room : out.length + 32 ≤ cap)
    (inside : c.ip + 3 ≤ srcSize) :
    ∃ offset jump, fastMatch src c token = .ok jump ∧ offset < 2 ^ 16 ∧
      src.suffix c.ip = BitVec.ofNat 8 offset :: BitVec.ofNat 8 (offset / 256) :: src.suffix (c.ip + 2) ∧
      MatchReads src out (token.extractLsb' 0 4) offset (c.ip + 2) jump.outcome ∧ jump.KeepsDistance := by
  obtain ⟨offset, ok, small, behind⟩ := readLE16_reads src (by omega : c.ip + 2 ≤ srcSize)
  have distance : fastLoopSafeDistance = 64 := rfl
  have four : minMatch = 4 := rfl
  have fifteen : mlMask = 15 := rfl
  have last : lastLiterals = 5 := rfl
  suffices ∃ jump, fastMatch src c token = .ok jump ∧
      MatchReads src out (token.extractLsb' 0 4) offset (c.ip + 2) jump.outcome ∧ jump.KeepsDistance by
    obtain ⟨jump, ok, reads⟩ := this
    exact ⟨offset, jump, ok, small, behind, reads⟩
  rw [fastMatch, ok, ok_bind]
  dsimp only
  rw [holds.op]
  by_cases full : matchNibble token = mlMask
  · rw [if_pos full]
    rw [matchNibble_eq] at full ⊢
    obtain ⟨result, ok', reads⟩ := readVariableLength_reads src (1 + lastLiterals) (by omega : c.ip + 2 ≤ srcSize)
    rw [ok', ok_bind]
    cases reads with
    | stopped ip' inside' close =>
      refine ⟨_, rfl, .outputError _ inside' fun length rest long nibbles bytes allowed => ?_, keepsDistance_leave _⟩
      have large := le_of_nibble nibbles full
      rw [lengthTail, if_neg (by omega)] at bytes
      have limit := close _ _ bytes
      omega
    | read length ip' bytes ahead =>
      have nibbles := nibble_add full length
      have sum : mlMask + (0 + length) + minMatch - 4 = 15 + length := by rw [four, mlMask]; omega
      have holds' : (Cursor.mk ip' out.length c.dst).Holds out := ⟨rfl, holds.begins⟩
      dsimp only
      rw [full]
      by_cases near : cap ≤ out.length + (mlMask + (0 + length) + minMatch) + fastLoopSafeDistance
      · rw [if_pos near]
        exact fastMatch_leaves holds' (by omega) (by omega) (by rw [sum]; exact nibbles.1)
          (by rw [sum, nibbles.2]; exact bytes) (by change ip' < srcSize; omega)
      · rw [if_neg near]
        exact fastMatchCopy_reads holds' (by omega) (by omega) (by rw [sum]; exact nibbles.1)
          (by rw [sum, nibbles.2]; exact bytes) (by change ip' < srcSize; omega)
  · rw [if_neg full]
    have short := full
    rw [matchNibble_eq] at full
    have nibbles := nibble_toNat full
    have holds' : (Cursor.mk (c.ip + 2) out.length c.dst).Holds out := ⟨rfl, holds.begins⟩
    have more : c.ip + 2 < srcSize := by omega
    have ends : matchNibble token + minMatch - 4 = (token.extractLsb' 0 4).toNat := by
      rw [matchNibble_eq, four, Nat.add_sub_cancel]
    by_cases near : cap ≤ out.length + (matchNibble token + minMatch) + fastLoopSafeDistance
    · rw [if_pos near]
      exact fastMatch_leaves holds' (by omega) (by omega) (by rw [ends]; exact nibbles.1)
        (by rw [ends, nibbles.2]; rfl) more
    · rw [if_neg near]
      by_cases eighteen : offset ≤ out.length ∧ 8 ≤ offset
      · rw [if_pos eighteen]
        obtain ⟨dst, ok', reads⟩ := copyEighteen_reads src holds' short eighteen.2 eighteen.1 (by omega) more
        refine ⟨.again ⟨c.ip + 2, out.length + (matchNibble token + minMatch), dst⟩, ?_, reads,
          keepsDistance_again (by dsimp only; omega)⟩
        rw [ok']
        rfl
      · rw [if_neg eighteen]
        exact fastMatchCopy_reads holds' (by omega) (by omega) (by rw [ends]; exact nibbles.1)
          (by rw [ends, nibbles.2]; rfl) more

/-- A turn of the fast loop. -/
theorem fastIteration_reads {c : Cursor cap} (src : Buffer Byte srcSize) (holds : c.Holds out) (inside : c.ip < srcSize)
    (room : c.op + fastLoopSafeDistance ≤ cap) :
    ∃ jump, fastIteration src c = .ok jump ∧ Reads src out c.ip jump.outcome ∧ jump.KeepsDistance := by
  have cons := suffix_eq_cons src inside
  have distance : fastLoopSafeDistance = 64 := rfl
  have fifteen : runMask = 15 := rfl
  rw [holds.op] at room
  rw [fastIteration, readByte_of_lt inside, ok_bind]
  by_cases near : srcSize < c.ip + 1 + (16 + 1)
  · rw [if_pos near]
    obtain ⟨outcome, ok, reads⟩ := safeLiteralCopyEarly_reads (c := ⟨c.ip + 1, c.op, c.dst⟩) ⟨holds.op, holds.begins⟩
      inside rfl
    refine ⟨.leave outcome, ?_, reads, keepsDistance_leave _⟩
    rw [ok]
    rfl
  rw [if_neg near]
  by_cases full : literalNibble (src.cell c.ip) = runMask
  · rw [if_pos full]
    rw [literalNibble_eq] at full ⊢
    obtain ⟨result, ok, reads⟩ := readVariableLength_reads src runMask (by omega : c.ip + 1 ≤ srcSize)
    rw [ok, ok_bind]
    cases reads with
    | stopped ip' inside' close =>
      exact ⟨_, rfl, reads_of_long inside inside' full close, keepsDistance_leave _⟩
    | read length ip' bytes ahead =>
      have nibbles := nibble_add full length
      have head : src.suffix c.ip = src.cell c.ip :: (lengthTail (15 + length) ++ src.suffix ip') := by
        rw [cons, bytes, nibbles.2]
      dsimp only
      rw [full, Nat.zero_add, holds.op]
      have holds' : (Cursor.mk ip' out.length c.dst).Holds out := ⟨rfl, holds.begins⟩
      by_cases close : cap < out.length + (runMask + length) + 32 ∨ srcSize < ip' + (runMask + length) + 32
      · rw [if_pos close]
        obtain ⟨outcome, ok', reads⟩ := safeLiteralCopy_reads holds'
          (by change ip' ≤ srcSize; omega) nibbles.1 head
        refine ⟨.leave outcome, ?_, reads, keepsDistance_leave _⟩
        rw [fifteen, ok']
        rfl
      · rw [if_neg close]
        rw [not_or, Nat.not_lt, Nat.not_lt] at close
        obtain ⟨dst, ok', agrees⟩ := wildCopy32From_agrees (s := ip') (e := out.length + (runMask + length))
          (out.length + (runMask + length) + 32) (holds'.agrees_literal src ip')
          (literalStream_copied ip') (by omega) (by omega) (by omega) (by omega)
        have within : ip' + (runMask + length) ≤ srcSize := by omega
        have copied := length_slice src within
        have grown := holds_literals (ip' + (runMask + length)) within agrees
        obtain ⟨offset, jump, ok'', small, behind, reads, keeps⟩ := fastMatch_reads src (src.cell c.ip) grown
          (by rw [List.length_append, copied]; omega) (by dsimp only; omega)
        refine ⟨jump, ?_, reads_of_match (by rw [copied]; exact nibbles.1) small ?_ reads, keeps⟩
        · rw [ok', ok_bind, ok'']
        · rw [head, copied, fifteen]
          exact congrArg (fun tail => _ :: (_ ++ tail)) (suffix_literals behind)
  · rw [if_neg full]
    rw [literalNibble_eq] at full ⊢
    have bound : ((src.cell c.ip).extractLsb' 4 4).toNat < 2 ^ 4 := BitVec.isLt _
    obtain ⟨nibbles, tail⟩ := nibble_toNat full
    revert full bound nibbles tail
    generalize ((src.cell c.ip).extractLsb' 4 4).toNat = length
    intro short bound nibbles tail
    obtain ⟨dst, ok, grown⟩ := copySixteen_holds src (c.ip + 1) (c.ip + 1 + length) holds
      (by omega : length ≤ 16) (by omega) (by omega)
    have within : c.ip + 1 + length ≤ srcSize := by omega
    have copied := length_slice src within
    obtain ⟨offset, jump, ok', small, behind, reads, keeps⟩ := fastMatch_reads src (src.cell c.ip) grown
      (by rw [List.length_append, copied]; omega) (by dsimp only; omega)
    refine ⟨jump, ?_, reads_of_match (by rwa [copied]) small ?_ reads, keeps⟩
    · rw [ok, ok_bind, holds.op, ok']
    · rw [cons, copied, tail]
      exact congrArg (fun tail => _ :: tail) (suffix_literals behind)

end Zftl.Codec
