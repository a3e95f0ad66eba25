/-
Module: Zftl.Codec.DecompressRun
Layer: Codec
Purpose: What `LZ4_decompress_safe` does with any source and any destination. It never leaves the two buffers; a result
  that is not negative is the length of what the source decodes to, which is then in the destination; and a block
  whose end is as the format asks is refused exactly if it does not fit.
Imports: Zftl.Codec.DecompressSteps
Trusted boundary: none
Main exports: Decoded, safeLoop_decodes, fastLoop_decodes, decompressSafe_sound, decompressSafe_endsWell,
  decompressSafe_exact, fastLoop_safeLoop_agree
Open obligations: none
-/
import Zftl.Codec.DecompressSteps

namespace Zftl.Codec

open Buffer Lz4Format Fallible

variable {srcSize cap : Nat} {src : Buffer Byte srcSize} {dst : Buffer Byte cap} {out : List Byte}

/-- What the loops do from `ip` on: they read a whole block, or some sequences and then a turn reports an error. -/
inductive Decoded (src : Buffer Byte srcSize) (out : List Byte) (ip : Nat) : Outcome cap → Prop where
  | finished (sequences : List LooseSequence) (literals : List Byte) (lowNibble : BitVec 4) (c : Cursor cap)
      (bytes : src.suffix ip = sequences.flatMap LooseSequence.encode ++ lastRun literals lowNibble)
      (reaches : ReachesInside out sequences)
      (holds : c.Holds (sequences.foldl LooseSequence.expand out ++ literals)) : Decoded src out ip (.finished c)
  | outputError (sequences : List LooseSequence) (ip' : Nat) (c : Cursor cap)
      (bytes : src.suffix ip = sequences.flatMap LooseSequence.encode ++ src.suffix ip')
      (stops : Reads src (sequences.foldl LooseSequence.expand out) ip' (.outputError c)) :
      Decoded src out ip (.outputError c)

/-- The loops behind a sequence. -/
theorem Decoded.cons {sequence : LooseSequence} {ip ip' : Nat} {outcome : Outcome cap}
    (bytes : src.suffix ip = sequence.encode ++ src.suffix ip')
    (reaches : sequence.offset ≤ (out ++ sequence.literals).length)
    (decoded : Decoded src (sequence.expand out) ip' outcome) : Decoded src out ip outcome := by
  cases decoded with
  | finished sequences literals lowNibble c bytes' reaches' holds =>
    refine .finished (sequence :: sequences) literals lowNibble c ?_ ⟨reaches, reaches'⟩ holds
    rw [bytes, bytes', List.flatMap_cons, List.append_assoc]
  | outputError sequences ip'' c bytes' stops =>
    refine .outputError (sequence :: sequences) ip'' c ?_ stops
    rw [bytes, bytes', List.flatMap_cons, List.append_assoc]

/-- A turn takes at least the token. -/
theorem ip_lt_of_sequence {sequence : LooseSequence} {ip ip' : Nat} (inside : ip < srcSize)
    (bytes : src.suffix ip = sequence.encode ++ src.suffix ip') : ip < ip' := by
  have lengths := congrArg List.length bytes
  rw [length_suffix, List.length_append, length_suffix, LooseSequence.encode, List.length_cons] at lengths
  omega

/-- The safe loop reads what is left of the source. -/
theorem safeLoop_decodes {c : Cursor cap} (src : Buffer Byte srcSize) (turns : Nat) (enough : srcSize - c.ip ≤ turns)
    (holds : c.Holds out)
    (inside : c.ip < srcSize) :
    ∃ outcome, safeLoop src turns c = .ok outcome ∧ Decoded src out c.ip outcome := by
  induction turns generalizing c out with
  | zero => omega
  | succ turns ih =>
      obtain ⟨outcome, ok, reads⟩ := safeIteration_reads src holds inside
      rw [safeLoop, ok, ok_bind]
      cases reads with
      | next sequence c' bytes reaches more holds' =>
        have progress := ip_lt_of_sequence inside bytes
        obtain ⟨outcome, ok', decoded⟩ := ih (by omega) holds' more
        exact ⟨outcome, ok', .cons bytes reaches decoded⟩
      | finished literals lowNibble c' bytes holds' =>
        exact ⟨_, rfl, .finished [] literals lowNibble c' bytes trivial holds'⟩
      | outputError c' within noSequence noLast =>
        exact ⟨_, rfl, .outputError [] c.ip c' rfl (.outputError c' within noSequence noLast)⟩

/-- The fast loop, and the safe loop behind it, read what is left of the source. -/
theorem fastLoop_decodes {c : Cursor cap} (src : Buffer Byte srcSize) (turns : Nat) (enough : srcSize - c.ip ≤ turns)
    (holds : c.Holds out)
    (inside : c.ip < srcSize) (room : c.op + fastLoopSafeDistance ≤ cap) :
    ∃ outcome, fastLoop src turns c = .ok outcome ∧ Decoded src out c.ip outcome := by
  induction turns generalizing c out with
  | zero => omega
  | succ turns ih =>
      obtain ⟨jump, ok, reads, keeps⟩ := fastIteration_reads src holds inside room
      rw [fastLoop, ok, ok_bind]
      cases jump with
      | again c' =>
        cases reads with
        | next sequence _ bytes reaches more holds' =>
          have progress := ip_lt_of_sequence inside bytes
          obtain ⟨outcome, ok', decoded⟩ := ih (by omega) holds' more (keeps c' rfl)
          exact ⟨outcome, ok', .cons bytes reaches decoded⟩
      | leave outcome =>
        cases reads with
        | next sequence c' bytes reaches more holds' =>
          have progress := ip_lt_of_sequence inside bytes
          obtain ⟨outcome, ok', decoded⟩ := safeLoop_decodes src turns (by omega) holds' more
          exact ⟨outcome, ok', .cons bytes reaches decoded⟩
        | finished literals lowNibble c' bytes holds' =>
          exact ⟨_, rfl, .finished [] literals lowNibble c' bytes trivial holds'⟩
        | outputError c' within noSequence noLast =>
          exact ⟨_, rfl, .outputError [] c.ip c' rfl (.outputError c' within noSequence noLast)⟩

theorem decompressSafe_eq {src : Buffer Byte srcSize} (dst : Buffer Byte cap) (srcPos : 0 < srcSize)
    (capPos : 0 < cap) :
    decompressSafe src dst =
      ((if cap < fastLoopSafeDistance then safeLoop src srcSize ⟨0, 0, dst⟩ else fastLoop src srcSize ⟨0, 0, dst⟩) >>=
        fun outcome => match outcome with
          | .finished c => pure ((c.op : Int), c.dst)
          | .outputError c => pure (-(c.ip : Int) - 1, c.dst)
          | .next _ => .error .outOfBounds) := by
  rw [decompressSafe, if_neg (by omega), if_neg (by omega)]
  dsimp only
  split
  · rfl
  · rfl

/-- What a call does that is not answered before the loops. -/
theorem decompressSafe_decodes (src : Buffer Byte srcSize) (dst : Buffer Byte cap) (srcPos : 0 < srcSize)
    (capPos : 0 < cap) :
    ∃ outcome : Outcome cap, Decoded src [] 0 outcome ∧
      ((∃ c, outcome = .finished c ∧ decompressSafe src dst = .ok ((c.op : Int), c.dst)) ∨
        ∃ c, outcome = .outputError c ∧ decompressSafe src dst = .ok (-(c.ip : Int) - 1, c.dst)) := by
  have start : (Cursor.mk 0 0 dst).Holds [] := ⟨rfl, rfl⟩
  have loops : ∃ outcome : Outcome cap,
      (if cap < fastLoopSafeDistance then safeLoop src srcSize ⟨0, 0, dst⟩ else fastLoop src srcSize ⟨0, 0, dst⟩) =
        .ok outcome ∧ Decoded src [] 0 outcome := by
    by_cases small : cap < fastLoopSafeDistance
    · rw [if_pos small]
      exact safeLoop_decodes src srcSize (Nat.le_refl _) start srcPos
    · rw [if_neg small]
      exact fastLoop_decodes src srcSize (Nat.le_refl _) start srcPos (by dsimp only; omega)
  obtain ⟨outcome, ok, decoded⟩ := loops
  refine ⟨outcome, decoded, ?_⟩
  rw [decompressSafe_eq dst srcPos capPos, ok, ok_bind]
  cases decoded with
  | finished sequences literals lowNibble c bytes reaches holds => exact Or.inl ⟨c, rfl, rfl⟩
  | outputError sequences ip' c bytes stops => exact Or.inr ⟨c, rfl, rfl⟩

/-- A result that is not negative is the length of what the whole source decodes to, and that is what the destination
    then begins with. -/
theorem decompressSafe_sound (src : Buffer Byte srcSize) (dst : Buffer Byte cap) :
    ∃ n dst', decompressSafe src dst = .ok (n, dst') ∧ -(srcSize : Int) - 1 ≤ n ∧ n ≤ cap ∧
      (0 ≤ n → ∃ block : LooseBlock, src.suffix 0 = block.encode ∧ n = block.decode.length ∧
        dst'.slice 0 block.decode.length = block.decode) := by
  by_cases empty : cap = 0
  · by_cases zero : srcSize = 1 ∧ src.suffix 0 = [0]
    · refine ⟨0, dst, by rw [decompressSafe, if_pos empty, if_pos zero], by omega, by omega, fun _ => ?_⟩
      exact ⟨⟨[], [], 0, trivial⟩, zero.2, rfl, rfl⟩
    · refine ⟨-1, dst, by rw [decompressSafe, if_pos empty, if_neg zero], by omega, by omega, fun wrong => ?_⟩
      omega
  by_cases nothing : srcSize = 0
  · exact ⟨-1, dst, by rw [decompressSafe, if_neg empty, if_pos nothing], by omega, by omega, fun wrong => by omega⟩
  obtain ⟨outcome, decoded, ⟨c, rfl, ok⟩ | ⟨c, rfl, ok⟩⟩ :=
    decompressSafe_decodes src dst (Nat.pos_of_ne_zero nothing) (Nat.pos_of_ne_zero empty)
  · cases decoded with
    | finished sequences literals lowNibble _ bytes reaches holds =>
      have fits := holds.op_le
      refine ⟨c.op, c.dst, ok, by omega, by omega, fun _ => ⟨⟨sequences, literals, lowNibble, reaches⟩, bytes, ?_, ?_⟩⟩
      · rw [holds.op]
        rfl
      · exact holds.begins
  · cases decoded with
    | outputError sequences ip' _ bytes stops =>
      cases stops with
      | outputError _ inside _ _ =>
        exact ⟨_, _, ok, by omega, by omega, fun wrong => by omega⟩

/-- An error in a block that ends well means that the block does not fit. -/
theorem large_of_outputError {sequences : List LooseSequence} {literals : List Byte} {lowNibble : BitVec 4} {ip : Nat}
    {c : Cursor cap} (reaches : ReachesInside out sequences) (endsWell : EndsWell sequences literals)
    (bytes : src.suffix ip = sequences.flatMap LooseSequence.encode ++ lastRun literals lowNibble)
    (stops : Reads src out ip (.outputError c)) :
    cap < (sequences.foldl LooseSequence.expand out ++ literals).length := by
  cases stops with
  | outputError _ _ noSequence noLast =>
    cases sequences with
    | nil => exact Nat.not_le.mp (noLast literals lowNibble bytes)
    | cons sequence sequences =>
      rw [List.flatMap_cons, List.append_assoc] at bytes
      obtain ⟨five, twelve, room⟩ := endsWell.room out
      have refused := noSequence sequence _ bytes
      refine Nat.not_le.mp fun fits => refused ⟨?_, reaches.1, ?_, ?_⟩
      · rw [List.length_append, lastRun, List.length_cons, List.length_append]
        omega
      · rw [List.foldl_cons, List.length_append] at fits
        omega
      · rw [List.foldl_cons, List.length_append] at fits
        omega

/-- A block that ends as the format asks is decoded if it fits the destination, and refused otherwise. -/
theorem decompressSafe_endsWell (block : LooseBlock) (src : Buffer Byte srcSize) (dst : Buffer Byte cap)
    (bytes : src.suffix 0 = block.encode) (endsWell : EndsWell block.sequences block.lastLiterals) (capPos : 0 < cap) :
    ∃ n dst', decompressSafe src dst = .ok (n, dst') ∧
      if block.decode.length ≤ cap then n = block.decode.length ∧ dst'.slice 0 block.decode.length = block.decode
      else n < 0 := by
  have srcPos : 0 < srcSize := by
    have lengths := congrArg List.length bytes
    rw [length_suffix, LooseBlock.encode, List.length_append, lastRun, List.length_cons] at lengths
    omega
  obtain ⟨outcome, decoded, ⟨c, rfl, ok⟩ | ⟨c, rfl, ok⟩⟩ := decompressSafe_decodes src dst srcPos capPos
  · cases decoded with
    | finished sequences literals lowNibble _ bytes' reaches holds =>
      have same := @LooseBlock.decode_eq_of_encode_eq ⟨sequences, literals, lowNibble, reaches⟩ block
        (bytes'.symm.trans bytes)
      have op : c.op = block.decode.length := by
        rw [← same]
        exact holds.op
      have fits := holds.op_le
      refine ⟨c.op, c.dst, ok, ?_⟩
      rw [if_pos (by omega), ← op]
      refine ⟨rfl, ?_⟩
      rw [op, ← same]
      exact holds.begins
  · cases decoded with
    | outputError sequences ip' _ bytes' stops =>
      rw [bytes, LooseBlock.encode] at bytes'
      obtain ⟨left, split, rest⟩ := readBack bytes'.symm
      have reaches := block.reachesInside
      rw [split] at endsWell reaches
      have large := large_of_outputError (reachesInside_append reaches) endsWell.drop rest stops
      rw [← List.foldl_append, ← split] at large
      cases stops with
      | outputError _ inside _ _ =>
        refine ⟨_, _, ok, ?_⟩
        change cap < block.decode.length at large
        rw [if_neg (Nat.not_le.mpr large)]
        omega

/-- `LZ4_decompress_safe` on any source and any destination: it stays inside the buffers and returns. What it accepts is
    a whole block, and the destination then begins with what the block decodes to; what it refuses is no block that ends
    as the format asks and fits. -/
theorem decompressSafe_exact (src : Buffer Byte srcSize) (dst : Buffer Byte cap) :
    ∃ n dst', decompressSafe src dst = .ok (n, dst') ∧ -(srcSize : Int) - 1 ≤ n ∧ n ≤ cap ∧
      (0 ≤ n → ∃ block : LooseBlock, src.suffix 0 = block.encode ∧ n = block.decode.length ∧
        dst'.slice 0 block.decode.length = block.decode) ∧
      (n < 0 → 0 < cap → ∀ block : LooseBlock, src.suffix 0 = block.encode →
        EndsWell block.sequences block.lastLiterals → cap < block.decode.length) := by
  obtain ⟨n, dst', ok, above, below, sound⟩ := decompressSafe_sound src dst
  refine ⟨n, dst', ok, above, below, sound, fun refused capPos block bytes endsWell => ?_⟩
  obtain ⟨m, out, ok', outcome⟩ := decompressSafe_endsWell block src dst bytes endsWell capPos
  have same := (Prod.mk.inj (Except.ok.inj (ok.symm.trans ok'))).1
  by_contra fits
  rw [if_pos (Nat.not_lt.mp fits)] at outcome
  omega

/-- The loop that copies in large chunks and the one that checks each copy: on any source, and for any destinations, they
    stay inside their buffers, and where both read the source to its end they have produced the same bytes. -/
theorem fastLoop_safeLoop_agree {cap' : Nat} (src : Buffer Byte srcSize) (dst : Buffer Byte cap)
    (dst' : Buffer Byte cap')
    (srcPos : 0 < srcSize) (room : fastLoopSafeDistance ≤ cap) :
    ∃ fast safe, fastLoop src srcSize ⟨0, 0, dst⟩ = .ok fast ∧ safeLoop src srcSize ⟨0, 0, dst'⟩ = .ok safe ∧
      ∀ c c', fast = .finished c → safe = .finished c' → c.op = c'.op ∧ c.dst.slice 0 c.op = c'.dst.slice 0 c'.op := by
  obtain ⟨fast, ok, decoded⟩ := fastLoop_decodes (c := ⟨0, 0, dst⟩) src srcSize (Nat.le_refl _)
    (⟨rfl, rfl⟩ : Cursor.Holds _ []) srcPos (by dsimp only; omega)
  obtain ⟨safe, ok', decoded'⟩ := safeLoop_decodes (c := ⟨0, 0, dst'⟩) src srcSize (Nat.le_refl _)
    (⟨rfl, rfl⟩ : Cursor.Holds _ []) srcPos
  refine ⟨fast, safe, ok, ok', ?_⟩
  rintro c c' rfl rfl
  cases decoded with
  | finished sequences literals lowNibble _ bytes reaches holds =>
    cases decoded' with
    | finished sequences' literals' lowNibble' _ bytes' reaches' holds' =>
      have same := @LooseBlock.decode_eq_of_encode_eq ⟨sequences, literals, lowNibble, reaches⟩
        ⟨sequences', literals', lowNibble', reaches'⟩ (bytes.symm.trans bytes')
      change sequences.foldl LooseSequence.expand [] ++ literals =
        sequences'.foldl LooseSequence.expand [] ++ literals' at same
      have begins := holds.begins
      have begins' := holds'.begins
      rw [← holds.op] at begins
      rw [← holds'.op] at begins'
      exact ⟨by rw [holds.op, holds'.op, same], by rw [begins, begins', same]⟩

/-- The outcome is the end of the source behind this many bytes. -/
def Outcome.finishedAt (op : Nat) : Outcome cap → Bool
  | .finished c => c.op == op
  | _ => false

theorem Outcome.finishedAt_iff {op : Nat} {outcome : Outcome cap} :
    outcome.finishedAt op = true ↔ ∃ c, outcome = .finished c ∧ c.op = op := by
  cases outcome <;> simp [finishedAt]

/-- A literal, a match of eight bytes and six last literals. -/
def shortBlock : Buffer Byte 11 := ofList [0x14, 0x41, 1, 0, 0x60, 0x42, 0x43, 0x44, 0x45, 0x46, 0x47]

/-- Both loops read the block to its end. -/
theorem fastLoop_safeLoop_agree_short :
    ∃ (c : Cursor 64) (c' : Cursor 20),
      fastLoop shortBlock 11 ⟨0, 0, Buffer.fill 64 0⟩ = .ok (.finished c) ∧
      safeLoop shortBlock 11 ⟨0, 0, Buffer.fill 20 0⟩ = .ok (.finished c') ∧
      c.op = 15 ∧ c'.op = 15 ∧ c.dst.slice 0 15 = c'.dst.slice 0 15 := by
  obtain ⟨fast, safe, ok, ok', agree⟩ := fastLoop_safeLoop_agree shortBlock (Buffer.fill 64 0 : Buffer Byte 64)
    (Buffer.fill 20 0 : Buffer Byte 20) (by decide) (by decide)
  have first : test (fastLoop shortBlock 11 ⟨0, 0, (Buffer.fill 64 0 : Buffer Byte 64)⟩) (·.finishedAt 15) = true := by
    decide +kernel
  have second : test (safeLoop shortBlock 11 ⟨0, 0, (Buffer.fill 20 0 : Buffer Byte 20)⟩) (·.finishedAt 15) = true := by
    decide +kernel
  rw [ok] at first
  rw [ok'] at second
  obtain ⟨c, rfl, op⟩ := Outcome.finishedAt_iff.mp first
  obtain ⟨c', rfl, op'⟩ := Outcome.finishedAt_iff.mp second
  have same := (agree c c' rfl rfl).2
  rw [op, op'] at same
  exact ⟨c, c', ok, ok', op, op', same⟩

end Zftl.Codec
