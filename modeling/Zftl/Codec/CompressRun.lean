/-
Module: Zftl.Codec.CompressRun
Layer: Codec
Purpose: What `LZ4_compress_default` does with any source and any destination. The invariant of its main loop is that the
  sequences written so far decode to the bytes of the source in front of the anchor; each point of the loop keeps it,
  and the last literals make a block of it. The call never leaves its buffers, never fails an assert, and writes
  a block of the source whenever the destination has the size that `LZ4_compressBound` asks for.
Imports: Zftl.Codec.CompressSearch, Zftl.Codec.CompressWrites
Trusted boundary: none
Main exports: copyMatch_slice, Written, Sound, mainLoop_sound, nextMatch_sound, compressLoop_encodes, Encodes,
  compressDefault_encodes
Open obligations: none
-/
import Zftl.Codec.CompressSearch
import Zftl.Codec.CompressWrites

namespace Zftl.Codec

open Buffer Lz4Format Fallible

variable {srcSize cap : Nat} {src : Buffer Byte srcSize} {dst : Buffer Byte cap} {tableType : TableType}
  {outputDirective : OutputDirective}

/-- A match of the source copies the source. -/
theorem copyMatch_slice {ip mtch : Nat} (length : Nat) (before : mtch < ip) (inside : ip + length ≤ srcSize)
    (run : Matches src ip mtch length) :
    copyMatch (ip - mtch) length (src.slice 0 ip) = src.slice 0 (ip + length) := by
  induction length generalizing ip mtch with
  | zero => rfl
  | succ length ih =>
      have produced := length_slice src (by omega : 0 + ip ≤ srcSize)
      have copied : (src.slice 0 ip).getD (ip - (ip - mtch)) 0 = src.cell ip := by
        have here := run 0 (Nat.succ_pos _)
        rw [getD_slice src (by omega) (by omega), Nat.zero_add, Nat.sub_sub_self (Nat.le_of_lt before)]
        exact here
      have grown : src.slice 0 ip ++ [src.cell ip] = src.slice 0 (ip + 1) := by
        have parts := slice_append_slice src 0 ip 1
        rwa [Nat.zero_add, slice_one src (by omega)] at parts
      have rest : Matches src (ip + 1) (mtch + 1) length := fun k below => by
        have cell := run (1 + k) (by omega)
        rwa [← Nat.add_assoc, ← Nat.add_assoc] at cell
      have tail := ih (by omega) (by omega) rest
      rw [Nat.add_sub_add_right] at tail
      rw [copyMatch, produced, copied, grown, tail, Nat.add_assoc, Nat.add_comm 1]

/-- The sequences written so far: their bytes are in the destination, and they decode to the source in front of the
    anchor. -/
structure Written (src : Buffer Byte srcSize) (dst : Buffer Byte cap) (sequences : List LooseSequence)
    (anchor op : Nat) : Prop where
  op_eq : op = (sequences.flatMap LooseSequence.encode).length
  begins : dst.Begins (sequences.flatMap LooseSequence.encode)
  inside : anchor ≤ srcSize
  decodes : sequences.foldl LooseSequence.expand [] = src.slice 0 anchor
  reaches : ReachesInside [] sequences
  positive : ∀ sequence ∈ sequences, 1 ≤ sequence.offset
  endsWell : EndsWell sequences (src.suffix anchor)
  small : 255 * op ≤ 256 * anchor

/-- Nothing is written at first. -/
theorem written_nil (src : Buffer Byte srcSize) (dst : Buffer Byte cap) : Written src dst [] 0 0 where
  op_eq := rfl
  begins := begins_nil dst
  inside := Nat.zero_le _
  decodes := rfl
  reaches := trivial
  positive _ member := absurd member List.not_mem_nil
  endsWell _ last := by cases last
  small := Nat.le_refl _

theorem reachesInside_concat {out : List Byte} {sequences : List LooseSequence} {sequence : LooseSequence}
    (reaches : ReachesInside out sequences)
    (inside : sequence.offset ≤ (sequences.foldl LooseSequence.expand out ++ sequence.literals).length) :
    ReachesInside out (sequences ++ [sequence]) := by
  induction sequences generalizing out with
  | nil => exact ⟨inside, trivial⟩
  | cons first sequences ih => exact ⟨reaches.1, ih reaches.2 inside⟩

/-- The room that a call without a limit is given. -/
def Roomy (outputDirective : OutputDirective) (srcSize cap : Nat) : Prop :=
  outputDirective = .notLimited → srcSize + srcSize / 255 + 16 ≤ cap

/-- What holds at `_next_match`, with the literals behind the token and a match that reaches beyond `top`, the last
    position in the hash table. -/
structure AtMatch (src : Buffer Byte srcSize) (sequences : List LooseSequence) (token mtch top : Nat)
    (v : Vars tableType cap) : Prop where
  written : Written src v.dst sequences v.anchor token
  begins : v.dst.Begins (sequences.flatMap LooseSequence.encode ++
    (nibble (v.ip - v.anchor) ++ 0#4 : Byte) ::
      (lengthTail (v.ip - v.anchor) ++ src.slice v.anchor (v.ip - v.anchor)))
  op_eq : v.op = token + 1 + (lengthTail (v.ip - v.anchor)).length + (v.ip - v.anchor)
  behind : v.anchor ≤ v.ip
  before : mtch < v.ip
  near : v.ip - mtch ≤ distanceMax
  caught : v.ip ≤ top
  room : top + mfLimit ≤ srcSize
  run : Matches src v.ip mtch (minMatch + (top - v.ip))
  filled : Filled v.hashTable (top + 1)
  opRoom : v.op + 2 ≤ cap

/-- What holds at a point of the main loop. -/
inductive Sound (outputDirective : OutputDirective) (src : Buffer Byte srcSize) : Point tableType cap → Prop where
  | mainLoop (sequences : List LooseSequence) (forwardH : Nat) (v : Vars tableType cap)
      (written : Written src v.dst sequences v.anchor v.op) (behind : v.anchor < v.ip)
      (room : v.ip + mfLimit ≤ srcSize + 1) (hash : forwardH < 2 ^ hashLog tableType)
      (filled : Filled v.hashTable v.ip) : Sound outputDirective src (.mainLoop forwardH v)
  | nextMatch (sequences : List LooseSequence) (token mtch top : Nat) (v : Vars tableType cap)
      (at_match : AtMatch src sequences token mtch top v) : Sound outputDirective src (.nextMatch token mtch v)
  | lastLiterals (sequences : List LooseSequence) (anchor op : Nat) (dst : Buffer Byte cap)
      (written : Written src dst sequences anchor op) : Sound outputDirective src (.lastLiterals anchor op dst)
  | full (dst : Buffer Byte cap) (limited : outputDirective = .limitedOutput) : Sound outputDirective src (.full dst)

/-- How many more turns a point can take. -/
def Point.work (srcSize : Nat) : Point tableType cap → Nat
  | .mainLoop _ v => 2 * (srcSize - v.anchor)
  | .nextMatch _ _ v => 2 * (srcSize - v.anchor) - 1
  | .lastLiterals _ _ _ => 0
  | .full _ => 0

/-- From the top of the main loop. -/
theorem mainLoop_sound {acceleration forwardH : Nat} {sequences : List LooseSequence} {v : Vars tableType cap}
    (small : tableType = .byU16 → srcSize < lz464Klimit) (faster : 1 ≤ acceleration)
    (roomy : Roomy outputDirective srcSize cap) (written : Written src v.dst sequences v.anchor v.op)
    (behind : v.anchor < v.ip) (room : v.ip + mfLimit ≤ srcSize + 1) (hash : forwardH < 2 ^ hashLog tableType)
    (filled : Filled v.hashTable v.ip) :
    ∃ point, mainLoop outputDirective acceleration src forwardH v = .ok point ∧ Sound outputDirective src point ∧
      point.work srcSize < 2 * (srcSize - v.anchor) := by
  have twelve : mfLimit = 12 := rfl
  have trigger : 2 ^ skipTrigger ≤ acceleration <<< skipTrigger := by
    rw [Nat.shiftLeft_eq]
    exact Nat.le_mul_of_pos_left _ faster
  obtain ⟨result, ok, finds⟩ := searchLoop_finds src
    (s := ⟨v.ip, 1, acceleration <<< skipTrigger, forwardH, v.hashTable⟩) srcSize small (by dsimp only; omega) room
    (Nat.le_refl 1) trigger hash filled
  rw [mainLoop, ok, ok_bind]
  cases finds with
  | lastLiterals => exact ⟨_, rfl, .lastLiterals sequences _ _ _ written, by
      change 0 < 2 * (srcSize - v.anchor)
      omega⟩
  | found top mtch hashTable later inside before near run filled =>
    dsimp only at later
    obtain ⟨p, ok', caught⟩ := catchUp_caughtUp (by omega : v.anchor < top) before (by omega) run
    obtain ⟨ip, mtch'⟩ := p
    have order := caught.behind
    have earlier := caught.earlier
    have offset := caught.offset
    dsimp only at order earlier offset
    have enough : outputDirective = .notLimited →
        (sequences.flatMap LooseSequence.encode).length + 1 + (ip - v.anchor) + 8 + (ip - v.anchor) / 255 ≤ cap := by
      intro notLimited
      have bound := roomy notLimited
      have start := written.small
      rw [← written.op_eq]
      omega
    obtain ⟨literals, ok'', encoded⟩ := encodeLiterals_begins src written.begins order (by omega) enough
    rw [← written.op_eq] at ok''
    dsimp only
    rw [ok', ok_bind]
    dsimp only
    rw [ok'', ok_bind]
    obtain ⟨rfl, limited⟩ | ⟨dst, rfl, opRoom, begins⟩ := encoded
    · exact ⟨_, rfl, .full _ limited, by
      change 0 < 2 * (srcSize - v.anchor)
      omega⟩
    · refine ⟨_, rfl, .nextMatch sequences _ _ top _ ?_, by
        change 2 * (srcSize - v.anchor) - 1 < 2 * (srcSize - v.anchor)
        omega⟩
      rw [← written.op_eq] at opRoom ⊢
      refine ⟨{ written with begins := begins.left }, begins, rfl, order, caught.before, ?_, earlier, by omega,
        caught.run, filled, by dsimp only; omega⟩
      dsimp only
      omega

/-- Behind a match. -/
theorem behindMatch_sound (outputDirective : OutputDirective) {sequences : List LooseSequence}
    {v : Vars tableType cap} (small : tableType = .byU16 → srcSize < lz464Klimit)
    (written : Written src v.dst sequences v.anchor v.op)
    (here : v.anchor = v.ip) (behind : 2 ≤ v.ip) (filled : Filled v.hashTable v.ip) (opRoom : v.op + 6 ≤ cap) :
    ∃ point, behindMatch src v = .ok point ∧ Sound outputDirective src point ∧
      point.work srcSize ≤ 2 * (srcSize - v.ip) := by
  have twelve : mfLimit = 12 := rfl
  have limit : lz464Klimit = 65547 := rfl
  have far : distanceMax = 65535 := rfl
  rw [behindMatch]
  by_cases ends : srcSize + 1 ≤ v.ip + mfLimit
  · rw [if_pos ends]
    exact ⟨_, rfl, .lastLiterals sequences _ _ _ written, Nat.zero_le _⟩
  rw [if_neg ends]
  have index : tableType = .byU16 → v.ip < 65536 := fun type => by
    have bound := small type
    omega
  obtain ⟨h, ok1, hash⟩ := hashPosition_lt src tableType (by omega : v.ip - 2 + 8 ≤ srcSize)
  obtain ⟨first, ok2, filled⟩ := putIndexOnHash_filled filled hash
    (fun type => Nat.lt_of_le_of_lt (Nat.sub_le _ 2) (index type)) (by omega : v.ip - 2 < v.ip)
  obtain ⟨h', ok3, hash'⟩ := hashPosition_lt src tableType (by omega : v.ip + 8 ≤ srcSize)
  obtain ⟨matchIndex, ok4, before⟩ := getIndexOnHash_filled filled hash'
  obtain ⟨second, ok5, filled⟩ := putIndexOnHash_filled (filled.mono (Nat.le_succ _)) hash' index
    (Nat.lt_succ_self v.ip)
  obtain ⟨there, ok6, thereAt⟩ := read32_at src (by omega : matchIndex + 4 ≤ srcSize)
  obtain ⟨mine, ok7, mineAt⟩ := read32_at src (by omega : v.ip + 4 ≤ srcSize)
  rw [ok1, ok_bind, ok2, ok_bind, ok3, ok_bind]
  dsimp only
  rw [ok4, ok_bind, assertThat_of before, ok_bind, ok5, ok_bind, ok6, ok_bind, ok7, ok_bind]
  by_cases found : (tableType = .byU16 ∨ v.ip ≤ matchIndex + distanceMax) ∧ there = mine
  · rw [if_pos found]
    have start := written.op_eq
    obtain ⟨dst, ok8, begins⟩ := writeByte_begins written.begins (by omega) 0
    rw [← start] at ok8
    rw [ok8, ok_bind]
    refine ⟨_, rfl, .nextMatch sequences _ _ v.ip _ ?_, ?_⟩
    · have none : v.ip - v.anchor = 0 := by omega
      refine ⟨{ written with begins := begins.left }, ?_, ?_, Nat.le_of_eq here, before, ?_, Nat.le_refl _,
        by omega, ?_, filled, by dsimp only; omega⟩
      · dsimp only
        rw [none]
        exact begins
      · rw [none]
        rfl
      · obtain type | near := found.1
        · have bound := index type
          dsimp only
          omega
        · dsimp only
          omega
      · dsimp only
        rw [Nat.sub_self]
        exact (thereAt.eq_iff rfl mineAt).mp found.2
    · change 2 * (srcSize - v.anchor) - 1 ≤ _
      omega
  · rw [if_neg found]
    obtain ⟨forwardH, ok8, hash''⟩ := hashPosition_lt src tableType (by omega : v.ip + 1 + 8 ≤ srcSize)
    rw [ok8, ok_bind]
    refine ⟨_, rfl, .mainLoop sequences _ _ ⟨written.op_eq, written.begins, written.inside, written.decodes,
      written.reaches, written.positive, written.endsWell, written.small⟩ (by dsimp only; omega)
      (by dsimp only; omega) hash'' filled, ?_⟩
    change 2 * (srcSize - v.anchor) ≤ _
    omega

/-- The sequence that `_next_match` writes. -/
theorem written_concat {sequences : List LooseSequence} {token mtch top matchCode op : Nat} {v : Vars tableType cap}
    (at_match : AtMatch src sequences token mtch top v)
    (begins : dst.Begins (sequences.flatMap LooseSequence.encode ++
      (nibble (v.ip - v.anchor) ++ nibble matchCode : Byte) ::
        ((lengthTail (v.ip - v.anchor) ++ src.slice v.anchor (v.ip - v.anchor) ++
          [BitVec.ofNat 8 (v.ip - mtch), BitVec.ofNat 8 ((v.ip - mtch) / 256)]) ++ lengthTail matchCode)))
    (op_eq : op = v.op + 2 + (lengthTail matchCode).length) (inside : v.ip + (matchCode + minMatch) + 5 ≤ srcSize)
    (run : Matches src v.ip mtch (matchCode + minMatch)) :
    ∃ sequence, Written src dst (sequences ++ [sequence]) (v.ip + (matchCode + minMatch)) op := by
  have twelve : mfLimit = 12 := rfl
  have four : minMatch = 4 := rfl
  have far : distanceMax = 65535 := rfl
  have written := at_match.written
  have before := at_match.before
  have behind := at_match.behind
  have near := at_match.near
  have room := at_match.room
  have caught := at_match.caught
  have literals := length_slice src (by omega : v.anchor + (v.ip - v.anchor) ≤ srcSize)
  have produced : src.slice 0 v.anchor ++ src.slice v.anchor (v.ip - v.anchor) = src.slice 0 v.ip := by
    have parts := slice_append_slice src 0 v.anchor (v.ip - v.anchor)
    rwa [Nat.zero_add, Nat.add_sub_cancel' behind] at parts
  have whole := length_slice src (by omega : 0 + v.ip ≤ srcSize)
  have encoded : (sequences.flatMap LooseSequence.encode ++
      (nibble (v.ip - v.anchor) ++ nibble matchCode : Byte) ::
        ((lengthTail (v.ip - v.anchor) ++ src.slice v.anchor (v.ip - v.anchor) ++
          [BitVec.ofNat 8 (v.ip - mtch), BitVec.ofNat 8 ((v.ip - mtch) / 256)]) ++ lengthTail matchCode)) =
      (sequences ++ [(⟨src.slice v.anchor (v.ip - v.anchor), v.ip - mtch, matchCode + minMatch, by omega,
        by omega⟩ : LooseSequence)]).flatMap LooseSequence.encode := by
    rw [List.flatMap_append, List.flatMap_singleton, LooseSequence.encode]
    dsimp only
    rw [literals, four, Nat.add_sub_cancel]
    simp only [List.append_assoc, List.cons_append, List.nil_append]
  refine ⟨_, ?_, by rwa [encoded] at begins, by omega, ?_, reachesInside_concat written.reaches ?_, ?_, ?_, ?_⟩
  · rw [← encoded, op_eq, at_match.op_eq, written.op_eq]
    simp only [List.length_append, List.length_cons, List.length_nil, literals]
    omega
  · rw [List.foldl_concat, LooseSequence.expand, written.decodes]
    dsimp only
    rw [produced]
    exact copyMatch_slice _ before (by omega) run
  · rw [written.decodes]
    dsimp only
    rw [produced, whole]
    omega
  · intro sequence member
    obtain earlier | last := List.mem_append.mp member
    · exact written.positive sequence earlier
    · rw [List.mem_singleton.mp last]
      dsimp only
      omega
  · intro sequence last
    rw [List.getLast?_concat, Option.mem_some] at last
    rw [← last, length_suffix]
    dsimp only
    omega
  · have start := written.small
    have literalTail := length_lengthTail (v.ip - v.anchor)
    have matchTail := length_lengthTail matchCode
    have begin_eq := at_match.op_eq
    split at literalTail <;> split at matchTail <;> omega

/-- From `_next_match`. -/
theorem nextMatch_sound {sequences : List LooseSequence} {token mtch top : Nat} {v : Vars tableType cap}
    (small : tableType = .byU16 → srcSize < lz464Klimit) (roomy : Roomy outputDirective srcSize cap)
    (at_match : AtMatch src sequences token mtch top v) :
    ∃ point, nextMatch outputDirective src token mtch v = .ok point ∧ Sound outputDirective src point ∧
      point.work srcSize < 2 * (srcSize - v.anchor) - 1 := by
  have twelve : mfLimit = 12 := rfl
  have four : minMatch = 4 := rfl
  have five : lastLiterals = 5 := rfl
  have written := at_match.written
  have before := at_match.before
  have behind := at_match.behind
  have caught := at_match.caught
  have room := at_match.room
  have op_eq := at_match.op_eq
  have front := written.op_eq
  have literals := length_slice src (by omega : v.anchor + (v.ip - v.anchor) ≤ srcSize)
  have total : (sequences.flatMap LooseSequence.encode ++ (nibble (v.ip - v.anchor) ++ 0#4 : Byte) ::
      (lengthTail (v.ip - v.anchor) ++ src.slice v.anchor (v.ip - v.anchor))).length = v.op := by
    rw [List.length_append, List.length_cons, List.length_append, literals, op_eq, front]
    omega
  obtain ⟨dst1, ok1, begins⟩ := writeLE16_begins at_match.begins (by rw [total]; exact at_match.opRoom) (v.ip - mtch)
  rw [total] at ok1
  rw [List.append_assoc, List.cons_append] at begins
  obtain ⟨matchCode, ok2, within, run, differs⟩ := count_exact src (by omega : mtch + minMatch ≤ v.ip + minMatch)
    (by omega : v.ip + minMatch ≤ srcSize - lastLiterals) (Nat.sub_le _ _)
  have four_run : Matches src v.ip mtch minMatch := fun k below => at_match.run k (by omega)
  have whole : Matches src v.ip mtch (matchCode + minMatch) := by
    rw [Nat.add_comm]
    exact four_run.append run
  -- the match reaches beyond every position of the hash table
  have beyond : top ≤ v.ip + matchCode := by
    by_contra short
    refine differs (by omega) ?_
    have same := at_match.run (minMatch + matchCode) (by omega)
    rwa [← Nat.add_assoc, ← Nat.add_assoc] at same
  have literalTail := length_lengthTail (v.ip - v.anchor)
  have matchTail := length_lengthTail matchCode
  have start := written.small
  rw [nextMatch, assertThat_of at_match.near, ok_bind, ok1, ok_bind, ok2, ok_bind]
  dsimp only
  by_cases exceeds : outputDirective = .limitedOutput ∧ cap < v.op + 2 + (1 + lastLiterals) + (matchCode + 240) / 255
  · rw [if_pos exceeds]
    refine ⟨_, rfl, .full _ exceeds.1, ?_⟩
    change 0 < _
    omega
  rw [if_neg exceeds]
  have opRoom : v.op + 2 + (matchCode + 240) / 255 + 6 ≤ cap := by
    cases outputDirective with
    | notLimited =>
      have bound := roomy rfl
      split at literalTail <;> omega
    | limitedOutput =>
      have passed := Nat.not_lt.mp fun wrong => exceeds ⟨rfl, wrong⟩
      omega
  have position : token + 1 + (lengthTail (v.ip - v.anchor) ++ src.slice v.anchor (v.ip - v.anchor) ++
      [BitVec.ofNat 8 (v.ip - mtch), BitVec.ofNat 8 ((v.ip - mtch) / 256)]).length = v.op + 2 := by
    rw [List.length_append, List.length_append, literals, op_eq]
    simp only [List.length_cons, List.length_nil]
    omega
  obtain ⟨dst2, ok3, begins⟩ := encodeMatchLength_begins matchCode begins (by rw [← front, position]; omega)
  rw [← front, position] at ok3
  rw [ok3, ok_bind]
  dsimp only
  obtain ⟨sequence, written'⟩ := written_concat at_match begins rfl (by omega) whole
  obtain ⟨point, ok4, sound, work⟩ := behindMatch_sound outputDirective
    (v := ⟨v.ip + (matchCode + minMatch), v.ip + (matchCode + minMatch), _, dst2, v.hashTable⟩) small written' rfl
    (by dsimp only; omega) (at_match.filled.mono (by dsimp only; omega))
    (by dsimp only; split at matchTail <;> omega)
  refine ⟨point, ok4, sound, ?_⟩
  dsimp only at work
  omega

/-! ### The call -/

/-- What a call that returns `n` has written: a block of the source, that ends as the format asks, with no offset of
    zero. -/
structure Encodes (src : Buffer Byte srcSize) (dst : Buffer Byte cap) (n : Int) (block : LooseBlock) : Prop where
  length : n = block.encode.length
  begins : dst.Begins block.encode
  decode : block.decode = src.suffix 0
  endsWell : EndsWell block.sequences block.lastLiterals
  positive : ∀ sequence ∈ block.sequences, 1 ≤ sequence.offset
  bound : block.encode.length ≤ srcSize + srcSize / 255 + 16

/-- The last literals make a block. -/
theorem encodeLastLiterals_encodes {sequences : List LooseSequence} {anchor op : Nat}
    (roomy : Roomy outputDirective srcSize cap) (written : Written src dst sequences anchor op) :
    ∃ n dst', encodeLastLiterals outputDirective src anchor op dst = .ok (n, dst') ∧
      ((n = 0 ∧ outputDirective = .limitedOutput) ∨ ∃ block, Encodes src dst' n block) := by
  have start := written.small
  have inside := written.inside
  have enough : outputDirective = .notLimited →
      (sequences.flatMap LooseSequence.encode).length + (srcSize - anchor) + 1 +
        (srcSize - anchor + 240) / 255 ≤ cap := by
    intro notLimited
    have bound := roomy notLimited
    rw [← written.op_eq]
    omega
  obtain ⟨n, dst', ok, outcome⟩ := encodeLastLiterals_begins src written.begins inside enough
  rw [← written.op_eq] at ok
  refine ⟨n, dst', ok, ?_⟩
  obtain limited | ⟨length, begins⟩ := outcome
  · exact Or.inl limited
  · refine Or.inr ⟨⟨sequences, src.suffix anchor, 0, written.reaches⟩, length, begins, ?_, written.endsWell,
      written.positive, ?_⟩
    · have parts := slice_append_suffix src 0 anchor
      rw [Nat.zero_add] at parts
      rw [LooseBlock.decode, written.decodes]
      exact parts
    · have tail := length_lengthTail (srcSize - anchor)
      have op_eq := written.op_eq
      rw [LooseBlock.encode, List.length_append, lastRun, List.length_cons, List.length_append, length_suffix]
      dsimp only
      split at tail <;> omega

theorem compressLoop_mainLoop {acceleration turns forwardH : Nat} {v : Vars tableType cap} :
    compressLoop outputDirective acceleration src (turns + 1) (.mainLoop forwardH v) =
      (mainLoop outputDirective acceleration src forwardH v >>=
        compressLoop outputDirective acceleration src turns) := rfl

theorem compressLoop_nextMatch {acceleration turns token mtch : Nat} {v : Vars tableType cap} :
    compressLoop outputDirective acceleration src (turns + 1) (.nextMatch token mtch v) =
      (nextMatch outputDirective src token mtch v >>= compressLoop outputDirective acceleration src turns) := rfl

/-- The loop from a point at which its invariant holds. -/
theorem compressLoop_encodes {acceleration : Nat} {point : Point tableType cap} (turns : Nat)
    (small : tableType = .byU16 → srcSize < lz464Klimit) (faster : 1 ≤ acceleration)
    (roomy : Roomy outputDirective srcSize cap) (sound : Sound outputDirective src point)
    (enough : point.work srcSize ≤ turns) :
    ∃ n dst', compressLoop outputDirective acceleration src turns point = .ok (n, dst') ∧
      ((n = 0 ∧ outputDirective = .limitedOutput) ∨ ∃ block, Encodes src dst' n block) := by
  have twelve : mfLimit = 12 := rfl
  induction turns generalizing point with
  | zero =>
      cases sound with
      | mainLoop sequences forwardH v written behind room hash filled =>
        change 2 * (srcSize - v.anchor) ≤ 0 at enough
        omega
      | nextMatch sequences token mtch top v at_match =>
        have behind := at_match.behind
        have caught := at_match.caught
        have room := at_match.room
        change 2 * (srcSize - v.anchor) - 1 ≤ 0 at enough
        omega
      | lastLiterals sequences anchor op dst written => exact encodeLastLiterals_encodes roomy written
      | full dst limited => exact ⟨0, dst, rfl, Or.inl ⟨rfl, limited⟩⟩
  | succ turns ih =>
      cases sound with
      | mainLoop sequences forwardH v written behind room hash filled =>
        obtain ⟨point, ok, sound, work⟩ := mainLoop_sound small faster roomy written behind room hash filled
        change 2 * (srcSize - v.anchor) ≤ turns + 1 at enough
        rw [compressLoop_mainLoop, ok, ok_bind]
        exact ih sound (by omega)
      | nextMatch sequences token mtch top v at_match =>
        obtain ⟨point, ok, sound, work⟩ := nextMatch_sound small roomy at_match
        change 2 * (srcSize - v.anchor) - 1 ≤ turns + 1 at enough
        rw [compressLoop_nextMatch, ok, ok_bind]
        exact ih sound (by omega)
      | lastLiterals sequences anchor op dst written => exact encodeLastLiterals_encodes roomy written
      | full dst limited => exact ⟨0, dst, rfl, Or.inl ⟨rfl, limited⟩⟩

theorem compressGenericValidated_encodes {acceleration : Nat} (src : Buffer Byte srcSize) (dst : Buffer Byte cap)
    (small : tableType = .byU16 → srcSize < lz464Klimit) (faster : 1 ≤ acceleration)
    (roomy : Roomy outputDirective srcSize cap) :
    ∃ n dst', compressGenericValidated outputDirective tableType acceleration src dst = .ok (n, dst') ∧
      ((n = 0 ∧ outputDirective = .limitedOutput) ∨ ∃ block, Encodes src dst' n block) := by
  have twelve : mfLimit = 12 := rfl
  have thirteen : minLength = 13 := rfl
  rw [compressGenericValidated, assertThat_of small, ok_bind, assertThat_of faster, ok_bind]
  by_cases tiny : srcSize < minLength
  · rw [if_pos tiny]
    exact encodeLastLiterals_encodes roomy (written_nil src dst)
  rw [if_neg tiny]
  have zeros : Filled (Buffer.fill (2 ^ hashLog tableType) 0 : HashTable tableType) 1 := fun _ => Nat.one_pos
  obtain ⟨h, ok, hash⟩ := hashPosition_lt src tableType (by omega : 0 + 8 ≤ srcSize)
  obtain ⟨hashTable, ok', filled⟩ := putIndexOnHash_filled zeros hash (fun _ => by decide) (by omega : 0 < 1)
  obtain ⟨forwardH, ok'', hash'⟩ := hashPosition_lt src tableType (by omega : 1 + 8 ≤ srcSize)
  rw [ok, ok_bind, ok', ok_bind, ok'', ok_bind]
  exact compressLoop_encodes _ small faster roomy
    (.mainLoop [] forwardH ⟨1, 0, 0, dst, hashTable⟩ (written_nil src dst) Nat.one_pos
      (by dsimp only; omega) hash' filled)
    (Nat.le_refl _)

theorem compressGeneric_encodes {acceleration : Nat} (outputDirective : OutputDirective) (src : Buffer Byte srcSize)
    (dst : Buffer Byte cap)
    (small : tableType = .byU16 → srcSize < lz464Klimit) (faster : 1 ≤ acceleration)
    (roomy : Roomy outputDirective srcSize cap) (supported : srcSize ≤ maxInputSize) :
    ∃ n dst', compressGeneric outputDirective tableType acceleration src dst = .ok (n, dst') ∧
      ((n = 0 ∧ outputDirective = .limitedOutput) ∨ ∃ block, Encodes src dst' n block) := by
  rw [compressGeneric, if_neg (Nat.not_lt.mpr supported)]
  by_cases empty : srcSize = 0
  · subst empty
    rw [if_pos rfl]
    by_cases nothing : outputDirective ≠ .notLimited ∧ cap ≤ 0
    · rw [if_pos nothing]
      refine ⟨0, dst, rfl, Or.inl ⟨rfl, ?_⟩⟩
      cases outputDirective with
      | notLimited => exact absurd rfl nothing.1
      | limitedOutput => rfl
    · rw [if_neg nothing]
      have capPos : 0 < cap := by
        by_contra zero
        refine nothing ⟨fun notLimited => ?_, Nat.not_lt.mp zero⟩
        have bound := roomy notLimited
        omega
      obtain ⟨dst', ok, begins⟩ := writeByte_begins (begins_nil dst) capPos 0
      refine ⟨1, dst', ?_, Or.inr ⟨⟨[], [], 0, trivial⟩, rfl, begins, ?_, (fun _ last => by cases last),
        fun _ member => absurd member List.not_mem_nil, by decide⟩⟩
      · rw [List.length_nil] at ok
        rw [ok]
        rfl
      · rw [suffix_end src (Nat.le_refl 0)]
        rfl
  · rw [if_neg empty]
    exact compressGenericValidated_encodes src dst small faster roomy

/-- `LZ4_compress_fast` with any acceleration, on any source of a supported size and any destination, stays inside its
    buffers, fails no assert and returns. It writes a block of the source of at most `LZ4_compressBound` bytes, unless it
    returns zero, and that only if the destination is smaller than the bound. -/
theorem compressFast_encodes (src : Buffer Byte srcSize) (dst : Buffer Byte cap) (acceleration : Int)
    (supported : srcSize ≤ maxInputSize) :
    ∃ n dst', compressFast src dst acceleration = .ok (n, dst') ∧
      ((n = 0 ∧ cap < compressBound srcSize) ∨ ∃ block, Encodes src dst' n block) := by
  have bound : compressBound srcSize = srcSize + srcSize / 255 + 16 := if_neg (Nat.not_lt.mpr supported)
  rw [compressFast]
  have faster : 1 ≤ (if accelerationMax < (if acceleration < 1 then accelerationDefault else acceleration) then
      accelerationMax else (if acceleration < 1 then accelerationDefault else acceleration)).toNat := by
    have one : accelerationDefault = 1 := rfl
    have max : accelerationMax = 65537 := rfl
    split <;> split <;> omega
  have small : (if srcSize < lz464Klimit then TableType.byU16 else .byU32) = .byU16 → srcSize < lz464Klimit := by
    split
    · next below => exact fun _ => below
    · exact fun wrong => by cases wrong
  by_cases large : compressBound srcSize ≤ cap
  · rw [if_pos large]
    obtain ⟨n, dst', ok, ⟨-, limited⟩ | encodes⟩ := compressGeneric_encodes .notLimited src dst
      small faster (fun _ => by omega) supported
    · cases limited
    · exact ⟨n, dst', ok, Or.inr encodes⟩
  · rw [if_neg large]
    obtain ⟨n, dst', ok, ⟨zero, -⟩ | encodes⟩ := compressGeneric_encodes .limitedOutput src dst
      small faster (fun wrong => by cases wrong) supported
    · exact ⟨n, dst', ok, Or.inl ⟨zero, Nat.not_le.mp large⟩⟩
    · exact ⟨n, dst', ok, Or.inr encodes⟩

end Zftl.Codec
