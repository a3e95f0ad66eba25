/-
Module: Zftl.Codec.CompressSearch
Layer: Codec
Purpose: What the compressor reads. `LZ4_count` returns the exact length of the common run of two positions; a search
  ends at a match of four bytes that lies in front of `ip` and not too far, whatever the hash table makes of the
  source; catching up keeps a match a match. None of it reads beyond the source or fails an assert.
Imports: Zftl.Codec.DecompressSteps, Zftl.Codec.Lz4Compress
Trusted boundary: none
Main exports: Matches, WordAt, count_exact, Filled, searchLoop_finds, catchUp_caughtUp
Open obligations: none
-/
import Zftl.Codec.DecompressSteps
import Zftl.Codec.Lz4Compress

namespace Zftl.Codec

open Buffer Lz4Format Fallible

variable {srcSize : Nat} {src : Buffer Byte srcSize}

/-- A run of the source is the same at two positions. -/
def Matches (src : Buffer Byte srcSize) (ip mtch length : Nat) : Prop :=
  ∀ k, k < length → src.cell (mtch + k) = src.cell (ip + k)

theorem Matches.append {ip mtch first second : Nat} (front : Matches src ip mtch first)
    (back : Matches src (ip + first) (mtch + first) second) : Matches src ip mtch (first + second) := by
  intro k below
  by_cases inFront : k < first
  · exact front k inFront
  · have cell := back (k - first) (by omega)
    rwa [Nat.add_assoc, Nat.add_assoc, Nat.add_sub_cancel' (by omega)] at cell

/-! ### Words -/

/-- The word is what the source holds from `p` on, the lowest byte first. -/
def WordAt (src : Buffer Byte srcSize) (p : Nat) {w : Nat} (word : BitVec w) : Prop :=
  ∀ i, i < w → word.getLsbD i = (src.cell (p + i / 8)).getLsbD (i % 8)

theorem WordAt.append {v w p bytes : Nat} {low : BitVec v} {high : BitVec w} (lowAt : WordAt src p low)
    (width : v = 8 * bytes) (highAt : WordAt src (p + bytes) high) : WordAt src p (high ++ low) := by
  intro i below
  rw [BitVec.getLsbD_append]
  by_cases inLow : i < v
  · rw [if_pos inLow]
    exact lowAt i inLow
  · have position : p + bytes + (i - v) / 8 = p + i / 8 := by omega
    have bit : (i - v) % 8 = i % 8 := by omega
    rw [if_neg inLow, highAt (i - v) (by omega), position, bit]

theorem readByte_at (src : Buffer Byte srcSize) {p : Nat} (inside : p + 1 ≤ srcSize) :
    ∃ word, readByte src p = .ok word ∧ WordAt src p word := by
  refine ⟨src.cell p, readByte_of_lt inside, fun i below => ?_⟩
  rw [Nat.div_eq_of_lt below, Nat.mod_eq_of_lt below, Nat.add_zero]

theorem read16_at (src : Buffer Byte srcSize) {p : Nat} (inside : p + 2 ≤ srcSize) :
    ∃ word, read16 src p = .ok word ∧ WordAt src p word := by
  obtain ⟨low, ok, lowAt⟩ := readByte_at src (p := p) (by omega)
  obtain ⟨high, ok', highAt⟩ := readByte_at src (p := p + 1) (by omega)
  refine ⟨high ++ low, ?_, lowAt.append rfl highAt⟩
  rw [read16, ok, ok_bind, ok']
  rfl

theorem read32_at (src : Buffer Byte srcSize) {p : Nat} (inside : p + 4 ≤ srcSize) :
    ∃ word, read32 src p = .ok word ∧ WordAt src p word := by
  obtain ⟨low, ok, lowAt⟩ := read16_at src (p := p) (by omega)
  obtain ⟨high, ok', highAt⟩ := read16_at src (p := p + 2) (by omega)
  refine ⟨high ++ low, ?_, lowAt.append rfl highAt⟩
  rw [read32, ok, ok_bind, ok']
  rfl

theorem readArch_at (src : Buffer Byte srcSize) {p : Nat} (inside : p + 8 ≤ srcSize) :
    ∃ word, readArch src p = .ok word ∧ WordAt src p word := by
  obtain ⟨low, ok, lowAt⟩ := read32_at src (p := p) (by omega)
  obtain ⟨high, ok', highAt⟩ := read32_at src (p := p + 4) (by omega)
  refine ⟨high ++ low, ?_, lowAt.append rfl highAt⟩
  rw [readArch, ok, ok_bind, ok']
  rfl

/-- Two words are the same exactly if the runs they are read from are. -/
theorem WordAt.eq_iff {w bytes ip mtch : Nat} {there here : BitVec w} (width : w = 8 * bytes)
    (thereAt : WordAt src mtch there) (hereAt : WordAt src ip here) : there = here ↔ Matches src ip mtch bytes := by
  constructor
  · rintro rfl k below
    apply BitVec.eq_of_getLsbD_eq
    intro j bit
    have byte : (8 * k + j) / 8 = k := by omega
    have rest : (8 * k + j) % 8 = j := by omega
    have one := thereAt (8 * k + j) (by omega)
    have other := hereAt (8 * k + j) (by omega)
    rw [byte, rest] at one other
    rw [← one, ← other]
  · intro same
    apply BitVec.eq_of_getLsbD_eq
    intro i below
    rw [thereAt i below, hereAt i below, same (i / 8) (by omega)]

/-- The trailing zeros of a difference count the bytes in common. -/
theorem nbCommonBytes_exact {ip mtch : Nat} {there here : BitVec 64} (thereAt : WordAt src mtch there)
    (hereAt : WordAt src ip here) (differ : there ^^^ here ≠ 0) :
    nbCommonBytes (there ^^^ here) < 8 ∧ Matches src ip mtch (nbCommonBytes (there ^^^ here)) ∧
      src.cell (mtch + nbCommonBytes (there ^^^ here)) ≠ src.cell (ip + nbCommonBytes (there ^^^ here)) := by
  have bits : (there ^^^ here).ctz.toNat < 64 := BitVec.lt_def.mp (BitVec.ctz_lt_iff_ne_zero.mpr differ)
  rw [nbCommonBytes, Nat.shiftRight_eq_div_pow]
  refine ⟨by omega, fun k below => ?_, fun same => ?_⟩
  · apply BitVec.eq_of_getLsbD_eq
    intro j bit
    have zero := BitVec.getLsbD_false_of_lt_ctz (by omega : 8 * k + j < (there ^^^ here).ctz.toNat)
    have byte : (8 * k + j) / 8 = k := by omega
    have rest : (8 * k + j) % 8 = j := by omega
    rw [BitVec.getLsbD_xor, thereAt _ (by omega), hereAt _ (by omega), byte, rest] at zero
    simpa using zero
  · have one := BitVec.getLsbD_true_ctz_of_ne_zero differ
    rw [BitVec.getLsbD_xor, thereAt _ bits, hereAt _ bits, same, Bool.xor_self] at one
    cases one

/-! ### Counting -/

/-- `stop` is where the runs at `pIn` and `pMatch` first differ, or else the limit. -/
structure CountsTo (src : Buffer Byte srcSize) (pIn pMatch pInLimit stop : Nat) : Prop where
  behind : pIn ≤ stop
  within : stop ≤ pInLimit
  same : Matches src pIn pMatch (stop - pIn)
  differs : stop < pInLimit → src.cell (pMatch + (stop - pIn)) ≠ src.cell stop

theorem CountsTo.behind_run {pIn pMatch pInLimit stop length : Nat} (run : Matches src pIn pMatch length)
    (counts : CountsTo src (pIn + length) (pMatch + length) pInLimit stop) :
    CountsTo src pIn pMatch pInLimit stop := by
  have behind := counts.behind
  have total : length + (stop - (pIn + length)) = stop - pIn := by omega
  refine ⟨by omega, counts.within, ?_, fun inside => ?_⟩
  · rw [← total]
    exact run.append counts.same
  · have differs := counts.differs inside
    rwa [Nat.add_assoc, total] at differs

/-- The limit or a difference is less than `r` bytes ahead. -/
def EndsWithin (src : Buffer Byte srcSize) (pInLimit r : Nat) (p : Nat × Nat) : Prop :=
  pInLimit < p.1 + r ∨ ∃ k, k < r ∧ src.cell (p.2 + k) ≠ src.cell (p.1 + k)

/-- A chunk halves the distance to the end of the common run. -/
theorem countChunk_halves {w width pInLimit : Nat} {read : Nat → Except Fault (BitVec w)} {p : Nat × Nat}
    (bits : w = 8 * width) (positive : 1 ≤ width)
    (reads : ∀ p, p + width ≤ srcSize → ∃ word, read p = .ok word ∧ WordAt src p word)
    (order : p.2 ≤ p.1) (within : p.1 ≤ pInLimit) (inside : pInLimit ≤ srcSize)
    (ends : EndsWithin src pInLimit (2 * width) p) :
    ∃ length, countChunk read width pInLimit p = .ok (p.1 + length, p.2 + length) ∧ p.1 + length ≤ pInLimit ∧
      Matches src p.1 p.2 length ∧ EndsWithin src pInLimit width (p.1 + length, p.2 + length) := by
  have stays : (p.1 + 0, p.2 + 0) = p := rfl
  have none : Matches src p.1 p.2 0 := fun k below => absurd below (Nat.not_lt_zero k)
  rw [countChunk]
  by_cases room : p.1 + (width - 1) < pInLimit
  · rw [if_pos room]
    obtain ⟨here, ok, hereAt⟩ := reads p.1 (by omega)
    obtain ⟨there, ok', thereAt⟩ := reads p.2 (by omega)
    rw [ok, ok_bind, ok', ok_bind]
    by_cases equal : there = here
    · have run := (thereAt.eq_iff bits hereAt).mp equal
      rw [if_pos equal]
      refine ⟨width, rfl, by omega, run, ?_⟩
      obtain near | ⟨k, below, differ⟩ := ends
      · exact Or.inl (by dsimp only; omega)
      · have beyond : width ≤ k := Nat.not_lt.mp fun early => differ (run k early)
        refine Or.inr ⟨k - width, by omega, ?_⟩
        dsimp only
        rwa [Nat.add_assoc, Nat.add_assoc, Nat.add_sub_cancel' beyond]
    · rw [if_neg equal]
      refine ⟨0, rfl, within, none, Or.inr ?_⟩
      by_contra same
      refine equal ((thereAt.eq_iff bits hereAt).mpr fun k below => ?_)
      by_contra differ
      exact same ⟨k, below, differ⟩
  · rw [if_neg room]
    exact ⟨0, rfl, within, none, Or.inl (by dsimp only; omega)⟩

theorem countTail_exact {pIn pMatch pInLimit : Nat} (order : pMatch ≤ pIn) (within : pIn ≤ pInLimit)
    (inside : pInLimit ≤ srcSize) (near : pInLimit < pIn + 8) :
    ∃ stop, countTail src pIn pMatch pInLimit = .ok stop ∧ CountsTo src pIn pMatch pInLimit stop := by
  obtain ⟨first, ok, within, run, ends⟩ := countChunk_halves (p := (pIn, pMatch)) rfl (by omega)
    (fun _ => read32_at src) order within inside (Or.inl near)
  obtain ⟨second, ok', within, run', ends⟩ := countChunk_halves (p := (pIn + first, pMatch + first)) rfl (by omega)
    (fun _ => read16_at src) (by dsimp only; omega) within inside ends
  obtain ⟨third, ok'', within, run'', ends⟩ :=
    countChunk_halves (p := (pIn + first + second, pMatch + first + second)) rfl (by omega)
      (fun _ => readByte_at src) (by dsimp only; omega) within inside ends
  refine ⟨pIn + first + second + third, ?_, ?_⟩
  · rw [countTail, ok, ok_bind, ok', ok_bind, ok'']
    rfl
  · refine .behind_run run (.behind_run run' (.behind_run run'' ⟨Nat.le_refl _, within, ?_, fun more => ?_⟩))
    · rw [Nat.sub_self]
      exact fun k below => absurd below (Nat.not_lt_zero k)
    · obtain near | ⟨k, below, differ⟩ := ends
      · dsimp only at near
        omega
      · have zero : k = 0 := by omega
        rw [Nat.sub_self]
        rwa [zero] at differ

theorem countWords_exact (src : Buffer Byte srcSize) {pIn pMatch pInLimit : Nat} (order : pMatch ≤ pIn)
    (within : pIn ≤ pInLimit)
    (inside : pInLimit ≤ srcSize) :
    ∃ stop, countWords src pIn pMatch pInLimit = .ok stop ∧ CountsTo src pIn pMatch pInLimit stop := by
  induction left : pInLimit - pIn using Nat.strongRecOn generalizing pIn pMatch with
  | _ left ih =>
    rw [countWords]
    by_cases more : pIn + (8 - 1) < pInLimit
    · rw [if_pos more]
      obtain ⟨there, ok, thereAt⟩ := readArch_at src (p := pMatch) (by omega)
      obtain ⟨here, ok', hereAt⟩ := readArch_at src (p := pIn) (by omega)
      rw [ok, ok_bind, ok', ok_bind]
      dsimp only
      by_cases equal : there ^^^ here = 0
      · rw [if_pos equal]
        have run : Matches src pIn pMatch 8 := (thereAt.eq_iff rfl hereAt).mp (BitVec.xor_eq_zero_iff.mp equal)
        obtain ⟨stop, ok'', counts⟩ := ih (pInLimit - (pIn + 8)) (by omega) (by omega : pMatch + 8 ≤ pIn + 8)
          (by omega) rfl
        exact ⟨stop, ok'', counts.behind_run run⟩
      · rw [if_neg equal]
        obtain ⟨few, run, differ⟩ := nbCommonBytes_exact thereAt hereAt equal
        refine ⟨_, rfl, Nat.le_add_right _ _, by omega, ?_, fun _ => ?_⟩
        · rwa [Nat.add_sub_cancel_left]
        · rwa [Nat.add_sub_cancel_left]
    · rw [if_neg more]
      exact countTail_exact order within inside (by omega)

/-- `LZ4_count` returns the length of the longest common run in front of the limit. -/
theorem count_exact (src : Buffer Byte srcSize) {pIn pMatch pInLimit : Nat} (order : pMatch ≤ pIn)
    (within : pIn ≤ pInLimit)
    (inside : pInLimit ≤ srcSize) :
    ∃ length, count src pIn pMatch pInLimit = .ok length ∧ pIn + length ≤ pInLimit ∧
      Matches src pIn pMatch length ∧
        (pIn + length < pInLimit → src.cell (pMatch + length) ≠ src.cell (pIn + length)) := by
  obtain ⟨stop, ok, counts⟩ := countWords_exact src order within inside
  have total : pIn + (stop - pIn) = stop := Nat.add_sub_cancel' counts.behind
  refine ⟨stop - pIn, ?_, ?_, counts.same, ?_⟩
  · rw [count, ok]
    rfl
  · rw [total]
    exact counts.within
  · rw [total]
    exact counts.differs

/-! ### The hash table -/

theorem assertThat_of {condition : Prop} [Decidable condition] (holds : condition) :
    assertThat condition = .ok () := if_pos holds

/-- A hash is an index of the table. -/
theorem hashPosition_lt (src : Buffer Byte srcSize) (tableType : TableType) {p : Nat} (inside : p + 8 ≤ srcSize) :
    ∃ h, hashPosition src p tableType = .ok h ∧ h < 2 ^ hashLog tableType := by
  cases tableType with
  | byU32 =>
    obtain ⟨sequence, ok, -⟩ := readArch_at src inside
    refine ⟨hash5 sequence .byU32, ?_, ?_⟩
    · rw [hashPosition, ok]
      rfl
    · have bound : (sequence <<< 24 * 889523592379 : BitVec 64).toNat < 2 ^ 64 := BitVec.isLt _
      rw [hash5, BitVec.toNat_ushiftRight, Nat.shiftRight_eq_div_pow]
      exact Nat.div_lt_of_lt_mul bound
  | byU16 =>
    obtain ⟨sequence, ok, -⟩ := read32_at src (by omega : p + 4 ≤ srcSize)
    refine ⟨hash4 sequence .byU16, ?_, ?_⟩
    · rw [hashPosition, ok]
      rfl
    · have bound : (sequence * 2654435761 : BitVec 32).toNat < 2 ^ 32 := BitVec.isLt _
      rw [hash4, BitVec.toNat_ushiftRight, Nat.shiftRight_eq_div_pow]
      exact Nat.div_lt_of_lt_mul bound

variable {tableType : TableType} {hashTable : HashTable tableType}

/-- Every index in the table is below a position. -/
def Filled (hashTable : HashTable tableType) (position : Nat) : Prop := ∀ slot, hashTable slot < position

theorem Filled.mono {position later : Nat} (filled : Filled hashTable position) (after : position ≤ later) :
    Filled hashTable later := fun slot => Nat.lt_of_lt_of_le (filled slot) after

theorem getIndexOnHash_filled {h position : Nat} (filled : Filled hashTable position)
    (inside : h < 2 ^ hashLog tableType) :
    ∃ matchIndex, getIndexOnHash h hashTable = .ok matchIndex ∧ matchIndex < position :=
  ⟨hashTable ⟨h, inside⟩, dif_pos inside, filled _⟩

theorem putIndexOnHash_filled {idx h position : Nat} (filled : Filled hashTable position)
    (inside : h < 2 ^ hashLog tableType) (small : tableType = .byU16 → idx < 65536) (below : idx < position) :
    ∃ result, putIndexOnHash idx h hashTable = .ok result ∧ Filled result position := by
  rw [putIndexOnHash, assertThat_of small, ok_bind, if_pos inside]
  refine ⟨_, rfl, fun slot => ?_⟩
  by_cases here : slot.val = h
  · rw [if_pos here]
    exact Nat.lt_of_le_of_lt (Nat.mod_le _ _) below
  · rw [if_neg here]
    exact filled slot

/-! ### The search -/

/-- What a search ends with: no more room for a match, or four bytes in common with a position in front of `ip`. -/
inductive Finds (src : Buffer Byte srcSize) (start : Nat) : SearchResult tableType → Prop where
  | lastLiterals : Finds src start .lastLiterals
  | found (ip mtch : Nat) (hashTable : HashTable tableType) (behind : start ≤ ip) (room : ip + mfLimit ≤ srcSize)
      (before : mtch < ip) (near : ip - mtch ≤ distanceMax) (run : Matches src ip mtch minMatch)
      (filled : Filled hashTable (ip + 1)) : Finds src start (.found ip mtch hashTable)

/-- A search from a position in front of which every index of the table lies. -/
theorem searchLoop_finds {s : Search tableType} (src : Buffer Byte srcSize) (turns : Nat)
    (small : tableType = .byU16 → srcSize < lz464Klimit)
    (enough : srcSize + 1 < turns + s.forwardIp + mfLimit) (room : s.forwardIp + mfLimit ≤ srcSize + 1)
    (stepPos : 1 ≤ s.step) (trigger : 2 ^ skipTrigger ≤ s.searchMatchNb) (hash : s.forwardH < 2 ^ hashLog tableType)
    (filled : Filled s.hashTable s.forwardIp) :
    ∃ result, searchLoop src turns s = .ok result ∧ Finds src s.forwardIp result := by
  have twelve : mfLimit = 12 := rfl
  have limit : lz464Klimit = 65547 := rfl
  have far : distanceMax = 65535 := rfl
  induction turns generalizing s with
  | zero => omega
  | succ turns ih =>
      obtain ⟨matchIndex, ok, before⟩ := getIndexOnHash_filled filled hash
      have ordered := Nat.le_of_lt before
      rw [searchLoop]
      dsimp only
      rw [ok, ok_bind, assertThat_of ordered, ok_bind]
      by_cases ends : srcSize + 1 < s.forwardIp + s.step + mfLimit
      · rw [if_pos ends]
        exact ⟨_, rfl, .lastLiterals⟩
      rw [if_neg ends]
      have inFront : s.forwardIp + mfLimit < srcSize + 1 := by omega
      have index : tableType = .byU16 → s.forwardIp < 65536 := fun type => by
        have bound := small type
        omega
      obtain ⟨forwardH, ok', hash'⟩ := hashPosition_lt src tableType (by omega : s.forwardIp + s.step + 8 ≤ srcSize)
      obtain ⟨hashTable, ok'', filled'⟩ := putIndexOnHash_filled (filled.mono (Nat.le_succ _)) hash index
        (Nat.lt_succ_self _)
      rw [assertThat_of inFront, ok_bind, ok', ok_bind, ok'', ok_bind, assertThat_of before, ok_bind]
      -- the search goes on behind what it has looked at
      have goesOn : ∃ result, searchLoop src turns ⟨s.forwardIp + s.step, s.searchMatchNb >>> skipTrigger,
          s.searchMatchNb + 1, forwardH, hashTable⟩ = .ok result ∧ Finds src s.forwardIp result := by
        have step : 1 ≤ s.searchMatchNb >>> skipTrigger := by
          rw [Nat.shiftRight_eq_div_pow]
          exact Nat.div_pos trigger (by decide)
        obtain ⟨result, ok, finds⟩ := ih (s := ⟨s.forwardIp + s.step, s.searchMatchNb >>> skipTrigger,
          s.searchMatchNb + 1, forwardH, hashTable⟩) (by dsimp only; omega) (by dsimp only; omega) step
          (Nat.le_succ_of_le trigger) hash' (filled'.mono (by dsimp only; omega))
        refine ⟨result, ok, ?_⟩
        cases finds with
        | lastLiterals => exact .lastLiterals
        | found ip mtch hashTable behind room before near run filled =>
          exact .found ip mtch hashTable (Nat.le_trans (Nat.le_add_right _ _) behind) room before near run filled
      by_cases tooFar : tableType ≠ .byU16 ∧ matchIndex + distanceMax < s.forwardIp
      · rw [if_pos tooFar]
        exact goesOn
      rw [if_neg tooFar]
      have near : s.forwardIp - matchIndex ≤ distanceMax := by
        by_cases type : tableType = .byU16
        · have bound := small type
          omega
        · have within := Nat.not_lt.mp fun wrong => tooFar ⟨type, wrong⟩
          omega
      obtain ⟨there, ok3, thereAt⟩ := read32_at src (by omega : matchIndex + 4 ≤ srcSize)
      obtain ⟨here, ok4, hereAt⟩ := read32_at src (by omega : s.forwardIp + 4 ≤ srcSize)
      rw [assertThat_of near, ok_bind, ok3, ok_bind, ok4, ok_bind]
      by_cases equal : there = here
      · rw [if_pos equal]
        exact ⟨_, rfl, .found _ _ _ (Nat.le_refl _) (by omega) before near
          ((thereAt.eq_iff rfl hereAt).mp equal) filled'⟩
      · rw [if_neg equal]
        exact goesOn

/-! ### Catching up -/

/-- A match one byte longer at the front. -/
theorem Matches.back {ip mtch length : Nat} (run : Matches src ip mtch length)
    (same : src.cell (mtch - 1) = src.cell (ip - 1)) (ipPos : 1 ≤ ip) (mtchPos : 1 ≤ mtch) :
    Matches src (ip - 1) (mtch - 1) (length + 1) := by
  have first : Matches src (ip - 1) (mtch - 1) 1 := fun k below => by
    rwa [Nat.lt_one_iff.mp below]
  rw [Nat.add_comm]
  refine first.append ?_
  rwa [Nat.sub_add_cancel ipPos, Nat.sub_add_cancel mtchPos]

/-- A match moved back: its two sides by the same number of bytes, `ip` not beyond the anchor. -/
structure CaughtUp (src : Buffer Byte srcSize) (anchor ip mtch length : Nat) (p : Nat × Nat) : Prop where
  behind : anchor ≤ p.1
  earlier : p.1 ≤ ip
  offset : p.1 - p.2 = ip - mtch
  before : p.2 < p.1
  run : Matches src p.1 p.2 (length + (ip - p.1))

theorem stepBack_caughtUp {anchor ip mtch length : Nat} (order : anchor < ip) (before : mtch < ip) (mtchPos : 1 ≤ mtch)
    (inside : ip ≤ srcSize) (same : src.cell (mtch - 1) = src.cell (ip - 1)) (run : Matches src ip mtch length) :
    ∃ p, stepBack src anchor ip mtch = .ok p ∧ CaughtUp src anchor ip mtch length p := by
  induction mtch generalizing ip length with
  | zero => omega
  | succ mtch ih =>
      have longer := run.back same (by omega) mtchPos
      rw [Nat.add_sub_cancel] at longer
      have stop : CaughtUp src anchor ip (mtch + 1) length (ip - 1, mtch) := by
        refine ⟨by dsimp only; omega, by dsimp only; omega, by dsimp only; omega, by dsimp only; omega, ?_⟩
        have one : ip - (ip - 1) = 1 := by omega
        rwa [one]
      rw [stepBack]
      by_cases more : anchor < ip - 1 ∧ 0 < mtch
      · rw [if_pos more, readByte_of_lt (by omega), ok_bind, readByte_of_lt (by omega), ok_bind]
        by_cases equal : src.cell (ip - 1 - 1) = src.cell (mtch - 1)
        · rw [if_pos equal]
          obtain ⟨p, ok, caught⟩ := ih more.1 (by omega) more.2 (by omega) equal.symm longer
          have earlier := caught.earlier
          have offset := caught.offset
          refine ⟨p, ok, caught.behind, by omega, by omega, caught.before, ?_⟩
          have total : length + 1 + (ip - 1 - p.1) = length + (ip - p.1) := by omega
          rw [← total]
          exact caught.run
        · rw [if_neg equal]
          exact ⟨_, rfl, stop⟩
      · rw [if_neg more]
        exact ⟨_, rfl, stop⟩

/-- Catching up keeps a match a match. -/
theorem catchUp_caughtUp {anchor ip mtch length : Nat} (order : anchor < ip) (before : mtch < ip)
    (inside : ip ≤ srcSize) (run : Matches src ip mtch length) :
    ∃ p, catchUp src anchor ip mtch = .ok p ∧ CaughtUp src anchor ip mtch length p := by
  have stays : CaughtUp src anchor ip mtch length (ip, mtch) := by
    refine ⟨Nat.le_of_lt order, Nat.le_refl _, rfl, before, ?_⟩
    rwa [Nat.sub_self]
  rw [catchUp, assertThat_of order, ok_bind]
  by_cases positive : 0 < mtch
  · rw [if_pos positive, readByte_of_lt (by omega), ok_bind, readByte_of_lt (by omega), ok_bind]
    by_cases equal : src.cell (ip - 1) = src.cell (mtch - 1)
    · rw [if_pos equal]
      exact stepBack_caughtUp order before positive inside equal.symm run
    · rw [if_neg equal]
      exact ⟨_, rfl, stays⟩
  · rw [if_neg positive]
    exact ⟨_, rfl, stays⟩

end Zftl.Codec
