/-
Module: Zftl.Codec.Lz4Compress
Layer: Codec
Purpose: `LZ4_compress_default` of the vendored library. `LZ4_compress_generic_validated` is translated for the
  directives of that call (`noDict`, `noDictIssue`, a zeroed context, both table types of a 64-bit machine). As in the
  decoder a pointer is its distance from the start of its buffer, and `end - k` is compared by adding `k` to the
  other side. The asserts of the source are checks that fault.
Imports: Zftl.Codec.Lz4Decompress
Trusted boundary: human-reviewed translation of LZ4_compress_generic and what it uses in lz4.c
Main exports: TableType, HashTable, count, searchLoop, catchUp, encodeLiterals, encodeMatchLength, nextMatch,
  compressStep, compressLoop, compressGeneric, compressFast, compressDefault
Open obligations: none
-/
import Zftl.Codec.Lz4Decompress

namespace Zftl.Codec

variable {srcSize cap : Nat}

/-! ### Constants -/

def minLength : Nat := mfLimit + 1
def lz464Klimit : Nat := 64 * 2 ^ 10 + (mfLimit - 1)
def skipTrigger : Nat := 6
def distanceMax : Nat := 65535
def maxInputSize : Nat := 0x7E000000
def accelerationDefault : Int := 1
def accelerationMax : Int := 65537

/-- `LZ4_compressBound`. -/
def compressBound (isize : Nat) : Nat := if maxInputSize < isize then 0 else isize + isize / 255 + 16

/-- `limitedOutput_directive`, without `fillOutput`. -/
inductive OutputDirective where
  | notLimited
  | limitedOutput
deriving Repr, DecidableEq

/-- `tableType_t`, without the types that a 64-bit machine does not use for a call without history. -/
inductive TableType where
  | byU32
  | byU16
deriving Repr, DecidableEq

/-- `assert(condition)`. -/
def assertThat (condition : Prop) [Decidable condition] : Except Fault Unit :=
  if condition then .ok () else .error .outOfBounds

/-! ### Memory -/

/-- `LZ4_read16`. -/
def read16 (src : Buffer Byte srcSize) (p : Nat) : Except Fault (BitVec 16) := do
  let low ← readByte src p
  let high ← readByte src (p + 1)
  pure (high ++ low)

/-- `LZ4_read32`. -/
def read32 (src : Buffer Byte srcSize) (p : Nat) : Except Fault (BitVec 32) := do
  let low ← read16 src p
  let high ← read16 src (p + 2)
  pure (high ++ low)

/-- `LZ4_read_ARCH`. -/
def readArch (src : Buffer Byte srcSize) (p : Nat) : Except Fault (BitVec 64) := do
  let low ← read32 src p
  let high ← read32 src (p + 4)
  pure (high ++ low)

/-- `*p = value`. -/
def writeByte (dst : Buffer Byte cap) (p : Nat) (value : Byte) : Except Fault (Buffer Byte cap) :=
  memcpy dst p (fun _ : Fin 1 => value) 0 1

/-- `LZ4_writeLE16`. -/
def writeLE16 (dst : Buffer Byte cap) (p value : Nat) : Except Fault (Buffer Byte cap) := do
  let dst ← writeByte dst p (BitVec.ofNat 8 value)
  writeByte dst (p + 1) (BitVec.ofNat 8 (value / 256))

/-- `*token += value`. -/
def addToToken (dst : Buffer Byte cap) (token value : Nat) : Except Fault (Buffer Byte cap) := do
  let byte ← readByte dst token
  writeByte dst token (byte + BitVec.ofNat 8 value)

/-- `for (; len >= 255; len -= 255) *op++ = 255; *op++ = (BYTE) len;`. -/
def writeLength (dst : Buffer Byte cap) (op len : Nat) : Except Fault (Nat × Buffer Byte cap) :=
  if 255 ≤ len then do
    let dst ← writeByte dst op 255
    writeLength dst (op + 1) (len - 255)
  else do
    let dst ← writeByte dst op (BitVec.ofNat 8 len)
    pure (op + 1, dst)
termination_by len
decreasing_by omega

/-! ### Counting a match -/

/-- `LZ4_NbCommonBytes`: `__builtin_ctzll(val) >> 3`. -/
def nbCommonBytes (val : BitVec 64) : Nat := val.ctz.toNat >>> 3

/-- `if ((pIn < pInLimit - (width - 1)) && (read(pMatch) == read(pIn))) { pIn += width; pMatch += width; }`. -/
def countChunk {w : Nat} (read : Nat → Except Fault (BitVec w)) (width pInLimit : Nat) (p : Nat × Nat) :
    Except Fault (Nat × Nat) :=
  if p.1 + (width - 1) < pInLimit then do
    let here ← read p.1
    let there ← read p.2
    pure (if there = here then (p.1 + width, p.2 + width) else p)
  else pure p

/-- The last seven bytes of `LZ4_count`. -/
def countTail (src : Buffer Byte srcSize) (pIn pMatch pInLimit : Nat) : Except Fault Nat := do
  let p ← countChunk (read32 src) 4 pInLimit (pIn, pMatch)
  let p ← countChunk (read16 src) 2 pInLimit p
  let p ← countChunk (readByte src) 1 pInLimit p
  pure p.1

/-- `pIn` at the end of `LZ4_count`. The source has the first turn of its loop in front of it once more. -/
def countWords (src : Buffer Byte srcSize) (pIn pMatch pInLimit : Nat) : Except Fault Nat :=
  if pIn + (8 - 1) < pInLimit then do
    let there ← readArch src pMatch
    let here ← readArch src pIn
    let diff := there ^^^ here
    if diff = 0 then countWords src (pIn + 8) (pMatch + 8) pInLimit else pure (pIn + nbCommonBytes diff)
  else countTail src pIn pMatch pInLimit
termination_by pInLimit - pIn

/-- `LZ4_count`. -/
def count (src : Buffer Byte srcSize) (pIn pMatch pInLimit : Nat) : Except Fault Nat := do
  let stop ← countWords src pIn pMatch pInLimit
  pure (stop - pIn)

/-! ### The hash table -/

/-- `LZ4_HASHLOG`, with the bit more of `byU16`. -/
def hashLog : TableType → Nat
  | .byU32 => 12
  | .byU16 => 13

/-- Indexes are stored in as many bits. -/
def indexBits : TableType → Nat
  | .byU32 => 32
  | .byU16 => 16

/-- `hashTable` of the context. -/
abbrev HashTable (tableType : TableType) := Buffer Nat (2 ^ hashLog tableType)

/-- `LZ4_hash4`. -/
def hash4 (sequence : BitVec 32) (tableType : TableType) : Nat :=
  ((sequence * 2654435761) >>> (minMatch * 8 - hashLog tableType)).toNat

/-- `LZ4_hash5`. -/
def hash5 (sequence : BitVec 64) (tableType : TableType) : Nat :=
  (((sequence <<< 24) * 889523592379) >>> (64 - hashLog tableType)).toNat

/-- `LZ4_hashPosition`. -/
def hashPosition (src : Buffer Byte srcSize) (p : Nat) (tableType : TableType) : Except Fault Nat :=
  match tableType with
  | .byU32 => do
    let sequence ← readArch src p
    pure (hash5 sequence .byU32)
  | .byU16 => do
    let sequence ← read32 src p
    pure (hash4 sequence .byU16)

/-- `LZ4_getIndexOnHash`. -/
def getIndexOnHash {tableType : TableType} (h : Nat) (hashTable : HashTable tableType) : Except Fault Nat :=
  if inside : h < 2 ^ hashLog tableType then .ok (hashTable ⟨h, inside⟩) else .error .outOfBounds

/-- `LZ4_putIndexOnHash`. -/
def putIndexOnHash {tableType : TableType} (idx h : Nat) (hashTable : HashTable tableType) :
    Except Fault (HashTable tableType) := do
  assertThat (tableType = .byU16 → idx < 65536)
  if h < 2 ^ hashLog tableType then
    pure fun slot => if slot.val = h then idx % 2 ^ indexBits tableType else hashTable slot
  else .error .outOfBounds

/-! ### Finding a match -/

/-- The variables of the search. -/
structure Search (tableType : TableType) where
  forwardIp : Nat
  step : Nat
  searchMatchNb : Nat
  forwardH : Nat
  hashTable : HashTable tableType

/-- What a search ends with: `goto _last_literals`, or `ip` and `match`. -/
inductive SearchResult (tableType : TableType) where
  | lastLiterals
  | found (ip mtch : Nat) (hashTable : HashTable tableType)

/-- `do { ... } while(1)` of the search. Each turn moves `forwardIp` on, so `srcSize` turns are enough. -/
def searchLoop {tableType : TableType} (src : Buffer Byte srcSize) :
    (turns : Nat) → Search tableType → Except Fault (SearchResult tableType)
  | 0, _ => .error .outOfBounds
  | turns + 1, s => do
    let h := s.forwardH
    let current := s.forwardIp
    let matchIndex ← getIndexOnHash h s.hashTable
    assertThat (matchIndex ≤ current)
    let ip := s.forwardIp
    let forwardIp := s.forwardIp + s.step
    let step := s.searchMatchNb >>> skipTrigger
    -- `forwardIp > mflimitPlusOne`
    if srcSize + 1 < forwardIp + mfLimit then pure .lastLiterals
    else do
      assertThat (ip + mfLimit < srcSize + 1)
      let forwardH ← hashPosition src forwardIp tableType
      let hashTable ← putIndexOnHash current h s.hashTable
      let next : Search tableType := ⟨forwardIp, step, s.searchMatchNb + 1, forwardH, hashTable⟩
      assertThat (matchIndex < current)
      -- too far
      if tableType ≠ .byU16 ∧ matchIndex + distanceMax < current then searchLoop src turns next
      else do
        assertThat (current - matchIndex ≤ distanceMax)
        let there ← read32 src matchIndex
        let here ← read32 src ip
        if there = here then pure (.found ip matchIndex hashTable) else searchLoop src turns next

/-- `do { ip--; match--; } while (((ip > anchor) & (match > lowLimit)) && (ip[-1] == match[-1]))`. -/
def stepBack (src : Buffer Byte srcSize) (anchor ip : Nat) : (mtch : Nat) → Except Fault (Nat × Nat)
  | 0 => pure (ip, 0)
  | mtch + 1 => do
    let ip := ip - 1
    if anchor < ip ∧ 0 < mtch then do
      let here ← readByte src (ip - 1)
      let there ← readByte src (mtch - 1)
      if here = there then stepBack src anchor ip mtch else pure (ip, mtch)
    else pure (ip, mtch)

/-- Catch up. -/
def catchUp (src : Buffer Byte srcSize) (anchor ip mtch : Nat) : Except Fault (Nat × Nat) := do
  assertThat (anchor < ip)
  if 0 < mtch then do
    let here ← readByte src (ip - 1)
    let there ← readByte src (mtch - 1)
    if here = there then stepBack src anchor ip mtch else pure (ip, mtch)
  else pure (ip, mtch)

/-! ### Writing a sequence -/

/-- The token and the length of a run of literals. -/
def writeRunToken (dst : Buffer Byte cap) (token litLength : Nat) : Except Fault (Nat × Buffer Byte cap) :=
  if runMask ≤ litLength then do
    let dst ← writeByte dst token (BitVec.ofNat 8 (runMask <<< 4))
    writeLength dst (token + 1) (litLength - runMask)
  else do
    let dst ← writeByte dst token (BitVec.ofNat 8 (litLength <<< 4))
    pure (token + 1, dst)

/-- Encode literals: `op` and the destination afterwards, or none if the output does not fit. -/
def encodeLiterals (outputDirective : OutputDirective) (src : Buffer Byte srcSize) (anchor ip op : Nat)
    (dst : Buffer Byte cap) : Except Fault (Option (Nat × Buffer Byte cap)) :=
  let litLength := ip - anchor
  let token := op
  let op := op + 1
  if outputDirective = .limitedOutput ∧ cap < op + litLength + (2 + 1 + lastLiterals) + litLength / 255 then
    pure none
  else do
    let (op, dst) ← writeRunToken dst token litLength
    let dst ← wildCopy8From src dst op anchor (op + litLength)
    pure (some (op + litLength, dst))

/-- `while (matchCode >= 4*255) { op += 4; LZ4_write32(op, 0xFFFFFFFF); matchCode -= 4*255; }`. -/
def writeFours (dst : Buffer Byte cap) (op matchCode : Nat) : Except Fault (Nat × Nat × Buffer Byte cap) :=
  if 4 * 255 ≤ matchCode then do
    let dst ← write32 dst (op + 4) 0xFFFFFFFF
    writeFours dst (op + 4) (matchCode - 4 * 255)
  else pure (op, matchCode, dst)
termination_by matchCode
decreasing_by omega

/-- Encode a match length: `op` and the destination afterwards. -/
def encodeMatchLength (dst : Buffer Byte cap) (token op matchCode : Nat) : Except Fault (Nat × Buffer Byte cap) :=
  if mlMask ≤ matchCode then do
    let dst ← addToToken dst token mlMask
    let dst ← write32 dst op 0xFFFFFFFF
    let (op, matchCode, dst) ← writeFours dst op (matchCode - mlMask)
    let op := op + matchCode / 255
    let dst ← writeByte dst op (BitVec.ofNat 8 (matchCode % 255))
    pure (op + 1, dst)
  else do
    let dst ← addToToken dst token matchCode
    pure (op, dst)

/-! ### The main loop -/

/-- The variables of the main loop. -/
structure Vars (tableType : TableType) (cap : Nat) where
  ip : Nat
  anchor : Nat
  op : Nat
  dst : Buffer Byte cap
  hashTable : HashTable tableType

/-- Where the compressor stands: at the top of the main loop, at `_next_match`, at `_last_literals`, or at a
    `return 0` for want of room. -/
inductive Point (tableType : TableType) (cap : Nat) where
  | mainLoop (forwardH : Nat) (v : Vars tableType cap)
  | nextMatch (token mtch : Nat) (v : Vars tableType cap)
  | lastLiterals (anchor op : Nat) (dst : Buffer Byte cap)
  | full (dst : Buffer Byte cap)

/-- The main loop from its top to `_next_match`. -/
def mainLoop {tableType : TableType} (outputDirective : OutputDirective) (acceleration : Nat)
    (src : Buffer Byte srcSize) (forwardH : Nat) (v : Vars tableType cap) : Except Fault (Point tableType cap) := do
  match ← searchLoop src srcSize ⟨v.ip, 1, acceleration <<< skipTrigger, forwardH, v.hashTable⟩ with
  | .lastLiterals => pure (.lastLiterals v.anchor v.op v.dst)
  | .found ip mtch hashTable =>
    let (ip, mtch) ← catchUp src v.anchor ip mtch
    match ← encodeLiterals outputDirective src v.anchor ip v.op v.dst with
    | none => pure (.full v.dst)
    | some (op, dst) => pure (.nextMatch v.op mtch ⟨ip, v.anchor, op, dst, hashTable⟩)

/-- The main loop behind a match. -/
def behindMatch {tableType : TableType} (src : Buffer Byte srcSize) (v : Vars tableType cap) :
    Except Fault (Point tableType cap) :=
  -- `ip >= mflimitPlusOne`
  if srcSize + 1 ≤ v.ip + mfLimit then pure (.lastLiterals v.anchor v.op v.dst)
  else do
    let h ← hashPosition src (v.ip - 2) tableType
    let hashTable ← putIndexOnHash (v.ip - 2) h v.hashTable
    let h ← hashPosition src v.ip tableType
    let current := v.ip
    let matchIndex ← getIndexOnHash h hashTable
    assertThat (matchIndex < current)
    let hashTable ← putIndexOnHash current h hashTable
    let there ← read32 src matchIndex
    let here ← read32 src v.ip
    if (tableType = .byU16 ∨ current ≤ matchIndex + distanceMax) ∧ there = here then do
      let dst ← writeByte v.dst v.op 0
      pure (.nextMatch v.op matchIndex { v with op := v.op + 1, dst := dst, hashTable := hashTable })
    else do
      let forwardH ← hashPosition src (v.ip + 1) tableType
      pure (.mainLoop forwardH { v with ip := v.ip + 1, hashTable := hashTable })

/-- The main loop from `_next_match` on. -/
def nextMatch {tableType : TableType} (outputDirective : OutputDirective) (src : Buffer Byte srcSize)
    (token mtch : Nat) (v : Vars tableType cap) : Except Fault (Point tableType cap) := do
  assertThat (v.ip - mtch ≤ distanceMax)
  let dst ← writeLE16 v.dst v.op (v.ip - mtch)
  let op := v.op + 2
  let matchCode ← count src (v.ip + minMatch) (mtch + minMatch) (srcSize - lastLiterals)
  let ip := v.ip + (matchCode + minMatch)
  if outputDirective = .limitedOutput ∧ cap < op + (1 + lastLiterals) + (matchCode + 240) / 255 then
    pure (.full dst)
  else do
    let (op, dst) ← encodeMatchLength dst token op matchCode
    behindMatch src ⟨ip, ip, op, dst, v.hashTable⟩

/-- From a point of the main loop to the next. -/
def compressStep {tableType : TableType} (outputDirective : OutputDirective) (acceleration : Nat)
    (src : Buffer Byte srcSize) : Point tableType cap → Except Fault (Point tableType cap)
  | .mainLoop forwardH v => mainLoop outputDirective acceleration src forwardH v
  | .nextMatch token mtch v => nextMatch outputDirective src token mtch v
  | .lastLiterals anchor op dst => pure (.lastLiterals anchor op dst)
  | .full dst => pure (.full dst)

/-- Encode last literals: the return value, and the destination afterwards. -/
def encodeLastLiterals (outputDirective : OutputDirective) (src : Buffer Byte srcSize) (anchor op : Nat)
    (dst : Buffer Byte cap) : Except Fault (Int × Buffer Byte cap) :=
  let lastRun := srcSize - anchor
  if outputDirective = .limitedOutput ∧ cap < op + lastRun + 1 + (lastRun + 255 - runMask) / 255 then pure (0, dst)
  else do
    let (op, dst) ← writeRunToken dst op lastRun
    let dst ← memcpy dst op src anchor lastRun
    pure ((op + lastRun : Nat), dst)

/-- The main loop and what is behind it. A turn that takes no byte of the source is followed by one that does. -/
def compressLoop {tableType : TableType} (outputDirective : OutputDirective) (acceleration : Nat)
    (src : Buffer Byte srcSize) : (turns : Nat) → Point tableType cap → Except Fault (Int × Buffer Byte cap)
  | _, .lastLiterals anchor op dst => encodeLastLiterals outputDirective src anchor op dst
  | _, .full dst => pure (0, dst)
  | 0, _ => .error .outOfBounds
  | turns + 1, point => do
    let point ← compressStep outputDirective acceleration src point
    compressLoop outputDirective acceleration src turns point

/-- `LZ4_compress_generic_validated`. -/
def compressGenericValidated (outputDirective : OutputDirective) (tableType : TableType) (acceleration : Nat)
    (src : Buffer Byte srcSize) (dst : Buffer Byte cap) : Except Fault (Int × Buffer Byte cap) := do
  assertThat (tableType = .byU16 → srcSize < lz464Klimit)
  assertThat (1 ≤ acceleration)
  if srcSize < minLength then encodeLastLiterals outputDirective src 0 0 dst
  else do
    let hashTable : HashTable tableType := Buffer.fill _ 0
    let h ← hashPosition src 0 tableType
    let hashTable ← putIndexOnHash 0 h hashTable
    let forwardH ← hashPosition src 1 tableType
    compressLoop outputDirective acceleration src (2 * srcSize) (.mainLoop forwardH ⟨1, 0, 0, dst, hashTable⟩)

/-- `LZ4_compress_generic`. -/
def compressGeneric (outputDirective : OutputDirective) (tableType : TableType) (acceleration : Nat)
    (src : Buffer Byte srcSize) (dst : Buffer Byte cap) : Except Fault (Int × Buffer Byte cap) :=
  if maxInputSize < srcSize then pure (0, dst)
  else if srcSize = 0 then
    if outputDirective ≠ .notLimited ∧ cap ≤ 0 then pure (0, dst)
    else do
      let dst ← writeByte dst 0 0
      pure (1, dst)
  else compressGenericValidated outputDirective tableType acceleration src dst

/-- `LZ4_compress_fast`, and `LZ4_compress_fast_extState` on the zeroed context it is given. -/
def compressFast (src : Buffer Byte srcSize) (dst : Buffer Byte cap) (acceleration : Int) :
    Except Fault (Int × Buffer Byte cap) :=
  let acceleration := if acceleration < 1 then accelerationDefault else acceleration
  let acceleration := if accelerationMax < acceleration then accelerationMax else acceleration
  let outputDirective := if compressBound srcSize ≤ cap then OutputDirective.notLimited else .limitedOutput
  let tableType := if srcSize < lz464Klimit then TableType.byU16 else .byU32
  compressGeneric outputDirective tableType acceleration.toNat src dst

/-- `LZ4_compress_default`: the return value, and the destination afterwards. -/
def compressDefault (src : Buffer Byte srcSize) (dst : Buffer Byte cap) : Except Fault (Int × Buffer Byte cap) :=
  compressFast src dst 1

end Zftl.Codec
