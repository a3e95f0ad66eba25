/-
Module: Zftl.Codec.Lz4Decompress
Layer: Codec
Purpose: `LZ4_decompress_safe` of the vendored library. `LZ4_decompress_generic` is translated for the directives of
  that call (`decode_full_block`, `noDict`, `lowPrefix == dst`, `dictSize == 0`), on a 64-bit little-endian machine
  with the fast loop. A pointer into the source or the destination is its distance from the start, and `end - k` is
  compared by adding `k` to the other side. Each label that is the target of a `goto` is a function of its own.
Imports: Zftl.Lib.Lz4Reading
Trusted boundary: human-reviewed translation of LZ4_decompress_generic and the copies it uses in lz4.c
Main exports: Cursor, Outcome, readVariableLength, safeMatchCopy, copyMatchLabel, safeLiteralCopy, safeIteration,
  fastIteration, safeLoop, fastLoop, decompressSafe
Open obligations: none
-/
import Zftl.Lib.Lz4Reading

namespace Zftl.Codec

variable {srcSize cap : Nat}

/-! ### Constants -/

def mlMask : Nat := 15
def runMask : Nat := 15
def minMatch : Nat := 4
def wildCopyLength : Nat := 8
def lastLiterals : Nat := 5
def mfLimit : Nat := 12
def matchSafeguardDistance : Nat := 2 * wildCopyLength - minMatch
def fastLoopSafeDistance : Nat := 64

def inc32table : List Nat := [0, 1, 2, 1, 0, 4, 4, 4]
def dec64table : List Int := [0, 0, 0, -1, -4, 1, 2, 3]

/-! ### Memory -/

/-- `*p`. -/
def readByte (src : Buffer Byte srcSize) (p : Nat) : Except Fault Byte :=
  if inside : p < srcSize then .ok (src ⟨p, inside⟩) else .error .outOfBounds

/-- `LZ4_readLE16`. -/
def readLE16 (src : Buffer Byte srcSize) (p : Nat) : Except Fault Nat := do
  let low ← readByte src p
  let high ← readByte src (p + 1)
  pure (high ++ low : BitVec 16).toNat

/-- `LZ4_write32`, on a little-endian machine. -/
def write32 (dst : Buffer Byte cap) (p : Nat) (value : BitVec 32) : Except Fault (Buffer Byte cap) :=
  memcpy dst p (fun k : Fin 4 => value.extractLsb' (8 * k.val) 8) 0 4

/-- `LZ4_wildCopy8` from the source. -/
def wildCopy8From (src : Buffer Byte srcSize) (dst : Buffer Byte cap) (d s e : Nat) :
    Except Fault (Buffer Byte cap) :=
  copyRounds 8 (Nat.succ_pos 7) (fun dst d s => memcpy dst d src s 8) dst d s e

/-- `LZ4_wildCopy8` inside the destination. -/
def wildCopy8 (dst : Buffer Byte cap) (d s e : Nat) : Except Fault (Buffer Byte cap) :=
  copyRounds 8 (Nat.succ_pos 7) (fun dst d s => moveWithin dst d s 8) dst d s e

/-- `LZ4_wildCopy32` from the source. -/
def wildCopy32From (src : Buffer Byte srcSize) (dst : Buffer Byte cap) (d s e : Nat) :
    Except Fault (Buffer Byte cap) :=
  copyRounds 32 (Nat.succ_pos 31) (fun dst d s => do
    let dst ← memcpy dst d src s 16
    memcpy dst (d + 16) src (s + 16) 16) dst d s e

/-- `LZ4_wildCopy32` inside the destination. -/
def wildCopy32 (dst : Buffer Byte cap) (d s e : Nat) : Except Fault (Buffer Byte cap) :=
  copyRounds 32 (Nat.succ_pos 31) (fun dst d s => do
    let dst ← moveWithin dst d s 16
    moveWithin dst (d + 16) (s + 16) 16) dst d s e

/-- `while (op < cpy) { *op++ = *match++; }`. -/
def copyBytes (dst : Buffer Byte cap) (op mtch cpy : Nat) : Except Fault (Buffer Byte cap) :=
  if op < cpy then do
    let dst ← moveWithin dst op mtch 1
    copyBytes dst (op + 1) (mtch + 1) cpy
  else pure dst
termination_by cpy - op

/-- `LZ4_memcpy_using_offset_base`; `match` is `srcPtr`. -/
def memcpyUsingOffsetBase (dst : Buffer Byte cap) (dstPtr srcPtr dstEnd offset : Nat) :
    Except Fault (Buffer Byte cap) :=
  if offset < 8 then do
    let dst ← write32 dst dstPtr 0
    let dst ← moveWithin dst dstPtr srcPtr 2
    let dst ← moveWithin dst (dstPtr + 2) (srcPtr + 2) 2
    let srcPtr := srcPtr + inc32table.getD offset 0
    let dst ← moveWithin dst (dstPtr + 4) srcPtr 4
    wildCopy8 dst (dstPtr + 8) ((srcPtr : Int) - dec64table.getD offset 0).toNat dstEnd
  else do
    let dst ← moveWithin dst dstPtr srcPtr 8
    wildCopy8 dst (dstPtr + 8) (srcPtr + 8) dstEnd

/-- The eight bytes `v` of `LZ4_memcpy_using_offset`, for an offset of 1, 2 or 4. -/
def offsetPattern (dst : Buffer Byte cap) (srcPtr offset : Nat) : Except Fault (Option (Buffer Byte 8)) :=
  let v : Buffer Byte 8 := Buffer.fill 8 0
  match offset with
  | 1 => do
    let byte ← readByte dst srcPtr
    pure (some (Buffer.fill 8 byte))
  | 2 => do
    let v ← memcpy v 0 dst srcPtr 2
    let v ← memcpy v 2 dst srcPtr 2
    let v ← memcpy v 4 v 0 4
    pure (some v)
  | 4 => do
    let v ← memcpy v 0 dst srcPtr 4
    let v ← memcpy v 4 dst srcPtr 4
    pure (some v)
  | _ => pure none

/-- `LZ4_memcpy_using_offset`. -/
def memcpyUsingOffset (dst : Buffer Byte cap) (dstPtr srcPtr dstEnd offset : Nat) :
    Except Fault (Buffer Byte cap) := do
  match ← offsetPattern dst srcPtr offset with
  | some v => copyRounds 8 (Nat.succ_pos 7) (fun dst d _ => memcpy dst d v 0 8) dst dstPtr 0 dstEnd
  | none => memcpyUsingOffsetBase dst dstPtr srcPtr dstEnd offset

/-! ### The decoder -/

/-- `ip`, `op` and the destination. -/
structure Cursor (cap : Nat) where
  ip : Nat
  op : Nat
  dst : Buffer Byte cap

/-- Where a turn of a loop leads: to the next turn, out of the loop with the last literals, or to
    `_output_error`. -/
inductive Outcome (cap : Nat) where
  | next (c : Cursor cap)
  | finished (c : Cursor cap)
  | outputError (c : Cursor cap)

/-- The rest of `read_variable_length`, with `length` gathered so far; `ilimit` is `iend - reserve`. -/
def readMore (src : Buffer Byte srcSize) (reserve ip length : Nat) : Except Fault (Option Nat × Nat) :=
  if srcSize ≤ ip + reserve then .ok (none, ip)
  else do
    let s ← readByte src ip
    if s = 255 then readMore src reserve (ip + 1) (length + 255) else pure (some (length + s.toNat), ip + 1)
termination_by srcSize - ip

/-- `read_variable_length`: the length, or `rvl_error`, and `ip` afterwards. -/
def readVariableLength (src : Buffer Byte srcSize) (reserve ip : Nat) : Except Fault (Option Nat × Nat) :=
  readMore src reserve ip 0

/-- The first eight bytes of a match, and `match` afterwards. -/
def copyFirstEight (dst : Buffer Byte cap) (op mtch offset : Nat) : Except Fault (Buffer Byte cap × Nat) :=
  if offset < 8 then do
    let dst ← write32 dst op 0
    let dst ← moveWithin dst op mtch 1
    let dst ← moveWithin dst (op + 1) (mtch + 1) 1
    let dst ← moveWithin dst (op + 2) (mtch + 2) 1
    let dst ← moveWithin dst (op + 3) (mtch + 3) 1
    let mtch := mtch + inc32table.getD offset 0
    let dst ← moveWithin dst (op + 4) mtch 4
    pure (dst, ((mtch : Int) - dec64table.getD offset 0).toNat)
  else do
    let dst ← moveWithin dst op mtch 8
    pure (dst, mtch + 8)

/-- A match near the end of the destination, behind its first eight bytes. -/
def copyNearEnd (dst : Buffer Byte cap) (op mtch cpy : Nat) : Except Fault (Buffer Byte cap) :=
  let oCopyLimit := cap - (wildCopyLength - 1)
  if op < oCopyLimit then do
    let dst ← wildCopy8 dst op mtch oCopyLimit
    copyBytes dst oCopyLimit (mtch + (oCopyLimit - op)) cpy
  else copyBytes dst op mtch cpy

/-- `safe_match_copy`; `match` is `op - offset`. -/
def safeMatchCopy (c : Cursor cap) (length offset : Nat) : Except Fault (Outcome cap) :=
  -- `match + dictSize < lowPrefix`
  if c.op < offset then .ok (.outputError c)
  else do
    let cpy := c.op + length
    let (dst, mtch) ← copyFirstEight c.dst c.op (c.op - offset) offset
    let op := c.op + 8
    if cap < cpy + matchSafeguardDistance then
      if cap < cpy + lastLiterals then pure (.outputError ⟨c.ip, op, dst⟩)
      else do
        let dst ← copyNearEnd dst op mtch cpy
        pure (.next ⟨c.ip, cpy, dst⟩)
    else do
      let dst ← moveWithin dst op mtch 8
      let dst ← if 16 < length then wildCopy8 dst (op + 8) (mtch + 8) cpy else pure dst
      pure (.next ⟨c.ip, cpy, dst⟩)

/-- `_copy_match`; `length` is the low nibble of the token. -/
def copyMatchLabel (src : Buffer Byte srcSize) (c : Cursor cap) (length offset : Nat) :
    Except Fault (Outcome cap) :=
  if length = mlMask then do
    match ← readVariableLength src (1 + lastLiterals) c.ip with
    | (none, ip) => pure (.outputError { c with ip := ip })
    | (some addl, ip) => safeMatchCopy { c with ip := ip } (length + addl + minMatch) offset
  else safeMatchCopy c (length + minMatch) offset

/-- `token >> ML_BITS`. -/
def literalNibble (token : Byte) : Nat := (token >>> 4).toNat

/-- `token & ML_MASK`. -/
def matchNibble (token : Byte) : Nat := (token &&& 15).toNat

/-- `safe_literal_copy`. -/
def safeLiteralCopy (src : Buffer Byte srcSize) (c : Cursor cap) (token : Byte) (length : Nat) :
    Except Fault (Outcome cap) :=
  let cpy := c.op + length
  if cap < cpy + mfLimit ∨ srcSize < c.ip + length + (2 + 1 + lastLiterals) then
    -- this must be the last run of literals
    if c.ip + length ≠ srcSize ∨ cap < cpy then .ok (.outputError c)
    else do
      let dst ← memcpy c.dst c.op src c.ip length
      pure (.finished ⟨c.ip + length, c.op + length, dst⟩)
  else do
    let dst ← wildCopy8From src c.dst c.op c.ip cpy
    let ip := c.ip + length
    let offset ← readLE16 src ip
    copyMatchLabel src ⟨ip + 2, cpy, dst⟩ (matchNibble token) offset

/-- `safe_literal_copy_early`; `length` is the high nibble of the token. -/
def safeLiteralCopyEarly (src : Buffer Byte srcSize) (c : Cursor cap) (token : Byte) (length : Nat) :
    Except Fault (Outcome cap) :=
  if length = runMask then do
    match ← readVariableLength src runMask c.ip with
    | (none, ip) => pure (.outputError { c with ip := ip })
    | (some addl, ip) => safeLiteralCopy src { c with ip := ip } token (length + addl)
  else safeLiteralCopy src c token length

/-- The eighteen bytes that stand for a short match with an offset of eight or more. -/
def copyEighteen (dst : Buffer Byte cap) (op mtch : Nat) : Except Fault (Buffer Byte cap) := do
  let dst ← moveWithin dst op mtch 8
  let dst ← moveWithin dst (op + 8) (mtch + 8) 8
  moveWithin dst (op + 16) (mtch + 16) 2

/-- One turn of the safe loop. -/
def safeIteration (src : Buffer Byte srcSize) (c : Cursor cap) : Except Fault (Outcome cap) := do
  let token ← readByte src c.ip
  let ip := c.ip + 1
  let length := literalNibble token
  if length ≠ runMask ∧ ip + (14 + 2) < srcSize ∧ c.op + (14 + 18) ≤ cap then
    -- the shortcut
    let dst ← memcpy c.dst c.op src ip 16
    let op := c.op + length
    let ip := ip + length
    let length := matchNibble token
    let offset ← readLE16 src ip
    let ip := ip + 2
    if length ≠ mlMask ∧ 8 ≤ offset ∧ offset ≤ op then
      let dst ← copyEighteen dst op (op - offset)
      pure (.next ⟨ip, op + (length + minMatch), dst⟩)
    else copyMatchLabel src ⟨ip, op, dst⟩ length offset
  else safeLiteralCopyEarly src ⟨ip, c.op, c.dst⟩ token length

/-- Where a turn of the fast loop leads: to the next turn, or on with the outcome of the label it jumps to. -/
inductive FastJump (cap : Nat) where
  | again (c : Cursor cap)
  | leave (outcome : Outcome cap)

/-- The match of a turn of the fast loop that cannot be copied as eighteen bytes. -/
def fastMatchCopy (c : Cursor cap) (length offset : Nat) : Except Fault (FastJump cap) :=
  if c.op < offset then .ok (.leave (.outputError c))
  else do
    let cpy := c.op + length
    let dst ←
      if offset < 16 then memcpyUsingOffset c.dst c.op (c.op - offset) cpy offset
      else wildCopy32 c.dst c.op (c.op - offset) cpy
    pure (.again ⟨c.ip, cpy, dst⟩)

/-- The rest of a turn of the fast loop, behind the literals. -/
def fastMatch (src : Buffer Byte srcSize) (c : Cursor cap) (token : Byte) : Except Fault (FastJump cap) := do
  let offset ← readLE16 src c.ip
  let c := { c with ip := c.ip + 2 }
  let length := matchNibble token
  if length = mlMask then
    match ← readVariableLength src (1 + lastLiterals) c.ip with
    | (none, ip) => pure (.leave (.outputError { c with ip := ip }))
    | (some addl, ip) =>
      let c := { c with ip := ip }
      let length := length + addl + minMatch
      if cap ≤ c.op + length + fastLoopSafeDistance then
        let outcome ← safeMatchCopy c length offset
        pure (.leave outcome)
      else fastMatchCopy c length offset
  else
    let length := length + minMatch
    if cap ≤ c.op + length + fastLoopSafeDistance then
      let outcome ← safeMatchCopy c length offset
      pure (.leave outcome)
    else if offset ≤ c.op ∧ 8 ≤ offset then
      let dst ← copyEighteen c.dst c.op (c.op - offset)
      pure (.again ⟨c.ip, c.op + length, dst⟩)
    else fastMatchCopy c length offset

/-- One turn of the fast loop. -/
def fastIteration (src : Buffer Byte srcSize) (c : Cursor cap) : Except Fault (FastJump cap) := do
  let token ← readByte src c.ip
  let ip := c.ip + 1
  let length := literalNibble token
  if srcSize < ip + (16 + 1) then
    let outcome ← safeLiteralCopyEarly src ⟨ip, c.op, c.dst⟩ token length
    pure (.leave outcome)
  else if length = runMask then
    match ← readVariableLength src runMask ip with
    | (none, ip) => pure (.leave (.outputError ⟨ip, c.op, c.dst⟩))
    | (some addl, ip) =>
      let length := length + addl
      let cpy := c.op + length
      if cap < cpy + 32 ∨ srcSize < ip + length + 32 then
        let outcome ← safeLiteralCopy src ⟨ip, c.op, c.dst⟩ token length
        pure (.leave outcome)
      else
        let dst ← wildCopy32From src c.dst c.op ip cpy
        fastMatch src ⟨ip + length, cpy, dst⟩ token
  else
    let dst ← memcpy c.dst c.op src ip 16
    fastMatch src ⟨ip + length, c.op + length, dst⟩ token

/-- The safe loop. Each turn takes a byte of the source, so `srcSize` turns are enough: what is not over by then
    is left as `next`. -/
def safeLoop (src : Buffer Byte srcSize) : (turns : Nat) → Cursor cap → Except Fault (Outcome cap)
  | 0, c => .ok (.next c)
  | turns + 1, c => do
    match ← safeIteration src c with
    | .next c => safeLoop src turns c
    | outcome => pure outcome

/-- The fast loop, and the safe loop behind it. -/
def fastLoop (src : Buffer Byte srcSize) : (turns : Nat) → Cursor cap → Except Fault (Outcome cap)
  | 0, c => .ok (.next c)
  | turns + 1, c => do
    match ← fastIteration src c with
    | .again c => fastLoop src turns c
    | .leave (.next c) => safeLoop src turns c
    | .leave outcome => pure outcome

/-- `LZ4_decompress_safe`: the return value, and the destination afterwards. -/
def decompressSafe (src : Buffer Byte srcSize) (dst : Buffer Byte cap) : Except Fault (Int × Buffer Byte cap) :=
  if cap = 0 then
    .ok (if srcSize = 1 ∧ src.suffix 0 = [0] then 0 else -1, dst)
  else if srcSize = 0 then .ok (-1, dst)
  else do
    let start : Cursor cap := ⟨0, 0, dst⟩
    let outcome ← if cap < fastLoopSafeDistance then safeLoop src srcSize start else fastLoop src srcSize start
    match outcome with
    | .finished c => pure (c.op, c.dst)
    | .outputError c => pure (-(c.ip : Int) - 1, c.dst)
    -- not reached: the turns are enough
    | .next _ => .error .outOfBounds

end Zftl.Codec
