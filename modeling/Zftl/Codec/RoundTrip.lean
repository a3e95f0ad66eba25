/-
Module: Zftl.Codec.RoundTrip
Layer: Codec
Purpose: The two halves of the vendored library together. What `LZ4_compress_fast` writes, `LZ4_decompress_safe` reads
  back into any destination that is large enough, and refuses for a smaller one. So the library is an instance of the
  codec that the controller takes as a parameter, and has the behaviour that the controller relies on.
Imports: Zftl.Codec.CompressRun, Zftl.Codec.DecompressRun, Zftl.Controller.Lz4Compressor
Trusted boundary: none
Main exports: compressFast_roundTrip, vendoredLz4, vendoredLz4_roundTrips
Open obligations: none
-/
import Zftl.Codec.CompressRun
import Zftl.Codec.DecompressRun
import Zftl.Controller.Lz4Compressor

namespace Zftl.Codec

open Buffer Lz4Format Fallible

variable {srcSize cap : Nat}

/-- What a call that wrote something has written can be decompressed. -/
theorem Encodes.decompresses {src : Buffer Byte srcSize} {dst : Buffer Byte cap} {n : Int} {block : LooseBlock}
    (encodes : Encodes src dst n block) {outCap : Nat} (out : Buffer Byte outCap) (outPos : 0 < outCap) :
    ∃ m out', decompressSafe (ofList (dst.slice 0 n.toNat)) out = .ok (m, out') ∧
      if srcSize ≤ outCap then m = srcSize ∧ out'.slice 0 srcSize = src.suffix 0 else m < 0 := by
  have decoded : block.decode.length = srcSize := by rw [encodes.decode, length_suffix, Nat.sub_zero]
  have written : dst.slice 0 n.toNat = block.encode := by
    rw [encodes.length, Int.toNat_natCast]
    exact encodes.begins
  obtain ⟨m, out', ok, outcome⟩ :=
    decompressSafe_endsWell block (ofList block.encode) out (suffix_ofList _) encodes.endsWell outPos
  rw [written]
  refine ⟨m, out', ok, ?_⟩
  rwa [decoded, encodes.decode] at outcome

theorem Encodes.positive_length {src : Buffer Byte srcSize} {dst : Buffer Byte cap} {n : Int} {block : LooseBlock}
    (encodes : Encodes src dst n block) : 0 < n := by
  have length := encodes.length
  rw [LooseBlock.encode, List.length_append, lastRun, List.length_cons] at length
  omega

/-- Compressing and decompressing restores the source: with any acceleration, for every source of a supported size, and
    for every destination of the decompression. A destination that is smaller than the source is refused. -/
theorem compressFast_roundTrip (src : Buffer Byte srcSize) (dst : Buffer Byte cap) (acceleration : Int)
    (supported : srcSize ≤ maxInputSize) :
    ∃ n dst', compressFast src dst acceleration = .ok (n, dst') ∧ n ≤ cap ∧ n ≤ compressBound srcSize ∧
      ((n = 0 ∧ cap < compressBound srcSize) ∨ 0 < n ∧
        ∀ outCap (out : Buffer Byte outCap), 0 < outCap →
          ∃ m out', decompressSafe (ofList (dst'.slice 0 n.toNat)) out = .ok (m, out') ∧
            if srcSize ≤ outCap then m = srcSize ∧ out'.slice 0 srcSize = src.suffix 0 else m < 0) := by
  have bound : compressBound srcSize = srcSize + srcSize / 255 + 16 := if_neg (Nat.not_lt.mpr supported)
  obtain ⟨n, dst', ok, ⟨zero, small⟩ | ⟨block, encodes⟩⟩ := compressFast_encodes src dst acceleration supported
  · exact ⟨n, dst', ok, by omega, by omega, Or.inl ⟨zero, small⟩⟩
  · have length := encodes.length
    have inside := encodes.begins.inside
    have within := encodes.bound
    exact ⟨n, dst', ok, by omega, by omega,
      Or.inr ⟨encodes.positive_length, fun outCap out outPos => encodes.decompresses out outPos⟩⟩

/-- Sixty bytes with two runs, compressed into a hundred and back. -/
theorem compressFast_roundTrip_runs :
    (60 : Nat) ≤ maxInputSize ∧
      ∃ n dst', compressFast (fun i : Fin 60 => if i.val < 40 then 7 else BitVec.ofNat 8 i) (Buffer.fill 100 0) 1 =
        .ok (n, dst') ∧ n ≤ 100 ∧ n ≤ compressBound 60 ∧
        ((n = 0 ∧ 100 < compressBound 60) ∨ 0 < n ∧
          ∀ outCap (out : Buffer Byte outCap), 0 < outCap →
            ∃ m out', decompressSafe (ofList (dst'.slice 0 n.toNat)) out = .ok (m, out') ∧
              if 60 ≤ outCap then m = 60 ∧ out'.slice 0 60 =
                Buffer.suffix (fun i : Fin 60 => if i.val < 40 then 7 else BitVec.ofNat 8 i) 0 else m < 0) :=
  ⟨by decide, compressFast_roundTrip _ _ 1 (by decide)⟩

/-! ### The codec of the controller -/

/-- The bytes of a block of the controller. -/
def ofBytes {size : Nat} (bytes : Buffer UInt8 size) : Buffer Byte size := fun i => (bytes i).toBitVec

def toBytes {size : Nat} (bytes : Buffer Byte size) : Buffer UInt8 size := fun i => UInt8.ofBitVec (bytes i)

/-- The return value and the destination; a fault, which neither call has, would leave the latter as it is. -/
def outcome (onFault : Int × Page) (result : Except Fault (Int × Buffer Byte flashPageSize)) : Int × Page :=
  match result with
  | .ok (n, dst) => (n, toBytes dst)
  | .error _ => onFault

/-- The vendored library as the codec of the controller. -/
def vendoredLz4 : Lz4 where
  compressDefault src := outcome (0, src) (compressDefault (ofBytes src) (Buffer.fill flashPageSize 0))
  decompressSafe bytes dest :=
    outcome (-1, dest) (decompressSafe (ofList (bytes.map UInt8.toBitVec)) (ofBytes dest))

theorem slice_toBytes {size : Nat} (bytes : Buffer Byte size) (offset length : Nat) :
    (toBytes bytes).slice offset length = (bytes.slice offset length).map UInt8.ofBitVec := by
  rw [Buffer.slice, Buffer.slice, List.map_take, List.map_drop, List.map_ofFn]
  rfl

/-- A buffer that begins with another one as long is the other one. -/
theorem eq_of_begins {size : Nat} {left right : Buffer Byte size} (same : left.slice 0 size = right.suffix 0) :
    left = right := by
  rw [Buffer.slice, Buffer.suffix, List.drop_zero, List.drop_zero, List.take_of_length_le
    (Nat.le_of_eq List.length_ofFn)] at same
  exact List.ofFn_injective same

theorem flashPageSize_supported : flashPageSize ≤ maxInputSize := by decide

/-- A block of the controller is compressed into a page. -/
theorem compressDefault_page (src : Page) :
    ∃ n dst, compressDefault (ofBytes src) (Buffer.fill flashPageSize 0 : Buffer Byte flashPageSize) = .ok (n, dst) ∧
      n ≤ flashPageSize ∧ (n = 0 ∨ ∃ block, Encodes (ofBytes src) dst n block) := by
  obtain ⟨n, dst, ok, outcome⟩ := compressFast_encodes (ofBytes src)
    (Buffer.fill flashPageSize 0 : Buffer Byte flashPageSize) 1 flashPageSize_supported
  refine ⟨n, dst, ok, ?_, outcome.imp And.left id⟩
  obtain ⟨zero, -⟩ | ⟨block, encodes⟩ := outcome
  · rw [zero]
    exact Int.natCast_nonneg _
  · rw [encodes.length]
    exact Int.ofNat_le.mpr encodes.begins.inside

/-- What was written into a page is decompressed from exactly its bytes. -/
theorem Encodes.restores {src dest : Page} {dst : Buffer Byte flashPageSize} {n : Int} {block : LooseBlock}
    (encodes : Encodes (ofBytes src) dst n block) :
    decompressSafe (ofList (((toBytes dst).slice 0 n.toNat).map UInt8.toBitVec)) (ofBytes dest) =
      .ok ((flashPageSize : Int), ofBytes src) := by
  have decoded : block.decode.length = flashPageSize := by rw [encodes.decode, length_suffix, Nat.sub_zero]
  have bytes : ((toBytes dst).slice 0 n.toNat).map UInt8.toBitVec = block.encode := by
    rw [slice_toBytes, List.map_map, encodes.length, Int.toNat_natCast, encodes.begins]
    exact List.map_id _
  rw [bytes]
  obtain ⟨m, out, ok, outcome⟩ := decompressSafe_endsWell block (ofList block.encode) (ofBytes dest) (suffix_ofList _)
    encodes.endsWell (by decide : 0 < flashPageSize)
  rw [decoded, if_pos (Nat.le_refl _)] at outcome
  obtain ⟨rfl, restored⟩ := outcome
  rw [encodes.decode] at restored
  rw [ok, eq_of_begins restored]

/-- The vendored library has the behaviour that the controller relies on. -/
theorem vendoredLz4_roundTrips : vendoredLz4.RoundTrips := by
  have compressed : ∀ src, vendoredLz4.compressDefault src =
      outcome (0, src) (compressDefault (ofBytes src) (Buffer.fill flashPageSize 0)) := fun _ => rfl
  have decompressed : ∀ bytes dest, vendoredLz4.decompressSafe bytes dest =
      outcome (-1, dest) (decompressSafe (ofList (bytes.map UInt8.toBitVec)) (ofBytes dest)) :=
    fun _ _ => rfl
  refine ⟨fun src => ?_, fun src dest written => ?_⟩
  · obtain ⟨n, dst, ok, inside, -⟩ := compressDefault_page src
    rw [compressed, ok]
    exact inside
  · obtain ⟨n, dst, ok, inside, zero | ⟨block, encodes⟩⟩ := compressDefault_page src
    · rw [compressed, ok, zero] at written
      exact absurd written (Int.lt_irrefl 0)
    · rw [compressed, ok, decompressed]
      exact congrArg (outcome _) encodes.restores

end Zftl.Codec
