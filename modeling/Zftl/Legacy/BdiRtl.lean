/-
Module: Zftl.Legacy.BdiRtl
Layer: Legacy
Purpose: The hardware encoder and decoder of cache lines, register for register, and the two places where the
  memory controller uses them: the word its write channel sends to the DRAM, and the line its read channel makes
  of a word that comes back. A `posedge` is one clock edge; its right-hand sides read the wires of that edge.
Imports: Zftl.Lib.BaseDelta
Trusted boundary: human-reviewed translation of bdi_encoder_64b.v, bdi_decoder_64b.v and of the states W_COMPRESS,
  R_DRAM_READ and R_DECOMPRESS of hyper_ram_axi_top.v
Main exports: BdiEncoder, BdiEncoder.posedge, BdiDecoder, BdiDecoder.posedge, decoded, AxiTop.dramWdata, AxiTop.rdata
Open obligations: none
-/
import Zftl.Lib.BaseDelta

namespace Zftl.Legacy

open BaseDelta

/-- The pattern tags of the two modules; the encoder has the first, second, third, sixth and last. -/
inductive Pat where
  | zeros
  | repWord
  | base8Delta1
  | base8Delta2
  | base8Delta4
  | base4Delta1
  | base4Delta2
  | base2Delta1
  | uncompressed
deriving Repr, DecidableEq

/-- The values of the `localparam`s. -/
def Pat.value : Pat → BitVec 4
  | .zeros => 0x0
  | .repWord => 0x1
  | .base8Delta1 => 0x2
  | .base8Delta2 => 0x3
  | .base8Delta4 => 0x4
  | .base4Delta1 => 0x5
  | .base4Delta2 => 0x6
  | .base2Delta1 => 0x7
  | .uncompressed => 0xF

/-! ### The encoder -/

/-- The output registers of `bdi_encoder_64b`. -/
structure BdiEncoder where
  compDataOut : BitVec 512
  patternTag : BitVec 4
  compSizeBytes : BitVec 7
  compressValid : Bool

namespace BdiEncoder

/-- `is_rep_word`: each 64-bit word equals the next one. -/
def IsRepWord (rawLineIn : BitVec 512) : Prop :=
  ∀ i, i < 7 → field 64 rawLineIn i = field 64 rawLineIn (i + 1)

instance (rawLineIn : BitVec 512) : Decidable (IsRepWord rawLineIn) :=
  inferInstanceAs (Decidable (∀ i, i < 7 → field 64 rawLineIn i = field 64 rawLineIn (i + 1)))

/-- `is_b8d1`. -/
def IsB8d1 (rawLineIn : BitVec 512) : Prop := DeltasFit 64 8 8 rawLineIn

instance (rawLineIn : BitVec 512) : Decidable (IsB8d1 rawLineIn) :=
  inferInstanceAs (Decidable (DeltasFit 64 8 8 rawLineIn))

/-- `is_b4d1`. -/
def IsB4d1 (rawLineIn : BitVec 512) : Prop := DeltasFit 32 8 16 rawLineIn

instance (rawLineIn : BitVec 512) : Decidable (IsB4d1 rawLineIn) :=
  inferInstanceAs (Decidable (DeltasFit 32 8 16 rawLineIn))

/-- The base, and for each other word the difference of the low bytes. -/
def b8d1Data (rawLineIn : BitVec 512) : BitVec 512 :=
  layout 512 8 (field 64 rawLineIn 0) fun j =>
    (field 64 rawLineIn j).setWidth 8 - (field 64 rawLineIn 0).setWidth 8

def b4d1Data (rawLineIn : BitVec 512) : BitVec 512 :=
  layout 512 16 (field 32 rawLineIn 0) fun j =>
    (field 32 rawLineIn j).setWidth 8 - (field 32 rawLineIn 0).setWidth 8

/-- The asynchronous reset. -/
def reset : BdiEncoder :=
  { compDataOut := 0, patternTag := Pat.uncompressed.value, compSizeBytes := 64, compressValid := false }

/-- A clock edge with the reset inactive. -/
def posedge (r : BdiEncoder) (compressEn : Bool) (rawLineIn : BitVec 512) : BdiEncoder :=
  if compressEn then
    if rawLineIn = 0 then
      { compressValid := true, patternTag := Pat.zeros.value, compSizeBytes := 0, compDataOut := 0 }
    else if IsRepWord rawLineIn then
      { compressValid := true, patternTag := Pat.repWord.value, compSizeBytes := 16,
        compDataOut := (field 64 rawLineIn 0).setWidth 512 }
    else if IsB8d1 rawLineIn then
      { compressValid := true, patternTag := Pat.base8Delta1.value, compSizeBytes := 16,
        compDataOut := b8d1Data rawLineIn }
    else if IsB4d1 rawLineIn then
      { compressValid := true, patternTag := Pat.base4Delta1.value, compSizeBytes := 32,
        compDataOut := b4d1Data rawLineIn }
    else
      { compressValid := true, patternTag := Pat.uncompressed.value, compSizeBytes := 64,
        compDataOut := rawLineIn }
  else { r with compressValid := false }

end BdiEncoder

/-! ### The decoder -/

/-- The words `b8d1_word`, `b8d2_word` and `b4d1_word` side by side. -/
def b8d1Line (compDataIn : BitVec 512) : BitVec 512 := pack 512 (deltaWord 64 8 compDataIn)

def b8d2Line (compDataIn : BitVec 512) : BitVec 512 := pack 512 (deltaWord 64 16 compDataIn)

def b4d1Line (compDataIn : BitVec 512) : BitVec 512 := pack 512 (deltaWord 32 8 compDataIn)

/-- The `case` over the pattern tag. -/
def decoded (patternTag : BitVec 4) (compDataIn : BitVec 512) : BitVec 512 :=
  if patternTag = Pat.zeros.value then 0
  else if patternTag = Pat.repWord.value then pack 512 fun _ => field 64 compDataIn 0
  else if patternTag = Pat.base8Delta1.value then b8d1Line compDataIn
  else if patternTag = Pat.base8Delta2.value then b8d2Line compDataIn
  else if patternTag = Pat.base4Delta1.value then b4d1Line compDataIn
  else if patternTag = Pat.uncompressed.value then compDataIn
  else compDataIn

/-- The output registers of `bdi_decoder_64b`. -/
structure BdiDecoder where
  lineDataOut : BitVec 512
  decompressValid : Bool

namespace BdiDecoder

/-- The asynchronous reset. -/
def reset : BdiDecoder := { lineDataOut := 0, decompressValid := false }

/-- A clock edge with the reset inactive. -/
def posedge (r : BdiDecoder) (decompressEn : Bool) (patternTag : BitVec 4)
    (compDataIn : BitVec 512) : BdiDecoder :=
  if decompressEn then
    { lineDataOut := decoded patternTag compDataIn, decompressValid := true }
  else { r with decompressValid := false }

end BdiDecoder

/-! ### The two channels of the memory controller -/

namespace AxiTop

/-- `W_COMPRESS`: the word the write channel sends to the DRAM for a captured line, once the encoder has it. -/
def dramWdata (encoder : BdiEncoder) (wdata : BitVec 512) : Option (BitVec 512) :=
  let edge := encoder.posedge true wdata
  if edge.compressValid then some edge.compDataOut else none

/-- `R_DRAM_READ` and `R_DECOMPRESS`: the decoder gets the word that comes back, with its bits 3:0 as the tag, and
    its line is the read data. -/
def rdata (decoder : BdiDecoder) (dramRdata : BitVec 512) : Option (BitVec 512) :=
  let edge := decoder.posedge true (dramRdata.extractLsb' 0 4) dramRdata
  if edge.decompressValid then some edge.lineDataOut else none

end AxiTop

end Zftl.Legacy
