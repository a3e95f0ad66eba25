/-
Module: Zftl.Codec.HardwareDecoding
Layer: Codec
Purpose: The vendored library beside the hardware decompressor. The hardware decodes whatever the library compresses, up
  to the 4096 bytes of its history; and on every block of the format that both decoders accept they produce the same
  bytes. The library refuses more, but no block that ends as the format asks and fits its destination.
Imports: Zftl.Codec.CompressRun, Zftl.Codec.DecompressRun, Zftl.Rtl.BlockDecoding
Trusted boundary: none
Main exports: Encodes.strict, compressed_decodes, decoders_agree
Open obligations: none
-/
import Zftl.Codec.CompressRun
import Zftl.Codec.DecompressRun
import Zftl.Rtl.BlockDecoding

namespace Zftl.Codec

open Buffer Lz4Format Rtl Rtl.Bench

variable {srcSize cap : Nat} {dut : Decompressor} {schedule : Schedule}

/-- What the compressor writes of a source that is not empty is a block of the format. -/
theorem Encodes.strict {src : Buffer Byte srcSize} {dst : Buffer Byte cap} {n : Int} {block : LooseBlock}
    (encodes : Encodes src dst n block) (srcPos : 0 < srcSize) :
    ∃ strict : Block, strict.encode = block.encode ∧ strict.decode = src.suffix 0 := by
  have nonempty : block.lastLiterals ≠ [] := by
    intro none
    have decode := congrArg List.length encodes.decode
    have endsWell := encodes.endsWell
    rw [length_suffix, LooseBlock.decode, none, List.append_nil] at decode
    rw [none] at endsWell
    cases last : block.sequences.getLast? with
    | none =>
      rw [List.getLast?_eq_none_iff.mp last, List.foldl_nil, List.length_nil] at decode
      omega
    | some sequence => exact absurd (endsWell sequence last).1 (by decide)
  obtain ⟨strict, rfl⟩ := LooseBlock.strict encodes.positive nonempty
  exact ⟨strict, strict.loose_encode.symm, by rw [← strict.loose_decode, encodes.decode]⟩

/-- The hardware decompressor, fed back to back with what the library makes of a source of at most 4096 bytes, gives the
    source back to a sink that is always ready. -/
theorem compressed_decodes (reached : dut.Reached) (idle : dut.state = .idle) (src : Buffer Byte srcSize)
    (dst : Buffer Byte cap) (acceleration : Int) (srcPos : 0 < srcSize) (fits : srcSize ≤ maxBlockSize) (lead : Nat)
    (started : schedule.start 0 = true) (sink : ∀ t, schedule.ready t = true) :
    ∃ n dst', compressFast src dst acceleration = .ok (n, dst') ∧
      ((n = 0 ∧ cap < compressBound srcSize) ∨
        ∃ T, ((load dut (Offer.backToBack lead (dst'.slice 0 n.toNat))).run schedule T).dut.state = .done ∧
          ((load dut (Offer.backToBack lead (dst'.slice 0 n.toNat))).run schedule T).dut.decompressedBytes.toNat =
            srcSize ∧
          ∀ t, T < t → ((load dut (Offer.backToBack lead (dst'.slice 0 n.toNat))).run schedule t).accepted =
            tagged (src.suffix 0)) := by
  have supported : srcSize ≤ maxInputSize := Nat.le_trans fits (by decide)
  obtain ⟨n, dst', ok, refused | ⟨block, encodes⟩⟩ := compressFast_encodes src dst acceleration supported
  · exact ⟨n, dst', ok, Or.inl refused⟩
  refine ⟨n, dst', ok, Or.inr ?_⟩
  obtain ⟨strict, bytes, decoded⟩ := encodes.strict srcPos
  have written : dst'.slice 0 n.toNat = strict.encode := by
    rw [encodes.length, Int.toNat_natCast, encodes.begins, bytes]
  have length : strict.decode.length = srcSize := by rw [decoded, length_suffix, Nat.sub_zero]
  have calm := calmRun_of_led (led_load idle lead strict.encode) sink
  obtain ⟨T, finished, delivered⟩ :=
    calmRun_decodes reached idle (by rw [length]; exact fits) (Offer.bytes_backToBack lead strict.encode) started calm
  rw [written]
  refine ⟨T, finished.state, ?_, ?_⟩
  · rw [finished.counted, length]
  · rw [← decoded]
    exact delivered

/-- Sixty bytes with two runs, compressed by the library and decoded by the hardware after its power-up. -/
theorem runs_decodes :
    ∃ n dst', compressFast (fun i : Fin 60 => if i.val < 40 then 7 else BitVec.ofNat 8 i) (Buffer.fill 100 0) 1 =
        .ok (n, dst') ∧
      ((n = 0 ∧ 100 < compressBound 60) ∨
        ∃ T, ((load (powerUp fun _ => 0) (Offer.backToBack 0 (dst'.slice 0 n.toNat))).run pulse T).dut.state =
            .done ∧
          ((load (powerUp fun _ => 0)
            (Offer.backToBack 0 (dst'.slice 0 n.toNat))).run pulse T).dut.decompressedBytes.toNat = 60 ∧
          ∀ t, T < t → ((load (powerUp fun _ => 0)
              (Offer.backToBack 0 (dst'.slice 0 n.toNat))).run pulse t).accepted =
            tagged (Buffer.suffix (fun i : Fin 60 => if i.val < 40 then 7 else BitVec.ofNat 8 i) 0)) :=
  compressed_decodes (powerUp_reached _) rfl _ _ 1 (by decide) (by decide) 0 rfl fun _ => rfl

/-- The two decoders on a block of the format of at most 4096 decoded bytes: whatever destination the library is given,
    if it accepts the block then the hardware delivers the same bytes; and it accepts if the block ends as the format
    asks and fits. -/
theorem decoders_agree (reached : dut.Reached) (idle : dut.state = .idle) (block : Block) (src : Buffer Byte srcSize)
    (dst : Buffer Byte cap) (bytes : src.suffix 0 = block.encode) (fits : block.decode.length ≤ maxBlockSize)
    (lead : Nat) (started : schedule.start 0 = true) (sink : ∀ t, schedule.ready t = true) :
    ∃ n dst', decompressSafe src dst = .ok (n, dst') ∧
      (0 ≤ n → (load dut (Offer.backToBack lead block.encode)).Delivers schedule (tagged (dst'.slice 0 n.toNat))) ∧
      (EndsWell block.loose.sequences block.lastLiterals → block.decode.length ≤ cap → 0 ≤ n) := by
  have calm := calmRun_of_led (led_load idle lead block.encode) sink
  obtain ⟨T, -, delivered⟩ :=
    calmRun_decodes reached idle fits (Offer.bytes_backToBack lead block.encode) started calm
  have loose : src.suffix 0 = block.loose.encode := bytes.trans block.loose_encode.symm
  obtain ⟨n, dst', ok, -, -, sound⟩ := decompressSafe_sound src dst
  refine ⟨n, dst', ok, fun accepted => ⟨T + 1, fun t later => ?_⟩, fun endsWell inside => ?_⟩
  · obtain ⟨read, encoded, length, produced⟩ := sound accepted
    have same := LooseBlock.decode_eq_of_encode_eq (encoded.symm.trans loose)
    rw [delivered t later, length, Int.toNat_natCast, produced, same, block.loose_decode]
  · have capPos : 0 < cap := by
      have positive := List.length_pos_iff.mpr block.lastLiterals_ne
      rw [Block.decode, List.length_append] at inside
      omega
    obtain ⟨m, out, ok', outcome⟩ := decompressSafe_endsWell block.loose src dst loose endsWell capPos
    have same := Except.ok.inj (ok.symm.trans ok')
    rw [block.loose_decode, if_pos inside] at outcome
    rw [(Prod.mk.inj same).1, outcome.1]
    exact Int.natCast_nonneg _

/-- One literal, eight bytes copied from it, and five literals. -/
def shortRun : Block :=
  { sequences := [
      { literals := [0x41], offset := 1, matchLength := 8
        offset_pos := by decide, offset_lt := by decide, matchLength_ge := by decide }]
    lastLiterals := [0x42, 0x43, 0x44, 0x45, 0x46]
    offsetsInside := ⟨by decide, trivial⟩
    lastLiterals_ne := by decide }

/-- Both decoders on a short run. -/
theorem shortRun_agree :
    ∃ n dst', decompressSafe (ofList shortRun.encode) (Buffer.fill 20 0 : Buffer Byte 20) = .ok (n, dst') ∧
      (0 ≤ n → (load (powerUp fun _ => 0) (Offer.backToBack 0 shortRun.encode)).Delivers pulse
        (tagged (dst'.slice 0 n.toNat))) ∧
      (EndsWell shortRun.loose.sequences shortRun.lastLiterals → shortRun.decode.length ≤ 20 → 0 ≤ n) :=
  decoders_agree (powerUp_reached _) rfl shortRun _ _ (suffix_ofList _) (by decide) 0 rfl fun _ => rfl

end Zftl.Codec
