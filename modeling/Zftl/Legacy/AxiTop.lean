/-
Module: Zftl.Legacy.AxiTop
Layer: Legacy
Purpose: The AXI memory controller, register for register: the write channel with the encoder, the read channel with
  the decoder, and the DRAM port the two share. Both `always` blocks assign the registers of the port, and where
  both do so at one edge the language leaves open which assignment lasts; an `Edge` says which. The events of an
  edge are read off the pins, except that a command displaced on the port shows in no pin and is reported by the
  registers that lose it.
Imports: Zftl.Lib.Trace, Zftl.Legacy.BdiRtl
Trusted boundary: human-reviewed translation of hyper_ram_axi_top.v
Main exports: Edge, DramPort, PortDrive, WriteChannel, ReadChannel, AxiTop, AxiTop.next,
  AxiTop.step, AtReset
Open obligations: none
-/
import Zftl.Lib.Trace
import Zftl.Legacy.BdiRtl

namespace Zftl.Legacy.AxiTop

/-- The states of the write state machine. -/
inductive WState where
  | idle
  | capture
  | compress
  | dramWrite
  | resp
deriving Repr, DecidableEq

/-- The states of the read state machine. -/
inductive RState where
  | idle
  | dramRead
  | decompress
  | burstEmit
deriving Repr, DecidableEq

/-- The input pins at an edge of `aclk`, and which block's assignments to the DRAM port last. -/
structure Edge (idWidth addrWidth : Nat) where
  awid : BitVec idWidth
  awaddr : BitVec addrWidth
  awlen : BitVec 8
  awvalid : Bool
  wdata : BitVec 512
  wlast : Bool
  wvalid : Bool
  bready : Bool
  arid : BitVec idWidth
  araddr : BitVec addrWidth
  arlen : BitVec 8
  arvalid : Bool
  rready : Bool
  dramRdata : BitVec 512
  dramReady : Bool
  readLast : Bool

variable {idWidth addrWidth : Nat}

/-! ### The DRAM port -/

/-- The registers `dram_cmd_valid`, `dram_cmd_write`, `dram_addr` and `dram_wdata`. -/
structure DramPort (addrWidth : Nat) where
  cmdValid : Bool
  cmdWrite : Bool
  addr : BitVec addrWidth
  wdata : BitVec 512

/-- What a block assigns to them at an edge. -/
structure PortDrive (addrWidth : Nat) where
  cmdValid : Option Bool
  cmdWrite : Option Bool
  addr : Option (BitVec addrWidth)
  wdata : Option (BitVec 512)

namespace PortDrive

def nothing : PortDrive addrWidth :=
  { cmdValid := none, cmdWrite := none, addr := none, wdata := none }

/-- `dram_cmd_valid <= 1'b0`. -/
def release : PortDrive addrWidth := { nothing with cmdValid := some false }

/-- A write command. -/
def write (addr : BitVec addrWidth) (wdata : BitVec 512) : PortDrive addrWidth :=
  { cmdValid := some true, cmdWrite := some true, addr := some addr, wdata := some wdata }

/-- A read command. -/
def read (addr : BitVec addrWidth) : PortDrive addrWidth :=
  { cmdValid := some true, cmdWrite := some false, addr := some addr, wdata := none }

/-- The block assigns `dram_cmd_valid`, as every block that assigns any of the four does. -/
def drives (drive : PortDrive addrWidth) : Bool := drive.cmdValid.isSome

end PortDrive

/-- The assignments of a block take effect. -/
def DramPort.apply (port : DramPort addrWidth) (drive : PortDrive addrWidth) : DramPort addrWidth :=
  { cmdValid := drive.cmdValid.getD port.cmdValid, cmdWrite := drive.cmdWrite.getD port.cmdWrite,
    addr := drive.addr.getD port.addr, wdata := drive.wdata.getD port.wdata }

/-! ### Events -/

/-- What shows of the write side: the handshakes of its three channels, a write the DRAM takes, and a write command
    displaced on the port. -/
inductive WriteEvent (idWidth addrWidth : Nat) where
  | aw (id : BitVec idWidth) (addr : BitVec addrWidth) (len : BitVec 8)
  | w (data : BitVec 512) (last : Bool)
  | dramWrite (addr : BitVec addrWidth) (wdata : BitVec 512)
  | b (id : BitVec idWidth) (resp : BitVec 2)
  | displaced
deriving Repr, DecidableEq

/-- What shows of the read side. -/
inductive ReadEvent (idWidth addrWidth : Nat) where
  | ar (id : BitVec idWidth) (addr : BitVec addrWidth) (len : BitVec 8)
  | dramRead (addr : BitVec addrWidth) (rdata : BitVec 512)
  | r (id : BitVec idWidth) (data : BitVec 512) (resp : BitVec 2) (last : Bool)
  | displaced
deriving Repr, DecidableEq

/-! ### The write channel -/

/-- The registers of the write channel, with those of its encoder. -/
structure WriteChannel (idWidth addrWidth : Nat) where
  state : WState
  activeId : BitVec idWidth
  currAddr : BitVec addrWidth
  burstCount : BitVec 8
  burstLen : BitVec 8
  isLast : Bool
  awready : Bool
  wready : Bool
  bvalid : Bool
  bresp : BitVec 2
  bid : BitVec idWidth
  encCompressEn : Bool
  encRawLine : BitVec 512
  encoder : BdiEncoder
  totalLinesCompressed : BitVec 32
  totalDramBytesSaved : BitVec 32
  compressionOverflowIrq : Bool

namespace WriteChannel

/-- A clock edge with the reset inactive: the registers after it, and what is assigned to the DRAM port. -/
def posedge (c : WriteChannel idWidth addrWidth) (edge : Edge idWidth addrWidth) :
    WriteChannel idWidth addrWidth × PortDrive addrWidth :=
  let next := { c with encoder := c.encoder.posedge c.encCompressEn c.encRawLine }
  match c.state with
  | .idle =>
    if edge.awvalid && c.awready then
      ({ next with
          bvalid := false, activeId := edge.awid, currAddr := edge.awaddr, burstLen := edge.awlen,
          burstCount := 0, awready := false, wready := true, state := .capture }, .nothing)
    else ({ next with bvalid := false }, .nothing)
  | .capture =>
    if edge.wvalid && c.wready then
      ({ next with
          encRawLine := edge.wdata, encCompressEn := true, isLast := edge.wlast, wready := false,
          state := .compress }, .nothing)
    else (next, .nothing)
  | .compress =>
    if c.encoder.compressValid then
      ({ next with
          encCompressEn := false,
          totalLinesCompressed := c.totalLinesCompressed + 1,
          totalDramBytesSaved := c.totalDramBytesSaved + (64 - c.encoder.compSizeBytes.setWidth 32),
          state := .dramWrite }, .write c.currAddr c.encoder.compDataOut)
    else ({ next with encCompressEn := false }, .nothing)
  | .dramWrite =>
    if edge.dramReady then
      if c.burstCount < c.burstLen && !c.isLast then
        ({ next with
            burstCount := c.burstCount + 1, currAddr := c.currAddr + 64, wready := true,
            state := .capture }, .release)
      else
        ({ next with bid := c.activeId, bresp := 0, bvalid := true, state := .resp }, .release)
    else (next, .nothing)
  | .resp =>
    if edge.bready then
      ({ next with bvalid := false, awready := true, state := .idle }, .nothing)
    else (next, .nothing)

end WriteChannel

/-! ### The read channel -/

/-- The registers of the read channel, with those of its decoder. -/
structure ReadChannel (idWidth addrWidth : Nat) where
  state : RState
  activeId : BitVec idWidth
  currAddr : BitVec addrWidth
  burstCount : BitVec 8
  burstLen : BitVec 8
  arready : Bool
  rvalid : Bool
  rlast : Bool
  rresp : BitVec 2
  rdata : BitVec 512
  rid : BitVec idWidth
  decDecompressEn : Bool
  decPatternTag : BitVec 4
  decCompData : BitVec 512
  decoder : BdiDecoder
  totalLinesDecompressed : BitVec 32

namespace ReadChannel

/-- A clock edge with the reset inactive. -/
def posedge (c : ReadChannel idWidth addrWidth) (edge : Edge idWidth addrWidth) :
    ReadChannel idWidth addrWidth × PortDrive addrWidth :=
  let next := { c with decoder := c.decoder.posedge c.decDecompressEn c.decPatternTag c.decCompData }
  match c.state with
  | .idle =>
    if edge.arvalid && c.arready then
      ({ next with
          rvalid := false, rlast := false, activeId := edge.arid, currAddr := edge.araddr,
          burstLen := edge.arlen, burstCount := 0, arready := false, state := .dramRead },
        .read edge.araddr)
    else ({ next with rvalid := false, rlast := false }, .nothing)
  | .dramRead =>
    if edge.dramReady then
      ({ next with
          decCompData := edge.dramRdata, decPatternTag := edge.dramRdata.extractLsb' 0 4,
          decDecompressEn := true, state := .decompress }, .release)
    else (next, .nothing)
  | .decompress =>
    if c.decoder.decompressValid then
      ({ next with
          decDecompressEn := false, rid := c.activeId, rdata := c.decoder.lineDataOut, rresp := 0,
          rlast := decide (c.burstCount = c.burstLen), rvalid := true,
          totalLinesDecompressed := c.totalLinesDecompressed + 1, state := .burstEmit }, .nothing)
    else ({ next with decDecompressEn := false }, .nothing)
  | .burstEmit =>
    if edge.rready && c.rvalid then
      if c.burstCount < c.burstLen then
        ({ next with
            rvalid := false, burstCount := c.burstCount + 1, currAddr := c.currAddr + 64,
            state := .dramRead }, .read (c.currAddr + 64))
      else ({ next with rvalid := false, arready := true, state := .idle }, .nothing)
    else (next, .nothing)

end ReadChannel

/-! ### The controller -/

end AxiTop

/-- The controller: the registers of the two `always` blocks, and the DRAM port both assign. -/
structure AxiTop (idWidth addrWidth : Nat) where
  write : AxiTop.WriteChannel idWidth addrWidth
  read : AxiTop.ReadChannel idWidth addrWidth
  port : AxiTop.DramPort addrWidth

namespace AxiTop

variable {idWidth addrWidth : Nat}

/-- A clock edge with the reset inactive. -/
def posedge (s : AxiTop idWidth addrWidth) (edge : Edge idWidth addrWidth) : AxiTop idWidth addrWidth :=
  let (write, writeDrive) := s.write.posedge edge
  let (read, readDrive) := s.read.posedge edge
  { write := write, read := read,
    port := if edge.readLast then (s.port.apply writeDrive).apply readDrive
      else (s.port.apply readDrive).apply writeDrive }

/-- The write channel waits for the DRAM, or issues its command at this edge, and the read channel has the last
    word on the port. -/
def writeDisplaced (s : AxiTop idWidth addrWidth) (edge : Edge idWidth addrWidth) : Bool :=
  (s.read.posedge edge).2.drives &&
    ((decide (s.write.state = .dramWrite) && !edge.dramReady) ||
      (decide ((s.write.posedge edge).2.cmdValid = some true) && edge.readLast))

/-- The same with the channels exchanged. -/
def readDisplaced (s : AxiTop idWidth addrWidth) (edge : Edge idWidth addrWidth) : Bool :=
  (s.write.posedge edge).2.drives &&
    ((decide (s.read.state = .dramRead) && !edge.dramReady) ||
      (decide ((s.read.posedge edge).2.cmdValid = some true) && !edge.readLast))

/-- The events of the write side at an edge. -/
def writeEvents (s : AxiTop idWidth addrWidth) (edge : Edge idWidth addrWidth) :
    List (WriteEvent idWidth addrWidth) :=
  (if edge.awvalid && s.write.awready then [.aw edge.awid edge.awaddr edge.awlen] else []) ++
  (if edge.wvalid && s.write.wready then [.w edge.wdata edge.wlast] else []) ++
  (if s.port.cmdValid && s.port.cmdWrite && edge.dramReady then [.dramWrite s.port.addr s.port.wdata]
    else []) ++
  (if s.write.bvalid && edge.bready then [.b s.write.bid s.write.bresp] else []) ++
  (if s.writeDisplaced edge then [.displaced] else [])

/-- The events of the read side at an edge. -/
def readEvents (s : AxiTop idWidth addrWidth) (edge : Edge idWidth addrWidth) :
    List (ReadEvent idWidth addrWidth) :=
  (if edge.arvalid && s.read.arready then [.ar edge.arid edge.araddr edge.arlen] else []) ++
  (if s.port.cmdValid && !s.port.cmdWrite && edge.dramReady then
    [.dramRead s.port.addr edge.dramRdata] else []) ++
  (if s.read.rvalid && edge.rready then
    [.r s.read.rid s.read.rdata s.read.rresp s.read.rlast] else []) ++
  (if s.readDisplaced edge then [.displaced] else [])

/-- What shows at an edge. -/
abbrev Shown (idWidth addrWidth : Nat) :=
  List (WriteEvent idWidth addrWidth) × List (ReadEvent idWidth addrWidth)

/-- An edge with its events. -/
def next (s : AxiTop idWidth addrWidth) (edge : Edge idWidth addrWidth) :
    AxiTop idWidth addrWidth × Shown idWidth addrWidth :=
  (s.posedge edge, s.writeEvents edge, s.readEvents edge)

/-- The same as a step that never faults. -/
def step (s : AxiTop idWidth addrWidth) (edge : Edge idWidth addrWidth) :
    Except Fault (AxiTop idWidth addrWidth × Shown idWidth addrWidth) :=
  .ok (s.next edge)

/-- The write channel in reset; `w_active_id` and `w_curr_addr` keep what they hold. -/
def WriteChannel.reset (activeId : BitVec idWidth) (currAddr : BitVec addrWidth) :
    WriteChannel idWidth addrWidth :=
  { state := .idle, activeId := activeId, currAddr := currAddr, burstCount := 0, burstLen := 0,
    isLast := false, awready := true, wready := false, bvalid := false, bresp := 0, bid := 0,
    encCompressEn := false, encRawLine := 0, encoder := BdiEncoder.reset, totalLinesCompressed := 0,
    totalDramBytesSaved := 0, compressionOverflowIrq := false }

/-- The read channel in reset; `r_active_id` and `r_curr_addr` keep what they hold. -/
def ReadChannel.reset (activeId : BitVec idWidth) (currAddr : BitVec addrWidth) :
    ReadChannel idWidth addrWidth :=
  { state := .idle, activeId := activeId, currAddr := currAddr, burstCount := 0, burstLen := 0,
    arready := true, rvalid := false, rlast := false, rresp := 0, rdata := 0, rid := 0,
    decDecompressEn := false, decPatternTag := 0, decCompData := 0, decoder := BdiDecoder.reset,
    totalLinesDecompressed := 0 }

/-- The controller in reset. Of the DRAM port only `dram_cmd_write` is reset. -/
structure AtReset (s : AxiTop idWidth addrWidth) : Prop where
  write : ∃ activeId currAddr, s.write = WriteChannel.reset activeId currAddr
  read : ∃ activeId currAddr, s.read = ReadChannel.reset activeId currAddr
  cmdWrite : s.port.cmdWrite = false

end AxiTop

end Zftl.Legacy
