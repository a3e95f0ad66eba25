/-
Module: Zftl.Legacy.AxiWrites
Layer: Legacy
Purpose: What the write side of the memory controller shows over a whole run, with the read side and the DRAM doing as
  they like. It is a sequence of bursts: an address, the beats, a response with the identifier of the address. A
  beat is taken, and its encoded line is written at its address unless the read channel displaces the command;
  the response is the same either way.
Imports: Zftl.Lib.Transactions, Zftl.Legacy.AxiPort
Trusted boundary: none
Main exports: WriteBeat, WriteBurst, WritePhase, writes_inBursts
Open obligations: none
-/
import Zftl.Lib.Transactions
import Zftl.Legacy.AxiPort

namespace Zftl.Legacy.AxiTop

variable {idWidth addrWidth : Nat}

/-! ### Bursts -/

/-- The registers of the encoder once it has taken a line. -/
def encode (line : BitVec 512) : BdiEncoder := BdiEncoder.reset.posedge true line

/-- A beat of a burst: the line, the flag with it, and how often its command was displaced. -/
structure WriteBeat where
  data : BitVec 512
  last : Bool
  displaced : Nat

/-- A beat is taken; the line it carries is written if nothing displaced the command. -/
def WriteBeat.events (beat : WriteBeat) (addr : BitVec addrWidth) : List (WriteEvent idWidth addrWidth) :=
  .w beat.data beat.last :: (List.replicate beat.displaced .displaced ++
    if beat.displaced = 0 then [.dramWrite addr (encode beat.data).compDataOut] else [])

/-- The beats of a burst, at addresses 64 apart. -/
def beatEvents (addr : BitVec addrWidth) : List WriteBeat → List (WriteEvent idWidth addrWidth)
  | [] => []
  | beat :: beats => beat.events addr ++ beatEvents (addr + 64) beats

structure WriteBurst (idWidth addrWidth : Nat) where
  id : BitVec idWidth
  addr : BitVec addrWidth
  len : BitVec 8
  beats : List WriteBeat

namespace WriteBurst

/-- The burst has room for one more beat, and none of its beats is flagged as the last. -/
def GoesOn (len : BitVec 8) (beats : List WriteBeat) : Prop :=
  beats.length ≤ len.toNat ∧ ∀ beat ∈ beats, beat.last = false

/-- The burst ends with the beat that fills it or is flagged as the last, whichever comes first. -/
def Complete (burst : WriteBurst idWidth addrWidth) : Prop :=
  ∃ front beat, burst.beats = front ++ [beat] ∧ GoesOn burst.len front ∧ ¬GoesOn burst.len (front ++ [beat])

/-- The events before the response. -/
def opening (burst : WriteBurst idWidth addrWidth) : List (WriteEvent idWidth addrWidth) :=
  .aw burst.id burst.addr burst.len :: beatEvents burst.addr burst.beats

/-- The events of a whole burst. -/
def events (burst : WriteBurst idWidth addrWidth) : List (WriteEvent idWidth addrWidth) :=
  burst.opening ++ [.b burst.id 0]

/-- The address of the next beat. -/
def nextAddr (burst : WriteBurst idWidth addrWidth) : BitVec addrWidth :=
  burst.addr + BitVec.ofNat addrWidth (64 * burst.beats.length)

end WriteBurst

theorem addr_succ (addr : BitVec addrWidth) (n : Nat) :
    addr + 64 + BitVec.ofNat addrWidth (64 * n) = addr + BitVec.ofNat addrWidth (64 * (n + 1)) := by
  rw [Nat.mul_succ, Nat.add_comm, BitVec.ofNat_add, BitVec.add_assoc]
  rfl

theorem beatEvents_append (addr : BitVec addrWidth) (beats : List WriteBeat) (beat : WriteBeat) :
    (beatEvents addr (beats ++ [beat]) : List (WriteEvent idWidth addrWidth)) =
      beatEvents addr beats ++ beat.events (addr + BitVec.ofNat addrWidth (64 * beats.length)) := by
  induction beats generalizing addr with
  | nil => simp [beatEvents]
  | cons first beats ih =>
      rw [List.cons_append, beatEvents, beatEvents, ih, addr_succ, List.append_assoc, List.length_cons]

/-- One more beat, behind those there are. -/
def WriteBurst.add (burst : WriteBurst idWidth addrWidth) (beat : WriteBeat) : WriteBurst idWidth addrWidth :=
  { burst with beats := burst.beats ++ [beat] }

theorem WriteBurst.opening_add (burst : WriteBurst idWidth addrWidth) (beat : WriteBeat) :
    (burst.add beat).opening = burst.opening ++ beat.events burst.nextAddr := by
  simp only [opening, add, beatEvents_append, List.cons_append]
  rfl

theorem WriteBurst.nextAddr_add (burst : WriteBurst idWidth addrWidth) (beat : WriteBeat) :
    (burst.add beat).nextAddr = burst.nextAddr + 64 := by
  simp only [nextAddr, add, List.length_append, List.length_singleton, Nat.mul_succ, BitVec.ofNat_add,
    BitVec.add_assoc]
  rfl

/-! ### A burst being served -/

/-- The write command is on the port, with its data. -/
def DramPort.ShowsWrite (port : DramPort addrWidth) (addr : BitVec addrWidth) (wdata : BitVec 512) : Prop :=
  port.Shows true addr ∧ port.wdata = wdata

namespace WriteChannel

/-- The levels of the three outputs that answer the host. -/
structure Ready (c : WriteChannel idWidth addrWidth) (awready wready bvalid : Bool) : Prop where
  awready : c.awready = awready
  wready : c.wready = wready
  bvalid : c.bvalid = bvalid

/-- The registers of the burst: the beats are those that are done. -/
structure Serving (c : WriteChannel idWidth addrWidth) (burst : WriteBurst idWidth addrWidth) : Prop where
  id : c.activeId = burst.id
  len : c.burstLen = burst.len
  count : c.burstCount.toNat = burst.beats.length
  addr : c.currAddr = burst.nextAddr
  goesOn : WriteBurst.GoesOn burst.len burst.beats

end WriteChannel

open WriteChannel WriteBurst

/-- What a burst has shown, in each state of the write channel. -/
inductive WritePhase (c : WriteChannel idWidth addrWidth) (port : DramPort addrWidth) :
    List (WriteEvent idWidth addrWidth) → Prop where
  | idle (state : c.state = .idle) (pins : c.Ready true false false) (off : c.encCompressEn = false)
      (free : port.Free true) : WritePhase c port []
  | capture (burst : WriteBurst idWidth addrWidth) (state : c.state = .capture)
      (pins : c.Ready false true false) (off : c.encCompressEn = false) (free : port.Free true)
      (serving : c.Serving burst) : WritePhase c port burst.opening
  | encoding (burst : WriteBurst idWidth addrWidth) (state : c.state = .compress)
      (pins : c.Ready false false false) (on : c.encCompressEn = true) (free : port.Free true)
      (serving : c.Serving burst) (waits : c.encoder.compressValid = false) :
      WritePhase c port (burst.opening ++ [.w c.encRawLine c.isLast])
  | encoded (burst : WriteBurst idWidth addrWidth) (state : c.state = .compress)
      (pins : c.Ready false false false) (off : c.encCompressEn = false) (free : port.Free true)
      (serving : c.Serving burst) (line : c.encoder = encode c.encRawLine) :
      WritePhase c port (burst.opening ++ [.w c.encRawLine c.isLast])
  | dramWrite (burst : WriteBurst idWidth addrWidth) (displaced : Nat) (state : c.state = .dramWrite)
      (pins : c.Ready false false false) (off : c.encCompressEn = false)
      (serving : c.Serving burst)
      (shows : if displaced = 0 then port.ShowsWrite c.currAddr (encode c.encRawLine).compDataOut else port.Free true) :
      WritePhase c port
        (burst.opening ++ .w c.encRawLine c.isLast :: List.replicate displaced .displaced)
  | resp (burst : WriteBurst idWidth addrWidth) (state : c.state = .resp)
      (pins : c.Ready false false true) (off : c.encCompressEn = false) (free : port.Free true)
      (complete : burst.Complete) (id : c.bid = burst.id) (okay : c.bresp = 0) :
      WritePhase c port burst.opening

/-! ### One edge -/

section Step

variable {s : AxiTop idWidth addrWidth} {edge : Edge idWidth addrWidth}

theorem encode_eq (r : BdiEncoder) (line : BitVec 512) : r.posedge true line = encode line := by
  simp only [encode, BdiEncoder.posedge, if_true]

/-- The events while no write command is on the port or issued. -/
theorem writeEvents_of_free {awready wready bvalid : Bool} (pins : s.write.Ready awready wready bvalid)
    (free : s.port.Free true) (none : (s.write.posedge edge).2 = .nothing) (elsewhere : s.write.state ≠ .dramWrite) :
    s.writeEvents edge =
      (if edge.awvalid && awready then [.aw edge.awid edge.awaddr edge.awlen] else []) ++
        (if edge.wvalid && wready then [.w edge.wdata edge.wlast] else []) ++
        if bvalid && edge.bready then [.b s.write.bid s.write.bresp] else [] := by
  have untaken := free.no_write
  have kept : s.writeDisplaced edge = false := by
    simp [writeDisplaced, none, elsewhere, PortDrive.nothing]
  simp only [writeEvents, pins.awready, pins.wready, pins.bvalid, untaken, kept, Bool.false_and,
    Bool.false_eq_true, if_false, List.append_nil]

/-- The phase after an edge at which the write channel leaves the port alone. -/
theorem free_posedge (free : s.port.Free true) (none : (s.write.posedge edge).2 = .nothing) :
    (s.posedge edge).port.Free true := by
  rw [port_of_write, none, merge_nothing]
  exact (s.read.commands edge).free_apply free

abbrev WriteContinues (s : AxiTop idWidth addrWidth) (edge : Edge idWidth addrWidth)
    (rest : List (WriteEvent idWidth addrWidth)) : Prop :=
  Continues Complete WriteBurst.events (WritePhase (s.posedge edge).write (s.posedge edge).port) rest
    (s.writeEvents edge)

theorem idle_step (state : s.write.state = .idle) (pins : s.write.Ready true false false)
    (off : s.write.encCompressEn = false) (free : s.port.Free true) : WriteContinues s edge [] := by
  have none : (s.write.posedge edge).2 = .nothing := by
    simp only [WriteChannel.posedge, state]
    split <;> rfl
  have free' := free_posedge free none
  rw [WriteContinues, writeEvents_of_free pins free none (by simp [state])]
  have write : (s.posedge edge).write = (s.write.posedge edge).1 := rfl
  cases valid : edge.awvalid with
  | true =>
      have next : (s.posedge edge).write = { s.write with
          encoder := s.write.encoder.posedge s.write.encCompressEn s.write.encRawLine,
          bvalid := false, activeId := edge.awid, currAddr := edge.awaddr, burstLen := edge.awlen,
          burstCount := 0, awready := false, wready := true, state := .capture } := by
        simp [write, WriteChannel.posedge, state, valid, pins.awready]
      have phase : WritePhase (s.posedge edge).write (s.posedge edge).port _ := WritePhase.capture
        { id := edge.awid, addr := edge.awaddr, len := edge.awlen, beats := [] } (by rw [next])
        (by rw [next]; exact ⟨rfl, rfl, rfl⟩) (by rw [next]; exact off) free'
        (by
          rw [next]
          exact ⟨rfl, rfl, rfl, by simp [nextAddr], Nat.zero_le _, fun _ mem => absurd mem List.not_mem_nil⟩)
      exact .inl (by simpa [opening, beatEvents] using phase)
  | false =>
      have next : (s.posedge edge).write = { s.write with
          encoder := s.write.encoder.posedge s.write.encCompressEn s.write.encRawLine, bvalid := false } := by
        simp [write, WriteChannel.posedge, state, valid]
      have phase : WritePhase (s.posedge edge).write (s.posedge edge).port _ := WritePhase.idle
        (by rw [next]; exact state) (by rw [next]; exact ⟨pins.awready, pins.wready, rfl⟩)
        (by rw [next]; exact off) free'
      exact .inl (by simpa using phase)

theorem capture_step (burst : WriteBurst idWidth addrWidth) (state : s.write.state = .capture)
    (pins : s.write.Ready false true false) (off : s.write.encCompressEn = false) (free : s.port.Free true)
    (serving : s.write.Serving burst) : WriteContinues s edge burst.opening := by
  have none : (s.write.posedge edge).2 = .nothing := by
    simp only [WriteChannel.posedge, state]
    split <;> rfl
  have free' := free_posedge free none
  rw [WriteContinues, writeEvents_of_free pins free none (by simp [state])]
  have write : (s.posedge edge).write = (s.write.posedge edge).1 := rfl
  cases valid : edge.wvalid with
  | true =>
      have next : (s.posedge edge).write = { s.write with
          encoder := s.write.encoder.posedge s.write.encCompressEn s.write.encRawLine,
          encRawLine := edge.wdata, encCompressEn := true, isLast := edge.wlast, wready := false,
          state := .compress } := by
        simp [write, WriteChannel.posedge, state, valid, pins.wready]
      have phase : WritePhase (s.posedge edge).write (s.posedge edge).port _ := WritePhase.encoding
        burst (by rw [next]) (by rw [next]; exact ⟨pins.awready, rfl, pins.bvalid⟩) (by rw [next]) free'
        (by rw [next]; exact ⟨serving.id, serving.len, serving.count, serving.addr, serving.goesOn⟩)
        (by rw [next, off]; rfl)
      rw [next] at phase ⊢
      exact .inl (by simpa using phase)
  | false =>
      have next : (s.posedge edge).write = { s.write with
          encoder := s.write.encoder.posedge s.write.encCompressEn s.write.encRawLine } := by
        simp [write, WriteChannel.posedge, state, valid]
      have phase : WritePhase (s.posedge edge).write (s.posedge edge).port _ := WritePhase.capture
        burst (by rw [next]; exact state) (by rw [next]; exact ⟨pins.awready, pins.wready, pins.bvalid⟩)
        (by rw [next]; exact off) free'
        (by rw [next]; exact ⟨serving.id, serving.len, serving.count, serving.addr, serving.goesOn⟩)
      exact .inl (by simpa using phase)

theorem encoding_step (burst : WriteBurst idWidth addrWidth) (state : s.write.state = .compress)
    (pins : s.write.Ready false false false) (on : s.write.encCompressEn = true) (free : s.port.Free true)
    (serving : s.write.Serving burst) (waits : s.write.encoder.compressValid = false) :
    WriteContinues s edge (burst.opening ++ [.w s.write.encRawLine s.write.isLast]) := by
  have none : (s.write.posedge edge).2 = .nothing := by
    simp [WriteChannel.posedge, state, waits]
  rw [WriteContinues, writeEvents_of_free pins free none (by simp [state])]
  have write : (s.posedge edge).write = (s.write.posedge edge).1 := rfl
  have next : (s.posedge edge).write = { s.write with
      encoder := encode s.write.encRawLine, encCompressEn := false } := by
    simp [write, WriteChannel.posedge, state, waits, on, encode_eq]
  have phase : WritePhase (s.posedge edge).write (s.posedge edge).port _ := WritePhase.encoded
    burst (by rw [next]; exact state) (by rw [next]; exact ⟨pins.awready, pins.wready, pins.bvalid⟩)
    (by rw [next]) (free_posedge free none)
    (by rw [next]; exact ⟨serving.id, serving.len, serving.count, serving.addr, serving.goesOn⟩)
    (by rw [next])
  rw [next] at phase ⊢
  exact .inl (by simpa using phase)

/-- The encoder has a line one edge after it was asked to encode it. -/
theorem encode_compressValid (line : BitVec 512) : (encode line).compressValid = true := by
  simp only [encode, BdiEncoder.posedge, if_true]
  split
  · rfl
  · split
    · rfl
    · split
      · rfl
      · split <;> rfl

theorem encoded_step (burst : WriteBurst idWidth addrWidth) (state : s.write.state = .compress)
    (pins : s.write.Ready false false false) (off : s.write.encCompressEn = false) (free : s.port.Free true)
    (serving : s.write.Serving burst) (line : s.write.encoder = encode s.write.encRawLine) :
    WriteContinues s edge (burst.opening ++ [.w s.write.encRawLine s.write.isLast]) := by
  have valid : s.write.encoder.compressValid = true := by rw [line, encode_compressValid]
  have issued : (s.write.posedge edge).2 = .write s.write.currAddr (encode s.write.encRawLine).compDataOut := by
    rw [← line]
    simp [WriteChannel.posedge, state, valid]
  have issues : (s.write.posedge edge).2.Issues true s.write.currAddr := by
    rw [issued]
    exact ⟨rfl, rfl, rfl⟩
  have port := (s.read.commands edge).merge_issues issues s.port (!edge.readLast)
  rw [← port_of_write, issued, Bool.not_not] at port
  have write : (s.posedge edge).write = (s.write.posedge edge).1 := rfl
  have next : (s.posedge edge).write = { s.write with
      encoder := s.write.encoder.posedge false s.write.encRawLine,
      encCompressEn := false,
      totalLinesCompressed := s.write.totalLinesCompressed + 1,
      totalDramBytesSaved :=
        s.write.totalDramBytesSaved + (64 - s.write.encoder.compSizeBytes.setWidth 32),
      state := .dramWrite } := by
    simp [write, WriteChannel.posedge, state, valid, off]
  have untaken := free.no_write
  -- the command is displaced as it is issued, or it is on the port
  have events : s.writeEvents edge =
      if (s.read.posedge edge).2.drives && edge.readLast then [.displaced] else [] := by
    simp [writeEvents, writeDisplaced, pins.awready, pins.wready, pins.bvalid, untaken, state, issued,
      PortDrive.write]
  have phase (displaced : Nat) (shows : if displaced = 0
      then (s.posedge edge).port.ShowsWrite s.write.currAddr (encode s.write.encRawLine).compDataOut
      else (s.posedge edge).port.Free true) : WritePhase (s.posedge edge).write (s.posedge edge).port _ :=
    .dramWrite
      burst displaced (by rw [next]) (by rw [next]; exact ⟨pins.awready, pins.wready, pins.bvalid⟩)
      (by rw [next])
      (by rw [next]; exact ⟨serving.id, serving.len, serving.count, serving.addr, serving.goesOn⟩)
      (by rw [next]; exact shows)
  rw [WriteContinues, events]
  cases lost : (s.read.posedge edge).2.drives && edge.readLast with
  | true =>
      rw [lost, if_pos rfl] at port
      have phase := phase 1 (by rw [if_neg Nat.one_ne_zero]; exact port)
      rw [next] at phase ⊢
      exact .inl (by simpa using phase)
  | false =>
      rw [lost, if_neg Bool.false_ne_true] at port
      have phase := phase 0 (by rw [if_pos rfl]; exact ⟨port.1, port.2 _ rfl⟩)
      rw [next] at phase ⊢
      exact .inl (by simpa using phase)

/-- The condition of `W_DRAM_WRITE` for another beat. -/
theorem goesOn_add (burst : WriteBurst idWidth addrWidth) {c : WriteChannel idWidth addrWidth}
    (serving : c.Serving burst) (displaced : Nat) :
    (c.burstCount < c.burstLen && !c.isLast) = true ↔
      GoesOn burst.len (burst.beats ++ [{ data := c.encRawLine, last := c.isLast, displaced := displaced }]) := by
  have count := serving.count
  have room := serving.goesOn.1
  simp only [GoesOn, List.length_append, List.length_singleton, List.forall_mem_append, List.forall_mem_singleton,
    Bool.and_eq_true, decide_eq_true_eq, Bool.not_eq_true', BitVec.lt_def, serving.len, count]
  constructor
  · intro more
    exact ⟨more.1, serving.goesOn.2, more.2⟩
  · intro more
    exact ⟨more.1, more.2.2⟩

theorem dramWrite_wait_step (burst : WriteBurst idWidth addrWidth) (displaced : Nat)
    (state : s.write.state = .dramWrite) (pins : s.write.Ready false false false)
    (off : s.write.encCompressEn = false) (serving : s.write.Serving burst)
    (shows : if displaced = 0 then s.port.ShowsWrite s.write.currAddr (encode s.write.encRawLine).compDataOut
      else s.port.Free true) (busy : edge.dramReady = false) :
    WriteContinues s edge (burst.opening ++
      .w s.write.encRawLine s.write.isLast :: List.replicate displaced .displaced) := by
  have none : (s.write.posedge edge).2 = .nothing := by
    simp [WriteChannel.posedge, state, busy]
  have port : (s.posedge edge).port = s.port.apply (s.read.posedge edge).2 := by
    rw [port_of_write, none, merge_nothing]
  have write : (s.posedge edge).write = (s.write.posedge edge).1 := rfl
  have next : (s.posedge edge).write = { s.write with
      encoder := s.write.encoder.posedge s.write.encCompressEn s.write.encRawLine } := by
    simp [write, WriteChannel.posedge, state, busy]
  have events : s.writeEvents edge = if (s.read.posedge edge).2.drives then [.displaced] else [] := by
    simp [writeEvents, writeDisplaced, pins.awready, pins.wready, pins.bvalid, busy, state, none,
      PortDrive.nothing]
  have phase (displaced : Nat) (shows : if displaced = 0
      then (s.posedge edge).port.ShowsWrite s.write.currAddr (encode s.write.encRawLine).compDataOut
      else (s.posedge edge).port.Free true) : WritePhase (s.posedge edge).write (s.posedge edge).port _ :=
    .dramWrite
      burst displaced (by rw [next]; exact state)
      (by rw [next]; exact ⟨pins.awready, pins.wready, pins.bvalid⟩) (by rw [next]; exact off)
      (by rw [next]; exact ⟨serving.id, serving.len, serving.count, serving.addr, serving.goesOn⟩)
      (by rw [next]; exact shows)
  rw [WriteContinues, events]
  cases lost : (s.read.posedge edge).2.drives with
  | true =>
      have free : (s.port.apply (s.read.posedge edge).2).Free true :=
        (s.read.commands edge).free_of_drives lost s.port
      have phase := phase (displaced + 1) (by rw [if_neg (Nat.succ_ne_zero _), port]; exact free)
      rw [next] at phase ⊢
      exact .inl (by simpa [List.replicate_succ'] using phase)
  | false =>
      rw [(s.read.commands edge).nothing_of_not_drives lost, DramPort.apply_nothing] at port
      have phase := phase displaced (by rw [port]; exact shows)
      rw [next] at phase ⊢
      exact .inl (by simpa using phase)

/-- What has been shown of a beat, and the write the DRAM takes if the command is still on the port. -/
theorem opening_taken (burst : WriteBurst idWidth addrWidth) (data : BitVec 512) (last : Bool) (displaced : Nat) :
    burst.opening ++ .w data last :: List.replicate displaced .displaced ++
        (if displaced = 0 then [.dramWrite burst.nextAddr (encode data).compDataOut] else []) =
      (burst.add { data := data, last := last, displaced := displaced }).opening := by
  rw [opening_add, WriteBeat.events, List.append_assoc, List.cons_append]

theorem dramWrite_done_step (burst : WriteBurst idWidth addrWidth) (displaced : Nat)
    (state : s.write.state = .dramWrite) (pins : s.write.Ready false false false)
    (off : s.write.encCompressEn = false) (serving : s.write.Serving burst)
    (shows : if displaced = 0 then s.port.ShowsWrite s.write.currAddr (encode s.write.encRawLine).compDataOut
      else s.port.Free true) (ready : edge.dramReady = true) :
    WriteContinues s edge (burst.opening ++
      .w s.write.encRawLine s.write.isLast :: List.replicate displaced .displaced) := by
  have release : (s.write.posedge edge).2 = .release := by
    simp only [WriteChannel.posedge, state, ready, if_true]
    split <;> rfl
  have free : (s.posedge edge).port.Free true := by
    rw [port_of_write, release]
    exact (s.read.commands edge).free_merge_release _
  have write : (s.posedge edge).write = (s.write.posedge edge).1 := rfl
  have kept : s.writeDisplaced edge = false := by
    simp [writeDisplaced, release, ready, PortDrive.release]
  have events : s.writeEvents edge =
      if displaced = 0 then [.dramWrite burst.nextAddr (encode s.write.encRawLine).compDataOut] else [] := by
    by_cases none : displaced = 0
    · rw [if_pos none] at shows
      obtain ⟨shown, data⟩ := shows
      simp [writeEvents, pins.awready, pins.wready, pins.bvalid, shown.cmdValid, shown.cmdWrite, shown.addr, data,
        kept, ready, none, serving.addr]
    · rw [if_neg none] at shows
      have untaken := shows.no_write
      simp [writeEvents, pins.awready, pins.wready, pins.bvalid, untaken, kept, none]
  have more := goesOn_add burst serving displaced
  have counted :
      (burst.add { data := s.write.encRawLine, last := s.write.isLast, displaced := displaced }).beats.length =
      burst.beats.length + 1 := by simp [add]
  rw [WriteContinues, events]
  refine .inl ?_
  rw [opening_taken]
  cases condition : s.write.burstCount < s.write.burstLen && !s.write.isLast with
  | true =>
      have goesOn := more.mp condition
      have room : s.write.burstCount.toNat + 1 < 256 := by
        have below := goesOn.1
        have bound := burst.len.isLt
        rw [List.length_append, List.length_singleton, ← serving.count] at below
        omega
      have next : (s.posedge edge).write = { s.write with
          encoder := s.write.encoder.posedge s.write.encCompressEn s.write.encRawLine,
          burstCount := s.write.burstCount + 1, currAddr := s.write.currAddr + 64, wready := true,
          state := .capture } := by
        simp only [write, WriteChannel.posedge, state, ready, condition, if_true]
      refine .capture _ (by rw [next]) (by rw [next]; exact ⟨pins.awready, rfl, pins.bvalid⟩)
        (by rw [next]; exact off) free ?_
      rw [next]
      refine ⟨serving.id, serving.len, ?_, ?_, goesOn⟩
      · rw [counted, ← serving.count, BitVec.toNat_add]
        exact Nat.mod_eq_of_lt room
      · rw [nextAddr_add, ← serving.addr]
  | false =>
      have next : (s.posedge edge).write = { s.write with
          encoder := s.write.encoder.posedge s.write.encCompressEn s.write.encRawLine,
          bid := s.write.activeId, bresp := 0, bvalid := true, state := .resp } := by
        simp only [write, WriteChannel.posedge, state, ready, condition, if_true, Bool.false_eq_true, if_false]
      refine .resp _ (by rw [next]) (by rw [next]; exact ⟨pins.awready, pins.wready, rfl⟩)
        (by rw [next]; exact off) free ?_ (by rw [next]; exact serving.id) (by rw [next])
      refine ⟨burst.beats, _, rfl, serving.goesOn, fun goesOn => ?_⟩
      rw [more.mpr goesOn] at condition
      cases condition

theorem resp_step (burst : WriteBurst idWidth addrWidth) (state : s.write.state = .resp)
    (pins : s.write.Ready false false true) (off : s.write.encCompressEn = false) (free : s.port.Free true)
    (complete : burst.Complete) (id : s.write.bid = burst.id) (okay : s.write.bresp = 0) :
    WriteContinues s edge burst.opening := by
  have none : (s.write.posedge edge).2 = .nothing := by
    simp only [WriteChannel.posedge, state]
    split <;> rfl
  have free' := free_posedge free none
  rw [WriteContinues, writeEvents_of_free pins free none (by simp [state])]
  have write : (s.posedge edge).write = (s.write.posedge edge).1 := rfl
  cases taken : edge.bready with
  | true =>
      have next : (s.posedge edge).write = { s.write with
          encoder := s.write.encoder.posedge s.write.encCompressEn s.write.encRawLine,
          bvalid := false, awready := true, state := .idle } := by
        simp [write, WriteChannel.posedge, state, taken]
      refine .inr ⟨⟨burst, complete, ?_⟩, ?_⟩
      · simp [WriteBurst.events, id, okay]
      · exact .idle (by rw [next]) (by rw [next]; exact ⟨rfl, pins.wready, rfl⟩) (by rw [next]; exact off) free'
  | false =>
      have next : (s.posedge edge).write = { s.write with
          encoder := s.write.encoder.posedge s.write.encCompressEn s.write.encRawLine } := by
        simp [write, WriteChannel.posedge, state, taken]
      have phase : WritePhase (s.posedge edge).write (s.posedge edge).port _ := WritePhase.resp
        burst (by rw [next]; exact state) (by rw [next]; exact ⟨pins.awready, pins.wready, pins.bvalid⟩)
        (by rw [next]; exact off) free' complete (by rw [next]; exact id) (by rw [next]; exact okay)
      exact .inl (by simpa using phase)

/-- Every edge carries the burst on or finishes it. -/
theorem WritePhase.posedge {rest : List (WriteEvent idWidth addrWidth)}
    (phase : WritePhase s.write s.port rest) (edge : Edge idWidth addrWidth) : WriteContinues s edge rest := by
  cases phase with
  | idle state pins off free => exact idle_step state pins off free
  | capture burst state pins off free serving => exact capture_step burst state pins off free serving
  | encoding burst state pins on free serving waits =>
      exact encoding_step burst state pins on free serving waits
  | encoded burst state pins off free serving line =>
      exact encoded_step burst state pins off free serving line
  | dramWrite burst displaced state pins off serving shows =>
      cases ready : edge.dramReady with
      | true => exact dramWrite_done_step burst displaced state pins off serving shows ready
      | false => exact dramWrite_wait_step burst displaced state pins off serving shows ready
  | resp burst state pins off free complete id okay =>
      exact resp_step burst state pins off free complete id okay

end Step

/-! ### A run -/

theorem AtReset.writePhase {s : AxiTop idWidth addrWidth} (start : AtReset s) : WritePhase s.write s.port [] := by
  obtain ⟨activeId, currAddr, same⟩ := start.write
  refine .idle ?_ ?_ ?_ fun _ => start.cmdWrite
  · rw [same]; rfl
  · rw [same]; exact ⟨rfl, rfl, rfl⟩
  · rw [same]; rfl

/-- A run of the controller, with any pins at every edge. -/
abbrev Run (start : AxiTop idWidth addrWidth)
    (events : List (Edge idWidth addrWidth × Shown idWidth addrWidth)) (s : AxiTop idWidth addrWidth) : Prop :=
  Trace step (fun _ _ => True) start events s

section Run

variable {start s : AxiTop idWidth addrWidth}
  {events : List (Edge idWidth addrWidth × Shown idWidth addrWidth)}

theorem run_writePhase (atReset : AtReset start) (run : Run start events s) :
    Transactions Complete WriteBurst.events (WritePhase s.write s.port)
      (events.flatMap fun event => event.2.1) := by
  refine run.transactions (fun shown => shown.1) (fun s => WritePhase s.write s.port) atReset.writePhase ?_
  intro s edge s' shown rest phase _ stepped
  cases stepped
  exact phase.posedge edge

/-! ### The totals -/

/-- The lines the host has handed over. -/
def takenLines (events : List (WriteEvent idWidth addrWidth)) : List (BitVec 512) :=
  events.filterMap fun event =>
    match event with
    | .w data _ => some data
    | _ => none

/-- The bytes a line is counted to save. -/
def bytesSaved (line : BitVec 512) : Nat := 64 - (encode line).compSizeBytes.toNat

/-- The line that is taken and not yet counted. -/
def WriteChannel.uncounted (c : WriteChannel idWidth addrWidth) : List (BitVec 512) :=
  if c.state = .compress then [c.encRawLine] else []

/-- The totals are those of the lines taken, less the one being encoded, and the overflow interrupt is low. -/
def WriteChannel.Counts (c : WriteChannel idWidth addrWidth) (lines : List (BitVec 512)) : Prop :=
  ∃ counted, lines = counted ++ c.uncounted ∧
    c.totalLinesCompressed = BitVec.ofNat 32 counted.length ∧
    c.totalDramBytesSaved = BitVec.ofNat 32 (counted.map bytesSaved).sum ∧
    c.compressionOverflowIrq = false

theorem compSizeBytes_le (line : BitVec 512) : (encode line).compSizeBytes.toNat ≤ 64 := by
  simp only [encode, BdiEncoder.posedge, if_true]
  split
  · exact Nat.zero_le _
  · split
    · exact (by decide : (16 : BitVec 7).toNat ≤ 64)
    · split
      · exact (by decide : (16 : BitVec 7).toNat ≤ 64)
      · split
        · exact (by decide : (32 : BitVec 7).toNat ≤ 64)
        · exact (by decide : (64 : BitVec 7).toNat ≤ 64)

theorem saved_eq (line : BitVec 512) :
    (64 - (encode line).compSizeBytes.setWidth 32 : BitVec 32) = BitVec.ofNat 32 (bytesSaved line) := by
  have small := compSizeBytes_le line
  apply BitVec.eq_of_toNat_eq
  rw [BitVec.toNat_sub, BitVec.toNat_setWidth, BitVec.toNat_ofNat, bytesSaved]
  change (2 ^ 32 - _ + 64) % 2 ^ 32 = _
  omega

theorem takenLines_writeEvents (s : AxiTop idWidth addrWidth) (edge : Edge idWidth addrWidth) :
    takenLines (s.writeEvents edge) = if edge.wvalid && s.write.wready then [edge.wdata] else [] := by
  have keep (event : WriteEvent idWidth addrWidth) (other : takenLines [event] = []) (p : Bool) :
      takenLines (if p then [event] else []) = [] := by
    cases p
    · rfl
    · exact other
  have append (xs ys : List (WriteEvent idWidth addrWidth)) :
      takenLines (xs ++ ys) = takenLines xs ++ takenLines ys := List.filterMap_append
  rw [writeEvents, append, append, append, append, keep (.aw _ _ _) rfl, keep (.dramWrite _ _) rfl,
    keep (.b _ _) rfl,
    keep .displaced rfl, List.nil_append, List.append_nil, List.append_nil, List.append_nil]
  split <;> rfl

/-- Every edge that hands over a line or counts one keeps the totals right. -/
theorem WritePhase.counts {edge : Edge idWidth addrWidth} {rest : List (WriteEvent idWidth addrWidth)}
    {lines : List (BitVec 512)} (phase : WritePhase s.write s.port rest) (counts : s.write.Counts lines) :
    (s.posedge edge).write.Counts (lines ++ takenLines (s.writeEvents edge)) := by
  have write : (s.posedge edge).write = (s.write.posedge edge).1 := rfl
  obtain ⟨counted, same, total, saved, irq⟩ := counts
  rw [takenLines_writeEvents, write]
  cases phase with
  | idle state pins off free =>
      refine ⟨counted, ?_⟩
      simp only [uncounted, state] at same
      simp only [pins.wready, Bool.and_false, Bool.false_eq_true, if_false, WriteChannel.posedge, state]
      split <;> exact ⟨by simpa [uncounted, state] using same, total, saved, irq⟩
  | capture burst state pins off free serving =>
      refine ⟨counted, ?_⟩
      simp only [uncounted, state] at same
      simp only [pins.wready, Bool.and_true, WriteChannel.posedge, state]
      split
      · exact ⟨by simpa [uncounted] using same, total, saved, irq⟩
      · exact ⟨by simpa [uncounted, state] using same, total, saved, irq⟩
  | encoding burst state pins on free serving waits =>
      refine ⟨counted, ?_⟩
      simp only [uncounted, state, if_true] at same
      simp only [pins.wready, Bool.and_false, Bool.false_eq_true, if_false, WriteChannel.posedge, state, waits]
      exact ⟨by simpa [uncounted, state] using same, total, saved, irq⟩
  | encoded burst state pins off free serving line =>
      refine ⟨counted ++ [s.write.encRawLine], ?_⟩
      have valid : s.write.encoder.compressValid = true := by rw [line, encode_compressValid]
      simp only [uncounted, state, if_true] at same
      simp only [pins.wready, Bool.and_false, Bool.false_eq_true, if_false, WriteChannel.posedge, state, valid, if_true]
      refine ⟨by simpa [uncounted] using same, ?_, ?_, irq⟩
      · rw [total, List.length_append, BitVec.ofNat_add]
        rfl
      · rw [saved, line, saved_eq, List.map_append, List.sum_append, BitVec.ofNat_add]
        simp
  | dramWrite burst displaced state pins off serving shows =>
      refine ⟨counted, ?_⟩
      simp only [uncounted, state] at same
      simp only [pins.wready, Bool.and_false, Bool.false_eq_true, if_false, WriteChannel.posedge, state]
      split
      · split <;> exact ⟨by simpa [uncounted] using same, total, saved, irq⟩
      · exact ⟨by simpa [uncounted, state] using same, total, saved, irq⟩
  | resp burst state pins off free complete id okay =>
      refine ⟨counted, ?_⟩
      simp only [uncounted, state] at same
      simp only [pins.wready, Bool.and_false, Bool.false_eq_true, if_false, WriteChannel.posedge, state]
      split <;> exact ⟨by simpa [uncounted, state] using same, total, saved, irq⟩

theorem run_counts (atReset : AtReset start) (run : Run start events s) :
    s.write.Counts (takenLines (events.flatMap fun event => event.2.1)) := by
  have both : (∃ rest, WritePhase s.write s.port rest) ∧
      s.write.Counts (takenLines (events.flatMap fun event => event.2.1)) := by
    refine run.invariant (fun events s => (∃ rest, WritePhase s.write s.port rest) ∧
      s.write.Counts (takenLines (events.flatMap fun event => event.2.1))) ⟨⟨[], atReset.writePhase⟩, ?_⟩ ?_
    · obtain ⟨activeId, currAddr, same⟩ := atReset.write
      rw [same]
      exact ⟨[], rfl, rfl, rfl, rfl⟩
    · intro events s edge s' shown inv _ stepped
      obtain ⟨⟨rest, phase⟩, counts⟩ := inv
      cases stepped
      constructor
      · exact (phase.posedge edge).exists_begun
      · rw [List.flatMap_append, List.flatMap_singleton, takenLines, List.filterMap_append]
        exact phase.counts counts
  exact both.2

/-- Over every run the write side shows whole bursts and a beginning, and counts the lines it has taken. -/
theorem writes_inBursts (atReset : AtReset start) (run : Run start events s) :
    Transactions Complete WriteBurst.events (WritePhase s.write s.port) (events.flatMap fun event => event.2.1) ∧
      s.write.Counts (takenLines (events.flatMap fun event => event.2.1)) :=
  ⟨run_writePhase atReset run, run_counts atReset run⟩

end Run

/-! ### A run with a displaced write -/

/-- An edge with every input low. -/
def Edge.low : Edge 8 36 :=
  { awid := 0, awaddr := 0, awlen := 0, awvalid := false, wdata := 0, wlast := false, wvalid := false,
    bready := false, arid := 0, araddr := 0, arlen := 0, arvalid := false, rready := false, dramRdata := 0,
    dramReady := false, readLast := false }

def poweredUp : AxiTop 8 36 :=
  { write := .reset 0 0, read := .reset 0 0,
    port := { cmdValid := false, cmdWrite := false, addr := 0, wdata := 0 } }

theorem poweredUp_atReset : AtReset poweredUp := ⟨⟨0, 0, rfl⟩, ⟨0, 0, rfl⟩, rfl⟩

/-- Two lines are written, and a read arrives while the first waits for the DRAM. -/
def overlapping : List (Edge 8 36) :=
  [{ Edge.low with awvalid := true, awid := 5, awaddr := 0x100, awlen := 1 },
    { Edge.low with wvalid := true }, Edge.low, Edge.low,
    { Edge.low with arvalid := true, arid := 7, araddr := 0x200 },
    { Edge.low with dramReady := true },
    { Edge.low with wvalid := true, wlast := true }, Edge.low, Edge.low,
    { Edge.low with dramReady := true, rready := true },
    { Edge.low with bready := true }]

/-- The first line is never written, and the response is the one of a burst that is. -/
theorem writes_inBursts_overlapping :
    (follow next poweredUp overlapping).1.flatMap (fun event => event.2.1) =
        [.aw 5 0x100 1, .w 0 false, .displaced, .w 0 true, .dramWrite 0x140 0, .b 5 0] ∧
      Transactions Complete WriteBurst.events
        (WritePhase (follow next poweredUp overlapping).2.write (follow next poweredUp overlapping).2.port)
        ((follow next poweredUp overlapping).1.flatMap fun event => event.2.1) :=
  ⟨by decide +kernel, (writes_inBursts poweredUp_atReset (Trace.follow (fun _ _ => rfl) _ _)).1⟩

end Zftl.Legacy.AxiTop
