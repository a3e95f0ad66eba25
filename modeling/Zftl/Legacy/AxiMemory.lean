/-
Module: Zftl.Legacy.AxiMemory
Layer: Legacy
Purpose: The memory controller with a DRAM behind it: a memory of words that answers a read at the edge at which it takes
  it. `HostView` follows the pins of the host and the commands the DRAM takes: the line last written at each
  address, and the line a read has asked for. Whatever the interleaving of the two channels, what the host is
  given for it is the line after one trip through the encoder and the decoder.
Imports: Mathlib.Logic.Function.Basic, Zftl.Legacy.AxiReads
Trusted boundary: the DRAM answers a read command with the word written last at its address
Main exports: MemorySystem, MemorySystem.step, HostView, reads_roundTrip
Open obligations: none
-/
import Mathlib.Logic.Function.Basic
import Zftl.Legacy.AxiReads

namespace Zftl.Legacy.AxiTop

variable {idWidth addrWidth : Nat}

/-- The controller and the words in the DRAM. -/
structure MemorySystem (idWidth addrWidth : Nat) where
  top : AxiTop idWidth addrWidth
  dram : BitVec addrWidth → BitVec 512

namespace MemorySystem

/-- The bus carries the word a read command asks for; without one it carries anything. -/
def wired (s : MemorySystem idWidth addrWidth) (edge : Edge idWidth addrWidth) : Edge idWidth addrWidth :=
  if s.top.port.cmdValid && !s.top.port.cmdWrite then { edge with dramRdata := s.dram s.top.port.addr }
  else edge

/-- A write command is taken when the DRAM is ready. -/
def dramAfter (s : MemorySystem idWidth addrWidth) (edge : Edge idWidth addrWidth) :
    BitVec addrWidth → BitVec 512 :=
  if s.top.port.cmdValid && s.top.port.cmdWrite && edge.dramReady then
    Function.update s.dram s.top.port.addr s.top.port.wdata
  else s.dram

def posedge (s : MemorySystem idWidth addrWidth) (edge : Edge idWidth addrWidth) :
    MemorySystem idWidth addrWidth :=
  { top := s.top.posedge (s.wired edge), dram := s.dramAfter edge }

/-- An edge with its events. -/
def next (s : MemorySystem idWidth addrWidth) (edge : Edge idWidth addrWidth) :
    MemorySystem idWidth addrWidth × Shown idWidth addrWidth :=
  (s.posedge edge, s.top.writeEvents (s.wired edge), s.top.readEvents (s.wired edge))

def step (s : MemorySystem idWidth addrWidth) (edge : Edge idWidth addrWidth) :
    Except Fault (MemorySystem idWidth addrWidth × Shown idWidth addrWidth) :=
  .ok (s.next edge)

theorem wired_dramReady (s : MemorySystem idWidth addrWidth) (edge : Edge idWidth addrWidth) :
    (s.wired edge).dramReady = edge.dramReady := by
  rw [wired]
  split <;> rfl

end MemorySystem

/-! ### The host's view -/

/-- The line of the last write beat, the line last written at each address, and the line a read has asked for. -/
structure HostView (addrWidth : Nat) where
  line : BitVec 512
  lines : BitVec addrWidth → Option (BitVec 512)
  asked : Option (BitVec 512)

namespace HostView

/-- A write the DRAM takes is that of the last beat. -/
def afterWrite (v : HostView addrWidth) : WriteEvent idWidth addrWidth → HostView addrWidth
  | .w data _ => { v with line := data }
  | .dramWrite addr _ => { v with lines := Function.update v.lines addr (some v.line) }
  | _ => v

/-- A read the DRAM takes asks for the line at its address; a beat taken by the host is the answer. -/
def afterRead (v : HostView addrWidth) : ReadEvent idWidth addrWidth → HostView addrWidth
  | .dramRead addr _ => { v with asked := v.lines addr }
  | .r _ _ _ _ => { v with asked := none }
  | _ => v

def after (v : HostView addrWidth) (shown : Shown idWidth addrWidth) : HostView addrWidth :=
  shown.2.foldl afterRead (shown.1.foldl afterWrite v)

/-- Before anything shows, no line has been written. -/
def initial : HostView addrWidth := { line := 0, lines := fun _ => none, asked := none }

/-- The view after a run. -/
def of (events : List (Edge idWidth addrWidth × Shown idWidth addrWidth)) : HostView addrWidth :=
  events.foldl (fun v event => v.after event.2) initial

end HostView

/-- A line, stored by the write channel and read by the read channel. -/
def roundTrip (line : BitVec 512) : BitVec 512 := decodeWord (encode line).compDataOut

/-- The line the channels of one line make of it. -/
theorem roundTrip_eq (encoder : BdiEncoder) (decoder : BdiDecoder) (line : BitVec 512) :
    (dramWdata encoder line).bind (rdata decoder) = some (roundTrip line) := by
  have stored : dramWdata encoder line = some (encode line).compDataOut := by
    rw [dramWdata, encode_eq]
    exact if_pos (encode_compressValid line)
  rw [stored]
  rfl

/-! ### What the channels carry -/

/-- What the read channel has of the line it was asked for. -/
def ReadChannel.Carries (c : ReadChannel idWidth addrWidth) (asked : Option (BitVec 512)) : Prop :=
  match c.state with
  | .idle => asked = none
  | .dramRead => asked = none
  | .decompress => ∀ line, asked = some line → c.decCompData = (encode line).compDataOut
  | .burstEmit => ∀ line, asked = some line → c.rdata = roundTrip line

section Carry

variable {s : AxiTop idWidth addrWidth} {edge : Edge idWidth addrWidth}

/-- A write is taken only from a write channel that waits for it, with the encoded line as its data. -/
theorem WritePhase.taken {rest : List (WriteEvent idWidth addrWidth)}
    (phase : WritePhase s.write s.port rest)
    (taken : (s.port.cmdValid && s.port.cmdWrite) = true) :
    s.write.state = .dramWrite ∧ s.write.wready = false ∧
      s.port.wdata = (encode s.write.encRawLine).compDataOut := by
  have no (free : s.port.Free true) : False := by
    rw [free.no_write] at taken
    cases taken
  cases phase with
  | idle state pins off free => exact (no free).elim
  | capture burst state pins off free serving => exact (no free).elim
  | encoding burst state pins on free serving waits => exact (no free).elim
  | encoded burst state pins off free serving line => exact (no free).elim
  | dramWrite burst displaced state pins off serving shows =>
      by_cases none : displaced = 0
      · rw [if_pos none] at shows
        exact ⟨state, pins.wready, shows.2⟩
      · rw [if_neg none] at shows
        exact (no shows).elim
  | resp burst state pins off free complete id okay => exact (no free).elim

/-- The line of the last beat is the one in the register, from the edge that takes it until it is written. -/
theorem WritePhase.line {rest : List (WriteEvent idWidth addrWidth)}
    (phase : WritePhase s.write s.port rest)
    {line : BitVec 512}
    (held : s.write.state = .compress ∨ s.write.state = .dramWrite → line = s.write.encRawLine)
    (busy : (s.posedge edge).write.state = .compress ∨ (s.posedge edge).write.state = .dramWrite) :
    (if edge.wvalid && s.write.wready then edge.wdata else line) = (s.posedge edge).write.encRawLine := by
  have write : (s.posedge edge).write = (s.write.posedge edge).1 := rfl
  rw [write] at busy ⊢
  cases phase with
  | idle state pins off free =>
      simp only [WriteChannel.posedge, state] at busy
      split at busy <;> simp at busy
  | capture burst state pins off free serving =>
      simp only [WriteChannel.posedge, state, pins.wready, Bool.and_true] at busy ⊢
      split at busy
      · next valid => simp [valid]
      · simp at busy
  | encoding burst state pins on free serving waits =>
      rw [pins.wready, Bool.and_false, if_neg Bool.false_ne_true, held (.inl state)]
      simp [WriteChannel.posedge, state, waits]
  | encoded burst state pins off free serving line =>
      rw [pins.wready, Bool.and_false, if_neg Bool.false_ne_true, held (.inl state)]
      simp only [WriteChannel.posedge, state]
      split <;> rfl
  | dramWrite burst displaced state pins off serving shows =>
      rw [pins.wready, Bool.and_false, if_neg Bool.false_ne_true, held (.inr state)]
      simp only [WriteChannel.posedge, state]
      split
      · split <;> rfl
      · rfl
  | resp burst state pins off free complete id okay =>
      simp only [WriteChannel.posedge, state] at busy
      split at busy <;> simp at busy

/-- A read is taken only by a read channel that waits for it. -/
theorem ReadPhase.untaken {rest : List (ReadEvent idWidth addrWidth)} (phase : ReadPhase s.read s.port rest)
    (elsewhere : s.read.state ≠ .dramRead) : (s.port.cmdValid && !s.port.cmdWrite) = false := by
  cases phase with
  | idle state pins off free => exact free.no_read
  | dramRead burst displaced state pins off serving shows => exact absurd state elsewhere
  | decoding burst displaced state pins on free serving waits tag => exact free.no_read
  | decoded burst displaced state pins off free serving line => exact free.no_read
  | burstEmit burst displaced state pins off free serving offer => exact free.no_read

/-- A line that is asked for is carried from the word on the bus to the beat the host takes. -/
theorem ReadPhase.carries {rest : List (ReadEvent idWidth addrWidth)} (phase : ReadPhase s.read s.port rest)
    {asked found : Option (BitVec 512)} (carries : s.read.Carries asked)
    (bus : (s.port.cmdValid && !s.port.cmdWrite) = true →
      ∀ line, found = some line → edge.dramRdata = (encode line).compDataOut) :
    (s.posedge edge).read.Carries (if s.read.rvalid && edge.rready then none
      else if s.port.cmdValid && !s.port.cmdWrite && edge.dramReady then found else asked) := by
  have read : (s.posedge edge).read = (s.read.posedge edge).1 := rfl
  have untaken := phase.untaken
  rw [read]
  cases phase with
  | idle state pins off free =>
      simp only [ReadChannel.Carries, state] at carries
      rw [pins.rvalid, untaken (by simp [state])]
      simp only [ReadChannel.posedge, state]
      split <;> simpa [ReadChannel.Carries, state] using carries
  | dramRead burst displaced state pins off serving shows =>
      simp only [ReadChannel.Carries, state] at carries
      rw [pins.rvalid, carries]
      simp only [ReadChannel.posedge, state, Bool.false_and, Bool.false_eq_true, if_false]
      cases edge.dramReady with
      | false => simp [ReadChannel.Carries]
      | true =>
          rw [Bool.and_true, if_pos rfl]
          show ∀ line, _ → edge.dramRdata = _
          intro line same
          cases taken : s.port.cmdValid && !s.port.cmdWrite with
          | false =>
              rw [taken, if_neg Bool.false_ne_true] at same
              cases same
          | true =>
              rw [taken, if_pos rfl] at same
              exact bus taken line same
  | decoding burst displaced state pins on free serving waits tag =>
      simp only [ReadChannel.Carries, state] at carries
      rw [pins.rvalid, untaken (by simp [state])]
      simp only [ReadChannel.posedge, state, waits]
      simpa [ReadChannel.Carries, state] using carries
  | decoded burst displaced state pins off free serving line =>
      simp only [ReadChannel.Carries, state] at carries
      rw [pins.rvalid, untaken (by simp [state])]
      simp only [ReadChannel.posedge, state, line, if_true]
      show ∀ wanted, asked = some wanted → decodeWord s.read.decCompData = roundTrip wanted
      intro wanted same
      rw [carries wanted same, roundTrip]
  | burstEmit burst displaced state pins off free serving offer =>
      simp only [ReadChannel.Carries, state] at carries
      rw [pins.rvalid, untaken (by simp [state])]
      simp only [ReadChannel.posedge, state, pins.rvalid, Bool.true_and, Bool.and_true]
      cases edge.rready with
      | true =>
          rw [if_pos rfl, if_pos rfl]
          split
          · exact rfl
          · exact rfl
      | false =>
          simpa [ReadChannel.Carries, state] using carries

/-- A beat the host takes is the one the channel offers. -/
theorem offered_of_mem {id : BitVec idWidth} {data : BitVec 512} {resp : BitVec 2} {last : Bool}
    (given : ReadEvent.r id data resp last ∈ s.readEvents edge) :
    s.read.rvalid = true ∧ data = s.read.rdata := by
  have absent {p : Bool} {event : ReadEvent idWidth addrWidth} (other : .r id data resp last ≠ event) :
      ¬.r id data resp last ∈ if p then [event] else [] := by
    cases p
    · exact List.not_mem_nil
    · exact fun mem => other (List.mem_singleton.mp mem)
  simp only [readEvents, List.mem_append] at given
  rcases given with ((ar | dramRead) | r) | displaced
  · exact (absent (by intro same; cases same) ar).elim
  · exact (absent (by intro same; cases same) dramRead).elim
  · split at r
    · next taken =>
        have same := List.mem_singleton.mp r
        cases same
        exact ⟨(Bool.and_eq_true_iff.mp taken).1, rfl⟩
    · exact (List.not_mem_nil r).elim
  · exact (absent (by intro same; cases same) displaced).elim

/-- A beat is offered in one state only. -/
theorem ReadPhase.emitting {rest : List (ReadEvent idWidth addrWidth)} (phase : ReadPhase s.read s.port rest)
    (valid : s.read.rvalid = true) : s.read.state = .burstEmit := by
  have high {arready rvalid : Bool} (pins : s.read.Ready arready rvalid) : rvalid = true :=
    pins.rvalid.symm.trans valid
  cases phase with
  | idle state pins off free => cases high pins
  | dramRead burst displaced state pins off serving shows => cases high pins
  | decoding burst displaced state pins on free serving waits tag => cases high pins
  | decoded burst displaced state pins off free serving line => cases high pins
  | burstEmit burst displaced state pins off free serving offer => exact state

end Carry

namespace MemorySystem

/-- The view tells what the DRAM holds and what the two channels carry. -/
structure Holds (s : MemorySystem idWidth addrWidth) (v : HostView addrWidth) : Prop where
  line : s.top.write.state = .compress ∨ s.top.write.state = .dramWrite → v.line = s.top.write.encRawLine
  stored : ∀ addr line, v.lines addr = some line → s.dram addr = (encode line).compDataOut
  carries : s.top.read.Carries v.asked

/-! ### The write side -/

section Write

variable {s : MemorySystem idWidth addrWidth} {v : HostView addrWidth} {edge : Edge idWidth addrWidth}
  {rest : List (WriteEvent idWidth addrWidth)}

/-- Folding the view over events that may be absent. -/
theorem foldl_ite {α β : Type} (f : β → α → β) (v : β) (p : Bool) (event : α) :
    (if p then [event] else []).foldl f v = if p then f v event else v := by
  cases p <;> rfl

theorem afterWrites_eq (v : HostView addrWidth) (top : AxiTop idWidth addrWidth) (edge : Edge idWidth addrWidth) :
    (top.writeEvents edge).foldl HostView.afterWrite v =
      { v with
        line := if edge.wvalid && top.write.wready then edge.wdata else v.line,
        lines := if top.port.cmdValid && top.port.cmdWrite && edge.dramReady then
            Function.update v.lines top.port.addr
              (some (if edge.wvalid && top.write.wready then edge.wdata else v.line))
          else v.lines } := by
  simp only [writeEvents, List.foldl_append, foldl_ite]
  cases edge.awvalid && top.write.awready <;> cases edge.wvalid && top.write.wready <;>
    cases top.port.cmdValid && top.port.cmdWrite && edge.dramReady <;>
    cases top.write.bvalid && edge.bready <;> cases top.writeDisplaced edge <;> rfl

/-- What the view says about the DRAM after an edge. -/
theorem Holds.stored_after (holds : s.Holds v) (phase : WritePhase s.top.write s.top.port rest)
    (addr : BitVec addrWidth) (line : BitVec 512)
    (written : ((s.top.writeEvents (s.wired edge)).foldl HostView.afterWrite v).lines addr = some line) :
    s.dramAfter edge addr = (encode line).compDataOut := by
  rw [afterWrites_eq, wired_dramReady] at written
  rw [dramAfter]
  cases taken : s.top.port.cmdValid && s.top.port.cmdWrite && edge.dramReady with
  | false =>
      simp only [taken, Bool.false_eq_true, if_false] at written ⊢
      exact holds.stored addr line written
  | true =>
      obtain ⟨state, wready, data⟩ := WritePhase.taken phase (Bool.and_eq_true_iff.mp taken).1
      simp only [taken, wready, Bool.and_false, Bool.false_eq_true, if_true, if_false] at written ⊢
      by_cases here : addr = s.top.port.addr
      · rw [here, Function.update_self] at written ⊢
        rw [data, ← holds.line (.inr state), Option.some.inj written]
      · rw [Function.update_of_ne here] at written ⊢
        exact holds.stored addr line written

end Write

/-! ### The read side -/

section Read

variable {s : MemorySystem idWidth addrWidth} {v : HostView addrWidth} {edge : Edge idWidth addrWidth}
  {rest : List (ReadEvent idWidth addrWidth)}

theorem afterReads_eq (v : HostView addrWidth) (top : AxiTop idWidth addrWidth) (edge : Edge idWidth addrWidth) :
    (top.readEvents edge).foldl HostView.afterRead v =
      { v with
        asked := if top.read.rvalid && edge.rready then none
          else if top.port.cmdValid && !top.port.cmdWrite && edge.dramReady then v.lines top.port.addr
          else v.asked } := by
  simp only [readEvents, List.foldl_append, foldl_ite]
  cases edge.arvalid && top.read.arready <;>
    cases top.port.cmdValid && !top.port.cmdWrite && edge.dramReady <;>
    cases top.read.rvalid && edge.rready <;> cases top.readDisplaced edge <;> rfl

/-- The bus carries the stored line of the address that is read. -/
theorem Holds.bus (holds : s.Holds v) (reads : (s.top.port.cmdValid && !s.top.port.cmdWrite) = true)
    (line : BitVec 512) (found : v.lines s.top.port.addr = some line) :
    (s.wired edge).dramRdata = (encode line).compDataOut := by
  rw [wired, reads, if_pos rfl]
  exact holds.stored _ line found

end Read

/-! ### A run -/

section Run

variable {start s : MemorySystem idWidth addrWidth}
  {events : List (Edge idWidth addrWidth × Shown idWidth addrWidth)}

/-- What every run keeps: both channels serve their bursts, and the view tells what they carry. -/
structure Invariant (s : MemorySystem idWidth addrWidth) (v : HostView addrWidth) : Prop where
  writing : ∃ rest, WritePhase s.top.write s.top.port rest
  reading : ∃ rest, ReadPhase s.top.read s.top.port rest
  holds : s.Holds v

theorem Invariant.init (atReset : AtReset start.top) (low : start.top.port.cmdValid = false) :
    start.Invariant .initial := by
  obtain ⟨writeId, writeAddr, write⟩ := atReset.write
  obtain ⟨readId, readAddr, read⟩ := atReset.read
  refine ⟨⟨[], atReset.writePhase⟩, ⟨[], atReset.readPhase low⟩, ?_, fun addr line none => ?_, ?_⟩
  · rw [write]
    rintro (compress | dramWrite)
    · cases compress
    · cases dramWrite
  · cases none
  · rw [read]
    rfl

theorem Invariant.posedge {v : HostView addrWidth} (inv : s.Invariant v) (edge : Edge idWidth addrWidth) :
    (s.posedge edge).Invariant
      (v.after (s.top.writeEvents (s.wired edge), s.top.readEvents (s.wired edge))) := by
  obtain ⟨⟨writeRest, writing⟩, ⟨readRest, reading⟩, holds⟩ := inv
  refine ⟨(writing.posedge (s.wired edge)).exists_begun, (reading.posedge (s.wired edge)).exists_begun, ?_⟩
  rw [HostView.after, afterReads_eq]
  refine ⟨?_, holds.stored_after writing, ?_⟩
  · rw [afterWrites_eq]
    exact writing.line holds.line
  · refine reading.carries (by rw [afterWrites_eq]; exact holds.carries) ?_
    intro reads line found
    -- a read is on the port, so no write is taken at this edge
    have unchanged : ((s.top.writeEvents (s.wired edge)).foldl HostView.afterWrite v).lines = v.lines := by
      have none : (s.top.port.cmdValid && s.top.port.cmdWrite) = false := by
        rw [Bool.and_eq_true, Bool.not_eq_true'] at reads
        rw [reads.2, Bool.and_false]
      rw [afterWrites_eq, none, Bool.false_and, if_neg Bool.false_ne_true]
    rw [unchanged] at found
    exact holds.bus reads line found

theorem run_invariant (atReset : AtReset start.top) (low : start.top.port.cmdValid = false)
    (run : Trace step (fun _ _ => True) start events s) : s.Invariant (.of events) := by
  refine run.invariant (fun events s => s.Invariant (.of events)) (.init atReset low) ?_
  intro events s edge s' shown inv _ stepped
  cases stepped
  rw [HostView.of, List.foldl_append]
  exact inv.posedge edge

/-- In every run, whatever the other traffic: the line the host is given for one it has written is that line after a
    trip through the encoder and the decoder. -/
theorem reads_roundTrip (atReset : AtReset start.top) (low : start.top.port.cmdValid = false)
    (run : Trace step (fun _ _ => True) start events s) {edge : Edge idWidth addrWidth}
    {id : BitVec idWidth} {data : BitVec 512} {resp : BitVec 2} {last : Bool}
    (given : ReadEvent.r id data resp last ∈ s.top.readEvents (s.wired edge)) {line : BitVec 512}
    (asked : (HostView.of events).asked = some line) (encoder : BdiEncoder) (decoder : BdiDecoder) :
    (dramWdata encoder line).bind (rdata decoder) = some data := by
  obtain ⟨_, ⟨rest, reading⟩, holds⟩ := run_invariant atReset low run
  obtain ⟨valid, rfl⟩ := offered_of_mem given
  have carries := holds.carries
  rw [ReadChannel.Carries, reading.emitting valid] at carries
  rw [roundTrip_eq, carries line asked]

end Run

/-- A line of eight equal words whose low four bits are not a tag. -/
def nines : BitVec 512 :=
  BaseDelta.pack 512 fun _ => (9 : BitVec 64)

/-- The line is written, and then read. -/
def writeThenRead : List (Edge 8 36) :=
  [{ Edge.low with awvalid := true, awid := 5, awaddr := 0x100 },
    { Edge.low with wvalid := true, wdata := nines, wlast := true }, Edge.low, Edge.low,
    { Edge.low with dramReady := true }, { Edge.low with bready := true },
    { Edge.low with arvalid := true, arid := 7, araddr := 0x100 },
    { Edge.low with dramReady := true }, Edge.low, Edge.low]

def afterRead : List (Edge 8 36 × Shown 8 36) × MemorySystem 8 36 :=
  follow next { top := poweredUp, dram := fun _ => 0 } writeThenRead

/-- What comes back is the base of the line. -/
theorem reads_roundTrip_nines : (HostView.of afterRead.1).asked = some nines ∧
    (dramWdata BdiEncoder.reset nines).bind (rdata BdiDecoder.reset) = some 9 := by
  have asked : (HostView.of afterRead.1).asked = some nines := by decide +kernel
  have given : ReadEvent.r 7 9 0 true ∈
      afterRead.2.top.readEvents (afterRead.2.wired { Edge.low with rready := true }) := by decide +kernel
  exact ⟨asked, reads_roundTrip poweredUp_atReset rfl (Trace.follow (fun _ _ => rfl) _ writeThenRead) given asked
    BdiEncoder.reset BdiDecoder.reset⟩

end MemorySystem

end Zftl.Legacy.AxiTop
