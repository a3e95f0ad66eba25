/-
Module: Zftl.Legacy.AxiReads
Layer: Legacy
Purpose: What the read side of the memory controller shows over a whole run, with the write side and the DRAM doing as
  they like. It is a sequence of bursts: an address, and for each of the lines asked for a word that comes back
  and a beat with the line decoded from it, the flag on the last beat only. If the write channel displaces the read
  command the DRAM is never asked, and the beat is made of what stands on the bus.
Imports: Zftl.Legacy.AxiWrites
Trusted boundary: none
Main exports: ReadBeat, ReadBurst, ReadPhase, run_readPhase
Open obligations: none
-/
import Zftl.Legacy.AxiWrites

namespace Zftl.Legacy.AxiTop

variable {idWidth addrWidth : Nat}

/-! ### Bursts -/

/-- The decoder gets the word with its low four bits as the tag. -/
def decodeWord (word : BitVec 512) : BitVec 512 := decoded (word.extractLsb' 0 4) word

/-- A beat of a burst: the word on the bus when the DRAM is ready, and how often the command was displaced. -/
structure ReadBeat where
  word : BitVec 512
  displaced : Nat

/-- What shows of a beat before it is offered: the DRAM is asked if nothing displaced the command. -/
def ReadBeat.fetched (beat : ReadBeat) (addr : BitVec addrWidth) : List (ReadEvent idWidth addrWidth) :=
  List.replicate beat.displaced .displaced ++
    if beat.displaced = 0 then [.dramRead addr beat.word] else []

structure ReadBurst (idWidth addrWidth : Nat) where
  id : BitVec idWidth
  addr : BitVec addrWidth
  len : BitVec 8
  beats : List ReadBeat

namespace ReadBurst

/-- The address of a beat. -/
def beatAddr (burst : ReadBurst idWidth addrWidth) (n : Nat) : BitVec addrWidth :=
  burst.addr + BitVec.ofNat addrWidth (64 * n)

/-- The host takes a beat. -/
def emitted (burst : ReadBurst idWidth addrWidth) (beat : ReadBeat) (n : Nat) : ReadEvent idWidth addrWidth :=
  .r burst.id (decodeWord beat.word) 0 (decide (n = burst.len.toNat))

/-- The beats from the one with number `n` on. -/
def beatEvents (burst : ReadBurst idWidth addrWidth) : Nat → List ReadBeat → List (ReadEvent idWidth addrWidth)
  | _, [] => []
  | n, beat :: beats =>
    beat.fetched (burst.beatAddr n) ++ burst.emitted beat n :: burst.beatEvents (n + 1) beats

/-- The events of a burst. -/
def events (burst : ReadBurst idWidth addrWidth) : List (ReadEvent idWidth addrWidth) :=
  .ar burst.id burst.addr burst.len :: burst.beatEvents 0 burst.beats

/-- A burst has one beat more than `arlen` says. -/
def Complete (burst : ReadBurst idWidth addrWidth) : Prop := burst.beats.length = burst.len.toNat + 1

/-- One more beat, behind those there are. -/
def add (burst : ReadBurst idWidth addrWidth) (beat : ReadBeat) : ReadBurst idWidth addrWidth :=
  { burst with beats := burst.beats ++ [beat] }

theorem beatEvents_append (burst : ReadBurst idWidth addrWidth) (beats : List ReadBeat) (beat : ReadBeat) (n : Nat) :
    burst.beatEvents n (beats ++ [beat]) =
      burst.beatEvents n beats ++ (beat.fetched (burst.beatAddr (n + beats.length)) ++
        [burst.emitted beat (n + beats.length)]) := by
  induction beats generalizing n with
  | nil => simp [beatEvents]
  | cons first beats ih =>
      rw [List.cons_append, beatEvents, beatEvents, ih, List.length_cons, Nat.add_assoc, Nat.add_comm 1]
      simp

/-- The events only look at the header of the burst and the beats given. -/
theorem beatEvents_add (burst : ReadBurst idWidth addrWidth) (beat : ReadBeat) (n : Nat) (beats : List ReadBeat) :
    (burst.add beat).beatEvents n beats = burst.beatEvents n beats := by
  induction beats generalizing n with
  | nil => rfl
  | cons first beats ih =>
      rw [beatEvents, beatEvents, ih]
      rfl

theorem events_add (burst : ReadBurst idWidth addrWidth) (beat : ReadBeat) :
    (burst.add beat).events = burst.events ++ (beat.fetched (burst.beatAddr burst.beats.length) ++
      [burst.emitted beat burst.beats.length]) := by
  have same := burst.beatEvents_append burst.beats beat 0
  rw [← beatEvents_add burst beat 0 (burst.beats ++ [beat]), Nat.zero_add] at same
  rw [events, events, List.cons_append]
  exact congrArg (ReadEvent.ar burst.id burst.addr burst.len :: ·) same

theorem beatAddr_succ (burst : ReadBurst idWidth addrWidth) (n : Nat) :
    burst.beatAddr (n + 1) = burst.beatAddr n + 64 := by
  simp only [beatAddr, Nat.mul_succ, BitVec.ofNat_add, BitVec.add_assoc]
  rfl

end ReadBurst

/-! ### A burst being served -/

namespace ReadChannel

/-- The levels of the two outputs that answer the host. -/
structure Ready (c : ReadChannel idWidth addrWidth) (arready rvalid : Bool) : Prop where
  arready : c.arready = arready
  rvalid : c.rvalid = rvalid

/-- The registers of the burst: the beats are those that are done. -/
structure Serving (c : ReadChannel idWidth addrWidth) (burst : ReadBurst idWidth addrWidth) : Prop where
  id : c.activeId = burst.id
  len : c.burstLen = burst.len
  count : c.burstCount.toNat = burst.beats.length
  addr : c.currAddr = burst.beatAddr burst.beats.length
  within : burst.beats.length ≤ burst.len.toNat

/-- The beat the channel works on, with the word it has taken from the bus. -/
def beat (c : ReadChannel idWidth addrWidth) (displaced : Nat) : ReadBeat :=
  { word := c.decCompData, displaced := displaced }

end ReadChannel

open ReadChannel ReadBurst

/-- What a burst has shown, in each state of the read channel. -/
inductive ReadPhase (c : ReadChannel idWidth addrWidth) (port : DramPort addrWidth) :
    List (ReadEvent idWidth addrWidth) → Prop where
  | idle (state : c.state = .idle) (pins : c.Ready true false) (off : c.decDecompressEn = false)
      (free : port.Free false) : ReadPhase c port []
  | dramRead (burst : ReadBurst idWidth addrWidth) (displaced : Nat) (state : c.state = .dramRead)
      (pins : c.Ready false false) (off : c.decDecompressEn = false) (serving : c.Serving burst)
      (shows : if displaced = 0 then port.Shows false c.currAddr else port.Free false) :
      ReadPhase c port (burst.events ++ List.replicate displaced .displaced)
  | decoding (burst : ReadBurst idWidth addrWidth) (displaced : Nat) (state : c.state = .decompress)
      (pins : c.Ready false false) (on : c.decDecompressEn = true) (free : port.Free false)
      (serving : c.Serving burst) (waits : c.decoder.decompressValid = false)
      (tag : c.decPatternTag = c.decCompData.extractLsb' 0 4) :
      ReadPhase c port (burst.events ++ (c.beat displaced).fetched c.currAddr)
  | decoded (burst : ReadBurst idWidth addrWidth) (displaced : Nat) (state : c.state = .decompress)
      (pins : c.Ready false false) (off : c.decDecompressEn = false) (free : port.Free false)
      (serving : c.Serving burst)
      (line : c.decoder = { lineDataOut := decodeWord c.decCompData, decompressValid := true }) :
      ReadPhase c port (burst.events ++ (c.beat displaced).fetched c.currAddr)
  | burstEmit (burst : ReadBurst idWidth addrWidth) (displaced : Nat) (state : c.state = .burstEmit)
      (pins : c.Ready false true) (off : c.decDecompressEn = false) (free : port.Free false)
      (serving : c.Serving burst)
      (offer : ReadEvent.r c.rid c.rdata c.rresp c.rlast =
        burst.emitted (c.beat displaced) burst.beats.length) :
      ReadPhase c port (burst.events ++ (c.beat displaced).fetched c.currAddr)

/-! ### One edge -/

section Step

variable {s : AxiTop idWidth addrWidth} {edge : Edge idWidth addrWidth}

abbrev ReadContinues (s : AxiTop idWidth addrWidth) (edge : Edge idWidth addrWidth)
    (rest : List (ReadEvent idWidth addrWidth)) : Prop :=
  Continues Complete ReadBurst.events (ReadPhase (s.posedge edge).read (s.posedge edge).port) rest
    (s.readEvents edge)

/-- The port after an edge at which the read channel leaves it alone. -/
theorem free_of_read_nothing (free : s.port.Free false) (none : (s.read.posedge edge).2 = .nothing) :
    (s.posedge edge).port.Free false := by
  rw [port_of_read, none, merge_nothing]
  exact (s.write.commands edge).free_apply free

/-- The events while no read command is on the port or waited for. -/
theorem readEvents_of_free {arready rvalid : Bool} (pins : s.read.Ready arready rvalid)
    (free : s.port.Free false) (elsewhere : s.read.state ≠ .dramRead) :
    s.readEvents edge =
      (if edge.arvalid && arready then [.ar edge.arid edge.araddr edge.arlen] else []) ++
        (if rvalid && edge.rready then [.r s.read.rid s.read.rdata s.read.rresp s.read.rlast] else []) ++
        if (s.write.posedge edge).2.drives &&
          (decide ((s.read.posedge edge).2.cmdValid = some true) && !edge.readLast) then [.displaced] else [] := by
  simp only [readEvents, readDisplaced, pins.arready, pins.rvalid, free.no_read, elsewhere, decide_false,
    Bool.false_and, Bool.false_or, Bool.false_eq_true, if_false, List.append_nil]

/-- A read command that is issued is displaced at once or is on the port. -/
theorem dramRead_issued {addr : BitVec addrWidth} (issued : (s.read.posedge edge).2 = .read addr)
    (burst : ReadBurst idWidth addrWidth) (state : (s.posedge edge).read.state = .dramRead)
    (pins : (s.posedge edge).read.Ready false false) (off : (s.posedge edge).read.decDecompressEn = false)
    (serving : (s.posedge edge).read.Serving burst) (current : (s.posedge edge).read.currAddr = addr) :
    ReadPhase (s.posedge edge).read (s.posedge edge).port (burst.events ++
      if (s.write.posedge edge).2.drives &&
        (decide ((s.read.posedge edge).2.cmdValid = some true) && !edge.readLast) then [.displaced] else []) := by
  have issues : (s.read.posedge edge).2.Issues false addr := by
    rw [issued]
    exact ⟨rfl, rfl, rfl⟩
  have port := (s.write.commands edge).merge_issues issues s.port edge.readLast
  have asked : decide ((s.read.posedge edge).2.cmdValid = some true) = true := by rw [issued]; rfl
  rw [← port_of_read] at port
  rw [asked, Bool.true_and]
  cases lost : (s.write.posedge edge).2.drives && !edge.readLast with
  | true =>
      rw [lost, if_pos rfl] at port
      exact .dramRead burst 1 state pins off serving (by rw [if_neg Nat.one_ne_zero]; exact port)
  | false =>
      rw [lost, if_neg Bool.false_ne_true] at port
      exact .dramRead burst 0 state pins off serving (by rw [if_pos rfl, current]; exact port.1)

theorem read_idle_step (state : s.read.state = .idle) (pins : s.read.Ready true false)
    (off : s.read.decDecompressEn = false) (free : s.port.Free false) : ReadContinues s edge [] := by
  rw [ReadContinues, readEvents_of_free pins free (by simp [state])]
  have read : (s.posedge edge).read = (s.read.posedge edge).1 := rfl
  cases valid : edge.arvalid with
  | true =>
      have issued : (s.read.posedge edge).2 = .read edge.araddr := by
        simp [ReadChannel.posedge, state, valid, pins.arready]
      have next : (s.posedge edge).read = { s.read with
          decoder := s.read.decoder.posedge s.read.decDecompressEn s.read.decPatternTag s.read.decCompData,
          rvalid := false, rlast := false, activeId := edge.arid, currAddr := edge.araddr,
          burstLen := edge.arlen, burstCount := 0, arready := false, state := .dramRead } := by
        simp [read, ReadChannel.posedge, state, valid, pins.arready]
      have phase := dramRead_issued issued
        { id := edge.arid, addr := edge.araddr, len := edge.arlen, beats := [] } (by rw [next])
        (by rw [next]; exact ⟨rfl, rfl⟩) (by rw [next]; exact off)
        (by rw [next]; exact ⟨rfl, rfl, rfl, by simp [beatAddr], Nat.zero_le _⟩) (by rw [next])
      exact .inl (by simpa [ReadBurst.events, ReadBurst.beatEvents] using phase)
  | false =>
      have none : (s.read.posedge edge).2 = .nothing := by
        simp [ReadChannel.posedge, state, valid]
      have next : (s.posedge edge).read = { s.read with
          decoder := s.read.decoder.posedge s.read.decDecompressEn s.read.decPatternTag s.read.decCompData,
          rvalid := false, rlast := false } := by
        simp [read, ReadChannel.posedge, state, valid]
      have phase : ReadPhase (s.posedge edge).read (s.posedge edge).port _ := ReadPhase.idle
        (by rw [next]; exact state) (by rw [next]; exact ⟨pins.arready, rfl⟩) (by rw [next]; exact off)
        (free_of_read_nothing free none)
      exact .inl (by simpa [none, PortDrive.nothing] using phase)

theorem dramRead_step (burst : ReadBurst idWidth addrWidth) (displaced : Nat) (state : s.read.state = .dramRead)
    (pins : s.read.Ready false false) (off : s.read.decDecompressEn = false) (serving : s.read.Serving burst)
    (shows : if displaced = 0 then s.port.Shows false s.read.currAddr else s.port.Free false) :
    ReadContinues s edge (burst.events ++ List.replicate displaced .displaced) := by
  rw [ReadContinues]
  have read : (s.posedge edge).read = (s.read.posedge edge).1 := rfl
  cases ready : edge.dramReady with
  | true =>
      have release : (s.read.posedge edge).2 = .release := by
        simp [ReadChannel.posedge, state, ready]
      have next : (s.posedge edge).read = { s.read with
          decoder := s.read.decoder.posedge false s.read.decPatternTag s.read.decCompData,
          decCompData := edge.dramRdata, decPatternTag := edge.dramRdata.extractLsb' 0 4,
          decDecompressEn := true, state := .decompress } := by
        simp [read, ReadChannel.posedge, state, ready, off]
      have free : (s.posedge edge).port.Free false := by
        rw [port_of_read, release]
        exact (s.write.commands edge).free_merge_release _
      have kept : s.readDisplaced edge = false := by
        simp [readDisplaced, release, ready, PortDrive.release]
      have events : s.readEvents edge =
          if displaced = 0 then [.dramRead s.read.currAddr edge.dramRdata] else [] := by
        by_cases none : displaced = 0
        · rw [if_pos none] at shows
          simp [readEvents, pins.arready, pins.rvalid, shows.cmdValid, shows.cmdWrite, shows.addr, kept, ready, none]
        · rw [if_neg none] at shows
          simp [readEvents, pins.arready, pins.rvalid, shows.no_read, kept, none]
      have phase : ReadPhase (s.posedge edge).read (s.posedge edge).port _ := ReadPhase.decoding burst displaced
        (by rw [next]) (by rw [next]; exact ⟨pins.arready, pins.rvalid⟩) (by rw [next]) free
        (by rw [next]; exact ⟨serving.id, serving.len, serving.count, serving.addr, serving.within⟩)
        (by rw [next]; rfl) (by rw [next])
      rw [next] at phase ⊢
      rw [ReadBeat.fetched, ← List.append_assoc] at phase
      rw [events]
      exact .inl phase
  | false =>
      have none : (s.read.posedge edge).2 = .nothing := by
        simp [ReadChannel.posedge, state, ready]
      have next : (s.posedge edge).read = { s.read with
          decoder := s.read.decoder.posedge s.read.decDecompressEn s.read.decPatternTag s.read.decCompData } := by
        simp [read, ReadChannel.posedge, state, ready]
      have port : (s.posedge edge).port = s.port.apply (s.write.posedge edge).2 := by
        rw [port_of_read, none, merge_nothing]
      have events : s.readEvents edge = if (s.write.posedge edge).2.drives then [.displaced] else [] := by
        simp [readEvents, readDisplaced, pins.arready, pins.rvalid, ready, state, none, PortDrive.nothing]
      have phase (displaced : Nat) (shows : if displaced = 0 then (s.posedge edge).port.Shows false s.read.currAddr
          else (s.posedge edge).port.Free false) : ReadPhase (s.posedge edge).read (s.posedge edge).port _ :=
        .dramRead burst displaced
          (by rw [next]; exact state) (by rw [next]; exact ⟨pins.arready, pins.rvalid⟩) (by rw [next]; exact off)
          (by rw [next]; exact ⟨serving.id, serving.len, serving.count, serving.addr, serving.within⟩)
          (by rw [next]; exact shows)
      rw [events]
      cases lost : (s.write.posedge edge).2.drives with
      | true =>
          have free : (s.port.apply (s.write.posedge edge).2).Free false :=
            (s.write.commands edge).free_of_drives lost s.port
          have phase := phase (displaced + 1) (by rw [if_neg (Nat.succ_ne_zero _), port]; exact free)
          exact .inl (by simpa [List.replicate_succ'] using phase)
      | false =>
          rw [(s.write.commands edge).nothing_of_not_drives lost, DramPort.apply_nothing] at port
          have phase := phase displaced (by rw [port]; exact shows)
          exact .inl (by simpa using phase)

theorem decoding_step (burst : ReadBurst idWidth addrWidth) (displaced : Nat) (state : s.read.state = .decompress)
    (pins : s.read.Ready false false) (on : s.read.decDecompressEn = true) (free : s.port.Free false)
    (serving : s.read.Serving burst) (waits : s.read.decoder.decompressValid = false)
    (tag : s.read.decPatternTag = s.read.decCompData.extractLsb' 0 4) :
    ReadContinues s edge (burst.events ++ (s.read.beat displaced).fetched s.read.currAddr) := by
  have none : (s.read.posedge edge).2 = .nothing := by
    simp [ReadChannel.posedge, state, waits]
  have read : (s.posedge edge).read = (s.read.posedge edge).1 := rfl
  have next : (s.posedge edge).read = { s.read with
      decoder := { lineDataOut := decodeWord s.read.decCompData, decompressValid := true },
      decDecompressEn := false } := by
    simp [read, ReadChannel.posedge, state, waits, on, tag, BdiDecoder.posedge, decodeWord]
  have phase : ReadPhase (s.posedge edge).read (s.posedge edge).port _ := ReadPhase.decoded burst displaced
    (by rw [next]; exact state) (by rw [next]; exact ⟨pins.arready, pins.rvalid⟩) (by rw [next])
    (free_of_read_nothing free none)
    (by rw [next]; exact ⟨serving.id, serving.len, serving.count, serving.addr, serving.within⟩) (by rw [next])
  rw [ReadContinues, readEvents_of_free pins free (by simp [state])]
  rw [next] at phase ⊢
  exact .inl (by simpa [none, PortDrive.nothing, ReadChannel.beat] using phase)

theorem decoded_step (burst : ReadBurst idWidth addrWidth) (displaced : Nat) (state : s.read.state = .decompress)
    (pins : s.read.Ready false false) (off : s.read.decDecompressEn = false) (free : s.port.Free false)
    (serving : s.read.Serving burst)
    (line : s.read.decoder = { lineDataOut := decodeWord s.read.decCompData, decompressValid := true }) :
    ReadContinues s edge (burst.events ++ (s.read.beat displaced).fetched s.read.currAddr) := by
  have none : (s.read.posedge edge).2 = .nothing := by
    simp [ReadChannel.posedge, state, line]
  have read : (s.posedge edge).read = (s.read.posedge edge).1 := rfl
  have next : (s.posedge edge).read = { s.read with
      decoder := s.read.decoder.posedge false s.read.decPatternTag s.read.decCompData,
      decDecompressEn := false, rid := s.read.activeId, rdata := decodeWord s.read.decCompData, rresp := 0,
      rlast := decide (s.read.burstCount = s.read.burstLen), rvalid := true,
      totalLinesDecompressed := s.read.totalLinesDecompressed + 1, state := .burstEmit } := by
    simp [read, ReadChannel.posedge, state, line, off]
  have last : decide (s.read.burstCount = s.read.burstLen) = decide (burst.beats.length = burst.len.toNat) := by
    rw [serving.len, ← serving.count]
    exact decide_eq_decide.mpr BitVec.toNat_inj.symm
  have phase : ReadPhase (s.posedge edge).read (s.posedge edge).port _ := ReadPhase.burstEmit burst displaced
    (by rw [next]) (by rw [next]; exact ⟨pins.arready, rfl⟩) (by rw [next])
    (free_of_read_nothing free none)
    (by rw [next]; exact ⟨serving.id, serving.len, serving.count, serving.addr, serving.within⟩)
    (by rw [next]; simp [emitted, ReadChannel.beat, serving.id, last])
  rw [ReadContinues, readEvents_of_free pins free (by simp [state])]
  rw [next] at phase ⊢
  exact .inl (by simpa [none, PortDrive.nothing, ReadChannel.beat] using phase)

theorem burstEmit_step (burst : ReadBurst idWidth addrWidth) (displaced : Nat) (state : s.read.state = .burstEmit)
    (pins : s.read.Ready false true) (off : s.read.decDecompressEn = false) (free : s.port.Free false)
    (serving : s.read.Serving burst)
    (offer : ReadEvent.r s.read.rid s.read.rdata s.read.rresp s.read.rlast =
      burst.emitted (s.read.beat displaced) burst.beats.length) :
    ReadContinues s edge (burst.events ++ (s.read.beat displaced).fetched s.read.currAddr) := by
  have read : (s.posedge edge).read = (s.read.posedge edge).1 := rfl
  have count := serving.count
  have within := serving.within
  have condition : s.read.burstCount < s.read.burstLen ↔ burst.beats.length < burst.len.toNat := by
    rw [BitVec.lt_def, count, serving.len]
  rw [ReadContinues, readEvents_of_free pins free (by simp [state])]
  cases taken : edge.rready with
  | false =>
      have none : (s.read.posedge edge).2 = .nothing := by
        simp [ReadChannel.posedge, state, taken]
      have next : (s.posedge edge).read = { s.read with
          decoder := s.read.decoder.posedge s.read.decDecompressEn s.read.decPatternTag s.read.decCompData } := by
        simp [read, ReadChannel.posedge, state, taken]
      have phase : ReadPhase (s.posedge edge).read (s.posedge edge).port _ := ReadPhase.burstEmit burst displaced
        (by rw [next]; exact state) (by rw [next]; exact ⟨pins.arready, pins.rvalid⟩) (by rw [next]; exact off)
        (free_of_read_nothing free none)
        (by rw [next]; exact ⟨serving.id, serving.len, serving.count, serving.addr, serving.within⟩)
        (by rw [next]; exact offer)
      rw [next] at phase ⊢
      exact .inl (by simpa [none, PortDrive.nothing, ReadChannel.beat] using phase)
  | true =>
      -- the beat is part of the burst from here on
      have whole : burst.events ++ (s.read.beat displaced).fetched s.read.currAddr ++
          [.r s.read.rid s.read.rdata s.read.rresp s.read.rlast] = (burst.add (s.read.beat displaced)).events := by
        rw [events_add, offer, serving.addr, List.append_assoc]
      have counted : (burst.add (s.read.beat displaced)).beats.length = burst.beats.length + 1 := by simp [add]
      by_cases more : s.read.burstCount < s.read.burstLen
      · have issued : (s.read.posedge edge).2 = .read (s.read.currAddr + 64) := by
          simp [ReadChannel.posedge, state, taken, pins.rvalid, more]
        have next : (s.posedge edge).read = { s.read with
            decoder := s.read.decoder.posedge s.read.decDecompressEn s.read.decPatternTag s.read.decCompData,
            rvalid := false, burstCount := s.read.burstCount + 1, currAddr := s.read.currAddr + 64,
            state := .dramRead } := by
          simp [read, ReadChannel.posedge, state, taken, pins.rvalid, more]
        have room : s.read.burstCount.toNat + 1 < 256 := by
          have below := condition.mp more
          have bound := burst.len.isLt
          omega
        have phase := dramRead_issued issued (burst.add (s.read.beat displaced)) (by rw [next])
          (by rw [next]; exact ⟨pins.arready, rfl⟩) (by rw [next]; exact off)
          (by
            rw [next]
            refine ⟨serving.id, serving.len, ?_, ?_, ?_⟩
            · rw [counted, ← count, BitVec.toNat_add]
              exact Nat.mod_eq_of_lt room
            · rw [counted, beatAddr_succ, serving.addr]
              rfl
            · rw [counted]
              exact condition.mp more) (by rw [next])
        rw [← whole] at phase
        exact .inl (by simpa using phase)
      · have none : (s.read.posedge edge).2 = .nothing := by
          simp [ReadChannel.posedge, state, taken, pins.rvalid, more]
        have next : (s.posedge edge).read = { s.read with
            decoder := s.read.decoder.posedge s.read.decDecompressEn s.read.decPatternTag s.read.decCompData,
            rvalid := false, arready := true, state := .idle } := by
          simp [read, ReadChannel.posedge, state, taken, pins.rvalid, more]
        have full : burst.beats.length = burst.len.toNat := by
          have least := Nat.not_lt.mp fun below => more (condition.mpr below)
          exact Nat.le_antisymm within least
        refine .inr ⟨⟨burst.add (s.read.beat displaced), ?_, ?_⟩, ?_⟩
        · rw [Complete, counted, full]
          rfl
        · rw [← whole]
          simp [none, PortDrive.nothing]
        · exact .idle (by rw [next]) (by rw [next]; exact ⟨rfl, rfl⟩) (by rw [next]; exact off)
            (free_of_read_nothing free none)

/-- Every edge carries the burst on or finishes it. -/
theorem ReadPhase.posedge {rest : List (ReadEvent idWidth addrWidth)}
    (phase : ReadPhase s.read s.port rest) (edge : Edge idWidth addrWidth) : ReadContinues s edge rest := by
  cases phase with
  | idle state pins off free => exact read_idle_step state pins off free
  | dramRead burst displaced state pins off serving shows =>
      exact dramRead_step burst displaced state pins off serving shows
  | decoding burst displaced state pins on free serving waits tag =>
      exact decoding_step burst displaced state pins on free serving waits tag
  | decoded burst displaced state pins off free serving line =>
      exact decoded_step burst displaced state pins off free serving line
  | burstEmit burst displaced state pins off free serving offer =>
      exact burstEmit_step burst displaced state pins off free serving offer

end Step

/-! ### A run -/

/-- In reset nothing is on the port, if `dram_cmd_valid`, which the reset leaves alone, is low. -/
theorem AtReset.readPhase {s : AxiTop idWidth addrWidth} (start : AtReset s) (low : s.port.cmdValid = false) :
    ReadPhase s.read s.port [] := by
  obtain ⟨activeId, currAddr, same⟩ := start.read
  refine .idle ?_ ?_ ?_ (DramPort.free_of_off false low)
  · rw [same]; rfl
  · rw [same]; exact ⟨rfl, rfl⟩
  · rw [same]; rfl

section Run

variable {start s : AxiTop idWidth addrWidth}
  {events : List (Edge idWidth addrWidth × Shown idWidth addrWidth)}

theorem run_readPhase (atReset : AtReset start) (low : start.port.cmdValid = false) (run : Run start events s) :
    Transactions Complete ReadBurst.events (ReadPhase s.read s.port)
      (events.flatMap fun event => event.2.2) := by
  refine run.transactions (fun shown => shown.2) (fun s => ReadPhase s.read s.port) (atReset.readPhase low) ?_
  intro s edge s' shown rest phase _ stepped
  cases stepped
  exact phase.posedge edge

/-! ### The total -/

/-- The lines the host has been given. -/
def givenLines (events : List (ReadEvent idWidth addrWidth)) : List (BitVec 512) :=
  events.filterMap fun event =>
    match event with
    | .r _ data _ _ => some data
    | _ => none

/-- The line that is counted and not yet taken by the host. -/
def ReadChannel.offered (c : ReadChannel idWidth addrWidth) : Nat :=
  if c.state = .burstEmit then 1 else 0

theorem givenLines_readEvents (s : AxiTop idWidth addrWidth) (edge : Edge idWidth addrWidth) :
    givenLines (s.readEvents edge) = if s.read.rvalid && edge.rready then [s.read.rdata] else [] := by
  have keep (event : ReadEvent idWidth addrWidth) (other : givenLines [event] = []) (p : Bool) :
      givenLines (if p then [event] else []) = [] := by
    cases p
    · rfl
    · exact other
  have append (xs ys : List (ReadEvent idWidth addrWidth)) :
      givenLines (xs ++ ys) = givenLines xs ++ givenLines ys := List.filterMap_append
  rw [readEvents, append, append, append, keep (.ar _ _ _) rfl, keep (.dramRead _ _) rfl, keep .displaced rfl,
    List.nil_append, List.append_nil, List.nil_append]
  split <;> rfl

/-- Every edge that offers a line or hands one over keeps the total right. -/
theorem ReadPhase.counts {edge : Edge idWidth addrWidth} {rest : List (ReadEvent idWidth addrWidth)} {given : Nat}
    (phase : ReadPhase s.read s.port rest)
    (total : s.read.totalLinesDecompressed = BitVec.ofNat 32 (given + s.read.offered)) :
    (s.posedge edge).read.totalLinesDecompressed =
      BitVec.ofNat 32 (given + (givenLines (s.readEvents edge)).length + (s.posedge edge).read.offered) := by
  have read : (s.posedge edge).read = (s.read.posedge edge).1 := rfl
  rw [givenLines_readEvents, read]
  cases phase with
  | idle state pins off free =>
      simp only [offered, state] at total
      simp only [pins.rvalid, Bool.false_and, Bool.false_eq_true, if_false, ReadChannel.posedge, state]
      split <;> simpa [offered, state] using total
  | dramRead burst displaced state pins off serving shows =>
      simp only [offered, state] at total
      simp only [pins.rvalid, Bool.false_and, Bool.false_eq_true, if_false, ReadChannel.posedge, state]
      split <;> simpa [offered, state] using total
  | decoding burst displaced state pins on free serving waits tag =>
      simp only [offered, state] at total
      simp only [pins.rvalid, Bool.false_and, Bool.false_eq_true, if_false, ReadChannel.posedge, state, waits]
      simpa [offered, state] using total
  | decoded burst displaced state pins off free serving line =>
      simp only [offered, state] at total
      simp only [pins.rvalid, Bool.false_and, Bool.false_eq_true, if_false, ReadChannel.posedge, state, line, if_true]
      rw [total]
      simp [offered, BitVec.ofNat_add]
  | burstEmit burst displaced state pins off free serving offer =>
      simp only [offered, state, if_true] at total
      simp only [pins.rvalid, Bool.true_and, Bool.and_true, ReadChannel.posedge, state]
      split
      · split <;> simpa [offered] using total
      · simpa [offered, state] using total

theorem run_given (atReset : AtReset start) (low : start.port.cmdValid = false) (run : Run start events s) :
    s.read.totalLinesDecompressed = BitVec.ofNat 32
      ((givenLines (events.flatMap fun event => event.2.2)).length + s.read.offered) := by
  have both : (∃ rest, ReadPhase s.read s.port rest) ∧ s.read.totalLinesDecompressed =
      BitVec.ofNat 32 ((givenLines (events.flatMap fun event => event.2.2)).length + s.read.offered) := by
    refine run.invariant (fun events s => (∃ rest, ReadPhase s.read s.port rest) ∧
      s.read.totalLinesDecompressed =
        BitVec.ofNat 32 ((givenLines (events.flatMap fun event => event.2.2)).length + s.read.offered))
      ⟨⟨[], atReset.readPhase low⟩, ?_⟩ ?_
    · obtain ⟨activeId, currAddr, same⟩ := atReset.read
      rw [same]
      rfl
    · intro events s edge s' shown inv _ stepped
      obtain ⟨⟨rest, phase⟩, total⟩ := inv
      cases stepped
      constructor
      · exact (phase.posedge edge).exists_begun
      · rw [List.flatMap_append, List.flatMap_singleton, givenLines, List.filterMap_append, List.length_append]
        exact phase.counts total
  exact both.2

/-- Over every run the read side shows whole bursts and a beginning, and counts the lines it has offered. -/
theorem reads_inBursts (atReset : AtReset start) (low : start.port.cmdValid = false) (run : Run start events s) :
    Transactions Complete ReadBurst.events (ReadPhase s.read s.port) (events.flatMap fun event => event.2.2) ∧
      s.read.totalLinesDecompressed = BitVec.ofNat 32
        ((givenLines (events.flatMap fun event => event.2.2)).length + s.read.offered) :=
  ⟨run_readPhase atReset low run, run_given atReset low run⟩

end Run

/-! ### A run with a displaced read -/

/-- Three lines are read, and a write takes the port while the second waits for the DRAM. -/
def threeBeats : List (Edge 8 36) :=
  [{ Edge.low with arvalid := true, arid := 7, araddr := 0x200, arlen := 2, awvalid := true, awaddr := 0x100 },
    { Edge.low with dramReady := true, dramRdata := 0x1F }, Edge.low, Edge.low,
    { Edge.low with wvalid := true, wlast := true, rready := true }, Edge.low, Edge.low,
    { Edge.low with dramReady := true, dramRdata := 0x2F }, Edge.low, Edge.low,
    { Edge.low with bready := true, rready := true },
    { Edge.low with dramReady := true, dramRdata := 0x3F }, Edge.low, Edge.low,
    { Edge.low with rready := true }]

/-- The second line is never read, and its beat carries what the DRAM showed as it took the write. -/
theorem reads_inBursts_threeBeats :
    (follow next poweredUp threeBeats).1.flatMap (fun event => event.2.2) =
        [.ar 7 0x200 2, .dramRead 0x200 0x1F, .r 7 0x1F 0 false, .displaced, .r 7 0x2F 0 false,
          .dramRead 0x280 0x3F, .r 7 0x3F 0 true] ∧
      Transactions Complete ReadBurst.events
        (ReadPhase (follow next poweredUp threeBeats).2.read (follow next poweredUp threeBeats).2.port)
        ((follow next poweredUp threeBeats).1.flatMap fun event => event.2.2) ∧
      (follow next poweredUp threeBeats).2.read.totalLinesDecompressed = 3 := by
  obtain ⟨bursts, total⟩ := reads_inBursts poweredUp_atReset rfl (Trace.follow (fun _ _ => rfl) poweredUp threeBeats)
  have shown : (follow next poweredUp threeBeats).1.flatMap (fun event => event.2.2) =
      [.ar 7 0x200 2, .dramRead 0x200 0x1F, .r 7 0x1F 0 false, .displaced, .r 7 0x2F 0 false,
        .dramRead 0x280 0x3F, .r 7 0x3F 0 true] := by decide +kernel
  refine ⟨shown, bursts, total.trans ?_⟩
  rw [shown]
  decide +kernel

end Zftl.Legacy.AxiTop
