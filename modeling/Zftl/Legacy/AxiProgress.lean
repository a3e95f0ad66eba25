/-
Module: Zftl.Legacy.AxiProgress
Layer: Legacy
Purpose: The memory controller does not hang. While the host and the DRAM answer, each channel has less to do after every
  edge, whatever the other one does, also when a command of its own is displaced on the way.
Imports: Zftl.Legacy.AxiReads
Trusted boundary: none
Main exports: WriteChannel.work, ReadChannel.work, channels_return
Open obligations: none
-/
import Zftl.Legacy.AxiReads

namespace Zftl.Legacy.AxiTop

variable {idWidth addrWidth : Nat}

/-- A bound on the edges until the response is taken. -/
def WriteChannel.work (c : WriteChannel idWidth addrWidth) : Nat :=
  let beats := 4 * (c.burstLen.toNat - c.burstCount.toNat)
  match c.state with
  | .idle => 0
  | .capture => beats + 5
  | .compress => if c.encCompressEn then beats + 4 else beats + 3
  | .dramWrite => beats + 2
  | .resp => 1

/-- A bound on the edges until the last beat is taken. -/
def ReadChannel.work (c : ReadChannel idWidth addrWidth) : Nat :=
  let beats := 4 * (c.burstLen.toNat - c.burstCount.toNat)
  match c.state with
  | .idle => 0
  | .dramRead => beats + 4
  | .decompress => if c.decDecompressEn then beats + 3 else beats + 2
  | .burstEmit => beats + 1

/-- Whoever the channels wait for answers. -/
structure Edge.Answers (edge : Edge idWidth addrWidth) : Prop where
  wvalid : edge.wvalid = true
  bready : edge.bready = true
  rready : edge.rready = true
  dramReady : edge.dramReady = true

section Step

variable {s : AxiTop idWidth addrWidth} {edge : Edge idWidth addrWidth}

theorem WritePhase.work_lt {rest : List (WriteEvent idWidth addrWidth)} (phase : WritePhase s.write s.port rest)
    (answers : edge.Answers) (busy : s.write.work ≠ 0) : (s.posedge edge).write.work < s.write.work := by
  have write : (s.posedge edge).write = (s.write.posedge edge).1 := rfl
  rw [write]
  cases phase with
  | idle state pins off free => simp [WriteChannel.work, state] at busy
  | capture burst state pins off free serving =>
      simp [WriteChannel.work, WriteChannel.posedge, state, answers.wvalid, pins.wready]
  | encoding burst state pins on free serving waits =>
      simp [WriteChannel.work, WriteChannel.posedge, state, waits, on]
  | encoded burst state pins off free serving line =>
      have valid : s.write.encoder.compressValid = true := by rw [line, encode_compressValid]
      simp [WriteChannel.work, WriteChannel.posedge, state, valid, off]
  | dramWrite burst displaced state pins off serving shows =>
      simp only [WriteChannel.posedge, state, answers.dramReady, if_true]
      split
      · next more =>
          have below := BitVec.lt_def.mp (of_decide_eq_true (Bool.and_eq_true_iff.mp more).1)
          have bound := s.write.burstLen.isLt
          have counted : (s.write.burstCount + 1).toNat = s.write.burstCount.toNat + 1 := by
            rw [BitVec.toNat_add]
            exact Nat.mod_eq_of_lt (by change _ + 1 < 256; omega)
          simp only [WriteChannel.work, state, counted]
          omega
      · simp only [WriteChannel.work, state]
        omega
  | resp burst state pins off free complete id okay =>
      simp [WriteChannel.work, WriteChannel.posedge, state, answers.bready]

theorem ReadPhase.work_lt {rest : List (ReadEvent idWidth addrWidth)} (phase : ReadPhase s.read s.port rest)
    (answers : edge.Answers) (busy : s.read.work ≠ 0) : (s.posedge edge).read.work < s.read.work := by
  have read : (s.posedge edge).read = (s.read.posedge edge).1 := rfl
  rw [read]
  cases phase with
  | idle state pins off free => simp [ReadChannel.work, state] at busy
  | dramRead burst displaced state pins off serving shows =>
      simp [ReadChannel.work, ReadChannel.posedge, state, answers.dramReady]
  | decoding burst displaced state pins on free serving waits tag =>
      simp [ReadChannel.work, ReadChannel.posedge, state, waits, on]
  | decoded burst displaced state pins off free serving line =>
      simp [ReadChannel.work, ReadChannel.posedge, state, line, off]
  | burstEmit burst displaced state pins off free serving offer =>
      simp only [ReadChannel.posedge, state, answers.rready, pins.rvalid, Bool.and_true, if_true]
      split
      · next more =>
          have below := BitVec.lt_def.mp more
          have bound := s.read.burstLen.isLt
          have counted : (s.read.burstCount + 1).toNat = s.read.burstCount.toNat + 1 := by
            rw [BitVec.toNat_add]
            exact Nat.mod_eq_of_lt (by change _ + 1 < 256; omega)
          simp only [ReadChannel.work, state, counted]
          omega
      · simp [ReadChannel.work, state]

/-- With nothing left to do a channel takes an address. -/
theorem WritePhase.awready_of_work {rest : List (WriteEvent idWidth addrWidth)}
    (phase : WritePhase s.write s.port rest) (done : s.write.work = 0) : s.write.awready = true := by
  simp only [WriteChannel.work] at done
  cases phase with
  | idle state pins off free => exact pins.awready
  | capture burst state pins off free serving => simp [state] at done
  | encoding burst state pins on free serving waits => simp [state, on] at done
  | encoded burst state pins off free serving line => simp [state, off] at done
  | dramWrite burst displaced state pins off serving shows => simp [state] at done
  | resp burst state pins off free complete id okay => simp [state] at done

theorem ReadPhase.arready_of_work {rest : List (ReadEvent idWidth addrWidth)}
    (phase : ReadPhase s.read s.port rest) (done : s.read.work = 0) : s.read.arready = true := by
  simp only [ReadChannel.work] at done
  cases phase with
  | idle state pins off free => exact pins.arready
  | dramRead burst displaced state pins off serving shows => simp [state] at done
  | decoding burst displaced state pins on free serving waits tag => simp [state, on] at done
  | decoded burst displaced state pins off free serving line => simp [state, off] at done
  | burstEmit burst displaced state pins off free serving offer => simp [state] at done

end Step

/-! ### A run -/

variable {start s : AxiTop idWidth addrWidth} {events : List (Edge idWidth addrWidth × Shown idWidth addrWidth)}

theorem WriteChannel.work_le (c : WriteChannel idWidth addrWidth) : c.work ≤ 1025 := by
  have bound := c.burstLen.isLt
  simp only [work]
  split <;> (try split) <;> omega

theorem ReadChannel.work_le (c : ReadChannel idWidth addrWidth) : c.work ≤ 1025 := by
  have bound := c.burstLen.isLt
  simp only [work]
  split <;> (try split) <;> omega

/-- From every state of every run, 1025 edges with answers bring each channel back to where it takes an address. -/
theorem channels_return (atReset : AtReset start) (low : start.port.cmdValid = false) (run : Run start events s)
    (edges : List (Edge idWidth addrWidth)) (answers : ∀ edge ∈ edges, edge.Answers) (many : 1025 ≤ edges.length) :
    (∃ k, k ≤ 1025 ∧ ((edges.take k).foldl posedge s).write.awready = true) ∧
      ∃ k, k ≤ 1025 ∧ ((edges.take k).foldl posedge s).read.arready = true := by
  constructor
  · obtain ⟨k, bound, ⟨rest, phase⟩, done⟩ := exists_done
      (fun s : AxiTop idWidth addrWidth => ∃ rest, WritePhase s.write s.port rest) Edge.Answers
      (fun s => s.write.work) (fun s edge ⟨rest, phase⟩ => (phase.posedge edge).exists_begun)
      (fun s edge ⟨rest, phase⟩ answers busy => phase.work_lt answers busy) s
      (run_writePhase atReset run).exists_begun edges answers (s.write.work_le.trans many)
    exact ⟨k, bound.trans s.write.work_le, phase.awready_of_work done⟩
  · obtain ⟨k, bound, ⟨rest, phase⟩, done⟩ := exists_done
      (fun s : AxiTop idWidth addrWidth => ∃ rest, ReadPhase s.read s.port rest) Edge.Answers
      (fun s => s.read.work) (fun s edge ⟨rest, phase⟩ => (phase.posedge edge).exists_begun)
      (fun s edge ⟨rest, phase⟩ answers busy => phase.work_lt answers busy) s
      (run_readPhase atReset low run).exists_begun edges answers (s.read.work_le.trans many)
    exact ⟨k, bound.trans s.read.work_le, phase.arready_of_work done⟩

def answering : Edge 8 36 :=
  { Edge.low with wvalid := true, bready := true, rready := true, dramReady := true }

theorem channels_return_overlapping :
    let s := (follow next poweredUp (overlapping.take 5)).2
    s.write.awready = false ∧ s.read.arready = false ∧
      ∃ k, k ≤ 1025 ∧ (((List.replicate 1025 answering).take k).foldl posedge s).write.awready = true :=
  ⟨by decide +kernel, by decide +kernel,
    (channels_return poweredUp_atReset rfl (Trace.follow (fun _ _ => rfl) _ _) (List.replicate 1025 answering)
      (fun _ mem => List.eq_of_mem_replicate mem ▸ ⟨rfl, rfl, rfl, rfl⟩)
      (Nat.le_of_eq List.length_replicate.symm)).1⟩

end Zftl.Legacy.AxiTop
