/-
Module: Zftl.Legacy.AsyncFifo
Layer: Legacy
Purpose: The dual-clock FIFO of the memory controller, for every address and data width. Each clock domain has its
  pointer, in binary and in Gray code, and a two-stage copy of the other domain's Gray pointer. The full flag
  and the next write pointer are defined by each other, so a write edge takes any pair that solves the two
  equations; `solved_iff` says when there is exactly one. `FifoRun` lists the words written and read.
Imports: Mathlib.Logic.Function.Basic, Zftl.Lib.GrayCode
Trusted boundary: human-reviewed translation of axi_async_fifo.v
Main exports: WriteDomain, ReadDomain, AsyncFifo, Solves, HasRoom, solved_iff, FifoRun
Open obligations: none
-/
import Mathlib.Logic.Function.Basic
import Zftl.Lib.GrayCode

namespace Zftl.Legacy

open GrayCode

/-- The registers clocked by `wclk`: the write pointer and the synchronised read pointer. -/
structure WriteDomain (addrWidth : Nat) where
  wptrBin : BitVec (addrWidth + 1)
  wptrGray : BitVec (addrWidth + 1)
  rptrGraySync1 : BitVec (addrWidth + 1)
  rptrGraySync2 : BitVec (addrWidth + 1)

/-- The registers clocked by `rclk`: the read pointer and the synchronised write pointer. -/
structure ReadDomain (addrWidth : Nat) where
  rptrBin : BitVec (addrWidth + 1)
  rptrGray : BitVec (addrWidth + 1)
  wptrGraySync1 : BitVec (addrWidth + 1)
  wptrGraySync2 : BitVec (addrWidth + 1)

/-- The FIFO: the memory and the two domains. -/
structure AsyncFifo (addrWidth dataWidth : Nat) where
  mem : BitVec addrWidth → BitVec dataWidth
  write : WriteDomain addrWidth
  read : ReadDomain addrWidth

variable {addrWidth dataWidth : Nat}

/-- A Gray pointer with its two top bits inverted:
    `{~gray[ADDR_WIDTH:ADDR_WIDTH-1], gray[ADDR_WIDTH-2:0]}`. -/
def fullPattern (gray : BitVec (addrWidth + 1)) : BitVec (addrWidth + 1) :=
  (~~~gray.extractLsb' (addrWidth - 1) 2 ++ gray.extractLsb' 0 (addrWidth - 1)).setWidth (addrWidth + 1)

namespace WriteDomain

/-- `wptr_bin_next` for a value of `wfull`. -/
def wptrBinNext (d : WriteDomain addrWidth) (winc wfull : Bool) : BitVec (addrWidth + 1) :=
  d.wptrBin + if winc && !wfull then 1 else 0

/-- The two equations of the write side: `wptr_bin_next` from `wfull`, and `wfull` from `wptr_gray_next`. -/
structure Solves (d : WriteDomain addrWidth) (winc wfull : Bool) (next : BitVec (addrWidth + 1)) :
    Prop where
  pointer : next = d.wptrBinNext winc wfull
  full : wfull = decide (gray next = fullPattern d.rptrGraySync2)

/-- The two equations have exactly one solution. -/
def Solved (d : WriteDomain addrWidth) (winc : Bool) : Prop :=
  ∃! solution : Bool × BitVec (addrWidth + 1), d.Solves winc solution.1 solution.2

/-- A write is requested only if neither the write pointer nor its successor is the full pattern of the read
    pointer as it is synchronised. -/
def HasRoom (d : WriteDomain addrWidth) (winc : Bool) : Prop :=
  winc = true → gray d.wptrBin ≠ fullPattern d.rptrGraySync2 ∧
    gray (d.wptrBin + 1) ≠ fullPattern d.rptrGraySync2

instance (d : WriteDomain addrWidth) (winc : Bool) : Decidable (d.HasRoom winc) :=
  inferInstanceAs (Decidable (winc = true → gray d.wptrBin ≠ fullPattern d.rptrGraySync2 ∧
    gray (d.wptrBin + 1) ≠ fullPattern d.rptrGraySync2))

/-- The registers after an edge of `wclk`. -/
def edge (d : WriteDomain addrWidth) (rptrGray next : BitVec (addrWidth + 1)) :
    WriteDomain addrWidth :=
  { wptrBin := next, wptrGray := gray next, rptrGraySync1 := rptrGray,
    rptrGraySync2 := d.rptrGraySync1 }

@[simp] theorem wptrBinNext_idle (d : WriteDomain addrWidth) (wfull : Bool) :
    d.wptrBinNext false wfull = d.wptrBin := BitVec.add_zero _

@[simp] theorem wptrBinNext_full (d : WriteDomain addrWidth) (winc : Bool) :
    d.wptrBinNext winc true = d.wptrBin := by
  cases winc <;> exact BitVec.add_zero _

@[simp] theorem wptrBinNext_write (d : WriteDomain addrWidth) :
    d.wptrBinNext true false = d.wptrBin + 1 := rfl

/-- For a requested write, `wfull` up is a solution if the pointer itself is the full pattern. -/
theorem solves_full (d : WriteDomain addrWidth) :
    d.Solves true true d.wptrBin ↔ gray d.wptrBin = fullPattern d.rptrGraySync2 := by
  constructor
  · exact fun solves => of_decide_eq_true solves.full.symm
  · exact fun full => ⟨(wptrBinNext_full d true).symm, (decide_eq_true full).symm⟩

/-- For a requested write, `wfull` down is a solution if the next pointer is not the full pattern. -/
theorem solves_write (d : WriteDomain addrWidth) :
    d.Solves true false (d.wptrBin + 1) ↔ gray (d.wptrBin + 1) ≠ fullPattern d.rptrGraySync2 := by
  constructor
  · exact fun solves => of_decide_eq_false solves.full.symm
  · exact fun notFull => ⟨rfl, (decide_eq_false notFull).symm⟩

/-- For a requested write there are no other solutions. -/
theorem solves_iff {d : WriteDomain addrWidth} {wfull : Bool} {next : BitVec (addrWidth + 1)} :
    d.Solves true wfull next ↔
      (wfull = true ∧ next = d.wptrBin ∧ gray d.wptrBin = fullPattern d.rptrGraySync2) ∨
        (wfull = false ∧ next = d.wptrBin + 1 ∧ gray (d.wptrBin + 1) ≠ fullPattern d.rptrGraySync2) := by
  constructor
  · intro solves
    have pointer := solves.pointer
    cases wfull with
    | true =>
        rw [wptrBinNext_full] at pointer
        subst pointer
        exact Or.inl ⟨rfl, rfl, (solves_full d).mp solves⟩
    | false =>
        rw [wptrBinNext_write] at pointer
        subst pointer
        exact Or.inr ⟨rfl, rfl, (solves_write d).mp solves⟩
  · rintro (⟨rfl, rfl, full⟩ | ⟨rfl, rfl, notFull⟩)
    · exact (solves_full d).mpr full
    · exact (solves_write d).mpr notFull

/-- The equations have exactly one solution if and only if a requested write has room: seen full they have two,
    and with one place left they have none. -/
theorem solved_iff (d : WriteDomain addrWidth) (winc : Bool) : d.Solved winc ↔ d.HasRoom winc := by
  cases winc with
  | false =>
      refine ⟨fun _ requested => absurd requested Bool.false_ne_true, fun _ => ?_⟩
      refine ⟨(decide (gray d.wptrBin = fullPattern d.rptrGraySync2), d.wptrBin),
        ⟨(wptrBinNext_idle d _).symm, rfl⟩, ?_⟩
      rintro ⟨wfull, next⟩ solves
      have pointer : next = d.wptrBin := by simpa using solves.pointer
      have flag := solves.full
      simp only [pointer] at flag
      rw [pointer, flag]
  | true =>
      constructor
      · rintro ⟨⟨wfull, next⟩, solves, unique⟩ _
        have notFull : gray d.wptrBin ≠ fullPattern d.rptrGraySync2 := by
          intro full
          have differs : gray (d.wptrBin + 1) ≠ fullPattern d.rptrGraySync2 := fun also =>
            ne_add_one d.wptrBin (gray_injective (full.trans also.symm))
          have two := (unique (true, d.wptrBin) ((solves_full d).mpr full)).trans
            (unique (false, d.wptrBin + 1) ((solves_write d).mpr differs)).symm
          cases congrArg Prod.fst two
        obtain ⟨_, _, full⟩ | ⟨_, _, notNext⟩ := solves_iff.mp solves
        · exact absurd full notFull
        · exact ⟨notFull, notNext⟩
      · intro room
        obtain ⟨notFull, notNext⟩ := room rfl
        refine ⟨(false, d.wptrBin + 1), (solves_write d).mpr notNext, ?_⟩
        rintro ⟨wfull, next⟩ solves
        obtain ⟨_, _, full⟩ | ⟨rfl, rfl, _⟩ := solves_iff.mp solves
        · exact absurd full notFull
        · rfl

/-- With room, the solution accepts every requested write. -/
theorem Solves.of_hasRoom {d : WriteDomain addrWidth} {winc wfull : Bool}
    {next : BitVec (addrWidth + 1)} (solves : d.Solves winc wfull next) (room : d.HasRoom winc)
    (requested : winc = true) : wfull = false ∧ next = d.wptrBin + 1 := by
  subst requested
  obtain ⟨_, _, full⟩ | ⟨up, pointer, _⟩ := solves_iff.mp solves
  · exact absurd full (room rfl).1
  · exact ⟨up, pointer⟩

end WriteDomain

namespace ReadDomain

/-- `rempty`. -/
def rempty (d : ReadDomain addrWidth) : Bool := decide (d.rptrGray = d.wptrGraySync2)

/-- `rptr_bin_next`. -/
def rptrBinNext (d : ReadDomain addrWidth) (rinc : Bool) : BitVec (addrWidth + 1) :=
  d.rptrBin + if rinc && !d.rempty then 1 else 0

/-- The registers after an edge of `rclk`. -/
def edge (d : ReadDomain addrWidth) (wptrGray : BitVec (addrWidth + 1)) (rinc : Bool) :
    ReadDomain addrWidth :=
  { rptrBin := d.rptrBinNext rinc, rptrGray := gray (d.rptrBinNext rinc), wptrGraySync1 := wptrGray,
    wptrGraySync2 := d.wptrGraySync1 }

end ReadDomain

namespace AsyncFifo

/-- The FIFO after both resets: the memory is not reset. -/
def reset (mem : BitVec addrWidth → BitVec dataWidth) : AsyncFifo addrWidth dataWidth :=
  { mem := mem, write := ⟨0, 0, 0, 0⟩, read := ⟨0, 0, 0, 0⟩ }

/-- The word that an edge of `wclk` stores. -/
def accepts (winc wfull : Bool) (wdata : BitVec dataWidth) : Option (BitVec dataWidth) :=
  if winc && !wfull then some wdata else none

/-- The memory after an edge of `wclk`. -/
def store (fifo : AsyncFifo addrWidth dataWidth) (word : Option (BitVec dataWidth)) :
    BitVec addrWidth → BitVec dataWidth :=
  match word with
  | some wdata => Function.update fifo.mem (fifo.write.wptrBin.setWidth addrWidth) wdata
  | none => fifo.mem

/-- `rdata`. -/
def rdata (fifo : AsyncFifo addrWidth dataWidth) : BitVec dataWidth :=
  fifo.mem (fifo.read.rptrBin.setWidth addrWidth)

/-- The word that an edge of `rclk` takes. -/
def delivers (fifo : AsyncFifo addrWidth dataWidth) (rinc : Bool) : Option (BitVec dataWidth) :=
  if rinc && !fifo.read.rempty then some fifo.rdata else none

end AsyncFifo

/-- The runs of the FIFO after both resets, over any edges of the two clocks, with the words written and read so
    far. `Allowed` restricts the write edges. When both clocks rise together, each domain reads the registers
    of the other as they were. -/
inductive FifoRun (Allowed : WriteDomain addrWidth → Bool → Prop) :
    AsyncFifo addrWidth dataWidth → List (BitVec dataWidth) → List (BitVec dataWidth) → Prop where
  | reset (mem : BitVec addrWidth → BitVec dataWidth) : FifoRun Allowed (.reset mem) [] []
  | write {fifo : AsyncFifo addrWidth dataWidth} {written got : List (BitVec dataWidth)}
      (before : FifoRun Allowed fifo written got) (winc : Bool) (wdata : BitVec dataWidth)
      (allowed : Allowed fifo.write winc) {wfull : Bool} {next : BitVec (addrWidth + 1)}
      (solves : fifo.write.Solves winc wfull next) :
      FifoRun Allowed
        { fifo with
          mem := fifo.store (AsyncFifo.accepts winc wfull wdata)
          write := fifo.write.edge fifo.read.rptrGray next }
        (written ++ (AsyncFifo.accepts winc wfull wdata).toList) got
  | read {fifo : AsyncFifo addrWidth dataWidth} {written got : List (BitVec dataWidth)}
      (before : FifoRun Allowed fifo written got) (rinc : Bool) :
      FifoRun Allowed { fifo with read := fifo.read.edge fifo.write.wptrGray rinc } written
        (got ++ (fifo.delivers rinc).toList)
  | both {fifo : AsyncFifo addrWidth dataWidth} {written got : List (BitVec dataWidth)}
      (before : FifoRun Allowed fifo written got) (winc : Bool) (wdata : BitVec dataWidth)
      (rinc : Bool) (allowed : Allowed fifo.write winc) {wfull : Bool}
      {next : BitVec (addrWidth + 1)} (solves : fifo.write.Solves winc wfull next) :
      FifoRun Allowed
        { mem := fifo.store (AsyncFifo.accepts winc wfull wdata)
          write := fifo.write.edge fifo.read.rptrGray next
          read := fifo.read.edge fifo.write.wptrGray rinc }
        (written ++ (AsyncFifo.accepts winc wfull wdata).toList)
        (got ++ (fifo.delivers rinc).toList)

end Zftl.Legacy
