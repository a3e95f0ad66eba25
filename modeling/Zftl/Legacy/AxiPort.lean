/-
Module: Zftl.Legacy.AxiPort
Layer: Legacy
Purpose: What two blocks that assign the same DRAM port do to each other's commands. One block issues commands of one
  kind and releases the port, the other does the same with the other kind; `merge` is the port after both have
  assigned. The lemmas are said for either block: `kind` is that of its own commands, and `ownLast` tells whether
  its assignments last.
Imports: Zftl.Legacy.AxiTop
Trusted boundary: none
Main exports: DramPort.Free, DramPort.Shows, PortDrive.Commands, merge, Commands.shows_merge, Commands.free_merge
Open obligations: none
-/
import Zftl.Legacy.AxiTop

namespace Zftl.Legacy.AxiTop

variable {idWidth addrWidth : Nat}

/-- No command of this kind is on the port. -/
def DramPort.Free (port : DramPort addrWidth) (kind : Bool) : Prop :=
  port.cmdValid = true → port.cmdWrite = !kind

/-- A command of this kind is on the port. -/
structure DramPort.Shows (port : DramPort addrWidth) (kind : Bool) (addr : BitVec addrWidth) : Prop where
  cmdValid : port.cmdValid = true
  cmdWrite : port.cmdWrite = kind
  addr : port.addr = addr

/-- The assignments issue a command of this kind. -/
structure PortDrive.Issues (drive : PortDrive addrWidth) (kind : Bool) (addr : BitVec addrWidth) : Prop where
  cmdValid : drive.cmdValid = some true
  cmdWrite : drive.cmdWrite = some kind
  addr : drive.addr = some addr

/-- The assignments of a block whose commands are of one kind. -/
def PortDrive.Commands (drive : PortDrive addrWidth) (kind : Bool) : Prop :=
  drive = .nothing ∨ drive = .release ∨ ∃ addr, drive.Issues kind addr

/-- The port after both blocks have assigned it. -/
def merge (port : DramPort addrWidth) (own other : PortDrive addrWidth) (ownLast : Bool) : DramPort addrWidth :=
  if ownLast then (port.apply other).apply own else (port.apply own).apply other

@[simp] theorem DramPort.apply_nothing (port : DramPort addrWidth) : port.apply .nothing = port := rfl

@[simp] theorem merge_nothing (port : DramPort addrWidth) (other : PortDrive addrWidth) (ownLast : Bool) :
    merge port .nothing other ownLast = port.apply other := by
  cases ownLast <;> rfl

theorem DramPort.free_of_off {port : DramPort addrWidth} (kind : Bool) (off : port.cmdValid = false) :
    port.Free kind :=
  fun on => absurd (off.symm.trans on) Bool.false_ne_true

theorem DramPort.Shows.not_free {port : DramPort addrWidth} {kind : Bool} {addr : BitVec addrWidth}
    (shows : port.Shows (!kind) addr) : port.Free kind := fun _ => shows.cmdWrite

theorem PortDrive.Issues.shows {drive : PortDrive addrWidth} {kind : Bool} {addr : BitVec addrWidth}
    (issues : drive.Issues kind addr) (port : DramPort addrWidth) : (port.apply drive).Shows kind addr :=
  ⟨by rw [DramPort.apply, issues.cmdValid]; rfl, by rw [DramPort.apply, issues.cmdWrite]; rfl,
    by rw [DramPort.apply, issues.addr]; rfl⟩

namespace PortDrive.Commands

variable {own other : PortDrive addrWidth} {kind : Bool} {port : DramPort addrWidth}

theorem nothing_of_not_drives (commands : other.Commands kind) (not : other.drives = false) :
    other = .nothing := by
  rcases commands with same | same | ⟨addr, issues⟩
  · exact same
  · rw [same] at not
    cases not
  · rw [drives, issues.cmdValid] at not
    cases not

/-- Where the other block has the last word, no command of the own kind is on the port. -/
theorem free_of_drives (commands : other.Commands (!kind)) (drives : other.drives = true)
    (port : DramPort addrWidth) : (port.apply other).Free kind := by
  rcases commands with same | same | ⟨addr, issues⟩
  · rw [same] at drives
    cases drives
  · rw [same]
    exact DramPort.free_of_off kind rfl
  · exact (issues.shows port).not_free

/-- The other block never puts a command of the own kind on the port. -/
theorem free_apply (commands : other.Commands (!kind)) (free : port.Free kind) :
    (port.apply other).Free kind := by
  cases drives : other.drives with
  | true => exact commands.free_of_drives drives port
  | false =>
      rw [commands.nothing_of_not_drives drives]
      exact free

/-- A command that is released is gone, whichever block has the last word. -/
theorem free_merge_release (commands : other.Commands (!kind)) (ownLast : Bool) :
    (merge port .release other ownLast).Free kind := by
  cases ownLast with
  | true => exact DramPort.free_of_off kind rfl
  | false => exact commands.free_apply (DramPort.free_of_off kind rfl)

/-- A command that is issued is on the port, with its data, unless the other block has the last word. -/
theorem merge_issues {addr : BitVec addrWidth} (commands : other.Commands (!kind)) (issues : own.Issues kind addr)
    (port : DramPort addrWidth) (ownLast : Bool) :
    if other.drives && !ownLast then (merge port own other ownLast).Free kind
    else (merge port own other ownLast).Shows kind addr ∧
      ∀ wdata, own.wdata = some wdata → (merge port own other ownLast).wdata = wdata := by
  have carries (port : DramPort addrWidth) (wdata : BitVec 512) (data : own.wdata = some wdata) :
      (port.apply own).wdata = wdata := by rw [DramPort.apply, data]; rfl
  cases ownLast with
  | true =>
      rw [Bool.not_true, Bool.and_false, if_neg Bool.false_ne_true]
      exact ⟨issues.shows _, carries _⟩
  | false =>
      rw [Bool.not_false, Bool.and_true]
      cases drives : other.drives with
      | true =>
          rw [if_pos rfl]
          exact commands.free_of_drives drives _
      | false =>
          rw [if_neg Bool.false_ne_true, commands.nothing_of_not_drives drives]
          exact ⟨issues.shows _, carries _⟩

end PortDrive.Commands

/-! ### The two channels -/

/-- The write channel issues writes. -/
theorem WriteChannel.commands (c : WriteChannel idWidth addrWidth) (edge : Edge idWidth addrWidth) :
    (c.posedge edge).2.Commands true := by
  unfold posedge
  cases c.state with
  | idle =>
      dsimp only
      split <;> exact .inl rfl
  | capture =>
      dsimp only
      split <;> exact .inl rfl
  | compress =>
      dsimp only
      split
      · exact .inr (.inr ⟨_, rfl, rfl, rfl⟩)
      · exact .inl rfl
  | dramWrite =>
      dsimp only
      split
      · split <;> exact .inr (.inl rfl)
      · exact .inl rfl
  | resp =>
      dsimp only
      split <;> exact .inl rfl

/-- The read channel issues reads. -/
theorem ReadChannel.commands (c : ReadChannel idWidth addrWidth) (edge : Edge idWidth addrWidth) :
    (c.posedge edge).2.Commands false := by
  unfold posedge
  cases c.state with
  | idle =>
      dsimp only
      split
      · exact .inr (.inr ⟨_, rfl, rfl, rfl⟩)
      · exact .inl rfl
  | dramRead =>
      dsimp only
      split
      · exact .inr (.inl rfl)
      · exact .inl rfl
  | decompress =>
      dsimp only
      split <;> exact .inl rfl
  | burstEmit =>
      dsimp only
      split
      · split
        · exact .inr (.inr ⟨_, rfl, rfl, rfl⟩)
        · exact .inl rfl
      · exact .inl rfl

variable {s : AxiTop idWidth addrWidth} {edge : Edge idWidth addrWidth}

/-- The port as the write channel sees it. -/
theorem port_of_write : (s.posedge edge).port =
    merge s.port (s.write.posedge edge).2 (s.read.posedge edge).2 (!edge.readLast) := by
  cases last : edge.readLast <;> simp [posedge, merge, last]

/-- The port as the read channel sees it. -/
theorem port_of_read : (s.posedge edge).port =
    merge s.port (s.read.posedge edge).2 (s.write.posedge edge).2 edge.readLast := by
  cases last : edge.readLast <;> simp [posedge, merge, last]

/-- No write is taken. -/
theorem DramPort.Free.no_write {port : DramPort addrWidth} (free : port.Free true) :
    (port.cmdValid && port.cmdWrite) = false := by
  cases valid : port.cmdValid with
  | false => rfl
  | true => rw [free valid]; rfl

/-- No read is taken. -/
theorem DramPort.Free.no_read {port : DramPort addrWidth} (free : port.Free false) :
    (port.cmdValid && !port.cmdWrite) = false := by
  cases valid : port.cmdValid with
  | false => rfl
  | true => rw [free valid]; rfl

end Zftl.Legacy.AxiTop
