/-
Module: Zftl.Legacy.Capacity
Layer: Legacy
Purpose: How much physical memory makes the memory controller refuse nothing. Free slots are never joined or split, so
  every line may leave a slot of each size behind: one to four chunks, ten in all. With ten chunks for each line no
  write in range is refused in any run; with fewer, four writes of the whole memory are enough to have one refused.
Imports: Mathlib.Algebra.BigOperators.Ring.Finset, Mathlib.Algebra.Order.BigOperators.Group.Finset,
  Zftl.Legacy.Footprint, Zftl.Legacy.TornWrites
Trusted boundary: none
Main exports: MemoryLineTable.Sound, NeverRefuses, neverRefuses_iff
Open obligations: none
-/
import Mathlib.Algebra.BigOperators.Ring.Finset
import Mathlib.Algebra.Order.BigOperators.Group.Finset
import Zftl.Legacy.Footprint
import Zftl.Legacy.TornWrites

namespace Zftl.Legacy

open BaseDelta BDIEngine SlotPool

namespace MemoryLineTable

variable {t t' : MemoryLineTable} {content : Nat → Line} {i n : Nat} {line : Line}

/-- An intact line holds the chunks its content needs. -/
theorem Intact.chunksOf_eq (intact : t.Intact content) (below : i < t.totalLogicalLines) :
    t.chunksOf i = neededChunks (compress (content i)) := by
  have stored := intact.stored i below
  rw [Stored] at stored
  rw [chunksOf]
  split at stored
  · next valid => rw [if_pos valid, stored.1]
  · next invalid =>
    rw [if_neg invalid, stored]
    decide +kernel

/-- The table holds the lines, in a memory whose slots are accounted for, and it has no more slots of a size than
    lines. -/
structure Sound (t : MemoryLineTable) (content : Nat → Line) : Prop where
  intact : t.Intact content
  partitioned : t.Partitioned
  stocked : t.Stocked
  few : ∀ n, 0 < n → t.slots n ≤ t.totalLogicalLines

/-- A store that succeeds keeps all this, for the array with that line replaced. -/
theorem Sound.stored (sound : t.Sound content) (stored : t.storeLine i (compress line) = (true, t')) :
    t'.Sound (Function.update content i line) ∧ Restocked t t' i (compress line) := by
  have restocked := sound.partitioned.restocked stored
  have below := lt_of_stored (congrArg Prod.fst stored)
  refine ⟨⟨(storeLine_intact sound.intact stored).1, ?_, ?_, fun n some_chunks => ?_⟩, restocked⟩
  · exact (sound.partitioned.stored (wellFormed_compress line) (sound.intact.offsetFits _) stored).1
  · exact sound.stocked.stored sound.partitioned below stored
  · exact restocked.slots_le_lines some_chunks (sound.few n some_chunks)

/-- One slot of each size for every line. -/
theorem ten_chunks {lines : Nat} : ∑ n ∈ Finset.range 5, n * lines = 10 * lines := by
  rw [← Finset.sum_mul]
  rfl

/-- With ten chunks for each line, a store in range succeeds. -/
theorem Sound.accepts (sound : t.Sound content) (room : 10 * t.totalLogicalLines ≤ t.totalPhysicalChunks)
    (below : i < t.totalLogicalLines) (compLine : CompressedLine) : (t.storeLine i compLine).1 = true := by
  rw [sound.partitioned.storeLine_iff sound.stocked below]
  rw [← sound.stocked.sum_peaks below compLine]
  refine le_trans (Finset.sum_le_sum fun n _ => ?_) (le_of_eq_of_le ten_chunks room)
  rcases Nat.eq_zero_or_pos n with rfl | some_chunks
  · rw [Nat.zero_mul, Nat.zero_mul]
  · exact Nat.mul_le_mul_left n (Nat.max_le.mpr ⟨sound.few n some_chunks, inUse_le _ _ _⟩)

end MemoryLineTable

/-! ### The controller -/

namespace HyperRamController

/-- The controller has these capacities, the virtual one in whole lines, and a sound table. -/
structure Sound (config : ControllerConfig) (mem : Nat → BitVec 8) (c : HyperRamController) : Prop where
  config_eq : c.config = config
  lines : c.lineTable.totalLogicalLines = config.virtualCapacityBytes.toNat / 64
  total : c.lineTable.totalPhysicalChunks = config.physicalDramBytes.toNat / slotChunkSize
  table : c.lineTable.Sound (linesOf mem)

variable {config : ControllerConfig} {mem : Nat → BitVec 8} {c : HyperRamController} {address : Nat}
  {src : List (BitVec 8)}

theorem create_sound (whole : 64 ∣ config.virtualCapacityBytes.toNat)
    (chunks : config.physicalDramBytes.toNat / slotChunkSize ≤ 2 ^ 24) :
    Sound config (fun _ => 0) (.create config) where
  config_eq := rfl
  lines := by
    have short := config.virtualCapacityBytes.isLt
    change (config.virtualCapacityBytes.toNat + 64 - 1) % 2 ^ 64 / 64 = _
    omega
  total := rfl
  table :=
    { intact := (create_mirrors chunks).intact
      partitioned := .create _ _
      stocked := MemoryLineTable.stocked_of_empty rfl rfl rfl
      few := fun _ some_chunks => (MemoryLineTable.slots_of_empty rfl rfl some_chunks).trans_le (Nat.zero_le _) }

/-- A write in range is accepted and leaves no fewer slots of any size, or a store of it has been refused. -/
theorem Sound.write (sound : Sound config mem c) (whole : 64 ∣ config.virtualCapacityBytes.toNat)
    (some_bytes : src ≠ []) (inRange : address + src.length ≤ config.virtualCapacityBytes.toNat) :
    ((c.write address src).1 = true ∧ Sound config (overlay mem address src) (c.write address src).2 ∧
        ∀ n, 0 < n → c.lineTable.slots n ≤ (c.write address src).2.lineTable.slots n) ∨
      (c.write address src).1 = false ∧
        ∃ c' mem' i line, Sound config mem' c' ∧ i < config.virtualCapacityBytes.toNat / 64 ∧
          (c'.lineTable.storeLine i (compress line)).1 = false := by
  have nonempty : ¬src.length = 0 := fun zero => some_bytes (List.eq_nil_of_length_eq_zero zero)
  have inside : ¬c.OutOfRange address src.length := by
    rw [OutOfRange, sound.config_eq]
    omega
  rw [HyperRamController.write, if_neg nonempty, if_neg inside]
  have cases := writeLoop_cases
    (fun s mem => Sound config mem { c with lineTable := s } ∧ ∀ n, 0 < n → c.lineTable.slots n ≤ s.slots n)
    (fun s mem inv => ⟨inv.1.table.intact, inv.1.lines⟩) ?keeps
    (t := c.lineTable) ⟨sound, fun n _ => Nat.le_refl _⟩ (everyStore_true _ _ _) (Nat.le_refl src.length)
    (by omega : address + src.length ≤ config.virtualCapacityBytes.toNat / 64 * 64)
  case keeps =>
    rintro s s' mem mem' i line ⟨before, slots⟩ stored same
    obtain ⟨table, restocked⟩ := before.table.stored stored
    rw [← same] at table
    exact ⟨⟨before.config_eq, restocked.lines.trans before.lines, restocked.total.trans before.total, table⟩,
      fun n some_chunks => (slots n some_chunks).trans (restocked.slots_le some_chunks)⟩
  rcases cases with ⟨done, sound', slots⟩ | ⟨n, s, line, _, _, ⟨before, _⟩, inLines, _, refused, failed⟩
  · exact Or.inl ⟨done, sound', slots⟩
  · exact Or.inr ⟨refused, { c with lineTable := s }, _, _, line, before, inLines, congrArg Prod.fst failed⟩

/-- With ten chunks for each line it is accepted. -/
theorem Sound.accepted (sound : Sound config mem c) (whole : 64 ∣ config.virtualCapacityBytes.toNat)
    (room : 10 * (config.virtualCapacityBytes.toNat / 64) ≤ config.physicalDramBytes.toNat / slotChunkSize)
    (some_bytes : src ≠ []) (inRange : address + src.length ≤ config.virtualCapacityBytes.toNat) :
    (c.write address src).1 = true ∧ Sound config (overlay mem address src) (c.write address src).2 := by
  rcases sound.write whole some_bytes inRange with ⟨done, sound', _⟩ | ⟨_, c', mem', i, line, before, below, failed⟩
  · exact ⟨done, sound'⟩
  · rw [← before.lines] at room below
    rw [← before.total] at room
    exact absurd (failed.symm.trans (before.table.accepts room below _)) Bool.false_ne_true

/-- A write that is out of range, or of no bytes, leaves everything as it was. -/
theorem write_outOfRange (same : c.config = config)
    (refused : src = [] ∨ config.virtualCapacityBytes.toNat < address + src.length) : (c.write address src).2 = c := by
  rw [HyperRamController.write]
  split
  · rfl
  next nonempty =>
  rw [if_pos]
  rw [OutOfRange, same]
  rcases refused with rfl | beyond
  · exact absurd rfl nonempty
  · omega

/-- No write in range is refused, in any run. -/
def NeverRefuses (config : ControllerConfig) : Prop :=
  ∀ events c, Trace HyperRamController.call (fun _ _ => True) (.create config) events c →
    ∀ byteAddress src, src ≠ [] → byteAddress + src.length ≤ config.virtualCapacityBytes.toNat →
      (c.write byteAddress src).1 = true

theorem neverRefuses_of_room (whole : 64 ∣ config.virtualCapacityBytes.toNat)
    (chunks : config.physicalDramBytes.toNat / slotChunkSize ≤ 2 ^ 24)
    (room : 10 * (config.virtualCapacityBytes.toNat / 64) ≤ config.physicalDramBytes.toNat / slotChunkSize) :
    NeverRefuses config := by
  intro events c trace byteAddress src some_bytes inRange
  have sound : ∃ mem, Sound config mem c := by
    refine trace.invariant (fun _ c => ∃ mem, Sound config mem c) ⟨_, create_sound whole chunks⟩ ?_
    rintro _ c memoryCall c' reply ⟨mem, sound⟩ _ stepped
    cases memoryCall with
    | read byteAddress size =>
      obtain ⟨rfl, rfl⟩ := Prod.mk.inj (Except.ok.inj stepped)
      exact ⟨mem, sound⟩
    | write byteAddress src =>
      obtain ⟨rfl, rfl⟩ := Prod.mk.inj (Except.ok.inj stepped)
      by_cases refused : src = [] ∨ config.virtualCapacityBytes.toNat < byteAddress + src.length
      · rw [write_outOfRange sound.config_eq refused]
        exact ⟨mem, sound⟩
      · obtain ⟨nonempty, inRange⟩ := not_or.mp refused
        exact ⟨_, (sound.accepted whole room nonempty (Nat.le_of_not_lt inRange)).2⟩
  obtain ⟨mem, sound⟩ := sound
  exact (sound.accepted whole room some_bytes inRange).1

/-! ### Four writes of the whole memory -/

/-- A line that needs `n` chunks, for `n` from one to four. -/
def sizedLine : Nat → Line
  | 1 => MemoryLineTable.equalWords 1
  | 2 => pack 512 fun i => BitVec.ofNat 64 (2 ^ 40 + i * 2 ^ 10)
  | 3 => pack 512 fun i => BitVec.ofNat 64 (2 ^ 40 + i * 2 ^ 20)
  | _ => ascending

theorem neededChunks_sizedLine {n : Nat} (some_chunks : 0 < n) (few : n ≤ 4) :
    MemoryLineTable.neededChunks (compress (sizedLine n)) = n := by
  obtain rfl | rfl | rfl | rfl : n = 1 ∨ n = 2 ∨ n = 3 ∨ n = 4 := by omega
  all_goals decide +kernel

/-- The bytes of a memory in which every line is this one. -/
def fill (n bytes : Nat) : List (BitVec 8) := (List.range bytes).map fun k => field 8 (sizedLine n) (k % 64)

theorem linesOf_fill {n bytes i : Nat} (below : i < bytes / 64) :
    linesOf (overlay mem 0 (fill n bytes)) i = sizedLine n := by
  refine ext_field (w := 8) (n := 64) (by decide) (by decide) fun k inside => ?_
  have short : i * 64 + k < bytes := by omega
  rw [field_linesOf i inside, overlay, if_pos (Nat.zero_le _), Nat.sub_zero, List.getD_eq_getElem?_getD, fill,
    List.getElem?_map, List.getElem?_range short, Option.map_some, Option.getD_some]
  rw [show (i * 64 + k) % 64 = k by omega]

/-- Once all lines have had this size there is a slot of it for each. -/
theorem Sound.filled {n : Nat} (sound : Sound config (overlay mem 0 (fill n config.virtualCapacityBytes.toNat)) c)
    (some_chunks : 0 < n) (few : n ≤ 4) :
    config.virtualCapacityBytes.toNat / 64 ≤ c.lineTable.slots n := by
  have all : inUse c.lineTable.chunksOf c.lineTable.totalLogicalLines n = c.lineTable.totalLogicalLines := by
    refine inUse_all fun i below => ?_
    rw [sound.table.intact.chunksOf_eq below, linesOf_fill (sound.lines ▸ below),
      neededChunks_sizedLine some_chunks few]
  rw [← sound.lines]
  exact all.ge.trans (inUse_le_stock _ _ _ _)

/-- One of the four writes: it leaves a slot of its size for each line, and no fewer of the others. -/
theorem NeverRefuses.fill {events : List (MemoryCall × Reply)} {n : Nat} (never : NeverRefuses config)
    (whole : 64 ∣ config.virtualCapacityBytes.toNat) (bytes : 0 < config.virtualCapacityBytes.toNat)
    (some_chunks : 0 < n) (few : n ≤ 4)
    (trace : Trace HyperRamController.call (fun _ _ => True) (.create config) events c) (sound : Sound config mem c) :
    ∃ events' c' mem', Trace HyperRamController.call (fun _ _ => True) (.create config) events' c' ∧
      Sound config mem' c' ∧ config.virtualCapacityBytes.toNat / 64 ≤ c'.lineTable.slots n ∧
      ∀ m, 0 < m → c.lineTable.slots m ≤ c'.lineTable.slots m := by
  have length : (HyperRamController.fill n config.virtualCapacityBytes.toNat).length =
      config.virtualCapacityBytes.toNat := by
    rw [HyperRamController.fill, List.length_map, List.length_range]
  have some_bytes : HyperRamController.fill n config.virtualCapacityBytes.toNat ≠ [] := fun none => by
    rw [none] at length
    exact absurd length (Nat.ne_of_lt bytes)
  have inRange : 0 + (HyperRamController.fill n config.virtualCapacityBytes.toNat).length ≤
      config.virtualCapacityBytes.toNat := by omega
  have accepted := never events c trace 0 _ some_bytes inRange
  rcases sound.write whole some_bytes inRange with ⟨_, sound', slots⟩ | ⟨refused, _⟩
  · have stepped : c.call (.write 0 (HyperRamController.fill n config.virtualCapacityBytes.toNat)) =
        .ok (_, _) := rfl
    exact ⟨_, _, _, trace.snoc trivial stepped, sound', sound'.filled some_chunks few, slots⟩
  · exact absurd (refused.symm.trans accepted) Bool.false_ne_true

theorem room_of_neverRefuses (never : NeverRefuses config) (whole : 64 ∣ config.virtualCapacityBytes.toNat)
    (chunks : config.physicalDramBytes.toNat / slotChunkSize ≤ 2 ^ 24) :
    10 * (config.virtualCapacityBytes.toNat / 64) ≤ config.physicalDramBytes.toNat / slotChunkSize := by
  rcases Nat.eq_zero_or_pos config.virtualCapacityBytes.toNat with empty | bytes
  · rw [empty]
    exact Nat.zero_le _
  obtain ⟨_, _, _, trace, sound, one, _⟩ := never.fill whole bytes (n := 1) (by decide) (by decide) .nil
    (create_sound whole chunks)
  obtain ⟨_, _, _, trace, sound, two, kept⟩ := never.fill whole bytes (n := 2) (by decide) (by decide) trace sound
  have one := one.trans (kept 1 (by decide))
  obtain ⟨_, _, _, trace, sound, three, kept⟩ := never.fill whole bytes (n := 3) (by decide) (by decide) trace sound
  have one := one.trans (kept 1 (by decide))
  have two := two.trans (kept 2 (by decide))
  obtain ⟨_, c, _, _, sound, four, kept⟩ := never.fill whole bytes (n := 4) (by decide) (by decide) trace sound
  have one := one.trans (kept 1 (by decide))
  have two := two.trans (kept 2 (by decide))
  have three := three.trans (kept 3 (by decide))
  have next : c.lineTable.nextUnpartitionedChunk = ∑ n ∈ Finset.range 5, n * c.lineTable.slots n :=
    sound.table.stocked.balanced
  have next_le := sound.table.stocked.next_le
  rw [sound.total] at next_le
  simp only [Finset.sum_range_succ, Finset.sum_range_zero] at next
  omega

/-- For a virtual memory of whole lines and a physical memory of at most 2^24 chunks: no write in range is ever refused
    exactly if there are ten chunks for each line. -/
theorem neverRefuses_iff (whole : 64 ∣ config.virtualCapacityBytes.toNat)
    (chunks : config.physicalDramBytes.toNat / slotChunkSize ≤ 2 ^ 24) :
    NeverRefuses config ↔
      10 * (config.virtualCapacityBytes.toNat / 64) ≤ config.physicalDramBytes.toNat / slotChunkSize :=
  ⟨fun never => room_of_neverRefuses never whole chunks, neverRefuses_of_room whole chunks⟩

/-- For two lines twenty chunks are enough and nineteen are not. -/
theorem neverRefuses_twoLines :
    NeverRefuses { virtualCapacityBytes := 128, physicalDramBytes := 320 } ∧
      ¬NeverRefuses { virtualCapacityBytes := 128, physicalDramBytes := 304 } :=
  ⟨(neverRefuses_iff (by decide) (by decide)).mpr (by decide), fun never =>
    absurd ((neverRefuses_iff (by decide) (by decide)).mp never) (by decide)⟩

end HyperRamController

end Zftl.Legacy
