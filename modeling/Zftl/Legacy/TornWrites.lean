/-
Module: Zftl.Legacy.TornWrites
Layer: Legacy
Purpose: The memory controller refines a flat memory that may refuse writes. A write in range that is refused is torn:
  what it has stored is a beginning of its bytes that ends where a line begins, and nothing else has changed.
  This holds as long as no store returns a slot without finding another.
Imports: Zftl.Legacy.FlatMemory, Zftl.Legacy.StoreFailure
Trusted boundary: none
Main exports: everyStore, writeLoop_cases, FlatStep, FlatRun, Resizes, trace_torn
Open obligations: none
-/
import Zftl.Legacy.FlatMemory
import Zftl.Legacy.StoreFailure

namespace Zftl.Legacy

open BaseDelta BDIEngine

/-! ### The loop of a write -/

/-- Every store the loop of `Write` makes is one that meets the condition; the loop ends at a store that fails. -/
def everyStore (Meets : MemoryLineTable → Nat → CompressedLine → Prop)
    [∀ t i compLine, Decidable (Meets t i compLine)] :
    (turns : Nat) → MemoryLineTable → (startAddr : Nat) → List (BitVec 8) → Bool
  | 0, _, _, _ => true
  | turns + 1, t, startAddr, src =>
    if src = [] then true
    else
      let toWrite := min src.length (64 - startAddr % 64)
      match writeBuffer t startAddr src with
      | none => true
      | some lineBuf =>
        let stored := t.storeLine (startAddr / 64) (compress lineBuf)
        decide (Meets t (startAddr / 64) (compress lineBuf)) &&
          if stored.1 then everyStore Meets turns stored.2 (startAddr + toWrite) (src.drop toWrite) else true

/-- The rule of the loop of `Write`, inside the lines: for an invariant that every store which succeeds keeps, the loop
    stores all bytes, or it ends with a store that fails, at the start of the write or of a line, and has stored the
    bytes before. -/
theorem writeLoop_cases {lines : Nat} {Meets : MemoryLineTable → Nat → CompressedLine → Prop}
    [∀ t i compLine, Decidable (Meets t i compLine)] (Inv : MemoryLineTable → (Nat → BitVec 8) → Prop)
    (intact : ∀ t mem, Inv t mem → t.Intact (linesOf mem) ∧ t.totalLogicalLines = lines)
    (keeps : ∀ t t' mem mem' i line, Inv t mem → t.storeLine i (compress line) = (true, t') →
      linesOf mem' = Function.update (linesOf mem) i line → Inv t' mem')
    {turns : Nat} {t : MemoryLineTable} {mem : Nat → BitVec 8} {start : Nat} {src : List (BitVec 8)}
    (inv : Inv t mem) (meets : everyStore Meets turns t start src = true) (enough : src.length ≤ turns)
    (inside : start + src.length ≤ lines * 64) :
    ((writeLoop turns t start src).1 = true ∧ Inv (writeLoop turns t start src).2 (overlay mem start src)) ∨
      ∃ n s line, n < src.length ∧ (n = 0 ∨ (start + n) % 64 = 0) ∧ Inv s (overlay mem start (src.take n)) ∧
        (start + n) / 64 < lines ∧ Meets s ((start + n) / 64) (compress line) ∧
        (writeLoop turns t start src).1 = false ∧
        s.storeLine ((start + n) / 64) (compress line) = (false, (writeLoop turns t start src).2) := by
  induction turns generalizing t mem start src with
  | zero =>
    have none : src = [] := List.eq_nil_of_length_eq_zero (by omega)
    refine Or.inl ⟨by rw [none]; rfl, ?_⟩
    rw [none, overlay_nil]
    exact inv
  | succ turns ih =>
    rw [writeLoop]
    rw [everyStore] at meets
    by_cases none : src = []
    · rw [if_pos none, none, overlay_nil]
      exact Or.inl ⟨rfl, inv⟩
    have some_bytes : src.length ≠ 0 := fun zero => none (List.eq_nil_of_length_eq_zero zero)
    have taken := @taken_pos start _ some_bytes
    obtain ⟨whole, same⟩ := intact t mem inv
    have below : start / 64 < lines := by omega
    have buffer : ∃ lineBuf, writeBuffer t start src = some lineBuf := by
      rw [writeBuffer]
      split
      · exact ⟨_, rfl⟩
      · rw [MemoryLineTable.loadLine_intact whole (same ▸ below)]
        exact ⟨_, rfl⟩
    obtain ⟨lineBuf, buffer⟩ := buffer
    rw [if_neg none, buffer] at meets ⊢
    dsimp only at meets ⊢
    obtain ⟨here, later⟩ := Bool.and_eq_true_iff.mp meets
    cases ok : (t.storeLine (start / 64) (compress lineBuf)).1 with
    | false =>
      refine Or.inr ⟨0, t, lineBuf, by omega, Or.inl rfl, ?_, below, of_decide_eq_true here, rfl, Prod.ext ok rfl⟩
      rw [List.take_zero, overlay_nil]
      exact inv
    | true =>
      rw [if_pos rfl]
      rw [if_pos ok] at later
      have piece := List.length_take_le (min src.length (64 - start % 64)) src
      have stored := keeps t _ mem _ _ lineBuf inv (Prod.ext ok rfl)
        (by rw [writeBuffer_eq whole buffer]; exact linesOf_overlay (by omega))
      have rest := @ih _ _ (start + min src.length (64 - start % 64)) (src.drop (min src.length (64 - start % 64)))
        stored later (by rw [List.length_drop]; omega) (by rw [List.length_drop]; omega)
      rw [overlay_take_drop (Nat.min_le_left _ _)] at rest
      rcases rest with done | ⟨n, s, line, early, boundary, before, inLines, met, refused, failed⟩
      · exact Or.inl done
      · rw [List.length_drop] at early
        have taken_length : (src.take (min src.length (64 - start % 64))).length =
            min src.length (64 - start % 64) := by
          rw [List.length_take]
          omega
        have pieces := @overlay_append mem start (src.take (min src.length (64 - start % 64)))
          ((src.drop (min src.length (64 - start % 64))).take n)
        rw [taken_length, ← List.take_add] at pieces
        rw [pieces] at before
        rw [Nat.add_assoc] at boundary inLines met failed
        refine Or.inr ⟨_, s, line, by omega, Or.inr ?_, before, inLines, met, refused, failed⟩
        rcases boundary with first | boundary
        · subst first
          omega
        · exact boundary

theorem everyStore_true {turns : Nat} (t : MemoryLineTable) (start : Nat) (src : List (BitVec 8)) :
    everyStore (fun _ _ _ => True) turns t start src = true := by
  induction turns generalizing t start src with
  | zero => rfl
  | succ turns ih =>
    rw [everyStore]
    split
    · rfl
    · dsimp only
      split
      · rfl
      · rw [ih, decide_true, ite_self]
        rfl

namespace MemoryLineTable

variable {t : MemoryLineTable} {content : Nat → Line} {i : Nat}

/-- The offsets of at most 2^24 chunks fit their entries. -/
theorem Intact.offsetFits (intact : t.Intact content) (compLine : CompressedLine) :
    t.OffsetFits (.storeLine i compLine) := by
  intro _ _ cuts
  have limit := intact.chunks_le
  have pos := cuts.1
  have room := cuts.2.2
  omega

end MemoryLineTable

/-! ### A flat memory that may refuse -/

/-- The bytes from an address on. -/
def bytesAt (mem : Nat → BitVec 8) (address size : Nat) : List (BitVec 8) :=
  (List.range size).map fun k => mem (address + k)

/-- What a call does to a flat memory of this capacity. -/
inductive FlatStep (capacity : Nat) (mem : Nat → BitVec 8) : MemoryCall × Reply → (Nat → BitVec 8) → Prop where
  | read {address size : Nat} (some_bytes : 0 < size) (inRange : address + size ≤ capacity) :
      FlatStep capacity mem (.read address size, .read (some (bytesAt mem address size))) mem
  | readRefused {address size : Nat} (outside : size = 0 ∨ capacity < address + size) :
      FlatStep capacity mem (.read address size, .read none) mem
  | written {address : Nat} {src : List (BitVec 8)} (some_bytes : src ≠ [])
      (inRange : address + src.length ≤ capacity) :
      FlatStep capacity mem (.write address src, .write true) (overlay mem address src)
  | writeRefused {address : Nat} {src : List (BitVec 8)} (outside : src = [] ∨ capacity < address + src.length) :
      FlatStep capacity mem (.write address src, .write false) mem
  | torn {address n : Nat} {src : List (BitVec 8)} (inRange : address + src.length ≤ capacity) (early : n < src.length)
      (boundary : n = 0 ∨ (address + n) % 64 = 0) :
      FlatStep capacity mem (.write address src, .write false) (overlay mem address (src.take n))

/-- The memories a flat memory may hold after these calls, with zeros at first. -/
inductive FlatRun (capacity : Nat) : List (MemoryCall × Reply) → (Nat → BitVec 8) → Prop where
  | nil : FlatRun capacity [] fun _ => 0
  | snoc {events : List (MemoryCall × Reply)} {event : MemoryCall × Reply} {mem mem' : Nat → BitVec 8}
      (run : FlatRun capacity events mem) (step : FlatStep capacity mem event mem') :
      FlatRun capacity (events ++ [event]) mem'

namespace HyperRamController

/-- A write in range stores no line that returns its slot and finds no other. -/
def Resizes (c : HyperRamController) : MemoryCall → Prop
  | .read _ _ => True
  | .write byteAddress src => ¬c.OutOfRange byteAddress src.length →
      everyStore MemoryLineTable.ResizeFits src.length c.lineTable byteAddress src = true

instance (c : HyperRamController) (memoryCall : MemoryCall) : Decidable (c.Resizes memoryCall) :=
  match memoryCall with
  | .read _ _ => .isTrue trivial
  | .write _ _ => inferInstanceAs (Decidable (_ → _))

variable {config : ControllerConfig} {mem : Nat → BitVec 8} {c c' : HyperRamController}

/-- A call does what the flat memory may do, and leaves the controller with the memory that it leaves. -/
theorem call_torn {memoryCall : MemoryCall} {reply : Reply}
    (rounds : config.virtualCapacityBytes.toNat + 64 - 1 < 2 ^ 64) (mirrors : Mirrors config mem c)
    (partitioned : c.lineTable.Partitioned) (resizes : c.Resizes memoryCall)
    (stepped : c.call memoryCall = .ok (c', reply)) :
    ∃ mem', FlatStep config.virtualCapacityBytes.toNat mem (memoryCall, reply) mem' ∧
      Mirrors config mem' c' ∧ c'.lineTable.Partitioned := by
  have lines := mirrors.lines_eq
  rw [Nat.mod_eq_of_lt rounds] at lines
  cases memoryCall with
  | read address size =>
    obtain ⟨rfl, rfl⟩ := Prod.mk.inj (Except.ok.inj stepped)
    refine ⟨mem, ?_, mirrors, partitioned⟩
    by_cases outside : size = 0 ∨ config.virtualCapacityBytes.toNat < address + size
    · have refused : c.read address size = none := by
        rw [HyperRamController.read]
        split
        · rfl
        · rw [if_pos]
          rw [OutOfRange, mirrors.config_eq]
          omega
      rw [refused]
      exact .readRefused outside
    · obtain ⟨some_bytes, inRange⟩ := not_or.mp outside
      rw [read_of_mirrors mirrors rounds (Nat.pos_of_ne_zero some_bytes) (Nat.le_of_not_lt inRange)]
      exact .read (Nat.pos_of_ne_zero some_bytes) (Nat.le_of_not_lt inRange)
  | write address src =>
    obtain ⟨rfl, rfl⟩ := Prod.mk.inj (Except.ok.inj stepped)
    rw [Resizes] at resizes
    rw [HyperRamController.write]
    split
    · next empty =>
      exact ⟨mem, .writeRefused (Or.inl (List.eq_nil_of_length_eq_zero empty)), mirrors, partitioned⟩
    next nonempty =>
    split
    · next outside =>
      rw [OutOfRange, mirrors.config_eq] at outside
      exact ⟨mem, .writeRefused (Or.inr (by omega)), mirrors, partitioned⟩
    next inside =>
    have meets := resizes inside
    rw [OutOfRange, mirrors.config_eq] at inside
    have some_bytes : src ≠ [] := fun empty => nonempty (by rw [empty]; rfl)
    have cases := writeLoop_cases (fun s mem => Mirrors config mem { c with lineTable := s } ∧ s.Partitioned)
      (fun s mem inv => ⟨inv.1.intact, inv.1.lines_eq⟩) ?keeps ⟨mirrors, partitioned⟩ meets (Nat.le_refl _)
      (by rw [Nat.mod_eq_of_lt rounds]; omega)
    case keeps =>
      rintro s s' mem mem' i line ⟨before, apart⟩ stored same
      obtain ⟨intact, kept⟩ := MemoryLineTable.storeLine_intact before.intact stored
      rw [← same] at intact
      exact ⟨⟨before.config_eq, kept.trans before.lines_eq, intact⟩,
        (apart.stored (MemoryLineTable.wellFormed_compress line) (before.intact.offsetFits _) stored).1⟩
    rcases cases with ⟨done, after⟩ | ⟨n, s, line, early, boundary, ⟨before, apart⟩, _, fits, refused, failed⟩
    · dsimp only
      rw [done]
      exact ⟨_, .written some_bytes (by omega), after⟩
    · have same := apart.failed fits failed
      dsimp only
      rw [refused, same]
      exact ⟨_, .torn (by omega) early boundary, before, apart⟩

/-- In a run in which every store that returns a slot finds another, with refused writes anywhere, the calls are those
    of a flat memory whose refused writes are torn where a line begins, and reads deliver the memory they leave. -/
theorem trace_torn (rounds : config.virtualCapacityBytes.toNat + 64 - 1 < 2 ^ 64)
    (chunks : config.physicalDramBytes.toNat / slotChunkSize ≤ 2 ^ 24) {events : List (MemoryCall × Reply)}
    (trace : Trace HyperRamController.call Resizes (.create config) events c) :
    ∃ mem, FlatRun config.virtualCapacityBytes.toNat events mem ∧
      ∀ address size, 0 < size → address + size ≤ config.virtualCapacityBytes.toNat →
        c.read address size = some (bytesAt mem address size) := by
  have run : ∃ mem, FlatRun config.virtualCapacityBytes.toNat events mem ∧ Mirrors config mem c ∧
      c.lineTable.Partitioned := by
    refine trace.invariant (fun events c => ∃ mem, FlatRun config.virtualCapacityBytes.toNat events mem ∧
      Mirrors config mem c ∧ c.lineTable.Partitioned) ⟨_, .nil, create_mirrors chunks, .create _ _⟩ ?_
    rintro events c memoryCall c' reply ⟨mem, run, mirrors, partitioned⟩ resizes stepped
    obtain ⟨mem', step, after⟩ := call_torn rounds mirrors partitioned resizes stepped
    exact ⟨mem', run.snoc step, after⟩
  obtain ⟨mem, run, mirrors, _⟩ := run
  exact ⟨mem, run, fun address size some_bytes inRange => read_of_mirrors mirrors rounds some_bytes inRange⟩

/-- Three lines of virtual memory over two chunks of physical memory. -/
def threeLines : ControllerConfig := { virtualCapacityBytes := 192, physicalDramBytes := 32 }

/-- A write of three lines that need a chunk each is torn behind the second. -/
theorem trace_torn_threeLines : ∃ events c mem,
    Trace HyperRamController.call Resizes (.create threeLines) events c ∧
    events = [(.write 0 (List.replicate 192 1), .write false)] ∧ c.read 127 2 = some [1, 0] ∧
    FlatRun 192 events mem ∧ bytesAt mem 127 2 = [1, 0] := by
  have resizes : (create threeLines).Resizes (.write 0 (List.replicate 192 1)) := by decide +kernel
  have refused : (create threeLines).call (.write 0 (List.replicate 192 1)) =
      .ok (((create threeLines).write 0 (List.replicate 192 1)).2, .write false) := by
    have answer : ((create threeLines).write 0 (List.replicate 192 1)).1 = false := by decide +kernel
    rw [HyperRamController.call, answer]
  have trace := Trace.nil.snoc resizes refused
  have delivered : ((create threeLines).write 0 (List.replicate 192 1)).2.read 127 2 = some [1, 0] := by
    decide +kernel
  obtain ⟨mem, run, reads⟩ := trace_torn (by decide) (by decide) trace
  refine ⟨_, _, mem, trace, rfl, delivered, run, ?_⟩
  exact Option.some.inj ((reads 127 2 (by decide) (by decide)).symm.trans delivered)

end HyperRamController

end Zftl.Legacy
