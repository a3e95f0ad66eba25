/-
Module: Zftl.Rtl.OutputBound
Layer: Rtl
Purpose: How far a block can write. The limit of 4096 bytes is looked at only when a literal run or a match is on its
  last byte, and the length registers are 16 bits wide. `FitsBlock` is the condition on one edge under which
  neither matters; `RoomLeft` ties the pointer, the remaining length and the state together, and every edge
  that fits keeps it. An edge that does not fit leaves the bounds at once or at the next recorded byte.
Imports: Zftl.Rtl.Isolation
Trusted boundary: none
Main exports: FitsBlock, BlockBounded, RoomLeft, RoomLeft.step, inBlock_bounded, longMatch_overruns
Open obligations: none
-/
import Zftl.Rtl.Isolation

namespace Zftl.Rtl

namespace Decompressor

/-- The length register that the state works on. -/
def runLength (d : Decompressor) : BitVec 16 :=
  match d.state with
  | .extLit | .literal => d.litLen
  | .extMatch | .matchCopy => d.matchLen
  | _ => 0

/-- The value of `lit_len` after an edge, in integers. -/
def exactLitLen (d : Decompressor) (i : Inputs) : ℤ :=
  match d.state with
  | .token => if d.transfers i then (i.sAxisTdata.extractLsb' 4 4).toNat else d.litLen.toNat
  | .extLit => if d.transfers i then d.litLen.toNat + i.sAxisTdata.toNat else d.litLen.toNat
  | .literal =>
      if (d.records i).isSome ∧ d.litLen ≠ 1 then d.litLen.toNat - 1 else d.litLen.toNat
  | _ => d.litLen.toNat

/-- The value of `match_len` after an edge, in integers. -/
def exactMatchLen (d : Decompressor) (i : Inputs) : ℤ :=
  match d.state with
  | .offsetH => if d.transfers i then d.savedMatchToken.toNat + 4 else d.matchLen.toNat
  | .extMatch => if d.transfers i then d.matchLen.toNat + i.sAxisTdata.toNat else d.matchLen.toNat
  | .matchCopy =>
      if (d.records i).isSome ∧ d.matchLen ≠ 1 then d.matchLen.toNat - 1 else d.matchLen.toNat
  | _ => d.matchLen.toNat

/-- What the machine does within the bounds of a block up to time `t`: the pointer and the byte count stand for the
    number of bytes recorded, which is at most 4096; every cell written exists; and no length register has
    wrapped. -/
structure BlockBounded (d : Decompressor) (inputs : Nat → Inputs) (t : Nat) : Prop where
  pointer : (d.after inputs t).writePtr.toNat ≤ maxBlockSize
  produced : d.recorded inputs t ≤ maxBlockSize
  counted : (d.after inputs t).decompressedBytes.toNat = d.recorded inputs t
  indices : ∀ s, s < t → ((d.after inputs s).records (inputs s)).isSome →
    (d.after inputs s).writePtr.toNat < maxBlockSize
  lengths : ∀ s, s < t →
    ((d.after inputs (s + 1)).litLen.toNat : ℤ) = (d.after inputs s).exactLitLen (inputs s) ∧
      ((d.after inputs (s + 1)).matchLen.toNat : ℤ) = (d.after inputs s).exactMatchLen (inputs s)

/-- The edge keeps within the block: a byte recorded in the last cell of the history is the last of its literal run
    or match, and a byte that extends a length keeps it below 2^16. -/
structure FitsBlock (d : Decompressor) (i : Inputs) : Prop where
  closes : (d.records i).isSome → d.writePtr.toNat = maxBlockSize - 1 → d.runLength = 1
  extension : d.state = .extLit ∨ d.state = .extMatch → d.transfers i →
    d.runLength.toNat + i.sAxisTdata.toNat < 2 ^ 16

instance (d : Decompressor) (i : Inputs) : Decidable (d.FitsBlock i) :=
  decidable_of_iff
    (((d.records i).isSome → d.writePtr.toNat = maxBlockSize - 1 → d.runLength = 1) ∧
      (d.state = .extLit ∨ d.state = .extMatch → d.transfers i →
        d.runLength.toNat + i.sAxisTdata.toNat < 2 ^ 16))
    ⟨fun both => ⟨both.1, both.2⟩, fun fits => ⟨fits.closes, fits.extension⟩⟩

/-- The state takes or copies bytes of a literal run or a match. -/
def InRun (d : Decompressor) : Prop :=
  d.state = .extLit ∨ d.state = .literal ∨ d.state = .extMatch ∨ d.state = .matchCopy

/-- Inside a block that has recorded `count` bytes: unless the block is over there is room for another byte, and a
    literal run or match under way has a byte left. -/
structure RoomLeft (count : Nat) (d : Decompressor) : Prop where
  writePtr : d.writePtr.toNat = count
  counted : d.decompressedBytes.toNat = count
  room : count < maxBlockSize ∨ count = maxBlockSize ∧ (d.state = .done ∨ d.state = .idle)
  running : d.InRun → 1 ≤ d.runLength.toNat

/-- A 16-bit length that is not used up loses one. -/
theorem toNat_pred {length : BitVec 16} (left : 1 ≤ length.toNat) :
    ((length - 1).toNat : ℤ) = length.toNat - 1 := by
  have value : (length - 1).toNat = length.toNat - 1 := by bv_omega
  omega

/-- A 16-bit length takes a byte that fits. -/
theorem toNat_extend {length : BitVec 16} {byte : Byte} (fits : length.toNat + byte.toNat < 2 ^ 16) :
    (length + byte.setWidth 16).toNat = length.toNat + byte.toNat := by
  bv_omega

/-- An edge that fits computes `lit_len` without wrapping. -/
theorem step_litLen {d : Decompressor} {i : Inputs} (fits : d.FitsBlock i)
    (running : d.InRun → 1 ≤ d.runLength.toNat) :
    ((d.step i).litLen.toNat : ℤ) = d.exactLitLen i := by
  cases state : d.state
  case token =>
    simp only [step, state, stepToken, exactLitLen]
    split
    · split
      · rename_i full
        rw [full]
        rfl
      · split
        · rw [BitVec.toNat_setWidth, Nat.mod_eq_of_lt (by omega)]
        · rename_i _ nonzero
          have zero : i.sAxisTdata.extractLsb' 4 4 = 0 := by simpa using nonzero
          rw [zero]
          rfl
    · rfl
  case extLit =>
    simp only [step, state, stepExtLit, exactLitLen]
    split
    · rename_i transferred
      have fits' := fits.extension (Or.inl state) transferred
      rw [runLength, state] at fits'
      split <;> exact_mod_cast toNat_extend fits'
    · rfl
  case literal =>
    have left := running (Or.inr (Or.inl state))
    rw [runLength, state] at left
    simp only [step, state, exactLitLen, records_literal state, stepLiteral_litLen]
    split
    · exact toNat_pred left
    · rfl
  all_goals
    simp only [step, state, stepIdle, stepOffsetL, stepOffsetH, stepExtMatch, stepMatchCopy, stepDone,
      emit, recordByte, exactLitLen]
  all_goals repeat' split
  all_goals rfl

/-- An edge that fits computes `match_len` without wrapping. -/
theorem step_matchLen {d : Decompressor} {i : Inputs} (fits : d.FitsBlock i)
    (running : d.InRun → 1 ≤ d.runLength.toNat) :
    ((d.step i).matchLen.toNat : ℤ) = d.exactMatchLen i := by
  cases state : d.state
  case offsetH =>
    simp only [step, state, stepOffsetH, exactMatchLen]
    split
    · split
      · rename_i full
        rw [full]
        rfl
      · have value : (d.savedMatchToken.setWidth 16 + 4).toNat = d.savedMatchToken.toNat + 4 := by
          bv_omega
        exact_mod_cast value
    · rfl
  case extMatch =>
    simp only [step, state, stepExtMatch, exactMatchLen]
    split
    · rename_i transferred
      have fits' := fits.extension (Or.inr state) transferred
      rw [runLength, state] at fits'
      split <;> exact_mod_cast toNat_extend fits'
    · rfl
  case matchCopy =>
    have left := running (Or.inr (Or.inr (Or.inr state)))
    rw [runLength, state] at left
    simp only [step, state, exactMatchLen, records_matchCopy state, stepMatchCopy_matchLen]
    split
    · exact toNat_pred left
    · rfl
  all_goals
    simp only [step, state, stepIdle, stepToken, stepExtLit, stepLiteral, stepOffsetL, stepDone,
      emit, recordByte, exactMatchLen]
  all_goals repeat' split
  all_goals rfl

/-- A run that has more than one byte left stays in its state. -/
theorem nextState_of_more {d : Decompressor} (i : Inputs)
    (run : d.state = .literal ∨ d.state = .matchCopy) (more : d.runLength ≠ 1) :
    d.nextState i = d.state := by
  rcases run with state | state <;>
    simp only [runLength, state, ne_eq] at more <;>
    simp only [nextState, state, more, and_false, if_false]

theorem runLength_lit {d : Decompressor} (state : d.state = .extLit ∨ d.state = .literal) :
    d.runLength = d.litLen := by
  rcases state with state | state <;> simp only [runLength, state]

theorem runLength_match {d : Decompressor} (state : d.state = .extMatch ∨ d.state = .matchCopy) :
    d.runLength = d.matchLen := by
  rcases state with state | state <;> simp only [runLength, state]

/-- A literal run that is under way after an edge has a byte left. -/
theorem exactLitLen_pos {d : Decompressor} {i : Inputs} (running : d.InRun → 1 ≤ d.runLength.toNat)
    (run : d.nextState i = .extLit ∨ d.nextState i = .literal) : 1 ≤ d.exactLitLen i := by
  cases state : d.state
  case token =>
    simp only [nextState, exactLitLen, state] at run ⊢
    split at run
    · split at run
      · rename_i transferred full
        rw [if_pos transferred, full]
        decide
      · split at run
        · rename_i transferred _ positive
          rw [if_pos transferred]
          exact_mod_cast positive
        · simp at run
    · simp at run
  case extLit =>
    have left := running (Or.inl state)
    rw [runLength_lit (Or.inl state)] at left
    simp only [exactLitLen, state]
    split <;> omega
  case literal =>
    have left := running (Or.inr (Or.inl state))
    rw [runLength_lit (Or.inr state)] at left
    simp only [exactLitLen, state]
    split
    · rename_i counted
      have more : d.litLen.toNat ≠ 1 := fun one => counted.2 (BitVec.eq_of_toNat_eq one)
      omega
    · omega
  all_goals
    simp only [nextState, state] at run
    (repeat' split at run) <;> simp at run

/-- A match that is under way after an edge has a byte left. -/
theorem exactMatchLen_pos {d : Decompressor} {i : Inputs} (running : d.InRun → 1 ≤ d.runLength.toNat)
    (run : d.nextState i = .extMatch ∨ d.nextState i = .matchCopy) : 1 ≤ d.exactMatchLen i := by
  cases state : d.state
  case offsetH =>
    simp only [nextState, exactMatchLen, state] at run ⊢
    split at run
    · rename_i transferred
      rw [if_pos transferred]
      omega
    · simp at run
  case extMatch =>
    have left := running (Or.inr (Or.inr (Or.inl state)))
    rw [runLength_match (Or.inl state)] at left
    simp only [exactMatchLen, state]
    split <;> omega
  case matchCopy =>
    have left := running (Or.inr (Or.inr (Or.inr state)))
    rw [runLength_match (Or.inr state)] at left
    simp only [exactMatchLen, state]
    split
    · rename_i counted
      have more : d.matchLen.toNat ≠ 1 := fun one => counted.2 (BitVec.eq_of_toNat_eq one)
      omega
    · omega
  all_goals
    simp only [nextState, state] at run
    (repeat' split at run) <;> simp at run

/-- A run that is under way after an edge that fits has a byte left. -/
theorem step_running {d : Decompressor} {i : Inputs} (fits : d.FitsBlock i)
    (running : d.InRun → 1 ≤ d.runLength.toNat) (running' : (d.step i).InRun) :
    1 ≤ (d.step i).runLength.toNat := by
  have literal : (d.step i).state = .extLit ∨ (d.step i).state = .literal →
      1 ≤ (d.step i).runLength.toNat := by
    intro run
    have left := step_litLen fits running
    rw [runLength_lit run]
    rw [step_state] at run
    have positive := exactLitLen_pos running run
    omega
  have copied : (d.step i).state = .extMatch ∨ (d.step i).state = .matchCopy →
      1 ≤ (d.step i).runLength.toNat := by
    intro run
    have left := step_matchLen fits running
    rw [runLength_match run]
    rw [step_state] at run
    have positive := exactMatchLen_pos running run
    omega
  rcases running' with state | state | state | state
  · exact literal (Or.inl state)
  · exact literal (Or.inr state)
  · exact copied (Or.inl state)
  · exact copied (Or.inr state)

/-- An edge that fits keeps a block within its bounds. -/
theorem RoomLeft.step {count : Nat} {d : Decompressor} {i : Inputs} (left : RoomLeft count d)
    (busy : d.state ≠ .idle) (fits : d.FitsBlock i) :
    RoomLeft (count + (d.records i).toList.length) (d.step i) := by
  have counters := d.step_counters i busy
  have limit : maxBlockSize = 4096 := rfl
  have room : count + (d.records i).toList.length < maxBlockSize ∨
      count + (d.records i).toList.length = maxBlockSize ∧
        ((d.step i).state = .done ∨ (d.step i).state = .idle) := by
    cases recorded : d.records i with
    | none =>
        rcases left.room with inside | ⟨full, ended | ended⟩
        · exact Or.inl inside
        · refine Or.inr ⟨full, Or.inr ?_⟩
          simp [Decompressor.step, ended, stepDone]
        · exact absurd ended busy
    | some byte =>
        have isSome : (d.records i).isSome = true := by rw [recorded]; rfl
        have run := state_of_records isSome
        have inside : count < maxBlockSize := by
          rcases left.room with inside | ⟨_, ended⟩
          · exact inside
          · rcases run with state | state <;> simp [state] at ended
        rw [Option.toList_some, List.length_singleton]
        rcases Nat.lt_or_ge (count + 1) maxBlockSize with more | last
        · exact Or.inl more
        · have closes := fits.closes isSome (by rw [left.writePtr]; omega)
          have full : d.writePtr.toNat + 1 = maxBlockSize := by rw [left.writePtr]; omega
          refine Or.inr ⟨by omega, Or.inl ?_⟩
          rcases run with state | state
          · rw [records_literal state] at isSome
            rw [runLength, state] at closes
            simp only at closes
            simp only [step_state, nextState, state, isSome, closes, full, true_or, and_self, if_true]
          · rw [records_matchCopy state] at isSome
            rw [runLength, state] at closes
            simp only at closes
            simp only [step_state, nextState, state, isSome, closes, full, true_or, and_self, if_true]
  have value : (BitVec.ofNat 13 (d.records i).toList.length).toNat = (d.records i).toList.length := by
    rw [BitVec.toNat_ofNat]
    omega
  refine ⟨?_, ?_, room, step_running fits left.running⟩
  · rw [counters.1, BitVec.toNat_add, left.writePtr, value, Nat.mod_eq_of_lt (by omega)]
  · rw [counters.2, BitVec.toNat_add, left.counted, value, Nat.mod_eq_of_lt (by omega)]

section Runs

variable {d : Decompressor} {inputs : Nat → Inputs} {t : Nat}

/-- A block whose edges fit has room left at every time. -/
theorem inBlock_roomLeft (idle : d.state = .idle) (started : (inputs 0).start = true)
    (inBlock : d.InBlock inputs t) (fits : ∀ s, s < t → (d.after inputs s).FitsBlock (inputs s)) :
    RoomLeft (d.recorded inputs t) (d.after inputs t) := by
  obtain ⟨begun, busy⟩ := inBlock
  induction begun with
  | refl =>
      have silent : d.records (inputs 0) = none := by simp [records, shows, idle]
      have first : d.after inputs 1 = d.stepIdle (inputs 0) := by simp only [after, step, idle]
      rw [first, stepIdle, if_pos started]
      simp only [recorded, after, silent]
      refine ⟨rfl, rfl, Or.inl (by decide), fun run => ?_⟩
      simp [InRun] at run
  | @step t begun ih =>
      have left := ih (fun s below => fits s (Nat.lt_succ_of_lt below))
        fun s one below => busy s one (Nat.lt_succ_of_lt below)
      exact left.step (busy t begun (Nat.lt_succ_self t)) (fits t (Nat.lt_succ_self t))

/-- A block whose edges fit keeps within its bounds: up to its end it records at most 4096 bytes, writes existing
    cells only and wraps no length. -/
theorem inBlock_bounded (idle : d.state = .idle) (started : (inputs 0).start = true)
    (inBlock : d.InBlock inputs t) (fits : ∀ s, s < t → (d.after inputs s).FitsBlock (inputs s)) :
    d.BlockBounded inputs t := by
  have left : ∀ s, 1 ≤ s → s ≤ t → RoomLeft (d.recorded inputs s) (d.after inputs s) := by
    intro s begun within
    exact inBlock_roomLeft idle started
      ⟨begun, fun r one below => inBlock.2 r one (Nat.lt_of_lt_of_le below within)⟩
      fun r below => fits r (Nat.lt_of_lt_of_le below within)
  have last := left t inBlock.1 (Nat.le_refl t)
  have produced : d.recorded inputs t ≤ maxBlockSize := by
    rcases last.room with room | ⟨full, _⟩
    · exact Nat.le_of_lt room
    · exact Nat.le_of_eq full
  refine ⟨by rwa [last.writePtr], produced, last.counted, fun s below recorded => ?_,
    fun s below => ?_⟩
  · have run := state_of_records recorded
    rcases Nat.eq_zero_or_pos s with first | begun
    · subst first
      simp [after, idle] at run
    · have before := left s begun (Nat.le_of_lt below)
      rw [before.writePtr]
      rcases before.room with room | ⟨_, ended⟩
      · exact room
      · rcases run with state | state <;> simp [state] at ended
  · have running : (d.after inputs s).InRun → 1 ≤ (d.after inputs s).runLength.toNat := by
      rcases Nat.eq_zero_or_pos s with first | begun
      · subst first
        intro run
        simp [InRun, after, idle] at run
      · exact (left s begun (Nat.le_of_lt below)).running
    exact ⟨step_litLen (fits s below) running, step_matchLen (fits s below) running⟩

/-- An edge that does not fit wraps a length, or fills the history in the middle of a run, whose next recorded byte
    has no cell. -/
theorem step_overruns {i : Inputs} (busy : d.state ≠ .idle) (unfit : ¬d.FitsBlock i) :
    ((d.step i).litLen.toNat : ℤ) ≠ d.exactLitLen i ∨
      ((d.step i).matchLen.toNat : ℤ) ≠ d.exactMatchLen i ∨
      (d.step i).writePtr.toNat = maxBlockSize ∧
        ((d.step i).state = .literal ∨ (d.step i).state = .matchCopy) := by
  by_cases closes : (d.records i).isSome → d.writePtr.toNat = maxBlockSize - 1 → d.runLength = 1
  · have wraps : ¬(d.state = .extLit ∨ d.state = .extMatch → d.transfers i →
        d.runLength.toNat + i.sAxisTdata.toNat < 2 ^ 16) := fun extension => unfit ⟨closes, extension⟩
    simp only [Classical.not_imp, Nat.not_lt] at wraps
    obtain ⟨extending, transferred, large⟩ := wraps
    rcases extending with state | state
    · left
      rw [runLength_lit (Or.inl state)] at large
      have register := (d.step i).litLen.isLt
      simp only [exactLitLen, state, transferred, if_true]
      omega
    · right
      left
      rw [runLength_match (Or.inl state)] at large
      have register := (d.step i).matchLen.isLt
      simp only [exactMatchLen, state, transferred, if_true]
      omega
  · right
    right
    simp only [Classical.not_imp] at closes
    obtain ⟨recorded, full, more⟩ := closes
    refine ⟨?_, ?_⟩
    · obtain ⟨byte, record⟩ := Option.isSome_iff_exists.mp recorded
      rw [(d.step_counters i busy).1, record, BitVec.toNat_add, full]
      rfl
    · have run := state_of_records recorded
      rwa [step_state, nextState_of_more i run more]

/-- A match that is copied into a ready sink. -/
theorem after_matchCopy (state : (d.after inputs t).state = .matchCopy)
    (ready : ∀ s, t ≤ s → (inputs s).mAxisTready = true) {k : Nat}
    (within : k < (d.after inputs t).matchLen.toNat)
    (small : (d.after inputs t).writePtr.toNat + k < 2 ^ 13) :
    (d.after inputs (t + k)).state = .matchCopy ∧
      (d.after inputs (t + k)).matchLen.toNat = (d.after inputs t).matchLen.toNat - k ∧
      (d.after inputs (t + k)).writePtr.toNat = (d.after inputs t).writePtr.toNat + k := by
  induction k with
  | zero => exact ⟨state, rfl, rfl⟩
  | succ k ih =>
      obtain ⟨copying, left, pointer⟩ := ih (by omega) (by omega)
      have now : (inputs (t + k)).mAxisTready = true := ready (t + k) (by omega)
      have more : (d.after inputs (t + k)).matchLen ≠ 1 := by
        intro one
        have value : (d.after inputs (t + k)).matchLen.toNat = 1 := by rw [one]; rfl
        omega
      have recorded : ((d.after inputs (t + k)).records (inputs (t + k))).toList.length = 1 := by
        simp [records, shows, copying, now]
      rw [← Nat.add_assoc, after]
      refine ⟨?_, ?_, ?_⟩
      · rw [step_state, nextState_of_more _ (Or.inr copying) ?_, copying]
        rwa [runLength_match (Or.inr copying)]
      · simp only [step, copying, stepMatchCopy_matchLen, now, more, ne_eq, not_false_eq_true,
          and_self, if_true]
        bv_omega
      · rw [(step_counters _ _ (by rw [copying]; decide)).1, recorded, BitVec.toNat_add, pointer]
        simp only [BitVec.toNat_ofNat]
        omega

end Runs

/-- The wires of a source that sends a stream from the first cycle of a block on, into a ready sink. -/
def sending (stream : List Byte) (t : Nat) : Inputs :=
  { start := t == 0
    sAxisTdata := stream.getD (t - 1) 0
    sAxisTvalid := decide (1 ≤ t ∧ t ≤ stream.length)
    sAxisTlast := t == stream.length
    mAxisTready := true }

/-- One literal and a match of eight bytes fit. -/
theorem shortMatch_bounded :
    (powerUp fun _ => 0).BlockBounded (sending [0x14, 0x41, 0x01, 0x00]) 14 ∧
      (powerUp fun _ => 0).recorded (sending [0x14, 0x41, 0x01, 0x00]) 14 = 9 :=
  ⟨inBlock_bounded rfl rfl ⟨by decide, by decide +kernel⟩ (by decide +kernel), by decide +kernel⟩

/-- One literal and a match of 4099 bytes. -/
def longMatch : List Byte := [0x1F, 0x41, 0x01, 0x00] ++ List.replicate 16 0xFF ++ [0x00]

/-- The match goes on past the last cell of the history. -/
theorem longMatch_overruns :
    ∃ t, (sending longMatch 0).start = true ∧ (powerUp fun _ => 0).InBlock (sending longMatch) t ∧
      ¬(powerUp fun _ => 0).BlockBounded (sending longMatch) t := by
  have begun : ((powerUp fun _ => 0).after (sending longMatch) 22).state = .matchCopy ∧
      ((powerUp fun _ => 0).after (sending longMatch) 22).matchLen.toNat = 4099 ∧
      ((powerUp fun _ => 0).after (sending longMatch) 22).writePtr.toNat = 1 ∧
      ∀ s, s < 22 → 1 ≤ s → ((powerUp fun _ => 0).after (sending longMatch) s).state ≠ .idle := by
    decide +kernel
  obtain ⟨state, length, pointer, busy⟩ := begun
  have copying : ∀ k, k ≤ 4095 →
      ((powerUp fun _ => 0).after (sending longMatch) (22 + k)).state = .matchCopy ∧
        ((powerUp fun _ => 0).after (sending longMatch) (22 + k)).writePtr.toNat = 1 + k := by
    intro k within
    have copy := after_matchCopy state (fun _ _ => rfl) (by omega : k < _) (by omega)
    exact ⟨copy.1, by rw [copy.2.2, pointer]⟩
  refine ⟨22 + 4095 + 1, rfl, ⟨by decide, fun s one below => ?_⟩, fun bounded => ?_⟩
  · rcases Nat.lt_or_ge s 22 with early | late
    · exact busy s early one
    · obtain ⟨k, rfl⟩ := Nat.exists_eq_add_of_le late
      rw [(copying k (by omega)).1]
      decide
  · obtain ⟨last, full⟩ := copying 4095 (Nat.le_refl _)
    have recorded : (((powerUp fun _ => 0).after (sending longMatch) (22 + 4095)).records
        (sending longMatch (22 + 4095))).isSome = true := by
      rw [records_matchCopy last]
      rfl
    have inside := bounded.indices (22 + 4095) (Nat.lt_succ_self _) recorded
    rw [full] at inside
    exact absurd inside (by decide)

end Decompressor

end Zftl.Rtl
