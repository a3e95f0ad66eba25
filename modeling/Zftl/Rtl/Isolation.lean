/-
Module: Zftl.Rtl.Isolation
Layer: Rtl
Purpose: What a block can see of the blocks before it. Two machines start the same block with different
  leftovers and are driven by the same wires. `control` is what both share in any case; the data they show
  agrees as long as every match reads a cell the block has written itself, and a match that reads any other
  cell shows its leftover on the output wires. `isolated_iff` puts the two together.
Imports: Mathlib.Logic.Basic, Zftl.Rtl.Decompressor
Trusted boundary: none
Main exports: Outputs, after, InBlock, Isolated, ReadsOwnBytes, step_control, Agreeing, isolated_iff,
  firstMatch_leaks
Open obligations: none
-/
import Mathlib.Logic.Basic
import Zftl.Rtl.Decompressor

namespace Zftl.Rtl

/-- What the outside sees of a machine: the word on the output stream, if it is valid, and the status. -/
structure Outputs where
  word : Option (Byte × Bool)
  done : Bool
  errorFlag : Bool
  decompressedBytes : BitVec 13
deriving DecidableEq

namespace Decompressor

def outputs (d : Decompressor) : Outputs :=
  { word := if d.mAxisTvalid then some (d.mAxisTdata, d.mAxisTlast) else none
    done := d.done
    errorFlag := d.errorFlag
    decompressedBytes := d.decompressedBytes }

/-- The machine after `t` edges. -/
def after (d : Decompressor) (inputs : Nat → Inputs) : Nat → Decompressor
  | 0 => d
  | t + 1 => (d.after inputs t).step (inputs t)

/-- The first block goes on at `t`, or has just ended there. -/
def InBlock (d : Decompressor) (inputs : Nat → Inputs) (t : Nat) : Prop :=
  1 ≤ t ∧ ∀ s, 1 ≤ s → s < t → (d.after inputs s).state ≠ .idle

/-- Whatever two idle machines hold, they show the same throughout the block that the wires start. -/
def Isolated (inputs : Nat → Inputs) : Prop :=
  ∀ d d' : Decompressor, d.Reached → d'.Reached → d.state = .idle → d'.state = .idle →
    ∀ t, d.InBlock inputs t → (d.after inputs t).outputs = (d'.after inputs t).outputs

/-- The number of bytes the block has put into the history. -/
def recorded (d : Decompressor) (inputs : Nat → Inputs) : Nat → Nat
  | 0 => 0
  | t + 1 => d.recorded inputs t + ((d.after inputs t).records (inputs t)).toList.length

/-! ### Control -/

/-- The registers that steer the machine. Those that the state does not read are cleared, and so are the data
    on the wires and the history. -/
def control (d : Decompressor) : Decompressor :=
  { d with
    litLen := if d.state = .extLit ∨ d.state = .literal then d.litLen else 0
    matchLen := if d.state = .extMatch ∨ d.state = .matchCopy then d.matchLen else 0
    matchOffset := if d.state = .extMatch ∨ d.state = .matchCopy then d.matchOffset else 0
    savedMatchToken :=
      if d.state = .extLit ∨ d.state = .literal ∨ d.state = .offsetL ∨ d.state = .offsetH then
        d.savedMatchToken
      else 0
    offsetLow := if d.state = .offsetH then d.offsetLow else 0
    mAxisTdata := 0
    historyRam := fun _ => 0 }

/-- The steering registers after an edge depend on the steering registers before it. -/
theorem step_control {d d' : Decompressor} (same : d.control = d'.control) (i : Inputs) :
    (d.step i).control = (d'.step i).control := by
  have transferred : d.transfers i = d'.transfers i := by
    have ready := congrArg sAxisTready same
    exact congrArg (i.sAxisTvalid && ·) ready
  obtain ⟨state, _, _, _, _, _, _, _, _, _, _, _, _, _, _, _, _⟩ := d
  obtain ⟨state', _, _, _, _, _, _, _, _, _, _, _, _, _, _, _, _⟩ := d'
  simp only [control, mk.injEq, true_and, and_true] at same
  rcases same with ⟨rfl, rfl, rfl, rfl, rfl, rfl, litLen, matchLen, matchOffset, saved, low, rfl, rfl,
    rfl, rfl⟩
  cases state
  case idle =>
    simp only [step, stepIdle, apply_ite control]
    rfl
  case token =>
    simp only [step, stepToken, observeLast, transferred, apply_ite control]
    rfl
  case extLit =>
    obtain rfl := litLen
    obtain rfl := saved
    simp only [step, stepExtLit, observeLast, transferred, apply_ite control]
    rfl
  case literal =>
    obtain rfl := litLen
    obtain rfl := saved
    simp only [step, stepLiteral, observeLast, emit, recordByte, transferred, apply_ite control]
    rfl
  case offsetL =>
    obtain rfl := saved
    simp only [step, stepOffsetL, observeLast, transferred, apply_ite control]
    rfl
  case offsetH =>
    obtain rfl := saved
    obtain rfl := low
    simp only [step, stepOffsetH, observeLast, transferred, apply_ite control]
    rfl
  case extMatch =>
    obtain rfl := matchLen
    obtain rfl := matchOffset
    simp only [step, stepExtMatch, observeLast, transferred, apply_ite control]
    rfl
  case matchCopy =>
    obtain rfl := matchLen
    obtain rfl := matchOffset
    simp only [step, stepMatchCopy, observeLast, emit, recordByte, transferred, apply_ite control]
    rfl
  case done => rfl

/-- The block starts with the same steering registers from every idle state. -/
theorem start_control {d d' : Decompressor} {i : Inputs} (idle : d.state = .idle)
    (idle' : d'.state = .idle) (started : i.start = true) :
    (d.step i).control = (d'.step i).control := by
  simp only [step, idle, idle', stepIdle, started, if_true]
  rfl

/-- The steering registers of a block do not depend on what the machine held before it. -/
theorem after_control {d d' : Decompressor} (inputs : Nat → Inputs) (idle : d.state = .idle)
    (idle' : d'.state = .idle) (started : (inputs 0).start = true) {t : Nat} (begun : 1 ≤ t) :
    (d.after inputs t).control = (d'.after inputs t).control := by
  induction begun with
  | refl => exact start_control idle idle' started
  | @step t begun ih => exact step_control ih (inputs t)

/-- How many bytes an edge records is a matter of control. -/
theorem records_length {d d' : Decompressor} (same : d.state = d'.state) (i : Inputs) :
    (d.records i).toList.length = (d'.records i).toList.length := by
  cases state : d.state <;> simp only [records, shows, ← same, state]
  all_goals repeat' split
  all_goals rfl

theorem recorded_eq {d d' : Decompressor} {inputs : Nat → Inputs} (idle : d.state = .idle)
    (idle' : d'.state = .idle) (started : (inputs 0).start = true) (t : Nat) :
    d.recorded inputs t = d'.recorded inputs t := by
  induction t with
  | zero => rfl
  | succ t ih =>
      have state : (d.after inputs t).state = (d'.after inputs t).state := by
        cases t with
        | zero => exact idle.trans idle'.symm
        | succ t =>
            have same := congrArg state (after_control inputs idle idle' started (Nat.le_add_left 1 t))
            exact same
      rw [recorded, recorded, ih, records_length state]

/-! ### Cells of the history -/

/-- Inside a block that began on `begun` and has recorded `count` bytes: the write pointer counts them modulo its
    width, and every cell from `count` on still holds what was there before the block. -/
structure Within (begun : Decompressor) (count : Nat) (d : Decompressor) : Prop where
  writePtr : d.writePtr.toNat = count % 2 ^ 13
  untouched : ∀ a : BitVec 12, count ≤ a.toNat → d.historyRam a = begun.historyRam a

/-- The cell of a write. -/
theorem toNat_setWidth_writePtr {d : Decompressor} (inside : d.writePtr.toNat < maxBlockSize) :
    (d.writePtr.setWidth 12).toNat = d.writePtr.toNat := by
  rw [BitVec.toNat_setWidth]
  exact Nat.mod_eq_of_lt inside

theorem Within.step {begun d : Decompressor} {count : Nat} (within : Within begun count d)
    (busy : d.state ≠ .idle) (i : Inputs) :
    Within begun (count + (d.records i).toList.length) (d.step i) := by
  refine ⟨?_, fun a beyond => ?_⟩
  · rw [(step_counters d i busy).1, BitVec.toNat_add, within.writePtr, BitVec.toNat_ofNat]
    exact (Nat.add_mod count _ _).symm
  · have below : a.toNat < 2 ^ 12 := a.isLt
    have before := within.untouched a (Nat.le_trans (Nat.le_add_right _ _) beyond)
    rw [step_historyRam]
    cases record : d.records i with
    | none => exact before
    | some byte =>
        rw [record] at beyond
        simp only [Option.toList_some, List.length_singleton] at beyond
        have pointer : d.writePtr.toNat = count := by
          rw [within.writePtr]
          exact Nat.mod_eq_of_lt (by omega)
        have inside : d.writePtr.toNat < maxBlockSize := by
          rw [pointer, maxBlockSize]
          omega
        have other : a ≠ d.writePtr.setWidth 12 := fun same => by
          have value := toNat_setWidth_writePtr inside
          rw [← same, pointer] at value
          omega
        show d.writeHistory byte a = begun.historyRam a
        rw [writeHistory, if_pos inside, Function.update_of_ne other]
        exact before

/-- The read address of a match is a recorded cell exactly if the block is past 4096 bytes, or has begun and the
    offset is not 0 in the 13 bits the comparison reads. -/
theorem matchReadAddr_lt_iff {begun d : Decompressor} {count : Nat} (within : Within begun count d) :
    d.matchReadAddr.toNat < count ↔
      maxBlockSize ≤ count ∨ 1 ≤ count ∧ d.matchOffset.setWidth 13 ≠ 0 := by
  have pointer := within.writePtr
  have address : d.matchReadAddr.toNat < 2 ^ 12 := d.matchReadAddr.isLt
  have zero : d.matchOffset.setWidth 13 = 0 ↔ d.matchOffset.toNat % 2 ^ 13 = 0 := by
    rw [← BitVec.toNat_inj, BitVec.toNat_setWidth]
    rfl
  rw [Ne, zero, maxBlockSize]
  rcases Nat.lt_or_ge count 4096 with short | long
  · rw [Nat.mod_eq_of_lt (by omega)] at pointer
    by_cases reaches : d.matchOffset.setWidth 13 ≤ d.writePtr
    · have difference : d.matchReadAddr.toNat = count - d.matchOffset.toNat % 2 ^ 13 := by
        rw [BitVec.le_def, BitVec.toNat_setWidth, pointer] at reaches
        rw [matchReadAddr, if_pos (by rwa [BitVec.le_def, BitVec.toNat_setWidth, pointer]),
          BitVec.toNat_sub, BitVec.toNat_setWidth, BitVec.toNat_setWidth, pointer]
        omega
      rw [BitVec.le_def, BitVec.toNat_setWidth, pointer] at reaches
      omega
    · have first : d.matchReadAddr.toNat = 0 := by
        rw [matchReadAddr, if_neg reaches]
        rfl
      rw [BitVec.le_def, BitVec.toNat_setWidth, pointer] at reaches
      omega
  · omega

/-! ### Two machines in one block -/

/-- Two machines in the same cycle of the same block: what they have recorded and what they show is the same. -/
structure Agreeing (count : Nat) (d d' : Decompressor) : Prop where
  control : d.control = d'.control
  shown : d.mAxisTvalid = true → d.mAxisTdata = d'.mAxisTdata
  history : ∀ a : BitVec 12, a.toNat < count → d.historyRam a = d'.historyRam a

namespace Agreeing

variable {count : Nat} {begun d d' : Decompressor}

/-- Machines that agree show the same outside. -/
theorem outputs (agreeing : Agreeing count d d') : d.outputs = d'.outputs := by
  have valid := congrArg mAxisTvalid agreeing.control
  have last := congrArg mAxisTlast agreeing.control
  have done := congrArg Decompressor.done agreeing.control
  have error := congrArg errorFlag agreeing.control
  have bytes := congrArg decompressedBytes agreeing.control
  simp only [Decompressor.control] at valid last done error bytes
  simp only [Decompressor.outputs, ← valid, ← last, ← done, ← error, ← bytes]
  cases up : d.mAxisTvalid with
  | false => rfl
  | true => rw [agreeing.shown up]

/-- The same byte is shown when a match reads a recorded cell. -/
theorem shows_eq (agreeing : Agreeing count d d')
    (reads : d.state = .matchCopy → d.matchReadAddr.toNat < count) (i : Inputs) :
    d.shows i = d'.shows i := by
  have same := congrArg state agreeing.control
  simp only [Decompressor.control] at same
  rw [shows, shows, ← same]
  cases state : d.state
  case matchCopy =>
    have address : d.matchReadAddr = d'.matchReadAddr := by
      have pointer := congrArg writePtr agreeing.control
      have offset := congrArg matchOffset agreeing.control
      simp only [Decompressor.control, ← same, state, or_true, if_true] at pointer offset
      rw [matchReadAddr, matchReadAddr, pointer, offset]
    have byte := agreeing.history _ (reads state)
    rw [address] at byte
    simp only [address, byte]
  all_goals rfl

/-- An edge keeps the agreement when a match reads a recorded cell. -/
theorem step (agreeing : Agreeing count d d') (within : Within begun count d)
    (reads : d.state = .matchCopy → d.matchReadAddr.toNat < count) (i : Inputs) :
    Agreeing (count + (d.records i).toList.length) (d.step i) (d'.step i) := by
  have shown := agreeing.shows_eq reads i
  refine ⟨step_control agreeing.control i, fun valid => ?_, fun a below => ?_⟩
  · rw [step_mAxisTdata, step_mAxisTdata, ← shown]
    cases byte : d.shows i with
    | none => exact agreeing.shown (step_mAxisTvalid d i byte valid)
    | some byte => rfl
  · have recorded : d.records i = d'.records i := by rw [records, records, shown]
    have pointer := congrArg Decompressor.writePtr agreeing.control
    simp only [Decompressor.control] at pointer
    rw [step_historyRam, step_historyRam, ← recorded]
    cases record : d.records i with
    | none =>
        rw [record] at below
        exact agreeing.history a below
    | some byte =>
        rw [record] at below
        simp only [Option.toList_some, List.length_singleton] at below
        show d.writeHistory byte a = d'.writeHistory byte a
        rw [writeHistory, writeHistory, ← pointer]
        have counted := within.writePtr
        by_cases inside : d.writePtr.toNat < maxBlockSize
        · rw [if_pos inside, if_pos inside]
          by_cases here : a = d.writePtr.setWidth 12
          · rw [here, Function.update_self, Function.update_self]
          · rw [Function.update_of_ne here, Function.update_of_ne here]
            -- Below 4096 bytes the written cell is number `count`.
            apply agreeing.history a
            have other : a.toNat ≠ d.writePtr.toNat := fun same => here (by
              apply BitVec.eq_of_toNat_eq
              rw [toNat_setWidth_writePtr inside, same])
            have bound : a.toNat < 2 ^ 12 := a.isLt
            omega
        · rw [if_neg inside, if_neg inside]
          apply agreeing.history a
          have bound : a.toNat < 2 ^ 12 := a.isLt
          rw [maxBlockSize] at inside
          omega

end Agreeing

/-! ### One block -/

/-- Every match byte of the block comes from a cell the block has written: at least 4096 bytes are out, or some
    are and the offset is not 0 in 13 bits. -/
def ReadsOwnBytes (d : Decompressor) (inputs : Nat → Inputs) : Prop :=
  ∀ t, d.InBlock inputs t → (d.after inputs t).state = .matchCopy →
    maxBlockSize ≤ d.recorded inputs t ∨
      1 ≤ d.recorded inputs t ∧ (d.after inputs t).matchOffset.setWidth 13 ≠ 0

section Block

variable {d d' : Decompressor} {inputs : Nat → Inputs} {t : Nat}

/-- The cycles of a block before a cycle of the block. -/
theorem InBlock.before (inBlock : d.InBlock inputs (t + 1)) (begun : 1 ≤ t) :
    d.InBlock inputs t ∧ (d.after inputs t).state ≠ .idle :=
  ⟨⟨begun, fun s first earlier => inBlock.2 s first (Nat.lt_succ_of_lt earlier)⟩,
    inBlock.2 t begun (Nat.lt_succ_self t)⟩

theorem after_state (idle : d.state = .idle) (idle' : d'.state = .idle)
    (started : (inputs 0).start = true) (begun : 1 ≤ t) :
    (d.after inputs t).state = (d'.after inputs t).state := by
  have same := congrArg state (after_control inputs idle idle' started begun)
  exact same

/-- A cycle is in the block of one machine exactly if it is in the block of the other. -/
theorem InBlock.transport (idle : d.state = .idle) (idle' : d'.state = .idle)
    (started : (inputs 0).start = true) (inBlock : d.InBlock inputs t) : d'.InBlock inputs t := by
  refine ⟨inBlock.1, fun s first earlier => ?_⟩
  rw [← after_state idle idle' started first]
  exact inBlock.2 s first earlier

/-- The first edge records nothing. -/
theorem recorded_one (idle : d.state = .idle) : d.recorded inputs 1 = 0 := by
  simp [recorded, after, records, shows, idle]

/-- The first edge of a block. -/
theorem within_one (idle : d.state = .idle) (started : (inputs 0).start = true) :
    Within d (d.recorded inputs 1) (d.after inputs 1) := by
  rw [recorded_one idle]
  have stepped : d.after inputs 1 = d.stepIdle (inputs 0) := by simp only [after, step, idle]
  simp only [stepIdle, started, if_true] at stepped
  refine ⟨?_, fun a _ => ?_⟩
  · rw [stepped]
    rfl
  · rw [stepped]

/-- Every cycle of a block. -/
theorem within_after (idle : d.state = .idle) (started : (inputs 0).start = true)
    (inBlock : d.InBlock inputs t) : Within d (d.recorded inputs t) (d.after inputs t) := by
  have begun := inBlock.1
  induction begun with
  | refl => exact within_one idle started
  | @step t begun ih =>
      have before := inBlock.before begun
      exact (ih before.1).step before.2 (inputs t)

/-- Two idle machines agree throughout a block that reads its own bytes. -/
theorem agreeing_after (idle : d.state = .idle) (idle' : d'.state = .idle)
    (started : (inputs 0).start = true) (own : d.ReadsOwnBytes inputs)
    (inBlock : d.InBlock inputs t) :
    Agreeing (d.recorded inputs t) (d.after inputs t) (d'.after inputs t) := by
  have begun := inBlock.1
  induction begun with
  | refl =>
      rw [recorded_one idle]
      refine ⟨after_control inputs idle idle' started (Nat.le_refl 1), fun valid => ?_,
        fun a below => absurd below (Nat.not_lt_zero _)⟩
      simp [after, step, idle, stepIdle, started] at valid
  | @step t begun ih =>
      have before := inBlock.before begun
      have within := within_after idle started before.1
      exact (ih before.1).step within
        (fun state => (matchReadAddr_lt_iff within).mpr (own t before.1 state)) (inputs t)

/-- A match that reads an unrecorded cell shows its leftover. -/
theorem leftover_shown (idle : d.state = .idle) (started : (inputs 0).start = true)
    (inBlock : d.InBlock inputs t) (copying : (d.after inputs t).state = .matchCopy)
    (foreign : ¬(d.after inputs t).matchReadAddr.toNat < d.recorded inputs t) :
    ∃ last, (d.after inputs (t + 1)).outputs.word =
      some (d.historyRam (d.after inputs t).matchReadAddr, last) := by
  have within := within_after idle started inBlock
  have cell := within.untouched _ (Nat.le_of_not_lt foreign)
  refine ⟨decide ((d.after inputs t).writePtr.toNat = maxBlockSize - 1), ?_⟩
  have stepped : d.after inputs (t + 1) = (d.after inputs t).stepMatchCopy (inputs t) := by
    simp only [after, step, copying]
  rw [stepped, ← cell]
  simp only [stepMatchCopy, emit, recordByte, outputs, observeLast]
  repeat' split
  all_goals first
    | rfl
    | contradiction

end Block

/-- The block is isolated from what the machine held before exactly if every match byte comes from a cell the
    block has written. -/
theorem isolated_iff {inputs : Nat → Inputs} (started : (inputs 0).start = true) :
    Isolated inputs ↔ ∀ d : Decompressor, d.Reached → d.state = .idle → d.ReadsOwnBytes inputs := by
  constructor
  · intro isolated d reached idle t inBlock copying
    by_contra unwritten
    have foreign : ∀ history : BitVec 12 → Byte, ∃ last,
        ((powerUp history).after inputs (t + 1)).outputs.word =
          some (history ((powerUp history).after inputs t).matchReadAddr, last) := by
      intro history
      have idle' : (powerUp history).state = .idle := rfl
      have inBlock' := inBlock.transport idle idle' started
      have same := after_control inputs idle idle' started inBlock.1
      have state := congrArg Decompressor.state same
      have offset := congrArg matchOffset same
      simp only [control, copying] at state
      simp only [control, ← state, copying, or_true, if_true] at offset
      refine leftover_shown idle' started inBlock' state.symm fun below => unwritten ?_
      have own := (matchReadAddr_lt_iff (within_after idle' started inBlock')).mp below
      rwa [← recorded_eq idle idle' started, ← offset] at own
    obtain ⟨last, zeros⟩ := foreign fun _ => 0
    obtain ⟨last', ones⟩ := foreign fun _ => 255
    have inBlock' : (powerUp fun _ => 0).InBlock inputs (t + 1) := by
      refine ⟨Nat.le_add_left 1 t, fun s first earlier => ?_⟩
      rw [← after_state (d := d) idle rfl started first]
      rcases Nat.lt_succ_iff_lt_or_eq.mp earlier with before | rfl
      · exact inBlock.2 s first before
      · rw [copying]
        exact nofun
    have shown := congrArg Outputs.word
      (isolated _ _ (powerUp_reached fun _ => 0) (powerUp_reached fun _ => 255) rfl rfl _ inBlock')
    rw [zeros, ones] at shown
    have same : (0 : Byte) = 255 := congrArg Prod.fst (Option.some.inj shown)
    exact absurd same (by decide)
  · intro own d d' reached reached' idle idle' t inBlock
    exact (agreeing_after idle idle' started (own d reached idle) inBlock).outputs

/-- A source that sends three zero bytes: a token without literals and a match at offset 0. -/
def firstMatch (t : Nat) : Inputs :=
  { start := t == 0
    sAxisTdata := 0
    sAxisTvalid := decide (1 ≤ t ∧ t ≤ 3)
    sAxisTlast := t == 3
    mAxisTready := true }

/-- The criterion for a block that begins with a match. -/
theorem firstMatch_isolated_iff :
    Isolated firstMatch ↔
      ∀ d : Decompressor, d.Reached → d.state = .idle → d.ReadsOwnBytes firstMatch :=
  isolated_iff rfl

/-- A block that begins with a match shows what the machine held before. -/
theorem firstMatch_leaks : ¬Isolated firstMatch := by
  intro isolated
  have inBlock : (powerUp fun _ => 0).InBlock firstMatch 5 := by
    refine ⟨by decide, fun s first earlier => ?_⟩
    have states : ∀ s, s < 5 → 1 ≤ s → ((powerUp fun _ => 0).after firstMatch s).state ≠ .idle := by
      decide
    exact states s earlier first
  have shown := isolated _ _ (powerUp_reached fun _ => 0) (powerUp_reached fun _ => 255) rfl rfl 5 inBlock
  exact absurd shown (by decide)

end Decompressor

end Zftl.Rtl
