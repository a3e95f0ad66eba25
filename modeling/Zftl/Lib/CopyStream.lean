/-
Module: Zftl.Lib.CopyStream
Layer: Lib
Purpose: Copies that write more than they are asked for. A decoder that copies in chunks writes beyond the end of
  what it wants, and later copies write the same cells again, so what counts is that the buffer agrees with a
  stream of values up to a position. The module gives that agreement, the copies that extend it, the do-while
  loop over chunks with its rule, and the shifts of a stream that let a copy read what it has just written.
Imports: Mathlib.Data.List.GetD, Zftl.Lib.Buffer
Trusted boundary: none
Main exports: Buffer.cell, Buffer.suffix, Buffer.ofList, Buffer.Agrees, Buffer.Begins, moveWithin, Agrees.memcpy,
  Agrees.moveWithin, Shifts, copyRounds, copyRounds_rule, slice_of_agrees
Open obligations: none
-/
import Mathlib.Data.List.GetD
import Zftl.Lib.Buffer

namespace Zftl

variable {α : Type} {size srcSize : Nat}

namespace Buffer

/-- The cell at a position; there is a default beyond the end. -/
def cell [Inhabited α] (buffer : Buffer α size) (i : Nat) : α :=
  if inside : i < size then buffer ⟨i, inside⟩ else default

/-- The cells from a position to the end. -/
def suffix (buffer : Buffer α size) (offset : Nat) : List α := (List.ofFn buffer).drop offset

theorem length_suffix (buffer : Buffer α size) (offset : Nat) : (buffer.suffix offset).length = size - offset := by
  rw [Buffer.suffix, List.length_drop, List.length_ofFn]

theorem length_slice (buffer : Buffer α size) {offset length : Nat} (inside : offset + length ≤ size) :
    (buffer.slice offset length).length = length := by
  rw [slice, List.length_take, List.length_drop, List.length_ofFn]
  omega

/-- A run of cells and what is behind it. -/
theorem slice_append_suffix (buffer : Buffer α size) (offset length : Nat) :
    buffer.slice offset length ++ buffer.suffix (offset + length) = buffer.suffix offset := by
  rw [slice, Buffer.suffix, Buffer.suffix, ← List.drop_drop, List.take_append_drop]

theorem slice_append_slice (buffer : Buffer α size) (offset first second : Nat) :
    buffer.slice offset first ++ buffer.slice (offset + first) second = buffer.slice offset (first + second) := by
  rw [slice, slice, slice, List.take_add, ← List.drop_drop]

theorem suffix_end (buffer : Buffer α size) {offset : Nat} (beyond : size ≤ offset) : buffer.suffix offset = [] := by
  rw [Buffer.suffix, List.drop_eq_nil_iff, List.length_ofFn]
  exact beyond

/-- The buffer of a list. -/
def ofList (cells : List α) : Buffer α cells.length := cells.get

@[simp] theorem suffix_ofList (cells : List α) : (ofList cells).suffix 0 = cells := by
  rw [Buffer.suffix, List.drop_zero, ofList]
  exact List.ofFn_get cells

section Cells

variable [Inhabited α]

theorem cell_of_lt (buffer : Buffer α size) {i : Nat} (inside : i < size) :
    buffer.cell i = buffer ⟨i, inside⟩ := dif_pos inside

/-- A cell in front of the rest. -/
theorem suffix_eq_cons (buffer : Buffer α size) {offset : Nat} (inside : offset < size) :
    buffer.suffix offset = buffer.cell offset :: buffer.suffix (offset + 1) := by
  rw [Buffer.suffix, List.drop_eq_getElem_cons (by rwa [List.length_ofFn]), List.getElem_ofFn,
    cell_of_lt buffer inside]
  rfl

theorem slice_one (buffer : Buffer α size) {offset : Nat} (inside : offset < size) :
    buffer.slice offset 1 = [buffer.cell offset] := by
  rw [slice, List.drop_eq_getElem_cons (by rwa [List.length_ofFn]), List.getElem_ofFn, cell_of_lt buffer inside]
  rfl

theorem getElem?_slice_of_lt (buffer : Buffer α size) {offset length i : Nat} (below : i < length)
    (inside : offset + i < size) : (buffer.slice offset length)[i]? = some (buffer.cell (offset + i)) := by
  rw [getElem?_slice, if_pos below, dif_pos inside, cell_of_lt]

theorem getD_slice (buffer : Buffer α size) {offset length i : Nat} (below : i < length)
    (inside : offset + length ≤ size) (fallback : α) :
    (buffer.slice offset length).getD i fallback = buffer.cell (offset + i) := by
  rw [List.getD_eq_getElem?_getD, getElem?_slice_of_lt buffer below (by omega), Option.getD_some]

/-! ### Agreement with a stream -/

/-- The cells below `stop` hold what the stream says. -/
structure Agrees (buffer : Buffer α size) (stream : Nat → α) (stop : Nat) : Prop where
  inside : stop ≤ size
  cells : ∀ i, i < stop → buffer.cell i = stream i

variable {buffer : Buffer α size} {stream other : Nat → α} {start stop : Nat}

theorem Agrees.mono (agrees : buffer.Agrees stream stop) (earlier : start ≤ stop) : buffer.Agrees stream start :=
  ⟨Nat.le_trans earlier agrees.inside, fun i below => agrees.cells i (by omega)⟩

theorem Agrees.congr (agrees : buffer.Agrees stream stop) (same : ∀ i, i < stop → stream i = other i) :
    buffer.Agrees other stop :=
  ⟨agrees.inside, fun i below => (agrees.cells i below).trans (same i below)⟩

/-- What a buffer that agrees with a stream begins with. -/
theorem slice_of_agrees (agrees : buffer.Agrees stream stop) :
    buffer.slice 0 stop = (List.range stop).map stream := by
  apply List.ext_getElem?
  intro i
  by_cases below : i < stop
  · have inside := agrees.inside
    rw [getElem?_slice_of_lt buffer below (by omega), Nat.zero_add, agrees.cells i below, List.getElem?_map,
      List.getElem?_range below]
    rfl
  · rw [getElem?_slice, if_neg below, List.getElem?_map, List.getElem?_eq_none (by simpa using below)]
    rfl

theorem agrees_of_slice {cells : List α} (fallback : α) (begins : buffer.slice 0 cells.length = cells) :
    buffer.Agrees (fun i => cells.getD i fallback) cells.length := by
  have inside : cells.length ≤ size := by
    have lengths := congrArg List.length begins
    rw [slice, List.length_take, List.length_drop, List.length_ofFn] at lengths
    omega
  refine ⟨inside, fun i below => ?_⟩
  have cell := getD_slice buffer below (by omega : 0 + cells.length ≤ size) fallback
  rw [begins, Nat.zero_add] at cell
  exact cell.symm

end Cells

end Buffer

open Buffer

/-! ### Streams that repeat -/

/-- From `low` on, the stream says `distance` cells further on what it says here. -/
def Shifts (stream : Nat → α) (low distance : Nat) : Prop := ∀ i, low ≤ i → stream (i + distance) = stream i

theorem Shifts.add {low first second : Nat} (shifts : Shifts stream low first) (shifts' : Shifts stream low second) :
    Shifts stream low (first + second) := by
  intro i above
  rw [← Nat.add_assoc, shifts' (i + first) (by omega), shifts i above]

theorem Shifts.mul {low distance : Nat} (shifts : Shifts stream low distance) (times : Nat) :
    Shifts stream low (times * distance) := by
  induction times with
  | zero =>
      intro i _
      rw [Nat.zero_mul, Nat.add_zero]
  | succ times ih =>
      rw [Nat.succ_mul]
      exact ih.add shifts

/-! ### Copies -/

variable [Inhabited α] {dst : Buffer α size} {src : Buffer α srcSize} {stream : Nat → α}
  {dstOffset srcOffset length : Nat}

/-- The cells after a copy. -/
theorem memcpy_eq (dst : Buffer α size) (src : Buffer α srcSize) (dstOffset srcOffset length : Nat)
    (dstInside : dstOffset + length ≤ size)
    (srcInside : srcOffset + length ≤ srcSize) :
    ∃ result, memcpy dst dstOffset src srcOffset length = .ok result ∧
      ∀ i, result.cell i =
        if dstOffset ≤ i ∧ i < dstOffset + length then src.cell (srcOffset + (i - dstOffset)) else dst.cell i := by
  obtain ⟨result, copied⟩ := memcpy_total dst src dstOffset srcOffset length dstInside srcInside
  refine ⟨result, copied, fun i => ?_⟩
  obtain ⟨bounds, rfl⟩ := memcpy_eq_ok copied
  by_cases inside : dstOffset ≤ i ∧ i < dstOffset + length
  · rw [if_pos inside, cell_of_lt _ (by omega), cell_of_lt _ (by omega)]
    exact dif_pos inside
  · rw [if_neg inside]
    by_cases below : i < size
    · rw [cell_of_lt _ below, cell_of_lt _ below]
      exact dif_neg inside
    · rw [cell, cell, dif_neg below, dif_neg below]

/-- A copy from another buffer extends the agreement by what it copies. -/
theorem Buffer.Agrees.memcpy (agrees : dst.Agrees stream dstOffset) (src : Buffer α srcSize) (srcOffset length : Nat)
    (dstInside : dstOffset + length ≤ size) (srcInside : srcOffset + length ≤ srcSize)
    (copied : ∀ k, k < length → stream (dstOffset + k) = src.cell (srcOffset + k)) :
    ∃ result, Zftl.memcpy dst dstOffset src srcOffset length = .ok result ∧
      result.Agrees stream (dstOffset + length) := by
  obtain ⟨result, ok, cells⟩ := memcpy_eq dst src dstOffset srcOffset length dstInside srcInside
  refine ⟨result, ok, dstInside, fun i below => ?_⟩
  rw [cells i]
  by_cases inside : dstOffset ≤ i
  · have value := copied (i - dstOffset) (by omega)
    rw [Nat.add_sub_cancel' inside] at value
    rw [if_pos ⟨inside, below⟩, value]
  · rw [if_neg (fun both => inside both.1)]
    exact agrees.cells i (by omega)

/-! ### What a buffer begins with -/

/-- The buffer begins with these cells. -/
def Buffer.Begins (buffer : Buffer α size) (cells : List α) : Prop := buffer.slice 0 cells.length = cells

section Begins

variable {cells front back : List α}

theorem Buffer.Begins.agrees (begins : dst.Begins cells) :
    dst.Agrees (fun i => cells.getD i default) cells.length :=
  agrees_of_slice default begins

theorem Buffer.Begins.inside (begins : dst.Begins cells) : cells.length ≤ size := begins.agrees.inside

omit [Inhabited α] in
theorem Buffer.begins_nil (dst : Buffer α size) : dst.Begins [] := by
  rw [Buffer.Begins, slice, List.length_nil, List.take_zero]

theorem Buffer.begins_of_agrees (agrees : dst.Agrees (fun i => cells.getD i default) cells.length) :
    dst.Begins cells := by
  refine (slice_of_agrees agrees).trans (List.ext_getElem (by simp) fun i below below' => ?_)
  rw [List.getElem_map, List.getElem_range, List.getD_eq_getElem _ _ below']

/-- The stream of the cells and of more behind them. -/
theorem Buffer.Begins.agrees_append (begins : dst.Begins cells) (back : List α) :
    dst.Agrees (fun i => (cells ++ back).getD i default) cells.length :=
  begins.agrees.congr fun _ below => (List.getD_append _ _ _ _ below).symm

/-- A buffer begins with less, too. -/
theorem Buffer.Begins.left (begins : dst.Begins (front ++ back)) : dst.Begins front := by
  have shorter : front.length ≤ (front ++ back).length := by
    rw [List.length_append]
    exact Nat.le_add_right _ _
  exact begins_of_agrees ((begins.agrees.mono shorter).congr fun _ below => List.getD_append _ _ _ _ below)

/-- Copied cells go behind the ones the buffer begins with. -/
theorem Buffer.Begins.memcpy (begins : dst.Begins cells) (src : Buffer α srcSize) (srcOffset length : Nat)
    (dstInside : cells.length + length ≤ size) (srcInside : srcOffset + length ≤ srcSize) :
    ∃ result, Zftl.memcpy dst cells.length src srcOffset length = .ok result ∧
      result.Begins (cells ++ src.slice srcOffset length) := by
  have copied := length_slice src srcInside
  obtain ⟨result, ok, agrees⟩ :=
    (begins.agrees_append (src.slice srcOffset length)).memcpy src srcOffset length dstInside srcInside
      fun k below => by
      rw [List.getD_append_right _ _ _ _ (by omega), Nat.add_sub_cancel_left, getD_slice src below srcInside]
  refine ⟨result, ok, begins_of_agrees ?_⟩
  rwa [List.length_append, copied]

/-- One cell in the middle is written. -/
theorem Buffer.Begins.set {cell : α} (begins : dst.Begins (front ++ cell :: back)) (value : α) :
    ∃ result, Zftl.memcpy dst front.length (fun _ : Fin 1 => value) 0 1 = .ok result ∧
      result.Begins (front ++ value :: back) := by
  have inside := begins.inside
  rw [List.length_append, List.length_cons] at inside
  obtain ⟨result, ok, cells⟩ := memcpy_eq dst (fun _ : Fin 1 => value) front.length 0 1 (by omega)
    (by omega)
  refine ⟨result, ok, begins_of_agrees ⟨?_, fun i below => ?_⟩⟩
  · rw [List.length_append, List.length_cons]
    omega
  rw [List.length_append, List.length_cons] at below
  rw [cells i]
  by_cases here : front.length ≤ i ∧ i < front.length + 1
  · have at_front : i = front.length := by omega
    rw [if_pos here, at_front, List.getD_append_right _ _ _ _ (Nat.le_refl _), Nat.sub_self, List.getD_cons_zero]
    exact cell_of_lt _ (by omega)
  · have old := begins.agrees.cells i (by rw [List.length_append, List.length_cons]; omega)
    rw [if_neg here, old]
    by_cases before : i < front.length
    · rw [List.getD_append _ _ _ _ before, List.getD_append _ _ _ _ before]
    · have behind : i - front.length = (i - front.length - 1) + 1 := by omega
      rw [List.getD_append_right _ _ _ _ (by omega), List.getD_append_right _ _ _ _ (by omega), behind,
        List.getD_cons_succ, List.getD_cons_succ]

end Begins

/-- `memcpy` inside one buffer: the two runs must not overlap, unless they are the same one. -/
def moveWithin (dst : Buffer α size) (dstOffset srcOffset length : Nat) : Except Fault (Buffer α size) :=
  if srcOffset + length ≤ dstOffset ∨ dstOffset + length ≤ srcOffset ∨ srcOffset = dstOffset then
    memcpy dst dstOffset dst srcOffset length
  else .error .outOfBounds

/-- A copy from below extends the agreement, if the stream goes on there as it does where the copy reads. -/
theorem Buffer.Agrees.moveWithin (agrees : dst.Agrees stream dstOffset) (dstInside : dstOffset + length ≤ size)
    (apart : srcOffset + length ≤ dstOffset)
    (copied : ∀ k, k < length → stream (dstOffset + k) = stream (srcOffset + k)) :
    ∃ result, Zftl.moveWithin dst dstOffset srcOffset length = .ok result ∧
      result.Agrees stream (dstOffset + length) := by
  rw [Zftl.moveWithin, if_pos (Or.inl apart)]
  refine agrees.memcpy dst srcOffset length dstInside (by omega) fun k below => ?_
  rw [copied k below]
  exact (agrees.cells (srcOffset + k) (by omega)).symm

/-- A copy of a run onto itself changes nothing. -/
theorem moveWithin_self {stop : Nat} (dstOffset length : Nat) (agrees : dst.Agrees stream stop)
    (dstInside : dstOffset + length ≤ size) :
    ∃ result, moveWithin dst dstOffset dstOffset length = .ok result ∧ result.Agrees stream stop := by
  rw [moveWithin, if_pos (Or.inr (Or.inr rfl))]
  obtain ⟨result, ok, cells⟩ := memcpy_eq dst dst dstOffset dstOffset length dstInside dstInside
  refine ⟨result, ok, agrees.inside, fun i below => ?_⟩
  rw [cells i]
  split
  · next inside =>
    rw [Nat.add_sub_cancel' inside.1]
    exact agrees.cells i below
  · exact agrees.cells i below

/-! ### Loops over chunks -/

/-- `do { move(d, s); d += chunk; s += chunk; } while (d < e)`. -/
def copyRounds {β : Type} (chunk : Nat) (positive : 0 < chunk) (move : β → Nat → Nat → Except Fault β)
    (dst : β) (d s e : Nat) : Except Fault β := do
  let dst ← move dst d s
  if d + chunk < e then copyRounds chunk positive move dst (d + chunk) (s + chunk) e else pure dst
termination_by e - d
decreasing_by omega

/-- The rule of the loop: what a round extends by a chunk, as long as there is room, reaches the end. -/
theorem copyRounds_rule {β : Type} {chunk : Nat} {positive : 0 < chunk} {move : β → Nat → Nat → Except Fault β}
    (Inv : β → Nat → Nat → Prop) {limit : Nat} {dst : β} {d s e : Nat}
    (round : ∀ dst d s, Inv dst d s → d + chunk ≤ limit →
      ∃ dst', move dst d s = .ok dst' ∧ Inv dst' (d + chunk) (s + chunk))
    (init : Inv dst d s) (room : d + chunk ≤ limit) (stop : e + chunk ≤ limit + 1) :
    ∃ dst' d', copyRounds chunk positive move dst d s e = .ok dst' ∧ Inv dst' d' (s + (d' - d)) ∧
      d + chunk ≤ d' ∧ e ≤ d' := by
  -- the induction is on what is left to copy
  induction left : e - d using Nat.strongRecOn generalizing dst d s with
  | _ left ih =>
    obtain ⟨middle, moved, inv⟩ := round dst d s init room
    rw [copyRounds]
    by_cases more : d + chunk < e
    · obtain ⟨final, stopped, ok, inv', beyond, reached⟩ :=
        ih (e - (d + chunk)) (by omega) inv (by omega) rfl
      refine ⟨final, stopped, ?_, ?_, by omega, reached⟩
      · rw [moved]
        change (if d + chunk < e then copyRounds chunk positive move middle (d + chunk) (s + chunk) e
          else pure middle) = _
        rw [if_pos more, ok]
      · have same : s + chunk + (stopped - (d + chunk)) = s + (stopped - d) := by omega
        rwa [same] at inv'
    · refine ⟨middle, d + chunk, ?_, by rwa [Nat.add_sub_cancel_left], Nat.le_refl _, by omega⟩
      rw [moved]
      exact if_neg more

end Zftl
