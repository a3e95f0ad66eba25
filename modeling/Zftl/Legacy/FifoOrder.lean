/-
Module: Zftl.Legacy.FifoOrder
Layer: Legacy
Purpose: What the FIFO preserves. `WriteView` and `ReadView` read the registers of a domain as numbers: how much the
  domain itself has moved, and what it has last seen of the other. What is seen is never ahead of what has
  happened, so a write that has room overwrites nothing unread and a read takes the next word written.
Imports: Zftl.Legacy.AsyncFifo
Trusted boundary: none
Main exports: WriteView, ReadView, Buffered, Ordered, InOrder, run_inOrder, lastPlace_unsolved
Open obligations: none
-/
import Zftl.Legacy.AsyncFifo

namespace Zftl.Legacy

open GrayCode

variable {addrWidth dataWidth : Nat}

/-- The bits of the full pattern. -/
theorem getLsbD_fullPattern (width : 2 ≤ addrWidth) (g : BitVec (addrWidth + 1)) {i : Nat}
    (inside : i < addrWidth + 1) :
    (fullPattern g).getLsbD i = (g.getLsbD i ^^ decide (i = addrWidth ∨ i + 1 = addrWidth)) := by
  rw [fullPattern, BitVec.getLsbD_setWidth, BitVec.getLsbD_append]
  by_cases low : i < addrWidth - 1
  · have notTop : ¬(i = addrWidth ∨ i + 1 = addrWidth) := by omega
    simp [inside, low, notTop]
  · have top : i = addrWidth ∨ i + 1 = addrWidth := by omega
    have two : i - (addrWidth - 1) < 2 := by omega
    have back : addrWidth - 1 + (i - (addrWidth - 1)) = i := by omega
    simp [inside, low, top, two, back]

/-- The full pattern of a read pointer is the code of the write pointer a full memory ahead. -/
theorem fullPattern_gray (width : 2 ≤ addrWidth) (r : Nat) :
    fullPattern (gray (BitVec.ofNat (addrWidth + 1) r)) =
      gray (BitVec.ofNat (addrWidth + 1) (r + 2 ^ addrWidth)) :=
  BitVec.eq_of_getLsbD_eq fun i inside => by
    rw [getLsbD_fullPattern width _ inside, getLsbD_gray_add_half]

/-! ### Pointers as numbers -/

theorem ofNat_add_one (w n : Nat) : BitVec.ofNat w n + 1 = BitVec.ofNat w (n + 1) :=
  (BitVec.ofNat_add n 1).symm

/-- The write domain has written `w` words and has seen the read pointer at `r2`, next at `r1`. -/
structure WriteView (d : WriteDomain addrWidth) (w r1 r2 : Nat) : Prop where
  pointer : d.wptrBin = BitVec.ofNat _ w
  code : d.wptrGray = gray (BitVec.ofNat _ w)
  sync1 : d.rptrGraySync1 = gray (BitVec.ofNat _ r1)
  sync2 : d.rptrGraySync2 = gray (BitVec.ofNat _ r2)

/-- The read domain has read `r` words and has seen the write pointer at `w2`, next at `w1`. -/
structure ReadView (d : ReadDomain addrWidth) (r w1 w2 : Nat) : Prop where
  pointer : d.rptrBin = BitVec.ofNat _ r
  code : d.rptrGray = gray (BitVec.ofNat _ r)
  sync1 : d.wptrGraySync1 = gray (BitVec.ofNat _ w1)
  sync2 : d.wptrGraySync2 = gray (BitVec.ofNat _ w2)

/-- A solution with room moves the write pointer by the words accepted, and never to a full memory ahead of the
    read pointer it has seen. -/
theorem WriteView.solution {d : WriteDomain addrWidth} {w r1 r2 : Nat} (view : WriteView d w r1 r2)
    (width : 2 ≤ addrWidth) (below : w < r2 + 2 ^ addrWidth) {winc wfull : Bool}
    {next : BitVec (addrWidth + 1)} (room : d.HasRoom winc) (solves : d.Solves winc wfull next)
    (wdata : BitVec dataWidth) :
    next = BitVec.ofNat _ (w + (AsyncFifo.accepts winc wfull wdata).toList.length) ∧
      w + (AsyncFifo.accepts winc wfull wdata).toList.length < r2 + 2 ^ addrWidth := by
  cases winc with
  | false =>
      have pointer := solves.pointer
      rw [WriteDomain.wptrBinNext_idle, view.pointer] at pointer
      exact ⟨pointer, below⟩
  | true =>
      obtain ⟨rfl, rfl⟩ := solves.of_hasRoom room rfl
      have notFull := (room rfl).2
      rw [view.pointer, view.sync2, fullPattern_gray width, ofNat_add_one] at notFull
      refine ⟨by rw [view.pointer, ofNat_add_one]; rfl, ?_⟩
      have apart : w + 1 ≠ r2 + 2 ^ addrWidth := fun same => notFull (by rw [same])
      show w + 1 < r2 + 2 ^ addrWidth
      omega

theorem WriteView.edge {d : WriteDomain addrWidth} {w r r1 r2 : Nat} (view : WriteView d w r1 r2)
    {rptrGray : BitVec (addrWidth + 1)} (seen : rptrGray = gray (BitVec.ofNat _ r)) (w' : Nat) :
    WriteView (d.edge rptrGray (BitVec.ofNat _ w')) w' r r1 :=
  ⟨rfl, rfl, seen, view.sync1⟩

/-- An edge of `rclk` moves the read pointer by the words delivered, and never past the write pointer it has
    seen. -/
theorem ReadView.next {fifo : AsyncFifo addrWidth dataWidth} {r w1 w2 : Nat}
    (view : ReadView fifo.read r w1 w2) (behind : r ≤ w2) (rinc : Bool) :
    fifo.read.rptrBinNext rinc = BitVec.ofNat _ (r + (fifo.delivers rinc).toList.length) ∧
      r + (fifo.delivers rinc).toList.length ≤ w2 := by
  by_cases taken : (rinc && !fifo.read.rempty) = true
  · have differs : fifo.read.rptrGray ≠ fifo.read.wptrGraySync2 := by
      simp only [ReadDomain.rempty, Bool.and_eq_true, Bool.not_eq_true',
        decide_eq_false_iff_not] at taken
      exact taken.2
    rw [view.code, view.sync2] at differs
    have apart : r ≠ w2 := fun same => differs (by rw [same])
    simp only [ReadDomain.rptrBinNext, AsyncFifo.delivers, taken, if_true, Option.toList_some,
      List.length_singleton, view.pointer, ofNat_add_one, true_and]
    omega
  · simp only [ReadDomain.rptrBinNext, AsyncFifo.delivers, taken, view.pointer]
    exact ⟨BitVec.add_zero _, behind⟩

theorem ReadView.edge {d : ReadDomain addrWidth} {r w w1 w2 : Nat} (view : ReadView d r w1 w2)
    {wptrGray : BitVec (addrWidth + 1)} (seen : wptrGray = gray (BitVec.ofNat _ w)) {rinc : Bool}
    {r' : Nat} (next : d.rptrBinNext rinc = BitVec.ofNat _ r') :
    ReadView (d.edge wptrGray rinc) r' w w1 := by
  refine ⟨next, ?_, seen, view.sync1⟩
  rw [← next]
  rfl

/-! ### The memory -/

/-- The memory holds the words written and not yet read, and those read are the first ones written. -/
structure Buffered (mem : BitVec addrWidth → BitVec dataWidth) (written got : List (BitVec dataWidth)) :
    Prop where
  stored : ∀ k, got.length ≤ k → k < written.length →
    written[k]? = some (mem (BitVec.ofNat addrWidth k))
  taken : got <+: written

/-- The low bits of a pointer. -/
theorem setWidth_pointer (n : Nat) :
    (BitVec.ofNat (addrWidth + 1) n).setWidth addrWidth = BitVec.ofNat addrWidth n :=
  BitVec.setWidth_ofNat_of_le (Nat.le_succ addrWidth) n

/-- Two numbers less than a full memory apart have different cells. -/
theorem cell_ne {k n : Nat} (before : k < n) (near : n < k + 2 ^ addrWidth) :
    BitVec.ofNat addrWidth k ≠ BitVec.ofNat addrWidth n := by
  intro same
  have cells := congrArg BitVec.toNat same
  rw [BitVec.toNat_ofNat, BitVec.toNat_ofNat] at cells
  have distance := Nat.sub_mod_eq_zero_of_mod_eq cells.symm
  rw [Nat.mod_eq_of_lt (by omega)] at distance
  omega

theorem Buffered.store {fifo : AsyncFifo addrWidth dataWidth} {written got : List (BitVec dataWidth)}
    (buffered : Buffered fifo.mem written got)
    (pointer : fifo.write.wptrBin = BitVec.ofNat _ written.length)
    (room : written.length < got.length + 2 ^ addrWidth) (word : Option (BitVec dataWidth)) :
    Buffered (fifo.store word) (written ++ word.toList) got := by
  cases word with
  | none =>
      rw [Option.toList_none, List.append_nil]
      exact buffered
  | some wdata =>
      refine ⟨fun k unread below => ?_, buffered.taken.trans (List.prefix_append _ _)⟩
      simp only [Option.toList_some, List.length_append, List.length_singleton] at below
      simp only [AsyncFifo.store, Option.toList_some, pointer, setWidth_pointer]
      rcases Nat.lt_succ_iff_lt_or_eq.mp below with earlier | rfl
      · rw [Function.update_of_ne (cell_ne earlier (by omega)), List.getElem?_append_left earlier]
        exact buffered.stored k unread earlier
      · rw [Function.update_self, List.getElem?_concat_length]

theorem Buffered.deliver {fifo : AsyncFifo addrWidth dataWidth} {written got : List (BitVec dataWidth)}
    (buffered : Buffered fifo.mem written got)
    (pointer : fifo.read.rptrBin = BitVec.ofNat _ got.length) (rinc : Bool)
    (behind : got.length + (fifo.delivers rinc).toList.length ≤ written.length) :
    Buffered fifo.mem written (got ++ (fifo.delivers rinc).toList) := by
  cases delivered : fifo.delivers rinc with
  | none =>
      rw [Option.toList_none, List.append_nil]
      exact buffered
  | some word =>
      rw [delivered] at behind
      simp only [Option.toList_some, List.length_singleton] at behind ⊢
      have head : word = fifo.mem (BitVec.ofNat addrWidth got.length) := by
        simp only [AsyncFifo.delivers, AsyncFifo.rdata, pointer, setWidth_pointer] at delivered
        split at delivered
        · exact (Option.some.inj delivered).symm
        · cases delivered
      have next := buffered.stored got.length (Nat.le_refl _) (by omega)
      rw [← head] at next
      refine ⟨fun k unread below => ?_, ?_⟩
      · rw [List.length_append, List.length_singleton] at unread
        exact buffered.stored k (by omega) below
      · obtain ⟨rest, written_eq⟩ := buffered.taken
        subst written_eq
        rw [List.getElem?_append_right (Nat.le_refl _), Nat.sub_self] at next
        cases rest with
        | nil => cases next
        | cons first rest =>
            cases next
            exact ⟨rest, by simp⟩

/-! ### Runs -/

/-- The invariant: each domain has seen the other at a time in the past. -/
structure Ordered (fifo : AsyncFifo addrWidth dataWidth) (written got : List (BitVec dataWidth))
    (w1 w2 r1 r2 : Nat) : Prop where
  writeView : WriteView fifo.write written.length r1 r2
  readView : ReadView fifo.read got.length w1 w2
  reads : r2 ≤ r1 ∧ r1 ≤ got.length
  unread : got.length ≤ w2
  writes : w2 ≤ w1 ∧ w1 ≤ written.length
  room : written.length < r2 + 2 ^ addrWidth
  buffered : Buffered fifo.mem written got

/-- Neither loss, duplication, reordering nor overwriting at the edges that follow a state: the write side has one
    solution exactly with room, a word is accepted only while fewer than a full memory are unread, a word is
    delivered only while one is unread, and what has been read is a prefix of what has been written. -/
structure InOrder (fifo : AsyncFifo addrWidth dataWidth) (written got : List (BitVec dataWidth)) :
    Prop where
  solved : ∀ winc, fifo.write.Solved winc ↔ fifo.write.HasRoom winc
  accepted : ∀ winc wfull next (wdata : BitVec dataWidth), fifo.write.Solves winc wfull next →
    (AsyncFifo.accepts winc wfull wdata).isSome →
      written.length < got.length + 2 ^ addrWidth
  delivered : ∀ rinc, (fifo.delivers rinc).isSome → got.length < written.length
  ordered : got <+: written

section Runs

variable {fifo : AsyncFifo addrWidth dataWidth} {written got : List (BitVec dataWidth)}

/-- Every run whose writes have room keeps the invariant. -/
theorem run_ordered (width : 2 ≤ addrWidth) (run : FifoRun WriteDomain.HasRoom fifo written got) :
    ∃ w1 w2 r1 r2, Ordered fifo written got w1 w2 r1 r2 := by
  induction run with
  | reset mem =>
      have start : (0 : BitVec (addrWidth + 1)) = gray (BitVec.ofNat _ 0) := by simp [gray]
      exact ⟨0, 0, 0, 0, ⟨rfl, start, start, start⟩, ⟨rfl, start, start, start⟩,
        ⟨Nat.le_refl 0, Nat.le_refl 0⟩, Nat.le_refl 0, ⟨Nat.le_refl 0, Nat.le_refl 0⟩,
        Nat.lt_add_left 0 (Nat.two_pow_pos addrWidth), ⟨by simp, List.prefix_rfl⟩⟩
  | @write fifo written got before winc wdata room wfull next solves ih =>
      obtain ⟨w1, w2, r1, r2, ordered⟩ := ih
      obtain ⟨rfl, below⟩ := ordered.writeView.solution width ordered.room room solves wdata
      have reads := ordered.reads
      have writes := ordered.writes
      have near := ordered.room
      refine ⟨w1, w2, got.length, r1, ?_, ordered.readView, ⟨reads.2, Nat.le_refl _⟩, ordered.unread,
        ⟨writes.1, ?_⟩, ?_, ordered.buffered.store ordered.writeView.pointer (by omega) _⟩
      · rw [List.length_append]
        exact ordered.writeView.edge ordered.readView.code _
      · rw [List.length_append]
        omega
      · rw [List.length_append]
        omega
  | @read fifo written got before rinc ih =>
      obtain ⟨w1, w2, r1, r2, ordered⟩ := ih
      obtain ⟨next, behind⟩ := ordered.readView.next ordered.unread rinc
      have reads := ordered.reads
      have writes := ordered.writes
      refine ⟨written.length, w1, r1, r2, ordered.writeView, ?_, ⟨reads.1, ?_⟩, ?_,
        ⟨writes.2, Nat.le_refl _⟩, ordered.room,
        ordered.buffered.deliver ordered.readView.pointer rinc (by omega)⟩
      · rw [List.length_append]
        exact ordered.readView.edge ordered.writeView.code next
      · rw [List.length_append]
        omega
      · rw [List.length_append]
        omega
  | @both fifo written got before winc wdata rinc room wfull next solves ih =>
      obtain ⟨w1, w2, r1, r2, ordered⟩ := ih
      obtain ⟨rfl, below⟩ := ordered.writeView.solution width ordered.room room solves wdata
      obtain ⟨next, behind⟩ := ordered.readView.next ordered.unread rinc
      have reads := ordered.reads
      have writes := ordered.writes
      have near := ordered.room
      -- The word is taken out of the memory as it was, and the new word goes into another cell.
      have delivered := ordered.buffered.deliver ordered.readView.pointer rinc (by omega)
      refine ⟨written.length, w1, got.length, r1, ?_, ?_, ⟨reads.2, ?_⟩, ?_, ⟨writes.2, ?_⟩, ?_,
        delivered.store ordered.writeView.pointer ?_ _⟩
      · rw [List.length_append]
        exact ordered.writeView.edge ordered.readView.code _
      · rw [List.length_append]
        exact ordered.readView.edge ordered.writeView.code next
      all_goals
        simp only [List.length_append]
        omega

/-- In a run whose write requests have room the FIFO keeps its order: the write side has exactly one solution at
    every edge, nothing unread is overwritten, nothing is read that was not written, and the words come out in
    the order they went in. -/
theorem run_inOrder (width : 2 ≤ addrWidth) (run : FifoRun WriteDomain.HasRoom fifo written got) :
    InOrder fifo written got := by
  obtain ⟨w1, w2, r1, r2, ordered⟩ := run_ordered width run
  have reads := ordered.reads
  have writes := ordered.writes
  have near := ordered.room
  refine ⟨fifo.write.solved_iff, fun _ _ _ _ _ _ => by omega, fun rinc taken => ?_,
    ordered.buffered.taken⟩
  have behind := (ordered.readView.next ordered.unread rinc).2
  obtain ⟨word, delivered⟩ := Option.isSome_iff_exists.mp taken
  rw [delivered, Option.toList_some, List.length_singleton] at behind
  omega

end Runs

/-- Three words are written into a memory of four, and one is read while the third is written. -/
theorem threeWrites_inOrder :
    ∃ fifo : AsyncFifo 2 8, ∃ written got : List (BitVec 8), written = [1, 2, 3] ∧ got = [1] ∧
      InOrder fifo written got := by
  have first : FifoRun WriteDomain.HasRoom (.reset fun _ => 0 : AsyncFifo 2 8) [] [] := .reset _
  have one := first.write true 1 (by decide) (⟨rfl, by decide⟩ : WriteDomain.Solves _ true false _)
  have two := one.write true 2 (by decide) (⟨rfl, by decide⟩ : WriteDomain.Solves _ true false _)
  have seen := (two.read false).read false
  have three := seen.both true 3 true (by decide) (⟨rfl, by decide⟩ : WriteDomain.Solves _ true false _)
  exact ⟨_, _, _, rfl, by decide, run_inOrder (Nat.le_refl 2) three⟩

/-- With one place left a requested write has no consistent full flag. -/
theorem lastPlace_unsolved :
    ∃ fifo : AsyncFifo 2 8, ∃ written got : List (BitVec 8),
      FifoRun (fun _ _ => True) fifo written got ∧ written.length < got.length + 2 ^ 2 ∧
        ¬fifo.write.Solved true := by
  have first : FifoRun (fun _ _ => True) (.reset fun _ => 0 : AsyncFifo 2 8) [] [] := .reset _
  have one := first.write true 1 trivial (⟨rfl, by decide⟩ : WriteDomain.Solves _ true false _)
  have two := one.write true 2 trivial (⟨rfl, by decide⟩ : WriteDomain.Solves _ true false _)
  have three := two.write true 3 trivial (⟨rfl, by decide⟩ : WriteDomain.Solves _ true false _)
  refine ⟨_, _, _, three, by decide, fun solved => ?_⟩
  exact ((WriteDomain.solved_iff _ true).mp solved rfl).2 (by decide)

end Zftl.Legacy
