/-
Module: Zftl.Flash.NandArray
Layer: Flash
Purpose: What the flash array is for. A `NandArray` is a write-once-until-erase memory: for each page, the data
  of the program accepted since the last erase of its block, if any. `Represents` ties it to the three
  pieces of per-page state and the per-block counter of `FlashModel`; every call answers as the abstract array
  says and keeps the relation. `stalePages` counts the pages of a block that are programmed and not valid, and
  `programmedPages` the programmed pages of the device.
Imports: Zftl.Flash.FlashModel, Zftl.Lib.Counting, Zftl.Lib.Trace
Trusted boundary: none
Main exports: FlashCall, FlashAnswer, FlashModel.call, NandArray, sinceErase, stalePages, programmedPages, Tallied,
  Represents, trace_represents
Open obligations: none
-/
import Zftl.Flash.FlashModel
import Zftl.Lib.Counting
import Zftl.Lib.Trace

namespace Zftl

/-- A call of the array. -/
inductive FlashCall where
  | programPage (blockIdx pageIdx : Nat) (src4kb : Option Page)
  | readPage (blockIdx pageIdx : Nat) (dest4kb : Page)
  | eraseBlock (blockIdx : Nat)
  | invalidatePage (blockIdx pageIdx : Nat)

/-- What a call gives back: the flag, and the buffer of a read afterwards. -/
structure FlashAnswer where
  ok : Bool
  dest4kb : Option Page := none

/-- One call. -/
def FlashModel.call {cfg : FlashConfig} (flash : FlashModel cfg) :
    FlashCall → Except Fault (FlashModel cfg × FlashAnswer)
  | .programPage b p src =>
      let (flash, ok) := flash.programPage b p src
      .ok (flash, { ok := ok })
  | .readPage b p dest =>
      let (flash, ok, dest) := flash.readPage b p dest
      .ok (flash, { ok := ok, dest4kb := some dest })
  | .eraseBlock b =>
      let (flash, ok) := flash.eraseBlock b
      .ok (flash, { ok := ok })
  | .invalidatePage b p => .ok (flash.invalidatePage b p, { ok := true })

/-- A write-once-until-erase array: the data each page has been programmed with since the last erase of its
    block. -/
abbrev NandArray := Nat → Nat → Option Page

namespace NandArray

/-- No page is programmed. -/
def erased : NandArray := fun _ _ => none

/-- What the array answers. Invalidation means nothing to it. -/
def answer (cfg : FlashConfig) (nand : NandArray) : FlashCall → FlashAnswer
  | .programPage b p src =>
      { ok := decide (b < cfg.totalBlocks ∧ p < cfg.pagesPerBlock) && src.isSome && (nand b p).isNone }
  | .readPage b p dest =>
      if b < cfg.totalBlocks ∧ p < cfg.pagesPerBlock then
        { ok := true, dest4kb := some ((nand b p).getD (Buffer.fill flashPageSize 0xFF)) }
      else { ok := false, dest4kb := some dest }
  | .eraseBlock b => { ok := decide (b < cfg.totalBlocks) }
  | .invalidatePage _ _ => { ok := true }

/-- The array after an answered call. -/
def after (nand : NandArray) : FlashCall × FlashAnswer → NandArray
  | (.programPage b p (some src), ⟨true, _⟩) =>
      Function.update nand b (Function.update (nand b) p (some src))
  | (.eraseBlock b, _) => Function.update nand b fun _ => none
  | _ => nand

end NandArray

/-- The data of the accepted program of each page since the last erase of its block, in a history of answered
    calls. -/
def sinceErase (events : List (FlashCall × FlashAnswer)) : NandArray :=
  events.foldl NandArray.after .erased

theorem sinceErase_append (events : List (FlashCall × FlashAnswer)) (event : FlashCall × FlashAnswer) :
    sinceErase (events ++ [event]) = (sinceErase events).after event := by
  rw [sinceErase, List.foldl_append]
  rfl

namespace FlashModel

variable {cfg : FlashConfig} {flash : FlashModel cfg}

/-- How many pages of a block are programmed and not valid. -/
def stalePages (flash : FlashModel cfg) (blockIdx : Nat) : Nat :=
  Nat.count (fun p => flash.isPageProgrammed blockIdx p = true ∧ flash.isPageValid blockIdx p = false)
    cfg.pagesPerBlock

theorem stalePages_le (flash : FlashModel cfg) (blockIdx : Nat) :
    flash.stalePages blockIdx ≤ cfg.pagesPerBlock := Nat.count_le _

/-- Only the two flags of the pages of the block matter. -/
theorem stalePages_congr {flash' : FlashModel cfg} {b : Nat}
    (stale : ∀ p, (flash'.isPageProgrammed b p = true ∧ flash'.isPageValid b p = false) ↔
      (flash.isPageProgrammed b p = true ∧ flash.isPageValid b p = false)) :
    flash'.stalePages b = flash.stalePages b :=
  count_congr fun p _ => stale p

/-! ### The counters -/

theorem getInvalidCount_of_blocks {flash' : FlashModel cfg} {b : Nat}
    (same : (flash'.blocks b).invalidPageCount = (flash.blocks b).invalidPageCount) :
    flash'.getInvalidCount b = flash.getInvalidCount b := by
  rw [getInvalidCount, getInvalidCount, same]

theorem programPage_getInvalidCount (flash : FlashModel cfg) (blockIdx pageIdx : Nat) (src : Page)
    (b : Nat) :
    (flash.programPage blockIdx pageIdx (some src)).1.getInvalidCount b = flash.getInvalidCount b := by
  apply getInvalidCount_of_blocks
  by_cases out : blockIdx ≥ cfg.totalBlocks ∨ pageIdx ≥ cfg.pagesPerBlock
  · simp [programPage, out, recordCall]
  · cases programmed : ((flash.blocks blockIdx).pages pageIdx).isProgrammed with
    | true => simp [programPage, out, programmed, recordCall]
    | false =>
        by_cases same : b = blockIdx
        · subst same
          simp [programPage, out, programmed]
        · simp [programPage, out, programmed, same]

/-- An invalidation is counted exactly if the page was valid. -/
theorem invalidatePage_getInvalidCount (flash : FlashModel cfg) (blockIdx pageIdx b : Nat) :
    (flash.invalidatePage blockIdx pageIdx).getInvalidCount b =
      if b = blockIdx ∧ flash.isPageValid blockIdx pageIdx = true then
        u32 (flash.getInvalidCount b + 1)
      else flash.getInvalidCount b := by
  by_cases out : blockIdx ≥ cfg.totalBlocks ∨ pageIdx ≥ cfg.pagesPerBlock
  · simp [invalidatePage, isPageValid, out]
  · have blockLt : ¬cfg.totalBlocks ≤ blockIdx := fun beyond => out (Or.inl beyond)
    have pageLt : ¬cfg.pagesPerBlock ≤ pageIdx := fun beyond => out (Or.inr beyond)
    cases valid : (flash.blocks blockIdx).pageValid pageIdx with
    | false => simp [invalidatePage, isPageValid, out, valid]
    | true =>
        by_cases same : b = blockIdx
        · subst same
          simp [invalidatePage, isPageValid, getInvalidCount, blockLt, pageLt, valid]
        · simp [invalidatePage, isPageValid, getInvalidCount, out, valid, same]

/-- The flags and the counters agree: valid pages are programmed, and the counter of a block is the number of
    its stale pages, as far as a `uint32_t` holds it. -/
structure Tallied (flash : FlashModel cfg) : Prop where
  validProgrammed : ∀ b p, flash.isPageValid b p = true → flash.isPageProgrammed b p = true
  counted : ∀ b, b < cfg.totalBlocks → flash.getInvalidCount b = u32 (flash.stalePages b)

namespace Tallied

theorem fresh : ({} : FlashModel cfg).Tallied := by
  refine ⟨fun b p valid => ?_, fun b inside => ?_⟩
  · rw [isPageValid_fresh] at valid
    cases valid
  · have none : ({} : FlashModel cfg).stalePages b = 0 :=
      Nat.count_iff_forall_not.mpr fun p _ stale => by simp at stale
    rw [none, getInvalidCount, if_neg (Nat.not_le.mpr inside)]
    rfl

/-- Only the blocks matter. -/
theorem congr {flash' : FlashModel cfg} (tallied : flash.Tallied) (same : flash'.blocks = flash.blocks) :
    flash'.Tallied := by
  refine ⟨fun b p => ?_, fun b inside => ?_⟩
  · simpa only [isPageValid, isPageProgrammed, same] using tallied.validProgrammed b p
  · have counter : flash'.getInvalidCount b = flash.getInvalidCount b :=
      getInvalidCount_of_blocks (by rw [same])
    rw [counter, tallied.counted b inside]
    apply congrArg u32 (stalePages_congr fun p => ?_).symm
    rw [isPageProgrammed, isPageProgrammed, isPageValid, isPageValid, same]

/-- An accepted program makes a page programmed and valid at once. -/
theorem programPage (tallied : flash.Tallied) (blockIdx pageIdx : Nat) (src : Page) :
    (flash.programPage blockIdx pageIdx (some src)).1.Tallied := by
  cases returned : (flash.programPage blockIdx pageIdx (some src)).2 with
  | false => exact tallied.congr (programPage_blocks_of_refused _ _ _ _ returned)
  | true =>
      have target := (programPage_accepted _ _ _ _).mp returned
      have page := programPage_page_of_accepted returned
      refine ⟨fun b p valid => ?_, fun b inside => ?_⟩
      · by_cases here : b = blockIdx ∧ p = pageIdx
        · rw [here.1, here.2]
          exact page.1
        · rw [programPage_isPageValid_of_ne here] at valid
          rw [programPage_isPageProgrammed_of_ne here]
          exact tallied.validProgrammed b p valid
      · rw [programPage_getInvalidCount, tallied.counted b inside]
        apply congrArg u32 (stalePages_congr fun p => ?_).symm
        by_cases here : b = blockIdx ∧ p = pageIdx
        · rw [here.1, here.2, page.2.1, target.2.2]
          simp
        · rw [programPage_isPageValid_of_ne here, programPage_isPageProgrammed_of_ne here]

/-- Nothing is stale in an erased block. -/
theorem eraseBlock (tallied : flash.Tallied) (blockIdx : Nat) : (flash.eraseBlock blockIdx).1.Tallied := by
  refine ⟨fun b p valid => ?_, fun b inside => ?_⟩
  · by_cases here : b = blockIdx
    · rw [here, eraseBlock_isPageValid_self] at valid
      cases valid
    · rw [eraseBlock_isPageValid_of_ne here] at valid
      rw [eraseBlock_isPageProgrammed_of_ne here]
      exact tallied.validProgrammed b p valid
  · by_cases here : b = blockIdx
    · subst here
      have none : (flash.eraseBlock b).1.stalePages b = 0 :=
        Nat.count_iff_forall_not.mpr fun p _ stale => by
          rw [eraseBlock_erased p] at stale
          cases stale.1
      rw [none]
      simp [getInvalidCount, FlashModel.eraseBlock, Nat.not_le.mpr inside, u32]
    · have counter : (flash.eraseBlock blockIdx).1.getInvalidCount b = flash.getInvalidCount b :=
        getInvalidCount_of_blocks (by rw [eraseBlock_blocks_of_ne here])
      rw [counter, tallied.counted b inside]
      apply congrArg u32 (stalePages_congr fun p => ?_).symm
      rw [eraseBlock_isPageValid_of_ne here, eraseBlock_isPageProgrammed_of_ne here]

/-- A page becomes stale once, however often it is invalidated. -/
theorem invalidatePage (tallied : flash.Tallied) (blockIdx pageIdx : Nat) :
    (flash.invalidatePage blockIdx pageIdx).Tallied := by
  refine ⟨fun b p valid => ?_, fun b inside => ?_⟩
  · rw [invalidatePage_isPageProgrammed]
    exact tallied.validProgrammed b p (isPageValid_of_invalidatePage valid).1
  · rw [invalidatePage_getInvalidCount, tallied.counted b inside]
    by_cases hit : b = blockIdx ∧ flash.isPageValid blockIdx pageIdx = true
    · obtain ⟨rfl, valid⟩ := hit
      have grown : (flash.invalidatePage b pageIdx).stalePages b = flash.stalePages b + 1 := by
        apply count_eq_add_one (isPageValid_inRange valid).2
        · rw [invalidatePage_isPageProgrammed, invalidatePage_isPageValid]
          exact ⟨tallied.validProgrammed b pageIdx valid, by simp⟩
        · rw [valid]
          simp
        · intro p other
          rw [invalidatePage_isPageProgrammed, invalidatePage_isPageValid]
          simp [other]
      rw [if_pos ⟨rfl, valid⟩, grown]
      exact Nat.mod_add_mod _ _ _
    · rw [if_neg hit]
      apply congrArg u32 (stalePages_congr fun p => ?_).symm
      rw [invalidatePage_isPageProgrammed, invalidatePage_isPageValid]
      by_cases here : b = blockIdx ∧ p = pageIdx
      · have notValid : flash.isPageValid b p = false := by
          rw [here.2, ← Bool.not_eq_true, here.1]
          exact fun valid => hit ⟨here.1, valid⟩
        rw [notValid, Bool.false_and]
      · rw [decide_eq_false here, Bool.not_false, Bool.and_true]

end Tallied

/-! ### Programmed pages -/

/-- How many pages of a block are programmed. -/
def programmedIn (flash : FlashModel cfg) (blockIdx : Nat) : Nat :=
  Nat.count (fun p => flash.isPageProgrammed blockIdx p = true) cfg.pagesPerBlock

/-- How many pages of the device are programmed. -/
def programmedPages (flash : FlashModel cfg) : Nat :=
  ∑ b ∈ Finset.range cfg.totalBlocks, flash.programmedIn b

/-- Only the blocks matter. -/
theorem programmedPages_congr {flash' : FlashModel cfg} (same : flash'.blocks = flash.blocks) :
    flash'.programmedPages = flash.programmedPages := by
  refine Finset.sum_congr rfl fun b _ => count_congr fun p _ => ?_
  rw [isPageProgrammed, isPageProgrammed, same]

/-- An accepted program adds a page. -/
theorem programPage_programmedPages {blockIdx pageIdx : Nat} {src : Page}
    (accepted : (flash.programPage blockIdx pageIdx (some src)).2 = true) :
    (flash.programPage blockIdx pageIdx (some src)).1.programmedPages = flash.programmedPages + 1 := by
  have target := (programPage_accepted _ _ _ _).mp accepted
  have page := programPage_page_of_accepted accepted
  have grown : (flash.programPage blockIdx pageIdx (some src)).1.programmedIn blockIdx =
      flash.programmedIn blockIdx + 1 := by
    refine count_eq_add_one target.2.1 page.1 (by rw [target.2.2]; exact Bool.false_ne_true) ?_
    intro p other
    rw [programPage_isPageProgrammed_of_ne fun same => other same.2]
  have others : ∀ b, b ≠ blockIdx →
      (flash.programPage blockIdx pageIdx (some src)).1.programmedIn b = flash.programmedIn b :=
    fun b other => count_congr fun p _ => by
      rw [programPage_isPageProgrammed_of_ne fun same => other same.1]
  have sum := sum_range_add_of_others target.1 others
  simp only [programmedPages]
  omega

/-- An erase removes the programmed pages of its block. -/
theorem eraseBlock_programmedPages {blockIdx : Nat} (inside : blockIdx < cfg.totalBlocks) :
    (flash.eraseBlock blockIdx).1.programmedPages + flash.programmedIn blockIdx =
      flash.programmedPages := by
  have empty : (flash.eraseBlock blockIdx).1.programmedIn blockIdx = 0 :=
    Nat.count_iff_forall_not.mpr fun p _ programmed => by
      rw [eraseBlock_erased p] at programmed
      cases programmed
  have others : ∀ b, b ≠ blockIdx →
      (flash.eraseBlock blockIdx).1.programmedIn b = flash.programmedIn b :=
    fun b other => count_congr fun p _ => by rw [eraseBlock_isPageProgrammed_of_ne other]
  have sum := sum_range_add_of_others inside others
  simp only [programmedPages]
  omega

/-- The programmed pages of a block are the valid and the stale ones. -/
theorem Tallied.programmedIn_eq (tallied : flash.Tallied) (b : Nat) :
    flash.programmedIn b =
      Nat.count (fun p => flash.isPageValid b p = true) cfg.pagesPerBlock + flash.stalePages b := by
  have valid : Nat.count (fun p => flash.isPageValid b p = true) cfg.pagesPerBlock =
      Nat.count (fun p => flash.isPageProgrammed b p = true ∧ flash.isPageValid b p = true)
        cfg.pagesPerBlock :=
    count_congr fun p _ => ⟨fun valid => ⟨tallied.validProgrammed b p valid, valid⟩, And.right⟩
  have stale : flash.stalePages b =
      Nat.count (fun p => flash.isPageProgrammed b p = true ∧ ¬flash.isPageValid b p = true)
        cfg.pagesPerBlock :=
    count_congr fun p _ => by rw [Bool.not_eq_true]
  rw [valid, stale, programmedIn, count_and_add_count_and_not]

/-! ### Refinement -/

/-- The model holds what the abstract array holds. -/
structure Represents (flash : FlashModel cfg) (nand : NandArray) : Prop where
  tallied : flash.Tallied
  programmed : ∀ b p, flash.isPageProgrammed b p = (nand b p).isSome
  data : ∀ b p src, nand b p = some src → flash.pageData b p = src

theorem represents_fresh : Represents ({} : FlashModel cfg) .erased :=
  ⟨.fresh, fun b p => isPageProgrammed_fresh b p, nofun⟩

namespace Represents

variable {nand : NandArray}

/-- A program succeeds exactly on a page in range that has not been programmed since its erase. -/
theorem programPage (represents : Represents flash nand) (fullPage : cfg.pageSizeBytes = flashPageSize)
    (b p : Nat) (src : Option Page) :
    (flash.programPage b p src).2 = (nand.answer cfg (.programPage b p src)).ok ∧
      Represents (flash.programPage b p src).1
        (nand.after (.programPage b p src, { ok := (flash.programPage b p src).2 })) := by
  cases src with
  | none =>
      have refused : (flash.programPage b p none).2 = false := rfl
      rw [refused]
      exact ⟨by simp [NandArray.answer],
        ⟨represents.tallied.congr rfl, represents.programmed, represents.data⟩⟩
  | some src =>
      cases returned : (flash.programPage b p (some src)).2 with
      | false =>
          have same := programPage_blocks_of_refused _ _ _ _ returned
          refine ⟨?_, represents.tallied.programPage b p src, fun b' p' => ?_, fun b' p' src' held => ?_⟩
          · have refused := mt (programPage_accepted flash b p src).mpr (Bool.eq_false_iff.mp returned)
            rw [represents.programmed] at refused
            simp only [NandArray.answer, Option.isSome_some, Bool.and_true]
            symm
            rw [Bool.and_eq_false_iff, decide_eq_false_iff_not, Option.isNone_eq_false_iff,
              ← Bool.not_eq_false]
            by_cases inside : b < cfg.totalBlocks ∧ p < cfg.pagesPerBlock
            · exact Or.inr fun free => refused ⟨inside.1, inside.2, free⟩
            · exact Or.inl inside
          · rw [isPageProgrammed, same]
            exact represents.programmed b' p'
          · rw [pageData, same]
            exact represents.data b' p' src' held
      | true =>
          have target := (programPage_accepted _ _ _ _).mp returned
          have page := programPage_page_of_accepted returned
          rw [Buffer.overlay_full _ _ (Nat.le_of_eq fullPage.symm)] at page
          have held : ∀ b' p', nand.after (.programPage b p (some src), { ok := true }) b' p' =
              if b' = b ∧ p' = p then some src else nand b' p' := by
            intro b' p'
            by_cases sameBlock : b' = b
            · subst sameBlock
              by_cases samePage : p' = p <;> simp [NandArray.after, samePage]
            · simp [NandArray.after, sameBlock]
          refine ⟨?_, represents.tallied.programPage b p src, fun b' p' => ?_, fun b' p' src' there => ?_⟩
          · have free := target.2.2
            rw [represents.programmed, Option.isSome_eq_false_iff] at free
            simp [NandArray.answer, target.1, target.2.1, free]
          · rw [held]
            by_cases here : b' = b ∧ p' = p
            · rw [if_pos here, here.1, here.2]
              exact page.1
            · rw [if_neg here, programPage_isPageProgrammed_of_ne here]
              exact represents.programmed b' p'
          · rw [held] at there
            by_cases here : b' = b ∧ p' = p
            · rw [if_pos here] at there
              rw [here.1, here.2]
              exact page.2.2.trans (Option.some.inj there)
            · rw [if_neg here] at there
              rw [programPage_pageData_of_ne here]
              exact represents.data b' p' src' there

/-- A read returns the data of that program, or erased cells. -/
theorem readPage (represents : Represents flash nand) (fullPage : cfg.pageSizeBytes = flashPageSize)
    (b p : Nat) (dest : Page) :
    ({ ok := (flash.readPage b p dest).2.1, dest4kb := some (flash.readPage b p dest).2.2 } :
        FlashAnswer) = nand.answer cfg (.readPage b p dest) := by
  by_cases inside : b < cfg.totalBlocks ∧ p < cfg.pagesPerBlock
  · have inRange : ¬(b ≥ cfg.totalBlocks ∨ p ≥ cfg.pagesPerBlock) := by omega
    simp only [NandArray.answer, if_pos inside]
    cases held : nand b p with
    | none =>
        have blank := represents.programmed b p
        rw [held, isPageProgrammed, if_neg inRange] at blank
        simp [FlashModel.readPage, inRange, blank,
          Buffer.overlay_full _ _ (Nat.le_of_eq fullPage.symm)]
    | some src =>
        have programmed := represents.programmed b p
        rw [held] at programmed
        rw [readPage_of_programmed dest fullPage programmed, represents.data b p src held]
        rfl
  · have out : b ≥ cfg.totalBlocks ∨ p ≥ cfg.pagesPerBlock := by omega
    simp [NandArray.answer, if_neg inside, FlashModel.readPage, out]

/-- An erase forgets the pages of its block and no others. -/
theorem eraseBlock (represents : Represents flash nand) (b : Nat) :
    (flash.eraseBlock b).2 = decide (b < cfg.totalBlocks) ∧
      Represents (flash.eraseBlock b).1 (Function.update nand b fun _ => none) := by
  refine ⟨?_, represents.tallied.eraseBlock b, fun b' p => ?_, fun b' p src there => ?_⟩
  · by_cases out : b ≥ cfg.totalBlocks
    · simp [FlashModel.eraseBlock, out]
    · simp [FlashModel.eraseBlock, out, Nat.not_le.mp out]
  · by_cases here : b' = b
    · rw [here, eraseBlock_erased p, Function.update_self]
      rfl
    · rw [eraseBlock_isPageProgrammed_of_ne here, Function.update_of_ne here]
      exact represents.programmed b' p
  · by_cases here : b' = b
    · rw [here, Function.update_self] at there
      cases there
    · rw [Function.update_of_ne here] at there
      rw [eraseBlock_pageData_of_ne here]
      exact represents.data b' p src there

/-- An invalidation is nothing to the abstract array. -/
theorem invalidatePage (represents : Represents flash nand) (b p : Nat) :
    Represents (flash.invalidatePage b p) nand := by
  refine ⟨represents.tallied.invalidatePage b p, fun b' p' => ?_, fun b' p' src held => ?_⟩
  · rw [invalidatePage_isPageProgrammed]
    exact represents.programmed b' p'
  · rw [invalidatePage_pageData]
    exact represents.data b' p' src held

/-- Every call answers as the abstract array says and keeps the two in step. -/
theorem call (represents : Represents flash nand) (fullPage : cfg.pageSizeBytes = flashPageSize)
    {flashCall : FlashCall} {flash' : FlashModel cfg} {answer : FlashAnswer}
    (returned : flash.call flashCall = .ok (flash', answer)) :
    answer = nand.answer cfg flashCall ∧ Represents flash' (nand.after (flashCall, answer)) := by
  cases flashCall with
  | programPage b p src =>
      simp only [FlashModel.call, Except.ok.injEq, Prod.mk.injEq] at returned
      obtain ⟨rfl, rfl⟩ := returned
      have step := represents.programPage fullPage b p src
      exact ⟨congrArg (fun ok => ({ ok := ok } : FlashAnswer)) step.1, step.2⟩
  | readPage b p dest =>
      simp only [FlashModel.call, Except.ok.injEq, Prod.mk.injEq] at returned
      obtain ⟨rfl, rfl⟩ := returned
      have same := readPage_sameArray flash b p dest
      refine ⟨represents.readPage fullPage b p dest, represents.tallied.congr same.blocks,
        fun b' p' => ?_, fun b' p' src held => ?_⟩
      · rw [same.isPageProgrammed_eq]
        exact represents.programmed b' p'
      · rw [same.pageData_eq]
        exact represents.data b' p' src held
  | eraseBlock b =>
      simp only [FlashModel.call, Except.ok.injEq, Prod.mk.injEq] at returned
      obtain ⟨rfl, rfl⟩ := returned
      have step := represents.eraseBlock b
      exact ⟨congrArg (fun ok => ({ ok := ok } : FlashAnswer)) step.1, step.2⟩
  | invalidatePage b p =>
      simp only [FlashModel.call, Except.ok.injEq, Prod.mk.injEq] at returned
      obtain ⟨rfl, rfl⟩ := returned
      exact ⟨rfl, represents.invalidatePage b p⟩

end Represents

/-- After any calls the model holds what its history says, and every call was answered accordingly. -/
theorem trace_represents (fullPage : cfg.pageSizeBytes = flashPageSize)
    {events : List (FlashCall × FlashAnswer)}
    (trace : Trace FlashModel.call (fun _ _ => True) {} events flash) :
    Represents flash (sinceErase events) := by
  refine trace.invariant (fun events s => Represents s (sinceErase events)) represents_fresh ?_
  intro events s flashCall s' answer represents _ returned
  rw [sinceErase_append]
  exact (represents.call fullPage returned).2

end FlashModel

end Zftl
