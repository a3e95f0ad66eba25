/-
Module: Zftl.Lib.SlotStock
Layer: Lib
Purpose: How far a pool of slots grows. The slots of a size are those in its list and those in use; a slot is cut only
  where the list is empty, so there are as many slots of a size as owners have ever had one of it at once, and
  the used part of the range is the sum of these peaks. Slots of different sizes are never joined or split.
Imports: Mathlib.Algebra.BigOperators.Group.Finset.Piecewise, Zftl.Lib.Counting, Zftl.Lib.SlotPool
Trusted boundary: none
Main exports: inUse, SlotPool.stock, SlotPool.Balanced, max_inUse_update, Balanced.sum_peaks, stock_release,
  stock_reuse, stock_cut
Open obligations: none
-/
import Mathlib.Algebra.BigOperators.Group.Finset.Piecewise
import Zftl.Lib.Counting
import Zftl.Lib.SlotPool

namespace Zftl

/-- The owners that have a slot of this size. -/
def inUse (sizes : Nat → Nat) (owners size : Nat) : Nat := Nat.count (fun a => sizes a = size) owners

section InUse

variable {sizes : Nat → Nat} {owners a size n : Nat}

theorem inUse_le (sizes : Nat → Nat) (owners size : Nat) : inUse sizes owners size ≤ owners := Nat.count_le _

theorem inUse_all (all : ∀ a, a < owners → sizes a = size) : inUse sizes owners size = owners :=
  Nat.count_iff_forall.mpr fun _ below => all _ below

theorem inUse_none (some_cells : 0 < size) : inUse (fun _ => 0) owners size = 0 :=
  Nat.count_iff_forall_not.mpr fun _ _ (same : 0 = size) => absurd same (Nat.ne_of_lt some_cells)

/-- The owner that changes its size is counted at the new one. -/
theorem inUse_update_self (below : a < owners) (other : sizes a ≠ size) :
    inUse (Function.update sizes a size) owners size = inUse sizes owners size + 1 :=
  count_eq_add_one below (Function.update_self _ _ _) other fun b different => by
    rw [Function.update_of_ne different]

/-- It is no longer counted at the old one. -/
theorem inUse_update_old (below : a < owners) (other : sizes a ≠ size) :
    inUse (Function.update sizes a size) owners (sizes a) + 1 = inUse sizes owners (sizes a) := by
  refine (count_eq_add_one (Q := fun b => sizes b = sizes a) below rfl ?_ fun b different => ?_).symm
  · rw [Function.update_self]
    exact other.symm
  · rw [Function.update_of_ne different]

theorem inUse_update_of_ne (new : n ≠ size) (old : n ≠ sizes a) :
    inUse (Function.update sizes a size) owners n = inUse sizes owners n := by
  refine count_congr fun b _ => ?_
  by_cases same : b = a
  · rw [same, Function.update_self]
    exact iff_of_false new.symm old.symm
  · rw [Function.update_of_ne same]

end InUse

namespace SlotPool

/-- The slots of a size, in its list or in use. -/
def stock (p : SlotPool) (sizes : Nat → Nat) (owners size : Nat) : Nat :=
  (p.free size).length + inUse sizes owners size

/-- The used part of the range is made up of the slots, which have at most `largest` cells. -/
def Balanced (p : SlotPool) (sizes : Nat → Nat) (owners largest : Nat) : Prop :=
  p.next = ∑ n ∈ Finset.range (largest + 1), n * p.stock sizes owners n

variable {p q : SlotPool} {sizes sizes' : Nat → Nat} {owners largest a size start n : Nat}

/-- Owners have no more slots than there are. -/
theorem inUse_le_stock (p : SlotPool) (sizes : Nat → Nat) (owners size : Nat) :
    inUse sizes owners size ≤ p.stock sizes owners size := Nat.le_add_left _ _

/-! ### Returning and taking a slot -/

/-- A slot that comes back stays in the stock of its size. -/
theorem stock_release (below : a < owners) (owned : sizes a = size) (pos : 0 < size) (some_cells : 0 < n) :
    stock ⟨Function.update p.free size (start :: p.free size), p.next⟩ (Function.update sizes a 0) owners n =
      p.stock sizes owners n := by
  have nonzero : sizes a ≠ 0 := by omega
  by_cases same : n = size
  · have fewer := inUse_update_old below nonzero
    rw [owned] at fewer
    rw [stock, stock, same]
    dsimp only
    rw [Function.update_self, List.length_cons]
    omega
  · rw [stock, stock, inUse_update_of_ne (by omega) (by omega)]
    dsimp only
    rw [Function.update_of_ne same]

/-- So does a slot that is taken from its list. -/
theorem stock_reuse {rest : List Nat} (below : a < owners) (unowned : sizes a = 0)
    (free : p.free size = start :: rest) (some_cells : 0 < n) :
    stock ⟨Function.update p.free size rest, p.next⟩ (Function.update sizes a size) owners n =
      p.stock sizes owners n := by
  by_cases same : n = size
  · have more := @inUse_update_self sizes _ _ size below (by omega)
    rw [stock, stock, same]
    dsimp only
    rw [Function.update_self, free, List.length_cons]
    omega
  · rw [stock, stock, inUse_update_of_ne same (by omega)]
    dsimp only
    rw [Function.update_of_ne same]

/-- A slot that is cut from the unused end is one more of its size. -/
theorem stock_cut (below : a < owners) (unowned : sizes a = 0) (some_cells : 0 < n) :
    stock ⟨p.free, p.next + size⟩ (Function.update sizes a size) owners n =
      p.stock sizes owners n + if n = size then 1 else 0 := by
  by_cases same : n = size
  · have more := @inUse_update_self sizes _ _ size below (by omega)
    rw [stock, stock, if_pos same, same, more]
    exact (Nat.add_assoc _ _ _).symm
  · rw [stock, stock, if_neg same, inUse_update_of_ne same (by omega)]
    rfl

/-! ### The peaks -/

/-- An owner that takes a slot of another size makes a new peak exactly if the list of that size is empty. -/
theorem max_inUse_update (p : SlotPool) (below : a < owners) :
    max (p.stock sizes owners n) (inUse (Function.update sizes a size) owners n) =
      p.stock sizes owners n + if n = size ∧ sizes a ≠ size ∧ p.free size = [] then 1 else 0 := by
  have inStock := p.inUse_le_stock sizes owners n
  by_cases unchanged : sizes a = size
  · rw [← unchanged, Function.update_eq_self, if_neg fun new => new.2.1 rfl]
    exact Nat.max_eq_left inStock
  by_cases same : n = size
  · have more := inUse_update_self below unchanged
    subst same
    rw [more]
    cases free : p.free n with
    | nil =>
        rw [if_pos ⟨rfl, unchanged, rfl⟩, stock, free, List.length_nil]
        omega
    | cons start rest =>
        rw [if_neg fun new => List.cons_ne_nil _ _ new.2.2, stock, free, List.length_cons]
        omega
  · rw [if_neg fun new => same new.1, Nat.add_zero]
    refine Nat.max_eq_left (Nat.le_trans ?_ inStock)
    by_cases old : n = sizes a
    · have fewer := inUse_update_old below unchanged
      rw [old]
      omega
    · rw [inUse_update_of_ne same old]

/-- The sum of the peaks is the used part of the range with the slot that has to be cut, if one has to. -/
theorem Balanced.sum_peaks (balanced : p.Balanced sizes owners largest) (below : a < owners)
    (small : size ≤ largest) :
    ∑ n ∈ Finset.range (largest + 1),
        n * max (p.stock sizes owners n) (inUse (Function.update sizes a size) owners n) =
      p.next + if sizes a ≠ size ∧ p.free size = [] then size else 0 := by
  have member : size ∈ Finset.range (largest + 1) := Finset.mem_range.mpr (by omega)
  have peaks : ∀ n ∈ Finset.range (largest + 1),
      n * max (p.stock sizes owners n) (inUse (Function.update sizes a size) owners n) =
        n * p.stock sizes owners n +
          if n = size then (if sizes a ≠ size ∧ p.free size = [] then size else 0) else 0 := by
    intro n _
    rw [max_inUse_update p below]
    by_cases same : n = size
    · subst same
      by_cases new : sizes a ≠ n ∧ p.free n = []
      · rw [if_pos ⟨rfl, new⟩, if_pos rfl, if_pos new, Nat.mul_add, Nat.mul_one]
      · rw [if_neg fun both => new both.2, if_pos rfl, if_neg new]
        rfl
    · rw [if_neg fun new => same new.1, if_neg same]
      rfl
  rw [Finset.sum_congr rfl peaks, Finset.sum_add_distrib, Finset.sum_ite_eq', if_pos member, ← balanced]

end SlotPool

end Zftl
