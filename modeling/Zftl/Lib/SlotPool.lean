/-
Module: Zftl.Lib.SlotPool
Layer: Lib
Purpose: A pool of slots of several sizes. A slot is cut from the unused end of an address range, and a slot that comes
  back is kept in the list of its size. `Exclusive` says that no cell is in two slots, owned or free, and that
  every slot lies below the end of the used part; returning, reusing and cutting a slot keep it.
Imports: Mathlib.Logic.Function.Basic, Mathlib.Data.List.Nodup
Trusted boundary: none
Main exports: SlotPool, InSlot, SlotPool.Exclusive, Exclusive.apart_owned, Exclusive.release, Exclusive.reuse,
  Exclusive.cut
Open obligations: none
-/
import Mathlib.Logic.Function.Basic
import Mathlib.Data.List.Nodup

namespace Zftl

/-- The cell lies in the slot with this start and size. -/
def InSlot (start size cell : Nat) : Prop := start ≤ cell ∧ cell < start + size

/-- The starts of the free slots of each size, and the first cell that was never handed out. -/
structure SlotPool where
  free : Nat → List Nat
  next : Nat

namespace SlotPool

variable {α : Type}

/-- Who has a slot: an owner, or the list of its size. -/
inductive Holder (α : Type) where
  | owner (a : α)
  | free (start size : Nat)

inductive Holds (p : SlotPool) (slot : α → Option (Nat × Nat)) : Holder α → Nat → Nat → Prop where
  | owner {a start size} (owned : slot a = some (start, size)) : Holds p slot (.owner a) start size
  | free {start size} (member : start ∈ p.free size) : Holds p slot (.free start size) start size

/-- No cell is in the slots of two holders, and every slot lies in the used part of the range. -/
structure Exclusive (p : SlotPool) (slot : α → Option (Nat × Nat)) : Prop where
  inside : ∀ {h start size}, Holds p slot h start size → start + size ≤ p.next
  apart : ∀ {h h' start size start' size' cell}, Holds p slot h start size →
    Holds p slot h' start' size' → InSlot start size cell → InSlot start' size' cell → h = h'
  nodup : ∀ size, (p.free size).Nodup

/-- An empty pool, and no owner. -/
theorem exclusive_empty : Exclusive ⟨fun _ => [], 0⟩ (fun _ : α => none) := by
  have nothing {h : Holder α} {start size : Nat} : ¬ Holds ⟨fun _ => [], 0⟩ (fun _ => none) h start size := by
    rintro (owned | member)
    · exact nomatch owned
    · exact nomatch member
  exact ⟨fun holds => absurd holds nothing, fun holds => absurd holds nothing, fun _ => List.nodup_nil⟩

variable {p q : SlotPool} {slot slot' : α → Option (Nat × Nat)}

/-- The slots of two owners have no common cell. -/
theorem Exclusive.apart_owned (e : p.Exclusive slot) {a b : α} {start size start' size' cell : Nat}
    (owned : slot a = some (start, size)) (owned' : slot b = some (start', size'))
    (mem : InSlot start size cell) (mem' : InSlot start' size' cell) : a = b := by
  have same := e.apart (.owner owned) (.owner owned') mem mem'
  injection same

/-- If every slot had a holder before, and different holders had different ones, exclusiveness is kept. -/
theorem Exclusive.transfer (e : p.Exclusive slot) (before : Holder α → Holder α) (next : p.next ≤ q.next)
    (held : ∀ {h start size}, Holds q slot' h start size → Holds p slot (before h) start size)
    (injective : ∀ {h h' start size start' size'}, Holds q slot' h start size →
      Holds q slot' h' start' size' → before h = before h' → h = h')
    (nodup : ∀ size, (q.free size).Nodup) : q.Exclusive slot' :=
  ⟨fun holds => Nat.le_trans (e.inside (held holds)) next,
    fun holds holds' mem mem' => injective holds holds' (e.apart (held holds) (held holds') mem mem'),
    nodup⟩

theorem nodup_update {size : Nat} {list : List Nat} (e : p.Exclusive slot) (nodup : list.Nodup) (n : Nat) :
    (Function.update p.free size list n).Nodup := by
  by_cases same : n = size
  · rw [same, Function.update_self]
    exact nodup
  · rw [Function.update_of_ne same]
    exact e.nodup n

section Operations

variable [DecidableEq α] {a : α} {start size : Nat}

/-- After a release the owners are the others. -/
theorem owned_of_released {b : α} {s : Nat × Nat} (owned : Function.update slot a none b = some s) :
    b ≠ a ∧ slot b = some s := by
  by_cases same : b = a
  · rw [same, Function.update_self] at owned
    exact nomatch owned
  · exact ⟨same, by rwa [Function.update_of_ne same] at owned⟩

/-- After a grant the owners are the new one, with its slot, and the others. -/
theorem owned_of_granted {b : α} {s granted : Nat × Nat}
    (owned : Function.update slot a (some granted) b = some s) :
    (b = a ∧ s = granted) ∨ (b ≠ a ∧ slot b = some s) := by
  by_cases same : b = a
  · rw [same, Function.update_self] at owned
    exact Or.inl ⟨same, (Option.some.inj owned).symm⟩
  · exact Or.inr ⟨same, by rwa [Function.update_of_ne same] at owned⟩

/-- The slot of an owner comes back: its holder before was the owner. -/
theorem Exclusive.release (e : p.Exclusive slot) (owned : slot a = some (start, size)) (pos : 0 < size) :
    Exclusive ⟨Function.update p.free size (start :: p.free size), p.next⟩
      (Function.update slot a none) := by
  classical
  have new : start ∉ p.free size := fun member => by
    have same := e.apart (.owner owned) (.free member) ⟨Nat.le_refl _, by omega⟩ ⟨Nat.le_refl _, by omega⟩
    exact nomatch same
  have others {s n : Nat} : ¬ Holds ⟨Function.update p.free size (start :: p.free size), p.next⟩
      (Function.update slot a none) (.owner a) s n := by
    rintro ⟨held⟩
    exact (owned_of_released held).1 rfl
  refine e.transfer (fun h => if h = .free start size then .owner a else h) (Nat.le_refl _) ?_ ?_
    (nodup_update e (List.nodup_cons.mpr ⟨new, e.nodup size⟩))
  · intro h s n holds
    cases holds with
    | owner held =>
      rw [if_neg nofun]
      exact .owner (owned_of_released held).2
    | free member =>
      by_cases same : n = size
      · subst same
        obtain rfl | member := List.mem_cons.mp (by simpa using member)
        · rw [if_pos rfl]
          exact .owner owned
        · rw [if_neg fun eq => new (by injection eq with eq; exact eq ▸ member)]
          exact .free member
      · rw [if_neg fun eq => same (by injection eq)]
        exact .free (by simpa [Function.update_of_ne same] using member)
  · intro h h' s n s' n' holds holds' same
    by_cases first : h = .free start size <;> by_cases second : h' = .free start size
    · rw [first, second]
    · rw [if_pos first, if_neg second] at same
      exact absurd (same ▸ holds') others
    · rw [if_neg first, if_pos second] at same
      exact absurd (same ▸ holds) others
    · rwa [if_neg first, if_neg second] at same

/-- A free slot gets an owner: its holder before was the list. -/
theorem Exclusive.reuse {rest : List Nat} (e : p.Exclusive slot) (free : p.free size = start :: rest)
    (a : α) : Exclusive ⟨Function.update p.free size rest, p.next⟩
      (Function.update slot a (some (start, size))) := by
  classical
  have nodup := List.nodup_cons.mp (free ▸ e.nodup size)
  have taken {s n : Nat} : ¬ Holds ⟨Function.update p.free size rest, p.next⟩
      (Function.update slot a (some (start, size))) (.free start size) s n := by
    rintro (_ | member)
    exact nodup.1 (by simpa using member)
  refine e.transfer (fun h => if h = .owner a then .free start size else h) (Nat.le_refl _) ?_ ?_
    (nodup_update e nodup.2)
  · intro h s n holds
    cases holds with
    | owner held =>
      obtain ⟨rfl, slot_eq⟩ | ⟨other, held⟩ := owned_of_granted held
      · injection slot_eq with start_eq size_eq
        rw [if_pos rfl, start_eq, size_eq]
        exact .free (free ▸ List.mem_cons_self)
      · rw [if_neg fun eq => other (by injection eq)]
        exact .owner held
    | free member =>
      rw [if_neg nofun]
      by_cases same : n = size
      · subst same
        exact .free (free ▸ List.mem_cons_of_mem _ (by simpa using member))
      · exact .free (by simpa [Function.update_of_ne same] using member)
  · intro h h' s n s' n' holds holds' same
    by_cases first : h = .owner a <;> by_cases second : h' = .owner a
    · rw [first, second]
    · rw [if_pos first, if_neg second] at same
      exact absurd (same ▸ holds') taken
    · rw [if_neg first, if_pos second] at same
      exact absurd (same ▸ holds) taken
    · rwa [if_neg first, if_neg second] at same

/-- A slot is cut from the unused end. -/
theorem Exclusive.cut (e : p.Exclusive slot) (size : Nat) (a : α) :
    Exclusive ⟨p.free, p.next + size⟩ (Function.update slot a (some (p.next, size))) := by
  have old {h : Holder α} {s n : Nat} (holds : Holds ⟨p.free, p.next + size⟩
      (Function.update slot a (some (p.next, size))) h s n) :
      (h = .owner a ∧ s = p.next ∧ n = size) ∨ Holds p slot h s n := by
    cases holds with
    | owner held =>
      obtain ⟨rfl, slot_eq⟩ | ⟨-, held⟩ := owned_of_granted held
      · injection slot_eq with start_eq size_eq
        exact Or.inl ⟨rfl, start_eq, size_eq⟩
      · exact Or.inr (.owner held)
    | free member => exact Or.inr (.free member)
  refine ⟨fun holds => ?_, fun holds holds' mem mem' => ?_, e.nodup⟩
  · obtain ⟨-, rfl, rfl⟩ | holds := old holds
    · exact Nat.le_refl _
    · exact Nat.le_trans (e.inside holds) (Nat.le_add_right _ _)
  -- the new slot starts where every old one has ended
  · obtain ⟨low, high⟩ := mem
    obtain ⟨low', high'⟩ := mem'
    obtain ⟨rfl, rfl, rfl⟩ | kept := old holds
    · obtain ⟨rfl, rfl, rfl⟩ | kept' := old holds'
      · rfl
      · have inside := e.inside kept'
        omega
    · obtain ⟨rfl, rfl, rfl⟩ | kept' := old holds'
      · have inside := e.inside kept
        omega
      · exact e.apart kept kept' ⟨low, high⟩ ⟨low', high'⟩

end Operations

end SlotPool

end Zftl
