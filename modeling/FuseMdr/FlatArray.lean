/-
Arrays that are read and written in ranges.

An array is a function of the position, and a range of it a list.  Nothing here depends on where
the array is kept or on how a write is carried out; a store that hands out ranges is measured
against these two operations.

Main definitions:

* `FlatArray.slice` — the values of a range;
* `FlatArray.store` — the array with a list written over a range.

Main results:

* `FlatArray.slice_congr`, `FlatArray.slice_append` — a slice depends on its range only, and splits
  at any point;
* `FlatArray.store_of_lt`, `FlatArray.store_of_le`, `FlatArray.store_add` — what a write changes;
* `FlatArray.store_append` — **a write splits** at any point into two.
-/
import Mathlib

set_option relaxedAutoImplicit false
set_option autoImplicit false

namespace FlatArray

variable {α : Type*}

/-- The `n` values from position `off` on. -/
def slice (m : ℕ → α) (off n : ℕ) : List α := (List.range n).map fun j => m (off + j)

/-- The array after `data` was written at position `off`. -/
def store (m : ℕ → α) (off : ℕ) (data : List α) (a : ℕ) : α :=
  if off ≤ a then data.getD (a - off) (m a) else m a

variable {m m' : ℕ → α} {off off' n k a : ℕ} {data rest : List α}

/-! ### Slices -/

@[simp] theorem slice_length : (slice m off n).length = n := by simp [slice]

theorem slice_congr (h : ∀ j < n, m (off + j) = m' (off' + j)) :
    slice m off n = slice m' off' n := by
  refine List.map_congr_left fun j hj => ?_
  exact h j (List.mem_range.1 hj)

theorem slice_append : slice m off (n + k) = slice m off n ++ slice m (off + n) k := by
  rw [slice, List.range_add, List.map_append, List.map_map]
  refine congrArg (slice m off n ++ ·) (List.map_congr_left fun j _ => ?_)
  exact congrArg m (Nat.add_assoc off n j).symm

/-! ### Writes -/

@[simp] theorem store_nil : store m off [] = m := by
  funext a
  simp [store]

theorem store_of_lt (h : a < off) : store m off data a = m a := if_neg (Nat.not_le.2 h)

theorem store_of_le (h : off + data.length ≤ a) : store m off data a = m a := by
  rw [store, if_pos (by omega)]
  exact List.getD_eq_default _ _ (by omega)

/-- Outside its range a write changes nothing. -/
theorem store_of_not (h : ¬(off ≤ a ∧ a < off + data.length)) : store m off data a = m a := by
  by_cases ha : a < off
  · exact store_of_lt ha
  · exact store_of_le (by omega)

/-- Inside its range are the values written. -/
theorem store_add (j : ℕ) : store m off data (off + j) = data.getD j (m (off + j)) := by
  rw [store, if_pos (Nat.le_add_right ..), Nat.add_sub_cancel_left]

/-- They do not depend on what was there before, nor on the place. -/
theorem store_congr {j : ℕ} (hj : j < data.length) :
    store m off data (off + j) = store m' off' data (off' + j) := by
  rw [store_add, store_add, List.getD_eq_getElem _ _ hj, List.getD_eq_getElem _ _ hj]

/-- A write is two writes, of the first part and of the rest. -/
theorem store_append :
    store (store m off data) (off + data.length) rest = store m off (data ++ rest) := by
  funext a
  rcases Nat.lt_or_ge a (off + data.length) with ha | ha
  · rw [store_of_lt ha]
    rcases Nat.lt_or_ge a off with hlt | hge
    · rw [store_of_lt hlt, store_of_lt hlt]
    · obtain ⟨j, rfl⟩ := Nat.exists_eq_add_of_le hge
      rw [store_add, store_add, List.getD_append _ _ _ _ (by omega)]
  · obtain ⟨j, rfl⟩ := Nat.exists_eq_add_of_le ha
    rw [store_add, store_of_le ha, Nat.add_assoc, store_add, List.getD_append_right _ _ _ _
      (by omega), Nat.add_sub_cancel_left]

end FlatArray
