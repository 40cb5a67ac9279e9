/-
Linear codes over a commutative ring.

A row of `k` data cells `x` has code cells `y`, each the combination of the data cells with the
coefficients of a row of a generator matrix.  When a data cell changes, every code cell changes by
its coefficient times the difference.  Data cells are computed from any cells whose generator rows
have an inverse matrix.

Main definitions:

* `LinearCode.Row` — data cells with their code cells;
* `LinearCode.generator` — the rows of the generator matrix, for data cells and for code cells.

Main results:

* `LinearCode.sum_update` — writing a data cell;
* `LinearCode.Row.solve` — a data cell from the cells of an invertible part of the matrix.
-/
import Mathlib

set_option relaxedAutoImplicit false
set_option autoImplicit false

namespace LinearCode

variable {F κ : Type*} [CommRing F]

/-- The code cells `y` of the data cells `x`, with coefficients `g`. -/
def Row (k : ℕ) (g : κ → ℕ → F) (x : ℕ → F) (y : κ → F) : Prop :=
  ∀ j, y j = ∑ i ∈ Finset.range k, g j i * x i

variable {k : ℕ} {x : ℕ → F}

/-- Writing `v` to a data cell changes a combination by the coefficient of the cell times the
difference. -/
theorem sum_update {a x : ℕ → F} {d : ℕ} (hd : d < k) (v : F) :
    ∑ i ∈ Finset.range k, a i * Function.update x d v i =
      ∑ i ∈ Finset.range k, a i * x i + a d * (v - x d) := by
  have hmem := Finset.mem_range.2 hd
  have hrest : ∑ i ∈ (Finset.range k).erase d, a i * Function.update x d v i =
      ∑ i ∈ (Finset.range k).erase d, a i * x i := by
    refine Finset.sum_congr rfl fun i hi => ?_
    rw [Function.update_of_ne (Finset.mem_erase.1 hi).1]
  rw [← Finset.add_sum_erase _ (fun i => a i * x i) hmem,
    ← Finset.add_sum_erase _ (fun i => a i * Function.update x d v i) hmem, hrest,
    Function.update_self]
  ring

/-- The generator row of cell `j`: a unit vector for a data cell, then the rows of `g`. -/
def generator (k : ℕ) (g : ℕ → ℕ → F) (j i : ℕ) : F :=
  if j < k then if i = j then 1 else 0 else g (j - k) i

/-- Each cell of a row, data cells first, is the combination of the data with its generator row. -/
theorem Row.cell {g : ℕ → ℕ → F} {y : ℕ → F} (h : Row k g x y) (j : ℕ) :
    (if j < k then x j else y (j - k)) = ∑ i ∈ Finset.range k, generator k g j i * x i := by
  by_cases hj : j < k
  · simp [generator, hj]
  · simp only [generator, hj, if_false]
    exact h (j - k)

/-- A data cell from the cells `ids 0`, …, `ids (k - 1)`, when `m` is a left inverse of their
generator rows. -/
theorem Row.solve {g : ℕ → ℕ → F} {c : ℕ → F} {ids : ℕ → ℕ} {m : ℕ → ℕ → F} {d : ℕ}
    (hc : ∀ l < k, c (ids l) = ∑ i ∈ Finset.range k, generator k g (ids l) i * x i) (hd : d < k)
    (hm : ∀ i < k, ∑ l ∈ Finset.range k, m d l * generator k g (ids l) i = if d = i then 1 else 0) :
    ∑ l ∈ Finset.range k, m d l * c (ids l) = x d := by
  calc ∑ l ∈ Finset.range k, m d l * c (ids l)
      = ∑ l ∈ Finset.range k, ∑ i ∈ Finset.range k, m d l * generator k g (ids l) i * x i := by
        refine Finset.sum_congr rfl fun l hl => ?_
        rw [hc l (Finset.mem_range.1 hl), Finset.mul_sum]
        exact Finset.sum_congr rfl fun i _ => (mul_assoc ..).symm
    _ = ∑ i ∈ Finset.range k, (∑ l ∈ Finset.range k, m d l * generator k g (ids l) i) * x i := by
        rw [Finset.sum_comm]
        exact Finset.sum_congr rfl fun i _ => (Finset.sum_mul ..).symm
    _ = ∑ i ∈ Finset.range k, (if d = i then 1 else 0) * x i :=
        Finset.sum_congr rfl fun i hi => by rw [hm i (Finset.mem_range.1 hi)]
    _ = x d := by simp [hd]

end LinearCode
