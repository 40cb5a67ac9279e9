/-
Staircases on a ring of columns.

A staircase has `f + 1` steps, each one row further down and one column further back, the columns
being `0`, …, `n - 1` in a ring.  Staircase `s` of column `D` ends on that column and takes the rows
from `(f + 1) * s` on, so that every cell lies on one staircase.  When the cells of a staircase add
up to zero, each of them is the sum of the others, up to the sign.

Main definitions:

* `Staircase.pos` — a step of a staircase;
* `Staircase.column` — the column on which the staircase of a cell ends;
* `Staircase.others` — going round a ring from one place to all others.

Main results:

* `Staircase.pos_inj`, `Staircase.pos_column` — every cell lies on one staircase;
* `Staircase.pos_fst_inj` — a staircase visits a column at most once;
* `Staircase.mem_others`, `Staircase.sum_others` — all other places are visited, and what they add
  up to.
-/
import Mathlib

set_option relaxedAutoImplicit false
set_option autoImplicit false

namespace Staircase

/-! ### Going round a ring -/

section Ring

variable {m t i : ℕ}

theorem mod_of_lt_two_mul (h : i < 2 * m) : i % m = if i < m then i else i - m := by
  split
  · exact Nat.mod_eq_of_lt ‹_›
  · rw [Nat.mod_eq_sub_mod (by omega), Nat.mod_eq_of_lt (by omega)]

/-- The places after `t` in a ring of `m`, up to the one before it. -/
def others (m t : ℕ) : List ℕ := (List.range (m - 1)).map fun i => (t + 1 + i) % m

/-- All other places are visited. -/
theorem mem_others (ht : t < m) {x : ℕ} : x ∈ others m t ↔ x < m ∧ x ≠ t := by
  simp only [others, List.mem_map, List.mem_range]
  constructor
  · rintro ⟨i, hi, rfl⟩
    refine ⟨Nat.mod_lt _ (by omega), ?_⟩
    rw [mod_of_lt_two_mul (by omega)]
    split <;> omega
  · rintro ⟨hx, hne⟩
    rcases Nat.lt_or_gt_of_ne hne with hlt | hgt
    · refine ⟨x + m - t - 1, by omega, ?_⟩
      rw [mod_of_lt_two_mul (by omega), if_neg (by omega)]
      omega
    · refine ⟨x - t - 1, by omega, ?_⟩
      rw [mod_of_lt_two_mul (by omega), if_pos (by omega)]
      omega

/-- And each of them once. -/
theorem nodup_others (ht : t < m) : (others m t).Nodup := by
  refine List.nodup_range.map_on fun i hi j hj h => ?_
  have hi := List.mem_range.1 hi
  have hj := List.mem_range.1 hj
  rw [mod_of_lt_two_mul (by omega), mod_of_lt_two_mul (by omega)] at h
  split at h <;> split at h <;> omega

/-- When all values add up to zero, those of the other places add up to the negative of the one left
out. -/
theorem sum_others {G : Type*} [AddCommGroup G] (ht : t < m) {g : ℕ → G}
    (hzero : ∑ i ∈ Finset.range m, g i = 0) : ((others m t).map g).sum = - g t := by
  have hset : (others m t).toFinset = (Finset.range m).erase t := by
    ext x
    rw [List.mem_toFinset, mem_others ht, Finset.mem_erase, Finset.mem_range, and_comm]
  have hsum := Finset.add_sum_erase (Finset.range m) g (Finset.mem_range.2 ht)
  rw [hzero] at hsum
  rw [← List.sum_toFinset g (nodup_others ht), hset]
  exact eq_neg_of_add_eq_zero_right hsum

end Ring

/-! ### Staircases -/

/-- Step `t` of staircase `s` that ends on column `D`: a column and a row. -/
def pos (n f D s t : ℕ) : ℕ × ℕ := ((D + f - t) % n, (f + 1) * s + t)

/-- The column on which the staircase of a cell ends, for a cell at step `t` in column `d`. -/
def column (n f d t : ℕ) : ℕ := (d + t + n - f) % n

section Pos

variable {n f D s t : ℕ}

theorem pos_row_div (ht : t ≤ f) : ((f + 1) * s + t) / (f + 1) = s := by
  rw [Nat.mul_add_div (Nat.succ_pos f), Nat.div_eq_of_lt (by omega), Nat.add_zero]

theorem pos_row_mod (ht : t ≤ f) : ((f + 1) * s + t) % (f + 1) = t := by
  rw [Nat.mul_add_mod, Nat.mod_eq_of_lt (by omega)]

theorem pos_fst_lt (hf : f < n) : (pos n f D s t).1 < n := Nat.mod_lt _ (by omega)

theorem column_lt (hf : f < n) {d : ℕ} : column n f d t < n := Nat.mod_lt _ (by omega)

/-- Different staircases have no cell in common, and different steps are different cells. -/
theorem pos_inj {D' s' t' : ℕ} (hD : D < n) (hD' : D' < n) (ht : t ≤ f) (ht' : t' ≤ f)
    (h : pos n f D s t = pos n f D' s' t') : D = D' ∧ s = s' ∧ t = t' := by
  obtain ⟨hcol, hrow⟩ := Prod.mk.inj h
  obtain rfl : t = t' := by
    have hmod := congrArg (· % (f + 1)) hrow
    simpa only [pos_row_mod ht, pos_row_mod ht'] using hmod
  obtain rfl : s = s' := by
    have hdiv := congrArg (· / (f + 1)) hrow
    simpa only [pos_row_div ht] using hdiv
  rw [Nat.add_sub_assoc ht, Nat.add_sub_assoc ht] at hcol
  have hmod : D % n = D' % n := Nat.ModEq.add_right_cancel' (f - t) hcol
  rw [Nat.mod_eq_of_lt hD, Nat.mod_eq_of_lt hD'] at hmod
  exact ⟨hmod, rfl, rfl⟩

/-- A staircase with no more steps than there are columns visits each of them at most once. -/
theorem pos_fst_inj {t' s' : ℕ} (hf : f < n) (ht : t ≤ f) (ht' : t' ≤ f)
    (h : (pos n f D s t).1 = (pos n f D s' t').1) : t = t' := by
  have hcol : (D + (f - t)) % n = (D + (f - t')) % n := by
    rw [← Nat.add_sub_assoc ht, ← Nat.add_sub_assoc ht']
    exact h
  have hmod : (f - t) % n = (f - t') % n := Nat.ModEq.add_left_cancel' D hcol
  rw [Nat.mod_eq_of_lt (by omega), Nat.mod_eq_of_lt (by omega)] at hmod
  omega

/-- Every cell lies on the staircase of its column. -/
theorem pos_column (hf : f < n) (ht : t ≤ f) {d : ℕ} (hd : d < n) (s : ℕ) :
    pos n f (column n f d t) s t = (d, (f + 1) * s + t) := by
  refine Prod.ext ?_ rfl
  have hcol : ((d + t + n - f) % n + (f - t)) % n = d := by
    rw [Nat.mod_add_mod, show d + t + n - f + (f - t) = d + n by omega, Nat.add_mod_right,
      Nat.mod_eq_of_lt hd]
  rw [← Nat.add_sub_assoc ht] at hcol
  exact hcol

/-- The cells of a staircase lead back to its column. -/
theorem column_pos (hf : f < n) (hD : D < n) (ht : t ≤ f) : column n f (pos n f D s t).1 t = D :=
  (pos_inj (column_lt hf) hD ht ht (pos_column hf ht (pos_fst_lt hf) s)).1

/-- The last step is on the column itself. -/
theorem pos_last (hD : D < n) : pos n f D s f = (D, (f + 1) * s + f) := by
  refine Prod.ext ?_ rfl
  change (D + f - f) % n = D
  rw [Nat.add_sub_cancel, Nat.mod_eq_of_lt hD]

/-- The steps after one are one row further down and one column further back, -/
theorem pos_fst_succ (hn : 0 < n) (ht : t < f) :
    ((pos n f D s t).1 + n - 1) % n = (pos n f D s (t + 1)).1 := by
  change ((D + f - t) % n + n - 1) % n = (D + f - (t + 1)) % n
  rw [Nat.add_sub_assoc hn, Nat.mod_add_mod,
    show D + f - t + (n - 1) = D + f - (t + 1) + n by omega, Nat.add_mod_right]

/-- and going on from the last step leads to the column before. -/
theorem pos_fst_last (hn : 0 < n) :
    (((pos n f D s f).1 + n - 1) % n + f + 1) % n = (pos n f D s 0).1 := by
  change (((D + f - f) % n + n - 1) % n + f + 1) % n = (D + f - 0) % n
  rw [Nat.add_sub_cancel, Nat.add_sub_assoc hn, Nat.mod_add_mod, Nat.add_assoc, Nat.mod_add_mod,
    show D + (n - 1) + (f + 1) = D + f - 0 + n by omega, Nat.add_mod_right]

end Pos

end Staircase
