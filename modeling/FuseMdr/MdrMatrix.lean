/-
The encoding matrix of the MDR-I code and its fault tolerance.

`mdr_I_encoding_matrix(k)` builds a matrix of `2 ^ k` rows and `k + 1` columns whose entries are
words of `2 ^ k` bits.  Bit `2 ^ k - 1 - t` of entry `[s][j]` says whether block `t` of disk `j`
(the parity disk `P` being disk `k`) is a summand of block `s` of disk `Q`.  The matrix for
`k + 1` is made from the one for `k`: read as a square matrix over two elements, the column of an
old data disk becomes two diagonal copies of its sum with the old `P` column, the column of the new
data disk is an identity in the upper right quarter, and the `P` column one in the lower left.

Words are natural numbers here, so shifts do not overflow.

Main definitions:

* `Ncfs.mdrIIterativeConstructEncodingMatrixB`, `Ncfs.mdrIEncodingMatrix` — the construction;
* `Ncfs.selects` — whether an entry selects a block;
* `Ncfs.MdrParity` — a stripe group is a codeword;
* `Ncfs.columnMatrix` — a column read as a square matrix over `ZMod 2`.

Main results:

* `Ncfs.selects_succ_old`, `Ncfs.selects_succ_data`, `Ncfs.selects_succ_parity` — the columns of
  the next matrix in terms of the previous one;
* `Ncfs.columnSum_eq_zero` — the sum of two different columns has a trivial kernel;
* `Ncfs.mdrIEncodingMatrix_mds` — any two disks are determined by the others, and the sum of any
  two columns is invertible.
-/
import FuseMdr.NcfsState

set_option relaxedAutoImplicit false
set_option autoImplicit false

namespace Ncfs

/-! ### The construction -/

/-- The matrix for one data disk: `{1, 0, 0, 2}`. -/
def mdrIBaseMatrixB : ℕ → ℕ → ℕ
  | 0, 0 => 1
  | 1, 1 => 2
  | _, _ => 0

/-- `Coding4Mdr1::mdr_I_iterative_construct_encoding_matrixB(matrix, k)`, entry `[j][i]` of the new
matrix.  The counter `t` of the source runs upward while `j` runs downward and is not reset between
the last two columns, which gives the shift counts below. -/
def mdrIIterativeConstructEncodingMatrixB (matrix : ℕ → ℕ → ℕ) (k : ℕ) : ℕ → ℕ → ℕ := fun j i =>
  let row := 2 ^ k
  let col := k + 1
  let newRow := 2 ^ (k + 1)
  let newCol := k + 2
  if i < newCol - 2 then
    if j < row then (matrix j i ^^^ matrix j (col - 1)) <<< row
    else matrix (j - row) i ^^^ matrix (j - row) (col - 1)
  else if i = newCol - 2 then
    if j < row then 1 <<< (row - 1 - j) else 0
  else
    if j < row then 0 else 1 <<< (row + (newRow - 1 - j))

/-- The matrix that the loop of `mdr_I_encoding_matrix` holds when `count` is `k`. -/
def mdrIEncodingMatrixB : ℕ → ℕ → ℕ → ℕ
  | 0 => fun _ _ => 0
  | 1 => mdrIBaseMatrixB
  | k + 2 => mdrIIterativeConstructEncodingMatrixB (mdrIEncodingMatrixB (k + 1)) (k + 1)

/-- `Coding4Mdr1::mdr_I_encoding_matrix`. -/
def mdrIEncodingMatrix (k : ℕ) : Except CodingError (ℕ → ℕ → ℕ) :=
  if k = 0 then .error .exit else .ok (mdrIEncodingMatrixB k)

theorem mdrIEncodingMatrix_of_pos {k : ℕ} (hk : 1 ≤ k) :
    mdrIEncodingMatrix k = .ok (mdrIEncodingMatrixB k) :=
  if_neg (by omega)

/-- The code exits without a data disk, so a matrix comes with one. -/
theorem eq_of_mdrIEncodingMatrix {k : ℕ} {matrix : ℕ → ℕ → ℕ}
    (h : mdrIEncodingMatrix k = .ok matrix) : 1 ≤ k ∧ mdrIEncodingMatrixB k = matrix := by
  rw [mdrIEncodingMatrix] at h
  split at h
  · cases h
  · exact ⟨by omega, Except.ok.inj h⟩

/-- The base matrix is what the construction makes of the empty one, so that statements about the
construction may start at zero disks. -/
theorem mdrIEncodingMatrixB_succ (k : ℕ) {s j : ℕ} (hs : s < 2 ^ (k + 1)) (hj : j ≤ k + 1) :
    mdrIEncodingMatrixB (k + 1) s j =
      mdrIIterativeConstructEncodingMatrixB (mdrIEncodingMatrixB k) k s j := by
  cases k with
  | zero =>
      have hs' : s = 0 ∨ s = 1 := by omega
      have hj' : j = 0 ∨ j = 1 := by omega
      rcases hs' with rfl | rfl <;> rcases hj' with rfl | rfl <;> rfl
  | succ k => rfl

/-- Entry `[s][j]` of `matrix` selects block `t`. -/
def selects (matrix : ℕ → ℕ → ℕ) (k s j t : ℕ) : Bool := (matrix s j).testBit (2 ^ k - 1 - t)

/-- The entries are words of `2 ^ k` bits. -/
theorem mdrIEncodingMatrixB_lt (k : ℕ) : ∀ {s j : ℕ}, s < 2 ^ k → j ≤ k →
    mdrIEncodingMatrixB k s j < 2 ^ 2 ^ k := by
  induction k with
  | zero =>
      intro s j _ _
      exact Nat.two_pow_pos _
  | succ k ih =>
      intro s j hs hj
      have hrow : 2 ^ (k + 1) = 2 ^ k + 2 ^ k := by rw [pow_succ, mul_two]
      have hxor : ∀ {s' j' : ℕ}, s' < 2 ^ k → j' ≤ k →
          mdrIEncodingMatrixB k s' j' ^^^ mdrIEncodingMatrixB k s' k < 2 ^ 2 ^ k :=
        fun hs' hj' => Nat.xor_lt_two_pow (ih hs' hj') (ih hs' le_rfl)
      have hwide : 2 ^ 2 ^ (k + 1) = 2 ^ 2 ^ k * 2 ^ 2 ^ k := by rw [hrow, pow_add]
      rw [mdrIEncodingMatrixB_succ k hs hj]
      simp only [mdrIIterativeConstructEncodingMatrixB, Nat.add_sub_cancel, Nat.shiftLeft_eq]
      split_ifs with hold hup hdata hup' hup''
      · rw [hwide]
        exact Nat.mul_lt_mul_of_pos_right (hxor hup (by omega)) (Nat.two_pow_pos _)
      · rw [hwide]
        calc _ < 2 ^ 2 ^ k := hxor (by omega) (by omega)
          _ ≤ 2 ^ 2 ^ k * 2 ^ 2 ^ k := Nat.le_mul_of_pos_right _ (Nat.two_pow_pos _)
      · rw [one_mul]
        exact Nat.pow_lt_pow_right (by omega) (by omega)
      · exact Nat.two_pow_pos _
      · exact Nat.two_pow_pos _
      · rw [one_mul]
        exact Nat.pow_lt_pow_right (by omega) (by omega)

/-! ### The columns of the next matrix -/

section Columns

variable {k s t j : ℕ}

/-- The column of an old data disk: two diagonal copies of its sum with the old `P` column. -/
theorem selects_succ_old (hs : s < 2 ^ (k + 1)) (ht : t < 2 ^ (k + 1)) (hj : j < k) :
    selects (mdrIEncodingMatrixB (k + 1)) (k + 1) s j t =
      (decide (s < 2 ^ k ↔ t < 2 ^ k) &&
        (selects (mdrIEncodingMatrixB k) k (s % 2 ^ k) j (t % 2 ^ k) ^^
          selects (mdrIEncodingMatrixB k) k (s % 2 ^ k) k (t % 2 ^ k))) := by
  have hrow : 2 ^ (k + 1) = 2 ^ k + 2 ^ k := by rw [pow_succ, mul_two]
  have hbound : ∀ {s' : ℕ}, s' < 2 ^ k →
      mdrIEncodingMatrixB k s' j ^^^ mdrIEncodingMatrixB k s' k < 2 ^ 2 ^ k := fun hs' =>
    Nat.xor_lt_two_pow (mdrIEncodingMatrixB_lt k hs' (by omega))
      (mdrIEncodingMatrixB_lt k hs' le_rfl)
  simp only [selects]
  rw [mdrIEncodingMatrixB_succ k hs (by omega)]
  simp only [mdrIIterativeConstructEncodingMatrixB, Nat.add_sub_cancel, if_pos hj]
  by_cases hup : s < 2 ^ k
  · rw [if_pos hup, Nat.testBit_shiftLeft, Nat.mod_eq_of_lt hup, Nat.testBit_xor]
    by_cases hleft : t < 2 ^ k
    · have hidx : 2 ^ (k + 1) - 1 - t - 2 ^ k = 2 ^ k - 1 - t := by omega
      have hge : 2 ^ k ≤ 2 ^ (k + 1) - 1 - t := by omega
      simp [hup, hleft, hidx, hge, Nat.mod_eq_of_lt hleft]
    · have hge : ¬ 2 ^ k ≤ 2 ^ (k + 1) - 1 - t := by omega
      simp [hup, hleft, hge]
  · have hsmod : s % 2 ^ k = s - 2 ^ k := by
      rw [Nat.mod_eq_sub_mod (by omega), Nat.mod_eq_of_lt (by omega)]
    rw [if_neg hup, hsmod]
    by_cases hleft : t < 2 ^ k
    · have hge : 2 ^ 2 ^ k ≤ 2 ^ (2 ^ (k + 1) - 1 - t) :=
        Nat.pow_le_pow_right (by omega) (by omega)
      rw [Nat.testBit_lt_two_pow (lt_of_lt_of_le (hbound (by omega)) hge)]
      simp [hup, hleft]
    · have htmod : t % 2 ^ k = t - 2 ^ k := by
        rw [Nat.mod_eq_sub_mod (by omega), Nat.mod_eq_of_lt (by omega)]
      have hidx : 2 ^ (k + 1) - 1 - t = 2 ^ k - 1 - (t - 2 ^ k) := by omega
      rw [htmod, hidx, Nat.testBit_xor]
      simp [hup, hleft]

/-- The column of the new data disk: an identity in the upper right quarter. -/
theorem selects_succ_data (hs : s < 2 ^ (k + 1)) (ht : t < 2 ^ (k + 1)) :
    selects (mdrIEncodingMatrixB (k + 1)) (k + 1) s k t = decide (t = s + 2 ^ k) := by
  have hrow : 2 ^ (k + 1) = 2 ^ k + 2 ^ k := by rw [pow_succ, mul_two]
  simp only [selects]
  rw [mdrIEncodingMatrixB_succ k hs (by omega)]
  simp only [mdrIIterativeConstructEncodingMatrixB, Nat.add_sub_cancel, lt_irrefl, if_false,
    if_true]
  by_cases hup : s < 2 ^ k
  · rw [if_pos hup, Nat.one_shiftLeft, Nat.testBit_two_pow]
    exact decide_eq_decide.2 (by omega)
  · rw [if_neg hup, Nat.zero_testBit]
    exact (decide_eq_false (by omega)).symm

/-- The `P` column: an identity in the lower left quarter. -/
theorem selects_succ_parity (hs : s < 2 ^ (k + 1)) (ht : t < 2 ^ (k + 1)) :
    selects (mdrIEncodingMatrixB (k + 1)) (k + 1) s (k + 1) t = decide (s = t + 2 ^ k) := by
  have hrow : 2 ^ (k + 1) = 2 ^ k + 2 ^ k := by rw [pow_succ, mul_two]
  simp only [selects]
  rw [mdrIEncodingMatrixB_succ k hs (by omega)]
  have hk : ¬ k + 1 < k := by omega
  have hk' : k + 1 ≠ k := by omega
  simp only [mdrIIterativeConstructEncodingMatrixB, Nat.add_sub_cancel, if_neg hk, if_neg hk']
  by_cases hup : s < 2 ^ k
  · rw [if_pos hup, Nat.zero_testBit]
    exact (decide_eq_false (by omega)).symm
  · rw [if_neg hup, Nat.one_shiftLeft, Nat.testBit_two_pow]
    exact decide_eq_decide.2 (by omega)

end Columns

/-! ### The kernel of a sum of two columns -/

section Kernel

variable {V : Type*} [AddCommGroup V] [Module (ZMod 2) V]

/-- The contribution of a disk with contents `x` to block `s` of disk `Q`, by column `j`. -/
def columnSum (matrix : ℕ → ℕ → ℕ) (k j s : ℕ) (x : ℕ → V) : V :=
  ∑ t ∈ Finset.range (2 ^ k), if selects matrix k s j t then x t else 0

omit [Module (ZMod 2) V] in
theorem columnSum_add (matrix : ℕ → ℕ → ℕ) (k j s : ℕ) (x y : ℕ → V) :
    columnSum matrix k j s (fun t => x t + y t) =
      columnSum matrix k j s x + columnSum matrix k j s y := by
  simp only [columnSum, ← Finset.sum_add_distrib]
  refine Finset.sum_congr rfl fun t _ => ?_
  split <;> simp

omit [Module (ZMod 2) V] in
theorem columnSum_congr {matrix : ℕ → ℕ → ℕ} {k j s : ℕ} {x y : ℕ → V}
    (h : ∀ t < 2 ^ k, x t = y t) : columnSum matrix k j s x = columnSum matrix k j s y := by
  refine Finset.sum_congr rfl fun t ht => ?_
  rw [h t (Finset.mem_range.1 ht)]

omit [Module (ZMod 2) V] in
@[simp] theorem columnSum_zero (matrix : ℕ → ℕ → ℕ) (k j s : ℕ) :
    columnSum matrix k j s (fun _ => (0 : V)) = 0 := by
  simp [columnSum]

theorem ite_xor (a b : Bool) (x : V) :
    (if a ^^ b then x else 0) = (if a then x else 0) + if b then x else 0 := by
  cases a <;> cases b <;> simp [ZModModule.add_self]

omit [Module (ZMod 2) V] in
theorem columnSum_succ_split (k j s : ℕ) (x : ℕ → V) :
    columnSum (mdrIEncodingMatrixB (k + 1)) (k + 1) j s x =
      (∑ t ∈ Finset.range (2 ^ k),
        if selects (mdrIEncodingMatrixB (k + 1)) (k + 1) s j t then x t else 0) +
      ∑ t ∈ Finset.range (2 ^ k),
        if selects (mdrIEncodingMatrixB (k + 1)) (k + 1) s j (2 ^ k + t) then x (2 ^ k + t)
        else 0 := by
  rw [columnSum, pow_succ, mul_two, Finset.sum_range_add]

/-- The upper rows of an old column see the upper half of the disk only. -/
theorem columnSum_succ_old_upper {k j s : ℕ} (hs : s < 2 ^ k) (hj : j < k) (x : ℕ → V) :
    columnSum (mdrIEncodingMatrixB (k + 1)) (k + 1) j s x =
      columnSum (mdrIEncodingMatrixB k) k j s x + columnSum (mdrIEncodingMatrixB k) k k s x := by
  have hrow : 2 ^ (k + 1) = 2 ^ k + 2 ^ k := by rw [pow_succ, mul_two]
  have hright : (∑ t ∈ Finset.range (2 ^ k),
      if selects (mdrIEncodingMatrixB (k + 1)) (k + 1) s j (2 ^ k + t) then x (2 ^ k + t)
      else 0) = 0 := by
    refine Finset.sum_eq_zero fun t ht => ?_
    have ht := Finset.mem_range.1 ht
    rw [selects_succ_old (by omega) (by omega) hj]
    simp [hs]
  rw [columnSum_succ_split, hright, add_zero, columnSum, columnSum, ← Finset.sum_add_distrib]
  refine Finset.sum_congr rfl fun t ht => ?_
  have ht := Finset.mem_range.1 ht
  have hdiag : decide (s < 2 ^ k ↔ t < 2 ^ k) = true := by simp [hs, ht]
  rw [selects_succ_old (by omega) (by omega) hj, hdiag, Nat.mod_eq_of_lt hs, Nat.mod_eq_of_lt ht,
    Bool.true_and, ite_xor]

/-- The lower rows of an old column see the lower half of the disk only. -/
theorem columnSum_succ_old_lower {k j s : ℕ} (hs : s < 2 ^ k) (hj : j < k) (x : ℕ → V) :
    columnSum (mdrIEncodingMatrixB (k + 1)) (k + 1) j (2 ^ k + s) x =
      columnSum (mdrIEncodingMatrixB k) k j s (fun t => x (2 ^ k + t)) +
        columnSum (mdrIEncodingMatrixB k) k k s (fun t => x (2 ^ k + t)) := by
  have hrow : 2 ^ (k + 1) = 2 ^ k + 2 ^ k := by rw [pow_succ, mul_two]
  have hleft : (∑ t ∈ Finset.range (2 ^ k),
      if selects (mdrIEncodingMatrixB (k + 1)) (k + 1) (2 ^ k + s) j t then x t else 0) = 0 := by
    refine Finset.sum_eq_zero fun t ht => ?_
    have ht := Finset.mem_range.1 ht
    rw [selects_succ_old (by omega) (by omega) hj]
    simp [ht]
  rw [columnSum_succ_split, hleft, zero_add, columnSum, columnSum, ← Finset.sum_add_distrib]
  refine Finset.sum_congr rfl fun t ht => ?_
  have ht := Finset.mem_range.1 ht
  have hdiag : decide (2 ^ k + s < 2 ^ k ↔ 2 ^ k + t < 2 ^ k) = true := by simp
  rw [selects_succ_old (by omega) (by omega) hj, hdiag, Nat.add_mod_left, Nat.mod_eq_of_lt hs,
    Nat.add_mod_left, Nat.mod_eq_of_lt ht, Bool.true_and, ite_xor]

omit [Module (ZMod 2) V] in
/-- The column of the new data disk moves its lower half up. -/
theorem columnSum_succ_data {k s : ℕ} (hs : s < 2 ^ (k + 1)) (x : ℕ → V) :
    columnSum (mdrIEncodingMatrixB (k + 1)) (k + 1) k s x =
      if s < 2 ^ k then x (2 ^ k + s) else 0 := by
  have hrow : 2 ^ (k + 1) = 2 ^ k + 2 ^ k := by rw [pow_succ, mul_two]
  have hsel : ∀ t ∈ Finset.range (2 ^ (k + 1)),
      (if selects (mdrIEncodingMatrixB (k + 1)) (k + 1) s k t then x t else 0) =
        if t = 2 ^ k + s then x t else 0 := by
    intro t ht
    rw [selects_succ_data hs (Finset.mem_range.1 ht), Nat.add_comm s]
    simp
  rw [columnSum, Finset.sum_congr rfl hsel, Finset.sum_ite_eq']
  simp only [Finset.mem_range]
  exact if_congr (by omega) rfl rfl

omit [Module (ZMod 2) V] in
/-- The `P` column moves the upper half of the disk down. -/
theorem columnSum_succ_parity {k s : ℕ} (hs : s < 2 ^ (k + 1)) (x : ℕ → V) :
    columnSum (mdrIEncodingMatrixB (k + 1)) (k + 1) (k + 1) s x =
      if s < 2 ^ k then 0 else x (s - 2 ^ k) := by
  have hrow : 2 ^ (k + 1) = 2 ^ k + 2 ^ k := by rw [pow_succ, mul_two]
  by_cases hup : s < 2 ^ k
  · rw [if_pos hup, columnSum]
    refine Finset.sum_eq_zero fun t ht => ?_
    rw [selects_succ_parity hs (Finset.mem_range.1 ht)]
    simp [show s ≠ t + 2 ^ k by omega]
  · have hsel : ∀ t ∈ Finset.range (2 ^ (k + 1)),
        (if selects (mdrIEncodingMatrixB (k + 1)) (k + 1) s (k + 1) t then x t else 0) =
          if t = s - 2 ^ k then x t else 0 := by
      intro t ht
      rw [selects_succ_parity hs (Finset.mem_range.1 ht)]
      exact if_congr (by simp; omega) rfl rfl
    rw [if_neg hup, columnSum, Finset.sum_congr rfl hsel, Finset.sum_ite_eq',
      if_pos (Finset.mem_range.2 (by omega))]

omit [Module (ZMod 2) V] in
/-- A disk whose upper and lower halves vanish is zero. -/
theorem eq_zero_of_halves {k : ℕ} {x : ℕ → V} (hup : ∀ t < 2 ^ k, x t = 0)
    (hlow : ∀ t < 2 ^ k, x (2 ^ k + t) = 0) : ∀ t < 2 ^ (k + 1), x t = 0 := by
  intro t ht
  have hrow : 2 ^ (k + 1) = 2 ^ k + 2 ^ k := by rw [pow_succ, mul_two]
  rcases Nat.lt_or_ge t (2 ^ k) with h | h
  · exact hup t h
  · have := hlow (t - 2 ^ k) (by omega)
    rwa [Nat.add_sub_cancel' h] at this

/-- The sum of two different columns has a trivial kernel. -/
theorem columnSum_eq_zero (k : ℕ) : ∀ {i j : ℕ}, i < j → j ≤ k → ∀ (x : ℕ → V),
    (∀ s < 2 ^ k, columnSum (mdrIEncodingMatrixB k) k i s x +
      columnSum (mdrIEncodingMatrixB k) k j s x = 0) → ∀ t < 2 ^ k, x t = 0 := by
  -- induction along the construction; `i < j` splits into old, new data and parity columns
  induction k with
  | zero =>
      intro i j hij hj
      omega
  | succ k ih =>
      intro i j hij hj x hx
      have hrow : 2 ^ (k + 1) = 2 ^ k + 2 ^ k := by rw [pow_succ, mul_two]
      have hupper : ∀ s < 2 ^ k, columnSum (mdrIEncodingMatrixB (k + 1)) (k + 1) i s x +
          columnSum (mdrIEncodingMatrixB (k + 1)) (k + 1) j s x = 0 :=
        fun s hs => hx s (by omega)
      have hlower : ∀ s < 2 ^ k, columnSum (mdrIEncodingMatrixB (k + 1)) (k + 1) i (2 ^ k + s) x +
          columnSum (mdrIEncodingMatrixB (k + 1)) (k + 1) j (2 ^ k + s) x = 0 :=
        fun s hs => hx (2 ^ k + s) (by omega)
      rcases Nat.lt_trichotomy j k with hjk | rfl | hjk
      · -- two old columns: both halves reduce to the previous matrix
        refine eq_zero_of_halves (ih hij (by omega) _ fun s hs => ?_)
          (ih hij (by omega) _ fun s hs => ?_)
        · have h := hupper s hs
          rw [columnSum_succ_old_upper hs (by omega), columnSum_succ_old_upper hs hjk,
            add_comm (columnSum _ _ j s x), ZModModule.add_add_add_cancel] at h
          exact h
        · have h := hlower s hs
          rw [columnSum_succ_old_lower hs (by omega), columnSum_succ_old_lower hs hjk,
            add_comm (columnSum _ _ j s _), ZModModule.add_add_add_cancel] at h
          exact h
      · -- an old column and the new data column: the lower rows give the lower half first
        have hlow : ∀ t < 2 ^ j, x (2 ^ j + t) = 0 := by
          refine ih hij le_rfl _ fun s hs => ?_
          have h := hlower s hs
          rwa [columnSum_succ_old_lower hs hij, columnSum_succ_data (by omega), if_neg (by omega),
            add_zero] at h
        refine eq_zero_of_halves (ih hij le_rfl _ fun s hs => ?_) hlow
        have h := hupper s hs
        rwa [columnSum_succ_old_upper hs hij, columnSum_succ_data (by omega), if_pos hs,
          hlow s hs, add_zero] at h
      · obtain rfl : j = k + 1 := by omega
        rcases Nat.lt_or_ge i k with hik | hik
        · -- an old column and the parity column: the upper rows give the upper half first
          have hup : ∀ t < 2 ^ k, x t = 0 := by
            refine ih hik le_rfl _ fun s hs => ?_
            have h := hupper s hs
            rwa [columnSum_succ_old_upper hs hik, columnSum_succ_parity (by omega), if_pos hs,
              add_zero] at h
          refine eq_zero_of_halves hup (ih hik le_rfl _ fun s hs => ?_)
          have h := hlower s hs
          rwa [columnSum_succ_old_lower hs hik, columnSum_succ_parity (by omega),
            if_neg (by omega), Nat.add_sub_cancel_left, hup s hs, add_zero] at h
        · -- the new data column and the parity column swap the halves
          obtain rfl : i = k := by omega
          refine eq_zero_of_halves (fun s hs => ?_) fun s hs => ?_
          · have h := hlower s hs
            rwa [columnSum_succ_data (by omega), if_neg (by omega),
              columnSum_succ_parity (by omega), if_neg (by omega), Nat.add_sub_cancel_left,
              zero_add] at h
          · have h := hupper s hs
            rwa [columnSum_succ_data (by omega), if_pos hs, columnSum_succ_parity (by omega),
              if_pos hs, add_zero] at h

end Kernel

/-! ### Codewords and lost disks -/

section Codewords

variable {V : Type*} [AddCommGroup V]

/-- A stripe group, by disk and row, satisfies the parity equations: disk `k` is `P`, the sum of the
data disks, and disk `k + 1` is `Q`, given by the matrix. -/
structure MdrParity (matrix : ℕ → ℕ → ℕ) (k : ℕ) (c : ℕ → ℕ → V) : Prop where
  /-- Every `P` block is the sum of the data blocks of its row. -/
  p : ∀ t < 2 ^ k, c k t = ∑ j ∈ Finset.range k, c j t
  /-- Every `Q` block is the sum of the blocks that its row of the matrix selects. -/
  q : ∀ s < 2 ^ k, c (k + 1) s = ∑ j ∈ Finset.range (k + 1), columnSum matrix k j s (c j)

theorem MdrParity.add {matrix : ℕ → ℕ → ℕ} {k : ℕ} {c c' : ℕ → ℕ → V}
    (h : MdrParity matrix k c) (h' : MdrParity matrix k c') :
    MdrParity matrix k (fun j t => c j t + c' j t) where
  p t ht := by rw [h.p t ht, h'.p t ht, Finset.sum_add_distrib]
  q s hs := by simp only [h.q s hs, h'.q s hs, columnSum_add, Finset.sum_add_distrib]

variable [Module (ZMod 2) V]

/-- A codeword that is zero outside two disks is zero. -/
theorem MdrParity.eq_zero {k : ℕ} {c : ℕ → ℕ → V}
    (h : MdrParity (mdrIEncodingMatrixB k) k c) {a b : ℕ} (hab : a < b) (hb : b ≤ k + 1)
    (hc : ∀ j ≤ k + 1, j ≠ a → j ≠ b → ∀ t < 2 ^ k, c j t = 0) :
    ∀ t < 2 ^ k, c a t = 0 ∧ c b t = 0 := by
  have hrow : ∀ t < 2 ^ k, ∑ j ∈ Finset.range (k + 1), c j t = 0 := by
    intro t ht
    rw [Finset.sum_range_succ, ← h.p t ht, ZModModule.add_self]
  rcases Nat.lt_or_ge k b with hkb | hbk
  · -- `Q` is lost: the row parity gives the other disk, and then `Q`
    obtain rfl : b = k + 1 := by omega
    have hca : ∀ t < 2 ^ k, c a t = 0 := by
      intro t ht
      rw [← hrow t ht, Finset.sum_eq_single a]
      · intro j hj hja
        have hj := Finset.mem_range.1 hj
        exact hc j (by omega) hja (by omega) t ht
      · intro ha
        exact absurd (Finset.mem_range.2 hab) ha
    intro t ht
    refine ⟨hca t ht, ?_⟩
    rw [h.q t ht]
    refine Finset.sum_eq_zero fun j hj => ?_
    have hj := Finset.mem_range.1 hj
    rw [columnSum_congr (y := fun _ => (0 : V)), columnSum_zero]
    intro t' ht'
    rcases eq_or_ne j a with rfl | hja
    · exact hca t' ht'
    · exact hc j (by omega) hja (by omega) t' ht'
  · -- `Q` survives: both lost disks hold the same `x`, and `x` is in the kernel
    have hx : ∀ t < 2 ^ k, c a t = c b t := fun t ht =>
      Xor.eq_of_sum_eq_zero (by omega) (by omega) (by omega)
        (fun j hj hja hjb => hc j (by omega) hja hjb t ht) (hrow t ht)
    have hker : ∀ s < 2 ^ k, columnSum (mdrIEncodingMatrixB k) k a s (c a) +
        columnSum (mdrIEncodingMatrixB k) k b s (c a) = 0 := by
      intro s hs
      have hq := h.q s hs
      rw [hc (k + 1) le_rfl (by omega) (by omega) s hs,
        Finset.sum_eq_add_of_mem a b (Finset.mem_range.2 (by omega))
          (Finset.mem_range.2 (by omega)) (by omega)] at hq
      · rw [columnSum_congr hx (j := b), ← hq]
      · intro j hj hne
        have hj := Finset.mem_range.1 hj
        rw [columnSum_congr (y := fun _ => (0 : V)), columnSum_zero]
        exact fun t ht => hc j (by omega) hne.1 hne.2 t ht
    intro t ht
    have hzero := columnSum_eq_zero k hab hbk (c a) hker t ht
    exact ⟨hzero, (hx t ht).symm.trans hzero⟩

/-- Two codewords that agree outside two disks agree. -/
theorem MdrParity.unique {k : ℕ} {c c' : ℕ → ℕ → V}
    (h : MdrParity (mdrIEncodingMatrixB k) k c) (h' : MdrParity (mdrIEncodingMatrixB k) k c')
    {a b : ℕ} (hab : a ≠ b) (ha : a ≤ k + 1) (hb : b ≤ k + 1)
    (hc : ∀ j ≤ k + 1, j ≠ a → j ≠ b → ∀ t < 2 ^ k, c j t = c' j t) :
    ∀ t < 2 ^ k, c a t = c' a t ∧ c b t = c' b t := by
  have hdiff : ∀ j ≤ k + 1, j ≠ a → j ≠ b → ∀ t < 2 ^ k, c j t + c' j t = 0 :=
    fun j hj hja hjb t ht => Xor.add_eq_zero_iff.2 (hc j hj hja hjb t ht)
  intro t ht
  rcases lt_or_gt_of_ne hab with hlt | hlt
  · have hz := (h.add h').eq_zero hlt hb hdiff t ht
    exact ⟨Xor.eq_of_add_eq_zero hz.1, Xor.eq_of_add_eq_zero hz.2⟩
  · have hz := (h.add h').eq_zero hlt ha (fun j hj hjb hja => hdiff j hj hja hjb) t ht
    exact ⟨Xor.eq_of_add_eq_zero hz.2, Xor.eq_of_add_eq_zero hz.1⟩

end Codewords

/-- Column `j` of the matrix, read as a square matrix over two elements. -/
def columnMatrix (matrix : ℕ → ℕ → ℕ) (k j : ℕ) : Matrix (Fin (2 ^ k)) (Fin (2 ^ k)) (ZMod 2) :=
  fun s t => if selects matrix k s j t then 1 else 0

theorem columnMatrix_mulVec (matrix : ℕ → ℕ → ℕ) (k j : ℕ) (x : ℕ → ZMod 2) (s : Fin (2 ^ k)) :
    (columnMatrix matrix k j).mulVec (fun t => x t) s = columnSum matrix k j s x := by
  rw [columnSum, Finset.sum_range]
  simp [Matrix.mulVec, dotProduct, columnMatrix]

theorem columnMatrix_add_isUnit (k : ℕ) {i j : ℕ} (hij : i < j) (hj : j ≤ k) :
    IsUnit (columnMatrix (mdrIEncodingMatrixB k) k i + columnMatrix
      (mdrIEncodingMatrixB k) k j) := by
  rw [← Matrix.mulVec_injective_iff_isUnit, ← Matrix.coe_mulVecLin, ← LinearMap.ker_eq_bot,
    LinearMap.ker_eq_bot']
  intro y hy
  -- the square matrix acts on vectors as the column acts on the contents of a disk
  let x : ℕ → ZMod 2 := fun t => if ht : t < 2 ^ k then y ⟨t, ht⟩ else 0
  have hxy : (fun t : Fin (2 ^ k) => x t) = y := by
    funext t
    simp [x]
  have hker : ∀ s < 2 ^ k, columnSum (mdrIEncodingMatrixB k) k i s x +
      columnSum (mdrIEncodingMatrixB k) k j s x = 0 := by
    intro s hs
    have h := congrFun hy ⟨s, hs⟩
    rw [Matrix.coe_mulVecLin, Matrix.add_mulVec, Pi.add_apply, ← hxy, columnMatrix_mulVec,
      columnMatrix_mulVec] at h
    exact h
  rw [← hxy]
  funext t
  exact columnSum_eq_zero k hij hj x hker t t.isLt

/-- The code tolerates the loss of any two disks: two stripe groups that satisfy the equations of
the matrix and agree on the other disks are equal, and the sum of two columns is invertible. -/
theorem mdrIEncodingMatrix_mds {V : Type*} [AddCommGroup V] [Module (ZMod 2) V] (k : ℕ)
    (hk : 1 ≤ k) :
    ∃ matrix, mdrIEncodingMatrix k = .ok matrix ∧
      (∀ a b, a ≠ b → a ≤ k + 1 → b ≤ k + 1 →
        ∀ c c' : ℕ → ℕ → V, MdrParity matrix k c → MdrParity matrix k c' →
          (∀ j ≤ k + 1, j ≠ a → j ≠ b → ∀ t < 2 ^ k, c j t = c' j t) →
          ∀ t < 2 ^ k, c a t = c' a t ∧ c b t = c' b t) ∧
      ∀ i j, i ≠ j → i ≤ k → j ≤ k →
        IsUnit (columnMatrix matrix k i + columnMatrix matrix k j) := by
  refine ⟨_, mdrIEncodingMatrix_of_pos hk, ?_, ?_⟩
  · intro a b hab ha hb c c' hc hc' hagree
    exact hc.unique hc' hab ha hb hagree
  · intro i j hij hi hj
    rcases lt_or_gt_of_ne hij with h | h
    · exact columnMatrix_add_isUnit k h hj
    · rw [add_comm]
      exact columnMatrix_add_isUnit k h hi

/-- Three data disks. -/
theorem mdrIEncodingMatrix_mds_three :
    ∃ matrix, mdrIEncodingMatrix 3 = .ok matrix ∧
      (∀ a b, a ≠ b → a ≤ 4 → b ≤ 4 →
        ∀ c c' : ℕ → ℕ → Byte, MdrParity matrix 3 c → MdrParity matrix 3 c' →
          (∀ j ≤ 4, j ≠ a → j ≠ b → ∀ t < 2 ^ 3, c j t = c' j t) →
          ∀ t < 2 ^ 3, c a t = c' a t ∧ c b t = c' b t) ∧
      ∀ i j, i ≠ j → i ≤ 3 → j ≤ 3 →
        IsUnit (columnMatrix matrix 3 i + columnMatrix matrix 3 j) :=
  mdrIEncodingMatrix_mds 3 (by decide)

end Ncfs
