/-
**Elimination over a field.**

Matrices are functions of a row and a column, of which the first `n` rows and columns count.  The
three operations on rows are applied to a matrix and, in step with it, to the unit matrix.  The
second one then holds the combinations of the rows of the start that the first one consists of.  If
the first one ends as the unit matrix, the second one is the inverse.  If a column has no pivot,
some vector other than zero is mapped to zero, by the matrix at that point and so by the one of the
start.

A matrix with more rows than columns is generic when every choice of as many rows as there are
columns is invertible.  This survives operations on columns and multiples of rows.

Main definitions:

* `Elimination.swapRows`, `Elimination.scaleRow`, `Elimination.addRow` — operations on rows;
* `Elimination.Tracks` — two matrices come from another one and the unit matrix by the same
  operations;
* `Elimination.UnitUpper`, `Elimination.Cleared` — the first columns are triangular, the last ones
  those of the unit matrix;
* `Elimination.Generic` — any choice of rows is invertible;
* `Elimination.scaleColumn`, `Elimination.addColumn` — operations on columns;
* `Elimination.vandermonde` — the extended Vandermonde matrix.

Main results:

* `Elimination.Tracks.swapRows`, `Elimination.Tracks.scaleRow`, `Elimination.Tracks.addRow` — the
  operations are tracked;
* `Elimination.Tracks.inverse` — the inverse;
* `Elimination.UnitUpper.eq_zero`, `Elimination.exists_killed` — a triangular matrix, and a column
  without a pivot;
* `Elimination.Generic.scaleColumn`, `Elimination.Generic.addColumn`,
  `Elimination.Generic.scaleRow`, `Elimination.Generic.swapRows` — generic matrices stay so;
* `Elimination.Generic.exists_pivot`, `Elimination.Generic.ne_zero` — they have pivots, and nonzero
  entries below the unit matrix;
* `Elimination.Generic.isUnit` — the choices of rows as matrices;
* `Elimination.generic_vandermonde` — the extended Vandermonde matrix is generic.
-/
import Mathlib

set_option relaxedAutoImplicit false
set_option autoImplicit false

namespace Elimination

variable {F : Type*}

/-! ### Operations on rows -/

/-- Rows `i` and `j` change places. -/
def swapRows (A : ℕ → ℕ → F) (i j : ℕ) : ℕ → ℕ → F := fun r => A (Equiv.swap i j r)

/-- Row `i` is multiplied by `c`. -/
def scaleRow [Mul F] (A : ℕ → ℕ → F) (i : ℕ) (c : F) : ℕ → ℕ → F :=
  Function.update A i fun x => A i x * c

/-- `c` times row `i` is added to row `j`. -/
def addRow [Mul F] [Add F] (A : ℕ → ℕ → F) (j i : ℕ) (c : F) : ℕ → ℕ → F :=
  Function.update A j fun x => A j x + c * A i x

theorem swapRows_swapRows (A : ℕ → ℕ → F) (i j : ℕ) : swapRows (swapRows A i j) i j = A :=
  funext fun r => congrArg A (Equiv.swap_apply_self i j r)

variable [Field F]

/-- The product of a row and a vector. -/
def dot (n : ℕ) (a v : ℕ → F) : F := ∑ j ∈ Finset.range n, a j * v j

theorem dot_congr {n : ℕ} {a a' v v' : ℕ → F} (ha : ∀ j < n, a j = a' j)
    (hv : ∀ j < n, v j = v' j) :
    dot n a v = dot n a' v' := by
  refine Finset.sum_congr rfl fun j hj => ?_
  rw [ha j (Finset.mem_range.1 hj), hv j (Finset.mem_range.1 hj)]

theorem dot_scale (n : ℕ) (a v : ℕ → F) (c : F) : dot n (fun x => a x * c) v = dot n a v * c := by
  rw [dot, dot, Finset.sum_mul]
  exact Finset.sum_congr rfl fun j _ => by ring

theorem dot_add (n : ℕ) (a b v : ℕ → F) (c : F) :
    dot n (fun x => a x + c * b x) v = dot n a v + c * dot n b v := by
  rw [dot, dot, dot, Finset.mul_sum, ← Finset.sum_add_distrib]
  exact Finset.sum_congr rfl fun j _ => by ring

/-- The unit matrix. -/
def unit (r c : ℕ) : F := if r = c then 1 else 0

theorem dot_unit {n d : ℕ} (hd : d < n) (v : ℕ → F) : dot n (unit d) v = v d := by
  rw [dot, Finset.sum_eq_single d]
  · rw [unit, if_pos rfl, one_mul]
  · intro j _ hj
    rw [unit, if_neg hj.symm, zero_mul]
  · intro hd'
    exact absurd (Finset.mem_range.2 hd) hd'

theorem dot_unit_right {n d : ℕ} (hd : d < n) (a : ℕ → F) : dot n a (unit d) = a d := by
  rw [← dot_unit hd a, dot, dot]
  exact Finset.sum_congr rfl fun j _ => mul_comm ..

/-! ### Tracking -/

/-- The first `k` rows map `v` to zero. -/
def Kills (k n : ℕ) (A : ℕ → ℕ → F) (v : ℕ → F) : Prop := ∀ i < k, dot n (A i) v = 0

/-- `A` and `B` come from `A₀` and the unit matrix by the same operations. -/
structure Tracks (n : ℕ) (A₀ A B : ℕ → ℕ → F) : Prop where
  /-- The rows of `B` say how those of `A` are combined. -/
  product : ∀ i < n, ∀ j < n, dot n (B i) (fun l => A₀ l j) = A i j
  /-- Nothing more is mapped to zero. -/
  kernel : ∀ v, Kills n n A v → Kills n n A₀ v

section Tracks

variable {n i j : ℕ} {A₀ A A' B B' : ℕ → ℕ → F} {c : F} {v : ℕ → F}

theorem Kills.congr {k : ℕ} (h : Kills k n A v) (hA : ∀ r < k, ∀ x < n, A' r x = A r x) :
    Kills k n A' v :=
  fun r hr => (dot_congr (hA r hr) fun _ _ => rfl).trans (h r hr)

theorem Tracks.start (n : ℕ) (A₀ : ℕ → ℕ → F) : Tracks n A₀ A₀ unit :=
  ⟨fun _ hi _ _ => dot_unit hi _, fun _ h => h⟩

/-- Only the first rows and columns count. -/
theorem Tracks.congr (h : Tracks n A₀ A B) (hA : ∀ r < n, ∀ x < n, A' r x = A r x)
    (hB : ∀ r < n, ∀ x < n, B' r x = B r x) : Tracks n A₀ A' B' where
  product r hr x hx := by
    rw [hA r hr x hx, ← h.product r hr x hx]
    exact dot_congr (hB r hr) fun _ _ => rfl
  kernel v hv := h.kernel v (hv.congr fun r hr x hx => (hA r hr x hx).symm)

theorem swap_lt (hi : i < n) (hj : j < n) {r : ℕ} (hr : r < n) : Equiv.swap i j r < n := by
  rw [Equiv.swap_apply_def]
  split
  · exact hj
  split
  · exact hi
  · exact hr

theorem Kills.swapRows {k : ℕ} (hi : i < k) (hj : j < k) (h : Kills k n A v) :
    Kills k n (swapRows A i j) v :=
  fun _ hr => h _ (swap_lt hi hj hr)

theorem Tracks.swapRows (h : Tracks n A₀ A B) (hi : i < n) (hj : j < n) :
    Tracks n A₀ (swapRows A i j) (swapRows B i j) where
  product _ hr x hx := h.product _ (swap_lt hi hj hr) x hx
  kernel v hv := by
    have hback := hv.swapRows hi hj
    rw [swapRows_swapRows] at hback
    exact h.kernel v hback

theorem Tracks.scaleRow (h : Tracks n A₀ A B) (hc : c ≠ 0) :
    Tracks n A₀ (scaleRow A i c) (scaleRow B i c) where
  product r hr x hx := by
    by_cases hri : r = i
    · subst hri
      simp only [Elimination.scaleRow, Function.update_self]
      rw [dot_scale, h.product r hr x hx]
    · simp only [Elimination.scaleRow, Function.update_of_ne hri]
      exact h.product r hr x hx
  kernel v hv := by
    refine h.kernel v fun r hr => ?_
    have hrow := hv r hr
    by_cases hri : r = i
    · subst hri
      simp only [Elimination.scaleRow, Function.update_self] at hrow
      rw [dot_scale] at hrow
      exact (mul_eq_zero.1 hrow).resolve_right hc
    · simpa only [Elimination.scaleRow, Function.update_of_ne hri] using hrow

theorem Tracks.addRow (h : Tracks n A₀ A B) (hi : i < n) (hij : i ≠ j) (c : F) :
    Tracks n A₀ (addRow A j i c) (addRow B j i c) where
  product r hr x hx := by
    by_cases hrj : r = j
    · subst hrj
      simp only [Elimination.addRow, Function.update_self]
      rw [dot_add, h.product r hr x hx, h.product i hi x hx]
    · simp only [Elimination.addRow, Function.update_of_ne hrj]
      exact h.product r hr x hx
  kernel v hv := by
    have hrow : ∀ r < n, r ≠ j → dot n (A r) v = 0 := by
      intro r hr hrj
      simpa only [Elimination.addRow, Function.update_of_ne hrj] using hv r hr
    refine h.kernel v fun r hr => ?_
    by_cases hrj : r = j
    · subst hrj
      have hsum := hv r hr
      simp only [Elimination.addRow, Function.update_self] at hsum
      rwa [dot_add, hrow i hi hij, mul_zero, add_zero] at hsum
    · exact hrow r hr hrj

/-- Nothing less is mapped to zero either. -/
theorem Tracks.kills (h : Tracks n A₀ A B) (hv : Kills n n A₀ v) : Kills n n A v := by
  intro i hi
  calc dot n (A i) v
      = ∑ j ∈ Finset.range n, ∑ l ∈ Finset.range n, B i l * A₀ l j * v j := by
        refine Finset.sum_congr rfl fun j hj => ?_
        rw [← h.product i hi j (Finset.mem_range.1 hj), dot, Finset.sum_mul]
    _ = ∑ l ∈ Finset.range n, B i l * dot n (A₀ l) v := by
        rw [Finset.sum_comm]
        refine Finset.sum_congr rfl fun l _ => ?_
        rw [dot, Finset.mul_sum]
        exact Finset.sum_congr rfl fun j _ => mul_assoc ..
    _ = 0 := Finset.sum_eq_zero fun l hl => by rw [hv l (Finset.mem_range.1 hl), mul_zero]

/-- **The inverse.** -/
theorem Tracks.inverse (h : Tracks n A₀ A B) (hunit : ∀ r < n, ∀ x < n, A r x = unit r x) :
    ∀ i < n, ∀ j < n, dot n (B i) (fun l => A₀ l j) = unit i j :=
  fun i hi j hj => (h.product i hi j hj).trans (hunit i hi j hj)

end Tracks

/-! ### Pivots -/

/-- The first `i` columns have ones on the diagonal and zeros below. -/
def UnitUpper (n i : ℕ) (A : ℕ → ℕ → F) : Prop := ∀ c < i, ∀ r < n, c ≤ r → A r c = unit r c

/-- The columns from `lo` on are those of the unit matrix. -/
def Cleared (n lo : ℕ) (A : ℕ → ℕ → F) : Prop := ∀ c < n, lo ≤ c → ∀ r < n, A r c = unit r c

/-- A triangular matrix maps no other vector to zero. -/
theorem UnitUpper.eq_zero {n : ℕ} {A : ℕ → ℕ → F} {v : ℕ → F} (h : UnitUpper n n A)
    (hv : Kills n n A v) :
    ∀ j < n, v j = 0 := by
  -- from the last entry on
  have hdown : ∀ k ≤ n, ∀ j < n, n - k ≤ j → v j = 0 := by
    intro k
    induction k with
    | zero => exact fun _ j hj hnj => absurd hj (by omega)
    | succ k ih =>
        intro hk j hj hkj
        by_cases hjk : n - k ≤ j
        · exact ih (by omega) j hj hjk
        have hrow := hv j hj
        rw [dot, Finset.sum_eq_single j] at hrow
        · rwa [h j hj j hj le_rfl, unit, if_pos rfl, one_mul] at hrow
        · intro c hc hcj
          have hc := Finset.mem_range.1 hc
          rcases Nat.lt_or_gt_of_ne hcj with hlt | hgt
          · rw [h c hc j hj hlt.le, unit, if_neg hlt.ne', zero_mul]
          · rw [ih (by omega) c hc (by omega), mul_zero]
        · exact fun hj' => absurd (Finset.mem_range.2 hj) hj'
  exact fun j hj => hdown n le_rfl j hj (by omega)

/-- When the rows from `i` on are zero in the first `i + 1` columns, a vector other than zero is
mapped to zero. -/
theorem exists_killed {k n i : ℕ} {A : ℕ → ℕ → F} (hi : i < n)
    (hzero : ∀ r < k, i ≤ r → ∀ c ≤ i, A r c = 0) : ∃ v, Kills k n A v ∧ ∃ j < n, v j ≠ 0 := by
  -- `i` equations in `i + 1` unknowns
  let f : (Fin (i + 1) → F) →ₗ[F] Fin i → F := Matrix.mulVecLin (Matrix.of fun r c => A r c)
  have hdim : Module.finrank F (Fin i → F) < Module.finrank F (Fin (i + 1) → F) := by
    rw [Module.finrank_fin_fun, Module.finrank_fin_fun]
    exact Nat.lt_succ_self i
  obtain ⟨u, hu, hne⟩ := (Submodule.ne_bot_iff _).1 (f.ker_ne_bot_of_finrank_lt hdim)
  obtain ⟨c, hc⟩ := Function.ne_iff.1 hne
  let v : ℕ → F := fun j => if h : j < i + 1 then u ⟨j, h⟩ else 0
  have hdot : ∀ r, dot n (A r) v = ∑ c : Fin (i + 1), A r c * u c := by
    intro r
    rw [dot, ← Finset.sum_subset (Finset.range_subset_range.2 (Nat.succ_le_of_lt hi)),
      Finset.sum_range]
    · refine Finset.sum_congr rfl fun c _ => ?_
      rw [show v c = u c from dif_pos c.isLt]
    · intro j _ hj
      rw [show v j = 0 from dif_neg (mt Finset.mem_range.2 hj), mul_zero]
  refine ⟨v, fun r hr => ?_, c, by omega, ?_⟩
  · rw [hdot]
    by_cases hri : r < i
    · exact congrFun (LinearMap.mem_ker.1 hu) ⟨r, hri⟩
    · refine Finset.sum_eq_zero fun c _ => ?_
      rw [hzero r hr (not_lt.1 hri) c (by omega), zero_mul]
  · rw [show v c = u c from dif_pos c.isLt]
    exact hc

/-! ### Generic matrices -/

/-- Any choice of `n` of the first `m` rows is invertible. -/
def Generic (m n : ℕ) (A : ℕ → ℕ → F) : Prop :=
  ∀ ids : ℕ → ℕ, Set.InjOn ids (Set.Iio n) → (∀ l < n, ids l < m) →
    ∀ v, Kills n n (fun l => A (ids l)) v → ∀ j < n, v j = 0

/-- Column `i` is multiplied by `c`. -/
def scaleColumn (A : ℕ → ℕ → F) (i : ℕ) (c : F) : ℕ → ℕ → F :=
  fun r => Function.update (A r) i (c * A r i)

/-- `c` times column `i` is added to column `j`. -/
def addColumn (A : ℕ → ℕ → F) (j i : ℕ) (c : F) : ℕ → ℕ → F :=
  fun r => Function.update (A r) j (A r j + c * A r i)

section Generic

variable {m n i j : ℕ} {A A' : ℕ → ℕ → F} {c : F}

theorem Generic.congr (h : Generic m n A) (hA : ∀ r < m, ∀ x < n, A' r x = A r x) :
    Generic m n A' :=
  fun ids hinj hids v hv => h ids hinj hids v
    (hv.congr fun l hl x hx => (hA (ids l) (hids l hl) x hx).symm)

theorem dot_update {n i : ℕ} (hi : i < n) (a v : ℕ → F) (x : F) :
    dot n (Function.update a i x) v = dot n a v + (x - a i) * v i := by
  have hmem := Finset.mem_range.2 hi
  rw [dot, dot, ← Finset.add_sum_erase _ _ hmem, ← Finset.add_sum_erase _ (fun j => a j * v j) hmem,
    Function.update_self]
  rw [Finset.sum_congr rfl fun j hj => by rw [Function.update_of_ne (Finset.mem_erase.1 hj).1]]
  ring

theorem dot_update_right {n i : ℕ} (hi : i < n) (a v : ℕ → F) (x : F) :
    dot n a (Function.update v i x) = dot n a v + a i * (x - v i) := by
  have hmem := Finset.mem_range.2 hi
  rw [dot, dot, ← Finset.add_sum_erase _ _ hmem, ← Finset.add_sum_erase _ (fun j => a j * v j) hmem,
    Function.update_self]
  rw [Finset.sum_congr rfl fun j hj => by rw [Function.update_of_ne (Finset.mem_erase.1 hj).1]]
  ring

theorem Generic.scaleColumn (h : Generic m n A) (hi : i < n) (hc : c ≠ 0) :
    Generic m n (scaleColumn A i c) := by
  intro ids hinj hids v hv
  have hback := h ids hinj hids (Function.update v i (c * v i)) fun l hl => by
    have hrow : dot n (Function.update (A (ids l)) i (c * A (ids l) i)) v = 0 := hv l hl
    change dot n (A (ids l)) _ = 0
    rw [dot_update hi] at hrow
    rw [dot_update_right hi, ← hrow]
    ring
  intro x hx
  have hx' := hback x hx
  by_cases hxi : x = i
  · subst hxi
    rw [Function.update_self] at hx'
    exact (mul_eq_zero.1 hx').resolve_left hc
  · rwa [Function.update_of_ne hxi] at hx'

theorem Generic.addColumn (h : Generic m n A) (hi : i < n) (hj : j < n) (hij : i ≠ j) (c : F) :
    Generic m n (addColumn A j i c) := by
  intro ids hinj hids v hv
  have hback := h ids hinj hids (Function.update v i (v i + c * v j)) fun l hl => by
    have hrow : dot n (Function.update (A (ids l)) j (A (ids l) j + c * A (ids l) i)) v = 0 :=
      hv l hl
    change dot n (A (ids l)) _ = 0
    rw [dot_update hj] at hrow
    rw [dot_update_right hi, ← hrow]
    ring
  have hother : ∀ x < n, x ≠ i → v x = 0 := by
    intro x hx hxi
    have hx' := hback x hx
    rwa [Function.update_of_ne hxi] at hx'
  intro x hx
  by_cases hxi : x = i
  · subst hxi
    have hx' := hback x hx
    rwa [Function.update_self, hother j hj hij.symm, mul_zero, add_zero] at hx'
  · exact hother x hx hxi

theorem Generic.scaleRow (h : Generic m n A) (hc : c ≠ 0) : Generic m n (scaleRow A i c) := by
  intro ids hinj hids v hv
  refine h ids hinj hids v fun l hl => ?_
  have hrow := hv l hl
  by_cases hli : ids l = i
  · simp only [Elimination.scaleRow, hli, Function.update_self] at hrow
    rw [dot_scale] at hrow
    change dot n (A (ids l)) v = 0
    rw [hli]
    exact (mul_eq_zero.1 hrow).resolve_right hc
  · simpa only [Elimination.scaleRow, Function.update_of_ne hli] using hrow

theorem Generic.swapRows (h : Generic m n A) (hi : i < m) (hj : j < m) :
    Generic m n (swapRows A i j) := by
  intro ids hinj hids v hv
  refine h (fun l => Equiv.swap i j (ids l)) (fun l hl l' hl' heq => ?_)
    (fun l hl => swap_lt hi hj (hids l hl)) v hv
  exact hinj hl hl' ((Equiv.swap i j).injective heq)

/-- Below the first rows of the unit matrix there is a pivot for the next column. -/
theorem Generic.exists_pivot (h : Generic m n A) (hnm : n ≤ m) (hi : i < n)
    (hunit : ∀ r < i, ∀ x < n, A r x = unit r x) : ∃ r, i ≤ r ∧ r < m ∧ A r i ≠ 0 := by
  by_contra hnone
  push Not at hnone
  have hzero := h (fun l => l) (fun _ _ _ _ heq => heq) (fun l hl => by omega) (unit i)
    (fun r hr => ?_) i hi
  · rw [unit, if_pos rfl] at hzero
    exact one_ne_zero hzero
  · refine (dot_unit_right hi (A r)).trans ?_
    by_cases hri : r < i
    · rw [hunit r hri i hi, unit, if_neg hri.ne]
    · exact hnone r (not_lt.1 hri) (by omega)

/-- Below the unit matrix no entry is zero. -/
theorem Generic.ne_zero (h : Generic m n A) (hunit : ∀ r < n, ∀ x < n, A r x = unit r x) {r : ℕ}
    (hr : n ≤ r) (hrm : r < m) (hi : i < n) : A r i ≠ 0 := by
  intro hentry
  -- row `r` in the place of row `i`
  have hzero := h (fun l => if l = i then r else l) (fun l hl l' hl' heq => ?_)
    (fun l hl => ?_) (unit i) (fun l hl => ?_) i hi
  · rw [unit, if_pos rfl] at hzero
    exact one_ne_zero hzero
  · have hl : l < n := hl
    have hl' : l' < n := hl'
    have heq : (if l = i then r else l) = if l' = i then r else l' := heq
    split at heq <;> split at heq <;> omega
  · split
    · exact hrm
    · omega
  · refine (dot_unit_right hi _).trans ?_
    dsimp only
    split
    · exact hentry
    · rename_i hli
      rw [hunit l hl i hi, unit, if_neg hli]

/-- A choice of rows, as a matrix. -/
theorem Generic.isUnit (h : Generic m n A) {ids : Fin n → ℕ} (hinj : Function.Injective ids)
    (hids : ∀ l, ids l < m) :
    IsUnit (Matrix.of fun l c : Fin n => A (ids l) c) := by
  rw [Matrix.isUnit_iff_isUnit_det, isUnit_iff_ne_zero]
  intro hdet
  obtain ⟨v, hv, hmul⟩ := Matrix.exists_mulVec_eq_zero_iff.2 hdet
  have hrow : ∀ l, (hl : l < n) → (if h : l < n then ids ⟨l, h⟩ else 0) = ids ⟨l, hl⟩ :=
    fun l hl => dif_pos hl
  refine hv (funext fun c => ?_)
  have hzero := h (fun l => if h : l < n then ids ⟨l, h⟩ else 0) (fun l hl l' hl' heq => ?_)
    (fun l hl => ?_) (fun j => if h : j < n then v ⟨j, h⟩ else 0) (fun l hl => ?_) c c.isLt
  · rwa [dif_pos c.isLt] at hzero
  · have heq : (if h : l < n then ids ⟨l, h⟩ else 0) = if h : l' < n then ids ⟨l', h⟩ else 0 := heq
    rw [hrow l hl, hrow l' hl'] at heq
    exact Fin.mk.inj (hinj heq)
  · rw [hrow l hl]
    exact hids _
  · refine Eq.trans ?_ (congrFun hmul ⟨l, hl⟩)
    rw [dot, Finset.sum_range, Matrix.mulVec, dotProduct]
    refine Finset.sum_congr rfl fun c _ => ?_
    rw [dif_pos c.isLt, Matrix.of_apply]
    exact congrArg (fun id => A id c * v c) (hrow l hl)

/-- The unit rows are generic: any choice of `n` of them is a permutation. -/
theorem generic_unit (n : ℕ) : Generic n n (unit : ℕ → ℕ → F) := by
  intro ids hinj hids v hv j hj
  have hmaps : Set.MapsTo ids (Finset.range n) (Finset.range n) := fun l hl =>
    Finset.mem_coe.2 (Finset.mem_range.2 (hids l (Finset.mem_range.1 (Finset.mem_coe.1 hl))))
  have hsurj := Finset.surjOn_of_injOn_of_card_le ids hmaps
    (hinj.mono fun l hl => Finset.mem_range.1 (Finset.mem_coe.1 hl)) le_rfl
  obtain ⟨l, hl, rfl⟩ := hsurj (Finset.mem_coe.2 (Finset.mem_range.2 hj))
  rw [← dot_unit hj v]
  exact hv l (Finset.mem_range.1 (Finset.mem_coe.1 hl))

end Generic

/-! ### The extended Vandermonde matrix -/

/-- The powers of `x r` in row `r`, and the last row of the unit matrix in row `m - 1`. -/
def vandermonde (m n : ℕ) (x : ℕ → F) : ℕ → ℕ → F :=
  fun r c => if r + 1 = m then unit (n - 1) c else x r ^ c

theorem vandermonde_last {m r : ℕ} (n : ℕ) (x : ℕ → F) (h : r + 1 = m) :
    vandermonde m n x r = unit (n - 1) :=
  funext fun _ => if_pos h

theorem vandermonde_of_ne {m r : ℕ} (n : ℕ) (x : ℕ → F) (h : r + 1 ≠ m) :
    vandermonde m n x r = fun c => x r ^ c :=
  funext fun _ => if_neg h

/-- The polynomial with the first `d` coefficients of `v`. -/
noncomputable def polynomial (d : ℕ) (v : ℕ → F) : Polynomial F :=
  ∑ j ∈ Finset.range d, Polynomial.C (v j) * Polynomial.X ^ j

theorem degree_polynomial_lt (d : ℕ) (v : ℕ → F) : (polynomial d v).degree < d := by
  refine (Polynomial.degree_sum_le _ _).trans_lt
    ((Finset.sup_lt_iff (WithBot.bot_lt_coe d)).2 fun j hj => ?_)
  refine (Polynomial.degree_C_mul_X_pow_le j (v j)).trans_lt ?_
  exact WithBot.coe_lt_coe.2 (Finset.mem_range.1 hj)

theorem coeff_polynomial {d j : ℕ} (v : ℕ → F) (hj : j < d) : (polynomial d v).coeff j = v j := by
  simp [polynomial, Polynomial.coeff_C_mul, Polynomial.coeff_X_pow, hj]

theorem eval_polynomial (d : ℕ) (v : ℕ → F) (a : F) :
    (polynomial d v).eval a = dot d (fun c => a ^ c) v := by
  rw [polynomial, Polynomial.eval_finsetSum]
  refine Finset.sum_congr rfl fun j _ => ?_
  rw [Polynomial.eval_mul, Polynomial.eval_C, Polynomial.eval_pow, Polynomial.eval_X, mul_comm]

/-- Fewer coefficients than roots are zero. -/
theorem eq_zero_of_roots {d : ℕ} {v : ℕ → F} {s : Finset ℕ} {x : ℕ → F} (hinj : Set.InjOn x s)
    (hcard : d ≤ s.card) (hroots : ∀ l ∈ s, dot d (fun c => x l ^ c) v = 0) : ∀ j < d, v j = 0 := by
  intro j hj
  have hzero : polynomial d v = 0 := by
    refine Polynomial.eq_zero_of_degree_lt_of_eval_index_eq_zero s hinj ?_ fun l hl => ?_
    · exact (degree_polynomial_lt d v).trans_le (WithBot.coe_le_coe.2 hcard)
    · rw [eval_polynomial]
      exact hroots l hl
  rw [← coeff_polynomial v hj, hzero, Polynomial.coeff_zero]

/-- **It is generic** when its points are different. -/
theorem generic_vandermonde {m n : ℕ} {x : ℕ → F} (hinj : Set.InjOn x (Set.Iio (m - 1))) :
    Generic m n (vandermonde m n x) := by
  intro ids hids hlt v hv
  have hroot : ∀ l < n, ids l + 1 ≠ m → dot n (fun c => x (ids l) ^ c) v = 0 := by
    intro l hl hne
    rw [← vandermonde_of_ne n x hne]
    exact hv l hl
  have hpoints : ∀ s : Finset ℕ, (∀ l ∈ s, l < n ∧ ids l + 1 ≠ m) →
      Set.InjOn (fun l => x (ids l)) s := by
    intro s hs l hl l' hl' heq
    obtain ⟨hln, hne⟩ := hs l hl
    obtain ⟨hln', hne'⟩ := hs l' hl'
    have hrow := hlt l hln
    have hrow' := hlt l' hln'
    refine hids hln hln' (hinj ?_ ?_ heq)
    · change ids l < m - 1
      omega
    · change ids l' < m - 1
      omega
  by_cases hlast : ∃ l < n, ids l + 1 = m
  · -- the last coefficient is zero, and one root less is left
    obtain ⟨e, he, hm⟩ := hlast
    obtain ⟨d, rfl⟩ : ∃ d, n = d + 1 := ⟨n - 1, by omega⟩
    have hcoeff : v d = 0 := by
      have hrow : dot (d + 1) (vandermonde m (d + 1) x (ids e)) v = 0 := hv e he
      rwa [vandermonde_last _ x hm, Nat.add_sub_cancel, dot_unit (Nat.lt_succ_self d)] at hrow
    have hother : ∀ l ∈ (Finset.range (d + 1)).erase e, l < d + 1 ∧ ids l + 1 ≠ m := by
      intro l hl
      obtain ⟨hne, hl⟩ := Finset.mem_erase.1 hl
      refine ⟨Finset.mem_range.1 hl, fun heq => hne (hids (Finset.mem_range.1 hl) he ?_)⟩
      omega
    have hfirst := eq_zero_of_roots (d := d) (v := v) (hpoints _ hother) (by
      rw [Finset.card_erase_of_mem (Finset.mem_range.2 he), Finset.card_range, Nat.add_sub_cancel])
        fun l hl => by
        have hsum := hroot l (hother l hl).1 (hother l hl).2
        rwa [dot, Finset.sum_range_succ, hcoeff, mul_zero, add_zero] at hsum
    intro j hj
    rcases Nat.lt_succ_iff_lt_or_eq.1 hj with hj | rfl
    · exact hfirst j hj
    · exact hcoeff
  · push Not at hlast
    have hall : ∀ l ∈ Finset.range n, l < n ∧ ids l + 1 ≠ m := fun l hl =>
      ⟨Finset.mem_range.1 hl, hlast l (Finset.mem_range.1 hl)⟩
    refine eq_zero_of_roots (hpoints _ hall) (Finset.card_range n).ge fun l hl => ?_
    exact hroot l (hall l hl).1 (hall l hl).2

end Elimination
