/-
**Inverting a matrix over GF(256).**

`jerasure_invert_matrix` makes a matrix upper triangular, with a search for a pivot in each column,
and multiplies back from the last row on.  The matrix and the one that becomes its inverse are
arrays of integers, row by row; every loop over a row writes the same combination into both of them.
`jerasure_invertible_matrix` is the first half of it, without the second array.

Main definitions:

* `Ncfs.upperTriangular`, `Ncfs.multiplyDown` — the two halves;
* `Ncfs.jerasureInvertMatrix`, `Ncfs.jerasureInvertibleMatrix` — the functions;
* `Ncfs.Enc` — an array holds a matrix of bytes.

Main results:

* `Ncfs.upperTriangular_spec`, `Ncfs.multiplyDown_spec` — the halves, as operations on rows;
* `Ncfs.jerasureInvertMatrix_spec`, `Ncfs.jerasureInvertibleMatrix_spec` — the functions, for
  arrays;
* `Ncfs.jerasureInvertMatrix_iff` — a matrix is inverted exactly when it has an inverse, and the
  test agrees.
-/
import FuseMdr.Elimination
import FuseMdr.Galois

set_option relaxedAutoImplicit false
set_option autoImplicit false

namespace Ncfs

/-! ### The functions -/

/-- A row is multiplied by `inverse`, at entry `j`. -/
def scaleEntry (w inverse rowStart : ℕ) (m : ℕ → ℕ) (j : ℕ) : Except CodingError (ℕ → ℕ) := do
  let v ← galoisSingleMultiply (m (rowStart + j)) inverse w
  return Function.update m (rowStart + j) v

/-- The row at `rowStart` is added to the one at `rs2`, at entry `x`. -/
def xorEntry (rowStart rs2 : ℕ) (m : ℕ → ℕ) (x : ℕ) : Except CodingError (ℕ → ℕ) :=
  .ok (Function.update m (rs2 + x) (m (rs2 + x) ^^^ m (rowStart + x)))

/-- `tmp` times the row at `rowStart` is added to the one at `rs2`. -/
def addEntry (w tmp rowStart rs2 : ℕ) (m : ℕ → ℕ) (x : ℕ) : Except CodingError (ℕ → ℕ) := do
  let v ← galoisSingleMultiply tmp (m (rowStart + x)) w
  return Function.update m (rs2 + x) (m (rs2 + x) ^^^ v)

/-- Two rows change places. -/
def swapEntry (rowStart rs2 : ℕ) (m : ℕ → ℕ) (k : ℕ) : Except CodingError (ℕ → ℕ) :=
  let tmp := m (rowStart + k)
  .ok (Function.update (Function.update m (rowStart + k) (m (rs2 + k))) (rs2 + k) tmp)

/-- A loop over a row that does the same to `mat` and, in `jerasure_invert_matrix`, to `inv`. -/
def rowLoop (withInv : Bool) (cols : ℕ) (f : (ℕ → ℕ) → ℕ → Except CodingError (ℕ → ℕ))
    (s : (ℕ → ℕ) × (ℕ → ℕ)) : Except CodingError ((ℕ → ℕ) × (ℕ → ℕ)) :=
  (List.range cols).foldlM (fun s x => do
    let mat ← f s.1 x
    if withInv then return (mat, ← f s.2 x) else return (mat, s.2)) s

/-- The loop `for (j = i+1; j < rows && mat[cols*j+i] == 0; j++) ;`. -/
def findPivotRow (cols rows i : ℕ) (mat : ℕ → ℕ) : Option ℕ :=
  (List.range' (i + 1) (rows - (i + 1))).find? fun j => mat (cols * j + i) ≠ 0

/-- The swap at the start of a column, with the result `none` when there is no row to swap with. -/
def swapPivot (withInv : Bool) (rows i : ℕ) (s : (ℕ → ℕ) × (ℕ → ℕ)) :
    Except CodingError (Option ((ℕ → ℕ) × (ℕ → ℕ))) :=
  if s.1 (rows * i + i) = 0 then
    match findPivotRow rows rows i s.1 with
    | none => .ok none
    | some j => do return some (← rowLoop withInv rows (swapEntry (rows * i) (j * rows)) s)
  else .ok (some s)

/-- The row is multiplied by the inverse of its diagonal element. -/
def scalePivot (withInv : Bool) (rows w i : ℕ) (s : (ℕ → ℕ) × (ℕ → ℕ)) :
    Except CodingError ((ℕ → ℕ) × (ℕ → ℕ)) := do
  let tmp := s.1 (rows * i + i)
  if tmp ≠ 1 then do
    let inverse ← galoisSingleDivide 1 tmp w
    rowLoop withInv rows (scaleEntry w inverse.toNat (rows * i)) s
  else return s

/-- The pass for row `j > i`. -/
def clearBelow (withInv : Bool) (rows w i : ℕ) (s : (ℕ → ℕ) × (ℕ → ℕ)) (j : ℕ) :
    Except CodingError ((ℕ → ℕ) × (ℕ → ℕ)) :=
  let tmp := s.1 (rows * j + i)
  if tmp ≠ 0 then
    if tmp = 1 then rowLoop withInv rows (xorEntry (rows * i) (rows * j)) s
    else rowLoop withInv rows (addEntry w tmp (rows * i) (rows * j)) s
  else .ok s

/-- The pass for column `i`, which may end the function. -/
def triangularColumn (withInv : Bool) (rows w : ℕ) (acc : Option ((ℕ → ℕ) × (ℕ → ℕ))) (i : ℕ) :
    Except CodingError (Option ((ℕ → ℕ) × (ℕ → ℕ))) :=
  match acc with
  | none => .ok none
  | some s => do
      match ← swapPivot withInv rows i s with
      | none => return none
      | some s => do
          let s ← scalePivot withInv rows w i s
          return some (← (List.range' (i + 1) (rows - (i + 1))).foldlM
            (clearBelow withInv rows w i) s)

/-- The first half: `mat` is made upper triangular. -/
def upperTriangular (withInv : Bool) (rows w : ℕ) (s : (ℕ → ℕ) × (ℕ → ℕ)) :
    Except CodingError (Option ((ℕ → ℕ) × (ℕ → ℕ))) :=
  (List.range rows).foldlM (triangularColumn withInv rows w) (some s)

/-- The pass for row `j < i` of the second half. -/
def clearAbove (rows w i : ℕ) (s : (ℕ → ℕ) × (ℕ → ℕ)) (j : ℕ) :
    Except CodingError ((ℕ → ℕ) × (ℕ → ℕ)) :=
  let tmp := s.1 (j * rows + i)
  if tmp ≠ 0 then do
    let mat := Function.update s.1 (j * rows + i) 0
    let inv ← (List.range rows).foldlM (addEntry w tmp (i * rows) (j * rows)) s.2
    return (mat, inv)
  else .ok s

/-- The second half. -/
def multiplyDown (rows w : ℕ) (s : (ℕ → ℕ) × (ℕ → ℕ)) : Except CodingError ((ℕ → ℕ) × (ℕ → ℕ)) :=
  (List.range rows).reverse.foldlM (fun s i => (List.range i).foldlM (clearAbove rows w i) s) s

/-- The loops that make `inv` the unit matrix, with the counter `k`. -/
def unitMatrix (rows : ℕ) (inv : ℕ → ℕ) : ℕ → ℕ :=
  ((List.range rows).foldl (fun acc i => (List.range rows).foldl (fun (acc : (ℕ → ℕ) × ℕ) j =>
    (Function.update acc.1 acc.2 (if i = j then 1 else 0), acc.2 + 1)) acc) (inv, 0)).1

/-- `jerasure_invert_matrix`, for a matrix in memory `mat` and one in memory `inv`.  No matrix
stands for the result `-1`. -/
def jerasureInvertMatrix (mat inv : ℕ → ℕ) (rows w : ℕ) : Except CodingError (Option (ℕ → ℕ)) := do
  match ← upperTriangular true rows w (mat, unitMatrix rows inv) with
  | none => return none
  | some s => return some (← multiplyDown rows w s).2

/-- `jerasure_invertible_matrix`. -/
def jerasureInvertibleMatrix (mat : ℕ → ℕ) (rows w : ℕ) : Except CodingError Bool := do
  return (← upperTriangular false rows w (mat, fun _ => 0)).isSome

/-! ### Arrays that hold matrices -/

open Elimination

/-- The array holds the matrix, row by row. -/
def Enc (rows cols : ℕ) (m : ℕ → ℕ) (A : ℕ → ℕ → Byte) : Prop :=
  ∀ r < rows, ∀ c < cols, m (r * cols + c) = (A r c).toNat

/-- Of the first `x` columns the entries are those of `A'`. -/
def mixColumns (A A' : ℕ → ℕ → Byte) (x : ℕ) : ℕ → ℕ → Byte :=
  fun r c => if c < x then A' r c else A r c

/-- Entries of different places have different indices. -/
theorem rowIndex_inj {cols r r' c c' : ℕ} (hc : c < cols) (hc' : c' < cols)
    (h : r * cols + c = r' * cols + c') :
    r = r' ∧ c = c' := by
  have hcols : 0 < cols := by omega
  have hdiv : ∀ r c, c < cols → (r * cols + c) / cols = r := fun r c hc => by
    rw [Nat.add_comm, Nat.add_mul_div_right _ _ hcols, Nat.div_eq_of_lt hc, Nat.zero_add]
  have hrow : r = r' := by rw [← hdiv r c hc, h, hdiv r' c' hc']
  subst hrow
  exact ⟨rfl, by omega⟩

theorem toNat_add_eq_xor (a b : Byte) : a.toNat ^^^ b.toNat = (a + b).toNat := rfl

section Enc

variable {rows cols i j x : ℕ} {m m' : ℕ → ℕ} {A A' : ℕ → ℕ → Byte}

theorem Enc.congr (h : Enc rows cols m A) (hA : ∀ r < rows, ∀ c < cols, A' r c = A r c) :
    Enc rows cols m A' :=
  fun r hr c hc => by rw [hA r hr c hc, h r hr c hc]

/-- An entry is set. -/
theorem Enc.update (h : Enc rows cols m A) (hj : j < rows) (hx : x < cols) (v : Byte) :
    Enc rows cols (Function.update m (j * cols + x) v.toNat)
    (Function.update A j (Function.update (A j) x v)) := by
  intro r hr c hc
  by_cases hrj : r = j
  · subst hrj
    rw [Function.update_self]
    by_cases hcx : c = x
    · subst hcx
      rw [Function.update_self, Function.update_self]
    · rw [Function.update_of_ne (by omega), Function.update_of_ne hcx]
      exact h r hr c hc
  · rw [Function.update_of_ne hrj, Function.update_of_ne fun heq => hrj (rowIndex_inj hc hx heq).1]
    exact h r hr c hc

/-- A loop that makes one column after the other that of `A'`. -/
theorem Enc.rowLoop {f : (ℕ → ℕ) → ℕ → Except CodingError (ℕ → ℕ)} (h : Enc rows cols m A)
    (hf : ∀ m, ∀ x < cols, Enc rows cols m (mixColumns A A' x) →
      ∃ m', f m x = .ok m' ∧ Enc rows cols m' (mixColumns A A' (x + 1))) :
    ∃ m', (List.range cols).foldlM f m = .ok m' ∧ Enc rows cols m' A' := by
  obtain ⟨m', hok, henc⟩ := Loops.foldlM_range (fun x m => Enc rows cols m (mixColumns A A' x))
    (fun x hx m hm => hf m x hx hm) (h.congr fun r _ c _ => if_neg (Nat.not_lt_zero c))
  exact ⟨m', hok, henc.congr fun r _ c hc => (if_pos hc).symm⟩

/-- The pass of such a loop when only row `j` changes. -/
theorem Enc.setMixed (h : Enc rows cols m (mixColumns A A' x)) (hj : j < rows) (hx : x < cols)
    (v : Byte) (hv : A' j x = v) (hother : ∀ r, r ≠ j → A' r x = A r x) :
    Enc rows cols (Function.update m (j * cols + x) v.toNat) (mixColumns A A' (x + 1)) := by
  refine (h.update hj hx v).congr fun r _ c _ => ?_
  by_cases hrj : r = j
  · subst hrj
    rw [Function.update_self]
    by_cases hcx : c = x
    · subst hcx
      rw [Function.update_self, ← hv]
      exact if_pos (Nat.lt_succ_self c)
    · rw [Function.update_of_ne hcx]
      exact if_congr (by omega) rfl rfl
  · rw [Function.update_of_ne hrj]
    by_cases hcx : c = x
    · subst hcx
      rw [mixColumns, mixColumns, if_pos (Nat.lt_succ_self c), if_neg (lt_irrefl c), hother r hrj]
    · exact if_congr (by omega) rfl rfl

/-- An entry that has not been reached. -/
theorem Enc.mixed_read (h : Enc rows cols m (mixColumns A A' x)) {r : ℕ} (hr : r < rows)
    (hx : x < cols) :
    m (r * cols + x) = (A r x).toNat := by
  rw [h r hr x hx, mixColumns, if_neg (lt_irrefl x)]

theorem scaleEntry_ok (h : Enc rows cols m A) (hi : i < rows) (c : Byte) :
    ∃ m', (List.range cols).foldlM (scaleEntry fieldPower c.toNat (i * cols)) m = .ok m' ∧
      Enc rows cols m' (scaleRow A i c) := by
  refine h.rowLoop fun m x hx hm => ?_
  rw [scaleEntry, hm.mixed_read hi hx, galoisSingleMultiply_eq, Loops.ok_bind]
  refine ⟨_, rfl, hm.setMixed hi hx _ ?_ fun r hr => ?_⟩
  · rw [scaleRow, Function.update_self]
  · rw [scaleRow, Function.update_of_ne hr]

theorem addEntry_ok (h : Enc rows cols m A) (hi : i < rows) (hj : j < rows) (c : Byte) :
    ∃ m', (List.range cols).foldlM (addEntry fieldPower c.toNat (i * cols) (j * cols)) m = .ok m' ∧
      Enc rows cols m' (addRow A j i c) := by
  refine h.rowLoop fun m x hx hm => ?_
  rw [addEntry, hm.mixed_read hi hx, galoisSingleMultiply_eq, Loops.ok_bind, hm.mixed_read hj hx,
    toNat_add_eq_xor]
  refine ⟨_, rfl, hm.setMixed hj hx _ ?_ fun r hr => ?_⟩
  · rw [addRow, Function.update_self]
  · rw [addRow, Function.update_of_ne hr]

theorem xorEntry_ok (h : Enc rows cols m A) (hi : i < rows) (hj : j < rows) :
    ∃ m', (List.range cols).foldlM (xorEntry (i * cols) (j * cols)) m = .ok m' ∧
      Enc rows cols m' (addRow A j i 1) := by
  refine h.rowLoop fun m x hx hm => ?_
  rw [xorEntry, hm.mixed_read hi hx, hm.mixed_read hj hx, toNat_add_eq_xor]
  refine ⟨_, rfl, hm.setMixed hj hx _ ?_ fun r hr => ?_⟩
  · rw [addRow, Function.update_self, one_mul]
  · rw [addRow, Function.update_of_ne hr]

theorem swapEntry_ok (h : Enc rows cols m A) (hi : i < rows) (hj : j < rows) (hij : i ≠ j) :
    ∃ m', (List.range cols).foldlM (swapEntry (i * cols) (j * cols)) m = .ok m' ∧
      Enc rows cols m' (swapRows A i j) := by
  refine h.rowLoop fun m x hx hm => ?_
  rw [swapEntry]
  rw [hm.mixed_read hi hx, hm.mixed_read hj hx]
  refine ⟨_, rfl, ((hm.update hi hx (A j x)).update hj hx (A i x)).congr fun r _ c _ => ?_⟩
  by_cases hcx : c = x
  · subst hcx
    rw [mixColumns, if_pos (Nat.lt_succ_self c), swapRows]
    by_cases hrj : r = j
    · subst hrj
      rw [Equiv.swap_apply_right, Function.update_self, Function.update_self]
    by_cases hri : r = i
    · subst hri
      rw [Equiv.swap_apply_left, Function.update_of_ne hrj, Function.update_self,
        Function.update_self]
    · rw [Equiv.swap_apply_of_ne_of_ne hri hrj, Function.update_of_ne hrj,
        Function.update_of_ne hri, mixColumns, if_neg (lt_irrefl c)]
  · have hrow : Function.update (Function.update (mixColumns A (swapRows A i j) x) i
        (Function.update (mixColumns A (swapRows A i j) x i) x (A j x))) j
        (Function.update (Function.update (mixColumns A (swapRows A i j) x) i
          (Function.update (mixColumns A (swapRows A i j) x i) x (A j x)) j) x (A i x)) r c =
        mixColumns A (swapRows A i j) x r c := by
      by_cases hrj : r = j
      · subst hrj
        rw [Function.update_self, Function.update_of_ne hcx, Function.update_of_ne hij.symm]
      by_cases hri : r = i
      · subst hri
        rw [Function.update_of_ne hrj, Function.update_self, Function.update_of_ne hcx]
      · rw [Function.update_of_ne hrj, Function.update_of_ne hri]
    rw [hrow]
    exact if_congr (by omega) rfl rfl

end Enc

/-! ### The first half -/

/-- The arrays hold matrices that come from `A₀` and the unit matrix by the same operations. -/
structure Reduced (withInv : Bool) (n : ℕ) (A₀ : ℕ → ℕ → Byte) (s : (ℕ → ℕ) × (ℕ → ℕ))
    (A B : ℕ → ℕ → Byte) :
    Prop where
  /-- `mat`. -/
  mat : Enc n n s.1 A
  /-- `inv`. -/
  inv : withInv = true → Enc n n s.2 B
  /-- The operations. -/
  tracks : Tracks n A₀ A B

section Reduced

variable {withInv : Bool} {n i : ℕ} {A₀ A B : ℕ → ℕ → Byte} {s : (ℕ → ℕ) × (ℕ → ℕ)}

/-- A loop over a row does the same to both arrays. -/
theorem Reduced.rowLoop {f : (ℕ → ℕ) → ℕ → Except CodingError (ℕ → ℕ)}
    {g : (ℕ → ℕ → Byte) → ℕ → ℕ → Byte} (h : Reduced withInv n A₀ s A B)
    (hf : ∀ m A, Enc n n m A → ∃ m', (List.range n).foldlM f m = .ok m' ∧
      Enc n n m' (g A)) (htracks : Tracks n A₀ (g A) (g B)) :
    ∃ s', rowLoop withInv n f s = .ok s' ∧ Reduced withInv n A₀ s' (g A) (g B) := by
  obtain ⟨mat, inv⟩ := s
  obtain ⟨mat', hmat, hmat'⟩ := hf mat A h.mat
  cases withInv with
  | false =>
      refine ⟨(mat', inv), ?_, hmat', fun hinv => (by cases hinv), htracks⟩
      have hconst : (List.range n).foldlM
          (fun t (_ : ℕ) => (.ok t : Except CodingError (ℕ → ℕ))) inv = .ok
            ((List.range n).foldl (fun t _ => t) inv) := Loops.foldlM_ok (fun _ _ _ => rfl) inv
      rw [Loops.foldl_frame (fun t => t) (fun _ _ _ => rfl)] at hconst
      exact Loops.foldlM_prod hmat hconst
  | true =>
      obtain ⟨inv', hinv, hinv'⟩ := hf inv B (h.inv rfl)
      exact ⟨(mat', inv'), Loops.foldlM_prod hmat hinv, hmat', fun _ => hinv', htracks⟩

/-- Some vector other than zero is mapped to zero. -/
def Singular (n : ℕ) (A : ℕ → ℕ → Byte) : Prop := ∃ v, Kills n n A v ∧ ∃ j < n, v j ≠ 0

/-- The search for a pivot. -/
theorem findPivotRow_some (h : Enc n n s.1 A) (hi : i < n) {j : ℕ}
    (hfind : findPivotRow n n i s.1 = some j) :
    i < j ∧ j < n ∧ A j i ≠ 0 := by
  have hmem := List.mem_range'_1.1 (List.mem_of_find?_eq_some hfind)
  have hne := List.find?_some hfind
  have hj : j < n := by omega
  refine ⟨by omega, hj, fun hzero => ?_⟩
  rw [Nat.mul_comm, h j hj i hi, hzero] at hne
  simp at hne

theorem findPivotRow_none (h : Enc n n s.1 A) (hi : i < n) (hfind : findPivotRow n n i s.1 = none) :
    ∀ j < n, i < j → A j i = 0 := by
  intro j hj hij
  have hzero := List.find?_eq_none.1 hfind j (List.mem_range'_1.2 ⟨hij, by omega⟩)
  rw [Nat.mul_comm, h j hj i hi] at hzero
  simpa [Byte.toNat_eq_zero] using hzero

/-- A pivot is put on the diagonal, or there is none. -/
theorem swapPivot_spec (h : Reduced withInv n A₀ s A B) (hup : UnitUpper n i A) (hi : i < n) :
    (swapPivot withInv n i s = .ok none ∧ Singular n A₀) ∨
      ∃ s' A' B', swapPivot withInv n i s = .ok (some s') ∧
      Reduced withInv n A₀ s' A' B' ∧ UnitUpper n i A' ∧
        A' i i ≠ 0 := by
  have hdiag := h.mat i hi i hi
  by_cases hzero : A i i = 0
  · have hentry : s.1 (n * i + i) = 0 := by rw [Nat.mul_comm, hdiag, hzero, Byte.toNat_zero]
    cases hfind : findPivotRow n n i s.1 with
    | none =>
        have hbelow := findPivotRow_none h.mat hi hfind
        obtain ⟨v, hv, hne⟩ := exists_killed (k := n) (A := A) hi fun r hr hir c hc => by
          rcases Nat.lt_or_eq_of_le hc with hlt | rfl
          · rw [hup c hlt r hr (by omega), unit, if_neg (by omega)]
          · rcases Nat.lt_or_eq_of_le hir with hlt | rfl
            · exact hbelow r hr hlt
            · exact hzero
        refine .inl ⟨?_, v, h.tracks.kernel v hv, hne⟩
        rw [swapPivot, if_pos hentry, hfind]
    | some j =>
        obtain ⟨hij, hj, hpivot⟩ := findPivotRow_some h.mat hi hfind
        obtain ⟨s', hok, hs'⟩ := h.rowLoop (g := fun A => swapRows A i j)
          (fun m A hm => swapEntry_ok hm hi hj hij.ne) (h.tracks.swapRows hi hj)
        refine .inr ⟨s', _, _, ?_, hs', fun c hc r hr hcr => ?_, ?_⟩
        · rw [swapPivot, if_pos hentry, hfind]
          dsimp only
          rw [Nat.mul_comm n i, hok]
          rfl
        · by_cases hri : r = i
          · subst hri
            rw [swapRows, Equiv.swap_apply_left, hup c hc j hj (by omega), unit, unit,
              if_neg (by omega), if_neg (by omega)]
          by_cases hrj : r = j
          · subst hrj
            rw [swapRows, Equiv.swap_apply_right, hup c hc i hi (by omega), unit, unit,
              if_neg (by omega), if_neg (by omega)]
          · rw [swapRows, Equiv.swap_apply_of_ne_of_ne hri hrj]
            exact hup c hc r hr hcr
        · rw [swapRows, Equiv.swap_apply_left]
          exact hpivot
  · refine .inr ⟨s, A, B, ?_, h, hup, hzero⟩
    rw [swapPivot, if_neg]
    rw [Nat.mul_comm, hdiag]
    exact fun hnat => hzero (Byte.toNat_eq_zero.1 hnat)

/-- The pivot is made one. -/
theorem scalePivot_spec (h : Reduced withInv n A₀ s A B) (hup : UnitUpper n i A) (hi : i < n)
    (hpivot : A i i ≠ 0) :
    ∃ s' A' B', scalePivot withInv n fieldPower i s = .ok s' ∧
    Reduced withInv n A₀ s' A' B' ∧ UnitUpper n i A' ∧
      A' i i = 1 := by
  have hdiag := h.mat i hi i hi
  rw [scalePivot, Nat.mul_comm n i, hdiag]
  by_cases hone : A i i = 1
  · refine ⟨s, A, B, ?_, h, hup, hone⟩
    rw [hone, if_neg]
    · rfl
    · exact fun hne => hne rfl
  · have hdivide := galoisSingleDivide_eq 1 hpivot
    obtain ⟨s', hok, hs'⟩ := h.rowLoop (g := fun A' => scaleRow A' i (1 / A i i))
      (fun m A' hm => scaleEntry_ok hm hi (1 / A i i)) (h.tracks.scaleRow (one_div_ne_zero hpivot))
    refine ⟨s', _, _, ?_, hs', fun c hc r hr hcr => ?_, ?_⟩
    · have hne : (A i i).toNat ≠ 1 := fun hnat => hone (Byte.toNat_injective hnat)
      rw [if_pos hne]
      change (galoisSingleDivide (1 : Byte).toNat (A i i).toNat fieldPower >>= _) = _
      rw [hdivide, Loops.ok_bind, Int.toNat_natCast, hok]
    · by_cases hri : r = i
      · subst hri
        rw [scaleRow, Function.update_self, hup c hc r hr hcr, unit, if_neg (by omega), zero_mul]
      · rw [scaleRow, Function.update_of_ne hri]
        exact hup c hc r hr hcr
    · rw [scaleRow, Function.update_self, mul_one_div_cancel hpivot]

/-- The rows below are cleared. -/
theorem clearBelow_spec (h : Reduced withInv n A₀ s A B) (hup : UnitUpper n i A) (hi : i < n)
    (hone : A i i = 1) :
    ∃ s' A' B', (List.range' (i + 1) (n - (i + 1))).foldlM
      (clearBelow withInv n fieldPower i) s = .ok s' ∧ Reduced withInv n A₀ s' A' B' ∧ UnitUpper n
        (i + 1) A' := by
  let P : ℕ → (ℕ → ℕ) × (ℕ → ℕ) → Prop := fun j s => ∃ A B, Reduced withInv n A₀ s A B ∧
    UnitUpper n i A ∧ A i i = 1 ∧ ∀ r, i < r → r < j → A r i = 0
  have hpass : ∀ j, i + 1 ≤ j → j < i + 1 + (n - (i + 1)) → ∀ s, P j s →
      ∃ s', clearBelow withInv n fieldPower i s j = .ok s' ∧ P (j + 1) s' := by
    intro j hj hjn s hs
    obtain ⟨A, B, hred, hup, hone, hbelow⟩ := hs
    have hij : i ≠ j := by omega
    have hjn' : j < n := by omega
    have hentry := hred.mat j hjn' i hi
    rw [clearBelow, Nat.mul_comm n j, Nat.mul_comm n i, hentry]
    by_cases hzero : A j i = 0
    · refine ⟨s, if_neg (not_not.2 (Byte.toNat_eq_zero.2 hzero)), A, B, hred, hup, hone,
        fun r hir hr => ?_⟩
      rcases Nat.lt_succ_iff_lt_or_eq.1 hr with hlt | rfl
      · exact hbelow r hir hlt
      · exact hzero
    -- in either branch the entry times row `i` is added
    have hstep : ∃ s', (if (A j i).toNat = 1 then rowLoop withInv n (xorEntry (i * n) (j * n)) s
        else rowLoop withInv n (addEntry fieldPower (A j i).toNat (i * n) (j * n)) s) = .ok s' ∧
        Reduced withInv n A₀ s' (addRow A j i (A j i)) (addRow B j i (A j i)) := by
      by_cases hunit : A j i = 1
      · obtain ⟨s', hok, hs'⟩ := hred.rowLoop (g := fun A => addRow A j i 1)
          (fun m A hm => xorEntry_ok hm hi hjn') (hred.tracks.addRow hi hij 1)
        rw [hunit]
        exact ⟨s', hok, hs'⟩
      · have hne : (A j i).toNat ≠ 1 := fun hnat => hunit (Byte.toNat_injective hnat)
        rw [if_neg hne]
        exact hred.rowLoop (g := fun A' => addRow A' j i (A j i))
          (fun m A' hm => addEntry_ok hm hi hjn' (A j i)) (hred.tracks.addRow hi hij (A j i))
    obtain ⟨s', hok, hs'⟩ := hstep
    refine ⟨s', (if_pos (mt Byte.toNat_eq_zero.1 hzero)).trans hok, _, _, hs',
      fun c hc r hr hcr => ?_, ?_, fun r hir hr => ?_⟩
    · by_cases hrj : r = j
      · subst hrj
        rw [addRow, Function.update_self, hup c hc r hr hcr, hup c hc i hi hc.le, unit, unit,
          if_neg (by omega), if_neg (by omega), mul_zero, add_zero]
      · rw [addRow, Function.update_of_ne hrj]
        exact hup c hc r hr hcr
    · rw [addRow, Function.update_of_ne hij]
      exact hone
    · by_cases hrj : r = j
      · subst hrj
        rw [addRow, Function.update_self, hone, mul_one]
        exact ZModModule.add_self (A r i)
      · rw [addRow, Function.update_of_ne hrj]
        exact hbelow r hir (by omega)
  obtain ⟨s', hok, A', B', hs', hup', hone', hbelow⟩ := Loops.foldlM_range' P hpass
    ⟨A, B, h, hup, hone, fun r hir hr => absurd hr (by omega)⟩
  refine ⟨s', A', B', hok, hs', fun c hc r hr hcr => ?_⟩
  rcases Nat.lt_succ_iff_lt_or_eq.1 hc with hlt | rfl
  · exact hup' c hlt r hr hcr
  rcases Nat.lt_or_eq_of_le hcr with hlt | rfl
  · rw [hbelow r hlt (by omega), unit, if_neg hlt.ne']
  · rw [hone', unit, if_pos rfl]

/-- **The first half** makes the matrix upper triangular, or it has no inverse. -/
theorem upperTriangular_spec (h : Reduced withInv n A₀ s A B) :
    (upperTriangular withInv n fieldPower s = .ok none ∧ Singular n A₀) ∨
      ∃ s' A' B', upperTriangular withInv n fieldPower s = .ok (some s') ∧
      Reduced withInv n A₀ s' A' B' ∧
        UnitUpper n n A' := by
  let P : ℕ → Option ((ℕ → ℕ) × (ℕ → ℕ)) → Prop := fun i acc => (acc = none ∧ Singular n A₀) ∨
    ∃ s A B, acc = some s ∧ Reduced withInv n A₀ s A B ∧ UnitUpper n i A
  have hpass : ∀ i < n, ∀ acc, P i acc →
      ∃ acc', triangularColumn withInv n fieldPower acc i = .ok acc' ∧ P (i + 1) acc' := by
    intro i hi acc hacc
    rcases hacc with ⟨rfl, hsingular⟩ | ⟨s, A, B, rfl, hs, hup⟩
    · exact ⟨none, rfl, .inl ⟨rfl, hsingular⟩⟩
    · rw [triangularColumn]
      rcases swapPivot_spec hs hup hi with ⟨hswap, hsingular⟩ | ⟨s₁, A₁, B₁, hswap, hs₁,
        hup₁, hpivot⟩
      · rw [hswap]
        exact ⟨none, rfl, .inl ⟨rfl, hsingular⟩⟩
      · obtain ⟨s₂, A₂, B₂, hscale, hs₂, hup₂, hone⟩ := scalePivot_spec hs₁ hup₁ hi hpivot
        obtain ⟨s₃, A₃, B₃, hclear, hs₃, hup₃⟩ := clearBelow_spec hs₂ hup₂ hi hone
        rw [hswap, Loops.ok_bind]
        dsimp only
        rw [hscale, Loops.ok_bind, hclear]
        exact ⟨some s₃, rfl, .inr ⟨s₃, A₃, B₃, rfl, hs₃, hup₃⟩⟩
  obtain ⟨acc, hok, hacc⟩ := Loops.foldlM_range P hpass
    (.inr ⟨s, A, B, rfl, h, fun c hc => absurd hc (Nat.not_lt_zero c)⟩)
  rw [upperTriangular, hok]
  rcases hacc with ⟨rfl, hsingular⟩ | ⟨s', A', B', rfl, hs', hup⟩
  · exact .inl ⟨rfl, hsingular⟩
  · exact .inr ⟨s', A', B', rfl, hs', hup⟩

end Reduced

/-! ### The second half -/

section MultiplyDown

variable {n i : ℕ} {A₀ A B : ℕ → ℕ → Byte} {s : (ℕ → ℕ) × (ℕ → ℕ)}

/-- The diagonal element of row `i` is all there is in the row. -/
theorem row_eq_unit (hup : UnitUpper n n A) (hcleared : Cleared n (i + 1) A) (hi : i < n) :
    ∀ c < n, A i c = unit i c := by
  intro c hc
  rcases Nat.lt_or_ge i c with hlt | hge
  · exact hcleared c hc hlt i hi
  · exact hup c hc i hi hge

/-- An entry above the diagonal is cleared. -/
theorem clearAbove_spec {j : ℕ} (h : Reduced true n A₀ s A B) (hup : UnitUpper n n A)
    (hcleared : Cleared n (i + 1) A) (hi : i < n) (hj : j < i) :
    ∃ s' A' B', clearAbove n fieldPower i s j = .ok s' ∧ Reduced true n A₀ s' A' B' ∧
      (∀ r < n, ∀ c < n, A' r c = if r = j ∧ c = i then 0 else A r c) := by
  have hjn : j < n := by omega
  have hrow := row_eq_unit hup hcleared hi
  rw [clearAbove, h.mat j hjn i hi]
  by_cases hzero : A j i = 0
  · refine ⟨s, A, B, if_neg (not_not.2 (Byte.toNat_eq_zero.2 hzero)), h, fun r _ c _ => ?_⟩
    split
    · rename_i hand
      rw [hand.1, hand.2, hzero]
    · rfl
  · obtain ⟨inv', hok, hinv'⟩ := addEntry_ok (h.inv rfl) hi hjn (A j i)
    have hentry : ∀ r < n, ∀ c < n, addRow A j i (A j i) r c = if r = j ∧ c = i then 0
        else A r c := by
      intro r hr c hc
      by_cases hrj : r = j
      · subst hrj
        rw [addRow, Function.update_self, hrow c hc, unit]
        by_cases hci : c = i
        · subst hci
          rw [if_pos rfl, if_pos ⟨rfl, rfl⟩, mul_one]
          exact ZModModule.add_self (A r c)
        · rw [if_neg (Ne.symm hci), if_neg fun hand => hci hand.2, mul_zero, add_zero]
      · rw [addRow, Function.update_of_ne hrj, if_neg fun hand => hrj hand.1]
    refine ⟨(Function.update s.1 (j * n + i) 0, inv'), addRow A j i (A j i), addRow B j i
      (A j i), ?_,
      ⟨?_, fun _ => hinv', h.tracks.addRow hi (by omega) _⟩, hentry⟩
    · rw [if_pos (mt Byte.toNat_eq_zero.1 hzero), hok]
      rfl
    · refine (h.mat.update hjn hi 0).congr fun r hr c hc => ?_
      rw [hentry r hr c hc]
      by_cases hrj : r = j
      · subst hrj
        rw [Function.update_self]
        by_cases hci : c = i
        · subst hci
          rw [Function.update_self, if_pos ⟨rfl, rfl⟩]
        · rw [Function.update_of_ne hci, if_neg fun hand => hci hand.2]
      · rw [Function.update_of_ne hrj, if_neg fun hand => hrj hand.1]

/-- **The second half** leaves the unit matrix. -/
theorem multiplyDown_spec (h : Reduced true n A₀ s A B) (hup : UnitUpper n n A) :
    ∃ s' A' B', multiplyDown n fieldPower s = .ok s' ∧ Reduced true n A₀ s' A' B' ∧
      ∀ r < n, ∀ c < n, A' r c = unit r c := by
  let P : ℕ → (ℕ → ℕ) × (ℕ → ℕ) → Prop := fun i s => ∃ A B, Reduced true n A₀ s A B ∧
    UnitUpper n n A ∧ Cleared n i A
  have hcolumn : ∀ i < n, ∀ s, P (i + 1) s →
      ∃ s', (List.range i).foldlM (clearAbove n fieldPower i) s = .ok s' ∧ P i s' := by
    intro i hi s hs
    obtain ⟨A, B, hred, hup, hcleared⟩ := hs
    let Q : ℕ → (ℕ → ℕ) × (ℕ → ℕ) → Prop := fun j s => ∃ A B,
      Reduced true n A₀ s A B ∧ UnitUpper n n A ∧ Cleared n (i + 1) A ∧ ∀ r < j, A r i = 0
    have hpass : ∀ j < i, ∀ s, Q j s → ∃ s', clearAbove n fieldPower i s j = .ok s' ∧ Q
        (j + 1) s' := by
      intro j hj s hs
      obtain ⟨A, B, hred, hup, hcleared, habove⟩ := hs
      obtain ⟨s', A', B', hok, hred', hA'⟩ := clearAbove_spec hred hup hcleared hi hj
      refine ⟨s', hok, A', B', hred', fun c hc r hr hcr => ?_, fun c hc hic r hr => ?_,
        fun r hr => ?_⟩
      · rw [hA' r hr c hc, if_neg (by omega)]
        exact hup c hc r hr hcr
      · rw [hA' r hr c hc, if_neg (by omega)]
        exact hcleared c hc hic r hr
      · rw [hA' r (by omega) i hi]
        split
        · rfl
        · exact habove r (by omega)
    obtain ⟨s', hok, A', B', hred', hup', hcleared', habove⟩ := Loops.foldlM_range Q hpass
      ⟨A, B, hred, hup, hcleared, fun r hr => absurd hr (Nat.not_lt_zero r)⟩
    refine ⟨s', hok, A', B', hred', hup', fun c hc hic r hr => ?_⟩
    rcases Nat.lt_or_eq_of_le hic with hlt | rfl
    · exact hcleared' c hc hlt r hr
    rcases Nat.lt_or_ge r i with hlt | hge
    · rw [habove r hlt, unit, if_neg hlt.ne]
    · exact hup' i hc r hr hge
  obtain ⟨s', hok, A', B', hred', -, hcleared⟩ := Loops.foldlM_range_reverse P hcolumn
    ⟨A, B, h, hup, fun c hc hnc => absurd hc (by omega)⟩
  exact ⟨s', A', B', hok, hred', fun r hr c hc => hcleared c hc (Nat.zero_le c) r hr⟩

end MultiplyDown

/-! ### The functions as wholes -/

theorem unitMatrix_enc (n : ℕ) (inv : ℕ → ℕ) : Enc n n (unitMatrix n inv) unit := by
  have hrow : ∀ i (acc : (ℕ → ℕ) × ℕ), (acc.2 = i * n ∧ Enc i n acc.1 unit) →
      ((List.range n).foldl (fun (acc : (ℕ → ℕ) × ℕ) j =>
        (Function.update acc.1 acc.2 (if i = j then 1 else 0), acc.2 + 1)) acc).2 = (i + 1) * n ∧
      Enc (i + 1) n ((List.range n).foldl (fun (acc : (ℕ → ℕ) × ℕ) j =>
        (Function.update acc.1 acc.2 (if i = j then 1 else 0), acc.2 + 1)) acc).1 unit := by
    intro i acc hacc
    have hloop := Loops.foldl_range (n := n) (s := acc) (f := fun (acc : (ℕ → ℕ) × ℕ) j =>
        (Function.update acc.1 acc.2 (if i = j then 1 else 0), acc.2 + 1))
      (fun j acc => acc.2 = i * n + j ∧ Enc i n acc.1 unit ∧ ∀ c < j,
        acc.1 (i * n + c) = (unit i c : Byte).toNat)
      (fun j hj acc hacc => ?_) ⟨hacc.1, hacc.2, fun c hc => absurd hc (Nat.not_lt_zero c)⟩
    · obtain ⟨hcount, hbefore, hlast⟩ := hloop
      refine ⟨by rw [hcount]; ring, fun r hr c hc => ?_⟩
      rcases Nat.lt_succ_iff_lt_or_eq.1 hr with hlt | rfl
      · exact hbefore r hlt c hc
      · exact hlast c hc
    · obtain ⟨hcount, hbefore, hlast⟩ := hacc
      refine ⟨by rw [hcount]; ring, fun r hr c hc => ?_, fun c hc => ?_⟩
      · dsimp only
        rw [hcount, Function.update_of_ne fun heq => hr.ne (rowIndex_inj hc hj heq).1]
        exact hbefore r hr c hc
      · dsimp only
        rw [hcount]
        rcases Nat.lt_succ_iff_lt_or_eq.1 hc with hlt | rfl
        · rw [Function.update_of_ne (by omega)]
          exact hlast c hlt
        · rw [Function.update_self, unit]
          split <;> rfl
  exact (Loops.foldl_range (s := (inv, 0))
    (fun i (acc : (ℕ → ℕ) × ℕ) => acc.2 = i * n ∧ Enc i n acc.1 unit)
    (fun i _ acc hacc => hrow i acc hacc) ⟨(Nat.zero_mul n).symm, fun r hr => absurd hr
      (Nat.not_lt_zero r)⟩).2

section Functions

variable {n : ℕ} {mat : ℕ → ℕ} {A : ℕ → ℕ → Byte}

/-- The matrix is inverted, or it has no inverse. -/
theorem jerasureInvertMatrix_spec (hmat : Enc n n mat A) (inv : ℕ → ℕ) :
    (jerasureInvertMatrix mat inv n fieldPower = .ok none ∧ Singular n A) ∨
      ∃ inv' B, jerasureInvertMatrix mat inv n fieldPower = .ok (some inv') ∧ Enc n n inv' B ∧
        ∀ i < n, ∀ j < n, dot n (B i) (fun l => A l j) = unit i j := by
  have hstart : Reduced true n A (mat, unitMatrix n inv) A unit :=
    ⟨hmat, fun _ => unitMatrix_enc n inv, .start n A⟩
  rw [jerasureInvertMatrix]
  rcases upperTriangular_spec hstart with ⟨hnone, hsingular⟩ | ⟨s₁, A₁, B₁, hok₁, hred₁, hup⟩
  · rw [hnone]
    exact .inl ⟨rfl, hsingular⟩
  · obtain ⟨s₂, A₂, B₂, hok₂, hred₂, hunit⟩ := multiplyDown_spec hred₁ hup
    rw [hok₁, Loops.ok_bind]
    dsimp only
    rw [hok₂]
    exact .inr ⟨s₂.2, B₂, rfl, hred₂.inv rfl, hred₂.tracks.inverse hunit⟩

/-- The test of a matrix. -/
theorem jerasureInvertibleMatrix_spec (hmat : Enc n n mat A) :
    (jerasureInvertibleMatrix mat n fieldPower = .ok false ∧ Singular n A) ∨
      (jerasureInvertibleMatrix mat n fieldPower = .ok true ∧ ∀ v, Kills n n A v → ∀ j < n,
        v j = 0) := by
  have hstart : Reduced false n A (mat, fun _ => 0) A unit :=
    ⟨hmat, fun hinv => (by cases hinv), .start n A⟩
  rw [jerasureInvertibleMatrix]
  rcases upperTriangular_spec hstart with ⟨hnone, hsingular⟩ | ⟨s₁, A₁, B₁, hok₁, hred₁, hup⟩
  · rw [hnone]
    exact .inl ⟨rfl, hsingular⟩
  · rw [hok₁]
    exact .inr ⟨rfl, fun v hv => hup.eq_zero (hred₁.tracks.kills hv)⟩

end Functions

/-- A matrix whose rows map another vector to zero is not invertible. -/
theorem Singular.not_isUnit {n : ℕ} {A' : ℕ → ℕ → Byte} {A : Matrix (Fin n) (Fin n) Byte}
    (hA : ∀ i j : Fin n, A' i j = A i j) (h : Singular n A') : ¬ IsUnit A := by
  obtain ⟨v, hv, j, hj, hne⟩ := h
  intro hunit
  have hdet : A.det = 0 := by
    refine Matrix.exists_mulVec_eq_zero_iff.1
      ⟨fun c : Fin n => v c, fun hzero => hne (congrFun hzero ⟨j, hj⟩), ?_⟩
    funext i
    refine Eq.trans ?_ (hv i i.isLt)
    rw [dot, Finset.sum_range, Matrix.mulVec, dotProduct]
    exact Finset.sum_congr rfl fun c _ => by rw [hA]
  rw [Matrix.isUnit_iff_isUnit_det, hdet] at hunit
  exact not_isUnit_zero hunit

/-- **`jerasure_invert_matrix`** inverts the invertible matrices, returns `-1` for the others, and
`jerasure_invertible_matrix` tells them apart. -/
theorem jerasureInvertMatrix_iff {n : ℕ} (A : Matrix (Fin n) (Fin n) Byte) (mat inv : ℕ → ℕ)
    (hmat : ∀ i j : Fin n, mat (i * n + j) = (A i j).toNat) :
    (IsUnit A → jerasureInvertibleMatrix mat n fieldPower = .ok true ∧
      ∃ inv', jerasureInvertMatrix mat inv n fieldPower = .ok (some inv') ∧
        ∀ i j : Fin n, inv' (i * n + j) = (A⁻¹ i j).toNat) ∧
      (¬ IsUnit A → jerasureInvertibleMatrix mat n fieldPower = .ok false ∧
        jerasureInvertMatrix mat inv n fieldPower = .ok none) := by
  let A' : ℕ → ℕ → Byte := fun r c => Byte.ofNat (mat (r * n + c))
  have hA : ∀ i j : Fin n, A' i j = A i j := fun i j => by rw [← Byte.ofNat_toNat (A i j), ← hmat]
  have henc : Enc n n mat A' := fun r hr c hc => by
    rw [hA ⟨r, hr⟩ ⟨c, hc⟩]
    exact hmat ⟨r, hr⟩ ⟨c, hc⟩
  constructor
  · intro hunit
    constructor
    · rcases jerasureInvertibleMatrix_spec henc with ⟨-, hsingular⟩ | ⟨hok, -⟩
      · exact absurd hunit (hsingular.not_isUnit hA)
      · exact hok
    · rcases jerasureInvertMatrix_spec henc inv with ⟨-, hsingular⟩ | ⟨inv', B, hok, hB, hinverse⟩
      · exact absurd hunit (hsingular.not_isUnit hA)
      · refine ⟨inv', hok, fun i j => ?_⟩
        have hleft : (Matrix.of fun r c : Fin n => B r c) * A = 1 := by
          ext i j
          have hentry := hinverse i i.isLt j j.isLt
          rw [dot, Finset.sum_range] at hentry
          rw [Matrix.mul_apply, Matrix.one_apply]
          refine Eq.trans (Finset.sum_congr rfl fun l _ => ?_)
            (hentry.trans (if_congr Fin.ext_iff.symm rfl rfl))
          rw [Matrix.of_apply, hA]
        rw [hB i i.isLt j j.isLt, Matrix.inv_eq_left_inv hleft, Matrix.of_apply]
  · intro hunit
    have hne : ¬ ∀ v, Kills n n A' v → ∀ j < n, v j = 0 := by
      intro hkernel
      have hdet : A.det ≠ 0 := by
        intro hzero
        obtain ⟨v, hv, hmul⟩ := Matrix.exists_mulVec_eq_zero_iff.2 hzero
        refine hv (funext fun c => ?_)
        have hzero := hkernel (fun j => if h : j < n then v ⟨j, h⟩ else 0) (fun i hi => ?_) c c.isLt
        · rwa [dif_pos c.isLt] at hzero
        · refine Eq.trans ?_ (congrFun hmul ⟨i, hi⟩)
          rw [dot, Finset.sum_range, Matrix.mulVec, dotProduct]
          refine Finset.sum_congr rfl fun c _ => ?_
          rw [dif_pos c.isLt]
          exact congrArg (· * v c) (hA ⟨i, hi⟩ c)
      exact hunit ((Matrix.isUnit_iff_isUnit_det A).2 (isUnit_iff_ne_zero.2 hdet))
    constructor
    · rcases jerasureInvertibleMatrix_spec henc with ⟨hok, -⟩ | ⟨-, hkernel⟩
      · exact hok
      · exact absurd hkernel hne
    · rcases jerasureInvertMatrix_spec henc inv with ⟨hok, -⟩ | ⟨inv', B, -, -, hinverse⟩
      · exact hok
      · -- an inverse would leave nothing in the kernel
        refine absurd (fun v hv j hj => ?_) hne
        calc v j = dot n (unit j) v := (dot_unit hj v).symm
          _ = ∑ x ∈ Finset.range n, ∑ l ∈ Finset.range n, B j l * A' l x * v x := by
              refine Finset.sum_congr rfl fun x hx => ?_
              rw [← hinverse j hj x (Finset.mem_range.1 hx), dot, Finset.sum_mul]
          _ = ∑ l ∈ Finset.range n, B j l * dot n (A' l) v := by
              rw [Finset.sum_comm]
              refine Finset.sum_congr rfl fun l _ => ?_
              rw [dot, Finset.mul_sum]
              exact Finset.sum_congr rfl fun x _ => mul_assoc ..
          _ = 0 := Finset.sum_eq_zero fun l hl => by rw [hv l (Finset.mem_range.1 hl), mul_zero]

/-- A matrix whose rows have to change places. -/
theorem jerasureInvertMatrix_iff_antidiagonal :
    ∃ (A : Matrix (Fin 2) (Fin 2) Byte) (mat : ℕ → ℕ), IsUnit A ∧
    (∀ i j : Fin 2, mat (i * 2 + j) = (A i j).toNat) ∧
      ∃ inv', jerasureInvertMatrix mat (fun _ => 0) 2 fieldPower = .ok (some inv') ∧
        ∀ i j : Fin 2, inv' (i * 2 + j) = (A⁻¹ i j).toNat := by
  let A : Matrix (Fin 2) (Fin 2) Byte := !![0, 1; 1, 1]
  have hunit : IsUnit A := by
    rw [Matrix.isUnit_iff_isUnit_det, Matrix.det_fin_two_of]
    simp
  let mat : ℕ → ℕ := fun x => [0, 1, 1, 1].getD x 0
  have hmat : ∀ i j : Fin 2, mat (i * 2 + j) = (A i j).toNat := by
    intro i j
    fin_cases i <;> fin_cases j <;> rfl
  exact ⟨A, mat, hunit, hmat, ((jerasureInvertMatrix_iff A mat (fun _ => 0) hmat).1 hunit).2⟩

end Ncfs
