/-
**The generator matrix of the erasure coding library.**

`reed_sol_vandermonde_coding_matrix` starts from an extended Vandermonde matrix, turns its first
rows into those of the unit matrix with operations on columns, and makes the entries of row `cols`
and of the first column one.  All of these operations keep what the matrix is made for: any choice
of `cols` of its rows is invertible.

Main definitions:

* `Ncfs.reedSolExtendedVandermondeMatrix`, `Ncfs.reedSolBigVandermondeDistributionMatrix` — the
  matrices;
* `Ncfs.reedSolVandermondeCodingMatrix` — the rows below the unit matrix;
* `Ncfs.Distributes` — what the second matrix is after some of its rows.

Main results:

* `Ncfs.reedSolExtendedVandermondeMatrix_ok`, `Ncfs.reedSolBigVandermondeDistributionMatrix_ok` —
  they are made;
* `Ncfs.reedSolVandermondeCodingMatrix_mds` — any `k` rows of the generator are invertible.
-/
import FuseMdr.InvertMatrix
import FuseMdr.LinearCode

set_option relaxedAutoImplicit false
set_option autoImplicit false

namespace Ncfs

open Elimination

/-! ### The functions -/

/-- The loop over `j` that writes the powers of `i` into its row. -/
def powerRow (cols w : ℕ) (vdm : ℕ → ℕ) (i : ℕ) : Except CodingError (ℕ → ℕ) := do
  let (vdm, _) ← (List.range cols).foldlM (fun (acc : (ℕ → ℕ) × ℕ) j => do
    let k ← galoisSingleMultiply acc.2 i w
    return (Function.update acc.1 (i * cols + j) acc.2, k)) (vdm, 1)
  return vdm

/-- `reed_sol_extended_vandermonde_matrix`, in memory `vdm`.  No matrix stands for `NULL`. -/
def reedSolExtendedVandermondeMatrix (rows cols w : ℕ) (vdm : ℕ → ℕ) :
    Except CodingError (Option (ℕ → ℕ)) :=
  if w < 30 ∧ 1 <<< w < rows then .ok none
  else if w < 30 ∧ 1 <<< w < cols then .ok none
  else
    let vdm := Function.update vdm 0 1
    let vdm := (List.range' 1 (cols - 1)).foldl (fun vdm j => Function.update vdm j 0) vdm
    if rows = 1 then .ok (some vdm)
    else
      let i := (rows - 1) * cols
      let vdm := (List.range (cols - 1)).foldl (fun vdm j => Function.update vdm (i + j) 0) vdm
      let vdm := Function.update vdm (i + (cols - 1)) 1
      if rows = 2 then .ok (some vdm)
      else do return some (← (List.range' 1 (rows - 2)).foldlM (powerRow cols w) vdm)

/-- Column `i` is multiplied by `tmp`, in row `j`. -/
def scaleColumnEntry (w tmp cols i : ℕ) (dist : ℕ → ℕ) (j : ℕ) : Except CodingError (ℕ → ℕ) := do
  let v ← galoisSingleMultiply tmp (dist (j * cols + i)) w
  return Function.update dist (j * cols + i) v

/-- `tmp` times column `i` is added to column `j`, in row `k`. -/
def addColumnEntry (w tmp cols i j : ℕ) (dist : ℕ → ℕ) (k : ℕ) : Except CodingError (ℕ → ℕ) := do
  let v ← galoisSingleMultiply tmp (dist (k * cols + i)) w
  return Function.update dist (k * cols + j) (dist (k * cols + j) ^^^ v)

/-- The pass for an element of row `i` that is not in column `i`. -/
def clearInRow (rows cols w i : ℕ) (dist : ℕ → ℕ) (j : ℕ) : Except CodingError (ℕ → ℕ) :=
  let tmp := dist (i * cols + j)
  if j ≠ i ∧ tmp ≠ 0 then (List.range rows).foldlM (addColumnEntry w tmp cols i j) dist
    else .ok dist

/-- The loop that looks for a row whose element `i` is not zero. -/
def findDistRow (rows cols i : ℕ) (dist : ℕ → ℕ) : Option ℕ :=
  (List.range' i (rows - i)).find? fun j => dist (j * cols + i) ≠ 0

/-- Rows are swapped if necessary. -/
def swapDistRow (cols i j : ℕ) (dist : ℕ → ℕ) : Except CodingError (ℕ → ℕ) :=
  if j ≠ i then (List.range cols).foldlM (swapEntry (j * cols) (i * cols)) dist else .ok dist

/-- Element `i, i` is made one. -/
def scaleDistColumn (rows cols w i : ℕ) (dist : ℕ → ℕ) : Except CodingError (ℕ → ℕ) :=
  if dist (i * cols + i) ≠ 1 then do
    let tmp ← galoisSingleDivide 1 (dist (i * cols + i)) w
    (List.range rows).foldlM (scaleColumnEntry w tmp.toNat cols i) dist
  else .ok dist

/-- The pass of the first loop: row `i` becomes that of the unit matrix. -/
def unitDistRow (rows cols w : ℕ) (dist : ℕ → ℕ) (i : ℕ) : Except CodingError (ℕ → ℕ) :=
  match findDistRow rows cols i dist with
  | none => .error .exit
  | some j => do
      let dist ← swapDistRow cols i j dist
      let dist ← scaleDistColumn rows cols w i dist
      (List.range cols).foldlM (clearInRow rows cols w i) dist

/-- The pass of the second loop: column `j` is scaled below the unit matrix, so that row `cols`
starts with ones. -/
def onesInRow (rows cols w : ℕ) (dist : ℕ → ℕ) (j : ℕ) : Except CodingError (ℕ → ℕ) :=
  let tmp := dist (cols * cols + j)
  if tmp ≠ 1 then do
    let tmp ← galoisSingleDivide 1 tmp w
    (List.range' cols (rows - cols)).foldlM (scaleColumnEntry w tmp.toNat cols j) dist
  else .ok dist

/-- The pass of the third loop: row `i` is scaled. -/
def oneInColumn (cols w : ℕ) (dist : ℕ → ℕ) (i : ℕ) : Except CodingError (ℕ → ℕ) :=
  let tmp := dist (i * cols)
  if tmp ≠ 1 then do
    let tmp ← galoisSingleDivide 1 tmp w
    (List.range cols).foldlM (scaleEntry w tmp.toNat (i * cols)) dist
  else .ok dist

/-- `reed_sol_big_vandermonde_distribution_matrix`. -/
def reedSolBigVandermondeDistributionMatrix (rows cols w : ℕ) (memory : ℕ → ℕ) :
    Except CodingError (Option (ℕ → ℕ)) :=
  if rows ≤ cols then .ok none
  else do
    match ← reedSolExtendedVandermondeMatrix rows cols w memory with
    | none => return none
    | some dist =>
        let dist ← (List.range' 1 (cols - 1)).foldlM (unitDistRow rows cols w) dist
        let dist ← (List.range cols).foldlM (onesInRow rows cols w) dist
        return some (← (List.range' (cols + 1) (rows - (cols + 1))).foldlM
          (oneInColumn cols w) dist)

/-- `reed_sol_vandermonde_coding_matrix`: an array of `m * k` integers, or `NULL`. -/
def reedSolVandermondeCodingMatrix (k m w : ℕ) (memory : ℕ → ℕ) :
    Except CodingError (Option (List ℕ)) := do
  match ← reedSolBigVandermondeDistributionMatrix (k + m) k w memory with
  | none => return none
  | some vdm => return some ((List.range (m * k)).map fun j => vdm (k * k + j))

/-! ### Loops down a column -/

/-- Of the first `x` rows the entries are those of `A'`. -/
def mixRows (A A' : ℕ → ℕ → Byte) (x : ℕ) : ℕ → ℕ → Byte :=
  fun r c => if r < x then A' r c else A r c

section Columns

variable {rows cols i j r lo : ℕ} {m : ℕ → ℕ} {A A' : ℕ → ℕ → Byte}

/-- A loop that makes one row after the other that of `A'`. -/
theorem Enc.columnLoop {f : (ℕ → ℕ) → ℕ → Except CodingError (ℕ → ℕ)} (h : Enc rows cols m A)
    (hlo : lo ≤ rows) (hbefore : ∀ r < lo, ∀ c < cols, A' r c = A r c)
    (hf : ∀ m r, lo ≤ r → r < rows → Enc rows cols m (mixRows A A' r) →
      ∃ m', f m r = .ok m' ∧ Enc rows cols m' (mixRows A A' (r + 1))) :
    ∃ m', (List.range' lo (rows - lo)).foldlM f m = .ok m' ∧ Enc rows cols m' A' := by
  have hstart : Enc rows cols m (mixRows A A' lo) := by
    refine h.congr fun r _ c hc => ?_
    rw [mixRows]
    split
    · rename_i hr
      exact hbefore r hr c hc
    · rfl
  obtain ⟨m', hok, henc⟩ := Loops.foldlM_range' (a := lo) (n := rows - lo)
    (fun r m => Enc rows cols m (mixRows A A' r))
      (fun r hlo hr m hm => hf m r hlo (by omega) hm) hstart
  exact ⟨m', hok, henc.congr fun r hr c _ => (if_pos (by omega)).symm⟩

/-- The pass of such a loop when only column `j` changes. -/
theorem Enc.setMixedRow (h : Enc rows cols m (mixRows A A' r)) (hr : r < rows) (hj : j < cols)
    (v : Byte) (hv : A' r j = v) (hother : ∀ c, c ≠ j → A' r c = A r c) :
    Enc rows cols (Function.update m (r * cols + j) v.toNat) (mixRows A A' (r + 1)) := by
  refine (h.update hr hj v).congr fun r' _ c _ => ?_
  by_cases hrr : r' = r
  · subst hrr
    rw [Function.update_self, mixRows, if_pos (Nat.lt_succ_self r')]
    by_cases hcj : c = j
    · subst hcj
      rw [Function.update_self, hv]
    · rw [Function.update_of_ne hcj, mixRows, if_neg (lt_irrefl r'), hother c hcj]
  · rw [Function.update_of_ne hrr]
    exact if_congr (by omega) rfl rfl

/-- An entry that has not been reached. -/
theorem Enc.mixedRow_read (h : Enc rows cols m (mixRows A A' r)) (hr : r < rows) {c : ℕ}
    (hc : c < cols) :
    m (r * cols + c) = (A r c).toNat := by
  rw [h r hr c hc, mixRows, if_neg (lt_irrefl r)]

/-- Column `j` is scaled from row `lo` on. -/
theorem scaleColumnEntry_ok (h : Enc rows cols m A) (hlo : lo ≤ rows) (hj : j < cols) (t : Byte) :
    ∃ m', (List.range' lo (rows - lo)).foldlM
      (scaleColumnEntry fieldPower t.toNat cols j) m = .ok m' ∧ Enc rows cols m' fun r =>
      if lo ≤ r then scaleColumn A j t r else A r := by
  refine h.columnLoop hlo (fun r hr c _ => by rw [if_neg (not_le.2 hr)]) fun m r hlor hr hm => ?_
  rw [scaleColumnEntry, hm.mixedRow_read hr hj, galoisSingleMultiply_eq, Loops.ok_bind]
  refine ⟨_, rfl, hm.setMixedRow hr hj _ ?_ fun c hc => ?_⟩
  · rw [if_pos hlor, scaleColumn, Function.update_self]
  · rw [if_pos hlor, scaleColumn, Function.update_of_ne hc]

theorem addColumnEntry_ok (h : Enc rows cols m A) (hi : i < cols) (hj : j < cols) (t : Byte) :
    ∃ m', (List.range rows).foldlM (addColumnEntry fieldPower t.toNat cols i j) m = .ok m' ∧
      Enc rows cols m' (addColumn A j i t) := by
  rw [List.range_eq_range', ← Nat.sub_zero rows]
  refine h.columnLoop (Nat.zero_le rows) (fun r hr => absurd hr (Nat.not_lt_zero r))
    fun m r _ hr hm => ?_
  rw [addColumnEntry, hm.mixedRow_read hr hi, galoisSingleMultiply_eq, Loops.ok_bind,
    hm.mixedRow_read hr hj, toNat_add_eq_xor]
  refine ⟨_, rfl, hm.setMixedRow hr hj _ ?_ fun c hc => ?_⟩
  · rw [addColumn, Function.update_self]
  · rw [addColumn, Function.update_of_ne hc]

end Columns

/-! ### The extended Vandermonde matrix -/

/-- The matrix that the first function makes. -/
noncomputable def extendedVandermonde (rows cols : ℕ) : ℕ → ℕ → Byte :=
  vandermonde rows cols Byte.ofNat

/-- A row of powers. -/
theorem powerRow_ok (cols : ℕ) {i : ℕ} (hi : i < 256) (vdm : ℕ → ℕ) :
    ∃ vdm', powerRow cols fieldPower vdm i = .ok vdm' ∧
      (∀ c < cols, vdm' (i * cols + c) = (Byte.ofNat i ^ c).toNat) ∧
      ∀ x, (∀ c < cols, x ≠ i * cols + c) → vdm' x = vdm x := by
  let P : ℕ → (ℕ → ℕ) × ℕ → Prop := fun j acc => acc.2 = (Byte.ofNat i ^ j).toNat ∧
    (∀ c < j, acc.1 (i * cols + c) = (Byte.ofNat i ^ c).toNat) ∧
    ∀ x, (∀ c < j, x ≠ i * cols + c) → acc.1 x = vdm x
  have hpass : ∀ j < cols, ∀ acc, P j acc → ∃ acc', (do
      let k ← galoisSingleMultiply acc.2 i fieldPower
      return (Function.update acc.1 (i * cols + j) acc.2, k) : Except CodingError
        ((ℕ → ℕ) × ℕ)) = .ok acc' ∧ P (j + 1) acc' := by
    rintro j - ⟨m, k⟩ ⟨rfl, hdone, hrest⟩
    have hmul := galoisSingleMultiply_eq (Byte.ofNat i ^ j) (Byte.ofNat i)
    rw [Byte.toNat_ofNat_of_lt hi] at hmul
    rw [hmul, Loops.ok_bind, ← pow_succ]
    refine ⟨_, rfl, rfl, fun c hc => ?_, fun x hx => ?_⟩
    · rcases Nat.lt_succ_iff_lt_or_eq.1 hc with hc | rfl
      · exact (Function.update_of_ne (by omega) ..).trans (hdone c hc)
      · exact Function.update_self ..
    · refine (Function.update_of_ne (hx j (Nat.lt_succ_self j)) ..).trans
        (hrest x fun c hc => hx c ?_)
      omega
  have hstart : P 0 (vdm, 1) :=
    ⟨by rw [pow_zero]; rfl, fun c hc => absurd hc (Nat.not_lt_zero c), fun _ _ => rfl⟩
  obtain ⟨acc, hok, -, hrow, hrest⟩ := Loops.foldlM_range P hpass hstart
  refine ⟨acc.1, ?_, hrow, hrest⟩
  rw [powerRow]
  exact congrArg (fun r => r >>= fun x : (ℕ → ℕ) × ℕ => Except.ok x.1) hok

/-- The first row. -/
theorem firstRow_eq {cols : ℕ} (vdm : ℕ → ℕ) {c : ℕ} (hc : c < cols) :
    (List.range' 1 (cols - 1)).foldl (fun vdm j => Function.update vdm j 0)
    (Function.update vdm 0 1) c =
      (unit 0 c : Byte).toNat := by
  rw [List.range'_eq_map_range, List.foldl_map]
  have h := Loops.foldl_range (n := cols - 1) (s := Function.update vdm 0 1)
    (f := fun (vdm : ℕ → ℕ) x => Function.update vdm (1 + x) 0)
    (fun n vdm => ∀ c < n + 1, vdm c = (unit 0 c : Byte).toNat) (fun i _ vdm hvdm c hc => ?_)
      fun c hc => ?_
  · exact h c (by omega)
  · rcases Nat.lt_succ_iff_lt_or_eq.1 hc with hlt | rfl
    · rw [Function.update_of_ne (by omega)]
      exact hvdm c hlt
    · rw [Nat.add_comm 1 i, Function.update_self, unit, if_neg (by omega), Byte.toNat_zero]
  · obtain rfl : c = 0 := by omega
    rw [Function.update_self, unit, if_pos rfl]
    rfl

/-- The last row, which leaves the first one alone. -/
theorem lastRow_eq {cols i : ℕ} (hcols : 1 ≤ cols) (vdm : ℕ → ℕ) :
    (∀ c < cols, Function.update
      ((List.range (cols - 1)).foldl (fun vdm j => Function.update vdm (i + j) 0) vdm)
        (i + (cols - 1)) 1 (i + c) = (unit (cols - 1) c : Byte).toNat) ∧
      ∀ x < i, Function.update
        ((List.range (cols - 1)).foldl (fun vdm j => Function.update vdm (i + j) 0) vdm)
        (i + (cols - 1)) 1 x = vdm x := by
  have h := Loops.foldl_range (n := cols - 1) (s := vdm)
    (f := fun (vdm : ℕ → ℕ) j => Function.update vdm (i + j) 0)
    (fun n v => (∀ c < n, v (i + c) = 0) ∧ ∀ x < i, v x = vdm x) (fun j _ v hv => ?_)
    ⟨fun c hc => absurd hc (Nat.not_lt_zero c), fun _ _ => rfl⟩
  · obtain ⟨hzero, hrest⟩ := h
    refine ⟨fun c hc => ?_, fun x hx => ?_⟩
    · by_cases hlast : c = cols - 1
      · rw [hlast, Function.update_self, unit, if_pos rfl]
        rfl
      · rw [Function.update_of_ne (by omega), hzero c (by omega), unit, if_neg (Ne.symm hlast),
          Byte.toNat_zero]
    · rw [Function.update_of_ne (by omega), hrest x hx]
  · obtain ⟨hzero, hrest⟩ := hv
    refine ⟨fun c hc => ?_, fun x hx => ?_⟩
    · rcases Nat.lt_succ_iff_lt_or_eq.1 hc with hlt | rfl
      · rw [Function.update_of_ne (by omega), hzero c hlt]
      · rw [Function.update_self]
    · rw [Function.update_of_ne (by omega), hrest x hx]

/-- **The extended Vandermonde matrix** is made when the field has enough elements. -/
theorem reedSolExtendedVandermondeMatrix_ok {rows cols : ℕ} (hcols : 1 ≤ cols) (hlt : cols < rows)
    (hrows : rows ≤ 256) (memory : ℕ → ℕ) :
    ∃ vdm, reedSolExtendedVandermondeMatrix rows cols fieldPower memory = .ok (some vdm) ∧
      Enc rows cols vdm (extendedVandermonde rows cols) := by
  have hfield : ¬ (fieldPower < 30 ∧ 1 <<< fieldPower < rows) :=
    fun h => absurd h.2 (not_lt.2 hrows)
  have hfield' : ¬ (fieldPower < 30 ∧ 1 <<< fieldPower < cols) :=
    fun h => absurd h.2 (not_lt.2 (by omega))
  rw [reedSolExtendedVandermondeMatrix, if_neg hfield, if_neg hfield', if_neg (by omega)]
  obtain ⟨hlast, hrest⟩ := lastRow_eq (i := (rows - 1) * cols) hcols
    ((List.range' 1 (cols - 1)).foldl (fun vdm j => Function.update vdm j 0)
      (Function.update memory 0 1))
  have hfirst := @firstRow_eq cols memory
  dsimp only
  generalize Function.update ((List.range (cols - 1)).foldl
    (fun (vdm : ℕ → ℕ) j => Function.update vdm ((rows - 1) * cols + j) 0) _) _ _ = vdm at *
  -- the rows that have been written
  let P : ℕ → (ℕ → ℕ) → Prop := fun i vdm => ∀ r, r < i ∨ r + 1 = rows → ∀ c < cols,
    vdm (r * cols + c) = (extendedVandermonde rows cols r c).toNat
  have hstart : P 1 vdm := by
    intro r hr c hc
    rw [extendedVandermonde]
    by_cases hend : r + 1 = rows
    · rw [vandermonde_last _ _ hend, show r = rows - 1 by omega]
      exact hlast c hc
    · obtain rfl : r = 0 := by omega
      have hle : 1 * cols ≤ (rows - 1) * cols := Nat.mul_le_mul_right cols (by omega)
      rw [vandermonde_of_ne _ _ hend, Nat.zero_mul, Nat.zero_add, hrest c (by omega), hfirst hc]
      refine congrArg Byte.toNat ?_
      change unit 0 c = (0 : Byte) ^ c
      rw [unit, zero_pow_eq]
      exact if_congr eq_comm rfl rfl
  have hpass : ∀ i, 1 ≤ i → i < 1 + (rows - 2) → ∀ vdm, P i vdm →
      ∃ vdm', powerRow cols fieldPower vdm i = .ok vdm' ∧ P (i + 1) vdm' := by
    intro i hi hirows vdm hvdm
    obtain ⟨vdm', hok, hrow, hother⟩ := powerRow_ok cols (show i < 256 by omega) vdm
    refine ⟨vdm', hok, fun r hr c hc => ?_⟩
    by_cases hri : r = i
    · subst hri
      rw [hrow c hc, extendedVandermonde, vandermonde_of_ne _ _ (by omega)]
    · rw [hother _ fun c' hc' heq => hri (rowIndex_inj hc hc' heq).1]
      exact hvdm r (by omega) c hc
  obtain ⟨vdm', hok, hP⟩ := Loops.foldlM_range' P hpass hstart
  have henc : Enc rows cols vdm' (extendedVandermonde rows cols) :=
    fun r hr c hc => hP r (by omega) c hc
  by_cases htwo : rows = 2
  · subst htwo
    obtain rfl := Except.ok.inj hok
    exact ⟨_, if_pos rfl, henc⟩
  · rw [if_neg htwo, hok]
    exact ⟨vdm', rfl, henc⟩

/-! ### The distribution matrix -/

/-- The first `i` rows are those of the unit matrix, and any choice of rows is invertible. -/
structure Distributes (rows cols i : ℕ) (dist : ℕ → ℕ) (A : ℕ → ℕ → Byte) : Prop where
  /-- The array. -/
  enc : Enc rows cols dist A
  /-- Any choice of rows. -/
  generic : Generic rows cols A
  /-- The first rows. -/
  unit_eq : ∀ r < i, ∀ c < cols, A r c = unit r c

section Distribution

variable {rows cols i j : ℕ} {dist : ℕ → ℕ} {A : ℕ → ℕ → Byte}

/-- There is a row to swap with. -/
theorem findDistRow_ok (h : Distributes rows cols i dist A) (hi : i < cols) (hlt : cols < rows) :
    ∃ j, findDistRow rows cols i dist = some j ∧ i ≤ j ∧ j < rows ∧ A j i ≠ 0 := by
  obtain ⟨r, hir, hr, hne⟩ := h.generic.exists_pivot hlt.le hi h.unit_eq
  cases hfind : findDistRow rows cols i dist with
  | none =>
      have hzero := List.find?_eq_none.1 hfind r (List.mem_range'_1.2 ⟨hir, by omega⟩)
      rw [h.enc r hr i hi] at hzero
      exact absurd (by simpa [Byte.toNat_eq_zero] using hzero) hne
  | some j =>
      have hmem := List.mem_range'_1.1 (List.mem_of_find?_eq_some hfind)
      have hpivot := List.find?_some hfind
      have hj : j < rows := by omega
      rw [h.enc j hj i hi] at hpivot
      exact ⟨j, rfl, hmem.1, hj, by simpa [Byte.toNat_eq_zero] using hpivot⟩

/-- The rows are swapped. -/
theorem swapDistRow_ok (h : Distributes rows cols i dist A) (hi : i < cols) (hlt : cols < rows)
    (hij : i ≤ j) (hj : j < rows) (hpivot : A j i ≠ 0) :
    ∃ dist' A', swapDistRow cols i j dist = .ok dist' ∧
    Distributes rows cols i dist' A' ∧ A' i i ≠ 0 := by
  rw [swapDistRow]
  by_cases hne : j = i
  · subst hne
    exact ⟨dist, A, if_neg (not_not.2 rfl), h, hpivot⟩
  · have hir : i < rows := by omega
    obtain ⟨dist', hok, henc⟩ := swapEntry_ok h.enc hj hir hne
    refine ⟨dist', _, (if_pos hne).trans hok,
      ⟨henc, h.generic.swapRows hj hir, fun r hr c hc => ?_⟩, ?_⟩
    · rw [swapRows, Equiv.swap_apply_of_ne_of_ne (by omega) (by omega), h.unit_eq r hr c hc]
    · rwa [swapRows, Equiv.swap_apply_right]

/-- The diagonal element is made one. -/
theorem scaleDistColumn_ok (h : Distributes rows cols i dist A) (hi : i < cols) (hlt : cols < rows)
    (hpivot : A i i ≠ 0) : ∃ dist' A', scaleDistColumn rows cols fieldPower i dist = .ok dist' ∧
      Distributes rows cols i dist' A' ∧ A' i i = 1 := by
  have hentry := h.enc i (by omega) i hi
  rw [scaleDistColumn, hentry]
  by_cases hone : A i i = 1
  · exact ⟨dist, A, if_neg (not_not.2 (congrArg Byte.toNat hone)), h, hone⟩
  · have hne : (A i i).toNat ≠ 1 := fun hnat => hone (Byte.toNat_injective hnat)
    have hdivide : galoisSingleDivide 1 (A i i).toNat fieldPower = .ok ((1 / A i i).toNat : ℤ) :=
      galoisSingleDivide_eq 1 hpivot
    obtain ⟨dist', hok, henc⟩ := scaleColumnEntry_ok h.enc (Nat.zero_le rows) hi (1 / A i i)
    refine ⟨dist', scaleColumn A i (1 / A i i), ?_,
      ⟨henc.congr fun r _ c _ => ?_, ?_, fun r hr c hc => ?_⟩, ?_⟩
    · rw [if_pos hne, hdivide, Loops.ok_bind, Int.toNat_natCast, List.range_eq_range']
      exact hok
    · rw [if_pos (Nat.zero_le r)]
    · exact h.generic.scaleColumn hi (one_div_ne_zero hpivot)
    · by_cases hci : c = i
      · subst hci
        rw [scaleColumn, Function.update_self, h.unit_eq r hr c hc, unit,
          if_neg (by omega), mul_zero]
      · rw [scaleColumn, Function.update_of_ne hci, h.unit_eq r hr c hc]
    · rw [scaleColumn, Function.update_self, one_div_mul_cancel hpivot]

/-- An element of row `i` is made zero. -/
theorem clearInRow_ok (h : Distributes rows cols i dist A) (hi : i < cols) (hlt : cols < rows)
    (hone : A i i = 1) (hj : j < cols) (hbefore : ∀ c < j, c ≠ i → A i c = 0) :
    ∃ dist' A', clearInRow rows cols fieldPower i dist j = .ok dist' ∧
    Distributes rows cols i dist' A' ∧
      A' i i = 1 ∧ ∀ c < j + 1, c ≠ i → A' i c = 0 := by
  have hentry := h.enc i (by omega) j hj
  rw [clearInRow, hentry]
  by_cases hskip : j = i ∨ A i j = 0
  · refine ⟨dist, A, if_neg fun hpass => ?_, h, hone, fun c hc hci => ?_⟩
    · exact hskip.elim hpass.1 fun hzero => hpass.2 (Byte.toNat_eq_zero.2 hzero)
    · rcases Nat.lt_succ_iff_lt_or_eq.1 hc with hlt | rfl
      · exact hbefore c hlt hci
      · exact hskip.resolve_left hci
  · obtain ⟨hji, hne⟩ := not_or.1 hskip
    obtain ⟨dist', hok, henc⟩ := addColumnEntry_ok h.enc hi hj (A i j)
    refine ⟨dist', _, (if_pos ⟨hji, fun hnat => hne (Byte.toNat_eq_zero.1 hnat)⟩).trans hok,
      ⟨henc, h.generic.addColumn hi hj (Ne.symm hji) (A i j), fun r hr c hc => ?_⟩, ?_,
      fun c hc hci => ?_⟩
    · by_cases hcj : c = j
      · subst hcj
        rw [addColumn, Function.update_self, h.unit_eq r hr c hc, h.unit_eq r hr i hi, unit, unit,
          if_neg (show r ≠ i by omega), mul_zero, add_zero]
      · rw [addColumn, Function.update_of_ne hcj, h.unit_eq r hr c hc]
    · rw [addColumn, Function.update_of_ne (Ne.symm hji), hone]
    · by_cases hcj : c = j
      · subst hcj
        rw [addColumn, Function.update_self, hone, mul_one, CharTwo.add_self_eq_zero]
      · rw [addColumn, Function.update_of_ne hcj]
        exact hbefore c (by omega) hci

/-- The pass for row `i`. -/
theorem unitDistRow_ok (h : Distributes rows cols i dist A) (hi : i < cols) (hlt : cols < rows) :
    ∃ dist', unitDistRow rows cols fieldPower dist i = .ok dist' ∧ ∃ A', Distributes rows cols
      (i + 1) dist' A' := by
  obtain ⟨j, hfind, hij, hj, hpivot⟩ := findDistRow_ok h hi hlt
  obtain ⟨dist₁, A₁, hok₁, h₁, hpivot₁⟩ := swapDistRow_ok h hi hlt hij hj hpivot
  obtain ⟨dist₂, A₂, hok₂, h₂, hone⟩ := scaleDistColumn_ok h₁ hi hlt hpivot₁
  obtain ⟨dist₃, hok₃, A₃, h₃, hone₃, hclear⟩ :=
    Loops.foldlM_range (fun j dist => ∃ A, Distributes rows cols i dist A ∧
      A i i = 1 ∧ ∀ c < j, c ≠ i → A i c = 0)
    (fun j hj dist ⟨A, h, hone, hbefore⟩ => by
      obtain ⟨dist', A', hok, hA'⟩ := clearInRow_ok h hi hlt hone hj hbefore
      exact ⟨dist', hok, A', hA'⟩)
    ⟨A₂, h₂, hone, fun c hc => absurd hc (Nat.not_lt_zero c)⟩
  refine ⟨dist₃, ?_, A₃, h₃.enc, h₃.generic, fun r hr c hc => ?_⟩
  · rw [unitDistRow, hfind]
    dsimp only
    rw [hok₁, Loops.ok_bind, hok₂, Loops.ok_bind, hok₃]
  · rcases Nat.lt_succ_iff_lt_or_eq.1 hr with hr | rfl
    · exact h₃.unit_eq r hr c hc
    · by_cases hci : c = r
      · rw [hci, hone₃, unit, if_pos rfl]
      · rw [hclear c hc hci, unit, if_neg (Ne.symm hci)]

/-- A column below the unit matrix is scaled. -/
theorem onesInRow_ok (h : Distributes rows cols cols dist A) (hlt : cols < rows) (hj : j < cols)
    (hbefore : ∀ c < j, A cols c = 1) :
    ∃ dist', onesInRow rows cols fieldPower dist j = .ok dist' ∧ ∃ A',
    Distributes rows cols cols dist' A' ∧
      ∀ c < j + 1, A' cols c = 1 := by
  have hentry := h.enc cols hlt j hj
  rw [onesInRow, hentry]
  by_cases hone : A cols j = 1
  · refine ⟨dist, if_neg (not_not.2 (congrArg Byte.toNat hone)), A, h, fun c hc => ?_⟩
    rcases Nat.lt_succ_iff_lt_or_eq.1 hc with hc | rfl
    · exact hbefore c hc
    · exact hone
  · have hpivot := h.generic.ne_zero h.unit_eq le_rfl hlt hj
    have hne : (A cols j).toNat ≠ 1 := fun hnat => hone (Byte.toNat_injective hnat)
    have hinv : 1 / A cols j ≠ 0 := one_div_ne_zero hpivot
    have hdivide : galoisSingleDivide 1 (A cols j).toNat fieldPower = .ok
        ((1 / A cols j).toNat : ℤ) :=
      galoisSingleDivide_eq 1 hpivot
    obtain ⟨dist', hok, henc⟩ := scaleColumnEntry_ok h.enc hlt.le hj (1 / A cols j)
    -- the whole column is scaled, and then row `j` back
    have hgeneric := (h.generic.scaleColumn hj hinv).scaleRow (i := j) hpivot
    have hsame : ∀ r < rows, ∀ c < cols,
        (if cols ≤ r then scaleColumn A j (1 / A cols j) r else A r) c = scaleRow
          (scaleColumn A j (1 / A cols j)) j (A cols j) r c := by
      intro r hr c hc
      by_cases hrj : r = j
      · subst hrj
        rw [if_neg (by omega), scaleRow, Function.update_self]
        by_cases hcr : c = r
        · subst hcr
          rw [scaleColumn, Function.update_self, h.unit_eq c hj c hc, unit, if_pos rfl, mul_one,
            one_div_mul_cancel hpivot]
        · rw [scaleColumn, Function.update_of_ne hcr, h.unit_eq r hj c hc, unit,
            if_neg (Ne.symm hcr), zero_mul]
      · rw [scaleRow, Function.update_of_ne hrj]
        split
        · rfl
        · by_cases hcj : c = j
          · subst hcj
            rw [scaleColumn, Function.update_self, h.unit_eq r (by omega) c hc, unit,
              if_neg hrj, mul_zero]
          · rw [scaleColumn, Function.update_of_ne hcj]
    refine ⟨dist', ?_, _, ⟨henc, hgeneric.congr hsame, fun r hr c hc => ?_⟩, fun c hc => ?_⟩
    · rw [if_pos hne, hdivide, Loops.ok_bind, Int.toNat_natCast, hok]
    · rw [if_neg (by omega), h.unit_eq r hr c hc]
    · rw [if_pos le_rfl]
      by_cases hcj : c = j
      · rw [hcj, scaleColumn, Function.update_self, one_div_mul_cancel hpivot]
      · rw [scaleColumn, Function.update_of_ne hcj]
        exact hbefore c (by omega)

/-- A row below row `cols` is scaled. -/
theorem oneInColumn_ok (h : Distributes rows cols cols dist A) (hcols : 1 ≤ cols) (hi : cols < i)
    (hir : i < rows) (hones : ∀ c < cols, A cols c = 1)
    (hbefore : ∀ r, cols ≤ r → r < i → A r 0 = 1) :
    ∃ dist', oneInColumn cols fieldPower dist i = .ok dist' ∧ ∃ A',
    Distributes rows cols cols dist' A' ∧
      (∀ c < cols, A' cols c = 1) ∧ ∀ r, cols ≤ r → r < i + 1 → A' r 0 = 1 := by
  have hentry : dist (i * cols) = (A i 0).toNat := h.enc i hir 0 hcols
  rw [oneInColumn, hentry]
  by_cases hone : A i 0 = 1
  · refine ⟨dist, if_neg (not_not.2 (congrArg Byte.toNat hone)), A, h, hones, fun r hr hri => ?_⟩
    rcases Nat.lt_succ_iff_lt_or_eq.1 hri with hri | rfl
    · exact hbefore r hr hri
    · exact hone
  · have hpivot := h.generic.ne_zero h.unit_eq hi.le hir hcols
    have hne : (A i 0).toNat ≠ 1 := fun hnat => hone (Byte.toNat_injective hnat)
    have hdivide : galoisSingleDivide 1 (A i 0).toNat fieldPower = .ok ((1 / A i 0).toNat : ℤ) :=
      galoisSingleDivide_eq 1 hpivot
    obtain ⟨dist', hok, henc⟩ := scaleEntry_ok h.enc hir (1 / A i 0)
    refine ⟨dist', ?_, _, ⟨henc, h.generic.scaleRow (one_div_ne_zero hpivot), fun r hr c hc => ?_⟩,
      fun c hc => ?_, fun r hr hri => ?_⟩
    · rw [if_pos hne, hdivide, Loops.ok_bind, Int.toNat_natCast, hok]
    · rw [scaleRow, Function.update_of_ne (by omega), h.unit_eq r hr c hc]
    · rw [scaleRow, Function.update_of_ne hi.ne, hones c hc]
    · by_cases hrow : r = i
      · rw [hrow, scaleRow, Function.update_self, mul_one_div_cancel hpivot]
      · rw [scaleRow, Function.update_of_ne hrow]
        exact hbefore r hr (by omega)

/-- **The distribution matrix**: the unit matrix, a row of ones, and rows that start with one. -/
theorem reedSolBigVandermondeDistributionMatrix_ok (hcols : 1 ≤ cols) (hlt : cols < rows)
    (hrows : rows ≤ 256) (memory : ℕ → ℕ) :
    ∃ dist A, reedSolBigVandermondeDistributionMatrix rows cols fieldPower memory =
      .ok (some dist) ∧ Distributes rows cols cols dist A ∧ (∀ c < cols, A cols c = 1) ∧
        ∀ r, cols ≤ r → r < rows → A r 0 = 1 := by
  obtain ⟨vdm, hvdm, henc⟩ := reedSolExtendedVandermondeMatrix_ok hcols hlt hrows memory
  have hpoints : Set.InjOn (Byte.ofNat) (Set.Iio (rows - 1)) := by
    intro a ha b hb hab
    have ha : a < rows - 1 := ha
    have hb : b < rows - 1 := hb
    rw [← Byte.toNat_ofNat_of_lt (show a < 256 by omega), hab, Byte.toNat_ofNat_of_lt (by omega)]
  have hstart : Distributes rows cols 1 vdm (extendedVandermonde rows cols) := by
    refine ⟨henc, generic_vandermonde hpoints, fun r hr c hc => ?_⟩
    obtain rfl : r = 0 := by omega
    rw [extendedVandermonde, vandermonde_of_ne _ _ (by omega)]
    change (0 : Byte) ^ c = _
    rw [unit, zero_pow_eq]
    exact if_congr eq_comm rfl rfl
  obtain ⟨dist₁, hok₁, A₁, h₁⟩ := Loops.foldlM_range' (a := 1) (n := cols - 1)
    (fun i dist => ∃ A, Distributes rows cols i dist A)
    (fun i _ hi dist h => h.elim fun A h => unitDistRow_ok h (by omega) hlt) ⟨_, hstart⟩
  rw [Nat.add_sub_cancel' hcols] at h₁
  obtain ⟨dist₂, hok₂, A₂, h₂, hones₂⟩ := Loops.foldlM_range
    (fun j dist => ∃ A, Distributes rows cols cols dist A ∧ ∀ c < j, A cols c = 1)
    (fun j hj dist h => h.elim fun A h => onesInRow_ok h.1 hlt hj h.2)
    ⟨A₁, h₁, fun c hc => absurd hc (Nat.not_lt_zero c)⟩
  obtain ⟨dist₃, hok₃, A₃, h₃, hones₃, hfirst⟩ := Loops.foldlM_range' (a := cols + 1)
    (n := rows - (cols + 1))
    (fun i dist => ∃ A, Distributes rows cols cols dist A ∧ (∀ c < cols, A cols c = 1) ∧
      ∀ r, cols ≤ r → r < i → A r 0 = 1)
    (fun i hi hin dist h => h.elim fun A h => oneInColumn_ok h.1 hcols (by omega)
      (by omega) h.2.1 h.2.2)
    ⟨A₂, h₂, hones₂, fun r hr hri => by
      obtain rfl : r = cols := by omega
      exact hones₂ 0 hcols⟩
  refine ⟨dist₃, A₃, ?_, h₃, hones₃, fun r hr hri => hfirst r hr (by omega)⟩
  rw [reedSolBigVandermondeDistributionMatrix, if_neg (by omega), hvdm, Loops.ok_bind]
  dsimp only
  rw [hok₁, Loops.ok_bind, hok₂, Loops.ok_bind, hok₃]
  rfl

end Distribution

/-! ### The coding matrix -/

/-- The array of the coding matrix and its generator rows. -/
theorem reedSolVandermondeCodingMatrix_ok {k m : ℕ} (hk : 1 ≤ k) (hm : 1 ≤ m) (hfield : k + m ≤ 256)
    (memory : ℕ → ℕ) : ∃ (matrix : List ℕ) (A : ℕ → ℕ → Byte),
      reedSolVandermondeCodingMatrix k m fieldPower memory = .ok (some matrix) ∧
      matrix.length = m * k ∧ Generic (k + m) k A ∧ (∀ r < k, ∀ c < k, A r c = unit r c) ∧
      (∀ c < k, A k c = 1) ∧ (∀ r, k ≤ r → r < k + m → A r 0 = 1) ∧
      ∀ r < m, ∀ c < k, matrix.getD (r * k + c) 0 = (A (k + r) c).toNat := by
  obtain ⟨dist, A, hok, ⟨henc, hgeneric, hunit⟩, hones, hfirst⟩ :=
    reedSolBigVandermondeDistributionMatrix_ok hk (show k < k + m by omega) hfield memory
  refine ⟨(List.range (m * k)).map fun j => dist (k * k + j), A, ?_, ?_, hgeneric, hunit,
    hones, hfirst, fun r hr c hc => ?_⟩
  · rw [reedSolVandermondeCodingMatrix, hok]
    rfl
  · rw [List.length_map, List.length_range]
  · have hlt : r * k + c < m * k := by
      calc r * k + c < r * k + k := by omega
        _ = (r + 1) * k := by ring
        _ ≤ m * k := Nat.mul_le_mul_right k hr
    rw [List.getD_eq_getElem _ _ (by rwa [List.length_map, List.length_range]), List.getElem_map,
      List.getElem_range, ← henc (k + r) (by omega) c hc]
    exact congrArg dist (by ring)

/-- No matrix is made without a code disk, and when the field has too few elements. -/
theorem reedSolVandermondeCodingMatrix_none {k m : ℕ} (h : m = 0 ∨ 256 < k + m) (memory : ℕ → ℕ) :
    reedSolVandermondeCodingMatrix k m fieldPower memory = .ok none := by
  have hbig : reedSolBigVandermondeDistributionMatrix (k + m) k fieldPower memory = .ok none := by
    rw [reedSolBigVandermondeDistributionMatrix]
    rcases Nat.eq_zero_or_pos m with rfl | hm
    · exact if_pos le_rfl
    · rw [if_neg (by omega), reedSolExtendedVandermondeMatrix, if_pos]
      · rfl
      · exact ⟨by decide, h.resolve_left hm.ne'⟩
  rw [reedSolVandermondeCodingMatrix, hbig]
  rfl

/-- **The generator matrix of `reed_sol_vandermonde_coding_matrix`**: any `k` of the `k + m` cells
of a row determine its data.  Its first row and its first column are ones.  There is no matrix
exactly when there is no code disk or the field has too few elements. -/
theorem reedSolVandermondeCodingMatrix_mds {k : ℕ} (hk : 1 ≤ k) (m : ℕ) (memory : ℕ → ℕ) :
    (1 ≤ m ∧ k + m ≤ 256 →
      ∃ matrix, reedSolVandermondeCodingMatrix k m fieldPower memory = .ok (some matrix) ∧
      matrix.length = m * k ∧
        (∀ x ∈ matrix, x < 256) ∧ (∀ c < k, matrix.getD c 0 = 1) ∧
        (∀ r < m, matrix.getD (r * k) 0 = 1) ∧ ∀ ids : Fin k → ℕ, Function.Injective ids →
        (∀ l, ids l < k + m) →
          IsUnit (Matrix.of fun l c : Fin k =>
            LinearCode.generator k (fun j i => Byte.ofNat (matrix.getD (j * k + i) 0)) (ids l) c)) ∧
      (¬ (1 ≤ m ∧ k + m ≤ 256) →
        reedSolVandermondeCodingMatrix k m fieldPower memory = .ok none) := by
  constructor
  · rintro ⟨hm, hfield⟩
    obtain ⟨matrix, A, hok, hlen, hgeneric, hunit, hones, hfirst, hentry⟩ :=
      reedSolVandermondeCodingMatrix_ok hk hm hfield memory
    refine ⟨matrix, hok, hlen, fun x hx => ?_, fun c hc => ?_, fun r hr => ?_,
      fun ids hinj hids => ?_⟩
    · obtain ⟨i, hi, rfl⟩ := List.getElem_of_mem hx
      rw [hlen] at hi
      have hrow : i / k < m := Nat.div_lt_of_lt_mul (by rwa [Nat.mul_comm])
      have h := hentry (i / k) hrow (i % k) (Nat.mod_lt i hk)
      rw [Nat.div_add_mod', List.getD_eq_getElem _ _ (by omega)] at h
      rw [h]
      exact Byte.toNat_lt _
    · have h := hentry 0 hm c hc
      rw [Nat.zero_mul, Nat.zero_add, Nat.add_zero, hones c hc] at h
      exact h
    · have h := hentry r hr 0 hk
      rw [Nat.add_zero, hfirst (k + r) (by omega) (by omega)] at h
      exact h
    · have hrows := hgeneric.isUnit hinj hids
      refine (congrArg IsUnit ?_).mp hrows
      ext l c
      rw [Matrix.of_apply, Matrix.of_apply, LinearCode.generator]
      split
      · rename_i hl
        rw [hunit _ hl c c.isLt, unit]
        exact if_congr eq_comm rfl rfl
      · rename_i hl
        have hlt := hids l
        rw [hentry (ids l - k) (by omega) c c.isLt, Byte.ofNat_toNat, Nat.add_sub_cancel'
          (not_lt.1 hl)]
  · intro h
    exact reedSolVandermondeCodingMatrix_none (by omega) memory

/-- Four data disks and two code disks. -/
theorem reedSolVandermondeCodingMatrix_mds_six :
    ∃ matrix, reedSolVandermondeCodingMatrix 4 2 fieldPower (fun _ => 7) = .ok (some matrix) ∧
      ∀ ids : Fin 4 → ℕ, Function.Injective ids → (∀ l, ids l < 6) →
        IsUnit (Matrix.of fun l c : Fin 4 =>
          LinearCode.generator 4 (fun j i => Byte.ofNat (matrix.getD (j * 4 + i) 0))
            (ids l) c) := by
  obtain ⟨matrix, hok, -, -, -, -, hunit⟩ :=
    (reedSolVandermondeCodingMatrix_mds (show 1 ≤ 4 by decide) 2 fun _ => 7).1 (by decide)
  exact ⟨matrix, hok, hunit⟩

end Ncfs
