/-
The parts of the erasure coding library that the codes over GF(256) call.

Multiplication and the inversion of a matrix are parameters, with what their callers rely on; the
choice of the surviving cells is the one of `jerasure_make_decoding_matrix`.

Main definitions:

* `Ncfs.Jerasure` — the functions that are taken as parameters;
* `Ncfs.Jerasure.Multiplies`, `Ncfs.Jerasure.Inverts` — what they compute;
* `Ncfs.dmIds`, `Ncfs.Jerasure.makeDecodingMatrix` — the survivors and the inverse of their rows;
* `Ncfs.galoisBuf` — the loop that multiplies a buffer;
* `Ncfs.Jerasure.sample` — an instance for small cases.

Main results:

* `Ncfs.galoisBuf_of_lt` — what the loop computes;
* `Ncfs.dmIds_ok` — when enough cells survive, the first ones of them are chosen;
* `Ncfs.Jerasure.makeDecodingMatrix_ok` — a row of the decoding matrix gives back a data cell;
* `Ncfs.foldlM_addSurvivor` — what the loops compute that multiply the survivors by a row.
-/
import FuseMdr.GfTables
import FuseMdr.LinearCode

set_option relaxedAutoImplicit false
set_option autoImplicit false

namespace Ncfs

/-- The functions of the library that are parameters here.  A matrix is an array of integers, row by
row. -/
structure Jerasure where
  /-- `galois_single_multiply(x, y, w)`. -/
  galoisSingleMultiply : ℕ → ℕ → ℕ → ℕ
  /-- `jerasure_invert_matrix(mat, inv, rows, w)`; no matrix stands for the result `-1`. -/
  jerasureInvertMatrix : (ℕ → ℕ) → ℕ → ℕ → Option (ℕ → ℕ)

namespace Jerasure

/-- Multiplication is that of GF(256). -/
def Multiplies (J : Jerasure) : Prop :=
  ∀ x y : Byte, J.galoisSingleMultiply x.toNat y.toNat fieldPower = (x * y).toNat

/-- The matrix `mat` with `rows` rows of bytes is inverted. -/
def Inverts (J : Jerasure) (mat : ℕ → ℕ) (rows : ℕ) : Prop :=
  ∃ inv, J.jerasureInvertMatrix mat rows fieldPower = some inv ∧
    (∀ i < rows * rows, inv i < 256) ∧
    ∀ d < rows, ∀ i < rows,
      ∑ l ∈ Finset.range rows, Byte.ofNat (inv (rows * d + l)) * Byte.ofNat (mat (l * rows + i)) =
        if d = i then 1 else 0

/-- Multiplication with the inverses of two matrices of two rows: the unit matrix, and the one with
the rows `0 1` and `1 1`. -/
def sample : Jerasure where
  galoisSingleMultiply x y w :=
    match Coding4Raid6.new.gfMul x y w with
    | .ok z => z
    | .error _ => 0
  jerasureInvertMatrix mat _ _ := some fun i =>
    if mat 0 = 1 then if i = 0 ∨ i = 3 then 1 else 0 else if i = 3 then 0 else 1

theorem sample_multiplies : sample.Multiplies := by
  intro x y
  simp only [sample, gfMul_eq]

end Jerasure

/-! ### Multiplying a buffer -/

/-- The loop `des[j] = galois_single_multiply((unsigned char)src[j], coeff, field_power)` over a
buffer of zeros. -/
def galoisBuf (J : Jerasure) (size coeff : ℕ) (src : Buf) : Buf := fun j =>
  if j < size then Byte.ofNat (J.galoisSingleMultiply (src j).toNat coeff fieldPower) else 0

theorem galoisBuf_of_lt {J : Jerasure} (hJ : J.Multiplies) {size coeff j : ℕ} (hcoeff : coeff < 256)
    (hj : j < size) (src : Buf) : galoisBuf J size coeff src j = Byte.ofNat coeff * src j := by
  have h := hJ (src j) (Byte.ofNat coeff)
  rw [Byte.toNat_ofNat_of_lt hcoeff] at h
  rw [galoisBuf, if_pos hj, h, Byte.ofNat_toNat, mul_comm]

/-! ### The decoding matrix -/

/-- The first loop of `jerasure_make_decoding_matrix`: the first `k` cells that are not erased.
With fewer of them it reads behind the array of `total` flags. -/
def dmIds (k total : ℕ) (erased : ℕ → ℕ) : Except CodingError (List ℕ) :=
  let ids := ((List.range total).filter fun i => erased i = 0).take k
  if ids.length < k then .error .undefined else .ok ids

/-- The second loop: the generator rows of the chosen cells. -/
def survivorRows (k : ℕ) (matrix : ℕ → ℕ) (ids : List ℕ) (index : ℕ) : ℕ :=
  let id := ids.getD (index / k) 0
  if id < k then if index % k = id then 1 else 0 else matrix ((id - k) * k + index % k)

/-- `jerasure_make_decoding_matrix`: the matrix with the chosen cells, `.failed` standing for the
result `-1`. -/
def Jerasure.makeDecodingMatrix (J : Jerasure) (k m : ℕ) (matrix : ℕ → ℕ) (erased : ℕ → ℕ) :
    Except CodingError ((ℕ → ℕ) × List ℕ) := do
  let ids ← dmIds k (k + m) erased
  match J.jerasureInvertMatrix (survivorRows k matrix ids) k fieldPower with
  | none => .error .failed
  | some inv => .ok (inv, ids)

section Decoding

variable {k m : ℕ} {erased : ℕ → ℕ}

theorem getD_mem {ids : List ℕ} {l : ℕ} (hl : l < ids.length) : ids.getD l 0 ∈ ids := by
  rw [List.getD_eq_getElem _ _ hl]
  exact List.getElem_mem hl

/-- The chosen cells are survivors, as many as asked for. -/
theorem Jerasure.mem_of_makeDecodingMatrix {J : Jerasure} {matrix inv : ℕ → ℕ} {ids : List ℕ}
    (h : J.makeDecodingMatrix k m matrix erased = .ok (inv, ids)) :
    ids.length = k ∧ ∀ id ∈ ids, id < k + m ∧ erased id = 0 := by
  rw [makeDecodingMatrix, dmIds] at h
  split at h
  · cases h
  · rename_i hlen
    rw [Loops.ok_bind] at h
    split at h
    · cases h
    · obtain ⟨-, rfl⟩ := Prod.mk.inj (Except.ok.inj h)
      refine ⟨?_, fun id hid => by simpa using List.mem_of_mem_take hid⟩
      rw [List.length_take] at hlen ⊢
      omega

/-- The survivors, counted. -/
theorem length_survivors (total : ℕ) (erased : ℕ → ℕ) :
    ((List.range total).filter fun i => decide (erased i = 0)).length =
      ((Finset.range total).filter fun i => erased i = 0).card := by
  rw [← List.toFinset_card_of_nodup (List.nodup_range.filter _)]
  congr 1
  ext i
  simp

/-- With fewer than `k` survivors there is no decoding matrix. -/
theorem Jerasure.makeDecodingMatrix_of_lt {J : Jerasure} {matrix : ℕ → ℕ}
    (h : ((Finset.range (k + m)).filter fun i => erased i = 0).card < k) :
    J.makeDecodingMatrix k m matrix erased = .error .undefined := by
  have hlen := length_survivors (k + m) erased
  rw [makeDecodingMatrix, dmIds, if_pos, Loops.error_bind]
  rw [List.length_take, hlen]
  omega

/-- When enough cells survive, the chosen ones are `k` different survivors. -/
theorem dmIds_ok (h : k ≤ ((Finset.range (k + m)).filter fun i => erased i = 0).card) :
    ∃ ids, dmIds k (k + m) erased = .ok ids ∧ ids.length = k ∧ ids.Nodup ∧
      ∀ id ∈ ids, id < k + m ∧ erased id = 0 := by
  have hlen := length_survivors (k + m) erased
  have htake :
      (((List.range (k + m)).filter fun i => decide (erased i = 0)).take k).length = k := by
    rw [List.length_take, hlen]
    omega
  refine ⟨_, if_neg (by simp only [htake, lt_irrefl, not_false_eq_true]), htake,
    (List.nodup_range.filter _).sublist (List.take_sublist ..), fun id hid => ?_⟩
  have hmem := List.mem_of_mem_take hid
  simpa using hmem

/-- The generator row of a cell as bytes. -/
theorem survivorRows_eq {matrix : ℕ → ℕ} {ids : List ℕ} {l i : ℕ} (hi : i < k) :
    Byte.ofNat (survivorRows k matrix ids (l * k + i)) =
      LinearCode.generator k (fun j i => Byte.ofNat (matrix (j * k + i))) (ids.getD l 0) i := by
  have hk : 0 < k := by omega
  have hdiv : (l * k + i) / k = l := by
    rw [Nat.add_comm, Nat.add_mul_div_right _ _ hk, Nat.div_eq_of_lt hi, Nat.zero_add]
  have hmod : (l * k + i) % k = i := by
    rw [Nat.add_comm, Nat.add_mul_mod_self_right, Nat.mod_eq_of_lt hi]
  rw [survivorRows, LinearCode.generator, hdiv, hmod]
  split
  · split <;> rfl
  · rfl

/-- A row of the decoding matrix gives back a data cell from the chosen cells. -/
theorem Jerasure.makeDecodingMatrix_ok {J : Jerasure} {matrix : ℕ → ℕ}
    (hcard : k ≤ ((Finset.range (k + m)).filter fun i => erased i = 0).card)
    (hinv : ∀ ids, dmIds k (k + m) erased = .ok ids → J.Inverts (survivorRows k matrix ids) k) :
    ∃ inv ids, J.makeDecodingMatrix k m matrix erased = .ok (inv, ids) ∧ ids.length = k ∧
      (∀ id ∈ ids, id < k + m ∧ erased id = 0) ∧ (∀ i < k * k, inv i < 256) ∧
      ∀ x : ℕ → Byte, ∀ y : ℕ → Byte,
        LinearCode.Row k (fun j i => Byte.ofNat (matrix (j * k + i))) x y → ∀ d < k,
          ∑ l ∈ Finset.range k, Byte.ofNat (inv (k * d + l)) *
            (if ids.getD l 0 < k then x (ids.getD l 0) else y (ids.getD l 0 - k)) = x d := by
  obtain ⟨ids, hids, hlen, -, hmem⟩ := dmIds_ok hcard
  obtain ⟨inv, hinv, hbyte, hone⟩ := hinv ids hids
  refine ⟨inv, ids, ?_, hlen, hmem, hbyte, fun x y hrow d hd => ?_⟩
  · rw [makeDecodingMatrix, hids, Loops.ok_bind]
    simp only [hinv]
  · refine @LinearCode.Row.solve Byte _ k x _ (fun j => if j < k then x j else y (j - k))
      (fun l => ids.getD l 0) (fun d l => Byte.ofNat (inv (k * d + l))) d
      (fun l _ => hrow.cell (ids.getD l 0)) hd fun i hi => ?_
    rw [← hone d hd i hi]
    exact Finset.sum_congr rfl fun l _ => by rw [survivorRows_eq hi]

/-- One pass of a loop over the chosen cells: the cell is multiplied by its entry of a row of the
decoding matrix, which has `k * k` entries, and added. -/
def addSurvivor (J : Jerasure) (k row size : ℕ) (decodingMatrix : ℕ → ℕ) (read : ℕ → Buf)
    (buf : Buf) (i : ℕ) : Except CodingError Buf := do
  let efficient ←
    if k * row + i < k * k then .ok (decodingMatrix (k * row + i)) else .error .undefined
  .ok (xorBuf (intBytes size) buf (galoisBuf J size efficient (read i)))

/-- The loop computes the product with a row of the matrix, in whole integers. -/
theorem foldlM_addSurvivor_words {J : Jerasure} (hJ : J.Multiplies) {row size : ℕ} (hrow : row < k)
    {inv : ℕ → ℕ} (hbyte : ∀ i < k * k, inv i < 256) (read : ℕ → Buf) (buf : Buf) :
    ∃ out, (List.range k).foldlM (addSurvivor J k row size inv read) (memset0 buf size) = .ok out ∧
      ∀ o < size, out o = if o < intBytes size then
        ∑ l ∈ Finset.range k, Byte.ofNat (inv (k * row + l)) * read l o else 0 := by
  have hindex : ∀ l < k, k * row + l < k * k := by
    intro l hl
    calc k * row + l < k * row + k := by omega
      _ = k * (row + 1) := (Nat.mul_succ ..).symm
      _ ≤ k * k := Nat.mul_le_mul_left k hrow
  have hpass : ∀ buf, ∀ l ∈ List.range k, addSurvivor J k row size inv read buf l =
      .ok (xorBuf (intBytes size) buf (galoisBuf J size (inv (k * row + l)) (read l))) := by
    intro buf l hl
    rw [addSurvivor, if_pos (hindex l (List.mem_range.1 hl)), Loops.ok_bind]
  rw [Loops.foldlM_ok hpass, foldl_xorBuf]
  refine ⟨_, rfl, fun o ho => ?_⟩
  by_cases hint : o < intBytes size
  · rw [if_pos hint, xorBuf_of_lt _ _ hint, memset0_of_lt ho, zero_add,
      ← List.sum_toFinset _ List.nodup_range, List.toFinset_range]
    refine Finset.sum_congr rfl fun l hl => ?_
    exact galoisBuf_of_lt hJ (hbyte _ (hindex l (Finset.mem_range.1 hl))) ho _
  · rw [if_neg hint, xorBuf, if_neg hint, memset0_of_lt ho]

/-- The loop computes the product with a row of the matrix. -/
theorem foldlM_addSurvivor {J : Jerasure} (hJ : J.Multiplies) {row size : ℕ} (hrow : row < k)
    (hint : size % sizeofInt = 0) {inv : ℕ → ℕ} (hbyte : ∀ i < k * k, inv i < 256) (read : ℕ → Buf)
    (buf : Buf) :
    ∃ out, (List.range k).foldlM (addSurvivor J k row size inv read) (memset0 buf size) = .ok out ∧
      ∀ o < size, out o = ∑ l ∈ Finset.range k, Byte.ofNat (inv (k * row + l)) * read l o := by
  obtain ⟨out, hok, hout⟩ := @foldlM_addSurvivor_words k J hJ row size hrow inv hbyte read buf
  refine ⟨out, hok, fun o ho => (hout o ho).trans (if_pos ?_)⟩
  rwa [intBytes_eq hint]

/-- For a row behind the matrix it reads behind the array. -/
theorem foldlM_addSurvivor_error (J : Jerasure) {row size : ℕ} (hk : 0 < k) (hrow : k ≤ row)
    (inv : ℕ → ℕ) (read : ℕ → Buf) (buf : Buf) :
    (List.range k).foldlM (addSurvivor J k row size inv read) buf = .error .undefined := by
  have hindex : ¬ k * row + 0 < k * k := by
    have := Nat.mul_le_mul_left k hrow
    omega
  have hpass : addSurvivor J k row size inv read buf 0 = .error .undefined := by
    rw [addSurvivor, if_neg hindex, Loops.error_bind]
  cases k with
  | zero => exact absurd hk (lt_irrefl 0)
  | succ k => rw [List.range_succ_eq_map, List.foldlM_cons, hpass, Loops.error_bind]

end Decoding

end Ncfs
