/-
The EVENODD layer.

A strip has `k - 1` rows.  `elems_related_elems` relates each data cell to the `P` cell of its row,
each cell of the special diagonal to all `Q` cells, and each cell of another diagonal to the `Q`
cell of that diagonal.

Main definitions:

* `Ncfs.Coding4Evenodd.elemsRelatedElems` — the pushes of the constructor, in order;
* `Ncfs.Coding4Evenodd.new`, `Ncfs.Coding4Evenodd.encode` — the object and the encoder.

Main results:

* `Ncfs.Coding4Evenodd.count_elemHash` — the cells listed for a `Q` block are those of the special
  diagonal and of its own, each once;
* `Ncfs.Coding4Evenodd.encode_run_stripParity` — writes to unused blocks keep both parities.
-/
import FuseMdr.ElemHash

set_option relaxedAutoImplicit false
set_option autoImplicit false

namespace Ncfs

namespace Coding4Evenodd

/-! ### The object -/

/-- The pushes for data cell `(i, j)` in the first part of `elems_related_elems`: `LINE_XOR`, and
`DIAG_XOR` for a cell of the special diagonal. -/
def lineDiagPushes (row col i j : ℕ) : List (Pair × Pair) :=
  let k := col - 2
  let qs := (List.range row).map fun i => (i, col - 1)
  let p := (i, col - 2)
  let d := (i, j)
  [(d, p), (p, d)] ++
    if i + j = k - 1 then (qs.map fun q => (d, q)) ++ qs.map fun q => (q, d) else []

/-- The pushes for `Q` cell `i` and disk `t` in the second part: `OTHER_XOR`. -/
def otherPushes (row col i t : ℕ) : List (Pair × Pair) :=
  let k := col - 2
  let q := (i, col - 1)
  let first := diagonalIndex k i t
  -- beyond the last row the line is virtual
  if 0 ≤ first ∧ first < row then
    let d := (first.toNat, t)
    [(d, q), (q, d)]
  else []

/-- `Coding4Evenodd::elems_related_elems`, as the sequence of its pushes. -/
def elemsRelatedElems (row col : ℕ) : List (Pair × Pair) :=
  let k := col - 2
  ((List.range row).flatMap fun i => (List.range k).flatMap fun j => lineDiagPushes row col i j) ++
  (List.range row).flatMap fun i => (List.range k).flatMap fun t => otherPushes row col i t

/-- `Coding4Evenodd::Coding4Evenodd`. -/
def new (st : NcfsState) : ElemTable :=
  let k := st.dataDiskNum
  let row := k - 1
  let col := k + 2
  { k := k, row := row, col := col, elemHash := fillHash (elemsRelatedElems row col) }

/-- `Coding4Evenodd::evenodd_find_q_blocks_id`. -/
def evenoddFindQBlocksId (coding : ElemTable) (diskId blockNo : ℕ) : List ℕ :=
  coding.findQBlocksId diskId blockNo

/-- `Coding4Evenodd::encode`. -/
def encode (coding : ElemTable) (st : NcfsState) (buf : Buf) (size : ℕ) :
    Option (ℕ × ℕ) × NcfsState :=
  arrayEncode coding.row (evenoddFindQBlocksId coding) size (roundToBlockSize st size) st buf size

/-! ### The pushes -/

theorem elemsRelatedElems_symm (row col : ℕ) : SymmPushes (elemsRelatedElems row col) := by
  refine SymmPushes.append (SymmPushes.flatMap fun i _ => SymmPushes.flatMap fun j _ => ?_)
    (SymmPushes.flatMap fun i _ => SymmPushes.flatMap fun t _ => ?_)
  · refine SymmPushes.append (SymmPushes.pair _ _) ?_
    split
    · exact SymmPushes.star _ _
    · exact SymmPushes.nil
  · rw [otherPushes]
    dsimp only
    split
    · exact SymmPushes.pair _ _
    · exact SymmPushes.nil

section Counts

variable {k i : ℕ}

/-- A cell of the special diagonal is pushed under every `Q` cell. -/
theorem count_lineDiagPushes (hi : i < k - 1) (i' : ℕ) {j : ℕ} (hj : j < k) (r d : ℕ) :
    (lineDiagPushes (k - 1) (k + 2) i' j).count ((i, k + 1), (r, d)) =
      if i' = r then (if j = d then (if r + d = k - 1 then 1 else 0) else 0) else 0 := by
  have hone : ((List.range (k - 1)).map fun i => (i, k + 1)).count (i, k + 1) = 1 := by
    rw [List.count_map_of_injective _ (fun i => (i, k + 1)) fun i i' h => (Prod.mk.inj h).1]
    exact List.count_eq_one_of_mem List.nodup_range (List.mem_range.2 hi)
  -- the other pushes have a key on a data disk or on `P`
  have hline : [((i', j), (i', k)), ((i', k), (i', j))].count ((i, k + 1), (r, d)) = 0 := by
    refine List.count_eq_zero.2 fun hmem => ?_
    simp only [List.mem_cons, Prod.mk.injEq, List.not_mem_nil, or_false] at hmem
    omega
  have hdata : (((List.range (k - 1)).map fun i => (i, k + 1)).map fun q => ((i', j), q)).count
      ((i, k + 1), (r, d)) = 0 := by
    refine List.count_eq_zero.2 fun hmem => ?_
    obtain ⟨q, -, h⟩ := List.mem_map.1 hmem
    have := (Prod.mk.inj (Prod.mk.inj h).1).2
    omega
  have hq : (((List.range (k - 1)).map fun i => (i, k + 1)).map fun q => (q, (i', j))).count
      ((i, k + 1), (r, d)) = if i' = r ∧ j = d then 1 else 0 := by
    split
    · rename_i h
      rw [h.1, h.2, List.count_map_of_injective _ (fun q : Pair => (q, (r, d)))
        fun q q' h => (Prod.mk.inj h).1]
      exact hone
    · rename_i hne
      refine List.count_eq_zero.2 fun hmem => ?_
      obtain ⟨q, -, h⟩ := List.mem_map.1 hmem
      exact hne (Prod.mk.inj (Prod.mk.inj h).2)
  simp only [lineDiagPushes, Nat.add_sub_cancel, Nat.add_succ_sub_one]
  rw [List.count_append, hline, zero_add]
  by_cases hdiag : i' + j = k - 1
  · rw [if_pos hdiag, List.count_append, hdata, hq, zero_add]
    by_cases h₁ : i' = r <;> by_cases h₂ : j = d <;> simp [h₁, h₂]
    omega
  · rw [if_neg hdiag, List.count_nil]
    by_cases h₁ : i' = r <;> by_cases h₂ : j = d <;> simp [h₁, h₂]
    omega

/-- A cell is pushed under the `Q` cell of its diagonal. -/
theorem count_otherPushes (hi : i < k - 1) {i' t : ℕ} (hi' : i' < k - 1) (ht : t < k) (r d : ℕ) :
    (otherPushes (k - 1) (k + 2) i' t).count ((i, k + 1), (r, d)) =
      if i' = i then (if t = d then (if r < k - 1 ∧ (r + d) % k = i then 1 else 0) else 0)
      else 0 := by
  have hiff : (i' + k - t) % k = r ↔ r < k ∧ (r + t) % k = i' := by
    constructor
    · rintro rfl
      have hlt : (i' + k - t) % k < k := Nat.mod_lt _ (by omega)
      exact ⟨hlt, (diagonal_iff (by omega) ht hlt).1 rfl⟩
    · rintro ⟨hr, h⟩
      exact (diagonal_iff (by omega) ht hr).2 h
  simp only [otherPushes, Nat.add_sub_cancel, Nat.add_succ_sub_one]
  rw [diagonalIndex_eq (by omega) ht, Int.toNat_natCast]
  split
  · rename_i hreal
    have hrow : (i' + k - t) % k = r ↔ r < k - 1 ∧ (r + t) % k = i' := by
      rw [hiff]
      constructor
      · rintro ⟨hr, h⟩
        have := hiff.2 ⟨hr, h⟩
        exact ⟨by omega, h⟩
      · rintro ⟨hr, h⟩
        exact ⟨by omega, h⟩
    rw [List.count_cons, List.count_singleton]
    have hne : ((((i' + k - t) % k, t), (i', k + 1)) == ((i, k + 1), (r, d))) = false := by
      rw [beq_eq_false_iff_ne]
      intro h
      have := (Prod.mk.inj (Prod.mk.inj h).1).2
      omega
    rw [hne]
    by_cases h₁ : i' = i
    · by_cases h₂ : t = d
      · subst h₁ h₂
        simp [hrow]
      · simp [h₁, h₂]
    · simp [h₁]
  · rw [List.count_nil]
    by_cases h₁ : i' = i
    · by_cases h₂ : t = d
      · subst h₁ h₂
        rw [if_pos rfl, if_pos rfl, if_neg]
        rintro ⟨hr, h⟩
        have := hiff.2 ⟨by omega, h⟩
        omega
      · simp [h₂]
    · simp [h₁]

/-- The pushes under a `Q` cell: the special diagonal, and its own. -/
theorem count_elemsRelatedElems_q (hi : i < k - 1) (r d : ℕ) :
    (elemsRelatedElems (k - 1) (k + 2)).count ((i, k + 1), (r, d)) =
      if d < k ∧ r < k - 1 then
        (if r + d = k - 1 then 1 else 0) + if (r + d) % k = i then 1 else 0
      else 0 := by
  have hline : ∑ i' ∈ Finset.range (k - 1), ∑ j ∈ Finset.range k,
      (lineDiagPushes (k - 1) (k + 2) i' j).count ((i, k + 1), (r, d)) =
        if d < k ∧ r < k - 1 then (if r + d = k - 1 then 1 else 0) else 0 := by
    rw [Finset.sum_congr rfl fun i' _ => Finset.sum_congr rfl fun j hj =>
      count_lineDiagPushes hi i' (Finset.mem_range.1 hj) r d]
    simp only [Finset.sum_ite_irrel, Finset.sum_ite_eq', Finset.sum_const_zero, Finset.mem_range]
    by_cases h₁ : d < k <;> by_cases h₂ : r < k - 1 <;> simp [h₁, h₂]
  have hother : ∑ i' ∈ Finset.range (k - 1), ∑ t ∈ Finset.range k,
      (otherPushes (k - 1) (k + 2) i' t).count ((i, k + 1), (r, d)) =
        if d < k ∧ r < k - 1 then (if (r + d) % k = i then 1 else 0) else 0 := by
    rw [Finset.sum_congr rfl fun i' hi' => Finset.sum_congr rfl fun t ht =>
      count_otherPushes hi (Finset.mem_range.1 hi') (Finset.mem_range.1 ht) r d]
    simp only [Finset.sum_ite_irrel, Finset.sum_ite_eq', Finset.sum_const_zero, Finset.mem_range,
      if_pos hi]
    by_cases h₁ : d < k <;> by_cases h₂ : r < k - 1 <;> simp [h₁, h₂]
  rw [elemsRelatedElems, List.count_append]
  simp only [List.count_flatMap, Function.comp_def, Xor.sum_map_range, Nat.add_sub_cancel]
  rw [hline, hother]
  split <;> rfl

end Counts

/-- Only the `Q` cells of the strip have entries on disk `Q`. -/
theorem lt_of_mem_elemsRelatedElems {k i : ℕ} {v : Pair}
    (h : ((i, k + 1), v) ∈ elemsRelatedElems (k - 1) (k + 2)) : i < k - 1 := by
  rw [elemsRelatedElems, List.mem_append] at h
  rcases h with h | h
  · obtain ⟨i', hi', h⟩ := List.mem_flatMap.1 h
    obtain ⟨j, hj, h⟩ := List.mem_flatMap.1 h
    have hj := List.mem_range.1 hj
    simp only [lineDiagPushes, Nat.add_sub_cancel, Nat.add_succ_sub_one, List.mem_append,
      List.mem_cons, Prod.mk.injEq, List.not_mem_nil, or_false] at h
    rcases h with h | h
    · omega
    · split at h
      · rcases List.mem_append.1 h with h | h
        · obtain ⟨q, -, h⟩ := List.mem_map.1 h
          have := (Prod.mk.inj (Prod.mk.inj h).1).2
          omega
        · obtain ⟨q, hq, h⟩ := List.mem_map.1 h
          obtain ⟨a, ha, rfl⟩ := List.mem_map.1 hq
          have := (Prod.mk.inj (Prod.mk.inj h).1).1
          have ha := List.mem_range.1 ha
          omega
      · cases h
  · obtain ⟨i', hi', h⟩ := List.mem_flatMap.1 h
    obtain ⟨t, ht, h⟩ := List.mem_flatMap.1 h
    have hi' := List.mem_range.1 hi'
    have ht := List.mem_range.1 ht
    simp only [otherPushes, Nat.add_sub_cancel, Nat.add_succ_sub_one] at h
    split at h
    · simp only [List.mem_cons, Prod.mk.injEq, List.not_mem_nil, or_false] at h
      omega
    · cases h

/-! ### The code and its encoder -/

section Code

variable {st : NcfsState}

/-- The cells listed for a `Q` block are those of the special diagonal and of its own, each once. -/
theorem count_elemHash {i : ℕ} (hi : i < st.dataDiskNum - 1) (r d : ℕ) :
    ((new st).elemHash (i, st.dataDiskNum + 1)).count (r, d) =
      if d < st.dataDiskNum ∧ r < st.dataDiskNum - 1 ∧
        (r + d = st.dataDiskNum - 1 ∨ (r + d) % st.dataDiskNum = i) then 1 else 0 := by
  rw [new, count_fillHash, count_elemsRelatedElems_q hi]
  by_cases hcell : d < st.dataDiskNum ∧ r < st.dataDiskNum - 1
  · rw [if_pos hcell]
    by_cases hspecial : r + d = st.dataDiskNum - 1
    · have hown : (r + d) % st.dataDiskNum ≠ i := by
        rw [hspecial, Nat.mod_eq_of_lt (by omega)]
        omega
      rw [if_pos hspecial, if_neg hown, if_pos ⟨hcell.1, hcell.2, Or.inl hspecial⟩]
    · simp only [hspecial, hcell.1, hcell.2, if_false, zero_add, false_or, true_and]
  · rw [if_neg hcell, if_neg (by tauto)]

theorem sound (hk : 2 ≤ st.dataDiskNum) : (new st).Sound where
  row_pos := by
    change 0 < st.dataDiskNum - 1
    omega
  named_mem i hi x hx := by
    obtain ⟨d, r⟩ := x
    have hcount := List.count_pos_iff.2 hx
    rw [ElemTable.count_named] at hcount
    change 0 < ((new st).elemHash (i, st.dataDiskNum + 1)).count (r, d) at hcount
    rw [count_elemHash hi] at hcount
    split at hcount
    · rename_i h
      exact ⟨h.1.le, h.2.1⟩
    · omega
  find_lt d _ r _ i hi := by
    have hmem := mem_fillHash.1 (ElemTable.mem_findQBlocksId.1 hi)
    have hsymm := elemsRelatedElems_symm (st.dataDiskNum - 1) (st.dataDiskNum + 2) (r, d)
      (i, st.dataDiskNum + 1)
    refine lt_of_mem_elemsRelatedElems (v := (r, d)) (List.count_pos_iff.1 ?_)
    rw [← hsymm]
    exact List.count_pos_iff.2 hmem

theorem encoder_implements (hk : 2 ≤ st.dataDiskNum) (bs : ℕ) :
    (sound hk).encoder.Implements bs (encode (new st)) := fun _ _ _ _ => rfl

/-- A `Q` block is updated once for each time the data block is listed for it; `P` blocks are listed
for none. -/
theorem encoder_exact (hk : 2 ≤ st.dataDiskNum) : (sound hk).encoder.Exact := by
  intro d _ r _ i hi
  have hfind := ElemTable.count_findQBlocksId (rfl : (new st).elemHash = fillHash _)
    (elemsRelatedElems_symm _ _) d r i
  have hp : ((new st).named i).count (st.dataDiskNum, r) = 0 := by
    rw [ElemTable.count_named]
    change ((new st).elemHash (i, st.dataDiskNum + 1)).count (r, st.dataDiskNum) = 0
    rw [count_elemHash hi, if_neg (by omega)]
  change Even (((new st).findQBlocksId d r).count i + ((new st).named i).count (d, r) +
    ((new st).named i).count (st.dataDiskNum, r))
  rw [hfind, hp]
  exact ⟨_, rfl⟩

/-- Both parities hold after every run of writes to unused blocks. -/
theorem run_stripParity (hk : 2 ≤ st.dataDiskNum)
    (hblank : Blank st st.dataDiskNum st.diskBlockSize) {calls : List Call}
    (hsize : ∀ call ∈ calls, call.2 ≤ st.diskBlockSize) :
    ∀ g, ∀ o < st.diskBlockSize,
      (new st).StripParity (Machine.run (encodeStep (encode (new st))) st calls) g o := by
  obtain ⟨hshape, hparity⟩ := ArrayEncoder.run_storeParity (encoder_exact hk)
    (encoder_implements hk st.diskBlockSize) hblank hsize
  exact (ElemTable.storeParity_iff_stripParity (sound hk) hshape.block_eq).1 hparity

end Code

/-- Both parities hold after every run of writes to unused blocks, from a blank store: the cells
that are listed for a `Q` block are those of the special diagonal and of its own diagonal, each
once, and in every strip `P` and `Q` are the sums they should be. -/
theorem encode_run_stripParity (st : NcfsState) (hk : 2 ≤ st.dataDiskNum)
    (hblank : Blank st st.dataDiskNum st.diskBlockSize) (calls : List Call)
    (hsize : ∀ call ∈ calls, call.2 ≤ st.diskBlockSize) :
    (∀ i < st.dataDiskNum - 1, ∀ r d,
      ((new st).elemHash (i, st.dataDiskNum + 1)).count (r, d) =
        if d < st.dataDiskNum ∧ r < st.dataDiskNum - 1 ∧
          (r + d = st.dataDiskNum - 1 ∨ (r + d) % st.dataDiskNum = i) then 1 else 0) ∧
      ∀ g, ∀ o < st.diskBlockSize,
        (new st).StripParity (Machine.run (encodeStep (encode (new st))) st calls) g o :=
  ⟨fun _ hi r d => count_elemHash hi r d, run_stripParity hk hblank hsize⟩

/-- Three data disks and blocks of two bytes: two writes, the second of one byte. -/
theorem encode_run_stripParity_three :
    let st := NcfsState.blank 5 3 2 (by decide) 8
    (∀ i < 2, ∀ r d, ((new st).elemHash (i, 4)).count (r, d) =
      if d < 3 ∧ r < 2 ∧ (r + d = 2 ∨ (r + d) % 3 = i) then 1 else 0) ∧
      ∀ g, ∀ o < 2, (new st).StripParity (Machine.run (encodeStep (encode (new st))) st
        [(fun _ => Byte.ofNat 7, 2), (fun _ => Byte.ofNat 9, 1)]) g o :=
  encode_run_stripParity (NcfsState.blank 5 3 2 (by decide) 8) (by decide)
    ⟨⟨rfl, rfl, rfl⟩, rfl, fun _ _ _ => rfl⟩ _ (by decide)

end Coding4Evenodd

end Ncfs
