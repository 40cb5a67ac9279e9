/-
The RDP layer.

A strip has `k` rows, and `P` blocks lie on diagonals like data blocks: diagonal `i` has the cells
whose row and disk add up to `i` modulo `k + 1`.  A data write changes its own diagonal and, through
the `P` block of its row, another one; `encode` looks up the first only.

Main definitions:

* `Ncfs.Coding4Rdp.elemsRelatedElems` — the pushes of the constructor, in order;
* `Ncfs.Coding4Rdp.new`, `Ncfs.Coding4Rdp.encode` — the object and the encoder;
* `Ncfs.Coding4Rdp.SafeCall` — a write whose row has no `P` block on a diagonal, or of zeros.

Main results:

* `Ncfs.Coding4Rdp.count_elemHash` — the cells listed for a `Q` block are those of its diagonal,
  each once;
* `Ncfs.Coding4Rdp.encode_run_parity_iff` — both parities hold throughout a run exactly when all its
  writes are safe.
-/
import FuseMdr.ElemHash

set_option relaxedAutoImplicit false
set_option autoImplicit false

namespace Ncfs

namespace Coding4Rdp

/-! ### The object -/

/-- The pushes for data cell `(i, j)`: `LINE_XOR`. -/
def linePushes (col i j : ℕ) : List (Pair × Pair) :=
  let p := (i, col - 2)
  let d := (i, j)
  [(d, p), (p, d)]

/-- The pushes for `Q` cell `i`: `RDP_DIAG_XOR`. -/
def diagPushes (k row col i : ℕ) : List (Pair × Pair) :=
  let q := (i, col - 1)
  let m := k + 1
  let first := (i + 1) % m
  let t := (i + 1) % m
  -- beyond the last row the line is virtual
  (if first < row then
    let p := (first, col - 2)
    [(q, p), (p, q)]
  else []) ++
  (List.range (m - 1)).flatMap fun j =>
    if j ≠ t then
      let d := (j, (diagonalIndex m i j).toNat)
      [(q, d), (d, q)]
    else []

/-- `Coding4Rdp::elems_related_elems`, as the sequence of its pushes. -/
def elemsRelatedElems (k row col : ℕ) : List (Pair × Pair) :=
  ((List.range row).flatMap fun i => (List.range (col - 2)).flatMap fun j => linePushes col i j) ++
  (List.range row).flatMap fun i => diagPushes k row col i

/-- `Coding4Rdp::Coding4Rdp`. -/
def new (st : NcfsState) : ElemTable :=
  let k := st.dataDiskNum
  let p := k + 1
  let row := p - 1
  let col := p + 1
  { k := k, row := row, col := col, elemHash := fillHash (elemsRelatedElems k row col) }

/-- `Coding4Rdp::rdp_find_q_blocks_id`. -/
def rdpFindQBlocksId (coding : ElemTable) (diskId blockNo : ℕ) : List ℕ :=
  coding.findQBlocksId diskId blockNo

/-- `Coding4Rdp::encode`. -/
def encode (coding : ElemTable) (st : NcfsState) (buf : Buf) (size : ℕ) :
    Option (ℕ × ℕ) × NcfsState :=
  arrayEncode coding.row (rdpFindQBlocksId coding) size (roundToBlockSize st size) st buf size

/-! ### The pushes -/

theorem elemsRelatedElems_symm (k row col : ℕ) : SymmPushes (elemsRelatedElems k row col) := by
  refine SymmPushes.append (SymmPushes.flatMap fun i _ => SymmPushes.flatMap fun j _ =>
    SymmPushes.pair _ _) (SymmPushes.flatMap fun i _ => SymmPushes.append ?_
      (SymmPushes.flatMap fun j _ => ?_))
  · split
    · exact SymmPushes.pair _ _
    · exact SymmPushes.nil
  · split
    · exact SymmPushes.pair _ _
    · exact SymmPushes.nil

section Counts

variable {k i : ℕ}

/-- The row relation pushes nothing under a `Q` cell. -/
theorem count_linePushes (i' : ℕ) {j : ℕ} (hj : j < k) (r d : ℕ) :
    (linePushes (k + 2) i' j).count ((i, k + 1), (r, d)) = 0 := by
  refine List.count_eq_zero.2 fun hmem => ?_
  simp only [linePushes, Nat.add_sub_cancel, List.mem_cons, Prod.mk.injEq, List.not_mem_nil,
    or_false] at hmem
  omega

/-- A pair of pushes between `Q` cell `i'` and a cell `v` on another disk. -/
theorem count_pushes_q {i' : ℕ} {v : Pair} (hv : v.2 ≤ k) (r d : ℕ) :
    [((i', k + 1), v), (v, (i', k + 1))].count ((i, k + 1), (r, d)) =
      if i' = i ∧ v = (r, d) then 1 else 0 := by
  have hne : ((v, (i', k + 1)) == ((i, k + 1), (r, d))) = false := by
    rw [beq_eq_false_iff_ne]
    intro h
    have := congrArg Prod.snd (Prod.mk.inj h).1
    dsimp only at this
    omega
  rw [List.count_cons, List.count_singleton, hne]
  simp only [Bool.false_eq_true, if_false, zero_add, beq_iff_eq, Prod.mk.injEq, and_true]

/-- The diagonal relation pushes the cells of diagonal `i` under `Q` cell `i`. -/
theorem count_diagPushes {i' : ℕ} (hi' : i' < k) (r d : ℕ) :
    (diagPushes k k (k + 2) i').count ((i, k + 1), (r, d)) =
      if i' = i then (if r < k ∧ d ≤ k ∧ (r + d) % (k + 1) = i then 1 else 0) else 0 := by
  have ht : (i' + 1) % (k + 1) = i' + 1 := Nat.mod_eq_of_lt (by omega)
  have hdata : ∀ j ∈ Finset.range k,
      (if j ≠ i' + 1 then
        [((i', k + 1), (j, (diagonalIndex (k + 1) i' j).toNat)),
          ((j, (diagonalIndex (k + 1) i' j).toNat), (i', k + 1))]
      else []).count ((i, k + 1), (r, d)) =
      if j = r then (if i' = i ∧ r ≠ i' + 1 ∧ d ≤ k ∧ (r + d) % (k + 1) = i' then 1 else 0)
      else 0 := by
    intro j hj
    have hj := Finset.mem_range.1 hj
    have hlt : (i' + (k + 1) - j) % (k + 1) < k + 1 := Nat.mod_lt _ (by omega)
    have hiff : (i' + (k + 1) - j) % (k + 1) = d ↔ d ≤ k ∧ (j + d) % (k + 1) = i' := by
      constructor
      · rintro rfl
        refine ⟨by omega, ?_⟩
        rw [add_comm]
        exact (diagonal_iff (by omega) (by omega) hlt).1 rfl
      · rintro ⟨hd, h⟩
        rw [add_comm] at h
        exact (diagonal_iff (by omega) (by omega) (by omega)).2 h
    rw [diagonalIndex_eq (by omega) (by omega), Int.toNat_natCast]
    split
    · rename_i hne
      rw [count_pushes_q (by dsimp only; omega)]
      by_cases hjr : j = r
      · subst hjr
        simp [hne, hiff]
      · simp [hjr]
    · rename_i hne
      rw [List.count_nil]
      by_cases hjr : j = r
      · rw [if_pos hjr, if_neg (by omega)]
      · rw [if_neg hjr]
  have hp : (if i' + 1 < k then [((i', k + 1), (i' + 1, k)), ((i' + 1, k), (i', k + 1))]
      else []).count ((i, k + 1), (r, d)) =
        if i' = i ∧ r = i' + 1 ∧ r < k ∧ d = k then 1 else 0 := by
    split
    · rw [count_pushes_q (v := (i' + 1, k)) le_rfl]
      refine if_congr ?_ rfl rfl
      rw [Prod.mk.injEq]
      constructor
      · rintro ⟨rfl, rfl, rfl⟩
        exact ⟨rfl, rfl, by omega, rfl⟩
      · rintro ⟨rfl, rfl, -, rfl⟩
        exact ⟨rfl, rfl, rfl⟩
    · rw [List.count_nil, if_neg (by omega)]
  simp only [diagPushes, Nat.add_sub_cancel, Nat.add_succ_sub_one, ht]
  rw [List.count_append, hp, List.count_flatMap, Function.comp_def, Xor.sum_map_range,
    Finset.sum_congr rfl hdata, Finset.sum_ite_eq']
  by_cases hi : i' = i
  · subst hi
    by_cases hr : r < k
    · by_cases hri : r = i' + 1
      · -- the cell of the next row on the diagonal is a `P` cell
        have hiff : d = k ↔ d ≤ k ∧ (r + d) % (k + 1) = i' := by
          constructor
          · rintro rfl
            rw [hri, add_right_comm, Nat.mod_eq_sub_mod (by omega), Nat.mod_eq_of_lt (by omega)]
            omega
          · rintro ⟨hd, h⟩
            rcases Nat.lt_or_ge (r + d) (k + 1) with hlt | hge
            · rw [Nat.mod_eq_of_lt hlt] at h
              omega
            · rw [Nat.mod_eq_sub_mod hge, Nat.mod_eq_of_lt (by omega)] at h
              omega
        rw [hri] at hr hiff ⊢
        simp [hr, hiff]
      · simp [hr, hri]
    · simp [hr]
  · simp [hi]

/-- The pushes under a `Q` cell: the cells of its diagonal. -/
theorem count_elemsRelatedElems_q (hi : i < k) (r d : ℕ) :
    (elemsRelatedElems k k (k + 2)).count ((i, k + 1), (r, d)) =
      if r < k ∧ d ≤ k ∧ (r + d) % (k + 1) = i then 1 else 0 := by
  have hline : ∑ i' ∈ Finset.range k, ∑ j ∈ Finset.range k,
      (linePushes (k + 2) i' j).count ((i, k + 1), (r, d)) = 0 :=
    Finset.sum_eq_zero fun i' _ => Finset.sum_eq_zero fun j hj =>
      count_linePushes i' (Finset.mem_range.1 hj) r d
  have hdiag : ∑ i' ∈ Finset.range k,
      (diagPushes k k (k + 2) i').count ((i, k + 1), (r, d)) =
        if r < k ∧ d ≤ k ∧ (r + d) % (k + 1) = i then 1 else 0 := by
    rw [Finset.sum_congr rfl fun i' hi' => count_diagPushes (Finset.mem_range.1 hi') r d,
      Finset.sum_ite_eq', if_pos (Finset.mem_range.2 hi)]
  rw [elemsRelatedElems, List.count_append]
  simp only [List.count_flatMap, Function.comp_def, Xor.sum_map_range, Nat.add_sub_cancel]
  rw [hline, hdiag, zero_add]

end Counts

/-- Only the `Q` cells of the strip have entries on disk `Q`. -/
theorem lt_of_mem_elemsRelatedElems {k i : ℕ} {v : Pair}
    (h : ((i, k + 1), v) ∈ elemsRelatedElems k k (k + 2)) : i < k := by
  rw [elemsRelatedElems, List.mem_append] at h
  rcases h with h | h
  · obtain ⟨i', hi', h⟩ := List.mem_flatMap.1 h
    obtain ⟨j, hj, h⟩ := List.mem_flatMap.1 h
    have hj := List.mem_range.1 hj
    simp only [linePushes, Nat.add_sub_cancel, List.mem_cons, Prod.mk.injEq, List.not_mem_nil,
      or_false] at h
    omega
  · obtain ⟨i', hi', h⟩ := List.mem_flatMap.1 h
    have hi' := List.mem_range.1 hi'
    have hcount := count_diagPushes (i := i) hi' v.1 v.2
    rw [← List.count_pos_iff, hcount] at h
    split at h <;> omega

/-! ### The code and its encoder -/

section Code

variable {st : NcfsState}

/-- The cells listed for a `Q` block are those of its diagonal, data and `P` cells alike, each
once. -/
theorem count_elemHash {i : ℕ} (hi : i < st.dataDiskNum) (r d : ℕ) :
    ((new st).elemHash (i, st.dataDiskNum + 1)).count (r, d) =
      if r < st.dataDiskNum ∧ d ≤ st.dataDiskNum ∧ (r + d) % (st.dataDiskNum + 1) = i then 1
      else 0 := by
  rw [new, count_fillHash]
  exact count_elemsRelatedElems_q hi r d

theorem sound (hk : 1 ≤ st.dataDiskNum) : (new st).Sound where
  row_pos := hk
  named_mem i hi x hx := by
    obtain ⟨d, r⟩ := x
    have hcount := List.count_pos_iff.2 hx
    rw [ElemTable.count_named] at hcount
    change 0 < ((new st).elemHash (i, st.dataDiskNum + 1)).count (r, d) at hcount
    rw [count_elemHash hi] at hcount
    split at hcount
    · rename_i h
      exact ⟨h.2.1, h.1⟩
    · omega
  find_lt d _ r _ i hi := by
    have hmem := mem_fillHash.1 (ElemTable.mem_findQBlocksId.1 hi)
    have hsymm := elemsRelatedElems_symm st.dataDiskNum st.dataDiskNum (st.dataDiskNum + 2) (r, d)
      (i, st.dataDiskNum + 1)
    have hmem' : ((i, st.dataDiskNum + 1), (r, d)) ∈
        elemsRelatedElems st.dataDiskNum st.dataDiskNum (st.dataDiskNum + 2) := by
      rw [← List.count_pos_iff, ← hsymm]
      exact List.count_pos_iff.2 hmem
    exact lt_of_mem_elemsRelatedElems hmem'

theorem encoder_implements (hk : 1 ≤ st.dataDiskNum) (bs : ℕ) :
    (sound hk).encoder.Implements bs (encode (new st)) := fun _ _ _ _ => rfl

/-- The `Q` block through the `P` cell of the written row is not updated: one block is updated too
rarely in every row but the first. -/
theorem odd_iff (d : ℕ) {r i : ℕ} (hr : r < st.dataDiskNum)
    (hi : i < st.dataDiskNum) :
    Odd (((new st).findQBlocksId d r).count i + ((new st).named i).count (d, r) +
      ((new st).named i).count (st.dataDiskNum, r)) ↔ r = i + 1 := by
  have hfind := ElemTable.count_findQBlocksId (rfl : (new st).elemHash = fillHash _)
    (elemsRelatedElems_symm _ _ _) d r i
  have hp : ((new st).named i).count (st.dataDiskNum, r) = if r = i + 1 then 1 else 0 := by
    rw [ElemTable.count_named]
    change ((new st).elemHash (i, st.dataDiskNum + 1)).count (r, st.dataDiskNum) = _
    rw [count_elemHash hi]
    refine if_congr ?_ rfl rfl
    constructor
    · rintro ⟨-, -, h⟩
      rcases Nat.eq_zero_or_pos r with rfl | hpos
      · rw [zero_add, Nat.mod_eq_of_lt (by omega)] at h
        omega
      · rw [Nat.mod_eq_sub_mod (by omega), Nat.mod_eq_of_lt (by omega)] at h
        omega
    · rintro rfl
      rw [Nat.mod_eq_sub_mod (by omega), Nat.mod_eq_of_lt (by omega)]
      omega
  rw [hfind, hp]
  by_cases h : r = i + 1
  · rw [if_pos h]
    exact iff_of_true ⟨_, congrArg (fun n => n + 1) (two_mul _).symm⟩ h
  · rw [if_neg h, add_zero]
    exact iff_of_false (Nat.not_odd_iff_even.2 ⟨_, rfl⟩) h

end Code

/-! ### Runs -/

/-- The write goes to the first row of a strip, or writes zeros only. -/
def SafeCall (k : ℕ) (st : NcfsState) (call : Call) : Prop :=
  ∀ d b, arrayPick st (blockRequest st call.2) = some (d, b) →
    b % k = 0 ∨ ∀ o < call.2, call.1 o = 0

/-- When one write to an unused block keeps both parities. -/
theorem encode_storeParity_iff {st st' : NcfsState} (hk : 1 ≤ st.dataDiskNum) {bs : ℕ}
    (h : st'.Shaped st.dataDiskNum bs) (hun : Unused st' st.dataDiskNum)
    (hparity : StoreParity (sound hk).code st') {call : Call} (hsize : call.2 ≤ bs) :
    StoreParity (sound hk).code (encodeStep (encode (new st)) st' call) ↔
      SafeCall st.dataDiskNum st' call := by
  rw [encodeStep, ArrayEncoder.storeParity_step_iff (encoder_implements hk bs) h
    (by simp [hun.list_eq]) hparity call.1 hsize]
  refine forall_congr' fun d => forall₂_congr fun b hpick => ?_
  have hr : b % st.dataDiskNum < st.dataDiskNum := Nat.mod_lt _ hk
  constructor
  · intro hclean
    by_cases hrow : b % st.dataDiskNum = 0
    · exact Or.inl hrow
    · refine Or.inr fun o ho => (hclean o ho).2 (b % st.dataDiskNum - 1) ?_ ?_
      · change b % st.dataDiskNum - 1 < st.dataDiskNum
        omega
      · exact (odd_iff d hr (by omega)).2 (by omega)
  · intro hsafe o ho
    refine ⟨hun.pick_zero h hpick (by rw [h.block_eq]; omega), fun i hi hodd => ?_⟩
    have hrow := (odd_iff d hr hi).1 hodd
    rcases hsafe with h0 | hzero
    · omega
    · exact hzero o ho

/-- Both parities hold in every state of a run of writes to unused blocks, from a blank store,
exactly when every write goes to the first row of its strip or writes zeros. -/
theorem encode_run_parity_iff (st : NcfsState) (hk : 2 ≤ st.dataDiskNum)
    (hblank : Blank st st.dataDiskNum st.diskBlockSize) (calls : List Call)
    (hsize : ∀ call ∈ calls, call.2 ≤ st.diskBlockSize) :
    Machine.Always (encodeStep (encode (new st)))
        (fun st' => ∀ g, ∀ o < st.diskBlockSize, (new st).StripParity st' g o) st calls ↔
      Machine.AllSteps (encodeStep (encode (new st))) (SafeCall st.dataDiskNum) st calls := by
  have hk' : 1 ≤ st.dataDiskNum := by omega
  refine Machine.always_iff_allSteps (A := fun call : Call => call.2 ≤ st.diskBlockSize)
    (I := fun st' => st'.Shaped st.dataDiskNum st.diskBlockSize ∧ Unused st' st.dataDiskNum)
    (fun st' call hcall ⟨hshape, hun⟩ => ?_) (fun st' call hcall ⟨hshape, hun⟩ hp => ?_)
    ⟨hblank.shaped, hblank.unused⟩ ?_ hsize
  · exact ⟨ArrayEncoder.encode_shaped (encoder_implements hk' _) hshape call.1 call.2,
      ArrayEncoder.encode_unused (encoder_implements hk' _) hshape hun call.1 hcall⟩
  · have hnext : (encodeStep (encode (new st)) st' call).Shaped st.dataDiskNum st.diskBlockSize :=
      ArrayEncoder.encode_shaped (encoder_implements hk' _) hshape call.1 call.2
    rw [← ElemTable.storeParity_iff_stripParity (sound hk') hshape.block_eq] at hp
    rw [← ElemTable.storeParity_iff_stripParity (sound hk') hnext.block_eq]
    exact encode_storeParity_iff hk' hshape hun hp hcall
  · rw [← ElemTable.storeParity_iff_stripParity (sound hk') rfl]
    exact Blank.storeParity (C := (sound hk').code) hblank

/-- Two data disks and a write of zeros to the second row. -/
theorem encode_run_parity_iff_two :
    let st := NcfsState.blank 4 2 1 (by decide) 4
    let calls : List Call := [(fun _ => Byte.ofNat 1, 1), (fun _ => Byte.ofNat 1, 1),
      (fun _ => 0, 1)]
    Machine.Always (encodeStep (encode (new st)))
        (fun st' => ∀ g, ∀ o < 1, (new st).StripParity st' g o) st calls ↔
      Machine.AllSteps (encodeStep (encode (new st))) (SafeCall 2) st calls :=
  encode_run_parity_iff (NcfsState.blank 4 2 1 (by decide) 4) (by decide)
    ⟨⟨rfl, rfl, rfl⟩, rfl, fun _ _ _ => rfl⟩ _ (by decide)

/-- Three writes of a one on two data disks: the third goes to the second row, and the `Q` block
through the `P` block of that row is not updated. -/
theorem encode_run_parity_broken :
    let st := NcfsState.blank 4 2 1 (by decide) 4
    ¬ (new st).StripParity (Machine.run (encodeStep (encode (new st))) st
      [(fun _ => Byte.ofNat 1, 1), (fun _ => Byte.ofNat 1, 1),
        (fun _ => Byte.ofNat 1, 1)]) 0 0 := by
  intro st h
  exact absurd (h.q 0 (by decide)) (by decide)

end Coding4Rdp

end Ncfs
