/-
Writing a block under the MDR-I code.

`encode` adds the new bytes to the `P` block of the row and to the `Q` blocks that
`mdr_I_find_q_blocks_id` lists.  That list is a scan of two columns of the matrix, that of the data
disk and that of `P`, so a `Q` block that depends on both is updated twice.

Main definitions:

* `Ncfs.Coding4Mdr1.encode` — the function;
* `Ncfs.mdrCode` — the MDR-I code as an array code;
* `Ncfs.mdrEncoder` — the encoder of that code.

Main results:

* `Ncfs.mdrCode_parity_iff` — the equations of the array code are those of the matrix;
* `Ncfs.mdrEncoder_exact` — the column scan meets the rows of the matrix;
* `Ncfs.Coding4Mdr1.encode_run_mdrParity` — writes to unused blocks keep both parities.
-/
import FuseMdr.ArrayRun
import FuseMdr.MdrRepairSet

set_option relaxedAutoImplicit false
set_option autoImplicit false

namespace Ncfs

/-- `Coding4Mdr1::encode`. -/
def Coding4Mdr1.encode (coding : Coding4Mdr1) (st : NcfsState) (buf : Buf) (size : ℕ) :
    Option (ℕ × ℕ) × NcfsState :=
  arrayEncode coding.stripSize (mdrIFindQBlocksId coding st) (roundToBlockSize st size) size st
    buf size

/-! ### The array code -/

/-- The blocks that row `s` of the matrix selects, column by column. -/
def mdrNamed (k s : ℕ) : List (ℕ × ℕ) :=
  (List.range (k + 1)).flatMap fun j =>
    ((List.range (2 ^ k)).filter fun t => selects (mdrIEncodingMatrixB k) k s j t).map
      fun t => (j, t)

/-- The MDR-I code for `k` data disks. -/
def mdrCode (k : ℕ) : Strip.Code where
  dataDisks := k
  rows := 2 ^ k
  named := mdrNamed k
  named_mem i _ x hx := by
    obtain ⟨j, hj, hx⟩ := List.mem_flatMap.1 hx
    obtain ⟨t, ht, rfl⟩ := List.mem_map.1 hx
    exact ⟨Nat.lt_succ_iff.1 (List.mem_range.1 hj), List.mem_range.1 (List.mem_filter.1 ht).1⟩

theorem sum_mdrNamed {V : Type*} [AddCommGroup V] (k s : ℕ) (c : ℕ × ℕ → V) :
    ((mdrNamed k s).map c).sum = ∑ j ∈ Finset.range (k + 1),
      columnSum (mdrIEncodingMatrixB k) k j s fun t => c (j, t) := by
  rw [mdrNamed, Xor.sum_map_flatMap, Xor.sum_map_range]
  refine Finset.sum_congr rfl fun j _ => ?_
  rw [List.map_map, columnSum, ← Xor.sum_map_filter_range]
  rfl

/-- The equations of the array code are those of the matrix. -/
theorem mdrCode_parity_iff {V : Type*} [AddCommGroup V] {k : ℕ} {c : ℕ × ℕ → V} :
    (mdrCode k).Parity c ↔ MdrParity (mdrIEncodingMatrixB k) k fun j t => c (j, t) := by
  constructor
  · intro h
    exact ⟨h.p, fun s hs => (h.q s hs).trans (sum_mdrNamed k s c)⟩
  · intro h
    exact ⟨h.p, fun s hs => (h.q s hs).trans (sum_mdrNamed k s c).symm⟩

theorem count_mdrNamed {k s j t : ℕ} (hj : j ≤ k) (ht : t < 2 ^ k) :
    (mdrNamed k s).count (j, t) = if selects (mdrIEncodingMatrixB k) k s j t then 1 else 0 := by
  have hcol : ∀ i ∈ Finset.range (k + 1),
      (((List.range (2 ^ k)).filter fun t => selects (mdrIEncodingMatrixB k) k s i t).map
        fun t => (i, t)).count (j, t) =
      if i = j then (if selects (mdrIEncodingMatrixB k) k s j t then 1 else 0) else 0 := by
    intro i _
    by_cases hij : i = j
    · subst hij
      rw [if_pos rfl, List.count_map_of_injective _ (fun t => (i, t))
        (fun t t' h => (Prod.mk.inj h).2)]
      split
      · exact List.count_eq_one_of_mem (List.nodup_range.filter _)
          (List.mem_filter.2 ⟨List.mem_range.2 ht, ‹_›⟩)
      · refine List.count_eq_zero.2 fun hmem => ?_
        exact absurd (List.mem_filter.1 hmem).2 ‹_›
    · rw [if_neg hij]
      refine List.count_eq_zero.2 fun hmem => ?_
      obtain ⟨t', -, h⟩ := List.mem_map.1 hmem
      exact hij (Prod.mk.inj h).1
  rw [mdrNamed, List.count_flatMap, Function.comp_def, Xor.sum_map_range,
    Finset.sum_congr rfl hcol, Finset.sum_ite_eq', if_pos (Finset.mem_range.2 (by omega))]

/-! ### The encoder -/

section Encoder

variable {coding : Coding4Mdr1} {k : ℕ} {st : NcfsState}

/-- The column scan lists a `Q` block once for each of the two columns that select it. -/
theorem count_mdrIFindQBlocksId (hc : coding.For k) (hst : st.dataDiskNum = k) (d r : ℕ) {i : ℕ}
    (hi : i < 2 ^ k) :
    (mdrIFindQBlocksId coding st d r).count i =
      (if selects (mdrIEncodingMatrixB k) k i d r then 1 else 0) +
        if selects (mdrIEncodingMatrixB k) k i k r then 1 else 0 := by
  have hone : ∀ (a : ℕ) (p : Bool), (if p then [a] else []).count i =
      if a = i then (if p then 1 else 0) else 0 := by
    intro a p
    cases p <;> by_cases h : a = i <;> simp [h]
  have hrow : ∀ a ∈ Finset.range (2 ^ k),
      ((if selects (mdrIEncodingMatrixB k) k a d r then [a] else []) ++
        if selects (mdrIEncodingMatrixB k) k a k r then [a] else []).count i =
      if a = i then (if selects (mdrIEncodingMatrixB k) k i d r then 1 else 0) +
        (if selects (mdrIEncodingMatrixB k) k i k r then 1 else 0) else 0 := by
    intro a _
    rw [List.count_append, hone, hone]
    by_cases h : a = i <;> simp [h]
  simp only [mdrIFindQBlocksId, hc.hasBit_eq, hc.stripSize_eq, hst]
  rw [List.count_flatMap, Function.comp_def, Xor.sum_map_range, Finset.sum_congr rfl hrow,
    Finset.sum_ite_eq', if_pos (Finset.mem_range.2 hi)]

theorem mdrIFindQBlocksId_lt (hc : coding.For k) (st : NcfsState) {d r i : ℕ}
    (hi : i ∈ mdrIFindQBlocksId coding st d r) : i < 2 ^ k := by
  obtain ⟨a, ha, hi⟩ := List.mem_flatMap.1 hi
  rw [hc.stripSize_eq] at ha
  have ha := List.mem_range.1 ha
  rcases List.mem_append.1 hi with h | h <;> split at h <;>
    first
    | (rw [List.mem_singleton] at h; omega)
    | cases h

/-- The encoder of an object made for `k` data disks; the lists do not depend on the state but for
the number of data disks. -/
def mdrEncoder (hc : coding.For k) (st : NcfsState) : ArrayEncoder (mdrCode k) where
  findQBlocksId := mdrIFindQBlocksId coding st
  find_lt _ _ _ _ _ hi := mdrIFindQBlocksId_lt hc st hi
  xorSize st size := roundToBlockSize st size
  qSize _ size := size
  sizes st size hsize := by
    obtain ⟨h₁, -⟩ := roundToBlockSize_le hsize
    exact ⟨by omega, h₁, hsize⟩
  rows_pos := Nat.two_pow_pos k

theorem mdrEncoder_implements (hc : coding.For k) (hst : st.dataDiskNum = k) (bs : ℕ) :
    (mdrEncoder hc st).Implements bs coding.encode := by
  intro st' buf size h
  have hfind : mdrIFindQBlocksId coding st' = mdrIFindQBlocksId coding st := by
    funext d r
    rw [mdrIFindQBlocksId, mdrIFindQBlocksId, h.data_eq, hst]
    rfl
  rw [Coding4Mdr1.encode, hc.stripSize_eq, hfind]
  rfl

/-- A `Q` block is updated once for each way in which it depends on the data block. -/
theorem mdrEncoder_exact (hc : coding.For k) (hst : st.dataDiskNum = k) :
    (mdrEncoder hc st).Exact := by
  intro d hd r hr i hi
  have hd : d < k := hd
  change Even ((mdrIFindQBlocksId coding st d r).count i + (mdrNamed k i).count (d, r) +
    (mdrNamed k i).count (k, r))
  rw [count_mdrIFindQBlocksId hc hst d r hi, count_mdrNamed hd.le hr, count_mdrNamed le_rfl hr]
  exact ⟨_, add_assoc ..⟩

end Encoder

/-- Both parities hold after every run of writes to unused blocks, from a blank store. -/
theorem Coding4Mdr1.encode_run_mdrParity (st : NcfsState) {matrix : ℕ → ℕ → ℕ}
    (hmatrix : mdrIEncodingMatrix st.dataDiskNum = .ok matrix)
    (hblank : Blank st st.dataDiskNum st.diskBlockSize) (calls : List Call)
    (hsize : ∀ call ∈ calls, call.2 ≤ st.diskBlockSize) :
    ∃ coding, Coding4Mdr1.new st = .ok coding ∧
      let st' := Machine.run (encodeStep coding.encode) st calls
      ∀ g, ∀ o < st.diskBlockSize, MdrParity matrix st.dataDiskNum fun j t =>
        st'.block j (g * 2 ^ st.dataDiskNum + t) o := by
  obtain ⟨hk, rfl⟩ := eq_of_mdrIEncodingMatrix hmatrix
  obtain ⟨coding, hnew, hcoding, -⟩ := Coding4Mdr1.new_ok hk
  refine ⟨coding, hnew, fun g o ho => ?_⟩
  obtain ⟨hshape, hparity⟩ := ArrayEncoder.run_storeParity (mdrEncoder_exact hcoding rfl)
    (mdrEncoder_implements hcoding rfl st.diskBlockSize) hblank hsize
  exact mdrCode_parity_iff.1 (hparity g o (by rwa [hshape.block_eq]))

/-- Three data disks and blocks of two bytes: two writes, the second of one byte. -/
theorem Coding4Mdr1.encode_run_mdrParity_three :
    ∃ coding, Coding4Mdr1.new (NcfsState.blank 5 3 2 (by decide) 8) = .ok coding ∧
      let st' := Machine.run (encodeStep coding.encode) (NcfsState.blank 5 3 2 (by decide) 8)
        [(fun _ => Byte.ofNat 7, 2), (fun _ => Byte.ofNat 9, 1)]
      ∀ g, ∀ o < 2, MdrParity (Ncfs.mdrIEncodingMatrixB 3) 3 fun j t =>
        st'.block j (g * 2 ^ 3 + t) o :=
  Coding4Mdr1.encode_run_mdrParity (NcfsState.blank 5 3 2 (by decide) 8) rfl
    ⟨⟨rfl, rfl, rfl⟩, rfl, fun _ _ _ => rfl⟩ _ (by decide)

end Ncfs
