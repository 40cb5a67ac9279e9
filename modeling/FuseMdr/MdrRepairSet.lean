/-
The object `Coding4Mdr1` and the index sets it repairs a disk with.

To rebuild a data disk or the `P` disk, the code reads half of the rows of a stripe group.  In a
row that is read, the lost block is the sum of the row.  Each of the `Q` blocks of these rows
contains, besides blocks in rows that are read, exactly one block of the lost disk in a row that
is not read, and every such block occurs in exactly one of them.

Main definitions:

* `Ncfs.Coding4Mdr1` — the object, with the index sets it caches;
* `Ncfs.mdrIRepairDpDiskStripeIndexs` — the rows to read;
* `Ncfs.mdrIRepairDpDiskNonstripeIndexsBlocksNo` — for each other row, the blocks whose sum is the
  lost block of that row;
* `Ncfs.repairRow` — membership in the rows to read, by recursion along the construction of the
  matrix;
* `Ncfs.mate` — the row whose lost block the `Q` block of a row gives.

Main results:

* `Ncfs.mdrIRepairDpDiskStripeIndexs_eq` — the rows to read are the repair rows, in order;
* `Ncfs.selects_repairRow` — a `Q` block of a repair row contains one block outside the repair
  rows, on the lost disk and in the mate row;
* `Ncfs.exists_mate` — every other row is the mate of exactly one repair row;
* `Ncfs.nonstripeIndexs_eq` — the table of the other rows.
-/
import FuseMdr.Loops
import FuseMdr.MdrMatrix

set_option relaxedAutoImplicit false
set_option autoImplicit false

namespace Ncfs

/-! ### The object -/

/-- The members of `Coding4Mdr1`.  A map with the default entry `[]` stands for `std::map`. -/
structure Coding4Mdr1 where
  /-- `mdr_I_encoding_matrixB`, by row and column. -/
  mdrIEncodingMatrixB : ℕ → ℕ → ℕ
  /-- `strip_size`. -/
  stripSize : ℕ
  /-- `mdr_I_one_dpDisk_fail_bool_m`: the table of the other rows is filled. -/
  mdrIOneDpDiskFailBoolM : Bool
  /-- `mdr_I_one_dpDisk_fail_bool_v`: the rows to read are filled in. -/
  mdrIOneDpDiskFailBoolV : Bool
  /-- `mdr_I_one_qDisk_fail_bool`: the table of the `Q` disk is filled. -/
  mdrIOneQDiskFailBool : Bool
  /-- `mdr_I_one_dpDisk_fail_nonStripeIndex`. -/
  mdrIOneDpDiskFailNonStripeIndex : ℕ → List (List ℕ)
  /-- `mdr_I_one_qDisk_fail_stripeIndex`. -/
  mdrIOneQDiskFailStripeIndex : ℕ → List (List ℕ)
  /-- `mdr_I_one_dpDisk_fail_stripeIndex`. -/
  mdrIOneDpDiskFailStripeIndex : List ℕ

/-- `Coding4Mdr1::Coding4Mdr1`. -/
def Coding4Mdr1.new (st : NcfsState) : Except CodingError Coding4Mdr1 := do
  let matrix ← mdrIEncodingMatrix st.dataDiskNum
  return {
    mdrIEncodingMatrixB := matrix
    stripSize := 2 ^ st.dataDiskNum
    mdrIOneDpDiskFailBoolM := false
    mdrIOneDpDiskFailBoolV := false
    mdrIOneQDiskFailBool := false
    mdrIOneDpDiskFailNonStripeIndex := fun _ => []
    mdrIOneQDiskFailStripeIndex := fun _ => []
    mdrIOneDpDiskFailStripeIndex := [] }

/-- The test `(val & (1 << (strip_size - t - 1))) != 0`. -/
def Coding4Mdr1.hasBit (coding : Coding4Mdr1) (val t : ℕ) : Bool :=
  val &&& (1 <<< (coding.stripSize - t - 1)) != 0

/-- `Coding4Mdr1::mdr_I_find_q_blocks_id`: the `Q` blocks that change with a data block, a block
that changes with it and with the parity of its row being listed twice. -/
def mdrIFindQBlocksId (coding : Coding4Mdr1) (st : NcfsState) (diskId blockNo : ℕ) : List ℕ :=
  let pDiskId := st.dataDiskNum
  (List.range coding.stripSize).flatMap fun i =>
    (if coding.hasBit (coding.mdrIEncodingMatrixB i diskId) blockNo then [i] else []) ++
    (if coding.hasBit (coding.mdrIEncodingMatrixB i pDiskId) blockNo then [i] else [])

/-- `Coding4Mdr1::mdr_I_repair_qDisk_blocks_id`: for each column, the blocks that a `Q` block
contains. -/
def mdrIRepairQDiskBlocksId (coding : Coding4Mdr1) (st : NcfsState) (blockNo : ℕ) :
    List (List ℕ) :=
  (List.range (st.dataDiskNum + 1)).map fun i =>
    (List.range coding.stripSize).filter fun j =>
      coding.hasBit (coding.mdrIEncodingMatrixB blockNo i) j

/-- `Coding4Mdr1::mdr_I_repair_dpDisk_stripeIndexs_internal`, with disks and rows counted from
one. -/
def mdrIRepairDpDiskStripeIndexsInternal (diskID : ℕ) : ℕ → Except CodingError (List ℕ)
  | 0 => if diskID = 0 then .ok [] else if diskID = 1 then .ok [1] else .error .exit
  | 1 => if diskID = 1 then .ok [1] else if diskID = 2 then .ok [2] else .error .exit
  | k + 2 => do
      let valStripSize := 2 ^ (k + 2)
      let r := valStripSize / 2
      if 1 ≤ diskID ∧ diskID ≤ k + 1 then
        let old ← mdrIRepairDpDiskStripeIndexsInternal diskID (k + 1)
        return ((List.range valStripSize).map fun i => i + 1).filter fun i =>
          i ∈ old ∨ r ≤ i ∧ i - r ∈ old
      else if diskID = k + 2 then
        return (List.range r).map fun i => i + 1
      else if diskID = k + 3 then
        return (List.range (valStripSize - r)).map fun i => r + 1 + i
      else
        .error .exit

/-- `Coding4Mdr1::mdr_I_repair_dpDisk_stripeIndexs`. -/
def mdrIRepairDpDiskStripeIndexs (diskID valK : ℕ) : Except CodingError (List ℕ) := do
  let ivec ← mdrIRepairDpDiskStripeIndexsInternal (diskID + 1) valK
  return ivec.map fun i => i - 1

/-- `Coding4Mdr1::mdr_I_repair_chg_blkIndexOffset_in_buf`, `none` standing for `-1`. -/
def mdrIRepairChgBlkIndexOffsetInBuf (stripeBlkOffset : ℕ) (stripeIndexs : List ℕ) : Option ℕ :=
  stripeIndexs.idxOf? stripeBlkOffset

/-- The loop over `t` in `mdr_I_repair_dpDisk_nonstripeIndexs_blocks_no`: the selected rows that
are read, and the last selected row that is not. -/
def splitSelected (coding : Coding4Mdr1) (stripeIndexs : List ℕ) (val : ℕ)
    (failDiskBlockNo : Option ℕ) : List ℕ × Option ℕ :=
  (List.range coding.stripSize).foldl (fun (ivec, fail) t =>
    if coding.hasBit val t then
      if t ∈ stripeIndexs then (ivec ++ [t], fail) else (ivec, some t)
    else (ivec, fail)) ([], failDiskBlockNo)

/-- The loop over `j` there, for row `s` of the matrix. -/
def splitRow (coding : Coding4Mdr1) (st : NcfsState) (stripeIndexs : List ℕ) (s : ℕ) :
    List (List ℕ) × Option ℕ :=
  (List.range (st.dataDiskNum + 1)).foldl (fun (iivec, fail) j =>
    let (ivec, fail) := splitSelected coding stripeIndexs (coding.mdrIEncodingMatrixB s j) fail
    (iivec ++ [ivec], fail)) ([], none)

/-- `Coding4Mdr1::mdr_I_repair_dpDisk_nonstripeIndexs_blocks_no`. -/
def mdrIRepairDpDiskNonstripeIndexsBlocksNo (coding : Coding4Mdr1) (st : NcfsState)
    (stripeIndexs : List ℕ) : Except CodingError (ℕ → List (List ℕ)) :=
  stripeIndexs.foldlM (fun ivmap s =>
    match splitRow coding st stripeIndexs s with
    | (_, none) => .error .exit
    | (iivec, some failDiskBlockNo) =>
        .ok (Function.update ivmap failDiskBlockNo (iivec ++ [[s]]))) fun _ => []

/-! ### The rows to read -/

/-- Row `s` is read when disk `d` is rebuilt. -/
def repairRow : ℕ → ℕ → ℕ → Bool
  | 0, _, _ => false
  | k + 1, d, s =>
      if d < k then repairRow k d (s % 2 ^ k)
      else if d = k then decide (s < 2 ^ k) else decide (2 ^ k ≤ s)

theorem repairRow_succ_old {k d : ℕ} (h : d < k) (s : ℕ) :
    repairRow (k + 1) d s = repairRow k d (s % 2 ^ k) := by
  rw [repairRow, if_pos h]

theorem repairRow_succ_data (k s : ℕ) : repairRow (k + 1) k s = decide (s < 2 ^ k) := by
  rw [repairRow, if_neg (lt_irrefl k), if_pos rfl]

theorem repairRow_succ_parity (k s : ℕ) : repairRow (k + 1) (k + 1) s = decide (2 ^ k ≤ s) := by
  rw [repairRow, if_neg (by omega), if_neg (by omega)]

/-- The repair rows of a stripe group, in order. -/
def repairRows (k d : ℕ) : List ℕ := (List.range (2 ^ k)).filter (repairRow k d)

theorem mem_repairRows {k d s : ℕ} : s ∈ repairRows k d ↔ s < 2 ^ k ∧ repairRow k d s = true := by
  rw [repairRows, List.mem_filter, List.mem_range]

theorem repairRows_nodup (k d : ℕ) : (repairRows k d).Nodup := List.nodup_range.filter _

theorem repairRows_succ_data (k : ℕ) : repairRows (k + 1) k = List.range (2 ^ k) := by
  rw [repairRows, pow_succ, mul_two, List.range_add, List.filter_append]
  rw [List.filter_eq_self.2, List.filter_eq_nil_iff.2, List.append_nil]
  · intro s hs
    obtain ⟨i, -, rfl⟩ := List.mem_map.1 hs
    simp [repairRow_succ_data]
  · intro s hs
    simpa [repairRow_succ_data] using hs

theorem repairRows_succ_parity (k : ℕ) :
    repairRows (k + 1) (k + 1) = (List.range (2 ^ k)).map fun i => 2 ^ k + i := by
  rw [repairRows, pow_succ, mul_two, List.range_add, List.filter_append]
  rw [List.filter_eq_nil_iff.2, List.filter_eq_self.2, List.nil_append]
  · intro s hs
    obtain ⟨i, -, rfl⟩ := List.mem_map.1 hs
    simp [repairRow_succ_parity]
  · intro s hs
    simpa [repairRow_succ_parity] using hs

theorem mem_map_succ_repairRows {k d i : ℕ} :
    i ∈ (repairRows k d).map (fun i => i + 1) ↔
      1 ≤ i ∧ i - 1 < 2 ^ k ∧ repairRow k d (i - 1) = true := by
  constructor
  · intro h
    obtain ⟨s, hs, rfl⟩ := List.mem_map.1 h
    simpa using mem_repairRows.1 hs
  · rintro ⟨h₁, h₂⟩
    exact List.mem_map.2 ⟨i - 1, mem_repairRows.2 h₂, by omega⟩

/-- The recursion of the source, which counts disks and rows from one. -/
theorem mdrIRepairDpDiskStripeIndexsInternal_eq (k : ℕ) : ∀ {d : ℕ}, d ≤ k + 1 →
    mdrIRepairDpDiskStripeIndexsInternal (d + 1) (k + 1) =
      .ok ((repairRows (k + 1) d).map fun i => i + 1) := by
  induction k with
  | zero =>
      intro d hd
      have hd' : d = 0 ∨ d = 1 := by omega
      rcases hd' with rfl | rfl
      · rw [repairRows_succ_data]
        rfl
      · rw [repairRows_succ_parity]
        rfl
  | succ k ih =>
      intro d hd
      have hrow : 2 ^ (k + 2) = 2 ^ (k + 1) + 2 ^ (k + 1) := by rw [pow_succ _ (k + 1), mul_two]
      have hr : 2 ^ (k + 2) / 2 = 2 ^ (k + 1) := by omega
      rw [mdrIRepairDpDiskStripeIndexsInternal]
      simp only [hr]
      rcases Nat.lt_trichotomy d (k + 1) with hdk | rfl | hdk
      · rw [if_pos ⟨by omega, by omega⟩, ih (by omega)]
        -- the set insertion keeps the rows whose position in their half is a repair row
        simp only [bind, Except.bind, pure, Except.pure]
        rw [List.filter_map]
        congr 2
        refine List.filter_congr fun i hi => ?_
        have hi := List.mem_range.1 hi
        rw [Function.comp_apply, repairRow_succ_old hdk, Bool.eq_iff_iff, decide_eq_true_iff,
          mem_map_succ_repairRows, mem_map_succ_repairRows]
        rcases Nat.lt_or_ge i (2 ^ (k + 1)) with hlt | hge
        · rw [Nat.mod_eq_of_lt hlt]
          simp only [Nat.add_sub_cancel]
          constructor
          · rintro (⟨-, -, h⟩ | ⟨h₁, h₂, -⟩)
            · exact h
            · omega
          · intro h
            exact Or.inl ⟨by omega, hlt, h⟩
        · rw [Nat.mod_eq_sub_mod hge, Nat.mod_eq_of_lt (by omega),
            show i + 1 - 2 ^ (k + 1) - 1 = i - 2 ^ (k + 1) by omega]
          constructor
          · rintro (⟨-, h, -⟩ | ⟨-, -, -, h⟩)
            · omega
            · exact h
          · intro h
            exact Or.inr ⟨by omega, by omega, by omega, h⟩
      · rw [if_neg (by omega), if_pos rfl, repairRows_succ_data]
        rfl
      · obtain rfl : d = k + 2 := by omega
        rw [if_neg (by omega), if_neg (by omega), if_pos rfl, repairRows_succ_parity, List.map_map,
          hrow, Nat.add_sub_cancel]
        simp only [pure, Except.pure]
        congr 2
        funext i
        simp only [Function.comp_apply]
        omega

/-- The rows to read are the repair rows. -/
theorem mdrIRepairDpDiskStripeIndexs_eq {k d : ℕ} (hk : 1 ≤ k) (hd : d ≤ k) :
    mdrIRepairDpDiskStripeIndexs d k = .ok (repairRows k d) := by
  obtain ⟨k, rfl⟩ : ∃ n, k = n + 1 := ⟨k - 1, by omega⟩
  rw [mdrIRepairDpDiskStripeIndexs, mdrIRepairDpDiskStripeIndexsInternal_eq k hd]
  simp only [bind, Except.bind, pure, Except.pure, List.map_map]
  congr 1
  exact List.map_id' _

/-! ### Mates -/

/-- The row of the lost block that the `Q` block of repair row `s` contains. -/
def mate : ℕ → ℕ → ℕ → ℕ
  | 0, _, s => s
  | k + 1, d, s =>
      if d < k then mate k d (s % 2 ^ k) + (if s < 2 ^ k then 0 else 2 ^ k)
      else if d = k then s + 2 ^ k else s - 2 ^ k

theorem mate_succ_old {k d : ℕ} (h : d < k) (s : ℕ) :
    mate (k + 1) d s = mate k d (s % 2 ^ k) + (if s < 2 ^ k then 0 else 2 ^ k) := by
  rw [mate, if_pos h]

theorem mate_succ_data (k s : ℕ) : mate (k + 1) k s = s + 2 ^ k := by
  rw [mate, if_neg (lt_irrefl k), if_pos rfl]

theorem mate_succ_parity (k s : ℕ) : mate (k + 1) (k + 1) s = s - 2 ^ k := by
  rw [mate, if_neg (by omega), if_neg (by omega)]

/-- The position of a row in its half, and which half it is. -/
theorem mod_half {k s : ℕ} (hs : s < 2 ^ (k + 1)) :
    s % 2 ^ k < 2 ^ k ∧ s = s % 2 ^ k + (if s < 2 ^ k then 0 else 2 ^ k) := by
  have hrow : 2 ^ (k + 1) = 2 ^ k + 2 ^ k := by rw [pow_succ, mul_two]
  refine ⟨Nat.mod_lt _ (Nat.two_pow_pos k), ?_⟩
  split
  · rw [Nat.mod_eq_of_lt ‹_›, add_zero]
  · rw [Nat.mod_eq_sub_mod (by omega), Nat.mod_eq_of_lt (by omega)]
    omega

/-- The mate of a repair row is a row of the group that is not read. -/
theorem mate_spec (k : ℕ) : ∀ {d s : ℕ}, d ≤ k → s < 2 ^ k → repairRow k d s = true →
    mate k d s < 2 ^ k ∧ repairRow k d (mate k d s) = false := by
  induction k with
  | zero =>
      intro d s _ _ h
      cases h
  | succ k ih =>
      intro d s hd hs h
      have hrow : 2 ^ (k + 1) = 2 ^ k + 2 ^ k := by rw [pow_succ, mul_two]
      obtain ⟨hmod, hhalf⟩ := mod_half hs
      rcases Nat.lt_trichotomy d k with hdk | rfl | hdk
      · rw [repairRow_succ_old hdk] at h
        obtain ⟨hlt, hout⟩ := ih (by omega) hmod h
        rw [mate_succ_old hdk, repairRow_succ_old hdk]
        split
        · exact ⟨by omega, by rwa [add_zero, Nat.mod_eq_of_lt hlt]⟩
        · exact ⟨by omega, by rwa [Nat.add_mod_right, Nat.mod_eq_of_lt hlt]⟩
      · rw [repairRow_succ_data, decide_eq_true_iff] at h
        rw [mate_succ_data, repairRow_succ_data]
        exact ⟨by omega, by simp⟩
      · obtain rfl : d = k + 1 := by omega
        rw [repairRow_succ_parity, decide_eq_true_iff] at h
        rw [mate_succ_parity, repairRow_succ_parity]
        exact ⟨by omega, by simp; omega⟩

/-- The repair rows isolate one lost block.  The `Q` block of a repair row contains exactly one
block outside the repair rows: the one of the lost disk in the mate row. -/
theorem selects_repairRow (k : ℕ) : ∀ {d s : ℕ}, d ≤ k → s < 2 ^ k → repairRow k d s = true →
    ∀ {j t : ℕ}, j ≤ k → t < 2 ^ k → repairRow k d t = false →
      (selects (mdrIEncodingMatrixB k) k s j t = true ↔ j = d ∧ t = mate k d s) := by
  -- induction along the construction; the row and the block lie in the same half or not
  induction k with
  | zero =>
      intro d s _ _ h
      cases h
  | succ k ih =>
      intro d s hd hs h j t hj ht hout
      have hrow : 2 ^ (k + 1) = 2 ^ k + 2 ^ k := by rw [pow_succ, mul_two]
      obtain ⟨hsmod, hshalf⟩ := mod_half hs
      obtain ⟨htmod, hthalf⟩ := mod_half ht
      rcases Nat.lt_trichotomy d k with hdk | rfl | hdk
      · rw [repairRow_succ_old hdk] at h hout
        rw [mate_succ_old hdk]
        have hmate := (mate_spec k hdk.le hsmod h).1
        have hne : s % 2 ^ k ≠ t % 2 ^ k := by
          intro he
          rw [he, hout] at h
          cases h
        rcases Nat.lt_trichotomy j k with hjk | rfl | hjk
        · -- an old column: the old `P` column contributes nothing outside the repair rows
          have hp : selects (mdrIEncodingMatrixB k) k (s % 2 ^ k) k (t % 2 ^ k) = false := by
            rw [Bool.eq_false_iff]
            intro hsel
            have := (ih hdk.le hsmod h le_rfl htmod hout).1 hsel
            omega
          rw [selects_succ_old hs ht hjk, hp, Bool.xor_false, Bool.and_eq_true,
            decide_eq_true_iff, ih hdk.le hsmod h hjk.le htmod hout]
          constructor
          · rintro ⟨hsame, rfl, he⟩
            refine ⟨rfl, ?_⟩
            rw [hthalf, he, if_congr hsame rfl rfl]
          · rintro ⟨rfl, he⟩
            by_cases hup : s < 2 ^ k
            · rw [if_pos hup, add_zero] at he
              have htlt : t < 2 ^ k := by omega
              exact ⟨⟨fun _ => htlt, fun _ => hup⟩, rfl, by rwa [Nat.mod_eq_of_lt htlt]⟩
            · rw [if_neg hup] at he
              have htge : ¬ t < 2 ^ k := by omega
              refine ⟨⟨fun h => absurd h hup, fun h => absurd h htge⟩, rfl, ?_⟩
              rw [he, Nat.add_mod_right, Nat.mod_eq_of_lt hmate]
        · rw [selects_succ_data hs ht, decide_eq_true_iff]
          constructor
          · rintro rfl
            exact absurd (Nat.add_mod_right s _).symm hne
          · rintro ⟨hjd, -⟩
            omega
        · obtain rfl : j = k + 1 := by omega
          rw [selects_succ_parity hs ht, decide_eq_true_iff]
          constructor
          · rintro rfl
            exact absurd (Nat.add_mod_right t _) hne
          · rintro ⟨hjd, -⟩
            omega
      · rw [repairRow_succ_data, decide_eq_true_iff] at h
        rw [repairRow_succ_data, decide_eq_false_iff_not] at hout
        rw [mate_succ_data]
        rcases Nat.lt_trichotomy j d with hjk | rfl | hjk
        · rw [selects_succ_old hs ht hjk]
          simp [h, hout]
          omega
        · rw [selects_succ_data hs ht, decide_eq_true_iff]
          simp
        · obtain rfl : j = d + 1 := by omega
          rw [selects_succ_parity hs ht, decide_eq_true_iff]
          omega
      · obtain rfl : d = k + 1 := by omega
        rw [repairRow_succ_parity, decide_eq_true_iff] at h
        rw [repairRow_succ_parity, decide_eq_false_iff_not] at hout
        rw [mate_succ_parity]
        rcases Nat.lt_trichotomy j k with hjk | rfl | hjk
        · have hdiff : ¬ (s < 2 ^ k ↔ t < 2 ^ k) := by omega
          rw [selects_succ_old hs ht hjk]
          simp [hdiff]
          omega
        · rw [selects_succ_data hs ht, decide_eq_true_iff]
          omega
        · obtain rfl : j = k + 1 := by omega
          rw [selects_succ_parity hs ht, decide_eq_true_iff]
          omega

/-- Different repair rows have different mates. -/
theorem mate_injective (k : ℕ) : ∀ {d s s' : ℕ}, d ≤ k → s < 2 ^ k → s' < 2 ^ k →
    repairRow k d s = true → repairRow k d s' = true → mate k d s = mate k d s' → s = s' := by
  induction k with
  | zero =>
      intro d s s' _ _ _ h
      cases h
  | succ k ih =>
      intro d s s' hd hs hs' h h' heq
      have hrow : 2 ^ (k + 1) = 2 ^ k + 2 ^ k := by rw [pow_succ, mul_two]
      rcases Nat.lt_trichotomy d k with hdk | rfl | hdk
      · obtain ⟨hmod, hhalf⟩ := mod_half hs
        obtain ⟨hmod', hhalf'⟩ := mod_half hs'
        rw [repairRow_succ_old hdk] at h h'
        rw [mate_succ_old hdk, mate_succ_old hdk] at heq
        have hlt := (mate_spec k hdk.le hmod h).1
        have hlt' := (mate_spec k hdk.le hmod' h').1
        have hhalves : s < 2 ^ k ↔ s' < 2 ^ k := by
          split at heq <;> split at heq <;> omega
        rw [if_congr hhalves rfl rfl] at heq hhalf
        have hih := ih hdk.le hmod hmod' h h' (Nat.add_right_cancel heq)
        omega
      · rw [mate_succ_data, mate_succ_data] at heq
        omega
      · obtain rfl : d = k + 1 := by omega
        rw [repairRow_succ_parity, decide_eq_true_iff] at h h'
        rw [mate_succ_parity, mate_succ_parity] at heq
        omega

/-- Every row that is not read is the mate of a repair row. -/
theorem exists_mate (k : ℕ) (hk : 1 ≤ k) : ∀ {d t : ℕ}, d ≤ k → t < 2 ^ k →
    repairRow k d t = false → ∃ s < 2 ^ k, repairRow k d s = true ∧ mate k d s = t := by
  induction k with
  | zero => omega
  | succ k ih =>
      intro d t hd ht hout
      have hrow : 2 ^ (k + 1) = 2 ^ k + 2 ^ k := by rw [pow_succ, mul_two]
      rcases Nat.lt_trichotomy d k with hdk | rfl | hdk
      · obtain ⟨hmod, hhalf⟩ := mod_half ht
        rw [repairRow_succ_old hdk] at hout
        obtain ⟨s, hs, hrep, hmate⟩ := ih (by omega) hdk.le hmod hout
        by_cases hup : t < 2 ^ k
        · refine ⟨s, by omega, by rwa [repairRow_succ_old hdk, Nat.mod_eq_of_lt hs], ?_⟩
          rw [mate_succ_old hdk, Nat.mod_eq_of_lt hs, hmate, if_pos hs, add_zero,
            Nat.mod_eq_of_lt hup]
        · refine ⟨s + 2 ^ k, by omega, ?_, ?_⟩
          · rwa [repairRow_succ_old hdk, Nat.add_mod_right, Nat.mod_eq_of_lt hs]
          · rw [mate_succ_old hdk, Nat.add_mod_right, Nat.mod_eq_of_lt hs, hmate,
              if_neg (by omega)]
            rw [if_neg hup] at hhalf
            exact hhalf.symm
      · rw [repairRow_succ_data, decide_eq_false_iff_not] at hout
        refine ⟨t - 2 ^ d, by omega, ?_, ?_⟩
        · rw [repairRow_succ_data, decide_eq_true_iff]
          omega
        · rw [mate_succ_data]
          omega
      · obtain rfl : d = k + 1 := by omega
        rw [repairRow_succ_parity, decide_eq_false_iff_not] at hout
        refine ⟨t + 2 ^ k, by omega, ?_, ?_⟩
        · rw [repairRow_succ_parity, decide_eq_true_iff]
          omega
        · rw [mate_succ_parity]
          omega

/-! ### The table of the other rows -/

/-- The object was made for `k` data disks. -/
structure Coding4Mdr1.For (coding : Coding4Mdr1) (k : ℕ) : Prop where
  /-- It holds the matrix for `k`. -/
  matrix_eq : coding.mdrIEncodingMatrixB = Ncfs.mdrIEncodingMatrixB k
  /-- A stripe group has `2 ^ k` rows. -/
  stripSize_eq : coding.stripSize = 2 ^ k

theorem Coding4Mdr1.new_ok {st : NcfsState} (hk : 1 ≤ st.dataDiskNum) :
    ∃ coding, Coding4Mdr1.new st = .ok coding ∧ coding.For st.dataDiskNum ∧
      coding.mdrIOneDpDiskFailBoolV = false ∧ coding.mdrIOneDpDiskFailBoolM = false ∧
      coding.mdrIOneQDiskFailBool = false := by
  rw [Coding4Mdr1.new, mdrIEncodingMatrix_of_pos hk]
  exact ⟨_, rfl, ⟨rfl, rfl⟩, rfl, rfl, rfl⟩

theorem and_shiftLeft_ne_zero (val n : ℕ) : (val &&& (1 <<< n) != 0) = val.testBit n := by
  rw [Nat.one_shiftLeft, Nat.and_two_pow]
  cases val.testBit n <;> simp

section Tables

variable {coding : Coding4Mdr1} {k : ℕ}

theorem Coding4Mdr1.For.hasBit_eq (h : coding.For k) (s j t : ℕ) :
    coding.hasBit (coding.mdrIEncodingMatrixB s j) t =
      selects (Ncfs.mdrIEncodingMatrixB k) k s j t := by
  rw [Coding4Mdr1.hasBit, and_shiftLeft_ne_zero, h.matrix_eq, h.stripSize_eq, selects,
    Nat.sub_right_comm]

/-- The inner loop separates the selected rows that are read from the others. -/
theorem splitSelected_eq (coding : Coding4Mdr1) (stripeIndexs : List ℕ) (val : ℕ)
    (fail : Option ℕ) :
    splitSelected coding stripeIndexs val fail =
      ((List.range coding.stripSize).filter fun t => coding.hasBit val t && decide
        (t ∈ stripeIndexs),
        (List.range coding.stripSize).foldl (fun fail t =>
          if coding.hasBit val t = true ∧ t ∉ stripeIndexs then some t else fail) fail) := by
  have key : ∀ (l : List ℕ) (acc : List ℕ) (fail : Option ℕ),
      l.foldl (fun (p : List ℕ × Option ℕ) t =>
        if coding.hasBit val t then
          if t ∈ stripeIndexs then (p.1 ++ [t], p.2) else (p.1, some t)
        else (p.1, p.2)) (acc, fail) =
      (acc ++ l.filter fun t => coding.hasBit val t && decide (t ∈ stripeIndexs),
        l.foldl (fun fail t =>
          if coding.hasBit val t = true ∧ t ∉ stripeIndexs then some t else fail) fail) := by
    intro l
    induction l with
    | nil => simp
    | cons t l ih =>
        intro acc fail
        rw [List.foldl_cons, List.foldl_cons]
        by_cases hbit : coding.hasBit val t = true <;> by_cases hmem : t ∈ stripeIndexs <;>
          simp [hbit, hmem, ih]
  exact key _ [] fail

/-- The table entry that row `s` of the matrix gives: by column the selected rows that are read,
and the row itself for the `Q` disk. -/
def repairChain (k d s : ℕ) : List (List ℕ) :=
  (List.range (k + 1)).map (fun j => (List.range (2 ^ k)).filter fun t =>
    selects (mdrIEncodingMatrixB k) k s j t && repairRow k d t) ++ [[s]]

theorem splitRow_eq (hc : coding.For k) {st : NcfsState} (hst : st.dataDiskNum = k) {d s : ℕ}
    (hd : d ≤ k) (hs : s ∈ repairRows k d) :
    splitRow coding st (repairRows k d) s =
      ((List.range (k + 1)).map (fun j => (List.range (2 ^ k)).filter fun t =>
        selects (mdrIEncodingMatrixB k) k s j t && repairRow k d t), some (mate k d s)) := by
  obtain ⟨hslt, hrep⟩ := mem_repairRows.1 hs
  obtain ⟨hmlt, hmout⟩ := mate_spec k hd hslt hrep
  -- one column: a selected row outside the repair rows can only be the mate
  have hcol : ∀ (j : ℕ) (fail : Option ℕ), j ∈ List.range (k + 1) →
      splitSelected coding (repairRows k d) (coding.mdrIEncodingMatrixB s j) fail =
        ((List.range (2 ^ k)).filter fun t =>
          selects (mdrIEncodingMatrixB k) k s j t && repairRow k d t,
          if j = d then some (mate k d s) else fail) := by
    intro j fail hj
    have hj := List.mem_range.1 hj
    rw [splitSelected_eq, hc.stripSize_eq]
    congr 1
    · refine List.filter_congr fun t ht => ?_
      have ht := List.mem_range.1 ht
      rw [hc.hasBit_eq, Bool.eq_iff_iff]
      simp [mem_repairRows, ht]
    · rw [Loops.foldl_some (g := fun t => t) (b := mate k d s)]
      · refine if_congr ?_ rfl rfl
        constructor
        · rintro ⟨t, ht, hbit, hout⟩
          have ht := List.mem_range.1 ht
          rw [hc.hasBit_eq] at hbit
          have hout : repairRow k d t = false := by simpa [mem_repairRows, ht] using hout
          exact ((selects_repairRow k hd hslt hrep (by omega) ht hout).1 hbit).1
        · rintro rfl
          refine ⟨mate k j s, List.mem_range.2 hmlt, ?_, by simp [mem_repairRows, hmout]⟩
          rw [hc.hasBit_eq]
          exact (selects_repairRow k hd hslt hrep (by omega) hmlt hmout).2 ⟨rfl, rfl⟩
      · rintro t ht ⟨hbit, hout⟩
        have ht := List.mem_range.1 ht
        rw [hc.hasBit_eq] at hbit
        have hout : repairRow k d t = false := by simpa [mem_repairRows, ht] using hout
        exact ((selects_repairRow k hd hslt hrep (by omega) ht hout).1 hbit).2
  have key : ∀ (l : List ℕ), l ⊆ List.range (k + 1) → ∀ (acc : List (List ℕ)) (fail : Option ℕ),
      l.foldl (fun (p : List (List ℕ) × Option ℕ) j =>
        let q := splitSelected coding (repairRows k d) (coding.mdrIEncodingMatrixB s j) p.2
        (p.1 ++ [q.1], q.2)) (acc, fail) =
      (acc ++ l.map (fun j => (List.range (2 ^ k)).filter fun t =>
          selects (mdrIEncodingMatrixB k) k s j t && repairRow k d t),
        l.foldl (fun fail j => if j = d then some (mate k d s) else fail) fail) := by
    intro l
    induction l with
    | nil => simp
    | cons j l ih =>
        intro hl acc fail
        obtain ⟨hj, hl⟩ := List.cons_subset.1 hl
        rw [List.foldl_cons, hcol j fail hj, ih hl]
        simp
  have hrow := key (List.range (k + 1)) (List.Subset.refl _) [] none
  rw [Loops.foldl_some (fun _ _ _ => rfl), if_pos ⟨d, List.mem_range.2 (by omega), rfl⟩] at hrow
  rw [splitRow, hst]
  exact hrow

/-- The table of the other rows is filled without an error, and under the mate of a repair
row it holds the blocks of that row of the matrix. -/
theorem nonstripeIndexs_eq (hc : coding.For k) {st : NcfsState} (hst : st.dataDiskNum = k)
    {d : ℕ} (hd : d ≤ k) :
    ∃ ivmap, mdrIRepairDpDiskNonstripeIndexsBlocksNo coding st (repairRows k d) = .ok ivmap ∧
      ∀ s ∈ repairRows k d, ivmap (mate k d s) = repairChain k d s := by
  refine ⟨_, Loops.foldlM_ok (g := fun ivmap s =>
    Function.update ivmap (mate k d s) (repairChain k d s)) (fun ivmap s hs => ?_) _, ?_⟩
  · rw [splitRow_eq hc hst hd hs]
    rfl
  · intro s hs
    rw [Loops.foldl_update (v := repairChain k d s), if_pos ⟨s, hs, rfl⟩]
    intro s' hs' heq
    obtain ⟨hlt, hrep⟩ := mem_repairRows.1 hs
    obtain ⟨hlt', hrep'⟩ := mem_repairRows.1 hs'
    rw [mate_injective k hd hlt' hlt hrep' hrep heq]

end Tables

end Ncfs
