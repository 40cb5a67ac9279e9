/-
The rebuild of one stripe group of a failed disk under the MDR-I code.

`mdr_I_recover_oneStripeGroup2` reads the repair rows of the surviving disks into a compact buffer,
repairs the lost blocks of these rows by row parity, and obtains every other lost block from one
`Q` block.  A lost `Q` disk is recomputed from all rows of the other disks.

Main definitions:

* `Ncfs.mdrIRecoverOneStripeGroup2` — the function, with the loops of its body as definitions of
  their own;
* `Ncfs.RecoverResult` — the object, the buffers and the value it leaves.

Main results:

* `Ncfs.repairOthers_block`, `Ncfs.repairQBlocks_apply` — what the loops compute;
* `Ncfs.sum_repairChain` — the blocks of a chain add up to the lost block;
* `Ncfs.mdrIRecoverOneStripeGroup2_rebuilds` — the buffer holds the lost blocks.
-/
import FuseMdr.MdrRepairSet

set_option relaxedAutoImplicit false
set_option autoImplicit false

namespace Ncfs

/-! ### The function -/

/-- The number of disks whose status is `1`. -/
def failedDiskNum (st : NcfsState) : ℕ :=
  (List.range st.diskTotalNum).countP fun i => st.diskStatus i = 1

/-- The loop over `j` that reads row `blkNum` of all disks but `diskId`. -/
def preadRow (st : NcfsState) (diskId blkNum : ℕ) (row : ℕ → Buf) : ℕ → Buf :=
  (List.range st.diskTotalNum).foldl (fun row j =>
    Function.update row j
      (if j ≠ diskId then readDisk st j (row j) st.diskBlockSize (blkNum * st.diskBlockSize)
      else row j)) row

/-- Reading the rows `stripeIndexs` of the group into the compact buffer. -/
def preadStripes (st : NcfsState) (diskId firstRow : ℕ) (stripeIndexs : List ℕ)
    (pread : ℕ → ℕ → Buf) : ℕ → ℕ → Buf :=
  (List.range stripeIndexs.length).foldl (fun pread i =>
    Function.update pread i
      (preadRow st diskId (firstRow + stripeIndexs.getD i 0) (pread i))) pread

/-- The lost block of a row that has been read, as the sum of the other blocks. -/
def repairRowInBuf (st : NcfsState) (diskId : ℕ) (row : ℕ → Buf) : ℕ → Buf :=
  (List.range (st.diskTotalNum - 1)).foldl (fun row j =>
    if j ≠ diskId then
      Function.update row diskId (xorBuf st.diskBlockSize (row diskId) (row j))
    else row) row

/-- Repairing the rows that have been read, and copying their blocks to the output. -/
def repairStripes (st : NcfsState) (diskId : ℕ) (stripeIndexs : List ℕ) (pread : ℕ → ℕ → Buf)
    (buf : Buf) : (ℕ → ℕ → Buf) × Buf :=
  (List.range stripeIndexs.length).foldl (fun (pread, buf) i =>
    let row := repairRowInBuf st diskId (pread i)
    let bufOffset := stripeIndexs.getD i 0
    (Function.update pread i row,
      copyBufAt (bufOffset * st.diskBlockSize) st.diskBlockSize buf (row diskId))) (pread, buf)

/-- Adding the blocks `ivec` of disk `j`, found in the compact buffer, to output block `i`. -/
def addParticipants (st : NcfsState) (stripeIndexs : List ℕ) (pread : ℕ → ℕ → Buf) (i j : ℕ)
    (ivec : List ℕ) (buf : Buf) : Except CodingError Buf :=
  ivec.foldlM (fun buf e =>
    match mdrIRepairChgBlkIndexOffsetInBuf e stripeIndexs with
    | none => .error .exit
    | some parDiskBlk =>
        .ok (xorBufAt (i * st.diskBlockSize) st.diskBlockSize buf (pread parDiskBlk j))) buf

/-- Repairing the other blocks of the failed disk. -/
def repairOthers (coding : Coding4Mdr1) (st : NcfsState) (stripeIndexs : List ℕ)
    (pread : ℕ → ℕ → Buf) (buf : Buf) : Except CodingError Buf :=
  (List.range coding.stripSize).foldlM (fun buf i =>
    if i ∈ stripeIndexs then .ok buf
    else
      let iivec := coding.mdrIOneDpDiskFailNonStripeIndex i
      if iivec.length ≠ st.diskTotalNum then .error .exit
      else
        (List.range iivec.length).foldlM (fun buf j =>
          addParticipants st stripeIndexs pread i j (iivec.getD j []) buf) buf) buf

/-- Reading all rows of the group, for the `Q` disk. -/
def preadGroup (coding : Coding4Mdr1) (st : NcfsState) (blockNo : ℕ) (pread : ℕ → ℕ → Buf) :
    ℕ → ℕ → Buf :=
  (List.range coding.stripSize).foldl (fun pread i =>
    Function.update pread i ((List.range (st.diskTotalNum - 1)).foldl (fun row j =>
      Function.update row j
        (readDisk st j (row j) st.diskBlockSize ((blockNo + i) * st.diskBlockSize)))
      (pread i))) pread

/-- Filling `mdr_I_one_qDisk_fail_stripeIndex`. -/
def fillQDiskTable (coding : Coding4Mdr1) (st : NcfsState) : ℕ → List (List ℕ) :=
  (List.range coding.stripSize).foldl (fun table i =>
    Function.update table i (mdrIRepairQDiskBlocksId coding st i))
    coding.mdrIOneQDiskFailStripeIndex

/-- Adding the blocks of a `Q` block to the slot of the `Q` disk in row `i`. -/
def addQParticipants (st : NcfsState) (iivec : List (List ℕ)) (i : ℕ) (pread : ℕ → ℕ → Buf) :
    ℕ → ℕ → Buf :=
  (List.range iivec.length).foldl (fun pread j =>
    (iivec.getD j []).foldl (fun pread blkOff =>
      Function.update pread i (Function.update (pread i) (st.diskTotalNum - 1)
        (xorBuf st.diskBlockSize (pread i (st.diskTotalNum - 1)) (pread blkOff j)))) pread) pread

/-- Recomputing the `Q` blocks of the group in their slots. -/
def repairQBlocks (coding : Coding4Mdr1) (st : NcfsState) (pread : ℕ → ℕ → Buf) : ℕ → ℕ → Buf :=
  (List.range coding.stripSize).foldl (fun pread i =>
    addQParticipants st (coding.mdrIOneQDiskFailStripeIndex i) i pread) pread

/-- Copying the slots of the `Q` disk to the output. -/
def copyQBlocks (coding : Coding4Mdr1) (st : NcfsState) (pread : ℕ → ℕ → Buf) (buf : Buf) : Buf :=
  (List.range coding.stripSize).foldl (fun buf i =>
    copyBufAt (i * st.diskBlockSize) st.diskBlockSize buf (pread i (st.diskTotalNum - 1))) buf

/-- What a rebuild leaves: the object with its caches, the output, the compact buffer and the
returned value. -/
structure RecoverResult where
  /-- The object. -/
  coding : Coding4Mdr1
  /-- The output buffer `buf`. -/
  buf : Buf
  /-- The buffers `pread_stripes`. -/
  preadStripes : ℕ → ℕ → Buf
  /-- The returned value. -/
  ret : ℕ

/-- `mdr_I_one_dpDisk_fail_stripeIndex`, computed at the first use. -/
def cacheStripeIndexs (coding : Coding4Mdr1) (st : NcfsState) (diskId : ℕ) :
    Except CodingError Coding4Mdr1 :=
  if coding.mdrIOneDpDiskFailBoolV then .ok coding
  else do
    let stripeIndexs ← mdrIRepairDpDiskStripeIndexs diskId st.dataDiskNum
    return { coding with
      mdrIOneDpDiskFailBoolV := true
      mdrIOneDpDiskFailStripeIndex := stripeIndexs }

/-- `mdr_I_one_dpDisk_fail_nonStripeIndex`, computed at the first use. -/
def cacheNonStripeIndexs (coding : Coding4Mdr1) (st : NcfsState) : Except CodingError Coding4Mdr1 :=
  if coding.mdrIOneDpDiskFailBoolM then .ok coding
  else do
    let table ← mdrIRepairDpDiskNonstripeIndexsBlocksNo coding st
      coding.mdrIOneDpDiskFailStripeIndex
    return { coding with
      mdrIOneDpDiskFailBoolM := true
      mdrIOneDpDiskFailNonStripeIndex := table }

/-- `Coding4Mdr1::mdr_I_recover_oneStripeGroup2`.  Time counters are left out. -/
def mdrIRecoverOneStripeGroup2 (coding : Coding4Mdr1) (st : NcfsState) (diskId : ℕ) (buf : Buf)
    (size offset : ℕ) (pread : ℕ → ℕ → Buf) : Except CodingError RecoverResult :=
  let buf := memset0 buf size
  let blockNo := offset / st.diskBlockSize
  if st.diskStatus diskId = 0 then
    .ok ⟨coding, readDisk st diskId buf size offset, pread, size⟩
  else if failedDiskNum st = 1 then
    let stripNum := blockNo / coding.stripSize
    if diskId < st.diskTotalNum - 1 then do
      -- a data disk or the `P` disk
      let coding ← cacheStripeIndexs coding st diskId
      let coding ← cacheNonStripeIndexs coding st
      let stripeIndexs := coding.mdrIOneDpDiskFailStripeIndex
      let pread := preadStripes st diskId (stripNum * coding.stripSize) stripeIndexs pread
      let (pread, buf) := repairStripes st diskId stripeIndexs pread buf
      let buf ← repairOthers coding st stripeIndexs pread buf
      return ⟨coding, buf, pread, size⟩
    else if diskId = st.diskTotalNum - 1 then
      -- the `Q` disk
      let pread := preadGroup coding st blockNo pread
      let coding :=
        if coding.mdrIOneQDiskFailBool then coding
        else { coding with
          mdrIOneQDiskFailBool := true
          mdrIOneQDiskFailStripeIndex := fillQDiskTable coding st }
      let pread := repairQBlocks coding st pread
      .ok ⟨coding, copyQBlocks coding st pread buf, pread, size⟩
    else .ok ⟨coding, buf, pread, size⟩
  else .error .failed

/-! ### What the loops compute -/

theorem failedDiskNum_eq_one {st : NcfsState} {d : ℕ} (hd : d < st.diskTotalNum)
    (hfail : ∀ i < st.diskTotalNum, st.diskStatus i = if i = d then 1 else 0) :
    failedDiskNum st = 1 := by
  have hcongr : failedDiskNum st = (List.range st.diskTotalNum).countP fun i => i == d := by
    refine List.countP_congr fun i hi => ?_
    rw [hfail i (List.mem_range.1 hi)]
    by_cases h : i = d <;> simp [h]
  rw [hcongr]
  exact List.count_eq_one_of_mem List.nodup_range (List.mem_range.2 hd)

theorem copyBufAt_block {bs b y o : ℕ} (ho : o < bs) (buf src : Buf) :
    copyBufAt (b * bs) bs buf src (y * bs + o) = if y = b then src o else buf (y * bs + o) := by
  simp only [copyBufAt, block_offset_range ho le_rfl, ho, and_true]
  split
  · rename_i h
    rw [h, Nat.add_sub_cancel_left]
  · rfl

theorem xorBufAt_block {bs b y o : ℕ} (ho : o < bs) (buf src : Buf) :
    xorBufAt (b * bs) bs buf src (y * bs + o) =
      buf (y * bs + o) + if y = b then src o else 0 := by
  simp only [xorBufAt, block_offset_range ho le_rfl, ho, and_true]
  split
  · rename_i h
    rw [h, Nat.add_sub_cancel_left, Byte.xor_eq_add]
  · rw [add_zero]

/-- A loop that adds blocks to output block `b`. -/
theorem foldl_xorBufAt {ι : Type*} {bs b y o : ℕ} (ho : o < bs) (src : ι → Buf) (l : List ι)
    (buf : Buf) :
    l.foldl (fun buf e => xorBufAt (b * bs) bs buf (src e)) buf (y * bs + o) =
      buf (y * bs + o) + if y = b then (l.map fun e => src e o).sum else 0 := by
  induction l generalizing buf with
  | nil => simp
  | cons e l ih =>
      rw [List.foldl_cons, ih, xorBufAt_block ho, add_assoc]
      by_cases h : y = b <;> simp [h]

theorem preadRow_apply (st : NcfsState) (diskId blkNum : ℕ) (row : ℕ → Buf) (j : ℕ) :
    preadRow st diskId blkNum row j =
      if j < st.diskTotalNum ∧ j ≠ diskId then
        readDisk st j (row j) st.diskBlockSize (blkNum * st.diskBlockSize)
      else row j := by
  rw [preadRow, Loops.foldl_update_range (fun j b =>
    if j ≠ diskId then readDisk st j b st.diskBlockSize (blkNum * st.diskBlockSize) else b)]
  by_cases h : j < st.diskTotalNum <;> simp [h]

theorem preadStripes_apply (st : NcfsState) (diskId firstRow : ℕ) (stripeIndexs : List ℕ)
    (pread : ℕ → ℕ → Buf) {i : ℕ} (hi : i < stripeIndexs.length) :
    preadStripes st diskId firstRow stripeIndexs pread i =
      preadRow st diskId (firstRow + stripeIndexs.getD i 0) (pread i) := by
  rw [preadStripes, Loops.foldl_update_range (fun i row =>
    preadRow st diskId (firstRow + stripeIndexs.getD i 0) row), if_pos hi]

theorem repairRowInBuf_of_ne (st : NcfsState) {diskId j : ℕ} (hj : j ≠ diskId) (row : ℕ → Buf) :
    repairRowInBuf st diskId row j = row j := by
  refine Loops.foldl_frame (fun row : ℕ → Buf => row j) (fun row i _ => ?_) row
  split
  · exact Function.update_of_ne hj ..
  · rfl

/-- The slot of the failed disk receives the sum of the other blocks of the row. -/
theorem repairRowInBuf_self (st : NcfsState) (diskId : ℕ) (row : ℕ → Buf) {o : ℕ}
    (ho : o < st.diskBlockSize) :
    repairRowInBuf st diskId row diskId o =
      row diskId o +
        ((List.range (st.diskTotalNum - 1)).map fun j => if j ≠ diskId then row j o else
          0).sum := by
  have key : ∀ (l : List ℕ) (r : ℕ → Buf), (∀ j, j ≠ diskId → r j = row j) →
      l.foldl (fun row j =>
        if j ≠ diskId then
          Function.update row diskId (xorBuf st.diskBlockSize (row diskId) (row j))
        else row) r diskId o =
      r diskId o + (l.map fun j => if j ≠ diskId then row j o else 0).sum := by
    intro l
    induction l with
    | nil => simp
    | cons j l ih =>
        intro r hr
        rw [List.foldl_cons, List.map_cons, List.sum_cons]
        by_cases hj : j = diskId
        · simp only [hj, ne_eq, not_true_eq_false, if_false, zero_add]
          exact ih r hr
        · have hframe : ∀ i, i ≠ diskId → Function.update r diskId
              (xorBuf st.diskBlockSize (r diskId) (r j)) i = row i := fun i hi => by
            rw [Function.update_of_ne hi, hr i hi]
          rw [if_pos hj, if_pos hj, ih _ hframe, Function.update_self, xorBuf_of_lt _ _ ho,
            hr j hj, add_assoc]
  exact key _ row fun _ _ => rfl

/-- Row `i` of the compact buffer after the repair of the rows. -/
theorem repairStripes_fst (st : NcfsState) (diskId : ℕ) (stripeIndexs : List ℕ)
    (pread : ℕ → ℕ → Buf) (buf : Buf) {i : ℕ} (hi : i < stripeIndexs.length) :
    (repairStripes st diskId stripeIndexs pread buf).1 i = repairRowInBuf st diskId (pread i) := by
  refine Loops.foldl_once (s := (pread, buf)) List.nodup_range (fun _ => True)
    (fun _ _ _ _ => trivial) (List.mem_range.2 hi) (fun p : (ℕ → ℕ → Buf) × Buf => p.1 i)
    (fun row => repairRowInBuf st diskId row) (fun p _ => ?_) (fun p j _ hj => ?_) trivial
  · exact Function.update_self ..
  · exact Function.update_of_ne (Ne.symm hj) ..

/-- The output block of a row that is read. -/
theorem repairStripes_snd (st : NcfsState) (diskId : ℕ) {stripeIndexs : List ℕ}
    (hnodup : stripeIndexs.Nodup) (pread : ℕ → ℕ → Buf) (buf : Buf) {i : ℕ}
    (hi : i < stripeIndexs.length) {o : ℕ} (ho : o < st.diskBlockSize) :
    (repairStripes st diskId stripeIndexs pread buf).2
        (stripeIndexs.getD i 0 * st.diskBlockSize + o) =
      repairRowInBuf st diskId (pread i) diskId o := by
  have honce := Loops.foldl_once (s := (pread, buf)) (l := List.range stripeIndexs.length)
    (f := fun (p : (ℕ → ℕ → Buf) × Buf) i =>
      (Function.update p.1 i (repairRowInBuf st diskId (p.1 i)),
        copyBufAt (stripeIndexs.getD i 0 * st.diskBlockSize) st.diskBlockSize p.2
          (repairRowInBuf st diskId (p.1 i) diskId)))
    List.nodup_range (fun _ => True) (fun _ _ _ _ => trivial) (List.mem_range.2 hi)
    (fun p => (p.1 i, p.2 (stripeIndexs.getD i 0 * st.diskBlockSize + o)))
    (fun q => (repairRowInBuf st diskId q.1, repairRowInBuf st diskId q.1 diskId o))
    (fun p _ => ?_) (fun p j hj hji => ?_) trivial
  · exact congrArg Prod.snd honce
  · simp only [Function.update_self]
    rw [copyBufAt_block ho, if_pos rfl]
  · have hj := List.mem_range.1 hj
    have hne : stripeIndexs.getD i 0 ≠ stripeIndexs.getD j 0 := by
      rw [List.getD_eq_getElem _ _ hi, List.getD_eq_getElem _ _ hj]
      exact fun h => hji (hnodup.getElem_inj_iff.1 h).symm
    dsimp only
    rw [copyBufAt_block ho, if_neg hne, Function.update_of_ne (Ne.symm hji)]

/-- The output block of a row that is not read is left alone. -/
theorem repairStripes_snd_of_notMem (st : NcfsState) (diskId : ℕ) {stripeIndexs : List ℕ}
    (pread : ℕ → ℕ → Buf) (buf : Buf) {t : ℕ} (ht : t ∉ stripeIndexs) {o : ℕ}
    (ho : o < st.diskBlockSize) :
    (repairStripes st diskId stripeIndexs pread buf).2 (t * st.diskBlockSize + o) =
      buf (t * st.diskBlockSize + o) := by
  refine Loops.foldl_frame (fun p : (ℕ → ℕ → Buf) × Buf => p.2 (t * st.diskBlockSize + o))
    (fun p j hj => ?_) (pread, buf)
  have hj := List.mem_range.1 hj
  dsimp only
  rw [copyBufAt_block ho, if_neg]
  rintro rfl
  rw [List.getD_eq_getElem _ _ hj] at ht
  exact ht (List.getElem_mem hj)

/-- The slot of the compact buffer that holds row `e`. -/
def slot (stripeIndexs : List ℕ) (e : ℕ) : ℕ :=
  (mdrIRepairChgBlkIndexOffsetInBuf e stripeIndexs).getD 0

theorem slot_spec {stripeIndexs : List ℕ} {e : ℕ} (he : e ∈ stripeIndexs) :
    mdrIRepairChgBlkIndexOffsetInBuf e stripeIndexs = some (slot stripeIndexs e) ∧
      slot stripeIndexs e < stripeIndexs.length ∧
      stripeIndexs.getD (slot stripeIndexs e) 0 = e := by
  obtain ⟨p, hp⟩ := Option.isSome_iff_exists.1 (List.isSome_idxOf?.2 he)
  have hslot : mdrIRepairChgBlkIndexOffsetInBuf e stripeIndexs = some p := hp
  obtain ⟨hlt, hget, -⟩ := List.idxOf?_eq_some_iff.1 hp
  rw [slot, hslot]
  exact ⟨rfl, hlt, by rw [Option.getD_some, List.getD_eq_getElem _ _ hlt, hget]⟩

/-- The cells of a chain: disk and row, in the order of the loops. -/
def chainCells (iivec : List (List ℕ)) : List (ℕ × ℕ) :=
  (List.range iivec.length).flatMap fun j => (iivec.getD j []).map fun e => (j, e)

/-- The other rows: a chain of rows that have been read is added to its output block. -/
theorem repairOthers_block {coding : Coding4Mdr1} {st : NcfsState} {stripeIndexs : List ℕ}
    (htable : ∀ i < coding.stripSize, i ∉ stripeIndexs →
      (coding.mdrIOneDpDiskFailNonStripeIndex i).length = st.diskTotalNum ∧
      ∀ j, ∀ e ∈ (coding.mdrIOneDpDiskFailNonStripeIndex i).getD j [], e ∈ stripeIndexs)
    (pread : ℕ → ℕ → Buf) (buf : Buf) :
    ∃ buf', repairOthers coding st stripeIndexs pread buf = .ok buf' ∧
      ∀ i < coding.stripSize, ∀ o < st.diskBlockSize,
        buf' (i * st.diskBlockSize + o) = buf (i * st.diskBlockSize + o) +
          if i ∈ stripeIndexs then 0
          else ((chainCells (coding.mdrIOneDpDiskFailNonStripeIndex i)).map fun c =>
            pread (slot stripeIndexs c.2) c.1 o).sum := by
  -- the body without its error branches
  let pass : Buf → ℕ → Buf := fun buf i =>
    if i ∈ stripeIndexs then buf
    else (chainCells (coding.mdrIOneDpDiskFailNonStripeIndex i)).foldl (fun buf c =>
      xorBufAt (i * st.diskBlockSize) st.diskBlockSize buf (pread (slot stripeIndexs c.2) c.1)) buf
  have hpass : ∀ (buf : Buf) (i y : ℕ), ∀ o < st.diskBlockSize,
      pass buf i (y * st.diskBlockSize + o) = buf (y * st.diskBlockSize + o) +
        if y = i then
          if i ∈ stripeIndexs then 0
          else ((chainCells (coding.mdrIOneDpDiskFailNonStripeIndex i)).map fun c =>
            pread (slot stripeIndexs c.2) c.1 o).sum
        else 0 := by
    intro buf i y o ho
    by_cases hi : i ∈ stripeIndexs
    · simp [pass, hi]
    · simp only [pass, hi, if_false]
      rw [foldl_xorBufAt ho fun c : ℕ × ℕ => pread (slot stripeIndexs c.2) c.1]
  refine ⟨(List.range coding.stripSize).foldl pass buf, ?_, ?_⟩
  · refine Loops.foldlM_ok (fun buf i hi => ?_) buf
    by_cases hmem : i ∈ stripeIndexs
    · simp [pass, hmem]
    · obtain ⟨hlen, hin⟩ := htable i (List.mem_range.1 hi) hmem
      simp only [pass, hmem, if_false, hlen, ne_eq, not_true_eq_false]
      rw [chainCells, List.foldl_flatMap, hlen]
      refine Loops.foldlM_ok (fun buf j _ => ?_) buf
      rw [List.foldl_map]
      refine Loops.foldlM_ok (fun buf e he => ?_) buf
      rw [(slot_spec (hin j e he)).1]
  · intro i hi o ho
    refine Loops.foldl_once (f := pass) (s := buf) List.nodup_range (fun _ => True)
      (fun _ _ _ _ => trivial) (List.mem_range.2 hi)
      (fun buf : Buf => buf (i * st.diskBlockSize + o))
      (fun b => b + if i ∈ stripeIndexs then 0
        else ((chainCells (coding.mdrIOneDpDiskFailNonStripeIndex i)).map fun c =>
          pread (slot stripeIndexs c.2) c.1 o).sum)
      (fun buf _ => ?_) (fun buf y _ hy => ?_) trivial
    · rw [hpass buf i i o ho, if_pos rfl]
    · rw [hpass buf y i o ho, if_neg (Ne.symm hy), add_zero]

/-! ### The blocks of a chain -/

section Chain

variable {V : Type*} [AddCommGroup V]

theorem chainCells_sum (iivec : List (List ℕ)) (f : ℕ × ℕ → V) :
    ((chainCells iivec).map f).sum =
      ∑ j ∈ Finset.range iivec.length, ((iivec.getD j []).map fun e => f (j, e)).sum := by
  rw [chainCells, Xor.sum_map_flatMap, Xor.sum_map_range]
  simp only [List.map_map, Function.comp_def]

theorem repairChain_length (k d s : ℕ) : (repairChain k d s).length = k + 2 := by
  simp [repairChain]

theorem repairChain_getD_of_le {k d s j : ℕ} (hj : j ≤ k) :
    (repairChain k d s).getD j [] = (List.range (2 ^ k)).filter fun t =>
      selects (mdrIEncodingMatrixB k) k s j t && repairRow k d t := by
  rw [repairChain, List.getD_append _ _ _ _ (by simp; omega), List.getD_eq_getElem _ _
    (by simp; omega)]
  simp

theorem repairChain_getD_succ (k d s : ℕ) : (repairChain k d s).getD (k + 1) [] = [s] := by
  rw [repairChain, List.getD_append_right _ _ _ _ (by simp)]
  simp

theorem mem_repairRows_of_mem_repairChain {k d s : ℕ} (hs : s ∈ repairRows k d) {j e : ℕ}
    (he : e ∈ (repairChain k d s).getD j []) : e ∈ repairRows k d := by
  rcases Nat.lt_trichotomy j (k + 1) with hj | rfl | hj
  · rw [repairChain_getD_of_le (by omega), List.mem_filter, Bool.and_eq_true] at he
    exact mem_repairRows.2 ⟨List.mem_range.1 he.1, he.2.2⟩
  · rw [repairChain_getD_succ, List.mem_singleton] at he
    rwa [he]
  · rw [List.getD_eq_default _ _ (by rw [repairChain_length]; omega)] at he
    cases he

variable [Module (ZMod 2) V]

/-- The blocks of a chain add up to the lost block of the mate row: the equation of the `Q` block,
solved for the one block outside the repair rows. -/
theorem sum_repairChain {k d s : ℕ} (hd : d ≤ k) (hs : s ∈ repairRows k d) {c : ℕ → ℕ → V}
    (hc : MdrParity (mdrIEncodingMatrixB k) k c) :
    ((chainCells (repairChain k d s)).map fun p => c p.1 p.2).sum = c d (mate k d s) := by
  obtain ⟨hslt, hrep⟩ := mem_repairRows.1 hs
  obtain ⟨hmlt, hmout⟩ := mate_spec k hd hslt hrep
  -- the `Q` block, split into the rows that are read and the others
  have hsplit : ∀ j ∈ Finset.range (k + 1),
      columnSum (mdrIEncodingMatrixB k) k j s (c j) =
        (((repairChain k d s).getD j []).map fun e => c j e).sum +
          if j = d then c d (mate k d s) else 0 := by
    intro j hj
    have hj : j ≤ k := Nat.lt_succ_iff.1 (Finset.mem_range.1 hj)
    have hout : (∑ t ∈ Finset.range (2 ^ k),
        if selects (mdrIEncodingMatrixB k) k s j t && !repairRow k d t then c j t else 0) =
          if j = d then c d (mate k d s) else 0 := by
      have hterm : ∀ t ∈ Finset.range (2 ^ k),
          (if selects (mdrIEncodingMatrixB k) k s j t && !repairRow k d t then c j t else 0) =
            if t = mate k d s then (if j = d then c d (mate k d s) else 0) else 0 := by
        intro t ht
        have ht := Finset.mem_range.1 ht
        cases hr : repairRow k d t with
        | true =>
            have hne : t ≠ mate k d s := by
              rintro rfl
              rw [hmout] at hr
              cases hr
            simp [hne]
        | false =>
            have hiff := selects_repairRow k hd hslt hrep hj ht hr
            by_cases hsel : selects (mdrIEncodingMatrixB k) k s j t = true
            · obtain ⟨rfl, rfl⟩ := hiff.1 hsel
              simp [hsel]
            · have hnot : ¬ (j = d ∧ t = mate k d s) := fun h => hsel (hiff.2 h)
              by_cases htm : t = mate k d s
              · have hjd : j ≠ d := fun h => hnot ⟨h, htm⟩
                simp [hsel, hjd]
              · simp [hsel, htm]
      rw [Finset.sum_congr rfl hterm, Finset.sum_ite_eq', if_pos (Finset.mem_range.2 hmlt)]
    rw [repairChain_getD_of_le hj, Xor.sum_map_filter_range, ← hout, columnSum,
      ← Finset.sum_add_distrib]
    refine Finset.sum_congr rfl fun t _ => ?_
    cases selects (mdrIEncodingMatrixB k) k s j t <;> cases repairRow k d t <;> simp
  rw [chainCells_sum, repairChain_length, Finset.sum_range_succ, repairChain_getD_succ,
    List.map_singleton, List.sum_singleton, hc.q s hslt, Finset.sum_congr rfl hsplit,
    Finset.sum_add_distrib, Finset.sum_ite_eq', if_pos (Finset.mem_range.2 (by omega)),
    Xor.add_add_cancel_left]

end Chain

/-! ### A data disk or the `P` disk -/

/-- Byte `o` of the blocks of the surviving disks, from row `firstRow` on, is `c`. -/
def Survives (st : NcfsState) (k d firstRow o : ℕ) (c : ℕ → ℕ → Byte) : Prop :=
  ∀ j ≤ k + 1, j ≠ d → ∀ t < 2 ^ k, st.block j (firstRow + t) o = c j t

section DpDisk

variable {st : NcfsState} {k d firstRow o : ℕ} {c : ℕ → ℕ → Byte}

/-- After the repair of the rows, the compact buffer holds the repair rows with all their blocks. -/
theorem repairStripes_preadStripes (hnum : st.diskTotalNum = k + 2) (hd : d ≤ k)
    (ho : o < st.diskBlockSize) (hc : MdrParity (mdrIEncodingMatrixB k) k c)
    (hsurv : Survives st k d firstRow o c) (buf : Buf) {i j : ℕ}
    (hi : i < (repairRows k d).length) (hj : j ≤ k + 1) :
    (repairStripes st d (repairRows k d)
      (preadStripes st d firstRow (repairRows k d) fun _ _ _ => 0) buf).1 i j o =
      c j ((repairRows k d).getD i 0) := by
  have ht : (repairRows k d).getD i 0 < 2 ^ k := by
    rw [List.getD_eq_getElem _ _ hi]
    exact (mem_repairRows.1 (List.getElem_mem hi)).1
  -- what is read
  have hread : ∀ j ≤ k + 1, preadStripes st d firstRow (repairRows k d) (fun _ _ _ => 0) i j o =
      if j = d then 0 else c j ((repairRows k d).getD i 0) := by
    intro j hj
    rw [preadStripes_apply _ _ _ _ _ hi, preadRow_apply, hnum]
    by_cases hjd : j = d
    · simp [hjd]
    · rw [if_pos ⟨by omega, hjd⟩, readDisk_block _ _ _ _ _ ho, if_neg hjd,
        hsurv j hj hjd _ ht]
  rw [repairStripes_fst _ _ _ _ _ hi]
  by_cases hjd : j = d
  · -- the lost block completes the sum of its row to zero
    have hsum : ∑ j ∈ Finset.range (k + 1), c j ((repairRows k d).getD i 0) = 0 := by
      rw [Finset.sum_range_succ, ← hc.p _ ht, ZModModule.add_self]
    have hothers : ∑ j ∈ Finset.range (k + 1), (if j ≠ d then
        preadStripes st d firstRow (repairRows k d) (fun _ _ _ => 0) i j o else 0) =
        ∑ j ∈ (Finset.range (k + 1)).erase d, c j ((repairRows k d).getD i 0) := by
      rw [← Finset.filter_ne', Finset.sum_filter]
      refine Finset.sum_congr rfl fun j hj => ?_
      have hj := Finset.mem_range.1 hj
      rw [hread j (by omega)]
      by_cases h : j = d <;> simp [h]
    rw [hjd, repairRowInBuf_self _ _ _ ho, Xor.sum_map_range, hread d (by omega), if_pos rfl,
      zero_add, hnum, Nat.add_succ_sub_one, hothers, Xor.sum_range_erase (Nat.lt_succ_of_le hd)
        fun j => c j ((repairRows k d).getD i 0), hsum, zero_add]
  · rw [repairRowInBuf_of_ne _ hjd, hread j hj, if_neg hjd]

/-- The output of the branch of a data disk or the `P` disk. -/
theorem repairOthers_rebuilds {coding : Coding4Mdr1} (hk : 1 ≤ k)
    (hnum : st.diskTotalNum = k + 2) (hd : d ≤ k) (hstrip : coding.stripSize = 2 ^ k)
    (htable : ∀ s ∈ repairRows k d,
      coding.mdrIOneDpDiskFailNonStripeIndex (mate k d s) = repairChain k d s)
    (buf : Buf) :
    let read := repairStripes st d (repairRows k d)
      (preadStripes st d firstRow (repairRows k d) fun _ _ _ => 0)
      (memset0 buf (2 ^ k * st.diskBlockSize))
    ∃ buf', repairOthers coding st (repairRows k d) read.1 read.2 = .ok buf' ∧
      ∀ o < st.diskBlockSize, ∀ c, MdrParity (mdrIEncodingMatrixB k) k c →
        Survives st k d firstRow o c →
        ∀ t < 2 ^ k, buf' (t * st.diskBlockSize + o) = c d t := by
  intro read
  have hchain : ∀ t < 2 ^ k, t ∉ repairRows k d → ∃ s ∈ repairRows k d, mate k d s = t ∧
      coding.mdrIOneDpDiskFailNonStripeIndex t = repairChain k d s := by
    intro t ht hout
    have hrep : repairRow k d t = false := by simpa [mem_repairRows, ht] using hout
    obtain ⟨s, hs, hs', rfl⟩ := exists_mate k hk hd ht hrep
    have hmem := mem_repairRows.2 ⟨hs, hs'⟩
    exact ⟨s, hmem, rfl, htable s hmem⟩
  obtain ⟨buf', hok, hblock⟩ := @repairOthers_block coding st
    (repairRows k d) (fun t ht hout => by
      obtain ⟨s, hs, -, htab⟩ := hchain t (by omega) hout
      rw [htab, repairChain_length, hnum]
      exact ⟨rfl, fun j e he => mem_repairRows_of_mem_repairChain hs he⟩) read.1 read.2
  refine ⟨buf', hok, fun o ho c hc hsurv t ht => ?_⟩
  have hcell : ∀ j ≤ k + 1, ∀ e ∈ repairRows k d, read.1 (slot (repairRows k d) e) j o = c j e := by
    intro j hj e he
    obtain ⟨-, hlt, hget⟩ := slot_spec he
    rw [repairStripes_preadStripes hnum hd ho hc hsurv _ hlt hj, hget]
  rw [hblock t (by omega) o ho]
  by_cases hmem : t ∈ repairRows k d
  · obtain ⟨-, hlt, hget⟩ := slot_spec hmem
    have hcopy := repairStripes_snd st d (repairRows_nodup k d)
      (preadStripes st d firstRow (repairRows k d) fun _ _ _ => 0)
      (memset0 buf (2 ^ k * st.diskBlockSize)) hlt ho
    rw [hget, ← repairStripes_fst st d _ _ (memset0 buf (2 ^ k * st.diskBlockSize)) hlt] at hcopy
    rw [if_pos hmem, add_zero, hcopy]
    exact hcell d (by omega) t hmem
  · obtain ⟨s, hs, rfl, htab⟩ := hchain t ht hmem
    have hzero : read.2 (mate k d s * st.diskBlockSize + o) = 0 := by
      rw [repairStripes_snd_of_notMem _ _ _ _ hmem ho, memset0, if_pos]
      calc mate k d s * st.diskBlockSize + o < (mate k d s + 1) * st.diskBlockSize := by
            rw [Nat.succ_mul]; omega
        _ ≤ 2 ^ k * st.diskBlockSize := Nat.mul_le_mul_right _ ht
    rw [if_neg hmem, hzero, zero_add, htab, ← sum_repairChain hd hs hc]
    refine congrArg List.sum (List.map_congr_left fun p hp => ?_)
    obtain ⟨j, hj, hp⟩ := List.mem_flatMap.1 hp
    obtain ⟨e, he, rfl⟩ := List.mem_map.1 hp
    have hj := List.mem_range.1 hj
    rw [repairChain_length] at hj
    exact hcell j (by omega) e (mem_repairRows_of_mem_repairChain hs he)

end DpDisk

/-! ### The `Q` disk -/

section QDisk

variable (st : NcfsState)

theorem preadGroup_apply (coding : Coding4Mdr1) (blockNo : ℕ) (pread : ℕ → ℕ → Buf) {i j : ℕ}
    (hi : i < coding.stripSize) :
    preadGroup coding st blockNo pread i j =
      if j < st.diskTotalNum - 1 then
        readDisk st j (pread i j) st.diskBlockSize ((blockNo + i) * st.diskBlockSize)
      else pread i j := by
  rw [preadGroup, Loops.foldl_update_range (fun i row =>
      (List.range (st.diskTotalNum - 1)).foldl (fun row j => Function.update row j
        (readDisk st j (row j) st.diskBlockSize ((blockNo + i) * st.diskBlockSize))) row),
    if_pos hi, Loops.foldl_update_range (fun j b =>
      readDisk st j b st.diskBlockSize ((blockNo + i) * st.diskBlockSize))]

theorem addQParticipants_eq (iivec : List (List ℕ)) (i : ℕ) (pread : ℕ → ℕ → Buf) :
    addQParticipants st iivec i pread =
      (chainCells iivec).foldl (fun (pread : ℕ → ℕ → Buf) c =>
        Function.update pread i (Function.update (pread i) (st.diskTotalNum - 1)
          (xorBuf st.diskBlockSize (pread i (st.diskTotalNum - 1)) (pread c.2 c.1)))) pread := by
  simp only [addQParticipants, chainCells, List.foldl_flatMap, List.foldl_map]

/-- Only the slot of the `Q` disk in row `i` changes. -/
theorem addQParticipants_of_ne (iivec : List (List ℕ)) {i i' j : ℕ} (pread : ℕ → ℕ → Buf)
    (h : i' ≠ i ∨ j ≠ st.diskTotalNum - 1) :
    addQParticipants st iivec i pread i' j = pread i' j := by
  rw [addQParticipants_eq]
  refine Loops.foldl_frame (fun pread : ℕ → ℕ → Buf => pread i' j) (fun pread c _ => ?_) pread
  by_cases hi : i' = i
  · have hj : j ≠ st.diskTotalNum - 1 := by tauto
    rw [hi, Function.update_self, Function.update_of_ne hj]
  · rw [Function.update_of_ne hi]

theorem addQParticipants_self {iivec : List (List ℕ)} (hlen : iivec.length ≤ st.diskTotalNum - 1)
    (i : ℕ) (pread : ℕ → ℕ → Buf) {o : ℕ} (ho : o < st.diskBlockSize) :
    addQParticipants st iivec i pread i (st.diskTotalNum - 1) o =
      pread i (st.diskTotalNum - 1) o + ((chainCells iivec).map fun c => pread c.2 c.1 o).sum := by
  have key : ∀ (l : List (ℕ × ℕ)), (∀ c ∈ l, c.1 < st.diskTotalNum - 1) →
      ∀ p : ℕ → ℕ → Buf, (∀ i, ∀ j < st.diskTotalNum - 1, p i j = pread i j) →
      l.foldl (fun (pread : ℕ → ℕ → Buf) c =>
        Function.update pread i (Function.update (pread i) (st.diskTotalNum - 1)
          (xorBuf st.diskBlockSize (pread i (st.diskTotalNum - 1)) (pread c.2 c.1)))) p
            i (st.diskTotalNum - 1) o =
        p i (st.diskTotalNum - 1) o + (l.map fun c => pread c.2 c.1 o).sum := by
    intro l
    induction l with
    | nil => simp
    | cons c l ih =>
        intro hl p hp
        have hc := hl c (List.mem_cons_self ..)
        rw [List.foldl_cons, List.map_cons, List.sum_cons,
          ih (fun c hc => hl c (List.mem_cons_of_mem _ hc)), Function.update_self,
          Function.update_self, xorBuf_of_lt _ _ ho, hp _ _ hc, add_assoc]
        intro i' j hj
        rw [← hp i' j hj]
        by_cases hi : i' = i
        · rw [hi, Function.update_self, Function.update_of_ne (by omega)]
        · rw [Function.update_of_ne hi]
  rw [addQParticipants_eq]
  refine key _ (fun c hc => ?_) pread fun _ _ _ => rfl
  obtain ⟨j, hj, hc⟩ := List.mem_flatMap.1 hc
  obtain ⟨e, -, rfl⟩ := List.mem_map.1 hc
  exact lt_of_lt_of_le (List.mem_range.1 hj) hlen

/-- The slot of the `Q` disk in row `i` receives the blocks that the table names for it. -/
theorem repairQBlocks_apply {coding : Coding4Mdr1}
    (hlen : ∀ i < coding.stripSize,
      (coding.mdrIOneQDiskFailStripeIndex i).length ≤ st.diskTotalNum - 1)
    (pread : ℕ → ℕ → Buf) {i o : ℕ} (hi : i < coding.stripSize) (ho : o < st.diskBlockSize) :
    repairQBlocks coding st pread i (st.diskTotalNum - 1) o =
      pread i (st.diskTotalNum - 1) o +
        ((chainCells (coding.mdrIOneQDiskFailStripeIndex i)).map fun c => pread c.2 c.1 o).sum := by
  have hcells : ∀ c ∈ chainCells (coding.mdrIOneQDiskFailStripeIndex i),
      c.1 < st.diskTotalNum - 1 := by
    intro c hc
    obtain ⟨j, hj, hc⟩ := List.mem_flatMap.1 hc
    obtain ⟨e, -, rfl⟩ := List.mem_map.1 hc
    exact lt_of_lt_of_le (List.mem_range.1 hj) (hlen i hi)
  refine Loops.foldl_once (s := pread) List.nodup_range
    (fun p : ℕ → ℕ → Buf => ∀ i, ∀ j < st.diskTotalNum - 1, p i j = pread i j)
    (fun p y _ hp i j hj => ?_) (List.mem_range.2 hi)
    (fun p : ℕ → ℕ → Buf => p i (st.diskTotalNum - 1) o)
    (fun b => b + ((chainCells (coding.mdrIOneQDiskFailStripeIndex i)).map fun c =>
      pread c.2 c.1 o).sum)
    (fun p hp => ?_) (fun p y _ hy => ?_) fun _ _ _ => rfl
  · rw [addQParticipants_of_ne st _ _ (Or.inr (by omega)), hp i j hj]
  · rw [addQParticipants_self st (hlen i hi) i p ho]
    congr 2
    refine List.map_congr_left fun c hc => ?_
    rw [hp _ _ (hcells c hc)]
  · rw [addQParticipants_of_ne st _ _ (Or.inl (Ne.symm hy))]

theorem copyQBlocks_block (coding : Coding4Mdr1) (pread : ℕ → ℕ → Buf) (buf : Buf) {i o : ℕ}
    (hi : i < coding.stripSize) (ho : o < st.diskBlockSize) :
    copyQBlocks coding st pread buf (i * st.diskBlockSize + o) =
      pread i (st.diskTotalNum - 1) o := by
  refine Loops.foldl_once (s := buf) List.nodup_range (fun _ => True) (fun _ _ _ _ => trivial)
    (List.mem_range.2 hi) (fun buf : Buf => buf (i * st.diskBlockSize + o))
    (fun _ => pread i (st.diskTotalNum - 1) o) (fun buf _ => ?_) (fun buf y _ hy => ?_) trivial
  · rw [copyBufAt_block ho, if_pos rfl]
  · rw [copyBufAt_block ho, if_neg (Ne.symm hy)]

theorem fillQDiskTable_apply (coding : Coding4Mdr1) {i : ℕ} (hi : i < coding.stripSize) :
    fillQDiskTable coding st i = mdrIRepairQDiskBlocksId coding st i := by
  rw [fillQDiskTable, Loops.foldl_update_range (fun i _ => mdrIRepairQDiskBlocksId coding st i),
    if_pos hi]

variable {st} {k : ℕ}

/-- The blocks that the table names for a `Q` block are those of its equation. -/
theorem sum_mdrIRepairQDiskBlocksId {coding : Coding4Mdr1} (hcoding : coding.For k)
    (hk : st.dataDiskNum = k) {c : ℕ → ℕ → Byte} (hc : MdrParity (mdrIEncodingMatrixB k) k c)
    {i : ℕ} (hi : i < 2 ^ k) :
    ((chainCells (mdrIRepairQDiskBlocksId coding st i)).map fun p => c p.1 p.2).sum =
      c (k + 1) i := by
  have hlen : (mdrIRepairQDiskBlocksId coding st i).length = k + 1 := by
    simp [mdrIRepairQDiskBlocksId, hk]
  rw [chainCells_sum, hlen, hc.q i hi]
  refine Finset.sum_congr rfl fun j hj => ?_
  have hj := Finset.mem_range.1 hj
  rw [List.getD_eq_getElem _ _ (by omega)]
  simp only [mdrIRepairQDiskBlocksId, List.getElem_map, List.getElem_range]
  rw [Xor.sum_map_filter_range, columnSum, hcoding.stripSize_eq]
  simp only [hcoding.hasBit_eq]

/-- The output of the branch of the `Q` disk. -/
theorem copyQBlocks_rebuilds {coding : Coding4Mdr1} (hcoding : coding.For k)
    (hk : st.dataDiskNum = k) (hnum : st.diskTotalNum = k + 2)
    (htable : ∀ i < 2 ^ k,
      coding.mdrIOneQDiskFailStripeIndex i = mdrIRepairQDiskBlocksId coding st i)
    (blockNo : ℕ) (buf : Buf) {o : ℕ} (ho : o < st.diskBlockSize) {c : ℕ → ℕ → Byte}
    (hc : MdrParity (mdrIEncodingMatrixB k) k c) (hsurv : Survives st k (k + 1) blockNo o c)
    {t : ℕ} (ht : t < 2 ^ k) :
    copyQBlocks coding st
      (repairQBlocks coding st (preadGroup coding st blockNo fun _ _ _ => 0)) buf
        (t * st.diskBlockSize + o) = c (k + 1) t := by
  have hstrip := hcoding.stripSize_eq
  have hlen : ∀ i < 2 ^ k, (coding.mdrIOneQDiskFailStripeIndex i).length = k + 1 := by
    intro i hi
    rw [htable i hi]
    simp [mdrIRepairQDiskBlocksId, hk]
  rw [copyQBlocks_block st coding _ _ (by omega) ho, repairQBlocks_apply st
      (fun i hi => by rw [hlen i (by omega)]; omega) _ (by omega) ho,
    preadGroup_apply st coding _ _ (by omega), if_neg (lt_irrefl _), zero_add,
    ← sum_mdrIRepairQDiskBlocksId hcoding hk hc ht, htable t ht]
  refine congrArg List.sum (List.map_congr_left fun p hp => ?_)
  obtain ⟨j, hj, hp⟩ := List.mem_flatMap.1 hp
  obtain ⟨e, he, rfl⟩ := List.mem_map.1 hp
  have hj := List.mem_range.1 hj
  rw [← htable t ht, hlen t ht] at hj
  have he : e < 2 ^ k := by
    rw [List.getD_eq_getElem _ _ (by rw [← htable t ht, hlen t ht]; exact hj)] at he
    simp only [mdrIRepairQDiskBlocksId, List.getElem_map, List.mem_filter, List.mem_range] at he
    omega
  rw [preadGroup_apply st coding _ _ (by omega), if_pos (by omega), readDisk_block _ _ _ _ _ ho,
    hsurv j (by omega) (by omega) e he]

end QDisk

/-! ### All disks -/

section Recover

variable {st : NcfsState} {coding : Coding4Mdr1} {k d : ℕ}

/-- The rebuild of a data disk or the `P` disk by a fresh object. -/
theorem recover_dpDisk (hk : 1 ≤ k) (hdata : st.dataDiskNum = k) (hnum : st.diskTotalNum = k + 2)
    (hcoding : coding.For k) (hV : coding.mdrIOneDpDiskFailBoolV = false)
    (hM : coding.mdrIOneDpDiskFailBoolM = false) (hd : d ≤ k) (hstatus : st.diskStatus d ≠ 0)
    (hfailed : failedDiskNum st = 1) (g : ℕ) (buf : Buf) :
    ∃ r, mdrIRecoverOneStripeGroup2 coding st d buf (2 ^ k * st.diskBlockSize)
        (g * (2 ^ k * st.diskBlockSize)) (fun _ _ _ => 0) = .ok r ∧
      ∀ o < st.diskBlockSize, ∀ c, MdrParity (mdrIEncodingMatrixB k) k c →
        Survives st k d (g * 2 ^ k) o c → ∀ t < 2 ^ k, r.buf
          (t * st.diskBlockSize + o) = c d t := by
  let cached : Coding4Mdr1 := { coding with
    mdrIOneDpDiskFailBoolV := true
    mdrIOneDpDiskFailStripeIndex := repairRows k d }
  have hcached : cached.For k := ⟨hcoding.matrix_eq, hcoding.stripSize_eq⟩
  obtain ⟨table, htable, hmates⟩ := nonstripeIndexs_eq hcached hdata hd
  let filled : Coding4Mdr1 := { cached with
    mdrIOneDpDiskFailBoolM := true
    mdrIOneDpDiskFailNonStripeIndex := table }
  have hstripes : cacheStripeIndexs coding st d = .ok cached := by
    rw [cacheStripeIndexs, hV, hdata, mdrIRepairDpDiskStripeIndexs_eq hk hd]
    rfl
  have hothers : cacheNonStripeIndexs cached st = .ok filled := by
    rw [cacheNonStripeIndexs, htable, show cached.mdrIOneDpDiskFailBoolM = false from hM]
    rfl
  let read := repairStripes st d (repairRows k d)
    (preadStripes st d (g * 2 ^ k) (repairRows k d) fun _ _ _ => 0)
    (memset0 buf (2 ^ k * st.diskBlockSize))
  obtain ⟨buf', hok, hbuf⟩ : ∃ buf', repairOthers filled st (repairRows k d) read.1 read.2 =
      .ok buf' ∧ _ := repairOthers_rebuilds hk hnum hd
      (show filled.stripSize = 2 ^ k from hcoding.stripSize_eq) hmates buf
  have hblockNo : g * (2 ^ k * st.diskBlockSize) / st.diskBlockSize = g * 2 ^ k := by
    rw [← mul_assoc, Nat.mul_div_cancel _ st.diskBlockSize_pos]
  have hstrip : g * 2 ^ k / 2 ^ k * 2 ^ k = g * 2 ^ k := by
    rw [Nat.mul_div_cancel _ (Nat.two_pow_pos _)]
  have hsize : filled.stripSize = 2 ^ k := hcoding.stripSize_eq
  refine ⟨⟨filled, buf', read.1, 2 ^ k * st.diskBlockSize⟩, ?_, hbuf⟩
  rw [mdrIRecoverOneStripeGroup2, if_neg hstatus, if_pos hfailed, if_pos (by omega), hstripes]
  simp only [bind, Except.bind, hothers, hcoding.stripSize_eq, hsize, hblockNo, hstrip]
  rw [show filled.mdrIOneDpDiskFailStripeIndex = repairRows k d from rfl, hok]
  rfl

/-- The rebuild of the `Q` disk by a fresh object. -/
theorem recover_qDisk (hdata : st.dataDiskNum = k) (hnum : st.diskTotalNum = k + 2)
    (hcoding : coding.For k) (hQ : coding.mdrIOneQDiskFailBool = false)
    (hstatus : st.diskStatus (k + 1) ≠ 0) (hfailed : failedDiskNum st = 1) (g : ℕ) (buf : Buf) :
    ∃ r, mdrIRecoverOneStripeGroup2 coding st (k + 1) buf (2 ^ k * st.diskBlockSize)
        (g * (2 ^ k * st.diskBlockSize)) (fun _ _ _ => 0) = .ok r ∧
      ∀ o < st.diskBlockSize, ∀ c, MdrParity (mdrIEncodingMatrixB k) k c →
        Survives st k (k + 1) (g * 2 ^ k) o c →
        ∀ t < 2 ^ k, r.buf (t * st.diskBlockSize + o) = c (k + 1) t := by
  let filled : Coding4Mdr1 := { coding with
    mdrIOneQDiskFailBool := true
    mdrIOneQDiskFailStripeIndex := fillQDiskTable coding st }
  have hfilled : filled.For k := ⟨hcoding.matrix_eq, hcoding.stripSize_eq⟩
  have hblockNo : g * (2 ^ k * st.diskBlockSize) / st.diskBlockSize = g * 2 ^ k := by
    rw [← mul_assoc, Nat.mul_div_cancel _ st.diskBlockSize_pos]
  have htable : ∀ i < 2 ^ k,
      filled.mdrIOneQDiskFailStripeIndex i = mdrIRepairQDiskBlocksId filled st i := fun i hi =>
    fillQDiskTable_apply st coding (by rwa [hcoding.stripSize_eq])
  let repaired := repairQBlocks filled st (preadGroup filled st (g * 2 ^ k) fun _ _ _ => 0)
  refine ⟨⟨filled, copyQBlocks filled st repaired (memset0 buf (2 ^ k * st.diskBlockSize)),
    repaired, 2 ^ k * st.diskBlockSize⟩, ?_, fun o ho c hc hsurv t ht =>
      copyQBlocks_rebuilds hfilled hdata hnum htable (g * 2 ^ k) _ ho hc hsurv ht⟩
  rw [mdrIRecoverOneStripeGroup2, if_neg hstatus, if_pos hfailed, if_neg (by omega),
    if_pos (by omega), hQ, hblockNo]
  rfl

end Recover

/-- Block by block, the output of the rebuild of a stripe group is the group's part of the failed
disk. -/
theorem recover_group (st : NcfsState) {matrix : ℕ → ℕ → ℕ}
    (hmatrix : mdrIEncodingMatrix st.dataDiskNum = .ok matrix)
    (hnum : st.diskTotalNum = st.dataDiskNum + 2) {d : ℕ} (hd : d ≤ st.dataDiskNum + 1)
    (hfail : ∀ i < st.diskTotalNum, st.diskStatus i = if i = d then 1 else 0)
    {orig : ℕ → ℕ → Byte} (hdisk : ∀ j ≤ st.dataDiskNum + 1, j ≠ d → st.disk j = orig j) (g : ℕ)
    (hgroup : ∀ o < st.diskBlockSize, MdrParity matrix st.dataDiskNum fun j t =>
      orig j ((g * 2 ^ st.dataDiskNum + t) * st.diskBlockSize + o)) (buf : Buf) :
    let groupSize := 2 ^ st.dataDiskNum * st.diskBlockSize
    ∃ coding r, Coding4Mdr1.new st = .ok coding ∧
      mdrIRecoverOneStripeGroup2 coding st d buf groupSize (g * groupSize)
      (fun _ _ _ => 0) = .ok r ∧ ∀ t < 2 ^ st.dataDiskNum, ∀ o < st.diskBlockSize, r.buf
        (t * st.diskBlockSize + o) = orig d
          ((g * 2 ^ st.dataDiskNum + t) * st.diskBlockSize + o) := by
  intro groupSize
  obtain ⟨hk, rfl⟩ := eq_of_mdrIEncodingMatrix hmatrix
  obtain ⟨coding, hnew, hcoding, hV, hM, hQ⟩ := Coding4Mdr1.new_ok hk
  have hstatus : st.diskStatus d ≠ 0 := by
    rw [hfail d (by omega), if_pos rfl]
    omega
  have hfailed : failedDiskNum st = 1 := failedDiskNum_eq_one (by omega) hfail
  have hsurv : ∀ o, Survives st st.dataDiskNum d (g * 2 ^ st.dataDiskNum) o fun j t =>
      orig j ((g * 2 ^ st.dataDiskNum + t) * st.diskBlockSize + o) := by
    intro o j hj hjd t _
    rw [NcfsState.block, hdisk j hj hjd]
  rcases Nat.lt_or_ge d (st.dataDiskNum + 1) with hdp | hdq
  · obtain ⟨r, hrun, hr⟩ := recover_dpDisk hk rfl hnum hcoding hV hM
      (by omega) hstatus hfailed g buf
    exact ⟨coding, r, hnew, hrun, fun t ht o ho => hr o ho _ (hgroup o ho) (hsurv o) t ht⟩
  · obtain rfl : d = st.dataDiskNum + 1 := le_antisymm hd hdq
    obtain ⟨r, hrun, hr⟩ := recover_qDisk rfl hnum hcoding hQ hstatus hfailed g buf
    exact ⟨coding, r, hnew, hrun, fun t ht o ho => hr o ho _ (hgroup o ho) (hsurv o) t ht⟩

/-- The rebuild of a stripe group is correct for every disk: the output is the group's part of the
failed disk, in row order. -/
theorem mdrIRecoverOneStripeGroup2_rebuilds (st : NcfsState) {matrix : ℕ → ℕ → ℕ}
    (hmatrix : mdrIEncodingMatrix st.dataDiskNum = .ok matrix)
    (hnum : st.diskTotalNum = st.dataDiskNum + 2) (d : ℕ) (hd : d ≤ st.dataDiskNum + 1)
    (hfail : ∀ i < st.diskTotalNum, st.diskStatus i = if i = d then 1 else 0)
    (orig : ℕ → ℕ → Byte) (hdisk : ∀ j ≤ st.dataDiskNum + 1, j ≠ d → st.disk j = orig j) (g : ℕ)
    (hgroup : ∀ o < st.diskBlockSize, MdrParity matrix st.dataDiskNum fun j t =>
      orig j ((g * 2 ^ st.dataDiskNum + t) * st.diskBlockSize + o)) (buf : Buf) :
    let groupSize := 2 ^ st.dataDiskNum * st.diskBlockSize
    ∃ coding r, Coding4Mdr1.new st = .ok coding ∧
      mdrIRecoverOneStripeGroup2 coding st d buf groupSize (g * groupSize)
      (fun _ _ _ => 0) = .ok r ∧ ∀ x < groupSize, r.buf x = orig d (g * groupSize + x) := by
  intro groupSize
  obtain ⟨coding, r, hnew, hrun, hr⟩ := recover_group st hmatrix hnum hd hfail hdisk g hgroup buf
  refine ⟨coding, r, hnew, hrun, fun x hx => ?_⟩
  -- a byte of the output is a byte of a block
  have hx' := hr (x / st.diskBlockSize) (Nat.div_lt_of_lt_mul (by rwa [mul_comm]))
    (x % st.diskBlockSize) (Nat.mod_lt _ st.diskBlockSize_pos)
  rw [Nat.div_add_mod'] at hx'
  rw [hx']
  congr 1
  calc (g * 2 ^ st.dataDiskNum + x / st.diskBlockSize) * st.diskBlockSize + x % st.diskBlockSize
      = g * groupSize + (x / st.diskBlockSize * st.diskBlockSize + x % st.diskBlockSize) := by
        simp only [groupSize]; ring
    _ = g * groupSize + x := by rw [Nat.div_add_mod']

/-- A stripe group for two data disks: the data, `P` and `Q`, repeated in every group. -/
def sampleGroup (j x : ℕ) : Byte :=
  Byte.ofNat (([[1, 2, 3, 4], [5, 6, 7, 8], [4, 4, 4, 12], [5, 9, 0, 7]].getD j []).getD (x % 4) 0)

/-- The second of two data disks is lost and its second group rebuilt. -/
theorem mdrIRecoverOneStripeGroup2_rebuilds_sample :
    let st : NcfsState := { NcfsState.blank 4 2 1 (by decide) 8 with
      diskStatus := fun i => if i = 1 then 1 else 0
      disk := fun j => if j = 1 then fun _ => 0 else sampleGroup j }
    ∃ coding r, Coding4Mdr1.new st = .ok coding ∧
      mdrIRecoverOneStripeGroup2 coding st 1 (fun _ => 0) 4 4 (fun _ _ _ => 0) = .ok r ∧
      ∀ x < 4, r.buf x = sampleGroup 1 (4 + x) := by
  intro st
  refine mdrIRecoverOneStripeGroup2_rebuilds st rfl rfl 1 (by decide) (fun _ _ => rfl) sampleGroup
    (fun j _ hj => if_neg hj) 1 (fun o ho => ?_) _
  obtain rfl : o = 0 := Nat.lt_one_iff.1 ho
  exact ⟨by decide, by decide⟩

end Ncfs
