/-
Rebuilding a disk under the MDR-I code.

The rebuild of a whole disk takes one stripe group after the other.  The group is rebuilt in a
buffer, as in `FuseMdr/MdrRebuild.lean`, and its blocks are written.  Devices end, and a group may
cross the end: the rows that the rebuild of a data disk or the `P` disk reads are half of the rows
of the group, and only these have to be in front of it.

The byte offset of a group, and those of the rows that are read for a data disk or the `P` disk, are
products of two `int`s.

Main definitions:

* `Ncfs.Devices.preadStripes`, `Ncfs.Devices.preadGroup` — the loops that read, on devices that end;
* `Ncfs.Coding4Mdr1.recoverOneStripeGroup2`, `Ncfs.Coding4Mdr1.recoverOneDisk` — the functions.

Main results:

* `Ncfs.Devices.preadStripes_inside`, `Ncfs.Devices.preadGroup_inside` — inside the devices the
  loops read what they read on endless ones;
* `Ncfs.Coding4Mdr1.recoverGroup_dpDisk`, `Ncfs.Coding4Mdr1.recoverGroup_qDisk` — one group;
* `Ncfs.Coding4Mdr1.recoverOneDisk_ok` — a whole disk;
* `Ncfs.Coding4Mdr1.recoverOneDisk_inside` — what a rebuild has read that leaves the other disks
  working.
-/
import FuseMdr.BlockStorage
import FuseMdr.MdrDecode

set_option relaxedAutoImplicit false
set_option autoImplicit false

namespace Ncfs

namespace Devices

/-! ### The loops that read -/

/-- The loop over `j` that reads row `blkNum` of all disks but `diskId`. -/
def preadRow (s : Devices) (diskId blkNum : ℕ) (row : ℕ → Buf) :
    Except CodingError ((ℕ → Buf) × Devices) :=
  (List.range s.ncfs.diskTotalNum).foldlM (fun x j =>
    if j ≠ diskId then do
      let blockSize := x.2.ncfs.diskBlockSize
      let offset ← intMul blkNum blockSize
      let (buf, s) := x.2.readDisk j (x.1 j) blockSize offset
      return (Function.update x.1 j buf, s)
    else .ok x) (row, s)

/-- Reading the rows `stripeIndexs` of the group into the compact buffer. -/
def preadStripes (s : Devices) (diskId firstRow : ℕ) (stripeIndexs : List ℕ) (pread : ℕ → ℕ → Buf) :
    Except CodingError ((ℕ → ℕ → Buf) × Devices) :=
  (List.range stripeIndexs.length).foldlM (fun x i => do
    let (row, s) ← preadRow x.2 diskId (firstRow + stripeIndexs.getD i 0) (x.1 i)
    return (Function.update x.1 i row, s)) (pread, s)

/-- One read of the loops for the `Q` disk, whose offset is a `long long`. -/
def preadBlock (blkNum : ℕ) (x : (ℕ → Buf) × Devices) (j : ℕ) : (ℕ → Buf) × Devices :=
  let blockSize := x.2.ncfs.diskBlockSize
  let (buf, s) := x.2.readDisk j (x.1 j) blockSize (blkNum * blockSize)
  (Function.update x.1 j buf, s)

/-- The inner loop, for row `i` of the group. -/
def preadGroupRow (blockNo : ℕ) (x : (ℕ → ℕ → Buf) × Devices) (i : ℕ) : (ℕ → ℕ → Buf) × Devices :=
  let (row, s) := (List.range (x.2.ncfs.diskTotalNum - 1)).foldl (preadBlock (blockNo + i))
    (x.1 i, x.2)
  (Function.update x.1 i row, s)

/-- Reading all rows of the group, for the `Q` disk. -/
def preadGroup (s : Devices) (stripSize blockNo : ℕ) (pread : ℕ → ℕ → Buf) :
    (ℕ → ℕ → Buf) × Devices :=
  (List.range stripSize).foldl (preadGroupRow blockNo) (pread, s)

end Devices

namespace Coding4Mdr1

/-! ### The functions -/

/-- `Coding4Mdr1::mdr_I_recover_oneStripeGroup2`, with the state behind it.  Time counters are left
out. -/
def recoverOneStripeGroup2 (coding : Coding4Mdr1) (s : Devices) (diskId : ℕ) (buf : Buf)
    (size offset : ℕ) (pread : ℕ → ℕ → Buf) : Except CodingError (RecoverResult × Devices) :=
  let buf := memset0 buf size
  let blockNo := offset / s.ncfs.diskBlockSize
  if s.ncfs.diskStatus diskId = 0 then
    let (buf, s) := s.readDisk diskId buf size offset
    .ok (⟨coding, buf, pread, size⟩, s)
  else if failedDiskNum s.ncfs = 1 then
    let stripNum := blockNo / coding.stripSize
    if diskId < s.ncfs.diskTotalNum - 1 then do
      -- a data disk or the `P` disk
      let coding ← cacheStripeIndexs coding s.ncfs diskId
      let coding ← cacheNonStripeIndexs coding s.ncfs
      let stripeIndexs := coding.mdrIOneDpDiskFailStripeIndex
      let (pread, s') ← s.preadStripes diskId (stripNum * coding.stripSize) stripeIndexs pread
      let (pread, buf) := repairStripes s.ncfs diskId stripeIndexs pread buf
      let buf ← repairOthers coding s.ncfs stripeIndexs pread buf
      return (⟨coding, buf, pread, size⟩, s')
    else if diskId = s.ncfs.diskTotalNum - 1 then
      -- the `Q` disk
      let (pread, s') := s.preadGroup coding.stripSize blockNo pread
      let coding :=
        if coding.mdrIOneQDiskFailBool then coding
        else { coding with
          mdrIOneQDiskFailBool := true
          mdrIOneQDiskFailStripeIndex := fillQDiskTable coding s.ncfs }
      let pread := repairQBlocks coding s.ncfs pread
      .ok (⟨coding, copyQBlocks coding s.ncfs pread buf, pread, size⟩, s')
    else .ok (⟨coding, buf, pread, size⟩, s)
  else .error .failed

/-- The loop that writes the blocks of a group from the buffer. -/
def writeGroup (s : Devices) (failDiskId stripSize offset : ℕ) (buf : Buf) : Devices :=
  (List.range stripSize).foldl (fun s j =>
    let blockSize := s.ncfs.diskBlockSize
    s.writeDisk failDiskId (fun o => buf (j * blockSize + o)) blockSize (offset + j * blockSize)) s

/-- One pass of the loop over the groups.  The value that the rebuild of the group returns is not
looked at, so that the cleared buffer is written where it fails. -/
def recoverGroup (failDiskId : ℕ) (x : Coding4Mdr1 × Devices) (i : ℕ) :
    Except CodingError (Coding4Mdr1 × Devices) := do
  let (coding, s) := x
  let blockSize := s.ncfs.diskBlockSize
  let offset ← intMul i blockSize
  let bufSize := coding.stripSize * blockSize
  match coding.recoverOneStripeGroup2 s failDiskId (fun _ => 0) bufSize offset (fun _ _ _ => 0) with
  | .ok (r, s) => .ok (r.coding, writeGroup s failDiskId coding.stripSize offset r.buf)
  | .error .failed => .ok (coding, writeGroup s failDiskId coding.stripSize offset fun _ => 0)
  | .error e => .error e

/-- `mdr_I_recover_one_disk`: `i` runs over the multiples of the strip size, and the slots are
cleared for every group. -/
def recoverOneDisk (coding : Coding4Mdr1) (s : Devices) (failDiskId : ℕ) :
    Except CodingError Devices := do
  let recoverSize := s.diskSize failDiskId
  let stripSize := coding.stripSize
  let (_, s) ← (List.range ((recoverSize + stripSize - 1) / stripSize)).foldlM (fun x g =>
    recoverGroup failDiskId x (g * stripSize)) (coding, s)
  return s.setDeviceStatus failDiskId 0

end Coding4Mdr1

/-! ### Reading inside the devices -/

namespace Devices

variable {s : Devices} {d firstRow : ℕ}

/-- A row that lies on all devices is read. -/
theorem preadRow_inside {b : ℕ} (h : ∀ j < s.ncfs.diskTotalNum, j ≠ d → s.HasBlock j b)
    (hfits : b * s.ncfs.diskBlockSize < 2 ^ 31) (row : ℕ → Buf) :
    s.preadRow d b row = .ok (Ncfs.preadRow s.ncfs d b row, s) := by
  refine Loops.foldlM_fst (fun row j hj => ?_) row
  by_cases hjd : j ≠ d
  · simp only [if_pos hjd, intMul_of_lt hfits, Loops.ok_bind, readDisk_block
      (h j (List.mem_range.1 hj) hjd)]
    rfl
  · simp only [if_neg hjd, Function.update_eq_self]

/-- Rows that lie on all devices are read. -/
theorem preadStripes_inside {stripeIndexs : List ℕ}
    (h : ∀ t ∈ stripeIndexs, (∀ j < s.ncfs.diskTotalNum, j ≠ d → s.HasBlock j (firstRow + t)) ∧
      (firstRow + t) * s.ncfs.diskBlockSize < 2 ^ 31) (pread : ℕ → ℕ → Buf) :
    s.preadStripes d firstRow stripeIndexs pread =
      .ok (Ncfs.preadStripes s.ncfs d firstRow stripeIndexs pread, s) := by
  refine Loops.foldlM_fst (fun pread i hi => ?_) pread
  have hlt : i < stripeIndexs.length := List.mem_range.1 hi
  have hmem : stripeIndexs.getD i 0 ∈ stripeIndexs := by
    rw [List.getD_eq_getElem _ _ hlt]
    exact List.getElem_mem hlt
  obtain ⟨hblocks, hfits⟩ := h _ hmem
  simp only [preadRow_inside hblocks hfits, Loops.ok_bind]
  rfl

/-- A group whose rows lie on all devices but the last is read. -/
theorem preadGroup_inside {coding : Coding4Mdr1} {blockNo : ℕ}
    (h : ∀ i < coding.stripSize, ∀ j < s.ncfs.diskTotalNum - 1, s.HasBlock j (blockNo + i))
    (pread : ℕ → ℕ → Buf) :
    s.preadGroup coding.stripSize blockNo pread =
      (Ncfs.preadGroup coding s.ncfs blockNo pread, s) := by
  refine Loops.foldl_fst (fun pread i hi => ?_) pread
  have hrow := Loops.foldl_fst (f := preadBlock (blockNo + i)) (t := s)
    (l := List.range (s.ncfs.diskTotalNum - 1)) (g := fun row j => Function.update row j
      (Ncfs.readDisk s.ncfs j (row j) s.ncfs.diskBlockSize ((blockNo + i) * s.ncfs.diskBlockSize)))
    (fun row j hj => by
      rw [preadBlock]
      simp only [readDisk_block (h i (List.mem_range.1 hi) j (List.mem_range.1 hj))]) (pread i)
  rw [preadGroupRow]
  simp only [hrow]

end Devices

/-! ### One group -/

namespace Coding4Mdr1

/-- The caches that the rebuild of disk `d` uses are empty, or hold what belongs to it. -/
structure Ready (coding : Coding4Mdr1) (k d : ℕ) : Prop extends coding.For k where
  /-- Those for a data disk or the `P` disk. -/
  dp : d ≤ k → coding.CachesFor k d
  /-- That for the `Q` disk. -/
  q : ¬ d ≤ k → coding.mdrIOneQDiskFailBool = true → ∀ st : NcfsState,
    st.dataDiskNum = k → ∀ i < 2 ^ k, coding.mdrIOneQDiskFailStripeIndex i =
      mdrIRepairQDiskBlocksId coding st i

/-- The reads for group `g` stay on the devices, and the offsets that are products of `int`s are
values of an `int`. -/
structure ReadsInside (s : Devices) (k d g : ℕ) : Prop where
  /-- The offset of the group. -/
  fits : g * 2 ^ k * s.ncfs.diskBlockSize < 2 ^ 31
  /-- The rows that are read for a data disk or the `P` disk. -/
  dp : d ≤ k → ∀ t ∈ repairRows k d, (∀ j < k + 2, j ≠ d → s.HasBlock j (g * 2 ^ k + t)) ∧
    (g * 2 ^ k + t) * s.ncfs.diskBlockSize < 2 ^ 31
  /-- All rows are read for the `Q` disk. -/
  q : ¬ d ≤ k → ∀ t < 2 ^ k, ∀ j ≤ k, s.HasBlock j (g * 2 ^ k + t)

section Group

variable {coding : Coding4Mdr1} {s : Devices} {k d g : ℕ}

theorem groupOffset_div (s : Devices) (k g : ℕ) :
    g * 2 ^ k * s.ncfs.diskBlockSize / s.ncfs.diskBlockSize = g * 2 ^ k :=
  Nat.mul_div_cancel _ s.ncfs.diskBlockSize_pos

/-- A group of a data disk or the `P` disk is rebuilt. -/
theorem recoverGroup_dpDisk (hk : 1 ≤ k) (hdata : s.ncfs.dataDiskNum = k)
    (hnum : s.ncfs.diskTotalNum = k + 2) (hd : d ≤ k) (hs : s.SingleFailure d)
    (hc : coding.CachesFor k d) (hread : ReadsInside s k d g) (buf : Buf) :
    ∃ r, coding.recoverOneStripeGroup2 s d buf (2 ^ k * s.ncfs.diskBlockSize)
        (g * 2 ^ k * s.ncfs.diskBlockSize) (fun _ _ _ => 0) = .ok (r, s) ∧ r.coding.CachesFor k d ∧
      ∀ o < s.ncfs.diskBlockSize, ∀ c, MdrParity (Ncfs.mdrIEncodingMatrixB k) k c →
        Survives s.ncfs k d (g * 2 ^ k) o c → ∀ t < 2 ^ k, r.buf
          (t * s.ncfs.diskBlockSize + o) = c d t := by
  obtain ⟨cached, hrows, hcached, hV⟩ := cacheStripeIndexs_ok hk hdata hd hc fun _ => rfl
  obtain ⟨full, hfull, hcfull, hVfull, hmates⟩ := cacheNonStripeIndexs_ok hdata hd hcached hV
  have hstrip := hcfull.stripSize_eq
  have hpread : s.preadStripes d (g * 2 ^ k) (repairRows k d) (fun _ _ _ => 0) = .ok (_, s) :=
    Devices.preadStripes_inside (by rw [hnum]; exact hread.dp hd) _
  let read := repairStripes s.ncfs d (repairRows k d)
    (preadStripes s.ncfs d (g * 2 ^ k) (repairRows k d) fun _ _ _ => 0)
    (memset0 buf (2 ^ k * s.ncfs.diskBlockSize))
  obtain ⟨buf', hothers, hbuf⟩ : ∃ buf', repairOthers full s.ncfs
      (repairRows k d) read.1 read.2 = .ok buf' ∧ _ :=
    repairOthers_rebuilds hk hnum hd hstrip hmates buf
  refine ⟨⟨full, buf', read.1, 2 ^ k * s.ncfs.diskBlockSize⟩, ?_, hcfull, hbuf⟩
  rw [recoverOneStripeGroup2, if_neg hs.status_ne, if_pos hs.count, if_pos (by omega), hrows]
  simp only [Loops.ok_bind, hfull, hcfull.rows hVfull, hstrip, hc.stripSize_eq, groupOffset_div,
    Nat.mul_div_cancel _ (Nat.two_pow_pos k), hpread]
  rw [hothers]
  rfl

/-- A group of the `Q` disk is rebuilt. -/
theorem recoverGroup_qDisk (hdata : s.ncfs.dataDiskNum = k) (hnum : s.ncfs.diskTotalNum = k + 2)
    (hs : s.SingleFailure (k + 1)) (hc : coding.Ready k (k + 1)) (hread : ReadsInside s k (k + 1) g)
    (buf : Buf) :
    ∃ r, coding.recoverOneStripeGroup2 s (k + 1) buf (2 ^ k * s.ncfs.diskBlockSize)
        (g * 2 ^ k * s.ncfs.diskBlockSize) (fun _ _ _ => 0) = .ok (r, s) ∧
        r.coding.Ready k (k + 1) ∧
      ∀ o < s.ncfs.diskBlockSize, ∀ c, MdrParity (Ncfs.mdrIEncodingMatrixB k) k c →
        Survives s.ncfs k (k + 1) (g * 2 ^ k) o c →
        ∀ t < 2 ^ k, r.buf (t * s.ncfs.diskBlockSize + o) = c (k + 1) t := by
  have hq : ¬ k + 1 ≤ k := by omega
  have hpread : s.preadGroup coding.stripSize (g * 2 ^ k) (fun _ _ _ => 0) = (_, s) :=
    Devices.preadGroup_inside
      (by rw [hnum, hc.stripSize_eq]; exact fun i hi j hj => hread.q hq i hi j (by omega)) _
  let filled : Coding4Mdr1 :=
    if coding.mdrIOneQDiskFailBool then coding
    else { coding with
      mdrIOneQDiskFailBool := true
      mdrIOneQDiskFailStripeIndex := fillQDiskTable coding s.ncfs }
  have hfilled : filled.Ready k (k + 1) ∧ ∀ i < 2 ^ k,
      filled.mdrIOneQDiskFailStripeIndex i = mdrIRepairQDiskBlocksId filled s.ncfs i := by
    by_cases hflag : coding.mdrIOneQDiskFailBool = true
    · have hsame : filled = coding := if_pos hflag
      rw [hsame]
      exact ⟨hc, hc.q hq hflag s.ncfs hdata⟩
    · have hnew : filled = { coding with
          mdrIOneQDiskFailBool := true
          mdrIOneQDiskFailStripeIndex := fillQDiskTable coding s.ncfs } := if_neg hflag
      have htable : ∀ i < 2 ^ k,
          fillQDiskTable coding s.ncfs i = mdrIRepairQDiskBlocksId coding s.ncfs i := fun i hi =>
        fillQDiskTable_apply s.ncfs coding (by rwa [hc.stripSize_eq])
      rw [hnew]
      refine ⟨⟨⟨hc.matrix_eq, hc.stripSize_eq⟩, fun h => absurd h hq, fun _ _ st hst i hi => ?_⟩,
        htable⟩
      refine (htable i hi).trans ?_
      rw [mdrIRepairQDiskBlocksId, mdrIRepairQDiskBlocksId, hst, hdata]
      rfl
  let repaired := repairQBlocks filled s.ncfs (preadGroup coding s.ncfs (g * 2 ^ k) fun _ _ _ => 0)
  have hsame : preadGroup coding s.ncfs (g * 2 ^ k) = preadGroup filled s.ncfs (g * 2 ^ k) := by
    funext pread
    rw [preadGroup, preadGroup, hc.stripSize_eq, hfilled.1.stripSize_eq]
  refine ⟨⟨filled, copyQBlocks filled s.ncfs repaired (memset0 buf (2 ^ k * s.ncfs.diskBlockSize)),
    repaired, 2 ^ k * s.ncfs.diskBlockSize⟩, ?_, hfilled.1, fun o ho c hpar hsurv t ht => ?_⟩
  · rw [recoverOneStripeGroup2, if_neg hs.status_ne, if_pos hs.count, if_neg (by omega),
      if_pos (by omega), groupOffset_div, hpread]
  · simp only [repaired, hsame]
    exact copyQBlocks_rebuilds hfilled.1.toFor hdata hnum hfilled.2 (g * 2 ^ k) _ ho hpar hsurv ht

end Group

/-! ### The loop over the groups -/

section Disk

variable {coding : Coding4Mdr1} {s s' : Devices} {k d g : ℕ} {want : ℕ → ℕ → Byte}

/-- The reads depend on the sizes only. -/
theorem ReadsInside.congr (h : ReadsInside s k d g) (hsize : s'.diskSize = s.diskSize)
    (hblock : s'.ncfs.diskBlockSize = s.ncfs.diskBlockSize) : ReadsInside s' k d g := by
  refine ⟨?_, fun hd t ht => ?_, fun hd t ht j hj => ?_⟩
  · rw [hblock]
    exact h.fits
  · rw [hblock]
    refine ⟨fun j hj hjd => ?_, (h.dp hd t ht).2⟩
    rw [Devices.HasBlock, hsize]
    exact (h.dp hd t ht).1 j hj hjd
  · rw [Devices.HasBlock, hsize]
    exact h.q hd t ht j hj

theorem ReadsInside.of_replaced (h : ReadsInside s k d g) (h' : s.Replaced d s') :
    ReadsInside s' k d g :=
  h.congr h'.size_eq h'.block_eq

/-- The blocks of a group are written to the failed disk. -/
theorem writeGroup_replaced (h : s.Replaced d s') (hs : s.SingleFailure d) (b stripSize : ℕ)
    (buf : Buf) :
    s.Replaced d (writeGroup s' d stripSize (b * s'.ncfs.diskBlockSize) buf) := by
  refine (Loops.foldl_inv (fun s'' : Devices => s.Replaced d s'' ∧
    s''.ncfs.diskBlockSize = s'.ncfs.diskBlockSize)
    (fun s'' j _ h'' => ?_) ⟨h, rfl⟩).1
  obtain ⟨hrep, hblock⟩ := h''
  dsimp only
  rw [← hblock, ← Nat.add_mul]
  exact ⟨hrep.write hs _ _, (Devices.later_writeDisk ..).block_eq⟩

theorem writeGroup_rebuilt (h : s.Rebuilt d want (g * 2 ^ k) s') (hs : s.SingleFailure d)
    {buf : Buf} (hbuf : ∀ t < 2 ^ k, ∀ o < s.ncfs.diskBlockSize,
      buf (t * s.ncfs.diskBlockSize + o) = want (g * 2 ^ k + t) o) :
    s.Rebuilt d want ((g + 1) * 2 ^ k)
      (writeGroup s' d (2 ^ k) (g * 2 ^ k * s'.ncfs.diskBlockSize) buf) := by
  rw [Nat.succ_mul]
  refine (Loops.foldl_range (fun j s'' => s.Rebuilt d want (g * 2 ^ k + j) s'' ∧
    s''.ncfs.diskBlockSize = s'.ncfs.diskBlockSize) (fun j hj s'' h'' => ?_) ⟨h, rfl⟩).1
  obtain ⟨hreb, hblock⟩ := h''
  dsimp only
  rw [← hblock, ← Nat.add_mul]
  refine ⟨hreb.write hs fun o ho => ?_, (Devices.later_writeDisk ..).block_eq⟩
  rw [hreb.block_eq]
  exact hbuf j hj o ho

/-- One pass over a group whose reads stay inside. -/
theorem recoverGroup_ok (hk : 1 ≤ k) (hdata : s.ncfs.dataDiskNum = k)
    (hnum : s.ncfs.diskTotalNum = k + 2) (hs : s.SingleFailure d) (hc : coding.Ready k d)
    (hread : ReadsInside s k d g) (h : s.Replaced d s') :
    ∃ r : RecoverResult, r.coding.Ready k d ∧
      recoverGroup d (coding, s') (g * 2 ^ k) =
        .ok (r.coding, writeGroup s' d (2 ^ k) (g * 2 ^ k * s'.ncfs.diskBlockSize) r.buf) ∧
      ∀ o < s.ncfs.diskBlockSize, ∀ c, MdrParity (Ncfs.mdrIEncodingMatrixB k) k c →
        Survives s.ncfs k d (g * 2 ^ k) o c → ∀ t < 2 ^ k, r.buf
          (t * s.ncfs.diskBlockSize + o) = c d t := by
  have hdata' : s'.ncfs.dataDiskNum = k := h.data_eq.trans hdata
  have hnum' : s'.ncfs.diskTotalNum = k + 2 := h.total_eq.trans hnum
  have hread' := hread.of_replaced h
  have hs' := h.singleFailure hs
  have hgroup : ∃ r : RecoverResult, coding.recoverOneStripeGroup2 s' d (fun _ => 0)
      (2 ^ k * s'.ncfs.diskBlockSize)
        (g * 2 ^ k * s'.ncfs.diskBlockSize) (fun _ _ _ => 0) = .ok (r, s') ∧ r.coding.Ready k d ∧
      ∀ o < s'.ncfs.diskBlockSize, ∀ c, MdrParity (Ncfs.mdrIEncodingMatrixB k) k c →
        Survives s'.ncfs k d (g * 2 ^ k) o c → ∀ t < 2 ^ k,
        r.buf (t * s'.ncfs.diskBlockSize + o) = c d t := by
    by_cases hd : d ≤ k
    · obtain ⟨r, hrun, hcaches, hr⟩ := recoverGroup_dpDisk hk hdata' hnum' hd hs'
        (hc.dp hd) hread' fun _ => 0
      exact ⟨r, hrun, ⟨hcaches.toFor, fun _ => hcaches, fun hq => absurd hd hq⟩, hr⟩
    · obtain rfl : d = k + 1 := by
        have := hs.lt
        omega
      exact recoverGroup_qDisk hdata' hnum' hs' hc hread' fun _ => 0
  obtain ⟨r, hrun, hready, hr⟩ := hgroup
  refine ⟨r, hready, ?_, fun o ho c hpar hsurv t ht => ?_⟩
  · rw [recoverGroup]
    dsimp only
    rw [intMul_of_lt hread'.fits, Loops.ok_bind]
    simp only [hc.stripSize_eq, hrun]
  · have hblocks := hr o (by rwa [h.block_eq]) c hpar (fun j hj hjd t ht => by
      rw [h.block_of_ne hjd]
      exact hsurv j hj hjd t ht) t ht
    rwa [h.block_eq] at hblocks

/-- Several passes. -/
theorem recoverGroups_ok (hk : 1 ≤ k) (hdata : s.ncfs.dataDiskNum = k)
    (hnum : s.ncfs.diskTotalNum = k + 2) (hs : s.SingleFailure d) (hc : coding.Ready k d)
    {groups : ℕ} (hread : ∀ g < groups, ReadsInside s k d g) :
    ∃ x, (List.range groups).foldlM (fun x g => recoverGroup d x (g * 2 ^ k)) (coding, s) = .ok x ∧
      x.1.Ready k d ∧ s.Replaced d x.2 := by
  obtain ⟨x, hrun, hready, hrep⟩ :=
    Loops.foldlM_range (f := fun x g => recoverGroup d x (g * 2 ^ k)) (n := groups)
    (fun _ x => x.1.Ready k d ∧ s.Replaced d x.2) (fun g hg x hx => by
      obtain ⟨r, hready, hpass, -⟩ := recoverGroup_ok hk hdata hnum hs hx.1 (hread g hg) hx.2
      exact ⟨_, hpass, hready, writeGroup_replaced hx.2 hs ..⟩) (s := (coding, s)) ⟨hc, .rfl⟩
  exact ⟨x, hrun, hready, hrep⟩

theorem groups_spec {stripSize : ℕ} (hpos : 0 < stripSize) (size : ℕ) {g : ℕ} :
    g < (size + stripSize - 1) / stripSize ↔ g * stripSize < size := by
  rw [Nat.lt_div_iff_mul_lt hpos]
  omega

theorem le_groups_mul {stripSize : ℕ} (hpos : 0 < stripSize) (size : ℕ) :
    size ≤ (size + stripSize - 1) / stripSize * stripSize :=
  not_lt.1 fun h => lt_irrefl _ ((groups_spec hpos size).2 h)

/-- A disk is rebuilt whose groups are read inside the devices, where the contents satisfy the
equations. -/
theorem recoverOneDisk_ok (want : ℕ → ℕ → Byte) (hk : 1 ≤ k) (hdata : s.ncfs.dataDiskNum = k)
    (hnum : s.ncfs.diskTotalNum = k + 2) (hs : s.SingleFailure d) (hc : coding.Ready k d)
    (hread : ∀ g, g * 2 ^ k < s.diskSize d → ReadsInside s k d g)
    (hwant : ∀ g, g * 2 ^ k < s.diskSize d → ∀ o < s.ncfs.diskBlockSize, ∃ c,
      MdrParity (Ncfs.mdrIEncodingMatrixB k) k c ∧ Survives s.ncfs k d (g * 2 ^ k) o c ∧
        ∀ t < 2 ^ k, c d t = want (g * 2 ^ k + t) o) :
    ∃ s', coding.recoverOneDisk s d = .ok s' ∧ s'.ncfs.diskBlockSize = s.ncfs.diskBlockSize ∧
      (∀ i, i ≠ d → s'.ncfs.disk i = s.ncfs.disk i) ∧
      (∀ b < s.diskSize d, ∀ o < s.ncfs.diskBlockSize, s'.ncfs.block d b o = want b o) ∧
      ∀ i < s.ncfs.diskTotalNum, s'.ncfs.diskStatus i = 0 := by
  have hpos := Nat.two_pow_pos k
  obtain ⟨x, hrun, -, h⟩ := Loops.foldlM_range (f := fun x g => recoverGroup d x (g * 2 ^ k))
    (n := (s.diskSize d + 2 ^ k - 1) / 2 ^ k)
    (fun g x => x.1.Ready k d ∧ s.Rebuilt d want (g * 2 ^ k) x.2) (fun g hg x hx => by
      have hlt := (groups_spec hpos _).1 hg
      obtain ⟨r, hready, hpass, hr⟩ :=
        recoverGroup_ok hk hdata hnum hs hx.1 (hread g hlt) hx.2.toReplaced
      refine ⟨_, hpass, hready, writeGroup_rebuilt hx.2 hs fun t ht o ho => ?_⟩
      obtain ⟨c, hpar, hsurv, hcd⟩ := hwant g hlt o ho
      rw [hr o ho c hpar hsurv t ht, hcd t ht]) (s := (coding, s))
    ⟨hc, by rw [Nat.zero_mul]; exact .start⟩
  refine ⟨x.2.setDeviceStatus d 0, ?_, h.finish hs (le_groups_mul hpos _)⟩
  rw [recoverOneDisk]
  simp only [hc.stripSize_eq, hrun]
  rfl

end Disk

end Coding4Mdr1

/-! ### Rebuilds that read too far -/

namespace Devices

variable {s : Devices} {d b firstRow : ℕ}

theorem intMul_error {a b : ℕ} {e : CodingError} (h : intMul a b = .error e) : e = .undefined := by
  rw [intMul] at h
  split at h
  · cases h
  · exact (Except.error.inj h).symm

/-- What a row that has been read says about the devices. -/
theorem preadRow_marks {row : ℕ → Buf} {x : (ℕ → Buf) × Devices} (h : s.preadRow d b row = .ok x) :
    s.Later x.2 ∧ ∀ j < s.ncfs.diskTotalNum, j ≠ d →
      b * s.ncfs.diskBlockSize < 2 ^ 31 ∧ (s.HasBlock j b ∨ x.2.ncfs.diskStatus j ≠ 0) := by
  obtain ⟨hlater, hpass⟩ :=
    Loops.foldlM_pass (R := fun x x' : (ℕ → Buf) × Devices => x.2.Later x'.2)
    (fun _ => .rfl) (fun _ _ _ => .trans) (fun x j _ x' hx => by
      split at hx
      · obtain ⟨offset, -, hrest⟩ := Loops.bind_eq_ok hx
        cases hrest
        exact later_readDisk ..
      · cases hx
        exact .rfl) h
  refine ⟨hlater, fun j hj hjd => ?_⟩
  obtain ⟨x₁, x₂, h₁, hread, h₂⟩ := hpass j (List.mem_range.2 hj)
  rw [if_pos hjd] at hread
  obtain ⟨offset, hmul, hrest⟩ := Loops.bind_eq_ok hread
  obtain ⟨hfits, rfl⟩ := intMul_eq_ok hmul
  cases hrest
  rw [h₁.block_eq] at hfits
  refine ⟨hfits, or_iff_not_imp_left.2 fun hblock => h₂.failed ?_⟩
  refine readDisk_status (by rwa [h₁.total_eq]) (mt holds_block_iff.1 ?_) _
  rwa [HasBlock, h₁.size_eq]

theorem preadRow_error {row : ℕ → Buf} {e : CodingError} (h : s.preadRow d b row = .error e) :
    e = .undefined := by
  refine Loops.foldlM_error (P := fun e => e = CodingError.undefined) (fun x j _ e hx => ?_) h
  split at hx
  · cases hmul : intMul b x.2.ncfs.diskBlockSize with
    | ok offset =>
        simp only [hmul, Loops.ok_bind] at hx
        cases hx
    | error e' =>
        simp only [hmul, Loops.error_bind] at hx
        cases hx
        exact intMul_error hmul
  · cases hx

theorem preadStripes_marks {stripeIndexs : List ℕ} {pread : ℕ → ℕ → Buf}
    {x : (ℕ → ℕ → Buf) × Devices} (h : s.preadStripes d firstRow stripeIndexs pread = .ok x) :
    s.Later x.2 ∧ ∀ t ∈ stripeIndexs, ∀ j < s.ncfs.diskTotalNum, j ≠ d →
      (firstRow + t) * s.ncfs.diskBlockSize < 2 ^ 31 ∧
        (s.HasBlock j (firstRow + t) ∨ x.2.ncfs.diskStatus j ≠ 0) := by
  obtain ⟨hlater, hpass⟩ :=
    Loops.foldlM_pass (R := fun x x' : (ℕ → ℕ → Buf) × Devices => x.2.Later x'.2)
    (fun _ => .rfl) (fun _ _ _ => .trans) (fun x i _ x' hx => by
      obtain ⟨row, hrow, hrest⟩ := Loops.bind_eq_ok hx
      cases hrest
      exact (preadRow_marks hrow).1) h
  refine ⟨hlater, fun t ht j hj hjd => ?_⟩
  obtain ⟨i, hi, rfl⟩ := List.getElem_of_mem ht
  obtain ⟨x₁, x₂, h₁, hread, h₂⟩ := hpass i (List.mem_range.2 hi)
  obtain ⟨row, hrow, hrest⟩ := Loops.bind_eq_ok hread
  cases hrest
  obtain ⟨hfits, hmark⟩ := (preadRow_marks hrow).2 j (by rwa [h₁.total_eq]) hjd
  rw [List.getD_eq_getElem _ _ hi, h₁.block_eq] at hfits
  rw [List.getD_eq_getElem _ _ hi, HasBlock, h₁.size_eq] at hmark
  exact ⟨hfits, hmark.imp_right h₂.failed⟩

theorem preadStripes_error {stripeIndexs : List ℕ} {pread : ℕ → ℕ → Buf} {e : CodingError}
    (h : s.preadStripes d firstRow stripeIndexs pread = .error e) : e = .undefined := by
  refine Loops.foldlM_error (P := fun e => e = CodingError.undefined) (fun x i _ e hx => ?_) h
  cases hrow : preadRow x.2 d (firstRow + stripeIndexs.getD i 0) (x.1 i) with
  | ok row =>
      simp only [hrow, Loops.ok_bind] at hx
      cases hx
  | error e' =>
      simp only [hrow, Loops.error_bind] at hx
      cases hx
      exact preadRow_error hrow

theorem later_preadBlock (b : ℕ) (x : (ℕ → Buf) × Devices) (j : ℕ) :
    x.2.Later (preadBlock b x j).2 :=
  later_readDisk ..

/-- What a row that has been read for the `Q` disk says about the devices. -/
theorem preadBlocks_marks (s : Devices) (b : ℕ) (row : ℕ → Buf) {n : ℕ}
    (hn : n ≤ s.ncfs.diskTotalNum) :
    s.Later ((List.range n).foldl (preadBlock b) (row, s)).2 ∧ ∀ j < n, s.HasBlock j b ∨
      ((List.range n).foldl (preadBlock b) (row, s)).2.ncfs.diskStatus j ≠ 0 := by
  obtain ⟨hlater, hpass⟩ := Loops.foldl_pass (R := fun x x' : (ℕ → Buf) × Devices => x.2.Later x'.2)
    (fun _ => .rfl) (fun _ _ _ => .trans) (fun x j _ => later_preadBlock b x j)
      (l := List.range n) (row, s)
  refine ⟨hlater, fun j hj => or_iff_not_imp_left.2 fun hblock => ?_⟩
  obtain ⟨x, h₁, h₂⟩ := hpass j (List.mem_range.2 hj)
  refine h₂.failed (readDisk_status ?_ (mt holds_block_iff.1 ?_) _)
  · rw [h₁.total_eq]
    exact hj.trans_le hn
  · rwa [HasBlock, h₁.size_eq]

/-- What a group that has been read for the `Q` disk says about the devices. -/
theorem preadGroup_marks (s : Devices) (stripSize blockNo : ℕ) (pread : ℕ → ℕ → Buf) :
    s.Later (s.preadGroup stripSize blockNo pread).2 ∧
      ∀ i < stripSize, ∀ j < s.ncfs.diskTotalNum - 1, s.HasBlock j (blockNo + i) ∨
        (s.preadGroup stripSize blockNo pread).2.ncfs.diskStatus j ≠ 0 := by
  obtain ⟨hlater, hpass⟩ := Loops.foldl_pass (f := preadGroupRow blockNo)
    (R := fun x x' : (ℕ → ℕ → Buf) × Devices => x.2.Later x'.2) (fun _ => .rfl)
      (fun _ _ _ => .trans)
    (fun x i _ => (preadBlocks_marks x.2 (blockNo + i) (x.1 i) (Nat.sub_le ..)).1)
    (l := List.range stripSize) (pread, s)
  refine ⟨hlater, fun i hi j hj => ?_⟩
  obtain ⟨x, h₁, h₂⟩ := hpass i (List.mem_range.2 hi)
  have hmark := (preadBlocks_marks x.2 (blockNo + i) (x.1 i) (Nat.sub_le ..)).2 j
    (by rwa [h₁.total_eq])
  rw [HasBlock, h₁.size_eq] at hmark
  exact hmark.imp_right h₂.failed

end Devices

namespace Coding4Mdr1

section Disk

variable {coding : Coding4Mdr1} {s s' : Devices} {k d g : ℕ}

theorem later_writeGroup (s : Devices) (d stripSize offset : ℕ) (buf : Buf) :
    s.Later (writeGroup s d stripSize offset buf) :=
  Loops.foldl_inv (fun s' : Devices => s.Later s')
    (fun _ _ _ h => h.trans (Devices.later_writeDisk ..)) .rfl

/-- What the rebuild of a group keeps, whatever the object has cached. -/
theorem later_recoverOneStripeGroup2 {buf : Buf} {size offset : ℕ} {pread : ℕ → ℕ → Buf}
    {r : RecoverResult} (h : coding.recoverOneStripeGroup2 s d buf size offset pread = .ok
      (r, s')) : s.Later s' := by
  rw [recoverOneStripeGroup2] at h
  dsimp only at h
  split at h
  · cases h
    exact Devices.later_readDisk ..
  · split at h
    · split at h
      · obtain ⟨cached, -, h⟩ := Loops.bind_eq_ok h
        obtain ⟨full, -, h⟩ := Loops.bind_eq_ok h
        obtain ⟨x, hread, h⟩ := Loops.bind_eq_ok h
        obtain ⟨buf', -, h⟩ := Loops.bind_eq_ok h
        cases h
        exact (Devices.preadStripes_marks hread).1
      · split at h
        · cases h
          exact (Devices.preadGroup_marks ..).1
        · cases h
          exact .rfl
    · cases h

theorem later_recoverGroup {x x' : Coding4Mdr1 × Devices} {i : ℕ}
    (h : recoverGroup d x i = .ok x') :
    x.2.Later x'.2 := by
  obtain ⟨offset, -, hrest⟩ := Loops.bind_eq_ok h
  dsimp only at hrest
  split at hrest
  · rename_i hgroup
    cases hrest
    exact (later_recoverOneStripeGroup2 hgroup).trans (later_writeGroup ..)
  · cases hrest
    exact later_writeGroup x.2 d x.1.stripSize offset fun _ => 0
  · cases hrest

theorem repairOthers_error {st : NcfsState} {stripeIndexs : List ℕ} {pread : ℕ → ℕ → Buf}
    {buf : Buf} {e : CodingError} (h : repairOthers coding st stripeIndexs pread buf = .error e) :
    e = .exit := by
  refine Loops.foldlM_error (P := fun e => e = CodingError.exit) (fun buf i _ e hi => ?_) h
  split at hi
  · cases hi
  · dsimp only at hi
    split at hi
    · cases hi
      rfl
    · refine Loops.foldlM_error (P := fun e => e = CodingError.exit) (fun buf j _ e hj => ?_) hi
      refine Loops.foldlM_error (P := fun e => e = CodingError.exit) (fun buf t _ e ht => ?_) hj
      split at ht
      · cases ht
        rfl
      · cases ht

/-- A group of a data disk or the `P` disk that has been rebuilt has been read. -/
theorem exists_preadStripes (hk : 1 ≤ k) (hdata : s.ncfs.dataDiskNum = k)
    (hnum : s.ncfs.diskTotalNum = k + 2) (hd : d ≤ k) (hs : s.SingleFailure d)
    (hc : coding.CachesFor k d) {x : Coding4Mdr1 × Devices}
    (h : recoverGroup d (coding, s) (g * 2 ^ k) = .ok x) :
    ∃ pread, s.preadStripes d (g * 2 ^ k) (repairRows k d) (fun _ _ _ => 0) = .ok pread ∧
    pread.2.Later x.2 := by
  obtain ⟨cached, hrows, hcached, hV⟩ := cacheStripeIndexs_ok hk hdata hd hc fun _ => rfl
  obtain ⟨full, hfull, hcfull, hVfull, -⟩ := cacheNonStripeIndexs_ok hdata hd hcached hV
  obtain ⟨offset, hmul, hrest⟩ := Loops.bind_eq_ok h
  obtain ⟨-, rfl⟩ := intMul_eq_ok hmul
  dsimp only at hrest
  rw [recoverOneStripeGroup2, if_neg hs.status_ne, if_pos hs.count, if_pos (by omega), hrows]
    at hrest
  simp only [Loops.ok_bind, hfull, hcfull.rows hVfull, hcfull.stripSize_eq, hc.stripSize_eq,
    groupOffset_div, Nat.mul_div_cancel _ (Nat.two_pow_pos k)] at hrest
  cases hread : s.preadStripes d (g * 2 ^ k) (repairRows k d) (fun _ _ _ => 0) with
  | error e =>
      obtain rfl := Devices.preadStripes_error hread
      simp only [hread, Loops.error_bind] at hrest
      cases hrest
  | ok pread =>
      refine ⟨pread, rfl, ?_⟩
      simp only [hread, Loops.ok_bind] at hrest
      cases hothers : repairOthers full s.ncfs (repairRows k d)
          (repairStripes s.ncfs d (repairRows k d) pread.1
            (memset0 (fun _ => 0) (2 ^ k * s.ncfs.diskBlockSize))).1
          (repairStripes s.ncfs d (repairRows k d) pread.1
            (memset0 (fun _ => 0) (2 ^ k * s.ncfs.diskBlockSize))).2 with
      | error e =>
          obtain rfl := repairOthers_error hothers
          simp only [hothers, Loops.error_bind] at hrest
          cases hrest
      | ok buf =>
          simp only [hothers, Loops.ok_bind] at hrest
          cases hrest
          exact later_writeGroup ..

/-- So has a group of the `Q` disk. -/
theorem exists_preadGroup (hnum : s.ncfs.diskTotalNum = k + 2) (hs : s.SingleFailure (k + 1))
    (hc : coding.For k) {x : Coding4Mdr1 × Devices}
    (h : recoverGroup (k + 1) (coding, s) (g * 2 ^ k) = .ok x) :
    (s.preadGroup (2 ^ k) (g * 2 ^ k) fun _ _ _ => 0).2.Later x.2 := by
  obtain ⟨offset, hmul, hrest⟩ := Loops.bind_eq_ok h
  obtain ⟨-, rfl⟩ := intMul_eq_ok hmul
  dsimp only at hrest
  rw [recoverOneStripeGroup2, if_neg hs.status_ne, if_pos hs.count, if_neg (by omega),
    if_pos (by omega)] at hrest
  simp only [hc.stripSize_eq, groupOffset_div] at hrest
  cases hrest
  exact later_writeGroup ..

/-- A group that leaves the other disks working has been read inside the devices. -/
theorem readsInside_of_healthy (hk : 1 ≤ k) (hdata : s.ncfs.dataDiskNum = k)
    (hnum : s.ncfs.diskTotalNum = k + 2) (hs : s.SingleFailure d) (hc : coding.Ready k d)
    {x : Coding4Mdr1 × Devices} (h : recoverGroup d (coding, s) (g * 2 ^ k) = .ok x)
    (hhealthy : ∀ i < k + 2, i ≠ d → x.2.ncfs.diskStatus i = 0) : ReadsInside s k d g := by
  have hfits : g * 2 ^ k * s.ncfs.diskBlockSize < 2 ^ 31 := by
    obtain ⟨offset, hmul, -⟩ := Loops.bind_eq_ok h
    exact (intMul_eq_ok hmul).1
  refine ⟨hfits, fun hd t ht => ?_, fun hd t ht j hj => ?_⟩
  · obtain ⟨pread, hread, hlater⟩ := exists_preadStripes hk hdata hnum hd hs (hc.dp hd) h
    have hmarks := (Devices.preadStripes_marks hread).2 t ht
    refine ⟨fun j hj hjd => ?_, ?_⟩
    · exact (hmarks j (by omega) hjd).2.resolve_right fun hmark => hlater.failed hmark
        (hhealthy j hj hjd)
    · by_cases hd0 : d = 0
      · exact (hmarks 1 (by omega) (by omega)).1
      · exact (hmarks 0 (by omega) (Ne.symm hd0)).1
  · obtain rfl : d = k + 1 := by
      have := hs.lt
      omega
    have hlater := exists_preadGroup hnum hs hc.toFor h
    refine ((Devices.preadGroup_marks s (2 ^ k) (g * 2 ^ k) fun _ _ _ => 0).2 t ht j
      (by omega)).resolve_right fun hmark => hlater.failed hmark (hhealthy j (by omega) (by omega))

/-- A rebuild that leaves the other disks working has read every group inside the devices. -/
theorem recoverOneDisk_inside (hk : 1 ≤ k) (hdata : s.ncfs.dataDiskNum = k)
    (hnum : s.ncfs.diskTotalNum = k + 2) (hs : s.SingleFailure d) (hc : coding.Ready k d)
    (hok : coding.recoverOneDisk s d = .ok s')
    (hhealthy : ∀ i < k + 2, i ≠ d → s'.ncfs.diskStatus i = 0) :
    ∀ g, g * 2 ^ k < s.diskSize d → ReadsInside s k d g := by
  have hpos := Nat.two_pow_pos k
  obtain ⟨⟨coding', s₁⟩, hloop, hrest⟩ := Loops.bind_eq_ok hok
  cases hrest
  rw [hc.stripSize_eq] at hloop
  have hhealthy₁ : ∀ i < k + 2, i ≠ d → s₁.ncfs.diskStatus i = 0 := by
    intro i hi hid
    have hi := hhealthy i hi hid
    rw [Devices.setDeviceStatus] at hi
    split at hi
    · exact hi
    · change Function.update s₁.ncfs.diskStatus d 0 i = 0 at hi
      rwa [Function.update_of_ne hid] at hi
  intro g
  -- the groups in front of this one have been read inside
  induction g using Nat.strong_induction_on with
  | _ g ih =>
      intro hg
      have hbefore : ∀ g' < g, ReadsInside s k d g' := fun g' hg' =>
        ih g' hg' ((Nat.mul_le_mul_right _ hg'.le).trans_lt hg)
      obtain ⟨x, hrun, hready, hrep⟩ := recoverGroups_ok hk hdata hnum hs hc hbefore
      obtain ⟨m, hm⟩ := Nat.exists_eq_add_of_lt ((groups_spec hpos (s.diskSize d)).2 hg)
      rw [hm, Nat.add_assoc, List.range_add, List.foldlM_append, hrun, List.range_succ_eq_map,
        Loops.ok_bind, List.map_cons, List.foldlM_cons, Nat.add_zero] at hloop
      obtain ⟨x', hpass, hafter⟩ := Loops.bind_eq_ok hloop
      have hlater := (Loops.foldlM_pass (R := fun x x' : Coding4Mdr1 × Devices => x.2.Later x'.2)
        (fun _ => .rfl) (fun _ _ _ => .trans) (fun _ _ _ _ => later_recoverGroup) hafter).1
      have hinside := readsInside_of_healthy hk (hrep.data_eq.trans hdata)
        (hrep.total_eq.trans hnum)
        (hrep.singleFailure hs) hready hpass fun i hi hid => hlater.healthy (hhealthy₁ i hi hid)
      exact hinside.congr hrep.size_eq.symm hrep.block_eq.symm

end Disk

end Coding4Mdr1

end Ncfs
