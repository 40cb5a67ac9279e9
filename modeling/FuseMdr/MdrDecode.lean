/-
Degraded reads under the MDR-I code.

`decode` returns a lost block in one of two ways.  In a row of the repair set it adds up the other
blocks of the row.  Any other lost block is the sum of a chain of blocks of the repair set and of
one `Q` block; where the chain names blocks of the failed disk, these are replaced by the sums of
their rows on the way.  The repair set and the chains are computed at the first degraded read and
kept.

Main definitions:

* `Ncfs.Coding4Mdr1.decode`, `Ncfs.Coding4Mdr1.recover` — the functions;
* `Ncfs.Coding4Mdr1.CachesFor` — the caches of the object are empty, or belong to one disk.

Main results:

* `Ncfs.decode_dpDisk` — what a degraded read returns, by the disk that the caches belong to;
* `Ncfs.decode_group` — outside the repair set it returns the block of the disk that the caches
  belong to;
* `Ncfs.decode_block` — with the caches of the failed disk it returns the lost block;
* `Ncfs.decode_eq_rebuild` — it returns what the rebuild of the stripe group puts in its place;
* `Ncfs.recover_restores_iff` — the recovery block by block restores every disk but `Q`.
-/
import FuseMdr.CodingLayer
import FuseMdr.MdrRebuild

set_option relaxedAutoImplicit false
set_option autoImplicit false

namespace Ncfs

/-! ### The functions -/

/-- The loop that adds `size` bytes of every disk but `diskId` and the `Q` disk.  What the temporary
buffer holds behind them does not matter. -/
def xorRow (st : NcfsState) (diskId size offset : ℕ) (buf : Buf) : Buf :=
  (List.range (st.diskTotalNum - 1)).foldl (fun buf i =>
    if i ≠ diskId then xorBuf size buf (readDisk st i (fun _ => 0) size offset) else buf) buf

/-- The loops that add the blocks `iivec` of the group that begins in row `firstRow`: a block of the
failed disk is the sum of the others of its row.  In the source `blk_num * block_size` is a product
of two `int`s, which a result on compiled code has to bound. -/
def xorChain (st : NcfsState) (diskId size firstRow : ℕ) (iivec : List (List ℕ)) (buf : Buf) :
    Buf :=
  (List.range iivec.length).foldl (fun buf i =>
    (iivec.getD i []).foldl (fun buf e =>
      let blkNum := e + firstRow
      if i = diskId then xorRow st diskId size (blkNum * st.diskBlockSize) buf
      else xorBuf size buf (readDisk st i (fun _ => 0) size (blkNum * st.diskBlockSize))) buf) buf

/-- What a read leaves: the object with its caches, the output and the returned value. -/
structure DecodeResult where
  /-- The object. -/
  coding : Coding4Mdr1
  /-- The output buffer `buf`. -/
  buf : Buf
  /-- The returned value. -/
  ret : ℕ

namespace Coding4Mdr1

/-- `Coding4Mdr1::decode`.  Time counters are left out.  For the `Q` disk the source has an
assignment in place of the test, and nothing behind it. -/
def decode (coding : Coding4Mdr1) (st : NcfsState) (diskId : ℕ) (buf : Buf) (size offset : ℕ) :
    Except CodingError DecodeResult :=
  let buf := memset0 buf size
  let blockNo := offset / st.diskBlockSize
  if st.diskStatus diskId = 0 then .ok ⟨coding, readDisk st diskId buf size offset, size⟩
  else if failedDiskNum st = 1 then
    let stripNum := blockNo / coding.stripSize
    let stripOffset := blockNo % coding.stripSize
    if diskId < st.diskTotalNum - 1 then do
      let coding ← cacheStripeIndexs coding st diskId
      if stripOffset ∈ coding.mdrIOneDpDiskFailStripeIndex then
        return ⟨coding, xorRow st diskId size offset buf, size⟩
      else
        let coding ← cacheNonStripeIndexs coding st
        let iivec := coding.mdrIOneDpDiskFailNonStripeIndex stripOffset
        if iivec.length ≠ st.diskTotalNum then .error .exit
        else return ⟨coding,
          xorChain st diskId size (stripNum * coding.stripSize) iivec buf, size⟩
    else .ok ⟨coding, buf, size⟩
  else .error .failed

/-- One pass of `Coding4Mdr1::recover`: the value that `decode` returns is not looked at, so that a
read that fails has its zeroed buffer written. -/
def recoverBlock (failedDiskId : ℕ) (s : Coding4Mdr1 × NcfsState) (i : ℕ) :
    Except CodingError (Coding4Mdr1 × NcfsState) := do
  let (coding, st) := s
  let blockSize := st.diskBlockSize
  let offset ← intMul i blockSize
  match coding.decode st failedDiskId (fun _ => 0) blockSize offset with
  | .ok r => .ok (r.coding, writeDisk st failedDiskId r.buf blockSize offset)
  | .error .failed => .ok (coding, writeDisk st failedDiskId (fun _ => 0) blockSize offset)
  | .error e => .error e

/-- `Coding4Mdr1::recover` for a disk of `recoverSize` blocks. -/
def recover (coding : Coding4Mdr1) (st : NcfsState) (failedDiskId recoverSize : ℕ) :
    Except CodingError (Coding4Mdr1 × NcfsState) :=
  (List.range recoverSize).foldlM (recoverBlock failedDiskId) (coding, st)

/-- The caches of the object are empty, or hold the repair set of disk `d` and the chains that
belong to it. -/
structure CachesFor (coding : Coding4Mdr1) (k d : ℕ) : Prop extends coding.For k where
  /-- The rows to read. -/
  rows : coding.mdrIOneDpDiskFailBoolV = true → coding.mdrIOneDpDiskFailStripeIndex = repairRows k d
  /-- The chains are filled in after the rows. -/
  order : coding.mdrIOneDpDiskFailBoolM = true → coding.mdrIOneDpDiskFailBoolV = true
  /-- The chains of the other rows. -/
  chains : coding.mdrIOneDpDiskFailBoolM = true → ∀ s ∈ repairRows k d,
    coding.mdrIOneDpDiskFailNonStripeIndex (mate k d s) = repairChain k d s

end Coding4Mdr1

/-! ### What the loops compute -/

section Loops

variable (st : NcfsState) {diskId size o : ℕ}

theorem xorRow_apply (ho : o < size) (diskId offset : ℕ) (buf : Buf) :
    xorRow st diskId size offset buf o = buf o +
      ((List.range (st.diskTotalNum - 1)).map fun i =>
        if i ≠ diskId then st.disk i (offset + o) else 0).sum := by
  rw [xorRow]
  induction List.range (st.diskTotalNum - 1) generalizing buf with
  | nil => simp
  | cons i l ih =>
      rw [List.foldl_cons, ih, List.map_cons, List.sum_cons]
      by_cases hi : i = diskId
      · simp [hi]
      · rw [if_pos hi, if_pos hi, xorBuf_of_lt _ _ ho, readDisk, if_pos ho, add_assoc]

/-- What a block of a chain adds. -/
def chainByte (diskId firstRow o : ℕ) (c : ℕ × ℕ) : Byte :=
  if c.1 = diskId then
    ((List.range (st.diskTotalNum - 1)).map fun i =>
      if i ≠ diskId then st.block i (c.2 + firstRow) o else 0).sum
  else st.block c.1 (c.2 + firstRow) o

theorem xorChain_apply (ho : o < size) (diskId firstRow : ℕ) (iivec : List (List ℕ)) (buf : Buf) :
    xorChain st diskId size firstRow iivec buf o = buf o +
      ((chainCells iivec).map (chainByte st diskId firstRow o)).sum := by
  have hflat : xorChain st diskId size firstRow iivec buf =
      (chainCells iivec).foldl (fun buf c =>
        if c.1 = diskId then xorRow st diskId size ((c.2 + firstRow) * st.diskBlockSize) buf
        else xorBuf size buf
          (readDisk st c.1 (fun _ => 0) size ((c.2 + firstRow) * st.diskBlockSize))) buf := by
    simp only [xorChain, chainCells, List.foldl_flatMap, List.foldl_map]
  rw [hflat]
  clear hflat
  induction chainCells iivec generalizing buf with
  | nil => simp
  | cons c l ih =>
      rw [List.foldl_cons, ih, List.map_cons, List.sum_cons, chainByte]
      split
      · rw [xorRow_apply st ho, add_assoc]
        rfl
      · rw [xorBuf_of_lt _ _ ho, readDisk_block _ _ _ _ _ ho, add_assoc]

end Loops

/-! ### The caches -/

section Caches

variable {st : NcfsState} {coding : Coding4Mdr1} {k d e : ℕ}

/-- A fresh object may read for any disk. -/
theorem Coding4Mdr1.For.cachesFor (hc : coding.For k) (hV : coding.mdrIOneDpDiskFailBoolV = false)
    (hM : coding.mdrIOneDpDiskFailBoolM = false) : coding.CachesFor k d where
  toFor := hc
  rows h := absurd h (by rw [hV]; decide)
  order h := absurd h (by rw [hM]; decide)
  chains h := absurd h (by rw [hM]; decide)

/-- The rows to read, as the object has them after they have been asked for. -/
theorem cacheStripeIndexs_ok (hk : 1 ≤ k) (hst : st.dataDiskNum = k) (he : e ≤ k)
    (hc : coding.CachesFor k e) (hd : coding.mdrIOneDpDiskFailBoolV = false → d = e) :
    ∃ coding', cacheStripeIndexs coding st d = .ok coding' ∧ coding'.CachesFor k e ∧
      coding'.mdrIOneDpDiskFailBoolV = true := by
  rw [cacheStripeIndexs]
  cases hV : coding.mdrIOneDpDiskFailBoolV with
  | true => exact ⟨coding, if_pos rfl, hc, hV⟩
  | false =>
      obtain rfl := hd hV
      rw [if_neg Bool.false_ne_true, hst, mdrIRepairDpDiskStripeIndexs_eq hk he]
      refine ⟨_, rfl, ⟨⟨hc.matrix_eq, hc.stripSize_eq⟩, fun _ => rfl, fun _ => rfl, hc.chains⟩, rfl⟩

/-- The chains. -/
theorem cacheNonStripeIndexs_ok (hst : st.dataDiskNum = k) (he : e ≤ k) (hc : coding.CachesFor k e)
    (hV : coding.mdrIOneDpDiskFailBoolV = true) :
    ∃ coding', cacheNonStripeIndexs coding st = .ok coding' ∧ coding'.CachesFor k e ∧
      coding'.mdrIOneDpDiskFailBoolV = true ∧
      ∀ s ∈ repairRows k e,
        coding'.mdrIOneDpDiskFailNonStripeIndex (mate k e s) = repairChain k e s := by
  rw [cacheNonStripeIndexs]
  cases hM : coding.mdrIOneDpDiskFailBoolM with
  | true => exact ⟨coding, if_pos rfl, hc, hV, hc.chains hM⟩
  | false =>
      obtain ⟨table, htable, hmates⟩ := nonstripeIndexs_eq hc.toFor hst he
      rw [if_neg Bool.false_ne_true, hc.rows hV, htable]
      exact ⟨_, rfl, ⟨⟨hc.matrix_eq, hc.stripSize_eq⟩, fun _ => rfl, fun _ => hV,
        fun _ => hmates⟩, hV, hmates⟩

/-- A degraded read of a data disk or the `P` disk, by the disk `e` that the caches belong to
afterwards: a row of the repair set of `e` is added up, and any other row is the mate of a row,
whose chain is added up. -/
theorem decode_dpDisk (hk : 1 ≤ k) (hst : st.dataDiskNum = k) (hnum : st.diskTotalNum = k + 2)
    (hd : d ≤ k) (hstatus : st.diskStatus d ≠ 0) (hfailed : failedDiskNum st = 1) (he : e ≤ k)
    (hc : coding.CachesFor k e) (hV : coding.mdrIOneDpDiskFailBoolV = false → d = e) (buf : Buf)
    (size offset : ℕ) :
    let blockNo := offset / st.diskBlockSize
    ∃ r, coding.decode st d buf size offset = .ok r ∧ r.ret = size ∧
      r.coding.CachesFor k e ∧ r.coding.mdrIOneDpDiskFailBoolV = true ∧
      (repairRow k e (blockNo % 2 ^ k) = true →
        r.buf = xorRow st d size offset (memset0 buf size)) ∧
      ∀ s ∈ repairRows k e, mate k e s = blockNo % 2 ^ k →
        r.buf = xorChain st d size (blockNo / 2 ^ k * 2 ^ k) (repairChain k e s)
        (memset0 buf size) := by
  intro blockNo
  have hlt : blockNo % 2 ^ k < 2 ^ k := Nat.mod_lt _ (Nat.two_pow_pos k)
  obtain ⟨cached, hrows, hcached, hfilled⟩ := cacheStripeIndexs_ok hk hst he hc hV
  rw [Coding4Mdr1.decode, if_neg hstatus, if_pos hfailed, if_pos (by omega), hrows, hc.stripSize_eq]
  simp only [Loops.ok_bind, hcached.rows hfilled]
  by_cases hrep : blockNo % 2 ^ k ∈ repairRows k e
  · rw [if_pos hrep]
    refine ⟨_, rfl, rfl, hcached, hfilled, fun _ => rfl, fun s hs hmate => ?_⟩
    obtain ⟨hslt, hs⟩ := mem_repairRows.1 hs
    have hout := (mate_spec k he hslt hs).2
    rw [hmate, (mem_repairRows.1 hrep).2] at hout
    cases hout
  · obtain ⟨full, hfull, hcfull, hVfull, hmates⟩ := cacheNonStripeIndexs_ok hst he hcached hfilled
    obtain ⟨s, hslt, hs, hmate⟩ := exists_mate k hk he hlt
      (by simpa [mem_repairRows, hlt] using hrep)
    have hmem := mem_repairRows.2 ⟨hslt, hs⟩
    have hentry : full.mdrIOneDpDiskFailNonStripeIndex (blockNo % 2 ^ k) = repairChain k e s := by
      rw [← hmate, hmates s hmem]
    rw [if_neg hrep, hfull]
    simp only [Loops.ok_bind]
    have hlen : ¬ (repairChain k e s).length ≠ st.diskTotalNum := by
      rw [repairChain_length, hnum]
      exact not_not_intro rfl
    rw [hentry, if_neg hlen, hcfull.stripSize_eq]
    refine ⟨_, rfl, rfl, hcfull, hVfull, 
      fun h => absurd (mem_repairRows.2 ⟨hlt, h⟩) hrep, fun s' hs' hmate' => ?_⟩
    obtain ⟨hslt', hs'⟩ := mem_repairRows.1 hs'
    rw [mate_injective k he hslt' hslt hs' hs (hmate'.trans hmate.symm)]

/-- A degraded read of the `Q` disk returns zeros. -/
theorem decode_qDisk (hnum : st.diskTotalNum = k + 2) (hstatus : st.diskStatus (k + 1) ≠ 0)
    (hfailed : failedDiskNum st = 1) (coding : Coding4Mdr1) (buf : Buf) (size offset : ℕ) :
    coding.decode st (k + 1) buf size offset = .ok ⟨coding, memset0 buf size, size⟩ := by
  rw [Coding4Mdr1.decode, if_neg hstatus, if_pos hfailed, if_neg (by omega)]

end Caches

/-! ### What is returned for a stripe group -/

section Group

variable {st : NcfsState} {coding : Coding4Mdr1} {k d e : ℕ}

/-- The other blocks of a row add up to the lost block. -/
theorem sum_others (hnum : st.diskTotalNum = k + 2) (hd : d ≤ k) {firstRow o : ℕ} {c : ℕ → ℕ → Byte}
    (hc : MdrParity (mdrIEncodingMatrixB k) k c) (hsurv : Survives st k d firstRow o c) {t : ℕ}
    (ht : t < 2 ^ k) :
    ((List.range (st.diskTotalNum - 1)).map fun i =>
      if i ≠ d then st.block i (t + firstRow) o else 0).sum = c d t := by
  have hsum : ∑ i ∈ Finset.range (k + 1), c i t = 0 := by
    rw [Finset.sum_range_succ, ← hc.p t ht, ZModModule.add_self]
  have hothers : ∑ i ∈ Finset.range (k + 1), (if i ≠ d then st.block i (t + firstRow) o else 0) =
      ∑ i ∈ (Finset.range (k + 1)).erase d, c i t := by
    rw [← Finset.filter_ne', Finset.sum_filter]
    refine Finset.sum_congr rfl fun i hi => ?_
    have hi := Finset.mem_range.1 hi
    by_cases hid : i = d
    · rw [if_neg (not_not_intro hid), if_neg (not_not_intro hid)]
    · rw [if_pos hid, if_pos hid, Nat.add_comm, hsurv i (by omega) hid t ht]
  rw [Xor.sum_map_range, hnum, Nat.add_succ_sub_one, hothers,
    Xor.sum_range_erase (Nat.lt_succ_of_le hd) fun i => c i t, hsum, zero_add]

/-- The blocks of a chain that belongs to disk `e` add up to a block of disk `e`. -/
theorem sum_chainByte (hnum : st.diskTotalNum = k + 2) (hd : d ≤ k) (he : e ≤ k) {firstRow o : ℕ}
    {c : ℕ → ℕ → Byte} (hc : MdrParity (mdrIEncodingMatrixB k) k c)
    (hsurv : Survives st k d firstRow o c) {s : ℕ} (hs : s ∈ repairRows k e) :
    ((chainCells (repairChain k e s)).map (chainByte st d firstRow o)).sum = c e (mate k e s) := by
  rw [← sum_repairChain he hs hc]
  refine congrArg List.sum (List.map_congr_left fun p hp => ?_)
  obtain ⟨j, hj, hp⟩ := List.mem_flatMap.1 hp
  obtain ⟨x, hx, rfl⟩ := List.mem_map.1 hp
  have hj := List.mem_range.1 hj
  rw [repairChain_length] at hj
  have hxlt := (mem_repairRows.1 (mem_repairRows_of_mem_repairChain hs hx)).1
  by_cases hjd : j = d
  · rw [chainByte, if_pos hjd, sum_others hnum hd hc hsurv hxlt, hjd]
  · rw [chainByte, if_neg hjd, Nat.add_comm, hsurv j (by omega) hjd x hxlt]

/-- The block and the group that an offset names. -/
theorem row_div_mod (k g bs : ℕ) {t : ℕ} (hbs : 0 < bs) (ht : t < 2 ^ k) :
    (g * 2 ^ k + t) * bs / bs / 2 ^ k = g ∧ (g * 2 ^ k + t) * bs / bs % 2 ^ k = t := by
  rw [Nat.mul_div_cancel _ hbs]
  constructor
  · rw [Nat.mul_comm, Nat.mul_add_div (Nat.two_pow_pos k), Nat.div_eq_of_lt ht, add_zero]
  · rw [Nat.mul_comm, Nat.mul_add_mod, Nat.mod_eq_of_lt ht]

/-- What a degraded read of a block returns in a stripe group, by the disk `e` that the caches
belong to: in the repair set of `e` the lost block, elsewhere the block of `e`. -/
theorem decode_group (hk : 1 ≤ k) (hst : st.dataDiskNum = k) (hnum : st.diskTotalNum = k + 2)
    (hd : d ≤ k) (hstatus : st.diskStatus d ≠ 0) (hfailed : failedDiskNum st = 1) (he : e ≤ k)
    (hcoding : coding.CachesFor k e) (hV : coding.mdrIOneDpDiskFailBoolV = false → d = e)
    (buf : Buf) (g : ℕ) {t : ℕ} (ht : t < 2 ^ k) :
    ∃ r, coding.decode st d buf st.diskBlockSize ((g * 2 ^ k + t) * st.diskBlockSize) = .ok r ∧
      r.coding.CachesFor k e ∧ r.coding.mdrIOneDpDiskFailBoolV = true ∧
      ∀ o < st.diskBlockSize, ∀ c, MdrParity (mdrIEncodingMatrixB k) k c →
        Survives st k d (g * 2 ^ k) o c → r.buf o = if repairRow k e t then c d t else c e t := by
  obtain ⟨hdiv, hmod⟩ := row_div_mod k g st.diskBlockSize st.diskBlockSize_pos ht
  obtain ⟨r, hok, -, hr, hVr, hrow, hchain⟩ :=
    decode_dpDisk hk hst hnum hd hstatus hfailed he hcoding hV buf st.diskBlockSize
      ((g * 2 ^ k + t) * st.diskBlockSize)
  rw [hmod] at hrow
  simp only [hmod, hdiv] at hchain
  refine ⟨r, hok, hr, hVr, fun o ho c hc hsurv => ?_⟩
  have hzero : memset0 buf st.diskBlockSize o = 0 := if_pos ho
  by_cases hrep : repairRow k e t = true
  · rw [hrow hrep, xorRow_apply st ho, hzero, zero_add, if_pos hrep,
      ← sum_others hnum hd hc hsurv ht, Nat.add_comm t]
    rfl
  · obtain ⟨s, hslt, hs, hmate⟩ := exists_mate k hk he ht (by simpa using hrep)
    have hmem := mem_repairRows.2 ⟨hslt, hs⟩
    rw [hchain s hmem hmate, xorChain_apply st ho, hzero, zero_add, if_neg hrep,
      sum_chainByte hnum hd he hc hsurv hmem, hmate]

/-- With the caches of the failed disk the lost block is returned. -/
theorem decode_block (hk : 1 ≤ k) (hst : st.dataDiskNum = k) (hnum : st.diskTotalNum = k + 2)
    (hd : d ≤ k) (hstatus : st.diskStatus d ≠ 0) (hfailed : failedDiskNum st = 1)
    (hcoding : coding.CachesFor k d) (buf : Buf) (g : ℕ) {t : ℕ} (ht : t < 2 ^ k) :
    ∃ r, coding.decode st d buf st.diskBlockSize ((g * 2 ^ k + t) * st.diskBlockSize) = .ok r ∧
      r.coding.CachesFor k d ∧
      ∀ o < st.diskBlockSize, ∀ c, MdrParity (mdrIEncodingMatrixB k) k c →
        Survives st k d (g * 2 ^ k) o c → r.buf o = c d t := by
  obtain ⟨r, hok, hr, -, hbuf⟩ := decode_group hk hst hnum hd hstatus hfailed hd hcoding
    (fun _ => rfl) buf g ht
  exact ⟨r, hok, hr, fun o ho c hc hsurv => (hbuf o ho c hc hsurv).trans (ite_self _)⟩

end Group

/-- A degraded read by a fresh object returns what the rebuild of its stripe group by a fresh object
puts in the place of the block. -/
theorem decode_eq_rebuild (st : NcfsState) {matrix : ℕ → ℕ → ℕ}
    (hmatrix : mdrIEncodingMatrix st.dataDiskNum = .ok matrix)
    (hnum : st.diskTotalNum = st.dataDiskNum + 2) (d : ℕ) (hd : d ≤ st.dataDiskNum)
    (hfail : ∀ i < st.diskTotalNum, st.diskStatus i = if i = d then 1 else 0)
    (orig : ℕ → ℕ → Byte) (hdisk : ∀ j ≤ st.dataDiskNum + 1, j ≠ d → st.disk j = orig j) (g : ℕ)
    (hgroup : ∀ o < st.diskBlockSize, MdrParity matrix st.dataDiskNum fun j t =>
      orig j ((g * 2 ^ st.dataDiskNum + t) * st.diskBlockSize + o)) (buf buf' : Buf) :
    let groupSize := 2 ^ st.dataDiskNum * st.diskBlockSize
    ∃ coding r', Coding4Mdr1.new st = .ok coding ∧
      mdrIRecoverOneStripeGroup2 coding st d buf' groupSize (g * groupSize)
      (fun _ _ _ => 0) = .ok r' ∧ ∀ t < 2 ^ st.dataDiskNum, ∃ r,
      coding.decode st d buf st.diskBlockSize
        ((g * 2 ^ st.dataDiskNum + t) * st.diskBlockSize) = .ok r ∧
        ∀ o < st.diskBlockSize, r.buf o = r'.buf (t * st.diskBlockSize + o) := by
  intro groupSize
  obtain ⟨coding, r', hnew, hrun, hr'⟩ := recover_group st hmatrix hnum (by omega) hfail hdisk g
    hgroup buf'
  obtain ⟨hk, rfl⟩ := eq_of_mdrIEncodingMatrix hmatrix
  obtain ⟨coding', hnew', hcoding, hV, hM, -⟩ := Coding4Mdr1.new_ok hk
  obtain rfl : coding = coding' := Except.ok.inj (hnew.symm.trans hnew')
  have hstatus : st.diskStatus d ≠ 0 := by
    rw [hfail d (by omega), if_pos rfl]
    decide
  refine ⟨coding, r', hnew, hrun, fun t ht => ?_⟩
  obtain ⟨r, hok, -, hr⟩ := decode_block hk rfl hnum hd hstatus
    (failedDiskNum_eq_one (by omega) hfail) (hcoding.cachesFor hV hM) buf g ht
  refine ⟨r, hok, fun o ho => ?_⟩
  have hsurv : Survives st st.dataDiskNum d (g * 2 ^ st.dataDiskNum) o fun j t =>
      orig j ((g * 2 ^ st.dataDiskNum + t) * st.diskBlockSize + o) := by
    intro j hj hjd t _
    rw [NcfsState.block, hdisk j hj hjd]
  rw [hr o ho _ (hgroup o ho) hsurv, hr' t ht o ho]

/-- The second of two data disks is lost: every block of its second group. -/
theorem decode_eq_rebuild_sample :
    let st : NcfsState := { NcfsState.blank 4 2 1 (by decide) 8 with
      diskStatus := fun i => if i = 1 then 1 else 0
      disk := fun j => if j = 1 then fun _ => 0 else sampleGroup j }
    ∃ coding r', Coding4Mdr1.new st = .ok coding ∧
      mdrIRecoverOneStripeGroup2 coding st 1 (fun _ => 0) 4 4 (fun _ _ _ => 0) = .ok r' ∧
      ∀ t < 4, ∃ r, coding.decode st 1 (fun _ => 0) 1 ((4 + t) * 1) = .ok r ∧
        ∀ o < 1, r.buf o = r'.buf (t * 1 + o) := by
  intro st
  refine decode_eq_rebuild st rfl rfl 1 (by decide) (fun _ _ => rfl) sampleGroup
    (fun j _ hj => if_neg hj) 1 (fun o ho => ?_) _ _
  obtain rfl : o = 0 := Nat.lt_one_iff.1 ho
  exact ⟨by decide, by decide⟩

/-! ### Recovery block by block -/

section Recover

variable {st : NcfsState} {coding : Coding4Mdr1} {k d : ℕ}

/-- What the recovery puts in place of the contents of disk `d`. -/
def recovered (k d : ℕ) (orig : ℕ → ℕ → Byte) (x : ℕ) : Byte := if d ≤ k then orig d x else 0

/-- The recovery of disk `d` has come as far as block `i`. -/
structure Recovering (st : NcfsState) (k d : ℕ) (orig : ℕ → ℕ → Byte) (i : ℕ)
    (s : Coding4Mdr1 × NcfsState) : Prop extends SameStore st s.2 where
  /-- The caches are those of the disk. -/
  caches : s.1.CachesFor k d
  /-- The other disks are as they were. -/
  others : ∀ j, j ≠ d → s.2.disk j = st.disk j
  /-- The blocks that have been written. -/
  written : ∀ x < i * st.diskBlockSize, s.2.disk d x = recovered k d orig x

/-- Writing a block of the disk. -/
theorem Recovering.write {orig : ℕ → ℕ → Byte} {i : ℕ} {s : Coding4Mdr1 × NcfsState}
    (h : Recovering st k d orig i s) {coding : Coding4Mdr1} (hc : coding.CachesFor k d) {buf : Buf}
    (hbuf : ∀ o < st.diskBlockSize, buf o = recovered k d orig (i * st.diskBlockSize + o)) :
    Recovering st k d orig (i + 1)
      (coding, writeDisk s.2 d buf st.diskBlockSize (i * st.diskBlockSize)) where
  total_eq := h.total_eq
  data_eq := h.data_eq
  block_eq := h.block_eq
  status_eq := h.status_eq
  caches := hc
  others j hj := by
    rw [← h.others j hj]
    funext x
    exact if_neg fun h => hj h.1
  written x hx := by
    by_cases hlt : x < i * st.diskBlockSize
    · rw [← h.written x hlt]
      exact if_neg fun h => absurd h.2.1 (by omega)
    · have hsucc : (i + 1) * st.diskBlockSize = i * st.diskBlockSize + st.diskBlockSize :=
        Nat.succ_mul ..
      have hx' := hbuf (x - i * st.diskBlockSize) (by omega)
      rw [Nat.add_sub_cancel' (by omega)] at hx'
      rw [← hx']
      exact if_pos ⟨rfl, by omega, by omega⟩

/-- One pass. -/
theorem recoverBlock_ok (hk : 1 ≤ k) (hst : st.dataDiskNum = k) (hnum : st.diskTotalNum = k + 2)
    (hd : d ≤ k + 1) (hfail : ∀ i < st.diskTotalNum, st.diskStatus i = if i = d then 1 else 0)
    {orig : ℕ → ℕ → Byte} (hdisk : ∀ j ≤ k + 1, j ≠ d → st.disk j = orig j) {g t : ℕ}
    (ht : t < 2 ^ k)
    (hgroup : ∀ o < st.diskBlockSize, MdrParity (mdrIEncodingMatrixB k) k fun j t =>
      orig j ((g * 2 ^ k + t) * st.diskBlockSize + o))
    (hfits : (g * 2 ^ k + t) * st.diskBlockSize < 2 ^ 31) (s : Coding4Mdr1 × NcfsState)
    (h : Recovering st k d orig (g * 2 ^ k + t) s) :
    ∃ s', Coding4Mdr1.recoverBlock d s (g * 2 ^ k + t) = .ok s' ∧ Recovering st k d orig
      (g * 2 ^ k + t + 1) s' := by
  obtain ⟨coding, cur⟩ := s
  have hblock : cur.diskBlockSize = st.diskBlockSize := h.block_eq
  have hdata : cur.dataDiskNum = k := h.data_eq.trans hst
  have htotal : cur.diskTotalNum = k + 2 := h.total_eq.trans hnum
  have hfail' : ∀ i < cur.diskTotalNum, cur.diskStatus i = if i = d then 1 else 0 := by
    intro i hi
    rw [show cur.diskStatus = st.diskStatus from h.status_eq]
    exact hfail i (by omega)
  have hstatus : cur.diskStatus d ≠ 0 := by
    rw [hfail' d (by omega), if_pos rfl]
    decide
  have hfailed := failedDiskNum_eq_one (by omega) hfail'
  have hread : ∃ r, coding.decode cur d (fun _ => 0) cur.diskBlockSize
      ((g * 2 ^ k + t) * cur.diskBlockSize) = .ok r ∧ r.coding.CachesFor k d ∧
      ∀ o < st.diskBlockSize, r.buf o = recovered k d orig
        ((g * 2 ^ k + t) * st.diskBlockSize + o) := by
    by_cases hdp : d ≤ k
    · obtain ⟨r, hok, hr, hbuf⟩ := decode_block hk hdata htotal hdp hstatus hfailed h.caches
        (fun _ => 0) g ht
      refine ⟨r, hok, hr, fun o ho => ?_⟩
      rw [recovered, if_pos hdp]
      refine hbuf o (by omega) _ (hgroup o ho) fun j hj hjd t _ => ?_
      rw [NcfsState.block, hblock, show cur.disk j = st.disk j from h.others j hjd, hdisk j hj hjd]
    · obtain rfl : d = k + 1 := by omega
      refine ⟨_, decode_qDisk htotal hstatus hfailed coding _ _ _, h.caches, fun o ho => ?_⟩
      rw [recovered, if_neg hdp]
      exact if_pos (by omega)
  obtain ⟨r, hok, hr, hbuf⟩ := hread
  refine ⟨(r.coding, writeDisk cur d r.buf cur.diskBlockSize ((g * 2 ^ k + t) * cur.diskBlockSize)),
    ?_, ?_⟩
  · simp only [Coding4Mdr1.recoverBlock, intMul_of_lt (hblock.symm ▸ hfits), Loops.ok_bind, hok]
  · rw [hblock]
    exact h.write hr hbuf

end Recover

/-- The recovery of a disk of whole stripe groups, block by block, leaves on it what it held, unless
it is the `Q` disk and held something else than zeros.  With six data disks and more the words of
the matrix leave their types (`Ncfs.Widths.compiled_tests`). -/
theorem recover_restores_iff (st : NcfsState) (_ : st.dataDiskNum ≤ 5) {matrix : ℕ → ℕ → ℕ}
    (hmatrix : mdrIEncodingMatrix st.dataDiskNum = .ok matrix)
    (hnum : st.diskTotalNum = st.dataDiskNum + 2) (d : ℕ) (hd : d ≤ st.dataDiskNum + 1)
    (hfail : ∀ i < st.diskTotalNum, st.diskStatus i = if i = d then 1 else 0)
    (orig : ℕ → ℕ → Byte) (hdisk : ∀ j ≤ st.dataDiskNum + 1, j ≠ d → st.disk j = orig j)
    (groups : ℕ)
    (hgroup : ∀ g < groups, ∀ o < st.diskBlockSize, MdrParity matrix st.dataDiskNum fun j t =>
      orig j ((g * 2 ^ st.dataDiskNum + t) * st.diskBlockSize + o))
    (hfits : ∀ i < groups * 2 ^ st.dataDiskNum, i * st.diskBlockSize < 2 ^ 31) :
    let recoverSize := groups * 2 ^ st.dataDiskNum
    ∃ coding coding' st', Coding4Mdr1.new st = .ok coding ∧
      coding.recover st d recoverSize = .ok (coding', st') ∧
      (∀ j, j ≠ d → st'.disk j = st.disk j) ∧
      ((∀ x < recoverSize * st.diskBlockSize, st'.disk d x = orig d x) ↔
        d ≤ st.dataDiskNum ∨ ∀ x < recoverSize * st.diskBlockSize, orig d x = 0) := by
  intro recoverSize
  obtain ⟨hk, rfl⟩ := eq_of_mdrIEncodingMatrix hmatrix
  obtain ⟨coding, hnew, hcoding, hV, hM, -⟩ := Coding4Mdr1.new_ok hk
  obtain ⟨⟨coding', st'⟩, hrun, h⟩ := Loops.foldlM_range (f := Coding4Mdr1.recoverBlock d)
    (n := recoverSize) (Recovering st st.dataDiskNum d orig) (fun i hi s hs => by
      have hlt := Nat.mod_lt i (Nat.two_pow_pos st.dataDiskNum)
      have hg : i / 2 ^ st.dataDiskNum < groups := Nat.div_lt_of_lt_mul (by rwa [Nat.mul_comm])
      have hsplit : i / 2 ^ st.dataDiskNum * 2 ^ st.dataDiskNum + i % 2 ^ st.dataDiskNum = i :=
        Nat.div_add_mod' ..
      rw [← hsplit] at hs
      have hpass := recoverBlock_ok hk rfl hnum hd hfail hdisk hlt (hgroup _ hg)
        (hsplit.symm ▸ hfits i hi) s hs
      rwa [hsplit] at hpass)
    (s := (coding, st)) ⟨.rfl, hcoding.cachesFor hV hM, fun _ _ => rfl, fun x hx => by omega⟩
  refine ⟨coding, coding', st', hnew, hrun, h.others, ?_⟩
  have hwritten : ∀ x < recoverSize * st.diskBlockSize,
      st'.disk d x = recovered st.dataDiskNum d orig x := h.written
  by_cases hdp : d ≤ st.dataDiskNum
  · refine iff_of_true (fun x hx => ?_) (Or.inl hdp)
    rw [hwritten x hx, recovered, if_pos hdp]
  · rw [or_iff_right hdp]
    refine forall₂_congr fun x hx => ?_
    rw [hwritten x hx, recovered, if_neg hdp, eq_comm]

/-- The second of two data disks is restored. -/
theorem recover_restores_sample :
    let st : NcfsState := { NcfsState.blank 4 2 1 (by decide) 8 with
      diskStatus := fun i => if i = 1 then 1 else 0
      disk := fun j => if j = 1 then fun _ => 0 else sampleGroup j }
    ∃ coding coding' st', Coding4Mdr1.new st = .ok coding ∧
      coding.recover st 1 8 = .ok (coding', st') ∧ (∀ j, j ≠ 1 → st'.disk j = st.disk j) ∧
      ((∀ x < 8 * 1, st'.disk 1 x = sampleGroup 1 x) ↔ 1 ≤ 2 ∨ ∀ x < 8 * 1,
        sampleGroup 1 x = 0) := by
  intro st
  refine recover_restores_iff st (by decide) rfl rfl 1 (by decide) (fun _ _ => rfl) sampleGroup
    (fun j _ hj => if_neg hj) 2 (fun g hg o ho => ?_) (by decide)
  obtain rfl : o = 0 := Nat.lt_one_iff.1 ho
  obtain rfl | rfl : g = 0 ∨ g = 1 := by omega
  · exact ⟨by decide, by decide⟩
  · exact ⟨by decide, by decide⟩

/-- The `Q` disk is replaced by zeros: its first byte was five. -/
theorem recover_zeroes_qDisk :
    let st : NcfsState := { NcfsState.blank 4 2 1 (by decide) 8 with
      diskStatus := fun i => if i = 3 then 1 else 0
      disk := fun j => if j = 3 then fun _ => 0 else sampleGroup j }
    (∀ g < 2, ∀ o < 1, MdrParity (mdrIEncodingMatrixB 2) 2 fun j t => sampleGroup j
      ((g * 4 + t) * 1 + o)) ∧
    ∃ coding coding' st', Coding4Mdr1.new st = .ok coding ∧
      coding.recover st 3 8 = .ok (coding', st') ∧ st'.disk 3 0 ≠ sampleGroup 3 0 := by
  intro st
  refine ⟨fun g hg o ho => ?_, ?_⟩
  · obtain rfl : o = 0 := Nat.lt_one_iff.1 ho
    obtain rfl | rfl : g = 0 ∨ g = 1 := by omega
    · exact ⟨by decide, by decide⟩
    · exact ⟨by decide, by decide⟩
  · exact ⟨_, _, _, rfl, rfl, by decide⟩

end Ncfs
