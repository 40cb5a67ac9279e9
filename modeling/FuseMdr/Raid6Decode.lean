/-
Reading a block of a failed disk under RAID6.

`decode` counts the failed disks and takes one of six ways: the sum of the others when `Q` is not
needed, `Q` from the data, and four ways for a second failed disk.  A block of data comes back from
`P` or from `Q` or, when another block of data is lost, from both.

Main definitions:

* `Ncfs.Coding4Raid6.decode` — the function, with one definition for each of its ways;
* `Ncfs.NcfsState.fail` — a store some of whose disks have failed.

Main results:

* `Ncfs.xorSurvivors_eq`, `Ncfs.addCode_eq`, `Ncfs.solveQ_eq` — what the loops compute;
* `Ncfs.Coding4Raid6.decode_run_data` — after any run of writes and frees, a data block of a failed
  disk is read as it was stored, when no more than two disks have failed.
-/
import FuseMdr.Raid6Encode

set_option relaxedAutoImplicit false
set_option autoImplicit false

namespace Ncfs

/-! ### The parts of the function -/

/-- `disk_failed_no`. -/
def diskFailedNo (st : NcfsState) : ℕ :=
  ((List.range st.diskTotalNum).filter fun i => st.diskStatus i = 1).length

/-- `disk_another_failed_id`, `none` before it is set. -/
def diskAnotherFailedId (st : NcfsState) (diskId : ℕ) : Option ℕ :=
  (List.range st.diskTotalNum).foldl (fun another i =>
    if st.diskStatus i = 1 ∧ i ≠ diskId then some i else another) none

/-- The loop that adds the blocks of the selected disks to `buf`, integer by integer.  It returns
`-1` when one of them has failed. -/
def xorSurvivors (st : NcfsState) (use : ℕ → Prop) [DecidablePred use] (buf : Buf)
    (size offset : ℕ) : Except CodingError Buf :=
  forDisks st.diskTotalNum use (fun buf i =>
    if st.diskStatus i ≠ 0 then .error .failed
    else .ok (xorBuf (intBytes size) buf (readDisk st i (fun _ => 0) size offset))) buf

/-- The loop that adds the multiples of the blocks of the selected disks, with the coefficient of a
disk computed before its bytes are. -/
def addCode (coding : Coding4Raid6) (st : NcfsState) (blockNo : ℕ) (use : ℕ → Prop)
    [DecidablePred use] (buf : Buf) (size offset : ℕ) : Except CodingError Buf :=
  forDisks st.diskTotalNum use (fun buf i => do
    let c ← dataDiskCoeff st.diskTotalNum blockNo i
    gfMulXorBuf coding size (.ok c) buf (readDisk st i (fun _ => 0) size offset)) buf

/-- The same loop over all data blocks, with the coefficient computed for each byte.  The block of
disk `i` is `block i`. -/
def codeOfData (coding : Coding4Raid6) (st : NcfsState) (blockNo : ℕ) (block : ℕ → Buf) (buf : Buf)
    (size : ℕ) : Except CodingError Buf :=
  forDisks st.diskTotalNum (fun i => i ≠ parityDiskId st.diskTotalNum blockNo ∧
      i ≠ codeDiskId st.diskTotalNum blockNo)
    (fun buf i =>
      gfMulXorBuf coding size (dataDiskCoeff st.diskTotalNum blockNo i) buf (block i)) buf

/-- The loop `buf[j] = (char)gf_div((unsigned char)buf[j], coeff, field_power)`. -/
def gfDivBuf (coding : Coding4Raid6) (size coeff : ℕ) (buf : Buf) : Except CodingError Buf :=
  (List.range size).foldlM (fun buf j => do
    let v ← coding.gfDiv (buf j).toNat coeff fieldPower
    .ok (Function.update buf j (Byte.ofNat v))) buf

/-- The disks that are read when two disks have failed: the other data disks. -/
def OtherData (st : NcfsState) (blockNo diskId another i : ℕ) : Prop :=
  i ≠ diskId ∧ i ≠ another ∧ i ≠ parityDiskId st.diskTotalNum blockNo ∧
    i ≠ codeDiskId st.diskTotalNum blockNo

instance (st : NcfsState) (blockNo diskId another : ℕ) :
    DecidablePred (OtherData st blockNo diskId another) := fun i => by
  unfold OtherData
  infer_instance

/-- The lines that both branches with a failed `P` disk begin with: the terms of the other data
blocks, then `Q`, then the division by the coefficient of `disk_id`. -/
def solveQ (coding : Coding4Raid6) (st : NcfsState) (blockNo diskId another : ℕ) (buf : Buf)
    (size offset : ℕ) : Except CodingError Buf := do
  let buf ← addCode coding st blockNo (OtherData st blockNo diskId another) buf size offset
  let buf := xorBuf size buf
    (readDisk st (codeDiskId st.diskTotalNum blockNo) (fun _ => 0) size offset)
  let c ← dataDiskCoeff st.diskTotalNum blockNo diskId
  gfDivBuf coding size c buf

/-- The loop over the bytes in the branch for two data disks. -/
def gfSolveBuf (coding : Coding4Raid6) (size g2 g12 : ℕ) (pTemp qTemp tempBuf buf : Buf) :
    Except CodingError Buf :=
  (List.range size).foldlM (fun buf j => do
    let m ← coding.gfMul g2 (pTemp j).toNat fieldPower
    let tempChar := Byte.ofNat m ^^^ qTemp j ^^^ tempBuf j
    let v ← coding.gfDiv tempChar.toNat g12 fieldPower
    .ok (Function.update buf j (Byte.ofNat v))) buf

/-- The body of the last loop of that branch: `Q_temp` is extended by disk `i`, and the block
computed from what `Q_temp` is so far. -/
def solvePQStep (coding : Coding4Raid6) (st : NcfsState) (blockNo diskId another g2 g12 : ℕ)
    (pTemp : Buf) (size offset : ℕ) (bufs : Buf × Buf) (i : ℕ) :
    Except CodingError (Buf × Buf) := do
  let qTemp ←
    if OtherData st blockNo diskId another i then do
      let c ← dataDiskCoeff st.diskTotalNum blockNo i
      gfMulXorBuf coding size (.ok c) bufs.1 (readDisk st i (fun _ => 0) size offset)
    else .ok bufs.1
  let tempBuf := readDisk st (codeDiskId st.diskTotalNum blockNo) (fun _ => 0) size offset
  let buf ← gfSolveBuf coding size g2 g12 pTemp qTemp tempBuf bufs.2
  .ok (qTemp, buf)

/-- The branch for two data disks. -/
def solvePQ (coding : Coding4Raid6) (st : NcfsState) (blockNo diskId another : ℕ) (buf : Buf)
    (size offset : ℕ) : Except CodingError Buf := do
  let n := st.diskTotalNum
  let g1 ← dataDiskCoeff n blockNo diskId
  let g2 ← dataDiskCoeff n blockNo another
  let g12 := g1 ^^^ g2
  let pTemp ← forDisks n (OtherData st blockNo diskId another) (fun buf i =>
    .ok (xorBuf size buf (readDisk st i (fun _ => 0) size offset))) (fun _ => 0)
  let pTemp := xorBuf size pTemp (readDisk st (parityDiskId n blockNo) (fun _ => 0) size offset)
  let bufs ← forDisks n (fun _ => True)
    (solvePQStep coding st blockNo diskId another g2 g12 pTemp size offset) (fun _ => 0, buf)
  .ok bufs.2

/-! ### The function -/

/-- `Coding4Raid6::decode`.  The result is the buffer; `.failed` stands for the result `-1`. -/
def Coding4Raid6.decode (coding : Coding4Raid6) (st : NcfsState) (diskId : ℕ) (buf : Buf)
    (size offset : ℕ) : Except CodingError Buf :=
  let n := st.diskTotalNum
  let buf := memset0 buf size
  let blockNo := offset / st.diskBlockSize
  let q := codeDiskId n blockNo
  let p := parityDiskId n blockNo
  let failedNo := diskFailedNo st
  let another := diskAnotherFailedId st diskId
  if st.diskStatus diskId = 0 then .ok (readDisk st diskId buf size offset)
  -- a single `D` or `P`, or `Q` and another disk
  else if (failedNo = 1 ∧ diskId ≠ q) ∨ (failedNo = 2 ∧ another = some q) then
    xorSurvivors st (fun i => i ≠ diskId ∧ i ≠ q) buf size offset
  -- a single `Q`, or `Q` and `P`
  else if (failedNo = 1 ∧ diskId = q) ∨ (failedNo = 2 ∧ diskId = q ∧ another = some p) then
    codeOfData coding st blockNo (fun i => readDisk st i (fun _ => 0) size offset) buf size
  else if failedNo = 2 then
    match another with
    | none => .error .undefined
    | some another =>
        -- `P` and `D`
        if diskId = p ∧ another ≠ q then do
          let buf ← solveQ coding st blockNo diskId another buf size offset
          xorSurvivors st (fun i => i ≠ diskId ∧ i ≠ q ∧ i ≠ another) buf size offset
        -- `Q` and `D`
        else if diskId = q ∧ another ≠ p then do
          let buf ← xorSurvivors st (fun i => i ≠ diskId ∧ i ≠ another) buf size offset
          let qTemp ← codeOfData coding st blockNo (fun i =>
            if i ≠ another then readDisk st i (fun _ => 0) size offset else buf) (fun _ => 0) size
          .ok (copyBufAt 0 size buf qTemp)
        -- `D` and `P`
        else if another = p then
          solveQ coding st blockNo diskId another buf size offset
        -- two data disks
        else solvePQ coding st blockNo diskId another buf size offset
  else .error .failed

/-! ### What the parts compute -/

section Parts

variable {st : NcfsState} {b size offset : ℕ}

/-- The loop over whole integers adds the blocks of the disks it selects, when these work. -/
theorem xorSurvivors_eq {use : ℕ → Prop} [DecidablePred use]
    (h : ∀ i < st.diskTotalNum, use i → st.diskStatus i = 0) (buf : Buf) :
    xorSurvivors st use buf size offset = .ok (xorBuf (intBytes size) buf fun j =>
      ∑ i ∈ (Finset.range st.diskTotalNum).filter use,
        readDisk st i (fun _ => 0) size offset j) := by
  rw [xorSurvivors]
  refine forDisks_xorBuf (fun buf i hi huse => ?_) buf
  rw [if_neg (not_not.2 (h i hi huse))]

variable (hn : 2 ≤ st.diskTotalNum) (hn' : st.diskTotalNum ≤ 10)
include hn hn'

theorem addCode_eq {use : ℕ → Prop} [DecidablePred use]
    (h : ∀ i < st.diskTotalNum, use i → i ∈ dataDisks st.diskTotalNum b) (buf : Buf) :
    addCode .new st b use buf size offset = .ok (xorBuf size buf fun j =>
      ∑ i ∈ (Finset.range st.diskTotalNum).filter use,
        diskCoeff st.diskTotalNum b i * readDisk st i (fun _ => 0) size offset j) := by
  rw [addCode]
  refine forDisks_xorBuf (fun buf i hi huse => ?_) buf
  rw [dataDiskCoeff_eq hn' (dataPlace_le hn (h i hi huse))]
  exact gfMulXorBuf_eq rfl ..

theorem codeOfData_eq (block : ℕ → Buf) (buf : Buf) :
    codeOfData .new st b block buf size = .ok (xorBuf size buf fun j =>
      ∑ i ∈ dataDisks st.diskTotalNum b, diskCoeff st.diskTotalNum b i * block i j) := by
  rw [codeOfData]
  refine forDisks_xorBuf (fun buf i hi huse => ?_) buf
  exact gfMulXorBuf_eq (dataDiskCoeff_eq hn' (dataPlace_le hn (mem_dataDisks.2 ⟨hi, huse⟩))) ..

omit hn hn' in
theorem gfDivBuf_eq {c : Byte} (hc : c ≠ 0) (buf : Buf) :
    gfDivBuf .new size c.toNat buf = .ok fun j => if j < size then buf j / c else buf j := by
  rw [gfDivBuf, Loops.foldlM_ok (g := fun buf j => Function.update buf j (buf j / c))
    (fun buf j _ => ?_)]
  · congr 1
    funext j
    rw [Loops.foldl_update_range fun _ x => x / c]
  · rw [gfDiv_eq _ hc]
    simp only [bind, Except.bind, Byte.ofNat_toNat]

omit hn hn' in
theorem gfSolveBuf_eq {g2 g12 : Byte} (hg : g12 ≠ 0) (pTemp qTemp tempBuf buf : Buf) :
    gfSolveBuf .new size g2.toNat g12.toNat pTemp qTemp tempBuf buf = .ok fun j =>
      if j < size then (g2 * pTemp j + qTemp j + tempBuf j) / g12 else buf j := by
  rw [gfSolveBuf, Loops.foldlM_ok (g := fun buf j =>
    Function.update buf j ((g2 * pTemp j + qTemp j + tempBuf j) / g12)) (fun buf j _ => ?_)]
  · congr 1
    funext j
    rw [Loops.foldl_update_range fun j _ => (g2 * pTemp j + qTemp j + tempBuf j) / g12]
  · rw [gfMul_eq]
    simp only [bind, Except.bind, Byte.ofNat_toNat, Byte.xor_eq_add, gfDiv_eq _ hg]

omit hn hn' in
theorem otherData_mem {d e i : ℕ} (hi : i < st.diskTotalNum) (h : OtherData st b d e i) :
    i ∈ dataDisks st.diskTotalNum b :=
  mem_dataDisks.2 ⟨hi, h.2.2⟩

/-- What the division leaves: the lost term, divided by the coefficient of `disk_id`. -/
theorem solveQ_eq {d e : ℕ} (hd : dataPlace st.diskTotalNum b d + 3 ≤ st.diskTotalNum) (buf : Buf) :
    ∃ out, solveQ .new st b d e (memset0 buf size) size offset = .ok out ∧
      ∀ j < size, out j =
        (∑ i ∈ (Finset.range st.diskTotalNum).filter (OtherData st b d e),
            diskCoeff st.diskTotalNum b i * readDisk st i (fun _ => 0) size offset j +
          readDisk st (codeDiskId st.diskTotalNum b) (fun _ => 0) size offset j) /
          diskCoeff st.diskTotalNum b d := by
  rw [solveQ, addCode_eq hn hn' fun i hi huse => otherData_mem hi huse, dataDiskCoeff_eq hn' hd]
  simp only [bind, Except.bind, gfDivBuf_eq (diskCoeff_ne_zero hn' d)]
  refine ⟨_, rfl, fun j hj => ?_⟩
  simp [hj, xorBuf, memset0]

/-- One pass of the branch for two data disks. -/
theorem solvePQStep_eq {d e : ℕ} {g2 g12 : Byte} (hg : g12 ≠ 0) (pTemp : Buf) (bufs : Buf × Buf)
    {i : ℕ} (hi : i < st.diskTotalNum) :
    let qTemp : Buf :=
      if OtherData st b d e i then xorBuf size bufs.1 fun j =>
        diskCoeff st.diskTotalNum b i * readDisk st i (fun _ => 0) size offset j
      else bufs.1
    solvePQStep .new st b d e g2.toNat g12.toNat pTemp size offset bufs i = .ok (qTemp, fun j =>
      if j < size then
        (g2 * pTemp j + qTemp j +
          readDisk st (codeDiskId st.diskTotalNum b) (fun _ => 0) size offset j) / g12
      else bufs.2 j) := by
  rw [solvePQStep]
  split
  · rename_i hother
    simp only [dataDiskCoeff_eq hn' (dataPlace_le hn (otherData_mem hi hother)), Loops.ok_bind,
      gfMulXorBuf_eq rfl, gfSolveBuf_eq hg]
  · simp only [Loops.ok_bind, gfSolveBuf_eq hg]

/-- What the branch for two data disks leaves. -/
theorem solvePQ_eq {d e : ℕ} (hd : d ∈ dataDisks st.diskTotalNum b)
    (he : e ∈ dataDisks st.diskTotalNum b) (hde : d ≠ e) (buf : Buf) :
    ∃ out, solvePQ .new st b d e buf size offset = .ok out ∧
      ∀ j < size, out j =
        (diskCoeff st.diskTotalNum b e *
            (∑ i ∈ (Finset.range st.diskTotalNum).filter (OtherData st b d e),
                readDisk st i (fun _ => 0) size offset j +
              readDisk st (parityDiskId st.diskTotalNum b) (fun _ => 0) size offset j) +
          ∑ i ∈ (Finset.range st.diskTotalNum).filter (OtherData st b d e),
            diskCoeff st.diskTotalNum b i * readDisk st i (fun _ => 0) size offset j +
          readDisk st (codeDiskId st.diskTotalNum b) (fun _ => 0) size offset j) /
          (diskCoeff st.diskTotalNum b d + diskCoeff st.diskTotalNum b e) := by
  have hg : diskCoeff st.diskTotalNum b d + diskCoeff st.diskTotalNum b e ≠ 0 := by
    intro h
    have := (diskCoeff_eq_iff hn' (dataPlace_le hn hd) (dataPlace_le hn he)).1
      (CharTwo.add_eq_zero.1 h)
    exact hde (dataPlace_injOn hn hd he this)
  have hgbits : (diskCoeff st.diskTotalNum b d).toNat ^^^ (diskCoeff st.diskTotalNum b e).toNat =
      (diskCoeff st.diskTotalNum b d + diskCoeff st.diskTotalNum b e).toNat :=
    (BitVec.toNat_xor ..).symm
  rw [solvePQ]
  simp only [dataDiskCoeff_eq hn' (dataPlace_le hn hd), dataDiskCoeff_eq hn' (dataPlace_le hn he),
    Loops.ok_bind, forDisks_xorBuf fun _ _ _ _ => rfl, hgbits]
  rw [forDisks_ok fun bufs i hi _ => solvePQStep_eq hn hn' hg _ bufs hi, Loops.ok_bind]
  refine ⟨_, rfl, fun j hj => ?_⟩
  -- the last pass sees the whole of `Q_temp`
  obtain ⟨t, ht⟩ := Loops.foldl_last
    (fun (qTemp : Buf) i => if OtherData st b d e i then xorBuf size qTemp fun j =>
      diskCoeff st.diskTotalNum b i * readDisk st i (fun _ => 0) size offset j else qTemp)
    (fun qTemp (buf : Buf) j => if j < size then
      (diskCoeff st.diskTotalNum b e * xorBuf size (xorBuf size (fun _ => 0) fun j =>
        ∑ i ∈ (Finset.range st.diskTotalNum).filter (OtherData st b d e),
          readDisk st i (fun _ => 0) size offset j)
        (readDisk st (parityDiskId st.diskTotalNum b) (fun _ => 0) size offset) j + qTemp j +
          readDisk st (codeDiskId st.diskTotalNum b) (fun _ => 0) size offset j) /
          (diskCoeff st.diskTotalNum b d + diskCoeff st.diskTotalNum b e)
      else buf j)
    (l := List.range st.diskTotalNum) (by rw [Ne, List.range_eq_nil]; omega) (fun _ => 0, buf)
  have hq : ((List.range st.diskTotalNum).filter (OtherData st b d e)).foldl (fun buf i =>
      xorBuf size buf fun j =>
        diskCoeff st.diskTotalNum b i * readDisk st i (fun _ => 0) size offset j)
          (fun _ => 0) = _ :=
    List.foldl_filter ..
  simp only [decide_eq_true_eq] at hq
  rw [List.filter_eq_self.2 (by simp), ht, ← hq, foldl_xorBuf]
  simp [hj, xorBuf, sum_selected]

end Parts

/-! ### Failed disks -/

/-- The store after the disks of `F` have failed: their status is `1`, and nothing is known about
what can be read from them. -/
def NcfsState.fail (st : NcfsState) (F : Finset ℕ) (junk : ℕ → ℕ → Byte) : NcfsState :=
  { st with
    diskStatus := fun d => if d ∈ F then 1 else 0
    disk := fun d => if d ∈ F then junk d else st.disk d }

section Fail

variable {st : NcfsState} {F : Finset ℕ} {junk : ℕ → ℕ → Byte} {d f b : ℕ}

@[simp] theorem fail_diskTotalNum : (st.fail F junk).diskTotalNum = st.diskTotalNum := rfl

@[simp] theorem fail_diskBlockSize : (st.fail F junk).diskBlockSize = st.diskBlockSize := rfl

theorem fail_diskStatus (i : ℕ) : (st.fail F junk).diskStatus i = if i ∈ F then 1 else 0 := rfl

theorem fail_diskStatus_eq_one (i : ℕ) : (st.fail F junk).diskStatus i = 1 ↔ i ∈ F := by
  simp [fail_diskStatus]

theorem fail_diskStatus_ne_zero (hd : d ∈ F) : (st.fail F junk).diskStatus d ≠ 0 := by
  simp [fail_diskStatus, hd]

/-- A block of a disk that works is read as it is stored. -/
theorem readDisk_fail {i size j : ℕ} (hi : i ∉ F) (hj : j < size) (buf : Buf) :
    readDisk (st.fail F junk) i buf size (b * st.diskBlockSize) j = st.block i b j := by
  rw [← fail_diskBlockSize, readDisk_block _ _ _ _ _ hj, NcfsState.block, NcfsState.block]
  simp [NcfsState.fail, hi]

theorem diskFailedNo_fail (hF : F ⊆ Finset.range st.diskTotalNum) :
    diskFailedNo (st.fail F junk) = F.card := by
  have hfilter : ((List.range st.diskTotalNum).filter fun i =>
      decide ((st.fail F junk).diskStatus i = 1)).toFinset = F := by
    ext i
    have hi : i ∈ F → i < st.diskTotalNum := fun h => Finset.mem_range.1 (hF h)
    simpa [fail_diskStatus] using hi
  rw [diskFailedNo, fail_diskTotalNum, ← List.toFinset_card_of_nodup (List.nodup_range.filter _),
    hfilter]

theorem diskAnotherFailedId_fail (hf : f < st.diskTotalNum) (hfd : f ≠ d) :
    diskAnotherFailedId (st.fail {d, f} junk) d = some f := by
  have hpair : ∀ i, (st.fail {d, f} junk).diskStatus i = 1 ∧ i ≠ d ↔ i = f := by
    intro i
    simp only [fail_diskStatus, Finset.mem_insert, Finset.mem_singleton]
    constructor
    · rintro ⟨h, hid⟩
      by_contra hif
      rw [if_neg (by tauto)] at h
      cases h
    · rintro rfl
      simp [hfd]
  rw [diskAnotherFailedId, Loops.foldl_some fun i _ h => (hpair i).1 h, if_pos]
  exact ⟨f, List.mem_range.2 hf, (hpair f).2 rfl⟩

/-- The way that is taken when one disk has failed, at any place of a block. -/
theorem decode_singleton {offset : ℕ} (hblockNo : offset / st.diskBlockSize = b)
    (hd : d < st.diskTotalNum) (buf : Buf) (size : ℕ) :
    Coding4Raid6.new.decode (st.fail {d} junk) d buf size offset =
      if d ≠ codeDiskId st.diskTotalNum b then
        xorSurvivors (st.fail {d} junk) (fun i => i ≠ d ∧ i ≠ codeDiskId st.diskTotalNum b)
          (memset0 buf size) size offset
      else codeOfData .new (st.fail {d} junk) b (fun i =>
        readDisk (st.fail {d} junk) i (fun _ => 0) size offset) (memset0 buf size) size := by
  have hno : diskFailedNo (st.fail {d} junk) = 1 := by
    rw [diskFailedNo_fail (by simpa using hd), Finset.card_singleton]
  rw [Coding4Raid6.decode]
  simp only [hno, hblockNo, fail_diskStatus, fail_diskTotalNum, fail_diskBlockSize,
    Finset.mem_singleton, if_true, one_ne_zero, if_false, true_and, OfNat.one_ne_ofNat, false_and,
    or_false]
  by_cases h : d = codeDiskId st.diskTotalNum b <;> simp [h]

/-- The way that is taken when one disk has failed. -/
theorem decode_fail_singleton (hd : d < st.diskTotalNum) (buf : Buf) (size : ℕ) :
    Coding4Raid6.new.decode (st.fail {d} junk) d buf size (b * st.diskBlockSize) =
      if d ≠ codeDiskId st.diskTotalNum b then
        xorSurvivors (st.fail {d} junk) (fun i => i ≠ d ∧ i ≠ codeDiskId st.diskTotalNum b)
          (memset0 buf size) size (b * st.diskBlockSize)
      else codeOfData .new (st.fail {d} junk) b (fun i =>
        readDisk (st.fail {d} junk) i (fun _ => 0) size (b * st.diskBlockSize))
        (memset0 buf size) size :=
  decode_singleton (Nat.mul_div_cancel b st.diskBlockSize_pos) hd buf size

/-- The way that is taken when two disks have failed, at any place of a block. -/
theorem decode_pair {offset : ℕ} (hblockNo : offset / st.diskBlockSize = b)
    (hd : d < st.diskTotalNum) (hf : f < st.diskTotalNum) (hfd : f ≠ d) (buf : Buf) (size : ℕ) :
    Coding4Raid6.new.decode (st.fail {d, f} junk) d buf size offset =
      if f = codeDiskId st.diskTotalNum b then
        xorSurvivors (st.fail {d, f} junk) (fun i => i ≠ d ∧ i ≠ codeDiskId st.diskTotalNum b)
          (memset0 buf size) size offset
      else if d = codeDiskId st.diskTotalNum b ∧ f = parityDiskId st.diskTotalNum b then
        codeOfData .new (st.fail {d, f} junk) b (fun i =>
          readDisk (st.fail {d, f} junk) i (fun _ => 0) size offset) (memset0 buf size) size
      else if d = parityDiskId st.diskTotalNum b then do
        let buf ← solveQ .new (st.fail {d, f} junk) b d f (memset0 buf size) size offset
        xorSurvivors (st.fail {d, f} junk)
          (fun i => i ≠ d ∧ i ≠ codeDiskId st.diskTotalNum b ∧ i ≠ f) buf size offset
      else if d = codeDiskId st.diskTotalNum b then do
        let buf ← xorSurvivors (st.fail {d, f} junk) (fun i => i ≠ d ∧ i ≠ f)
          (memset0 buf size) size offset
        let qTemp ← codeOfData .new (st.fail {d, f} junk) b (fun i =>
          if i ≠ f then readDisk (st.fail {d, f} junk) i (fun _ => 0) size offset else buf)
          (fun _ => 0) size
        .ok (copyBufAt 0 size buf qTemp)
      else if f = parityDiskId st.diskTotalNum b then
        solveQ .new (st.fail {d, f} junk) b d f (memset0 buf size) size offset
      else solvePQ .new (st.fail {d, f} junk) b d f (memset0 buf size) size offset := by
  have hno : diskFailedNo (st.fail {d, f} junk) = 2 := by
    rw [diskFailedNo_fail, Finset.card_pair hfd.symm]
    intro i hi
    rcases Finset.mem_insert.1 hi with rfl | hi
    · exact Finset.mem_range.2 hd
    · rw [Finset.mem_singleton.1 hi]
      exact Finset.mem_range.2 hf
  rw [Coding4Raid6.decode]
  simp only [hno, hblockNo, diskAnotherFailedId_fail hf hfd, fail_diskStatus, fail_diskTotalNum,
    fail_diskBlockSize, Finset.mem_insert, true_or, if_true, one_ne_zero, if_false, true_and,
    OfNat.ofNat_ne_one, false_and, false_or, Option.some.injEq]
  by_cases hfq : f = codeDiskId st.diskTotalNum b
  · rw [if_pos hfq, if_pos hfq]
  rw [if_neg hfq, if_neg hfq]
  by_cases hboth : d = codeDiskId st.diskTotalNum b ∧ f = parityDiskId st.diskTotalNum b
  · rw [if_pos hboth, if_pos hboth]
  rw [if_neg hboth, if_neg hboth]
  by_cases hdp : d = parityDiskId st.diskTotalNum b
  · rw [if_pos ⟨hdp, hfq⟩, if_pos hdp]
  rw [if_neg (fun h => hdp h.1), if_neg hdp]
  by_cases hdq : d = codeDiskId st.diskTotalNum b
  · rw [if_pos ⟨hdq, fun h => hboth ⟨hdq, h⟩⟩, if_pos hdq]
  rw [if_neg (fun h => hdq h.1), if_neg hdq]

/-- The way that is taken when two disks have failed. -/
theorem decode_fail_pair (hd : d < st.diskTotalNum) (hf : f < st.diskTotalNum) (hfd : f ≠ d)
    (junk : ℕ → ℕ → Byte) (b : ℕ) (buf : Buf) (size : ℕ) :
    Coding4Raid6.new.decode (st.fail {d, f} junk) d buf size (b * st.diskBlockSize) =
      if f = codeDiskId st.diskTotalNum b then
        xorSurvivors (st.fail {d, f} junk) (fun i => i ≠ d ∧ i ≠ codeDiskId st.diskTotalNum b)
          (memset0 buf size) size (b * st.diskBlockSize)
      else if d = codeDiskId st.diskTotalNum b ∧ f = parityDiskId st.diskTotalNum b then
        codeOfData .new (st.fail {d, f} junk) b (fun i =>
          readDisk (st.fail {d, f} junk) i (fun _ => 0) size (b * st.diskBlockSize))
          (memset0 buf size) size
      else if d = parityDiskId st.diskTotalNum b then do
        let buf ← solveQ .new (st.fail {d, f} junk) b d f (memset0 buf size) size
          (b * st.diskBlockSize)
        xorSurvivors (st.fail {d, f} junk)
          (fun i => i ≠ d ∧ i ≠ codeDiskId st.diskTotalNum b ∧ i ≠ f) buf size
          (b * st.diskBlockSize)
      else if d = codeDiskId st.diskTotalNum b then do
        let buf ← xorSurvivors (st.fail {d, f} junk) (fun i => i ≠ d ∧ i ≠ f)
          (memset0 buf size) size
          (b * st.diskBlockSize)
        let qTemp ← codeOfData .new (st.fail {d, f} junk) b (fun i =>
          if i ≠ f then
            readDisk (st.fail {d, f} junk) i (fun _ => 0) size (b * st.diskBlockSize)
          else buf) (fun _ => 0) size
        .ok (copyBufAt 0 size buf qTemp)
      else if f = parityDiskId st.diskTotalNum b then
        solveQ .new (st.fail {d, f} junk) b d f (memset0 buf size) size (b * st.diskBlockSize)
      else
        solvePQ .new (st.fail {d, f} junk) b d f (memset0 buf size) size
          (b * st.diskBlockSize) :=
  decode_pair (Nat.mul_div_cancel b st.diskBlockSize_pos) hd hf hfd buf size

/-! ### A block of data -/

theorem filter_otherData (st : NcfsState) (b d f : ℕ) :
    (Finset.range st.diskTotalNum).filter (OtherData st b d f) =
      ((dataDisks st.diskTotalNum b).erase d).erase f := by
  ext i
  simp only [Finset.mem_filter, Finset.mem_range, Finset.mem_erase, mem_dataDisks, OtherData]
  tauto

/-- The disks that are added up for a block of data: the other data disks and `P`. -/
theorem filter_survivors (hn : 2 ≤ st.diskTotalNum) (hd : d ∈ dataDisks st.diskTotalNum b) :
    (Finset.range st.diskTotalNum).filter (fun i => i ≠ d ∧ i ≠ codeDiskId st.diskTotalNum b) =
      insert (parityDiskId st.diskTotalNum b) ((dataDisks st.diskTotalNum b).erase d) := by
  obtain ⟨-, hdp, -⟩ := mem_dataDisks.1 hd
  have hlt : parityDiskId st.diskTotalNum b < st.diskTotalNum := parityDiskId_lt (by omega)
  have hpq : parityDiskId st.diskTotalNum b ≠ codeDiskId st.diskTotalNum b :=
    parityDiskId_ne_codeDiskId hn
  ext i
  simp only [Finset.mem_filter, Finset.mem_range, Finset.mem_insert, Finset.mem_erase,
    mem_dataDisks]
  constructor
  · rintro ⟨hi, hid, hiq⟩
    by_cases hip : i = parityDiskId st.diskTotalNum b
    · exact .inl hip
    · exact .inr ⟨hid, hi, hip, hiq⟩
  · rintro (rfl | ⟨hid, hi, -, hiq⟩)
    · exact ⟨hlt, Ne.symm hdp, hpq⟩
    · exact ⟨hi, hid, hiq⟩

/-- The loop over whole integers adds the blocks of the disks it selects, when none of them has
failed. -/
theorem xorSurvivors_fail {use : ℕ → Prop} [DecidablePred use]
    (huse : ∀ i < st.diskTotalNum, use i → i ∉ F) (buf : Buf) (size : ℕ) :
    ∃ out, xorSurvivors (st.fail F junk) use buf size (b * st.diskBlockSize) = .ok out ∧
      ∀ o < size, out o = buf o + if o < intBytes size then
        ∑ i ∈ (Finset.range st.diskTotalNum).filter use, st.block i b o else 0 := by
  rw [xorSurvivors_eq fun i hi h => by rw [fail_diskStatus, if_neg (huse i hi h)]]
  refine ⟨_, rfl, fun o ho => ?_⟩
  by_cases hint : o < intBytes size
  · rw [xorBuf_of_lt _ _ hint, if_pos hint]
    congr 1
    refine Finset.sum_congr rfl fun i hi => ?_
    obtain ⟨hi, h⟩ := Finset.mem_filter.1 hi
    exact readDisk_fail (huse i (Finset.mem_range.1 hi) h) ho _
  · rw [xorBuf, if_neg hint, if_neg hint, add_zero]

/-- A lost block of data is the sum of the surviving blocks but `Q`. -/
theorem sum_survivors {o : ℕ} (hn : 2 ≤ st.diskTotalNum) (hrow : Raid6Row st b o)
    (hd : d ∈ dataDisks st.diskTotalNum b) :
    ∑ i ∈ (Finset.range st.diskTotalNum).filter
      (fun i => i ≠ d ∧ i ≠ codeDiskId st.diskTotalNum b), st.block i b o = st.block d b o := by
  have hp : parityDiskId st.diskTotalNum b ∉ (dataDisks st.diskTotalNum b).erase d := fun h =>
    (mem_dataDisks.1 (Finset.mem_of_mem_erase h)).2.1 rfl
  rw [filter_survivors hn hd, Finset.sum_insert hp, add_comm]
  exact hrow.data_of_p hd

/-- The first lines of the branches with a failed `P` disk leave the lost term over the coefficient
of `disk_id`. -/
theorem solveQ_fail {e : ℕ} (hn : 2 ≤ st.diskTotalNum) (hn' : st.diskTotalNum ≤ 10)
    (hd : dataPlace st.diskTotalNum b d + 3 ≤ st.diskTotalNum)
    (he : e ∈ dataDisks st.diskTotalNum b)
    (hothers : ((dataDisks st.diskTotalNum b).erase d).erase f =
      (dataDisks st.diskTotalNum b).erase e)
    (hF : ∀ i ∈ F, i = e ∨ i = parityDiskId st.diskTotalNum b) {size : ℕ}
    (hrow : ∀ o < size, Raid6Row st b o) (buf : Buf) :
    ∃ out, solveQ .new (st.fail F junk) b d f (memset0 buf size) size (b * st.diskBlockSize) =
        .ok out ∧
      ∀ o < size, out o = diskCoeff st.diskTotalNum b e * st.block e b o /
        diskCoeff st.diskTotalNum b d := by
  obtain ⟨out, hok, hout⟩ :=
    @solveQ_eq (st.fail F junk) b size (b * st.diskBlockSize) hn hn' d f hd buf
  refine ⟨out, hok, fun o ho => ?_⟩
  have hq : codeDiskId st.diskTotalNum b ∉ F := by
    intro h
    rcases hF _ h with h | h
    · exact (mem_dataDisks.1 he).2.2 h.symm
    · exact parityDiskId_ne_codeDiskId hn h.symm
  rw [hout o ho, filter_otherData, fail_diskTotalNum, hothers, readDisk_fail hq ho,
    ← (hrow o ho).term_of_q he]
  congr 2
  refine Finset.sum_congr rfl fun i hi => ?_
  obtain ⟨hie, hi⟩ := Finset.mem_erase.1 hi
  rw [readDisk_fail (fun h => ?_) ho]
  rcases hF i h with rfl | rfl
  · exact hie rfl
  · exact (mem_dataDisks.1 hi).2.1 rfl

/-- The branch for two data disks. -/
theorem solvePQ_fail (hn : 2 ≤ st.diskTotalNum) (hn' : st.diskTotalNum ≤ 10)
    (hd : d ∈ dataDisks st.diskTotalNum b) (hf : f ∈ dataDisks st.diskTotalNum b) (hfd : f ≠ d)
    {size : ℕ} (hrow : ∀ o < size, Raid6Row st b o) (buf : Buf) :
    ∃ out, solvePQ .new (st.fail {d, f} junk) b d f buf size (b * st.diskBlockSize) = .ok out ∧
      ∀ o < size, out o = st.block d b o := by
  obtain ⟨out, hok, hout⟩ :=
    @solvePQ_eq (st.fail {d, f} junk) b size (b * st.diskBlockSize) hn hn' d f hd hf hfd.symm buf
  refine ⟨out, hok, fun o ho => ?_⟩
  have hcoeff : diskCoeff st.diskTotalNum b d ≠ diskCoeff st.diskTotalNum b f := fun h =>
    hfd (dataPlace_injOn hn hf hd
      ((diskCoeff_eq_iff hn' (dataPlace_le hn hd) (dataPlace_le hn hf)).1 h).symm)
  have hread : ∀ i, i ≠ d → i ≠ f → readDisk (st.fail {d, f} junk) i (fun _ => 0) size
      (b * st.diskBlockSize) o = st.block i b o := fun i hid hif =>
    readDisk_fail (by simp [hid, hif]) ho _
  obtain ⟨-, hdp, hdq⟩ := mem_dataDisks.1 hd
  obtain ⟨-, hfp, hfq⟩ := mem_dataDisks.1 hf
  have hothers : ∀ g : ℕ → Byte → Byte,
      ∑ i ∈ ((dataDisks st.diskTotalNum b).erase d).erase f, g i (readDisk (st.fail {d, f} junk) i
        (fun _ => 0) size (b * st.diskBlockSize) o) =
      ∑ i ∈ ((dataDisks st.diskTotalNum b).erase d).erase f, g i (st.block i b o) := by
    refine fun g => Finset.sum_congr rfl fun i hi => ?_
    obtain ⟨hif, hi⟩ := Finset.mem_erase.1 hi
    rw [hread i (Finset.mem_erase.1 hi).1 hif]
  rw [hout o ho, filter_otherData, fail_diskTotalNum, hread _ (Ne.symm hdp) (Ne.symm hfp),
    hread _ (Ne.symm hdq) (Ne.symm hfq), hothers fun _ x => x,
    hothers fun i x => diskCoeff st.diskTotalNum b i * x]
  exact (hrow o ho).data_of_pq hd hf hfd.symm hcoeff

/-- What is read for a block of a failed data disk, when no more than two disks have failed: without
`Q` it comes back in whole integers, and with `Q` in bytes. -/
theorem Coding4Raid6.decode_words (hn : 2 ≤ st.diskTotalNum) (hn' : st.diskTotalNum ≤ 10)
    (hd : d ∈ dataDisks st.diskTotalNum b) (hF : F ⊆ Finset.range st.diskTotalNum)
    (hcard : F.card ≤ 2) (hdF : d ∈ F) {size : ℕ} (hrow : ∀ o < size, Raid6Row st b o) (buf : Buf) :
    ∃ out, Coding4Raid6.new.decode (st.fail F junk) d buf size (b * st.diskBlockSize) = .ok out ∧
      ∀ o < size, out o = if (∀ i ∈ F, i = d ∨ i = codeDiskId st.diskTotalNum b) → o < intBytes size
        then st.block d b o else 0 := by
  obtain ⟨hdn, hdp, hdq⟩ := mem_dataDisks.1 hd
  -- without `Q` the block is a sum
  have hsum : (∀ i ∈ F, i = d ∨ i = codeDiskId st.diskTotalNum b) → ∃ out,
      xorSurvivors (st.fail F junk) (fun i => i ≠ d ∧ i ≠ codeDiskId st.diskTotalNum b)
        (memset0 buf size) size (b * st.diskBlockSize) = .ok out ∧
      ∀ o < size, out o = if (∀ i ∈ F, i = d ∨ i = codeDiskId st.diskTotalNum b) → o < intBytes size
        then st.block d b o else 0 := by
    intro hsurvive
    obtain ⟨out, hok, hout⟩ := @xorSurvivors_fail st F junk b
      (fun i => i ≠ d ∧ i ≠ codeDiskId st.diskTotalNum b) _
      (fun i _ h hi => (hsurvive i hi).elim h.1 h.2) (memset0 buf size) size
    refine ⟨out, hok, fun o ho => ?_⟩
    rw [hout o ho, memset0_of_lt ho, zero_add, sum_survivors hn (hrow o ho) hd]
    exact if_congr ⟨fun h _ => h, fun h => h hsurvive⟩ rfl rfl
  obtain ⟨F', hF', rfl⟩ : ∃ F', d ∉ F' ∧ insert d F' = F :=
    ⟨F.erase d, Finset.notMem_erase d F, Finset.insert_erase hdF⟩
  have hcard' : F'.card ≤ 1 := by
    rw [Finset.card_insert_of_notMem hF'] at hcard
    omega
  rcases Finset.card_le_one_iff_subset_singleton.1 hcard' with ⟨f, hf⟩
  rcases Finset.subset_singleton_iff.1 hf with rfl | rfl
  · -- one failed disk
    obtain ⟨out, hok, hout⟩ := hsum fun i hi => .inl (by simpa using hi)
    refine ⟨out, ?_, hout⟩
    rw [insert_empty_eq, decode_fail_singleton hdn, if_pos hdq, ← insert_empty_eq, hok]
  · -- two failed disks
    have hfn : f < st.diskTotalNum := Finset.mem_range.1 (hF (by simp))
    have hfd : f ≠ d := fun h => hF' (by simp [h])
    rw [decode_fail_pair hdn hfn hfd]
    by_cases hfq : f = codeDiskId st.diskTotalNum b
    · rw [if_pos hfq]
      exact hsum fun i hi => by simpa [← hfq] using hi
    have hbytes : ∀ o, (∀ i ∈ ({d, f} : Finset ℕ), i = d ∨ i = codeDiskId st.diskTotalNum b) →
        o < intBytes size := fun o h => absurd (h f (by simp)) (not_or.2 ⟨hfd, hfq⟩)
    simp only [if_pos (hbytes _)]
    rw [if_neg hfq, if_neg (fun h => hdq h.1), if_neg hdp, if_neg hdq]
    by_cases hfp : f = parityDiskId st.diskTotalNum b
    · rw [if_pos hfp]
      have herase : ((dataDisks st.diskTotalNum b).erase d).erase f =
          (dataDisks st.diskTotalNum b).erase d :=
        Finset.erase_eq_of_notMem fun h => (mem_dataDisks.1 (Finset.mem_of_mem_erase h)).2.1 hfp
      obtain ⟨out, hok, hout⟩ := @solveQ_fail st {d, f} junk d f b d hn hn' (dataPlace_le hn hd) hd
        herase (fun i hi => by simpa [← hfp] using hi) size hrow buf
      refine ⟨out, hok, fun o ho => ?_⟩
      rw [hout o ho, mul_div_cancel_left₀ _ (diskCoeff_ne_zero hn' d)]
    · rw [if_neg hfp]
      exact solvePQ_fail hn hn' hd (mem_dataDisks.2 ⟨hfn, hfp, hfq⟩) hfd hrow _

/-- A block of a failed data disk is read as it is stored, when no more than two disks have failed
and the blocks are whole integers. -/
theorem Coding4Raid6.decode_data (hn : 2 ≤ st.diskTotalNum) (hn' : st.diskTotalNum ≤ 10)
    (hd : d ∈ dataDisks st.diskTotalNum b) (hF : F ⊆ Finset.range st.diskTotalNum)
    (hcard : F.card ≤ 2) (hdF : d ∈ F) {size : ℕ} (hint : size % sizeofInt = 0)
    (hrow : ∀ o < size, Raid6Row st b o) (buf : Buf) :
    ∃ out, Coding4Raid6.new.decode (st.fail F junk) d buf size (b * st.diskBlockSize) = .ok out ∧
      ∀ o < size, out o = st.block d b o := by
  obtain ⟨out, hok, hout⟩ := @decode_words st F junk d b hn hn' hd hF hcard hdF size hrow buf
  refine ⟨out, hok, fun o ho => (hout o ho).trans (if_pos fun _ => ?_)⟩
  rwa [intBytes_eq hint]

end Fail

/-! ### Runs -/

/-- After any run of writes and frees from zero disks, a block of a failed data disk is read as it
is stored, when no more than two disks have failed. -/
theorem Coding4Raid6.decode_run_data {n bs : ℕ} (hn : 4 ≤ n) (hn' : n ≤ 10)
    (hint : bs % sizeofInt = 0) (st : NcfsState) (htotal : st.diskTotalNum = n)
    (hblock : st.diskBlockSize = bs) (hzero : ∀ d < n, ∀ x, st.disk d x = 0) (ops : List StoreOp)
    (hops : ∀ op ∈ ops, op.Small bs) :
    ∃ s, ops.foldlM (raid6Step .new) ⟨st, []⟩ = .ok s ∧
      ∀ b, ∀ F ⊆ Finset.range n, F.card ≤ 2 → ∀ d ∈ F, d ≠ parityDiskId n b → d ≠ codeDiskId n b →
        ∀ junk buf, ∃ out,
          Coding4Raid6.new.decode (s.st.fail F junk) d buf bs (b * bs) = .ok out ∧
            ∀ o < bs, out o = s.st.block d b o := by
  have hparity : Raid6Parity st := Raid6Parity.of_zero (by omega) (htotal.symm ▸ hzero)
  obtain ⟨s, hrun, rfl, rfl, hparity⟩ := @raid6_run_parity n bs (by omega) hn'
    ⟨st, []⟩ htotal hblock hparity ops hops
  refine ⟨s, hrun, fun b F hF hcard d hdF hdp hdq junk buf => ?_⟩
  exact decode_data (by omega) hn'
    (mem_dataDisks.2 ⟨Finset.mem_range.1 (hF hdF), hdp, hdq⟩) hF hcard hdF hint (hparity b) buf

/-- Four disks with blocks of four bytes: two writes, a free and a write. -/
theorem Coding4Raid6.decode_run_data_four :
    let st := NcfsState.blank 4 2 4 (by decide) 8
    let ops : List StoreOp := [.encode (fun _ => Byte.ofNat 5) 4, .encode (fun _ => Byte.ofNat 6) 4,
      .free 0 0, .encode (fun _ => Byte.ofNat 3) 4]
    ∃ s, ops.foldlM (raid6Step .new) ⟨st, []⟩ = .ok s ∧
      ∀ b, ∀ F ⊆ Finset.range 4, F.card ≤ 2 → ∀ d ∈ F, d ≠ parityDiskId 4 b → d ≠ codeDiskId 4 b →
        ∀ junk buf, ∃ out,
          Coding4Raid6.new.decode (s.st.fail F junk) d buf 4 (b * 4) = .ok out ∧
            ∀ o < 4, out o = s.st.block d b o := by
  intro st ops
  refine Coding4Raid6.decode_run_data le_rfl (by decide)
    (show 4 % sizeofInt = 0 from rfl) st rfl rfl
    (fun _ _ _ => rfl) ops ?_
  intro op hop
  simp only [ops, List.mem_cons, List.not_mem_nil, or_false] at hop
  rcases hop with rfl | rfl | rfl | rfl <;> first | exact le_rfl | trivial

end Ncfs
