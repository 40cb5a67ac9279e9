/-
Row parity: RAID4 and RAID5.

One block of each row holds the sum of the others, on the last disk under RAID4 and on a disk that
rotates under RAID5.  Both encoders add the old and the new contents of a block to the parity of its
row, so they keep the parity also where they overwrite the data of a block that has been freed.

Main definitions:

* `Ncfs.Coding4Raid5.encode`, `Ncfs.Coding4Raid4.encode` — writing a block;
* `Ncfs.Coding4Raid5.decode`, `Ncfs.Coding4Raid4.decode` — reading;
* `Ncfs.RowsZero` — the blocks of every row add up to zero.

Main results:

* `Ncfs.rowsZero_write` — a block and its parity, written with the same difference;
* `Ncfs.raid5Allocate_ok` — no block is taken at a parity position;
* `Ncfs.rowParity_run` — both codes in runs of writes and frees.
-/
import FuseMdr.BlockAllocator
import FuseMdr.GfTables

set_option relaxedAutoImplicit false
set_option autoImplicit false

namespace Ncfs

/-! ### The functions -/

/-- The disk of the parity under RAID5. -/
def raid5ParityDiskId (diskTotalNum blockNo : ℕ) : ℕ := diskTotalNum - 1 - blockNo % diskTotalNum

/-- The choice of a block under RAID5: each disk on a parity block moves over it. -/
def raid5Allocate (st : NcfsState) (blockRequest : ℕ) : Option (ℕ × ℕ) × NcfsState :=
  let st := skipBlocks st fun i blockNo => i = raid5ParityDiskId st.diskTotalNum blockNo
  takeBlock st (selectDisk st st.diskTotalNum blockRequest) blockRequest

/-- The part of `Coding4Raid5::encode` after the block has been chosen. -/
def raid5Write (buf : Buf) (size : ℕ) (st : NcfsState) (diskId blockNo : ℕ) : NcfsState :=
  let sizeRequest := roundToBlockSize st size
  let offset := blockNo * st.diskBlockSize
  let buf2 := xorBuf (intBytes sizeRequest) (readDisk st diskId (fun _ => 0) sizeRequest offset) buf
  let parityDiskId := raid5ParityDiskId st.diskTotalNum blockNo
  let bufRead := readDisk st parityDiskId (fun _ => 0) sizeRequest offset
  let buf2 := xorBuf (intBytes sizeRequest) buf2 bufRead
  let st := writeDisk st diskId buf size offset
  writeDisk st parityDiskId buf2 size offset

/-- `Coding4Raid5::encode`. -/
def Coding4Raid5.encode : NcfsState → Buf → ℕ → Option (ℕ × ℕ) × NcfsState :=
  encodeWith raid5Allocate raid5Write

/-- The choice of a block under RAID4: the last disk holds no data. -/
def raid4Allocate (st : NcfsState) (blockRequest : ℕ) : Option (ℕ × ℕ) × NcfsState :=
  takeBlock st (selectDisk st (st.diskTotalNum - 1) blockRequest) blockRequest

/-- The part of `Coding4Raid4::encode` after the block has been chosen.  The parity is read after
the data block has been written. -/
def raid4Write (buf : Buf) (size : ℕ) (st : NcfsState) (diskId blockNo : ℕ) : NcfsState :=
  let sizeRequest := roundToBlockSize st size
  let offset := blockNo * st.diskBlockSize
  let buf2 := xorBuf sizeRequest (readDisk st diskId (fun _ => 0) sizeRequest offset) buf
  let st := writeDisk st diskId buf size offset
  let parityDiskId := st.diskTotalNum - 1
  let bufRead := readDisk st parityDiskId (fun _ => 0) sizeRequest offset
  let buf2 := xorBuf sizeRequest buf2 bufRead
  writeDisk st parityDiskId buf2 size offset

/-- `Coding4Raid4::encode`. -/
def Coding4Raid4.encode : NcfsState → Buf → ℕ → Option (ℕ × ℕ) × NcfsState :=
  encodeWith raid4Allocate raid4Write

/-- The loop of `Coding4Raid5::decode` for a disk that has failed. -/
def xorOthers (st : NcfsState) (diskId size offset : ℕ) (buf : Buf) : Except CodingError Buf :=
  (List.range st.diskTotalNum).foldlM (fun buf i =>
    if i = diskId then .ok buf
    else if st.diskStatus i ≠ 0 then .error .failed
    else .ok (xorBuf (intBytes size) buf (readDisk st i (fun _ => 0) size offset))) buf

/-- `Coding4Raid5::decode`. -/
def Coding4Raid5.decode (st : NcfsState) (diskId : ℕ) (buf : Buf) (size offset : ℕ) :
    Except CodingError Buf :=
  if st.diskStatus diskId = 0 then .ok (readDisk st diskId buf size offset)
  else xorOthers st diskId size offset (memset0 buf size)

/-- `Coding4Raid4::decode` does the same. -/
def Coding4Raid4.decode (st : NcfsState) (diskId : ℕ) (buf : Buf) (size offset : ℕ) :
    Except CodingError Buf :=
  Coding4Raid5.decode st diskId buf size offset

/-! ### The rows -/

/-- The blocks of every row add up to zero. -/
def RowsZero (st : NcfsState) : Prop :=
  ∀ b, ∀ o < st.diskBlockSize, ∑ i ∈ Finset.range st.diskTotalNum, st.block i b o = 0

theorem RowsZero.same {st st' : NcfsState} (h : RowsZero st) (hsame : SameDevices st st') :
    RowsZero st' := by
  intro b o ho
  rw [hsame.block_eq] at ho
  rw [hsame.total_eq, ← h b o ho]
  exact Finset.sum_congr rfl fun i _ => hsame.block i b o

theorem RowsZero.of_zero {st : NcfsState} (hzero : ∀ d < st.diskTotalNum, ∀ x, st.disk d x = 0) :
    RowsZero st := by
  intro b o _
  exact Finset.sum_eq_zero fun i hi => hzero i (Finset.mem_range.1 hi) _

/-- A block and the parity of its row, written with the same difference. -/
theorem rowsZero_write {st : NcfsState} {d p b size : ℕ} {buf buf2 : Buf} (hd : d < st.diskTotalNum)
    (hp : p < st.diskTotalNum) (hdp : d ≠ p) (hsize : size ≤ st.diskBlockSize)
    (hbuf2 : ∀ o < size, buf2 o = st.block d b o + buf o + st.block p b o) (h : RowsZero st) :
    RowsZero (writeDisk (writeDisk st d buf size (b * st.diskBlockSize)) p buf2 size
      (b * st.diskBlockSize)) := by
  intro y o ho
  have hblock : ∀ i, (writeDisk (writeDisk st d buf size (b * st.diskBlockSize)) p buf2 size
      (b * st.diskBlockSize)).block i y o =
        if i = p ∧ y = b ∧ o < size then buf2 o
        else if i = d ∧ y = b ∧ o < size then buf o else st.block i y o := by
    intro i
    rw [← block_writeDisk st d b size buf hsize ho]
    exact block_writeDisk (writeDisk st d buf size (b * st.diskBlockSize)) p b size buf2 hsize ho
  by_cases hy : y = b ∧ o < size
  · obtain ⟨rfl, hlt⟩ := hy
    -- both blocks change by the sum of the old and the new data
    have hdelta : ∀ i, (writeDisk (writeDisk st d buf size (y * st.diskBlockSize)) p buf2 size
        (y * st.diskBlockSize)).block i y o = st.block i y o +
          ((if i = d then st.block d y o + buf o else 0) +
            if i = p then st.block d y o + buf o else 0) := by
      intro i
      rw [hblock i]
      by_cases hip : i = p
      · have hid : i ≠ d := fun h => hdp (h.symm.trans hip)
        rw [if_pos ⟨hip, rfl, hlt⟩, if_neg hid, if_pos hip, hbuf2 o hlt, hip, zero_add, add_comm]
      · rw [if_neg fun h => hip h.1, if_neg hip, add_zero]
        by_cases hid : i = d
        · rw [if_pos ⟨hid, rfl, hlt⟩, if_pos hid, hid, ← add_assoc,
            CharTwo.add_self_eq_zero, zero_add]
        · rw [if_neg fun h => hid h.1, if_neg hid, add_zero]
    change ∑ i ∈ Finset.range st.diskTotalNum, _ = 0
    rw [Finset.sum_congr rfl fun i _ => hdelta i, Finset.sum_add_distrib, Finset.sum_add_distrib,
      Finset.sum_ite_eq' _ d, Finset.sum_ite_eq' _ p, if_pos (Finset.mem_range.2 hd),
      if_pos (Finset.mem_range.2 hp), h y o ho, CharTwo.add_self_eq_zero, add_zero]
  · change ∑ i ∈ Finset.range st.diskTotalNum, _ = 0
    rw [← h y o ho]
    refine Finset.sum_congr rfl fun i _ => ?_
    rw [hblock i, if_neg fun h => hy h.2, if_neg fun h => hy h.2]

/-! ### RAID5 -/

section Raid5

variable {n : ℕ}

theorem raid5ParityDiskId_lt (hn : 0 < n) (b : ℕ) : raid5ParityDiskId n b < n := by
  rw [raid5ParityDiskId]
  omega

/-- The parity blocks of a disk do not follow each other. -/
theorem raid5ParityDiskId_succ_ne (hn : 2 ≤ n) {i b : ℕ} (h : i = raid5ParityDiskId n b) :
    i ≠ raid5ParityDiskId n (b + 1) := by
  have hlt := Nat.mod_lt b (show 0 < n by omega)
  rw [raid5ParityDiskId] at h ⊢
  rw [Nat.add_mod, Nat.mod_eq_of_lt (show 1 < n by omega)]
  rcases Nat.lt_or_ge (b % n + 1) n with hlt' | hge
  · rw [Nat.mod_eq_of_lt hlt']
    omega
  · rw [show b % n + 1 = n by omega, Nat.mod_self]
    omega

/-- After the disks have moved, no disk stands on a parity block, wherever it stood before. -/
theorem skip_ne_raid5ParityDiskId (hn : 2 ≤ n) (off : ℕ → ℕ) {i : ℕ} (hi : i < n) :
    i ≠ raid5ParityDiskId n
      (Frontier.skip n (fun i b => ¬ i = raid5ParityDiskId n b) off i) := by
  rw [Frontier.skip]
  by_cases h : i = raid5ParityDiskId n (off i)
  · rw [if_pos ⟨hi, not_not.2 h⟩]
    exact raid5ParityDiskId_succ_ne hn h
  · rw [if_neg fun hskip => hskip.2 h]
    exact h

/-- The places for data under RAID5. -/
def Raid5Data (n d b : ℕ) : Prop := d < n ∧ d ≠ raid5ParityDiskId n b

/-- No block is taken at a parity position. -/
theorem raid5Allocate_ok {st : NcfsState} (hn : 2 ≤ st.diskTotalNum) (req : ℕ)
    (hlist : ∀ x ∈ st.spaceList, Raid5Data st.diskTotalNum x.1 x.2) :
    Allocated (Raid5Data st.diskTotalNum) st (raid5Allocate st req) := by
  refine takeBlock_allocated (skipBlocks_same st _) (by rw [skipBlocks_eq]) (by rw [skipBlocks_eq])
    hlist (fun d b hsel => ?_) req
  obtain ⟨hd, hb⟩ := selectDisk_eq_some hsel
  have hd' : d < st.diskTotalNum := hd.trans_eq (skipBlocks_same st _).total_eq
  rw [skipBlocks_eq] at hb
  exact ⟨hd', hb ▸ skip_ne_raid5ParityDiskId hn st.freeOffset hd'⟩

theorem raid5Write_rowsZero {st : NcfsState} {d b size : ℕ} (buf : Buf)
    (hint : st.diskBlockSize % sizeofInt = 0) (hsize : size ≤ st.diskBlockSize)
    (hplace : Raid5Data st.diskTotalNum d b) (h : RowsZero st) :
    RowsZero (raid5Write buf size st d b) := by
  obtain ⟨hd, hdp⟩ := hplace
  refine rowsZero_write hd (raid5ParityDiskId_lt (by omega) b) hdp hsize (fun o ho => ?_) h
  -- a request is a whole number of integers
  have hround : o < roundToBlockSize st size := ho.trans_le (roundToBlockSize_le hsize).1
  have hbytes : intBytes (roundToBlockSize st size) = roundToBlockSize st size := by
    refine intBytes_eq (Nat.mod_eq_zero_of_dvd ((Nat.dvd_of_mod_eq_zero hint).trans ?_))
    rw [roundToBlockSize]
    split
    · exact ⟨size / st.diskBlockSize + 1, by
        have := Nat.div_add_mod size st.diskBlockSize
        rw [Nat.mul_add]
        omega⟩
    · rename_i hmod
      exact Nat.dvd_of_mod_eq_zero (not_not.1 hmod)
  rw [hbytes, xorBuf_of_lt _ _ hround, xorBuf_of_lt _ _ hround, readDisk_block _ _ _ _ _ hround,
    readDisk_block _ _ _ _ _ hround]

end Raid5

/-! ### RAID4 -/

/-- The places for data under RAID4. -/
def Raid4Data (n d _b : ℕ) : Prop := d < n ∧ d ≠ n - 1

/-- No block is taken on the last disk. -/
theorem raid4Allocate_ok {st : NcfsState} (req : ℕ)
    (hlist : ∀ x ∈ st.spaceList, Raid4Data st.diskTotalNum x.1 x.2) :
    Allocated (Raid4Data st.diskTotalNum) st (raid4Allocate st req) := by
  refine takeBlock_allocated .rfl rfl rfl hlist (fun d b hsel => ?_) req
  have hd := (selectDisk_eq_some hsel).1
  exact ⟨by omega, by omega⟩

theorem raid4Write_rowsZero {st : NcfsState} {d b size : ℕ} (buf : Buf)
    (hsize : size ≤ st.diskBlockSize) (hplace : Raid4Data st.diskTotalNum d b) (h : RowsZero st) :
    RowsZero (raid4Write buf size st d b) := by
  obtain ⟨hd, hdp⟩ := hplace
  refine rowsZero_write hd (show st.diskTotalNum - 1 < st.diskTotalNum by omega) hdp hsize
    (fun o ho => ?_) h
  have hround : o < roundToBlockSize st size := ho.trans_le (roundToBlockSize_le hsize).1
  have hparity : readDisk (writeDisk st d buf size (b * st.diskBlockSize)) (st.diskTotalNum - 1)
      (fun _ => 0) (roundToBlockSize st size) (b * st.diskBlockSize) o =
        st.block (st.diskTotalNum - 1) b o := by
    refine (readDisk_block (writeDisk st d buf size (b * st.diskBlockSize)) _ b _ _ hround).trans ?_
    rw [block_writeDisk st d b size buf hsize (ho.trans_le hsize), if_neg fun h => hdp h.1.symm]
  rw [xorBuf_of_lt _ _ hround, xorBuf_of_lt _ _ hround, readDisk_block _ _ _ _ _ hround]
  exact congrArg _ hparity

/-! ### Runs -/

theorem raid5_keeps {n k bs : ℕ} (hn : 2 ≤ n) (hint : bs % sizeofInt = 0) :
    Keeps n k bs (Raid5Data n) (fun size => size ≤ bs) RowsZero raid5Allocate raid5Write where
  alloc_ok st req htotal _ hlist := by
    subst htotal
    exact raid5Allocate_ok hn req hlist
  write_eq _ _ _ _ _ := rfl
  write_ok buf size st d b htotal _ hblock hsize hplace h := by
    subst htotal hblock
    exact raid5Write_rowsZero buf hint hsize hplace h
  same _ _ hsame _ h := h.same hsame

theorem raid4_keeps {n k bs : ℕ} :
    Keeps n k bs (Raid4Data n) (fun size => size ≤ bs) RowsZero raid4Allocate raid4Write where
  alloc_ok st req htotal _ hlist := by
    subst htotal
    exact raid4Allocate_ok req hlist
  write_eq _ _ _ _ _ := rfl
  write_ok buf size st d b htotal _ hblock hsize hplace h := by
    subst htotal hblock
    exact raid4Write_rowsZero buf hsize hplace h
  same _ _ hsame _ h := h.same hsame

/-- **Row parity.**  In every run of writes and frees from zero disks, the blocks of each row add up
to zero and no block in use is at the parity position of its row, under RAID5 as under RAID4. -/
theorem rowParity_run {n bs : ℕ} (hn : 2 ≤ n) (hint : bs % sizeofInt = 0) {st : NcfsState}
    (htotal : st.diskTotalNum = n) (hblock : st.diskBlockSize = bs) (hlist : st.spaceList = [])
    (hzero : ∀ d < n, ∀ x, st.disk d x = 0) {ops : List StoreOp}
    (hops : ∀ op ∈ ops, op.Sized fun size => size ≤ bs) :
    let s₅ := Machine.run (storeStep Coding4Raid5.encode) ⟨st, []⟩ ops
    let s₄ := Machine.run (storeStep Coding4Raid4.encode) ⟨st, []⟩ ops
    ((∀ b, ∀ o < bs, ∑ i ∈ Finset.range n, s₅.st.block i b o = 0) ∧
      ∀ d b, (d, b) ∈ s₅.returned → d < n ∧ d ≠ n - 1 - b % n) ∧
    ((∀ b, ∀ o < bs, ∑ i ∈ Finset.range n, s₄.st.block i b o = 0) ∧
      ∀ d b, (d, b) ∈ s₄.returned → d < n ∧ d ≠ n - 1) := by
  have hrows : RowsZero st := .of_zero (htotal.symm ▸ hzero)
  have hplaced : ∀ place, Placed n st.dataDiskNum bs place ⟨st, []⟩ := fun place =>
    ⟨htotal, rfl, hblock, by simp [hlist], by simp⟩
  obtain ⟨hs₅, hP₅⟩ := (raid5_keeps hn hint).run (hplaced _) hrows hops
  obtain ⟨hs₄, hP₄⟩ := raid4_keeps.run (hplaced _) hrows hops
  refine ⟨⟨fun b o ho => ?_, fun d b hdb => hs₅.returned_place _ hdb⟩,
    ⟨fun b o ho => ?_, fun d b hdb => hs₄.returned_place _ hdb⟩⟩
  · have := hP₅ b o (by rw [hs₅.block_eq]; exact ho)
    rwa [hs₅.total_eq] at this
  · have := hP₄ b o (by rw [hs₄.block_eq]; exact ho)
    rwa [hs₄.total_eq] at this

/-- Three disks: a write, a free and a write. -/
theorem rowParity_run_three :
    let st := NcfsState.blank 3 2 4 (by decide) 8
    let ops : List StoreOp := [.encode (fun _ => Byte.ofNat 5) 4, .free 0 0,
      .encode (fun _ => Byte.ofNat 6) 4]
    let s₅ := Machine.run (storeStep Coding4Raid5.encode) ⟨st, []⟩ ops
    let s₄ := Machine.run (storeStep Coding4Raid4.encode) ⟨st, []⟩ ops
    ((∀ b, ∀ o < 4, ∑ i ∈ Finset.range 3, s₅.st.block i b o = 0) ∧
      ∀ d b, (d, b) ∈ s₅.returned → d < 3 ∧ d ≠ 3 - 1 - b % 3) ∧
    ((∀ b, ∀ o < 4, ∑ i ∈ Finset.range 3, s₄.st.block i b o = 0) ∧
      ∀ d b, (d, b) ∈ s₄.returned → d < 3 ∧ d ≠ 3 - 1) := by
  intro st ops
  refine @rowParity_run 3 4 (by decide) (by decide) st rfl rfl rfl (fun _ _ _ => rfl) ops
    fun op hop => ?_
  simp only [ops, List.mem_cons, List.not_mem_nil, or_false] at hop
  rcases hop with rfl | rfl | rfl
  · exact le_rfl
  · trivial
  · exact le_rfl

end Ncfs
