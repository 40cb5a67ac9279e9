/-
Reed-Solomon coding over GF(256).

The first `k` disks hold data, the others a combination of the data blocks of each row with a row of
the generator matrix.  `encode` adds to each code block the difference of the new and the old data.
`decode` multiplies the surviving blocks by a row of the decoding matrix, the row of the lost disk;
but the matrix has rows for data disks only, so that a lost code disk makes it read behind the
matrix.

Main definitions:

* `Ncfs.rsSelect`, `Ncfs.rsWrite`, `Ncfs.Coding4RS.encode` — writing a block;
* `Ncfs.Coding4RS.decode` — reading a block of a failed disk;
* `Ncfs.RsRow`, `Ncfs.RsParity` — the equations of a byte of a row, and of a store.

Main results:

* `Ncfs.block_rsWrite` — what a write makes of every block;
* `Ncfs.Coding4RS.encode_run_parity` — the equations hold in runs of writes and frees;
* `Ncfs.Coding4RS.decode_data` — a lost data block comes back;
* `Ncfs.Coding4RS.decode_iff` — a lost block comes back exactly when it is a data block.
-/
import FuseMdr.BlockAllocator
import FuseMdr.Jerasure
import FuseMdr.Raid6Decode

set_option relaxedAutoImplicit false
set_option autoImplicit false

namespace Ncfs

/-! ### Writing a block -/

/-- The loop that chooses a disk, from the last data disk to the first.  A disk is taken when its
free offset is not a multiple of `k - 1`, or is below that of disk `0`; disk `0` is taken when no
other disk was.  With one data disk the source divides by zero here, which ends the process: the
definition still has a value, but no call returns it, and results about runs ask for two data
disks. -/
def rsSelect (st : NcfsState) (blockRequest : ℕ) : Option (ℕ × ℕ) :=
  (List.range st.dataDiskNum).reverse.foldl (fun selected i =>
    if (blockRequest : ℤ) ≤ st.freeSize i then
      if st.freeOffset i % (st.dataDiskNum - 1) ≠ 0 then some (i, st.freeOffset i)
      else if st.freeOffset i < st.freeOffset 0 then some (i, st.freeOffset i)
      else if i = 0 ∧ selected = none then some (i, st.freeOffset i)
      else selected
    else selected) none

/-- The choice of a block. -/
def rsAllocate (st : NcfsState) (blockRequest : ℕ) : Option (ℕ × ℕ) × NcfsState :=
  takeBlock st (rsSelect st blockRequest) blockRequest

/-- One pass of the loop over the code disks: `bufRead` holds the difference of the new and the old
data. -/
def rsUpdateCode (J : Jerasure) (matrix : ℕ → ℕ) (bufRead : Buf)
    (size sizeRequest diskId offset : ℕ) (st : NcfsState) (i : ℕ) : NcfsState :=
  let dataDiskCoeff := matrix (i * st.dataDiskNum + diskId)
  let bufTemp := galoisBuf J sizeRequest dataDiskCoeff bufRead
  let parityDiskId := st.dataDiskNum + i
  let bufWrite := readDisk st parityDiskId (fun _ => 0) sizeRequest offset
  writeDisk st parityDiskId (xorBuf sizeRequest bufWrite bufTemp) size offset

/-- The part of `Coding4RS::encode` after the block has been chosen. -/
def rsWrite (J : Jerasure) (matrix : ℕ → ℕ) (buf : Buf) (size : ℕ) (st : NcfsState)
    (diskId blockNo : ℕ) : NcfsState :=
  let faultTolerance := st.diskTotalNum - st.dataDiskNum
  let sizeRequest := roundToBlockSize st size
  let offset := blockNo * st.diskBlockSize
  let bufRead := xorBuf sizeRequest (readDisk st diskId (fun _ => 0) sizeRequest offset) buf
  let st := writeDisk st diskId buf size offset
  (List.range faultTolerance).foldl
    (rsUpdateCode J matrix bufRead size sizeRequest diskId offset) st

/-- `Coding4RS::encode`. -/
def Coding4RS.encode (J : Jerasure) (matrix : ℕ → ℕ) :
    NcfsState → Buf → ℕ → Option (ℕ × ℕ) × NcfsState :=
  encodeWith rsAllocate (rsWrite J matrix)

/-! ### Reading a block -/

/-- One pass of the loop over the chosen survivors.  The matrix has `k * k` entries. -/
def rsAddSurvivor (J : Jerasure) (st : NcfsState) (decodingMatrix : ℕ → ℕ) (ids : List ℕ)
    (diskId size location : ℕ) (buf : Buf) (i : ℕ) : Except CodingError Buf := do
  let k := st.dataDiskNum
  let efficient ←
    if k * diskId + i < k * k then .ok (decodingMatrix (k * diskId + i)) else .error .undefined
  let tempBuf := readDisk st (ids.getD i 0) (fun _ => 0) size location
  .ok (xorBuf (intBytes size) buf (galoisBuf J size efficient tempBuf))

/-- `Coding4RS::decode`. -/
def Coding4RS.decode (J : Jerasure) (matrix : ℕ → ℕ) (st : NcfsState) (diskId : ℕ) (buf : Buf)
    (size offset : ℕ) : Except CodingError Buf :=
  if st.diskStatus diskId = 0 then .ok (readDisk st diskId buf size offset)
  else do
    let k := st.dataDiskNum
    let blockNo := offset / st.diskBlockSize
    let blockOffset := offset - blockNo * st.diskBlockSize
    let location := blockNo * st.diskBlockSize + blockOffset
    let erased := fun i => if st.diskStatus i = 1 then 1 else 0
    let (decodingMatrix, ids) ← J.makeDecodingMatrix k (st.diskTotalNum - k) matrix erased
    (List.range k).foldlM (rsAddSurvivor J st decodingMatrix ids diskId size location)
      (memset0 buf size)

/-! ### The equations -/

/-- The coefficient of data disk `j` in code disk `k + i`, as a byte. -/
def rsCoeff (matrix : ℕ → ℕ) (k i j : ℕ) : Byte := Byte.ofNat (matrix (i * k + j))

/-- Byte `o` of the code blocks of row `b` is the combination of the data. -/
def RsRow (matrix : ℕ → ℕ) (st : NcfsState) (b o : ℕ) : Prop :=
  ∀ i < st.diskTotalNum - st.dataDiskNum, st.block (st.dataDiskNum + i) b o =
    ∑ j ∈ Finset.range st.dataDiskNum, rsCoeff matrix st.dataDiskNum i j * st.block j b o

/-- Every byte of every row. -/
def RsParity (matrix : ℕ → ℕ) (st : NcfsState) : Prop :=
  ∀ b, ∀ o < st.diskBlockSize, RsRow matrix st b o

theorem RsParity.same {matrix : ℕ → ℕ} {st st' : NcfsState} (h : RsParity matrix st)
    (hsame : SameDevices st st') (hdata : st'.dataDiskNum = st.dataDiskNum) :
    RsParity matrix st' := by
  intro b o ho i hi
  rw [hsame.block_eq] at ho
  rw [hsame.total_eq, hdata] at hi
  rw [hdata, hsame.block, h b o ho i hi]
  exact Finset.sum_congr rfl fun j _ => by rw [hsame.block]

theorem RsParity.of_zero {matrix : ℕ → ℕ} {st : NcfsState}
    (hzero : ∀ d < st.diskTotalNum, ∀ x, st.disk d x = 0) : RsParity matrix st := by
  intro b o _ i hi
  have hcode : st.block (st.dataDiskNum + i) b o = 0 := hzero _ (by omega) _
  rw [hcode]
  refine (Finset.sum_eq_zero fun j hj => ?_).symm
  have hj := Finset.mem_range.1 hj
  have hdata : st.block j b o = 0 := hzero j (by omega) _
  rw [hdata, mul_zero]

/-! ### What a write does -/

section Write

variable {J : Jerasure} {matrix : ℕ → ℕ} {st : NcfsState} {d b size : ℕ}

/-- The passes of the loop over the code disks add the multiples of the difference to the first of
them. -/
theorem foldl_rsUpdateCode (hJ : J.Multiplies) (hmatrix : ∀ i, matrix i < 256)
    (hsize : size ≤ st.diskBlockSize) (bufRead : Buf) {sizeRequest : ℕ}
    (hround : size ≤ sizeRequest) (t : ℕ) :
    ∃ disk, (List.range t).foldl
        (rsUpdateCode J matrix bufRead size sizeRequest d (b * st.diskBlockSize)) st =
          { st with disk := disk } ∧
      ∀ x y, ∀ o < st.diskBlockSize, ({ st with disk := disk } : NcfsState).block x y o =
        if y = b ∧ o < size ∧ st.dataDiskNum ≤ x ∧ x < st.dataDiskNum + t then
          st.block x y o + rsCoeff matrix st.dataDiskNum (x - st.dataDiskNum) d * bufRead o
        else st.block x y o := by
  induction t with
  | zero =>
      refine ⟨st.disk, rfl, fun x y o _ => ?_⟩
      rw [if_neg (by omega)]
  | succ t ih =>
      obtain ⟨disk, hfold, hblock⟩ := ih
      rw [List.range_succ, List.foldl_append, hfold, List.foldl_cons, List.foldl_nil]
      refine ⟨_, rfl, fun x y o ho => ?_⟩
      refine (block_writeDisk ({ st with disk := disk } : NcfsState)
        (st.dataDiskNum + t) b size _ hsize ho).trans ?_
      by_cases hx : x = st.dataDiskNum + t ∧ y = b ∧ o < size
      · obtain ⟨rfl, rfl, hlt⟩ := hx
        have hbuf : o < sizeRequest := hlt.trans_le hround
        rw [if_pos ⟨rfl, rfl, hlt⟩, if_pos ⟨rfl, hlt, by omega, by omega⟩, xorBuf_of_lt _ _ hbuf,
          galoisBuf_of_lt hJ (hmatrix _) hbuf, Nat.add_sub_cancel_left]
        congr 1
        refine (readDisk_block ({ st with disk := disk } : NcfsState) (st.dataDiskNum + t) y _ _
          hbuf).trans ?_
        rw [hblock _ _ _ ho, if_neg (by omega)]
      · rw [if_neg hx, hblock _ _ _ ho]
        by_cases hx' : y = b ∧ o < size ∧ st.dataDiskNum ≤ x ∧ x < st.dataDiskNum + t
        · rw [if_pos hx', if_pos (by omega)]
        · rw [if_neg hx', if_neg (by omega)]

/-- A write changes the data block, and each code block of the row by the coefficient times the
difference. -/
theorem block_rsWrite (hJ : J.Multiplies) (hmatrix : ∀ i, matrix i < 256)
    (hsize : size ≤ st.diskBlockSize) (hd : d < st.dataDiskNum) (buf : Buf) :
    ∃ disk, rsWrite J matrix buf size st d b = { st with disk := disk } ∧
      ∀ x < st.diskTotalNum, ∀ y, ∀ o < st.diskBlockSize,
        ({ st with disk := disk } : NcfsState).block x y o =
          if y = b ∧ o < size then
            if x < st.dataDiskNum then if x = d then buf o else st.block x y o
            else st.block x y o +
              rsCoeff matrix st.dataDiskNum (x - st.dataDiskNum) d * (st.block d b o + buf o)
          else st.block x y o := by
  have hround := (roundToBlockSize_le hsize).1
  obtain ⟨disk, hfold, hblock⟩ := @foldl_rsUpdateCode J matrix
    (writeDisk st d buf size (b * st.diskBlockSize)) d b size hJ hmatrix hsize
    (xorBuf (roundToBlockSize st size)
      (readDisk st d (fun _ => 0) (roundToBlockSize st size) (b * st.diskBlockSize)) buf)
    (roundToBlockSize st size) hround (st.diskTotalNum - st.dataDiskNum)
  refine ⟨disk, hfold, fun x hx y o ho => (hblock x y o ho).trans ?_⟩
  rw [block_writeDisk st d b size buf hsize ho]
  change (if y = b ∧ o < size ∧ st.dataDiskNum ≤ x ∧
    x < st.dataDiskNum + (st.diskTotalNum - st.dataDiskNum) then _ else _) = _
  by_cases hy : y = b ∧ o < size
  · obtain ⟨rfl, hlt⟩ := hy
    by_cases hxk : x < st.dataDiskNum
    · rw [if_neg (by omega)]
      by_cases hxd : x = d
      · rw [if_pos ⟨hxd, rfl, hlt⟩, if_pos ⟨rfl, hlt⟩, if_pos hxk, if_pos hxd]
      · rw [if_neg fun h => hxd h.1, if_pos ⟨rfl, hlt⟩, if_pos hxk, if_neg hxd]
    · rw [if_pos (by omega), if_neg (by omega), if_pos ⟨rfl, hlt⟩, if_neg hxk,
        xorBuf_of_lt _ _ (hlt.trans_le hround), readDisk_block _ _ _ _ _ (hlt.trans_le hround)]
      rfl
  · rw [if_neg (by omega), if_neg (by omega), if_neg hy]

/-- A row whose data byte `d` is written over, with the multiples of the difference added to the
code bytes. -/
theorem RsRow.update {disk : ℕ → ℕ → Byte} {y o : ℕ} (hd : d < st.dataDiskNum) {v : Byte}
    (hdata : ∀ j < st.dataDiskNum, ({ st with disk := disk } : NcfsState).block j y o =
      if j = d then v else st.block j y o)
    (hcode : ∀ i < st.diskTotalNum - st.dataDiskNum,
      ({ st with disk := disk } : NcfsState).block (st.dataDiskNum + i) y o =
        st.block (st.dataDiskNum + i) y o +
          rsCoeff matrix st.dataDiskNum i d * (st.block d y o + v))
    (h : RsRow matrix st y o) : RsRow matrix { st with disk := disk } y o := by
  intro i hi
  have hi : i < st.diskTotalNum - st.dataDiskNum := hi
  change ({ st with disk := disk } : NcfsState).block (st.dataDiskNum + i) y o =
    ∑ j ∈ Finset.range st.dataDiskNum,
      rsCoeff matrix st.dataDiskNum i j * ({ st with disk := disk } : NcfsState).block j y o
  have hsum : ∑ j ∈ Finset.range st.dataDiskNum,
      rsCoeff matrix st.dataDiskNum i j * ({ st with disk := disk } : NcfsState).block j y o =
      ∑ j ∈ Finset.range st.dataDiskNum, rsCoeff matrix st.dataDiskNum i j *
        Function.update (fun j => st.block j y o) d v j := by
    refine Finset.sum_congr rfl fun j hj => ?_
    rw [hdata j (Finset.mem_range.1 hj), Function.update_apply]
  rw [hsum, LinearCode.sum_update hd, hcode i hi, h i hi, CharTwo.sub_eq_add, add_comm v]

/-- A row that is not written. -/
theorem RsRow.congr {disk : ℕ → ℕ → Byte} {y o : ℕ} (hk : st.dataDiskNum ≤ st.diskTotalNum)
    (hblock : ∀ x < st.diskTotalNum,
      ({ st with disk := disk } : NcfsState).block x y o = st.block x y o)
    (h : RsRow matrix st y o) : RsRow matrix { st with disk := disk } y o := by
  intro i hi
  have hi : i < st.diskTotalNum - st.dataDiskNum := hi
  have hcode : st.dataDiskNum + i < st.diskTotalNum := by omega
  refine (hblock _ hcode).trans ((h i hi).trans (Finset.sum_congr rfl fun j hj => ?_))
  have hj : j < st.dataDiskNum := Finset.mem_range.1 hj
  rw [← hblock j (hj.trans_le hk)]

/-- A write keeps the equations. -/
theorem RsParity.rsWrite (hJ : J.Multiplies) (hmatrix : ∀ i, matrix i < 256)
    (hsize : size ≤ st.diskBlockSize) (hd : d < st.dataDiskNum)
    (hn : st.dataDiskNum ≤ st.diskTotalNum)
    (buf : Buf) (h : RsParity matrix st) : RsParity matrix (rsWrite J matrix buf size st d b) := by
  obtain ⟨disk, heq, hblock⟩ := @block_rsWrite J matrix st d b size hJ hmatrix hsize hd buf
  rw [heq]
  intro y o ho
  by_cases hy : y = b ∧ o < size
  · obtain ⟨rfl, hlt⟩ := hy
    refine (h y o ho).update (v := buf o) hd (fun j hj => ?_) fun i hi => ?_
    · rw [hblock j (by omega) y o ho, if_pos ⟨rfl, hlt⟩, if_pos hj]
    · rw [hblock _ (by omega) y o ho, if_pos ⟨rfl, hlt⟩, if_neg (by omega), Nat.add_sub_cancel_left]
  · refine (h y o ho).congr hn fun x hx => ?_
    rw [hblock x hx y o ho, if_neg hy]

end Write

/-! ### Runs -/

/-- A selected block is the first free one of a data disk with room. -/
theorem rsSelect_some {st : NcfsState} {req d b : ℕ} (h : rsSelect st req = some (d, b)) :
    d < st.dataDiskNum ∧ b = st.freeOffset d ∧ (req : ℤ) ≤ st.freeSize d := by
  refine Loops.foldl_inv (fun selected : Option (ℕ × ℕ) =>
    ∀ d b, selected = some (d, b) → d < st.dataDiskNum ∧ b = st.freeOffset d ∧
      (req : ℤ) ≤ st.freeSize d)
    (fun selected i hi hselected d b hdb => ?_) (fun d b hdb => by cases hdb) d b h
  have hi : i < st.dataDiskNum := List.mem_range.1 (List.mem_reverse.1 hi)
  split at hdb
  · rename_i hroom
    have htaken : some (i, st.freeOffset i) = some (d, b) →
        d < st.dataDiskNum ∧ b = st.freeOffset d ∧ (req : ℤ) ≤ st.freeSize d := by
      intro h
      obtain ⟨rfl, rfl⟩ := Prod.mk.inj (Option.some.inj h)
      exact ⟨hi, rfl, hroom⟩
    split at hdb
    · exact htaken hdb
    · split at hdb
      · exact htaken hdb
      · split at hdb
        · exact htaken hdb
        · exact hselected d b hdb
  · exact hselected d b hdb

/-- Writing a block changes the devices only. -/
theorem rsWrite_eq (J : Jerasure) (matrix : ℕ → ℕ) (buf : Buf) (size : ℕ) (st : NcfsState)
    (d b : ℕ) :
    rsWrite J matrix buf size st d b =
    { st with disk := (rsWrite J matrix buf size st d b).disk } := by
  rw [rsWrite]
  refine Loops.foldl_inv (fun st' : NcfsState => st' = { st with disk := st'.disk })
    (fun st' i _ h => ?_) rfl
  rw [rsUpdateCode, writeDisk, h]

/-- Blocks are taken on data disks. -/
theorem rsAllocate_ok {st : NcfsState} (req : ℕ)
    (hlist : ∀ x ∈ st.spaceList, x.1 < st.dataDiskNum) :
    Allocated (fun d _ => d < st.dataDiskNum) st (rsAllocate st req) :=
  takeBlock_allocated .rfl rfl rfl hlist (fun _ _ hsel => (rsSelect_some hsel).1) req

theorem rs_keeps {J : Jerasure} {matrix : ℕ → ℕ} (hJ : J.Multiplies) (hmatrix : ∀ i, matrix i < 256)
    {k m bs : ℕ} : Keeps (k + m) k bs (fun d _ => d < k) (fun size => size ≤ bs) (RsParity matrix)
      rsAllocate (rsWrite J matrix) where
  alloc_ok st req _ hdata hlist := by
    subst hdata
    exact rsAllocate_ok req hlist
  write_eq := rsWrite_eq J matrix
  write_ok buf size st d b htotal hdata hblock hsize hplace h := by
    subst hdata hblock
    exact h.rsWrite hJ hmatrix hsize hplace (by omega) buf
  same _ _ hsame hdata h := h.same hsame hdata

/-- **The code blocks of a run.**  For `k ≥ 2` data and `m` code disks, in every run of writes and
frees from zero disks, each byte of code disk `k + i` is the combination of the data bytes with row
`i` of the generator matrix.  With a single data disk the choice of a disk would divide by zero. -/
theorem Coding4RS.encode_run_parity {J : Jerasure} {matrix : ℕ → ℕ} (hJ : J.Multiplies)
    (hmatrix : ∀ i, matrix i < 256) {k m bs : ℕ} (_hk : 2 ≤ k) {st : NcfsState}
    (htotal : st.diskTotalNum = k + m) (hdata : st.dataDiskNum = k) (hblock : st.diskBlockSize = bs)
    (hlist : st.spaceList = []) (hzero : ∀ d < k + m, ∀ x, st.disk d x = 0) {ops : List StoreOp}
    (hops : ∀ op ∈ ops, op.Sized fun size => size ≤ bs) :
    let s := Machine.run (storeStep (Coding4RS.encode J matrix)) ⟨st, []⟩ ops
    ∀ b, ∀ o < bs, ∀ i < m, s.st.block (k + i) b o =
      ∑ j ∈ Finset.range k, Byte.ofNat (matrix (i * k + j)) * s.st.block j b o := by
  have hplaced : Placed (k + m) k bs (fun d _ => d < k) ⟨st, []⟩ :=
    ⟨htotal, hdata, hblock, by simp [hlist], by simp⟩
  obtain ⟨hs, hP⟩ := (rs_keeps hJ hmatrix).run hplaced (RsParity.of_zero (htotal.symm ▸ hzero)) hops
  intro s b o ho i hi
  have h := hP b o (by rw [hs.block_eq]; exact ho) i (by rw [hs.total_eq, hs.data_eq]; omega)
  rw [hs.data_eq] at h
  exact h

/-- Two data disks and one code disk: a write, a free and a write. -/
theorem Coding4RS.encode_run_parity_three :
    let st := NcfsState.blank 3 2 4 (by decide) 8
    let ops : List StoreOp := [.encode (fun _ => Byte.ofNat 5) 4, .free 0 0,
      .encode (fun _ => Byte.ofNat 6) 4]
    let s := Machine.run (storeStep (Coding4RS.encode .sample fun _ => 1)) ⟨st, []⟩ ops
    ∀ b, ∀ o < 4, ∀ i < 1, s.st.block (2 + i) b o =
      ∑ j ∈ Finset.range 2, Byte.ofNat ((fun _ => 1) (i * 2 + j)) * s.st.block j b o := by
  intro st ops
  refine @Coding4RS.encode_run_parity .sample (fun _ => 1) Jerasure.sample_multiplies
    (fun _ => by decide) 2 1 4 le_rfl st rfl rfl rfl rfl (fun _ _ _ => rfl) ops fun op hop => ?_
  simp only [ops, List.mem_cons, List.not_mem_nil, or_false] at hop
  rcases hop with rfl | rfl | rfl
  · exact le_rfl
  · trivial
  · exact le_rfl

/-! ### Reading a lost block -/

/-- The flags of the failed disks. -/
def failedFlag (F : Finset ℕ) (i : ℕ) : ℕ := if i ∈ F then 1 else 0

section Decode

variable {J : Jerasure} {matrix : ℕ → ℕ} {k m b a : ℕ} {st : NcfsState} {F : Finset ℕ}

theorem rsAddSurvivor_eq (decodingMatrix : ℕ → ℕ) (ids : List ℕ) (diskId size location : ℕ) :
    rsAddSurvivor J st decodingMatrix ids diskId size location =
      addSurvivor J st.dataDiskNum diskId size decodingMatrix fun i =>
        readDisk st (ids.getD i 0) (fun _ => 0) size location := rfl

/-- The disks that survive, counted. -/
theorem card_failedFlag {n : ℕ} (hF : F ⊆ Finset.range n) :
    ((Finset.range n).filter fun i => failedFlag F i = 0).card = n - F.card := by
  have hfilter : (Finset.range n).filter (fun i => failedFlag F i = 0) = Finset.range n \ F := by
    ext i
    simp [failedFlag]
  rw [hfilter, Finset.card_sdiff_of_subset hF, Finset.card_range]

/-- With no more than `m` failed disks, `k` disks survive. -/
theorem card_survivors (hF : F ⊆ Finset.range (k + m)) (hcard : F.card ≤ m) :
    k ≤ ((Finset.range (k + m)).filter fun i => failedFlag F i = 0).card := by
  rw [card_failedFlag hF]
  omega

/-- What `decode` does for a failed disk: it adds up the survivors. -/
theorem Coding4RS.decode_fail (hdata : st.dataDiskNum = k) (htotal : st.diskTotalNum = k + m)
    (ha : a ∈ F) {decodingMatrix : ℕ → ℕ} {ids : List ℕ}
    (hmatrix : J.makeDecodingMatrix k m matrix (failedFlag F) = .ok (decodingMatrix, ids))
    (junk : ℕ → ℕ → Byte) (buf : Buf) (size : ℕ) :
    Coding4RS.decode J matrix (st.fail F junk) a buf size (b * st.diskBlockSize) =
      (List.range k).foldlM (rsAddSurvivor J (st.fail F junk) decodingMatrix ids a size
        (b * st.diskBlockSize)) (memset0 buf size) := by
  have hstatus : (st.fail F junk).diskStatus a ≠ 0 := fail_diskStatus_ne_zero ha
  have hflag : (fun i => if (st.fail F junk).diskStatus i = 1 then 1 else 0) = failedFlag F := by
    funext i
    rw [fail_diskStatus, failedFlag]
    split <;> rfl
  have hfail : (st.fail F junk).dataDiskNum = k := hdata
  have hblockNo := Nat.mul_div_cancel b st.diskBlockSize_pos
  rw [decode, if_neg hstatus]
  simp only [hflag, hfail, fail_diskTotalNum, fail_diskBlockSize, hblockNo, htotal,
    Nat.add_sub_cancel_left, Nat.sub_self, Nat.add_zero, hmatrix, Loops.ok_bind]

/-- A lost data block comes back in whole integers. -/
theorem Coding4RS.decode_words (hJ : J.Multiplies) (hdata : st.dataDiskNum = k)
    (htotal : st.diskTotalNum = k + m) {size : ℕ} (hrow : ∀ o < size, RsRow matrix st b o)
    (hF : F ⊆ Finset.range (k + m)) (hcard : F.card ≤ m)
    (hinv : ∀ ids, dmIds k (k + m) (failedFlag F) = .ok ids →
      J.Inverts (survivorRows k matrix ids) k)
    (ha : a ∈ F) (hak : a < k) (junk : ℕ → ℕ → Byte) (buf : Buf) :
    ∃ out, Coding4RS.decode J matrix (st.fail F junk) a buf size (b * st.diskBlockSize) = .ok out ∧
      ∀ o < size, out o = if o < intBytes size then st.block a b o else 0 := by
  obtain ⟨inv, ids, hdm, hlen, hids, hbyte, hsolve⟩ :=
    J.makeDecodingMatrix_ok (card_survivors hF hcard) hinv
  rw [Coding4RS.decode_fail hdata htotal ha hdm]
  have hfail : (st.fail F junk).dataDiskNum = k := hdata
  rw [rsAddSurvivor_eq, hfail]
  obtain ⟨out, hok, hout⟩ := foldlM_addSurvivor_words hJ hak hbyte
    (fun i => readDisk (st.fail F junk) (ids.getD i 0) (fun _ => 0) size (b * st.diskBlockSize)) buf
  refine ⟨out, hok, fun o ho => (hout o ho).trans (if_congr Iff.rfl ?_ rfl)⟩
  rw [← hsolve (fun j => st.block j b o)
    (fun i => ∑ j ∈ Finset.range k, Byte.ofNat (matrix (i * k + j)) * st.block j b o)
      (fun _ => rfl) a hak]
  refine Finset.sum_congr rfl fun l hl => ?_
  have hl := Finset.mem_range.1 hl
  obtain ⟨hlt, hsurvives⟩ := hids _ (getD_mem (show l < ids.length by omega))
  have hnot : ids.getD l 0 ∉ F := by
    intro hmem
    rw [failedFlag, if_pos hmem] at hsurvives
    exact one_ne_zero hsurvives
  rw [readDisk_fail hnot ho]
  congr 1
  by_cases hk : ids.getD l 0 < k
  · rw [if_pos hk]
  · rw [if_neg hk]
    have hcode := hrow o ho (ids.getD l 0 - k) (by omega)
    rw [hdata, Nat.add_sub_cancel' (by omega)] at hcode
    exact hcode

/-- A lost data block comes back. -/
theorem Coding4RS.decode_data (hJ : J.Multiplies) (hdata : st.dataDiskNum = k)
    (htotal : st.diskTotalNum = k + m) (hint : st.diskBlockSize % sizeofInt = 0)
    (hrow : ∀ o < st.diskBlockSize, RsRow matrix st b o) (hF : F ⊆ Finset.range (k + m))
    (hcard : F.card ≤ m) (hinv : ∀ ids, dmIds k (k + m) (failedFlag F) = .ok ids →
      J.Inverts (survivorRows k matrix ids) k)
    (ha : a ∈ F) (hak : a < k) (junk : ℕ → ℕ → Byte) (buf : Buf) :
    ∃ out, Coding4RS.decode J matrix (st.fail F junk) a buf st.diskBlockSize
      (b * st.diskBlockSize) =
        .ok out ∧ ∀ o < st.diskBlockSize, out o = st.block a b o := by
  obtain ⟨out, hok, hout⟩ :=
    Coding4RS.decode_words hJ hdata htotal hrow hF hcard hinv ha hak junk buf
  refine ⟨out, hok, fun o ho => (hout o ho).trans (if_pos ?_)⟩
  rwa [intBytes_eq hint]

/-- For a lost code disk `decode` reads behind the decoding matrix. -/
theorem Coding4RS.decode_code (hk : 0 < k) (hdata : st.dataDiskNum = k)
    (htotal : st.diskTotalNum = k + m) (hF : F ⊆ Finset.range (k + m)) (hcard : F.card ≤ m)
    (hinv : ∀ ids, dmIds k (k + m) (failedFlag F) = .ok ids →
      J.Inverts (survivorRows k matrix ids) k)
    (ha : a ∈ F) (hak : k ≤ a) (junk : ℕ → ℕ → Byte) (buf : Buf) :
    Coding4RS.decode J matrix (st.fail F junk) a buf st.diskBlockSize (b * st.diskBlockSize) =
      .error .undefined := by
  obtain ⟨inv, ids, hdm, -⟩ := J.makeDecodingMatrix_ok (card_survivors hF hcard) hinv
  have hfail : (st.fail F junk).dataDiskNum = k := hdata
  rw [Coding4RS.decode_fail hdata htotal ha hdm, rsAddSurvivor_eq, hfail]
  exact foldlM_addSurvivor_error J hk hak _ _ _

/-- **What `decode` returns.**  In a row that satisfies its equations, with no more than `m` failed
disks, `decode` returns the block of a failed disk exactly when the disk holds data. -/
theorem Coding4RS.decode_iff (hJ : J.Multiplies) (hk : 0 < k) (hdata : st.dataDiskNum = k)
    (htotal : st.diskTotalNum = k + m) (hint : st.diskBlockSize % sizeofInt = 0)
    (hrow : ∀ o < st.diskBlockSize, RsRow matrix st b o) (hF : F ⊆ Finset.range (k + m))
    (hcard : F.card ≤ m) (hinv : ∀ ids, dmIds k (k + m) (failedFlag F) = .ok ids →
      J.Inverts (survivorRows k matrix ids) k)
    (ha : a ∈ F) (junk : ℕ → ℕ → Byte) (buf : Buf) :
    (∃ out, Coding4RS.decode J matrix (st.fail F junk) a buf st.diskBlockSize
      (b * st.diskBlockSize) =
        .ok out ∧ ∀ o < st.diskBlockSize, out o = st.block a b o) ↔ a < k := by
  constructor
  · rintro ⟨out, hok, -⟩
    by_contra hak
    rw [Coding4RS.decode_code hk hdata htotal hF hcard hinv ha (not_lt.1 hak)] at hok
    cases hok
  · intro hak
    exact Coding4RS.decode_data hJ hdata htotal hint hrow hF hcard hinv ha hak junk buf

end Decode

/-! ### Two data disks and one code disk -/

/-- Two data disks and one code disk with blocks of four bytes after a write. -/
def rsSample : NcfsState :=
  (Coding4RS.encode .sample (fun _ => 1) (NcfsState.blank 3 2 4 fourBytes_pos 8)
    (fun _ => Byte.ofNat 5) 4).2

theorem rsSample_row : ∀ o < 4, RsRow (fun _ => 1) rsSample 0 o := by
  have hzero : RsParity (fun _ => 1) (NcfsState.blank 3 2 4 (by decide) 8) :=
    .of_zero fun _ _ _ => rfl
  have hplaced : Placed (2 + 1) 2 4 (fun d _ => d < 2) ⟨NcfsState.blank 3 2 4 (by decide) 8, []⟩ :=
    ⟨rfl, rfl, rfl, by simp [NcfsState.blank], by simp⟩
  have hop : (StoreOp.encode (fun _ => Byte.ofNat 5) 4).Sized fun size => size ≤ 4 := le_refl 4
  have hkeeps := @rs_keeps .sample (fun _ => 1) Jerasure.sample_multiplies
    (fun _ => by decide) 2 1 4
  have hstep := (hkeeps.step hplaced hzero hop).2
  rw [storeStep, Served.serve_st] at hstep
  exact hstep 0

/-- The sample inverts the rows of a data cell and the code cell. -/
theorem sample_inverts_code : Jerasure.sample.Inverts (survivorRows 2 (fun _ => 1) [1, 2]) 2 := by
  refine ⟨fun i => if i = 3 then 0 else 1, rfl, fun i _ => ?_, fun d hd i hi => ?_⟩
  · dsimp only
    split <;> decide
  · have hone : Byte.ofNat 1 = 1 := rfl
    have hnil : Byte.ofNat 0 = 0 := rfl
    interval_cases d <;> interval_cases i <;>
      simp [Finset.sum_range_succ, survivorRows, hone, hnil, CharTwo.add_self_eq_zero]

/-- And those of both data cells. -/
theorem sample_inverts_data : Jerasure.sample.Inverts (survivorRows 2 (fun _ => 1) [0, 1]) 2 := by
  refine ⟨fun i => if i = 0 ∨ i = 3 then 1 else 0, rfl, fun i _ => ?_, fun d hd i hi => ?_⟩
  · dsimp only
    split <;> decide
  · have hone : Byte.ofNat 1 = 1 := rfl
    have hnil : Byte.ofNat 0 = 0 := rfl
    interval_cases d <;> interval_cases i <;>
      simp [Finset.sum_range_succ, survivorRows, hone, hnil]

theorem sample_inverts_first : ∀ ids, dmIds 2 3 (failedFlag {0}) = .ok ids →
    Jerasure.sample.Inverts (survivorRows 2 (fun _ => 1) ids) 2 := by
  intro ids hids
  have hsurvivors : dmIds 2 3 (failedFlag {0}) = .ok [1, 2] := by decide
  obtain rfl := Except.ok.inj (hids.symm.trans hsurvivors)
  exact sample_inverts_code

theorem sample_inverts_last : ∀ ids, dmIds 2 3 (failedFlag {2}) = .ok ids →
    Jerasure.sample.Inverts (survivorRows 2 (fun _ => 1) ids) 2 := by
  intro ids hids
  have hsurvivors : dmIds 2 3 (failedFlag {2}) = .ok [0, 1] := by decide
  obtain rfl := Except.ok.inj (hids.symm.trans hsurvivors)
  exact sample_inverts_data

/-- A lost data disk. -/
theorem Coding4RS.decode_iff_three :
    (∃ out, Coding4RS.decode .sample (fun _ => 1) (rsSample.fail {0} fun _ _ => 0) 0 (fun _ => 0) 4
        (0 * 4) = .ok out ∧ ∀ o < 4, out o = rsSample.block 0 0 o) ↔ 0 < 2 :=
  @Coding4RS.decode_iff .sample (fun _ => 1) 2 1 0 0 rsSample {0} Jerasure.sample_multiplies
    (by decide)
    rfl rfl rfl rsSample_row (by decide) (by decide) sample_inverts_first (by decide) (fun _ _ => 0)
    fun _ => 0

/-- When the code disk has failed, its block is not returned. -/
theorem Coding4RS.decode_broken :
    (∀ o < 4, RsRow (fun _ => 1) rsSample 0 o) ∧
    (∀ ids, dmIds 2 3 (failedFlag {2}) = .ok ids →
      Jerasure.sample.Inverts (survivorRows 2 (fun _ => 1) ids) 2) ∧
    ¬ ∃ out, Coding4RS.decode .sample (fun _ => 1) (rsSample.fail {2} fun _ _ => 0) 2 (fun _ => 0) 4
        (0 * 4) = .ok out ∧ ∀ o < 4, out o = rsSample.block 2 0 o := by
  refine ⟨rsSample_row, sample_inverts_last, ?_⟩
  rintro ⟨out, hok, -⟩
  have herror := @Coding4RS.decode_code .sample (fun _ => 1) 2 1 0 2 rsSample {2}
    (by decide) rfl rfl
    (by decide) (by decide) sample_inverts_last (by decide) le_rfl (fun _ _ => 0) fun _ => 0
  rw [show (4 : ℕ) = rsSample.diskBlockSize from rfl, herror] at hok
  cases hok

end Ncfs
