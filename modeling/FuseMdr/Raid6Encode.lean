/-
Writing a block under RAID6.

The two code blocks of a row rotate over the disks.  `encode` takes a free block, or the first block
of the space list, writes the data there and computes `P` and `Q` of the row again from all its data
blocks: `P` is their sum, `Q` the sum with a power of two for each place.

Main definitions:

* `Ncfs.codeDiskId`, `Ncfs.parityDiskId` — the disks of `Q` and `P` in a row;
* `Ncfs.dataDiskCoeff` — the coefficient of a disk in a row;
* `Ncfs.forDisks` — a loop over some of the disks;
* `Ncfs.raid6Allocate`, `Ncfs.pqWrite`, `Ncfs.raid6Write`, `Ncfs.Coding4Raid6.encode` — the
  function;
* `Ncfs.Raid6Row`, `Ncfs.Raid6Parity` — the equations of a row and of a store.

Main results:

* `Ncfs.dataDiskCoeff_eq`, `Ncfs.diskCoeff_eq_iff` — up to ten disks the coefficients of the data
  disks of a row are bytes, and different;
* `Ncfs.raid6Write_spec` — a write leaves its row with both equations and all else unchanged;
* `Ncfs.Coding4Raid6.encode_spec` — so does `encode`, which never stops;
* `Ncfs.raid6_run_parity` — all rows keep both equations in runs of writes and frees.
-/
import FuseMdr.GfTables
import FuseMdr.PQCode
import FuseMdr.StoreOps

set_option relaxedAutoImplicit false
set_option autoImplicit false

namespace Ncfs

/-! ### The places of a row -/

/-- `code_disk_id`, the disk of `Q`. -/
def codeDiskId (diskTotalNum blockNo : ℕ) : ℕ := diskTotalNum - 1 - blockNo % diskTotalNum

/-- `parity_disk_id`, the disk of `P`. -/
def parityDiskId (diskTotalNum blockNo : ℕ) : ℕ := diskTotalNum - 1 - (blockNo + 1) % diskTotalNum

/-- The lines that compute `data_disk_coeff` for disk `i`: its place among the data disks, counted
from the end, is the exponent. -/
def dataDiskCoeff (diskTotalNum blockNo i : ℕ) : Except CodingError ℕ :=
  let coeff : ℤ := i
  let coeff := if codeDiskId diskTotalNum blockNo < i then coeff - 1 else coeff
  let coeff := if parityDiskId diskTotalNum blockNo < i then coeff - 1 else coeff
  gfGetCoefficient (diskTotalNum - 3 - coeff) fieldPower

/-! ### Loops over disks and bytes -/

/-- A loop `for (i = 0; i < n; i++) if (use i) body`. -/
def forDisks {σ : Type} (n : ℕ) (use : ℕ → Prop) [DecidablePred use]
    (body : σ → ℕ → Except CodingError σ) (s : σ) : Except CodingError σ :=
  (List.range n).foldlM (fun s i => if use i then body s i else .ok s) s

/-- The loop `des[j] = des[j] ^ (char)gf_mul((unsigned char)src[j], coeff, field_power)`, with the
coefficient computed in every pass. -/
def gfMulXorBuf (coding : Coding4Raid6) (size : ℕ) (coeff : Except CodingError ℕ) (des src : Buf) :
    Except CodingError Buf :=
  (List.range size).foldlM (fun des j => do
    let c ← coeff
    let m ← coding.gfMul (src j).toNat c fieldPower
    .ok (Function.update des j (des j ^^^ Byte.ofNat m))) des

/-! ### The choice of a block -/

/-- The loop that moves each disk over one code block. -/
def raid6SkipCodeBlocks (st : NcfsState) : NcfsState :=
  (List.range st.diskTotalNum).foldl (fun st i =>
    if i = codeDiskId st.diskTotalNum (st.freeOffset i) ∨
        i = parityDiskId st.diskTotalNum (st.freeOffset i) then
      chargeDisk st i (st.freeOffset i) 1
    else st) st

/-- The first free block of a disk, or else the first block of the space list. -/
def raid6Pick (st : NcfsState) (blockRequest : ℕ) : Option (ℕ × ℕ) × NcfsState :=
  match selectDisk st st.diskTotalNum blockRequest with
  | some (diskId, blockNo) => (some (diskId, blockNo), st)
  | none =>
      match st.spaceList with
      | [] => (none, st)
      | (diskId, blockNo) :: _ =>
          (some (diskId, blockNo),
            { st with spaceList := spaceListRemove st.spaceList diskId blockNo })

/-- The disk and block of a request, charged to the disk, `none` standing for disk `-1`. -/
def raid6Allocate (st : NcfsState) (blockRequest : ℕ) : Option (ℕ × ℕ) × NcfsState :=
  match raid6Pick (raid6SkipCodeBlocks st) blockRequest with
  | (none, st) => (none, st)
  | (some (diskId, blockNo), st) =>
      (some (diskId, blockNo), chargeDisk st diskId blockNo blockRequest)

/-! ### The function -/

/-- The part of `encode` after the block has been chosen, for any places `p` and `q` of the code
blocks and any coefficients: the data block, and both code blocks from all data blocks of the
row. -/
def pqWrite (coding : Coding4Raid6) (st : NcfsState) (p q : ℕ) (coeff : ℕ → Except CodingError ℕ)
    (diskId blockNo : ℕ) (buf : Buf) (size : ℕ) : Except CodingError NcfsState := do
  let sizeRequest := roundToBlockSize st size
  let offset := blockNo * st.diskBlockSize
  let st := writeDisk st diskId buf size offset
  let (buf2, buf3) ← forDisks st.diskTotalNum (fun i => i ≠ p ∧ i ≠ q)
    (fun (bufs : Buf × Buf) i => do
      let bufRead := readDisk st i (fun _ => 0) sizeRequest offset
      let buf3 ← gfMulXorBuf coding sizeRequest (coeff i) bufs.2 bufRead
      .ok (xorBuf sizeRequest bufs.1 bufRead, buf3)) (fun _ => 0, fun _ => 0)
  let st := writeDisk st p buf2 size offset
  .ok (writeDisk st q buf3 size offset)

/-- The same with the places and coefficients of `Coding4Raid6`. -/
def raid6Write (coding : Coding4Raid6) (st : NcfsState) (diskId blockNo : ℕ) (buf : Buf)
    (size : ℕ) : Except CodingError NcfsState :=
  let n := st.diskTotalNum
  pqWrite coding st (parityDiskId n blockNo) (codeDiskId n blockNo) (dataDiskCoeff n blockNo)
    diskId blockNo buf size

/-- `Coding4Raid6::encode`. -/
def Coding4Raid6.encode (coding : Coding4Raid6) (st : NcfsState) (buf : Buf) (size : ℕ) :
    Except CodingError (Option (ℕ × ℕ) × NcfsState) :=
  match raid6Allocate st (blockRequest st size) with
  | (none, st) => .ok (none, st)
  | (some (diskId, blockNo), st) => do
      let st ← raid6Write coding st diskId blockNo buf size
      .ok (some (diskId, blockNo), st)

/-! ### Coefficients -/

section Coefficients

variable {n b : ℕ}

theorem codeDiskId_lt (hn : 0 < n) : codeDiskId n b < n := by
  rw [codeDiskId]
  omega

theorem parityDiskId_lt (hn : 0 < n) : parityDiskId n b < n := by
  rw [parityDiskId]
  omega

/-- `P` stands before `Q`, or at the last disk when `Q` stands at the first. -/
theorem parityDiskId_eq (hn : 2 ≤ n) :
    parityDiskId n b = if b % n + 1 < n then n - 2 - b % n else n - 1 := by
  have hlt := Nat.mod_lt b (show 0 < n by omega)
  rw [parityDiskId, Nat.add_mod, Nat.mod_eq_of_lt (show 1 < n by omega)]
  split
  · rename_i h
    rw [Nat.mod_eq_of_lt h]
    omega
  · rw [show b % n + 1 = n by omega, Nat.mod_self]
    rfl

/-- The two code blocks of a row lie on different disks. -/
theorem parityDiskId_ne_codeDiskId (hn : 2 ≤ n) : parityDiskId n b ≠ codeDiskId n b := by
  have hlt := Nat.mod_lt b (show 0 < n by omega)
  rw [parityDiskId_eq hn, codeDiskId]
  split <;> omega

/-- The data disks of a row. -/
def dataDisks (n b : ℕ) : Finset ℕ :=
  (Finset.range n).filter fun i => i ≠ parityDiskId n b ∧ i ≠ codeDiskId n b

theorem mem_dataDisks {i : ℕ} :
    i ∈ dataDisks n b ↔ i < n ∧ i ≠ parityDiskId n b ∧ i ≠ codeDiskId n b := by
  rw [dataDisks, Finset.mem_filter, Finset.mem_range]

/-- The place of a disk among the data disks of a row. -/
def dataPlace (n b i : ℕ) : ℕ :=
  i - (if codeDiskId n b < i then 1 else 0) - if parityDiskId n b < i then 1 else 0

theorem dataPlace_le (hn : 2 ≤ n) {i : ℕ} (hi : i ∈ dataDisks n b) : dataPlace n b i + 3 ≤ n := by
  obtain ⟨hlt, hp, hq⟩ := mem_dataDisks.1 hi
  have := parityDiskId_ne_codeDiskId (b := b) hn
  have := parityDiskId_lt (n := n) (b := b) (by omega)
  have := codeDiskId_lt (n := n) (b := b) (by omega)
  rw [dataPlace]
  split <;> split <;> omega

theorem dataPlace_injOn (hn : 2 ≤ n) : Set.InjOn (dataPlace n b) (dataDisks n b) := by
  intro i hi j hj hij
  obtain ⟨-, hip, hiq⟩ := mem_dataDisks.1 (Finset.mem_coe.1 hi)
  obtain ⟨-, hjp, hjq⟩ := mem_dataDisks.1 (Finset.mem_coe.1 hj)
  have := parityDiskId_ne_codeDiskId (b := b) hn
  rw [dataPlace, dataPlace] at hij
  split at hij <;> split at hij <;> split at hij <;> split at hij <;> omega

/-- The coefficient of a disk in a row, as a byte. -/
def diskCoeff (n b i : ℕ) : Byte := Byte.ofNat (2 ^ (n - 3 - dataPlace n b i))

theorem toNat_diskCoeff (hn : n ≤ 10) (i : ℕ) :
    (diskCoeff n b i).toNat = 2 ^ (n - 3 - dataPlace n b i) := by
  refine Byte.toNat_ofNat_of_lt ?_
  calc 2 ^ (n - 3 - dataPlace n b i) ≤ 2 ^ 7 := Nat.pow_le_pow_right (by omega) (by omega)
    _ < 256 := by decide

theorem diskCoeff_ne_zero (hn : n ≤ 10) (i : ℕ) : diskCoeff n b i ≠ 0 := by
  intro h
  have := toNat_diskCoeff (b := b) hn i
  rw [h, Byte.toNat_zero] at this
  exact absurd this.symm (Nat.two_pow_pos _).ne'

/-- Disks with different places have different coefficients. -/
theorem diskCoeff_eq_iff (hn : n ≤ 10) {i j : ℕ} (hi : dataPlace n b i + 3 ≤ n)
    (hj : dataPlace n b j + 3 ≤ n) :
    diskCoeff n b i = diskCoeff n b j ↔ dataPlace n b i = dataPlace n b j := by
  constructor
  · intro h
    have := congrArg Byte.toNat h
    rw [toNat_diskCoeff hn, toNat_diskCoeff hn] at this
    have := Nat.pow_right_injective le_rfl this
    omega
  · intro h
    rw [diskCoeff, diskCoeff, h]

/-- The exponent that the sources compute. -/
theorem dataDiskCoeff_eq_shift (hn : 2 ≤ n) (i : ℕ) :
    dataDiskCoeff n b i = gfGetCoefficient (n - 3 - dataPlace n b i) fieldPower := by
  have := parityDiskId_ne_codeDiskId (b := b) hn
  simp only [dataDiskCoeff, dataPlace]
  congr 1
  split <;> split <;> omega

/-- The coefficient that the sources compute for a place among the data disks. -/
theorem dataDiskCoeff_eq (hn : n ≤ 10) {i : ℕ} (hi : dataPlace n b i + 3 ≤ n) :
    dataDiskCoeff n b i = .ok (diskCoeff n b i).toNat := by
  rw [dataDiskCoeff_eq_shift (by omega), gfGetCoefficient, if_neg (by omega), toNat_diskCoeff hn,
    Nat.one_shiftLeft]
  congr 2
  omega

end Coefficients

/-! ### What the loops compute -/

section Loops

variable {n size : ℕ} {use : ℕ → Prop} [DecidablePred use]

/-- A loop whose body never stops runs over the selected disks. -/
theorem forDisks_ok {σ : Type} {body : σ → ℕ → Except CodingError σ} {g : σ → ℕ → σ}
    (h : ∀ s, ∀ i < n, use i → body s i = .ok (g s i)) (s : σ) :
    forDisks n use body s = .ok (((List.range n).filter use).foldl g s) := by
  rw [forDisks, List.foldl_filter]
  refine Loops.foldlM_ok (fun s i hi => ?_) s
  simp only [decide_eq_true_eq]
  split
  · exact h s i (List.mem_range.1 hi) ‹_›
  · rfl

theorem sum_selected (f : ℕ → Byte) :
    (((List.range n).filter use).map f).sum = ∑ i ∈ (Finset.range n).filter use, f i := by
  rw [Xor.sum_map_filter_range, Finset.sum_filter]
  simp only [decide_eq_true_eq]

/-- A loop that adds one buffer for each selected disk. -/
theorem forDisks_xorBuf {body : Buf → ℕ → Except CodingError Buf} {f : ℕ → Buf}
    (h : ∀ buf, ∀ i < n, use i → body buf i = .ok (xorBuf size buf (f i))) (buf : Buf) :
    forDisks n use body buf =
      .ok (xorBuf size buf fun j => ∑ i ∈ (Finset.range n).filter use, f i j) := by
  rw [forDisks_ok h, foldl_xorBuf]
  simp only [sum_selected]

/-- The loop over the bytes adds the multiple of a buffer. -/
theorem gfMulXorBuf_eq {coeff : Except CodingError ℕ} {c : Byte} (hcoeff : coeff = .ok c.toNat)
    (des src : Buf) :
    gfMulXorBuf .new size coeff des src = .ok (xorBuf size des fun j => c * src j) := by
  rw [gfMulXorBuf, Loops.foldlM_ok (g := fun des j =>
    Function.update des j (des j + c * src j)) (fun des j _ => ?_)]
  · congr 1
    funext j
    rw [Loops.foldl_update_range fun j x => x + c * src j]
    simp [xorBuf]
  · rw [hcoeff]
    simp only [bind, Except.bind, gfMul_eq, Byte.ofNat_toNat, Byte.xor_eq_add, mul_comm]

end Loops

/-! ### The equations of a row -/

/-- Byte `o` of the blocks of row `b` satisfies both equations. -/
def Raid6Row (st : NcfsState) (b o : ℕ) : Prop :=
  PQ.Row (dataDisks st.diskTotalNum b) (parityDiskId st.diskTotalNum b)
    (codeDiskId st.diskTotalNum b) (diskCoeff st.diskTotalNum b) fun d => st.block d b o

/-- Every byte of every row satisfies both equations. -/
def Raid6Parity (st : NcfsState) : Prop := ∀ b, ∀ o < st.diskBlockSize, Raid6Row st b o

/-- The equations only look at the bytes of the row. -/
theorem Raid6Row.congr {st st' : NcfsState} {b o : ℕ} (h : Raid6Row st b o)
    (hn : st'.diskTotalNum = st.diskTotalNum) (hpos : 0 < st.diskTotalNum)
    (hblock : ∀ d < st.diskTotalNum, st'.block d b o = st.block d b o) : Raid6Row st' b o := by
  rw [Raid6Row, hn]
  exact PQ.Row.congr h (hblock _ (parityDiskId_lt hpos)) (hblock _ (codeDiskId_lt hpos))
    fun d hd => hblock d (mem_dataDisks.1 hd).1

/-- Zero disks satisfy both equations. -/
theorem Raid6Parity.of_zero {st : NcfsState} (hpos : 0 < st.diskTotalNum)
    (hzero : ∀ d < st.diskTotalNum, ∀ x, st.disk d x = 0) : Raid6Parity st := by
  intro b o _
  have hblock : ∀ d < st.diskTotalNum, st.block d b o = 0 := fun d hd => hzero d hd _
  refine ⟨?_, ?_⟩
  · rw [hblock _ (parityDiskId_lt hpos)]
    exact (Finset.sum_eq_zero fun d hd => hblock d (mem_dataDisks.1 hd).1).symm
  · rw [hblock _ (codeDiskId_lt hpos)]
    refine (Finset.sum_eq_zero fun d hd => ?_).symm
    rw [hblock d (mem_dataDisks.1 hd).1, mul_zero]

/-- What a write of `size` bytes to block `b` of disk `d` makes of a state, for the places `p` and
`q` and the coefficients `c`. -/
structure PQWritten (st st' : NcfsState) (p q : ℕ) (c : ℕ → Byte) (d b : ℕ) (buf : Buf) (size : ℕ) :
    Prop where
  /-- Only the devices change. -/
  eq_disk : st' = { st with disk := st'.disk }
  /-- The bytes that were written satisfy the equations of the row. -/
  row : ∀ o < size, PQ.Row ((Finset.range st.diskTotalNum).filter fun i => i ≠ p ∧ i ≠ q) p q c
    fun x => st'.block x b o
  /-- The data blocks of the row are the old ones and the new one. -/
  data : ∀ x ∈ (Finset.range st.diskTotalNum).filter fun i => i ≠ p ∧ i ≠ q, ∀ o < size,
    st'.block x b o = if x = d then buf o else st.block x b o
  /-- Nothing else changes. -/
  frame : ∀ x y, ∀ o < st.diskBlockSize, (y = b → size ≤ o) → st'.block x y o = st.block x y o

/-- A write leaves its row with both equations and all else unchanged. -/
theorem pqWrite_spec {st : NcfsState} {p q : ℕ} (hpq : p ≠ q) {coeff : ℕ → Except CodingError ℕ}
    {c : ℕ → Byte}
    (hcoeff : ∀ i < st.diskTotalNum, i ≠ p ∧ i ≠ q → coeff i = .ok (c i).toNat) (d b : ℕ)
    (buf : Buf) {size : ℕ} (hsize : size ≤ st.diskBlockSize) :
    ∃ st', pqWrite .new st p q coeff d b buf size = .ok st' ∧
      PQWritten st st' p q c d b buf size := by
  obtain ⟨hle, hround⟩ := roundToBlockSize_le hsize
  let n := st.diskTotalNum
  let bs := st.diskBlockSize
  let data := (Finset.range n).filter fun i => i ≠ p ∧ i ≠ q
  let st₁ := writeDisk st d buf size (b * bs)
  let bufRead := fun i => readDisk st₁ i (fun _ => 0) (roundToBlockSize st size) (b * bs)
  let buf2 : Buf := xorBuf (roundToBlockSize st size) (fun _ => 0) fun j => ∑ i ∈ data, bufRead i j
  let buf3 : Buf := xorBuf (roundToBlockSize st size) (fun _ => 0)
    fun j => ∑ i ∈ data, c i * bufRead i j
  let st' := writeDisk (writeDisk st₁ p buf2 size (b * bs)) q buf3 size (b * bs)
  have hloop : forDisks n (fun i => i ≠ p ∧ i ≠ q) (fun (bufs : Buf × Buf) i => do
      let buf3 ← gfMulXorBuf .new (roundToBlockSize st size) (coeff i) bufs.2 (bufRead i)
      .ok (xorBuf (roundToBlockSize st size) bufs.1 (bufRead i), buf3)) (fun _ => 0, fun _ => 0) =
        .ok (buf2, buf3) := by
    rw [forDisks_ok (g := fun (bufs : Buf × Buf) i => (xorBuf (roundToBlockSize st size) bufs.1
      (bufRead i), xorBuf (roundToBlockSize st size) bufs.2 fun j => c i * bufRead i j))
      (fun bufs i hi huse => ?_)]
    · rw [Loops.foldl_prod (fun buf i => xorBuf (roundToBlockSize st size) buf (bufRead i))
        (fun buf i => xorBuf (roundToBlockSize st size) buf fun j => c i * bufRead i j),
        foldl_xorBuf, foldl_xorBuf]
      simp only [sum_selected]
      rfl
    · rw [gfMulXorBuf_eq (hcoeff i hi huse)]
      rfl
  have hblock₁ : ∀ x y o, o < bs → st₁.block x y o =
      if x = d ∧ y = b ∧ o < size then buf o else st.block x y o := fun x y o ho =>
    block_writeDisk st d b size buf hsize ho
  have hblock : ∀ x y o, o < bs → st'.block x y o =
      if x = q ∧ y = b ∧ o < size then buf3 o
      else if x = p ∧ y = b ∧ o < size then buf2 o else st₁.block x y o := by
    intro x y o ho
    rw [← block_writeDisk st₁ p b size buf2 hsize ho]
    exact block_writeDisk (writeDisk st₁ p buf2 size (b * bs)) q b size buf3 hsize ho
  have hdata : ∀ x ∈ data, ∀ o < size, st'.block x b o = bufRead x o := by
    intro x hx o ho
    obtain ⟨-, hxp, hxq⟩ := Finset.mem_filter.1 hx
    rw [hblock x b o (ho.trans_le hsize), if_neg (fun h => hxq h.1), if_neg (fun h => hxp h.1)]
    exact (readDisk_block st₁ x b _ _ (ho.trans_le hle)).symm
  refine ⟨st', ?_, rfl, fun o ho => ⟨?_, ?_⟩, fun x hx o ho => ?_, fun x y o ho hy => ?_⟩
  · rw [pqWrite]
    simp only [bind, Except.bind] at hloop ⊢
    exact hloop ▸ rfl
  · change st'.block p b o = ∑ x ∈ data, st'.block x b o
    rw [hblock p b o (ho.trans_le hsize), if_neg (fun h => hpq h.1), if_pos ⟨rfl, rfl, ho⟩,
      Finset.sum_congr rfl fun x hx => hdata x hx o ho]
    exact (xorBuf_of_lt _ _ (ho.trans_le hle)).trans (zero_add _)
  · change st'.block q b o = ∑ x ∈ data, c x * st'.block x b o
    rw [hblock q b o (ho.trans_le hsize), if_pos ⟨rfl, rfl, ho⟩,
      Finset.sum_congr rfl fun x hx => by rw [hdata x hx o ho]]
    exact (xorBuf_of_lt _ _ (ho.trans_le hle)).trans (zero_add _)
  · rw [hdata x hx o ho]
    refine (readDisk_block st₁ x b _ _ (ho.trans_le hle)).trans ?_
    rw [hblock₁ x b o (ho.trans_le hsize)]
    simp [ho]
  · rw [hblock x y o ho, if_neg (by omega), if_neg (by omega), hblock₁ x y o ho, if_neg (by omega)]

/-- A write changes the devices only. -/
theorem pqWrite_ok {coding : Coding4Raid6} {st st' : NcfsState} {p q d b size : ℕ}
    {coeff : ℕ → Except CodingError ℕ} {buf : Buf}
    (h : pqWrite coding st p q coeff d b buf size = .ok st') :
    st' = { st with disk := st'.disk } := by
  rw [pqWrite] at h
  simp only [bind, Except.bind] at h
  split at h
  · cases h
  · cases h
    rfl

/-- What a write of `size` bytes to block `b` of disk `d` makes of a state. -/
structure Raid6Written (st st' : NcfsState) (d b : ℕ) (buf : Buf) (size : ℕ) : Prop where
  /-- Only the devices change. -/
  eq_disk : st' = { st with disk := st'.disk }
  /-- The bytes that were written satisfy the equations of the row. -/
  row : ∀ o < size, Raid6Row st' b o
  /-- The data blocks of the row are the old ones and the new one. -/
  data : ∀ x ∈ dataDisks st.diskTotalNum b, ∀ o < size,
    st'.block x b o = if x = d then buf o else st.block x b o
  /-- Nothing else changes. -/
  frame : ∀ x y, ∀ o < st.diskBlockSize, (y = b → size ≤ o) → st'.block x y o = st.block x y o

/-- A write leaves its row with both equations and all else unchanged. -/
theorem raid6Write_spec {st : NcfsState} (hn : 3 ≤ st.diskTotalNum) (hn' : st.diskTotalNum ≤ 10)
    (d b : ℕ) (buf : Buf) {size : ℕ} (hsize : size ≤ st.diskBlockSize) :
    ∃ st', raid6Write .new st d b buf size = .ok st' ∧ Raid6Written st st' d b buf size := by
  obtain ⟨st', hwrite, hwritten⟩ := pqWrite_spec (parityDiskId_ne_codeDiskId (by omega))
    (fun i hi huse => dataDiskCoeff_eq hn' (dataPlace_le (b := b) (by omega)
      (mem_dataDisks.2 ⟨hi, huse⟩))) d b buf hsize
  have htotal : st'.diskTotalNum = st.diskTotalNum := by rw [hwritten.eq_disk]
  refine ⟨st', hwrite, hwritten.eq_disk, fun o ho => ?_, hwritten.data, hwritten.frame⟩
  rw [Raid6Row, htotal]
  exact hwritten.row o ho

/-! ### The equations of a store -/

theorem Raid6Written.parity {st st' : NcfsState} {d b size : ℕ} {buf : Buf}
    (h : Raid6Written st st' d b buf size) (hpos : 0 < st.diskTotalNum) (hparity : Raid6Parity st) :
    Raid6Parity st' := by
  have hn : st'.diskTotalNum = st.diskTotalNum := by rw [h.eq_disk]
  have hbs : st'.diskBlockSize = st.diskBlockSize := by rw [h.eq_disk]
  intro y o ho
  rw [hbs] at ho
  by_cases hy : y = b → size ≤ o
  · exact (hparity y o ho).congr hn hpos fun x _ => h.frame x y o ho hy
  · obtain ⟨rfl, hlt⟩ := Classical.not_imp.1 hy
    exact h.row o (by omega)

theorem SameDevices.parity {st st' : NcfsState} (h : SameDevices st st')
    (hpos : 0 < st.diskTotalNum) (hparity : Raid6Parity st) : Raid6Parity st' := fun b o ho =>
  (hparity b o (by rwa [h.block_eq] at ho)).congr h.total_eq hpos fun d _ => h.block d b o

theorem raid6SkipCodeBlocks_same (st : NcfsState) : SameDevices st (raid6SkipCodeBlocks st) :=
  Loops.foldl_inv (fun st' => SameDevices st st') (fun st' i _ h => by
    split
    · exact ⟨h.total_eq, h.block_eq, h.status_eq, h.disk_eq⟩
    · exact h) ⟨rfl, rfl, rfl, rfl⟩

/-- The allocation does not touch the devices. -/
theorem raid6Allocate_same (st : NcfsState) (req : ℕ) :
    SameDevices st (raid6Allocate st req).2 := by
  obtain ⟨h₁, h₂, h₃, h₄⟩ := raid6SkipCodeBlocks_same st
  have hpick : SameDevices st (raid6Pick (raid6SkipCodeBlocks st) req).2 := by
    rw [raid6Pick]
    split
    · exact ⟨h₁, h₂, h₃, h₄⟩
    · split <;> exact ⟨h₁, h₂, h₃, h₄⟩
  rw [raid6Allocate]
  split
  · rename_i h
    rwa [h] at hpick
  · rename_i h
    rw [h] at hpick
    exact ⟨hpick.total_eq, hpick.block_eq, hpick.status_eq, hpick.disk_eq⟩

/-- A call of `encode` that returns has served the allocated block, and its bookkeeping is that of
the allocation. -/
theorem Coding4Raid6.encode_ok {coding : Coding4Raid6} {st st' : NcfsState} {buf : Buf} {size : ℕ}
    {served : Option (ℕ × ℕ)} (h : coding.encode st buf size = .ok (served, st')) :
    served = (raid6Allocate st (blockRequest st size)).1 ∧
      st' = { (raid6Allocate st (blockRequest st size)).2 with disk := st'.disk } := by
  rw [encode] at h
  split at h
  · rename_i st₁ hall
    cases h
    rw [hall]
    exact ⟨rfl, rfl⟩
  · rename_i d b st₁ hall
    rw [hall]
    cases hwrite : raid6Write coding st₁ d b buf size with
    | error e =>
        rw [hwrite] at h
        cases h
    | ok st₂ =>
        rw [hwrite] at h
        cases h
        exact ⟨rfl, pqWrite_ok hwrite⟩

/-- What a call of `encode` makes of a store of at most ten disks: it serves the allocated block,
keeps the equations of all rows, and leaves the row of the served block with its equations. -/
structure Raid6Encoded (st st' : NcfsState) (served : Option (ℕ × ℕ)) (size : ℕ) : Prop where
  /-- The served block is the allocated one. -/
  served_eq : served = (raid6Allocate st (blockRequest st size)).1
  /-- `disk_total_num`. -/
  total_eq : st'.diskTotalNum = st.diskTotalNum
  /-- `disk_block_size`. -/
  block_eq : st'.diskBlockSize = st.diskBlockSize
  /-- The equations of all rows are kept. -/
  parity : Raid6Parity st → Raid6Parity st'
  /-- The row of the served block satisfies its equations. -/
  row : ∀ d b, served = some (d, b) → ∀ o < size, Raid6Row st' b o

/-- `encode` never stops on three to ten disks. -/
theorem Coding4Raid6.encode_spec {st : NcfsState} (hn : 3 ≤ st.diskTotalNum)
    (hn' : st.diskTotalNum ≤ 10) (buf : Buf) {size : ℕ} (hsize : size ≤ st.diskBlockSize) :
    ∃ served st', Coding4Raid6.new.encode st buf size = .ok (served, st') ∧
      Raid6Encoded st st' served size := by
  have hsame := raid6Allocate_same st (blockRequest st size)
  rw [Coding4Raid6.encode]
  split
  · rename_i st₁ hall
    rw [hall] at hsame
    refine ⟨none, st₁, rfl, by rw [hall], hsame.total_eq, hsame.block_eq,
      hsame.parity (by omega), fun d b h => by cases h⟩
  · rename_i d b st₁ hall
    rw [hall] at hsame
    have hn₁ : st₁.diskTotalNum = st.diskTotalNum := hsame.total_eq
    have hsize₁ : size ≤ st₁.diskBlockSize := hsame.block_eq.symm ▸ hsize
    obtain ⟨st', hwrite, hwritten⟩ := raid6Write_spec (by rw [hn₁]; exact hn)
      (by rw [hn₁]; exact hn') d b buf hsize₁
    refine ⟨some (d, b), st', ?_, by rw [hall], ?_, ?_, fun h => ?_, fun d' b' h => ?_⟩
    · rw [hwrite]
      rfl
    · rw [hwritten.eq_disk]
      exact hn₁
    · rw [hwritten.eq_disk]
      exact hsame.block_eq
    · exact hwritten.parity (by omega) (hsame.parity (by omega) h)
    · obtain ⟨rfl, rfl⟩ := Prod.mk.inj (Option.some.inj h)
      exact hwritten.row

/-! ### Runs -/

/-- One operation on a store of the RAID6 layer. -/
def raid6Step (coding : Coding4Raid6) (s : Served) : StoreOp → Except CodingError Served
  | .encode buf size => do
      let result ← coding.encode s.st buf size
      .ok (s.serve result)
  | .free diskId blockNo => .ok (s.free diskId blockNo)

/-- A run of writes and frees on three to ten disks does not stop, and keeps the equations of all
rows. -/
theorem raid6_run_parity {n bs : ℕ} (hn : 3 ≤ n) (hn' : n ≤ 10) {s : Served}
    (htotal : s.st.diskTotalNum = n) (hblock : s.st.diskBlockSize = bs) (hparity : Raid6Parity s.st)
    {ops : List StoreOp} (hops : ∀ op ∈ ops, op.Small bs) :
    ∃ s', ops.foldlM (raid6Step .new) s = .ok s' ∧
      s'.st.diskTotalNum = n ∧ s'.st.diskBlockSize = bs ∧ Raid6Parity s'.st := by
  refine Loops.foldlM_inv (P := fun s : Served => s.st.diskTotalNum = n ∧ s.st.diskBlockSize = bs ∧
    Raid6Parity s.st) (fun s op hop ⟨htotal, hblock, hparity⟩ => ?_) ⟨htotal, hblock, hparity⟩
  cases op with
  | encode buf size =>
      have hsize : size ≤ s.st.diskBlockSize := hblock.symm ▸ hops _ hop
      obtain ⟨served, st', henc, hspec⟩ := Coding4Raid6.encode_spec (htotal.symm ▸ hn)
        (htotal.symm ▸ hn') buf hsize
      refine ⟨s.serve (served, st'), by rw [raid6Step, henc]; rfl, ?_⟩
      rw [Served.serve_st]
      exact ⟨hspec.total_eq.trans htotal, hspec.block_eq.trans hblock, hspec.parity hparity⟩
  | free diskId blockNo =>
      obtain ⟨l, hl⟩ := s.free_st diskId blockNo
      refine ⟨s.free diskId blockNo, rfl, ?_⟩
      have hsame : SameDevices s.st (s.free diskId blockNo).st := by
        rw [hl]
        exact ⟨rfl, rfl, rfl, rfl⟩
      exact ⟨hsame.total_eq.trans htotal, hsame.block_eq.trans hblock, hsame.parity
        (by omega) hparity⟩

end Ncfs
