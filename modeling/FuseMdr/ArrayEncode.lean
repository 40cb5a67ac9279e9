/-
Writing a block under an array code.

`encode` of the MDR, EVENODD and RDP layers is one function up to the strip size, the `Q` blocks
that depend on a data block, and the lengths of two copies.  It picks a free block, or the first
block of the space list, adds the new bytes to the `P` block of the row and to `Q` blocks of the
strip, and writes the data block.  It does not look at the bytes that it overwrites.

Main definitions:

* `Ncfs.arraySelect`, `Ncfs.arrayAllocate` — the choice of a block;
* `Ncfs.arrayPick` — the block that a state serves next;
* `Ncfs.arrayEncode` — the function;
* `Ncfs.stripCells`, `Ncfs.StoreParity` — one byte of the cells of a strip, and a store whose strips
  all satisfy the equations of a code;
* `Ncfs.Unused` — what lies behind the free offset of a data disk is zero.

Main results:

* `Ncfs.arrayEncode_block` — the bytes after a write;
* `Ncfs.arrayEncode_storeParity_iff` — when a write keeps the equations of a code;
* `Ncfs.arrayEncode_unused` — writes keep unused blocks zero.
-/
import FuseMdr.Loops
import FuseMdr.NcfsState
import FuseMdr.StripCode

set_option relaxedAutoImplicit false
set_option autoImplicit false

namespace Ncfs

/-! ### The choice of a block -/

/-- The loop over the data disks. -/
def arraySelect (st : NcfsState) (blockRequest : ℕ) : Option (ℕ × ℕ) :=
  selectDisk st (st.diskTotalNum - 2) blockRequest

/-- The blocks of `P` and `Q` that are charged with a block of disk `0`. -/
def chargeParityDisks (st : NcfsState) (stripSize blockNo : ℕ) : NcfsState :=
  let p := st.diskTotalNum - 2
  let q := st.diskTotalNum - 1
  let st := { st with
    freeOffset := Function.update st.freeOffset p (st.freeOffset p + 1)
    freeSize := Function.update st.freeSize p (st.freeSize p - 1) }
  if blockNo % stripSize = 0 then
    { st with
      freeOffset := Function.update st.freeOffset q (st.freeOffset q + stripSize)
      freeSize := Function.update st.freeSize q (st.freeSize q - stripSize) }
  else st

/-- The disk and block of a request, `none` standing for disk `-1`. -/
def arrayAllocate (st : NcfsState) (stripSize blockRequest : ℕ) : Option (ℕ × ℕ) × NcfsState :=
  match arraySelect st blockRequest with
  | some (diskId, blockNo) =>
      (some (diskId, blockNo), if diskId = 0 then chargeParityDisks st stripSize blockNo else st)
  | none =>
      match st.spaceList with
      | [] => (none, st)
      | (diskId, blockNo) :: _ =>
          (some (diskId, blockNo),
            { st with spaceList := spaceListRemove st.spaceList diskId blockNo })

/-! ### The function -/

/-- Reading a block, adding `xorSize` bytes of `buf` to it and writing `writeSize` bytes back. -/
def xorIntoBlock (st : NcfsState) (diskId blockNo : ℕ) (buf : Buf)
    (sizeRequest xorSize writeSize : ℕ) : NcfsState :=
  let bufDisk := readDisk st diskId (fun _ => 0) sizeRequest (blockNo * st.diskBlockSize)
  writeDisk st diskId (xorBuf xorSize bufDisk buf) writeSize (blockNo * st.diskBlockSize)

/-- The part of `encode` after the block has been chosen. -/
def arrayWrite (stripSize : ℕ) (findQBlocksId : ℕ → ℕ → List ℕ) (xorSize qSize : ℕ)
    (st : NcfsState) (diskId blockNo : ℕ) (buf : Buf) (size : ℕ) : NcfsState :=
  let sizeRequest := roundToBlockSize st size
  let pDiskId := st.diskTotalNum - 2
  let qDiskId := st.diskTotalNum - 1
  let st := xorIntoBlock st pDiskId blockNo buf sizeRequest xorSize size
  let stripNum := blockNo / stripSize
  let stripOffset := blockNo % stripSize
  let st := (findQBlocksId diskId stripOffset).foldl (fun st q =>
    xorIntoBlock st qDiskId (q + stripNum * stripSize) buf sizeRequest xorSize qSize) st
  writeDisk st diskId buf size (blockNo * st.diskBlockSize)

/-- The common body of `Coding4Mdr1::encode`, `Coding4Evenodd::encode` and `Coding4Rdp::encode`.
`xorSize` is the length of the two loops that add `buf`, and `qSize` that of the writes of `Q`
blocks. -/
def arrayEncode (stripSize : ℕ) (findQBlocksId : ℕ → ℕ → List ℕ) (xorSize qSize : ℕ)
    (st : NcfsState) (buf : Buf) (size : ℕ) : Option (ℕ × ℕ) × NcfsState :=
  let blockRequest := roundToBlockSize st size / st.diskBlockSize
  match arrayAllocate st stripSize blockRequest with
  | (none, st) => (none, st)
  | (some (diskId, blockNo), st) =>
      let st := chargeDisk st diskId blockNo blockRequest
      (some (diskId, blockNo),
        arrayWrite stripSize findQBlocksId xorSize qSize st diskId blockNo buf size)

/-! ### What is picked -/

/-- The block that the state serves to a request. -/
def arrayPick (st : NcfsState) (blockRequest : ℕ) : Option (ℕ × ℕ) :=
  (arraySelect st blockRequest).or st.spaceList.head?

theorem arrayAllocate_fst (st : NcfsState) (stripSize req : ℕ) :
    (arrayAllocate st stripSize req).1 = arrayPick st req := by
  rw [arrayAllocate, arrayPick]
  cases arraySelect st req with
  | some x => rfl
  | none => cases st.spaceList <;> rfl

/-- A picked block lies on a data disk, when the listed blocks do. -/
theorem arrayPick_lt {st : NcfsState} {req d b : ℕ}
    (hlist : ∀ x ∈ st.spaceList, x.1 < st.diskTotalNum - 2) (h : arrayPick st req = some (d, b)) :
    d < st.diskTotalNum - 2 := by
  rw [arrayPick] at h
  cases hsel : arraySelect st req with
  | some x =>
      rw [hsel, Option.some_or] at h
      exact (selectDisk_eq_some (hsel.trans h)).1
  | none =>
      rw [hsel, Option.none_or] at h
      exact hlist (d, b) (List.mem_of_mem_head? h)

/-- The number of disks, of data disks and the block size. -/
structure NcfsState.Shaped (st : NcfsState) (k bs : ℕ) : Prop where
  /-- There are two more disks than data disks. -/
  total_eq : st.diskTotalNum = k + 2
  /-- `data_disk_num`. -/
  data_eq : st.dataDiskNum = k
  /-- `disk_block_size`. -/
  block_eq : st.diskBlockSize = bs

theorem NcfsState.Shaped.writeDisk {st : NcfsState} {k bs : ℕ} (h : st.Shaped k bs) (d : ℕ)
    (buf : Buf) (size offset : ℕ) : (Ncfs.writeDisk st d buf size offset).Shaped k bs :=
  ⟨h.total_eq, h.data_eq, h.block_eq⟩

/-- The allocation keeps the disks and their number. -/
theorem arrayAllocate_snd (st : NcfsState) (stripSize req : ℕ) {k bs : ℕ} (h : st.Shaped k bs) :
    (arrayAllocate st stripSize req).2.Shaped k bs ∧
      (arrayAllocate st stripSize req).2.disk = st.disk := by
  obtain ⟨h₁, h₂, h₃⟩ := h
  rw [arrayAllocate]
  split
  · split
    · rw [chargeParityDisks]
      split <;> exact ⟨⟨h₁, h₂, h₃⟩, rfl⟩
    · exact ⟨⟨h₁, h₂, h₃⟩, rfl⟩
  · split <;> exact ⟨⟨h₁, h₂, h₃⟩, rfl⟩

/-! ### The bytes after a write -/

section Bytes

variable {st : NcfsState} {k bs : ℕ}

/-- The bytes that are both added and written back change, when no more is written back than was
read. -/
theorem xorIntoBlock_block (h : st.Shaped k bs) {d b size sizeRequest xorSize writeSize : ℕ}
    (buf : Buf) (hmin : min xorSize writeSize = size) (hread : writeSize ≤ sizeRequest)
    (hblock : sizeRequest ≤ bs) {x y o : ℕ} (ho : o < bs) :
    (xorIntoBlock st d b buf sizeRequest xorSize writeSize).block x y o =
      st.block x y o + if x = d ∧ y = b ∧ o < size then buf o else 0 := by
  rw [← h.block_eq] at hblock ho
  rw [xorIntoBlock, block_writeDisk _ _ _ _ _ (hread.trans hblock) ho]
  by_cases hcell : x = d ∧ y = b ∧ o < writeSize
  · obtain ⟨rfl, rfl, hlt⟩ := hcell
    rw [if_pos ⟨rfl, rfl, hlt⟩]
    by_cases hxor : o < xorSize
    · rw [xorBuf_of_lt _ _ hxor, readDisk_block _ _ _ _ _ (hlt.trans_le hread),
        if_pos ⟨rfl, rfl, by omega⟩]
    · rw [xorBuf, if_neg hxor, readDisk_block _ _ _ _ _ (hlt.trans_le hread),
        if_neg (by omega), add_zero]
  · rw [if_neg hcell, if_neg (by omega), add_zero]

theorem xorIntoBlock_shaped (h : st.Shaped k bs) (d b : ℕ) (buf : Buf)
    (sizeRequest xorSize writeSize : ℕ) :
    (xorIntoBlock st d b buf sizeRequest xorSize writeSize).Shaped k bs :=
  h.writeDisk ..

theorem foldl_xorIntoBlock_shaped (h : st.Shaped k bs) (q base : ℕ) (buf : Buf)
    (sizeRequest xorSize qSize : ℕ) (qs : List ℕ) :
    (qs.foldl (fun st i =>
      xorIntoBlock st q (i + base) buf sizeRequest xorSize qSize) st).Shaped k bs :=
  Loops.foldl_inv (fun st : NcfsState => st.Shaped k bs)
    (fun _ _ _ hst => xorIntoBlock_shaped hst ..) h

/-- The loop over the `Q` blocks adds the bytes to each block as often as it is listed. -/
theorem foldl_xorIntoBlock_block (h : st.Shaped k bs) {q size sizeRequest xorSize qSize base : ℕ}
    (buf : Buf) (hmin : min xorSize qSize = size) (hread : qSize ≤ sizeRequest)
    (hblock : sizeRequest ≤ bs) (qs : List ℕ) {x y o : ℕ} (ho : o < bs) :
    (qs.foldl (fun st i =>
      xorIntoBlock st q (i + base) buf sizeRequest xorSize qSize) st).block x y o =
      st.block x y o +
        if x = q ∧ o < size then (qs.map fun i => i + base).count y • buf o else 0 := by
  induction qs generalizing st with
  | nil => simp
  | cons i qs ih =>
      rw [List.foldl_cons, ih (xorIntoBlock_shaped h ..),
        xorIntoBlock_block h buf hmin hread hblock ho, List.map_cons, List.count_cons, add_assoc]
      by_cases hx : x = q ∧ o < size
      · rw [if_pos hx, if_pos hx]
        by_cases hy : i + base = y
        · rw [if_pos ⟨hx.1, hy.symm, hx.2⟩, if_pos (beq_iff_eq.2 hy), succ_nsmul']
        · rw [if_neg (fun h => hy h.2.1.symm), if_neg (mt beq_iff_eq.1 hy), zero_add, Nat.add_zero]
      · rw [if_neg (by tauto), if_neg hx, if_neg hx, zero_add]

variable {stripSize xorSize qSize size : ℕ} {findQBlocksId : ℕ → ℕ → List ℕ}

/-- The two copy lengths of a write of `size` bytes: the shorter is `size`, the longer does not
exceed the rounded size. -/
structure CopySizes (st : NcfsState) (size xorSize qSize : ℕ) : Prop where
  /-- The shorter length. -/
  min_eq : min xorSize qSize = size
  /-- The length that is written back was read. -/
  q_le : qSize ≤ roundToBlockSize st size
  /-- A write has at most one block. -/
  size_le : size ≤ st.diskBlockSize

theorem CopySizes.congr {st' : NcfsState} (h : CopySizes st size xorSize qSize)
    (hblock : st'.diskBlockSize = st.diskBlockSize) : CopySizes st' size xorSize qSize :=
  ⟨h.min_eq, by rw [roundToBlockSize, hblock]; exact h.q_le, by rw [hblock]; exact h.size_le⟩

/-- The bytes after the blocks of a write: the data block takes the new bytes, the `P` block of its
row and the dependent `Q` blocks of its strip have them added. -/
theorem arrayWrite_block (h : st.Shaped k bs) (hsizes : CopySizes st size xorSize qSize)
    (buf : Buf) (d b : ℕ) {x y o : ℕ} (ho : o < bs) :
    (arrayWrite stripSize findQBlocksId xorSize qSize st d b buf size).block x y o =
      if o < size then
        if x = d ∧ y = b then buf o
        else st.block x y o +
          ((if x = k ∧ y = b then buf o else 0) +
            if x = k + 1 then ((findQBlocksId d (b % stripSize)).map fun i =>
              i + b / stripSize * stripSize).count y • buf o else 0)
      else st.block x y o := by
  obtain ⟨hle, hround⟩ := roundToBlockSize_le hsizes.size_le
  rw [h.block_eq] at hround
  have hp : st.diskTotalNum - 2 = k := by rw [h.total_eq]; rfl
  have hq : st.diskTotalNum - 1 = k + 1 := by rw [h.total_eq]; rfl
  have hmin := hsizes.min_eq
  have hshape₁ := xorIntoBlock_shaped h k b buf (roundToBlockSize st size) xorSize size
  have hshape₂ := foldl_xorIntoBlock_shaped hshape₁ (k + 1) (b / stripSize * stripSize) buf
    (roundToBlockSize st size) xorSize qSize (findQBlocksId d (b % stripSize))
  have hsize : size ≤ bs := hle.trans hround
  rw [← hshape₂.block_eq] at ho hsize
  rw [arrayWrite, hp, hq, block_writeDisk _ _ _ _ _ hsize ho]
  rw [hshape₂.block_eq] at ho hsize
  rw [foldl_xorIntoBlock_block hshape₁ buf hmin hsizes.q_le hround _ ho,
    xorIntoBlock_block h buf (show min xorSize size = size by omega) hle hround ho]
  by_cases hlt : o < size
  · simp only [hlt, and_true, if_true, add_assoc]
  · simp only [hlt, and_false, if_false, add_zero]

theorem arrayWrite_shaped (h : st.Shaped k bs) (d b : ℕ) (buf : Buf) :
    (arrayWrite stripSize findQBlocksId xorSize qSize st d b buf size).Shaped k bs :=
  (foldl_xorIntoBlock_shaped (xorIntoBlock_shaped h ..) ..).writeDisk ..

/-- Without a block to serve, nothing changes on the disks. -/
theorem arrayEncode_none (h : st.Shaped k bs) (buf : Buf)
    (hpick : arrayPick st (blockRequest st size) = none) :
    (arrayEncode stripSize findQBlocksId xorSize qSize st buf size).1 = none ∧
      (arrayEncode stripSize findQBlocksId xorSize qSize st buf size).2.Shaped k bs ∧
      (arrayEncode stripSize findQBlocksId xorSize qSize st buf size).2.disk = st.disk := by
  have hfst := arrayAllocate_fst st stripSize (blockRequest st size)
  have hsnd := arrayAllocate_snd st stripSize (blockRequest st size) h
  rw [hpick, blockRequest] at hfst
  rw [blockRequest] at hsnd
  rw [arrayEncode]
  split
  · rename_i hall
    rw [hall] at hsnd
    exact ⟨rfl, hsnd⟩
  · rename_i hall
    rw [hall] at hfst
    cases hfst

/-- The block that is picked is charged to its disk and written. -/
theorem arrayEncode_some (buf : Buf) {d b : ℕ}
    (hpick : arrayPick st (blockRequest st size) = some (d, b)) :
    arrayEncode stripSize findQBlocksId xorSize qSize st buf size =
      (some (d, b), arrayWrite stripSize findQBlocksId xorSize qSize
        (chargeDisk (arrayAllocate st stripSize (blockRequest st size)).2 d b
          (blockRequest st size))
        d b buf size) := by
  have hfst := arrayAllocate_fst st stripSize (blockRequest st size)
  rw [hpick, blockRequest] at hfst
  rw [arrayEncode, blockRequest]
  split
  · rename_i hall
    rw [hall] at hfst
    cases hfst
  · rename_i d' b' st₁ hall
    rw [hall] at hfst
    obtain ⟨rfl, rfl⟩ := Prod.mk.inj (Option.some.inj hfst)
    rw [hall]

/-- The state in which a picked block is written has the same disks. -/
theorem chargeDisk_arrayAllocate (h : st.Shaped k bs) (stripSize d b req : ℕ) :
    (chargeDisk (arrayAllocate st stripSize req).2 d b req).Shaped k bs ∧
      ∀ x y o, (chargeDisk (arrayAllocate st stripSize req).2 d b req).block x y o =
        st.block x y o := by
  obtain ⟨⟨h₁, h₂, h₃⟩, hdisk⟩ := arrayAllocate_snd st stripSize req h
  have hblock : (chargeDisk (arrayAllocate st stripSize req).2 d b req).diskBlockSize =
      st.diskBlockSize := h₃.trans h.block_eq.symm
  have hdisk' : (chargeDisk (arrayAllocate st stripSize req).2 d b req).disk = st.disk := hdisk
  exact ⟨⟨h₁, h₂, h₃⟩, fun x y o => by rw [NcfsState.block, NcfsState.block, hblock, hdisk']⟩

theorem arrayEncode_shaped (h : st.Shaped k bs) (buf : Buf) :
    (arrayEncode stripSize findQBlocksId xorSize qSize st buf size).2.Shaped k bs := by
  cases hpick : arrayPick st (blockRequest st size) with
  | none => exact (arrayEncode_none h buf hpick).2.1
  | some x =>
      rw [arrayEncode_some buf hpick]
      exact arrayWrite_shaped (chargeDisk_arrayAllocate h ..).1 ..

/-- The bytes after `encode`, when block `b` of disk `d` is picked. -/
theorem arrayEncode_block (h : st.Shaped k bs) (hsizes : CopySizes st size xorSize qSize)
    (buf : Buf) {d b : ℕ} (hpick : arrayPick st (blockRequest st size) = some (d, b))
    {x y o : ℕ} (ho : o < bs) :
    (arrayEncode stripSize findQBlocksId xorSize qSize st buf size).2.block x y o =
      if o < size then
        if x = d ∧ y = b then buf o
        else st.block x y o +
          ((if x = k ∧ y = b then buf o else 0) +
            if x = k + 1 then ((findQBlocksId d (b % stripSize)).map fun i =>
              i + b / stripSize * stripSize).count y • buf o else 0)
      else st.block x y o := by
  obtain ⟨hshape, hblock⟩ := chargeDisk_arrayAllocate h stripSize d b
    (blockRequest st size)
  rw [arrayEncode_some buf hpick, arrayWrite_block hshape
    (hsizes.congr (hshape.block_eq.trans h.block_eq.symm)) buf d b ho, hblock]

end Bytes

/-! ### The equations of a code -/

/-- Byte `o` of the cells of strip `g`, by disk and row. -/
def stripCells (st : NcfsState) (rows g o : ℕ) : ℕ × ℕ → Byte := fun x =>
  st.block x.1 (g * rows + x.2) o

/-- In every strip, every byte satisfies the equations of the code. -/
def StoreParity (C : Strip.Code) (st : NcfsState) : Prop :=
  ∀ g, ∀ o < st.diskBlockSize, C.Parity (stripCells st C.rows g o)

/-- A row of a strip, as a row of the disk. -/
theorem strip_row_eq_iff {rows g t b : ℕ} (ht : t < rows) :
    g * rows + t = b ↔ g = b / rows ∧ t = b % rows := by
  constructor
  · rintro rfl
    rw [mul_comm, Nat.mul_add_div (by omega), Nat.div_eq_of_lt ht, Nat.mul_add_mod,
      Nat.mod_eq_of_lt ht]
    exact ⟨rfl, rfl⟩
  · rintro ⟨rfl, rfl⟩
    exact Nat.div_add_mod' b rows

section StoreParity

variable {C : Strip.Code} {st : NcfsState} {bs xorSize qSize size d b : ℕ}
variable {findQBlocksId : ℕ → ℕ → List ℕ}

/-- The cells after `encode`: in the strip of the picked block the written cells have the new byte
added, and the data cell has lost its old byte. -/
theorem arrayEncode_stripCells (h : st.Shaped C.dataDisks bs)
    (hsizes : CopySizes st size xorSize qSize) (buf : Buf) (hd : d < C.dataDisks)
    (hq : ∀ i ∈ findQBlocksId d (b % C.rows), i < C.rows)
    (hpick : arrayPick st (blockRequest st size) = some (d, b)) (g : ℕ) {o : ℕ} (ho : o < bs)
    (j : ℕ) {t : ℕ} (ht : t < C.rows) :
    stripCells (arrayEncode C.rows findQBlocksId xorSize qSize st buf size).2 C.rows g o (j, t) =
      if g = b / C.rows ∧ o < size then
        Xor.touch (C.written d (b % C.rows) (findQBlocksId d (b % C.rows))) (buf o)
          (Xor.touch [(d, b % C.rows)] (st.block d b o) (stripCells st C.rows g o)) (j, t)
      else stripCells st C.rows g o (j, t) := by
  rw [stripCells, arrayEncode_block h hsizes buf hpick ho]
  dsimp only
  by_cases hlt : o < size
  · simp only [hlt, and_true, if_true, strip_row_eq_iff ht]
    by_cases hg : g = b / C.rows
    · have hcount : ((findQBlocksId d (b % C.rows)).map fun i => i + b / C.rows * C.rows).count
          (g * C.rows + t) = (findQBlocksId d (b % C.rows)).count t := by
        rw [hg, add_comm (b / C.rows * C.rows)]
        exact List.count_map_of_injective _ (fun i => i + b / C.rows * C.rows)
          (fun i i' h => Nat.add_right_cancel h) t
      simp only [hg, true_and, if_true, Xor.touch, Strip.Code.count_written]
      rw [← hg] at hcount ⊢
      rw [hcount]
      by_cases hdata : j = d ∧ t = b % C.rows
      · obtain ⟨rfl, rfl⟩ := hdata
        have hrow : g * C.rows + b % C.rows = b := by rw [hg, Nat.div_add_mod']
        have h₁ : j ≠ C.dataDisks := by omega
        have h₂ : j ≠ C.dataDisks + 1 := by omega
        simp [h₁, h₂, stripCells, hrow, ZModModule.add_self]
      · have hne : ((d, b % C.rows) == (j, t)) = false := by
          rw [beq_eq_false_iff_ne]
          intro he
          obtain ⟨rfl, rfl⟩ := Prod.mk.inj he
          exact hdata ⟨rfl, rfl⟩
        simp only [hdata, if_false, List.count_cons, hne, List.count_nil, zero_add, add_smul]
        simp only [stripCells, Bool.false_eq_true, if_false, add_zero, zero_smul,
          ite_smul, one_smul]
    · have hcount : ((findQBlocksId d (b % C.rows)).map fun i => i + b / C.rows * C.rows).count
          (g * C.rows + t) = 0 := by
        refine List.count_eq_zero.2 fun hmem => ?_
        obtain ⟨i, hi, he⟩ := List.mem_map.1 hmem
        have hi' := hq i hi
        have hdiv := congrArg (fun n => n / C.rows) he
        simp only [add_comm i, Nat.mul_comm _ C.rows] at hdiv
        rw [Nat.mul_add_div (by omega), Nat.mul_add_div (by omega), Nat.div_eq_of_lt hi',
          Nat.div_eq_of_lt ht] at hdiv
        exact hg hdiv.symm
      simp [hg, hcount, stripCells]
  · simp only [hlt, and_false, if_false]
    rfl

/-- When a write keeps the equations of a code: the overwritten bytes are zero, and so are the new
ones where the code updates the wrong number of `Q` blocks. -/
theorem arrayEncode_storeParity_iff (h : st.Shaped C.dataDisks bs)
    (hsizes : CopySizes st size xorSize qSize) (buf : Buf) (hrows : 0 < C.rows)
    (hd : d < C.dataDisks) (hq : ∀ i ∈ findQBlocksId d (b % C.rows), i < C.rows)
    (hpick : arrayPick st (blockRequest st size) = some (d, b)) (hparity : StoreParity C st) :
    StoreParity C (arrayEncode C.rows findQBlocksId xorSize qSize st buf size).2 ↔
      ∀ o < size, st.block d b o = 0 ∧ ∀ i < C.rows,
        Odd ((findQBlocksId d (b % C.rows)).count i + (C.named i).count (d, b % C.rows) +
          (C.named i).count (C.dataDisks, b % C.rows)) → buf o = 0 := by
  have hr : b % C.rows < C.rows := Nat.mod_lt _ hrows
  have hcells := fun g {o} ho j {t} ht =>
    arrayEncode_stripCells (t := t) (o := o) h hsizes buf hd hq hpick g ho j ht
  have hshape : (arrayEncode C.rows findQBlocksId xorSize qSize st buf size).2.Shaped _ bs :=
    arrayEncode_shaped h buf
  have hsize : size ≤ bs := h.block_eq ▸ hsizes.size_le
  constructor
  · intro hafter o ho
    have hstrip := hafter (b / C.rows) o (by rw [hshape.block_eq]; omega)
    have hbefore := hparity (b / C.rows) o (by rw [h.block_eq]; omega)
    refine (Strip.Code.parity_write_iff hbefore hd hr (st.block d b o) (buf o)).1
      (hstrip.congr fun j _ t ht => ?_)
    rw [hcells _ (by omega) j ht, if_pos ⟨rfl, ho⟩]
  · intro hclean g o ho
    rw [hshape.block_eq] at ho
    have hbefore := hparity g o (by rwa [h.block_eq])
    by_cases hg : g = b / C.rows ∧ o < size
    · refine ((Strip.Code.parity_write_iff hbefore hd hr (st.block d b o) (buf o)).2
        (hclean o hg.2)).congr fun j _ t ht => ?_
      rw [hcells g ho j ht, if_pos hg]
    · refine hbefore.congr fun j _ t ht => ?_
      rw [hcells g ho j ht, if_neg hg]

/-- Equal disks satisfy the same equations. -/
theorem StoreParity.of_disk_eq {st' : NcfsState} (hparity : StoreParity C st)
    (hblock : st'.diskBlockSize = st.diskBlockSize) (hdisk : st'.disk = st.disk) :
    StoreParity C st' := by
  intro g o ho
  refine (hparity g o (by rwa [← hblock])).congr fun j _ t _ => ?_
  simp only [stripCells, NcfsState.block, hblock, hdisk]

end StoreParity

/-! ### Unused blocks -/

/-- No block has been freed, and what lies behind the free offsets of the data disks is zero. -/
structure Unused (st : NcfsState) (k : ℕ) : Prop where
  /-- The space list is empty. -/
  list_eq : st.spaceList = []
  /-- The blocks from the free offset on are zero. -/
  zero : ∀ d < k, ∀ b, st.freeOffset d ≤ b → ∀ o < st.diskBlockSize, st.block d b o = 0

section Unused

variable {st : NcfsState} {k bs stripSize xorSize qSize size : ℕ}
variable {findQBlocksId : ℕ → ℕ → List ℕ}

theorem arrayWrite_freeOffset (st : NcfsState) (d b : ℕ) (buf : Buf) :
    (arrayWrite stripSize findQBlocksId xorSize qSize st d b buf size).freeOffset =
      st.freeOffset := by
  rw [arrayWrite]
  refine (Loops.foldl_frame NcfsState.freeOffset (fun st q _ => ?_) _).trans ?_ <;> rfl

theorem arrayWrite_spaceList (st : NcfsState) (d b : ℕ) (buf : Buf) :
    (arrayWrite stripSize findQBlocksId xorSize qSize st d b buf size).spaceList =
      st.spaceList := by
  rw [arrayWrite]
  refine (Loops.foldl_frame NcfsState.spaceList (fun st q _ => ?_) _).trans ?_ <;> rfl

/-- The allocation only takes blocks off the space list. -/
theorem arrayAllocate_spaceList {req : ℕ} {x : ℕ × ℕ}
    (h : x ∈ (arrayAllocate st stripSize req).2.spaceList) : x ∈ st.spaceList := by
  rw [arrayAllocate] at h
  split at h
  · split at h
    · rw [chargeParityDisks] at h
      split at h <;> exact h
    · exact h
  · split at h
    · exact h
    · exact mem_of_mem_spaceListRemove h

theorem arrayEncode_spaceList {buf : Buf} {x : ℕ × ℕ}
    (h : x ∈ (arrayEncode stripSize findQBlocksId xorSize qSize st buf size).2.spaceList) :
    x ∈ st.spaceList := by
  rw [arrayEncode] at h
  split at h
  · rename_i hall
    have hmem : x ∈ (arrayAllocate st stripSize (blockRequest st size)).2.spaceList := by
      rw [blockRequest, hall]
      exact h
    exact arrayAllocate_spaceList hmem
  · rename_i hall
    rw [arrayWrite_spaceList] at h
    have hmem : x ∈ (arrayAllocate st stripSize (blockRequest st size)).2.spaceList := by
      rw [blockRequest, hall]
      exact h
    exact arrayAllocate_spaceList hmem

/-- Without freed blocks the allocation keeps the space list and the offsets of the data disks. -/
theorem arrayAllocate_unused (h : st.Shaped k bs) (hlist : st.spaceList = [])
    (stripSize req : ℕ) :
    (arrayAllocate st stripSize req).2.spaceList = [] ∧
      ∀ d < k, (arrayAllocate st stripSize req).2.freeOffset d = st.freeOffset d := by
  have hp : st.diskTotalNum - 2 = k := by rw [h.total_eq]; rfl
  have hq : st.diskTotalNum - 1 = k + 1 := by rw [h.total_eq]; rfl
  rw [arrayAllocate]
  split
  · split
    · rw [chargeParityDisks, hp, hq]
      split
      · refine ⟨hlist, fun d hd => ?_⟩
        dsimp only
        rw [Function.update_of_ne (by omega), Function.update_of_ne (by omega)]
      · refine ⟨hlist, fun d hd => ?_⟩
        dsimp only
        rw [Function.update_of_ne (by omega)]
    · exact ⟨hlist, fun _ _ => rfl⟩
  · rw [hlist]
    exact ⟨hlist, fun _ _ => rfl⟩

/-- Without freed blocks the first free block of a data disk is picked. -/
theorem Unused.pick (h : st.Shaped k bs) (hun : Unused st k) {req d b : ℕ}
    (hpick : arrayPick st req = some (d, b)) : d < k ∧ b = st.freeOffset d := by
  rw [arrayPick, hun.list_eq, List.head?_nil, Option.or_none] at hpick
  obtain ⟨hd, hb⟩ := selectDisk_eq_some hpick
  rw [h.total_eq] at hd
  exact ⟨by omega, hb⟩

/-- The picked block is zero. -/
theorem Unused.pick_zero (h : st.Shaped k bs) (hun : Unused st k) {req d b : ℕ}
    (hpick : arrayPick st req = some (d, b)) {o : ℕ} (ho : o < st.diskBlockSize) :
    st.block d b o = 0 := by
  obtain ⟨hd, rfl⟩ := hun.pick h hpick
  exact hun.zero d hd _ le_rfl o ho

/-- A write keeps what lies behind the free offsets zero. -/
theorem arrayEncode_unused (h : st.Shaped k bs) (hun : Unused st k)
    (hsizes : CopySizes st size xorSize qSize) (buf : Buf) :
    Unused (arrayEncode stripSize findQBlocksId xorSize qSize st buf size).2 k := by
  have hshape : (arrayEncode stripSize findQBlocksId xorSize qSize st buf size).2.Shaped k bs :=
    arrayEncode_shaped h buf
  obtain ⟨hlist, hoffset⟩ := arrayAllocate_unused h hun.list_eq stripSize
    (blockRequest st size)
  cases hpick : arrayPick st (blockRequest st size) with
  | none =>
      have hfst := arrayAllocate_fst st stripSize (blockRequest st size)
      rw [hpick] at hfst
      have hrun : (arrayEncode stripSize findQBlocksId xorSize qSize st buf size).2 =
          (arrayAllocate st stripSize (blockRequest st size)).2 := by
        rw [arrayEncode, blockRequest]
        rw [blockRequest] at hfst
        split
        · rename_i hall
          rw [hall]
        · rename_i hall
          rw [hall] at hfst
          cases hfst
      have hdisk :
          (arrayEncode stripSize findQBlocksId xorSize qSize st buf size).2.disk = st.disk :=
        (arrayEncode_none h buf hpick).2.2
      refine ⟨by rw [hrun, hlist], fun d hd b hb o ho => ?_⟩
      rw [hrun, hoffset d hd] at hb
      rw [hshape.block_eq, ← h.block_eq] at ho
      rw [NcfsState.block, hdisk, hshape.block_eq, ← h.block_eq]
      exact hun.zero d hd b hb o ho
  | some x =>
      obtain ⟨d, b⟩ := x
      obtain ⟨hd, hb⟩ := hun.pick h hpick
      have hreq := blockRequest_eq st hsizes.size_le
      refine ⟨?_, fun d' hd' b' hb' o ho => ?_⟩
      · rw [arrayEncode_some buf hpick, arrayWrite_spaceList]
        exact hlist
      · rw [arrayEncode_some buf hpick, arrayWrite_freeOffset, chargeDisk] at hb'
        dsimp only at hb'
        rw [hshape.block_eq] at ho
        rw [arrayEncode_block h hsizes buf hpick ho]
        have hold : st.freeOffset d' ≤ b' → st.block d' b' o = 0 := fun hle =>
          hun.zero d' hd' b' hle o (by rwa [h.block_eq])
        by_cases hdd : d' = d
        · subst hdd
          rw [Function.update_self, hreq] at hb'
          by_cases hlt : o < size
          · rw [if_neg (by omega)] at hb'
            rw [if_pos hlt, if_neg (by omega), if_neg (by omega), if_neg (by omega),
              hold (by omega), add_zero, add_zero]
          · rw [if_neg hlt]
            refine hold ?_
            split at hb' <;> omega
        · rw [Function.update_of_ne hdd, hoffset d' hd'] at hb'
          rw [if_neg (c := d' = d ∧ b' = b) (by omega), if_neg (c := d' = k ∧ b' = b) (by omega),
            if_neg (c := d' = k + 1) (by omega), hold hb', add_zero, add_zero, ite_self]

end Unused

end Ncfs
