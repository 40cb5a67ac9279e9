/-
**Migration to one disk less.**

`remap` takes the failed disk out of a RAID5 store.  Row by row, `remap_xor` recovers the block of
the failed disk and puts it to a free place on another one, and it moves the block that stands where
the parity of the row will be.  Then all parity blocks are written, and the tables of the files, the
free offsets and the setting are rewritten for the numbers that the disks have without the failed
one.

Main definitions:

* `Ncfs.RemapState`, `Ncfs.remapXor` — the program;
* `Ncfs.mountAfter` — the store that the file system mounts afterwards;
* `Ncfs.spaceAfter`, `Ncfs.placeOf` — where the blocks of each row are put;
* `Ncfs.cellsAfter` — what the blocks hold after so many rows;
* `Ncfs.RowsFinish` — the conditions under which the loop over the rows finishes;
* `Ncfs.raisedOffset` — where the free offsets are moved with the new parity.

Main results:

* `Ncfs.remapRows_ok`, `Ncfs.remapRows_finish` — the loop over the rows;
* `Ncfs.updateXorEncoding_ok`, `Ncfs.updateXorEncoding_finish`, `Ncfs.ParityDone.rows` — the new
  parity.
-/
import FuseMdr.FileSystem
import FuseMdr.Raid5

set_option relaxedAutoImplicit false
set_option autoImplicit false

namespace Ncfs

/-! ### The functions -/

/-- `struct block_move`: the disk and block that are left and those that are taken, the latter in
the numbers that the disks have without the failed one. -/
structure BlockMove where
  /-- `ori`. -/
  ori : ℕ × ℕ
  /-- `new`. -/
  new : ℕ × ℕ

/-- The variables of the program. -/
structure RemapState where
  /-- `bb_data` with the devices. -/
  bb : NcfsState
  /-- How far the pointer `free_size` has been moved to the front. -/
  freeSizeBack : ℕ
  /-- The first `move_cnt` entries of `move_rec`. -/
  moveRec : List BlockMove

/-- The entries that `move_rec` has room for. -/
def moveRecSize : ℕ := 100

/-- The parity disk of a row without disk `failDisk`. -/
def newParityDiskId (diskTotalNum failDisk blockNo : ℕ) : ℕ :=
  let id := raid5ParityDiskId (diskTotalNum - 1) blockNo
  if failDisk ≤ id then id + 1 else id

/-- The number of a disk without disk `failDisk`. -/
def newDiskId (failDisk diskId : ℕ) : ℕ := if failDisk < diskId then diskId - 1 else diskId

/-- `find_space`: the disk with the most free blocks, but for those that stand on a parity block.
The disk is compared with the new number of the parity disk. -/
def findSpace (bb : NcfsState) (failDisk : ℕ) : Option ℕ :=
  ((List.range bb.diskTotalNum).foldl (fun (acc : ℤ × Option ℕ) i =>
    if i = failDisk then acc
    else if i = raid5ParityDiskId (bb.diskTotalNum - 1) (bb.freeOffset i) then acc
    else if acc.1 < bb.freeSize i then (bb.freeSize i, some i) else acc) (-1, none)).2

/-- An entry is added to `move_rec`. -/
def recordMove (s : RemapState) (ori new : ℕ × ℕ) : Except CodingError RemapState :=
  if s.moveRec.length < moveRecSize then .ok { s with moveRec := s.moveRec ++ [⟨ori, new⟩] }
  else .error .undefined

/-- `write_and_allocate` for the block that was at `ori`.  Without a disk the index is `-1`. -/
def writeAndAllocate (s : RemapState) (buf : Buf) (ori : ℕ × ℕ) (failDisk : ℕ) :
    Except CodingError RemapState :=
  match findSpace s.bb failDisk with
  | none => .error .undefined
  | some disk => do
      let blockToWrite := s.bb.freeOffset disk
      let offset ← intMul blockToWrite s.bb.diskBlockSize
      let bb := writeDisk s.bb disk buf s.bb.diskBlockSize offset
      recordMove { s with bb := chargeDisk bb disk blockToWrite 1 } ori
        (newDiskId failDisk disk, blockToWrite)

/-- The sum of the blocks at `offset` of the disks that `skip` does not name. -/
def xorDisks (bb : NcfsState) (skip : ℕ → Bool) (offset : ℕ) : Buf :=
  (List.range bb.diskTotalNum).foldl (fun buf j =>
    if skip j then buf
    else xorBuf bb.diskBlockSize buf (readDisk bb j (fun _ => 0) bb.diskBlockSize offset))
      fun _ => 0

/-- One pass of the loop of `remap_xor`. -/
def remapRow (failDisk : ℕ) (s : RemapState) (i : ℕ) : Except CodingError RemapState := do
  let blockSize := s.bb.diskBlockSize
  let offset ← intMul i blockSize
  let oriParityDiskId := raid5ParityDiskId s.bb.diskTotalNum i
  let newParityDiskId := newParityDiskId s.bb.diskTotalNum failDisk i
  if oriParityDiskId = failDisk then
    writeAndAllocate s (readDisk s.bb newParityDiskId (fun _ => 0) blockSize offset)
      (newParityDiskId, i) failDisk
  else
    let s ← writeAndAllocate s (xorDisks s.bb (· = failDisk) offset) (failDisk, i) failDisk
    if newParityDiskId = oriParityDiskId then return s
    else
      let buf := readDisk s.bb newParityDiskId (fun _ => 0) blockSize offset
      recordMove { s with bb := writeDisk s.bb oriParityDiskId buf blockSize offset }
        (newParityDiskId, i) (newDiskId failDisk oriParityDiskId, i)

/-- The state that `xor_encoding` leaves, with the byte offset of the row.  The size is taken off
the pointer `free_size`, not off the entry. -/
def xorEncodingRow (failDisk : ℕ) (s : RemapState) (blockNo offset : ℕ) : RemapState :=
  let parityDiskId := newParityDiskId s.bb.diskTotalNum failDisk blockNo
  let buf := xorDisks s.bb (fun j => j = failDisk ∨ j = parityDiskId) offset
  let bb := writeDisk s.bb parityDiskId buf s.bb.diskBlockSize offset
  if bb.freeOffset parityDiskId < blockNo then
    { s with
      bb := { bb with freeOffset := Function.update bb.freeOffset parityDiskId blockNo }
      freeSizeBack := s.freeSizeBack + (blockNo - bb.freeOffset parityDiskId) }
  else { s with bb := bb }

/-- `xor_encoding`. -/
def xorEncoding (failDisk : ℕ) (s : RemapState) (blockNo : ℕ) : Except CodingError RemapState := do
  let offset ← intMul blockNo s.bb.diskBlockSize
  return xorEncodingRow failDisk s blockNo offset

/-- The largest free offset of the other disks, or `-1`. -/
def maxUsed (bb : NcfsState) (failDisk : ℕ) : ℤ :=
  (List.range bb.diskTotalNum).foldl (fun (maxused : ℤ) i =>
    if i = failDisk then maxused else if maxused < bb.freeOffset i then bb.freeOffset i
    else maxused) (-1)

/-- `update_xor_encoding`. -/
def updateXorEncoding (failDisk : ℕ) (s : RemapState) : Except CodingError RemapState :=
  (List.range (maxUsed s.bb failDisk).toNat).foldlM (xorEncoding failDisk) s

/-- A file of `rootdir`: its size and the table of its blocks. -/
structure InfoFile where
  /-- The first `int`. -/
  fileSize : ℕ
  /-- The `struct data_block_info` in each slot. -/
  blocks : ℕ → ℕ × ℕ

/-- The number of slots in use. -/
def InfoFile.slots (bb : NcfsState) (file : InfoFile) : ℕ :=
  roundToBlockSize bb file.fileSize / bb.diskBlockSize

/-- The size that is rounded up is an `int`, and so are the offsets of the slots. -/
def InfoFile.FitsInt (bb : NcfsState) (file : InfoFile) : Prop :=
  roundToBlockSize bb file.fileSize < 2 ^ 31 ∧ file.slots bb * sizeofBlockInfo < 2 ^ 31

instance (bb : NcfsState) (file : InfoFile) : Decidable (file.FitsInt bb) :=
  inferInstanceAs (Decidable (_ ∧ _))

/-- What is written in the place of an entry: the first move from there. -/
def pointTo (moveRec : List BlockMove) (entry : ℕ × ℕ) : ℕ × ℕ :=
  match moveRec.find? (fun move => move.ori = entry) with
  | some move => move.new
  | none => entry

/-- `update_file_block` for one file. -/
def updateFileBlock (s : RemapState) (file : InfoFile) : InfoFile :=
  { file with
    blocks := (List.range (file.slots s.bb)).foldl (fun blocks i =>
      Function.update blocks i (pointTo s.moveRec (blocks i))) file.blocks }

/-- `struct raid_metadata`. -/
structure RaidMetadata where
  /-- `disk_id`. -/
  diskId : ℕ
  /-- `free_offset`. -/
  freeOffset : ℕ
  /-- `free_size`. -/
  freeSize : ℤ

/-- `free_size[i]`, with `stray` the memory in front of the array. -/
def RemapState.freeSizeAt (s : RemapState) (stray : ℤ → ℤ) (i : ℕ) : ℤ :=
  if s.freeSizeBack ≤ i then s.bb.freeSize (i - s.freeSizeBack) else stray (i - s.freeSizeBack)

/-- `update_raid_metadata`: the records by place.  The offset is written in blocks, the size in
bytes, of which an `int` keeps the low bits; nothing else depends on the size. -/
def updateRaidMetadata (failDisk : ℕ) (stray : ℤ → ℤ) (s : RemapState) : ℕ → Option RaidMetadata :=
  (List.range s.bb.diskTotalNum).foldl (fun file i =>
    if i = failDisk then file
    else
      let diskId := newDiskId failDisk i
      Function.update file diskId
        (some ⟨diskId, s.bb.freeOffset i,
          IntFile.toInt (s.freeSizeAt stray i * s.bb.diskBlockSize)⟩)) fun _ => none

/-- What `readdir` returns for `rootdir`, in its order: the info files, and `none` for `.` and
`..`. -/
abbrev RootDir := List (Option InfoFile)

/-- What `remap_xor` leaves. -/
structure Remapped where
  /-- The variables and devices. -/
  state : RemapState
  /-- `rootdir`. -/
  dir : RootDir
  /-- `raid_metadata`. -/
  metadata : ℕ → Option RaidMetadata
  /-- `raid_health`. -/
  health : List ℕ
  /-- `disk_total_num` in `raid_setting`. -/
  diskTotalNum : ℕ

/-- `update_file_block`.  The first two entries of the directory are dropped unseen. -/
def updateFileBlocks (dir : RootDir) (s : RemapState) : RootDir :=
  dir.take 2 ++ (dir.drop 2).map (Option.map (updateFileBlock s))

/-- The last calls of `remap_xor`. -/
def rewriteTables (failDisk : ℕ) (dir : RootDir) (stray : ℤ → ℤ) (s : RemapState) : Remapped where
  state := s
  dir := updateFileBlocks dir s
  metadata := updateRaidMetadata failDisk stray s
  health := List.replicate (s.bb.diskTotalNum - 1) 0
  diskTotalNum := s.bb.diskTotalNum - 1

/-- `remap_xor`. -/
def remapXor (bb : NcfsState) (failDisk : ℕ) (dir : RootDir) (stray : ℤ → ℤ) :
    Except CodingError Remapped := do
  let s ← (List.range (bb.freeOffset failDisk)).foldlM (remapRow failDisk) ⟨bb, 0, []⟩
  let s ← updateXorEncoding failDisk s
  if ∀ file ∈ (dir.drop 2).reduceOption, file.FitsInt s.bb then
    return rewriteTables failDisk dir stray s
  else .error .undefined

/-! ### The store that is mounted afterwards -/

/-- The old number of a disk. -/
def oldDiskId (failDisk diskId : ℕ) : ℕ := if failDisk ≤ diskId then diskId + 1 else diskId

/-- The file system reads the offsets and sizes as bytes, and the devices under their new
numbers. -/
def mountAfter (failDisk : ℕ) (r : Remapped) : NcfsState :=
  { r.state.bb with
    diskTotalNum := r.diskTotalNum
    freeOffset := fun d => ((r.metadata d).map RaidMetadata.freeOffset).getD 0 /
      r.state.bb.diskBlockSize
    freeSize :=
      fun d => (((r.metadata d).map RaidMetadata.freeSize).getD 0).tdiv r.state.bb.diskBlockSize
    diskStatus := fun d => r.health.getD d 0
    disk := fun d => r.state.bb.disk (oldDiskId failDisk d) }

/-! ### Where the blocks are put -/

/-- The free offsets and sizes after the blocks of the first rows have been put away. -/
def spaceAfter (bb : NcfsState) (failDisk : ℕ) : ℕ → NcfsState
  | 0 => bb
  | i + 1 =>
      let bb := spaceAfter bb failDisk i
      match findSpace bb failDisk with
      | some disk => chargeDisk bb disk (bb.freeOffset disk) 1
      | none => bb

/-- The disk and block that row `i` is given, in the old numbers. -/
def placeOf (bb : NcfsState) (failDisk i : ℕ) : Option (ℕ × ℕ) :=
  (findSpace (spaceAfter bb failDisk i) failDisk).map fun disk =>
    (disk, (spaceAfter bb failDisk i).freeOffset disk)

/-- In row `i` a block moves from the new place of the parity to the old one. -/
def Swaps (diskTotalNum failDisk i : ℕ) : Prop :=
  raid5ParityDiskId diskTotalNum i ≠ failDisk ∧
    newParityDiskId diskTotalNum failDisk i ≠ raid5ParityDiskId diskTotalNum i

instance (diskTotalNum failDisk i : ℕ) : Decidable (Swaps diskTotalNum failDisk i) :=
  inferInstanceAs (Decidable (_ ∧ _))

/-- The block of row `i` that is given a new place. -/
def movedBlock (diskTotalNum failDisk i : ℕ) : ℕ × ℕ :=
  if raid5ParityDiskId diskTotalNum i = failDisk then (newParityDiskId diskTotalNum failDisk i, i)
  else (failDisk, i)

/-- The entries of `move_rec` for row `i`. -/
def rowMoves (bb : NcfsState) (failDisk i : ℕ) : List BlockMove :=
  ((placeOf bb failDisk i).map fun p =>
      ⟨movedBlock bb.diskTotalNum failDisk i, (newDiskId failDisk p.1, p.2)⟩).toList ++
    if Swaps bb.diskTotalNum failDisk i then
      [⟨(newParityDiskId bb.diskTotalNum failDisk i, i),
        (newDiskId failDisk (raid5ParityDiskId bb.diskTotalNum i), i)⟩]
    else []

/-- The value that is put away in row `i`, with `c` what the blocks hold in one byte. -/
noncomputable def rowValue (diskTotalNum failDisk : ℕ) (c : ℕ × ℕ → Byte) (i : ℕ) : Byte :=
  if raid5ParityDiskId diskTotalNum i = failDisk then c (newParityDiskId diskTotalNum failDisk i, i)
  else ∑ j ∈ (Finset.range diskTotalNum).erase failDisk, c (j, i)

/-- The blocks after the block of row `i` has been put away. -/
noncomputable def putAway (bb : NcfsState) (failDisk i : ℕ) (c : ℕ × ℕ → Byte) : ℕ × ℕ → Byte :=
  fun x => if placeOf bb failDisk i = some x then rowValue bb.diskTotalNum failDisk c i else c x

/-- One byte of the blocks after the first rows, with `c` what they held before. -/
noncomputable def cellsAfter (bb : NcfsState) (failDisk : ℕ) (c : ℕ × ℕ → Byte) : ℕ → ℕ × ℕ → Byte
  | 0 => c
  | i + 1 => fun x =>
      let put := putAway bb failDisk i (cellsAfter bb failDisk c i)
      if Swaps bb.diskTotalNum failDisk i ∧ x = (raid5ParityDiskId bb.diskTotalNum i, i) then
        put (newParityDiskId bb.diskTotalNum failDisk i, i)
      else put x

/-- Byte `o` of the blocks of some devices. -/
def cellsOf (bb : NcfsState) (disk : ℕ → ℕ → Byte) (o : ℕ) : ℕ × ℕ → Byte := fun x =>
  NcfsState.block { bb with disk := disk } x.1 x.2 o

section Places

variable {bb bb' : NcfsState} {failDisk i j d : ℕ} {p q x : ℕ × ℕ}

/-- The disk that is found is another one of the array. -/
theorem findSpace_spec (h : findSpace bb failDisk = some d) :
    d < bb.diskTotalNum ∧ d ≠ failDisk := by
  have hinv := Loops.foldl_inv (l := List.range bb.diskTotalNum)
    (s := ((-1 : ℤ), (none : Option ℕ))) (f := fun (acc : ℤ × Option ℕ) i =>
      if i = failDisk then acc
      else if i = raid5ParityDiskId (bb.diskTotalNum - 1) (bb.freeOffset i) then acc
      else if acc.1 < bb.freeSize i then (bb.freeSize i, some i) else acc)
    (fun acc => ∀ d, acc.2 = some d → d < bb.diskTotalNum ∧ d ≠ failDisk)
      (fun acc i hi hacc d hd => ?_)
    (fun d hd => by cases hd)
  · exact hinv d h
  · split at hd
    · exact hacc d hd
    split at hd
    · exact hacc d hd
    split at hd
    · obtain rfl := Option.some.inj hd
      exact ⟨List.mem_range.1 hi, ‹_›⟩
    · exact hacc d hd

/-- Only the free offsets and sizes are looked at. -/
theorem findSpace_congr (htotal : bb'.diskTotalNum = bb.diskTotalNum)
    (hoffset : bb'.freeOffset = bb.freeOffset) (hsize : bb'.freeSize = bb.freeSize) :
    findSpace bb' failDisk = findSpace bb failDisk := by
  rw [findSpace, findSpace, htotal, hoffset, hsize]

theorem spaceAfter_diskTotalNum (bb : NcfsState) (failDisk i : ℕ) :
    (spaceAfter bb failDisk i).diskTotalNum = bb.diskTotalNum := by
  induction i with
  | zero => rfl
  | succ i ih =>
      rw [spaceAfter]
      split <;> exact ih

theorem placeOf_spec (h : placeOf bb failDisk i = some p) :
    findSpace (spaceAfter bb failDisk i) failDisk = some p.1 ∧
    p.2 = (spaceAfter bb failDisk i).freeOffset p.1 ∧
      p.1 < bb.diskTotalNum ∧ p.1 ≠ failDisk := by
  obtain ⟨d, hfind, rfl⟩ := Option.map_eq_some_iff.1 h
  obtain ⟨hlt, hne⟩ := findSpace_spec hfind
  exact ⟨hfind, rfl, (spaceAfter_diskTotalNum bb failDisk i).symm ▸ hlt, hne⟩

/-- A place is taken off the free blocks of its disk. -/
theorem spaceAfter_succ (h : placeOf bb failDisk i = some p) :
    spaceAfter bb failDisk (i + 1) = chargeDisk (spaceAfter bb failDisk i) p.1 p.2 1 := by
  obtain ⟨hfind, hoffset, -, -⟩ := placeOf_spec h
  rw [spaceAfter, hfind, hoffset]

/-- Free offsets do not go back. -/
theorem freeOffset_spaceAfter_mono (bb : NcfsState) (failDisk d : ℕ) (hij : i ≤ j) :
    (spaceAfter bb failDisk i).freeOffset d ≤ (spaceAfter bb failDisk j).freeOffset d := by
  induction hij with
  | refl => exact le_rfl
  | @step j hij ih =>
      refine ih.trans ?_
      rw [spaceAfter]
      split
      · rename_i disk _
        by_cases hd : d = disk
        · subst hd
          simp [chargeDisk]
        · simp [chargeDisk, hd]
      · exact le_rfl

/-- Later places lie behind the free offset, -/
theorem place_lt (h : placeOf bb failDisk i = some p) (hij : i < j) :
    p.2 < (spaceAfter bb failDisk j).freeOffset p.1 := by
  refine lt_of_lt_of_le ?_ (freeOffset_spaceAfter_mono bb failDisk p.1 (Nat.succ_le_of_lt hij))
  rw [spaceAfter_succ h, chargeDisk]
  simp

/-- so that none is given twice. -/
theorem place_ne (hp : placeOf bb failDisk i = some p) (hq : placeOf bb failDisk j = some q)
    (hij : i < j) : p ≠ q := by
  rintro rfl
  have hlt := place_lt hp hij
  have hge := (placeOf_spec hq).2.1
  omega

end Places

/-! ### The loop over the rows -/

/-- The first `n` rows are done: there is a place for each and room in `move_rec`, and the byte
offsets are `int`s. -/
structure RowsFinish (bb : NcfsState) (failDisk n : ℕ) : Prop where
  /-- The disks. -/
  places : ∀ i < n, (placeOf bb failDisk i).isSome
  /-- The moves: one for each row, and a second one where the parity changes its disk. -/
  moves : n + (List.range n).countP (Swaps bb.diskTotalNum failDisk) ≤ moveRecSize
  /-- The offsets of the rows. -/
  rows : ∀ i < n, i * bb.diskBlockSize < 2 ^ 31
  /-- The offsets of the places. -/
  offsets : ∀ i < n, ∀ p, placeOf bb failDisk i = some p → p.2 * bb.diskBlockSize < 2 ^ 31

section Rows

variable {bb : NcfsState} {disk : ℕ → ℕ → Byte} {failDisk i b o : ℕ} {s s' : RemapState}
  {p ori : ℕ × ℕ} {buf : Buf}

/-- The sum of the blocks of a row. -/
theorem xorDisks_apply (bb : NcfsState) (skip : ℕ → Bool) (b : ℕ) (ho : o < bb.diskBlockSize) :
    xorDisks bb skip (b * bb.diskBlockSize) o =
      ∑ j ∈ (Finset.range bb.diskTotalNum).filter fun j => ¬ skip j, bb.block j b o := by
  have hfold := @List.foldl_filter _ _ (fun j => !skip j) (fun buf j => xorBuf bb.diskBlockSize buf
    (readDisk bb j (fun _ => 0) bb.diskBlockSize (b * bb.diskBlockSize)))
    (List.range bb.diskTotalNum) fun _ => 0
  have hskip : xorDisks bb skip (b * bb.diskBlockSize) =
      ((List.range bb.diskTotalNum).filter fun j => !skip j).foldl (fun buf j =>
        xorBuf bb.diskBlockSize buf (readDisk bb j (fun _ => 0) bb.diskBlockSize
          (b * bb.diskBlockSize))) fun _ => 0 := by
    rw [hfold, xorDisks]
    refine Loops.foldl_congr (fun _ => True) (fun buf j _ _ => ⟨?_, trivial⟩) trivial
    cases skip j <;> rfl
  rw [hskip, foldl_xorBuf, xorBuf_of_lt _ _ ho, zero_add, Xor.sum_map_filter_range,
    Finset.sum_filter]
  refine Finset.sum_congr rfl fun j _ => ?_
  rw [readDisk_block _ _ _ _ _ ho]
  cases skip j <;> rfl

/-- The first `i` rows are done, on the devices `disk`. -/
structure RowsDone (bb : NcfsState) (disk : ℕ → ℕ → Byte) (failDisk i : ℕ) (s : RemapState) :
    Prop where
  /-- The number of disks. -/
  total_eq : s.bb.diskTotalNum = bb.diskTotalNum
  /-- The size of a block. -/
  block_eq : s.bb.diskBlockSize = bb.diskBlockSize
  /-- The free offsets. -/
  offset_eq : s.bb.freeOffset = (spaceAfter bb failDisk i).freeOffset
  /-- The free sizes. -/
  size_eq : s.bb.freeSize = (spaceAfter bb failDisk i).freeSize
  /-- The array of the free sizes is where it was. -/
  back_eq : s.freeSizeBack = 0
  /-- The moves. -/
  moves_eq : s.moveRec = (List.range i).flatMap (rowMoves bb failDisk)
  /-- The blocks. -/
  cells : ∀ d b, ∀ o < bb.diskBlockSize,
    s.bb.block d b o = cellsAfter bb failDisk (cellsOf bb disk o) i (d, b)

/-- Before the first row. -/
theorem rowsDone_zero (bb : NcfsState) (disk : ℕ → ℕ → Byte) (failDisk : ℕ) :
    RowsDone bb disk failDisk 0 ⟨{ bb with disk := disk }, 0, []⟩ :=
  ⟨rfl, rfl, rfl, rfl, rfl, rfl, fun _ _ _ _ => rfl⟩

/-- A block has been put to place `p` and the move has been recorded. -/
structure BlockPut (bb : NcfsState) (failDisk i : ℕ) (s : RemapState) (p ori : ℕ × ℕ) (buf : Buf)
    (s' : RemapState) : Prop where
  /-- The number of disks. -/
  total_eq : s'.bb.diskTotalNum = bb.diskTotalNum
  /-- The size of a block. -/
  block_eq : s'.bb.diskBlockSize = bb.diskBlockSize
  /-- The free offsets. -/
  offset_eq : s'.bb.freeOffset = (spaceAfter bb failDisk (i + 1)).freeOffset
  /-- The free sizes. -/
  size_eq : s'.bb.freeSize = (spaceAfter bb failDisk (i + 1)).freeSize
  /-- The array of the free sizes is where it was. -/
  back_eq : s'.freeSizeBack = 0
  /-- The new move. -/
  moves_eq : s'.moveRec = s.moveRec ++ [⟨ori, (newDiskId failDisk p.1, p.2)⟩]
  /-- The blocks. -/
  block : ∀ d b, ∀ o < bb.diskBlockSize,
    s'.bb.block d b o = if p = (d, b) then buf o else s.bb.block d b o

/-- There is room for another move exactly when `recordMove` succeeds. -/
theorem recordMove_eq_ok {s s' : RemapState} {ori new : ℕ × ℕ} :
    recordMove s ori new = .ok s' ↔
      s.moveRec.length < moveRecSize ∧ { s with moveRec := s.moveRec ++ [⟨ori, new⟩] } = s' := by
  rw [recordMove]
  split <;> simp [*]

/-- `write_and_allocate`, when there is a place. -/
theorem RowsDone.put_ok (h : RowsDone bb disk failDisk i s) (hp : placeOf bb failDisk i = some p)
    (hfits : p.2 * bb.diskBlockSize < 2 ^ 31) (hlen : s.moveRec.length < moveRecSize) (buf : Buf)
    (ori : ℕ × ℕ) :
    ∃ s', writeAndAllocate s buf ori failDisk = .ok s' ∧ BlockPut bb failDisk i s p ori buf s' := by
  obtain ⟨hfind, hplace, -, -⟩ := placeOf_spec hp
  have hspace := spaceAfter_succ hp
  have hfind' : findSpace s.bb failDisk = some p.1 :=
    (findSpace_congr (h.total_eq.trans (spaceAfter_diskTotalNum bb failDisk i).symm) h.offset_eq
      h.size_eq).trans hfind
  have hp2 : s.bb.freeOffset p.1 = p.2 := by rw [h.offset_eq, ← hplace]
  have hmul : intMul p.2 s.bb.diskBlockSize = .ok (p.2 * s.bb.diskBlockSize) :=
    intMul_of_lt (h.block_eq.symm ▸ hfits)
  rw [writeAndAllocate, hfind']
  simp only [hp2, hmul, Loops.ok_bind]
  refine ⟨_, recordMove_eq_ok.2 ⟨hlen, rfl⟩, h.total_eq, h.block_eq, ?_, ?_, h.back_eq, rfl,
    fun d b o ho => ?_⟩
  · simp only [chargeDisk, writeDisk, hspace, h.offset_eq]
  · simp only [chargeDisk, writeDisk, hspace, h.size_eq]
  · have hblock := block_writeDisk s.bb p.1 p.2 s.bb.diskBlockSize buf le_rfl (x := d) (y := b)
      (show o < s.bb.diskBlockSize from h.block_eq.symm ▸ ho)
    refine hblock.trans (if_congr ?_ rfl rfl)
    rw [h.block_eq, and_iff_left ho, Prod.ext_iff]
    exact ⟨fun hd => ⟨hd.1.symm, hd.2.symm⟩, fun hd => ⟨hd.1.symm, hd.2.symm⟩⟩

/-- `write_and_allocate` needs a place, its offset, and room. -/
theorem RowsDone.of_put (h : RowsDone bb disk failDisk i s)
    (hok : writeAndAllocate s buf ori failDisk = .ok s') :
    ∃ p, placeOf bb failDisk i = some p ∧ p.2 * bb.diskBlockSize < 2 ^ 31 ∧
      s.moveRec.length < moveRecSize ∧ BlockPut bb failDisk i s p ori buf s' := by
  have hfind : findSpace s.bb failDisk = findSpace (spaceAfter bb failDisk i) failDisk :=
    findSpace_congr (h.total_eq.trans (spaceAfter_diskTotalNum bb failDisk i).symm) h.offset_eq
      h.size_eq
  have hok' := hok
  rw [writeAndAllocate, hfind] at hok
  cases hdisk : findSpace (spaceAfter bb failDisk i) failDisk with
  | none =>
      rw [hdisk] at hok
      cases hok
  | some d =>
      rw [hdisk] at hok
      have hp : placeOf bb failDisk i = some (d, (spaceAfter bb failDisk i).freeOffset d) := by
        rw [placeOf, hdisk]
        rfl
      obtain ⟨offset, hmul, hrecord⟩ := Loops.bind_eq_ok hok
      have hfits := (intMul_eq_ok hmul).1
      have hlen : s.moveRec.length < moveRecSize := (recordMove_eq_ok.1 hrecord).1
      rw [h.block_eq, h.offset_eq] at hfits
      obtain ⟨s₁, hok₁, hput⟩ := h.put_ok hp hfits hlen buf ori
      obtain rfl := Except.ok.inj (hok'.symm.trans hok₁)
      exact ⟨_, hp, hfits, hlen, hput⟩

/-- With the value of the row, the blocks are as `putAway` has them. -/
theorem BlockPut.cells {s₁ : RemapState} (hput : BlockPut bb failDisk i s p ori buf s₁)
    (h : RowsDone bb disk failDisk i s) (hp : placeOf bb failDisk i = some p)
    (hbuf : ∀ o < bb.diskBlockSize, buf o =
      rowValue bb.diskTotalNum failDisk (cellsAfter bb failDisk (cellsOf bb disk o) i) i)
    (d b : ℕ) (ho : o < bb.diskBlockSize) : s₁.bb.block d b o =
      putAway bb failDisk i (cellsAfter bb failDisk (cellsOf bb disk o) i) (d, b) := by
  rw [hput.block d b o ho, putAway, hp]
  refine if_congr ⟨congrArg some, Option.some.inj⟩ (hbuf o ho) (h.cells d b o ho)

/-- A row without a second move is done. -/
theorem BlockPut.rowsDone {s₁ : RemapState}
    (hput : BlockPut bb failDisk i s p (movedBlock bb.diskTotalNum failDisk i) buf s₁)
    (h : RowsDone bb disk failDisk i s) (hp : placeOf bb failDisk i = some p)
    (hbuf : ∀ o < bb.diskBlockSize, buf o =
      rowValue bb.diskTotalNum failDisk (cellsAfter bb failDisk (cellsOf bb disk o) i) i)
    (hswap : ¬ Swaps bb.diskTotalNum failDisk i) : RowsDone bb disk failDisk (i + 1) s₁ where
  total_eq := hput.total_eq
  block_eq := hput.block_eq
  offset_eq := hput.offset_eq
  size_eq := hput.size_eq
  back_eq := hput.back_eq
  moves_eq := by
    rw [hput.moves_eq, h.moves_eq, List.range_succ, List.flatMap_append, List.flatMap_singleton,
      rowMoves, hp, if_neg hswap]
    rfl
  cells d b o ho := by
    rw [hput.cells h hp hbuf d b ho, cellsAfter]
    exact (if_neg fun hand => hswap hand.1).symm

/-- A row with a second move. -/
theorem BlockPut.rowsDone_swap {s₁ : RemapState}
    (hput : BlockPut bb failDisk i s p (movedBlock bb.diskTotalNum failDisk i) buf s₁)
    (h : RowsDone bb disk failDisk i s) (hp : placeOf bb failDisk i = some p)
    (hbuf : ∀ o < bb.diskBlockSize, buf o =
      rowValue bb.diskTotalNum failDisk (cellsAfter bb failDisk (cellsOf bb disk o) i) i)
    (hswap : Swaps bb.diskTotalNum failDisk i) :
    RowsDone bb disk failDisk (i + 1) { s₁ with
      bb := writeDisk s₁.bb (raid5ParityDiskId bb.diskTotalNum i)
        (readDisk s₁.bb (newParityDiskId bb.diskTotalNum failDisk i) (fun _ => 0) bb.diskBlockSize
          (i * bb.diskBlockSize)) bb.diskBlockSize (i * bb.diskBlockSize)
      moveRec := s₁.moveRec ++ [⟨(newParityDiskId bb.diskTotalNum failDisk i, i),
        (newDiskId failDisk (raid5ParityDiskId bb.diskTotalNum i), i)⟩] } where
  total_eq := hput.total_eq
  block_eq := hput.block_eq
  offset_eq := hput.offset_eq
  size_eq := hput.size_eq
  back_eq := hput.back_eq
  moves_eq := by
    rw [hput.moves_eq, h.moves_eq, List.range_succ, List.flatMap_append, List.flatMap_singleton,
      rowMoves, hp, if_pos hswap, List.append_assoc]
    rfl
  cells d b o ho := by
    have ho' : o < s₁.bb.diskBlockSize := hput.block_eq.symm ▸ ho
    have hwrite := block_writeDisk s₁.bb (raid5ParityDiskId bb.diskTotalNum i) i
      s₁.bb.diskBlockSize (readDisk s₁.bb (newParityDiskId bb.diskTotalNum failDisk i)
        (fun _ => 0) bb.diskBlockSize (i * bb.diskBlockSize)) le_rfl (x := d) (y := b) ho'
    rw [hput.block_eq] at hwrite
    refine hwrite.trans ?_
    rw [cellsAfter]
    refine if_congr ?_ ?_ (hput.cells h hp hbuf d b ho)
    · rw [and_iff_left ho, and_iff_right hswap, Prod.mk.injEq]
    · have hread := readDisk_block s₁.bb (newParityDiskId bb.diskTotalNum failDisk i) i
        s₁.bb.diskBlockSize (fun _ => 0) ho'
      rw [hput.block_eq] at hread
      exact hread.trans (hput.cells h hp hbuf _ i ho)

/-- One row, when there is a place for its block, room in `move_rec`, and the byte offsets are
`int`s. -/
theorem RowsDone.row_ok (h : RowsDone bb disk failDisk i s) (hp : placeOf bb failDisk i = some p)
    (hfits : p.2 * bb.diskBlockSize < 2 ^ 31) (hrow : i * bb.diskBlockSize < 2 ^ 31)
    (hlen : s.moveRec.length + (rowMoves bb failDisk i).length ≤ moveRecSize) :
    ∃ s', remapRow failDisk s i = .ok s' ∧ RowsDone bb disk failDisk (i + 1) s' := by
  have hfirst : s.moveRec.length < moveRecSize := by
    rw [rowMoves, hp] at hlen
    simp only [Option.map_some, Option.toList_some, List.length_append, List.length_singleton]
      at hlen
    omega
  have hread : ∀ d, ∀ o < bb.diskBlockSize,
      readDisk s.bb d (fun _ => 0) bb.diskBlockSize (i * bb.diskBlockSize) o =
        cellsAfter bb failDisk (cellsOf bb disk o) i (d, i) := by
    intro d o ho
    rw [← h.cells d i o ho, ← h.block_eq]
    exact readDisk_block _ _ _ _ _ (h.block_eq.symm ▸ ho)
  rw [remapRow, h.total_eq, h.block_eq, intMul_of_lt hrow, Loops.ok_bind]
  by_cases hfail : raid5ParityDiskId bb.diskTotalNum i = failDisk
  · -- the parity of the row is lost
    have hmoved : movedBlock bb.diskTotalNum failDisk i =
        (newParityDiskId bb.diskTotalNum failDisk i, i) := if_pos hfail
    obtain ⟨s₁, hok, hput⟩ := h.put_ok hp hfits hfirst
      (readDisk s.bb (newParityDiskId bb.diskTotalNum failDisk i) (fun _ => 0) bb.diskBlockSize
        (i * bb.diskBlockSize)) (movedBlock bb.diskTotalNum failDisk i)
    refine ⟨s₁, ?_, hput.rowsDone h hp (fun o ho => ?_) fun hswap => hswap.1 hfail⟩
    · rw [hmoved] at hok
      exact (if_pos hfail).trans hok
    · rw [rowValue, if_pos hfail]
      exact hread _ o ho
  · have hmoved : movedBlock bb.diskTotalNum failDisk i = (failDisk, i) := if_neg hfail
    obtain ⟨s₁, hok, hput⟩ := h.put_ok hp hfits hfirst
      (xorDisks s.bb (· = failDisk) (i * bb.diskBlockSize)) (movedBlock bb.diskTotalNum failDisk i)
    have hbuf : ∀ o < bb.diskBlockSize,
        xorDisks s.bb (· = failDisk) (i * bb.diskBlockSize) o = rowValue bb.diskTotalNum failDisk
          (cellsAfter bb failDisk (cellsOf bb disk o) i) i := by
      intro o ho
      rw [← h.block_eq, xorDisks_apply _ _ _ (h.block_eq.symm ▸ ho), rowValue, if_neg hfail,
        h.total_eq]
      refine Finset.sum_congr ?_ fun j _ => h.cells j i o ho
      ext j
      simp [and_comm]
    rw [hmoved] at hok
    dsimp only
    rw [if_neg hfail, hok, Loops.ok_bind]
    by_cases hsame : newParityDiskId bb.diskTotalNum failDisk i =
        raid5ParityDiskId bb.diskTotalNum i
    · exact ⟨s₁, if_pos hsame, hput.rowsDone h hp hbuf fun hswap => hswap.2 hsame⟩
    · have hswap : Swaps bb.diskTotalNum failDisk i := ⟨hfail, hsame⟩
      have hsecond : s₁.moveRec.length < moveRecSize := by
        rw [rowMoves, hp, if_pos hswap] at hlen
        simp only [Option.map_some, Option.toList_some, List.length_append, List.length_singleton]
          at hlen
        rw [hput.moves_eq, List.length_append, List.length_singleton]
        omega
      exact ⟨_, (if_neg hsame).trans (recordMove_eq_ok.2 ⟨hsecond, rfl⟩),
        hput.rowsDone_swap h hp hbuf hswap⟩

/-- A row that finishes has met these conditions. -/
theorem RowsDone.of_row (h : RowsDone bb disk failDisk i s) (hok : remapRow failDisk s i = .ok s') :
    ∃ p, placeOf bb failDisk i = some p ∧ p.2 * bb.diskBlockSize < 2 ^ 31 ∧
      i * bb.diskBlockSize < 2 ^ 31 ∧
      s.moveRec.length + (rowMoves bb failDisk i).length ≤ moveRecSize ∧
      RowsDone bb disk failDisk (i + 1) s' := by
  have hdone := hok
  rw [remapRow, h.total_eq, h.block_eq] at hok
  obtain ⟨offset, hmul, hok⟩ := Loops.bind_eq_ok hok
  obtain ⟨hrow, rfl⟩ := intMul_eq_ok hmul
  obtain ⟨p, hp, hfits, hlen⟩ : ∃ p, placeOf bb failDisk i = some p ∧
      p.2 * bb.diskBlockSize < 2 ^ 31 ∧
      s.moveRec.length + (rowMoves bb failDisk i).length ≤ moveRecSize := by
    by_cases hfail : raid5ParityDiskId bb.diskTotalNum i = failDisk
    · obtain ⟨p, hp, hfits, hlen, -⟩ := h.of_put ((if_pos hfail).symm.trans hok)
      refine ⟨p, hp, hfits, ?_⟩
      rw [rowMoves, hp, if_neg fun hswap => hswap.1 hfail]
      exact hlen
    · obtain ⟨s₁, hput, hrest⟩ := Loops.bind_eq_ok ((if_neg hfail).symm.trans hok)
      obtain ⟨p, hp, hfits, hlen, hs₁⟩ := h.of_put hput
      refine ⟨p, hp, hfits, ?_⟩
      rw [rowMoves, hp]
      by_cases hsame : newParityDiskId bb.diskTotalNum failDisk i =
          raid5ParityDiskId bb.diskTotalNum i
      · rw [if_neg fun hswap => hswap.2 hsame]
        exact hlen
      · have hrecord := recordMove_eq_ok.1 ((if_neg hsame).symm.trans hrest)
        rw [hs₁.moves_eq, List.length_append, List.length_singleton] at hrecord
        rw [if_pos ⟨hfail, hsame⟩]
        exact hrecord.1
  obtain ⟨s₂, hok₂, hdone₂⟩ := h.row_ok hp hfits hrow hlen
  obtain rfl := Except.ok.inj (hdone.symm.trans hok₂)
  exact ⟨p, hp, hfits, hrow, hlen, hdone₂⟩

/-- The number of moves. -/
theorem length_moves {n : ℕ} (hplaces : ∀ i < n, (placeOf bb failDisk i).isSome) :
    ((List.range n).flatMap (rowMoves bb failDisk)).length =
      n + (List.range n).countP (Swaps bb.diskTotalNum failDisk) := by
  induction n with
  | zero => rfl
  | succ n ih =>
      obtain ⟨p, hp⟩ := Option.isSome_iff_exists.1 (hplaces n (Nat.lt_succ_self n))
      rw [List.range_succ, List.flatMap_append, List.length_append,
        ih fun i hi => hplaces i (by omega), List.flatMap_singleton, List.countP_append,
        List.countP_singleton, rowMoves, hp]
      by_cases hswap : Swaps bb.diskTotalNum failDisk n
      · simp only [hswap, Option.map_some, Option.toList_some, if_true, decide_true,
          List.length_append, List.length_singleton]
        omega
      · simp only [hswap, Option.map_some, Option.toList_some, if_false, decide_false,
          List.length_append, List.length_singleton, List.length_nil, Bool.false_eq_true]
        omega

/-- The moves of one more row. -/
theorem length_moves_succ (s : RemapState) (h : RowsDone bb disk failDisk i s)
    (hplaces : ∀ j < i + 1, (placeOf bb failDisk j).isSome) :
    s.moveRec.length + (rowMoves bb failDisk i).length =
      i + 1 + (List.range (i + 1)).countP (Swaps bb.diskTotalNum failDisk) := by
  rw [← length_moves hplaces, h.moves_eq, List.range_succ, List.flatMap_append,
    List.flatMap_singleton, List.length_append]

/-- **The loop over the rows** puts every block where `placeOf` says. -/
theorem remapRows_ok (disk : ℕ → ℕ → Byte) {n : ℕ} (h : RowsFinish bb failDisk n) :
    ∃ s, (List.range n).foldlM (remapRow failDisk) ⟨{ bb with disk := disk }, 0, []⟩ = .ok s ∧
      RowsDone bb disk failDisk n s := by
  refine Loops.foldlM_range (RowsDone bb disk failDisk) (fun i hi s hs => ?_)
    (rowsDone_zero bb disk failDisk)
  obtain ⟨p, hp⟩ := Option.isSome_iff_exists.1 (h.places i hi)
  refine hs.row_ok hp (h.offsets i hi p hp) (h.rows i hi) ?_
  rw [length_moves_succ s hs fun j hj => h.places j (by omega)]
  have hcount : (List.range (i + 1)).countP (Swaps bb.diskTotalNum failDisk) ≤
      (List.range n).countP (Swaps bb.diskTotalNum failDisk) :=
    (List.range_sublist.2 (Nat.succ_le_of_lt hi)).countP_le
  have hmoves := h.moves
  omega

/-- It finishes under these conditions only. -/
theorem remapRows_finish {n : ℕ}
    (hok : (List.range n).foldlM (remapRow failDisk) ⟨{ bb with disk := disk }, 0, []⟩ = .ok s) :
    RowsFinish bb failDisk n ∧ RowsDone bb disk failDisk n s := by
  refine Loops.foldlM_range_keeps
    (fun n s => RowsFinish bb failDisk n ∧ RowsDone bb disk failDisk n s)
    (fun i hi s s' hrow h => ?_) ⟨⟨?_, Nat.zero_le _, ?_, ?_⟩, rowsDone_zero bb disk failDisk⟩ hok
  · obtain ⟨hfinish, hdone⟩ := h
    obtain ⟨p, hp, hfits, hoffset, hlen, hdone'⟩ := hdone.of_row hrow
    have hplaces : ∀ j < i + 1, (placeOf bb failDisk j).isSome := by
      intro j hj
      rcases Nat.lt_succ_iff_lt_or_eq.1 hj with hlt | rfl
      · exact hfinish.places j hlt
      · rw [hp]
        rfl
    rw [length_moves_succ s hdone hplaces] at hlen
    refine ⟨⟨hplaces, hlen, fun j hj => ?_, fun j hj q hq => ?_⟩, hdone'⟩
    · rcases Nat.lt_succ_iff_lt_or_eq.1 hj with hlt | rfl
      · exact hfinish.rows j hlt
      · exact hoffset
    · rcases Nat.lt_succ_iff_lt_or_eq.1 hj with hlt | rfl
      · exact hfinish.offsets j hlt q hq
      · obtain rfl := Option.some.inj (hp.symm.trans hq)
        exact hfits
  all_goals exact fun j hj => absurd hj (Nat.not_lt_zero j)

end Rows

/-! ### The new parity -/

/-- The free offsets after the parity of the first rows has been written: each is moved to the last
of these rows at least that has its parity there. -/
def raisedOffset (n failDisk : ℕ) (freeOffset : ℕ → ℕ) : ℕ → ℕ → ℕ
  | 0, d => freeOffset d
  | k + 1, d =>
      if d = newParityDiskId n failDisk k then max (raisedOffset n failDisk freeOffset k d) k
      else raisedOffset n failDisk freeOffset k d

section NewParity

variable {bb : NcfsState} {failDisk d b o : ℕ} {s s' : RemapState}

/-- The parity disk is another disk of the array. -/
theorem newParityDiskId_spec {n : ℕ} (hn : 2 ≤ n) (failDisk b : ℕ) :
    newParityDiskId n failDisk b < n ∧ newParityDiskId n failDisk b ≠ failDisk := by
  have hlt := raid5ParityDiskId_lt (show 0 < n - 1 by omega) b
  rw [newParityDiskId]
  split <;> omega

/-- No other disk has a larger free offset. -/
theorem le_maxUsed (hd : d < bb.diskTotalNum) (hne : d ≠ failDisk) :
    bb.freeOffset d ≤ (maxUsed bb failDisk).toNat := by
  have hmax : ∀ n, ∀ d < n, d ≠ failDisk →
      (bb.freeOffset d : ℤ) ≤ (List.range n).foldl (fun (maxused : ℤ) i =>
        if i = failDisk then maxused
        else if maxused < bb.freeOffset i then bb.freeOffset i else maxused) (-1) := by
    intro n
    induction n with
    | zero => exact fun d hd => absurd hd (Nat.not_lt_zero d)
    | succ n ih =>
        intro d hd hne
        rw [List.range_succ, List.foldl_append, List.foldl_cons, List.foldl_nil]
        rcases Nat.lt_succ_iff_lt_or_eq.1 hd with hlt | rfl
        · have hle := ih d hlt hne
          split
          · exact hle
          split <;> omega
        · rw [if_neg hne]
          split <;> omega
  have hle := hmax bb.diskTotalNum d hd hne
  rw [maxUsed]
  omega

/-- An offset is moved behind none of these rows. -/
theorem raisedOffset_lt (n failDisk : ℕ) (freeOffset : ℕ → ℕ) (k d : ℕ) :
    raisedOffset n failDisk freeOffset k d = freeOffset d ∨
      raisedOffset n failDisk freeOffset k d < k := by
  induction k with
  | zero => exact .inl rfl
  | succ k ih =>
      rw [raisedOffset]
      split
      · rcases max_cases (raisedOffset n failDisk freeOffset k d) k with ⟨hmax, -⟩ | ⟨hmax, -⟩ <;>
          omega
      · omega

/-- The parity of the first `k` rows has been written. -/
structure ParityDone (failDisk : ℕ) (s : RemapState) (k : ℕ) (s' : RemapState) : Prop where
  /-- The number of disks. -/
  total_eq : s'.bb.diskTotalNum = s.bb.diskTotalNum
  /-- The size of a block. -/
  block_eq : s'.bb.diskBlockSize = s.bb.diskBlockSize
  /-- The moves. -/
  moves_eq : s'.moveRec = s.moveRec
  /-- The free offsets. -/
  offset_eq : s'.bb.freeOffset = raisedOffset s.bb.diskTotalNum failDisk s.bb.freeOffset k
  /-- The blocks. -/
  block : ∀ d b, ∀ o < s.bb.diskBlockSize, s'.bb.block d b o =
    if b < k ∧ d = newParityDiskId s.bb.diskTotalNum failDisk b then
      ∑ j ∈ ((Finset.range s.bb.diskTotalNum).erase failDisk).erase d, s.bb.block j b o
    else s.bb.block d b o

/-- What `xor_encoding` leaves as it is. -/
theorem xorEncodingRow_same (failDisk : ℕ) (s : RemapState) (k offset : ℕ) :
    (xorEncodingRow failDisk s k offset).bb.diskTotalNum = s.bb.diskTotalNum ∧
      (xorEncodingRow failDisk s k offset).bb.diskBlockSize = s.bb.diskBlockSize ∧
      (xorEncodingRow failDisk s k offset).moveRec = s.moveRec := by
  simp only [xorEncodingRow]
  split <;> exact ⟨rfl, rfl, rfl⟩

/-- The free offset of the parity disk is moved to the row at least. -/
theorem xorEncodingRow_freeOffset (failDisk : ℕ) (s : RemapState) (k offset d : ℕ) :
    (xorEncodingRow failDisk s k offset).bb.freeOffset d =
      if d = newParityDiskId s.bb.diskTotalNum failDisk k then max (s.bb.freeOffset d) k
      else s.bb.freeOffset d := by
  by_cases hlt : s.bb.freeOffset (newParityDiskId s.bb.diskTotalNum failDisk k) < k
  · have hstep : xorEncodingRow failDisk s k offset = _ := if_pos hlt
    rw [hstep]
    by_cases hd : d = newParityDiskId s.bb.diskTotalNum failDisk k
    · subst hd
      rw [if_pos rfl, max_eq_right hlt.le]
      exact Function.update_self ..
    · rw [if_neg hd]
      exact Function.update_of_ne hd ..
  · have hstep : xorEncodingRow failDisk s k offset = _ := if_neg hlt
    rw [hstep]
    by_cases hd : d = newParityDiskId s.bb.diskTotalNum failDisk k
    · subst hd
      rw [if_pos rfl, max_eq_left (not_lt.1 hlt)]
      rfl
    · rw [if_neg hd]
      rfl

/-- It writes the parity of the row. -/
theorem xorEncodingRow_block (failDisk : ℕ) (s : RemapState) (k d b : ℕ)
    (ho : o < s.bb.diskBlockSize) :
    (xorEncodingRow failDisk s k (k * s.bb.diskBlockSize)).bb.block d b o =
      if d = newParityDiskId s.bb.diskTotalNum failDisk k ∧ b = k then
        ∑ j ∈ ((Finset.range s.bb.diskTotalNum).erase failDisk).erase d, s.bb.block j b o
      else s.bb.block d b o := by
  have hwrite := block_writeDisk s.bb (newParityDiskId s.bb.diskTotalNum failDisk k) k
    s.bb.diskBlockSize (xorDisks s.bb (fun j => j = failDisk ∨
      j = newParityDiskId s.bb.diskTotalNum failDisk k) (k * s.bb.diskBlockSize)) le_rfl
    (x := d) (y := b) ho
  have hsame : (xorEncodingRow failDisk s k (k * s.bb.diskBlockSize)).bb.block d b
      o = (writeDisk s.bb
        (newParityDiskId s.bb.diskTotalNum failDisk k)
        (xorDisks s.bb (fun j => j = failDisk ∨ j = newParityDiskId s.bb.diskTotalNum failDisk k)
          (k * s.bb.diskBlockSize)) s.bb.diskBlockSize (k * s.bb.diskBlockSize)).block d b o := by
    rw [xorEncodingRow]
    split <;> rfl
  rw [hsame, hwrite]
  refine if_ctx_congr (by rw [and_iff_left ho]) (fun hd => ?_) fun _ => rfl
  obtain ⟨rfl, rfl⟩ := hd
  rw [xorDisks_apply _ _ _ ho]
  refine Finset.sum_congr ?_ fun j _ => rfl
  ext j
  simp only [Finset.mem_filter, Finset.mem_erase, Finset.mem_range, decide_eq_true_eq, not_or]
  tauto

/-- One row. -/
theorem ParityDone.step {k : ℕ} (h : ParityDone failDisk s k s') :
    ParityDone failDisk s (k + 1) (xorEncodingRow failDisk s' k (k * s'.bb.diskBlockSize)) := by
  obtain ⟨htotal, hblock, hmoves⟩ := xorEncodingRow_same failDisk s' k (k * s'.bb.diskBlockSize)
  refine ⟨htotal.trans h.total_eq, hblock.trans h.block_eq, hmoves.trans h.moves_eq,
    funext fun d => ?_, fun d b o ho => ?_⟩
  · rw [xorEncodingRow_freeOffset, raisedOffset, h.total_eq, h.offset_eq]
  · rw [xorEncodingRow_block _ _ _ _ _ (h.block_eq.symm ▸ ho), h.total_eq]
    by_cases hb : b = k
    · subst hb
      have hrow : ∀ j, s'.bb.block j b o = s.bb.block j b o := fun j => by
        rw [h.block j b o ho, if_neg fun hlt => absurd hlt.1 (lt_irrefl b)]
      simp only [hrow, and_true, Nat.lt_succ_self, true_and]
    · rw [if_neg fun hd => hb hd.2, h.block d b o ho]
      refine if_congr ?_ rfl rfl
      rw [Nat.lt_succ_iff_lt_or_eq, or_iff_left hb]

/-- Before the first row. -/
theorem parityDone_zero (failDisk : ℕ) (s : RemapState) : ParityDone failDisk s 0 s :=
  ⟨rfl, rfl, rfl, rfl, fun _ b _ _ => (if_neg fun h => absurd h.1 (Nat.not_lt_zero b)).symm⟩

/-- **The new parity** is written in all rows in front of the largest free offset, when their byte
offsets are `int`s. -/
theorem updateXorEncoding_ok (hfits : ∀ b < (maxUsed s.bb failDisk).toNat,
    b * s.bb.diskBlockSize < 2 ^ 31) : ∃ s', updateXorEncoding failDisk s = .ok s' ∧
      ParityDone failDisk s (maxUsed s.bb failDisk).toNat s' := by
  refine Loops.foldlM_range (ParityDone failDisk s) (fun k hk s₁ h => ?_)
    (parityDone_zero failDisk s)
  have hmul := intMul_of_lt (a := k) (b := s₁.bb.diskBlockSize) (h.block_eq.symm ▸ hfits k hk)
  refine ⟨_, ?_, h.step⟩
  rw [xorEncoding, hmul]
  rfl

/-- It is written under this condition only. -/
theorem updateXorEncoding_finish (hok : updateXorEncoding failDisk s = .ok s') :
    (∀ b < (maxUsed s.bb failDisk).toNat, b * s.bb.diskBlockSize < 2 ^ 31) ∧
      ParityDone failDisk s (maxUsed s.bb failDisk).toNat s' := by
  refine Loops.foldlM_range_keeps (fun k s' => (∀ b < k, b * s.bb.diskBlockSize < 2 ^ 31) ∧
    ParityDone failDisk s k s') (fun k _ s₁ s₂ hrow h => ?_)
    ⟨fun b hb => absurd hb (Nat.not_lt_zero b), parityDone_zero failDisk s⟩ hok
  obtain ⟨offset, hmul, hxor⟩ := Loops.bind_eq_ok hrow
  obtain ⟨hfits, rfl⟩ := intMul_eq_ok hmul
  obtain rfl := Except.ok.inj hxor
  refine ⟨fun b hb => ?_, h.2.step⟩
  rcases Nat.lt_succ_iff_lt_or_eq.1 hb with hlt | rfl
  · exact h.1 b hlt
  · rwa [h.2.block_eq] at hfits

/-- These rows add up to zero without the failed disk. -/
theorem ParityDone.rows {k : ℕ} (h : ParityDone failDisk s k s') (hn : 2 ≤ s.bb.diskTotalNum)
    (hb : b < k) (ho : o < s.bb.diskBlockSize) :
    ∑ j ∈ (Finset.range s.bb.diskTotalNum).erase failDisk, s'.bb.block j b o = 0 := by
  obtain ⟨hlt, hne⟩ := newParityDiskId_spec hn failDisk b
  have hmem : newParityDiskId s.bb.diskTotalNum failDisk b ∈
      (Finset.range s.bb.diskTotalNum).erase failDisk :=
    Finset.mem_erase.2 ⟨hne, Finset.mem_range.2 hlt⟩
  rw [← Finset.add_sum_erase _ _ hmem, h.block _ b o ho, if_pos ⟨hb, rfl⟩]
  refine Eq.trans (congrArg₂ _ rfl (Finset.sum_congr rfl fun j hj => ?_)) (ZModModule.add_self _)
  rw [h.block j b o ho, if_neg fun hj' => (Finset.mem_erase.1 hj).1 hj'.2]

end NewParity

end Ncfs
