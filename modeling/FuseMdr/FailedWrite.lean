/-
Writes that fail for want of room.

`ncfs_write` stores and records one block after the other.  When a block finds no room it returns
`-ENOSPC`, and the blocks in front of it stay as they are.

Main definitions:

* `Ncfs.Unchanged` — the files, the bookkeeping and the devices are as they were;
* `Ncfs.NoRoom` — already the first block finds no room.

Main results:

* `Ncfs.failedWrite_unchanged_iff` — a failed write changes nothing exactly when already its first
  block found no room;
* `Ncfs.failedWrite_changed` — a failed write that has taken a block.
-/
import FuseMdr.FileSystem

set_option relaxedAutoImplicit false
set_option autoImplicit false

namespace Ncfs

/-- The sizes and tables of the files, the free counters, the space list and the contents of the
devices are as they were. -/
structure Unchanged (fs fs' : FsState) : Prop where
  /-- The directory. -/
  names_eq : fs'.names = fs.names
  /-- The sizes and tables. -/
  info_eq : fs'.info = fs.info
  /-- `free_offset`. -/
  offset_eq : fs'.st.freeOffset = fs.st.freeOffset
  /-- `free_size`. -/
  size_eq : fs'.st.freeSize = fs.st.freeSize
  /-- The space list. -/
  list_eq : fs'.st.spaceList = fs.st.spaceList
  /-- The devices. -/
  disk_eq : fs'.st.disk = fs.st.disk

/-- There is no room for the first block of a write of `size` bytes, and no disk is moved over a
block in front of the choice. -/
def NoRoom (L : CodingLayer) (st : NcfsState) (size : ℕ) : Prop :=
  L.next st (min size st.diskBlockSize) = none ∧ L.skip st = st

section FailedWrite

variable {L : CodingLayer} {fs : FsState} {path : String} {buf : Buf} {size offset : ℕ} {mem : Buf}

/-- The first call of `encode` in block mode, which is the only one for at most one block. -/
theorem blockWrites_cons {blockSize : ℕ} (hblock : 0 < blockSize) (buf : Buf) (size offset : ℕ)
    (mem : Buf) :
    ∃ w rest, blockWrites blockSize buf size offset mem = w :: rest ∧ w.size = min size blockSize ∧
      (rest ≠ [] → blockSize < size) := by
  rw [blockWrites]
  split
  · exact ⟨_, [], rfl, (min_eq_left ‹_›).symm, fun h => absurd rfl h⟩
  · have hlt : blockSize < size := by omega
    obtain ⟨fuel, hfuel⟩ : ∃ fuel, size = fuel + 1 := ⟨size - 1, by omega⟩
    have hchunks : blockChunks blockSize buf offset size mem size 0 =
        blockChunks blockSize buf offset (fuel + 1) mem size 0 := by rw [← hfuel]
    rw [hchunks, blockChunks, if_neg (by omega)]
    dsimp only
    rw [if_neg (by omega)]
    exact ⟨_, _, rfl, (min_eq_right hlt.le).symm, fun _ => hlt⟩

/-- A write that returns `-ENOSPC` has ended at a call of `encode`. -/
theorem untilFail_of_enospc (hblock : fs.st.diskBlockSize ≤ sysblocksize)
    (hfail : (ncfsWrite L fs path buf size offset mem).1 = -enospc) :
    Loops.untilFail (storeBlock L path) fs (blockWrites fs.st.diskBlockSize buf size offset mem) =
      (false, (ncfsWrite L fs path buf size offset mem).2) := by
  rw [ncfsWrite] at hfail ⊢
  split at hfail
  · cases hfail
  · rename_i hmode
    rw [if_neg hmode]
    simp only [if_neg hblock.not_gt] at hfail ⊢
    generalize Loops.untilFail (storeBlock L path) fs
      (blockWrites fs.st.diskBlockSize buf size offset mem) = result at hfail ⊢
    obtain ⟨ok, fs'⟩ := result
    cases ok with
    | false => rfl
    | true =>
        simp only [if_true, enospc] at hfail
        omega

/-- Later calls of `encode` do not give back what the first has taken. -/
theorem untilFail_freeSize_le (L : CodingLayer) (path : String) (fs : FsState)
    (l : List BlockWrite) (i : ℕ) :
    (Loops.untilFail (storeBlock L path) fs l).2.st.freeSize i ≤ fs.st.freeSize i := by
  refine Loops.untilFail_inv (C := fun _ _ => True)
    (fun fs' => fs'.st.freeSize i ≤ fs.st.freeSize i)
    (fun fs' w hle _ => ?_) le_rfl (Loops.allPasses_of_forall (fun _ _ _ => trivial) fs)
  rw [storeBlock_st]
  exact (L.encode_freeSize_le ..).trans hle

/-- **Failed writes.**  When a write in block mode returns `-ENOSPC`, the files, the bookkeeping and
the devices are as before exactly when already the first block found no room. -/
theorem failedWrite_unchanged_iff (L : CodingLayer) (fs : FsState) (path : String) (buf : Buf)
    (size offset : ℕ) (mem : Buf) (hblock : fs.st.diskBlockSize ≤ sysblocksize)
    (hfail : (ncfsWrite L fs path buf size offset mem).1 = -enospc) :
    Unchanged fs (ncfsWrite L fs path buf size offset mem).2 ↔ NoRoom L fs.st size := by
  obtain ⟨w, rest, hwrites, hsize, hrest⟩ :=
    blockWrites_cons fs.st.diskBlockSize_pos buf size offset mem
  have hrun := untilFail_of_enospc hblock hfail
  have hcase := storeBlock_case L path fs w
  have hfirst := L.encode_fst fs.st w.buf w.size
  generalize (ncfsWrite L fs path buf size offset mem).2 = fs' at hrun ⊢
  rw [hwrites, Loops.untilFail] at hrun
  rw [NoRoom, ← hsize, ← hfirst]
  generalize storeBlock L path fs w = result at hcase hrun
  cases hcase with
  | noRoom st hencode =>
      -- nothing is recorded, and the store is as the skipping loop leaves it
      cases hrun
      have hdisk : st.disk = fs.st.disk := by
        have hkept : (L.encode fs.st w.buf w.size).2.disk = fs.st.disk :=
          CodingLayer.encode_disk_of_none (by rw [hencode])
        rwa [hencode] at hkept
      have htakes := L.encode_takes fs.st w.buf w.size
      rw [hencode] at htakes ⊢
      cases htakes with
      | full _ hlist hoffset hfree hlist' =>
          have hskip := (L.skip_moved fs.st).list_eq
          constructor
          · intro h
            exact ⟨rfl, CodingLayer.skip_eq (hoffset.symm.trans h.offset_eq)
              (hfree.symm.trans h.size_eq)⟩
          · rintro ⟨-, hskip⟩
            rw [hskip] at hlist hoffset hfree
            exact ⟨rfl, rfl, hoffset, hfree, hlist'.trans hlist.symm, hdisk⟩
  | stored x st hencode =>
      -- the block was taken, and there is another one behind it
      replace hrun : Loops.untilFail (storeBlock L path)
        ({ fs with st := st }.recordBlock path w x) rest =
        (false, fs') := hrun
      have hmore : rest ≠ [] := by
        rintro rfl
        cases hrun
      have hreq : 1 ≤ blockRequest fs.st w.size := by
        have hle : w.size ≤ fs.st.diskBlockSize := hsize.trans_le (min_le_right ..)
        have hpos := fs.st.diskBlockSize_pos
        have hlt := hrest hmore
        rw [blockRequest_eq fs.st hle, if_neg (by omega)]
      have hlost : fs'.st.freeSize x.1 < fs.st.freeSize x.1 := by
        have hlt := CodingLayer.encode_freeSize_lt (L := L) hreq
          (show _ = some (x.1, x.2) by rw [hencode])
        have hle := untilFail_freeSize_le L path
          ({ fs with st := st }.recordBlock path w x) rest x.1
        rw [hrun, FsState.recordBlock_st] at hle
        rw [hencode] at hlt
        exact hle.trans_lt hlt
      constructor
      · intro h
        exact absurd (congrFun h.size_eq x.1) hlost.ne
      · rintro ⟨hnone, -⟩
        rw [hencode] at hnone
        cases hnone

/-- Three disks of `rows` blocks, after a file of so many blocks has been written. -/
def filledRows (rows : ℤ) (blocks : ℕ) : FsState :=
  (ncfsWrite .raid5 (.mounted (.blank 3 2 4096 sysblocksize_pos rows)) "/a" (fun j => Byte.ofNat j)
    (blocks * 4096) 0 fun _ => 0).2

/-- A write of three blocks to full disks.  After two rows nothing changes; after three rows the
loop in front of the choice moves a disk that stands on a parity block. -/
theorem failedWrite_unchanged_iff_full :
    Unchanged (filledRows 2 4)
        (ncfsWrite .raid5 (filledRows 2 4) "/b" (fun _ => 0) 12288 0 fun _ => 0).2 ∧
      ¬ Unchanged (filledRows 3 6)
        (ncfsWrite .raid5 (filledRows 3 6) "/b" (fun _ => 0) 12288 0 fun _ => 0).2 := by
  refine ⟨(failedWrite_unchanged_iff .raid5 (filledRows 2 4) "/b" _ 12288 0 _ (by decide +kernel)
    (by decide +kernel)).2 ⟨by decide +kernel, ?_⟩, fun h => ?_⟩
  · have htotal : (filledRows 2 4).st.diskTotalNum = 3 := by decide +kernel
    have hstand : ∀ i < 3, i ≠ raid5ParityDiskId 3 ((filledRows 2 4).st.freeOffset i) := by
      decide +kernel
    have hkept : ∀ i, ¬ (i < 3 ∧ i = raid5ParityDiskId 3 ((filledRows 2 4).st.freeOffset i)) :=
      fun i hi => hstand i hi.1 hi.2
    refine CodingLayer.skip_eq ?_ ?_
    all_goals
      rw [CodingLayer.skip, skipBlocks_eq, htotal]
      funext i
    · exact if_neg fun hi => hkept i ⟨hi.1, not_not.1 hi.2⟩
    · exact if_neg (hkept i)
  · obtain ⟨-, hskip⟩ := (failedWrite_unchanged_iff .raid5 (filledRows 3 6) "/b" _ 12288 0 _
      (by decide +kernel) (by decide +kernel)).1 h
    have hmoved : (CodingLayer.raid5.skip (filledRows 3 6).st).freeOffset 2 ≠
        (filledRows 3 6).st.freeOffset 2 := by
      decide +kernel
    exact hmoved (congrFun (congrArg NcfsState.freeOffset hskip) 2)

/-- A store of one disk with one block. -/
def oneBlockDisk : FsState := .mounted (.blank 1 1 4096 sysblocksize_pos 1)

/-- A write of two blocks takes this block and fails. -/
theorem failedWrite_changed :
    (ncfsWrite .raid0 oneBlockDisk "/a" (fun _ => 0) 8192 0 fun _ => 0).1 = -enospc ∧
      ¬ Unchanged oneBlockDisk
        (ncfsWrite .raid0 oneBlockDisk "/a" (fun _ => 0) 8192 0 fun _ => 0).2 := by
  refine ⟨by decide +kernel, fun h => ?_⟩
  have hsize : (ncfsWrite .raid0 oneBlockDisk "/a" (fun _ => 0) 8192 0 fun _ => 0).2.st.freeSize 0 ≠
      oneBlockDisk.st.freeSize 0 := by
    decide +kernel
  exact hsize (congrFun h.size_eq 0)

end FailedWrite

end Ncfs
