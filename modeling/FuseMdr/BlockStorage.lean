/-
Devices that end.

The storage layer answers an access that transfers nothing by setting the status of the disk to `1`;
the caller goes on with the buffer it had.  A device holds `disk_size` blocks, and an access that
does not lie inside it transfers nothing.

Main definitions:

* `Ncfs.Devices` — the state of the coding layer with the sizes of the devices;
* `Ncfs.Devices.readDisk`, `Ncfs.Devices.writeDisk` — the accesses;
* `Ncfs.Devices.Later` — what accesses leave as it is: sizes, and the mark of a failed disk;
* `Ncfs.Devices.SingleFailure`, `Ncfs.Devices.Replaced`, `Ncfs.Devices.Rebuilt` — one disk has
  failed, only that disk is written, and how far it is rebuilt.

Main results:

* `Ncfs.Devices.readDisk_block`, `Ncfs.Devices.writeDisk_block` — accesses to blocks of the device;
* `Ncfs.Devices.readDisk_status` — a read outside the device marks the disk;
* `Ncfs.Devices.Rebuilt.write`, `Ncfs.Devices.Rebuilt.finish` — one block, and the end of a rebuild.
-/
import FuseMdr.MdrRebuild

set_option relaxedAutoImplicit false
set_option autoImplicit false

namespace Ncfs

/-- The state of the coding layer, with devices that end. -/
structure Devices where
  /-- The fields that coding uses, and the contents. -/
  ncfs : NcfsState
  /-- `disk_size`, in blocks. -/
  diskSize : ℕ → ℕ

namespace Devices

/-! ### The accesses -/

/-- `FileSystemLayer::set_device_status`.  The operation mode is not part of the state. -/
def setDeviceStatus (s : Devices) (diskId status : ℕ) : Devices :=
  if s.ncfs.diskTotalNum ≤ diskId ∨ 1 < status then s
  else
    { s with
      ncfs := { s.ncfs with diskStatus := Function.update s.ncfs.diskStatus diskId status } }

/-- An access that transfers something. -/
def Holds (s : Devices) (diskId size offset : ℕ) : Prop :=
  0 < size ∧ offset + size ≤ s.diskSize diskId * s.ncfs.diskBlockSize

instance (s : Devices) (diskId size offset : ℕ) : Decidable (s.Holds diskId size offset) :=
  inferInstanceAs (Decidable (_ ∧ _))

/-- `BlockStorage::DiskRead`: the buffer and the state behind it. -/
def readDisk (s : Devices) (diskId : ℕ) (buf : Buf) (size offset : ℕ) : Buf × Devices :=
  if s.Holds diskId size offset then (Ncfs.readDisk s.ncfs diskId buf size offset, s)
  else (buf, s.setDeviceStatus diskId 1)

/-- `BlockStorage::DiskWrite`. -/
def writeDisk (s : Devices) (diskId : ℕ) (buf : Buf) (size offset : ℕ) : Devices :=
  if s.Holds diskId size offset then { s with ncfs := Ncfs.writeDisk s.ncfs diskId buf size offset }
  else s.setDeviceStatus diskId 1

/-- Block `b` of disk `i` lies on the device. -/
def HasBlock (s : Devices) (i b : ℕ) : Prop := b < s.diskSize i

/-! ### What accesses leave -/

/-- What every access keeps: the shape of the array, and the mark of a failed disk. -/
structure Later (s s' : Devices) : Prop where
  /-- `disk_total_num`. -/
  total_eq : s'.ncfs.diskTotalNum = s.ncfs.diskTotalNum
  /-- `data_disk_num`. -/
  data_eq : s'.ncfs.dataDiskNum = s.ncfs.dataDiskNum
  /-- `disk_block_size`. -/
  block_eq : s'.ncfs.diskBlockSize = s.ncfs.diskBlockSize
  /-- `disk_size`. -/
  size_eq : s'.diskSize = s.diskSize
  /-- Disks are marked only. -/
  status : ∀ i, s'.ncfs.diskStatus i = s.ncfs.diskStatus i ∨ s'.ncfs.diskStatus i = 1

variable {s s' s'' : Devices} {d i size offset : ℕ} {buf : Buf}

theorem Later.rfl : Later s s :=
  ⟨Eq.refl _, Eq.refl _, Eq.refl _, Eq.refl _, fun _ => Or.inl (Eq.refl _)⟩

theorem Later.trans (h : Later s s') (h' : Later s' s'') : Later s s'' where
  total_eq := h'.total_eq.trans h.total_eq
  data_eq := h'.data_eq.trans h.data_eq
  block_eq := h'.block_eq.trans h.block_eq
  size_eq := h'.size_eq.trans h.size_eq
  status i := by
    rcases h'.status i with hi | hi
    · rw [hi]
      exact h.status i
    · exact Or.inr hi

/-- A disk that has failed stays so. -/
theorem Later.failed (h : Later s s') (hi : s.ncfs.diskStatus i ≠ 0) :
    s'.ncfs.diskStatus i ≠ 0 := by
  rcases h.status i with hs | hs
  · rwa [hs]
  · rw [hs]
    exact one_ne_zero

/-- A disk that works has worked before. -/
theorem Later.healthy (h : Later s s') (hi : s'.ncfs.diskStatus i = 0) : s.ncfs.diskStatus i = 0 :=
  not_not.1 fun hs => h.failed hs hi

theorem setDeviceStatus_of_lt {status : ℕ} (hd : d < s.ncfs.diskTotalNum) (hstatus : status ≤ 1) :
    s.setDeviceStatus d status =
      { s with ncfs := { s.ncfs with diskStatus := Function.update s.ncfs.diskStatus d status } } :=
  if_neg (by omega)

theorem later_setDeviceStatus (s : Devices) (d : ℕ) : Later s (s.setDeviceStatus d 1) := by
  rw [setDeviceStatus]
  split
  · exact Later.rfl
  · refine ⟨rfl, rfl, rfl, rfl, fun i => ?_⟩
    by_cases hid : i = d
    · subst hid
      exact Or.inr (Function.update_self ..)
    · exact Or.inl (Function.update_of_ne hid ..)

theorem later_readDisk (s : Devices) (d : ℕ) (buf : Buf) (size offset : ℕ) :
    Later s (s.readDisk d buf size offset).2 := by
  rw [readDisk]
  split
  · exact Later.rfl
  · exact later_setDeviceStatus s d

theorem later_writeDisk (s : Devices) (d : ℕ) (buf : Buf) (size offset : ℕ) :
    Later s (s.writeDisk d buf size offset) := by
  rw [writeDisk]
  split
  · exact ⟨rfl, rfl, rfl, rfl, fun _ => Or.inl rfl⟩
  · exact later_setDeviceStatus s d

theorem setDeviceStatus_self (hd : d < s.ncfs.diskTotalNum) :
    (s.setDeviceStatus d 1).ncfs.diskStatus d ≠ 0 := by
  rw [setDeviceStatus_of_lt hd le_rfl]
  change Function.update s.ncfs.diskStatus d 1 d ≠ 0
  rw [Function.update_self]
  exact one_ne_zero

/-- A read that transfers nothing marks the disk. -/
theorem readDisk_status (hd : d < s.ncfs.diskTotalNum) (h : ¬ s.Holds d size offset) (buf : Buf) :
    (s.readDisk d buf size offset).2.ncfs.diskStatus d ≠ 0 := by
  rw [readDisk, if_neg h]
  exact setDeviceStatus_self hd

/-- So does a write that transfers nothing. -/
theorem writeDisk_status (hd : d < s.ncfs.diskTotalNum) (h : ¬ s.Holds d size offset) (buf : Buf) :
    (s.writeDisk d buf size offset).ncfs.diskStatus d ≠ 0 := by
  rw [writeDisk, if_neg h]
  exact setDeviceStatus_self hd

/-! ### Blocks -/

/-- A block is one access. -/
theorem holds_block_iff {b : ℕ} :
    s.Holds d s.ncfs.diskBlockSize (b * s.ncfs.diskBlockSize) ↔ s.HasBlock d b := by
  have hpos := s.ncfs.diskBlockSize_pos
  rw [Holds, HasBlock, ← Nat.succ_mul]
  exact ⟨fun h => Nat.le_of_mul_le_mul_right h.2 hpos, fun h => ⟨hpos, Nat.mul_le_mul_right _ h⟩⟩

/-- A block of the device is read. -/
theorem readDisk_block {b : ℕ} (h : s.HasBlock d b) (buf : Buf) :
    s.readDisk d buf s.ncfs.diskBlockSize (b * s.ncfs.diskBlockSize) =
      (Ncfs.readDisk s.ncfs d buf s.ncfs.diskBlockSize (b * s.ncfs.diskBlockSize), s) :=
  if_pos (holds_block_iff.2 h)

/-- A block of the device is written. -/
theorem writeDisk_block {b : ℕ} (h : s.HasBlock d b) (buf : Buf) :
    s.writeDisk d buf s.ncfs.diskBlockSize (b * s.ncfs.diskBlockSize) =
      { s with
        ncfs := Ncfs.writeDisk s.ncfs d buf s.ncfs.diskBlockSize (b * s.ncfs.diskBlockSize) } :=
  if_pos (holds_block_iff.2 h)

/-! ### One failed disk -/

/-- Disk `d` is the only disk that has failed. -/
structure SingleFailure (s : Devices) (d : ℕ) : Prop where
  /-- It is a disk of the array. -/
  lt : d < s.ncfs.diskTotalNum
  /-- The statuses. -/
  status : ∀ i < s.ncfs.diskTotalNum, s.ncfs.diskStatus i = if i = d then 1 else 0

theorem SingleFailure.status_self (h : s.SingleFailure d) : s.ncfs.diskStatus d = 1 := by
  rw [h.status d h.lt, if_pos rfl]

theorem SingleFailure.status_ne (h : s.SingleFailure d) : s.ncfs.diskStatus d ≠ 0 := by
  rw [h.status_self]
  exact one_ne_zero

theorem SingleFailure.count (h : s.SingleFailure d) : failedDiskNum s.ncfs = 1 :=
  failedDiskNum_eq_one h.lt h.status

/-- From state `s` on, nothing has been written but blocks of the failed disk `d`. -/
structure Replaced (s : Devices) (d : ℕ) (s' : Devices) : Prop extends s.Later s' where
  /-- No disk has been marked anew. -/
  status_eq : s'.ncfs.diskStatus = s.ncfs.diskStatus
  /-- The other disks. -/
  others : ∀ i, i ≠ d → s'.ncfs.disk i = s.ncfs.disk i

theorem Replaced.rfl : s.Replaced d s := ⟨.rfl, Eq.refl _, fun _ _ => Eq.refl _⟩

theorem Replaced.singleFailure (h : s.Replaced d s') (hs : s.SingleFailure d) :
    s'.SingleFailure d := by
  refine ⟨h.total_eq ▸ hs.lt, fun i hi => ?_⟩
  rw [h.status_eq]
  exact hs.status i (h.total_eq ▸ hi)

theorem Replaced.block_of_ne (h : s.Replaced d s') (hi : i ≠ d) (b o : ℕ) :
    s'.ncfs.block i b o = s.ncfs.block i b o := by
  rw [NcfsState.block, NcfsState.block, h.others i hi, h.block_eq]

/-- A block of the failed disk is written; behind the end, the disk is marked again. -/
theorem Replaced.write (h : s.Replaced d s') (hs : s.SingleFailure d) (buf : Buf) (b : ℕ) :
    s.Replaced d (s'.writeDisk d buf s'.ncfs.diskBlockSize (b * s'.ncfs.diskBlockSize)) := by
  have hlater :=
    h.toLater.trans (later_writeDisk s' d buf s'.ncfs.diskBlockSize (b * s'.ncfs.diskBlockSize))
  by_cases hblock : s'.HasBlock d b
  · rw [writeDisk_block hblock] at hlater ⊢
    refine ⟨hlater, h.status_eq, fun i hi => ?_⟩
    rw [← h.others i hi]
    funext x
    exact if_neg fun hx => hi hx.1
  · have hfailed := h.singleFailure hs
    have hwrite : s'.writeDisk d buf s'.ncfs.diskBlockSize (b * s'.ncfs.diskBlockSize) =
        s'.setDeviceStatus d 1 := if_neg (mt holds_block_iff.1 hblock)
    have hsame : Function.update s'.ncfs.diskStatus d 1 = s'.ncfs.diskStatus := by
      rw [← hfailed.status_self]
      exact Function.update_eq_self ..
    rw [hwrite, setDeviceStatus_of_lt hfailed.lt le_rfl, hsame]
    exact h

/-- From state `s` on, the first `count` blocks of the failed disk `d` have been written with the
bytes `want`, as far as the device has them, and nothing else has changed. -/
structure Rebuilt (s : Devices) (d : ℕ) (want : ℕ → ℕ → Byte) (count : ℕ) (s' : Devices) : Prop
    extends s.Replaced d s' where
  /-- The blocks that are done. -/
  done : ∀ b < count, s.HasBlock d b → ∀ o < s.ncfs.diskBlockSize, s'.ncfs.block d b o = want b o

variable {want : ℕ → ℕ → Byte} {count : ℕ}

theorem Rebuilt.start : s.Rebuilt d want 0 s := ⟨.rfl, fun _ h => absurd h (Nat.not_lt_zero _)⟩

/-- The next block is written, or lies behind the end. -/
theorem Rebuilt.write (h : s.Rebuilt d want count s') (hs : s.SingleFailure d)
    (hbuf : ∀ o < s.ncfs.diskBlockSize, buf o = want count o) :
    s.Rebuilt d want (count + 1)
      (s'.writeDisk d buf s'.ncfs.diskBlockSize (count * s'.ncfs.diskBlockSize)) := by
  refine ⟨h.toReplaced.write hs buf count, fun b hb hhas o ho => ?_⟩
  have hlt : b ≠ count → b < count := fun hne => by omega
  by_cases hblock : s'.HasBlock d count
  · have ho' : o < s'.ncfs.diskBlockSize := by rwa [h.block_eq]
    rw [writeDisk_block hblock, Ncfs.block_writeDisk _ _ _ _ _ le_rfl ho']
    by_cases hbc : b = count
    · rw [if_pos ⟨rfl, hbc, ho'⟩, hbc]
      exact hbuf o ho
    · rw [if_neg fun hx => hbc hx.2.1]
      exact h.done b (hlt hbc) hhas o ho
  · have hbc : b ≠ count := by
      rintro rfl
      rw [HasBlock, h.size_eq] at hblock
      exact hblock hhas
    have hwrite : s'.writeDisk d buf s'.ncfs.diskBlockSize (count * s'.ncfs.diskBlockSize) =
        s'.setDeviceStatus d 1 := if_neg (mt holds_block_iff.1 hblock)
    rw [hwrite, setDeviceStatus_of_lt (h.singleFailure hs).lt le_rfl]
    exact h.done b (hlt hbc) hhas o ho

/-- The end of a rebuild: the disk is declared to work. -/
theorem Rebuilt.finish (h : s.Rebuilt d want count s') (hs : s.SingleFailure d)
    (hcount : s.diskSize d ≤ count) :
    let s'' := s'.setDeviceStatus d 0
    s''.ncfs.diskBlockSize = s.ncfs.diskBlockSize ∧ (∀ i, i ≠ d → s''.ncfs.disk i = s.ncfs.disk i) ∧
      (∀ b < s.diskSize d, ∀ o < s.ncfs.diskBlockSize, s''.ncfs.block d b o = want b o) ∧
      ∀ i < s.ncfs.diskTotalNum, s''.ncfs.diskStatus i = 0 := by
  intro s''
  have hd : d < s'.ncfs.diskTotalNum := h.total_eq ▸ hs.lt
  have hs'' : s'' = _ := setDeviceStatus_of_lt hd (Nat.zero_le 1)
  rw [hs'']
  refine ⟨h.block_eq, h.others, fun b hb => h.done b (hb.trans_le hcount) hb, fun i hi => ?_⟩
  change Function.update s'.ncfs.diskStatus d 0 i = 0
  by_cases hid : i = d
  · rw [hid, Function.update_self]
  · rw [Function.update_of_ne hid, h.status_eq, hs.status i hi, if_neg hid]

end Devices

end Ncfs
