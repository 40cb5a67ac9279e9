/-
The codes without parity: RAID0, RAID1 and JBOD.

RAID0 hands out blocks row by row over all disks, with the selection that the parity codes use too.
JBOD fills the disks one after the other, and RAID1 does so with the first half of the disks and
writes each block to a mirror as well.

Main definitions:

* `Ncfs.firstFit` — the choice of the first disk with room;
* `Ncfs.Coding4Raid0.encode`, `Ncfs.Coding4Raid1.encode`, `Ncfs.Coding4Jbod.encode` — writing a
  block;
* `Ncfs.Coding4Raid0.decode`, `Ncfs.Coding4Raid1.decode`, `Ncfs.Coding4Jbod.decode` — reading.

Main results:

* `Ncfs.firstFit_eq_some`, `Ncfs.firstFit_eq_none` — what the choice finds.
-/
import FuseMdr.BlockAllocator

set_option relaxedAutoImplicit false
set_option autoImplicit false

namespace Ncfs

/-! ### Writing a block -/

/-- The loop that stops at the first of `disks` disks with enough free blocks. -/
def firstFit (st : NcfsState) (disks blockRequest : ℕ) : Option (ℕ × ℕ) :=
  ((List.range disks).find? fun i => (blockRequest : ℤ) ≤ st.freeSize i).map fun i =>
    (i, st.freeOffset i)

/-- The choice of a block under RAID0. -/
def raid0Allocate (st : NcfsState) (blockRequest : ℕ) : Option (ℕ × ℕ) × NcfsState :=
  takeBlock st (selectDisk st st.diskTotalNum blockRequest) blockRequest

/-- The part of `Coding4Raid0::encode` after the block has been chosen. -/
def raid0Write (buf : Buf) (size : ℕ) (st : NcfsState) (diskId blockNo : ℕ) : NcfsState :=
  writeDisk st diskId buf size (blockNo * st.diskBlockSize)

/-- `Coding4Raid0::encode`. -/
def Coding4Raid0.encode : NcfsState → Buf → ℕ → Option (ℕ × ℕ) × NcfsState :=
  encodeWith raid0Allocate raid0Write

/-- The choice of a block under JBOD. -/
def jbodAllocate (st : NcfsState) (blockRequest : ℕ) : Option (ℕ × ℕ) × NcfsState :=
  takeBlock st (firstFit st st.diskTotalNum blockRequest) blockRequest

/-- `Coding4Jbod::encode`: the block is written as under RAID0. -/
def Coding4Jbod.encode : NcfsState → Buf → ℕ → Option (ℕ × ℕ) × NcfsState :=
  encodeWith jbodAllocate raid0Write

/-- The choice of a block under RAID1: only the first half of the disks holds data. -/
def raid1Allocate (st : NcfsState) (blockRequest : ℕ) : Option (ℕ × ℕ) × NcfsState :=
  takeBlock st (firstFit st (st.diskTotalNum / 2) blockRequest) blockRequest

/-- `mirror_disk_id`. -/
def mirrorDiskId (diskTotalNum diskId : ℕ) : ℕ := diskTotalNum - diskId - 1

/-- The part of `Coding4Raid1::encode` after the block has been chosen. -/
def raid1Write (buf : Buf) (size : ℕ) (st : NcfsState) (diskId blockNo : ℕ) : NcfsState :=
  let offset := blockNo * st.diskBlockSize
  let st := writeDisk st diskId buf size offset
  writeDisk st (mirrorDiskId st.diskTotalNum diskId) buf size offset

/-- `Coding4Raid1::encode`. -/
def Coding4Raid1.encode : NcfsState → Buf → ℕ → Option (ℕ × ℕ) × NcfsState :=
  encodeWith raid1Allocate raid1Write

/-! ### Reading -/

/-- `Coding4Raid0::decode`. -/
def Coding4Raid0.decode (st : NcfsState) (diskId : ℕ) (buf : Buf) (size offset : ℕ) :
    Except CodingError Buf :=
  if st.diskStatus diskId = 0 then .ok (readDisk st diskId buf size offset) else .error .failed

/-- `Coding4Jbod::decode` is word for word `Coding4Raid0::decode`. -/
def Coding4Jbod.decode (st : NcfsState) (diskId : ℕ) (buf : Buf) (size offset : ℕ) :
    Except CodingError Buf :=
  Coding4Raid0.decode st diskId buf size offset

/-- `Coding4Raid1::decode`. -/
def Coding4Raid1.decode (st : NcfsState) (diskId : ℕ) (buf : Buf) (size offset : ℕ) :
    Except CodingError Buf :=
  if st.diskStatus diskId = 0 then .ok (readDisk st diskId buf size offset)
  else
    let mirror := mirrorDiskId st.diskTotalNum diskId
    if st.diskStatus mirror = 0 then .ok (readDisk st mirror buf size offset) else .error .failed

/-! ### The first fit -/

section FirstFit

variable {st : NcfsState} {disks req d b : ℕ}

theorem firstFit_eq_some (h : firstFit st disks req = some (d, b)) :
    d < disks ∧ b = st.freeOffset d ∧ (req : ℤ) ≤ st.freeSize d := by
  rw [firstFit, Option.map_eq_some_iff] at h
  obtain ⟨i, hfind, heq⟩ := h
  obtain ⟨rfl, rfl⟩ := Prod.mk.inj heq
  have hroom := List.find?_some hfind
  exact ⟨List.mem_range.1 (List.mem_of_find?_eq_some hfind), rfl, by simpa using hroom⟩

theorem firstFit_eq_none : firstFit st disks req = none ↔ ∀ i < disks, st.freeSize i < req := by
  rw [firstFit, Option.map_eq_none_iff, List.find?_eq_none]
  simp

end FirstFit

end Ncfs
