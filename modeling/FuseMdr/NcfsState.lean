/-
The state of the file system as the coding layer sees it: bytes, buffers, devices and the
bookkeeping of free blocks.

A byte is eight bits; its addition is exclusive or, so that `FuseMdr/XorGroup.lean` applies to
bytes.  A buffer is the memory behind a `char*`: the byte at every offset from the pointer.  A
device is the byte at every offset from its start.  Device operations succeed here: what the
sources do when a device returns an error is not part of this module.

Main definitions:

* `Ncfs.Byte` — a byte, with its exclusive or;
* `Ncfs.intMul` — a product of two `int`s;
* `Ncfs.NcfsState` — the fields of `struct ncfs_state` that the encoders and decoders use, and the
  contents of the devices;
* `Ncfs.readDisk`, `Ncfs.writeDisk` — the cache layer's accesses, by disk, size and byte offset;
* `Ncfs.selectDisk`, `Ncfs.chargeDisk` — the choice of a free block, which all encoders share;
* `Ncfs.roundToBlockSize`, `Ncfs.spaceListAdd`, `Ncfs.spaceListRemove` — the helpers of
  `filesystem_utils.cc`;
* `Ncfs.NcfsState.block` — the bytes of one block, the unit in which the parity equations speak;
* `Ncfs.SameDevices` — states that differ in their bookkeeping only.

Main results:

* `Ncfs.block_writeDisk` — a write of at most one block changes the bytes of that block only;
* `Ncfs.readDisk_block` — a read of a whole block returns its bytes.
-/
import FuseMdr.Loops
import FuseMdr.XorGroup

set_option relaxedAutoImplicit false
set_option autoImplicit false

namespace Ncfs

/-! ### Bytes -/

/-- A `char` of a buffer, as its eight bits. -/
structure Byte where
  /-- The bits of the byte. -/
  bits : BitVec 8
deriving DecidableEq

namespace Byte

/-- The cast `(unsigned char)`. -/
def toNat (a : Byte) : ℕ := a.bits.toNat

/-- The cast `(char)` of an integer: its low eight bits. -/
def ofNat (n : ℕ) : Byte := ⟨BitVec.ofNat 8 n⟩

instance : XorOp Byte := ⟨fun a b => ⟨a.bits ^^^ b.bits⟩⟩

instance : Zero Byte := ⟨⟨0⟩⟩

instance : Add Byte := ⟨fun a b => a ^^^ b⟩

instance : Neg Byte := ⟨fun a => a⟩

@[simp] theorem xor_eq_add (a b : Byte) : a ^^^ b = a + b := rfl

theorem ext_bits {a b : Byte} (h : a.bits = b.bits) : a = b := by
  cases a; cases b; exact congrArg Byte.mk h

theorem add_bits (a b : Byte) : (a + b).bits = a.bits ^^^ b.bits := rfl

instance : AddCommGroup Byte where
  add_assoc a b c := ext_bits (BitVec.xor_assoc ..)
  zero_add a := ext_bits (BitVec.zero_xor ..)
  add_zero a := ext_bits (BitVec.xor_zero ..)
  add_comm a b := ext_bits (BitVec.xor_comm ..)
  neg_add_cancel a := ext_bits (BitVec.xor_self ..)
  nsmul := nsmulRec
  zsmul := zsmulRec

/-- Multiples are repeated sums, also where the product of `GfTables` is in scope. -/
instance : SMul ℕ Byte := NSMul.toSMul

/-- Every byte is its own inverse. -/
instance : Module (ZMod 2) Byte :=
  AddCommGroup.zmodModule fun a => by
    rw [two_nsmul]
    exact ext_bits (BitVec.xor_self ..)

@[simp] theorem toNat_zero : (0 : Byte).toNat = 0 := rfl

theorem toNat_lt (a : Byte) : a.toNat < 256 := a.bits.isLt

@[simp] theorem ofNat_toNat (a : Byte) : ofNat a.toNat = a :=
  ext_bits (by simp [ofNat, toNat])

theorem toNat_ofNat_of_lt {n : ℕ} (h : n < 256) : (ofNat n).toNat = n := by
  simp [ofNat, toNat, Nat.mod_eq_of_lt h]

theorem toNat_eq_zero {a : Byte} : a.toNat = 0 ↔ a = 0 := by
  constructor
  · intro h
    rw [← ofNat_toNat a, h]
    rfl
  · rintro rfl
    rfl

instance : Nontrivial Byte := ⟨0, ofNat 1, by decide⟩

end Byte

/-! ### Buffers -/

/-- The memory behind a `char*`: the byte at each offset from the pointer. -/
abbrev Buf := ℕ → Byte

/-- `memset(buf, 0, size)`. -/
def memset0 (buf : Buf) (size : ℕ) : Buf := fun j => if j < size then 0 else buf j

/-- The loop `for (j = 0; j < size; j++) des[j] = des[j] ^ src[j]`. -/
def xorBuf (size : ℕ) (des src : Buf) : Buf := fun j => if j < size then des j ^^^ src j else des j

/-- The same loop on `buf + base`. -/
def xorBufAt (base size : ℕ) (buf src : Buf) : Buf := fun x =>
  if base ≤ x ∧ x < base + size then buf x ^^^ src (x - base) else buf x

/-- The loop `for (j = 0; j < size; j++) (buf + base)[j] = src[j]`. -/
def copyBufAt (base size : ℕ) (buf src : Buf) : Buf := fun x =>
  if base ≤ x ∧ x < base + size then src (x - base) else buf x

theorem memset0_of_lt {size o : ℕ} (ho : o < size) (buf : Buf) : memset0 buf size o = 0 :=
  if_pos ho

@[simp] theorem xorBuf_of_lt {size j : ℕ} (des src : Buf) (h : j < size) :
    xorBuf size des src j = des j + src j := by
  simp [xorBuf, h]

/-- Adding buffers one after the other adds their sum. -/
theorem foldl_xorBuf {ι : Type*} (size : ℕ) (f : ι → Buf) (l : List ι) (buf : Buf) :
    l.foldl (fun buf i => xorBuf size buf (f i)) buf =
      xorBuf size buf fun j => (l.map fun i => f i j).sum := by
  induction l generalizing buf with
  | nil =>
      funext j
      simp [xorBuf]
  | cons i l ih =>
      funext j
      rw [List.foldl_cons, ih]
      by_cases hj : j < size
      · simp [xorBuf, hj, add_assoc]
      · simp [xorBuf, hj]

/-- `sizeof(int)`. -/
def sizeofInt : ℕ := 4

/-- The bytes that a loop over whole integers covers. -/
def intBytes (size : ℕ) : ℕ := size / sizeofInt * sizeofInt

theorem intBytes_eq {size : ℕ} (h : size % sizeofInt = 0) : intBytes size = size :=
  Nat.div_mul_cancel (Nat.dvd_of_mod_eq_zero h)

/-! ### The state -/

/-- The ways in which a coding function stops without its result. -/
inductive CodingError where
  /-- The process calls `exit(1)`. -/
  | exit
  /-- The function returns `-1`. -/
  | failed
  /-- The behaviour is undefined: a shift by a negative count, a division by zero, a product that
  does not fit an `int`, or a read outside an initialised part of a table. -/
  | undefined
deriving DecidableEq

/-- The product of two `int`s that are not negative. -/
def intMul (a b : ℕ) : Except CodingError ℕ :=
  if a * b < 2 ^ 31 then .ok (a * b) else .error .undefined

theorem intMul_of_lt {a b : ℕ} (h : a * b < 2 ^ 31) : intMul a b = .ok (a * b) := if_pos h

theorem intMul_eq_ok {a b c : ℕ} (h : intMul a b = .ok c) : a * b < 2 ^ 31 ∧ c = a * b := by
  rw [intMul] at h
  split at h
  · rename_i hlt
    exact ⟨hlt, (Except.ok.inj h).symm⟩
  · cases h

/-- The fields of `struct ncfs_state` that encoders and decoders use, with the devices.  Block
counts may become negative, block offsets may not. -/
structure NcfsState where
  /-- `disk_total_num`. -/
  diskTotalNum : ℕ
  /-- `data_disk_num`. -/
  dataDiskNum : ℕ
  /-- `disk_block_size`, in bytes. -/
  diskBlockSize : ℕ
  /-- A block is not empty. -/
  diskBlockSize_pos : 0 < diskBlockSize
  /-- `free_offset`, in blocks. -/
  freeOffset : ℕ → ℕ
  /-- `free_size`, in blocks. -/
  freeSize : ℕ → ℤ
  /-- `disk_status`: zero for a disk that works. -/
  diskStatus : ℕ → ℕ
  /-- The list at `space_list_head`: pairs of a disk and a block. -/
  spaceList : List (ℕ × ℕ)
  /-- The devices, by disk and byte offset. -/
  disk : ℕ → ℕ → Byte

/-- A state as it is first mounted: the disks work, are zero and have `freeSize` free blocks. -/
def NcfsState.blank (diskTotalNum dataDiskNum diskBlockSize : ℕ) (h : 0 < diskBlockSize)
    (freeSize : ℤ) : NcfsState where
  diskTotalNum := diskTotalNum
  dataDiskNum := dataDiskNum
  diskBlockSize := diskBlockSize
  diskBlockSize_pos := h
  freeOffset _ := 0
  freeSize _ := freeSize
  diskStatus _ := 0
  spaceList := []
  disk _ _ := 0

/-- The small states of this development have blocks of four bytes. -/
theorem fourBytes_pos : 0 < 4 := by decide

/-- `cacheLayer->readDisk(disk_id, buf, size, offset)`. -/
def readDisk (st : NcfsState) (diskId : ℕ) (buf : Buf) (size offset : ℕ) : Buf := fun j =>
  if j < size then st.disk diskId (offset + j) else buf j

/-- `cacheLayer->writeDisk(disk_id, buf, size, offset)`. -/
def writeDisk (st : NcfsState) (diskId : ℕ) (buf : Buf) (size offset : ℕ) : NcfsState :=
  { st with
    disk := fun d x =>
      if d = diskId ∧ offset ≤ x ∧ x < offset + size then buf (x - offset) else st.disk d x }

/-- The two assignments of `encode` that take the blocks from `block_no` on:
`free_offset[disk_id]` and `free_size[disk_id]`. -/
def chargeDisk (st : NcfsState) (diskId blockNo blockRequest : ℕ) : NcfsState :=
  { st with
    freeOffset := Function.update st.freeOffset diskId (blockNo + blockRequest)
    freeSize := Function.update st.freeSize diskId (st.freeSize diskId - blockRequest) }

/-- The loop that chooses a disk, from the last of the first `disks` disks to the first: each disk
with enough free blocks and no larger free offset than the one found so far is taken.  The result is
the disk with its first free block. -/
def selectDisk (st : NcfsState) (disks blockRequest : ℕ) : Option (ℕ × ℕ) :=
  ((List.range disks).reverse.foldl (fun (acc : Option (ℕ × ℕ) × ℕ) i =>
    if (blockRequest : ℤ) ≤ st.freeSize i ∧ st.freeOffset i ≤ acc.2 then
      (some (i, st.freeOffset i), st.freeOffset i)
    else acc) (none, st.freeOffset 0)).1

/-- `FileSystemLayer::round_to_block_size`. -/
def roundToBlockSize (st : NcfsState) (size : ℕ) : ℕ :=
  if size % st.diskBlockSize ≠ 0 then size + st.diskBlockSize - size % st.diskBlockSize else size

/-- The blocks that `encode` asks for. -/
def blockRequest (st : NcfsState) (size : ℕ) : ℕ := roundToBlockSize st size / st.diskBlockSize

/-- `FileSystemLayer::space_list_add`: the new node goes before the first node whose disk is not
smaller and whose block is larger, else to the end. -/
def spaceListAdd : List (ℕ × ℕ) → ℕ → ℕ → List (ℕ × ℕ)
  | [], diskId, blockNo => [(diskId, blockNo)]
  | current :: next, diskId, blockNo =>
      if diskId ≤ current.1 ∧ blockNo < current.2 then (diskId, blockNo) :: current :: next
      else current :: spaceListAdd next diskId blockNo

/-- `FileSystemLayer::space_list_remove`: the first node with this disk and block goes. -/
def spaceListRemove : List (ℕ × ℕ) → ℕ → ℕ → List (ℕ × ℕ)
  | [], _, _ => []
  | current :: next, diskId, blockNo =>
      if diskId = current.1 ∧ blockNo = current.2 then next
      else current :: spaceListRemove next diskId blockNo

/-- A selected block is the first free one of its disk. -/
theorem selectDisk_eq_some {st : NcfsState} {disks req d b : ℕ}
    (h : selectDisk st disks req = some (d, b)) : d < disks ∧ b = st.freeOffset d := by
  have hinv := Loops.foldl_inv (l := (List.range disks).reverse)
    (s := ((none : Option (ℕ × ℕ)), st.freeOffset 0))
    (f := fun (acc : Option (ℕ × ℕ) × ℕ) i =>
      if (req : ℤ) ≤ st.freeSize i ∧ st.freeOffset i ≤ acc.2 then
        (some (i, st.freeOffset i), st.freeOffset i)
      else acc)
    (fun acc => ∀ d b, acc.1 = some (d, b) → d < disks ∧ b = st.freeOffset d)
    (fun acc i hi hacc d b hdb => ?_) (fun d b hdb => by cases hdb)
  · exact hinv d b h
  · split at hdb
    · obtain ⟨rfl, rfl⟩ := Prod.mk.inj (Option.some.inj hdb)
      exact ⟨List.mem_range.1 (List.mem_reverse.1 hi), rfl⟩
    · exact hacc d b hdb

theorem mem_spaceListAdd {l : List (ℕ × ℕ)} {d b : ℕ} {x : ℕ × ℕ} :
    x ∈ spaceListAdd l d b ↔ x = (d, b) ∨ x ∈ l := by
  induction l with
  | nil => simp [spaceListAdd]
  | cons y l ih =>
      rw [spaceListAdd]
      split
      · simp
      · rw [List.mem_cons, ih, List.mem_cons]
        tauto

/-- `space_list_add` inserts one node. -/
theorem spaceListAdd_perm (l : List (ℕ × ℕ)) (d b : ℕ) :
    (spaceListAdd l d b).Perm ((d, b) :: l) := by
  induction l with
  | nil => exact .refl _
  | cons x l ih =>
      rw [spaceListAdd]
      split
      · exact .refl _
      · exact (ih.cons x).trans (.swap ..)

/-- Several nodes are inserted. -/
theorem foldl_spaceListAdd_perm (freed l : List (ℕ × ℕ)) :
    (freed.foldl (fun l x => spaceListAdd l x.1 x.2) l).Perm (freed ++ l) := by
  induction freed generalizing l with
  | nil => exact .refl _
  | cons x freed ih =>
      rw [List.foldl_cons]
      calc freed.foldl (fun l x => spaceListAdd l x.1 x.2) (spaceListAdd l x.1 x.2)
        _ |>.Perm (freed ++ spaceListAdd l x.1 x.2) := ih _
        _ |>.Perm (freed ++ x :: l) := (spaceListAdd_perm ..).append_left _
        _ |>.Perm (x :: freed ++ l) := List.perm_middle

theorem mem_of_mem_spaceListRemove {l : List (ℕ × ℕ)} {d b : ℕ} {x : ℕ × ℕ}
    (h : x ∈ spaceListRemove l d b) : x ∈ l := by
  induction l with
  | nil => simp [spaceListRemove] at h
  | cons y l ih =>
      rw [spaceListRemove] at h
      split at h
      · exact List.mem_cons_of_mem y h
      · rcases List.mem_cons.1 h with rfl | h
        · exact List.mem_cons_self ..
        · exact List.mem_cons_of_mem y (ih h)

/-! ### Blocks -/

namespace NcfsState

/-- Byte `o` of block `b` of disk `d`. -/
def block (st : NcfsState) (d b o : ℕ) : Byte := st.disk d (b * st.diskBlockSize + o)

end NcfsState

/-- Byte offsets inside two blocks are equal only for the same block and the same byte. -/
theorem block_offset_range {bs b y o : ℕ} (ho : o < bs) {size : ℕ} (hs : size ≤ bs) :
    (b * bs ≤ y * bs + o ∧ y * bs + o < b * bs + size) ↔ y = b ∧ o < size := by
  constructor
  · rintro ⟨h₁, h₂⟩
    have hyb : y = b := by
      rcases Nat.lt_trichotomy y b with h | h | h
      · have := Nat.mul_le_mul_right bs (Nat.succ_le_of_lt h)
        rw [Nat.succ_mul] at this
        omega
      · exact h
      · have := Nat.mul_le_mul_right bs (Nat.succ_le_of_lt h)
        rw [Nat.succ_mul] at this
        omega
    subst hyb
    exact ⟨rfl, by omega⟩
  · rintro ⟨rfl, h⟩
    exact ⟨by omega, by omega⟩

/-- A write of at most one block at a block boundary changes the bytes of that block only. -/
theorem block_writeDisk (st : NcfsState) (d b size : ℕ) (buf : Buf)
    (hs : size ≤ st.diskBlockSize) {x y o : ℕ} (ho : o < st.diskBlockSize) :
    (writeDisk st d buf size (b * st.diskBlockSize)).block x y o =
      if x = d ∧ y = b ∧ o < size then buf o else st.block x y o := by
  simp only [NcfsState.block, writeDisk, block_offset_range ho hs]
  by_cases h : x = d ∧ y = b ∧ o < size
  · obtain ⟨rfl, rfl, h⟩ := h
    simp [h]
  · rw [if_neg h, if_neg h]

/-- A read at a block boundary returns the bytes of the block. -/
theorem readDisk_block (st : NcfsState) (d b size : ℕ) (buf : Buf) {j : ℕ} (hj : j < size) :
    readDisk st d buf size (b * st.diskBlockSize) j = st.block d b j := by
  simp [readDisk, NcfsState.block, hj]

/-- Two states with the same devices: only the bookkeeping of free blocks may differ. -/
structure SameDevices (st st' : NcfsState) : Prop where
  /-- `disk_total_num`. -/
  total_eq : st'.diskTotalNum = st.diskTotalNum
  /-- `disk_block_size`. -/
  block_eq : st'.diskBlockSize = st.diskBlockSize
  /-- `disk_status`. -/
  status_eq : st'.diskStatus = st.diskStatus
  /-- The contents. -/
  disk_eq : st'.disk = st.disk

theorem SameDevices.block {st st' : NcfsState} (h : SameDevices st st') (d b o : ℕ) :
    st'.block d b o = st.block d b o := by
  rw [NcfsState.block, NcfsState.block, h.disk_eq, h.block_eq]

theorem SameDevices.rfl {st : NcfsState} : SameDevices st st :=
  ⟨Eq.refl _, Eq.refl _, Eq.refl _, Eq.refl _⟩

/-- A request of at most one block is rounded to at most one block. -/
theorem roundToBlockSize_le {st : NcfsState} {size : ℕ} (h : size ≤ st.diskBlockSize) :
    size ≤ roundToBlockSize st size ∧ roundToBlockSize st size ≤ st.diskBlockSize := by
  have hpos := st.diskBlockSize_pos
  unfold roundToBlockSize
  rcases Nat.lt_or_ge size st.diskBlockSize with hlt | hge
  · rw [Nat.mod_eq_of_lt hlt]
    split <;> omega
  · have : size = st.diskBlockSize := le_antisymm h hge
    simp [this]

/-- A request is one block, or nothing when there is nothing to write. -/
theorem blockRequest_eq (st : NcfsState) {size : ℕ} (h : size ≤ st.diskBlockSize) :
    blockRequest st size = if size = 0 then 0 else 1 := by
  have hpos := st.diskBlockSize_pos
  obtain ⟨h₁, h₂⟩ := roundToBlockSize_le h
  rw [blockRequest]
  split
  · rename_i h0
    simp [roundToBlockSize, h0]
  · have hround : roundToBlockSize st size = st.diskBlockSize := by
      rw [roundToBlockSize] at h₂ ⊢
      rcases Nat.lt_or_ge size st.diskBlockSize with hlt | hge
      · rw [Nat.mod_eq_of_lt hlt] at h₂ ⊢
        rw [if_pos (by omega)]
        omega
      · have : size = st.diskBlockSize := le_antisymm h hge
        simp [this]
    rw [hround, Nat.div_self hpos]

end Ncfs
