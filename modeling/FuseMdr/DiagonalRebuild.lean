/-
Rebuilding a disk under the EVENODD and RDP codes.

`decode` reads a lost block from the devices.  The rebuild of a whole disk takes one strip after the
other: at its first block the cells that the equations of the strip name are read into a buffer, and
every block of the strip is added up from there.  Both codes have the same text but for the cells
that are read ahead.

The byte offset of a cell that is read ahead is a product of two `int`s, and so is that of a summand
of a `Q` block in `decode`; the other offsets are `long long`.

Main definitions:

* `Ncfs.ElemTable.decode`, `Ncfs.ElemTable.recoverBlock2`, `Ncfs.ElemTable.recoverOneDisk` — the
  common functions;
* `Ncfs.Coding4Evenodd.preReadCells`, `Ncfs.Coding4Rdp.preReadCells` — the cells that are read
  ahead;
* `Ncfs.ElemTable.lostByte` — what the equations of a strip say about a byte of a disk;
* `Ncfs.ElemTable.Prefetch` — the cells that are read ahead are enough;
* `Ncfs.RebuildsAsDecode` — the rebuilt blocks are those that `decode` returns.

Main results:

* `Ncfs.ElemTable.decode_block`, `Ncfs.ElemTable.recoverOneDisk_ok` — what the functions compute;
* `Ncfs.ElemTable.recoverOneDisk_marks` — what a rebuild that has a result has read;
* `Ncfs.rebuildsAsDecode_iff` — the rebuild of either code is its `decode`, up to overflow.
-/
import FuseMdr.BlockStorage
import FuseMdr.Evenodd
import FuseMdr.Rdp

set_option relaxedAutoImplicit false
set_option autoImplicit false

namespace Ncfs

namespace ElemTable

/-! ### The functions -/

/-- Reading `size` bytes of a disk into the temporary buffer and adding them: the buffer, the
temporary buffer and the state. -/
def addRead (size : ℕ) (x : Buf × Buf × Devices) (diskId offset : ℕ) : Buf × Buf × Devices :=
  let (tempBuf, s) := x.2.2.readDisk diskId x.2.1 size offset
  (xorBuf size x.1 tempBuf, tempBuf, s)

/-- `Coding4Evenodd::decode` and `Coding4Rdp::decode`, which differ in a message only: the output
buffer and the state behind it.  Time counters are left out. -/
def decode (coding : ElemTable) (s : Devices) (diskId : ℕ) (buf : Buf) (size offset : ℕ) :
    Except CodingError (Buf × Devices) :=
  let buf := memset0 buf size
  let blockSize := s.ncfs.diskBlockSize
  let blockNo := offset / blockSize
  if s.ncfs.diskStatus diskId = 0 then .ok (s.readDisk diskId buf size offset)
  else if failedDiskNum s.ncfs = 1 then
    let stripNum := blockNo / coding.row
    let stripOffset := blockNo % coding.row
    if diskId < s.ncfs.diskTotalNum - 1 then
      let x := (List.range (s.ncfs.diskTotalNum - 1)).foldl (fun x i =>
        if i ≠ diskId then addRead size x i (blockNo * blockSize) else x) (buf, fun _ => 0, s)
      .ok (x.1, x.2.2)
    else do
      let x ← (coding.elemHash (stripOffset, diskId)).foldlM (fun x e => do
        let readBlkOffset := e.1 + stripNum * coding.row
        return addRead size x e.2 (← intMul readBlkOffset blockSize)) (buf, fun _ => 0, s)
      return (x.1, x.2.2)
  else .error .failed

/-- Reading cell `cell` of strip `stripNum` into its slot. -/
def readCell (coding : ElemTable) (stripNum : ℕ) (x : (Pair → Buf) × Devices) (cell : Pair) :
    Except CodingError ((Pair → Buf) × Devices) := do
  let readBlkOffset := cell.1 + stripNum * coding.row
  let blockSize := x.2.ncfs.diskBlockSize
  let offset ← intMul readBlkOffset blockSize
  let (buf, s) := x.2.readDisk cell.2 (x.1 cell) blockSize offset
  return (Function.update x.1 cell buf, s)

/-- The loops of `pre_read_into_buf`, for the cells in the order in which they are read. -/
def preReadIntoBuf (coding : ElemTable) (cells : List Pair) (s : Devices) (stripNum : ℕ)
    (bufBlocks : Pair → Buf) :
    Except CodingError ((Pair → Buf) × Devices) :=
  cells.foldlM (readCell coding stripNum) (bufBlocks, s)

/-- The variables of the rebuild of a strip. -/
structure RecoverState where
  /-- `buf`. -/
  buf : Buf
  /-- `pread_stripes`. -/
  preadStripes : Pair → Buf
  /-- `in_buf`. -/
  inBuf : Bool
  /-- The state. -/
  devices : Devices

/-- The sum of the slots that the equations name for block `stripOffset` of disk `diskId`. -/
def addSlots (coding : ElemTable) (n size diskId stripOffset : ℕ) (pread : Pair → Buf) (buf : Buf) :
    Buf :=
  if diskId < n - 1 then
    (List.range (n - 1)).foldl (fun buf i =>
      if i ≠ diskId then xorBuf size buf (pread (stripOffset, i)) else buf) buf
  else
    (coding.elemHash (stripOffset, diskId)).foldl (fun buf e => xorBuf size buf (pread e)) buf

/-- The slots for strip `stripNum`, which are filled at the first block of the strip. -/
def preReadOnce (coding : ElemTable) (cells : List Pair) (r : RecoverState) (stripNum : ℕ) :
    Except CodingError ((Pair → Buf) × Devices) :=
  if r.inBuf then .ok (r.preadStripes, r.devices)
  else preReadIntoBuf coding cells r.devices stripNum r.preadStripes

/-- `evenodd_recover_block2` and `rdp_recover_block2`.  The value they return is not looked at.  The
failed disks are counted before the cells are read. -/
def recoverBlock2 (coding : ElemTable) (cells : List Pair) (r : RecoverState)
    (diskId size offset : ℕ) :
    Except CodingError RecoverState := do
  let buf := memset0 r.buf size
  let s := r.devices
  let blockNo := offset / s.ncfs.diskBlockSize
  if s.ncfs.diskStatus diskId = 0 then
    let (buf, s) := s.readDisk diskId buf size offset
    return { r with buf := buf, devices := s }
  else
    let stripNum := blockNo / coding.row
    let stripOffset := blockNo % coding.row
    let (pread, s') ← preReadOnce coding cells r stripNum
    let buf :=
      if failedDiskNum s.ncfs = 1 then addSlots coding s.ncfs.diskTotalNum size diskId
        stripOffset pread buf
      else buf
    return ⟨buf, pread, true, s'⟩

/-- One pass of the loop over `j`: block `i + j` is rebuilt and written. -/
def recoverPass (coding : ElemTable) (cells : List Pair) (failDiskId i : ℕ)
    (r : RecoverState) (j : ℕ) :
    Except CodingError RecoverState := do
  let blockSize := r.devices.ncfs.diskBlockSize
  let r ← recoverBlock2 coding cells r failDiskId blockSize ((i + j) * blockSize)
  return { r with devices := r.devices.writeDisk failDiskId r.buf blockSize ((i + j) * blockSize) }

/-- One pass of the loop over `i`, which begins with cleared slots. -/
def recoverStrip (coding : ElemTable) (cells : List Pair) (failDiskId : ℕ) (s : Devices) (i : ℕ) :
    Except CodingError Devices := do
  let r ← (List.range coding.row).foldlM (recoverPass coding cells failDiskId i)
    ⟨fun _ => 0, fun _ _ => 0, false, s⟩
  return r.devices

/-- `evenodd_recover_one_disk` and `rdp_recover_one_disk`: `i` runs over the multiples of the strip
size. -/
def recoverOneDisk (coding : ElemTable) (cells : List Pair) (s : Devices) (failDiskId : ℕ) :
    Except CodingError Devices := do
  let recoverSize := s.diskSize failDiskId
  let s ← (List.range ((recoverSize + coding.row - 1) / coding.row)).foldlM (fun s g =>
    recoverStrip coding cells failDiskId s (g * coding.row)) s
  return s.setDeviceStatus failDiskId 0

end ElemTable

namespace Coding4Evenodd

/-- `Coding4Evenodd::decode`. -/
def decode (coding : ElemTable) (s : Devices) (diskId : ℕ) (buf : Buf) (size offset : ℕ) :
    Except CodingError (Buf × Devices) :=
  coding.decode s diskId buf size offset

/-- The cells that `Coding4Evenodd::pre_read_into_buf` reads: all of every disk but the failed one
and one more. -/
def preReadCells (coding : ElemTable) (diskTotalNum failedDiskId : ℕ) : List Pair :=
  let nonReadCol := if failedDiskId = diskTotalNum - 1 then diskTotalNum - 2 else diskTotalNum - 1
  (List.range diskTotalNum).flatMap fun i =>
    if i ≠ failedDiskId ∧ i ≠ nonReadCol then (List.range coding.row).map fun j => (j, i) else []

/-- `evenodd_recover_one_disk`. -/
def evenoddRecoverOneDisk (coding : ElemTable) (s : Devices) (failDiskId : ℕ) :
    Except CodingError Devices :=
  coding.recoverOneDisk (preReadCells coding s.ncfs.diskTotalNum failDiskId) s failDiskId

end Coding4Evenodd

namespace Coding4Rdp

/-- `Coding4Rdp::decode`. -/
def decode (coding : ElemTable) (s : Devices) (diskId : ℕ) (buf : Buf) (size offset : ℕ) :
    Except CodingError (Buf × Devices) :=
  coding.decode s diskId buf size offset

/-- The cells that `Coding4Rdp::pre_read_into_buf` reads: all of every other data or `P` disk, or
the summands of the `Q` blocks. -/
def preReadCells (coding : ElemTable) (diskTotalNum failedDiskId : ℕ) : List Pair :=
  if failedDiskId ≠ diskTotalNum - 1 then
    (List.range (diskTotalNum - 1)).flatMap fun i =>
      if i ≠ failedDiskId then (List.range coding.row).map fun j => (j, i) else []
  else (List.range coding.row).flatMap fun j => coding.elemHash (j, failedDiskId)

/-- `rdp_recover_one_disk`. -/
def rdpRecoverOneDisk (coding : ElemTable) (s : Devices) (failDiskId : ℕ) :
    Except CodingError Devices :=
  coding.recoverOneDisk (preReadCells coding s.ncfs.diskTotalNum failDiskId) s failDiskId

end Coding4Rdp

/-! ### What the equations say -/

namespace ElemTable

/-- What the equations of a strip say about byte `o` of block `b` of disk `d`. -/
def lostByte (coding : ElemTable) (st : NcfsState) (d b o : ℕ) : Byte :=
  if d < st.diskTotalNum - 1 then
    (((List.range (st.diskTotalNum - 1)).filter (· ≠ d)).map fun i => st.block i b o).sum
  else
    ((coding.elemHash (b % coding.row, d)).map fun e => st.block e.2
      (e.1 + b / coding.row * coding.row) o).sum

/-- The cells that are read ahead are those of other disks, and all that the equations name. -/
structure Prefetch (coding : ElemTable) (cells : List Pair) (n d : ℕ) : Prop where
  /-- A strip is not empty. -/
  row_pos : 0 < coding.row
  /-- They are cells of the strip, on other disks. -/
  inside : ∀ c ∈ cells, c.1 < coding.row ∧ c.2 < n ∧ c.2 ≠ d
  /-- The equations of a data or `P` block name its row. -/
  line : d < n - 1 → ∀ r < coding.row, ∀ i < n - 1, i ≠ d → (r, i) ∈ cells
  /-- Those of a `Q` block name the cells of the table. -/
  diagonal : ¬ d < n - 1 → ∀ r < coding.row, ∀ e ∈ coding.elemHash (r, d), e ∈ cells

/-- The cells of strip `g` that are read ahead lie on their devices, at offsets that are values of
an `int`. -/
def Readable (coding : ElemTable) (cells : List Pair) (s : Devices) (g : ℕ) : Prop :=
  ∀ c ∈ cells, s.HasBlock c.2 (c.1 + g * coding.row) ∧
    (c.1 + g * coding.row) * s.ncfs.diskBlockSize < 2 ^ 31

variable {coding : ElemTable} {cells : List Pair} {s : Devices} {d b g : ℕ}

/-! ### What `decode` returns -/

/-- What a reading loop adds up. -/
theorem foldl_addRead {ι : Type*} (size : ℕ) (disk offset : ι → ℕ) {l : List ι}
    (h : ∀ e ∈ l, s.Holds (disk e) size (offset e)) (buf tempBuf : Buf) :
    ∃ tempBuf', l.foldl (fun x e => addRead size x (disk e) (offset e)) (buf, tempBuf, s) =
      (xorBuf size buf fun j => (l.map fun e => s.ncfs.disk (disk e) (offset e + j)).sum,
        tempBuf', s) := by
  induction l generalizing buf tempBuf with
  | nil =>
      refine ⟨tempBuf, Prod.ext (funext fun j => ?_) rfl⟩
      simp [xorBuf]
  | cons e l ih =>
      obtain ⟨he, hl⟩ := List.forall_mem_cons.1 h
      have hread : addRead size (buf, tempBuf, s) (disk e) (offset e) =
          (xorBuf size buf fun j => s.ncfs.disk (disk e) (offset e + j),
            readDisk s.ncfs (disk e) tempBuf size (offset e), s) := by
        rw [addRead]
        simp only [Devices.readDisk, if_pos he]
        refine Prod.ext (funext fun j => ?_) rfl
        by_cases hj : j < size <;> simp [xorBuf, readDisk, hj]
      obtain ⟨tempBuf', htail⟩ :=
        ih hl (xorBuf size buf fun j => s.ncfs.disk (disk e) (offset e + j))
        (readDisk s.ncfs (disk e) tempBuf size (offset e))
      refine ⟨tempBuf', ?_⟩
      rw [List.foldl_cons, hread, htail]
      refine Prod.ext (funext fun j => ?_) rfl
      by_cases hj : j < size <;> simp [xorBuf, hj, add_assoc]

/-- The bytes that `decode` returns for a data disk or the `P` disk are those at the beginning of
the block. -/
theorem decode_line (h : s.SingleFailure d) (hd : d < s.ncfs.diskTotalNum - 1)
    (hread : ∀ i < s.ncfs.diskTotalNum - 1, i ≠ d → s.HasBlock i b) {o size : ℕ} (hpos : 0 < size)
    (hin : o + size ≤ s.ncfs.diskBlockSize) (buf : Buf) :
    ∃ buf', coding.decode s d buf size (b * s.ncfs.diskBlockSize + o) = .ok (buf', s) ∧
      ∀ i < size, buf' i = coding.lostByte s.ncfs d b i := by
  have hdiv : (b * s.ncfs.diskBlockSize + o) / s.ncfs.diskBlockSize = b := by
    rw [Nat.mul_comm, Nat.mul_add_div s.ncfs.diskBlockSize_pos, Nat.div_eq_of_lt
      (by omega), add_zero]
  obtain ⟨tempBuf, hfold⟩ := foldl_addRead (s := s) size (fun i => i)
    (fun _ => b * s.ncfs.diskBlockSize) (l := (List.range (s.ncfs.diskTotalNum - 1)).filter (· ≠ d))
    (fun i hi => by
      obtain ⟨hi, hid⟩ := List.mem_filter.1 hi
      obtain ⟨-, hle⟩ := Devices.holds_block_iff.2
        (hread i (List.mem_range.1 hi) (of_decide_eq_true hid))
      exact ⟨hpos, by omega⟩) (memset0 buf size) (fun _ => 0)
  rw [List.foldl_filter] at hfold
  simp only [decide_eq_true_eq] at hfold
  rw [decode]
  simp only [if_neg h.status_ne, if_pos h.count, hdiv, if_pos hd]
  refine ⟨_, by rw [hfold], fun i hi => ?_⟩
  dsimp only
  rw [xorBuf_of_lt _ _ hi, memset0_of_lt hi, zero_add, lostByte, if_pos hd]
  rfl

/-- `decode` of a block returns what the equations say. -/
theorem decode_block (hcells : coding.Prefetch cells s.ncfs.diskTotalNum d) (h : s.SingleFailure d)
    (hread : coding.Readable cells s (b / coding.row)) (buf : Buf) :
    ∃ buf', coding.decode s d buf s.ncfs.diskBlockSize (b * s.ncfs.diskBlockSize) = .ok (buf', s) ∧
      ∀ o < s.ncfs.diskBlockSize, buf' o = coding.lostByte s.ncfs d b o := by
  have hlt : b % coding.row < coding.row := Nat.mod_lt _ hcells.row_pos
  have hb : b % coding.row + b / coding.row * coding.row = b := Nat.mod_add_div' ..
  by_cases hd : d < s.ncfs.diskTotalNum - 1
  · have hblocks : ∀ i < s.ncfs.diskTotalNum - 1, i ≠ d → s.HasBlock i b := by
      intro i hi hid
      have hblock := (hread _ (hcells.line hd _ hlt i hi hid)).1
      rwa [hb] at hblock
    exact decode_line (o := 0) h hd hblocks s.ncfs.diskBlockSize_pos (Nat.zero_add _).le buf
  · rw [decode]
    simp only [if_neg h.status_ne, if_pos h.count, Nat.mul_div_cancel _ s.ncfs.diskBlockSize_pos]
    rw [if_neg hd]
    have hmem := hcells.diagonal hd _ hlt
    have hloop : (coding.elemHash (b % coding.row, d)).foldlM (fun x e => do
          let readBlkOffset := e.1 + b / coding.row * coding.row
          return addRead s.ncfs.diskBlockSize x e.2 (← intMul readBlkOffset s.ncfs.diskBlockSize))
          (memset0 buf s.ncfs.diskBlockSize, (fun _ => 0), s) =
        .ok ((coding.elemHash (b % coding.row, d)).foldl
          (fun x e => addRead s.ncfs.diskBlockSize x e.2
            ((e.1 + b / coding.row * coding.row) * s.ncfs.diskBlockSize))
          (memset0 buf s.ncfs.diskBlockSize, (fun _ => 0), s)) :=
      Loops.foldlM_ok (fun x e he => by
        simp only [intMul_of_lt (hread e (hmem e he)).2]
        rfl) _
    obtain ⟨tempBuf, hfold⟩ := foldl_addRead (s := s) s.ncfs.diskBlockSize Prod.snd
      (fun e => (e.1 + b / coding.row * coding.row) * s.ncfs.diskBlockSize)
      (l := coding.elemHash (b % coding.row, d)) (fun e he =>
        Devices.holds_block_iff.2 (hread e (hmem e he)).1) (memset0 buf s.ncfs.diskBlockSize)
          (fun _ => 0)
    refine ⟨_, by rw [hloop, Loops.ok_bind, hfold]; rfl, fun o ho => ?_⟩
    dsimp only
    rw [xorBuf_of_lt _ _ ho, memset0_of_lt ho, zero_add, lostByte, if_neg hd]
    rfl

/-! ### One block of the rebuild -/

/-- A slot holds its cell of strip `g`. -/
def Filled (coding : ElemTable) (st : NcfsState) (g : ℕ) (pread : Pair → Buf) (c : Pair) : Prop :=
  ∀ o < st.diskBlockSize, pread c o = st.block c.2 (c.1 + g * coding.row) o

/-- All cells are read ahead. -/
theorem preReadIntoBuf_ok (hread : coding.Readable cells s g) (pread : Pair → Buf) :
    ∃ pread', coding.preReadIntoBuf cells s g pread = .ok (pread', s) ∧
      ∀ c, c ∈ cells ∨ coding.Filled s.ncfs g pread c → coding.Filled s.ncfs g pread' c := by
  rw [preReadIntoBuf]
  induction cells generalizing pread with
  | nil => exact ⟨pread, rfl, fun c hc => hc.resolve_left (List.not_mem_nil)⟩
  | cons c cells ih =>
      obtain ⟨⟨hblock, hlt⟩, hrest⟩ := List.forall_mem_cons.1 hread
      let buf := readDisk s.ncfs c.2 (pread c) s.ncfs.diskBlockSize
        ((c.1 + g * coding.row) * s.ncfs.diskBlockSize)
      have hstep : coding.readCell g (pread, s) c = .ok (Function.update pread c buf, s) := by
        rw [readCell]
        simp only [intMul_of_lt hlt, Loops.ok_bind, Devices.readDisk_block hblock]
        rfl
      obtain ⟨pread', hrun, hfilled⟩ := ih hrest (Function.update pread c buf)
      refine ⟨pread', ?_, fun x hx => hfilled x ?_⟩
      · rw [List.foldlM_cons, hstep]
        exact hrun
      · by_cases hxc : x = c
        · subst hxc
          refine Or.inr fun o ho => ?_
          rw [Function.update_self]
          exact readDisk_block _ _ _ _ _ ho
        · refine hx.imp (fun hmem => (List.mem_cons.1 hmem).resolve_left hxc) fun hold o ho => ?_
          rw [Function.update_of_ne hxc]
          exact hold o ho

/-- The sum of the slots is what the equations say. -/
theorem addSlots_apply {n : ℕ} (hcells : coding.Prefetch cells n d) {st : NcfsState}
    (hn : st.diskTotalNum = n) {pread : Pair → Buf}
    (hfilled : ∀ c ∈ cells, coding.Filled st (b / coding.row) pread c) {o : ℕ}
    (ho : o < st.diskBlockSize) (buf : Buf) :
    coding.addSlots n st.diskBlockSize d (b % coding.row) pread (memset0 buf st.diskBlockSize) o =
      coding.lostByte st d b o := by
  have hlt : b % coding.row < coding.row := Nat.mod_lt _ hcells.row_pos
  subst hn
  rw [addSlots, lostByte]
  by_cases hd : d < st.diskTotalNum - 1
  · have hloop := foldl_xorBuf st.diskBlockSize (fun i => pread (b % coding.row, i))
      ((List.range (st.diskTotalNum - 1)).filter (· ≠ d)) (memset0 buf st.diskBlockSize)
    rw [List.foldl_filter] at hloop
    simp only [decide_eq_true_eq] at hloop
    rw [if_pos hd, if_pos hd, hloop, xorBuf_of_lt _ _ ho, memset0_of_lt ho, zero_add]
    refine congrArg List.sum (List.map_congr_left fun i hi => ?_)
    obtain ⟨hi, hid⟩ := List.mem_filter.1 hi
    rw [hfilled _ (hcells.line hd _ hlt i (List.mem_range.1 hi) (of_decide_eq_true hid)) o ho,
      Nat.mod_add_div']
  · rw [if_neg hd, if_neg hd, foldl_xorBuf, xorBuf_of_lt _ _ ho, memset0_of_lt ho, zero_add]
    exact congrArg List.sum (List.map_congr_left fun e he => hfilled e
      (hcells.diagonal hd _ hlt e he) o ho)

/-- One block is rebuilt: the slots have been filled before, or are filled now. -/
theorem recoverBlock2_ok {r : RecoverState}
    (hcells : coding.Prefetch cells r.devices.ncfs.diskTotalNum d) (h : r.devices.SingleFailure d)
    (hread : coding.Readable cells r.devices (b / coding.row))
    (hslots : r.inBuf = true → ∀ c ∈ cells, coding.Filled r.devices.ncfs
      (b / coding.row) r.preadStripes c) :
    ∃ r', coding.recoverBlock2 cells r d r.devices.ncfs.diskBlockSize
      (b * r.devices.ncfs.diskBlockSize) = .ok r' ∧ r'.devices = r.devices ∧
      (∀ c ∈ cells, coding.Filled r.devices.ncfs (b / coding.row) r'.preadStripes c) ∧
      ∀ o < r.devices.ncfs.diskBlockSize, r'.buf o = coding.lostByte r.devices.ncfs d b o := by
  have hfill : ∃ pread, coding.preReadOnce cells r (b / coding.row) = .ok (pread, r.devices) ∧
      ∀ c ∈ cells, coding.Filled r.devices.ncfs (b / coding.row) pread c := by
    rw [preReadOnce]
    by_cases hin : r.inBuf = true
    · exact ⟨_, if_pos hin, hslots hin⟩
    · obtain ⟨pread, hrun, hpread⟩ := preReadIntoBuf_ok hread r.preadStripes
      exact ⟨pread, (if_neg hin).trans hrun, fun c hc => hpread c (Or.inl hc)⟩
  obtain ⟨pread, hpre, hpread⟩ := hfill
  refine ⟨⟨_, pread, true, r.devices⟩, ?_, rfl, hpread, fun o ho =>
    addSlots_apply hcells rfl hpread ho r.buf⟩
  rw [recoverBlock2]
  simp only [if_neg h.status_ne, if_pos h.count,
    Nat.mul_div_cancel _ r.devices.ncfs.diskBlockSize_pos, hpre]
  rfl

/-! ### The loops of the rebuild -/

variable {count : ℕ} {s' : Devices}

/-- The blocks that the equations give for the lost disk have been written. -/
abbrev Rebuilt (coding : ElemTable) (s : Devices) (d count : ℕ) (s' : Devices) : Prop :=
  s.Rebuilt d (coding.lostByte s.ncfs d) count s'

theorem Rebuilt.readable (h : coding.Rebuilt s d count s') (hread : coding.Readable cells s g) :
    coding.Readable cells s' g := by
  intro c hc
  rw [Devices.HasBlock, h.size_eq, h.block_eq]
  exact hread c hc

/-- What the equations say does not depend on the disk that is lost. -/
theorem Prefetch.lostByte_congr {st st' : NcfsState}
    (hcells : coding.Prefetch cells st.diskTotalNum d)
    (htotal : st'.diskTotalNum = st.diskTotalNum) {o : ℕ}
    (hblock : ∀ i, i ≠ d → ∀ b, st'.block i b o = st.block i b o) (b : ℕ) :
    coding.lostByte st' d b o = coding.lostByte st d b o := by
  have hlt : b % coding.row < coding.row := Nat.mod_lt _ hcells.row_pos
  rw [lostByte, lostByte, htotal]
  by_cases hd : d < st.diskTotalNum - 1
  · rw [if_pos hd, if_pos hd]
    refine congrArg List.sum (List.map_congr_left fun i hi => ?_)
    exact hblock i (of_decide_eq_true (List.mem_filter.1 hi).2) b
  · rw [if_neg hd, if_neg hd]
    refine congrArg List.sum (List.map_congr_left fun e he => ?_)
    exact hblock e.2 (hcells.inside e (hcells.diagonal hd _ hlt e he)).2.2 _

theorem Rebuilt.lostByte_eq (h : coding.Rebuilt s d count s')
    (hcells : coding.Prefetch cells s.ncfs.diskTotalNum d) (o : ℕ) :
    coding.lostByte s'.ncfs d b o = coding.lostByte s.ncfs d b o :=
  hcells.lostByte_congr h.total_eq (fun _ hi b => h.block_of_ne hi b o) b

/-- One pass of the inner loop, with the slots of the strip. -/
theorem recoverPass_ok (hcells : coding.Prefetch cells s.ncfs.diskTotalNum d)
    (hs : s.SingleFailure d) (hread : coding.Readable cells s g) {j : ℕ} (hj : j < coding.row)
    {r : RecoverState} (h : coding.Rebuilt s d (g * coding.row + j) r.devices)
    (hslots : r.inBuf = true → ∀ c ∈ cells, coding.Filled s.ncfs g r.preadStripes c) :
    ∃ r', coding.recoverPass cells d (g * coding.row) r j = .ok r' ∧
      coding.Rebuilt s d (g * coding.row + (j + 1)) r'.devices ∧
      ∀ c ∈ cells, coding.Filled s.ncfs g r'.preadStripes c := by
  have hdiv : (g * coding.row + j) / coding.row = g := by
    rw [Nat.mul_comm, Nat.mul_add_div hcells.row_pos, Nat.div_eq_of_lt hj, add_zero]
  have hfilled : ∀ pread, (∀ c ∈ cells, coding.Filled s.ncfs g pread c) ↔
      ∀ c ∈ cells, coding.Filled r.devices.ncfs ((g * coding.row + j) / coding.row) pread c := by
    intro pread
    refine forall₂_congr fun c hc => ?_
    rw [Filled, Filled, h.block_eq, hdiv]
    refine forall₂_congr fun o _ => ?_
    rw [h.block_of_ne (hcells.inside c hc).2.2]
  obtain ⟨r', hrun, hdevices, hpread, hbuf⟩ := recoverBlock2_ok (b := g * coding.row + j)
    (h.total_eq ▸ hcells) (h.singleFailure hs) (by rw [hdiv]; exact h.readable hread)
    (fun hin => (hfilled _).1 (hslots hin))
  let offset := (g * coding.row + j) * r.devices.ncfs.diskBlockSize
  refine ⟨{ r' with devices := r'.devices.writeDisk d r'.buf r.devices.ncfs.diskBlockSize offset },
    ?_, ?_,
    (hfilled _).2 hpread⟩
  · rw [recoverPass, hrun]
    rfl
  rw [hdevices, ← Nat.add_assoc]
  refine h.write hs fun o ho => ?_
  rw [hbuf o (by rwa [h.block_eq]), h.lostByte_eq hcells]

/-- One pass of the outer loop. -/
theorem recoverStrip_ok (hcells : coding.Prefetch cells s.ncfs.diskTotalNum d)
    (hs : s.SingleFailure d) (hread : coding.Readable cells s g)
    (h : coding.Rebuilt s d (g * coding.row) s') :
    ∃ s'', coding.recoverStrip cells d s' (g * coding.row) = .ok s'' ∧
      coding.Rebuilt s d ((g + 1) * coding.row) s'' := by
  obtain ⟨r, hrun, hr, -⟩ := Loops.foldlM_range (f := coding.recoverPass cells d (g * coding.row))
    (n := coding.row) (fun j r => coding.Rebuilt s d (g * coding.row + j) r.devices ∧
      (r.inBuf = true → ∀ c ∈ cells, coding.Filled s.ncfs g r.preadStripes c))
    (fun j hj r hr => by
      obtain ⟨r', hpass, hrebuilt, hpread⟩ := recoverPass_ok hcells hs hread hj hr.1 hr.2
      exact ⟨r', hpass, hrebuilt, fun _ => hpread⟩)
    (s := ⟨fun _ => 0, fun _ _ => 0, false, s'⟩) ⟨h, fun hin => absurd hin Bool.false_ne_true⟩
  refine ⟨r.devices, by rw [recoverStrip, hrun]; rfl, ?_⟩
  rw [Nat.succ_mul]
  exact hr

/-- A disk of whole strips is rebuilt. -/
theorem recoverOneDisk_ok (hcells : coding.Prefetch cells s.ncfs.diskTotalNum d)
    (hs : s.SingleFailure d) (hdvd : coding.row ∣ s.diskSize d)
    (hread : ∀ g < s.diskSize d / coding.row, coding.Readable cells s g) :
    ∃ s', coding.recoverOneDisk cells s d = .ok s' ∧ s'.ncfs.diskBlockSize = s.ncfs.diskBlockSize ∧
      (∀ i, i ≠ d → s'.ncfs.disk i = s.ncfs.disk i) ∧
      (∀ b < s.diskSize d, ∀ o < s.ncfs.diskBlockSize,
        s'.ncfs.block d b o = coding.lostByte s.ncfs d b o) ∧
      ∀ i < s.ncfs.diskTotalNum, s'.ncfs.diskStatus i = 0 := by
  obtain ⟨groups, hgroups⟩ := hdvd
  have hcount : (s.diskSize d + coding.row - 1) / coding.row = groups := by
    have hlt : coding.row - 1 < coding.row := Nat.sub_lt hcells.row_pos one_pos
    rw [hgroups, Nat.add_sub_assoc hcells.row_pos, Nat.mul_add_div hcells.row_pos,
      Nat.div_eq_of_lt hlt, add_zero]
  have hdiv : s.diskSize d / coding.row = groups := by
    rw [hgroups, Nat.mul_div_cancel_left _ hcells.row_pos]
  obtain ⟨s', hrun, h⟩ :=
    Loops.foldlM_range (f := fun s g => coding.recoverStrip cells d s (g * coding.row))
    (n := groups) (fun g s' => coding.Rebuilt s d (g * coding.row) s')
    (fun g hg s' h => recoverStrip_ok hcells hs (hread g (hdiv ▸ hg)) h) (s := s)
    (by rw [Nat.zero_mul]; exact Devices.Rebuilt.start)
  refine ⟨s'.setDeviceStatus d 0, ?_, h.finish hs (by rw [hgroups, Nat.mul_comm])⟩
  rw [recoverOneDisk]
  simp only [hcount, hrun]
  rfl

/-! ### Rebuilds that read too far -/

theorem later_readCell {x x' : (Pair → Buf) × Devices} {c : Pair}
    (h : coding.readCell g x c = .ok x') :
    x.2.Later x'.2 := by
  obtain ⟨offset, -, hrest⟩ := Loops.bind_eq_ok h
  cases hrest
  exact Devices.later_readDisk ..

/-- A cell that is read has an offset that is a value of an `int`, and lies on its device, or the
disk is marked. -/
theorem readCell_marks {x x' : (Pair → Buf) × Devices} {c : Pair} (hc : c.2 < x.2.ncfs.diskTotalNum)
    (h : coding.readCell g x c = .ok x') :
    (c.1 + g * coding.row) * x.2.ncfs.diskBlockSize < 2 ^ 31 ∧
      (x.2.HasBlock c.2 (c.1 + g * coding.row) ∨ x'.2.ncfs.diskStatus c.2 ≠ 0) := by
  obtain ⟨offset, hmul, hrest⟩ := Loops.bind_eq_ok h
  obtain ⟨hlt, rfl⟩ := intMul_eq_ok hmul
  cases hrest
  refine ⟨hlt, or_iff_not_imp_left.2 fun hblock => ?_⟩
  exact Devices.readDisk_status hc (mt Devices.holds_block_iff.1 hblock) _

/-- What has been read ahead without overflow. -/
theorem preReadIntoBuf_marks (hcells : ∀ c ∈ cells, c.2 < s.ncfs.diskTotalNum) {pread : Pair → Buf}
    {x : (Pair → Buf) × Devices} (h : coding.preReadIntoBuf cells s g pread = .ok x) :
    s.Later x.2 ∧ ∀ c ∈ cells, (c.1 + g * coding.row) * s.ncfs.diskBlockSize < 2 ^ 31 ∧
      (s.HasBlock c.2 (c.1 + g * coding.row) ∨ x.2.ncfs.diskStatus c.2 ≠ 0) := by
  obtain ⟨hlater, hpass⟩ :=
    Loops.foldlM_pass (R := fun x x' : (Pair → Buf) × Devices => x.2.Later x'.2)
    (fun _ => .rfl) (fun _ _ _ => .trans) (fun _ _ _ _ => later_readCell) h
  refine ⟨hlater, fun c hc => ?_⟩
  obtain ⟨x₁, x₂, h₁, hread, h₂⟩ := hpass c hc
  obtain ⟨hlt, hmark⟩ := readCell_marks (h₁.total_eq ▸ hcells c hc) hread
  rw [h₁.block_eq] at hlt
  rw [Devices.HasBlock, h₁.size_eq] at hmark
  exact ⟨hlt, hmark.imp_right h₂.failed⟩

theorem later_recoverBlock2 {r r' : RecoverState} {size offset : ℕ}
    (h : coding.recoverBlock2 cells r d size offset = .ok r') : r.devices.Later r'.devices := by
  rw [recoverBlock2] at h
  dsimp only at h
  split at h
  · cases h
    exact Devices.later_readDisk ..
  · obtain ⟨x, hpre, hrest⟩ := Loops.bind_eq_ok h
    cases hrest
    rw [preReadOnce] at hpre
    split at hpre
    · cases hpre
      exact .rfl
    · exact (Loops.foldlM_pass (R := fun x x' : (Pair → Buf) × Devices => x.2.Later x'.2)
        (fun _ => .rfl) (fun _ _ _ => .trans) (fun _ _ _ _ => later_readCell) hpre).1

theorem later_recoverPass {r r' : RecoverState} {i j : ℕ}
    (h : coding.recoverPass cells d i r j = .ok r') :
    r.devices.Later r'.devices := by
  obtain ⟨r₁, hblock, hrest⟩ := Loops.bind_eq_ok h
  cases hrest
  exact (later_recoverBlock2 hblock).trans (Devices.later_writeDisk ..)

theorem later_recoverPasses {l : List ℕ} {r r' : RecoverState} {i : ℕ}
    (h : l.foldlM (coding.recoverPass cells d i) r = .ok r') : r.devices.Later r'.devices :=
  (Loops.foldlM_pass (R := fun r r' : RecoverState => r.devices.Later r'.devices) (fun _ => .rfl)
    (fun _ _ _ => .trans) (fun _ _ _ _ => later_recoverPass) h).1

/-- The cells of strip `g` are read at its first block. -/
theorem recoverStrip_marks (hrow : 0 < coding.row) (hcells : ∀ c ∈ cells, c.2 < s.ncfs.diskTotalNum)
    (h : coding.recoverStrip cells d s (g * coding.row) = .ok s') :
    s.Later s' ∧ (s.ncfs.diskStatus d ≠ 0 →
      ∀ c ∈ cells, (c.1 + g * coding.row) * s.ncfs.diskBlockSize < 2 ^ 31 ∧
        (s.HasBlock c.2 (c.1 + g * coding.row) ∨ s'.ncfs.diskStatus c.2 ≠ 0)) := by
  obtain ⟨r, hloop, hrest⟩ := Loops.bind_eq_ok h
  cases hrest
  obtain ⟨n, hn⟩ := Nat.exists_eq_succ_of_ne_zero hrow.ne'
  refine ⟨later_recoverPasses hloop, fun hstatus c hc => ?_⟩
  have hrange :
      List.range coding.row = 0 :: (List.range n).map Nat.succ := by rw [hn, List.range_succ_eq_map]
  rw [hrange, List.foldlM_cons] at hloop
  obtain ⟨r₁, hfirst, hothers⟩ := Loops.bind_eq_ok hloop
  obtain ⟨r₂, hblock, hwrite⟩ := Loops.bind_eq_ok hfirst
  cases hwrite
  rw [recoverBlock2] at hblock
  simp only [if_neg hstatus, add_zero, Nat.mul_div_cancel _ s.ncfs.diskBlockSize_pos,
    Nat.mul_div_cancel _ hrow] at hblock
  obtain ⟨x, hpre, hsum⟩ := Loops.bind_eq_ok hblock
  cases hsum
  obtain ⟨hlt, hmark⟩ := (preReadIntoBuf_marks hcells hpre).2 c hc
  have hrest := (Devices.later_writeDisk ..).trans (later_recoverPasses hothers)
  exact ⟨hlt, hmark.imp_right hrest.failed⟩

/-- A rebuild that has a result has read every strip without overflow, and has marked the disks that
it has read too far. -/
theorem recoverOneDisk_marks (hrow : 0 < coding.row)
    (hcells : ∀ c ∈ cells, c.2 < s.ncfs.diskTotalNum ∧ c.2 ≠ d) (hstatus : s.ncfs.diskStatus d ≠ 0)
    (h : coding.recoverOneDisk cells s d = .ok s')
    (hg : g * coding.row < s.diskSize d) {c : Pair} (hc : c ∈ cells) :
    (c.1 + g * coding.row) * s.ncfs.diskBlockSize < 2 ^ 31 ∧
      (s.HasBlock c.2 (c.1 + g * coding.row) ∨ s'.ncfs.diskStatus c.2 ≠ 0) := by
  obtain ⟨s₀, hloop, hrest⟩ := Loops.bind_eq_ok h
  cases hrest
  have hmem : g ∈ List.range ((s.diskSize d + coding.row - 1) / coding.row) := by
    rw [List.mem_range, Nat.lt_div_iff_mul_lt hrow]
    omega
  have hpass :=
    Loops.foldlM_pass (R := fun s₁ s₂ : Devices => s.ncfs.diskTotalNum = s₁.ncfs.diskTotalNum →
      s₁.Later s₂) (fun _ _ => .rfl)
        (fun s₁ s₂ s₃ h₁ h₂ hn => (h₁ hn).trans (h₂ (hn.trans (h₁ hn).total_eq.symm)))
    (fun s₁ x _ s₂ hx hn => (recoverStrip_marks hrow (fun c hc => hn ▸ (hcells c hc).1) hx).1) hloop
  obtain ⟨s₁, s₂, h₁, hx, h₂⟩ := hpass.2 g hmem
  have h₁ := h₁ rfl
  have hn : ∀ c ∈ cells, c.2 < s₁.ncfs.diskTotalNum := fun c hc => h₁.total_eq ▸ (hcells c hc).1
  obtain ⟨hlater, hmarks⟩ := recoverStrip_marks hrow hn hx
  have h₂ := h₂ (hlater.total_eq.trans h₁.total_eq).symm
  obtain ⟨hlt, hmark⟩ := hmarks (h₁.failed hstatus) c hc
  rw [h₁.block_eq] at hlt
  rw [Devices.HasBlock, h₁.size_eq] at hmark
  refine ⟨hlt, hmark.imp_right fun hx => ?_⟩
  rw [Devices.setDeviceStatus]
  split
  · exact h₂.failed hx
  · change Function.update s₀.ncfs.diskStatus d 0 c.2 ≠ 0
    rw [Function.update_of_ne (hcells c hc).2]
    exact h₂.failed hx

end ElemTable

/-! ### The cells that are read ahead -/

theorem Coding4Evenodd.mem_preReadCells {coding : ElemTable} {n d r i : ℕ} :
    (r, i) ∈ preReadCells coding n d ↔
      i < n ∧ i ≠ d ∧ i ≠ (if d = n - 1 then n - 2 else n - 1) ∧ r < coding.row := by
  rw [preReadCells]
  generalize (if d = n - 1 then n - 2 else n - 1) = nonReadCol
  rw [List.mem_flatMap]
  constructor
  · rintro ⟨j, hj, hmem⟩
    split at hmem
    · rename_i hread
      obtain ⟨r', hr', heq⟩ := List.mem_map.1 hmem
      obtain ⟨rfl, rfl⟩ := Prod.mk.inj heq
      exact ⟨List.mem_range.1 hj, hread.1, hread.2, List.mem_range.1 hr'⟩
    · cases hmem
  · rintro ⟨hi, hid, hne, hr⟩
    refine ⟨i, List.mem_range.2 hi, ?_⟩
    rw [if_pos ⟨hid, hne⟩]
    exact List.mem_map.2 ⟨r, List.mem_range.2 hr, rfl⟩

theorem Coding4Rdp.mem_preReadCells_line {coding : ElemTable} {n d r i : ℕ} (hd : d ≠ n - 1) :
    (r, i) ∈ preReadCells coding n d ↔ i < n - 1 ∧ i ≠ d ∧ r < coding.row := by
  rw [preReadCells, if_pos hd, List.mem_flatMap]
  constructor
  · rintro ⟨j, hj, hmem⟩
    split at hmem
    · rename_i hread
      obtain ⟨r', hr', heq⟩ := List.mem_map.1 hmem
      obtain ⟨rfl, rfl⟩ := Prod.mk.inj heq
      exact ⟨List.mem_range.1 hj, hread, List.mem_range.1 hr'⟩
    · cases hmem
  · rintro ⟨hi, hid, hr⟩
    refine ⟨i, List.mem_range.2 hi, ?_⟩
    rw [if_pos hid]
    exact List.mem_map.2 ⟨r, List.mem_range.2 hr, rfl⟩

theorem Coding4Rdp.mem_preReadCells_diagonal {coding : ElemTable} {n : ℕ} {c : Pair} :
    c ∈ preReadCells coding n (n - 1) ↔ ∃ j < coding.row, c ∈ coding.elemHash (j, n - 1) := by
  rw [preReadCells, if_neg fun h => h rfl, List.mem_flatMap]
  simp only [List.mem_range]

section Codes

variable {st : NcfsState} {d : ℕ}

/-- The summands of an EVENODD `Q` block are data cells: its `P` disk need not be read. -/
theorem Coding4Evenodd.prefetch (hk : 2 ≤ st.dataDiskNum) (hd : d < st.dataDiskNum + 2) :
    (new st).Prefetch (preReadCells (new st) (st.dataDiskNum + 2) d) (st.dataDiskNum + 2) d where
  row_pos := (sound hk).row_pos
  inside c hc := by
    obtain ⟨hi, hid, -, hr⟩ := mem_preReadCells.1 hc
    exact ⟨hr, hi, hid⟩
  line hd r hr i hi hid := by
    refine mem_preReadCells.2 ⟨by omega, hid, ?_, hr⟩
    rw [if_neg (by omega)]
    omega
  diagonal hq r hr e he := by
    obtain rfl : d = st.dataDiskNum + 1 := by omega
    have hcount := List.count_pos_iff.2 he
    rw [count_elemHash hr] at hcount
    split at hcount
    · rename_i hcell
      refine mem_preReadCells.2 ⟨by omega, by omega, ?_, hcell.2.1⟩
      rw [if_pos (by omega)]
      omega
    · omega

/-- The last row of a strip is read. -/
theorem Coding4Evenodd.exists_last_cell (hk : 2 ≤ st.dataDiskNum) :
    ∃ i, ((new st).row - 1, i) ∈ preReadCells (new st) (st.dataDiskNum + 2) d := by
  have hrow := (sound hk).row_pos
  refine ⟨if d = 0 then 1 else 0, mem_preReadCells.2 ⟨?_, ?_, ?_, by omega⟩⟩
  · split <;> omega
  · split <;> omega
  · split <;> split <;> omega

theorem Coding4Rdp.prefetch (hk : 1 ≤ st.dataDiskNum) (hd : d < st.dataDiskNum + 2) :
    (new st).Prefetch (preReadCells (new st) (st.dataDiskNum + 2) d) (st.dataDiskNum + 2) d where
  row_pos := (sound hk).row_pos
  inside c hc := by
    by_cases hq : d = st.dataDiskNum + 2 - 1
    · subst hq
      obtain ⟨j, hj, hmem⟩ := mem_preReadCells_diagonal.1 hc
      have hnamed := (sound hk).named_mem j hj c.swap (List.mem_map.2 ⟨c, hmem, rfl⟩)
      have hcol : c.2 ≤ st.dataDiskNum := hnamed.1
      exact ⟨hnamed.2, by omega, by omega⟩
    · obtain ⟨hi, hid, hr⟩ := (mem_preReadCells_line hq).1 hc
      exact ⟨hr, by omega, hid⟩
  line hd r hr i hi hid := (mem_preReadCells_line (by omega)).2 ⟨hi, hid, hr⟩
  diagonal hq r hr e he := by
    obtain rfl : d = st.dataDiskNum + 2 - 1 := by omega
    exact mem_preReadCells_diagonal.2 ⟨r, hr, he⟩

theorem Coding4Rdp.exists_last_cell (hk : 1 ≤ st.dataDiskNum) (hd : d < st.dataDiskNum + 2) :
    ∃ i, ((new st).row - 1, i) ∈ preReadCells (new st) (st.dataDiskNum + 2) d := by
  have hrow : (new st).row = st.dataDiskNum := rfl
  by_cases hq : d = st.dataDiskNum + 2 - 1
  · subst hq
    refine ⟨0, mem_preReadCells_diagonal.2 ⟨st.dataDiskNum - 1, by omega, ?_⟩⟩
    have hlast : st.dataDiskNum - 1 < st.dataDiskNum := by omega
    have hmod : (st.dataDiskNum - 1) % (st.dataDiskNum + 1) = st.dataDiskNum - 1 :=
      Nat.mod_eq_of_lt (by omega)
    refine List.count_pos_iff.1 ?_
    change 0 < ((new st).elemHash (st.dataDiskNum - 1, st.dataDiskNum + 1)).count
      (st.dataDiskNum - 1, 0)
    rw [count_elemHash hlast, if_pos ⟨hlast, Nat.zero_le _, hmod⟩]
    exact one_pos
  · refine ⟨if d = 0 then 1 else 0, (mem_preReadCells_line hq).2 ⟨?_, ?_, by omega⟩⟩
    · split <;> omega
    · split <;> omega

end Codes

/-! ### The rebuild and `decode` -/

/-- The rebuild has a result, and every block that it puts on the replacement is the one that
`decode` returns. -/
def RebuildsAsDecode (decode : Devices → ℕ → Buf → ℕ → ℕ → Except CodingError (Buf × Devices))
    (recoverOneDisk : Devices → ℕ → Except CodingError Devices) (s : Devices) (d : ℕ) : Prop :=
  ∃ s', recoverOneDisk s d = .ok s' ∧ ∀ b < s.diskSize d, ∀ buf, ∃ buf' s'',
    decode s d buf s.ncfs.diskBlockSize (b * s.ncfs.diskBlockSize) = .ok (buf', s'') ∧
      ∀ o < s.ncfs.diskBlockSize, s'.ncfs.block d b o = buf' o

/-- The last block of a disk has a byte offset that is a value of an `int`. -/
def LastOffsetFits (s : Devices) (d : ℕ) : Prop :=
  (s.diskSize d - 1) * s.ncfs.diskBlockSize < 2 ^ 31

instance (s : Devices) (d : ℕ) : Decidable (LastOffsetFits s d) :=
  inferInstanceAs (Decidable (_ < _))

theorem LastOffsetFits.of_le {s : Devices} {d b : ℕ} (h : LastOffsetFits s d)
    (hb : b < s.diskSize d) :
    b * s.ncfs.diskBlockSize < 2 ^ 31 :=
  (Nat.mul_le_mul_right _ (Nat.le_sub_one_of_lt hb)).trans_lt h

namespace ElemTable

variable {coding : ElemTable} {cells : List Pair} {s : Devices} {d : ℕ}

/-- On a disk of whole strips the rebuild meets the end of no device. -/
theorem Prefetch.readable (hcells : coding.Prefetch cells s.ncfs.diskTotalNum d)
    (hsizes : ∀ i < s.ncfs.diskTotalNum, s.diskSize d ≤ s.diskSize i)
    (hfits : LastOffsetFits s d) {g : ℕ}
    (hg : g < s.diskSize d / coding.row) : coding.Readable cells s g := by
  intro c hc
  obtain ⟨hr, hi, -⟩ := hcells.inside c hc
  have hlt : c.1 + g * coding.row < s.diskSize d := by
    calc c.1 + g * coding.row < coding.row + g * coding.row := by omega
      _ = (g + 1) * coding.row := by rw [Nat.succ_mul, Nat.add_comm]
      _ ≤ s.diskSize d / coding.row * coding.row := Nat.mul_le_mul_right _ hg
      _ ≤ s.diskSize d := Nat.div_mul_le_self ..
  exact ⟨hlt.trans_le (hsizes c.2 hi), hfits.of_le hlt⟩

/-- With enough cells read ahead, the rebuild of a disk of whole strips is `decode`, as far as
offsets are values of an `int`. -/
theorem Prefetch.rebuildsAsDecode_iff (hcells : coding.Prefetch cells s.ncfs.diskTotalNum d)
    (hlast : ∃ i, (coding.row - 1, i) ∈ cells) (hs : s.SingleFailure d)
    (hdvd : coding.row ∣ s.diskSize d)
    (hsizes : ∀ i < s.ncfs.diskTotalNum, s.diskSize d ≤ s.diskSize i) :
    RebuildsAsDecode coding.decode (coding.recoverOneDisk cells) s d ↔ LastOffsetFits s d := by
  constructor
  · rintro ⟨s', hrun, -⟩
    obtain ⟨groups, hgroups⟩ := hdvd
    rcases Nat.eq_zero_or_pos groups with rfl | hpos
    · rw [LastOffsetFits, hgroups, Nat.mul_zero, Nat.zero_sub, Nat.zero_mul]
      exact Nat.two_pow_pos 31
    · obtain ⟨i, hmem⟩ := hlast
      have hrow := hcells.row_pos
      have hsize : (groups - 1) * coding.row + coding.row = s.diskSize d := by
        rw [hgroups, ← Nat.succ_mul, Nat.succ_eq_add_one, Nat.sub_add_cancel hpos, Nat.mul_comm]
      have hlt := (recoverOneDisk_marks hrow (fun c hc => (hcells.inside c hc).2) hs.status_ne hrun
        (g := groups - 1) (by omega) hmem).1
      rw [LastOffsetFits,
        show s.diskSize d - 1 = coding.row - 1 + (groups - 1) * coding.row by omega]
      exact hlt
  · intro hfits
    have hread := fun g => hcells.readable hsizes hfits (g := g)
    obtain ⟨s', hrun, -, -, hblocks, -⟩ := recoverOneDisk_ok hcells hs hdvd hread
    refine ⟨s', hrun, fun b hb buf => ?_⟩
    have hstrip : b / coding.row < s.diskSize d / coding.row := Nat.div_lt_div_of_lt_of_dvd hdvd hb
    obtain ⟨buf', hdecode, hbuf⟩ := decode_block hcells hs (hread _ hstrip) buf
    exact ⟨buf', s, hdecode, fun o ho => (hblocks b hb o ho).trans (hbuf o ho).symm⟩

end ElemTable

/-- For every failed disk of whole strips, whatever is on the others, the blocks that the rebuild
writes under EVENODD and under RDP are those that `decode` returns, exactly when the byte offset of
the last block is a value of an `int`. -/
theorem rebuildsAsDecode_iff (s : Devices) (htotal : s.ncfs.diskTotalNum = s.ncfs.dataDiskNum + 2)
    (d : ℕ) (hs : s.SingleFailure d)
    (hsizes : ∀ i < s.ncfs.diskTotalNum, s.diskSize d ≤ s.diskSize i) :
    (2 ≤ s.ncfs.dataDiskNum → s.ncfs.dataDiskNum - 1 ∣ s.diskSize d →
      (RebuildsAsDecode (Coding4Evenodd.decode (Coding4Evenodd.new s.ncfs))
        (Coding4Evenodd.evenoddRecoverOneDisk (Coding4Evenodd.new s.ncfs)) s d ↔
        LastOffsetFits s d)) ∧
      (1 ≤ s.ncfs.dataDiskNum → s.ncfs.dataDiskNum ∣ s.diskSize d →
        (RebuildsAsDecode (Coding4Rdp.decode (Coding4Rdp.new s.ncfs))
          (Coding4Rdp.rdpRecoverOneDisk (Coding4Rdp.new s.ncfs)) s d ↔ LastOffsetFits s d)) := by
  have hd : d < s.ncfs.dataDiskNum + 2 := htotal ▸ hs.lt
  constructor
  · intro hk hdvd
    have hcells := Coding4Evenodd.prefetch hk hd
    have hlast := Coding4Evenodd.exists_last_cell (d := d) hk
    rw [← htotal] at hcells hlast
    exact hcells.rebuildsAsDecode_iff hlast hs hdvd hsizes
  · intro hk hdvd
    have hcells := Coding4Rdp.prefetch hk hd
    have hlast := Coding4Rdp.exists_last_cell hk hd
    rw [← htotal] at hcells hlast
    exact hcells.rebuildsAsDecode_iff hlast hs hdvd hsizes

/-- The sizes that `readSystemConfig` and `main` give the devices: `TotalSize` is a number of bytes,
read into an `int`, and is divided by the block size. -/
def Devices.Configured (s : Devices) (totalSize : ℕ → ℕ) : Prop :=
  ∀ i, totalSize i < 2 ^ 31 ∧ s.diskSize i = totalSize i / s.ncfs.diskBlockSize

theorem Devices.Configured.lastOffsetFits {s : Devices} {totalSize : ℕ → ℕ}
    (h : s.Configured totalSize) (d : ℕ) :
    LastOffsetFits s d := by
  obtain ⟨hlt, hsize⟩ := h d
  calc (s.diskSize d - 1) * s.ncfs.diskBlockSize ≤ s.diskSize d * s.ncfs.diskBlockSize :=
        Nat.mul_le_mul_right _ (Nat.sub_le ..)
    _ = totalSize d / s.ncfs.diskBlockSize * s.ncfs.diskBlockSize := by rw [hsize]
    _ ≤ totalSize d := Nat.div_mul_le_self ..
    _ < 2 ^ 31 := hlt

/-- On devices of configured sizes, for every failed disk of whole strips and whatever is on the
others, the blocks that the rebuild writes under EVENODD and under RDP are those that `decode`
returns. -/
theorem rebuildsAsDecode_of_configured (s : Devices)
    (htotal : s.ncfs.diskTotalNum = s.ncfs.dataDiskNum + 2) {totalSize : ℕ → ℕ}
    (hconf : s.Configured totalSize) (d : ℕ) (hs : s.SingleFailure d)
    (hsizes : ∀ i < s.ncfs.diskTotalNum, s.diskSize d ≤ s.diskSize i) :
    (2 ≤ s.ncfs.dataDiskNum → s.ncfs.dataDiskNum - 1 ∣ s.diskSize d →
      RebuildsAsDecode (Coding4Evenodd.decode (Coding4Evenodd.new s.ncfs))
        (Coding4Evenodd.evenoddRecoverOneDisk (Coding4Evenodd.new s.ncfs)) s d) ∧
      (1 ≤ s.ncfs.dataDiskNum → s.ncfs.dataDiskNum ∣ s.diskSize d →
        RebuildsAsDecode (Coding4Rdp.decode (Coding4Rdp.new s.ncfs))
          (Coding4Rdp.rdpRecoverOneDisk (Coding4Rdp.new s.ncfs)) s d) := by
  obtain ⟨hevenodd, hrdp⟩ := rebuildsAsDecode_iff s htotal d hs hsizes
  have hfits := hconf.lastOffsetFits d
  exact ⟨fun hk hdvd => (hevenodd hk hdvd).2 hfits, fun hk hdvd => (hrdp hk hdvd).2 hfits⟩

/-- Four disks of `blocks` blocks of four bytes, the first of which has failed. -/
def fourDisks (blocks : ℕ) : Devices where
  ncfs := { NcfsState.blank 4 2 4 fourBytes_pos blocks with
    diskStatus := fun i => if i = 0 then 1 else 0 }
  diskSize _ := blocks

/-- Five disks with something on them.  The second one has failed; the others have twelve blocks, it
has six. -/
def filledDisks : Devices where
  ncfs := { NcfsState.blank 5 3 4 fourBytes_pos (6 : ℕ) with
    diskStatus := fun i => if i = 1 then 1 else 0
    disk := fun d x => Byte.ofNat (24 * d + x) }
  diskSize i := if i = 1 then 6 else 12

/-- All strips of the failed disk are rebuilt: three under EVENODD, two under RDP. -/
theorem rebuildsAsDecode_filled :
    RebuildsAsDecode (Coding4Evenodd.decode (Coding4Evenodd.new filledDisks.ncfs))
        (Coding4Evenodd.evenoddRecoverOneDisk (Coding4Evenodd.new filledDisks.ncfs)) filledDisks 1 ∧
      RebuildsAsDecode (Coding4Rdp.decode (Coding4Rdp.new filledDisks.ncfs))
        (Coding4Rdp.rdpRecoverOneDisk (Coding4Rdp.new filledDisks.ncfs)) filledDisks 1 := by
  have hconf : filledDisks.Configured fun i => if i = 1 then 24 else 48 := by
    intro i
    by_cases hi : i = 1
    · subst hi
      decide
    · simp only [filledDisks, hi, if_false, NcfsState.blank]
      decide
  have hfailed : filledDisks.SingleFailure 1 := by
    refine ⟨by decide, fun i _ => ?_⟩
    rfl
  obtain ⟨hevenodd, hrdp⟩ :=
    rebuildsAsDecode_of_configured filledDisks rfl hconf 1 hfailed (by decide)
  exact ⟨hevenodd (by decide) (by decide), hrdp (by decide) (by decide)⟩

end Ncfs
