/-
Files and their block tables.

Each file of the mounted directory is backed by a file of the underlying file system with the same
name, its info file: the size of the file in its first four bytes, and for each block of the file
the disk and block that hold it, eight bytes each.  `ncfs_write` records blocks there, `ncfs_unlink`
reads them to free the blocks, and renames, links and truncations are passed on to the info files.

Main definitions:

* `Ncfs.FsState` — the store, the directory with the info files, and what has happened to the
  blocks;
* `Ncfs.ncfsWrite`, `Ncfs.ncfsUnlink`, `Ncfs.ncfsTruncate`, `Ncfs.ncfsRename`, `Ncfs.ncfsLink` — the
  operations;
* `Ncfs.FsOp`, `Ncfs.fsStep` — the operations as one step;
* `Ncfs.AllStores` — a condition on the calls of `encode` in a write.

Main results:

* `Ncfs.FsState.recordBlock_eq`, `Ncfs.storeBlock_case` — what a call of `encode` with its records
  makes of the state;
* `Ncfs.ncfsWrite_inv` — what these calls keep, a write keeps;
* `Ncfs.FsState.HasRoom.write` — the buffer of big-block mode holds the pieces of a write.
-/
import FuseMdr.CodingLayer
import FuseMdr.IntFile
import FuseMdr.Machine

set_option relaxedAutoImplicit false
set_option autoImplicit false

namespace Ncfs

open IntFile

/-! ### The state -/

/-- `ENOSPC`. -/
def enospc : ℤ := 28

/-- `sysblocksize`. -/
def sysblocksize : ℕ := 4096

theorem sysblocksize_pos : 0 < 4096 := by decide

/-- `sizeof(struct data_block_info)`. -/
def sizeofBlockInfo : ℕ := 8

/-- The state of the file system.  The last three fields are not in the sources: they record which
blocks `ncfs_write` has entered into a table and no truncation has cut off, which blocks are in use,
and which have been returned by `encode` at any time. -/
structure FsState where
  /-- The store. -/
  st : NcfsState
  /-- `operation_mode`. -/
  operationMode : ℕ
  /-- The directory: the info file behind each path. -/
  names : String → Option ℕ
  /-- The info files. -/
  info : ℕ → File
  /-- The number of the next info file. -/
  nextInfo : ℕ
  /-- `bigtempbuf`. -/
  bigtempbuf : Buf
  /-- `bigtempbuf_counter`. -/
  bigtempbufCounter : ℤ
  /-- Bytes have been copied behind the end of `bigtempbuf`.  What the process does from then on is
  not defined. -/
  bigtempbufOverrun : Bool
  /-- The block recorded in each slot of an info file. -/
  slots : ℕ → ℕ → Option (ℕ × ℕ)
  /-- The blocks that `encode` has returned and that have not been freed since. -/
  live : List (ℕ × ℕ)
  /-- All blocks that `encode` has returned. -/
  returned : List (ℕ × ℕ)

/-- A path refers to an info file that no other path refers to. -/
def FsState.Sole (fs : FsState) (path : String) (f : ℕ) : Prop :=
  fs.names path = some f ∧ ∀ other, fs.names other = some f → other = path

/-- The offset of a slot in an info file. -/
def slotOffset (slot : ℕ) : ℕ := (slot + 1) * sizeofBlockInfo

/-! ### Info files -/

/-- `open` with `O_CREAT`, also the effect of `ncfs_create` and `ncfs_mknod` for a path without
file. -/
def FsState.openCreate (fs : FsState) (path : String) : FsState :=
  match fs.names path with
  | some _ => fs
  | none => { fs with
      names := Function.update fs.names path (some fs.nextInfo)
      info := Function.update fs.info fs.nextInfo File.empty
      slots := Function.update fs.slots fs.nextInfo fun _ => none
      nextInfo := fs.nextInfo + 1 }

/-- `cacheLayer->writeFileInfo` of a record for an open file with this path. -/
def FsState.writeFileInfo (fs : FsState) (path : String) (vs : List ℤ) (offset : ℕ) : FsState :=
  let fs := fs.openCreate path
  match fs.names path with
  | some f =>
      { fs with
        info := Function.update fs.info f
          ((fs.info f).pwrite (record vs) (4 * vs.length) offset) }
  | none => fs

/-! ### Writing -/

/-- A call of `encode` with what is recorded after it: the size of the file, and the block in a slot
of the table. -/
structure BlockWrite where
  /-- The bytes. -/
  buf : Buf
  /-- Their number. -/
  size : ℕ
  /-- `file_size`. -/
  fileSize : ℤ
  /-- The slot at `addr_offset`. -/
  slot : ℕ

/-- The records of a block that `encode` has returned.  The history is kept along. -/
def FsState.recordBlock (fs : FsState) (path : String) (w : BlockWrite) (x : ℕ × ℕ) : FsState :=
  let fs := fs.writeFileInfo path [w.fileSize] 0
  let fs := fs.writeFileInfo path [x.1, x.2] (slotOffset w.slot)
  match fs.names path with
  | some f => { fs with
      slots := Function.update fs.slots f (Function.update (fs.slots f) w.slot (some x))
      live := x :: fs.live
      returned := x :: fs.returned }
  | none => fs

/-- A call of `encode` and its records, and whether there was room. -/
def storeBlock (L : CodingLayer) (path : String) (fs : FsState) (w : BlockWrite) : Bool × FsState :=
  match L.encode fs.st w.buf w.size with
  | (none, st) => (false, { fs with st := st })
  | (some x, st) => (true, { fs with st := st }.recordBlock path w x)

/-- The loop of `ncfs_write` for more than one block, with `pos` bytes done and `sizeToWrite` to go.
`tempBuf` is the memory at `temp_buf`, of which each pass sets the first `temp_size` bytes. -/
def blockChunks (blockSize : ℕ) (buf : Buf) (offset : ℕ) : ℕ → Buf → ℕ → ℕ → List BlockWrite
  | 0, _, _, _ => []
  | fuel + 1, tempBuf, sizeToWrite, pos =>
      if sizeToWrite = 0 then []
      else
        let tempSize := if sizeToWrite ≤ blockSize then sizeToWrite else blockSize
        let tempBuf := fun j => if j < tempSize then buf (pos + j) else tempBuf j
        { buf := tempBuf, size := tempSize, fileSize := offset + pos + tempSize,
          slot := (offset + pos) / blockSize }
          :: blockChunks blockSize buf offset fuel tempBuf (sizeToWrite - tempSize) (pos + tempSize)

/-- The calls of `encode` in block mode, as long as there is room. -/
def blockWrites (blockSize : ℕ) (buf : Buf) (size offset : ℕ) (mem : Buf) : List BlockWrite :=
  if size ≤ blockSize then
    [{ buf := buf, size := size, fileSize := offset + size, slot := offset / blockSize }]
  else blockChunks blockSize buf offset size mem size 0

/-- The pieces of at most `sysblocksize` bytes that the loop of big-block mode copies. -/
def sysChunks (buf : Buf) : ℕ → ℕ → ℕ → List (Buf × ℕ)
  | 0, _, _ => []
  | fuel + 1, sizeToWrite, pos =>
      if sizeToWrite = 0 then []
      else
        let tempSize := if sizeToWrite ≤ sysblocksize then sizeToWrite else sysblocksize
        (fun j => buf (pos + j), tempSize) :: sysChunks buf fuel (sizeToWrite - tempSize)
          (pos + tempSize)

/-- A piece is copied behind the pieces in `bigtempbuf`, which has the size of a block. -/
def FsState.fillBig (fs : FsState) (piece : Buf × ℕ) : FsState :=
  let bigblocksize := fs.st.diskBlockSize
  let start := (((bigblocksize / sysblocksize : ℕ) : ℤ) - fs.bigtempbufCounter).toNat * sysblocksize
  { fs with
    bigtempbuf := copyBufAt start piece.2 fs.bigtempbuf piece.1
    bigtempbufCounter := fs.bigtempbufCounter - 1
    -- after a block for which there was no room the counter stays at zero
    bigtempbufOverrun := fs.bigtempbufOverrun || decide (bigblocksize < start + piece.2) }

/-- The call of `encode` when `bigtempbuf` is full.  `single` says that the whole write is one
piece, for which the size of the file is computed in another way. -/
def FsState.bigRequest (fs : FsState) (single : Bool) (tempOffset pieceSize : ℕ) : BlockWrite :=
  let bigblocksize := fs.st.diskBlockSize
  let tempSize := (bigblocksize / sysblocksize - 1) * sysblocksize + pieceSize
  { buf := fs.bigtempbuf
    size := tempSize
    fileSize :=
      if single then (tempOffset : ℤ) + tempSize - (bigblocksize - sysblocksize)
      else tempOffset + tempSize
    slot := tempOffset / bigblocksize }

/-- One piece in big-block mode, with `temp_offset`. -/
def bigStep (L : CodingLayer) (path : String) (single : Bool) (s : FsState × ℕ) (piece : Buf × ℕ) :
    Bool × (FsState × ℕ) :=
  let fs := s.1.fillBig piece
  if fs.bigtempbufCounter ≤ 0 then
    let w := fs.bigRequest single s.2 piece.2
    let (ok, fs) := storeBlock L path fs w
    if ok then
      (true, ({ fs with
        bigtempbuf := memset0 fs.bigtempbuf fs.st.diskBlockSize
        bigtempbufCounter := fs.st.diskBlockSize / sysblocksize }, s.2 + w.size))
    else (false, (fs, s.2))
  else (true, (fs, s.2))

/-- The pieces of a write in big-block mode. -/
def bigPieces (buf : Buf) (size : ℕ) : List (Buf × ℕ) :=
  if size ≤ sysblocksize then [(buf, size)] else sysChunks buf size size 0

/-- `ncfs_write` through an open file with this path.  Blocks of more than `sysblocksize` bytes are
written in big-block mode. -/
def ncfsWrite (L : CodingLayer) (fs : FsState) (path : String) (buf : Buf) (size offset : ℕ)
    (mem : Buf) :
    ℤ × FsState :=
  if fs.operationMode = 1 ∨ fs.operationMode = 2 then (-1, fs)
  else
    let (ok, fs) :=
      if sysblocksize < fs.st.diskBlockSize then
        let (ok, (fs, _)) := Loops.untilFail (bigStep L path (size ≤ sysblocksize)) (fs, offset)
          (bigPieces buf size)
        (ok, fs)
      else Loops.untilFail (storeBlock L path) fs
        (blockWrites fs.st.diskBlockSize buf size offset mem)
    (if ok then size else -enospc, fs)

/-! ### The other operations -/

/-- The loop of `ncfs_unlink` over the slots, with `slots` slots to go: the blocks that it frees. -/
def unlinkLoop (fd : File) : ℕ → ℕ → (ℕ → UInt8) → List (ℕ × ℕ)
  | 0, _, _ => []
  | slots + 1, i, tempInfo =>
      let tempInfo := (fd.pread tempInfo sizeofBlockInfo (slotOffset i)).2
      ((intAt tempInfo 0).toNat, (intAt tempInfo 4).toNat) :: unlinkLoop fd slots (i + 1) tempInfo

/-- The blocks of a file of this size. -/
def blocksOf (blockSize : ℕ) (fileSize : ℤ) : ℕ :=
  (if 0 < fileSize.tmod blockSize then fileSize.tdiv blockSize + 1 else
    fileSize.tdiv blockSize).toNat

/-- `file_block_num`: the blocks of a file of the size that is read from the info file. -/
def fileBlockNum (blockSize : ℕ) (fd : File) (fileSize : ℕ → UInt8) : ℕ :=
  blocksOf blockSize (intAt (fd.pread fileSize sizeofInt 0).2 0)

/-- The blocks that `ncfs_unlink` frees.  `fileSize` and `tempInfo` are its uninitialised
variables. -/
def unlinkFrees (blockSize : ℕ) (fd : File) (fileSize tempInfo : ℕ → UInt8) : List (ℕ × ℕ) :=
  unlinkLoop fd (fileBlockNum blockSize fd fileSize) 0 tempInfo

/-- `ncfs_unlink`.  The kernel calls it for paths that exist only. -/
def ncfsUnlink (fs : FsState) (path : String) (fileSize tempInfo : ℕ → UInt8) : FsState :=
  match fs.names path with
  | none => fs
  | some f =>
      let freed := unlinkFrees fs.st.diskBlockSize (fs.info f) fileSize tempInfo
      { fs with
        st := { fs.st with
          spaceList := freed.foldl (fun l x => spaceListAdd l x.1 x.2) fs.st.spaceList }
        names := Function.update fs.names path none
        live := freed.foldl List.erase fs.live }

/-- `ncfs_truncate`: the info file gets the new size. -/
def ncfsTruncate (fs : FsState) (path : String) (newsize : ℕ) : FsState :=
  match fs.names path with
  | none => fs
  | some f => { fs with
      info := Function.update fs.info f ((fs.info f).truncate newsize)
      slots := Function.update fs.slots f fun i => if slotOffset (i + 1) ≤ newsize then fs.slots f i
        else none }

/-- `ncfs_rename`.  Nothing happens when both paths refer to one file. -/
def ncfsRename (fs : FsState) (path newpath : String) : FsState :=
  match fs.names path with
  | none => fs
  | some f =>
      if fs.names newpath = some f then fs
      else
        { fs with
          names := Function.update (Function.update fs.names path none) newpath (some f) }

/-- `ncfs_link`, which fails when the new path exists. -/
def ncfsLink (fs : FsState) (path newpath : String) : FsState :=
  match fs.names path, fs.names newpath with
  | some f, none => { fs with names := Function.update fs.names newpath (some f) }
  | _, _ => fs

/-- The operations on files. -/
inductive FsOp where
  /-- Making an empty file. -/
  | create (path : String)
  /-- `ncfs_write`. -/
  | write (path : String) (buf : Buf) (size offset : ℕ) (mem : Buf)
  /-- `ncfs_unlink`. -/
  | unlink (path : String) (fileSize tempInfo : ℕ → UInt8)
  /-- `ncfs_truncate`. -/
  | truncate (path : String) (newsize : ℕ)
  /-- `ncfs_rename`. -/
  | rename (path newpath : String)
  /-- `ncfs_link`. -/
  | link (path newpath : String)

/-- One operation. -/
def fsStep (L : CodingLayer) (fs : FsState) : FsOp → FsState
  | .create path => fs.openCreate path
  | .write path buf size offset mem => (ncfsWrite L fs path buf size offset mem).2
  | .unlink path fileSize tempInfo => ncfsUnlink fs path fileSize tempInfo
  | .truncate path newsize => ncfsTruncate fs path newsize
  | .rename path newpath => ncfsRename fs path newpath
  | .link path newpath => ncfsLink fs path newpath

/-! ### One block -/

section StoreBlock

variable {L : CodingLayer} {path : String} {fs : FsState} {w : BlockWrite}

/-- An open file has an info file. -/
theorem FsState.openCreate_names (fs : FsState) (path : String) :
    ∃ f, (fs.openCreate path).names path = some f := by
  rw [openCreate]
  cases hpath : fs.names path with
  | some f => exact ⟨f, hpath⟩
  | none => exact ⟨fs.nextInfo, Function.update_self ..⟩

/-- Nothing is made when the file is there. -/
theorem FsState.openCreate_of_some {f : ℕ} (h : fs.names path = some f) :
    fs.openCreate path = fs := by
  rw [openCreate, h]

/-- The records of a block. -/
theorem FsState.recordBlock_eq {f : ℕ} (hf : (fs.openCreate path).names path = some f) (x : ℕ × ℕ) :
    fs.recordBlock path w x = { fs.openCreate path with
      info := Function.update (fs.openCreate path).info f
        ((((fs.openCreate path).info f).pwrite (record [w.fileSize]) 4 0).pwrite
          (record [x.1, x.2]) 8
          (slotOffset w.slot))
      slots := Function.update (fs.openCreate path).slots f
        (Function.update ((fs.openCreate path).slots f) w.slot (some x))
      live := x :: (fs.openCreate path).live
      returned := x :: (fs.openCreate path).returned } := by
  have hwrite : ∀ {fs : FsState}, fs.names path = some f → ∀ vs offset,
      fs.writeFileInfo path vs offset =
        { fs with
          info := Function.update fs.info f
            ((fs.info f).pwrite (record vs) (4 * vs.length) offset) } := by
    intro fs hf vs offset
    simp only [writeFileInfo, openCreate_of_some hf, hf]
  have hfirst : fs.writeFileInfo path [w.fileSize] 0 = (fs.openCreate path).writeFileInfo path
      [w.fileSize] 0 := by
    rw [writeFileInfo, writeFileInfo, openCreate_of_some hf]
  rw [recordBlock, hfirst, hwrite hf, hwrite (by exact hf)]
  simp only [hf, Function.update_idem, Function.update_self]
  rfl

/-- The records do not touch the store. -/
theorem FsState.recordBlock_st (fs : FsState) (path : String) (w : BlockWrite) (x : ℕ × ℕ) :
    (fs.recordBlock path w x).st = fs.st := by
  obtain ⟨f, hf⟩ := fs.openCreate_names path
  rw [recordBlock_eq hf, openCreate]
  split <;> rfl

/-- At most the file that is written to is new. -/
theorem FsState.recordBlock_names (fs : FsState) (path : String) (w : BlockWrite) (x : ℕ × ℕ) :
    (fs.recordBlock path w x).names = (fs.openCreate path).names := by
  obtain ⟨f, hf⟩ := fs.openCreate_names path
  rw [recordBlock_eq hf]

/-- The history of a recorded block. -/
theorem FsState.recordBlock_history (fs : FsState) (path : String) (w : BlockWrite) (x : ℕ × ℕ) :
    (fs.recordBlock path w x).live = x :: fs.live ∧ (fs.recordBlock path w x).returned =
      x :: fs.returned := by
  obtain ⟨f, hf⟩ := fs.openCreate_names path
  rw [recordBlock_eq hf, openCreate]
  split <;> exact ⟨rfl, rfl⟩

/-- The two ways in which a call of `encode` with its records ends. -/
inductive StoreCase (L : CodingLayer) (path : String) (fs : FsState) (w : BlockWrite) :
    Bool × FsState → Prop
  /-- There is no room. -/
  | noRoom (st : NcfsState) (encode_eq : L.encode fs.st w.buf w.size = (none, st)) :
      StoreCase L path fs w (false, { fs with st := st })
  /-- The block is recorded. -/
  | stored (x : ℕ × ℕ) (st : NcfsState) (encode_eq : L.encode fs.st w.buf w.size = (some x, st)) :
      StoreCase L path fs w (true, { fs with st := st }.recordBlock path w x)

theorem storeBlock_case (L : CodingLayer) (path : String) (fs : FsState) (w : BlockWrite) :
    StoreCase L path fs w (storeBlock L path fs w) := by
  rw [storeBlock]
  cases hencode : L.encode fs.st w.buf w.size with
  | mk served st =>
      cases served with
      | none => exact .noRoom st hencode
      | some x => exact .stored x st hencode

/-- The store is as the call of `encode` leaves it. -/
theorem storeBlock_st (L : CodingLayer) (path : String) (fs : FsState) (w : BlockWrite) :
    (storeBlock L path fs w).2.st = (L.encode fs.st w.buf w.size).2 := by
  have hcase := storeBlock_case L path fs w
  generalize storeBlock L path fs w = result at hcase ⊢
  cases hcase with
  | noRoom st hencode => rw [hencode]
  | stored x st hencode =>
      rw [hencode]
      exact FsState.recordBlock_st ..

end StoreBlock

/-! ### Whole writes -/

section Writes

variable {L : CodingLayer} {path : String}

/-- A condition on the calls of `encode` in a write. -/
def AllStores (L : CodingLayer) (C : FsState → BlockWrite → Prop) (fs : FsState) (path : String)
    (buf : Buf) (size offset : ℕ) (mem : Buf) : Prop :=
  if sysblocksize < fs.st.diskBlockSize then
    Loops.AllPasses (bigStep L path (size ≤ sysblocksize))
      (fun s piece => (s.1.fillBig piece).bigtempbufCounter ≤ 0 →
        C (s.1.fillBig piece) ((s.1.fillBig piece).bigRequest (size ≤ sysblocksize) s.2 piece.2))
      (fs, offset) (bigPieces buf size)
  else Loops.AllPasses (storeBlock L path) C fs
    (blockWrites fs.st.diskBlockSize buf size offset mem)

/-- One piece in big-block mode keeps what its call of `encode` keeps, if there is one, and what
does not depend on the buffer. -/
theorem bigStep_inv {C : FsState → BlockWrite → Prop} {P : FsState → Prop}
    (hbuffer : ∀ fs buf counter overrun, P fs →
      P { fs with bigtempbuf := buf, bigtempbufCounter := counter, bigtempbufOverrun := overrun })
    (hstore : ∀ fs w, P fs → C fs w → P (storeBlock L path fs w).2) {single : Bool}
    {s : FsState × ℕ} {piece : Buf × ℕ} (hs : P s.1)
    (hC : (s.1.fillBig piece).bigtempbufCounter ≤ 0 →
      C (s.1.fillBig piece) ((s.1.fillBig piece).bigRequest single s.2 piece.2)) :
    P (bigStep L path single s piece).2.1 := by
  have hfill : P (s.1.fillBig piece) := hbuffer s.1 _ _ _ hs
  rw [bigStep]
  dsimp only
  split
  · rename_i hfull
    have hdone := hstore _ _ hfill (hC hfull)
    split
    · exact hbuffer _ _ _ _ hdone
    · exact hdone
  · exact hfill

/-- What the calls of `encode` with their records keep when they meet a condition, a write keeps. -/
theorem ncfsWrite_inv {C : FsState → BlockWrite → Prop} {P : FsState → Prop}
    (hbuffer : ∀ fs buf counter overrun, P fs →
      P { fs with bigtempbuf := buf, bigtempbufCounter := counter, bigtempbufOverrun := overrun })
    (hstore : ∀ fs w, P fs → C fs w → P (storeBlock L path fs w).2) {fs : FsState} (hfs : P fs)
    {buf : Buf} {size offset : ℕ} {mem : Buf} (hC : AllStores L C fs path buf size offset mem) :
    P (ncfsWrite L fs path buf size offset mem).2 := by
  rw [AllStores] at hC
  rw [ncfsWrite]
  split
  · exact hfs
  · dsimp only
    split at hC
    · rename_i hbig
      rw [if_pos hbig]
      exact Loops.untilFail_inv (fun s : FsState × ℕ => P s.1)
        (fun s piece hs => bigStep_inv hbuffer hstore hs) hfs hC
    · rename_i hbig
      rw [if_neg hbig]
      exact Loops.untilFail_inv P hstore hfs hC

/-- A condition that every call of `encode` meets. -/
theorem allStores_of_forall {C : FsState → BlockWrite → Prop} (h : ∀ fs w, C fs w) (fs : FsState)
    (buf : Buf) (size offset : ℕ) (mem : Buf) : AllStores L C fs path buf size offset mem := by
  rw [AllStores]
  split
  · exact Loops.allPasses_of_forall (fun s piece _ _ => h _ _) _
  · exact Loops.allPasses_of_forall (fun fs w _ => h fs w) _

/-- A write makes at most its own file. -/
theorem ncfsWrite_names_of_ne (L : CodingLayer) (fs : FsState) (buf : Buf) (size offset : ℕ)
    (mem : Buf) {other : String} (hne : other ≠ path) :
    (ncfsWrite L fs path buf size offset mem).2.names other = fs.names other := by
  refine ncfsWrite_inv (C := fun _ _ => True) (P := fun fs' => fs'.names other = fs.names other)
    (fun _ _ _ _ h => h) (fun fs' w h _ => ?_) rfl
      (allStores_of_forall (fun _ _ => trivial) fs buf size offset mem)
  have hcase := storeBlock_case L path fs' w
  generalize storeBlock L path fs' w = result at hcase ⊢
  cases hcase with
  | noRoom st hencode => exact h
  | stored x st hencode =>
      rw [FsState.recordBlock_names, FsState.openCreate]
      split
      · exact h
      · exact (Function.update_of_ne hne ..).trans h

/-! ### The buffer of big-block mode -/

/-- `bigtempbuf` has room for another piece, and nothing has been copied behind its end. -/
structure FsState.HasRoom (fs : FsState) : Prop where
  /-- The pieces are smaller than a block. -/
  big : sysblocksize < fs.st.diskBlockSize
  /-- A place in the buffer is free. -/
  counter_pos : 0 < fs.bigtempbufCounter
  /-- The bytes are in the buffer. -/
  within : fs.bigtempbufOverrun = false

/-- A piece that finds room stays in the buffer. -/
theorem FsState.HasRoom.fillBig {fs : FsState} (h : fs.HasRoom) {piece : Buf × ℕ}
    (hpiece : piece.2 ≤ sysblocksize) : (fs.fillBig piece).bigtempbufOverrun = false := by
  obtain ⟨hbig, hcounter, hwithin⟩ := h
  have hmax : fs.st.diskBlockSize / sysblocksize * sysblocksize ≤ fs.st.diskBlockSize :=
    Nat.div_mul_le_self ..
  have hone : 1 ≤ fs.st.diskBlockSize / sysblocksize := Nat.div_pos hbig.le sysblocksize_pos
  rw [FsState.fillBig]
  dsimp only
  generalize fs.st.diskBlockSize / sysblocksize = maxcount at hmax hone ⊢
  have hstart : (((maxcount : ℕ) : ℤ) - fs.bigtempbufCounter).toNat + 1 ≤ maxcount := by omega
  have hend := Nat.mul_le_mul_right sysblocksize hstart
  rw [Nat.succ_mul] at hend
  rw [hwithin, Bool.false_or, decide_eq_false_iff_not]
  omega

/-- The records of a block leave the buffer alone. -/
theorem storeBlock_buffer (L : CodingLayer) (path : String) (fs : FsState) (w : BlockWrite) :
    (storeBlock L path fs w).2.bigtempbufOverrun = fs.bigtempbufOverrun := by
  have hcase := storeBlock_case L path fs w
  generalize storeBlock L path fs w = result at hcase ⊢
  cases hcase with
  | noRoom st hencode => rfl
  | stored x st hencode =>
      obtain ⟨f, hf⟩ := ({ fs with st := st } : FsState).openCreate_names path
      rw [FsState.recordBlock_eq hf, FsState.openCreate]
      split <;> rfl

/-- One piece: it stays in the buffer, and unless its block is refused there is room for the next
one. -/
theorem FsState.HasRoom.bigStep {s : FsState × ℕ} (h : s.1.HasRoom) (L : CodingLayer)
    (path : String) (single : Bool) {piece : Buf × ℕ} (hpiece : piece.2 ≤ sysblocksize) :
    (bigStep L path single s piece).2.1.bigtempbufOverrun = false ∧
      ((bigStep L path single s piece).1 = true → (bigStep L path single s piece).2.1.HasRoom) := by
  have hfill := h.fillBig hpiece
  rw [Ncfs.bigStep]
  dsimp only
  by_cases hfull : (s.1.fillBig piece).bigtempbufCounter ≤ 0
  · rw [if_pos hfull]
    generalize (s.1.fillBig piece).bigRequest single s.2 piece.2 = w
    have hbuffer := (storeBlock_buffer L path (s.1.fillBig piece) w).trans hfill
    have hblock : (storeBlock L path (s.1.fillBig piece) w).2.st.diskBlockSize =
        s.1.st.diskBlockSize := by
      rw [storeBlock_st]
      exact (L.encode_sameStore ..).block_eq
    generalize storeBlock L path (s.1.fillBig piece) w = result at hbuffer hblock
    by_cases hok : result.1 = true
    · rw [if_pos hok]
      refine ⟨hbuffer, fun _ => ⟨h.big.trans_eq hblock.symm, ?_, hbuffer⟩⟩
      exact Int.natCast_pos.2 (Nat.div_pos (h.big.trans_eq hblock.symm).le sysblocksize_pos)
    · rw [if_neg hok]
      exact ⟨hbuffer, fun h => Bool.noConfusion h⟩
  · rw [if_neg hfull]
    exact ⟨hfill, fun _ => ⟨h.big, not_le.1 hfull, hfill⟩⟩

/-- Several pieces. -/
theorem FsState.HasRoom.bigSteps {s : FsState × ℕ} (h : s.1.HasRoom) (L : CodingLayer)
    (path : String) (single : Bool) {pieces : List (Buf × ℕ)}
    (hpieces : ∀ piece ∈ pieces, piece.2 ≤ sysblocksize) :
    (Loops.untilFail (Ncfs.bigStep L path single) s pieces).2.1.bigtempbufOverrun = false ∧
      ((Loops.untilFail (Ncfs.bigStep L path single) s pieces).1 = true →
        (Loops.untilFail (Ncfs.bigStep L path single) s pieces).2.1.HasRoom) := by
  induction pieces generalizing s with
  | nil => exact ⟨h.within, fun _ => h⟩
  | cons piece pieces ih =>
      obtain ⟨hwithin, hroom⟩ := h.bigStep L path single (hpieces piece (List.mem_cons_self ..))
      rw [Loops.untilFail]
      generalize Ncfs.bigStep L path single s piece = result at hwithin hroom ⊢
      obtain ⟨ok, s'⟩ := result
      cases ok with
      | false => exact ⟨hwithin, fun h => Bool.noConfusion h⟩
      | true => exact ih (hroom rfl) fun piece hmem => hpieces piece (List.mem_cons_of_mem _ hmem)

/-- The pieces are no larger than their places. -/
theorem bigPieces_le {buf : Buf} {size : ℕ} :
    ∀ piece ∈ bigPieces buf size, piece.2 ≤ sysblocksize := by
  have hchunks : ∀ fuel sizeToWrite pos, ∀ piece ∈ sysChunks buf fuel sizeToWrite pos,
      piece.2 ≤ sysblocksize := by
    intro fuel
    induction fuel with
    | zero => exact fun _ _ _ hmem => absurd hmem (List.not_mem_nil)
    | succ fuel ih =>
        intro sizeToWrite pos piece hmem
        rw [sysChunks] at hmem
        split at hmem
        · exact absurd hmem List.not_mem_nil
        · rcases List.mem_cons.1 hmem with rfl | hmem
          · dsimp only
            split <;> omega
          · exact ih _ _ piece hmem
  rw [bigPieces]
  split
  · rename_i hsize
    intro piece hmem
    rw [List.mem_singleton.1 hmem]
    exact hsize
  · exact hchunks size size 0

/-- **The buffer of a write.**  A write that finds room in the buffer copies nothing behind its end,
and leaves room unless a block is refused. -/
theorem FsState.HasRoom.write {fs : FsState} (h : fs.HasRoom) (L : CodingLayer) (path : String)
    (buf : Buf) (size offset : ℕ) (mem : Buf) :
    (ncfsWrite L fs path buf size offset mem).2.bigtempbufOverrun = false ∧
      ((ncfsWrite L fs path buf size offset mem).1 = size →
        (ncfsWrite L fs path buf size offset mem).2.HasRoom) := by
  rw [ncfsWrite]
  split
  · exact ⟨h.within, fun _ => h⟩
  · obtain ⟨hwithin, hroom⟩ := FsState.HasRoom.bigSteps (s := (fs, offset)) h L path
      (size ≤ sysblocksize) (@bigPieces_le buf size)
    rw [if_pos h.big]
    dsimp only
    refine ⟨hwithin, fun hsize => hroom ?_⟩
    by_contra hok
    rw [if_neg hok, enospc] at hsize
    omega

end Writes

/-- A file system as it is first mounted, without files. -/
def FsState.mounted (st : NcfsState) : FsState where
  st := st
  operationMode := 0
  names _ := none
  info _ := File.empty
  nextInfo := 0
  bigtempbuf _ := 0
  bigtempbufCounter := st.diskBlockSize / sysblocksize
  bigtempbufOverrun := false
  slots _ _ := none
  live := []
  returned := []

end Ncfs
