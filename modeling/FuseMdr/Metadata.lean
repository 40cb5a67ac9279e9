/-
The allocator across a remount.

When the file system is unmounted, `ncfs_destroy` writes the free offset and free size of each disk,
in bytes, and the space list with the number of its nodes into the file `raid_metadata`.
`get_raid_metadata` reads them at the next start, and `main` converts the offsets and sizes to
blocks.

Main definitions:

* `Ncfs.Counted` — a store with `space_list_num`;
* `Ncfs.ncfsDestroy` — the part of `ncfs_destroy` that writes the file;
* `Ncfs.getRaidMetadata`, `Ncfs.convertUnits` — reading it, and the loop of `main`.

Main results:

* `Ncfs.counted_run` — `space_list_num` is the number of nodes;
* `Ncfs.remount_run` — after a run of writes and frees, a remount finds the allocator as it was.
-/
import FuseMdr.CodingLayer
import FuseMdr.IntFile
import FuseMdr.Machine

set_option relaxedAutoImplicit false
set_option autoImplicit false

namespace Ncfs

open IntFile

/-! ### The running store -/

/-- A store with `space_list_num`. -/
structure Counted where
  /-- The state. -/
  st : NcfsState
  /-- `space_list_num`. -/
  spaceListNum : ℤ

/-- `space_list_num` after `space_list_add`. -/
def spaceListAddNum (l : List (ℕ × ℕ)) (spaceListNum : ℤ) : ℤ :=
  match l with
  | [] => 1
  | _ :: _ => spaceListNum + 1

/-- `space_list_num` after `space_list_remove`. -/
def spaceListRemoveNum (l : List (ℕ × ℕ)) (spaceListNum : ℤ) (diskId blockNo : ℕ) : ℤ :=
  if l.contains (diskId, blockNo) then spaceListNum - 1 else spaceListNum

/-- A write or a free.  `encode` calls `space_list_remove` when it takes the first node. -/
def countedStep (L : CodingLayer) (s : Counted) : StoreOp → Counted
  | .encode buf size =>
      let st := L.skip s.st
      { st := (L.encode s.st buf size).2
        spaceListNum :=
          match L.select st (blockRequest s.st size), st.spaceList with
          | none, (diskId, blockNo) :: _ =>
              spaceListRemoveNum st.spaceList s.spaceListNum diskId blockNo
          | _, _ => s.spaceListNum }
  | .free diskId blockNo =>
      { st := { s.st with spaceList := spaceListAdd s.st.spaceList diskId blockNo }
        spaceListNum := spaceListAddNum s.st.spaceList s.spaceListNum }

/-! ### Unmounting -/

/-- `MAGIC_NUMBER`. -/
def magicNumber : ℤ := 123

/-- `sizeof(struct raid_metadata)`. -/
def sizeofRaidMetadata : ℕ := 12

/-- `sizeof(struct space_info)`. -/
def sizeofSpaceInfo : ℕ := 8

/-- The `struct raid_metadata` of disk `i`. -/
def raidMetadata (st : NcfsState) (i : ℕ) : List ℤ :=
  [i, st.freeOffset i * st.diskBlockSize, st.freeSize i * st.diskBlockSize]

/-- The `struct space_info` of a node. -/
def spaceInfo (node : ℕ × ℕ) : List ℤ := [node.1, node.2]

/-- The loop over the space list, from node `i`. -/
def destroySpaceList (offsetSpace : ℕ) (spaceListNum : ℤ) : File → ℕ → List (ℕ × ℕ) → File
  | fd, _, [] => fd
  | fd, i, spaceNode :: next =>
      if (i : ℤ) < spaceListNum then
        destroySpaceList offsetSpace spaceListNum
          (fd.pwrite (record (spaceInfo spaceNode)) sizeofSpaceInfo
            (offsetSpace + sizeofSpaceInfo * (i + 1)))
          (i + 1) next
      else fd

/-- The part of `ncfs_destroy` that writes `raid_metadata`.  The file may have any content
before. -/
def ncfsDestroy (s : Counted) (fd : File) : File :=
  let diskTotalNum := s.st.diskTotalNum
  let fd := fd.pwrite (record [magicNumber]) sizeofInt 0
  let fd := (List.range diskTotalNum).foldl (fun fd i =>
    fd.pwrite (record (raidMetadata s.st i)) sizeofRaidMetadata (sizeofRaidMetadata * (i + 1))) fd
  let offsetSpace := sizeofRaidMetadata * (diskTotalNum + 1)
  let fd := fd.pwrite (record [s.spaceListNum]) sizeofInt offsetSpace
  destroySpaceList offsetSpace s.spaceListNum fd 0 s.st.spaceList

/-! ### Mounting -/

/-- The fields of `struct ncfs_state` that `get_raid_metadata` fills in. -/
structure MountData where
  /-- `disk_total_num`. -/
  diskTotalNum : ℕ
  /-- `disk_block_size`. -/
  diskBlockSize : ℕ
  /-- `free_offset`. -/
  freeOffset : ℕ → ℤ
  /-- `free_size`. -/
  freeSize : ℕ → ℤ
  /-- `space_list_num`. -/
  spaceListNum : ℤ
  /-- The list at `space_list_head`. -/
  spaceList : List (ℤ × ℤ)

/-- The loop that reads the space list, with `nodes` nodes to go.  It stops after a read that
returned nothing. -/
def getSpaceList (fd : File) (offsetSpace : ℕ) : ℕ → ℕ → ℕ → (ℕ → UInt8) → List (ℤ × ℤ)
  | 0, _, _, _ => []
  | nodes + 1, i, retstat, tempSpaceInfo =>
      if 0 < retstat then
        let (retstat, tempSpaceInfo) :=
          fd.pread tempSpaceInfo sizeofSpaceInfo (offsetSpace + sizeofSpaceInfo * (i + 1))
        (intAt tempSpaceInfo 0, intAt tempSpaceInfo 4) ::
          getSpaceList fd offsetSpace nodes (i + 1) retstat tempSpaceInfo
      else []

/-- The new nodes are linked behind `space_list_head`, when there is one. -/
def linkSpaceList : List (ℤ × ℤ) → List (ℤ × ℤ) → List (ℤ × ℤ)
  | spaceList, [] => spaceList
  | [], nodes => nodes
  | head :: _, nodes => head :: nodes

/-- One pass of the loop that reads the disks. -/
def getDisk (fd : File) (acc : (ℕ → UInt8) × MountData) (i : ℕ) : (ℕ → UInt8) × MountData :=
  let (metadata, data) := acc
  let (retstat, metadata) := fd.pread metadata sizeofRaidMetadata (sizeofRaidMetadata * (i + 1))
  if 0 < retstat then
    let diskId := (intAt metadata 0).toNat
    (metadata, { data with
      freeOffset := Function.update data.freeOffset diskId (intAt metadata 4)
      freeSize := Function.update data.freeSize diskId (intAt metadata 8) })
  else (metadata, data)

/-- `FileSystemLayer::get_raid_metadata`.  The local structures have any content at first. -/
def getRaidMetadata (fd : File) (stack : ℕ → UInt8) (data : MountData) : MountData :=
  let magicNo := intAt (fd.pread (record [0]) sizeofInt 0).2 0
  if magicNo = magicNumber then
    let data := ((List.range data.diskTotalNum).foldl (getDisk fd) (stack, data)).2
    let offsetSpace := sizeofRaidMetadata * (data.diskTotalNum + 1)
    let (retstat, buf) := fd.pread stack sizeofInt offsetSpace
    let spaceListNum := intAt buf 0
    { data with
      spaceListNum := spaceListNum
      spaceList := linkSpaceList data.spaceList
        (getSpaceList fd offsetSpace spaceListNum.toNat 0 retstat stack) }
  else data

/-- The loop of `main` that converts bytes to blocks. -/
def convertUnits (data : MountData) : MountData := { data with
  freeOffset j := if j < data.diskTotalNum then (data.freeOffset j).tdiv data.diskBlockSize
    else data.freeOffset j
  freeSize j := if j < data.diskTotalNum then (data.freeSize j).tdiv data.diskBlockSize
    else data.freeSize j }

/-! ### The number of nodes -/

/-- `space_list_num` is the number of nodes after every write and free. -/
theorem counted_step (L : CodingLayer) {s : Counted} (h : s.spaceListNum = s.st.spaceList.length)
    (op : StoreOp) :
    (countedStep L s op).spaceListNum = (countedStep L s op).st.spaceList.length := by
  cases op with
  | free d b =>
      change spaceListAddNum s.st.spaceList s.spaceListNum =
        (spaceListAdd s.st.spaceList d b).length
      rw [(spaceListAdd_perm ..).length_eq, h]
      cases s.st.spaceList with
      | nil => rfl
      | cons x l => rfl
  | encode buf size =>
      have hlist := (L.skip_moved s.st).list_eq
      have htakes := L.encode_takes s.st buf size
      simp only [countedStep]
      generalize L.select (L.skip s.st) (blockRequest s.st size) = selected at htakes ⊢
      generalize L.encode s.st buf size = result at htakes ⊢
      cases htakes with
      | full hsel hnil _ _ hnil' =>
          rw [hsel, hnil, hnil', h, ← hlist, hnil]
      | fresh hsel _ _ _ hsame =>
          rw [hsel, hsame, hlist, h]
      | @reused _ d b rest hsel hcons _ _ hrest =>
          rw [hsel, hcons, hrest]
          change spaceListRemoveNum ((d, b) :: rest) s.spaceListNum d b = rest.length
          rw [spaceListRemoveNum, if_pos (by simp), h, ← hlist, hcons, List.length_cons]
          push_cast
          ring

theorem counted_run (L : CodingLayer) {s : Counted} (h : s.spaceListNum = s.st.spaceList.length)
    (ops : List StoreOp) : (Machine.run (countedStep L) s ops).spaceListNum =
      (Machine.run (countedStep L) s ops).st.spaceList.length :=
  Machine.run_induct (I := fun s : Counted => s.spaceListNum = s.st.spaceList.length)
    (A := fun _ => True) (fun _ op _ h => counted_step L h op) h fun _ _ => trivial

/-! ### What is written -/

/-- The records of `raid_metadata`. -/
structure Written (s : Counted) (fd : File) : Prop where
  /-- The magic number. -/
  magic : Stored fd 0 [magicNumber]
  /-- A record for each disk. -/
  disk : ∀ i < s.st.diskTotalNum, Stored fd (sizeofRaidMetadata * (i + 1)) (raidMetadata s.st i)
  /-- The number of nodes. -/
  num : Stored fd (sizeofRaidMetadata * (s.st.diskTotalNum + 1)) [s.spaceListNum]
  /-- A record for each node. -/
  node : ∀ i x, s.st.spaceList[i]? = some x →
    Stored fd (sizeofRaidMetadata * (s.st.diskTotalNum + 1) + sizeofSpaceInfo * (i + 1))
      (spaceInfo x)

/-- The loop over the space list writes every node, and nothing in front of them. -/
theorem destroySpaceList_stored {offsetSpace : ℕ} {num : ℤ} {l : List (ℕ × ℕ)} {i : ℕ}
    (hnum : (i + l.length : ℤ) ≤ num) (fd : File) :
    (∀ off vs, off + 4 * vs.length ≤ offsetSpace + sizeofSpaceInfo * (i + 1) → Stored fd off vs →
        Stored (destroySpaceList offsetSpace num fd i l) off vs) ∧
      ∀ k x, l[k]? = some x → Stored (destroySpaceList offsetSpace num fd i l)
        (offsetSpace + sizeofSpaceInfo * (i + k + 1)) (spaceInfo x) := by
  induction l generalizing i fd with
  | nil => exact ⟨fun _ _ _ h => h, fun k x hk => by cases hk⟩
  | cons y l ih =>
      rw [List.length_cons] at hnum
      push_cast at hnum
      obtain ⟨hkeep, hnode⟩ := @ih (i + 1) (by push_cast; omega)
        (fd.pwrite (record (spaceInfo y)) sizeofSpaceInfo (offsetSpace + sizeofSpaceInfo * (i + 1)))
      rw [destroySpaceList, if_pos (by omega)]
      refine ⟨fun off vs hoff h => ?_, fun k x hk => ?_⟩
      · refine hkeep off vs ?_ (h.pwrite (.inr hoff))
        rw [Nat.mul_succ]
        omega
      · cases k with
        | zero =>
            obtain rfl := Option.some.inj hk
            refine hkeep _ _ ?_ (stored_pwrite (List.cons_ne_nil _ _))
            rw [Nat.mul_succ, Nat.add_assoc]
            exact le_rfl
        | succ k =>
            rw [show i + (k + 1) + 1 = i + 1 + k + 1 by omega]
            exact hnode k x hk

/-- The file after `ncfs_destroy`. -/
theorem ncfsDestroy_written {s : Counted} (h : s.spaceListNum = s.st.spaceList.length) (fd : File) :
    Written s (ncfsDestroy s fd) := by
  have hdisks : ∀ fd : File, (List.range s.st.diskTotalNum).foldl (fun fd i =>
      fd.pwrite (record (raidMetadata s.st i)) sizeofRaidMetadata
        (sizeofRaidMetadata * (i + 1))) fd =
      writeTable fd sizeofRaidMetadata sizeofRaidMetadata
        (raidMetadata s.st) s.st.diskTotalNum := by
    intro fd
    refine congrArg (fun f => List.foldl f fd (List.range s.st.diskTotalNum))
      (funext₂ fun fd i => ?_)
    rw [Nat.mul_succ, Nat.add_comm]
    rfl
  have hrow : ∀ i < s.st.diskTotalNum,
      raidMetadata s.st i ≠ [] ∧ 4 * (raidMetadata s.st i).length ≤ sizeofRaidMetadata :=
    fun i _ => ⟨List.cons_ne_nil _ _, le_rfl⟩
  have hmagic := @stored_pwrite fd 0 _ (List.cons_ne_nil magicNumber [])
  -- the table of the disks lies between the magic number and the number of nodes
  have hmagic := hmagic.table (fun i hi => (hrow i hi).2)
    (.inr (show 0 + 4 * 1 ≤ sizeofRaidMetadata by decide))
  have hdisk : ∀ i < s.st.diskTotalNum,
      Stored (writeTable (fd.pwrite (record [magicNumber]) sizeofInt 0) sizeofRaidMetadata
        sizeofRaidMetadata (raidMetadata s.st) s.st.diskTotalNum)
      (sizeofRaidMetadata + sizeofRaidMetadata * i) (raidMetadata s.st i) :=
    fun i hi => stored_table hrow hi
  obtain ⟨hkeep, hnode⟩ := @destroySpaceList_stored
    (sizeofRaidMetadata * (s.st.diskTotalNum + 1)) s.spaceListNum s.st.spaceList 0 (by rw [h]; simp)
    ((writeTable (fd.pwrite (record [magicNumber]) sizeofInt 0) sizeofRaidMetadata
      sizeofRaidMetadata
      (raidMetadata s.st) s.st.diskTotalNum).pwrite (record [s.spaceListNum]) sizeofInt
        (sizeofRaidMetadata * (s.st.diskTotalNum + 1)))
  rw [← hdisks] at hkeep hnode hmagic
  simp only [← hdisks] at hdisk
  refine ⟨hkeep _ _ ?_ (hmagic.pwrite (.inr ?_)), fun i hi => hkeep _ _ ?_ ?_,
    hkeep _ _ ?_ (stored_pwrite (List.cons_ne_nil _ _)), fun i x hx => ?_⟩
  · simp only [sizeofRaidMetadata, sizeofSpaceInfo, List.length_singleton]
    omega
  · simp only [sizeofRaidMetadata, List.length_singleton]
    omega
  · simp only [raidMetadata, sizeofRaidMetadata, sizeofSpaceInfo, List.length_cons, List.length_nil]
    omega
  · have hplace : sizeofRaidMetadata * (i + 1) = sizeofRaidMetadata + sizeofRaidMetadata * i := by
      rw [Nat.mul_succ, Nat.add_comm]
    rw [hplace]
    refine (hdisk i hi).pwrite (.inr ?_)
    simp only [raidMetadata, sizeofRaidMetadata, List.length_cons, List.length_nil]
    omega
  · simp only [sizeofSpaceInfo, List.length_singleton]
    omega
  · have hx := hnode i x hx
    rwa [Nat.zero_add] at hx

/-! ### What is read -/

/-- The values fit into an `int` in the file. -/
structure MetadataFits (st : NcfsState) : Prop where
  /-- The disks, and their offsets and sizes in bytes. -/
  disk : ∀ i < st.diskTotalNum, ∀ v ∈ raidMetadata st i, Fits v
  /-- The disks and blocks of the space list. -/
  node : ∀ x ∈ st.spaceList, ∀ v ∈ spaceInfo x, Fits v
  /-- The number of nodes. -/
  num : Fits st.spaceList.length

variable {s : Counted} {fd : File}

/-- One disk is read. -/
theorem Written.getDisk (h : Written s fd) (hfits : MetadataFits s.st) {i : ℕ}
    (hi : i < s.st.diskTotalNum) (acc : (ℕ → UInt8) × MountData) :
    ∃ buf, Ncfs.getDisk fd acc i = (buf, { acc.2 with
      freeOffset := Function.update acc.2.freeOffset i (s.st.freeOffset i * s.st.diskBlockSize)
      freeSize := Function.update acc.2.freeSize i (s.st.freeSize i * s.st.diskBlockSize) }) := by
  obtain ⟨hcount, hfield⟩ := (h.disk i hi).pread (hfits.disk i hi) acc.1
  have hdisk : intAt (fd.pread acc.1 sizeofRaidMetadata (sizeofRaidMetadata * (i + 1))).2 0 = i :=
    hfield 0 (by decide : 0 < 3)
  have hoffset : intAt (fd.pread acc.1 sizeofRaidMetadata (sizeofRaidMetadata * (i + 1))).2 4 = _ :=
    hfield 1 (by decide : 1 < 3)
  have hsize : intAt (fd.pread acc.1 sizeofRaidMetadata (sizeofRaidMetadata * (i + 1))).2 8 = _ :=
    hfield 2 (by decide : 2 < 3)
  have hread : 0 < (fd.pread acc.1 sizeofRaidMetadata (sizeofRaidMetadata * (i + 1))).1 := by
    rw [show (fd.pread acc.1 sizeofRaidMetadata (sizeofRaidMetadata * (i + 1))).1 = _ from hcount]
    exact Nat.succ_pos _
  refine ⟨(fd.pread acc.1 sizeofRaidMetadata (sizeofRaidMetadata * (i + 1))).2, ?_⟩
  simp only [Ncfs.getDisk, hdisk, hoffset, hsize, if_pos hread]
  rfl

/-- All disks are read. -/
theorem Written.getDisks (h : Written s fd) (hfits : MetadataFits s.st) (buf : ℕ → UInt8)
    (data : MountData) {n : ℕ} (hn : n ≤ s.st.diskTotalNum) :
    ∃ buf' freeOffset freeSize, (List.range n).foldl (Ncfs.getDisk fd) (buf, data) =
        (buf', { data with freeOffset := freeOffset, freeSize := freeSize }) ∧
      ∀ i < n, freeOffset i = s.st.freeOffset i * s.st.diskBlockSize ∧
        freeSize i = s.st.freeSize i * s.st.diskBlockSize := by
  induction n with
  | zero =>
      exact ⟨buf, data.freeOffset, data.freeSize, rfl, fun i hi => absurd hi (Nat.not_lt_zero i)⟩
  | succ n ih =>
      obtain ⟨buf₁, off, size, hloop, hread⟩ := ih (by omega)
      obtain ⟨buf₂, hdisk⟩ :=
        h.getDisk hfits hn (buf₁, { data with freeOffset := off, freeSize := size })
      refine ⟨buf₂, Function.update off n (s.st.freeOffset n * s.st.diskBlockSize),
        Function.update size n (s.st.freeSize n * s.st.diskBlockSize), ?_, fun i hi => ?_⟩
      · rw [List.range_succ, List.foldl_append, hloop, List.foldl_cons, List.foldl_nil, hdisk]
      · by_cases hin : i = n
        · subst hin
          exact ⟨Function.update_self .., Function.update_self ..⟩
        · rw [Function.update_of_ne hin, Function.update_of_ne hin]
          exact hread i (by omega)

/-- The nodes are read in their order. -/
theorem getSpaceList_eq {offsetSpace : ℕ} {l : List (ℕ × ℕ)} {i retstat : ℕ}
    (hretstat : 0 < retstat) (hnode : ∀ k x, l[k]? = some x →
      Stored fd (offsetSpace + sizeofSpaceInfo * (i + k + 1)) (spaceInfo x))
    (hfits : ∀ x ∈ l, ∀ v ∈ spaceInfo x, Fits v) (buf : ℕ → UInt8) :
    getSpaceList fd offsetSpace l.length i retstat buf = l.map fun x => ((x.1 : ℤ), (x.2 : ℤ)) := by
  induction l generalizing i retstat buf with
  | nil => rfl
  | cons x l ih =>
      have hx := hnode 0 x rfl
      rw [Nat.add_zero] at hx
      obtain ⟨hcount, hfield⟩ := hx.pread (hfits x (List.mem_cons_self ..)) buf
      have hdisk :
          intAt (fd.pread buf sizeofSpaceInfo (offsetSpace + sizeofSpaceInfo * (i + 1))).2 0 =
          x.1 := hfield 0 (by decide : 0 < 2)
      have hblock :
          intAt (fd.pread buf sizeofSpaceInfo (offsetSpace + sizeofSpaceInfo * (i + 1))).2 4 =
          x.2 := hfield 1 (by decide : 1 < 2)
      rw [List.length_cons, getSpaceList, if_pos hretstat, List.map_cons]
      simp only [hdisk, hblock]
      refine congrArg _
        (ih ?_ (fun k y hk => ?_) (fun y hy => hfits y (List.mem_cons_of_mem x hy)) _)
      · rw [show (fd.pread buf sizeofSpaceInfo
          (offsetSpace + sizeofSpaceInfo * (i + 1))).1 = _ from hcount]
        exact Nat.succ_pos _
      · rw [show i + 1 + k + 1 = i + (k + 1) + 1 by omega]
        exact hnode (k + 1) y hk

/-- The allocator as it is mounted: each disk has its free offset and free size, and the space list
and the number of its nodes are those of the store. -/
structure Remounted (s : Counted) (data : MountData) : Prop where
  /-- `free_offset`. -/
  offset_eq : ∀ i < s.st.diskTotalNum, data.freeOffset i = s.st.freeOffset i
  /-- `free_size`. -/
  size_eq : ∀ i < s.st.diskTotalNum, data.freeSize i = s.st.freeSize i
  /-- The space list, in its order. -/
  list_eq : data.spaceList = s.st.spaceList.map fun x => ((x.1 : ℤ), (x.2 : ℤ))
  /-- `space_list_num`. -/
  num_eq : data.spaceListNum = s.spaceListNum
  /-- It is the number of nodes. -/
  count_eq : data.spaceListNum = data.spaceList.length

/-- What `ncfs_destroy` has written is read back. -/
theorem Written.remounted (h : Written s fd) (hcount : s.spaceListNum = s.st.spaceList.length)
    (hfits : MetadataFits s.st) (stack : ℕ → UInt8) {data : MountData}
    (htotal : data.diskTotalNum = s.st.diskTotalNum)
    (hblock : data.diskBlockSize = s.st.diskBlockSize)
    (hlist : data.spaceList = []) : Remounted s (convertUnits (getRaidMetadata fd stack data)) := by
  have hmagic : intAt (fd.pread (record [0]) sizeofInt 0).2 0 = magicNumber :=
    (h.magic.pread (by simp [Fits, magicNumber]) _).2 0 (by decide : 0 < 1)
  obtain ⟨buf', off, size, hdisks, hread⟩ := h.getDisks hfits stack data le_rfl
  have hnumFits : ∀ v ∈ [s.spaceListNum], Fits v := by
    intro v hv
    rw [List.mem_singleton.1 hv, hcount]
    exact hfits.num
  obtain ⟨hretstat, hnum⟩ := h.num.pread hnumFits stack
  have hnum : intAt (fd.pread stack sizeofInt (sizeofRaidMetadata * (s.st.diskTotalNum + 1))).2 0 =
      s.spaceListNum := hnum 0 (by decide : 0 < 1)
  have hnodes := @getSpaceList_eq fd (sizeofRaidMetadata * (s.st.diskTotalNum + 1)) s.st.spaceList 0
    (fd.pread stack sizeofInt (sizeofRaidMetadata * (s.st.diskTotalNum + 1))).1
    (by
      rw [show (fd.pread stack sizeofInt (sizeofRaidMetadata * (s.st.diskTotalNum + 1))).1 = _
        from hretstat]
      exact Nat.succ_pos _)
    (fun k x hk => by rw [Nat.zero_add]; exact h.node k x hk) hfits.node stack
  have hlength : s.spaceListNum.toNat = s.st.spaceList.length := by rw [hcount, Int.toNat_natCast]
  have hget : getRaidMetadata fd stack data = { data with
      freeOffset := off
      freeSize := size
      spaceListNum := s.spaceListNum
      spaceList := s.st.spaceList.map fun x => ((x.1 : ℤ), (x.2 : ℤ)) } := by
    rw [getRaidMetadata, if_pos hmagic]
    simp only [htotal, hdisks, hnum, hlength, hnodes, hlist]
    cases s.st.spaceList.map fun x => ((x.1 : ℤ), (x.2 : ℤ)) <;> rfl
  rw [hget]
  have hbs : (s.st.diskBlockSize : ℤ) ≠ 0 := by
    have := s.st.diskBlockSize_pos
    omega
  refine ⟨fun i hi => ?_, fun i hi => ?_, rfl, rfl, ?_⟩
  · simp only [convertUnits, htotal, hblock, if_pos hi, (hread i hi).1]
    exact Int.mul_tdiv_cancel _ hbs
  · simp only [convertUnits, htotal, hblock, if_pos hi, (hread i hi).2]
    exact Int.mul_tdiv_cancel _ hbs
  · change s.spaceListNum = ((s.st.spaceList.map _).length : ℤ)
    rw [List.length_map, hcount]

/-- **Remounting.**  After every run of writes and frees, from a store whose `space_list_num` is the
number of nodes, the file that `ncfs_destroy` writes over any old one is read back and converted to
the same free offsets and free sizes, and to the same space list in the same order with the same
count. -/
theorem remount_run (L : CodingLayer) {s₀ : Counted}
    (hcount : s₀.spaceListNum = s₀.st.spaceList.length) (ops : List StoreOp)
    (hfits : MetadataFits (Machine.run (countedStep L) s₀ ops).st) (fd : File)
    (stack : ℕ → UInt8) {data : MountData}
    (htotal : data.diskTotalNum = (Machine.run (countedStep L) s₀ ops).st.diskTotalNum)
    (hblock : data.diskBlockSize = (Machine.run (countedStep L) s₀ ops).st.diskBlockSize)
    (hlist : data.spaceList = []) :
    Remounted (Machine.run (countedStep L) s₀ ops)
      (convertUnits
        (getRaidMetadata (ncfsDestroy (Machine.run (countedStep L) s₀ ops) fd) stack data)) :=
  have hrun := counted_run L hcount ops
  (ncfsDestroy_written hrun fd).remounted hrun hfits stack htotal hblock hlist

/-- Two disks of three blocks under RAID0: two blocks are written, both are freed, and the file was
empty. -/
theorem remount_run_two :
    let s₀ : Counted := ⟨NcfsState.blank 2 2 4 fourBytes_pos 3, 0⟩
    let ops : List StoreOp := [.encode (fun _ => 0) 4, .encode (fun _ => 0) 4, .free 1 0, .free 0 0]
    Remounted (Machine.run (countedStep .raid0) s₀ ops)
      (convertUnits
        (getRaidMetadata (ncfsDestroy (Machine.run (countedStep .raid0) s₀ ops) File.empty)
          (fun _ => 0) ⟨2, 4, fun _ => 0, fun _ => 0, 0, []⟩)) :=
  remount_run .raid0 rfl _ ⟨by decide +kernel, by decide +kernel, by decide +kernel⟩ _ _
    (by decide +kernel) (by decide +kernel) rfl

end Ncfs
