/-
The coding layers as one type, and what their calls of `encode` do to the bookkeeping.

The sources have a class for each code.  All of them choose a block in the same way: some disks are
moved over a block first, then a disk with room is selected by its free offset, and without one the
first block of the space list is taken; the block is charged to its disk.  What is written to the
devices differs and does not matter here.

Main definitions:

* `Ncfs.CodingLayer` — the layers that `initializeCodingLayer` makes;
* `Ncfs.CodingLayer.encode` — their `encode`;
* `Ncfs.CodingLayer.skip`, `Ncfs.CodingLayer.select` — the first two parts of the choice;
* `Ncfs.CodingLayer.next` — the block that a call will be served;
* `Ncfs.Moved`, `Ncfs.Takes` — what the parts of the choice do to the bookkeeping.

Main results:

* `Ncfs.CodingLayer.skip_moved`, `Ncfs.CodingLayer.select_spec`, `Ncfs.CodingLayer.encode_takes` —
  the parts of every layer;
* `Ncfs.CodingLayer.encode_fst` — a call is served the next block.
-/
import FuseMdr.MbrEncode
import FuseMdr.MdrEncode
import FuseMdr.PlainCodes
import FuseMdr.Raid5
import FuseMdr.Raid6Alloc
import FuseMdr.Raid6NoRotate
import FuseMdr.Rdp
import FuseMdr.SrcEncode
import FuseMdr.Evenodd

set_option relaxedAutoImplicit false
set_option autoImplicit false

namespace Ncfs

/-! ### The layers -/

/-- A call of `Coding4Raid6noRotate::encode` with a whole result, as `raid6Call`. -/
def noRotateCall (undefinedDisk : ℕ → ℕ → Byte) (st : NcfsState) (buf : Buf) (size : ℕ) :
    Option (ℕ × ℕ) × NcfsState :=
  match Coding4Raid6noRotate.encode .new st buf size with
  | .ok result => result
  | .error _ =>
      let (served, st) := noRotateAllocate st (blockRequest st size)
      (served, { st with disk := undefinedDisk })

/-- The objects that `initializeCodingLayer` makes, with what their constructors compute.  The RAID6
layers carry what an undefined coefficient would make of the devices. -/
inductive CodingLayer where
  | raid0
  | raid1
  | raid4
  | raid5
  | raid6 (undefinedDisk : ℕ → ℕ → Byte)
  | rs (J : Jerasure) (matrix : ℕ → ℕ)
  | srcRs (J : Jerasure) (matrix : ℕ → ℕ) (srcF : ℕ)
  | jbod
  | mbr (M : Coding4Mbr) (J : Jerasure)
  | mdr1 (coding : Coding4Mdr1)
  | raid6noRotate (undefinedDisk : ℕ → ℕ → Byte)
  | evenodd (coding : ElemTable)
  | rdp (coding : ElemTable)

namespace CodingLayer

/-- `codingLayer->encode(buf, size)`. -/
def encode : CodingLayer → NcfsState → Buf → ℕ → Option (ℕ × ℕ) × NcfsState
  | raid0 => Coding4Raid0.encode
  | raid1 => Coding4Raid1.encode
  | raid4 => Coding4Raid4.encode
  | raid5 => Coding4Raid5.encode
  | raid6 undefinedDisk => raid6Call undefinedDisk
  | rs J matrix => Coding4RS.encode J matrix
  | srcRs J matrix srcF => Coding4SrcRS.encode J matrix srcF
  | jbod => Coding4Jbod.encode
  | mbr M J => M.encode J
  | mdr1 coding => coding.encode
  | raid6noRotate undefinedDisk => noRotateCall undefinedDisk
  | evenodd coding => Coding4Evenodd.encode coding
  | rdp coding => Coding4Rdp.encode coding

/-- The loop in front of the choice that moves disks over blocks which may not hold data. -/
def skip : CodingLayer → NcfsState → NcfsState
  | raid5, st => skipBlocks st fun i blockNo => i = raid5ParityDiskId st.diskTotalNum blockNo
  | raid6 _, st => raid6SkipCodeBlocks st
  | mbr M _, st => skipBlocks st fun i b =>
      mbrFindBlockId i b M.mbrSegmentSize = -1 ∨ M.mbrM ≤ mbrFindBlockId i b M.mbrSegmentSize
  | _, st => st

/-- The loop that chooses a disk. -/
def select : CodingLayer → NcfsState → ℕ → Option (ℕ × ℕ)
  | raid0, st, req | raid5, st, req | raid6 _, st, req => selectDisk st st.diskTotalNum req
  | raid4, st, req => selectDisk st (st.diskTotalNum - 1) req
  | mdr1 _, st, req | evenodd _, st, req | rdp _, st, req | raid6noRotate _, st, req =>
      selectDisk st (st.diskTotalNum - 2) req
  | rs _ _, st, req | srcRs _ _ _, st, req => rsSelect st req
  | raid1, st, req => firstFit st (st.diskTotalNum / 2) req
  | jbod, st, req => firstFit st st.diskTotalNum req
  | mbr M _, st, req => Frontier.scan
      (fun i => (req : ℤ) ≤ st.freeSize i ∧ MbrNative M i (st.freeOffset i)) st.freeOffset
        st.diskTotalNum

end CodingLayer

/-! ### The bookkeeping -/

/-- The disks have only moved forward: their free offsets have grown, their free sizes shrunk. -/
structure Moved (st st' : NcfsState) : Prop where
  /-- `free_offset`. -/
  offset_le : ∀ i, st.freeOffset i ≤ st'.freeOffset i
  /-- `free_size`. -/
  size_le : ∀ i, st'.freeSize i ≤ st.freeSize i
  /-- The space list. -/
  list_eq : st'.spaceList = st.spaceList

theorem Moved.rfl {st : NcfsState} : Moved st st := ⟨fun _ => le_rfl, fun _ => le_rfl, Eq.refl _⟩

/-- Two states of one store: the devices' number, sizes and statuses are the same. -/
structure SameStore (st st' : NcfsState) : Prop where
  /-- `disk_total_num`. -/
  total_eq : st'.diskTotalNum = st.diskTotalNum
  /-- `data_disk_num`. -/
  data_eq : st'.dataDiskNum = st.dataDiskNum
  /-- `disk_block_size`. -/
  block_eq : st'.diskBlockSize = st.diskBlockSize
  /-- `disk_status`. -/
  status_eq : st'.diskStatus = st.diskStatus

theorem SameStore.rfl {st : NcfsState} : SameStore st st :=
  ⟨Eq.refl _, Eq.refl _, Eq.refl _, Eq.refl _⟩

theorem SameStore.trans {st st₁ st₂ : NcfsState} (h : SameStore st st₁) (h' : SameStore st₁ st₂) :
    SameStore st st₂ where
  total_eq := h'.total_eq.trans h.total_eq
  data_eq := h'.data_eq.trans h.data_eq
  block_eq := h'.block_eq.trans h.block_eq
  status_eq := h'.status_eq.trans h.status_eq

/-- Also the contents of the devices are the same. -/
structure SameContents (st st' : NcfsState) : Prop extends SameStore st st' where
  /-- The devices. -/
  disk_eq : st'.disk = st.disk

theorem SameContents.rfl {st : NcfsState} : SameContents st st := ⟨.rfl, Eq.refl _⟩

theorem SameContents.trans {st st₁ st₂ : NcfsState} (h : SameContents st st₁)
    (h' : SameContents st₁ st₂) :
    SameContents st st₂ := ⟨h.toSameStore.trans h'.toSameStore, h'.disk_eq.trans h.disk_eq⟩

/-- What a call does to the bookkeeping after the skipping loop, by what was selected. -/
inductive Takes (st : NcfsState) (selected : Option (ℕ × ℕ)) (req : ℕ) :
    Option (ℕ × ℕ) × NcfsState → Prop
  /-- Nothing is left. -/
  | full {st' : NcfsState} (selected_eq : selected = none) (list_eq : st.spaceList = [])
      (offset_eq : st'.freeOffset = st.freeOffset) (size_eq : st'.freeSize = st.freeSize)
      (list_eq' : st'.spaceList = []) : Takes st selected req (none, st')
  /-- The selected block is charged; parity disks may move forward with it. -/
  | fresh {st' : NcfsState} {d b : ℕ} (selected_eq : selected = some (d, b))
      (offset_eq : st'.freeOffset d = b + req) (size_eq : st'.freeSize d = st.freeSize d - req)
      (others : ∀ i, i ≠ d → st.freeOffset i ≤ st'.freeOffset i ∧ st'.freeSize i ≤ st.freeSize i)
      (list_eq : st'.spaceList = st.spaceList) : Takes st selected req (some (d, b), st')
  /-- The first block of the space list is charged in the same way. -/
  | reused {st' : NcfsState} {d b : ℕ} {rest : List (ℕ × ℕ)} (selected_eq : selected = none)
      (list_eq : st.spaceList = (d, b) :: rest)
      (offset_eq : st'.freeOffset = Function.update st.freeOffset d (b + req))
      (size_eq : st'.freeSize = Function.update st.freeSize d (st.freeSize d - req))
      (list_eq' : st'.spaceList = rest) : Takes st selected req (some (d, b), st')

section Takes

variable {st : NcfsState} {selected : Option (ℕ × ℕ)} {req : ℕ}

/-- Only the bookkeeping matters. -/
theorem Takes.of_disk {taken : Option (ℕ × ℕ) × NcfsState} (h : Takes st selected req taken)
    (disk : ℕ → ℕ → Byte) : Takes st selected req (taken.1, { taken.2 with disk := disk }) := by
  cases h with
  | full h₁ h₂ h₃ h₄ h₅ => exact .full h₁ h₂ h₃ h₄ h₅
  | fresh h₁ h₂ h₃ h₄ h₅ => exact .fresh h₁ h₂ h₃ h₄ h₅
  | reused h₁ h₂ h₃ h₄ h₅ => exact .reused h₁ h₂ h₃ h₄ h₅

/-- Charging a selected block after other disks have moved forward. -/
theorem takes_charge {st₁ : NcfsState} {d b : ℕ} (hmoved : Moved st st₁)
    (hsize : st₁.freeSize d = st.freeSize d) (disk : ℕ → ℕ → Byte) :
    Takes st (some (d, b)) req (some (d, b), { chargeDisk st₁ d b req with disk := disk }) := by
  refine .fresh rfl (Function.update_self ..) ?_ (fun i hi => ?_) hmoved.list_eq
  · exact (Function.update_self ..).trans (by rw [hsize])
  · have hoffset : (chargeDisk st₁ d b req).freeOffset i = st₁.freeOffset i :=
      Function.update_of_ne hi ..
    have hsize : (chargeDisk st₁ d b req).freeSize i = st₁.freeSize i := Function.update_of_ne hi ..
    exact ⟨(hmoved.offset_le i).trans_eq hoffset.symm, hsize.trans_le (hmoved.size_le i)⟩

/-- The first node of the space list goes. -/
theorem spaceListRemove_head (x : ℕ × ℕ) (l : List (ℕ × ℕ)) :
    spaceListRemove (x :: l) x.1 x.2 = l :=
  if_pos ⟨rfl, rfl⟩

/-- Charging the first block of the space list. -/
theorem takes_head {d b : ℕ} {rest : List (ℕ × ℕ)} (hlist : st.spaceList = (d, b) :: rest)
    (disk : ℕ → ℕ → Byte) :
    Takes st none req (some (d, b),
      { chargeDisk { st with spaceList := spaceListRemove st.spaceList d b } d b req with
        disk := disk }) := by
  refine .reused rfl hlist rfl rfl ?_
  change spaceListRemove st.spaceList d b = rest
  rw [hlist]
  exact spaceListRemove_head (d, b) rest

/-- The three ways to take a block. -/
inductive TakeCase (st : NcfsState) (selected : Option (ℕ × ℕ)) (req : ℕ) :
    Option (ℕ × ℕ) × NcfsState → Prop
  /-- The selected block is charged. -/
  | fresh (d b : ℕ) (selected_eq : selected = some (d, b)) :
      TakeCase st selected req (some (d, b), chargeDisk st d b req)
  /-- The first block of the space list is charged. -/
  | reused (d b : ℕ) (rest : List (ℕ × ℕ)) (selected_eq : selected = none)
      (list_eq : st.spaceList = (d, b) :: rest) :
      TakeCase st selected req (some (d, b), chargeDisk { st with spaceList := rest } d b req)
  /-- Nothing is left. -/
  | full (selected_eq : selected = none) (list_eq : st.spaceList = []) : TakeCase st selected req
      (none, st)

theorem takeBlock_case (st : NcfsState) (selected : Option (ℕ × ℕ)) (req : ℕ) :
    TakeCase st selected req (takeBlock st selected req) := by
  cases selected with
  | some x => exact .fresh x.1 x.2 rfl
  | none =>
      cases hlist : st.spaceList with
      | nil =>
          have htake :
              takeBlock st none req = (none, st) := by simp only [takeBlock, pickBlock, hlist]
          rw [htake]
          exact .full rfl hlist
      | cons x rest =>
          have htake : takeBlock st none req =
              (some x, chargeDisk { st with spaceList := rest } x.1 x.2 req) := by
            simp only [takeBlock, pickBlock, hlist, spaceListRemove_head]
          rw [htake]
          exact .reused x.1 x.2 rest rfl hlist

theorem takeBlock_takes (st : NcfsState) (selected : Option (ℕ × ℕ)) (req : ℕ) :
    Takes st selected req (takeBlock st selected req) := by
  have hcase := takeBlock_case st selected req
  generalize takeBlock st selected req = taken at hcase ⊢
  cases hcase with
  | fresh d b hsel =>
      subst hsel
      exact takes_charge .rfl rfl _
  | reused d b rest hsel hlist => exact .reused hsel hlist rfl rfl rfl
  | full hsel hlist => exact .full hsel hlist rfl rfl hlist

end Takes

/-! ### The layers' bookkeeping -/

theorem skipBlocks_moved (st : NcfsState) (bad : ℕ → ℕ → Prop) [∀ i b, Decidable (bad i b)] :
    Moved st (skipBlocks st bad) := by
  rw [skipBlocks_eq]
  refine ⟨fun i => ?_, fun i => ?_, rfl⟩
  · change st.freeOffset i ≤ Frontier.skip st.diskTotalNum (fun i b => ¬ bad i b) st.freeOffset i
    exact Frontier.le_skip i
  · dsimp only
    split <;> omega

/-- Moving one disk forward. -/
theorem moved_update {st : NcfsState} (d a : ℕ) : Moved st { st with
    freeOffset := Function.update st.freeOffset d (st.freeOffset d + a)
    freeSize := Function.update st.freeSize d (st.freeSize d - a) } := by
  refine ⟨fun i => ?_, fun i => ?_, rfl⟩
  · by_cases hi : i = d
    · subst hi
      simp
    · simp [hi]
  · by_cases hi : i = d
    · subst hi
      simp
    · simp [hi]

theorem Moved.trans {st st₁ st₂ : NcfsState} (h : Moved st st₁) (h' : Moved st₁ st₂) :
    Moved st st₂ where
  offset_le i := (h.offset_le i).trans (h'.offset_le i)
  size_le i := (h'.size_le i).trans (h.size_le i)
  list_eq := h'.list_eq.trans h.list_eq

theorem chargeParityDisks_moved (st : NcfsState) (stripSize blockNo : ℕ) :
    Moved st (chargeParityDisks st stripSize blockNo) := by
  rw [chargeParityDisks]
  split
  · exact (moved_update _ 1).trans (moved_update _ stripSize)
  · exact moved_update _ 1

/-- The parity disks are not the disk that was selected. -/
theorem chargeParityDisks_freeSize {st : NcfsState} {d : ℕ} (hd : d < st.diskTotalNum - 2)
    (stripSize blockNo : ℕ) :
    (chargeParityDisks st stripSize blockNo).freeSize d = st.freeSize d := by
  have hp : d ≠ st.diskTotalNum - 2 := by omega
  have hq : d ≠ st.diskTotalNum - 1 := by omega
  rw [chargeParityDisks]
  split
  · exact (Function.update_of_ne hq ..).trans (Function.update_of_ne hp ..)
  · exact Function.update_of_ne hp ..

/-- The choice of an array code, with its charge. -/
def arrayTake (st : NcfsState) (stripSize blockRequest : ℕ) : Option (ℕ × ℕ) × NcfsState :=
  match arrayAllocate st stripSize blockRequest with
  | (none, st) => (none, st)
  | (some (diskId, blockNo), st) =>
      (some (diskId, blockNo), chargeDisk st diskId blockNo blockRequest)

theorem arrayTake_takes (st : NcfsState) (stripSize req : ℕ) :
    Takes st (selectDisk st (st.diskTotalNum - 2) req) req (arrayTake st stripSize req) := by
  cases hsel : selectDisk st (st.diskTotalNum - 2) req with
  | some x =>
      obtain ⟨d, b⟩ := x
      have htake : arrayTake st stripSize req = (some (d, b), chargeDisk
          (if d = 0 then chargeParityDisks st stripSize b else st) d b req) := by
        simp only [arrayTake, arrayAllocate, arraySelect, hsel]
      rw [htake]
      have hd := (selectDisk_eq_some hsel).1
      split
      · exact takes_charge (chargeParityDisks_moved ..) (chargeParityDisks_freeSize hd ..) _
      · exact takes_charge .rfl rfl _
  | none =>
      cases hlist : st.spaceList with
      | nil =>
          have htake : arrayTake st stripSize req = (none, st) := by
            simp only [arrayTake, arrayAllocate, arraySelect, hsel, hlist]
          rw [htake]
          exact .full rfl hlist rfl rfl hlist
      | cons x rest =>
          have htake : arrayTake st stripSize req = (some x,
              chargeDisk { st with spaceList := spaceListRemove st.spaceList x.1 x.2 } x.1 x.2
                req) := by
            simp only [arrayTake, arrayAllocate, arraySelect, hsel, hlist]
          rw [htake]
          exact takes_head hlist _

theorem noRotateAllocate_takes (st : NcfsState) (req : ℕ) :
    Takes st (selectDisk st (st.diskTotalNum - 2) req) req (noRotateAllocate st req) := by
  cases hsel : selectDisk st (st.diskTotalNum - 2) req with
  | some x =>
      obtain ⟨d, b⟩ := x
      have hd := (selectDisk_eq_some hsel).1
      have hp : d ≠ st.diskTotalNum - 2 := by omega
      have hq : d ≠ st.diskTotalNum - 1 := by omega
      cases d with
      | zero =>
          have htake : noRotateAllocate st req = takeBlock
              (chargeDisk
                (chargeDisk st (st.diskTotalNum - 2) (st.freeOffset (st.diskTotalNum - 2)) 1)
                (st.diskTotalNum - 1) ((chargeDisk st (st.diskTotalNum - 2)
                  (st.freeOffset (st.diskTotalNum - 2)) 1).freeOffset (st.diskTotalNum - 1)) 1)
              (some (0, b)) req := by
            simp only [noRotateAllocate, hsel]
          rw [htake]
          exact takes_charge ((moved_update _ 1).trans (moved_update _ 1))
            ((Function.update_of_ne hq ..).trans (Function.update_of_ne hp ..)) _
      | succ d =>
          have htake : noRotateAllocate st req = takeBlock st (some (d + 1, b)) req := by
            simp only [noRotateAllocate, hsel]
          rw [htake]
          exact takeBlock_takes ..
  | none =>
      have htake : noRotateAllocate st req = takeBlock st none req := by
        simp only [noRotateAllocate, hsel]
      rw [htake]
      exact takeBlock_takes ..

/-- Writing a block of an array code changes the devices only. -/
theorem arrayWrite_eq (stripSize : ℕ) (findQBlocksId : ℕ → ℕ → List ℕ) (xorSize qSize : ℕ)
    (st : NcfsState) (d b : ℕ) (buf : Buf) (size : ℕ) :
    arrayWrite stripSize findQBlocksId xorSize qSize st d b buf size =
      { st with
        disk := (arrayWrite stripSize findQBlocksId xorSize qSize st d b buf size).disk } := by
  have hloop : ∀ (ids : List ℕ) (disk : ℕ → ℕ → Byte), ∃ disk', ids.foldl (fun st' q =>
      xorIntoBlock st' (st.diskTotalNum - 1) (q + b / stripSize * stripSize) buf
        (roundToBlockSize st size) xorSize qSize) { st with disk := disk } =
          { st with disk := disk' } := by
    intro ids
    induction ids with
    | nil => exact fun disk => ⟨disk, rfl⟩
    | cons q ids ih => exact fun disk => ih _
  obtain ⟨disk, h⟩ := hloop (findQBlocksId d (b % stripSize))
    (xorIntoBlock st (st.diskTotalNum - 2) b buf (roundToBlockSize st size) xorSize size).disk
  have hwrite : arrayWrite stripSize findQBlocksId xorSize qSize st d b buf size =
      writeDisk { st with disk := disk } d buf size (b * st.diskBlockSize) :=
    congrArg (fun st' : NcfsState => writeDisk st' d buf size (b * st'.diskBlockSize)) h
  rw [hwrite]
  rfl

/-- A call of an array code's `encode` is the choice and a write to the devices. -/
theorem arrayEncode_eq (stripSize : ℕ) (findQBlocksId : ℕ → ℕ → List ℕ) (xorSize qSize : ℕ)
    (st : NcfsState) (buf : Buf) (size : ℕ) :
    ∃ disk, arrayEncode stripSize findQBlocksId xorSize qSize st buf size =
      ((arrayTake st stripSize (blockRequest st size)).1,
        { (arrayTake st stripSize (blockRequest st size)).2 with disk := disk }) := by
  rw [arrayEncode, arrayTake, blockRequest]
  cases arrayAllocate st stripSize (roundToBlockSize st size / st.diskBlockSize) with
  | mk taken st₁ =>
      cases taken with
      | none => exact ⟨st₁.disk, rfl⟩
      | some x => exact ⟨_, congrArg (Prod.mk (some x)) (arrayWrite_eq ..)⟩

/-! ### Calls without room -/

section NoRoom

variable {st : NcfsState} {buf : Buf} {size : ℕ}

theorem writeTaken_of_none {taken : Option (ℕ × ℕ) × NcfsState}
    {write : NcfsState → ℕ → ℕ → NcfsState} (h : taken.1 = none) :
    writeTaken taken write = taken := by
  obtain ⟨x, st⟩ := taken
  cases h
  rfl

theorem arrayEncode_of_none {stripSize xorSize qSize : ℕ} {findQBlocksId : ℕ → ℕ → List ℕ}
    (h : (arrayTake st stripSize (blockRequest st size)).1 = none) :
    arrayEncode stripSize findQBlocksId xorSize qSize st buf size =
      arrayTake st stripSize (blockRequest st size) := by
  rw [arrayTake, blockRequest] at h
  rw [arrayEncode, arrayTake, blockRequest]
  cases htaken : arrayAllocate st stripSize (roundToBlockSize st size / st.diskBlockSize) with
  | mk taken st₁ =>
      cases taken with
      | none => rfl
      | some x =>
          rw [htaken] at h
          cases h

theorem raid6Call_of_none {undefinedDisk : ℕ → ℕ → Byte}
    (h : (raid6Allocate st (blockRequest st size)).1 = none) :
    raid6Call undefinedDisk st buf size = raid6Allocate st (blockRequest st size) := by
  have henc : Coding4Raid6.new.encode st buf size = .ok
      (raid6Allocate st (blockRequest st size)) := by
    rw [Coding4Raid6.encode]
    generalize raid6Allocate st (blockRequest st size) = taken at h ⊢
    obtain ⟨x, st₁⟩ := taken
    cases h
    rfl
  rw [raid6Call, henc]

theorem noRotateCall_of_none {undefinedDisk : ℕ → ℕ → Byte}
    (h : (noRotateAllocate st (blockRequest st size)).1 = none) :
    noRotateCall undefinedDisk st buf size = noRotateAllocate st (blockRequest st size) := by
  have henc : Coding4Raid6noRotate.encode .new st buf size =
      .ok (noRotateAllocate st (blockRequest st size)) := by
    rw [Coding4Raid6noRotate.encode]
    generalize noRotateAllocate st (blockRequest st size) = taken at h ⊢
    obtain ⟨x, st₁⟩ := taken
    cases h
    rfl
  rw [noRotateCall, henc]

end NoRoom

/-- What a call returns is the allocated block, and its bookkeeping that of the allocation. -/
theorem noRotateCall_eq (undefinedDisk : ℕ → ℕ → Byte) (st : NcfsState) (buf : Buf) (size : ℕ) :
    ∃ disk, noRotateCall undefinedDisk st buf size =
      ((noRotateAllocate st (blockRequest st size)).1,
        { (noRotateAllocate st (blockRequest st size)).2 with disk := disk }) := by
  rw [noRotateCall]
  cases henc : Coding4Raid6noRotate.encode .new st buf size with
  | error e => exact ⟨undefinedDisk, rfl⟩
  | ok result =>
      rw [Coding4Raid6noRotate.encode] at henc
      cases halloc : noRotateAllocate st (blockRequest st size) with
      | mk taken st₁ =>
          rw [halloc] at henc
          cases taken with
          | none =>
              cases henc
              exact ⟨st₁.disk, rfl⟩
          | some x =>
              cases hwrite : pqWrite .new st₁ (st₁.diskTotalNum - 2) (st₁.diskTotalNum - 1)
                  (noRotateCoeff st₁.diskTotalNum) x.1 x.2 buf size with
              | error e =>
                  simp only [hwrite] at henc
                  cases henc
              | ok st₂ =>
                  simp only [hwrite] at henc
                  cases henc
                  exact ⟨st₂.disk, congrArg (Prod.mk (some x)) (pqWrite_ok hwrite)⟩

namespace CodingLayer

/-- The choice of a block with its charge. -/
def alloc : CodingLayer → NcfsState → ℕ → Option (ℕ × ℕ) × NcfsState
  | raid0 => raid0Allocate
  | raid1 => raid1Allocate
  | raid4 => raid4Allocate
  | raid5 => raid5Allocate
  | raid6 _ => raid6Allocate
  | rs _ _ | srcRs _ _ _ => rsAllocate
  | jbod => jbodAllocate
  | mbr M _ => mbrAllocate M
  | mdr1 coding => fun st => arrayTake st coding.stripSize
  | raid6noRotate _ => noRotateAllocate
  | evenodd coding | rdp coding => fun st => arrayTake st coding.row

theorem skip_moved (L : CodingLayer) (st : NcfsState) : Moved st (L.skip st) := by
  cases L with
  | raid5 =>
      rw [skip]
      exact skipBlocks_moved st _
  | raid6 =>
      rw [skip, raid6SkipCodeBlocks_eq]
      exact skipBlocks_moved st _
  | mbr =>
      rw [skip]
      exact skipBlocks_moved st _
  | _ => exact .rfl

/-- What is selected is the first free block of a disk with room. -/
theorem select_spec {L : CodingLayer} {st : NcfsState} {req d b : ℕ}
    (h : L.select st req = some (d, b)) :
    b = st.freeOffset d ∧ (req : ℤ) ≤ st.freeSize d := by
  have hscan : ∀ {n}, selectDisk st n req = some (d, b) → b = st.freeOffset d ∧
      (req : ℤ) ≤ st.freeSize d :=
    fun h => by
      rw [selectDisk_eq_scan] at h
      exact ⟨(Frontier.scan_some h).2.2, (Frontier.scan_some h).2.1⟩
  cases L with
  | rs => exact (rsSelect_some h).2
  | srcRs => exact (rsSelect_some h).2
  | raid1 => exact (firstFit_eq_some h).2
  | jbod => exact (firstFit_eq_some h).2
  | mbr => exact ⟨(Frontier.scan_some h).2.2, (Frontier.scan_some h).2.1.1⟩
  | _ => exact hscan h

theorem alloc_takes (L : CodingLayer) (st : NcfsState) (req : ℕ) :
    Takes (L.skip st) (L.select (L.skip st) req) req (L.alloc st req) := by
  cases L with
  | raid6 =>
      have halloc : raid6Allocate st req = takeBlock (raid6SkipCodeBlocks st)
          (selectDisk (raid6SkipCodeBlocks st) (raid6SkipCodeBlocks st).diskTotalNum req) req := by
        rw [raid6Allocate_eq, raid6SkipCodeBlocks_eq, (skipBlocks_same st _).total_eq]
      rw [alloc, halloc]
      exact takeBlock_takes ..
  | mdr1 => exact arrayTake_takes ..
  | evenodd => exact arrayTake_takes ..
  | rdp => exact arrayTake_takes ..
  | raid6noRotate => exact noRotateAllocate_takes ..
  | _ => exact takeBlock_takes ..

/-- A call is the choice of a block and a write to the devices. -/
theorem encode_eq (L : CodingLayer) (st : NcfsState) (buf : Buf) (size : ℕ) :
    ∃ disk, L.encode st buf size =
      ((L.alloc st (blockRequest st size)).1,
        { (L.alloc st (blockRequest st size)).2 with disk := disk }) := by
  cases L with
  | raid0 => exact writeTaken_eq (fun _ _ _ => rfl) _
  | raid1 => exact writeTaken_eq (fun _ _ _ => rfl) _
  | raid4 => exact writeTaken_eq (fun _ _ _ => rfl) _
  | raid5 => exact writeTaken_eq (fun _ _ _ => rfl) _
  | raid6 undefinedDisk => exact raid6Call_eq undefinedDisk st buf size
  | rs J matrix => exact writeTaken_eq (rsWrite_eq J matrix buf size) _
  | srcRs J matrix srcF => exact writeTaken_eq (srcWrite_eq J matrix srcF buf size) _
  | jbod => exact writeTaken_eq (fun _ _ _ => rfl) _
  | mbr M J => exact writeTaken_eq (mbrWrite_eq J M buf size) _
  | mdr1 coding => exact arrayEncode_eq ..
  | raid6noRotate undefinedDisk => exact noRotateCall_eq undefinedDisk st buf size
  | evenodd coding => exact arrayEncode_eq ..
  | rdp coding => exact arrayEncode_eq ..

theorem skipBlocks_contents (st : NcfsState) (bad : ℕ → ℕ → Prop) [∀ i b, Decidable (bad i b)] :
    SameContents st (skipBlocks st bad) := by
  rw [skipBlocks_eq]
  exact ⟨⟨rfl, rfl, rfl, rfl⟩, rfl⟩

theorem takeBlock_contents (st : NcfsState) (selected : Option (ℕ × ℕ)) (req : ℕ) :
    SameContents st (takeBlock st selected req).2 := by
  rcases takeBlock_cases st selected req with ⟨heq, -, -⟩ | ⟨d, b, l, -, -, heq⟩
  · rw [heq]
    exact .rfl
  · rw [heq]
    exact ⟨⟨rfl, rfl, rfl, rfl⟩, rfl⟩

theorem arrayTake_contents (st : NcfsState) (stripSize req : ℕ) :
    SameContents st (arrayTake st stripSize req).2 := by
  rw [arrayTake, arrayAllocate]
  cases arraySelect st req with
  | some x =>
      dsimp only
      split
      · rw [chargeParityDisks]
        split <;> exact ⟨⟨rfl, rfl, rfl, rfl⟩, rfl⟩
      · exact ⟨⟨rfl, rfl, rfl, rfl⟩, rfl⟩
  | none => cases st.spaceList <;> exact ⟨⟨rfl, rfl, rfl, rfl⟩, rfl⟩

theorem noRotateAllocate_contents (st : NcfsState) (req : ℕ) :
    SameContents st (noRotateAllocate st req).2 := by
  rw [noRotateAllocate]
  refine SameContents.trans ?_ (takeBlock_contents ..)
  split <;> exact ⟨⟨rfl, rfl, rfl, rfl⟩, rfl⟩

theorem alloc_contents (L : CodingLayer) (st : NcfsState) (req : ℕ) :
    SameContents st (L.alloc st req).2 := by
  cases L with
  | raid5 => exact (skipBlocks_contents st _).trans (takeBlock_contents ..)
  | raid6 =>
      rw [alloc, raid6Allocate_eq]
      exact (skipBlocks_contents st _).trans (takeBlock_contents ..)
  | mbr => exact (skipBlocks_contents st _).trans (takeBlock_contents ..)
  | mdr1 => exact arrayTake_contents ..
  | evenodd => exact arrayTake_contents ..
  | rdp => exact arrayTake_contents ..
  | raid6noRotate => exact noRotateAllocate_contents ..
  | _ => exact takeBlock_contents ..

theorem skip_contents (L : CodingLayer) (st : NcfsState) : SameContents st (L.skip st) := by
  cases L with
  | raid5 =>
      rw [skip]
      exact skipBlocks_contents st _
  | raid6 =>
      rw [skip, raid6SkipCodeBlocks_eq]
      exact skipBlocks_contents st _
  | mbr =>
      rw [skip]
      exact skipBlocks_contents st _
  | _ => exact .rfl

/-- The skipping loop changes nothing when it moves no disk. -/
theorem skip_eq {L : CodingLayer} {st : NcfsState}
    (hoffset : (L.skip st).freeOffset = st.freeOffset)
    (hsize : (L.skip st).freeSize = st.freeSize) : L.skip st = st := by
  obtain ⟨⟨htotal, hdata, hblock, hstatus⟩, hdisk⟩ := L.skip_contents st
  have hlist := (L.skip_moved st).list_eq
  generalize L.skip st = st' at *
  cases st
  cases st'
  simp_all

/-- A call changes neither the disks' number nor their statuses. -/
theorem encode_sameStore (L : CodingLayer) (st : NcfsState) (buf : Buf) (size : ℕ) :
    SameStore st (L.encode st buf size).2 := by
  obtain ⟨disk, h⟩ := L.encode_eq st buf size
  rw [h]
  have halloc := L.alloc_contents st (blockRequest st size)
  exact ⟨halloc.total_eq, halloc.data_eq, halloc.block_eq, halloc.status_eq⟩

/-- What a call does to the bookkeeping. -/
theorem encode_takes (L : CodingLayer) (st : NcfsState) (buf : Buf) (size : ℕ) :
    Takes (L.skip st) (L.select (L.skip st) (blockRequest st size)) (blockRequest st size)
      (L.encode st buf size) := by
  obtain ⟨disk, h⟩ := L.encode_eq st buf size
  rw [h]
  exact (L.alloc_takes st _).of_disk disk

/-- The block that a call will be served: the selected one, or the first of the space list. -/
def next (L : CodingLayer) (st : NcfsState) (size : ℕ) : Option (ℕ × ℕ) :=
  (L.select (L.skip st) (blockRequest st size)).or st.spaceList.head?

theorem encode_fst (L : CodingLayer) (st : NcfsState) (buf : Buf) (size : ℕ) :
    (L.encode st buf size).1 = L.next st size := by
  have htakes := L.encode_takes st buf size
  have hlist := (L.skip_moved st).list_eq
  rw [next, ← hlist]
  generalize L.encode st buf size = result at htakes ⊢
  cases htakes with
  | full hnone hnil => rw [hnone, hnil, List.head?_nil, Option.or_none]
  | fresh hsome => rw [hsome, Option.some_or]
  | reused hnone hcons => rw [hnone, hcons, List.head?_cons, Option.none_or]

/-- A call without room is the choice alone. -/
theorem encode_of_none {L : CodingLayer} {st : NcfsState} (buf : Buf) {size : ℕ}
    (h : (L.alloc st (blockRequest st size)).1 = none) :
    L.encode st buf size = L.alloc st (blockRequest st size) := by
  cases L with
  | raid6 undefinedDisk => exact raid6Call_of_none h
  | mdr1 => exact arrayEncode_of_none h
  | evenodd => exact arrayEncode_of_none h
  | rdp => exact arrayEncode_of_none h
  | raid6noRotate undefinedDisk => exact noRotateCall_of_none h
  | _ => exact writeTaken_of_none h

/-- A call leaves the space list, but for the block that it returns. -/
theorem mem_encode_spaceList (L : CodingLayer) (st : NcfsState) (buf : Buf) (size : ℕ) {x : ℕ × ℕ}
    (hx : x ∈ st.spaceList) :
    (L.encode st buf size).1 = some x ∨ x ∈ (L.encode st buf size).2.spaceList := by
  have htakes := L.encode_takes st buf size
  rw [← (L.skip_moved st).list_eq] at hx
  generalize L.encode st buf size = result at htakes ⊢
  cases htakes with
  | full _ hlist =>
      rw [hlist] at hx
      cases hx
  | fresh _ _ _ _ hlist => exact .inr (hlist ▸ hx)
  | reused _ hlist _ _ hlist' =>
      rw [hlist] at hx
      rcases List.mem_cons.1 hx with rfl | hx
      · exact .inl rfl
      · exact .inr (hlist' ▸ hx)

/-- A call raises no free size. -/
theorem encode_freeSize_le (L : CodingLayer) (st : NcfsState) (buf : Buf) (size i : ℕ) :
    (L.encode st buf size).2.freeSize i ≤ st.freeSize i := by
  have htakes := L.encode_takes st buf size
  refine le_trans ?_ ((L.skip_moved st).size_le i)
  generalize L.encode st buf size = result at htakes ⊢
  cases htakes with
  | full _ _ _ hsize => exact (congrFun hsize i).le
  | @fresh st' d _ _ _ hsize hothers =>
      by_cases hi : i = d
      · subst hi
        change st'.freeSize i ≤ _
        omega
      · exact (hothers i hi).2
  | @reused st' d _ _ _ _ _ hsize =>
      change st'.freeSize i ≤ _
      rw [hsize]
      by_cases hi : i = d
      · subst hi
        rw [Function.update_self]
        omega
      · rw [Function.update_of_ne hi]

/-- The disk of the block has room for one block less. -/
theorem encode_freeSize_lt {L : CodingLayer} {st : NcfsState} {buf : Buf} {size d b : ℕ}
    (hreq : 1 ≤ blockRequest st size) (h : (L.encode st buf size).1 = some (d, b)) :
    (L.encode st buf size).2.freeSize d < st.freeSize d := by
  have htakes := L.encode_takes st buf size
  refine lt_of_lt_of_le ?_ ((L.skip_moved st).size_le d)
  generalize L.encode st buf size = result at htakes h ⊢
  cases htakes with
  | full => cases h
  | @fresh st' _ _ _ _ hsize =>
      cases h
      change st'.freeSize d < _
      omega
  | @reused st' _ _ _ _ _ _ hsize =>
      cases h
      change st'.freeSize d < _
      rw [hsize, Function.update_self]
      omega

/-- A call without room leaves the devices. -/
theorem encode_disk_of_none {L : CodingLayer} {st : NcfsState} {buf : Buf} {size : ℕ}
    (h : (L.encode st buf size).1 = none) : (L.encode st buf size).2.disk = st.disk := by
  obtain ⟨disk, heq⟩ := L.encode_eq st buf size
  have hnone : (L.alloc st (blockRequest st size)).1 = none := by rwa [heq] at h
  rw [encode_of_none buf hnone]
  exact (L.alloc_contents st (blockRequest st size)).disk_eq

end CodingLayer

end Ncfs
