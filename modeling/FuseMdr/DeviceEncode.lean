/-
Writing under an array code on devices that end.

A write of the array codes does not look at what an access returns.  Behind the end of a device
nothing is transferred, and the disk is marked as failed.  A run of writes after which all disks but
one work has not left the devices, so that it is a run on endless devices.

Main definitions:

* `Ncfs.Devices.arrayEncode` — the common body of the encoders;
* `Ncfs.Devices.mdrEncode`, `Ncfs.Devices.evenoddEncode`, `Ncfs.Devices.rdpEncode` — the encoders;
* `Ncfs.Devices.WritesInside` — the accesses of a write stay on the devices;
* `Ncfs.Devices.Reached` — the states that writes reach.

Main results:

* `Ncfs.Devices.arrayWrite_inside` — a write that stays inside is the write on endless devices;
* `Ncfs.Devices.writesInside_of_healthy` — a write after which all disks but one work has stayed
  inside;
* `Ncfs.ArrayEncoder.run_of_healthy` — the same for runs.
-/
import FuseMdr.BlockStorage
import FuseMdr.Evenodd
import FuseMdr.MdrEncode
import FuseMdr.Rdp

set_option relaxedAutoImplicit false
set_option autoImplicit false

namespace Ncfs

namespace Devices

/-! ### The functions -/

/-- Reading a block into `bufDisk`, adding `xorSize` bytes of `buf` to it and writing `writeSize`
bytes back. -/
def xorIntoBlock (s : Devices) (diskId blockNo : ℕ) (bufDisk buf : Buf)
    (sizeRequest xorSize writeSize : ℕ) :
    Except CodingError Devices := do
  let offset ← intMul blockNo s.ncfs.diskBlockSize
  let (bufDisk, s) := s.readDisk diskId bufDisk sizeRequest offset
  return s.writeDisk diskId (xorBuf xorSize bufDisk buf) writeSize offset

/-- The part of `encode` after the block has been chosen.  The `P` block is read into memory fresh
from the heap, the `Q` blocks into memory that has been cleared. -/
def arrayWrite (stripSize : ℕ) (findQBlocksId : ℕ → ℕ → List ℕ) (xorSize qSize : ℕ) (heap : Buf)
    (s : Devices) (diskId blockNo : ℕ) (buf : Buf) (size : ℕ) : Except CodingError Devices := do
  let sizeRequest := roundToBlockSize s.ncfs size
  let pDiskId := s.ncfs.diskTotalNum - 2
  let qDiskId := s.ncfs.diskTotalNum - 1
  let s ← s.xorIntoBlock pDiskId blockNo heap buf sizeRequest xorSize size
  let stripNum := blockNo / stripSize
  let stripOffset := blockNo % stripSize
  let s ← (findQBlocksId diskId stripOffset).foldlM (fun s q =>
    s.xorIntoBlock qDiskId (q + stripNum * stripSize)
      (memset0 heap sizeRequest) buf sizeRequest xorSize qSize) s
  let offset ← intMul blockNo s.ncfs.diskBlockSize
  return s.writeDisk diskId buf size offset

/-- The common body of `Coding4Mdr1::encode`, `Coding4Evenodd::encode` and `Coding4Rdp::encode`, as
in `Ncfs.arrayEncode`. -/
def arrayEncode (stripSize : ℕ) (findQBlocksId : ℕ → ℕ → List ℕ) (xorSize qSize : ℕ) (heap : Buf)
    (s : Devices) (buf : Buf) (size : ℕ) : Except CodingError (Option (ℕ × ℕ) × Devices) :=
  let blockRequest := roundToBlockSize s.ncfs size / s.ncfs.diskBlockSize
  match arrayAllocate s.ncfs stripSize blockRequest with
  | (none, st) => .ok (none, { s with ncfs := st })
  | (some (diskId, blockNo), st) => do
      let s := { s with ncfs := chargeDisk st diskId blockNo blockRequest }
      let s ← arrayWrite stripSize findQBlocksId xorSize qSize heap s diskId blockNo buf size
      return (some (diskId, blockNo), s)

/-- `Coding4Mdr1::encode`. -/
def mdrEncode (coding : Coding4Mdr1) (heap : Buf) (s : Devices) (buf : Buf) (size : ℕ) :
    Except CodingError (Option (ℕ × ℕ) × Devices) :=
  arrayEncode coding.stripSize (mdrIFindQBlocksId coding s.ncfs)
    (roundToBlockSize s.ncfs size) size heap s buf size

/-- `Coding4Evenodd::encode`. -/
def evenoddEncode (coding : ElemTable) (heap : Buf) (s : Devices) (buf : Buf) (size : ℕ) :
    Except CodingError (Option (ℕ × ℕ) × Devices) :=
  arrayEncode coding.row (Coding4Evenodd.evenoddFindQBlocksId coding) size
    (roundToBlockSize s.ncfs size) heap s buf size

/-- `Coding4Rdp::encode`. -/
def rdpEncode (coding : ElemTable) (heap : Buf) (s : Devices) (buf : Buf) (size : ℕ) :
    Except CodingError (Option (ℕ × ℕ) × Devices) :=
  arrayEncode coding.row (Coding4Rdp.rdpFindQBlocksId coding) size
    (roundToBlockSize s.ncfs size) heap s buf size

/-- An encoder, as a function of the memory that the heap gives it. -/
abbrev Encode := Buf → Devices → Buf → ℕ → Except CodingError (Option (ℕ × ℕ) × Devices)

/-- The state after a call, with the memory that the heap gives for it. -/
def encodeStep (enc : Encode) (s : Devices) (call : Buf × Call) : Except CodingError Devices := do
  let (_, s) ← enc call.1 s call.2.1 call.2.2
  return s

/-- State `s` is reached from `s₀` by writes of at most one block each. -/
def Reached (enc : Encode) (s₀ s : Devices) : Prop :=
  ∃ calls : List (Buf × Call), (∀ call ∈ calls, call.2.2 ≤ s₀.ncfs.diskBlockSize) ∧
    calls.foldlM (encodeStep enc) s₀ = .ok s

/-! ### Accesses -/

section Accesses

variable {s s' : Devices} {d b sizeRequest xorSize writeSize : ℕ} {bufDisk buf : Buf}

theorem later_xorIntoBlock
    (h : s.xorIntoBlock d b bufDisk buf sizeRequest xorSize writeSize = .ok s') :
    s.Later s' := by
  obtain ⟨offset, -, hrest⟩ := Loops.bind_eq_ok h
  cases hrest
  exact (later_readDisk ..).trans (later_writeDisk ..)

theorem later_xorIntoBlocks {l : List ℕ} {base : ℕ} (h : l.foldlM (fun s q =>
      s.xorIntoBlock d (q + base) bufDisk buf sizeRequest xorSize writeSize) s = .ok s') :
        s.Later s' :=
  (Loops.foldlM_pass (R := Later) (fun _ => .rfl) (fun _ _ _ => .trans)
    (fun _ _ _ _ => later_xorIntoBlock) h).1

/-- An access that transfers something lies in front of the end. -/
theorem Holds.hasBlock {size : ℕ} (h : s.Holds d size (b * s.ncfs.diskBlockSize)) :
    s.HasBlock d b := by
  have hlt : b * s.ncfs.diskBlockSize < s.diskSize d * s.ncfs.diskBlockSize :=
    (Nat.lt_add_of_pos_right h.1).trans_le h.2
  exact Nat.lt_of_mul_lt_mul_right hlt

/-- A piece of a block of the device is one access. -/
theorem HasBlock.holds {size : ℕ} (h : s.HasBlock d b) (hpos : 0 < size)
    (hle : size ≤ s.ncfs.diskBlockSize) :
    s.Holds d size (b * s.ncfs.diskBlockSize) :=
  ⟨hpos, (Nat.add_le_add_left hle _).trans (holds_block_iff.2 h).2⟩

/-- What is read has an offset that is a value of an `int`, and lies on the device, or the disk is
marked. -/
theorem of_xorIntoBlock (hd : d < s.ncfs.diskTotalNum)
    (h : s.xorIntoBlock d b bufDisk buf sizeRequest xorSize writeSize = .ok s') :
    b * s.ncfs.diskBlockSize < 2 ^ 31 ∧
      (s.Holds d sizeRequest (b * s.ncfs.diskBlockSize) ∨ s'.ncfs.diskStatus d ≠ 0) := by
  obtain ⟨offset, hmul, hrest⟩ := Loops.bind_eq_ok h
  obtain ⟨hlt, rfl⟩ := intMul_eq_ok hmul
  cases hrest
  refine ⟨hlt, or_iff_not_imp_left.2 fun hheld => ?_⟩
  exact (later_writeDisk ..).failed (readDisk_status hd hheld _)

/-- Bytes that are not written do not matter. -/
theorem writeDisk_congr {st : NcfsState} {buf buf' : Buf} {size offset : ℕ}
    (h : ∀ o < size, buf o = buf' o) :
    Ncfs.writeDisk st d buf size offset = Ncfs.writeDisk st d buf' size offset := by
  have hdisk : (Ncfs.writeDisk st d buf size offset).disk =
      (Ncfs.writeDisk st d buf' size offset).disk := by
    funext i x
    simp only [Ncfs.writeDisk]
    split
    · rename_i hx
      exact h _ (by omega)
    · rfl
  rw [Ncfs.writeDisk, Ncfs.writeDisk]
  exact congrArg (fun disk => { st with disk := disk }) hdisk

/-- Inside the device, adding into a block is what it is on an endless one. -/
theorem xorIntoBlock_inside (hblock : s.HasBlock d b) (hlt : b * s.ncfs.diskBlockSize < 2 ^ 31)
    (hpos : 0 < writeSize) (hle : writeSize ≤ sizeRequest)
    (hsize : sizeRequest ≤ s.ncfs.diskBlockSize) :
    s.xorIntoBlock d b bufDisk buf sizeRequest xorSize writeSize =
      .ok { s with ncfs := Ncfs.xorIntoBlock s.ncfs d b buf sizeRequest xorSize writeSize } := by
  have hread : s.readDisk d bufDisk sizeRequest (b * s.ncfs.diskBlockSize) =
      (Ncfs.readDisk s.ncfs d bufDisk sizeRequest (b * s.ncfs.diskBlockSize), s) :=
    if_pos (hblock.holds (hpos.trans_le hle) hsize)
  have hwrite : ∀ buf, s.writeDisk d buf writeSize (b * s.ncfs.diskBlockSize) =
      { s with ncfs := Ncfs.writeDisk s.ncfs d buf writeSize (b * s.ncfs.diskBlockSize) } :=
      fun buf =>
    if_pos (hblock.holds hpos (hle.trans hsize))
  rw [xorIntoBlock, intMul_of_lt hlt, Loops.ok_bind, hread]
  simp only [hwrite]
  refine congrArg (fun st => Except.ok { s with ncfs := st }) (writeDisk_congr fun o ho => ?_)
  have ho' : o < sizeRequest := ho.trans_le hle
  simp [xorBuf, Ncfs.readDisk, ho']

end Accesses

/-! ### One write -/

/-- The accesses of a write of `size` bytes to block `b` of disk `d` stay on devices, at offsets
that are values of an `int`. -/
structure WritesInside (s : Devices) (stripSize : ℕ) (qs : List ℕ) (d b size : ℕ) : Prop where
  /-- There is something to write. -/
  size_pos : 0 < size
  /-- The data block. -/
  data : s.HasBlock d b
  /-- The `P` block. -/
  p : s.HasBlock (s.ncfs.diskTotalNum - 2) b
  /-- Their offset. -/
  fits : b * s.ncfs.diskBlockSize < 2 ^ 31
  /-- The `Q` blocks. -/
  q : ∀ q ∈ qs, s.HasBlock (s.ncfs.diskTotalNum - 1) (q + b / stripSize * stripSize) ∧
    (q + b / stripSize * stripSize) * s.ncfs.diskBlockSize < 2 ^ 31

section Write

variable {s s' : Devices} {stripSize xorSize qSize size d b : ℕ} {findQBlocksId : ℕ → ℕ → List ℕ}
    {heap buf : Buf}

/-- The loop over the `Q` blocks stays inside. -/
theorem xorIntoBlocks_inside (bufDisk buf : Buf) (xorSize : ℕ) {q base sizeRequest writeSize : ℕ}
    {qs : List ℕ}
    (h : ∀ i ∈ qs, s.HasBlock q (i + base) ∧ (i + base) * s.ncfs.diskBlockSize < 2 ^ 31)
    (hpos : 0 < writeSize)
    (hle : writeSize ≤ sizeRequest) (hsize : sizeRequest ≤ s.ncfs.diskBlockSize) :
    qs.foldlM (fun s i => s.xorIntoBlock q (i + base) bufDisk buf sizeRequest xorSize writeSize) s =
      .ok { s with ncfs := qs.foldl (fun st i =>
        Ncfs.xorIntoBlock st q (i + base) buf sizeRequest xorSize writeSize) s.ncfs } := by
  induction qs generalizing s with
  | nil => rfl
  | cons i qs ih =>
      obtain ⟨⟨hblock, hlt⟩, hrest⟩ := List.forall_mem_cons.1 h
      rw [List.foldlM_cons, xorIntoBlock_inside hblock hlt hpos hle hsize]
      exact ih (s :=
        { s with ncfs := Ncfs.xorIntoBlock s.ncfs q (i + base) buf sizeRequest xorSize writeSize })
          hrest hsize

/-- A write that stays inside is the write on endless devices. -/
theorem arrayWrite_inside (heap buf : Buf) (hsizes : CopySizes s.ncfs size xorSize qSize)
    (h : s.WritesInside stripSize (findQBlocksId d (b % stripSize)) d b size) :
    arrayWrite stripSize findQBlocksId xorSize qSize heap s d b buf size =
      .ok { s with
        ncfs := Ncfs.arrayWrite stripSize findQBlocksId xorSize qSize s.ncfs d b buf size } := by
  obtain ⟨hle, hround⟩ := roundToBlockSize_le hsizes.size_le
  have hq : 0 < qSize := by
    have := hsizes.min_eq
    have := h.size_pos
    omega
  let st₁ := Ncfs.xorIntoBlock s.ncfs (s.ncfs.diskTotalNum - 2) b buf
    (roundToBlockSize s.ncfs size) xorSize size
  let st₂ := (findQBlocksId d (b % stripSize)).foldl
    (fun st i => Ncfs.xorIntoBlock st (s.ncfs.diskTotalNum - 1)
      (i + b / stripSize * stripSize) buf (roundToBlockSize s.ncfs size) xorSize qSize) st₁
  have hp : s.xorIntoBlock (s.ncfs.diskTotalNum - 2) b heap buf
      (roundToBlockSize s.ncfs size) xorSize size = .ok ⟨st₁, s.diskSize⟩ :=
      xorIntoBlock_inside h.p h.fits h.size_pos hle hround
  have hqs := xorIntoBlocks_inside (s := ⟨st₁, s.diskSize⟩)
    (memset0 heap (roundToBlockSize s.ncfs size)) buf xorSize h.q hq hsizes.q_le hround
  have hblock : st₂.diskBlockSize = s.ncfs.diskBlockSize :=
    Loops.foldl_frame (f := fun st i => Ncfs.xorIntoBlock st (s.ncfs.diskTotalNum - 1)
      (i + b / stripSize * stripSize) buf (roundToBlockSize s.ncfs size) xorSize qSize)
      (fun st : NcfsState => st.diskBlockSize) (fun _ _ _ => rfl) st₁
  have hdata : (⟨st₂, s.diskSize⟩ : Devices).writeDisk d buf size (b * st₂.diskBlockSize) =
      ⟨Ncfs.writeDisk st₂ d buf size (b * st₂.diskBlockSize), s.diskSize⟩ :=
    if_pos (HasBlock.holds (s := ⟨st₂, s.diskSize⟩) h.data h.size_pos (hblock ▸ hsizes.size_le))
  rw [arrayWrite, hp, Loops.ok_bind]
  simp only
  rw [hqs, Loops.ok_bind]
  change (intMul b st₂.diskBlockSize >>= fun offset =>
    .ok ((⟨st₂, s.diskSize⟩ : Devices).writeDisk d buf size offset)) = _
  rw [intMul_of_lt (by rw [hblock]; exact h.fits), Loops.ok_bind, hdata]
  rfl

/-- A write after which all disks but one work has stayed inside, where all devices have the same
size, and `Q` is not the disk excepted or strips do not cross the end. -/
theorem writesInside_of_healthy {k e blocks : ℕ} (hn : s.ncfs.diskTotalNum = k + 2) (hd : d < k)
    (hsizes : ∀ i < k + 2, s.diskSize i = blocks)
    (hfind : ∀ q ∈ findQBlocksId d (b % stripSize), q < stripSize)
    (he : e ≠ k + 1 ∨ stripSize ∣ blocks)
    (hok : arrayWrite stripSize findQBlocksId xorSize qSize heap s d b buf size = .ok s')
    (hhealthy : ∀ i < k + 2, i ≠ e → s'.ncfs.diskStatus i = 0) :
    s.WritesInside stripSize (findQBlocksId d (b % stripSize)) d b size := by
  have hp : s.ncfs.diskTotalNum - 2 = k := by omega
  have hq : s.ncfs.diskTotalNum - 1 = k + 1 := by omega
  obtain ⟨s₁, hp₁, hrest⟩ := Loops.bind_eq_ok hok
  obtain ⟨s₂, hq₂, hrest⟩ := Loops.bind_eq_ok hrest
  obtain ⟨offset, hmul, hrest⟩ := Loops.bind_eq_ok hrest
  obtain ⟨-, rfl⟩ := intMul_eq_ok hmul
  cases hrest
  have hlater₁ := later_xorIntoBlock hp₁
  have hlater₂ := later_xorIntoBlocks hq₂
  have hlater₃ := later_writeDisk s₂ d buf size (b * s₂.ncfs.diskBlockSize)
  have hlater := hlater₁.trans hlater₂
  -- the data disk or the `P` disk is not the one excepted
  have hdata : 0 < size ∧ b < blocks := by
    by_cases hde : d = e
    · have hheld := (of_xorIntoBlock (by omega) hp₁).2.resolve_right fun hmark =>
        (hlater₂.trans hlater₃).failed hmark (hhealthy _ (by omega) (by omega))
      refine ⟨Nat.pos_of_ne_zero fun hzero => ?_, ?_⟩
      · subst hzero
        have hround : roundToBlockSize s.ncfs 0 = 0 := by simp [roundToBlockSize]
        exact absurd hheld.1 (by omega)
      · have hblock : b < s.diskSize (s.ncfs.diskTotalNum - 2) := hheld.hasBlock
        rwa [hp, hsizes k (by omega)] at hblock
    · have hheld : s₂.Holds d size (b * s₂.ncfs.diskBlockSize) := not_not.1 fun hheld =>
        writeDisk_status (by rw [hlater.total_eq]; omega) hheld buf (hhealthy d (by omega) hde)
      have hblock : b < s₂.diskSize d := hheld.hasBlock
      rw [hlater.size_eq, hsizes d (by omega)] at hblock
      exact ⟨hheld.1, hblock⟩
  refine ⟨hdata.1, ?_, ?_, (of_xorIntoBlock (by omega) hp₁).1, fun q hmem => ?_⟩
  · rw [HasBlock, hsizes d (by omega)]
    exact hdata.2
  · rw [HasBlock, hp, hsizes k (by omega)]
    exact hdata.2
  · obtain ⟨s₃, s₄, h₁₃, hq₃, h₄₂⟩ :=
      (Loops.foldlM_pass (R := Later) (fun _ => .rfl) (fun _ _ _ => .trans)
        (fun _ _ _ _ => later_xorIntoBlock) hq₂).2 q hmem
    have h₃ := hlater₁.trans h₁₃
    have hof := of_xorIntoBlock (by rw [h₃.total_eq]; omega) hq₃
    rw [h₃.block_eq] at hof
    refine ⟨?_, hof.1⟩
    rw [HasBlock, hq, hsizes (k + 1) (by omega)]
    rcases he with he | hdvd
    · have hheld := hof.2.resolve_right fun hmark =>
        (h₄₂.trans hlater₃).failed hmark (hhealthy _ (by omega) (by omega))
      rw [← h₃.block_eq] at hheld
      have hblock : q + b / stripSize * stripSize < s₃.diskSize (s.ncfs.diskTotalNum - 1) :=
        hheld.hasBlock
      rwa [h₃.size_eq, hq, hsizes (k + 1) (by omega)] at hblock
    · calc q + b / stripSize * stripSize < stripSize + b / stripSize * stripSize :=
            Nat.add_lt_add_right (hfind q hmem) _
        _ = (b / stripSize + 1) * stripSize := by rw [Nat.succ_mul, Nat.add_comm]
        _ ≤ blocks / stripSize * stripSize :=
            Nat.mul_le_mul_right _ (Nat.div_lt_div_of_lt_of_dvd hdvd hdata.2)
        _ ≤ blocks := Nat.div_mul_le_self ..

end Write

theorem Later.shaped {s s' : Devices} {k bs : ℕ} (h : s.Later s') (hs : s.ncfs.Shaped k bs) :
    s'.ncfs.Shaped k bs :=
  ⟨h.total_eq.trans hs.total_eq, h.data_eq.trans hs.data_eq, h.block_eq.trans hs.block_eq⟩

/-- The allocation leaves the statuses. -/
theorem arrayAllocate_diskStatus (st : NcfsState) (stripSize req : ℕ) :
    (arrayAllocate st stripSize req).2.diskStatus = st.diskStatus := by
  rw [arrayAllocate]
  split
  · split
    · rw [chargeParityDisks]
      split <;> rfl
    · rfl
  · split <;> rfl

theorem later_arrayWrite {s s' : Devices} {stripSize xorSize qSize size d b : ℕ}
    {findQBlocksId : ℕ → ℕ → List ℕ} {heap buf : Buf}
    (h : arrayWrite stripSize findQBlocksId xorSize qSize heap s d b buf size = .ok s') :
    s.Later s' := by
  obtain ⟨s₁, hp, hrest⟩ := Loops.bind_eq_ok h
  obtain ⟨s₂, hq, hrest⟩ := Loops.bind_eq_ok hrest
  obtain ⟨offset, -, hrest⟩ := Loops.bind_eq_ok hrest
  cases hrest
  exact ((later_xorIntoBlock hp).trans (later_xorIntoBlocks hq)).trans (later_writeDisk ..)

end Devices

/-! ### Runs -/

namespace ArrayEncoder

open Devices

variable {C : Strip.Code} (E : ArrayEncoder C)

/-- The encoder's `encode` on devices that end. -/
def encodeOn (heap : Buf) (s : Devices) (buf : Buf) (size : ℕ) :
    Except CodingError (Option (ℕ × ℕ) × Devices) :=
  Devices.arrayEncode C.rows E.findQBlocksId (E.xorSize s.ncfs size)
    (E.qSize s.ncfs size) heap s buf size

/-- A function that is the encoder's `encode` on devices that end. -/
def ImplementsOn (bs : ℕ) (enc : Devices.Encode) : Prop :=
  ∀ heap s buf size, s.ncfs.Shaped C.dataDisks bs → enc heap s buf size = E.encodeOn heap s buf size

variable {E} {bs : ℕ} {heap : Buf} {s s' : Devices}

/-- What a call keeps. -/
theorem later_encodeOn (h : s.ncfs.Shaped C.dataDisks bs) {buf : Buf} {size : ℕ}
    {r : Option (ℕ × ℕ)} (hok : E.encodeOn heap s buf size = .ok (r, s')) : s.Later s' := by
  obtain ⟨hshape, -⟩ := arrayAllocate_snd s.ncfs C.rows (blockRequest s.ncfs size) h
  have hstatus := arrayAllocate_diskStatus s.ncfs C.rows (blockRequest s.ncfs size)
  rw [encodeOn, Devices.arrayEncode, ← blockRequest] at hok
  generalize arrayAllocate s.ncfs C.rows (blockRequest s.ncfs size) = allocated
    at hshape hstatus hok
  obtain ⟨place, st⟩ := allocated
  have hst : s.Later ⟨st, s.diskSize⟩ :=
    ⟨hshape.total_eq.trans h.total_eq.symm, hshape.data_eq.trans h.data_eq.symm,
      hshape.block_eq.trans h.block_eq.symm, rfl, fun i => Or.inl (congrFun hstatus i)⟩
  cases place with
  | none =>
      obtain ⟨-, rfl⟩ := Prod.mk.inj (Except.ok.inj hok)
      exact hst
  | some place =>
      obtain ⟨s₁, hwrite, hrest⟩ := Loops.bind_eq_ok hok
      obtain ⟨-, rfl⟩ := Prod.mk.inj (Except.ok.inj hrest)
      have hcharge : s.Later ⟨chargeDisk st place.1 place.2 (blockRequest s.ncfs size),
          s.diskSize⟩ :=
        ⟨hst.total_eq, hst.data_eq, hst.block_eq, rfl, hst.status⟩
      exact hcharge.trans (later_arrayWrite hwrite)

/-- A call after which all disks but one work is the call on endless devices. -/
theorem encodeOn_of_healthy (h : s.ncfs.Shaped C.dataDisks bs)
    (hlist : ∀ x ∈ s.ncfs.spaceList, x.1 < C.dataDisks) {buf : Buf} {size : ℕ} (hsize : size ≤ bs)
    {r : Option (ℕ × ℕ)} (hok : E.encodeOn heap s buf size = .ok (r, s')) {e blocks : ℕ}
    (hblocks : ∀ i < C.dataDisks + 2, s.diskSize i = blocks)
    (he : e ≠ C.dataDisks + 1 ∨ C.rows ∣ blocks)
    (hhealthy : ∀ i < C.dataDisks + 2, i ≠ e → s'.ncfs.diskStatus i = 0) :
    s'.ncfs = (E.encode s.ncfs buf size).2 := by
  have hsizes := E.sizes s.ncfs size (by rwa [h.block_eq])
  obtain ⟨hshape, -⟩ := arrayAllocate_snd s.ncfs C.rows (blockRequest s.ncfs size) h
  have hpick := arrayAllocate_fst s.ncfs C.rows (blockRequest s.ncfs size)
  rw [encodeOn, Devices.arrayEncode, ← blockRequest] at hok
  rw [encode, Ncfs.arrayEncode, ← blockRequest]
  generalize arrayAllocate s.ncfs C.rows (blockRequest s.ncfs size) = allocated
    at hshape hpick hok ⊢
  obtain ⟨place, st⟩ := allocated
  cases place with
  | none =>
      obtain ⟨-, rfl⟩ := Prod.mk.inj (Except.ok.inj hok)
      rfl
  | some place =>
      obtain ⟨d, b⟩ := place
      obtain ⟨s₁, hwrite, hrest⟩ := Loops.bind_eq_ok hok
      obtain ⟨-, rfl⟩ := Prod.mk.inj (Except.ok.inj hrest)
      have hd : d < C.dataDisks := by
        have hlt := arrayPick_lt (fun x hx => by rw [h.total_eq]; exact hlist x hx) hpick.symm
        rwa [h.total_eq] at hlt
      have hinside := writesInside_of_healthy
        (s := ⟨chargeDisk st d b (blockRequest s.ncfs size), s.diskSize⟩) hshape.total_eq hd hblocks
        (E.find_lt d hd (b % C.rows) (Nat.mod_lt _ E.rows_pos)) he hwrite hhealthy
      have hblock : (chargeDisk st d b (blockRequest s.ncfs size)).diskBlockSize =
          s.ncfs.diskBlockSize :=
        hshape.block_eq.trans h.block_eq.symm
      have hrun := arrayWrite_inside heap buf (hsizes.congr hblock) hinside
      exact congrArg Devices.ncfs (Except.ok.inj (hwrite.symm.trans hrun))

variable {encOn : Devices.Encode} {enc : NcfsState → Buf → ℕ → Option (ℕ × ℕ) × NcfsState}
  {calls : List (Buf × Call)}

/-- What a run of calls keeps. -/
theorem later_run (hencOn : E.ImplementsOn bs encOn) (h : s.ncfs.Shaped C.dataDisks bs)
    (hok : calls.foldlM (Devices.encodeStep encOn) s = .ok s') : s.Later s' := by
  have hpass :=
    Loops.foldlM_pass (R := fun s s' : Devices => s.ncfs.Shaped C.dataDisks bs → s.Later s')
    (fun _ _ => .rfl) (fun _ _ _ h₁ h₂ hs => (h₁ hs).trans (h₂ ((h₁ hs).shaped hs)))
    (fun s₁ call _ s₂ hstep hs => ?_) hok
  · exact hpass.1 h
  · obtain ⟨⟨r, s₃⟩, hcall, hrest⟩ := Loops.bind_eq_ok hstep
    cases hrest
    rw [hencOn _ _ _ _ hs] at hcall
    exact later_encodeOn hs hcall

/-- A run of calls after which all disks but one work is the run on endless devices. -/
theorem run_of_healthy (hencOn : E.ImplementsOn bs encOn) (henc : E.Implements bs enc)
    (h : s.ncfs.Shaped C.dataDisks bs) (hun : Unused s.ncfs C.dataDisks)
    (hsize : ∀ call ∈ calls, call.2.2 ≤ bs)
    (hok : calls.foldlM (Devices.encodeStep encOn) s = .ok s') {e blocks : ℕ}
    (hblocks : ∀ i < C.dataDisks + 2, s.diskSize i = blocks)
    (he : e ≠ C.dataDisks + 1 ∨ C.rows ∣ blocks)
    (hhealthy : ∀ i < C.dataDisks + 2, i ≠ e → s'.ncfs.diskStatus i = 0) :
    s'.ncfs = Machine.run (Ncfs.encodeStep enc) s.ncfs (calls.map Prod.snd) := by
  induction calls generalizing s with
  | nil =>
      cases hok
      rfl
  | cons call calls ih =>
      obtain ⟨hcall, hcalls⟩ := List.forall_mem_cons.1 hsize
      rw [List.foldlM_cons] at hok
      obtain ⟨s₁, hstep, hrest⟩ := Loops.bind_eq_ok hok
      obtain ⟨⟨r, s₂⟩, henc₁, hs₂⟩ := Loops.bind_eq_ok hstep
      cases hs₂
      rw [hencOn _ _ _ _ h] at henc₁
      have hlater := later_encodeOn h henc₁
      have hafter := later_run hencOn (hlater.shaped h) hrest
      have hnext : s₁.ncfs = Ncfs.encodeStep enc s.ncfs call.2 := by
        rw [Ncfs.encodeStep, henc _ _ _ h]
        exact encodeOn_of_healthy h (by simp [hun.list_eq]) hcall henc₁ hblocks he fun i hi hie =>
          hafter.healthy (hhealthy i hi hie)
      have hun₁ : Unused s₁.ncfs C.dataDisks := hnext ▸ encode_unused henc h hun call.2.1 hcall
      rw [List.map_cons, Machine.run_cons, ← hnext]
      exact ih (hlater.shaped h) hun₁ hcalls hrest (by rwa [hlater.size_eq])

end ArrayEncoder

end Ncfs
