/-
**The recovery tool.**

The tool is started for a failed disk and a new device.  It counts the failed disks.  For one of
them the rebuild method decides which loop runs over the blocks of the disk: each block is decoded
and written to the new device.  The array codes have a loop over whole strips of their own, and run
through the blocks again afterwards.  Two failed disks are accepted under RAID6, and as many as the
code survives under MBR; else nothing is done.

Parity is stored on every disk, or on disks of its own, so the tool decodes blocks that no file ever
asks for.  This is where the layers stop short of what they survive when files are read.

Main definitions:

* `Ncfs.Devices.fail` — disks fail, and new devices take their places;
* `Ncfs.CodingLayer.recover` — `RecoveryTool::recover`;
* `Ncfs.CodingLayer.Repairs` — a run of the tool brings back a disk of every store;
* `Ncfs.CodingLayer.Repairable` — the failed disks for which it does.

Main results:

* `Ncfs.CodingLayer.recoverBlocks_ok`, `Ncfs.CodingLayer.returns_of_recoverBlocks` — the loop and
  what `decode` returns;
* `Ncfs.CodingLayer.repairs_iff` — the disks that are brought back.
-/
import FuseMdr.OperationMode

set_option relaxedAutoImplicit false
set_option autoImplicit false

namespace Ncfs

/-! ### Failures -/

/-- The disks of `F` have failed, and their places are taken by devices with the bytes `junk`.  A
device has no bytes behind its end. -/
def Devices.fail (s : Devices) (F : Finset ℕ) (junk : ℕ → ℕ → Byte) : Devices :=
  { s with ncfs := s.ncfs.fail F fun i x =>
      if x < s.diskSize i * s.ncfs.diskBlockSize then junk i x else s.ncfs.disk i x }

namespace CodingLayer

/-! ### The functions -/

/-- One pass of the loop over the blocks of a disk.  What is in the buffer before is arbitrary. -/
def recoverBlock (L : CodingLayer) (failedDiskId : ℕ) (mem : ℕ → Buf) (s : Devices) (i : ℕ) :
    Except CodingError Devices := do
  let blockSize := s.ncfs.diskBlockSize
  let offset ← intMul i blockSize
  let buf ← L.decode (L.degraded s.diskSize) s.ncfs failedDiskId (mem i) blockSize offset
  return s.writeDisk failedDiskId buf blockSize offset

/-- The loop over the blocks of a disk, in `ConventionalRecover`, in `recover` of the layers and in
`Coding4RS::recover_conventional`.  Simple regenerating codes have their own. -/
def recoverBlocks (L : CodingLayer) (s : Devices) (failedDiskId : ℕ) (mem : ℕ → Buf) :
    Except CodingError Devices :=
  match L with
  | srcRs J matrix srcF => do
      let st ← Coding4SrcRS.recoverConventional J matrix srcF s.ncfs failedDiskId
        (s.diskSize failedDiskId)
      return { s with ncfs := st }
  | _ => (List.range (s.diskSize failedDiskId)).foldlM (L.recoverBlock failedDiskId mem) s

/-- `ConventionalRecover`.  Names of devices, clocks and what is printed are left out. -/
def conventionalRecover (L : CodingLayer) (s : Devices) (failDiskId : ℕ) (mem : ℕ → Buf) :
    Except CodingError Devices := do
  let s ← L.recoverBlocks s failDiskId mem
  return s.setDeviceStatus failDiskId 0

/-- `DimakisRecoverWithNoEncodingCapability`: `recover` of RAID0 and JBOD returns `-1`, which is not
looked at. -/
def dimakisRecover (L : CodingLayer) (s : Devices) (failDiskId : ℕ) (mem : ℕ → Buf) :
    Except CodingError Devices := do
  let s ← match L with
    | raid0 | jbod => .ok s
    | L => L.recoverBlocks s failDiskId mem
  return s.setDeviceStatus failDiskId 0

/-- The rebuilds of the array codes, which run first. -/
def recoverOneDisk (L : CodingLayer) (s : Devices) (failDiskId : ℕ) : Except CodingError Devices :=
  match L with
  | mdr1 coding => coding.recoverOneDisk s failDiskId
  | evenodd coding => Coding4Evenodd.evenoddRecoverOneDisk coding s failDiskId
  | rdp coding => Coding4Rdp.rdpRecoverOneDisk coding s failDiskId
  | _ => .ok s

/-- `_rebuild_method`, as far as the layers implement the methods. -/
inductive RebuildMethod
  /-- 0. -/
  | traditional
  /-- 1. -/
  | dimakis
  deriving DecidableEq, Repr

/-- What is done for a single failed disk. -/
def recoverSingle (L : CodingLayer) (rebuildMethod : RebuildMethod) (s : Devices) (failDiskId : ℕ)
    (mem : ℕ → Buf) :
    Except CodingError Devices :=
  match rebuildMethod with
  | .traditional => do
      let s ← L.recoverOneDisk s failDiskId
      L.conventionalRecover s failDiskId mem
  | .dimakis => L.dimakisRecover s failDiskId mem

/-- `RecoveryTool::recover`, for the two methods that the layers implement.  It says that too many
disks have failed, or none, and leaves everything as it is. -/
def recover (L : CodingLayer) (rebuildMethod : RebuildMethod) (s : Devices) (failedDiskId : ℕ)
    (mem : ℕ → Buf) :
    Except CodingError Devices :=
  let diskTotalNum := s.ncfs.diskTotalNum
  let failDiskNum : ℕ := (List.range diskTotalNum).reverse.foldl (fun num i =>
    if s.ncfs.diskStatus i ≠ 0 then num + 1 else num) 0
  if 0 < failDiskNum then
    if failDiskNum = 1 then L.recoverSingle rebuildMethod s failedDiskId mem
    else if failDiskNum = 2 ∧ L.raidType = 6 then L.conventionalRecover s failedDiskId mem
    -- `mbr_n` and `mbr_k` are the numbers of all disks and of data disks
    else if L.raidType = 1000 ∧ (failDiskNum : ℤ) ≤ s.ncfs.diskTotalNum - s.ncfs.dataDiskNum then
      L.conventionalRecover s failedDiskId mem
    else .ok s
  else .ok s

end CodingLayer

/-! ### The state during a rebuild -/

namespace Devices

variable {s : Devices} {F : Finset ℕ} {junk : ℕ → ℕ → Byte} {d : ℕ}

/-- The new device after the first `i` blocks have been written. -/
def rewritten (s : Devices) (junk : ℕ → ℕ → Byte) (d i : ℕ) (e x : ℕ) : Byte :=
  if e = d ∧ x < i * s.ncfs.diskBlockSize then s.ncfs.disk d x else junk e x

theorem fail_ncfs (s : Devices) (F : Finset ℕ) (junk : ℕ → ℕ → Byte) :
    ∃ junk', (s.fail F junk).ncfs = s.ncfs.fail F junk' :=
  ⟨_, rfl⟩

@[simp] theorem fail_diskSize : (s.fail F junk).diskSize = s.diskSize := rfl

@[simp] theorem fail_diskBlockSize : (s.fail F junk).ncfs.diskBlockSize = s.ncfs.diskBlockSize :=
  rfl

@[simp] theorem fail_diskTotalNum : (s.fail F junk).ncfs.diskTotalNum = s.ncfs.diskTotalNum := rfl

/-- A whole block of the device fits on it. -/
theorem fail_holds {i : ℕ} (hi : i < s.diskSize d) :
    (s.fail F junk).Holds d s.ncfs.diskBlockSize (i * s.ncfs.diskBlockSize) := by
  refine ⟨s.ncfs.diskBlockSize_pos, ?_⟩
  have hle := Nat.mul_le_mul_right s.ncfs.diskBlockSize (Nat.succ_le_of_lt hi)
  rwa [Nat.succ_mul] at hle

/-- Writing a block to a device that has failed leaves other bytes on it. -/
theorem fail_writeDisk (hd : d ∈ F) {i : ℕ} (hi : i < s.diskSize d) (buf : Buf) :
    (s.fail F junk).writeDisk d buf s.ncfs.diskBlockSize (i * s.ncfs.diskBlockSize) = s.fail F
      fun e x => if e = d ∧ i * s.ncfs.diskBlockSize ≤ x ∧
        x < i * s.ncfs.diskBlockSize + s.ncfs.diskBlockSize then
        buf (x - i * s.ncfs.diskBlockSize) else junk e x := by
  have hend := (@fail_holds s F junk d i hi).2
  rw [writeDisk, if_pos (fail_holds hi), fail, fail, Ncfs.writeDisk]
  congr 2
  funext e x
  dsimp only [NcfsState.fail]
  change _ ≤ s.diskSize d * s.ncfs.diskBlockSize at hend
  by_cases hin : e = d ∧ i * s.ncfs.diskBlockSize ≤ x ∧
    x < i * s.ncfs.diskBlockSize + s.ncfs.diskBlockSize
  · obtain ⟨rfl, hrange⟩ := hin
    rw [if_pos ⟨rfl, hrange⟩, if_pos hd, if_pos (by omega), if_pos ⟨rfl, hrange⟩]
  · rw [if_neg hin]
    split
    · dsimp only
      rw [if_neg hin]
    · rfl

/-- Writing the block that was lost. -/
theorem rewritten_succ (hd : d ∈ F) {i : ℕ} (hi : i < s.diskSize d) {buf : Buf}
    (hbuf : ∀ o < s.ncfs.diskBlockSize, buf o = s.ncfs.block d i o) :
    (s.fail F (s.rewritten junk d i)).writeDisk d buf s.ncfs.diskBlockSize
      (i * s.ncfs.diskBlockSize) = s.fail F (s.rewritten junk d (i + 1)) := by
  rw [fail_writeDisk hd hi]
  congr 1
  funext e x
  rw [rewritten, rewritten, Nat.succ_mul]
  by_cases hin : e = d ∧ i * s.ncfs.diskBlockSize ≤ x ∧
    x < i * s.ncfs.diskBlockSize + s.ncfs.diskBlockSize
  · obtain ⟨rfl, hle, hlt⟩ := hin
    rw [if_pos ⟨rfl, hle, hlt⟩, if_pos ⟨rfl, hlt⟩, hbuf _ (by omega), NcfsState.block,
      Nat.add_sub_cancel' hle]
  · rw [if_neg hin]
    refine if_congr (and_congr_right fun he => ⟨fun h => by omega, fun h => ?_⟩) rfl rfl
    by_contra hge
    exact hin ⟨he, by omega, h⟩

/-- After the last block the disk has not failed. -/
theorem rewritten_diskSize (hd : d < s.ncfs.diskTotalNum) :
    (s.fail F (s.rewritten junk d (s.diskSize d))).setDeviceStatus d 0 = s.fail
      (F.erase d) junk := by
  rw [setDeviceStatus_of_lt (show d < (s.fail F _).ncfs.diskTotalNum from hd) (by decide),
    fail, fail]
  dsimp only [NcfsState.fail]
  congr 2
  · funext e
    by_cases he : e = d
    · subst he
      simp
    · simp [he]
  · funext e x
    by_cases he : e = d
    · subst he
      rw [if_neg (Finset.notMem_erase e F)]
      split
      · dsimp only
        split
        · rw [rewritten, if_pos ⟨rfl, ‹_›⟩]
        · rfl
      · rfl
    · simp [rewritten, he]

end Devices

namespace CodingLayer

/-! ### The loop -/

/-- The layers whose lost blocks are decoded one by one, at the places at which they are stored,
with numbers of disks that suit them. -/
def ByBlocks : CodingLayer → ℕ → ℕ → Prop
  | raid6 _, n, _ => 3 ≤ n ∧ n ≤ 10
  | rs _ _, _, k => 1 ≤ k
  -- an `int` holds the offsets of a segment
  | mbr _ _, n, _ => n ≤ 2 ^ 29
  | srcRs _ _ _, _, _ | mdr1 _, _, _ | raid6noRotate _, _, _ | evenodd _, _, _ | rdp _, _, _ =>
      False
  | raid0, _, _ | raid1, _, _ | raid4, _, _ | raid5, _, _ | jbod, _, _ => True

section Loop

variable {L : CodingLayer} {n k d : ℕ} {F : Finset ℕ} {s : Devices}

theorem ByBlocks.blockNo_eq (h : L.ByBlocks n k) (b : ℕ) : L.blockNo b = b := by
  cases L with
  | srcRs J matrix srcF => exact h.elim
  | _ => rfl

theorem ByBlocks.recoverBlocks_eq (h : L.ByBlocks n k) (s : Devices) (d : ℕ) (mem : ℕ → Buf) :
    L.recoverBlocks s d mem = (List.range (s.diskSize d)).foldlM (L.recoverBlock d mem) s := by
  cases L with
  | srcRs J matrix srcF => exact h.elim
  | _ => rfl

theorem ByBlocks.recoverOneDisk_eq (h : L.ByBlocks n k) (s : Devices) (d : ℕ) :
    L.recoverOneDisk s d = .ok s := by
  cases L with
  | mdr1 coding => exact h.elim
  | evenodd coding => exact h.elim
  | rdp coding => exact h.elim
  | _ => rfl

/-- A pass without the check of the offset. -/
theorem recoverBlock_eq (L : CodingLayer) (s : Devices) (d : ℕ) (mem : ℕ → Buf) {i : ℕ}
    (hsmall : i * s.ncfs.diskBlockSize < 2 ^ 31) :
    L.recoverBlock d mem s i = do
      let buf ← L.decode (L.degraded s.diskSize) s.ncfs d (mem i) s.ncfs.diskBlockSize
        (i * s.ncfs.diskBlockSize)
      return s.writeDisk d buf s.ncfs.diskBlockSize (i * s.ncfs.diskBlockSize) := by
  rw [recoverBlock, intMul_of_lt hsmall]
  rfl

/-- When `decode` returns the blocks of a disk, the loop writes them. -/
theorem recoverBlocks_ok (hL : L.ByBlocks n k) (hd : d ∈ F)
    (hsmall : ∀ b < s.diskSize d, b * s.ncfs.diskBlockSize < 2 ^ 31)
    (h : ∀ b < s.diskSize d, ∀ junk buf, L.Returns s F junk d b buf) (junk : ℕ → ℕ → Byte)
    (mem : ℕ → Buf) :
    L.recoverBlocks (s.fail F junk) d mem = .ok (s.fail F (s.rewritten junk d (s.diskSize d))) := by
  have hstart : s.fail F junk = s.fail F (s.rewritten junk d 0) := by
    congr 1
    funext e x
    rw [Devices.rewritten, Nat.zero_mul, if_neg fun h => absurd h.2 (Nat.not_lt_zero x)]
  have hstep : ∀ i < s.diskSize d, ∀ x, x = s.fail F (s.rewritten junk d i) →
      ∃ x', L.recoverBlock d mem x i = .ok x' ∧ x' = s.fail F (s.rewritten junk d (i + 1)) := by
    rintro i hi x rfl
    obtain ⟨junk', hjunk'⟩ := s.fail_ncfs F (s.rewritten junk d i)
    obtain ⟨out, hok, hout⟩ := h i hi junk' (mem i)
    rw [hL.blockNo_eq] at hout
    rw [← hjunk'] at hok
    refine ⟨_, (L.recoverBlock_eq (s.fail F _) d mem (hsmall i hi)).trans ?_,
      Devices.rewritten_succ hd hi hout⟩
    exact congrArg (· >>= _) hok
  obtain ⟨x, hrun, rfl⟩ :=
    Loops.foldlM_range (fun i x => x = s.fail F (s.rewritten junk d i)) hstep hstart
  exact (hL.recoverBlocks_eq _ d mem).trans hrun

/-- When the loop ends, `decode` has returned what is on the disk afterwards. -/
theorem returns_of_recoverBlocks (hL : L.ByBlocks n k) (hd : d ∈ F) {junk : ℕ → ℕ → Byte}
    {mem : ℕ → Buf} {x : Devices} (hok : L.recoverBlocks (s.fail F junk) d mem = .ok x)
    (hx : ∀ b < s.diskSize d, ∀ o < s.ncfs.diskBlockSize, x.ncfs.block d b o = s.ncfs.block d b o)
    {b : ℕ} (hb : b < s.diskSize d) : ∃ junk buf, L.Returns s F junk d b buf := by
  rw [hL.recoverBlocks_eq] at hok
  -- the blocks that have been written hold what `decode` has returned for them
  let Written (i : ℕ) (x : Devices) : Prop := (∃ junk, x = s.fail F junk) ∧ ∀ b < i, ∃ junk buf out,
    L.decode (L.degraded s.diskSize) (s.ncfs.fail F junk) d buf s.ncfs.diskBlockSize
      (b * s.ncfs.diskBlockSize) = .ok out ∧ ∀ o < s.ncfs.diskBlockSize, out o = x.ncfs.block d b o
  have hstep : ∀ i < s.diskSize d, ∀ x x', L.recoverBlock d mem x i = .ok x' → Written i x →
      Written (i + 1) x' := by
    rintro i hi x x' hpass ⟨⟨junk, rfl⟩, hbefore⟩
    obtain ⟨offset, hoffset, hpass⟩ := Loops.bind_eq_ok hpass
    obtain ⟨-, rfl⟩ := intMul_eq_ok hoffset
    obtain ⟨out, hdecode, hpass⟩ := Loops.bind_eq_ok hpass
    have hwrite := (Except.ok.inj hpass).symm
    obtain ⟨junk', hjunk'⟩ := s.fail_ncfs F junk
    have hblock : ∀ b, ∀ o < s.ncfs.diskBlockSize, x'.ncfs.block d b o =
        if b = i then out o else (s.fail F junk).ncfs.block d b o := by
      intro b o ho
      rw [hwrite, Devices.writeDisk, Devices.fail_diskBlockSize, if_pos (Devices.fail_holds hi)]
      refine (block_writeDisk (s.fail F junk).ncfs d i s.ncfs.diskBlockSize out le_rfl ho).trans
        (if_congr ?_ rfl rfl)
      exact ⟨fun h => h.2.1, fun h => ⟨rfl, h, ho⟩⟩
    refine ⟨⟨_, hwrite.trans (Devices.fail_writeDisk hd hi out)⟩, fun b hb => ?_⟩
    by_cases hbi : b = i
    · subst hbi
      exact ⟨junk', mem b, out, hjunk' ▸ hdecode, fun o ho => by rw [hblock b o ho, if_pos rfl]⟩
    · obtain ⟨junk₁, buf, out₁, hdecode₁, hout⟩ := hbefore b (by omega)
      exact ⟨junk₁, buf, out₁, hdecode₁, fun o ho => by rw [hblock b o ho, if_neg hbi, hout o ho]⟩
  have hstart : Written 0 (s.fail F junk) :=
    ⟨⟨junk, rfl⟩, fun b hb => absurd hb (Nat.not_lt_zero b)⟩
  obtain ⟨-, hreturned⟩ := Loops.foldlM_range_keeps Written hstep hstart hok
  obtain ⟨junk, buf, out, hdecode, hout⟩ := hreturned b hb
  refine ⟨junk, buf, out, hdecode, fun o ho => ?_⟩
  rw [hL.blockNo_eq, hout o ho, hx b hb o ho]

end Loop

/-! ### What the layers return -/

/-- The failed disks of `F` of which the tool brings back disk `d`:

* RAID0, JBOD: none;
* RAID1: a single one that has a mirror;
* RAID4, RAID5: a single one;
* RAID6: a single one, or one of two, where the other one is the next disk round the end or the
  second next;
* Reed-Solomon: a single one that holds data;
* MBR: a data disk, and a code disk without another one among the failed disks, when the code
  survives them. -/
def Repairable : CodingLayer → ℕ → ℕ → Finset ℕ → ℕ → Prop
  | raid1, n, _, F, d => F = {d} ∧ mirrorDiskId n d ≠ d
  | raid4, _, _, F, d | raid5, _, _, F, d => F = {d}
  | raid6 _, n, _, F, d => F = {d} ∨ ∃ f ≠ d, F = {d, f} ∧ (f = (d + 1) % n ∨ f = d + 2)
  | rs _ _, n, k, F, d => F = {d} ∧ d < k ∧ k < n
  | mbr _ _, n, k, F, d => F.card + k ≤ n ∧ (d < k ∨ ∀ e ∈ F, e ≠ d → e < k)
  | _, _, _, _, _ => False

section Returns

variable {L : CodingLayer} {n k d f b : ℕ} {F : Finset ℕ} {s : Devices} {st : NcfsState}
    {junk : ℕ → ℕ → Byte}

/-- Either disk of a pair is returned from the other one. -/
theorem raid1_returns (hs : raid1.Stores n k s) (hd : d < n)
    (hmirror : mirrorDiskId n d ≠ d) (b : ℕ) (junk : ℕ → ℕ → Byte) (buf : Buf) :
    raid1.Returns s {d} junk d b buf := by
  obtain ⟨rfl, -, -, hmirrors⟩ := hs
  have hwork : mirrorDiskId s.ncfs.diskTotalNum d ∉
      ({d} : Finset ℕ) := by rwa [Finset.mem_singleton]
  have hstatus : (s.ncfs.fail {d} junk).diskStatus (mirrorDiskId s.ncfs.diskTotalNum d) = 0 := by
    rw [fail_diskStatus, if_neg hwork]
  have hfailed := @fail_diskStatus_ne_zero s.ncfs {d} junk d (Finset.mem_singleton_self d)
  refine ⟨_, (if_neg hfailed).trans (if_pos hstatus), fun o ho => ?_⟩
  rw [fail_diskTotalNum, readDisk_fail hwork ho]
  by_cases hhalf : d < s.ncfs.diskTotalNum / 2
  · exact hmirrors d hhalf b o ho
  · -- the lost disk is the mirror
    have hself : mirrorDiskId s.ncfs.diskTotalNum (mirrorDiskId s.ncfs.diskTotalNum d) = d := by
      rw [mirrorDiskId, mirrorDiskId]
      omega
    have hlow : mirrorDiskId s.ncfs.diskTotalNum d < s.ncfs.diskTotalNum / 2 := by
      rw [mirrorDiskId] at hmirror ⊢
      omega
    have hcopy := hmirrors _ hlow b o ho
    rw [hself] at hcopy
    exact hcopy.symm

/-- A single lost block of RAID6, whatever it holds. -/
theorem raid6_returns_one (hn : 3 ≤ st.diskTotalNum) (hn' : st.diskTotalNum ≤ 10)
    (hint : st.diskBlockSize % sizeofInt = 0) (hrow : ∀ o < st.diskBlockSize, Raid6Row st b o)
    (hd : d < st.diskTotalNum) (buf : Buf) : ReadsBlock st {d} junk d b buf := by
  have hpq := parityDiskId_ne_codeDiskId (n := st.diskTotalNum) (b := b) (by omega)
  by_cases hq : d = codeDiskId st.diskTotalNum b
  · subst hq
    have hok := @decode_fail_singleton st junk
      (codeDiskId st.diskTotalNum b) b hd buf st.diskBlockSize
    rw [if_neg (not_not.2 rfl), @codeOfData_eq (st.fail _ junk) b st.diskBlockSize
      (show 2 ≤ st.diskTotalNum by omega) hn'] at hok
    refine (readsBlock_iff hok).2 fun o ho => ?_
    rw [xorBuf_of_lt _ _ ho, memset0_of_lt ho, zero_add, (hrow o ho).q_eq]
    refine Finset.sum_congr rfl fun i hi => ?_
    have hiq := (mem_dataDisks.1 hi).2.2
    rw [fail_diskTotalNum, readDisk_fail (by simpa using hiq) ho]
  · by_cases hp : d = parityDiskId st.diskTotalNum b
    · subst hp
      obtain ⟨out, hout, hsum⟩ := @xorSurvivors_fail st {parityDiskId st.diskTotalNum b} junk b
        (fun i => i ≠ parityDiskId st.diskTotalNum b ∧ i ≠ codeDiskId st.diskTotalNum b) _
        (fun i _ h hi => h.1 (Finset.mem_singleton.1 hi))
          (memset0 buf st.diskBlockSize) st.diskBlockSize
      have hok := @decode_fail_singleton st junk
        (parityDiskId st.diskTotalNum b) b hd buf st.diskBlockSize
      rw [if_pos hq, hout] at hok
      refine (readsBlock_iff hok).2 fun o ho => ?_
      rw [hsum o ho, memset0_of_lt ho, zero_add, intBytes_eq hint, if_pos ho, (hrow o ho).p_eq]
      rfl
    · exact raid6_decode_lost_one (by omega) hint hrow (mem_dataDisks.2 ⟨hd, hp, hq⟩) buf

/-- A block whose last integer is whole. -/
theorem tailZero_of_words (hint : st.diskBlockSize % sizeofInt = 0) (d b : ℕ) :
    TailZero st d b := by
  intro o hle ho
  rw [intBytes_eq hint] at hle
  omega

/-- When a lost `P` block can be told from the rest of its row with two disks lost. -/
theorem parityReadable_iff (hint : st.diskBlockSize % sizeofInt = 0) :
    ParityReadable st b f ↔ (1 ≤ b % st.diskTotalNum ∧ b % st.diskTotalNum + 1 < st.diskTotalNum) ∧
      (f = codeDiskId st.diskTotalNum b + 1 ∨ ∀ o < st.diskBlockSize, st.block f b o = 0) := by
  have htail := intBytes_eq hint
  constructor
  · intro h
    exact ⟨h.row, htail ▸ h.ints⟩
  · rintro ⟨hrow, hints⟩
    refine ⟨hrow, by rwa [htail], fun o hle ho => ?_⟩
    omega

/-- In the row in which a disk holds `P`. -/
theorem codeDiskId_of_parity (hn : 3 ≤ n) (hd : d = parityDiskId n b) :
    codeDiskId n b = (d + 1) % n ∧ (1 ≤ b % n ∧ b % n + 1 < n ↔ d + 2 < n) := by
  have hlt := Nat.mod_lt b (show 0 < n by omega)
  have hq : codeDiskId n b = n - 1 - b % n := rfl
  rw [parityDiskId_eq (by omega)] at hd
  split at hd
  · have hsmall : d + 1 < n := by omega
    rw [Nat.mod_eq_of_lt hsmall]
    omega
  · have hlast : d + 1 = n := by omega
    rw [hlast, Nat.mod_self]
    omega

/-- One of two lost blocks of RAID6. -/
theorem raid6_returns_two (hn : 3 ≤ st.diskTotalNum) (hn' : st.diskTotalNum ≤ 10)
    (hint : st.diskBlockSize % sizeofInt = 0) (hrow : ∀ o < st.diskBlockSize, Raid6Row st b o)
    (hd : d < st.diskTotalNum) (hf : f < st.diskTotalNum) (hfd : f ≠ d)
    (hnext : f = (d + 1) % st.diskTotalNum ∨ f = d + 2) (buf : Buf) :
    ReadsBlock st {d, f} junk d b buf := by
  have hpq := parityDiskId_ne_codeDiskId (n := st.diskTotalNum) (b := b) (by omega)
  by_cases hp : d = parityDiskId st.diskTotalNum b
  · obtain ⟨hcode, hends⟩ := codeDiskId_of_parity hn hp
    by_cases hfq : f = codeDiskId st.diskTotalNum b
    · subst hp hfq
      exact (decode_parity_code_iff hn hn' hrow buf).2 (tailZero_of_words hint _ _)
    · have hsecond : f = d + 2 := hnext.resolve_left fun h => hfq (h.trans hcode.symm)
      rw [Nat.mod_eq_of_lt (show d + 1 < st.diskTotalNum by omega)] at hcode
      have hreadable : ParityReadable st b f :=
        (parityReadable_iff hint).2 ⟨hends.2 (by omega), .inl (by omega)⟩
      subst hp
      exact (decode_parity_data_iff hn hn' hrow (mem_dataDisks.2 ⟨hf, hfd, hfq⟩) buf).2 hreadable
  · by_cases hq : d = codeDiskId st.diskTotalNum b
    · by_cases hfp : f = parityDiskId st.diskTotalNum b
      · subst hq hfp
        exact decode_code_parity hn hn' hrow buf
      · subst hq
        exact (decode_code_data_iff hn hn' hrow (mem_dataDisks.2 ⟨hf, hfp, hfd⟩) buf).2
          (tailZero_of_words hint _ _)
    · have hsub : ({d, f} : Finset ℕ) ⊆ Finset.range st.diskTotalNum := by
        simp [Finset.insert_subset_iff, hd, hf]
      exact Coding4Raid6.decode_data (by omega) hn'
        (mem_dataDisks.2 ⟨hd, hp, hq⟩) hsub Finset.card_le_two
        (Finset.mem_insert_self d _) hint hrow buf

/-- **What `decode` returns for the tool.** -/
theorem returns_of_repairable (hL : L.Configured n k) (hblocks : L.ByBlocks n k)
    (hs : L.Stores n k s) (hF : F ⊆ Finset.range n) (hdF : d ∈ F) (h : L.Repairable n k F d) (b : ℕ)
    (junk : ℕ → ℕ → Byte) (buf : Buf) :
    L.Returns s F junk d b buf := by
  have hd := Finset.mem_range.1 (hF hdF)
  have hcard : ∀ {e}, F = {e} → F.card ≤ 1 := fun h => h ▸ le_rfl
  cases L with
  | raid1 =>
      obtain ⟨rfl, hmirror⟩ := h
      exact raid1_returns hs hd hmirror b junk buf
  | raid4 =>
      obtain ⟨rfl, -, hint, hrows⟩ := hs
      exact raid5_decode_lost hrows hd hint (hcard h) hdF buf
  | raid5 =>
      obtain ⟨rfl, -, hint, hrows⟩ := hs
      exact raid5_decode_lost hrows hd hint (hcard h) hdF buf
  | raid6 undefinedDisk =>
      obtain ⟨rfl, -, hint, hparity⟩ := hs
      rcases h with rfl | ⟨f, hfd, rfl, hnext⟩
      · exact raid6_returns_one hblocks.1 hblocks.2 hint (hparity b) hd buf
      · have hf := Finset.mem_range.1 (hF (Finset.mem_insert_of_mem (Finset.mem_singleton_self f)))
        exact raid6_returns_two hblocks.1 hblocks.2 hint (hparity b) hd hf hfd hnext buf
  | rs J matrix =>
      obtain ⟨htotal, rfl, hint, hparity⟩ := hs
      obtain ⟨hkn, hJ, hinv⟩ := hL
      obtain ⟨hone, hdk, hlt⟩ := h
      have hsum : n = s.ncfs.dataDiskNum + (n - s.ncfs.dataDiskNum) := by omega
      have hle := hcard hone
      exact Coding4RS.decode_data (m := n - s.ncfs.dataDiskNum) hJ rfl (htotal.trans hsum) hint
        (hparity b) (hsum ▸ hF) (by omega) (hsum ▸ hinv F hF (by omega)) hdF hdk junk buf
  | mbr M J =>
      obtain ⟨rfl, -, hint, hconsistent⟩ := hs
      obtain ⟨hM, hJ, hinv⟩ := hL
      obtain ⟨hle, hcode⟩ := h
      by_cases hpeer : mbrPeer (s.ncfs.diskTotalNum - 1) d b ∈ F
      · have hne : mbrPeer (s.ncfs.diskTotalNum - 1) d b ≠ d := by
          rw [mbrPeer]
          split <;> omega
        exact Coding4Mbr.decode_native hJ hM hint hconsistent hF (by omega) junk
          (hinv s.ncfs junk F hF hle) hdF hpeer
          (hcode.imp_right fun h => h _ hpeer hne) buf
      · exact Coding4Mbr.decode_copy hM hconsistent hd hdF hpeer junk buf
  | _ => exact h.elim

/-! ### What they do not return -/

/-- The number of failed disks that the tool accepts. -/
def Accepts (L : CodingLayer) (n k : ℕ) (F : Finset ℕ) : Prop :=
  F.card = 1 ∨ F.card = 2 ∧ L.raidType = 6 ∨ L.raidType = 1000 ∧ F.card + k ≤ n

/-- All devices have the same number of blocks, and an `int` holds their offsets.  MBR divides them
into segments. -/
structure EqualDisks (L : CodingLayer) (s : Devices) (blocks : ℕ) : Prop where
  /-- `disk_size`. -/
  size_eq : ∀ i < s.ncfs.diskTotalNum, s.diskSize i = blocks
  /-- The offsets. -/
  small : blocks * s.ncfs.diskBlockSize ≤ 2 ^ 31
  /-- The segments. -/
  segments : ∀ M J, L = mbr M J → M.mbrSegmentSize ∣ blocks

/-- With two lost disks that are not next to each other, the `P` block of one of them does not come
back from a store in which the other one holds data in its row. -/
theorem exists_raid6_lost (hn : 3 ≤ n) (hn' : n ≤ 10) (undefinedDisk : ℕ → ℕ → Byte) (hd : d < n)
    (hf : f < n) (hfd : f ≠ d) (hnext : ¬ (f = (d + 1) % n ∨ f = d + 2)) :
    ∃ s blocks, (raid6 undefinedDisk).Stores n k s ∧ (raid6 undefinedDisk).EqualDisks s blocks ∧
      ∃ b < blocks, ∀ junk buf, ¬ (raid6 undefinedDisk).Returns s {d, f} junk d b buf := by
  obtain ⟨b, hlt, hp, hq⟩ : ∃ b < n, parityDiskId n b = d ∧ codeDiskId n b = (d + 1) % n := by
    obtain ⟨b, hp, hq⟩ := exists_parityRow hd
    refine ⟨b % n, Nat.mod_lt b (by omega), ?_, ?_⟩
    · rw [← hp, parityDiskId, parityDiskId, Nat.mod_add_mod]
    · rw [← hq, codeDiskId, codeDiskId, Nat.mod_mod]
  have hpq := parityDiskId_ne_codeDiskId (n := n) (b := b) (by omega)
  have hdata : f ∈ dataDisks n b :=
    mem_dataDisks.2 ⟨hf, hp ▸ hfd, fun h => hnext (.inl (h.trans hq))⟩
  let st := singleBlock n k b f (parityDiskId n b) (codeDiskId n b) (diskCoeff n b f)
  have hrows : ∀ b', ∀ o < 4, Raid6Row st b' o := by
    intro b' o ho
    by_cases hb : b' = b
    · subst hb
      exact singleBlock_row hdata (fun h => (mem_dataDisks.1 h).2.1 rfl)
        (fun h => (mem_dataDisks.1 h).2.2 rfl) hpq ho
    · exact singleBlock_row_of_ne hb ho
  refine ⟨⟨st, fun _ => b + 1⟩, b + 1, ⟨rfl, rfl, show 4 % sizeofInt = 0 from rfl, hrows⟩,
    ⟨fun _ _ => rfl, show (b + 1) * 4 ≤ 2 ^ 31 by omega, fun _ _ h => CodingLayer.noConfusion h⟩, b,
    Nat.lt_succ_self b, fun junk buf hreturns => ?_⟩
  have hreads : ReadsBlock st {parityDiskId n b, f} junk (parityDiskId n b) b buf := by
    rw [hp]
    exact hreturns
  have hreadable := (@decode_parity_data_iff st b f junk hn hn' (hrows b) hdata buf).1 hreads
  obtain ⟨hends, hf⟩ := (parityReadable_iff (show 4 % sizeofInt = 0 from rfl)).1 hreadable
  rcases hf with hf | hf
  · -- `P` would have to be in front of `Q`
    have hend := (codeDiskId_of_parity hn hp.symm).2.1 hends
    replace hf : f = codeDiskId n b + 1 := hf
    rw [hq, Nat.mod_eq_of_lt (by omega)] at hf
    exact hnext (.inr hf)
  · have hone := hf 0 (show 0 < 4 by decide)
    rw [singleBlock_block _ _ _ (by decide), if_pos rfl, if_pos (.inl rfl)] at hone
    exact one_ne_zero hone

/-- With two lost code disks of MBR, the block that they share does not come back. -/
theorem exists_mbr_lost {M : Coding4Mbr} {J : Jerasure} (hL : (mbr M J).Configured n k)
    (hbound : n ≤ 2 ^ 29) (hF : F ⊆ Finset.range n) (hle : F.card + k ≤ n) (hdF : d ∈ F) {e : ℕ}
    (heF : e ∈ F) (hed : e ≠ d) (hdk : k ≤ d) (hek : k ≤ e) :
    ∃ s blocks, (mbr M J).Stores n k s ∧ (mbr M J).EqualDisks s blocks ∧
      ∃ b < blocks, ∀ junk buf, ¬ (mbr M J).Returns s F junk d b buf := by
  have hM := hL.1
  have hn := hM.pos
  have hd := Finset.mem_range.1 (hF hdF)
  have he := Finset.mem_range.1 (hF heF)
  obtain ⟨b, hb, hpeer⟩ : ∃ b < n - 1, mbrPeer (n - 1) d b = e := by
    by_cases hlt : d < e
    · refine ⟨e - 1, by omega, ?_⟩
      rw [mbrPeer, Nat.mod_eq_of_lt (by omega), if_pos (by omega)]
      omega
    · refine ⟨e, by omega, ?_⟩
      rw [mbrPeer, Nat.mod_eq_of_lt (by omega), if_neg (by omega)]
  refine ⟨zeroDevices n k (n - 1), n - 1, stores_zero hL (by omega) _, ⟨fun _ _ => rfl,
    show (n - 1) * 4 ≤ 2 ^ 31 by omega, ?_⟩, b, hb, fun junk buf hreturns => ?_⟩
  · rintro M' J' ⟨⟩
    exact dvd_of_eq hM.segment_eq
  · obtain ⟨out, hok, _⟩ := hreturns
    have herror := @Coding4Mbr.decode_coded J M n k d b (zeroDevices n k (n - 1)).ncfs F hM hF
      (by omega) junk (hL.2.2 _ junk F hF hle) hdF (hpeer ▸ heF) ⟨hdk, hpeer ▸ hek⟩ buf
    cases herror.symm.trans hok

/-- A block that does not come back from every store. -/
theorem exists_not_returns (hL : L.Configured n k) (hblocks : L.ByBlocks n k)
    (hF : F ⊆ Finset.range n) (hdF : d ∈ F) (hacc : L.Accepts n k F) (h : ¬ L.Repairable n k F d) :
    ∃ s blocks, L.Stores n k s ∧ L.EqualDisks s blocks ∧ ∃ b < blocks, ∀ junk buf,
    ¬ L.Returns s F junk d b buf := by
  have hd := Finset.mem_range.1 (hF hdF)
  have hone : L.raidType ≠ 6 → L.raidType ≠ 1000 → F = {d} := by
    intro h6 h1000
    obtain hcard | ⟨-, h⟩ | ⟨h, -⟩ := hacc
    · exact (Finset.eq_of_subset_of_card_le (Finset.singleton_subset_iff.2 hdF) hcard.le).symm
    · exact absurd h h6
    · exact absurd h h1000
  -- one block of zeros
  have hzero : (∀ M J, L ≠ mbr M J) → (∀ junk buf out,
      L.decode (L.degraded fun _ => 1) ((zeroDevices n k 1).ncfs.fail F junk) d buf 4
        (0 * 4) ≠ .ok out) →
      ∃ s blocks, L.Stores n k s ∧ L.EqualDisks s blocks ∧ ∃ b < blocks, ∀ junk buf,
      ¬ L.Returns s F junk d b buf := by
    intro hmbr hnone
    refine ⟨zeroDevices n k 1, 1, stores_zero hL (by omega) 1,
      ⟨fun _ _ => rfl, show 1 * 4 ≤ 2 ^ 31 by decide, fun M J h => absurd h (hmbr M J)⟩, 0,
      Nat.one_pos, fun junk buf hreturns => ?_⟩
    obtain ⟨out, hok, _⟩ := hreturns
    exact hnone junk buf out hok
  cases L with
  | raid0 =>
      refine hzero (fun _ _ h => CodingLayer.noConfusion h) fun junk buf out hok => ?_
      rw [decode, Coding4Raid0.decode, if_neg (fail_diskStatus_ne_zero hdF)] at hok
      cases hok
  | jbod =>
      refine hzero (fun _ _ h => CodingLayer.noConfusion h) fun junk buf out hok => ?_
      rw [decode, Coding4Jbod.decode, Coding4Raid0.decode, if_neg (fail_diskStatus_ne_zero hdF)]
        at hok
      cases hok
  | raid1 =>
      have hF := hone (by decide) (by decide)
      have hmirror : mirrorDiskId n d = d := not_not.1 fun hne => h ⟨hF, hne⟩
      refine hzero (fun _ _ h => CodingLayer.noConfusion h) fun junk buf out =>
        raid1_decode_ne_ok hdF ?_ _ _ _ out
      rw [show mirrorDiskId (zeroDevices n k 1).ncfs.diskTotalNum d = d from hmirror]
      exact hdF
  | raid4 => exact absurd (hone (by decide) (by decide)) h
  | raid5 => exact absurd (hone (by decide) (by decide)) h
  | raid6 undefinedDisk =>
      obtain ⟨hn, hn'⟩ := hblocks
      obtain ⟨hnot, hpair⟩ := not_or.1 h
      have hcard : F.card = 2 := by
        obtain hcard | ⟨hcard, -⟩ | ⟨hmbr, -⟩ := hacc
        · exact absurd
            (Finset.eq_of_subset_of_card_le (Finset.singleton_subset_iff.2 hdF) hcard.le).symm hnot
        · exact hcard
        · exact absurd hmbr (show 6 ≠ 1000 by decide)
      obtain ⟨f, hfF, hfd⟩ := Finset.exists_mem_ne (show 1 < F.card by omega) d
      have hsub : ({d, f} : Finset ℕ) ⊆ F := Finset.insert_subset hdF
        (Finset.singleton_subset_iff.2 hfF)
      obtain rfl := Finset.eq_of_subset_of_card_le hsub (by rw [hcard, Finset.card_pair hfd.symm])
      exact exists_raid6_lost hn hn' undefinedDisk hd (Finset.mem_range.1 (hF hfF)) hfd fun hnext =>
        hpair ⟨f, hfd, rfl, hnext⟩
  | rs J matrix =>
      have hk : 1 ≤ k := hblocks
      obtain ⟨hkn, hJ, hinv⟩ := hL
      obtain rfl := hone (show 13 ≠ 6 by decide) (show 13 ≠ 1000 by decide)
      refine hzero (fun _ _ h => CodingLayer.noConfusion h) fun junk buf out hok => ?_
      by_cases hlt : k < n
      · -- the disk holds code
        have hkd : k ≤ d := not_lt.1 fun hdk => h ⟨rfl, hdk, hlt⟩
        have hsum : n = k + (n - k) := by omega
        have herror := @Coding4RS.decode_code J matrix k (n - k) 0 d
          (zeroDevices n k 1).ncfs {d} hk rfl hsum
          (hsum ▸ hF) (by rw [Finset.card_singleton]; omega)
            (hsum ▸ hinv {d} hF (by rw [Finset.card_singleton]; omega))
          hdF hkd junk buf
        cases herror.symm.trans hok
      · have hall : ({d} : Finset ℕ) ⊆ Finset.range (zeroDevices n k 1).ncfs.diskTotalNum := hF
        exact rs_decode_ne_ok hall hkn (show n < Finset.card {d} + k by
          rw [Finset.card_singleton]
          omega) hdF _ _ _ out hok
  | mbr M J =>
      have hn := hL.1.pos
      have hle : F.card + k ≤ n := by
        obtain hcard | ⟨-, h6⟩ | ⟨-, hle⟩ := hacc
        · omega
        · exact absurd h6 (show 1000 ≠ 6 by decide)
        · exact hle
      obtain ⟨hdk, hcode⟩ := not_or.1 fun hor => h ⟨hle, hor⟩
      push Not at hcode
      obtain ⟨e, heF, hed, hek⟩ := hcode
      exact exists_mbr_lost hL hblocks hF hle hdF heF hed (not_lt.1 hdk) hek
  | _ => exact hblocks.elim

end Returns

/-! ### Runs of the tool -/

/-- A run of the tool for disk `d` brings it back, when the disks of `F` have failed, in every store
of the layer on equal disks and whatever the new devices hold. -/
def Repairs (L : CodingLayer) (method : RebuildMethod) (n k : ℕ) (F : Finset ℕ) (d : ℕ) : Prop :=
  ∀ s, L.Stores n k s → (∃ blocks, L.EqualDisks s blocks) → ∀ junk mem,
    L.recover method (s.fail F junk) d mem = .ok (s.fail (F.erase d) junk)

section Tool

variable {L : CodingLayer} {n k d : ℕ} {F : Finset ℕ} {s : Devices} {method : RebuildMethod}

/-- The failed disks are counted. -/
theorem failDiskNum_fail (hF : F ⊆ Finset.range s.ncfs.diskTotalNum) (junk : ℕ → ℕ → Byte) :
    (List.range (s.fail F junk).ncfs.diskTotalNum).reverse.foldl (fun num i =>
      if (s.fail F junk).ncfs.diskStatus i ≠ 0 then num + 1 else num) 0 = F.card := by
  have hfailed : failedDisks (s.fail F junk).ncfs = F := by
    ext i
    change i ∈ (Finset.range s.ncfs.diskTotalNum).filter
      (fun i => (if i ∈ F then 1 else 0) ≠ 0) ↔ i ∈ F
    simp only [Finset.mem_filter, ne_eq, ite_eq_right_iff, one_ne_zero, imp_false, not_not]
    exact and_iff_right_of_imp fun hi => hF hi
  have hcount := foldl_failedDiskNum (s.fail F junk).ncfs
  rw [hfailed] at hcount
  rw [← hcount]
  refine (List.reverse_perm _).foldl_eq' (fun i _ j _ num => ?_) 0
  split <;> split <;> rfl

/-- The branches of the tool, by the number of failed disks. -/
theorem recover_fail (L : CodingLayer) (method : RebuildMethod)
    (hF : F ⊆ Finset.range s.ncfs.diskTotalNum) (d : ℕ) (junk : ℕ → ℕ → Byte) (mem : ℕ → Buf) :
    L.recover method (s.fail F junk) d mem =
      if 0 < F.card then
        if F.card = 1 then L.recoverSingle method (s.fail F junk) d mem
        else if F.card = 2 ∧ L.raidType = 6 then L.conventionalRecover (s.fail F junk) d mem
        else if L.raidType = 1000 ∧ (F.card : ℤ) ≤ s.ncfs.diskTotalNum - s.ncfs.dataDiskNum then
          L.conventionalRecover (s.fail F junk) d mem
        else .ok (s.fail F junk)
      else .ok (s.fail F junk) := by
  unfold recover
  simp only [failDiskNum_fail hF]
  rfl

/-- With a number of failed disks that it accepts, the tool runs the loop. -/
theorem recover_of_accepts (hblocks : L.ByBlocks n k) (hs : L.Stores n k s)
    (hF : F ⊆ Finset.range n) (hdF : d ∈ F) (hacc : L.Accepts n k F)
    (hplain : method = .dimakis → L ≠ raid0 ∧ L ≠ jbod) (junk : ℕ → ℕ → Byte) (mem : ℕ → Buf) :
    L.recover method (s.fail F junk) d mem = L.conventionalRecover (s.fail F junk) d mem := by
  obtain ⟨rfl, rfl, -, -⟩ := hs
  rw [recover_fail L method hF, if_pos (Finset.card_pos.2 ⟨d, hdF⟩)]
  by_cases hone : F.card = 1
  · rw [if_pos hone]
    cases method with
    | traditional =>
        rw [recoverSingle, hblocks.recoverOneDisk_eq, Loops.ok_bind]
    | dimakis =>
        have hne := hplain rfl
        cases L with
        | raid0 => exact absurd rfl hne.1
        | jbod => exact absurd rfl hne.2
        | _ => rfl
  · rw [if_neg hone]
    rcases hacc.resolve_left hone with hsix | ⟨hmbr, hle⟩
    · rw [if_pos hsix]
    · rw [if_neg fun h => absurd (hmbr.symm.trans h.2) (by decide), if_pos ⟨hmbr, by omega⟩]

/-- Otherwise it does nothing. -/
theorem recover_of_not_accepts (hs : L.Stores n k s) (hF : F ⊆ Finset.range n) (hdF : d ∈ F)
    (hacc : ¬ L.Accepts n k F) (junk : ℕ → ℕ → Byte) (mem : ℕ → Buf) :
    L.recover method (s.fail F junk) d mem = .ok (s.fail F junk) := by
  obtain ⟨rfl, rfl, -, -⟩ := hs
  obtain ⟨hone, hnot⟩ := not_or.1 hacc
  obtain ⟨hsix, hmbr⟩ := not_or.1 hnot
  rw [recover_fail L method hF, if_pos (Finset.card_pos.2 ⟨d, hdF⟩), if_neg hone,
    if_neg hsix, if_neg]
  rintro ⟨htype, hle⟩
  exact hmbr ⟨htype, by omega⟩

/-- What the tool brings back is accepted. -/
theorem Repairable.accepts (hdF : d ∈ F) (h : L.Repairable n k F d) : L.Accepts n k F := by
  have hone : ∀ {e}, F = {e} → F.card = 1 := fun h => h ▸ Finset.card_singleton _
  cases L with
  | raid1 => exact .inl (hone h.1)
  | raid4 => exact .inl (hone h)
  | raid5 => exact .inl (hone h)
  | raid6 undefinedDisk =>
      rcases h with h | ⟨f, hfd, rfl, -⟩
      · exact .inl (hone h)
      · exact .inr (.inl ⟨Finset.card_pair hfd.symm, rfl⟩)
  | rs J matrix => exact .inl (hone h.1)
  | mbr M J => exact .inr (.inr ⟨rfl, h.1⟩)
  | _ => exact h.elim

/-- RAID0 and JBOD without a loop: the new device stays as it is. -/
theorem not_repairs_plain (hL : L = raid0 ∨ L = jbod) (hF : F ⊆ Finset.range n) (hdF : d ∈ F)
    (hacc : L.Accepts n k F) : ¬ L.Repairs .dimakis n k F d := by
  intro hrep
  have hd := Finset.mem_range.1 (hF hdF)
  have hone : F.card = 1 := by
    obtain hone | ⟨-, h⟩ | ⟨h, -⟩ := hacc
    · exact hone
    · rcases hL with rfl | rfl <;> cases h
    · rcases hL with rfl | rfl <;> cases h
  have hstores : L.Stores n k (zeroDevices n k 1) := by
    rcases hL with rfl | rfl <;> exact ⟨rfl, rfl, show 4 % sizeofInt = 0 from rfl, trivial⟩
  have hequal : L.EqualDisks (zeroDevices n k 1) 1 :=
    ⟨fun _ _ => rfl, show 1 * 4 ≤ 2 ^ 31 by decide,
      fun M J h => by rcases hL with rfl | rfl <;> cases h⟩
  have hrun := hrep _ hstores ⟨1, hequal⟩ (fun _ _ => Byte.ofNat 1) fun _ _ => 0
  have hway : L.recover .dimakis ((zeroDevices n k 1).fail F fun _ _ => Byte.ofNat 1) d
      (fun _ _ => 0) = .ok
        (((zeroDevices n k 1).fail F fun _ _ => Byte.ofNat 1).setDeviceStatus d 0) := by
    rw [recover_fail L .dimakis hF, if_pos (by omega), if_pos hone]
    rcases hL with rfl | rfl <;> rfl
  have hbyte := congrArg (fun x : Devices => x.ncfs.disk d 0) (Except.ok.inj (hway.symm.trans hrun))
  rw [Devices.setDeviceStatus_of_lt (show d < n from hd) (by decide)] at hbyte
  have hzero : Byte.ofNat 1 = 0 := by
    simpa [Devices.fail, NcfsState.fail, hdF, zeroDevices, NcfsState.blank] using hbyte
  exact absurd hzero (by decide)

/-- What `decode` returns is written to the new device. -/
theorem repairs_of_repairable (hL : L.Configured n k) (hblocks : L.ByBlocks n k)
    (hF : F ⊆ Finset.range n) (hdF : d ∈ F) (h : L.Repairable n k F d) :
    L.Repairs method n k F d := by
  intro s hs ⟨blocks, hequal⟩ junk mem
  have hd : d < s.ncfs.diskTotalNum := (Finset.mem_range.1 (hF hdF)).trans_eq hs.total_eq.symm
  have hplain : method = .dimakis → L ≠ raid0 ∧ L ≠ jbod := by
    rintro -
    constructor <;> rintro rfl <;> exact h
  have hsmall : ∀ b < s.diskSize d, b * s.ncfs.diskBlockSize < 2 ^ 31 := by
    intro b hb
    rw [hequal.size_eq d hd] at hb
    exact (Nat.mul_lt_mul_of_pos_right hb s.ncfs.diskBlockSize_pos).trans_le hequal.small
  rw [recover_of_accepts hblocks hs hF hdF (h.accepts hdF) hplain, conventionalRecover,
    recoverBlocks_ok hblocks hdF hsmall fun b _ junk buf =>
    returns_of_repairable hL hblocks hs hF hdF h b junk buf]
  exact congrArg Except.ok (Devices.rewritten_diskSize hd)

/-- **The disks that the tool brings back.**  For every layer whose lost blocks are decoded one by
one, both methods, any failed disks and one of them: the run of the tool ends, in every store of the
layer on equal disks and whatever the new devices hold, with all bytes of the disk as they were and
its status cleared, exactly if the disk is repairable. -/
theorem repairs_iff (L : CodingLayer) (method : RebuildMethod) {n k : ℕ} (hL : L.Configured n k)
    (hblocks : L.ByBlocks n k) {F : Finset ℕ} (hF : F ⊆ Finset.range n) {d : ℕ} (hdF : d ∈ F) :
    L.Repairs method n k F d ↔ L.Repairable n k F d := by
  have hd := Finset.mem_range.1 (hF hdF)
  constructor
  · intro hrep
    by_contra hnot
    by_cases hacc : L.Accepts n k F
    swap
    · -- nothing is done
      have hstores := stores_zero hL (by omega) 0
      have hrun := hrep _ hstores ⟨0, fun _ _ => rfl, show 0 * 4 ≤ 2 ^ 31 by decide,
        fun _ _ _ => dvd_zero _⟩
        (fun _ _ => 0) fun _ _ => 0
      rw [recover_of_not_accepts hstores hF hdF hacc] at hrun
      have hstatus := congrArg (fun x : Devices => x.ncfs.diskStatus d) (Except.ok.inj hrun)
      simp [Devices.fail, fail_diskStatus, hdF] at hstatus
    by_cases hplain : method = .dimakis → L ≠ raid0 ∧ L ≠ jbod
    swap
    · push Not at hplain
      obtain ⟨rfl, hplain⟩ := hplain
      exact not_repairs_plain (by tauto) hF hdF hacc hrep
    obtain ⟨s, blocks, hs, hequal, b, hb, hlost⟩ := exists_not_returns hL hblocks hF hdF hacc hnot
    have hrun := hrep s hs ⟨blocks, hequal⟩ (fun _ _ => 0) fun _ _ => 0
    rw [recover_of_accepts hblocks hs hF hdF hacc hplain] at hrun
    obtain ⟨x, hx, hend⟩ := Loops.bind_eq_ok hrun
    have hblock : ∀ b o, x.ncfs.block d b o = s.ncfs.block d b o := by
      intro b o
      have hsame : x.ncfs.block d b o = (x.setDeviceStatus d 0).ncfs.block d b o := by
        rw [Devices.setDeviceStatus]
        split <;> rfl
      rw [hsame, Except.ok.inj hend]
      exact block_fail (Finset.notMem_erase d F) b o
    have hbd : b < s.diskSize d := by rwa [hequal.size_eq d (hd.trans_eq hs.total_eq.symm)]
    obtain ⟨junk, buf, hreturns⟩ := returns_of_recoverBlocks hblocks hdF hx
      (fun b _ o _ => hblock b o) hbd
    exact hlost junk buf hreturns
  · exact repairs_of_repairable hL hblocks hF hdF

end Tool

/-- RAID6 on six disks, of which two have failed: the tool brings back the first of them and not the
second. -/
theorem repairs_iff_six : (raid6 fun _ _ => 0).Repairs .traditional 6 4 {1, 3} 1 ∧
    ¬ (raid6 fun _ _ => 0).Repairs .traditional 6 4 {1, 3} 3 := by
  constructor
  · exact (repairs_iff (raid6 fun _ _ => 0) .traditional trivial ⟨by decide, by decide⟩ (by decide)
      (by decide)).2
      (.inr ⟨3, by decide, by decide, .inr rfl⟩)
  · refine fun h => ?_
    rcases (repairs_iff (raid6 fun _ _ => 0) .traditional trivial ⟨by decide, by decide⟩ (by decide)
      (by decide)).1 h with
      hone | ⟨f, hf, hpair, hnext⟩
    · exact absurd hone (by decide)
    · have hmem : f ∈ ({1, 3} : Finset ℕ) := hpair ▸ Finset.mem_insert_of_mem
        (Finset.mem_singleton_self f)
      obtain rfl : f = 1 := by simpa [hf] using hmem
      exact absurd hnext (by decide)

end CodingLayer

end Ncfs
