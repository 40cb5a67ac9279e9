/-
**The life of a store.**

A store is mounted, written and read.  Devices fail, the file system goes on in the mode that
`get_operation_mode` computes, or stops; the recovery tool puts new devices in the places of the
failed ones, and the file system is in normal operation again.  Whatever the order of these events,
a read that the file system serves returns what was written last, as long as the layer survives all
failures at once and the tool is only run for disks that it can bring back.

Main definitions:

* `Ncfs.LifeOp`, `Ncfs.lifeStep` — file operations, failures and runs of the tool;
* `Ncfs.LifeOp.Sound` — what is asked of them;
* `Ncfs.Alive` — the invariant: the store is a store without failures, some of whose disks have been
  lost;
* `Ncfs.Mirror.Serves` — reads of whole blocks return what was written last.

Main results:

* `Ncfs.Alive.write`, `Ncfs.Alive.fail`, `Ncfs.Alive.recover` — the steps;
* `Ncfs.always_serves` — all runs.
-/
import FuseMdr.ArrayRecovery
import FuseMdr.DegradedReads

set_option relaxedAutoImplicit false
set_option autoImplicit false

namespace Ncfs

/-! ### The steps -/

/-- Disk `d` is marked as failed, and the device in its place has the bytes `content`. -/
def NcfsState.replaceDevice (st : NcfsState) (diskSize : ℕ → ℕ) (d : ℕ) (content : ℕ → Byte) :
    NcfsState :=
  { st with
    diskStatus := Function.update st.diskStatus d 1
    disk := Function.update st.disk d fun x => if x < diskSize d * st.diskBlockSize then content x
      else st.disk d x }

/-- The devices and their statuses as the recovery tool, a process of its own, has left them. -/
def NcfsState.adopt (st : NcfsState) (s : Devices) : NcfsState :=
  { st with
    diskStatus := fun i => if i < st.diskTotalNum then s.ncfs.diskStatus i else st.diskStatus i
    disk := fun i x =>
      if i < st.diskTotalNum ∧ x < s.diskSize i * st.diskBlockSize then s.ncfs.disk i x
      else st.disk i x }

/-- The state of the devices has changed, and `operation_mode` is computed again, as
`set_device_status` does for the command `set` in the process of the file system.  `indeterminate`
is the value of the variable `mode` where it has been given none. -/
def FsState.remode (L : CodingLayer) (indeterminate : ℕ) (fs : FsState) (st : NcfsState) :
    FsState :=
  { fs with st := st, operationMode := (getOperationMode L.raidType st).getD indeterminate }

/-- What happens to a store. -/
inductive LifeOp where
  /-- An operation of the file system. -/
  | file (op : FileOp)
  /-- A device fails; nothing is known about the bytes on it. -/
  | fail (d : ℕ) (content : ℕ → Byte)
  /-- The recovery tool is run for a disk, with a new device.  `mem` is the memory of its
  buffers. -/
  | recover (method : CodingLayer.RebuildMethod) (d : ℕ) (newdevice : ℕ → Byte) (mem : ℕ → Buf)

/-- The state of the devices after the tool: `main` marks the disk as failed first.  A run that has
no result is not followed further. -/
def recoverDevices (L : CodingLayer) (diskSize : ℕ → ℕ) (st : NcfsState)
    (method : CodingLayer.RebuildMethod) (d : ℕ) (newdevice : ℕ → Byte) (mem : ℕ → Buf) :
    NcfsState :=
  match L.recover method ⟨st.replaceDevice diskSize d newdevice, diskSize⟩ d mem with
  | .ok s => st.adopt s
  | .error _ => st.replaceDevice diskSize d newdevice

/-- One step.  A write that is refused changes no file. -/
def lifeStep (L : CodingLayer) (diskSize : ℕ → ℕ) (indeterminate : ℕ) (s : Mirror) : LifeOp → Mirror
  | .file (.write path buf size offset mem) =>
      let result := ncfsWrite L s.fs path buf size offset mem
      ⟨result.2, if result.1 = size then Function.update s.files path
        ((s.files path).write buf size offset) else s.files⟩
  | .file (.read _ _ _ _ _) => s
  | .fail d content =>
      ⟨s.fs.remode L indeterminate (s.fs.st.replaceDevice diskSize d content), s.files⟩
  | .recover method d newdevice mem =>
      ⟨s.fs.remode L indeterminate (recoverDevices L diskSize s.fs.st method d newdevice mem),
        s.files⟩

/-! ### What is asked of them -/

/-- A run of the tool for disk `d` brings it back when the disks of `F` have failed.  The `Q` disk
of RDP is left out. -/
def CodingLayer.BringsBack (L : CodingLayer) (method : CodingLayer.RebuildMethod) (st : NcfsState)
    (blocks : ℕ) (F : Finset ℕ) (d : ℕ) : Prop :=
  L.ByBlocks st.diskTotalNum st.dataDiskNum ∧ L.Repairable st.diskTotalNum st.dataDiskNum F d ∨
    L.ArrayCode ∧ method = .traditional ∧ F = {d} ∧ L.WholeStrips st st.dataDiskNum d blocks ∧
      ∀ coding, L = .rdp coding → d ≤ st.dataDiskNum

/-- The mode that belongs to the failed disks has a value. -/
def CodingLayer.ModeIsSet (L : CodingLayer) (st : NcfsState) : Prop :=
  (getOperationMode L.raidType st).isSome

/-- What is asked of a step:

* a write in normal operation starts at a block, with nothing behind it in its last block, and
  succeeds;
* a failure leaves disks lost that the layer survives;
* the tool is run for a disk that it brings back. -/
def LifeOp.Sound (L : CodingLayer) (diskSize : ℕ → ℕ) (blocks : ℕ) (s : Mirror) : LifeOp → Prop
  | .file op => s.fs.operationMode = 0 → op.Succeeds L s ∧ op.Aligned L s ∧ op.WholeWords L
  | .fail d content =>
      L.Survives s.fs.st.diskTotalNum s.fs.st.dataDiskNum (insert d (failedDisks s.fs.st)) ∧
        L.ModeIsSet (s.fs.st.replaceDevice diskSize d content)
  | .recover method d newdevice mem => d < s.fs.st.diskTotalNum ∧
      L.BringsBack method s.fs.st blocks (insert d (failedDisks s.fs.st)) d ∧
      L.ModeIsSet (recoverDevices L diskSize s.fs.st method d newdevice mem)

/-- A read of one or two whole blocks of any file that the file system serves returns its size and
what was written last. -/
def Mirror.Serves (L : CodingLayer) (diskSize : ℕ → ℕ) (s : Mirror) : Prop :=
  s.fs.operationMode ≠ 2 → ∀ path f size offset errno buf, s.fs.names path = some f →
    WholeRead L s.fs diskSize f size offset →
      ∃ read, ncfsRead (.ofLayer (L.decode (L.degraded diskSize) s.fs.st)) s.fs.st.diskBlockSize
        (s.fs.info f) s.fs.operationMode errno buf size offset = .ok read ∧
        read.1 = size ∧ ∀ j < size, read.2 j = (s.files path).byte (offset + j)

/-! ### The devices -/

section Devices

variable {L : CodingLayer} {st : NcfsState} {diskSize : ℕ → ℕ} {F : Finset ℕ}
    {junk : ℕ → ℕ → Byte} {d : ℕ}

/-- The bytes of the disks after failures. -/
theorem Devices.fail_disk (s : Devices) (F : Finset ℕ) (junk : ℕ → ℕ → Byte) (i x : ℕ) :
    (s.fail F junk).ncfs.disk i x =
      if i ∈ F ∧ x < s.diskSize i * s.ncfs.diskBlockSize then junk i x else s.ncfs.disk i x := by
  rw [Devices.fail, NcfsState.fail]
  by_cases hi : i ∈ F <;> simp [hi]

theorem failedDisks_fail (hF : F ⊆ Finset.range st.diskTotalNum) :
    failedDisks (Devices.fail ⟨st, diskSize⟩ F junk).ncfs = F := by
  ext i
  change i ∈ (Finset.range st.diskTotalNum).filter (fun i => (if i ∈ F then 1 else 0) ≠ 0) ↔ i ∈ F
  simp only [Finset.mem_filter, ne_eq, ite_eq_right_iff, one_ne_zero, imp_false, not_not]
  exact and_iff_right_of_imp fun hi => hF hi

/-- One more disk fails. -/
theorem replaceDevice_fail (st : NcfsState) (diskSize : ℕ → ℕ) (F : Finset ℕ)
    (junk : ℕ → ℕ → Byte) (d : ℕ) (content : ℕ → Byte) :
    (Devices.fail ⟨st, diskSize⟩ F junk).ncfs.replaceDevice diskSize d content =
      (Devices.fail ⟨st, diskSize⟩ (insert d F) (Function.update junk d content)).ncfs := by
  have hstatus : Function.update (Devices.fail ⟨st, diskSize⟩ F junk).ncfs.diskStatus d 1 =
      (Devices.fail ⟨st, diskSize⟩ (insert d F)
        (Function.update junk d content)).ncfs.diskStatus := by
    funext i
    by_cases hi : i = d
    · subst hi
      simp [Devices.fail, fail_diskStatus]
    · simp [Devices.fail, fail_diskStatus, hi]
  have hdisk : (Function.update (Devices.fail ⟨st, diskSize⟩ F junk).ncfs.disk d fun x =>
      if x < diskSize d * st.diskBlockSize then content x
      else (Devices.fail ⟨st, diskSize⟩ F junk).ncfs.disk d x) =
      (Devices.fail ⟨st, diskSize⟩ (insert d F) (Function.update junk d content)).ncfs.disk := by
    funext i x
    by_cases hi : i = d
    · subst hi
      rw [Function.update_self, Devices.fail_disk, Devices.fail_disk, Function.update_self]
      by_cases hx : x < diskSize i * st.diskBlockSize
      · simp [hx]
      · simp [hx]
    · rw [Function.update_of_ne hi, Devices.fail_disk, Devices.fail_disk, Function.update_of_ne hi]
      simp [hi]
  exact congrArg₂ (fun status disk => ({ st with diskStatus := status, disk := disk } : NcfsState))
    hstatus hdisk

/-- What the tool has left is taken over. -/
theorem adopt_fail {F' : Finset ℕ} {junk' : ℕ → ℕ → Byte} (hF : F ⊆ Finset.range st.diskTotalNum)
    (hF' : F' ⊆ Finset.range st.diskTotalNum) {s : Devices} (hsize : s.diskSize = diskSize)
    (h : (Devices.fail ⟨st, diskSize⟩ F' junk').Agrees s) :
    (Devices.fail ⟨st, diskSize⟩ F junk).ncfs.adopt s =
      (Devices.fail ⟨st, diskSize⟩ F' junk').ncfs := by
  have hnot : ∀ {i}, ¬ i < st.diskTotalNum → i ∉ F ∧ i ∉ F' := fun hi =>
    ⟨fun h => hi (Finset.mem_range.1 (hF h)), fun h => hi (Finset.mem_range.1 (hF' h))⟩
  have hstatus : (fun i => if i < st.diskTotalNum then s.ncfs.diskStatus i else
      (Devices.fail ⟨st, diskSize⟩ F junk).ncfs.diskStatus i) =
      (Devices.fail ⟨st, diskSize⟩ F' junk').ncfs.diskStatus := by
    funext i
    split
    · exact h.status i ‹_›
    · simp [Devices.fail, fail_diskStatus, hnot ‹_›]
  have hdisk : (fun i x => if i < st.diskTotalNum ∧ x < s.diskSize i * st.diskBlockSize then
      s.ncfs.disk i x else
      (Devices.fail ⟨st, diskSize⟩ F junk).ncfs.disk i x) =
        (Devices.fail ⟨st, diskSize⟩ F' junk').ncfs.disk := by
    funext i x
    split
    · rename_i hin
      obtain ⟨hi, hx⟩ := hin
      rw [hsize] at hx
      have hblock := h.block i hi (x / st.diskBlockSize)
        (Nat.div_lt_of_lt_mul (by rwa [Nat.mul_comm]))
        (x % st.diskBlockSize) (Nat.mod_lt x st.diskBlockSize_pos)
      rw [NcfsState.block, NcfsState.block, h.block_eq] at hblock
      change s.ncfs.disk i (x / st.diskBlockSize * st.diskBlockSize + x % st.diskBlockSize) =
        (Devices.fail ⟨st, diskSize⟩ F' junk').ncfs.disk i
          (x / st.diskBlockSize * st.diskBlockSize + x % st.diskBlockSize) at hblock
      rwa [Nat.div_add_mod'] at hblock
    · rename_i hout
      rw [hsize] at hout
      rw [Devices.fail_disk, Devices.fail_disk]
      by_cases hi : i < st.diskTotalNum
      · have hx : ¬ x < diskSize i * st.diskBlockSize := fun hx => hout ⟨hi, hx⟩
        rw [if_neg fun h => hx h.2, if_neg fun h => hx h.2]
      · rw [if_neg fun h => (hnot hi).1 h.1, if_neg fun h => (hnot hi).2 h.1]
  exact congrArg₂ (fun status disk => ({ st with diskStatus := status, disk := disk } : NcfsState))
    hstatus hdisk

end Devices

/-! ### The failed disks -/

section Survive

variable {L : CodingLayer} {n k : ℕ} {F F' : Finset ℕ} {st : NcfsState}
    {method : CodingLayer.RebuildMethod}

/-- With failed disks the mode is degraded or stopped. -/
theorem mode_of_failed {diskRaidType mode : ℕ} (h : failedDisks st ≠ ∅)
    (hmode : getOperationMode diskRaidType st = some mode) : mode = 1 ∨ mode = 2 := by
  have hcard : ¬ (failedDisks st).card = 0 := fun h' => h (Finset.card_eq_zero.1 h')
  rw [getOperationMode] at hmode
  simp only [CodingLayer.foldl_failedDiskNum, if_neg hcard] at hmode
  repeat' split at hmode
  all_goals simp_all

/-- No failure is survived. -/
theorem CodingLayer.survives_empty (hL : L.Configured n k) : L.Survives n k ∅ := by
  refine ⟨Finset.empty_subset _, ?_, fun _ _ => by decide⟩
  cases L with
  | raid6 undefinedDisk => exact .inl (Nat.zero_le 1)
  | rs J matrix => exact (Nat.zero_add k).trans_le hL.1
  | srcRs J matrix srcF => exact .inl nofun
  | mbr M J =>
      have hk := hL.1.pos.2
      exact (Nat.zero_add k).trans_le hk.le
  | raid6noRotate undefinedDisk => exact .inl nofun
  | mdr1 coding => exact .inl (Nat.zero_le 1)
  | evenodd coding => exact .inl (Nat.zero_le 1)
  | rdp coding => exact .inl (Nat.zero_le 1)
  | raid4 => exact Nat.zero_le 1
  | raid5 => exact Nat.zero_le 1
  | raid1 => exact nofun
  | raid0 => rfl
  | jbod => rfl

/-- What survives failures survives some of them. -/
theorem CodingLayer.Survives.mono (h : L.Survives n k F) (hF' : F' ⊆ F)
    (hlayer : ∀ undefinedDisk, L ≠ .raid6noRotate undefinedDisk) : L.Survives n k F' := by
  have hcard := Finset.card_le_card hF'
  refine ⟨hF'.trans h.subset, ?_, fun undefinedDisk h => absurd h (hlayer undefinedDisk)⟩
  have htol := h.tolerates
  have hempty : F = ∅ → F' = ∅ := fun h => Finset.subset_empty.1 (h ▸ hF')
  cases L with
  | raid0 => exact hempty htol
  | jbod => exact hempty htol
  | raid1 => exact fun d hd hdF hmirror => htol d hd (hF' hdF) (hF' hmirror)
  | raid4 => exact hcard.trans htol
  | raid5 => exact hcard.trans htol
  | raid6 undefinedDisk => exact htol.imp hcard.trans (And.imp_left hcard.trans)
  | rs J matrix => exact (Nat.add_le_add_right hcard k).trans htol
  | mbr M J => exact (Nat.add_le_add_right hcard k).trans htol
  | srcRs J matrix srcF =>
      exact htol.imp (fun h d hd hk b place hplace hlost => h d (hF' hd) hk b place hplace
        (hF' hlost)) fun h => (Nat.add_le_add_right hcard k).trans h
  | raid6noRotate undefinedDisk => exact absurd rfl (hlayer undefinedDisk)
  | mdr1 coding => exact htol.imp hcard.trans fun h d hd => h d (hF' hd)
  | evenodd coding => exact htol.imp hcard.trans fun h d hd => h d (hF' hd)
  | rdp coding => exact htol.imp hcard.trans fun h d hd => h d (hF' hd)

end Survive

/-! ### The invariant -/

/-- The store `st` has no failures, satisfies the equations of its layer and holds the files; the
devices are as in this store, but for the disks of `F`, which the layer survives. -/
structure Lost (L : CodingLayer) (n k bs : ℕ) (diskSize : ℕ → ℕ) (s : Mirror) (st : NcfsState)
    (F : Finset ℕ) (junk : ℕ → ℕ → Byte) : Prop where
  /-- The store without failures. -/
  whole : EncodedMirror L n k bs ⟨{ s.fs with st := st, operationMode := 0 }, s.files⟩
  /-- The failures. -/
  survives : L.Survives n k F
  /-- The devices. -/
  st_eq : s.fs.st = (Devices.fail ⟨st, diskSize⟩ F junk).ncfs
  /-- Normal operation. -/
  normal : F = ∅ → s.fs.operationMode = 0
  /-- Degraded operation, or none. -/
  degraded : F ≠ ∅ → s.fs.operationMode = 1 ∨ s.fs.operationMode = 2

/-- Some disks of a store have been lost. -/
def Alive (L : CodingLayer) (n k bs : ℕ) (diskSize : ℕ → ℕ) (s : Mirror) : Prop :=
  ∃ st F junk, Lost L n k bs diskSize s st F junk

section Steps

variable {L : CodingLayer} {n k bs : ℕ} {diskSize : ℕ → ℕ} {s : Mirror} {indeterminate blocks : ℕ}

/-- Without failures the store is the store. -/
theorem Lost.eq_of_empty {st : NcfsState} {junk : ℕ → ℕ → Byte}
    (h : Lost L n k bs diskSize s st ∅ junk) :
    EncodedMirror L n k bs s := by
  have hstatus : st.diskStatus = fun _ => 0 := funext h.whole.status_eq
  have hst : s.fs.st = st := by
    rw [h.st_eq, Devices.fail, NcfsState.fail]
    simp [← hstatus]
  have hwhole := h.whole
  rw [← hst, ← h.normal rfl] at hwhole
  exact hwhole

theorem alive_of_encoded (hL : L.Configured n k) (h : EncodedMirror L n k bs s) :
    Alive L n k bs diskSize s := by
  have hstatus : s.fs.st.diskStatus = fun _ => 0 := funext h.status_eq
  refine ⟨s.fs.st, ∅, fun _ _ => 0, ?_, CodingLayer.survives_empty hL, ?_, fun _ => h.mode_eq,
    fun h => absurd rfl h⟩
  · have hmode := h.mode_eq
    rw [← hmode]
    exact h
  · rw [Devices.fail, NcfsState.fail]
    simp [← hstatus]

/-- Other disks of the same store have been lost. -/
theorem Lost.remode {st st' : NcfsState} {F F' : Finset ℕ} {junk junk' : ℕ → ℕ → Byte}
    (h : Lost L n k bs diskSize s st F junk) (hF' : L.Survives n k F')
    (hst' : st' = (Devices.fail ⟨st, diskSize⟩ F' junk').ncfs) (hmode : L.ModeIsSet st') :
    Lost L n k bs diskSize ⟨s.fs.remode L indeterminate st', s.files⟩ st F' junk' := by
  have hfailed : failedDisks st' = F' := by
    rw [hst']
    refine failedDisks_fail ?_
    rw [show st.diskTotalNum = n from h.whole.total_eq]
    exact hF'.subset
  obtain ⟨mode, hmode⟩ := Option.isSome_iff_exists.1 hmode
  have hvalue : (s.fs.remode L indeterminate st').operationMode = mode := by
    rw [FsState.remode]
    simp only [hmode, Option.getD_some]
  refine ⟨h.whole, hF', hst', fun hempty => ?_, fun hne => ?_⟩
  · dsimp only
    rw [hvalue]
    exact Option.some.inj
      (hmode.symm.trans (CodingLayer.mode_normal L.raidType (hfailed.trans hempty)))
  · dsimp only
    rw [hvalue]
    exact mode_of_failed (hfailed.trans_ne hne) hmode

/-- Reads. -/
theorem Alive.serves (hL : L.Configured n k) (hwords : bs % sizeofInt = 0)
    (hsmall : bs ≤ sysblocksize) (h : Alive L n k bs diskSize s) : s.Serves L diskSize := by
  obtain ⟨st, F, junk, h⟩ := h
  intro hmode path f size offset errno buf hf hread
  have hst := h.st_eq
  obtain ⟨junk', hjunk'⟩ := Devices.fail_ncfs ⟨st, diskSize⟩ F junk
  rw [hjunk'] at hst
  have hread' : WholeRead L { s.fs with st := st, operationMode := 0 } diskSize f size offset := by
    have hblock : s.fs.st.diskBlockSize = st.diskBlockSize := by rw [hst]; rfl
    have htotal : s.fs.st.diskTotalNum = st.diskTotalNum := by rw [hst]; rfl
    obtain ⟨hpos, hat, hwhole, hspan, hmapped⟩ := hread
    rw [hblock] at hat hwhole hspan hmapped
    rw [htotal] at hmapped
    exact ⟨hpos, hat, hwhole, hspan, hmapped⟩
  rw [hst]
  exact h.whole.degradedRead hL hwords hsmall h.survives junk' hf hread' hmode errno buf

/-- The file system writes in normal operation, and refuses to write otherwise. -/
theorem Alive.write (hL : L.Configured n k) (hbytes : L.ByteMatrix) (hwords : bs % sizeofInt = 0)
    (hsmall : bs ≤ sysblocksize) (h : Alive L n k bs diskSize s) {op : FileOp}
    (hop : (LifeOp.file op).Sound L diskSize blocks s) :
    Alive L n k bs diskSize (lifeStep L diskSize indeterminate s (.file op)) := by
  cases op with
  | read path buf size offset errno => exact h
  | write path buf size offset mem =>
      obtain ⟨st, F, junk, h⟩ := h
      by_cases hF : F = ∅
      · subst hF
        obtain ⟨hok, haligned, hwhole⟩ := hop (h.normal rfl)
        have hwrite := h.eq_of_empty.write hL hbytes hwords hsmall haligned hwhole hok
        have hstep : lifeStep L diskSize indeterminate s (.file (.write path buf size offset mem)) =
            fileStep L s (.write path buf size offset mem) := by
          have hok' : (ncfsWrite L s.fs path buf size offset mem).1 = size := hok
          rw [lifeStep, fileStep, if_pos hok']
        rw [hstep]
        exact alive_of_encoded hL hwrite
      · have hrefused : ncfsWrite L s.fs path buf size offset mem = (-1, s.fs) :=
          if_pos (h.degraded hF)
        have hstep : lifeStep L diskSize indeterminate s
            (.file (.write path buf size offset mem)) = s := by
          rw [lifeStep, hrefused, if_neg (by omega)]
        rw [hstep]
        exact ⟨st, F, junk, h⟩

/-- A device fails. -/
theorem Alive.fail (h : Alive L n k bs diskSize s) {d : ℕ} {content : ℕ → Byte}
    (hop : (LifeOp.fail d content).Sound L diskSize blocks s) :
    Alive L n k bs diskSize (lifeStep L diskSize indeterminate s (.fail d content)) := by
  obtain ⟨st, F, junk, h⟩ := h
  have hst := h.st_eq
  obtain ⟨hsurvives, hmode⟩ := hop
  have htotal : st.diskTotalNum = n := h.whole.total_eq
  have hdata : st.dataDiskNum = k := h.whole.data_eq
  rw [hst, failedDisks_fail (htotal ▸ h.survives.subset)] at hsurvives
  have hsurvives : L.Survives n k (insert d F) := by
    rw [← htotal, ← hdata]
    exact hsurvives
  refine ⟨st, insert d F, Function.update junk d content, h.remode hsurvives ?_ hmode⟩
  rw [hst]
  exact replaceDevice_fail st diskSize F junk d content

/-- What the tool makes of the devices. -/
theorem recover_agrees {F : Finset ℕ} {method : CodingLayer.RebuildMethod} {d : ℕ}
    (hL : L.Configured n k) (hwords : bs % sizeofInt = 0) (hs : EncodedMirror L n k bs s)
    (hblocks : L.EqualDisks ⟨s.fs.st, diskSize⟩ blocks) (hF : F ⊆ Finset.range n) (hdF : d ∈ F)
    (hback : L.BringsBack method s.fs.st blocks F d) (junk : ℕ → ℕ → Byte) (mem : ℕ → Buf) :
    ∃ s', L.recover method (Devices.fail ⟨s.fs.st, diskSize⟩ F junk) d mem = .ok s' ∧
    s'.diskSize = diskSize ∧
      (Devices.fail ⟨s.fs.st, diskSize⟩ (F.erase d) junk).Agrees s' := by
  have hd : d < n := Finset.mem_range.1 (hF hdF)
  have htotal : s.fs.st.diskTotalNum = n := hs.total_eq
  have hdata : s.fs.st.dataDiskNum = k := hs.data_eq
  have hblock : s.fs.st.diskBlockSize = bs := hs.block_eq
  rcases hback with ⟨hby, hrep⟩ | ⟨harray, rfl, rfl, hstrips, -⟩
  · -- block by block
    rw [htotal, hdata] at hby hrep
    have hencoded : L.Encoded s.fs.st := by
      have hkept := hs.kept
      cases L with
      | rdp coding => exact hby.elim
      | _ => exact hkept
    have hstores : L.Stores n k ⟨s.fs.st, diskSize⟩ :=
      ⟨htotal, hdata, hblock.symm ▸ hwords, hencoded⟩
    refine ⟨_, CodingLayer.repairs_of_repairable hL hby hF hdF hrep _ hstores
      ⟨blocks, hblocks⟩ junk mem, rfl, ?_⟩
    exact ⟨rfl, fun _ _ => rfl, fun _ _ _ _ _ _ => rfl⟩
  · -- strip by strip
    have hsizes : ∀ i < n, diskSize i = blocks := htotal ▸ hblocks.size_eq
    have hfits : ∀ i < blocks, i * s.fs.st.diskBlockSize < 2 ^ 31 := fun i hi =>
      (Nat.mul_lt_mul_of_pos_right hi s.fs.st.diskBlockSize_pos).trans_le hblocks.small
    have hlast : (blocks - 1) * s.fs.st.diskBlockSize < 2 ^ 31 := by
      rcases Nat.eq_zero_or_pos blocks with rfl | hpos
      · rw [Nat.zero_sub, Nat.zero_mul]
        exact Nat.two_pow_pos 31
      · exact hfits _ (by omega)
    rw [hdata] at hstrips
    obtain ⟨s', hrun, hagrees⟩ :=
      (CodingLayer.recoverOneDisk_agrees_iff (s := ⟨s.fs.st, diskSize⟩) hL harray htotal hdata
        hs.kept hsizes hd hlast junk).2 hstrips
    have hrun' : L.recover .traditional
        (Devices.fail ⟨s.fs.st, diskSize⟩ {d} junk) d mem = .ok s' :=
      (CodingLayer.recover_array harray (hd.trans_eq htotal.symm)).2
        ⟨hrun, fun i hi => hfits i (hi.trans_eq (hsizes d hd))⟩
    obtain ⟨s₁, hlater, rfl⟩ := harray.recoverOneDisk_later hrun
    refine ⟨_, hrun', ?_, by rwa [Finset.erase_singleton]⟩
    have hsize : (s₁.setDeviceStatus d 0).diskSize = s₁.diskSize := by
      rw [Devices.setDeviceStatus]
      split <;> rfl
    exact hsize.trans hlater.size_eq

/-- What is brought back does not depend on the bytes on the devices. -/
theorem CodingLayer.BringsBack.of_fail {st : NcfsState} {F F' : Finset ℕ} {junk : ℕ → ℕ → Byte}
    {method : CodingLayer.RebuildMethod} {d : ℕ}
    (h : L.BringsBack method (Devices.fail ⟨st, diskSize⟩ F junk).ncfs blocks F' d) :
    L.BringsBack method st blocks F' d := by
  refine h.imp id fun ⟨harray, hmethod, hF, hstrips, hrdp⟩ => ⟨harray, hmethod, hF, ?_, hrdp⟩
  cases L with
  | mdr1 coding => exact hstrips
  | evenodd coding => exact hstrips
  | rdp coding => exact ⟨hstrips.1, fun hq => absurd (hrdp coding rfl) (by
      change ¬ d ≤ st.dataDiskNum
      have hq' : d = st.dataDiskNum + 1 := hq
      omega)⟩
  | _ => exact harray.elim

/-- The tool brings back a disk. -/
theorem Alive.recover (hL : L.Configured n k) (hwords : bs % sizeofInt = 0)
    (hdisks : ∀ st : NcfsState, st.diskTotalNum = n → st.diskBlockSize = bs → L.EqualDisks
      ⟨st, diskSize⟩ blocks)
    (h : Alive L n k bs diskSize s) {method : CodingLayer.RebuildMethod} {d : ℕ}
    {newdevice : ℕ → Byte} {mem : ℕ → Buf}
    (hop : (LifeOp.recover method d newdevice mem).Sound L diskSize blocks s) :
    Alive L n k bs diskSize
      (lifeStep L diskSize indeterminate s (.recover method d newdevice mem)) := by
  obtain ⟨st, F, junk, h⟩ := h
  have hst := h.st_eq
  have htotal : st.diskTotalNum = n := h.whole.total_eq
  have hrange : F ⊆ Finset.range st.diskTotalNum := htotal ▸ h.survives.subset
  obtain ⟨hd, hback, hmode⟩ := hop
  rw [hst, failedDisks_fail hrange] at hback
  rw [hst] at hd
  have hdF := Finset.mem_insert_self d F
  have hrange' : insert d F ⊆ Finset.range st.diskTotalNum :=
    Finset.insert_subset (Finset.mem_range.2 hd) hrange
  have hlayer : ∀ undefinedDisk, L ≠ .raid6noRotate undefinedDisk := by
    rintro undefinedDisk rfl
    rcases hback with ⟨hby, -⟩ | ⟨harray, -⟩
    · exact hby
    · exact harray
  obtain ⟨s', hrun, hsize, hagrees⟩ := recover_agrees hL hwords h.whole
    (hdisks st htotal h.whole.block_eq)
    (htotal ▸ hrange') hdF hback.of_fail (Function.update junk d newdevice) mem
  have hdevices : recoverDevices L diskSize s.fs.st method d newdevice mem =
      (Devices.fail ⟨st, diskSize⟩ ((insert d F).erase d)
        (Function.update junk d newdevice)).ncfs := by
    have hstart : (⟨s.fs.st.replaceDevice diskSize d newdevice, diskSize⟩ : Devices) =
        Devices.fail ⟨st, diskSize⟩ (insert d F) (Function.update junk d newdevice) := by
      rw [hst, replaceDevice_fail]
      rfl
    rw [recoverDevices, hstart, hrun, hst]
    exact adopt_fail hrange ((Finset.erase_subset _ _).trans hrange') hsize hagrees
  exact ⟨st, _, _, h.remode (h.survives.mono (Finset.erase_insert_subset d F) hlayer)
    hdevices hmode⟩

/-- Every sound step. -/
theorem Alive.step (hL : L.Configured n k) (hbytes : L.ByteMatrix) (hwords : bs % sizeofInt = 0)
    (hsmall : bs ≤ sysblocksize)
    (hdisks : ∀ st : NcfsState, st.diskTotalNum = n → st.diskBlockSize = bs → L.EqualDisks
      ⟨st, diskSize⟩ blocks)
    (h : Alive L n k bs diskSize s) {op : LifeOp} (hop : op.Sound L diskSize blocks s) :
    Alive L n k bs diskSize (lifeStep L diskSize indeterminate s op) := by
  cases op with
  | file op => exact h.write hL hbytes hwords hsmall hop
  | fail d content => exact h.fail hop
  | recover method d newdevice mem => exact h.recover hL hwords hdisks hop

/-- A store without failed disks is whole. -/
theorem Alive.kept (h : Alive L n k bs diskSize s) (hnone : failedDisks s.fs.st = ∅) :
    s.fs.operationMode = 0 ∧ L.Kept s.fs.st := by
  obtain ⟨st, F, junk, h⟩ := h
  have hrange : F ⊆ Finset.range st.diskTotalNum := by
    rw [show st.diskTotalNum = n from h.whole.total_eq]
    exact h.survives.subset
  rw [h.st_eq, failedDisks_fail hrange] at hnone
  subst hnone
  exact ⟨h.normal rfl, h.eq_of_empty.kept⟩

end Steps

/-- **The life of a store.**  From zero disks of one size, for every layer and its parameters: in
every run of aligned writes, reads, failures that the layer survives and runs of the recovery tool
for disks that it brings back, in every order, the file system serves in every state what was
written last, and a state without failed disks is in normal operation and satisfies the equations of
the layer. -/
theorem always_serves (L : CodingLayer) {st : NcfsState}
    (hL : L.Configured st.diskTotalNum st.dataDiskNum) (_ : L.Runnable st.dataDiskNum)
    (hbytes : L.ByteMatrix) (hfits : L.Fits st) (hn : 0 < st.diskTotalNum)
    (hwords : st.diskBlockSize % sizeofInt = 0)
    (hsmall : st.diskBlockSize ≤ sysblocksize) (hlist : st.spaceList = [])
    (hstatus : ∀ d, st.diskStatus d = 0)
    (hzero : ∀ d x, st.disk d x = 0) {diskSize : ℕ → ℕ} {blocks : ℕ}
    (hdisks : L.EqualDisks ⟨st, diskSize⟩ blocks) (indeterminate : ℕ) {ops : List LifeOp}
    (hops : Machine.AllSteps (lifeStep L diskSize indeterminate) (LifeOp.Sound L diskSize blocks)
      ⟨.mounted st, fun _ => .empty⟩ ops) :
    Machine.Always (lifeStep L diskSize indeterminate)
      (fun s => s.Serves L diskSize ∧
        (failedDisks s.fs.st = ∅ → s.fs.operationMode = 0 ∧ L.Kept s.fs.st))
      ⟨.mounted st, fun _ => .empty⟩ ops := by
  have hequal : ∀ st' : NcfsState, st'.diskTotalNum = st.diskTotalNum →
      st'.diskBlockSize = st.diskBlockSize → L.EqualDisks ⟨st', diskSize⟩ blocks :=
      fun st' htotal hblock =>
    ⟨fun i hi => hdisks.size_eq i (hi.trans_eq htotal), hblock ▸ hdisks.small, hdisks.segments⟩
  have hstart : Alive L st.diskTotalNum st.dataDiskNum st.diskBlockSize diskSize
      ⟨.mounted st, fun _ => .empty⟩ :=
    alive_of_encoded hL (encodedMirror_mounted hL hn hlist hstatus hzero hfits)
  have hstep : ∀ s op, Alive L st.diskTotalNum st.dataDiskNum st.diskBlockSize diskSize s →
      op.Sound L diskSize blocks s →
      Alive L st.diskTotalNum st.dataDiskNum st.diskBlockSize diskSize
        (lifeStep L diskSize indeterminate s op) :=
    fun _ _ h hop => h.step hL hbytes hwords hsmall hequal hop
  exact (hops.always hstep hstart).mono fun s h => ⟨h.serves hL hwords hsmall, h.kept⟩

/-- RAID5 on three disks: two blocks are written, a disk fails, a write is refused, and the tool
brings back the disk. -/
theorem always_serves_three :
    Machine.Always (lifeStep .raid5 (fun _ => 4) 0)
      (fun s => s.Serves .raid5 (fun _ => 4) ∧
        (failedDisks s.fs.st = ∅ → s.fs.operationMode = 0 ∧ CodingLayer.raid5.Kept s.fs.st))
      ⟨.mounted (.blank 3 2 4 fourBytes_pos 4), fun _ => .empty⟩
      [.file (.write "/a" (fun _ => 7) 8 0 fun _ => 0), .fail 1 fun _ => 9,
        .file (.write "/a" (fun _ => 3) 5 1 fun _ => 0), .recover .dimakis 1
          (fun _ => 5) fun _ _ => 0] := by
  have hdisks : CodingLayer.raid5.EqualDisks ⟨.blank 3 2 4 fourBytes_pos 4, fun _ => 4⟩ 4 :=
    ⟨fun _ _ => rfl, show 4 * 4 ≤ 2 ^ 31 by decide, nofun⟩
  have hfits : CodingLayer.raid5.Fits (.blank 3 2 4 fourBytes_pos 4) := show 2 ≤ 3 by decide
  refine always_serves .raid5 trivial trivial trivial hfits (show 0 < 3 by decide) rfl
    (show 4 ≤ sysblocksize by decide) rfl (fun _ => rfl) (fun _ _ => rfl) hdisks 0
      ⟨?_, ?_, ?_, ?_, trivial⟩
  · refine fun _ =>
      ⟨by decide +kernel, ⟨by decide, by decide, fun _ _ _ => rfl, ?_, fun _ =>
        ⟨?_, fun _ => trivial⟩⟩, trivial⟩
    · exact .of_next 4 rfl (show _ = some (0, 0) by decide +kernel) (by decide) (by decide) trivial
    · exact .of_next 4 (by decide +kernel) (show _ = some (1, 0) by decide +kernel) (by decide)
        (by decide) trivial
  · exact ⟨⟨by decide +kernel, show Finset.card _ ≤ 1 by decide +kernel, nofun⟩,
      show Option.isSome _ by decide +kernel⟩
  · exact fun hmode => absurd hmode (by decide +kernel)
  · exact ⟨show 1 < 3 by decide, .inl ⟨trivial, show _ = {1} by decide +kernel⟩,
      show Option.isSome _ by decide +kernel⟩

end Ncfs
