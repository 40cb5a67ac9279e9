/-
**The operation mode.**

When the file system is mounted, and whenever the status of a disk changes, `get_operation_mode`
decides between normal (0), degraded (1) and stopped (2) operation.  It counts the failed disks and
compares the count with what it takes the code to survive.  Here the mode is compared with what
`decode` of the layer really recovers.

Three of its tests miss.  For Reed-Solomon and simple regenerating codes the number of data disks is
not that of the configuration but the constant `data_disk_num` of `enum param_type`; for two failed
disks the mode is set under RAID6 only; and MDR-I, EVENODD and RDP, which survive one failure, are
not among the codes that operate with one.

Main definitions:

* `Ncfs.getOperationMode` — `get_operation_mode`;
* `Ncfs.CodingLayer.ModeMatches` — the mode says what `decode` recovers;
* `Ncfs.CodingLayer.ModeRight` — the numbers of disks and the failed disks for which it does.

Main results:

* `Ncfs.CodingLayer.modeMatches_iff` — the two agree.
-/
import FuseMdr.FaultTolerance

set_option relaxedAutoImplicit false
set_option autoImplicit false

namespace Ncfs

/-! ### The functions -/

/-- `enum param_type`, the keys of the configuration file. -/
inductive ParamType
  | illegalParam | diskTotalNum | dataDiskNum | diskBlockSize | diskRaidType | spaceListNum
  | freeOffset | freeSize | devName | noCache | noGui | runExperiment
  deriving DecidableEq, Repr

/-- The value of an enumerator. -/
def ParamType.value : ParamType → ℕ
  | illegalParam => 0
  | diskTotalNum => 1
  | dataDiskNum => 2
  | diskBlockSize => 3
  | diskRaidType => 4
  | spaceListNum => 5
  | freeOffset => 6
  | freeSize => 7
  | devName => 8
  | noCache => 9
  | noGui => 10
  | runExperiment => 11

/-- The disks whose status is not 0. -/
def failedDisks (st : NcfsState) : Finset ℕ :=
  (Finset.range st.diskTotalNum).filter (st.diskStatus · ≠ 0)

/-- `get_operation_mode`: the value that is stored as `operation_mode`, if the variable `mode` has
been given one.  What is printed is left out. -/
def getOperationMode (diskRaidType : ℕ) (st : NcfsState) : Option ℕ :=
  let diskTotalNum := st.diskTotalNum
  let failedDiskNum : ℕ := (List.range diskTotalNum).foldl (fun num i =>
    if st.diskStatus i ≠ 0 then num + 1 else num) 0
  if failedDiskNum = 0 then some 0
  else if diskRaidType = 1000 then
    if (failedDiskNum : ℤ) ≤ diskTotalNum - st.dataDiskNum then some 1 else some 2
  -- `data_disk_num` without `ncfs_data->` is an enumerator
  else if diskRaidType = 13 then
    if (failedDiskNum : ℤ) ≤ diskTotalNum - ParamType.dataDiskNum.value then some 1 else some 2
  else if diskRaidType = 130 then
    if (failedDiskNum : ℤ) ≤ diskTotalNum - ParamType.dataDiskNum.value then some 1 else some 2
  else if failedDiskNum = 1 then
    -- the loop that looks for the failed disk leaves `i` behind the last one
    let i : ℤ := diskTotalNum
    if diskRaidType = 4 then some 1
    else if diskRaidType = 5 then some 1
    else if diskRaidType = 6 then some 1
    else if diskRaidType = 1 ∧ i ≠ diskTotalNum - 1 - i then some 1
    else some 2
  else if failedDiskNum = 2 then
    if diskRaidType = 6 then some 1 else none
  else some 2

namespace CodingLayer

/-- The number in the configuration for which the layer is made. -/
def raidType : CodingLayer → ℕ
  | raid0 => 0
  | raid1 => 1
  | raid4 => 4
  | raid5 => 5
  | raid6 _ => 6
  | rs _ _ => 13
  | srcRs _ _ _ => 130
  | jbod => 100
  | mbr _ _ => 1000
  | mdr1 _ => 61
  | raid6noRotate _ => 62
  | evenodd _ => 63
  | rdp _ => 64

/-! ### The two sides -/

/-- The mode is normal when no disk has failed, degraded when some have and `decode` recovers all
data, and stopped when it does not. -/
structure ModeMatches (L : CodingLayer) (st : NcfsState) : Prop where
  /-- `mode` has one of the three values. -/
  isSet : ∃ mode, getOperationMode L.raidType st = some mode ∧ mode ≤ 2
  /-- Normal. -/
  normal : getOperationMode L.raidType st = some 0 ↔ failedDisks st = ∅
  /-- Degraded. -/
  degraded : getOperationMode L.raidType st = some 1 ↔
    failedDisks st ≠ ∅ ∧ L.Recovers st.diskTotalNum st.dataDiskNum (failedDisks st)
  /-- Stopped. -/
  stopped : getOperationMode L.raidType st = some 2 ↔
    failedDisks st ≠ ∅ ∧ ¬ L.Recovers st.diskTotalNum st.dataDiskNum (failedDisks st)

/-- Some disks have failed, and the mode is right for them:

* RAID0, JBOD, RAID4, RAID5: any but two;
* RAID1: one, or at least three with both disks of a pair among them;
* RAID6: any but two of more than ten;
* Reed-Solomon: not a number between what the code survives and what it would survive with two data
  disks;
* simple regenerating codes: the same, where the code survives also failures that leave the walks of
  the lost blocks intact;
* MBR: any;
* MDR-I, EVENODD, RDP: at least three;
* RAID6 without rotation: at least three, or one data disk of not three disks. -/
def ModeRightFor : CodingLayer → ℕ → ℕ → Finset ℕ → Prop
  | raid0, _, _, F | jbod, _, _, F | raid4, _, _, F | raid5, _, _, F => F.card ≠ 2
  | raid1, n, _, F => F.card = 1 ∨ 3 ≤ F.card ∧ ∃ d < n / 2, d ∈ F ∧ mirrorDiskId n d ∈ F
  | raid6 _, n, _, F => F.card = 2 → n ≤ 10
  | rs _ _, n, k, F => F.card + max 2 k ≤ n ∨ n < F.card + min 2 k
  | srcRs _ _ srcF, n, k, F =>
      F.card + 2 ≤ n ∧ ((∀ d ∈ F, d < k → ∀ b, ChainWorks n srcF F d b) ∨ F.card + k ≤ n) ∨
        n < F.card + 2 ∧ n < F.card + k ∧ ∃ d ∈ F, d < k ∧ ∃ b, ¬ ChainWorks n srcF F d b
  | mbr _ _, _, _, _ => True
  | mdr1 _, _, _, F | evenodd _, _, _, F | rdp _, _, _, F => 3 ≤ F.card
  | raid6noRotate _, n, _, F => 3 ≤ F.card ∨ F.card = 1 ∧ n ≠ 3 ∧ ∃ d ∈ F, d < n - 2

/-- The failed disks for which the mode is right. -/
def ModeRight (L : CodingLayer) (n k : ℕ) (F : Finset ℕ) : Prop := F = ∅ ∨ L.ModeRightFor n k F

/-! ### The mode by the number of failed disks -/

section Mode

variable {st : NcfsState} {diskRaidType : ℕ}

/-- The loop counts the failed disks. -/
theorem foldl_failedDiskNum (st : NcfsState) :
    (List.range st.diskTotalNum).foldl
      (fun num i => if st.diskStatus i ≠ 0 then num + 1 else num) 0 =
      (failedDisks st).card := by
  have hfold : ∀ (l : List ℕ) (c : ℕ),
      l.foldl (fun num i => if st.diskStatus i ≠ 0 then num + 1 else num) c = c + (l.filter fun i =>
        decide (st.diskStatus i ≠ 0)).length := by
    intro l
    induction l with
    | nil => exact fun c => rfl
    | cons i l ih =>
        intro c
        rw [List.foldl_cons, ih, List.filter_cons]
        by_cases hi : st.diskStatus i ≠ 0
        · rw [if_pos hi, if_pos (decide_eq_true hi), List.length_cons]
          omega
        · rw [if_neg hi, if_neg (by rwa [decide_eq_true_eq])]
  rw [hfold, Nat.zero_add, ← List.toFinset_card_of_nodup (List.nodup_range.filter _)]
  congr 1
  ext i
  simp [failedDisks]

theorem failedDisks_subset (st : NcfsState) : failedDisks st ⊆ Finset.range st.diskTotalNum :=
  Finset.filter_subset ..

/-- Without failures. -/
theorem mode_normal (diskRaidType : ℕ) (h : failedDisks st = ∅) :
    getOperationMode diskRaidType st = some 0 := by
  rw [getOperationMode]
  simp only [foldl_failedDiskNum, h, Finset.card_empty, if_true]

/-- The codes whose mode is decided by one comparison. -/
theorem mode_compare {data : ℕ} (h : failedDisks st ≠ ∅)
    (htype : diskRaidType = 1000 ∧ data = st.dataDiskNum ∨
      (diskRaidType = 13 ∨ diskRaidType = 130) ∧ data = 2) :
    getOperationMode diskRaidType st =
      if (failedDisks st).card + data ≤ st.diskTotalNum then some 1 else some 2 := by
  have hne : (failedDisks st).card ≠ 0 := fun hzero => h (Finset.card_eq_zero.1 hzero)
  have hle : ((failedDisks st).card : ℤ) ≤ st.diskTotalNum - data ↔
      (failedDisks st).card + data ≤ st.diskTotalNum := by omega
  rw [getOperationMode]
  simp only [foldl_failedDiskNum, if_neg hne]
  rcases htype with ⟨rfl, rfl⟩ | ⟨rfl | rfl, rfl⟩
  · rw [if_pos rfl]
    exact if_congr hle rfl rfl
  · rw [if_neg (by decide), if_pos rfl]
    exact if_congr hle rfl rfl
  · rw [if_neg (by decide), if_neg (by decide), if_pos rfl]
    exact if_congr hle rfl rfl

/-- The mode of the other codes. -/
theorem mode_count (h : failedDisks st ≠ ∅) (htype : diskRaidType ≠ 1000 ∧ diskRaidType ≠ 13 ∧
    diskRaidType ≠ 130) :
    getOperationMode diskRaidType st =
      if (failedDisks st).card = 1 then
        if diskRaidType = 1 ∨ diskRaidType = 4 ∨ diskRaidType = 5 ∨ diskRaidType = 6 then some 1
        else some 2
      else if (failedDisks st).card = 2 then if diskRaidType = 6 then some 1 else none
      else some 2 := by
  have hne : (failedDisks st).card ≠ 0 := fun hzero => h (Finset.card_eq_zero.1 hzero)
  obtain ⟨hmbr, hrs, hsrc⟩ := htype
  rw [getOperationMode]
  simp only [foldl_failedDiskNum, if_neg hne, if_neg hmbr, if_neg hrs, if_neg hsrc]
  by_cases hone : (failedDisks st).card = 1
  · rw [if_pos hone, if_pos hone]
    by_cases h1 : diskRaidType = 1 <;> by_cases h4 : diskRaidType = 4 <;> by_cases h5 :
      diskRaidType = 5 <;>
      simp [h1, h4, h5]
  · rw [if_neg hone, if_neg hone]

end Mode

/-! ### The comparison -/

section Comparison

variable {L : CodingLayer} {st : NcfsState}

theorem ModeMatches.of_normal (h : failedDisks st = ∅) : L.ModeMatches st := by
  have hmode := mode_normal L.raidType h
  constructor <;> simp [hmode, h]

/-- Degraded operation is right exactly when the data are recovered, -/
theorem modeMatches_of_degraded (h : failedDisks st ≠ ∅)
    (hmode : getOperationMode L.raidType st = some 1) :
    L.ModeMatches st ↔ L.Recovers st.diskTotalNum st.dataDiskNum (failedDisks st) := by
  constructor
  · intro hmatch
    exact (hmatch.degraded.1 hmode).2
  · intro hrec
    constructor <;> simp [hmode, h, hrec]

/-- stopped operation when they are not, -/
theorem modeMatches_of_stopped (h : failedDisks st ≠ ∅)
    (hmode : getOperationMode L.raidType st = some 2) :
    L.ModeMatches st ↔ ¬ L.Recovers st.diskTotalNum st.dataDiskNum (failedDisks st) := by
  constructor
  · intro hmatch
    exact (hmatch.stopped.1 hmode).2
  · intro hrec
    constructor <;> simp [hmode, h, hrec]

/-- and no mode never. -/
theorem not_modeMatches_of_unset (hmode : getOperationMode L.raidType st = none) :
    ¬ L.ModeMatches st := by
  intro hmatch
  obtain ⟨mode, hset, -⟩ := hmatch.isSet
  cases hmode.symm.trans hset

/-- A layer whose mode depends on whether one, two or more disks have failed. -/
theorem modeMatches_count (h : failedDisks st ≠ ∅)
    (htype : L.raidType ≠ 1000 ∧ L.raidType ≠ 13 ∧ L.raidType ≠ 130) :
    L.ModeMatches st ↔
      if (failedDisks st).card = 1 then
        (L.Recovers st.diskTotalNum st.dataDiskNum (failedDisks st) ↔ L.raidType = 1 ∨
          L.raidType = 4 ∨ L.raidType = 5 ∨ L.raidType = 6)
      else if (failedDisks st).card = 2 then
        L.raidType = 6 ∧ L.Recovers st.diskTotalNum st.dataDiskNum (failedDisks st)
      else ¬ L.Recovers st.diskTotalNum st.dataDiskNum (failedDisks st) := by
  have hmode := mode_count h htype
  by_cases hone : (failedDisks st).card = 1
  · rw [if_pos hone] at hmode ⊢
    by_cases hfew : L.raidType = 1 ∨ L.raidType = 4 ∨ L.raidType = 5 ∨ L.raidType = 6
    · rw [if_pos hfew] at hmode
      rw [modeMatches_of_degraded h hmode, iff_true_right hfew]
    · rw [if_neg hfew] at hmode
      rw [modeMatches_of_stopped h hmode, iff_false_right hfew]
  rw [if_neg hone] at hmode ⊢
  by_cases htwo : (failedDisks st).card = 2
  · rw [if_pos htwo] at hmode ⊢
    by_cases hsix : L.raidType = 6
    · rw [if_pos hsix] at hmode
      rw [modeMatches_of_degraded h hmode, and_iff_right hsix]
    · rw [if_neg hsix] at hmode
      exact iff_of_false (not_modeMatches_of_unset hmode) fun hand => hsix hand.1
  · rw [if_neg htwo] at hmode ⊢
    exact modeMatches_of_stopped h hmode

/-- A layer whose mode is decided by one comparison. -/
theorem modeMatches_compare {data : ℕ} (h : failedDisks st ≠ ∅)
    (htype : L.raidType = 1000 ∧ data = st.dataDiskNum ∨
      (L.raidType = 13 ∨ L.raidType = 130) ∧ data = 2) :
    L.ModeMatches st ↔ ((failedDisks st).card + data ≤ st.diskTotalNum ↔
      L.Recovers st.diskTotalNum st.dataDiskNum (failedDisks st)) := by
  have hmode := mode_compare h htype
  by_cases hle : (failedDisks st).card + data ≤ st.diskTotalNum
  · rw [if_pos hle] at hmode
    rw [modeMatches_of_degraded h hmode, iff_true_left hle]
  · rw [if_neg hle] at hmode
    rw [modeMatches_of_stopped h hmode, iff_false_left hle]

/-- A disk is not its own mirror. -/
theorem tolerates_raid1_of_card {n : ℕ} {F : Finset ℕ} (hcard : F.card = 1) :
    ∀ d < n / 2, d ∈ F → mirrorDiskId n d ∉ F := by
  intro d hd hdF hmirror
  have heq := Finset.card_le_one.1 hcard.le d hdF _ hmirror
  rw [mirrorDiskId] at heq
  omega

/-- No more than two disks are the last two. -/
theorem card_le_two {n : ℕ} {F : Finset ℕ} (hF : F ⊆ Finset.range n) (h : ∀ d ∈ F, n - 2 ≤ d) :
    F.card ≤ 2 := by
  have hle := Finset.card_le_card fun i hi => Finset.mem_Ico.2 ⟨h i hi, Finset.mem_range.1 (hF hi)⟩
  rw [Nat.card_Ico] at hle
  omega

end Comparison

/-- **The mode says what `decode` recovers exactly for these failed disks**, for every layer, any
number of disks and any statuses. -/
theorem modeMatches_iff {L : CodingLayer} {st : NcfsState}
    (hL : L.Configured st.diskTotalNum st.dataDiskNum) :
    L.ModeMatches st ↔ L.ModeRight st.diskTotalNum st.dataDiskNum (failedDisks st) := by
  by_cases h : failedDisks st = ∅
  · exact iff_of_true (.of_normal h) (.inl h)
  have hF := failedDisks_subset st
  have hpos : 0 < (failedDisks st).card := Finset.card_pos.2 (Finset.nonempty_iff_ne_empty.2 h)
  rw [ModeRight, or_iff_right h]
  have hrec := @recovers_iff L _ _ _ hL hF
  have hlast := card_le_two hF
  generalize hc : (failedDisks st).card = c at *
  -- the codes that are compared with the number of failures
  have hcount : L.raidType ≠ 1000 ∧ L.raidType ≠ 13 ∧ L.raidType ≠ 130 → (L.ModeMatches st ↔ _) :=
    fun htype => hc ▸ modeMatches_count h htype
  cases L with
  | raid0 =>
      rw [hcount (by simp [raidType]), hrec nofun, Tolerates, ModeRightFor, hc]
      grind [raidType]
  | jbod =>
      rw [hcount (by simp [raidType]), hrec nofun, Tolerates, ModeRightFor, hc]
      grind [raidType]
  | raid1 =>
      rw [hcount (by simp [raidType]), hrec nofun, Tolerates, ModeRightFor, hc]
      have hone := @tolerates_raid1_of_card st.diskTotalNum (failedDisks st)
      grind [raidType]
  | raid4 =>
      rw [hcount (by simp [raidType]), hrec nofun, Tolerates, ModeRightFor, hc]
      grind [raidType]
  | raid5 =>
      rw [hcount (by simp [raidType]), hrec nofun, Tolerates, ModeRightFor, hc]
      grind [raidType]
  | raid6 undefinedDisk =>
      rw [hcount (by simp [raidType]), hrec nofun, Tolerates, ModeRightFor, hc]
      grind [raidType]
  | rs J matrix =>
      rw [modeMatches_compare h (.inr ⟨.inl rfl, rfl⟩), hrec nofun, Tolerates, ModeRightFor, hc]
      omega
  | srcRs J matrix srcF =>
      rw [modeMatches_compare h (.inr ⟨.inr rfl, rfl⟩), hrec nofun, Tolerates, ModeRightFor, hc]
      grind
  | mbr M J =>
      rw [modeMatches_compare h (.inl ⟨rfl, rfl⟩), hrec nofun, Tolerates]
      exact iff_of_true Iff.rfl trivial
  | mdr1 coding =>
      rw [hcount (by simp [raidType]), hrec nofun, Tolerates, ModeRightFor, hc]
      have hk := hL.1
      grind [raidType]
  | evenodd coding =>
      rw [hcount (by simp [raidType]), hrec nofun, Tolerates, ModeRightFor, hc]
      have hk := hL.1
      grind [raidType]
  | rdp coding =>
      rw [hcount (by simp [raidType]), hrec nofun, Tolerates, ModeRightFor, hc]
      have hk := hL.1
      grind [raidType]
  | raid6noRotate undefinedDisk =>
      rw [hcount (by simp [raidType]), ModeRightFor, hc]
      by_cases htwo : c = 2
      · grind [raidType]
      · rw [hrec fun _ _ => htwo, Tolerates, hc]
        grind [raidType]

/-- Two disks with one of data, the other one a copy of it. -/
theorem configured_rs_two : (rs .sample fun _ => 1).Configured 2 1 := by
  refine ⟨by decide, Jerasure.sample_multiplies, fun F _ _ ids _ => ?_⟩
  have hrow : survivorRows 1 (fun _ => 1) ids 0 = 1 := by
    rw [survivorRows]
    split <;> simp_all
  refine ⟨_, rfl, fun i _ => ?_, fun d hd i hi => ?_⟩
  · simp only [hrow, if_true]
    split <;> decide
  · obtain ⟨rfl, rfl⟩ : d = 0 ∧ i = 0 := by omega
    simp only [Finset.sum_range_one, Nat.zero_mul, Nat.mul_zero, Nat.zero_add, hrow,
      if_true, true_or]
    exact one_mul 1

/-- Two disks of eight blocks, the first of which has failed. -/
def twoDisks : NcfsState :=
  { NcfsState.blank 2 1 4 fourBytes_pos 8 with diskStatus := fun i => if i = 0 then 1 else 0 }

/-- The mode is wrong for one failed disk of four under EVENODD and of two under Reed-Solomon, and
right under RAID5. -/
theorem modeMatches_one_failed :
    ¬ (evenodd (Coding4Evenodd.new (fourDisks 8).ncfs)).ModeMatches (fourDisks 8).ncfs ∧
      ¬ (rs .sample fun _ => 1).ModeMatches twoDisks ∧ raid5.ModeMatches (fourDisks 8).ncfs := by
  have hfour : failedDisks (fourDisks 8).ncfs = {0} := by decide
  have htwo : failedDisks twoDisks = {0} := by decide
  have hconf : (evenodd (Coding4Evenodd.new (fourDisks 8).ncfs)).Configured 4 2 :=
    ⟨rfl, le_rfl, _, rfl, rfl⟩
  refine ⟨fun h => ?_, fun h => ?_, ?_⟩
  · have hright := (@modeMatches_iff _ (fourDisks 8).ncfs hconf).1 h
    rw [hfour] at hright
    exact absurd (hright.resolve_left (by decide)) (show ¬ 3 ≤ ({0} : Finset ℕ).card by decide)
  · have hright := (@modeMatches_iff _ twoDisks configured_rs_two).1 h
    rw [htwo] at hright
    exact absurd (hright.resolve_left (by decide))
      (show ¬ (({0} : Finset ℕ).card + max 2 1 ≤ 2 ∨ 2 < ({0} : Finset ℕ).card + min 2 1) by decide)
  · refine (@modeMatches_iff raid5 (fourDisks 8).ncfs trivial).2 (.inr ?_)
    rw [hfour]
    exact show ({0} : Finset ℕ).card ≠ 2 by decide

/-- Under EVENODD the file system stops for one failed data disk of four, though its blocks can be
added up from the others.  For two failed disks it has no mode under RAID5. -/
theorem evenodd_stopped :
    getOperationMode 63 (fourDisks 8).ncfs = some 2 ∧
      (evenodd (Coding4Evenodd.new (fourDisks 8).ncfs)).Recovers 4 2 {0} ∧
      getOperationMode 5
      { (fourDisks 8).ncfs with diskStatus := fun i => if i ≤ 1 then 1 else 0 } = none ∧
      ¬ ∀ (L : CodingLayer) (st : NcfsState), L.Configured st.diskTotalNum st.dataDiskNum →
      L.ModeMatches st := by
  have hfour : failedDisks (fourDisks 8).ncfs = {0} := by decide
  have hconf : (evenodd (Coding4Evenodd.new (fourDisks 8).ncfs)).Configured 4 2 :=
    ⟨rfl, le_rfl, _, rfl, rfl⟩
  have hmode : getOperationMode 63 (fourDisks 8).ncfs = some 2 := by decide
  have hrec : (evenodd (Coding4Evenodd.new (fourDisks 8).ncfs)).Recovers 4 2 {0} :=
    (recovers_iff hconf (by decide) nofun).2 (.inl (by decide))
  refine ⟨hmode, hrec, by decide, fun h => ?_⟩
  have hstopped := (h _ (fourDisks 8).ncfs hconf).stopped.1 hmode
  rw [hfour] at hstopped
  exact hstopped.2 hrec

end CodingLayer

end Ncfs
