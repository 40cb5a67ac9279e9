/-
Writing a block under simple regenerating codes on top of Reed-Solomon.

The blocks of a disk are kept in groups of `f`, with one SRC block behind each group.  The SRC block
of a disk adds up one block from each of the `f` disks after it, going back by one block from disk
to disk: a staircase.  `encode` folds the difference of the new and the old data into the SRC block
of the data block, and the multiples that it adds to the code blocks into the SRC blocks of these.

Main definitions:

* `Ncfs.srcBlockNo` — where a block is on its disk, between the SRC blocks;
* `Ncfs.srcCodePlace` — the SRC block into which a block is folded;
* `Ncfs.srcUpdateCode`, `Ncfs.srcWrite`, `Ncfs.Coding4SrcRS.encode` — the function;
* `Ncfs.SrcGroups` — the blocks of every group and its SRC block add up to zero.

Main results:

* `Ncfs.pos_srcCodePlace` — a block and its SRC block are on one staircase;
* `Ncfs.SrcGroups.fold` — folding a difference into a block and its SRC block;
* `Ncfs.src_keeps` — what a write keeps.
-/
import FuseMdr.ReedSolomon
import FuseMdr.Staircase

set_option relaxedAutoImplicit false
set_option autoImplicit false

namespace Ncfs

/-! ### The function -/

/-- `block_no + block_no / src_f`: the position of a block when an SRC block follows each group of
`f`. -/
def srcBlockNo (f blockNo : ℕ) : ℕ := blockNo + blockNo / f

/-- `src_code_disk_id` and `src_code_block_no`.  With `f` below the number of disks nothing is
negative. -/
def srcCodePlace (n f diskId blockNo : ℕ) : ℕ × ℕ :=
  ((diskId + blockNo % f + n - f) % n, (f + 1) * (blockNo / f + 1) - 1)

/-- One pass of the loop over the code disks: `bufRead` holds the difference of the new and the old
data. -/
def srcUpdateCode (J : Jerasure) (matrix : ℕ → ℕ) (f : ℕ) (bufRead : Buf)
    (size sizeRequest diskId blockNo : ℕ) (st : NcfsState) (i : ℕ) : NcfsState :=
  let dataDiskCoeff := matrix (i * st.dataDiskNum + diskId)
  let bufTemp := galoisBuf J sizeRequest dataDiskCoeff bufRead
  let parityDiskId := st.dataDiskNum + i
  let location := srcBlockNo f blockNo * st.diskBlockSize
  let bufWrite := readDisk st parityDiskId (fun _ => 0) sizeRequest location
  let (srcCodeDiskId, srcCodeBlockNo) := srcCodePlace st.diskTotalNum f parityDiskId blockNo
  let srcLocation := srcCodeBlockNo * st.diskBlockSize
  let bufSrcCode := readDisk st srcCodeDiskId (fun _ => 0) size srcLocation
  let st := writeDisk st srcCodeDiskId (xorBuf (intBytes size) bufSrcCode bufTemp) size srcLocation
  writeDisk st parityDiskId (xorBuf (intBytes size) bufWrite bufTemp) size location

/-- The part of `Coding4SrcRS::encode` after the block has been chosen. -/
def srcWrite (J : Jerasure) (matrix : ℕ → ℕ) (f : ℕ) (buf : Buf) (size : ℕ) (st : NcfsState)
    (diskId blockNo : ℕ) : NcfsState :=
  let faultTolerance := st.diskTotalNum - st.dataDiskNum
  let sizeRequest := roundToBlockSize st size
  let location := srcBlockNo f blockNo * st.diskBlockSize
  let bufRead := readDisk st diskId (fun _ => 0) sizeRequest location
  let (srcCodeDiskId, srcCodeBlockNo) := srcCodePlace st.diskTotalNum f diskId blockNo
  let srcLocation := srcCodeBlockNo * st.diskBlockSize
  let bufSrcCode := readDisk st srcCodeDiskId (fun _ => 0) size srcLocation
  let bufSrcCode := xorBuf (intBytes size) (xorBuf (intBytes size) bufSrcCode bufRead) buf
  let bufRead := xorBuf (intBytes size) bufRead buf
  let st := writeDisk st srcCodeDiskId bufSrcCode size srcLocation
  let st := writeDisk st diskId buf size location
  (List.range faultTolerance).foldl
    (srcUpdateCode J matrix f bufRead size sizeRequest diskId blockNo) st

/-- `Coding4SrcRS::encode`: the loop that chooses a disk is the one of `Coding4RS::encode`. -/
def Coding4SrcRS.encode (J : Jerasure) (matrix : ℕ → ℕ) (f : ℕ) :
    NcfsState → Buf → ℕ → Option (ℕ × ℕ) × NcfsState :=
  encodeWith rsAllocate (srcWrite J matrix f)

/-! ### The groups -/

/-- Byte `o` of step `t` of a staircase. -/
def srcStep (n f : ℕ) (st : NcfsState) (D s t o : ℕ) : Byte :=
  st.block (Staircase.pos n f D s t).1 (Staircase.pos n f D s t).2 o

/-- The blocks of every group, its SRC block among them, add up to zero. -/
def SrcGroups (f : ℕ) (st : NcfsState) : Prop :=
  ∀ D < st.diskTotalNum, ∀ s, ∀ o < st.diskBlockSize,
    ∑ t ∈ Finset.range (f + 1), srcStep st.diskTotalNum f st D s t o = 0

theorem SrcGroups.same {f : ℕ} {st st' : NcfsState} (h : SrcGroups f st)
    (hsame : SameDevices st st') :
    SrcGroups f st' := by
  intro D hD s o ho
  rw [hsame.total_eq] at hD
  rw [hsame.block_eq] at ho
  rw [hsame.total_eq, ← h D hD s o ho]
  exact Finset.sum_congr rfl fun t _ => hsame.block _ _ o

theorem SrcGroups.of_zero {f : ℕ} {st : NcfsState} (hf : f < st.diskTotalNum)
    (hzero : ∀ d < st.diskTotalNum, ∀ x, st.disk d x = 0) : SrcGroups f st := fun _ _ _ _ _ =>
  Finset.sum_eq_zero fun _ _ => hzero _ (Staircase.pos_fst_lt hf) _

section Places

variable {n f d b : ℕ}

open Staircase

theorem srcBlockNo_eq : srcBlockNo f b = (f + 1) * (b / f) + b % f := by
  have := Nat.div_add_mod b f
  rw [srcBlockNo, Nat.add_mul, Nat.one_mul]
  omega

/-- A block is on the staircase of its SRC block. -/
theorem pos_srcBlockNo (hf : 0 < f) (hfn : f < n) (hd : d < n) :
    pos n f (srcCodePlace n f d b).1 (b / f) (b % f) = (d, srcBlockNo f b) := by
  rw [srcBlockNo_eq]
  exact pos_column hfn (Nat.mod_lt b hf).le hd (b / f)

/-- The SRC block is the last step. -/
theorem pos_srcCodePlace (hfn : f < n) :
    pos n f (srcCodePlace n f d b).1 (b / f) f = srcCodePlace n f d b := by
  refine (pos_last (column_lt hfn)).trans (Prod.ext rfl ?_)
  change (f + 1) * (b / f) + f = (f + 1) * (b / f + 1) - 1
  rw [Nat.mul_succ]
  omega

end Places

/-! ### What a write does -/

section Write

variable {f : ℕ} {st : NcfsState}

open Staircase

/-- What writing a block and its SRC block makes of a step of a staircase. -/
theorem srcStep_write (hf : 0 < f) (hfn : f < st.diskTotalNum) {d b size : ℕ}
    (hd : d < st.diskTotalNum) (hsize : size ≤ st.diskBlockSize) (code buf : Buf) {D s t o : ℕ}
    (hD : D < st.diskTotalNum) (ht : t ≤ f) (ho : o < st.diskBlockSize) :
    srcStep st.diskTotalNum f
      (writeDisk (writeDisk st (srcCodePlace st.diskTotalNum f d b).1 code size
        ((srcCodePlace st.diskTotalNum f d b).2 * st.diskBlockSize)) d buf size
        (srcBlockNo f b * st.diskBlockSize)) D s t o =
      if D = (srcCodePlace st.diskTotalNum f d b).1 ∧ s = b / f ∧ o < size then
        if t = b % f then buf o else if t = f then code o else srcStep st.diskTotalNum f st D s t o
      else srcStep st.diskTotalNum f st D s t o := by
  have hmod := Nat.mod_lt b hf
  have hD₀ : (srcCodePlace st.diskTotalNum f d b).1 < st.diskTotalNum := column_lt hfn
  -- a cell of the staircase is one of both blocks when it is the same step of the same staircase
  have hcell : ∀ t₀ ≤ f, ∀ x, pos st.diskTotalNum f (srcCodePlace st.diskTotalNum f d b).1
      (b / f) t₀ = x →
      ((pos st.diskTotalNum f D s t).1 = x.1 ∧ (pos st.diskTotalNum f D s t).2 = x.2 ∧ o < size ↔
        (D = (srcCodePlace st.diskTotalNum f d b).1 ∧ s = b / f ∧ o < size) ∧ t = t₀) := by
    rintro t₀ ht₀ x rfl
    constructor
    · rintro ⟨hcol, hrow, hlt⟩
      obtain ⟨hDD, hs, htt⟩ := pos_inj hD hD₀ ht ht₀ (Prod.ext hcol hrow)
      exact ⟨⟨hDD, hs, hlt⟩, htt⟩
    · rintro ⟨⟨hD, rfl, hlt⟩, rfl⟩
      rw [hD]
      exact ⟨rfl, rfl, hlt⟩
  have hcode := block_writeDisk st (srcCodePlace st.diskTotalNum f d b).1
    (srcCodePlace st.diskTotalNum f d b).2 size code hsize
    (x := (pos st.diskTotalNum f D s t).1) (y := (pos st.diskTotalNum f D s t).2) ho
  refine (block_writeDisk (writeDisk st (srcCodePlace st.diskTotalNum f d b).1 code size
    ((srcCodePlace st.diskTotalNum f d b).2 * st.diskBlockSize)) d (srcBlockNo f b) size buf hsize
    ho).trans ?_
  rw [hcode, if_congr (hcell _ hmod.le _ (pos_srcBlockNo hf hfn hd)) rfl rfl,
    if_congr (hcell _ le_rfl _ (pos_srcCodePlace hfn)) rfl rfl]
  by_cases hgroup : D = (srcCodePlace st.diskTotalNum f d b).1 ∧ s = b / f ∧ o < size
  · rw [if_pos hgroup]
    by_cases hself : t = b % f
    · rw [if_pos ⟨hgroup, hself⟩, if_pos hself]
    · rw [if_neg fun h => hself h.2, if_neg hself]
      exact if_congr (and_iff_right hgroup) rfl rfl
  · rw [if_neg fun h => hgroup h.1, if_neg fun h => hgroup h.1, if_neg hgroup, srcStep]

/-- What folding a difference into a block and into its SRC block makes of a step of a staircase. -/
theorem srcStep_fold (hf : 0 < f) (hfn : f < st.diskTotalNum) {d b size : ℕ}
    (hd : d < st.diskTotalNum) (hsize : size = st.diskBlockSize) {code buf delta : Buf}
    (hcode : ∀ o < size, code o = st.block (srcCodePlace st.diskTotalNum f d b).1
      (srcCodePlace st.diskTotalNum f d b).2 o + delta o)
    (hbuf : ∀ o < size, buf o = st.block d (srcBlockNo f b) o + delta o) {D s t o : ℕ}
    (hD : D < st.diskTotalNum) (ht : t ≤ f) (ho : o < size) :
    srcStep st.diskTotalNum f
      (writeDisk (writeDisk st (srcCodePlace st.diskTotalNum f d b).1 code size
        ((srcCodePlace st.diskTotalNum f d b).2 * st.diskBlockSize)) d buf size
        (srcBlockNo f b * st.diskBlockSize)) D s t o =
      srcStep st.diskTotalNum f st D s t o +
        if D = (srcCodePlace st.diskTotalNum f d b).1 ∧ s = b / f ∧ (t = b % f ∨ t = f) then delta o
        else 0 := by
  rw [srcStep_write hf hfn hd hsize.le code buf hD ht (hsize ▸ ho)]
  by_cases hgroup : D = (srcCodePlace st.diskTotalNum f d b).1 ∧ s = b / f
  · obtain ⟨rfl, rfl⟩ := hgroup
    rw [if_pos ⟨rfl, rfl, ho⟩]
    by_cases hself : t = b % f
    · rw [if_pos hself, if_pos ⟨rfl, rfl, .inl hself⟩, hbuf o ho, srcStep, hself,
        pos_srcBlockNo hf hfn hd]
    · rw [if_neg hself]
      by_cases hlast : t = f
      · rw [if_pos hlast, if_pos ⟨rfl, rfl, .inr hlast⟩, hcode o ho, srcStep, hlast,
          pos_srcCodePlace hfn]
      · rw [if_neg hlast, if_neg fun h => h.2.2.elim hself hlast, add_zero]
  · rw [if_neg fun h => hgroup ⟨h.1, h.2.1⟩, if_neg fun h => hgroup ⟨h.1, h.2.1⟩, add_zero]

/-- The sums of the groups remain. -/
theorem SrcGroups.fold (hf : 0 < f) (hfn : f < st.diskTotalNum) {d b size : ℕ}
    (hd : d < st.diskTotalNum) (hsize : size = st.diskBlockSize) {code buf delta : Buf}
    (hcode : ∀ o < size, code o = st.block (srcCodePlace st.diskTotalNum f d b).1
      (srcCodePlace st.diskTotalNum f d b).2 o + delta o)
    (hbuf : ∀ o < size, buf o = st.block d (srcBlockNo f b) o + delta o) (h : SrcGroups f st) :
    SrcGroups f (writeDisk (writeDisk st (srcCodePlace st.diskTotalNum f d b).1 code size
      ((srcCodePlace st.diskTotalNum f d b).2 * st.diskBlockSize)) d buf size
        (srcBlockNo f b * st.diskBlockSize)) := by
  intro D hD s o ho
  have hD : D < st.diskTotalNum := hD
  have ho : o < st.diskBlockSize := ho
  have hmod := Nat.mod_lt b hf
  have hstep := fun t (ht : t ∈ Finset.range (f + 1)) =>
    srcStep_fold (D := D) (s := s) (t := t) (o := o) hf hfn hd hsize hcode hbuf hD
      (Nat.lt_succ_iff.1 (Finset.mem_range.1 ht)) (hsize.symm ▸ ho)
  refine (Finset.sum_congr rfl hstep).trans ?_
  rw [Finset.sum_add_distrib, h D hD s o ho, zero_add]
  -- the difference is counted twice or not at all
  by_cases hgroup : D = (srcCodePlace st.diskTotalNum f d b).1 ∧ s = b / f
  · rw [Finset.sum_range_succ, if_pos ⟨hgroup.1, hgroup.2, .inr rfl⟩,
      Finset.sum_eq_single_of_mem (b % f) (Finset.mem_range.2 hmod) (fun t ht hne => ?_),
      if_pos ⟨hgroup.1, hgroup.2, .inl rfl⟩, CharTwo.add_self_eq_zero]
    have := Finset.mem_range.1 ht
    exact if_neg fun h => h.2.2.elim hne (by omega)
  · exact Finset.sum_eq_zero fun t _ => if_neg fun h => hgroup ⟨h.1, h.2.1⟩

/-- One pass of the loop over the code disks. -/
theorem SrcGroups.srcUpdateCode (J : Jerasure) (matrix : ℕ → ℕ) (hf : 0 < f)
    (hfn : f < st.diskTotalNum) (hint : st.diskBlockSize % sizeofInt = 0) (bufRead : Buf)
    {sizeRequest : ℕ} (hround : st.diskBlockSize ≤ sizeRequest) (d b : ℕ) {i : ℕ}
    (hi : st.dataDiskNum + i < st.diskTotalNum) (h : SrcGroups f st) :
    SrcGroups f (srcUpdateCode J matrix f bufRead st.diskBlockSize sizeRequest d b st i) := by
  let bufTemp := galoisBuf J sizeRequest (matrix (i * st.dataDiskNum + d)) bufRead
  let code := srcCodePlace st.diskTotalNum f (st.dataDiskNum + i) b
  have hcode : ∀ o < st.diskBlockSize, xorBuf (intBytes st.diskBlockSize)
      (readDisk st code.1 (fun _ => 0) st.diskBlockSize (code.2 * st.diskBlockSize)) bufTemp o =
        st.block code.1 code.2 o + bufTemp o := by
    intro o ho
    rw [intBytes_eq hint, xorBuf_of_lt _ _ ho, readDisk_block _ _ _ _ _ ho]
  have hbuf : ∀ o < st.diskBlockSize, xorBuf (intBytes st.diskBlockSize)
      (readDisk st (st.dataDiskNum + i) (fun _ => 0) sizeRequest
        (srcBlockNo f b * st.diskBlockSize)) bufTemp o = st.block (st.dataDiskNum + i)
          (srcBlockNo f b) o + bufTemp o := by
    intro o ho
    rw [intBytes_eq hint, xorBuf_of_lt _ _ ho, readDisk_block _ _ _ _ _ (ho.trans_le hround)]
  exact h.fold hf hfn hi rfl hcode hbuf

/-- A write of a whole block keeps the sums of the groups. -/
theorem SrcGroups.srcWrite (J : Jerasure) (matrix : ℕ → ℕ) (hf : 0 < f) (hfn : f < st.diskTotalNum)
    (hk : st.dataDiskNum ≤ st.diskTotalNum) (hint : st.diskBlockSize % sizeofInt = 0) {d : ℕ}
    (hd : d < st.dataDiskNum) (b : ℕ) (buf : Buf) (h : SrcGroups f st) :
    SrcGroups f (srcWrite J matrix f buf st.diskBlockSize st d b) := by
  have hround := (roundToBlockSize_le (le_refl st.diskBlockSize)).1
  let code := srcCodePlace st.diskTotalNum f d b
  have hcode : ∀ o < st.diskBlockSize, xorBuf (intBytes st.diskBlockSize)
      (xorBuf (intBytes st.diskBlockSize)
        (readDisk st code.1 (fun _ => 0) st.diskBlockSize (code.2 * st.diskBlockSize))
        (readDisk st d (fun _ => 0) (roundToBlockSize st st.diskBlockSize)
          (srcBlockNo f b * st.diskBlockSize))) buf o =
      st.block code.1 code.2 o + (st.block d (srcBlockNo f b) o + buf o) := by
    intro o ho
    rw [intBytes_eq hint, xorBuf_of_lt _ _ ho, xorBuf_of_lt _ _ ho, readDisk_block _ _ _ _ _ ho,
      readDisk_block _ _ _ _ _ (ho.trans_le hround), add_assoc]
  have hbuf : ∀ o < st.diskBlockSize,
      buf o = st.block d (srcBlockNo f b) o + (st.block d (srcBlockNo f b) o + buf o) := by
    intro o _
    rw [← add_assoc, CharTwo.add_self_eq_zero, zero_add]
  have hdata := h.fold hf hfn (hd.trans_le hk) rfl hcode hbuf
  refine (Loops.foldl_inv (fun st' : NcfsState => SrcGroups f st' ∧
    st'.diskTotalNum = st.diskTotalNum ∧ st'.dataDiskNum = st.dataDiskNum ∧
    st'.diskBlockSize = st.diskBlockSize)
    (fun st' i hi hst' => ?_) ⟨hdata, rfl, rfl, rfl⟩).1
  obtain ⟨hgroups, htotal, hdatanum, hblock⟩ := hst'
  have hi := List.mem_range.1 hi
  have hstep := hgroups.srcUpdateCode J matrix hf (htotal.symm ▸ hfn) (hblock.symm ▸ hint)
    (xorBuf (intBytes st.diskBlockSize) (readDisk st d (fun _ => 0)
      (roundToBlockSize st st.diskBlockSize) (srcBlockNo f b * st.diskBlockSize)) buf)
    (hblock.symm ▸ hround) d b (show st'.dataDiskNum + i < st'.diskTotalNum by omega)
  rw [hblock] at hstep
  exact ⟨hstep, htotal, hdatanum, hblock⟩

end Write

/-- Writing a block changes the devices only. -/
theorem srcWrite_eq (J : Jerasure) (matrix : ℕ → ℕ) (f : ℕ) (buf : Buf) (size : ℕ) (st : NcfsState)
    (d b : ℕ) :
    srcWrite J matrix f buf size st d b =
    { st with disk := (srcWrite J matrix f buf size st d b).disk } := by
  rw [srcWrite]
  refine Loops.foldl_inv (fun st' : NcfsState => st' = { st with disk := st'.disk })
    (fun st' i _ h => ?_) rfl
  simp only [srcUpdateCode, writeDisk]
  rw [h]

/-- Writes of whole blocks keep the sums of the groups. -/
theorem src_keeps (J : Jerasure) (matrix : ℕ → ℕ) {n k f bs : ℕ} (hf : 0 < f) (hfn : f < n)
    (hk : k ≤ n) (hint : bs % sizeofInt = 0) :
    Keeps n k bs (fun d _ => d < k) (fun size => size = bs) (SrcGroups f)
      rsAllocate (srcWrite J matrix f) where
  alloc_ok st req _ hdata hlist := by
    subst hdata
    exact rsAllocate_ok req hlist
  write_eq := srcWrite_eq J matrix f
  write_ok buf size st d b htotal hdata hblock hsize hplace h := by
    subst htotal hdata hblock hsize
    exact h.srcWrite J matrix hf hfn hk hint hplace b buf
  same _ _ hsame _ h := h.same hsame

end Ncfs
