/-
The devices under simple regenerating codes.

The free size of a disk counts blocks of data, but with the SRC blocks between them the last of
these lie behind the end of the disk.  A device that is asked for a block behind its end returns an
error, and the storage layer marks the disk as failed.

Main definitions:

* `Ncfs.touch` — what an access does to the status of a disk;
* `Ncfs.srcEncodePlaces`, `Ncfs.srcRecoverPlaces` — the blocks that `encode` and
  `recover_conventional` access;
* `Ncfs.SrcOp`, `Ncfs.srcRunStep` — writes, frees and rebuilds on disks of given sizes;
* `Ncfs.SrcOp.InRange` — an operation stays inside the devices, and no disk is marked;
* `Ncfs.SrcOp.Fits` — the condition for this.

Main results:

* `Ncfs.srcRange_iff` — a run stays inside the devices exactly when all its operations fit;
* `Ncfs.srcRoom_iff` — with equal disks, the blocks that fit are those of the whole groups;
* `Ncfs.not_rebuildFits` — no disk with a block can be rebuilt from equal disks that work.
-/
import FuseMdr.CodingLayer
import FuseMdr.Machine
import FuseMdr.SrcDecode

set_option relaxedAutoImplicit false
set_option autoImplicit false

namespace Ncfs

/-! ### Accesses -/

/-- An access to a block of a disk with `diskSize` blocks.  The storage layer marks a disk as failed
that is asked for a block behind its end. -/
def touch (diskSize : ℕ → ℕ) (st : NcfsState) (place : ℕ × ℕ) : NcfsState :=
  if place.2 < diskSize place.1 then st
  else { st with diskStatus := Function.update st.diskStatus place.1 1 }

/-- A list of accesses. -/
def touchAll (diskSize : ℕ → ℕ) (st : NcfsState) (places : List (ℕ × ℕ)) : NcfsState :=
  places.foldl (touch diskSize) st

/-- The accesses are inside the devices. -/
def Inside (diskSize : ℕ → ℕ) (places : List (ℕ × ℕ)) : Prop :=
  ∀ place ∈ places, place.2 < diskSize place.1

/-- Then no disk is marked. -/
theorem touchAll_eq {diskSize : ℕ → ℕ} {places : List (ℕ × ℕ)} (h : Inside diskSize places)
    (st : NcfsState) : touchAll diskSize st places = st :=
  Loops.foldl_inv (fun st' => st' = st)
    (fun _ place hplace hst => (if_pos (h place hplace)).trans hst) rfl

/-- The disks that a call of `encode` updates when it is served a block of disk `diskId`. -/
def srcDisks (st : NcfsState) (diskId : ℕ) : List ℕ :=
  diskId :: (List.range (st.diskTotalNum - st.dataDiskNum)).map fun i => st.dataDiskNum + i

/-- The blocks that a call of `encode` for one block reads and writes: a block of each of these
disks, and its SRC block. -/
def srcEncodePlaces (f : ℕ) (st : NcfsState) (diskId blockNo : ℕ) : List (ℕ × ℕ) :=
  (srcDisks st diskId).flatMap fun x =>
    [(x, srcBlockNo f blockNo), srcCodePlace st.diskTotalNum f x blockNo]

/-- The blocks that `decode` reads for block `blockNo` of a disk. -/
def srcDecodePlaces (J : Jerasure) (matrix : ℕ → ℕ) (f : ℕ) (st : NcfsState) (diskId blockNo : ℕ) :
    List (ℕ × ℕ) :=
  if st.diskStatus diskId = 0 then [(diskId, srcBlockNo f blockNo)]
  else
    let chain := srcChain st.diskTotalNum f (diskId, srcBlockNo f blockNo)
    if ∀ place ∈ chain, st.diskStatus place.1 = 0 then chain
    else
      let k := st.dataDiskNum
      match J.makeDecodingMatrix k (st.diskTotalNum - k) matrix
        (fun i => if st.diskStatus i = 1 then 1 else 0) with
      | .ok (_, ids) => (List.range k).map fun i => (ids.getD i 0, srcBlockNo f blockNo)
      | .error _ => []

/-- The blocks that one pass of the loop of `recover_conventional` reads and writes. -/
def srcRecoverBlockPlaces (J : Jerasure) (matrix : ℕ → ℕ) (f : ℕ) (st : NcfsState)
    (failedDiskId i : ℕ) :
    List (ℕ × ℕ) :=
  (if (i + 1) % f = 0 then
    srcBackChain st.diskTotalNum f (failedDiskId, i + (i + 1) / f) ++
      [(failedDiskId, i + (i + 1) / f)]
  else []) ++ srcDecodePlaces J matrix f st failedDiskId i ++ [(failedDiskId, srcBlockNo f i)]

/-- The blocks that `recover_conventional` reads and writes, as far as no disk is marked on the
way. -/
def srcRecoverPlaces (J : Jerasure) (matrix : ℕ → ℕ) (f : ℕ) (st : NcfsState)
    (failedDiskId recoverSize : ℕ) :
    List (ℕ × ℕ) :=
  (List.range recoverSize).flatMap (srcRecoverBlockPlaces J matrix f st failedDiskId)

/-! ### Runs -/

/-- What happens to a store with blocks of `bs` bytes.  A call of `encode` writes one block. -/
inductive SrcOp (bs : ℕ) where
  /-- Writing a block. -/
  | encode (buf : Buf) (size : ℕ) (size_pos : 0 < size) (size_le : size ≤ bs)
  /-- Freeing a block. -/
  | free (diskId blockNo : ℕ)
  /-- Rebuilding a whole disk. -/
  | rebuild (failedDiskId : ℕ)

section Runs

variable (J : Jerasure) (matrix : ℕ → ℕ) (f : ℕ) (diskSize : ℕ → ℕ) {bs : ℕ}

/-- The accesses of an operation. -/
def SrcOp.places (s : Served) : SrcOp bs → List (ℕ × ℕ)
  | .encode buf size _ _ =>
      match (Coding4SrcRS.encode J matrix f s.st buf size).1 with
      | some (diskId, blockNo) => srcEncodePlaces f s.st diskId blockNo
      | none => []
  | .free _ _ => []
  | .rebuild failedDiskId => srcRecoverPlaces J matrix f s.st failedDiskId (diskSize failedDiskId)

/-- What an operation computes on devices without an end. -/
def SrcOp.result (s : Served) : SrcOp bs → Served
  | .encode buf size _ _ => s.serve (Coding4SrcRS.encode J matrix f s.st buf size)
  | .free diskId blockNo => s.free diskId blockNo
  | .rebuild failedDiskId =>
      match Coding4SrcRS.recoverConventional J matrix f s.st failedDiskId
        (diskSize failedDiskId) with
      | .ok st => { s with st := st }
      | .error _ => s

/-- One operation, with what its accesses do to the statuses. -/
def srcRunStep (s : Served) (op : SrcOp bs) : Served :=
  let result := op.result J matrix f diskSize s
  { result with st := touchAll diskSize result.st (op.places J matrix f diskSize s) }

/-- The operation stays inside the devices, and no disk is marked as failed. -/
def SrcOp.InRange (s : Served) (op : SrcOp bs) : Prop :=
  Inside diskSize (op.places J matrix f diskSize s) ∧
    (srcRunStep J matrix f diskSize s op).st.diskStatus = s.st.diskStatus

/-- Block `b` of disk `d` may be written.  Of the `diskSize x` blocks of a disk, each `f + 1` of
which make up a group with an SRC block at its end, `b` is one of the blocks in front of and between
the SRC blocks for the disks that are updated, and the group of `b` is whole on the disks with their
SRC blocks. -/
def SrcRoom (st : NcfsState) (d b : ℕ) : Prop :=
  ∀ x ∈ srcDisks st d, b < diskSize x - diskSize x / (f + 1) ∧
    b / f < diskSize (srcCodePlace st.diskTotalNum f x b).1 / (f + 1)

/-- A disk may be rebuilt: it has not enough blocks for an SRC block, and the other disks hold what
`decode` reads. -/
def RebuildFits (st : NcfsState) (failedDiskId : ℕ) : Prop :=
  diskSize failedDiskId < f ∧ ∀ i < diskSize failedDiskId,
    Inside diskSize (srcDecodePlaces J matrix f st failedDiskId i)

/-- The condition: the block that a write will be served, the selected one or the first of the space
list, may be written, and a disk is rebuilt only when it may. -/
def SrcOp.Fits (s : Served) : SrcOp bs → Prop
  | .encode _ size _ _ =>
      ∀ d b, (rsSelect s.st (blockRequest s.st size)).or s.st.spaceList.head? = some (d, b) →
        SrcRoom f diskSize s.st d b
  | .free _ _ => True
  | .rebuild failedDiskId => RebuildFits J matrix f diskSize s.st failedDiskId

end Runs

/-! ### The blocks of a disk -/

section Blocks

variable {f S b : ℕ}

/-- The blocks in front of and between the SRC blocks of a disk. -/
theorem srcBlockNo_lt_iff (hf : 1 ≤ f) : srcBlockNo f b < S ↔ b < S - S / (f + 1) := by
  have hb := Nat.div_add_mod b f
  have hmod := Nat.mod_lt b hf
  have hS := Nat.div_add_mod S (f + 1)
  have hSmod : S % (f + 1) < f + 1 := Nat.mod_lt S (Nat.succ_pos f)
  have hexpand : (f + 1) * (S / (f + 1)) = f * (S / (f + 1)) + S / (f + 1) := by ring
  have hexpand' : (f + 1) * (b / f) = f * (b / f) + b / f := by ring
  rw [srcBlockNo]
  rcases lt_trichotomy (b / f) (S / (f + 1)) with hlt | heq | hgt
  · have hle : f * (b / f + 1) ≤ f * (S / (f + 1)) := Nat.mul_le_mul_left f hlt
    rw [Nat.mul_succ] at hle
    constructor <;> intro <;> omega
  · rw [← heq] at hS hexpand ⊢
    omega
  · have hle : f * (S / (f + 1) + 1) ≤ f * (b / f) := Nat.mul_le_mul_left f hgt
    rw [Nat.mul_succ] at hle
    constructor <;> intro <;> omega

/-- An SRC block is on the disk when its group is whole. -/
theorem srcCode_lt_iff : (f + 1) * (b / f + 1) - 1 < S ↔ b / f < S / (f + 1) := by
  have hpos : 0 < (f + 1) * (b / f + 1) := Nat.mul_pos (Nat.succ_pos f) (Nat.succ_pos _)
  have hwhole : b / f + 1 ≤ S / (f + 1) ↔ (b / f + 1) * (f + 1) ≤ S :=
    Nat.le_div_iff_mul_le (Nat.succ_pos f)
  have hcomm := Nat.mul_comm (f + 1) (b / f + 1)
  omega

/-- With equal disks, the blocks that may be written are those of the whole groups. -/
theorem srcRoom_iff (hf : 1 ≤ f) {st : NcfsState} {d : ℕ} :
    SrcRoom f (fun _ => S) st d b ↔ b < f * (S / (f + 1)) := by
  have hgroup : b / f < S / (f + 1) ↔ b < f * (S / (f + 1)) := by
    rw [Nat.div_lt_iff_lt_mul hf, Nat.mul_comm]
  have hS := Nat.div_add_mod S (f + 1)
  have hexpand : (f + 1) * (S / (f + 1)) = f * (S / (f + 1)) + S / (f + 1) := by ring
  constructor
  · intro h
    exact hgroup.1 (h d (List.mem_cons_self ..)).2
  · intro hb x _
    exact ⟨by dsimp only; omega, hgroup.2 hb⟩

end Blocks

/-! ### One operation -/

section Step

variable {J : Jerasure} {matrix : ℕ → ℕ} {f : ℕ} {diskSize : ℕ → ℕ} {bs : ℕ} {st : NcfsState}
    {s : Served}

/-- The accesses of a write are inside the devices exactly when there is room. -/
theorem inside_srcEncodePlaces (hf : 1 ≤ f) {d b : ℕ} :
    Inside diskSize (srcEncodePlaces f st d b) ↔ SrcRoom f diskSize st d b := by
  have hpair : ∀ x, (∀ place ∈ [(x, srcBlockNo f b), srcCodePlace st.diskTotalNum f x b],
      place.2 < diskSize place.1) ↔ b < diskSize x - diskSize x / (f + 1) ∧
        b / f < diskSize (srcCodePlace st.diskTotalNum f x b).1 / (f + 1) := by
    intro x
    rw [List.forall_mem_cons, List.forall_mem_singleton]
    exact and_congr (srcBlockNo_lt_iff hf) srcCode_lt_iff
  simp only [Inside, srcEncodePlaces, SrcRoom, List.mem_flatMap]
  constructor
  · intro h x hx
    exact (hpair x).1 fun place hplace => h place ⟨x, hx, hplace⟩
  · rintro h place ⟨x, hx, hplace⟩
    exact (hpair x).2 (h x hx) place hplace

/-- A write of at most one block changes no other block than those that it accesses. -/
theorem srcWrite_outside {d b size x y o : ℕ} (hsize : size ≤ st.diskBlockSize)
    (ho : o < st.diskBlockSize) (houtside : (x, y) ∉ srcEncodePlaces f st d b) (buf : Buf) :
    (srcWrite J matrix f buf size st d b).block x y o = st.block x y o := by
  have hplace : ∀ z ∈ srcDisks st d, ¬ (x = z ∧ y = srcBlockNo f b) ∧
      ¬ (x = (srcCodePlace st.diskTotalNum f z b).1 ∧
        y = (srcCodePlace st.diskTotalNum f z b).2) := by
    intro z hz
    constructor
    · rintro ⟨rfl, rfl⟩
      exact houtside (List.mem_flatMap.2 ⟨x, hz, List.mem_cons_self ..⟩)
    · rintro ⟨rfl, rfl⟩
      exact houtside (List.mem_flatMap.2 ⟨z, hz, by simp⟩)
  -- one write to a place that is accessed
  have hwrite : ∀ st' : NcfsState, st'.diskBlockSize = st.diskBlockSize → ∀ place : ℕ × ℕ,
      ¬ (x = place.1 ∧ y = place.2) → ∀ buf,
        (writeDisk st' place.1 buf size (place.2 * st'.diskBlockSize)).block x y o =
          st'.block x y o := by
    intro st' hblock place hne buf
    rw [block_writeDisk st' place.1 place.2 size buf (hblock ▸ hsize) (hblock ▸ ho),
      if_neg fun h => hne ⟨h.1, h.2.1⟩]
  obtain ⟨hdata, hcode⟩ := hplace d (List.mem_cons_self ..)
  rw [srcWrite]
  refine And.right (Loops.foldl_inv (fun st' : NcfsState => (st'.diskTotalNum = st.diskTotalNum ∧
    st'.dataDiskNum = st.dataDiskNum ∧ st'.diskBlockSize = st.diskBlockSize) ∧
      st'.block x y o = st.block x y o) (fun st' i hi h => ?_) ⟨⟨rfl, rfl, rfl⟩, ?_⟩)
  · obtain ⟨⟨htotal, hdisks, hblock⟩, hsame⟩ := h
    have hz : st.dataDiskNum + i ∈ srcDisks st d :=
      List.mem_cons_of_mem d (List.mem_map.2 ⟨i, hi, rfl⟩)
    obtain ⟨hparity, hcode⟩ := hplace _ hz
    rw [← htotal, ← hdisks] at hcode
    rw [← hdisks] at hparity
    refine ⟨⟨htotal, hdisks, hblock⟩, ?_⟩
    rw [srcUpdateCode]
    refine (hwrite (writeDisk _ _ _ _ _) hblock (_, srcBlockNo f b) hparity _).trans ?_
    exact (hwrite st' hblock _ hcode _).trans hsame
  · refine (hwrite (writeDisk _ _ _ _ _) rfl (d, srcBlockNo f b) hdata _).trans ?_
    exact hwrite st rfl _ hcode _

/-- The accesses of a rebuild. -/
theorem inside_srcRecoverPlaces (hf : 1 ≤ f) {D : ℕ} :
    Inside diskSize (srcRecoverPlaces J matrix f st D (diskSize D)) ↔
      RebuildFits J matrix f diskSize st D := by
  have hblock : ∀ i < f, srcBlockNo f i = i :=
    fun i hi => by rw [srcBlockNo, Nat.div_eq_of_lt hi, Nat.add_zero]
  constructor
  · intro h
    have hpass : ∀ i < diskSize D, Inside diskSize (srcRecoverBlockPlaces J matrix f st D i) :=
      fun i hi place hplace => h place (List.mem_flatMap.2 ⟨i, List.mem_range.2 hi, hplace⟩)
    refine ⟨?_, fun i hi place hplace => hpass i hi place ?_⟩
    · -- the last block of a whole group has its SRC block behind it, which is written, too
      by_contra hle
      have hlast := hpass (f - 1) (by omega)
      rw [srcRecoverBlockPlaces, Nat.sub_add_cancel hf, Nat.mod_self, if_pos rfl, Nat.div_self hf,
        Nat.sub_add_cancel hf] at hlast
      have hcode : f < diskSize D := hlast (D, f) (by simp)
      have hend := hpass (diskSize D - 1) (by omega) (D, srcBlockNo f (diskSize D - 1))
        (List.mem_append_right _ (List.mem_singleton_self _))
      have hgroup : 0 < (diskSize D - 1) / f := Nat.div_pos (by omega) hf
      simp only [srcBlockNo] at hend
      omega
    · exact List.mem_append_left _ (List.mem_append_right _ hplace)
  · rintro ⟨hlt, hdecode⟩ place hplace
    obtain ⟨i, hi, hplace⟩ := List.mem_flatMap.1 hplace
    have hi := List.mem_range.1 hi
    rw [srcRecoverBlockPlaces, Nat.mod_eq_of_lt (by omega), if_neg (Nat.succ_ne_zero i),
      List.nil_append, List.mem_append] at hplace
    rcases hplace with hplace | hplace
    · exact hdecode i hi place hplace
    · rw [List.mem_singleton.1 hplace, hblock i (by omega)]
      exact hi

/-- A rebuild does not change the statuses by itself. -/
theorem recoverConventional_status {D size : ℕ} {st' : NcfsState}
    (h : Coding4SrcRS.recoverConventional J matrix f st D size = .ok st') :
    st'.diskStatus = st.diskStatus := by
  refine Loops.foldlM_keeps (fun st' => st'.diskStatus = st.diskStatus)
    (fun st₁ i _ st₂ hpass hst => ?_) rfl h
  have hcode : (srcRecoverCode f D st₁ i).2.diskStatus = st₁.diskStatus := by
    rw [srcRecoverCode]
    split <;> rfl
  rw [srcRecoverBlock] at hpass
  generalize srcRecoverCode f D st₁ i = code at hpass hcode
  obtain ⟨buf, st₃⟩ := code
  simp only [bind, Except.bind] at hpass
  split at hpass
  · cases hpass
  · cases hpass
    exact hcode.trans hst

/-- Nor do the other operations. -/
theorem SrcOp.result_status (op : SrcOp bs) :
    (op.result J matrix f diskSize s).st.diskStatus = s.st.diskStatus := by
  cases op with
  | encode buf size =>
      rw [SrcOp.result, Served.serve_st]
      exact ((CodingLayer.srcRs J matrix f).encode_sameStore s.st buf size).status_eq
  | free d b =>
      obtain ⟨l, hst⟩ := s.free_st d b
      rw [SrcOp.result, hst]
  | rebuild D =>
      rw [SrcOp.result]
      split
      · rename_i st' hok
        exact recoverConventional_status hok
      · rfl

/-- What a call returns is the selected block or the first of the space list. -/
theorem srcEncode_fst (buf : Buf) (size : ℕ) : (Coding4SrcRS.encode J matrix f st buf size).1 =
    (rsSelect st (blockRequest st size)).or st.spaceList.head? := by
  have htakes := (CodingLayer.srcRs J matrix f).encode_takes st buf size
  change Takes st (rsSelect st (blockRequest st size)) (blockRequest st size)
    (Coding4SrcRS.encode J matrix f st buf size) at htakes
  generalize Coding4SrcRS.encode J matrix f st buf size = result at htakes ⊢
  cases htakes with
  | full hsel hlist => rw [hsel, hlist]; rfl
  | fresh hsel => rw [hsel]; rfl
  | reused hsel hlist => rw [hsel, hlist]; rfl

/-- An operation stays inside the devices exactly when it fits. -/
theorem SrcOp.inRange_iff (hf : 1 ≤ f) (op : SrcOp bs) :
    op.InRange J matrix f diskSize s ↔ op.Fits J matrix f diskSize s := by
  have hinside : Inside diskSize (op.places J matrix f diskSize s) ↔
      op.Fits J matrix f diskSize s := by
    cases op with
    | encode buf size hpos hle =>
        have hserved := @srcEncode_fst J matrix f s.st buf size
        simp only [SrcOp.places, SrcOp.Fits]
        rw [← hserved]
        cases (Coding4SrcRS.encode J matrix f s.st buf size).1 with
        | none =>
            constructor
            · intro _ d b h
              cases h
            · intro _ place hplace
              cases hplace
        | some x =>
            constructor
            · rintro h d b hx
              obtain rfl := Option.some.inj hx
              exact (inside_srcEncodePlaces hf).1 h
            · exact fun h => (inside_srcEncodePlaces hf).2 (h x.1 x.2 rfl)
    | free d b =>
        refine ⟨fun _ => trivial, fun _ place hplace => ?_⟩
        cases hplace
    | rebuild D => exact inside_srcRecoverPlaces hf
  refine ⟨fun h => hinside.1 h.1, fun h => ⟨hinside.2 h, ?_⟩⟩
  rw [srcRunStep, touchAll_eq (hinside.2 h)]
  exact op.result_status

end Step

/-- From equal disks that work, no failed disk with a block can be rebuilt: `decode` reads the SRC
block of the first group, and the rebuild of a disk with a whole group goes behind its end. -/
theorem not_rebuildFits (J : Jerasure) (matrix : ℕ → ℕ) {f S D : ℕ} {st : NcfsState} (hf : 1 ≤ f)
    (hfn : f < st.diskTotalNum) (hD : D < st.diskTotalNum) (hS : 0 < S)
    (hfailed : st.diskStatus D ≠ 0) (hworks : ∀ i < st.diskTotalNum, i ≠ D → st.diskStatus i = 0) :
    ¬ RebuildFits J matrix f (fun _ => S) st D := by
  rintro ⟨hlt, hdecode⟩
  change S < f at hlt
  have hread := hdecode 0 hS
  have hchain : ∀ place ∈ srcChain st.diskTotalNum f (D, srcBlockNo f 0),
      st.diskStatus place.1 = 0 :=
    fun place hplace => hworks _ (srcChain_disk hf hfn hD hplace).1
      (srcChain_disk hf hfn hD hplace).2
  rw [srcDecodePlaces, if_neg hfailed, if_pos hchain] at hread
  have hcode : srcCodePlace st.diskTotalNum f D 0 ∈ srcChain st.diskTotalNum f
      (D, srcBlockNo f 0) :=
    (mem_srcChain hf hfn hD).2 ⟨.inl rfl, fun h => by
      have hblock := congrArg Prod.snd h
      simp [srcCodePlace, srcBlockNo] at hblock
      omega⟩
  have hinside : f < S := by
    have := hread _ hcode
    simpa [srcCodePlace] using this
  omega

/-! ### Runs -/

/-- **The devices.**  For disks of any sizes and `f ≥ 1`, in a run of writes, frees and rebuilds
every block that is accessed is on its disk, and no disk is marked as failed, exactly when every
operation fits. -/
theorem srcRange_iff (J : Jerasure) (matrix : ℕ → ℕ) {f : ℕ} (hf : 1 ≤ f) (diskSize : ℕ → ℕ)
    (s : Served) (ops : List (SrcOp s.st.diskBlockSize)) :
    Machine.AllSteps (srcRunStep J matrix f diskSize)
    (fun s op => op.InRange J matrix f diskSize s) s ops ↔
      Machine.AllSteps (srcRunStep J matrix f diskSize)
      (fun s op => op.Fits J matrix f diskSize s) s ops :=
  Machine.allSteps_iff (I := fun _ => True) (fun _ _ _ _ => trivial)
    (fun _ op _ => op.inRange_iff hf) trivial

/-- Three disks of two blocks, two of them with data, and groups of one block: two writes. -/
theorem srcRange_iff_three :
    let s : Served := ⟨NcfsState.blank 3 2 4 fourBytes_pos 2, []⟩
    let ops : List (SrcOp 4) := [.encode (fun _ => 0) 4 (by decide) (by decide),
      .encode (fun _ => 0) 4 (by decide) (by decide)]
    Machine.AllSteps (srcRunStep .sample (fun _ => 1) 1 fun _ => 2)
        (fun s op => op.InRange .sample (fun _ => 1) 1 (fun _ => 2) s) s ops ↔
      Machine.AllSteps (srcRunStep .sample (fun _ => 1) 1 fun _ => 2)
        (fun s op => op.Fits .sample (fun _ => 1) 1 (fun _ => 2) s) s ops := by
  intro s ops
  exact srcRange_iff .sample (fun _ => 1) (le_refl 1) (fun _ => 2) s ops

/-- The same disks.  A third write is served block `1` of disk `0`, which lies behind its end, and
the rebuild of a failed disk writes to that block, too. -/
theorem srcRange_exceeded :
    let st := NcfsState.blank 3 2 4 fourBytes_pos 2
    let write : SrcOp 4 := .encode (fun _ => 0) 4 (by decide) (by decide)
    ¬ Machine.AllSteps (srcRunStep .sample (fun _ => 1) 1 fun _ => 2)
        (fun s op => op.InRange .sample (fun _ => 1) 1 (fun _ => 2) s) ⟨st, []⟩
        [write, write, write] ∧
      ¬ Machine.AllSteps (srcRunStep .sample (fun _ => 1) 1 fun _ => 2)
        (fun s op => op.InRange .sample (fun _ => 1) 1 (fun _ => 2) s)
        ⟨{ st with diskStatus := fun i => if i = 0 then 1 else 0 }, []⟩
        [(.rebuild 0 : SrcOp 4)] := by
  intro st write
  constructor
  · rintro ⟨-, -, hlast, -⟩
    exact absurd (hlast.1 (0, 2) (by decide +kernel)) (by decide)
  · rintro ⟨hrebuild, -⟩
    exact absurd (hrebuild.1 (0, 2) (by decide +kernel)) (by decide)

end Ncfs
