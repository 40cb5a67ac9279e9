/-
Writing a block under the MBR code.

The first `m` blocks of a segment are native, the other `c` are coded: combinations of the native
blocks over GF(256).  Every block has two copies.  `encode` takes a native block at its first copy,
writes both copies, and adds the difference of the new and the old data to both copies of each coded
block.

Main definitions:

* `Ncfs.Coding4Mbr` — the parameters of the code, as the constructor sets them;
* `Ncfs.mbrAt` — the position of a copy of a block, from the layout functions;
* `Ncfs.mbrAllocate`, `Ncfs.mbrWrite`, `Ncfs.Coding4Mbr.encode` — the function;
* `Ncfs.MbrConsistent` — the copies are equal and the coded blocks are the combinations.

Main results:

* `Ncfs.Coding4Mbr.new_spec` — the parameters fit the layout;
* `Ncfs.mbrAt_inj` — no two copies share a position;
* `Ncfs.mbrCopy_mbrWrite` — what a write makes of every copy;
* `Ncfs.Coding4Mbr.encode_run_consistent` — both hold in runs of writes and frees.
-/
import FuseMdr.BlockAllocator
import FuseMdr.Jerasure
import FuseMdr.MbrLayout

set_option relaxedAutoImplicit false
set_option autoImplicit false

namespace Ncfs

/-! ### The parameters -/

/-- The fields that the constructor of `Coding4Mbr` sets. -/
structure Coding4Mbr where
  /-- `mbr_n`. -/
  mbrN : ℕ
  /-- `mbr_k`. -/
  mbrK : ℕ
  /-- `mbr_m`, the number of native blocks. -/
  mbrM : ℕ
  /-- `mbr_c`, the number of coded blocks. -/
  mbrC : ℕ
  /-- `mbr_segment_size`. -/
  mbrSegmentSize : ℕ
  /-- `generator_matrix`. -/
  generatorMatrix : ℕ → ℕ

/-- `Coding4Mbr::Coding4Mbr`.  The matrix comes from `reed_sol_vandermonde_coding_matrix`. -/
def Coding4Mbr.new (diskTotalNum dataDiskNum : ℕ) (vandermonde : ℕ → ℕ → ℕ → ℕ → ℕ) : Coding4Mbr :=
  let n := diskTotalNum
  let k := dataDiskNum
  let d := n - 1
  let m := k * d - k * (k - 1) / 2
  let c := n * (n - 1) / 2 - k * (2 * n - k - 1) / 2
  { mbrN := n
    mbrK := k
    mbrM := m
    mbrC := c
    mbrSegmentSize := 2 * (m + c) / n
    generatorMatrix := vandermonde m c fieldPower }

/-- Parameters that fit the layout of `n` disks: the native blocks are those of the first `k`
rows. -/
structure Coding4Mbr.Fits (M : Coding4Mbr) (n k : ℕ) : Prop where
  /-- There is a native block and at least one more disk than rows of native blocks. -/
  pos : 1 ≤ k ∧ k < n
  /-- `mbr_segment_size`. -/
  segment_eq : M.mbrSegmentSize = n - 1
  /-- `mbr_m`. -/
  native_eq : M.mbrM = Triangle.rowStart (n - 1) k
  /-- `mbr_m + mbr_c`. -/
  total_eq : M.mbrM + M.mbrC = Triangle.rowStart (n - 1) (n - 1)

/-- The parameters of the constructor fit the layout. -/
theorem Coding4Mbr.new_spec {n k : ℕ} (hk : 1 ≤ k) (hkn : k < n) (vandermonde : ℕ → ℕ → ℕ → ℕ → ℕ) :
    (Coding4Mbr.new n k vandermonde).Fits n k := by
  have hrow := Triangle.two_mul_rowStart (show k ≤ n - 1 by omega)
  have hhalf : k * (2 * n - k - 1) / 2 = Triangle.rowStart (n - 1) k := by
    rw [show 2 * n - k - 1 = 2 * (n - 1) + 1 - k by omega, ← hrow]
    exact Nat.mul_div_cancel_left _ (by decide)
  obtain ⟨q, hq⟩ := (Nat.even_mul_pred_self k).two_dvd
  have hnative : k * (n - 1) - k * (k - 1) / 2 = Triangle.rowStart (n - 1) k := by
    obtain ⟨j, rfl⟩ : ∃ j, k = j + 1 := ⟨k - 1, by omega⟩
    obtain ⟨t, rfl⟩ : ∃ t, n = j + 1 + 1 + t := ⟨n - (j + 1 + 1), by omega⟩
    rw [Nat.add_sub_cancel] at hq ⊢
    rw [show j + 1 + 1 + t - 1 = j + 1 + t by omega] at hrow ⊢
    rw [show 2 * (j + 1 + t) + 1 - (j + 1) = j + 2 * t + 2 by omega] at hrow
    have hsum : 2 * ((j + 1) * (j + 1 + t)) = (j + 1) * (j + 2 * t + 2) + (j + 1) * j := by ring
    rw [hq, Nat.mul_div_cancel_left _ (by decide : 0 < 2)]
    omega
  have hle := Triangle.rowStart_mono (n - 1) (show k ≤ n - 1 by omega)
  have htotal : Triangle.rowStart (n - 1) k + (n * (n - 1) / 2 - Triangle.rowStart (n - 1) k) =
      Triangle.rowStart (n - 1) (n - 1) := by
    rw [mbrBlocks_eq (by omega)]
    omega
  refine ⟨⟨hk, hkn⟩, ?_, hnative, ?_⟩
  · simp only [new, hnative, hhalf, htotal]
    have hall := Triangle.two_mul_rowStart (le_refl (n - 1))
    rw [hall, show 2 * (n - 1) + 1 - (n - 1) = n by omega]
    exact Nat.mul_div_cancel _ (by omega)
  · simp only [new, hnative, hhalf, htotal]

/-- The blocks of the first row are native. -/
theorem Coding4Mbr.Fits.segment_le {M : Coding4Mbr} {n k : ℕ} (hM : M.Fits n k) :
    n - 1 ≤ M.mbrM := by
  have hrows := Triangle.rowStart_mono (n - 1) (show 1 ≤ k from hM.pos.1)
  rw [Triangle.rowStart_succ, Triangle.rowStart_zero, ← hM.native_eq] at hrows
  omega

/-! ### Positions -/

/-- The position of the first or the second copy of a block of segment `s`: its disk and its block
number. -/
def mbrAt (seg : ℕ) (dup : Bool) (s id : ℕ) : ℕ × ℕ :=
  let diskId := mbrGetDiskId id seg
  if dup then ((mbrGetDupDiskId id seg).toNat, mbrGetDupBlockNo diskId id seg + s * seg)
  else (diskId, (mbrGetBlockNo diskId id seg).toNat + s * seg)

section Positions

variable {seg d e s : ℕ}

open Triangle

theorem mbrAt_first (hde : d < e) (he : e ≤ seg) :
    mbrAt seg false s (pairId seg d e) = (d, e - 1 + s * seg) := by
  simp only [mbrAt, mbrGetDiskId_eq hde he, mbrGetBlockNo_eq hde he]
  rw [if_neg (by decide)]
  congr 2
  omega

theorem mbrAt_second (hde : d < e) (he : e ≤ seg) :
    mbrAt seg true s (pairId seg d e) = (e, d + s * seg) := by
  simp only [mbrAt, mbrGetDiskId_eq hde he, mbrGetDupDiskId_eq hde he, mbrGetDupBlockNo]
  rfl

theorem offset_inj {x x' s' : ℕ} (hx : x < seg) (hx' : x' < seg) (h : x + s * seg = x' + s' * seg) :
    x = x' ∧ s = s' := by
  have hpos : 0 < seg := by omega
  have hmod := congrArg (· % seg) h
  have hdiv := congrArg (· / seg) h
  simp only [Nat.add_mul_mod_self_right, Nat.mod_eq_of_lt hx, Nat.mod_eq_of_lt hx'] at hmod
  simp only [Nat.add_mul_div_right _ _ hpos, Nat.div_eq_of_lt hx, Nat.div_eq_of_lt hx',
    Nat.zero_add] at hdiv
  exact ⟨hmod, hdiv⟩

/-- No two copies share a position. -/
theorem mbrAt_inj {dup dup' : Bool} {s s' id id' : ℕ} (hid : id < rowStart seg seg)
    (hid' : id' < rowStart seg seg) (h : mbrAt seg dup s id = mbrAt seg dup' s' id') :
    dup = dup' ∧ s = s' ∧ id = id' := by
  obtain ⟨d, e, hde, he, rfl⟩ := exists_pair hid
  obtain ⟨d', e', hde', he', rfl⟩ := exists_pair hid'
  cases dup with
  | false =>
      rw [mbrAt_first hde he] at h
      cases dup' with
      | false =>
          rw [mbrAt_first hde' he', Prod.mk.injEq] at h
          obtain ⟨hx, hs⟩ := offset_inj (by omega) (by omega) h.2
          obtain rfl : e = e' := by omega
          rw [h.1]
          exact ⟨rfl, hs, rfl⟩
      | true =>
          rw [mbrAt_second hde' he', Prod.mk.injEq] at h
          obtain ⟨hx, -⟩ := offset_inj (by omega) (by omega) h.2
          omega
  | true =>
      rw [mbrAt_second hde he] at h
      cases dup' with
      | false =>
          rw [mbrAt_first hde' he', Prod.mk.injEq] at h
          obtain ⟨hx, -⟩ := offset_inj (by omega) (by omega) h.2
          omega
      | true =>
          rw [mbrAt_second hde' he', Prod.mk.injEq] at h
          obtain ⟨rfl, hs⟩ := offset_inj (by omega) (by omega) h.2
          rw [h.1]
          exact ⟨rfl, hs, rfl⟩

/-- A position that holds no first copy has the number `-1`. -/
theorem mbrFindBlockId_nonneg {d b : ℕ} (hseg : 0 < seg) (hd : d ≤ seg)
    (h : mbrFindBlockId d b seg ≠ -1) : 0 ≤ mbrFindBlockId d b seg := by
  rcases mbrPosition_block (b := b) hseg hd with ⟨-, hfind, -⟩ | ⟨-, hfind, -⟩
  · omega
  · exact absurd hfind h

/-- A first copy is where its number says. -/
theorem mbrAt_of_find {d b id : ℕ} (hseg : 0 < seg) (hd : d ≤ seg)
    (h : mbrFindBlockId d b seg = id) :
    id < rowStart seg seg ∧ mbrAt seg false (b / seg) id = (d, b) := by
  have hoff := Nat.mod_lt b hseg
  rcases mbrPosition_block (b := b) hseg hd with ⟨hle, hfind, -⟩ | ⟨-, hfind, -⟩
  · rw [h, Nat.cast_inj] at hfind
    subst hfind
    refine ⟨pairId_lt_rowStart (by omega) (by omega), ?_⟩
    rw [mbrAt_first (by omega) (by omega)]
    refine Prod.ext rfl ?_
    change b % seg + 1 - 1 + b / seg * seg = b
    have := Nat.div_add_mod b seg
    rw [Nat.mul_comm]
    omega
  · omega

end Positions

/-! ### The function -/

/-- The block at a position is native, as the loops of `encode` test it. -/
abbrev MbrNative (M : Coding4Mbr) (i b : ℕ) : Prop :=
  mbrFindBlockId i b M.mbrSegmentSize ≠ -1 ∧ mbrFindBlockId i b M.mbrSegmentSize < M.mbrM

/-- The choice of a block: each disk on a position that is not native moves over it, and only disks
on a native position may be taken. -/
def mbrAllocate (M : Coding4Mbr) (st : NcfsState) (blockRequest : ℕ) : Option (ℕ × ℕ) × NcfsState :=
  let st := skipBlocks st fun i b =>
    mbrFindBlockId i b M.mbrSegmentSize = -1 ∨ M.mbrM ≤ mbrFindBlockId i b M.mbrSegmentSize
  let selected := Frontier.scan
    (fun i => (blockRequest : ℤ) ≤ st.freeSize i ∧ MbrNative M i (st.freeOffset i)) st.freeOffset
    st.diskTotalNum
  takeBlock st selected blockRequest

/-- The lines that write a buffer to both copies of a block of segment `s`. -/
def mbrWriteCopies (M : Coding4Mbr) (s id : ℕ) (buf : Buf) (size : ℕ) (st : NcfsState) :
    NcfsState :=
  let (diskId, blockNo) := mbrAt M.mbrSegmentSize false s id
  let (dupDiskId, dupBlockNo) := mbrAt M.mbrSegmentSize true s id
  let st := writeDisk st diskId buf size (blockNo * st.diskBlockSize)
  writeDisk st dupDiskId buf size (dupBlockNo * st.diskBlockSize)

/-- One pass of the loop over the coded blocks: `buf2` holds the difference of the new and the old
data of the native block. -/
def mbrUpdateCode (J : Jerasure) (M : Coding4Mbr) (s nativeId : ℕ) (buf2 : Buf)
    (size sizeRequest : ℕ) (st : NcfsState) (i : ℕ) : NcfsState :=
  let codeId := M.mbrM + i
  let (codeDiskId, codeBlockNo) := mbrAt M.mbrSegmentSize false s codeId
  let bufRead := readDisk st codeDiskId (fun _ => 0) sizeRequest (codeBlockNo * st.diskBlockSize)
  let coefficient := M.generatorMatrix (i * M.mbrM + nativeId)
  let bufTemp := galoisBuf J sizeRequest coefficient buf2
  mbrWriteCopies M s codeId (xorBuf sizeRequest bufRead bufTemp) size st

/-- The part of `Coding4Mbr::encode` after the block has been chosen.  Without coded blocks the
difference is not computed, nor used. -/
def mbrWrite (J : Jerasure) (M : Coding4Mbr) (buf : Buf) (size : ℕ) (st : NcfsState)
    (diskId blockNo : ℕ) : NcfsState :=
  let seg := M.mbrSegmentSize
  let s := blockNo / seg
  let sizeRequest := roundToBlockSize st size
  let offset := blockNo * st.diskBlockSize
  let buf2 : Buf :=
    if 0 < M.mbrC then xorBuf sizeRequest (readDisk st diskId (fun _ => 0) sizeRequest offset) buf
    else fun _ => 0
  let nativeId := mbrFindBlockId diskId blockNo seg
  let dupDiskId := (mbrGetDupDiskId nativeId seg).toNat
  let dupBlockNo := mbrGetDupBlockNo diskId nativeId seg + s * seg
  let st := writeDisk st diskId buf size offset
  let st := writeDisk st dupDiskId buf size (dupBlockNo * st.diskBlockSize)
  (List.range M.mbrC).foldl (mbrUpdateCode J M s nativeId.toNat buf2 size sizeRequest) st

/-- `Coding4Mbr::encode`. -/
def Coding4Mbr.encode (M : Coding4Mbr) (J : Jerasure) :
    NcfsState → Buf → ℕ → Option (ℕ × ℕ) × NcfsState :=
  encodeWith (mbrAllocate M) (mbrWrite J M)

/-! ### The copies -/

/-- Byte `o` of a copy of block `id` of segment `s`. -/
def mbrCopy (seg : ℕ) (st : NcfsState) (dup : Bool) (s id o : ℕ) : Byte :=
  st.block (mbrAt seg dup s id).1 (mbrAt seg dup s id).2 o

/-- The coefficient of native block `j` in coded block `m + i`, as a byte. -/
def mbrCoeff (M : Coding4Mbr) (i j : ℕ) : Byte := Byte.ofNat (M.generatorMatrix (i * M.mbrM + j))

/-- In every segment both copies of every block are equal, and the coded blocks are the combinations
of the native ones. -/
structure MbrConsistent (M : Coding4Mbr) (st : NcfsState) : Prop where
  /-- The copies. -/
  copies : ∀ s, ∀ o < st.diskBlockSize, ∀ id < M.mbrM + M.mbrC,
    mbrCopy M.mbrSegmentSize st false s id o = mbrCopy M.mbrSegmentSize st true s id o
  /-- The coded blocks. -/
  coded : ∀ s, ∀ o < st.diskBlockSize, ∀ i < M.mbrC,
    mbrCopy M.mbrSegmentSize st false s (M.mbrM + i) o =
      ∑ j ∈ Finset.range M.mbrM, mbrCoeff M i j * mbrCopy M.mbrSegmentSize st false s j o

theorem MbrConsistent.same {M : Coding4Mbr} {st st' : NcfsState} (h : MbrConsistent M st)
    (hsame : SameDevices st st') : MbrConsistent M st' := by
  have hcopy : ∀ dup s id o, mbrCopy M.mbrSegmentSize st' dup s id o =
      mbrCopy M.mbrSegmentSize st dup s id o := fun dup s id o => hsame.block _ _ o
  refine ⟨fun s o ho id hid => ?_, fun s o ho i hi => ?_⟩
  · rw [hsame.block_eq] at ho
    rw [hcopy, hcopy, h.copies s o ho id hid]
  · rw [hsame.block_eq] at ho
    rw [hcopy, h.coded s o ho i hi]
    exact Finset.sum_congr rfl fun j _ => by rw [hcopy]

/-- The copies of the blocks of a segment are on the disks of the layout. -/
theorem mbrAt_lt {seg id : ℕ} (hid : id < Triangle.rowStart seg seg) (dup : Bool) (s : ℕ) :
    (mbrAt seg dup s id).1 ≤ seg := by
  obtain ⟨d, e, hde, he, rfl⟩ := Triangle.exists_pair hid
  cases dup with
  | false =>
      rw [mbrAt_first hde he]
      exact (hde.trans_le he).le
  | true =>
      rw [mbrAt_second hde he]
      exact he

theorem MbrConsistent.of_zero {M : Coding4Mbr} {n k : ℕ} (hM : M.Fits n k) {st : NcfsState}
    (hzero : ∀ d < n, ∀ x, st.disk d x = 0) : MbrConsistent M st := by
  have hcopy : ∀ dup s o, ∀ id < M.mbrM + M.mbrC, mbrCopy M.mbrSegmentSize st dup s id o = 0 := by
    intro dup s o id hid
    rw [hM.total_eq, ← hM.segment_eq] at hid
    have hle := mbrAt_lt hid dup s
    have hseg := hM.segment_eq
    have hn := hM.pos
    exact hzero _ (by omega) _
  refine ⟨fun s o _ id hid => ?_, fun s o _ i hi => ?_⟩
  · rw [hcopy _ _ _ _ hid, hcopy _ _ _ _ hid]
  · rw [hcopy _ _ _ _ (by omega)]
    refine (Finset.sum_eq_zero fun j hj => ?_).symm
    have hj := Finset.mem_range.1 hj
    rw [hcopy _ _ _ _ (by omega), mul_zero]

section Write

variable {J : Jerasure} {M : Coding4Mbr} {n k : ℕ} {st : NcfsState} {size : ℕ}

/-- Writing both copies of a block changes these copies only. -/
theorem mbrCopy_mbrWriteCopies (hM : M.Fits n k) {s id : ℕ} (hid : id < M.mbrM + M.mbrC) (buf : Buf)
    (hsize : size ≤ st.diskBlockSize) {dup : Bool} {s' id' o : ℕ} (hid' : id' < M.mbrM + M.mbrC)
    (ho : o < st.diskBlockSize) :
    mbrCopy M.mbrSegmentSize (mbrWriteCopies M s id buf size st) dup s' id' o =
      if s' = s ∧ id' = id ∧ o < size then buf o else mbrCopy M.mbrSegmentSize st dup s' id' o := by
  rw [hM.total_eq, ← hM.segment_eq] at hid hid'
  -- a copy is the one written when its position is
  have hpos : ∀ dup', (mbrAt M.mbrSegmentSize dup s' id').1 = (mbrAt M.mbrSegmentSize dup' s id).1 ∧
      (mbrAt M.mbrSegmentSize dup s' id').2 = (mbrAt M.mbrSegmentSize dup' s id).2 ∧ o < size ↔
        dup = dup' ∧ s' = s ∧ id' = id ∧ o < size := by
    intro dup'
    constructor
    · rintro ⟨h₁, h₂, hlt⟩
      obtain ⟨hdup, hs, hid⟩ := mbrAt_inj hid' hid (Prod.ext h₁ h₂)
      exact ⟨hdup, hs, hid, hlt⟩
    · rintro ⟨rfl, rfl, rfl, hlt⟩
      exact ⟨rfl, rfl, hlt⟩
  have hfirst := block_writeDisk st (mbrAt M.mbrSegmentSize false s id).1
    (mbrAt M.mbrSegmentSize false s id).2 size buf hsize
      (x := (mbrAt M.mbrSegmentSize dup s' id').1)
    (y := (mbrAt M.mbrSegmentSize dup s' id').2) ho
  refine (block_writeDisk (writeDisk st (mbrAt M.mbrSegmentSize false s id).1 buf size
    ((mbrAt M.mbrSegmentSize false s id).2 * st.diskBlockSize)) (mbrAt M.mbrSegmentSize true s id).1
    (mbrAt M.mbrSegmentSize true s id).2 size buf hsize ho).trans ?_
  rw [hfirst, if_congr (hpos true) rfl rfl, if_congr (hpos false) rfl rfl]
  by_cases h : s' = s ∧ id' = id ∧ o < size
  · rw [if_pos h]
    cases dup with
    | false => rw [if_neg (by simp), if_pos ⟨rfl, h⟩]
    | true => rw [if_pos ⟨rfl, h⟩]
  · rw [if_neg h, if_neg fun hc => h hc.2, if_neg fun hc => h hc.2]
    rfl

/-- The passes of the loop over the coded blocks add the multiples of the difference to both copies
of the first of them. -/
theorem foldl_mbrUpdateCode (hM : M.Fits n k) (hJ : J.Multiplies)
    (hgen : ∀ i, M.generatorMatrix i < 256) (hsize : size ≤ st.diskBlockSize) (s nativeId : ℕ)
    (buf2 : Buf) {sizeRequest : ℕ} (hround : size ≤ sizeRequest) {t : ℕ} (ht : t ≤ M.mbrC) :
    ∃ disk, (List.range t).foldl (mbrUpdateCode J M s nativeId buf2 size sizeRequest) st =
        { st with disk := disk } ∧
      ∀ dup s', ∀ id < M.mbrM + M.mbrC, ∀ o < st.diskBlockSize,
        mbrCopy M.mbrSegmentSize { st with disk := disk } dup s' id o =
          if s' = s ∧ o < size ∧ M.mbrM ≤ id ∧ id < M.mbrM + t then
            mbrCopy M.mbrSegmentSize st false s id o + mbrCoeff M (id - M.mbrM) nativeId * buf2 o
          else mbrCopy M.mbrSegmentSize st dup s' id o := by
  induction t with
  | zero =>
      refine ⟨st.disk, rfl, fun dup s' id _ o _ => ?_⟩
      rw [if_neg (by omega)]
  | succ t ih =>
      obtain ⟨disk, hfold, hcopy⟩ := ih (by omega)
      rw [List.range_succ, List.foldl_append, hfold, List.foldl_cons, List.foldl_nil]
      refine ⟨_, rfl, fun dup s' id hid o ho => ?_⟩
      refine (@mbrCopy_mbrWriteCopies M n k { st with disk := disk } size hM s (M.mbrM + t)
        (by omega) _ hsize dup s' id o hid ho).trans ?_
      by_cases hnow : s' = s ∧ id = M.mbrM + t ∧ o < size
      · obtain ⟨rfl, rfl, hlt⟩ := hnow
        have hbuf : o < sizeRequest := hlt.trans_le hround
        rw [if_pos ⟨rfl, rfl, hlt⟩, if_pos ⟨rfl, hlt, by omega, by omega⟩, xorBuf_of_lt _ _ hbuf,
          galoisBuf_of_lt hJ (hgen _) hbuf, Nat.add_sub_cancel_left]
        congr 1
        refine (readDisk_block ({ st with disk := disk } : NcfsState) _ _ _ _ hbuf).trans ?_
        refine (hcopy false s' (M.mbrM + t) hid o ho).trans ?_
        rw [if_neg (by omega)]
      · rw [if_neg hnow, hcopy dup s' id hid o ho]
        by_cases hbefore : s' = s ∧ o < size ∧ M.mbrM ≤ id ∧ id < M.mbrM + t
        · rw [if_pos hbefore, if_pos (by omega)]
        · rw [if_neg hbefore, if_neg (by omega)]

/-- The places of native blocks. -/
def MbrData (M : Coding4Mbr) (n d b : ℕ) : Prop :=
  d < n ∧ 0 ≤ mbrFindBlockId d b M.mbrSegmentSize ∧ mbrFindBlockId d b M.mbrSegmentSize < M.mbrM

/-- A write changes both copies of its native block, and those of each coded block of the segment by
the coefficient times the difference. -/
theorem mbrCopy_mbrWrite (hM : M.Fits n k) (hJ : J.Multiplies)
    (hgen : ∀ i, M.generatorMatrix i < 256) (hsize : size ≤ st.diskBlockSize) {d b : ℕ}
    (hplace : MbrData M n d b) (buf : Buf) :
    ∃ disk nativeId, mbrWrite J M buf size st d b = { st with disk := disk } ∧ nativeId < M.mbrM ∧
      ∀ dup s, ∀ id < M.mbrM + M.mbrC, ∀ o < st.diskBlockSize,
        mbrCopy M.mbrSegmentSize { st with disk := disk } dup s id o =
          if s = b / M.mbrSegmentSize ∧ o < size then
            if id < M.mbrM then if id = nativeId then buf o
            else mbrCopy M.mbrSegmentSize st dup s id o
              else mbrCopy M.mbrSegmentSize st false s id o + mbrCoeff M (id - M.mbrM) nativeId *
              (mbrCopy M.mbrSegmentSize st false s nativeId o + buf o)
          else mbrCopy M.mbrSegmentSize st dup s id o := by
  obtain ⟨hd, hpos, hlt⟩ := hplace
  have hround := (roundToBlockSize_le hsize).1
  obtain ⟨nativeId, hnative⟩ := Int.eq_ofNat_of_zero_le hpos
  have hseg := hM.segment_eq
  have hn := hM.pos
  obtain ⟨hid, hat⟩ := mbrAt_of_find (show 0 < M.mbrSegmentSize by omega)
    (show d ≤ M.mbrSegmentSize by omega) hnative
  have hnm : nativeId < M.mbrM := by omega
  let s₀ := b / M.mbrSegmentSize
  let buf2 : Buf := if 0 < M.mbrC then xorBuf (roundToBlockSize st size)
    (readDisk st d (fun _ => 0) (roundToBlockSize st size) (b * st.diskBlockSize)) buf
      else fun _ => 0
  -- the first two writes are those of both copies of the native block
  have hwrite : mbrWrite J M buf size st d b = (List.range M.mbrC).foldl
      (mbrUpdateCode J M s₀ nativeId buf2 size (roundToBlockSize st size))
      (mbrWriteCopies M s₀ nativeId buf size st) := by
    have hdisk : mbrGetDiskId nativeId M.mbrSegmentSize = d := congrArg Prod.fst hat
    simp only [mbrWrite, hnative, Int.toNat_natCast]
    rw [mbrWriteCopies, hat, mbrAt, if_pos rfl, hdisk]
  obtain ⟨disk, hfold, hcopy⟩ := @foldl_mbrUpdateCode J M n k
    (mbrWriteCopies M s₀ nativeId buf size st) size hM hJ hgen hsize s₀ nativeId buf2
      (roundToBlockSize st size) hround M.mbrC le_rfl
  refine ⟨disk, nativeId, hwrite.trans hfold, hnm, fun dup s id hid o ho => ?_⟩
  refine (hcopy dup s id hid o ho).trans ?_
  rw [mbrCopy_mbrWriteCopies hM (show nativeId < M.mbrM + M.mbrC by omega) buf hsize hid ho,
    mbrCopy_mbrWriteCopies hM (show nativeId < M.mbrM + M.mbrC by omega) buf hsize hid ho]
  by_cases hs : s = s₀ ∧ o < size
  · obtain ⟨rfl, hlt⟩ := hs
    by_cases hidm : id < M.mbrM
    · rw [if_neg (by omega)]
      by_cases hnat : id = nativeId
      · rw [if_pos ⟨rfl, hnat, hlt⟩, if_pos ⟨rfl, hlt⟩, if_pos hidm, if_pos hnat]
      · rw [if_neg fun h => hnat h.2.1, if_pos ⟨rfl, hlt⟩, if_pos hidm, if_neg hnat]
    · have hold : buf2 o = mbrCopy M.mbrSegmentSize st false s₀ nativeId o + buf o := by
        simp only [buf2, if_pos (show 0 < M.mbrC by omega), mbrCopy, s₀, hat]
        rw [xorBuf_of_lt _ _ (hlt.trans_le hround), readDisk_block _ _ _ _ _ (hlt.trans_le hround)]
      rw [if_pos (by omega), if_neg (by omega), if_pos ⟨rfl, hlt⟩, if_neg hidm, hold]
  · rw [if_neg (by omega), if_neg (by omega), if_neg hs]

/-- A write keeps the copies and the coded blocks consistent. -/
theorem MbrConsistent.mbrWrite (hM : M.Fits n k) (hJ : J.Multiplies)
    (hgen : ∀ i, M.generatorMatrix i < 256) (hsize : size ≤ st.diskBlockSize) {d b : ℕ}
    (hplace : MbrData M n d b) (buf : Buf) (h : MbrConsistent M st) :
    MbrConsistent M (mbrWrite J M buf size st d b) := by
  obtain ⟨disk, nativeId, heq, hnative, hcopy⟩ := mbrCopy_mbrWrite hM hJ hgen hsize hplace buf
  rw [heq]
  refine ⟨fun s o ho id hid => ?_, fun s o ho i hi => ?_⟩
  · have ho : o < st.diskBlockSize := ho
    rw [hcopy false s id hid o ho, hcopy true s id hid o ho, h.copies s o ho id hid]
  · have ho : o < st.diskBlockSize := ho
    rw [hcopy false s _ (by omega) o ho]
    by_cases hs : s = b / M.mbrSegmentSize ∧ o < size
    · have hdata : ∀ j < M.mbrM, mbrCopy M.mbrSegmentSize { st with disk := disk } false s j o =
          Function.update (fun j => mbrCopy M.mbrSegmentSize st false s j o) nativeId
            (buf o) j := by
        intro j hj
        rw [hcopy false s j (by omega) o ho, if_pos hs, if_pos hj, Function.update_apply]
      have hsum : ∑ j ∈ Finset.range M.mbrM,
          mbrCoeff M i j * mbrCopy M.mbrSegmentSize { st with disk := disk } false s j o =
          ∑ j ∈ Finset.range M.mbrM, mbrCoeff M i j *
            Function.update (fun j => mbrCopy M.mbrSegmentSize st false s j o) nativeId (buf o) j :=
        Finset.sum_congr rfl fun j hj => by rw [hdata j (Finset.mem_range.1 hj)]
      rw [hsum, LinearCode.sum_update hnative, if_pos hs, if_neg (by omega),
        Nat.add_sub_cancel_left, h.coded s o ho i hi, CharTwo.sub_eq_add, add_comm (buf o)]
    · rw [if_neg hs, h.coded s o ho i hi]
      refine Finset.sum_congr rfl fun j hj => ?_
      have := Finset.mem_range.1 hj
      rw [hcopy false s j (by omega) o ho, if_neg hs]

end Write

/-! ### Runs -/

/-- A selected block is native. -/
theorem mbrAllocate_ok {M : Coding4Mbr} {n k : ℕ} (hM : M.Fits n k) {st : NcfsState}
    (htotal : st.diskTotalNum = n) (req : ℕ) (hlist : ∀ x ∈ st.spaceList, MbrData M n x.1 x.2) :
    Allocated (MbrData M n) st (mbrAllocate M st req) := by
  have hseg := hM.segment_eq
  have hn := hM.pos
  refine takeBlock_allocated (skipBlocks_same st _) (by rw [skipBlocks_eq]) (by rw [skipBlocks_eq])
    hlist (fun d b hsel => ?_) req
  obtain ⟨hd, ⟨-, hne, hlt⟩, rfl⟩ := Frontier.scan_some hsel
  rw [(skipBlocks_same st _).total_eq, htotal] at hd
  exact ⟨hd, mbrFindBlockId_nonneg (by omega) (by omega) hne, hlt⟩

/-- Only the devices are written. -/
theorem mbrWrite_eq (J : Jerasure) (M : Coding4Mbr) (buf : Buf) (size : ℕ) (st : NcfsState)
    (d b : ℕ) :
    mbrWrite J M buf size st d b = { st with disk := (mbrWrite J M buf size st d b).disk } := by
  rw [mbrWrite]
  refine Loops.foldl_inv (fun st' : NcfsState => st' = { st with disk := st'.disk })
    (fun st' i _ h => ?_) rfl
  simp only [mbrUpdateCode, mbrWriteCopies, writeDisk]
  rw [h]

theorem mbr_keeps {J : Jerasure} {M : Coding4Mbr} {n k k' bs : ℕ} (hM : M.Fits n k)
    (hJ : J.Multiplies) (hgen : ∀ i, M.generatorMatrix i < 256) :
    Keeps n k' bs (MbrData M n) (fun size => size ≤ bs)
      (MbrConsistent M) (mbrAllocate M) (mbrWrite J M) where
  alloc_ok st req htotal _ hlist := mbrAllocate_ok hM htotal req hlist
  write_eq := mbrWrite_eq J M
  write_ok buf size st d b _ _ hblock hsize hplace h := by
    subst hblock
    exact h.mbrWrite hM hJ hgen hsize hplace buf
  same _ _ hsame _ h := h.same hsame

/-- **The copies and the coded blocks of a run.**  For `1 ≤ k < n`, in every run of writes and frees
from zero disks, both copies of every block of every segment are equal, and each coded block is the
combination of the native blocks of its segment with its row of the generator matrix. -/
theorem Coding4Mbr.encode_run_consistent {J : Jerasure} (hJ : J.Multiplies) {n k bs : ℕ}
    (hk : 1 ≤ k) (hkn : k < n) {vandermonde : ℕ → ℕ → ℕ → ℕ → ℕ}
    (hgen : ∀ i, (Coding4Mbr.new n k vandermonde).generatorMatrix i < 256) {st : NcfsState}
    (htotal : st.diskTotalNum = n) (hdata : st.dataDiskNum = k) (hblock : st.diskBlockSize = bs)
    (hlist : st.spaceList = []) (hzero : ∀ d < n, ∀ x, st.disk d x = 0) {ops : List StoreOp}
    (hops : ∀ op ∈ ops, op.Sized fun size => size ≤ bs) :
    MbrConsistent (Coding4Mbr.new n k vandermonde)
      (Machine.run (storeStep ((Coding4Mbr.new n k vandermonde).encode J)) ⟨st, []⟩ ops).st := by
  have hM := Coding4Mbr.new_spec hk hkn vandermonde
  have hplaced : Placed n k bs (MbrData (Coding4Mbr.new n k vandermonde) n) ⟨st, []⟩ :=
    ⟨htotal, hdata, hblock, by simp [hlist], by simp⟩
  exact ((mbr_keeps hM hJ hgen).run hplaced (.of_zero hM hzero) hops).2

/-- Three disks, two native blocks and a coded one: a write, a free and a write. -/
theorem Coding4Mbr.encode_run_consistent_three :
    let st := NcfsState.blank 3 1 4 (by decide) 8
    let ops : List StoreOp := [.encode (fun _ => Byte.ofNat 5) 4, .free 0 0,
      .encode (fun _ => Byte.ofNat 6) 4]
    MbrConsistent (Coding4Mbr.new 3 1 fun _ _ _ _ => 1)
      (Machine.run (storeStep ((Coding4Mbr.new 3 1 fun _ _ _ _ => 1).encode .sample))
        ⟨st, []⟩ ops).st := by
  intro st ops
  refine @Coding4Mbr.encode_run_consistent .sample Jerasure.sample_multiplies 3 1 4 le_rfl
    (by decide)
    (fun _ _ _ _ => 1) (fun _ => show 1 < 256 by decide) st rfl rfl rfl rfl (fun _ _ _ => rfl) ops
    fun op hop => ?_
  simp only [ops, List.mem_cons, List.not_mem_nil, or_false] at hop
  rcases hop with rfl | rfl | rfl
  · exact le_rfl
  · trivial
  · exact le_rfl

end Ncfs
