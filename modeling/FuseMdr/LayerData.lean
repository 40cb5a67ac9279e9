/-
What a call of `encode` does to the data.

Whatever the code of a layer, a call writes its bytes to the block that it returns and changes no
other block at a place for data: what else it writes is parity, a copy, or a code block.  This holds
of calls that return a block at a place for data.  All layers select such blocks but RAID6, where a
disk may have to move over two code blocks and is moved over one.

Main definitions:

* `Ncfs.CodingLayer.DataPlace`, `Ncfs.CodingLayer.blockNo` — the places for data, and where their
  blocks lie;
* `Ncfs.CodingLayer.Fits` — the number of disks and the parameters suit the layer;
* `Ncfs.CodingLayer.decode` — `decode` of the layers;
* `Ncfs.KeepsData`, `Ncfs.WritesData` — what is done to the blocks at places for data.

Main results:

* `Ncfs.CodingLayer.select_data` — what is selected is at a place for data;
* `Ncfs.CodingLayer.encode_data` — a call writes its own data;
* `Ncfs.CodingLayer.decode_healthy` — a working disk is read.
-/
import FuseMdr.CodingLayer
import FuseMdr.MbrDecode
import FuseMdr.Raid6Decode
import FuseMdr.SrcDecode

set_option relaxedAutoImplicit false
set_option autoImplicit false

namespace Ncfs

/-! ### Writes and the data -/

/-- The block of a byte. -/
theorem block_div {bs q o : ℕ} (ho : o < bs) : (q * bs + o) / bs = q := by
  rw [Nat.mul_comm, Nat.mul_add_div (by omega), Nat.div_eq_of_lt ho, Nat.add_zero]

/-- Its place in the block. -/
theorem block_mod {bs q o : ℕ} (ho : o < bs) : (q * bs + o) % bs = o := by
  rw [Nat.mul_comm, Nat.mul_add_mod, Nat.mod_eq_of_lt ho]

/-- The blocks at the places for data, which lie at block `no` of their disks, are unchanged. -/
structure KeepsData (place : ℕ → ℕ → Prop) (no : ℕ → ℕ) (st st' : NcfsState) : Prop
    extends SameStore st st' where
  /-- The bytes. -/
  data : ∀ x y o, place x y → o < st.diskBlockSize → st'.block x (no y) o = st.block x (no y) o

/-- One of these blocks begins with the bytes of a buffer, and all else is unchanged. -/
structure WritesData (place : ℕ → ℕ → Prop) (no : ℕ → ℕ) (st st' : NcfsState) (d b : ℕ) (buf : Buf)
    (size : ℕ) : Prop extends SameStore st st' where
  /-- The bytes. -/
  data : ∀ x y o, place x y → o < st.diskBlockSize →
    st'.block x (no y) o = if x = d ∧ y = b ∧ o < size then buf o else st.block x (no y) o

section Data

variable {place : ℕ → ℕ → Prop} {no : ℕ → ℕ} {st st₁ st₂ : NcfsState} {d b size : ℕ} {buf : Buf}

theorem KeepsData.rfl : KeepsData place no st st := ⟨.rfl, fun _ _ _ _ _ => Eq.refl _⟩

theorem SameContents.keepsData (h : SameContents st st₁) : KeepsData place no st st₁ := by
  refine ⟨h.toSameStore, fun x y o _ _ => ?_⟩
  rw [NcfsState.block, NcfsState.block, h.block_eq, h.disk_eq]

theorem KeepsData.trans (h : KeepsData place no st st₁) (h' : KeepsData place no st₁ st₂) :
    KeepsData place no st st₂ := by
  refine ⟨h.toSameStore.trans h'.toSameStore, fun x y o hplace ho => ?_⟩
  rw [h'.data x y o hplace (ho.trans_eq h.block_eq.symm), h.data x y o hplace ho]

theorem KeepsData.writes (h : KeepsData place no st st₁)
    (h' : WritesData place no st₁ st₂ d b buf size) :
    WritesData place no st st₂ d b buf size := by
  refine ⟨h.toSameStore.trans h'.toSameStore, fun x y o hplace ho => ?_⟩
  rw [h'.data x y o hplace (ho.trans_eq h.block_eq.symm), h.data x y o hplace ho]

theorem WritesData.keeps (h : WritesData place no st st₁ d b buf size)
    (h' : KeepsData place no st₁ st₂) :
    WritesData place no st st₂ d b buf size := by
  refine ⟨h.toSameStore.trans h'.toSameStore, fun x y o hplace ho => ?_⟩
  rw [h'.data x y o hplace (ho.trans_eq h.block_eq.symm), h.data x y o hplace ho]

/-- Writes to a disk without data. -/
theorem keepsData_writeDisk {p : ℕ} (hp : ∀ x y, place x y → x ≠ p) (buf : Buf) (size offset : ℕ) :
    KeepsData place no st (writeDisk st p buf size offset) := by
  refine ⟨⟨rfl, rfl, rfl, rfl⟩, fun x y o hplace _ => ?_⟩
  exact if_neg fun h => hp x y hplace h.1

/-- A write to a block that holds no data. -/
theorem keepsData_writeBlock {p c : ℕ} (hp : ∀ x y, place x y → ¬ (x = p ∧ no y = c)) (buf : Buf)
    (hsize : size ≤ st.diskBlockSize) :
    KeepsData place no st (writeDisk st p buf size (c * st.diskBlockSize)) := by
  refine ⟨⟨rfl, rfl, rfl, rfl⟩, fun x y o hplace ho => ?_⟩
  rw [block_writeDisk st p c size buf hsize ho, if_neg fun h => hp x y hplace ⟨h.1, h.2.1⟩]

theorem writesData_writeDisk (hno : Function.Injective no)
    (hsize : size ≤ st.diskBlockSize) (d b : ℕ) (buf : Buf) :
    WritesData place no st (writeDisk st d buf size (no b * st.diskBlockSize)) d b buf size := by
  refine ⟨⟨rfl, rfl, rfl, rfl⟩, fun x y o _ ho => ?_⟩
  rw [block_writeDisk st d (no b) size buf hsize ho]
  simp only [hno.eq_iff]

/-- A loop of writes that each keep the data. -/
theorem KeepsData.foldl {ι : Type*} {f : NcfsState → ι → NcfsState} {l : List ι}
    (h : ∀ st₁, SameStore st st₁ → ∀ i ∈ l, KeepsData place no st₁ (f st₁ i)) :
    KeepsData place no st (l.foldl f st) :=
  Loops.foldl_inv (fun st₁ => KeepsData place no st st₁)
    (fun st₁ i hi hkeeps => hkeeps.trans (h st₁ hkeeps.toSameStore i hi)) .rfl

end Data

namespace CodingLayer

/-! ### The places for data -/

/-- The block of the disk behind block `b` of the layer. -/
def blockNo : CodingLayer → ℕ → ℕ
  | srcRs _ _ srcF, b => srcBlockNo srcF b
  | _, b => b

/-- The places that hold data. -/
def DataPlace : CodingLayer → NcfsState → ℕ → ℕ → Prop
  | raid0, _ | jbod, _ => fun _ _ => True
  | raid1, st => fun d _ => d < st.diskTotalNum / 2
  | raid4, st => Raid4Data st.diskTotalNum
  | raid5, st => Raid5Data st.diskTotalNum
  | raid6 _, st => fun d b => d ∈ dataDisks st.diskTotalNum b
  | rs _ _, st | srcRs _ _ _, st => fun d _ => d < st.dataDiskNum
  | mbr M _, st => MbrData M st.diskTotalNum
  | mdr1 _, st | raid6noRotate _, st | evenodd _, st | rdp _, st =>
      fun d _ => d < st.diskTotalNum - 2

/-- The number of disks and the parameters suit the layer.  For RAID6 all coefficients of `encode`
are defined. -/
def Fits : CodingLayer → NcfsState → Prop
  | raid5, st => 2 ≤ st.diskTotalNum
  | raid6 _, st | raid6noRotate _, st => st.diskTotalNum ≤ 10
  | srcRs _ _ srcF, _ => 1 ≤ srcF
  | mbr M _, st => ∃ k, M.Fits st.diskTotalNum k
  | _, _ => True

variable {L : CodingLayer} {st st' : NcfsState}

/-- The places depend on the numbers of disks only. -/
theorem dataPlace_eq (L : CodingLayer) (h : SameStore st st') :
    L.DataPlace st' = L.DataPlace st := by
  cases L <;> simp only [DataPlace, h.total_eq, h.data_eq]

theorem fits_iff (L : CodingLayer) (h : SameStore st st') : L.Fits st' ↔ L.Fits st := by
  cases L <;> simp only [Fits, h.total_eq]

theorem strictMono_srcBlockNo (f : ℕ) : StrictMono (srcBlockNo f) :=
  fun _ _ hlt => Nat.add_lt_add_of_lt_of_le hlt (Nat.div_le_div_right hlt.le)

/-- What is selected is at a place for data.  Under RAID6 a disk may still stand on a code block. -/
theorem select_data (hfits : L.Fits st) (hlayer : ∀ undefinedDisk, L ≠ raid6 undefinedDisk)
    {req d b : ℕ} (h : L.select (L.skip st) req = some (d, b)) : L.DataPlace st d b := by
  have htotal := (L.skip_contents st).total_eq
  have hdata := (L.skip_contents st).data_eq
  have hscan : ∀ {disks}, selectDisk st disks req = some (d, b) → d < disks :=
    fun h => (selectDisk_eq_some h).1
  cases L with
  | raid0 => trivial
  | jbod => trivial
  | raid1 => exact (firstFit_eq_some h).1
  | raid4 =>
      have hd := hscan h
      exact ⟨by omega, by omega⟩
  | raid5 =>
      obtain ⟨hd, hb⟩ := selectDisk_eq_some h
      replace hd := hd.trans_eq htotal
      refine ⟨hd, ?_⟩
      rw [hb, skip, skipBlocks_eq]
      exact skip_ne_raid5ParityDiskId hfits st.freeOffset hd
  | raid6 undefinedDisk => exact absurd rfl (hlayer undefinedDisk)
  | rs => exact (rsSelect_some h).1
  | srcRs => exact (rsSelect_some h).1
  | mbr M J =>
      obtain ⟨k, hM⟩ := hfits
      obtain ⟨hd, ⟨-, hne, hlt⟩, rfl⟩ := Frontier.scan_some h
      have hseg := hM.segment_eq
      have hn := hM.pos
      replace hd := hd.trans_eq htotal
      exact ⟨hd, mbrFindBlockId_nonneg (by omega) (by omega) hne, hlt⟩
  | mdr1 => exact hscan h
  | raid6noRotate => exact hscan h
  | evenodd => exact hscan h
  | rdp => exact hscan h

end CodingLayer

/-! ### The writes of the layers -/

section Writes

variable {n k d b size : ℕ} {buf : Buf} {st : NcfsState}

/-- The mirror is on the other half of the disks. -/
theorem raid1Write_data (hsize : size ≤ st.diskBlockSize) (hd : d < st.diskTotalNum / 2) :
    WritesData (fun d _ => d < st.diskTotalNum / 2) id st
      (raid1Write buf size st d b) d b buf size := by
  refine (writesData_writeDisk Function.injective_id hsize d b buf).keeps
    (keepsData_writeDisk (fun x _ hx => ?_) buf size _)
  change x ≠ st.diskTotalNum - d - 1
  omega

theorem raid4Write_data (hsize : size ≤ st.diskBlockSize) :
    WritesData (Raid4Data st.diskTotalNum) id st (raid4Write buf size st d b) d b buf size :=
  (writesData_writeDisk Function.injective_id hsize d b buf).keeps
    (keepsData_writeDisk (fun _ _ hx => hx.2) _ size _)

theorem raid5Write_data (hsize : size ≤ st.diskBlockSize) :
    WritesData (Raid5Data st.diskTotalNum) id st (raid5Write buf size st d b) d b buf size := by
  refine (writesData_writeDisk Function.injective_id hsize d b buf).keeps
    (keepsData_writeBlock (fun x y hx heq => ?_) _ hsize)
  obtain ⟨rfl, rfl⟩ := heq
  exact hx.2 rfl

/-- Rows with a place for data have three blocks. -/
theorem three_le_of_mem_dataDisks (h : d ∈ dataDisks n b) : 3 ≤ n := by
  obtain ⟨hlt, hp, hq⟩ := mem_dataDisks.1 h
  have hp' := parityDiskId_lt (b := b) (show 0 < n by omega)
  have hq' := codeDiskId_lt (b := b) (show 0 < n by omega)
  by_contra hn
  have hpq := parityDiskId_ne_codeDiskId (b := b) (show 2 ≤ n by omega)
  omega

theorem raid6Write_data {st₁ : NcfsState} (h : Raid6Written st st₁ d b buf size) :
    WritesData (fun d b => d ∈ dataDisks st.diskTotalNum b) id st st₁ d b buf size := by
  refine ⟨by rw [h.eq_disk]; exact ⟨rfl, rfl, rfl, rfl⟩, fun x y o hx ho => ?_⟩
  by_cases hwritten : y = b ∧ o < size
  · obtain ⟨rfl, hlt⟩ := hwritten
    refine (h.data x hx o hlt).trans (if_congr ?_ rfl rfl)
    exact ⟨fun hd => ⟨hd, rfl, hlt⟩, fun hd => hd.1⟩
  · rw [if_neg fun hd => hwritten hd.2]
    exact h.frame x y o ho fun hy => not_lt.1 fun hlt => hwritten ⟨hy, hlt⟩

theorem noRotateWrite_data {st₁ : NcfsState} {c : ℕ → Byte}
    (h : PQWritten st st₁ (st.diskTotalNum - 2) (st.diskTotalNum - 1) c d b buf size) :
    WritesData (fun d _ => d < st.diskTotalNum - 2) id st st₁ d b buf size := by
  refine ⟨by rw [h.eq_disk]; exact ⟨rfl, rfl, rfl, rfl⟩, fun x y o hx ho => ?_⟩
  by_cases hwritten : y = b ∧ o < size
  · obtain ⟨rfl, hlt⟩ := hwritten
    have hmem : x ∈ (Finset.range st.diskTotalNum).filter fun i =>
        i ≠ st.diskTotalNum - 2 ∧ i ≠ st.diskTotalNum - 1 := by
      rw [Finset.mem_filter, Finset.mem_range]
      omega
    refine (h.data x hmem o hlt).trans (if_congr ?_ rfl rfl)
    exact ⟨fun hd => ⟨hd, rfl, hlt⟩, fun hd => hd.1⟩
  · rw [if_neg fun hd => hwritten hd.2]
    exact h.frame x y o ho fun hy => not_lt.1 fun hlt => hwritten ⟨hy, hlt⟩

theorem rsWrite_data (J : Jerasure) (matrix : ℕ → ℕ) (hsize : size ≤ st.diskBlockSize) :
    WritesData (fun d _ => d < st.dataDiskNum) id st
      (rsWrite J matrix buf size st d b) d b buf size := by
  refine (writesData_writeDisk Function.injective_id hsize d b buf).keeps
    (.foldl fun st₁ hst i _ => ?_)
  refine keepsData_writeDisk (fun x _ hx => ?_) _ size _
  have hdata : st₁.dataDiskNum = st.dataDiskNum := hst.data_eq
  omega

/-- The blocks of the layer are never the last ones of their groups. -/
theorem srcBlockNo_ne {f : ℕ} (hf : 1 ≤ f) (y b : ℕ) :
    srcBlockNo f y ≠ (f + 1) * (b / f + 1) - 1 := by
  rw [srcBlockNo_eq, Nat.mul_succ]
  intro heq
  have hlt := Nat.mod_lt y hf
  have hmod := congrArg (· % (f + 1)) heq
  rw [show (f + 1) * (b / f) + (f + 1) - 1 = (f + 1) * (b / f) + f by omega] at hmod
  simp only [Nat.mul_add_mod, Nat.mod_eq_of_lt (Nat.lt_succ_of_lt hlt),
    Nat.mod_eq_of_lt (Nat.lt_succ_self f)] at hmod
  omega

/-- The SRC blocks lie between the blocks of the layer, wherever their disks are. -/
theorem srcWrite_data (J : Jerasure) (matrix : ℕ → ℕ) {f : ℕ} (hf : 1 ≤ f)
    (hsize : size ≤ st.diskBlockSize) : WritesData (fun d _ => d < st.dataDiskNum) (srcBlockNo f) st
      (srcWrite J matrix f buf size st d b) d b buf size := by
  have hsrc : ∀ (st₁ : NcfsState) (buf : Buf) (d : ℕ), SameStore st st₁ →
      KeepsData (fun d _ => d < st.dataDiskNum) (srcBlockNo f) st₁ (writeDisk st₁
        (srcCodePlace st₁.diskTotalNum f d b).1 buf size
        ((srcCodePlace st₁.diskTotalNum f d b).2 * st₁.diskBlockSize)) := by
    intro st₁ buf d hst
    exact keepsData_writeBlock (fun x y _ heq => srcBlockNo_ne hf y b heq.2) buf
      (hsize.trans_eq hst.block_eq.symm)
  refine (KeepsData.writes (hsrc st _ d .rfl) (writesData_writeDisk
    (CodingLayer.strictMono_srcBlockNo f).injective ?_ d b buf)).keeps
      (.foldl fun st₁ hst i _ => ?_)
  · exact hsize
  have hst : SameStore st st₁ := ⟨hst.total_eq, hst.data_eq, hst.block_eq, hst.status_eq⟩
  refine (hsrc st₁ _ (st₁.dataDiskNum + i) hst).trans
    (keepsData_writeDisk (fun x _ hx => ?_) _ size _)
  have hdata := hst.data_eq
  omega

/-- The second copies and the coded blocks lie where no native block does. -/
theorem mbrWrite_data (J : Jerasure) {M : Coding4Mbr} (hM : M.Fits st.diskTotalNum k)
    (hsize : size ≤ st.diskBlockSize) (hplace : MbrData M st.diskTotalNum d b) :
    WritesData (MbrData M st.diskTotalNum) id st (mbrWrite J M buf size st d b) d b buf size := by
  have hseg := hM.segment_eq
  have hn := hM.pos
  have hrow := hM.total_eq
  rw [← hseg] at hrow
  have hnative : ∀ {d b}, MbrData M st.diskTotalNum d b → ∃ id : ℕ,
      mbrFindBlockId d b M.mbrSegmentSize = id ∧ id < M.mbrM ∧
        mbrAt M.mbrSegmentSize false (b / M.mbrSegmentSize) id = (d, b) := by
    rintro d b ⟨hd, hpos, hlt⟩
    obtain ⟨id, hid⟩ := Int.eq_ofNat_of_zero_le hpos
    exact ⟨id, hid, by omega, (mbrAt_of_find (by omega) (by omega) hid).2⟩
  -- the other blocks that are written are no first copies of native blocks
  have hother : ∀ dup s id, id < M.mbrM + M.mbrC → (dup = true ∨ M.mbrM ≤ id) → ∀ x y,
      MbrData M st.diskTotalNum x y → ¬ (x = (mbrAt M.mbrSegmentSize dup s id).1 ∧
        y = (mbrAt M.mbrSegmentSize dup s id).2) := by
    rintro dup s id hid hkind x y hxy ⟨hx, hy⟩
    obtain ⟨id', -, hlt, hat⟩ := hnative hxy
    obtain ⟨hdup, -, heq⟩ := mbrAt_inj (by omega) (by omega) (hat.trans (Prod.ext hx hy))
    rcases hkind with rfl | hle
    · cases hdup
    · omega
  obtain ⟨nativeId, hfind, hlt, hat⟩ := hnative hplace
  have hdup : ((mbrGetDupDiskId nativeId M.mbrSegmentSize).toNat,
      mbrGetDupBlockNo d nativeId M.mbrSegmentSize + b / M.mbrSegmentSize * M.mbrSegmentSize) =
        mbrAt M.mbrSegmentSize true (b / M.mbrSegmentSize) nativeId := by
    rw [mbrAt, if_pos rfl, show mbrGetDiskId nativeId M.mbrSegmentSize = d from congrArg
      Prod.fst hat]
  rw [Prod.ext_iff] at hdup
  rw [mbrWrite]
  simp only [hfind, Int.toNat_natCast]
  refine ((writesData_writeDisk Function.injective_id hsize d b buf).keeps
    (keepsData_writeBlock (fun x y hxy heq => ?_) buf hsize)).keeps (.foldl fun st₁ hst i hi => ?_)
  · exact hother _ _ _ (by omega) (.inl rfl) x y hxy ⟨heq.1.trans hdup.1, heq.2.trans hdup.2⟩
  · have hi := List.mem_range.1 hi
    have hsize' : size ≤ st₁.diskBlockSize := hsize.trans_eq hst.block_eq.symm
    exact (keepsData_writeBlock (hother false _ (M.mbrM + i) (by omega) (.inr (by omega))) _
      hsize').trans
        (keepsData_writeBlock (hother true _ (M.mbrM + i) (by omega) (.inl rfl)) _ hsize')

/-- The codes of an array lie on the last two disks. -/
theorem arrayWrite_data {stripSize xorSize qSize : ℕ} {findQBlocksId : ℕ → ℕ → List ℕ}
    (hsize : size ≤ st.diskBlockSize) :
    WritesData (fun d _ => d < st.diskTotalNum - 2) id st
      (arrayWrite stripSize findQBlocksId xorSize qSize st d b buf size) d b buf size := by
  have hcode : ∀ (st₁ : NcfsState) (p c len : ℕ), st.diskTotalNum - 2 ≤ p →
      KeepsData (fun d _ => d < st.diskTotalNum - 2) id st₁
        (xorIntoBlock st₁ p c buf (roundToBlockSize st size) xorSize len) :=
    fun st₁ p c len hp => keepsData_writeDisk (fun x _ hx => by omega) _ _ _
  have hkeeps := (hcode st (st.diskTotalNum - 2) b size le_rfl).trans
    (.foldl (l := findQBlocksId d (b % stripSize)) fun st₁ _ q _ =>
      hcode st₁ (st.diskTotalNum - 1) (q + b / stripSize * stripSize) qSize (by omega))
  exact hkeeps.writes (writesData_writeDisk Function.injective_id
    (hsize.trans_eq hkeeps.block_eq.symm) d b buf)

end Writes

/-! ### Calls -/

namespace CodingLayer

section Calls

variable {L : CodingLayer} {st st₁ st₂ : NcfsState} {d b size : ℕ} {buf : Buf}

/-- The call of an array code from the block that it took. -/
theorem arrayEncode_of_some {stripSize xorSize qSize : ℕ} {findQBlocksId : ℕ → ℕ → List ℕ}
    (h : arrayTake st stripSize (blockRequest st size) = (some (d, b), st₁)) :
    (arrayEncode stripSize findQBlocksId xorSize qSize st buf size).2 =
      arrayWrite stripSize findQBlocksId xorSize qSize st₁ d b buf size := by
  rw [arrayTake, blockRequest] at h
  rw [arrayEncode]
  cases halloc : arrayAllocate st stripSize (roundToBlockSize st size / st.diskBlockSize) with
  | mk taken st₂ =>
      rw [halloc] at h
      cases taken with
      | none => cases h
      | some x =>
          cases h
          rfl

theorem raid6Call_of_some {undefinedDisk : ℕ → ℕ → Byte}
    (h : raid6Allocate st (blockRequest st size) = (some (d, b), st₁))
    (hwrite : raid6Write .new st₁ d b buf size = .ok st₂) :
    (raid6Call undefinedDisk st buf size).2 = st₂ := by
  have hencode : Coding4Raid6.new.encode st buf size = .ok (some (d, b), st₂) := by
    simp only [Coding4Raid6.encode, h, hwrite]
    rfl
  rw [raid6Call, hencode]

theorem noRotateCall_of_some {undefinedDisk : ℕ → ℕ → Byte}
    (h : noRotateAllocate st (blockRequest st size) = (some (d, b), st₁))
    (hwrite : pqWrite .new st₁ (st₁.diskTotalNum - 2) (st₁.diskTotalNum - 1)
      (noRotateCoeff st₁.diskTotalNum) d b buf size = .ok st₂) :
      (noRotateCall undefinedDisk st buf size).2 = st₂ := by
  have hencode : Coding4Raid6noRotate.encode .new st buf size = .ok (some (d, b), st₂) := by
    simp only [Coding4Raid6noRotate.encode, h, hwrite]
    rfl
  rw [noRotateCall, hencode]

/-- The part of a call after the block has been chosen. -/
theorem write_data (buf : Buf) (hfits : L.Fits st₁) (hplace : L.DataPlace st₁ d b)
    (hsize : size ≤ st₁.diskBlockSize)
    (h : L.alloc st (blockRequest st size) = (some (d, b), st₁)) :
    WritesData (L.DataPlace st₁) L.blockNo st₁ (L.encode st buf size).2 d b buf size := by
  have hwith : ∀ {alloc : NcfsState → ℕ → Option (ℕ × ℕ) × NcfsState} {write},
      alloc st (blockRequest st size) = (some (d, b), st₁) →
        (encodeWith alloc write st buf size).2 = write buf size st₁ d b := by
    intro alloc write halloc
    rw [encodeWith, halloc]
    rfl
  cases L with
  | raid0 =>
      rw [show (raid0.encode st buf size).2 = _ from hwith h]
      exact writesData_writeDisk Function.injective_id hsize d b buf
  | raid1 =>
      rw [show (raid1.encode st buf size).2 = _ from hwith h]
      exact raid1Write_data hsize hplace
  | raid4 =>
      rw [show (raid4.encode st buf size).2 = _ from hwith h]
      exact raid4Write_data hsize
  | raid5 =>
      rw [show (raid5.encode st buf size).2 = _ from hwith h]
      exact raid5Write_data hsize
  | raid6 undefinedDisk =>
      obtain ⟨st₂, hwrite, hwritten⟩ :=
        raid6Write_spec (three_le_of_mem_dataDisks hplace) hfits d b buf hsize
      rw [show ((raid6 undefinedDisk).encode st buf size).2 = _ from raid6Call_of_some h hwrite]
      exact raid6Write_data hwritten
  | rs J matrix =>
      rw [show ((rs J matrix).encode st buf size).2 = _ from hwith h]
      exact rsWrite_data J matrix hsize
  | srcRs J matrix srcF =>
      rw [show ((srcRs J matrix srcF).encode st buf size).2 = _ from hwith h]
      exact srcWrite_data J matrix hfits hsize
  | jbod =>
      rw [show (jbod.encode st buf size).2 = _ from hwith h]
      exact writesData_writeDisk Function.injective_id hsize d b buf
  | mbr M J =>
      obtain ⟨k, hM⟩ := hfits
      rw [show ((mbr M J).encode st buf size).2 = _ from hwith h]
      exact mbrWrite_data J hM hsize hplace
  | mdr1 coding =>
      rw [show ((mdr1 coding).encode st buf size).2 = _ from arrayEncode_of_some h]
      exact arrayWrite_data hsize
  | raid6noRotate undefinedDisk =>
      have hn : d < st₁.diskTotalNum - 2 := hplace
      obtain ⟨st₂, hwrite, hwritten⟩ := pqWrite_spec
        (show st₁.diskTotalNum - 2 ≠ st₁.diskTotalNum - 1 by omega)
        (fun i hi huse => noRotateCoeff_eq (by omega) hfits hi huse) d b buf hsize
      rw [show ((raid6noRotate undefinedDisk).encode st buf size).2 = _ from noRotateCall_of_some h
        hwrite]
      exact noRotateWrite_data hwritten
  | evenodd coding =>
      rw [show ((evenodd coding).encode st buf size).2 = _ from arrayEncode_of_some h]
      exact arrayWrite_data hsize
  | rdp coding =>
      rw [show ((rdp coding).encode st buf size).2 = _ from arrayEncode_of_some h]
      exact arrayWrite_data hsize

/-- **Data of a call.**  A call that returns a block at a place for data writes its bytes to this
block, and leaves all others at places for data. -/
theorem encode_data (hfits : L.Fits st) (hplace : L.DataPlace st d b)
    (hsize : size ≤ st.diskBlockSize) (h : (L.encode st buf size).1 = some (d, b)) :
    WritesData (L.DataPlace st) L.blockNo st (L.encode st buf size).2 d b buf size := by
  obtain ⟨disk, heq⟩ := L.encode_eq st buf size
  have hcontents := L.alloc_contents st (blockRequest st size)
  have halloc : L.alloc st (blockRequest st size) =
      (some (d, b), (L.alloc st (blockRequest st size)).2) := by
    rw [heq] at h
    exact Prod.ext h rfl
  have hwrite := write_data buf ((L.fits_iff hcontents.toSameStore).2 hfits)
    ((L.dataPlace_eq hcontents.toSameStore).symm ▸ hplace)
      (hsize.trans_eq hcontents.block_eq.symm) halloc
  rw [L.dataPlace_eq hcontents.toSameStore] at hwrite
  exact hcontents.keepsData.writes hwrite

end Calls

/-! ### Reading -/

/-- `codingLayer->decode(disk_id, buf, size, offset)`.  What the array codes do for a disk that has
failed is a parameter. -/
def decode (degraded : NcfsState → ℕ → Buf → ℕ → ℕ → Except CodingError Buf) :
    CodingLayer → NcfsState → ℕ → Buf → ℕ → ℕ → Except CodingError Buf
  | raid0 => Coding4Raid0.decode
  | raid1 => Coding4Raid1.decode
  | raid4 => Coding4Raid4.decode
  | raid5 => Coding4Raid5.decode
  | raid6 _ => Coding4Raid6.decode .new
  | rs J matrix => Coding4RS.decode J matrix
  | srcRs J matrix srcF => Coding4SrcRS.decode J matrix srcF
  | jbod => Coding4Jbod.decode
  | mbr M J => M.decode J
  | raid6noRotate _ => Coding4Raid6noRotate.decode .new
  | mdr1 _ | evenodd _ | rdp _ => fun st diskId buf size offset =>
      if st.diskStatus diskId = 0 then .ok (readDisk st diskId buf size offset)
      else degraded st diskId buf size offset

/-- A buffer that is read over need not have been cleared. -/
theorem readDisk_memset0 (st : NcfsState) (d : ℕ) (buf : Buf) (size offset : ℕ) :
    readDisk st d (memset0 buf size) size offset = readDisk st d buf size offset := by
  funext j
  rw [readDisk, readDisk]
  split
  · rfl
  · exact if_neg ‹_›

/-- The bytes of a block of a working disk are read. -/
theorem decode_healthy {degraded : NcfsState → ℕ → Buf → ℕ → ℕ → Except CodingError Buf}
    (L : CodingLayer) {st : NcfsState} {d : ℕ} (hstatus : st.diskStatus d = 0) (buf : Buf)
    {b size o : ℕ} (ho : o < st.diskBlockSize) :
    L.decode degraded st d buf size (b * st.diskBlockSize + o) =
      .ok (readDisk st d buf size (L.blockNo b * st.diskBlockSize + o)) := by
  cases L with
  | srcRs J matrix srcF =>
      have hblock : (b * st.diskBlockSize + o) / st.diskBlockSize = b := block_div ho
      have hoffset : b * st.diskBlockSize + o + b / srcF * st.diskBlockSize =
          srcBlockNo srcF b * st.diskBlockSize + o := by
        rw [srcBlockNo, Nat.add_mul]
        omega
      simp only [decode, Coding4SrcRS.decode, hstatus, if_true, hblock, hoffset, blockNo]
  | raid6 undefinedDisk =>
      simp only [decode, Coding4Raid6.decode, hstatus, if_true, blockNo, readDisk_memset0]
  | raid6noRotate undefinedDisk =>
      simp only [decode, Coding4Raid6noRotate.decode, Coding4Raid6.decode, hstatus,
        if_true, blockNo, readDisk_memset0]
  | _ => exact if_pos hstatus

end CodingLayer

end Ncfs
