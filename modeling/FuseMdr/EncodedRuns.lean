/-
**What `encode` keeps in runs of file operations.**

A layer stores more than the data: copies, sums, code blocks.  Each call of `encode` has to leave
them right for the block that it is given, whatever the file and the offset.  Under every layer but
one the equations from which `decode` computes lost blocks hold in all runs of the file system.  RDP
forgets a `Q` block, and keeps the sums of its rows.

Main definitions:

* `Ncfs.RowSums` — `P` blocks are the sums of their rows;
* `Ncfs.CodingLayer.Kept` — the equations that each call keeps;
* `Ncfs.CodingLayer.ByteMatrix`, `Ncfs.CodingLayer.WholeWords` — the entries of the matrix are
  bytes; the sizes that suit the layer.

Main results:

* `Ncfs.CodingLayer.kept_encode` — a call of `encode` keeps them;
* `Ncfs.always_kept` — so does every run of writes that store all their blocks.
-/
import FuseMdr.ErasureLibrary
import FuseMdr.ReadYourWrites

set_option relaxedAutoImplicit false
set_option autoImplicit false

namespace Ncfs

/-! ### Writes and equations -/

section Writes

variable {n k d b size : ℕ} {buf : Buf} {st st₁ : NcfsState}

/-- Every `P` block is the sum of the data blocks of its row. -/
def RowSums (st : NcfsState) : Prop :=
  ∀ b, ∀ o < st.diskBlockSize, st.block st.dataDiskNum b o = ∑ j ∈ Finset.range st.dataDiskNum,
    st.block j b o

/-- Both copies of a block are written. -/
theorem raid1Write_mirrors (hsize : size ≤ st.diskBlockSize) (hd : d < st.diskTotalNum / 2)
    (h : ∀ d < st.diskTotalNum / 2, ∀ b, ∀ o < st.diskBlockSize,
      st.block (mirrorDiskId st.diskTotalNum d) b o = st.block d b o) {x : ℕ}
      (hx : x < st.diskTotalNum / 2) (y : ℕ)
    {o : ℕ} (ho : o < st.diskBlockSize) :
    (raid1Write buf size st d b).block (mirrorDiskId st.diskTotalNum x) y o =
      (raid1Write buf size st d b).block x y o := by
  let st' := writeDisk st d buf size (b * st.diskBlockSize)
  have hwrite : ∀ i, (raid1Write buf size st d b).block i y o =
      if i = mirrorDiskId st.diskTotalNum d ∧ y = b ∧ o < size then buf o
      else if i = d ∧ y = b ∧ o < size then buf o else st.block i y o := fun i =>
    (block_writeDisk st' _ b size buf hsize ho).trans
      (congrArg _ (block_writeDisk st d b size buf hsize ho))
  have hmirror : mirrorDiskId st.diskTotalNum x = mirrorDiskId st.diskTotalNum d ↔ x = d := by
    rw [mirrorDiskId, mirrorDiskId]
    omega
  have hother : mirrorDiskId st.diskTotalNum x ≠ d ∧ x ≠ mirrorDiskId st.diskTotalNum d := by
    rw [mirrorDiskId, mirrorDiskId]
    omega
  rw [hwrite, hwrite]
  simp only [hmirror, hother, false_and, if_false, h x hx y o ho]

/-- A write leaves all rows with both equations of RAID6 without rotation. -/
theorem noRotateRow_write (h : PQWritten st st₁ (st.diskTotalNum - 2) (st.diskTotalNum - 1)
      (diskCoeff st.diskTotalNum 0) d b buf size)
    (hrows : ∀ b, ∀ o < st.diskBlockSize, NoRotateRow st b o) :
    ∀ y, ∀ o < st₁.diskBlockSize, NoRotateRow st₁ y o := by
  have htotal : st₁.diskTotalNum = st.diskTotalNum := by rw [h.eq_disk]
  have hblock : st₁.diskBlockSize = st.diskBlockSize := by rw [h.eq_disk]
  intro y o ho
  rw [hblock] at ho
  rw [NoRotateRow, htotal]
  by_cases hy : y = b → size ≤ o
  · have hframe : ∀ x, st₁.block x y o = st.block x y o := fun x => h.frame x y o ho hy
    simp only [hframe]
    exact hrows y o ho
  · obtain ⟨rfl, hlt⟩ := Classical.not_imp.1 hy
    exact h.row o (by omega)

/-- A write to an unused block adds its bytes to the sum of the row and to `P`. -/
theorem arrayWrite_rowSums {stripSize xorSize qSize : ℕ} {findQBlocksId : ℕ → ℕ → List ℕ}
    (htotal : st.diskTotalNum = st.dataDiskNum + 2) (hsizes : CopySizes st size xorSize qSize)
    (hd : d < st.dataDiskNum) (hzero : ∀ o < st.diskBlockSize, st.block d b o = 0)
    (h : RowSums st) :
    RowSums (arrayWrite stripSize findQBlocksId xorSize qSize st d b buf size) := by
  have hshape : st.Shaped st.dataDiskNum st.diskBlockSize := ⟨htotal, rfl, rfl⟩
  have hwritten : (arrayWrite stripSize findQBlocksId xorSize qSize st d b buf size).Shaped _ _ :=
    arrayWrite_shaped hshape d b buf
  intro y o ho
  rw [hwritten.block_eq] at ho
  rw [hwritten.data_eq]
  have hbytes : ∀ x ≤ st.dataDiskNum,
      (arrayWrite stripSize findQBlocksId xorSize qSize st d b buf size).block x y o =
        st.block x y o + if (x = d ∨ x = st.dataDiskNum) ∧ y = b ∧ o < size then buf o else 0 := by
    intro x hx
    rw [arrayWrite_block hshape hsizes buf d b ho]
    by_cases hy : y = b ∧ o < size
    · obtain ⟨rfl, hlt⟩ := hy
      rw [if_pos hlt]
      by_cases hxd : x = d
      · subst hxd
        rw [if_pos ⟨rfl, rfl⟩, if_pos ⟨.inl rfl, rfl, hlt⟩, hzero o ho, zero_add]
      · rw [if_neg fun h => hxd h.1, if_neg (show x ≠ st.dataDiskNum + 1 by omega), add_zero]
        simp [hxd, hlt]
    · rw [if_neg (show ¬ ((x = d ∨ x = st.dataDiskNum) ∧ y = b ∧ o < size) from fun h => hy h.2),
        add_zero]
      split
      · rename_i hlt
        have hyb : y ≠ b := fun h => hy ⟨h, hlt⟩
        rw [if_neg fun h => hyb h.2, if_neg fun h => hyb h.2,
          if_neg (show x ≠ st.dataDiskNum + 1 by omega), add_zero, add_zero]
      · rfl
  rw [hbytes _ le_rfl, Finset.sum_congr rfl fun j hj => hbytes j (Finset.mem_range.1 hj).le,
    Finset.sum_add_distrib, h y o ho]
  congr 1
  by_cases hy : y = b ∧ o < size
  · rw [if_pos ⟨.inr rfl, hy⟩, Finset.sum_eq_single_of_mem d (Finset.mem_range.2 hd)]
    · rw [if_pos ⟨.inl rfl, hy⟩]
    · intro j hj hjd
      have := Finset.mem_range.1 hj
      exact if_neg fun h => h.1.elim hjd (by omega)
  · rw [if_neg fun h => hy h.2]
    exact (Finset.sum_eq_zero fun j _ => if_neg fun h => hy h.2).symm

end Writes

/-! ### What a call keeps -/

namespace CodingLayer

/-- The equations that every call of `encode` keeps.  Under RDP these are the sums of the rows. -/
def Kept : CodingLayer → NcfsState → Prop
  | rdp _, st => RowSums st
  | L, st => L.Encoded st

/-- The entries of the generator matrix are bytes. -/
def ByteMatrix : CodingLayer → Prop
  | rs _ matrix | srcRs _ matrix _ => ∀ i, matrix i < 256
  | mbr M _ => ∀ i, M.generatorMatrix i < 256
  | _ => True

/-- The size of a write that the layer adds up completely: the loops of SRC leave out the bytes
behind the last whole integer. -/
def WholeWords : CodingLayer → ℕ → Prop
  | srcRs _ _ _, size => size % sizeofInt = 0
  | _, _ => True

section Kept

variable {L : CodingLayer} {n k d b size : ℕ} {buf : Buf} {st st₁ : NcfsState}

/-- Only the contents of the store matter. -/
theorem Kept.of_contents (hkept : L.Kept st) (h : SameContents st st₁) : L.Kept st₁ := by
  have hsame : SameDevices st st₁ := ⟨h.total_eq, h.block_eq, h.status_eq, h.disk_eq⟩
  have hdata := h.data_eq
  obtain ⟨⟨htotal, hdata', hblock, hstatus⟩, hdisk⟩ := h
  cases L with
  | srcRs J matrix srcF => exact SrcEquations.same hkept hsame hdata
  | mbr M J => exact MbrConsistent.same hkept hsame
  | _ =>
      cases st
      cases st₁
      dsimp only at htotal hdata' hblock hdisk
      subst htotal hdata' hblock hdisk
      exact hkept

/-- Zero disks. -/
theorem kept_of_zero (hL : L.Configured n k) (hn : 0 < n) (htotal : st.diskTotalNum = n)
    (hdata : st.dataDiskNum = k) (hlist : st.spaceList = []) (hzero : ∀ d x, st.disk d x = 0) :
    L.Kept st := by
  subst htotal hdata
  have hdisks : ∀ d < st.diskTotalNum, ∀ x, st.disk d x = 0 := fun d _ => hzero d
  have hblock : ∀ d b o, st.block d b o = 0 := fun d b o => hzero ..
  cases L with
  | raid0 => trivial
  | jbod => trivial
  | raid1 => exact fun _ _ _ _ _ => by rw [hblock, hblock]
  | raid4 => exact .of_zero hdisks
  | raid5 => exact .of_zero hdisks
  | raid6 undefinedDisk => exact .of_zero hn hdisks
  | rs J matrix => exact .of_zero hdisks
  | srcRs J matrix srcF => exact .of_zero hL.2.2.1 hdisks
  | mbr M J => exact .of_zero hL.1 hdisks
  | mdr1 coding =>
      have hblank : Blank st (mdrCode st.dataDiskNum).dataDisks st.diskBlockSize :=
        ⟨⟨hL.1, rfl, rfl⟩, hlist, fun _ _ _ => hzero ..⟩
      exact hblank.storeParity
  | raid6noRotate undefinedDisk =>
      refine fun b o _ => ⟨?_, ?_⟩
      · simp [hblock]
      · simp [hblock]
  | evenodd coding =>
      refine fun g o _ => ⟨fun r _ => ?_, fun i _ => ?_⟩
      · simp [hblock]
      · simp [hblock]
  | rdp coding => exact fun b o _ => by simp [hblock]

/-- A call of an exact encoder to an unused block. -/
theorem storeParity_encode {C : Strip.Code} {E : ArrayEncoder C} {bs : ℕ}
    {enc : NcfsState → Buf → ℕ → Option (ℕ × ℕ) × NcfsState} (hexact : E.Exact)
    (henc : E.Implements bs enc)
    (hshape : st.Shaped C.dataDisks bs) (hlist : ∀ x ∈ st.spaceList, x.1 < C.dataDisks)
    (hsize : size ≤ bs)
    (hzero : ∀ o < bs, st.block d b o = 0) (h : (enc st buf size).1 = some (d, b))
    (hparity : StoreParity C st) :
    StoreParity C (enc st buf size).2 := by
  refine (hexact.storeParity_step_iff henc hshape hlist hparity buf hsize).2
    fun d' b' hpick o ho => ?_
  rw [← ArrayEncoder.encode_fst henc hshape, h] at hpick
  cases hpick
  exact hzero o (ho.trans_le hsize)

/-- A call under an array code. -/
theorem ArrayCode.kept_encode (harray : L.ArrayCode) (hL : L.Configured n k)
    (htotal : st.diskTotalNum = n) (hdata : st.dataDiskNum = k)
    (hlist : ∀ x ∈ st.spaceList, L.DataPlace st x.1 x.2) (hsize : size ≤ st.diskBlockSize)
    (hplace : L.DataPlace st d b) (hzero : ∀ o < st.diskBlockSize, st.block d (L.blockNo b) o = 0)
    (hkept : L.Kept st) (h : (L.encode st buf size).1 = some (d, b)) :
    L.Kept (L.encode st buf size).2 := by
  cases L with
  | mdr1 coding =>
      obtain ⟨hn, hk, st₀, hst₀, hnew⟩ := hL
      obtain ⟨coding', hnew', hc, -⟩ := Coding4Mdr1.new_ok (hst₀.symm ▸ hk)
      obtain rfl : coding = coding' := Except.ok.inj (hnew.symm.trans hnew')
      rw [hst₀] at hc
      have hshape : st.Shaped (mdrCode k).dataDisks st.diskBlockSize :=
        ⟨htotal.trans hn, hdata, rfl⟩
      have hlist : ∀ x ∈ st.spaceList, x.1 < k := fun x hx => by
        have hlt : x.1 < st.diskTotalNum - 2 := hlist x hx
        omega
      have hstep := storeParity_encode (mdrEncoder_exact hc hdata)
        (mdrEncoder_implements hc hdata st.diskBlockSize) hshape hlist hsize hzero h (hdata ▸ hkept)
      have hdata' : (coding.encode st buf size).2.dataDiskNum = k :=
        (ArrayEncoder.encode_shaped (mdrEncoder_implements hc hdata st.diskBlockSize) hshape buf
          size).data_eq
      change StoreParity (mdrCode (coding.encode st buf size).2.dataDiskNum) _
      rw [hdata']
      exact hstep
  | evenodd coding =>
      obtain ⟨hn, hk, st₀, rfl, rfl⟩ := hL
      have hshape : st.Shaped st₀.dataDiskNum st.diskBlockSize := ⟨htotal.trans hn, hdata, rfl⟩
      have hlist : ∀ x ∈ st.spaceList, x.1 < st₀.dataDiskNum := fun x hx => by
        have hlt : x.1 < st.diskTotalNum - 2 := hlist x hx
        omega
      have henc := Coding4Evenodd.encoder_implements hk st.diskBlockSize
      have hstep :=
        storeParity_encode (Coding4Evenodd.encoder_exact hk) henc hshape hlist hsize hzero h
        ((ElemTable.storeParity_iff_stripParity (Coding4Evenodd.sound hk) rfl).2 hkept)
      exact (ElemTable.storeParity_iff_stripParity (Coding4Evenodd.sound hk) rfl).1 hstep
  | rdp coding =>
      obtain ⟨hn, hk, st₀, rfl, rfl⟩ := hL
      have hshape : st.Shaped st₀.dataDiskNum st.diskBlockSize := ⟨htotal.trans hn, hdata, rfl⟩
      have hd : d < st.diskTotalNum - 2 := hplace
      have henc := Coding4Rdp.encoder_implements hk st.diskBlockSize
      have hpick : arrayPick st (blockRequest st size) = some (d, b) := by
        rw [← ArrayEncoder.encode_fst henc hshape buf size]
        exact h
      obtain ⟨hshape', hblock⟩ := chargeDisk_arrayAllocate hshape (Coding4Rdp.new st₀).row d b
        (blockRequest st size)
      have hsums : RowSums
          (chargeDisk (arrayAllocate st (Coding4Rdp.new st₀).row (blockRequest st size)).2 d b
            (blockRequest st size)) := by
        intro y o ho
        rw [hshape'.block_eq] at ho
        simp only [hshape'.data_eq, hblock]
        rw [← hdata]
        exact hkept y o ho
      have hsizes : CopySizes st size size (roundToBlockSize st size) :=
        (Coding4Rdp.sound hk).encoder.sizes st size hsize
      change RowSums (Coding4Rdp.encode (Coding4Rdp.new st₀) st buf size).2
      rw [Coding4Rdp.encode, arrayEncode_some buf hpick]
      refine arrayWrite_rowSums (by rw [hshape'.total_eq, hshape'.data_eq])
        (hsizes.congr hshape'.block_eq) ?_
        (fun o ho => ?_) hsums
      · rw [hshape'.data_eq]
        omega
      · rw [hblock]
        exact hzero o (ho.trans_eq hshape'.block_eq)
  | _ => exact harray.elim

/-- The part of a call of another layer after the block has been chosen. -/
theorem kept_write (harray : ¬ L.ArrayCode) (hL : L.Configured n k) (hbytes : L.ByteMatrix)
    (hfits : L.Fits st₁) (htotal : st₁.diskTotalNum = n) (hdata : st₁.dataDiskNum = k)
    (hwords : st₁.diskBlockSize % sizeofInt = 0)
    (hplace : L.DataPlace st₁ d b) (hsize : size ≤ st₁.diskBlockSize) (hwhole : L.WholeWords size)
    (hkept : L.Kept st₁) (h : L.alloc st (blockRequest st size) = (some (d, b), st₁)) :
    L.Kept (L.encode st buf size).2 := by
  have hwith : ∀ {alloc : NcfsState → ℕ → Option (ℕ × ℕ) × NcfsState} {write},
      alloc st (blockRequest st size) = (some (d, b), st₁) →
        (encodeWith alloc write st buf size).2 = write buf size st₁ d b := by
    intro alloc write halloc
    rw [encodeWith, halloc]
    rfl
  cases L with
  | raid0 => trivial
  | jbod => trivial
  | raid1 =>
      rw [show (raid1.encode st buf size).2 = _ from hwith h]
      exact fun x hx y o ho => raid1Write_mirrors hsize hplace hkept hx y ho
  | raid4 =>
      rw [show (raid4.encode st buf size).2 = _ from hwith h]
      exact raid4Write_rowsZero buf hsize hplace hkept
  | raid5 =>
      rw [show (raid5.encode st buf size).2 = _ from hwith h]
      exact raid5Write_rowsZero buf hwords hsize hplace hkept
  | raid6 undefinedDisk =>
      have hn := three_le_of_mem_dataDisks hplace
      obtain ⟨st₂, hwrite, hwritten⟩ := raid6Write_spec hn hfits d b buf hsize
      rw [show ((raid6 undefinedDisk).encode st buf size).2 = _ from raid6Call_of_some h hwrite]
      exact hwritten.parity (by omega) hkept
  | rs J matrix =>
      rw [show ((rs J matrix).encode st buf size).2 = _ from hwith h]
      exact RsParity.rsWrite hL.2.1 hbytes hsize hplace (htotal ▸ hdata ▸ hL.1) buf hkept
  | srcRs J matrix srcF =>
      obtain ⟨hkn, hf, hfn, hJ, -⟩ := hL
      rw [show ((srcRs J matrix srcF).encode st buf size).2 = _ from hwith h]
      exact (SrcEquations.srcWrite_iff hJ hbytes hf (htotal ▸ hfn)
        (htotal ▸ hdata ▸ hkn) hplace hsize buf hkept).2
        (.of_mod hwhole st₁ d b buf)
  | mbr M J =>
      rw [show ((mbr M J).encode st buf size).2 = _ from hwith h]
      exact MbrConsistent.mbrWrite hL.1 hL.2.1 hbytes hsize (htotal ▸ hplace) buf hkept
  | raid6noRotate undefinedDisk =>
      have hn : d < st₁.diskTotalNum - 2 := hplace
      obtain ⟨st₂, hwrite, hwritten⟩ := pqWrite_spec
        (show st₁.diskTotalNum - 2 ≠ st₁.diskTotalNum - 1 by omega)
        (fun i hi huse => noRotateCoeff_eq (by omega) hfits hi huse) d b buf hsize
      rw [show ((raid6noRotate undefinedDisk).encode st buf size).2 = _ from noRotateCall_of_some h
        hwrite]
      exact noRotateRow_write hwritten hkept
  | mdr1 coding => exact absurd trivial harray
  | evenodd coding => exact absurd trivial harray
  | rdp coding => exact absurd trivial harray

/-- **What a call keeps.**  A call of `encode` with at most one block, which is served an unused
block at a place for data, keeps the equations of its layer. -/
theorem kept_encode (hL : L.Configured n k) (hbytes : L.ByteMatrix) (hfits : L.Fits st)
    (htotal : st.diskTotalNum = n) (hdata : st.dataDiskNum = k)
    (hwords : st.diskBlockSize % sizeofInt = 0)
    (hlist : ∀ x ∈ st.spaceList, L.DataPlace st x.1 x.2) (hsize : size ≤ st.diskBlockSize)
    (hwhole : L.WholeWords size)
    (hplace : L.DataPlace st d b) (hzero : ∀ o < st.diskBlockSize, st.block d (L.blockNo b) o = 0)
    (hkept : L.Kept st) (h : (L.encode st buf size).1 = some (d, b)) :
    L.Kept (L.encode st buf size).2 := by
  by_cases harray : L.ArrayCode
  · exact harray.kept_encode hL htotal hdata hlist hsize hplace hzero hkept h
  · have hcontents := L.alloc_contents st (blockRequest st size)
    have halloc : L.alloc st (blockRequest st size) = (some (d, b),
        (L.alloc st (blockRequest st size)).2) := by
      obtain ⟨disk, heq⟩ := L.encode_eq st buf size
      rw [heq] at h
      exact Prod.ext h rfl
    exact kept_write harray hL hbytes ((L.fits_iff hcontents.toSameStore).2 hfits)
      (hcontents.total_eq.trans htotal)
      (hcontents.data_eq.trans hdata) (hcontents.block_eq.symm ▸ hwords)
      ((L.dataPlace_eq hcontents.toSameStore).symm ▸ hplace)
        (hsize.trans_eq hcontents.block_eq.symm) hwhole
      (hkept.of_contents hcontents) halloc

end Kept

end CodingLayer

/-! ### Runs of the file system -/

/-- The sizes of the write suit the layer. -/
def FileOp.WholeWords (L : CodingLayer) : FileOp → Prop
  | .write _ _ size _ _ => L.WholeWords size
  | .read _ _ _ _ _ => True

/-- A file system whose blocks hold the files, and whose store satisfies the equations of its
layer. -/
structure EncodedMirror (L : CodingLayer) (n k bs : ℕ) (s : Mirror) :
    Prop extends Mirrored L bs s where
  /-- `disk_total_num`. -/
  total_eq : s.fs.st.diskTotalNum = n
  /-- `data_disk_num`. -/
  data_eq : s.fs.st.dataDiskNum = k
  /-- The equations. -/
  kept : L.Kept s.fs.st

section Runs

variable {L : CodingLayer} {n k bs : ℕ} {s : Mirror} {fs : FsState} {files : String → ByteFile}
    {path : String}

/-- A call of `encode` is served a block at a place for data that is not in use and so holds
zeros. -/
theorem Mirrored.serves_unused (h : Mirrored L bs ⟨fs, files⟩) {w : BlockWrite} (hpos : 0 < w.size)
    (hsize : w.size ≤ bs) (hfinds : FindsBlock L fs w) {x : ℕ × ℕ}
    (hx : (L.encode fs.st w.buf w.size).1 = some x) :
    L.DataPlace fs.st x.1 x.2 ∧ ∀ o < bs, fs.st.block x.1 (L.blockNo x.2) o = 0 := by
  have hlist : fs.st.spaceList = [] := h.list_eq
  have hsafe : L.Safe fs.served (.encode w.buf w.size) := by
    refine ⟨?_, fun _ d b hhead => ?_⟩
    · change 1 ≤ blockRequest fs.st w.size
      rw [blockRequest_eq fs.st (hsize.trans_eq h.block_eq.symm), if_neg hpos.ne']
    · change (L.skip fs.st).spaceList.head? = some (d, b) at hhead
      rw [(L.skip_moved fs.st).list_eq, hlist] at hhead
      cases hhead
  have hencode : L.encode fs.st w.buf w.size = (some x, (L.encode fs.st w.buf w.size).2) :=
    Prod.ext hx rfl
  obtain ⟨-, -, hpass⟩ := hfinds x ((L.encode_fst fs.st w.buf w.size).symm.trans hx)
  have hplace := place_of_select h.fits (encode_of_nil hlist hencode).1 hpass
  have hnew : x ∉ fs.live := (CodingLayer.owned_step L h.owning.owned hsafe).2 x
    (by rw [FsState.served, hencode])
  exact ⟨hplace, fun o ho => h.unused x.1 x.2 o hplace hnew ho⟩

/-- A call of `encode` with its records. -/
theorem EncodedMirror.storeBlock (hL : L.Configured n k) (hbytes : L.ByteMatrix)
    (hwords : bs % sizeofInt = 0) (h : EncodedMirror L n k bs ⟨fs, files⟩) {w : BlockWrite}
    (hpos : 0 < w.size) (hsize : w.size ≤ bs)
    (hwhole : L.WholeWords w.size) (hfinds : FindsBlock L fs w)
    (hok : (storeBlock L path fs w).1 = true) :
    EncodedMirror L n k bs ⟨(storeBlock L path fs w).2,
      Function.update files path ((files path).putBlock bs w)⟩ := by
  have hblock : fs.st.diskBlockSize = bs := h.block_eq
  have hlist : fs.st.spaceList = [] := h.list_eq
  have hst := storeBlock_st L path fs w
  obtain ⟨x, hx⟩ : ∃ x, (L.encode fs.st w.buf w.size).1 = some x := by
    rw [Ncfs.storeBlock] at hok
    cases hencode : L.encode fs.st w.buf w.size with
    | mk served st =>
        rw [hencode] at hok
        cases served with
        | none => cases hok
        | some x => exact ⟨x, rfl⟩
  obtain ⟨hplace, hzero⟩ := h.serves_unused hpos hsize hfinds hx
  have hkept := CodingLayer.kept_encode hL hbytes h.fits h.total_eq h.data_eq (hblock.symm ▸ hwords)
    (by simp [hlist])
    (hsize.trans_eq hblock.symm) hwhole hplace (fun o ho => hzero o (ho.trans_eq hblock)) h.kept hx
  have hsame : SameStore fs.st (L.encode fs.st w.buf w.size).2 :=
    (CodingLayer.encode_data h.fits hplace (hsize.trans_eq hblock.symm) hx).toSameStore
  refine ⟨h.toMirrored.storeBlock hpos hsize hfinds hok, ?_, ?_, ?_⟩
  · exact (congrArg NcfsState.diskTotalNum hst).trans (hsame.total_eq.trans h.total_eq)
  · exact (congrArg NcfsState.dataDiskNum hst).trans (hsame.data_eq.trans h.data_eq)
  · dsimp only
    rw [hst]
    exact hkept

/-- The sizes of the calls of `encode` in a write. -/
theorem wholeWords_of_mem {buf : Buf} {size offset : ℕ} {mem : Buf} (hbs : L.WholeWords bs)
    (hsize : L.WholeWords size) {w : BlockWrite} (hw : w ∈ blockWrites bs buf size offset mem) :
    L.WholeWords w.size := by
  have hchunks : ∀ fuel tempBuf size pos, L.WholeWords size →
      w ∈ blockChunks bs buf offset fuel tempBuf size pos → L.WholeWords w.size := by
    intro fuel
    induction fuel with
    | zero => exact fun _ _ _ _ hw => absurd hw List.not_mem_nil
    | succ fuel ih =>
        intro tempBuf size pos hsize hw
        have hchunk : L.WholeWords (if size ≤ bs then size else bs) := by
          split
          · exact hsize
          · exact hbs
        have hrest : L.WholeWords (size - if size ≤ bs then size else bs) := by
          cases L with
          | srcRs J matrix srcF => exact Nat.sub_mod_eq_zero_of_mod_eq (hsize.trans hchunk.symm)
          | _ => trivial
        rw [blockChunks] at hw
        by_cases hnil : size = 0
        · rw [if_pos hnil] at hw
          exact absurd hw List.not_mem_nil
        · rw [if_neg hnil] at hw
          rcases List.mem_cons.1 hw with rfl | hw
          · exact hchunk
          · exact ih _ _ _ hrest hw
  rw [blockWrites] at hw
  split at hw
  · obtain rfl := List.mem_singleton.1 hw
    exact hsize
  · exact hchunks _ _ _ _ hsize hw

/-- The calls of `encode` of a write. -/
theorem EncodedMirror.stores (hL : L.Configured n k) (hbytes : L.ByteMatrix)
    (hwords : bs % sizeofInt = 0) {ws : List BlockWrite} (h : EncodedMirror L n k bs ⟨fs, files⟩)
    (hsize : ∀ w ∈ ws, (0 < w.size ∧ w.size ≤ bs) ∧ L.WholeWords w.size)
    (hfinds : Loops.AllPasses (Ncfs.storeBlock L path) (FindsBlock L) fs ws)
    (hok : (Loops.untilFail (Ncfs.storeBlock L path) fs ws).1 = true) :
    EncodedMirror L n k bs ⟨(Loops.untilFail (Ncfs.storeBlock L path) fs ws).2,
      Function.update files path (ws.foldl (ByteFile.putBlock bs) (files path))⟩ := by
  induction ws generalizing fs files with
  | nil =>
      rw [List.foldl_nil, Function.update_eq_self]
      exact h
  | cons w ws ih =>
      obtain ⟨⟨hw, hwhole⟩, hsize⟩ := List.forall_mem_cons.1 hsize
      obtain ⟨hfind, hfinds⟩ := hfinds
      have hone : (Ncfs.storeBlock L path fs w).1 = true → _ :=
        h.storeBlock hL hbytes hwords hw.1 hw.2 hwhole hfind
      rw [Loops.untilFail] at hok ⊢
      generalize Ncfs.storeBlock L path fs w = result at hone hfinds hok ⊢
      obtain ⟨ok, fs₁⟩ := result
      cases ok with
      | false => cases hok
      | true =>
          have hrest := ih (hone rfl) hsize (hfinds rfl) hok
          rwa [Function.update_idem, Function.update_self] at hrest

/-- A write that stores all its blocks, wherever it starts. -/
theorem EncodedMirror.writeBlocks (hL : L.Configured n k) (hbytes : L.ByteMatrix)
    (hwords : bs % sizeofInt = 0) (hsmall : bs ≤ sysblocksize)
    (h : EncodedMirror L n k bs ⟨fs, files⟩) {buf : Buf} {size offset : ℕ} {mem : Buf}
    (hpos : 0 < size) (hwhole : L.WholeWords size)
    (hfinds : AllStores L (FindsBlock L) fs path buf size offset mem)
    (hok : (ncfsWrite L fs path buf size offset mem).1 = size) :
    EncodedMirror L n k bs ⟨(ncfsWrite L fs path buf size offset mem).2, Function.update files path
      ((blockWrites bs buf size offset mem).foldl (ByteFile.putBlock bs) (files path))⟩ := by
  have hblock : fs.st.diskBlockSize = bs := h.block_eq
  have hmode : fs.operationMode = 0 := h.mode_eq
  have hbs : 0 < bs := hblock ▸ fs.st.diskBlockSize_pos
  have hnot : ¬ sysblocksize < fs.st.diskBlockSize := by omega
  rw [AllStores, if_neg hnot, hblock] at hfinds
  rw [ncfsWrite, hmode, if_neg (by decide), if_neg hnot, hblock] at hok ⊢
  dsimp only at hok ⊢
  have hall :
      (Loops.untilFail (Ncfs.storeBlock L path) fs
        (blockWrites bs buf size offset mem)).1 = true := by
    by_contra hfailed
    rw [if_neg hfailed, enospc] at hok
    omega
  have hbs' : L.WholeWords bs := by
    cases L with
    | srcRs J matrix srcF => exact hwords
    | _ => trivial
  exact h.stores hL hbytes hwords
    (fun w hw => ⟨size_of_mem_blockWrites hbs hpos hw, wholeWords_of_mem hbs' hwhole hw⟩)
      hfinds hall

/-- An aligned write. -/
theorem EncodedMirror.write (hL : L.Configured n k) (hbytes : L.ByteMatrix)
    (hwords : bs % sizeofInt = 0) (hsmall : bs ≤ sysblocksize)
    (h : EncodedMirror L n k bs ⟨fs, files⟩) {buf : Buf} {size offset : ℕ} {mem : Buf}
    (hop : (FileOp.write path buf size offset mem).Aligned L ⟨fs, files⟩)
    (hwhole : L.WholeWords size)
    (hok : (FileOp.write path buf size offset mem).Succeeds L ⟨fs, files⟩) :
    EncodedMirror L n k bs (fileStep L ⟨fs, files⟩ (.write path buf size offset mem)) := by
  have hwrite := h.writeBlocks hL hbytes hwords hsmall hop.1 hwhole hop.2.2.2 hok
  exact ⟨h.toMirrored.write hsmall hop hok, hwrite.total_eq, hwrite.data_eq, hwrite.kept⟩

theorem encodedMirror_mounted {st : NcfsState} (hL : L.Configured st.diskTotalNum st.dataDiskNum)
    (hn : 0 < st.diskTotalNum) (hlist : st.spaceList = []) (hstatus : ∀ d, st.diskStatus d = 0)
    (hzero : ∀ d x, st.disk d x = 0) (hfits : L.Fits st) :
    EncodedMirror L st.diskTotalNum st.dataDiskNum st.diskBlockSize
      ⟨.mounted st, fun _ => .empty⟩ :=
  ⟨mirrored_mounted hlist hstatus hzero hfits, rfl, rfl,
    CodingLayer.kept_of_zero hL hn rfl rfl hlist hzero⟩

/-- A write that stores all its blocks, of a size that suits the layer, at any offset. -/
def FileOp.Stored (L : CodingLayer) (s : Mirror) : FileOp → Prop
  | .write path buf size offset mem => 0 < size ∧ L.WholeWords size ∧
      AllStores L (FindsBlock L) s.fs path buf size offset mem ∧
      (ncfsWrite L s.fs path buf size offset mem).1 = size
  | .read _ _ _ _ _ => True

end Runs

/-- **The equations of a code in the runs of the file system.**  From zero disks, for every layer
and its parameters: in every run of reads and of writes that store all their blocks, to any files
and at any offsets, every state satisfies the equations of the layer, all copies, sums and code
blocks.  Under SRC the sizes are whole numbers of integers; under RDP the equations are those of
the sums of the rows only. -/
theorem always_kept (L : CodingLayer) {st : NcfsState}
    (hL : L.Configured st.diskTotalNum st.dataDiskNum) (_ : L.Runnable st.dataDiskNum)
    (hbytes : L.ByteMatrix) (hfits : L.Fits st) (hn : 0 < st.diskTotalNum)
    (hwords : st.diskBlockSize % sizeofInt = 0)
    (hsmall : st.diskBlockSize ≤ sysblocksize) (hlist : st.spaceList = [])
    (hstatus : ∀ d, st.diskStatus d = 0) (hzero : ∀ d x, st.disk d x = 0) {ops : List FileOp}
    (hops : Machine.AllSteps (fileStep L) (FileOp.Stored L) ⟨.mounted st, fun _ => .empty⟩ ops) :
    Machine.Always (fileStep L) (fun s => L.Kept s.fs.st) ⟨.mounted st, fun _ => .empty⟩ ops := by
  let I : Mirror → Prop := fun s => ∃ files,
    EncodedMirror L st.diskTotalNum st.dataDiskNum st.diskBlockSize ⟨s.fs, files⟩
  have hstep : ∀ s op, I s → op.Stored L s → I (fileStep L s op) := by
    rintro s op ⟨files, h⟩ hop
    cases op with
    | write path buf size offset mem =>
        obtain ⟨hpos, hwhole, hfinds, hok⟩ := hop
        exact ⟨_, h.writeBlocks hL hbytes hwords hsmall hpos hwhole hfinds hok⟩
    | read path buf size offset errno => exact ⟨files, h⟩
  have hstart : I ⟨.mounted st, fun _ => .empty⟩ :=
    ⟨_, encodedMirror_mounted hL hn hlist hstatus hzero hfits⟩
  exact (hops.always hstep hstart).mono fun s ⟨_, h⟩ => h.kept

/-- Reed-Solomon on six disks over the library's own functions: two bytes inside of a block, and
then six. -/
theorem always_kept_six :
    let L := CodingLayer.rs .library (generatorMatrix (fun _ => 0) 4 2 fieldPower)
    Machine.Always (fileStep L) (fun s => L.Kept s.fs.st) ⟨.mounted (.blank 6 4 4 fourBytes_pos 8),
      fun _ => .empty⟩
      [.write "/a" (fun _ => 1) 2 1 fun _ => 0, .write "/a" (fun _ => 2) 6 4 fun _ => 0] := by
  intro L
  have hL : L.Configured 6 4 :=
    CodingLayer.rs_configured (n := 6) (k := 4) (by decide) (by decide) (by decide)
  have hbytes : ∀ i, generatorMatrix (fun _ => 0) 4 2 fieldPower i < 256 :=
    (generatorMatrix_ok (fun _ => 0) (show 1 ≤ 4 by decide) (show 4 + 2 ≤ 256 by decide)).1
  have hsteps : Machine.AllSteps (fileStep L) (FileOp.Stored L)
      ⟨.mounted (.blank 6 4 4 fourBytes_pos 8), fun _ => .empty⟩
      [.write "/a" (fun _ => 1) 2 1 fun _ => 0, .write "/a" (fun _ => 2) 6 4 fun _ => 0] := by
    refine ⟨⟨by decide, trivial, ⟨?_, fun _ => trivial⟩, by decide +kernel⟩,
      ⟨by decide, trivial, ⟨?_, fun _ => ⟨?_, fun _ => trivial⟩⟩, by decide +kernel⟩, trivial⟩
    · exact .of_next 4 rfl (show _ = some (0, 0) by decide +kernel) (by decide) (by decide) trivial
    · exact .of_next 4 rfl (show _ = some (0, 1) by decide +kernel) (by decide) (by decide) trivial
    · exact .of_next 4 (by decide +kernel) (show _ = some (0, 2) by decide +kernel) (by decide)
        (by decide) trivial
  have hruns : L.Runnable (NcfsState.blank 6 4 4 fourBytes_pos 8).dataDiskNum :=
    show 2 ≤ 4 by decide
  exact always_kept L hL hruns hbytes trivial (show 0 < 6 by decide) rfl
    (show 4 ≤ sysblocksize by decide) rfl (fun _ => rfl) (fun _ _ => rfl) hsteps

end Ncfs
