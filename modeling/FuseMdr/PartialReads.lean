/-
**Reading a part of a lost block.**

A read of a file may begin and end inside a block.  When the disk of the block has failed, `decode`
of the array codes adds up blocks of the other disks, and computes anew where these lie.  EVENODD
and RDP, and MDR-I where it adds up a chain of blocks, take the beginning of each block; MDR-I in
the rows of its repair set takes the offset of the request.

Main definitions:

* `Ncfs.ReadsPart` — a degraded read returns the bytes that were asked for;
* `Ncfs.SameAtStart` — these are the bytes at the beginning of the block, too.

Main results:

* `Ncfs.ElemTable.readsPart_iff` — EVENODD and RDP;
* `Ncfs.Coding4Mdr1.readsPart_iff` — MDR-I;
* `Ncfs.partialReads_iff` — the three codes, where their equations hold.
-/
import FuseMdr.BlockReuse
import FuseMdr.DiskRecovery

set_option relaxedAutoImplicit false
set_option autoImplicit false

namespace Ncfs

open Devices

/-! ### What is to be returned -/

/-- The output buffer of `decode` under EVENODD and RDP. -/
def ElemTable.decodeBuf (coding : ElemTable) (s : Devices) (diskId : ℕ) (buf : Buf)
    (size offset : ℕ) :
    Except CodingError Buf :=
  (coding.decode s diskId buf size offset).map Prod.fst

/-- The output buffer of `decode` under MDR-I. -/
def Coding4Mdr1.decodeBuf (coding : Coding4Mdr1) (s : Devices) (diskId : ℕ) (buf : Buf)
    (size offset : ℕ) : Except CodingError Buf :=
  (coding.decode s.ncfs diskId buf size offset).map DecodeResult.buf

/-- When disk `d` is lost, `size` bytes from byte `o` on of its block `b` are returned. -/
def ReadsPart (decodeBuf : Devices → ℕ → Buf → ℕ → ℕ → Except CodingError Buf) (s : Devices) (d : ℕ)
    (content : ℕ → Byte) (b o size : ℕ) : Prop :=
  ∀ buf, ∃ out, decodeBuf (s.lose d content) d buf size (b * s.ncfs.diskBlockSize + o) = .ok out ∧
    ∀ i < size, out i = s.ncfs.block d b (o + i)

/-- The bytes from byte `o` on are those at the beginning of the block. -/
def SameAtStart (st : NcfsState) (d b o size : ℕ) : Prop :=
  ∀ i < size, st.block d b i = st.block d b (o + i)

/-- Whole blocks are read from their beginning. -/
theorem SameAtStart.of_zero (st : NcfsState) (d b size : ℕ) : SameAtStart st d b 0 size :=
  fun i _ => by
  rw [Nat.zero_add]

/-- The block of an offset inside a block. -/
theorem offset_div {bs b o : ℕ} (ho : o < bs) : (b * bs + o) / bs = b := by
  rw [Nat.mul_comm, Nat.mul_add_div (by omega), Nat.div_eq_of_lt ho, add_zero]

section Parts

variable {s : Devices} {k d b o size : ℕ} {content : ℕ → Byte}

/-- A read that returns the bytes `f` is right when these are the bytes of the block. -/
theorem readsPart_iff_of_returns {decodeBuf : Devices → ℕ → Buf → ℕ → ℕ → Except CodingError Buf}
    {f : ℕ → Byte} (h : ∀ buf, ∃ out, decodeBuf (s.lose d content) d buf size
      (b * s.ncfs.diskBlockSize + o) = .ok out ∧ ∀ i < size, out i = f i) :
    ReadsPart decodeBuf s d content b o size ↔ ∀ i < size, f i = s.ncfs.block d b (o + i) := by
  constructor
  · intro hread i hi
    obtain ⟨out, hok, hout⟩ := hread (fun _ => 0)
    obtain ⟨out', hok', hout'⟩ := h (fun _ => 0)
    obtain rfl : out' = out := Except.ok.inj (hok'.symm.trans hok)
    rw [← hout' i hi, hout i hi]
  · intro hf buf
    obtain ⟨out, hok, hout⟩ := h buf
    exact ⟨out, hok, fun i hi => (hout i hi).trans (hf i hi)⟩

/-! ### EVENODD and RDP -/

/-- The row equation of a block. -/
theorem EvenoddStoreParity.row {coding : ElemTable} {st : NcfsState} (hrow : 0 < coding.row)
    (h : EvenoddStoreParity coding st) (b : ℕ) {o : ℕ} (ho : o < st.diskBlockSize) :
    st.block coding.k b o = ∑ j ∈ Finset.range coding.k, st.block j b o := by
  have hp := (h (b / coding.row) o ho).p (b % coding.row) (Nat.mod_lt _ hrow)
  simpa only [Nat.div_add_mod'] using hp

/-- The bytes that are returned are those at the beginning of the lost block. -/
theorem ElemTable.readsPart_iff {coding : ElemTable} (hs : (s.lose d content).SingleFailure d)
    (htotal : s.ncfs.diskTotalNum = k + 2) (hd : d ≤ k)
    (hblocks : ∀ i < k + 2, s.HasBlock i b) (hin : o + size ≤ s.ncfs.diskBlockSize)
    (hrow : ∀ o < s.ncfs.diskBlockSize, s.ncfs.block k b o = ∑ j ∈ Finset.range k,
      s.ncfs.block j b o) :
    ReadsPart coding.decodeBuf s d content b o size ↔ SameAtStart s.ncfs d b o size := by
  have hlt : d < (s.lose d content).ncfs.diskTotalNum - 1 := by
    change d < s.ncfs.diskTotalNum - 1
    omega
  refine readsPart_iff_of_returns fun buf => ?_
  rcases Nat.eq_zero_or_pos size with rfl | hpos
  · -- nothing is asked for
    obtain ⟨x, hx⟩ : ∃ x, coding.decode (s.lose d content) d buf 0 (b * s.ncfs.diskBlockSize + o) =
        .ok x := by
      rw [decode]
      simp only [if_neg hs.status_ne, if_pos hs.count, if_pos hlt]
      exact ⟨_, rfl⟩
    exact ⟨x.1, congrArg (Except.map Prod.fst) hx, fun i hi => absurd hi (Nat.not_lt_zero i)⟩
  · have hread : ∀ i < (s.lose d content).ncfs.diskTotalNum - 1, i ≠ d →
        (s.lose d content).HasBlock i b := by
      intro i hi _
      have hi : i < s.ncfs.diskTotalNum - 1 := hi
      exact hblocks i (by omega)
    obtain ⟨out, hok, hout⟩ :=
      @decode_line coding (s.lose d content) d b hs hlt hread o size hpos hin buf
    refine ⟨out, congrArg (Except.map Prod.fst) hok, fun i hi => (hout i hi).trans ?_⟩
    rw [← @lostByte_of_rowParity coding s.ncfs k d b i htotal (hrow i (by omega)) hd,
      lostByte, lostByte, if_pos hlt, if_pos (by omega)]
    refine congrArg List.sum (List.map_congr_left fun j hj => ?_)
    exact lose_block_of_ne (of_decide_eq_true (List.mem_filter.1 hj).2) b i

/-! ### MDR-I -/

/-- In the repair set the bytes that were asked for are returned, elsewhere those at the beginning
of the lost block. -/
theorem Coding4Mdr1.readsPart_iff {coding : Coding4Mdr1} (hk : 1 ≤ k)
    (hdata : s.ncfs.dataDiskNum = k) (htotal : s.ncfs.diskTotalNum = k + 2)
    (hs : (s.lose d content).SingleFailure d) (hd : d ≤ k)
    (hcoding : coding.CachesFor k d) (hin : o + size ≤ s.ncfs.diskBlockSize)
    (hparity : MdrStoreParity k s.ncfs) :
    ReadsPart coding.decodeBuf s d content b o size ↔
      repairRow k d (b % 2 ^ k) = true ∨ SameAtStart s.ncfs d b o size := by
  have htotal' : (s.lose d content).ncfs.diskTotalNum = k + 2 := htotal
  have hdata' : (s.lose d content).ncfs.dataDiskNum = k := hdata
  have hdecode := fun buf => decode_dpDisk hk hdata' htotal' hd hs.status_ne hs.count hd hcoding
    (fun _ => rfl) buf size (b * s.ncfs.diskBlockSize + o)
  rcases Nat.eq_zero_or_pos size with rfl | hpos
  · refine iff_of_true (fun buf => ?_) (Or.inr fun i hi => absurd hi (Nat.not_lt_zero i))
    obtain ⟨r, hok, -⟩ := hdecode buf
    exact ⟨r.buf, congrArg (Except.map DecodeResult.buf) hok, fun i hi => absurd hi
      (Nat.not_lt_zero i)⟩
  · have hdiv : (b * s.ncfs.diskBlockSize + o) / (s.lose d content).ncfs.diskBlockSize = b :=
      offset_div (by omega)
    have hmod : b % 2 ^ k < 2 ^ k := Nat.mod_lt b (Nat.two_pow_pos k)
    have hsplit : b / 2 ^ k * 2 ^ k + b % 2 ^ k = b := Nat.div_add_mod' ..
    let c (o j t : ℕ) : Byte := s.ncfs.block j (b / 2 ^ k * 2 ^ k + t) o
    have hc : ∀ o < s.ncfs.diskBlockSize, MdrParity (Ncfs.mdrIEncodingMatrixB k) k (c o) :=
      fun o ho => hparity (b / 2 ^ k) o ho
    have hsurv : ∀ o, Survives (s.lose d content).ncfs k d (b / 2 ^ k * 2 ^ k) o (c o) :=
      fun o j _ hjd t _ => lose_block_of_ne hjd _ o
    have hlost : ∀ o, c o d (b % 2 ^ k) = s.ncfs.block d b o := by
      intro o
      change s.ncfs.block d (b / 2 ^ k * 2 ^ k + b % 2 ^ k) o = _
      rw [hsplit]
    by_cases hrep : repairRow k d (b % 2 ^ k) = true
    · refine (readsPart_iff_of_returns fun buf => ?_).trans
        (iff_of_true (fun i _ => hlost (o + i)) (Or.inl hrep))
      obtain ⟨r, hok, -, -, -, hrow, -⟩ := hdecode buf
      rw [hdiv] at hrow
      refine ⟨r.buf, congrArg (Except.map DecodeResult.buf) hok, fun i hi => ?_⟩
      rw [hrow hrep, xorRow_apply _ hi, memset0_of_lt hi, zero_add,
        ← sum_others htotal' hd (hc (o + i) (by omega)) (hsurv (o + i)) hmod]
      refine congrArg List.sum (List.map_congr_left fun j _ => ?_)
      rw [Nat.add_comm (b % 2 ^ k), hsplit, add_assoc]
      rfl
    · rw [or_iff_right hrep]
      obtain ⟨t, htlt, ht, hmate⟩ := exists_mate k hk hd hmod (by simpa using hrep)
      have hmem := mem_repairRows.2 ⟨htlt, ht⟩
      refine readsPart_iff_of_returns fun buf => ?_
      obtain ⟨r, hok, -, -, -, -, hchain⟩ := hdecode buf
      rw [hdiv] at hchain
      refine ⟨r.buf, congrArg (Except.map DecodeResult.buf) hok, fun i hi => ?_⟩
      rw [hchain t hmem hmate, xorChain_apply _ hi, memset0_of_lt hi, zero_add,
        sum_chainByte htotal' hd hd (hc i (by omega)) (hsurv i) hmem, hmate, hlost]

end Parts

/-- **Parts of lost blocks.**  In a store of EVENODD, RDP or MDR-I whose equations hold, let a data
disk fail.  Of any block, a degraded read of the `size` bytes from byte `o` on returns these bytes
exactly when they are those at the beginning of the block, or under MDR-I when the block is in a row
of the repair set.  Under MDR-I the words of the matrix have to fit their types
(`Ncfs.Widths.compiled_tests`), and the offsets in the group of the block an `int`. -/
theorem partialReads_iff (s : Devices) (htotal : s.ncfs.diskTotalNum = s.ncfs.dataDiskNum + 2)
    (d : ℕ) (hd : d < s.ncfs.dataDiskNum)
    (hhealthy : ∀ i < s.ncfs.diskTotalNum, i ≠ d → s.ncfs.diskStatus i = 0)
    (content : ℕ → Byte) (b : ℕ) (hblocks : ∀ i < s.ncfs.diskTotalNum, s.HasBlock i b) (o size : ℕ)
    (hin : o + size ≤ s.ncfs.diskBlockSize) :
    let k := s.ncfs.dataDiskNum
    (2 ≤ k → EvenoddStoreParity (Coding4Evenodd.new s.ncfs) s.ncfs →
      (ReadsPart (Coding4Evenodd.new s.ncfs).decodeBuf s d content b o size ↔
        SameAtStart s.ncfs d b o size)) ∧
    (EvenoddStoreParity (Coding4Rdp.new s.ncfs) s.ncfs →
      (ReadsPart (Coding4Rdp.new s.ncfs).decodeBuf s d content b o size ↔
        SameAtStart s.ncfs d b o size)) ∧
    (k ≤ 5 → (∀ t < 2 ^ k, (b / 2 ^ k * 2 ^ k + t) * s.ncfs.diskBlockSize < 2 ^ 31) →
      ∀ coding : Coding4Mdr1, coding.CachesFor k d → MdrStoreParity k s.ncfs →
        (ReadsPart coding.decodeBuf s d content b o size ↔
          repairRow k d (b % 2 ^ k) = true ∨ SameAtStart s.ncfs d b o size)) := by
  intro k
  have hs : (s.lose d content).SingleFailure d := lose_singleFailure (by omega) hhealthy
  rw [htotal] at hblocks
  refine ⟨fun hk hparity => ?_, fun hparity => ?_, fun _ _ coding hcoding hparity => ?_⟩
  · exact ElemTable.readsPart_iff hs htotal hd.le hblocks hin fun o ho =>
      hparity.row (Coding4Evenodd.sound hk).row_pos b ho
  · exact ElemTable.readsPart_iff hs htotal hd.le hblocks hin fun o ho =>
      hparity.row (Coding4Rdp.sound (Nat.one_le_of_lt hd)).row_pos b ho
  · exact Coding4Mdr1.readsPart_iff (Nat.one_le_of_lt hd) rfl htotal hs hd.le hcoding hin hparity

/-! ### One block -/

/-- A block of the bytes 5, 6, 5 and 0. -/
def sampleBlock (o : ℕ) : Byte := Byte.ofNat ([5, 6, 5].getD o 0)

/-- Five disks, three of them for data, after a write of this block. -/
def fiveWritten (enc : NcfsState → Buf → ℕ → Option (ℕ × ℕ) × NcfsState) : Devices :=
  ⟨Machine.run (encodeStep enc) (fiveDisks 8).ncfs [(sampleBlock, 4)], fun _ => 8⟩

/-- The object of the MDR-I code for three data disks. -/
def mdrThree : Coding4Mdr1 where
  mdrIEncodingMatrixB := mdrIEncodingMatrixB 3
  stripSize := 8
  mdrIOneDpDiskFailBoolM := false
  mdrIOneDpDiskFailBoolV := false
  mdrIOneQDiskFailBool := false
  mdrIOneDpDiskFailNonStripeIndex _ := []
  mdrIOneQDiskFailStripeIndex _ := []
  mdrIOneDpDiskFailStripeIndex := []

theorem evenoddStoreParity_fiveWritten :
    EvenoddStoreParity (Coding4Evenodd.new (fiveDisks 8).ncfs)
      (fiveWritten (Coding4Evenodd.encode (Coding4Evenodd.new (fiveDisks 8).ncfs))).ncfs :=
  Coding4Evenodd.run_stripParity (by decide) (fiveDisks_blank 8) (by decide)

/-- The block is in the first row of its strip, where RDP keeps its `Q` blocks right. -/
theorem rdpStoreParity_fiveWritten :
    EvenoddStoreParity (Coding4Rdp.new (fiveDisks 8).ncfs)
      (fiveWritten (Coding4Rdp.encode (Coding4Rdp.new (fiveDisks 8).ncfs))).ncfs := by
  have hblank := fiveDisks_blank 8
  have hthree : 1 ≤ (fiveDisks 8).ncfs.dataDiskNum := by decide
  refine (evenoddStoreParity_iff (Coding4Rdp.sound hthree)).2
    ((Coding4Rdp.encode_storeParity_iff hthree hblank.shaped hblank.unused
      (Blank.storeParity (C := (Coding4Rdp.sound hthree).code) hblank)
      (show ((sampleBlock, 4) : Call).2 ≤ 4 from le_rfl)).2 fun d b hpick => ?_)
  cases (show arrayPick (fiveDisks 8).ncfs (blockRequest (fiveDisks 8).ncfs 4) = some (0, 0) from
    rfl).symm.trans hpick
  exact Or.inl rfl

/-- The block is lost.  EVENODD and RDP return its third byte, which is its first, and MDR-I the
second and the third. -/
theorem partialReads_iff_five :
    let evenodd := Coding4Evenodd.new (fiveDisks 8).ncfs
    let rdp := Coding4Rdp.new (fiveDisks 8).ncfs
    ReadsPart evenodd.decodeBuf (fiveWritten (Coding4Evenodd.encode evenodd)) 0 (fun _ => 7) 0 2 1 ∧
      ReadsPart rdp.decodeBuf (fiveWritten (Coding4Rdp.encode rdp)) 0 (fun _ => 7) 0 2 1 ∧
      ∃ coding, Coding4Mdr1.new (fiveDisks 8).ncfs = .ok coding ∧
        ReadsPart coding.decodeBuf (fiveWritten coding.encode) 0 (fun _ => 7) 0 1 2 := by
  intro evenodd rdp
  have hthree : 1 ≤ (fiveDisks 8).ncfs.dataDiskNum := by decide
  refine ⟨?_, ?_, ?_⟩
  · exact ((partialReads_iff (fiveWritten (Coding4Evenodd.encode evenodd)) rfl 0 (by decide)
      (fun _ _ _ => rfl) (fun _ => 7) 0 (fun _ _ => show 0 < 8 by decide) 2 1
      (show 2 + 1 ≤ 4 by decide)).1 (by decide) evenoddStoreParity_fiveWritten).2
      (by unfold SameAtStart; decide)
  · exact ((partialReads_iff (fiveWritten (Coding4Rdp.encode rdp)) rfl 0 (by decide)
      (fun _ _ _ => rfl) (fun _ => 7) 0 (fun _ _ => show 0 < 8 by decide) 2 1
      (show 2 + 1 ≤ 4 by decide)).2.1 rdpStoreParity_fiveWritten).2 (by unfold SameAtStart; decide)
  · obtain ⟨coding, hnew, hc, hV, hM, -⟩ := Coding4Mdr1.new_ok hthree
    have hcalls : ∀ call ∈ [((sampleBlock, 4) : Call)], call.2 ≤ 4 := by decide
    obtain ⟨-, hparity⟩ := ArrayEncoder.run_storeParity (mdrEncoder_exact hc rfl)
      (mdrEncoder_implements hc rfl 4) (fiveDisks_blank 8) hcalls
    obtain rfl : mdrThree = coding := Except.ok.inj hnew
    exact ⟨mdrThree, rfl, ((partialReads_iff (fiveWritten mdrThree.encode) rfl 0 (by decide)
      (by decide) (fun _ => 7) 0 (fun _ _ => show 0 < 8 by decide) 1 2
      (show 1 + 2 ≤ 4 by decide)).2.2 (by decide) (by decide) mdrThree (hc.cachesFor hV hM)
      (mdrStoreParity_iff.2 hparity)).2 (Or.inl (by decide))⟩

/-- EVENODD returns the first byte of the block in place of the second. -/
theorem partialReads_first_byte :
    let evenodd := Coding4Evenodd.new (fiveDisks 8).ncfs
    let s := fiveWritten (Coding4Evenodd.encode evenodd)
    EvenoddStoreParity evenodd s.ncfs ∧ ¬ ReadsPart evenodd.decodeBuf s 0 (fun _ => 0) 0 1 1 := by
  intro evenodd s
  have hparity : EvenoddStoreParity evenodd s.ncfs := evenoddStoreParity_fiveWritten
  have hs : (s.lose 0 fun _ => 0).SingleFailure 0 := lose_singleFailure (by decide) fun _ _ _ => rfl
  refine ⟨hparity, fun h => ?_⟩
  have hsame :=
    (ElemTable.readsPart_iff (k := 3) hs rfl (by decide) (fun _ _ => show 0 < 8 by decide)
      (by decide) fun o ho => hparity.row (Coding4Evenodd.sound (by decide)).row_pos 0 ho).1 h
  exact absurd (hsame 0 (by decide)) (by decide)

end Ncfs
