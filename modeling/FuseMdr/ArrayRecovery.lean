/-
**The recovery tool on the array codes.**

For MDR-I, EVENODD and RDP the tool first runs the rebuild of the code, which goes through whole
strips, and then the loop over the blocks all the same.  By then the disk works again.  The loop
reads every block and writes it back, and computes every offset as an `int`, also those that the
first rebuild did not need.

Main definitions:

* `Ncfs.Devices.Agrees` — the same blocks and statuses on the devices;
* `Ncfs.CodingLayer.WholeStrips` — the strips that the rebuild of a disk reads lie on the devices.

Main results:

* `Ncfs.CodingLayer.recoverBlocks_healthy`, `Ncfs.CodingLayer.recoverBlocks_fits` — the second loop;
* `Ncfs.CodingLayer.recover_array` — the tool is its first rebuild, when the offsets fit;
* `Ncfs.CodingLayer.arrayRepairs_iff` — the disks that it brings back.
-/
import FuseMdr.EncodedRuns
import FuseMdr.RecoveryTool

set_option relaxedAutoImplicit false
set_option autoImplicit false

namespace Ncfs

/-! ### The second loop -/

/-- The devices hold the same blocks and have the same statuses. -/
structure Devices.Agrees (s s' : Devices) : Prop where
  /-- `disk_block_size`. -/
  block_eq : s'.ncfs.diskBlockSize = s.ncfs.diskBlockSize
  /-- The statuses. -/
  status : ∀ i < s.ncfs.diskTotalNum, s'.ncfs.diskStatus i = s.ncfs.diskStatus i
  /-- The blocks. -/
  block : ∀ i < s.ncfs.diskTotalNum, ∀ b < s.diskSize i, ∀ o < s.ncfs.diskBlockSize,
    s'.ncfs.block i b o = s.ncfs.block i b o

/-- Writing back what has been read. -/
theorem writeDisk_readDisk (st : NcfsState) (d : ℕ) (buf : Buf) (size offset : ℕ) :
    writeDisk st d (readDisk st d buf size offset) size offset = st := by
  have hdisk : (fun e x => if e = d ∧ offset ≤ x ∧ x < offset + size then
      readDisk st d buf size offset (x - offset) else st.disk e x) = st.disk := by
    funext e x
    split
    · rename_i hin
      obtain ⟨rfl, hle, hlt⟩ := hin
      rw [readDisk, if_pos (by omega), Nat.add_sub_cancel' hle]
    · rfl
  rw [writeDisk, hdisk]

namespace CodingLayer

section Healthy

variable {L : CodingLayer} {s x : Devices} {d : ℕ} {mem : ℕ → Buf}

theorem ArrayCode.blockNo_eq (h : L.ArrayCode) (b : ℕ) : L.blockNo b = b := by
  cases L with
  | srcRs J matrix srcF => exact h.elim
  | _ => rfl

theorem ArrayCode.recoverBlocks_eq (h : L.ArrayCode) (s : Devices) (d : ℕ) (mem : ℕ → Buf) :
    L.recoverBlocks s d mem = (List.range (s.diskSize d)).foldlM (L.recoverBlock d mem) s := by
  cases L with
  | srcRs J matrix srcF => exact h.elim
  | _ => rfl

/-- A block of a working disk is written back. -/
theorem recoverBlock_healthy (hL : L.ArrayCode) (hstatus : s.ncfs.diskStatus d = 0) {i : ℕ}
    (hi : s.HasBlock d i) (hfits : i * s.ncfs.diskBlockSize < 2 ^ 31) :
    L.recoverBlock d mem s i = .ok s := by
  have hread := @decode_healthy (L.degraded s.diskSize) L _ d hstatus
    (mem i) i s.ncfs.diskBlockSize 0 s.ncfs.diskBlockSize_pos
  rw [Nat.add_zero, Nat.add_zero, hL.blockNo_eq] at hread
  rw [recoverBlock_eq L s d mem hfits, hread, Loops.ok_bind, Devices.writeDisk_block hi]
  rw [writeDisk_readDisk]
  rfl

/-- The loop over a working disk changes nothing. -/
theorem recoverBlocks_healthy (hL : L.ArrayCode) (hstatus : s.ncfs.diskStatus d = 0)
    (hfits : ∀ i < s.diskSize d, i * s.ncfs.diskBlockSize < 2 ^ 31) (mem : ℕ → Buf) :
    L.recoverBlocks s d mem = .ok s := by
  obtain ⟨x, hrun, rfl⟩ := Loops.foldlM_range (f := L.recoverBlock d mem) (n := s.diskSize d)
    (fun _ x => x = s)
    (fun i hi x hx => by subst hx; exact ⟨x, recoverBlock_healthy hL hstatus hi (hfits i hi), rfl⟩)
      (s := s) rfl
  rw [hL.recoverBlocks_eq, hrun]

/-- When it ends, all offsets have been values of an `int`. -/
theorem recoverBlocks_fits (hL : L.ArrayCode) (hok : L.recoverBlocks s d mem = .ok x) :
    ∀ i < s.diskSize d, i * s.ncfs.diskBlockSize < 2 ^ 31 := by
  rw [hL.recoverBlocks_eq] at hok
  refine (Loops.foldlM_range_keeps (fun i x => x.ncfs.diskBlockSize = s.ncfs.diskBlockSize ∧
    ∀ j < i, j * s.ncfs.diskBlockSize < 2 ^ 31) (fun i _ x x' hpass h => ?_)
    ⟨rfl, fun j hj => absurd hj (Nat.not_lt_zero j)⟩ hok).2
  obtain ⟨hblock, hbefore⟩ := h
  obtain ⟨offset, hoffset, hpass⟩ := Loops.bind_eq_ok hpass
  obtain ⟨buf, -, hpass⟩ := Loops.bind_eq_ok hpass
  rw [← Except.ok.inj hpass]
  rw [hblock] at hoffset
  refine ⟨(Devices.later_writeDisk x d buf _ _).block_eq.trans hblock, fun j hj => ?_⟩
  rcases Nat.lt_succ_iff_lt_or_eq.1 hj with hlt | rfl
  · exact hbefore j hlt
  · exact (intMul_eq_ok hoffset).1

end Healthy

end CodingLayer

/-! ### The first rebuild -/

namespace Devices

variable {s s' : Devices} {d : ℕ} {junk : ℕ → ℕ → Byte}

/-- All disks work. -/
def working (s : Devices) : Devices := { s with ncfs := { s.ncfs with diskStatus := fun _ => 0 } }

/-- The failure of one disk. -/
theorem fail_singleton (s : Devices) (d : ℕ) (junk : ℕ → ℕ → Byte) :
    s.fail {d} junk = s.working.lose d fun x =>
    if x < s.diskSize d * s.ncfs.diskBlockSize then junk d x else s.ncfs.disk d x := by
  rw [fail, lose, NcfsState.fail]
  dsimp only [working]
  congr 2
  · funext e
    by_cases he : e = d
    · subst he
      simp
    · simp [he]
  · funext e
    by_cases he : e = d
    · subst he
      simp
    · simp [he]

theorem fail_empty (s : Devices) (junk : ℕ → ℕ → Byte) : s.fail ∅ junk = s.working := by
  rw [fail, NcfsState.fail]
  simp [working]

/-- The second of two equal settings changes nothing. -/
theorem setDeviceStatus_twice (s : Devices) (d status : ℕ) :
    (s.setDeviceStatus d status).setDeviceStatus d status = s.setDeviceStatus d status := by
  by_cases h : s.ncfs.diskTotalNum ≤ d ∨ 1 < status
  · simp only [setDeviceStatus, if_pos h]
  · simp [setDeviceStatus, h]

/-- A rebuild that brings back a disk and leaves the others as they are. -/
theorem working_agrees (hd : d < s.ncfs.diskTotalNum)
    (hsize : s'.ncfs.diskBlockSize = s.ncfs.diskBlockSize)
    (hothers : ∀ i, i ≠ d → s'.ncfs.disk i = (s.fail {d} junk).ncfs.disk i)
    (hblocks : ∀ b < s.diskSize d, ∀ o < s.ncfs.diskBlockSize,
      s'.ncfs.block d b o = s.ncfs.block d b o)
    (hstatus : ∀ i < s.ncfs.diskTotalNum, s'.ncfs.diskStatus i = 0) :
    (s.fail ∅ junk).Agrees s' := by
  rw [fail_empty]
  refine ⟨hsize, hstatus, fun i _ b hb o ho => ?_⟩
  by_cases hid : i = d
  · subst hid
    exact hblocks b hb o ho
  · have hother : (s.fail {d} junk).ncfs.disk i = s.ncfs.disk i := by
      rw [fail, NcfsState.fail]
      exact if_neg (by simpa using hid)
    rw [NcfsState.block, hothers i hid, hother, hsize]
    rfl

end Devices

open Devices

namespace ElemTable

variable {coding : ElemTable} {cells : List Pair} {s : Devices} {d blocks : ℕ} {junk : ℕ → ℕ → Byte}

/-- The rebuild of a code with a table brings back a disk of whole strips whose blocks the equations
give. -/
theorem recoverOneDisk_agrees_iff (hcells : coding.Prefetch cells s.ncfs.diskTotalNum d)
    (hlast : ∃ i, (coding.row - 1, i) ∈ cells)
    (hsizes : ∀ i < s.ncfs.diskTotalNum, s.diskSize i = blocks) (hd : d < s.ncfs.diskTotalNum) :
    (∃ s', coding.recoverOneDisk cells (s.fail {d} junk) d = .ok s' ∧ (s.fail ∅ junk).Agrees s') ↔
      coding.row ∣ blocks ∧ (blocks - 1) * s.ncfs.diskBlockSize < 2 ^ 31 ∧
        ∀ b < blocks, ∀ o < s.ncfs.diskBlockSize,
        coding.lostByte s.ncfs d b o = s.ncfs.block d b o := by
  let content : ℕ → Byte := fun x => if x < s.diskSize d * s.ncfs.diskBlockSize then junk d x
    else s.ncfs.disk d x
  have hfail : s.fail {d} junk = s.working.lose d content := s.fail_singleton d junk
  have hs : (s.working.lose d content).SingleFailure d := lose_singleFailure hd fun _ _ _ => rfl
  have hrestores := ElemTable.restores_iff (s := s.working) hcells hlast hsizes hs
  constructor
  · rintro ⟨s', hrun, hagrees⟩
    refine hrestores.1 ⟨s', hfail ▸ hrun, fun b hb o ho => ?_, fun i hi _ => ?_⟩
    · exact hagrees.block d hd b hb o ho
    · exact hagrees.status i hi
  · rintro ⟨hdvd, hfits, heq⟩
    have hdisk : (s.working.lose d content).diskSize d = blocks := hsizes d hd
    have hread := fun g => Prefetch.readable (s := s.working.lose d content) hcells
      (fun i hi => by rw [hdisk]; exact (hsizes i hi).ge)
        (by rw [LastOffsetFits, hdisk]; exact hfits) (g := g)
    obtain ⟨s', hrun, hsize, hothers, hblocks, hstatus⟩ :=
      recoverOneDisk_ok (s := s.working.lose d content) hcells hs
      (by rwa [hdisk]) hread
    refine ⟨s', hfail ▸ hrun, working_agrees hd hsize (hfail ▸ hothers)
      (fun b hb o ho => ?_) hstatus⟩
    have hsame : ∀ i, i ≠ d → ∀ b, (s.working.lose d content).ncfs.block i b o =
        s.ncfs.block i b o :=
      fun i hi b => lose_block_of_ne (s := s.working) hi b o
    have hlost := @Prefetch.lostByte_congr coding cells d s.ncfs
      (s.working.lose d content).ncfs hcells rfl o hsame b
    exact ((hblocks b hb o ho).trans hlost).trans (heq b (hb.trans_eq (hsizes d hd)) o ho)

end ElemTable

namespace Coding4Mdr1

variable {coding : Coding4Mdr1} {s : Devices} {k d blocks : ℕ} {junk : ℕ → ℕ → Byte}

/-- The rebuild of MDR-I brings back a disk when the reads for its groups stay inside. -/
theorem recoverOneDisk_agrees_iff (hk : 1 ≤ k) (hdata : s.ncfs.dataDiskNum = k)
    (hnum : s.ncfs.diskTotalNum = k + 2) (hsizes : ∀ i < k + 2, s.diskSize i = blocks)
    (hd : d < k + 2) (hc : coding.Ready k d)
    (hparity : ∀ g, ∀ o < s.ncfs.diskBlockSize, MdrParity (Ncfs.mdrIEncodingMatrixB k) k fun j t =>
      s.ncfs.block j (g * 2 ^ k + t) o) :
    (∃ s', coding.recoverOneDisk (s.fail {d} junk) d = .ok s' ∧ (s.fail ∅ junk).Agrees s') ↔
      ∀ g, g * 2 ^ k < blocks → GroupInside k d blocks s.ncfs.diskBlockSize g := by
  let content : ℕ → Byte := fun x => if x < s.diskSize d * s.ncfs.diskBlockSize then junk d x
    else s.ncfs.disk d x
  have hfail : s.fail {d} junk = s.working.lose d content := s.fail_singleton d junk
  have hlt : d < s.ncfs.diskTotalNum := by omega
  have hs : (s.working.lose d content).SingleFailure d := lose_singleFailure hlt fun _ _ _ => rfl
  have hrestores := restores_iff (s := s.working) hk hdata hnum hsizes hs hc fun _ => hparity
  constructor
  · rintro ⟨s', hrun, hagrees⟩
    refine hrestores.1 ⟨s', hfail ▸ hrun, fun b hb o ho => ?_, fun i hi _ => ?_⟩
    · exact hagrees.block d hlt b hb o ho
    · exact hagrees.status i hi
  · intro hgroups
    have hdisk : (s.working.lose d content).diskSize d = blocks := hsizes d hd
    obtain ⟨s', hrun, hsize, hothers, hblocks, hstatus⟩ :=
      recoverOneDisk_ok (s := s.working.lose d content)
      (fun b o => s.ncfs.block d b o) hk hdata hnum hs hc
      (fun g hg => (readsInside_iff (s := s.working.lose d content) hd hsizes).2
        (hgroups g (by rwa [hdisk] at hg)))
      (fun g _ o ho => ⟨_, hparity g o ho, fun j _ hjd t _ => lose_block_of_ne
        (s := s.working) hjd _ o, fun _ _ => rfl⟩)
    exact ⟨s', hfail ▸ hrun, working_agrees hlt hsize (hfail ▸ hothers) hblocks hstatus⟩

end Coding4Mdr1

namespace CodingLayer

/-! ### Runs of the tool -/

/-- The rebuild of disk `d` reads whole strips that lie on devices with `blocks` blocks.  The `Q`
disk of RDP has to hold the sums of its diagonals. -/
def WholeStrips (L : CodingLayer) (st : NcfsState) (k d blocks : ℕ) : Prop :=
  match L with
  | mdr1 _ => ∀ g, g * 2 ^ k < blocks → Coding4Mdr1.GroupInside k d blocks st.diskBlockSize g
  | evenodd coding => coding.row ∣ blocks
  | rdp coding => coding.row ∣ blocks ∧ (d = k + 1 → coding.DiagonalParity st k blocks)
  | _ => False

section Arrays

variable {L : CodingLayer} {n k d blocks : ℕ} {s s' : Devices} {junk : ℕ → ℕ → Byte} {mem : ℕ → Buf}

/-- The first rebuild keeps the shape of the store, and declares its disk to work. -/
theorem ArrayCode.recoverOneDisk_later (hL : L.ArrayCode) (hok : L.recoverOneDisk s d = .ok s') :
    ∃ s₁, s.Later s₁ ∧ s' = s₁.setDeviceStatus d 0 := by
  have htable : ∀ {coding : ElemTable} {cells}, coding.recoverOneDisk cells s d = .ok s' →
      ∃ s₁, s.Later s₁ ∧ s' = s₁.setDeviceStatus d 0 := by
    intro coding cells hok
    obtain ⟨s₁, hloop, hrest⟩ := Loops.bind_eq_ok hok
    refine ⟨s₁, (Loops.foldlM_pass (R := Devices.Later) (fun _ => .rfl) (fun _ _ _ => .trans)
      (fun x g _ x' hx => ?_) hloop).1, (Except.ok.inj hrest).symm⟩
    obtain ⟨r, hpasses, hrest⟩ := Loops.bind_eq_ok hx
    rw [← Except.ok.inj hrest]
    exact ElemTable.later_recoverPasses hpasses
  cases L with
  | mdr1 coding =>
      obtain ⟨x, hloop, hrest⟩ := Loops.bind_eq_ok hok
      refine ⟨x.2, ?_, (Except.ok.inj hrest).symm⟩
      exact (Loops.foldlM_pass (R := fun x x' : Coding4Mdr1 × Devices => x.2.Later x'.2)
        (fun _ => .rfl)
        (fun _ _ _ => .trans) (fun _ _ _ _ => Coding4Mdr1.later_recoverGroup) hloop).1
  | evenodd coding => exact htable hok
  | rdp coding => exact htable hok
  | _ => exact hL.elim

/-- **The tool is its first rebuild** for the array codes, when all offsets of the disk are values
of an `int`. -/
theorem recover_array (hL : L.ArrayCode) (hd : d < s.ncfs.diskTotalNum) :
    L.recover .traditional (s.fail {d} junk) d mem = .ok s' ↔
      L.recoverOneDisk (s.fail {d} junk) d = .ok s' ∧ ∀ i < s.diskSize d,
      i * s.ncfs.diskBlockSize < 2 ^ 31 := by
  have hF : ({d} : Finset ℕ) ⊆ Finset.range s.ncfs.diskTotalNum :=
    Finset.singleton_subset_iff.2 (Finset.mem_range.2 hd)
  rw [recover_fail L .traditional hF, if_pos (by simp), if_pos (Finset.card_singleton d),
    recoverSingle]
  -- the second loop runs on a disk that works
  have hafter : ∀ {x}, L.recoverOneDisk (s.fail {d} junk) d = .ok x → x.diskSize d = s.diskSize d ∧
      x.ncfs.diskBlockSize = s.ncfs.diskBlockSize ∧ x.ncfs.diskStatus d = 0 ∧
      x.setDeviceStatus d 0 = x := by
    intro x hx
    obtain ⟨x₁, hlater, rfl⟩ := hL.recoverOneDisk_later hx
    have hd₁ : d < x₁.ncfs.diskTotalNum := by rwa [hlater.total_eq]
    refine ⟨?_, ?_, ?_, setDeviceStatus_twice x₁ d 0⟩ <;> rw [setDeviceStatus_of_lt hd₁ (by decide)]
    · exact congrFun hlater.size_eq d
    · exact hlater.block_eq
    · exact Function.update_self ..
  constructor
  · intro hok
    obtain ⟨x, hx, hok⟩ := Loops.bind_eq_ok hok
    obtain ⟨hsize, hblock, hstatus, hset⟩ := hafter hx
    obtain ⟨x', hloop, hend⟩ := Loops.bind_eq_ok hok
    have hfits := recoverBlocks_fits hL hloop
    have hsame := recoverBlocks_healthy hL hstatus hfits mem
    obtain rfl : x = x' := Except.ok.inj (hsame.symm.trans hloop)
    rw [hsize, hblock] at hfits
    refine ⟨hx.trans ?_, hfits⟩
    rw [← hend, hset]
    rfl
  · rintro ⟨hok, hfits⟩
    obtain ⟨hsize, hblock, hstatus, hset⟩ := hafter hok
    rw [← hsize, ← hblock] at hfits
    rw [hok, Loops.ok_bind, conventionalRecover, recoverBlocks_healthy hL hstatus hfits,
      Loops.ok_bind, hset]
    rfl

/-- The first rebuild brings back a disk when its strips lie on the devices. -/
theorem recoverOneDisk_agrees_iff (hL : L.Configured n k) (harray : L.ArrayCode)
    (htotal : s.ncfs.diskTotalNum = n) (hdata : s.ncfs.dataDiskNum = k) (hkept : L.Kept s.ncfs)
    (hsizes : ∀ i < n, s.diskSize i = blocks) (hd : d < n)
    (hfits : (blocks - 1) * s.ncfs.diskBlockSize < 2 ^ 31) (junk : ℕ → ℕ → Byte) :
    (∃ s', L.recoverOneDisk (s.fail {d} junk) d = .ok s' ∧ (s.fail ∅ junk).Agrees s') ↔
      L.WholeStrips s.ncfs k d blocks := by
  subst htotal hdata
  cases L with
  | mdr1 coding =>
      obtain ⟨hnum, hk, st₀, hst₀, hnew⟩ := hL
      have hready : coding.Ready s.ncfs.dataDiskNum d := by
        obtain ⟨coding', hnew', hc, hV, hM, hQ⟩ := Coding4Mdr1.new_ok (hst₀.symm ▸ hk)
        obtain rfl : coding = coding' := Except.ok.inj (hnew.symm.trans hnew')
        rw [hst₀] at hc
        refine ⟨hc, fun _ => ⟨hc, fun h => ?_, fun h => ?_, fun h => ?_⟩, fun _ h => ?_⟩ <;>
          simp_all
      exact Coding4Mdr1.recoverOneDisk_agrees_iff hk rfl hnum (hnum ▸ hsizes) (hnum ▸ hd) hready
        fun g o ho => mdrCode_parity_iff.1 (hkept g o ho)
  | evenodd coding =>
      obtain ⟨hnum, hk, st₀, hst₀, rfl⟩ := hL
      have hrow : ∀ b, ∀ o < s.ncfs.diskBlockSize,
          s.ncfs.block s.ncfs.dataDiskNum b o = ∑ j ∈ Finset.range s.ncfs.dataDiskNum,
          s.ncfs.block j b o := by
        intro b o ho
        have hsum := (hkept (b / (Coding4Evenodd.new st₀).row) o ho).p
          (b % (Coding4Evenodd.new st₀).row)
          (Nat.mod_lt _ (Coding4Evenodd.sound (hst₀.symm ▸ hk)).row_pos)
        have hcode : (Coding4Evenodd.new st₀).k = s.ncfs.dataDiskNum := hst₀
        simp only [hcode, Nat.div_add_mod'] at hsum
        exact hsum
      have hcells := @Coding4Evenodd.prefetch st₀ d (hst₀.symm ▸ hk) (by omega)
      have hlast := @Coding4Evenodd.exists_last_cell st₀ d (hst₀.symm ▸ hk)
      rw [hst₀, ← hnum] at hcells hlast
      refine (ElemTable.recoverOneDisk_agrees_iff hcells hlast hsizes hd).trans ?_
      refine and_iff_left ⟨hfits, (ElemTable.lostByte_eq_block_iff hnum (hnum ▸ hd) hrow).2
        fun _ => ?_⟩
      exact ElemTable.StripParity.diagonalParity
        (Coding4Evenodd.sound (hst₀.symm ▸ hk)).row_pos hst₀
        (congrArg (· + 2) hst₀) hkept
  | rdp coding =>
      obtain ⟨hnum, hk, st₀, hst₀, rfl⟩ := hL
      have hcells := @Coding4Rdp.prefetch st₀ d (hst₀.symm ▸ hk) (by omega)
      have hlast := @Coding4Rdp.exists_last_cell st₀ d (hst₀.symm ▸ hk) (by omega)
      rw [hst₀, ← hnum] at hcells hlast
      refine (ElemTable.recoverOneDisk_agrees_iff hcells hlast hsizes hd).trans ?_
      rw [ElemTable.lostByte_eq_block_iff hnum (hnum ▸ hd) hkept]
      exact and_congr_right fun _ => and_iff_right hfits
  | _ => exact harray.elim

/-- **The disks of the array codes that the tool brings back.**  In every store whose equations
hold, on disks of `blocks` blocks and whatever the new device holds, a run of the tool for a failed
disk ends with all disks working and all blocks as they were exactly if all offsets are values of an
`int` and the strips lie on the devices. -/
theorem arrayRepairs_iff (hL : L.Configured n k) (_ : L.Runnable k) (harray : L.ArrayCode)
    (htotal : s.ncfs.diskTotalNum = n) (hdata : s.ncfs.dataDiskNum = k) (hkept : L.Kept s.ncfs)
    (hsizes : ∀ i < n, s.diskSize i = blocks) (hd : d < n) (junk : ℕ → ℕ → Byte) (mem : ℕ → Buf) :
    (∃ s', L.recover .traditional (s.fail {d} junk) d mem = .ok s' ∧ (s.fail ∅ junk).Agrees s') ↔
      (blocks - 1) * s.ncfs.diskBlockSize < 2 ^ 31 ∧ L.WholeStrips s.ncfs k d blocks := by
  subst htotal hdata
  have hoffsets : (∀ i < s.diskSize d, i * s.ncfs.diskBlockSize < 2 ^ 31) ↔
      (blocks - 1) * s.ncfs.diskBlockSize < 2 ^ 31 := by
    rw [hsizes d hd]
    constructor
    · intro h
      rcases Nat.eq_zero_or_pos blocks with rfl | hpos
      · rw [Nat.zero_sub, Nat.zero_mul]
        exact Nat.two_pow_pos 31
      · exact h (blocks - 1) (by omega)
    · exact fun h i hi => (Nat.mul_le_mul_right _ (Nat.le_sub_one_of_lt hi)).trans_lt h
  have hfirst : (∃ s', L.recover .traditional (s.fail {d} junk) d mem = .ok s' ∧
      (s.fail ∅ junk).Agrees s') ↔
      (blocks - 1) * s.ncfs.diskBlockSize < 2 ^ 31 ∧
        ∃ s', L.recoverOneDisk (s.fail {d} junk) d = .ok s' ∧ (s.fail ∅ junk).Agrees s' := by
    simp only [recover_array harray hd, hoffsets]
    constructor
    · rintro ⟨s', ⟨hok, hfits⟩, hagrees⟩
      exact ⟨hfits, s', hok, hagrees⟩
    · rintro ⟨hfits, s', hok, hagrees⟩
      exact ⟨s', ⟨hok, hfits⟩, hagrees⟩
  rw [hfirst]
  exact and_congr_right fun hfits => recoverOneDisk_agrees_iff hL harray rfl rfl hkept hsizes hd
    hfits junk

end Arrays

/-- Five disks of `blocks` blocks under EVENODD, after the write of a block of sevens. -/
def writtenDevices (blocks : ℕ) : Devices :=
  ⟨Machine.run
    (encodeStep (Coding4Evenodd.encode (Coding4Evenodd.new (zeroDevices 5 3 blocks).ncfs)))
    (zeroDevices 5 3 blocks).ncfs [(fun _ => Byte.ofNat 7, 4)], fun _ => blocks⟩

theorem kept_writtenDevices (blocks : ℕ) :
    (evenodd (Coding4Evenodd.new (zeroDevices 5 3 4).ncfs)).Kept (writtenDevices blocks).ncfs := by
  have hblank : Blank (zeroDevices 5 3 blocks).ncfs 3 4 := ⟨⟨rfl, rfl, rfl⟩, rfl, fun _ _ _ => rfl⟩
  have hthree : 2 ≤ (zeroDevices 5 3 blocks).ncfs.dataDiskNum := show 2 ≤ 3 by decide
  have hcalls : ∀ call ∈ [((fun _ => Byte.ofNat 7, 4) : Call)], call.2 ≤ 4 := by simp
  obtain ⟨hshape, -⟩ := ArrayEncoder.run_storeParity (Coding4Evenodd.encoder_exact hthree)
    (Coding4Evenodd.encoder_implements hthree 4) hblank hcalls
  intro g o ho
  exact Coding4Evenodd.run_stripParity hthree hblank hcalls g o (ho.trans_eq hshape.block_eq)

/-- EVENODD on five disks, of which one has been written and the `Q` disk is lost: four blocks are
two strips, and three are one and a half. -/
theorem arrayRepairs_iff_five :
    let L := evenodd (Coding4Evenodd.new (zeroDevices 5 3 4).ncfs)
    (∃ s', L.recover .traditional ((writtenDevices 4).fail {4} fun _ _ => 9) 4
      (fun _ _ => 0) = .ok s' ∧
      ((writtenDevices 4).fail ∅ fun _ _ => 9).Agrees s') ∧
    ¬ ∃ s', L.recover .traditional ((writtenDevices 3).fail {4} fun _ _ => 9) 4
      (fun _ _ => 0) = .ok s' ∧
      ((writtenDevices 3).fail ∅ fun _ _ => 9).Agrees s' := by
  intro L
  have hL : L.Configured 5 3 := ⟨rfl, by decide, (zeroDevices 5 3 4).ncfs, rfl, rfl⟩
  constructor
  · exact (arrayRepairs_iff (s := writtenDevices 4) hL trivial trivial rfl rfl
      (kept_writtenDevices 4)
      (fun _ _ => rfl) (by decide) (fun _ _ => 9) fun _ _ => 0).2 ⟨by decide, show 2 ∣ 4 by decide⟩
  · intro h
    have hstrips := (arrayRepairs_iff (s := writtenDevices 3) hL trivial trivial rfl rfl
      (kept_writtenDevices 3) (fun _ _ => rfl) (by decide) (fun _ _ => 9) fun _ _ => 0).1 h
    exact absurd hstrips.2 (show ¬ 2 ∣ 3 by decide)

end CodingLayer

end Ncfs
