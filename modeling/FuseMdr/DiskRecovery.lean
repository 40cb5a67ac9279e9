/-
Rebuilding a disk that encode has written.

A device has as many blocks as the configuration gives it, and the strips of a code need not divide
that number.  The rebuild of a disk goes through the last strip all the same.  EVENODD and RDP read
every row of it.  MDR-I reads all rows for the `Q` disk, and half of them for the others, so that a
strip that is cut off may still be rebuilt.  A read behind the end marks a disk that works as
failed.

Main definitions:

* `Ncfs.Devices.lose` — a disk fails and is replaced;
* `Ncfs.Devices.Restores` — the rebuild brings back all blocks, and the other disks still work;
* `Ncfs.Coding4Mdr1.GroupInside` — the reads for a group of the MDR-I code stay on the devices.

Main results:

* `Ncfs.ElemTable.restores_iff` — for the codes with a table of cells, whatever is on the disks;
* `Ncfs.Coding4Mdr1.restores_iff` — for the MDR-I code;
* `Ncfs.restores_reached_iff` — for all three codes, after any run of writes.
-/
import FuseMdr.DeviceEncode
import FuseMdr.DiagonalRebuild
import FuseMdr.MdrRecovery

set_option relaxedAutoImplicit false
set_option autoImplicit false

namespace Ncfs

namespace Devices

/-! ### A disk is replaced -/

/-- Disk `d` has failed and been replaced by a device with the bytes `content`. -/
def lose (s : Devices) (d : ℕ) (content : ℕ → Byte) : Devices :=
  { s with ncfs := { s.ncfs with
      diskStatus := Function.update s.ncfs.diskStatus d 1
      disk := Function.update s.ncfs.disk d content } }

/-- The rebuild of disk `d` writes every block that the disk held, and leaves the other disks
working. -/
def Restores (recoverOneDisk : Devices → ℕ → Except CodingError Devices) (s : Devices) (d : ℕ)
    (content : ℕ → Byte) : Prop :=
  ∃ s', recoverOneDisk (s.lose d content) d = .ok s' ∧
    (∀ b < s.diskSize d, ∀ o < s.ncfs.diskBlockSize, s'.ncfs.block d b o = s.ncfs.block d b o) ∧
    ∀ i < s.ncfs.diskTotalNum, i ≠ d → s'.ncfs.diskStatus i = 0

section Lose

variable {s : Devices} {d i : ℕ} {content : ℕ → Byte}

theorem lose_block_of_ne (hi : i ≠ d) (b o : ℕ) :
    (s.lose d content).ncfs.block i b o = s.ncfs.block i b o := by
  change Function.update s.ncfs.disk d content i _ = s.ncfs.disk i _
  rw [Function.update_of_ne hi]
  rfl

theorem lose_singleFailure (hd : d < s.ncfs.diskTotalNum)
    (hhealthy : ∀ i < s.ncfs.diskTotalNum, i ≠ d → s.ncfs.diskStatus i = 0) :
    (s.lose d content).SingleFailure d := by
  refine ⟨hd, fun i hi => ?_⟩
  change Function.update s.ncfs.diskStatus d 1 i = _
  by_cases hid : i = d
  · rw [if_pos hid, hid, Function.update_self]
  · rw [if_neg hid, Function.update_of_ne hid]
    exact hhealthy i hi hid

end Lose

end Devices

open Devices

/-! ### Codes with a table of cells -/

namespace ElemTable

section Table

variable {coding : ElemTable} {cells : List Pair} {s : Devices} {d blocks : ℕ} {content : ℕ → Byte}

/-- A rebuild that leaves the other disks working has gone through whole strips. -/
theorem Restores.whole_strips (hcells : coding.Prefetch cells s.ncfs.diskTotalNum d)
    (hlast : ∃ i, (coding.row - 1, i) ∈ cells)
    (hsizes : ∀ i < s.ncfs.diskTotalNum, s.diskSize i = blocks)
    (hs : (s.lose d content).SingleFailure d)
    (h : Restores (coding.recoverOneDisk cells) s d content) :
    coding.row ∣ blocks ∧ (blocks - 1) * s.ncfs.diskBlockSize < 2 ^ 31 := by
  obtain ⟨s', hrun, -, hhealthy⟩ := h
  obtain ⟨i, hmem⟩ := hlast
  obtain ⟨-, hi, hid⟩ := hcells.inside _ hmem
  have hrow := hcells.row_pos
  rcases Nat.eq_zero_or_pos blocks with rfl | hpos
  · rw [Nat.zero_sub, Nat.zero_mul]
    exact ⟨dvd_zero _, Nat.two_pow_pos 31⟩
  · -- the last strip is read up to its last row
    have hdisk : (s.lose d content).diskSize d = blocks := hsizes d hs.lt
    have hmod := Nat.div_add_mod' (blocks - 1) coding.row
    have hlt := Nat.mod_lt (blocks - 1) hrow
    obtain ⟨hfits, hmark⟩ := recoverOneDisk_marks (s := s.lose d content)
      (g := (blocks - 1) / coding.row) hrow
      (fun c hc => (hcells.inside c hc).2) hs.status_ne hrun (by rw [hdisk]; omega) hmem
    have hblock : coding.row - 1 + (blocks - 1) / coding.row * coding.row < s.diskSize i :=
      hmark.resolve_right fun hmark => hmark (hhealthy i hi hid)
    rw [hsizes i hi] at hblock
    change (coding.row - 1 + (blocks - 1) / coding.row * coding.row) * s.ncfs.diskBlockSize < 2 ^ 31
      at hfits
    have hwhole : coding.row - 1 + (blocks - 1) / coding.row * coding.row = blocks - 1 := by omega
    rw [hwhole] at hfits
    refine ⟨⟨(blocks - 1) / coding.row + 1, ?_⟩, hfits⟩
    rw [Nat.mul_succ, Nat.mul_comm]
    omega

/-- Whatever is on the disks, the rebuild brings a disk back exactly when it has whole strips, all
offsets are values of an `int`, and its blocks are those that the equations give. -/
theorem restores_iff (hcells : coding.Prefetch cells s.ncfs.diskTotalNum d)
    (hlast : ∃ i, (coding.row - 1, i) ∈ cells)
    (hsizes : ∀ i < s.ncfs.diskTotalNum, s.diskSize i = blocks)
    (hs : (s.lose d content).SingleFailure d) :
    Restores (coding.recoverOneDisk cells) s d content ↔
      coding.row ∣ blocks ∧ (blocks - 1) * s.ncfs.diskBlockSize < 2 ^ 31 ∧
        ∀ b < blocks, ∀ o < s.ncfs.diskBlockSize,
        coding.lostByte s.ncfs d b o = s.ncfs.block d b o := by
  have hdisk : (s.lose d content).diskSize d = blocks := hsizes d hs.lt
  have hlost : ∀ b o, coding.lostByte (s.lose d content).ncfs d b o =
      coding.lostByte s.ncfs d b o := by
    intro b o
    have htotal : (s.lose d content).ncfs.diskTotalNum = s.ncfs.diskTotalNum := rfl
    exact hcells.lostByte_congr htotal (fun _ hi b => lose_block_of_ne hi b o) b
  have hrebuild : coding.row ∣ blocks → (blocks - 1) * s.ncfs.diskBlockSize < 2 ^ 31 →
      ∃ s', coding.recoverOneDisk cells (s.lose d content) d = .ok s' ∧
        (∀ b < blocks, ∀ o < s.ncfs.diskBlockSize,
          s'.ncfs.block d b o = coding.lostByte s.ncfs d b o) ∧
        ∀ i < s.ncfs.diskTotalNum, s'.ncfs.diskStatus i = 0 := by
    intro hdvd hfits
    have hfits' : LastOffsetFits (s.lose d content) d := by
      rw [LastOffsetFits, hdisk]
      exact hfits
    have hread := fun g => Prefetch.readable (s := s.lose d content) hcells
      (fun i hi => by rw [hdisk]; exact (hsizes i hi).ge) hfits' (g := g)
    obtain ⟨s', hrun, -, -, hblocks, hstatus⟩ := recoverOneDisk_ok (s := s.lose d content) hcells hs
      (by rwa [hdisk]) hread
    refine ⟨s', hrun, fun b hb o ho => ?_, hstatus⟩
    rw [← hlost]
    exact hblocks b (by rwa [hdisk]) o ho
  constructor
  · intro h
    obtain ⟨hdvd, hfits⟩ := Restores.whole_strips hcells hlast hsizes hs h
    refine ⟨hdvd, hfits, fun b hb o ho => ?_⟩
    obtain ⟨s', hrun, hblocks, -⟩ := hrebuild hdvd hfits
    obtain ⟨s'', hrun', hsame, -⟩ := h
    obtain rfl : s' = s'' := Except.ok.inj (hrun.symm.trans hrun')
    rw [← hblocks b hb o ho]
    exact hsame b (by rwa [hsizes d hs.lt]) o ho
  · rintro ⟨hdvd, hfits, heq⟩
    obtain ⟨s', hrun, hblocks, hstatus⟩ := hrebuild hdvd hfits
    refine ⟨s', hrun, fun b hb o ho => ?_, fun i hi _ => hstatus i hi⟩
    rw [hsizes d hs.lt] at hb
    exact (hblocks b hb o ho).trans (heq b hb o ho)

end Table

section Lost

variable {coding : ElemTable} {st : NcfsState} {k d b o : ℕ}

/-- A data or `P` block is what the sum of its row gives. -/
theorem lostByte_of_rowParity (htotal : st.diskTotalNum = k + 2)
    (hrow : st.block k b o = ∑ j ∈ Finset.range k, st.block j b o) (hd : d ≤ k) :
    coding.lostByte st d b o = st.block d b o := by
  have hlt : d < st.diskTotalNum - 1 := by omega
  have hzero : ∑ i ∈ Finset.range (k + 1), st.block i b o = 0 := by
    rw [Finset.sum_range_succ, hrow]
    exact ZModModule.add_self _
  rw [lostByte, if_pos hlt, show st.diskTotalNum - 1 = k + 1 by omega, Xor.sum_map_filter_range,
    Xor.sum_range_erase (Nat.lt_succ_of_le hd) fun i => st.block i b o, hzero, zero_add,
    ← Finset.filter_ne', Finset.sum_filter]
  simp only [decide_eq_true_eq]

end Lost

end ElemTable

/-! ### The MDR-I code -/

namespace Coding4Mdr1

/-- On disks of `blocks` blocks of `bs` bytes, the reads for group `g` stay on the devices and their
offsets are values of an `int`, as far as they are computed as such. -/
structure GroupInside (k d blocks bs g : ℕ) : Prop where
  /-- The offset of the group. -/
  fits : g * 2 ^ k * bs < 2 ^ 31
  /-- The rows that are read for a data disk or the `P` disk. -/
  dp : d ≤ k → ∀ t ∈ repairRows k d, g * 2 ^ k + t < blocks ∧ (g * 2 ^ k + t) * bs < 2 ^ 31
  /-- All rows are read for the `Q` disk. -/
  q : d = k + 1 → (g + 1) * 2 ^ k ≤ blocks

section Group

variable {coding : Coding4Mdr1} {s : Devices} {k d blocks g : ℕ} {content : ℕ → Byte}

theorem readsInside_iff (hd : d < k + 2) (hsizes : ∀ i < k + 2, s.diskSize i = blocks) :
    ReadsInside s k d g ↔ GroupInside k d blocks s.ncfs.diskBlockSize g := by
  have hhas : ∀ i < k + 2, ∀ b, s.HasBlock i b ↔ b < blocks := fun i hi b => by
    rw [HasBlock, hsizes i hi]
  constructor
  · intro h
    refine ⟨h.fits, fun hdk t ht => ?_, fun hdk => ?_⟩
    · obtain ⟨hblocks, hfits⟩ := h.dp hdk t ht
      refine ⟨?_, hfits⟩
      by_cases hd0 : d = 0
      · exact (hhas 1 (by omega) _).1 (hblocks 1 (by omega) (by omega))
      · exact (hhas 0 (by omega) _).1 (hblocks 0 (by omega) (Ne.symm hd0))
    · have hpos := Nat.two_pow_pos k
      have hlast := (hhas 0 (by omega) _).1 (h.q (by omega) (2 ^ k - 1) (by omega) 0 (by omega))
      rw [Nat.succ_mul]
      omega
  · intro h
    refine ⟨h.fits, fun hdk t ht => ?_, fun hdk t ht j hj => ?_⟩
    · obtain ⟨hlt, hfits⟩ := h.dp hdk t ht
      exact ⟨fun j hj _ => (hhas j hj _).2 hlt, hfits⟩
    · have hle := h.q (by omega)
      rw [Nat.succ_mul] at hle
      exact (hhas j (by omega) _).2 (by omega)

/-- Where the equations hold, the rebuild brings a disk back exactly when the reads for all groups
stay inside. -/
theorem restores_iff (hk : 1 ≤ k) (hdata : s.ncfs.dataDiskNum = k)
    (hnum : s.ncfs.diskTotalNum = k + 2) (hsizes : ∀ i < k + 2, s.diskSize i = blocks)
    (hs : (s.lose d content).SingleFailure d) (hc : coding.Ready k d)
    (hparity : (∀ g, g * 2 ^ k < blocks → GroupInside k d blocks s.ncfs.diskBlockSize g) →
      ∀ g, ∀ o < s.ncfs.diskBlockSize, MdrParity (Ncfs.mdrIEncodingMatrixB k) k fun j t =>
        s.ncfs.block j (g * 2 ^ k + t) o) :
    Restores coding.recoverOneDisk s d content ↔
      ∀ g, g * 2 ^ k < blocks → GroupInside k d blocks s.ncfs.diskBlockSize g := by
  have hd : d < k + 2 := hnum ▸ hs.lt
  have hdisk : (s.lose d content).diskSize d = blocks := hsizes d hd
  have hinside : ∀ g, ReadsInside (s.lose d content) k d g ↔
      GroupInside k d blocks s.ncfs.diskBlockSize g :=
    fun g => readsInside_iff hd hsizes
  constructor
  · rintro ⟨s', hrun, -, hhealthy⟩ g hg
    rw [hnum] at hhealthy
    exact (hinside g).1
      (recoverOneDisk_inside (s := s.lose d content) hk hdata hnum hs hc hrun hhealthy g
        (by rwa [hdisk]))
  · intro hgroups
    obtain ⟨s', hrun, -, -, hblocks, hstatus⟩ := recoverOneDisk_ok (s := s.lose d content)
      (fun b o => s.ncfs.block d b o) hk hdata hnum hs hc
      (fun g hg => (hinside g).2 (hgroups g (by rwa [hdisk] at hg)))
      (fun g _ o ho => ⟨_, hparity hgroups g o ho, fun j _ hjd t _ => lose_block_of_ne hjd _ o,
        fun _ _ => rfl⟩)
    refine ⟨s', hrun, fun b hb => hblocks b ?_, fun i hi _ => hstatus i hi⟩
    exact hb

end Group

end Coding4Mdr1

/-! ### After a run of writes -/

namespace ArrayEncoder

variable {C : Strip.Code} {E : ArrayEncoder C} {bs : ℕ} {s₀ s : Devices} {encOn : Encode}
  {enc : NcfsState → Buf → ℕ → Option (ℕ × ℕ) × NcfsState}

/-- Writes keep what the rebuild goes by. -/
theorem later_reached (hencOn : E.ImplementsOn bs encOn) (h : s₀.ncfs.Shaped C.dataDisks bs)
    (hreach : Reached encOn s₀ s) : s₀.Later s := by
  obtain ⟨calls, -, hrun⟩ := hreach
  exact later_run hencOn h hrun

/-- Writes that leave all disks but `d` working are those of a run on endless devices. -/
theorem reached_run (hencOn : E.ImplementsOn bs encOn) (henc : E.Implements bs enc)
    (hblank : Blank s₀.ncfs C.dataDisks bs) {d blocks : ℕ}
    (hsizes : ∀ i < C.dataDisks + 2, s₀.diskSize i = blocks)
    (he : d ≠ C.dataDisks + 1 ∨ C.rows ∣ blocks) (hreach : Reached encOn s₀ s)
    (hhealthy : ∀ i < C.dataDisks + 2, i ≠ d → s.ncfs.diskStatus i = 0) :
    ∃ calls : List Call, (∀ call ∈ calls, call.2 ≤ bs) ∧
      s.ncfs = Machine.run (Ncfs.encodeStep enc) s₀.ncfs calls := by
  obtain ⟨calls, hsize, hrun⟩ := hreach
  have hsize' : ∀ call ∈ calls, call.2.2 ≤ bs := fun call hcall => by
    rw [← hblank.shaped.block_eq]
    exact hsize call hcall
  refine ⟨calls.map Prod.snd, fun call hcall => ?_,
    run_of_healthy hencOn henc hblank.shaped hblank.unused hsize' hrun hsizes he hhealthy⟩
  obtain ⟨call', hcall', rfl⟩ := List.mem_map.1 hcall
  exact hsize' call' hcall'

end ArrayEncoder

namespace ElemTable

/-- The blocks of the `Q` disk are the sums of the cells that the code lists for them. -/
def DiagonalParity (coding : ElemTable) (st : NcfsState) (k blocks : ℕ) : Prop :=
  ∀ b < blocks, ∀ o < st.diskBlockSize, st.block (k + 1) b o =
    ((coding.elemHash (b % coding.row, k + 1)).map fun e => st.block e.2
      (e.1 + b / coding.row * coding.row) o).sum

/-- Where the rows add up, only the `Q` disk needs more. -/
theorem lostByte_eq_block_iff {coding : ElemTable} {st : NcfsState} {k d blocks : ℕ}
    (htotal : st.diskTotalNum = k + 2) (hd : d < k + 2)
    (hrow : ∀ b, ∀ o < st.diskBlockSize, st.block k b o = ∑ j ∈ Finset.range k, st.block j b o) :
    (∀ b < blocks, ∀ o < st.diskBlockSize, coding.lostByte st d b o = st.block d b o) ↔
      (d = k + 1 → coding.DiagonalParity st k blocks) := by
  by_cases hdk : d ≤ k
  · exact iff_of_true (fun b _ o ho => lostByte_of_rowParity htotal (hrow b o ho) hdk)
      fun h => by omega
  · obtain rfl : d = k + 1 := by omega
    have hq : ∀ b o, coding.lostByte st
        (k + 1) b o = ((coding.elemHash (b % coding.row, k + 1)).map fun e =>
          st.block e.2 (e.1 + b / coding.row * coding.row) o).sum := fun b o => if_neg (by omega)
    simp only [hq, true_implies, DiagonalParity]
    exact forall₂_congr fun b _ => forall₂_congr fun o _ => eq_comm

theorem StripParity.diagonalParity {coding : ElemTable} {st : NcfsState} {k blocks : ℕ}
    (hrow : 0 < coding.row) (hk : coding.k = k) (hcol : coding.col = k + 2)
    (h : ∀ g, ∀ o < st.diskBlockSize, coding.StripParity st g o) :
    coding.DiagonalParity st k blocks := by
  intro b _ o ho
  have hq := (h (b / coding.row) o ho).q (b % coding.row) (Nat.mod_lt _ hrow)
  simp only [hk, hcol, Nat.div_add_mod'] at hq
  rw [hq]
  refine congrArg List.sum (List.map_congr_left fun e _ => ?_)
  rw [Nat.add_comm]

end ElemTable

section Codes

variable {s₀ s : Devices} {d blocks : ℕ} {content : ℕ → Byte}

/-- Under EVENODD every disk of whole strips is brought back. -/
theorem Coding4Evenodd.restores_iff (hk : 2 ≤ s₀.ncfs.dataDiskNum)
    (hblank : Blank s₀.ncfs s₀.ncfs.dataDiskNum s₀.ncfs.diskBlockSize)
    (hsizes : ∀ i < s₀.ncfs.dataDiskNum + 2, s₀.diskSize i = blocks)
    (hd : d < s₀.ncfs.dataDiskNum + 2)
    (hhealthy : ∀ i < s₀.ncfs.dataDiskNum + 2, i ≠ d → s.ncfs.diskStatus i = 0)
    (hreach : Reached (evenoddEncode (new s₀.ncfs)) s₀ s) :
    Restores (evenoddRecoverOneDisk (new s₀.ncfs)) s d content ↔
      s₀.ncfs.dataDiskNum - 1 ∣ blocks ∧ (blocks - 1) * s₀.ncfs.diskBlockSize < 2 ^ 31 := by
  have hencOn : (sound hk).encoder.ImplementsOn s₀.ncfs.diskBlockSize
      (evenoddEncode (new s₀.ncfs)) :=
    fun _ _ _ _ _ => rfl
  have henc := encoder_implements hk s₀.ncfs.diskBlockSize
  have hlater := ArrayEncoder.later_reached hencOn hblank.shaped hreach
  have htotal : s.ncfs.diskTotalNum = s₀.ncfs.dataDiskNum + 2 :=
    hlater.total_eq.trans hblank.shaped.total_eq
  have hcells := Coding4Evenodd.prefetch hk hd
  have hlast := Coding4Evenodd.exists_last_cell (d := d) hk
  have hs : (s.lose d content).SingleFailure d := lose_singleFailure (by omega) (by rwa [htotal])
  rw [← htotal] at hcells hlast
  have hiff : Restores (evenoddRecoverOneDisk (new s₀.ncfs)) s d content ↔ _ :=
    ElemTable.restores_iff hcells hlast (by rwa [htotal, hlater.size_eq]) hs
  rw [hiff, hlater.block_eq]
  refine and_congr_right fun hdvd => and_iff_left ?_
  obtain ⟨calls, hcalls, hrun⟩ := ArrayEncoder.reached_run hencOn henc hblank hsizes
    (Or.inr hdvd) hreach hhealthy
  have hrow := ArrayEncoder.run_rowParity henc hblank hcalls
  have hparity := run_stripParity hk hblank hcalls
  rw [← hrun, ← hlater.block_eq] at hrow hparity
  rw [← hlater.block_eq]
  exact (ElemTable.lostByte_eq_block_iff htotal hd hrow).2 fun _ =>
    ElemTable.StripParity.diagonalParity (sound hk).row_pos rfl rfl hparity

/-- Under RDP, every disk of whole strips but `Q` is brought back, and `Q` where `encode` has kept
its blocks. -/
theorem Coding4Rdp.restores_iff (hk : 1 ≤ s₀.ncfs.dataDiskNum)
    (hblank : Blank s₀.ncfs s₀.ncfs.dataDiskNum s₀.ncfs.diskBlockSize)
    (hsizes : ∀ i < s₀.ncfs.dataDiskNum + 2, s₀.diskSize i = blocks)
    (hd : d < s₀.ncfs.dataDiskNum + 2)
    (hhealthy : ∀ i < s₀.ncfs.dataDiskNum + 2, i ≠ d → s.ncfs.diskStatus i = 0)
    (hreach : Reached (rdpEncode (new s₀.ncfs)) s₀ s) :
    Restores (rdpRecoverOneDisk (new s₀.ncfs)) s d content ↔
      s₀.ncfs.dataDiskNum ∣ blocks ∧ (blocks - 1) * s₀.ncfs.diskBlockSize < 2 ^ 31 ∧
        (d = s₀.ncfs.dataDiskNum + 1 →
          (new s₀.ncfs).DiagonalParity s.ncfs s₀.ncfs.dataDiskNum blocks) := by
  have hencOn : (sound hk).encoder.ImplementsOn s₀.ncfs.diskBlockSize (rdpEncode (new s₀.ncfs)) :=
    fun _ _ _ _ _ => rfl
  have henc := encoder_implements hk s₀.ncfs.diskBlockSize
  have hlater := ArrayEncoder.later_reached hencOn hblank.shaped hreach
  have htotal : s.ncfs.diskTotalNum = s₀.ncfs.dataDiskNum + 2 :=
    hlater.total_eq.trans hblank.shaped.total_eq
  have hcells := Coding4Rdp.prefetch hk hd
  have hlast := Coding4Rdp.exists_last_cell hk hd
  have hs : (s.lose d content).SingleFailure d := lose_singleFailure (by omega) (by rwa [htotal])
  rw [← htotal] at hcells hlast
  have hiff : Restores (rdpRecoverOneDisk (new s₀.ncfs)) s d content ↔ _ :=
    ElemTable.restores_iff hcells hlast (by rwa [htotal, hlater.size_eq]) hs
  rw [hiff, hlater.block_eq]
  refine and_congr_right fun hdvd => and_congr_right fun _ => ?_
  obtain ⟨calls, hcalls, hrun⟩ := ArrayEncoder.reached_run hencOn henc hblank hsizes
    (Or.inr hdvd) hreach hhealthy
  have hrow := ArrayEncoder.run_rowParity henc hblank hcalls
  rw [← hrun, ← hlater.block_eq] at hrow
  rw [← hlater.block_eq]
  exact ElemTable.lostByte_eq_block_iff htotal hd hrow

/-- Under MDR-I a disk is brought back when the reads for its groups stay inside. -/
theorem Coding4Mdr1.restores_iff_of_reached {coding : Coding4Mdr1}
    (hnew : Coding4Mdr1.new s₀.ncfs = .ok coding)
    (hblank : Blank s₀.ncfs s₀.ncfs.dataDiskNum s₀.ncfs.diskBlockSize)
    (hsizes : ∀ i < s₀.ncfs.dataDiskNum + 2, s₀.diskSize i = blocks)
    (hd : d < s₀.ncfs.dataDiskNum + 2)
    (hhealthy : ∀ i < s₀.ncfs.dataDiskNum + 2, i ≠ d → s.ncfs.diskStatus i = 0)
    (hreach : Reached (mdrEncode coding) s₀ s) :
    Restores coding.recoverOneDisk s d content ↔ ∀ g, g * 2 ^ s₀.ncfs.dataDiskNum < blocks →
      GroupInside s₀.ncfs.dataDiskNum d blocks s₀.ncfs.diskBlockSize g := by
  have hk : 1 ≤ s₀.ncfs.dataDiskNum := by
    by_contra hk
    rw [Coding4Mdr1.new, mdrIEncodingMatrix, if_pos (by omega)] at hnew
    cases hnew
  obtain ⟨coding', hnew', hc, hV, hM, hQ⟩ := Coding4Mdr1.new_ok hk
  obtain rfl : coding = coding' := Except.ok.inj (hnew.symm.trans hnew')
  have hready : coding.Ready s₀.ncfs.dataDiskNum d := by
    refine ⟨hc, fun _ => ⟨hc, fun h => ?_, fun h => ?_, fun h => ?_⟩, fun _ h => ?_⟩ <;> simp_all
  have hencOn : (mdrEncoder hc s₀.ncfs).ImplementsOn s₀.ncfs.diskBlockSize (mdrEncode coding) := by
    intro heap s buf size h
    have hfind : mdrIFindQBlocksId coding s.ncfs = mdrIFindQBlocksId coding s₀.ncfs := by
      funext d r
      rw [mdrIFindQBlocksId, mdrIFindQBlocksId, h.data_eq]
      rfl
    rw [mdrEncode, hc.stripSize_eq, hfind]
    rfl
  have henc := mdrEncoder_implements hc rfl s₀.ncfs.diskBlockSize
  have hlater := ArrayEncoder.later_reached hencOn hblank.shaped hreach
  have htotal : s.ncfs.diskTotalNum = s₀.ncfs.dataDiskNum + 2 :=
    hlater.total_eq.trans hblank.shaped.total_eq
  have hs : (s.lose d content).SingleFailure d := lose_singleFailure (by omega) (by rwa [htotal])
  rw [← hlater.block_eq]
  refine Coding4Mdr1.restores_iff hk hlater.data_eq htotal (by rwa [hlater.size_eq]) hs hready
    fun hgroups => ?_
  -- where the `Q` disk is lost, its groups are whole
  have hwhole : d ≠ s₀.ncfs.dataDiskNum + 1 ∨ 2 ^ s₀.ncfs.dataDiskNum ∣ blocks := by
    by_cases hdq : d = s₀.ncfs.dataDiskNum + 1
    · refine Or.inr (not_not.1 fun hdvd => ?_)
      have hpos := Nat.two_pow_pos s₀.ncfs.dataDiskNum
      have hmod := Nat.div_add_mod' blocks (2 ^ s₀.ncfs.dataDiskNum)
      have hlt := Nat.mod_lt blocks hpos
      have hne : blocks % 2 ^ s₀.ncfs.dataDiskNum ≠ 0 := fun h => hdvd (Nat.dvd_of_mod_eq_zero h)
      have hle := (hgroups (blocks / 2 ^ s₀.ncfs.dataDiskNum) (by omega)).q hdq
      rw [Nat.succ_mul] at hle
      omega
    · exact Or.inl hdq
  obtain ⟨calls, hcalls, hrun⟩ :=
    ArrayEncoder.reached_run hencOn henc hblank hsizes hwhole hreach hhealthy
  obtain ⟨hshape, hparity⟩ := ArrayEncoder.run_storeParity
    (mdrEncoder_exact hc rfl) henc hblank hcalls
  rw [← hrun] at hparity
  exact fun g o ho => mdrCode_parity_iff.1 (hparity g o ho)

end Codes

/-- After any writes to disks of `blocks` blocks, the rebuild of one disk brings back every block
and leaves the other disks working: under EVENODD, and under RDP for all disks but `Q`, exactly when
the disks have whole strips; under RDP for the `Q` disk, exactly when moreover its blocks are the
sums of their diagonals; under MDR-I, exactly when the rows that are read are in front of the end.
All offsets have to be values of an `int`.  With six data disks and more the words of MDR-I leave
their types (`Ncfs.Widths.compiled_tests`). -/
theorem restores_reached_iff (s₀ s : Devices) (d blocks : ℕ) (content : ℕ → Byte)
    (hblank : Blank s₀.ncfs s₀.ncfs.dataDiskNum s₀.ncfs.diskBlockSize)
    (hsizes : ∀ i < s₀.ncfs.dataDiskNum + 2, s₀.diskSize i = blocks)
    (hd : d < s₀.ncfs.dataDiskNum + 2)
    (hhealthy : ∀ i < s₀.ncfs.dataDiskNum + 2, i ≠ d → s.ncfs.diskStatus i = 0) :
    let k := s₀.ncfs.dataDiskNum
    let bs := s₀.ncfs.diskBlockSize
    (2 ≤ k → Reached (evenoddEncode (Coding4Evenodd.new s₀.ncfs)) s₀ s →
      (Restores (Coding4Evenodd.evenoddRecoverOneDisk (Coding4Evenodd.new s₀.ncfs)) s d content ↔
        k - 1 ∣ blocks ∧ (blocks - 1) * bs < 2 ^ 31)) ∧
    (1 ≤ k → Reached (rdpEncode (Coding4Rdp.new s₀.ncfs)) s₀ s →
      (Restores (Coding4Rdp.rdpRecoverOneDisk (Coding4Rdp.new s₀.ncfs)) s d content ↔
        k ∣ blocks ∧ (blocks - 1) * bs < 2 ^ 31 ∧
          (d = k + 1 → (Coding4Rdp.new s₀.ncfs).DiagonalParity s.ncfs k blocks))) ∧
    (k ≤ 5 → ∀ coding, Coding4Mdr1.new s₀.ncfs = .ok coding → Reached (mdrEncode coding) s₀ s →
      (Restores coding.recoverOneDisk s d content ↔
        ∀ g, g * 2 ^ k < blocks → Coding4Mdr1.GroupInside k d blocks bs g)) :=
  ⟨fun hk => Coding4Evenodd.restores_iff hk hblank hsizes hd hhealthy,
    fun hk => Coding4Rdp.restores_iff hk hblank hsizes hd hhealthy,
    fun _ _ hnew => Coding4Mdr1.restores_iff_of_reached hnew hblank hsizes hd hhealthy⟩

/-- Five empty disks of `blocks` blocks of four bytes, three of them for data. -/
def fiveDisks (blocks : ℕ) : Devices :=
  ⟨NcfsState.blank 5 3 4 fourBytes_pos blocks, fun _ => blocks⟩

theorem fiveDisks_blank (blocks : ℕ) : Blank (fiveDisks blocks).ncfs 3 4 :=
  ⟨⟨rfl, rfl, rfl⟩, rfl, fun _ _ _ => rfl⟩

/-- One write of a block. -/
def sampleWrites : List (Buf × Call) := [(fun _ => Byte.ofNat 9, fun _ => Byte.ofNat 7, 4)]

/-- Disks of six blocks, one of which has been written. -/
theorem restores_reached_iff_six :
    (∃ s, Reached (evenoddEncode (Coding4Evenodd.new (fiveDisks 6).ncfs)) (fiveDisks 6) s ∧
      Restores (Coding4Evenodd.evenoddRecoverOneDisk (Coding4Evenodd.new (fiveDisks 6).ncfs)) s 1
        fun _ => 0) ∧
    (∃ s, Reached (rdpEncode (Coding4Rdp.new (fiveDisks 6).ncfs)) (fiveDisks 6) s ∧
      Restores (Coding4Rdp.rdpRecoverOneDisk (Coding4Rdp.new (fiveDisks 6).ncfs)) s 1 fun _ => 0) ∧
    ∃ coding s, Coding4Mdr1.new (fiveDisks 6).ncfs = .ok coding ∧ Reached (mdrEncode coding)
    (fiveDisks 6) s ∧
      Restores coding.recoverOneDisk s 1 fun _ => 0 := by
  have hiff := fun s => restores_reached_iff (fiveDisks 6) s 1 6 (fun _ => 0) (fiveDisks_blank 6)
    (fun _ _ => rfl) (by decide)
  refine ⟨⟨_, ⟨sampleWrites, by decide, rfl⟩,
    ((hiff _ ?_).1 (by decide) ⟨sampleWrites, by decide, rfl⟩).2 (by decide)⟩,
    ⟨_, ⟨sampleWrites, by decide, rfl⟩,
      ((hiff _ ?_).2.1 (by decide) ⟨sampleWrites, by decide, rfl⟩).2 ?_⟩,
    ⟨_, _, rfl, ⟨sampleWrites, by decide, rfl⟩,
      ((hiff _ ?_).2.2 (by decide) _ rfl ⟨sampleWrites, by decide, rfl⟩).2 ?_⟩⟩
  · decide
  · decide
  · exact ⟨by decide, by decide, fun h => absurd h (by decide)⟩
  · decide
  · intro g hg
    obtain rfl : g = 0 := by
      change g * 8 < 6 at hg
      omega
    exact ⟨by decide, fun _ => by decide, fun h => absurd h (by decide)⟩

/-- On disks of five blocks no code has whole strips, and of the rows that MDR-I reads for disk 1
the last is behind the end. -/
theorem restores_five_cut_off :
    (∃ s, Reached (evenoddEncode (Coding4Evenodd.new (fiveDisks 5).ncfs)) (fiveDisks 5) s ∧
      (∀ i < 5, s.ncfs.diskStatus i = 0) ∧
      ¬ Restores (Coding4Evenodd.evenoddRecoverOneDisk (Coding4Evenodd.new (fiveDisks 5).ncfs)) s 1
        fun _ => 0) ∧
    (∃ s, Reached (rdpEncode (Coding4Rdp.new (fiveDisks 5).ncfs)) (fiveDisks 5) s ∧
      (∀ i < 5, s.ncfs.diskStatus i = 0) ∧
      ¬ Restores (Coding4Rdp.rdpRecoverOneDisk (Coding4Rdp.new (fiveDisks 5).ncfs)) s 1
        fun _ => 0) ∧
    ∃ coding s, Coding4Mdr1.new (fiveDisks 5).ncfs = .ok coding ∧ Reached (mdrEncode coding)
    (fiveDisks 5) s ∧
      (∀ i < 5, s.ncfs.diskStatus i = 0) ∧ ¬ Restores coding.recoverOneDisk s 1 fun _ => 0 := by
  have hsizes : ∀ i < 3 + 2, (fiveDisks 5).diskSize i = 5 := fun _ _ => rfl
  refine ⟨⟨_, ⟨sampleWrites, by decide, rfl⟩, ?_, fun h => ?_⟩,
    ⟨_, ⟨sampleWrites, by decide, rfl⟩, ?_, fun h => ?_⟩,
    ⟨_, _, rfl, ⟨sampleWrites, by decide, rfl⟩, ?_, fun h => ?_⟩⟩
  · decide
  · have hiff := (Coding4Evenodd.restores_iff (by decide) (fiveDisks_blank 5) hsizes (by decide)
      (by decide)
      ⟨sampleWrites, by decide, rfl⟩).1 h
    exact absurd hiff.1 (by decide)
  · decide
  · have hiff := (Coding4Rdp.restores_iff (by decide) (fiveDisks_blank 5) hsizes (by decide)
      (by decide)
      ⟨sampleWrites, by decide, rfl⟩).1 h
    exact absurd hiff.1 (by decide)
  · decide
  · have hiff := (Coding4Mdr1.restores_iff_of_reached rfl (fiveDisks_blank 5) hsizes (by decide)
      (by decide)
      ⟨sampleWrites, by decide, rfl⟩).1 h
    exact absurd (((hiff 0 (by decide)).dp (by decide)) 5 (by decide)).1 (by decide)

end Ncfs
