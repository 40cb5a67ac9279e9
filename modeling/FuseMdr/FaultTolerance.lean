/-
**Which failures a code survives.**

Every layer has its own `decode`.  Whether the data can still be read after some disks have failed
depends on which of them have, on the numbers of disks, and on the branches that `decode` has.  For
each layer the failures are described under which all blocks of data come back, whatever was stored
and whatever is found on the failed disks.

Main definitions:

* `Ncfs.CodingLayer.Configured` — the objects that are made for a number of disks and of data disks;
* `Ncfs.CodingLayer.Encoded` — the equations that `encode` keeps;
* `Ncfs.CodingLayer.degraded` — what the array codes do for a lost disk;
* `Ncfs.CodingLayer.Recovers` — every block of data is read as it was stored;
* `Ncfs.CodingLayer.Tolerates` — the same in terms of the failed disks.

Main results:

* `Ncfs.CodingLayer.recovers_iff` — the two agree;
* `Ncfs.CodingLayer.noRotate_recovers_iff` — the case of RAID6 without rotation.
-/
import FuseMdr.DiskRecovery
import FuseMdr.LayerData
import FuseMdr.Raid6Tables
import FuseMdr.ShortReads
import FuseMdr.SrcShortWrites

set_option relaxedAutoImplicit false
set_option autoImplicit false

namespace Ncfs

namespace CodingLayer

/-! ### The stores of a layer -/

/-- The generator matrix is invertible on any `k` survivors, and the library inverts it. -/
def InvertsAll (J : Jerasure) (matrix : ℕ → ℕ) (n k : ℕ) : Prop :=
  ∀ F ⊆ Finset.range n, F.card + k ≤ n → ∀ ids, dmIds k n (failedFlag F) = .ok ids →
    J.Inverts (survivorRows k matrix ids) k

/-- The layer is an object that is made for `n` disks with `k` of data.  The layers over the library
take its documented behaviour as given. -/
def Configured : CodingLayer → ℕ → ℕ → Prop
  | rs J matrix, n, k => k ≤ n ∧ J.Multiplies ∧ InvertsAll J matrix n k
  | srcRs J matrix srcF, n, k =>
      k ≤ n ∧ 1 ≤ srcF ∧ srcF < n ∧ J.Multiplies ∧ InvertsAll J matrix n k
  | mbr M J, n, k => M.Fits n k ∧ J.Multiplies ∧ ∀ (st : NcfsState) (junk : ℕ → ℕ → Byte),
      ∀ F ⊆ Finset.range n, F.card + k ≤ n →
        ∀ ids, dmIds M.mbrM (M.mbrM + M.mbrC) (mbrErased M (st.fail F junk)) = .ok ids →
          J.Inverts (survivorRows M.mbrM M.generatorMatrix ids) M.mbrM
  | mdr1 coding, n, k => n = k + 2 ∧ 1 ≤ k ∧
      ∃ st : NcfsState, st.dataDiskNum = k ∧ Coding4Mdr1.new st = .ok coding
  | evenodd coding, n, k => n = k + 2 ∧ 2 ≤ k ∧
      ∃ st : NcfsState, st.dataDiskNum = k ∧ coding = Coding4Evenodd.new st
  | rdp coding, n, k => n = k + 2 ∧ 1 ≤ k ∧
      ∃ st : NcfsState, st.dataDiskNum = k ∧ coding = Coding4Rdp.new st
  | raid0, _, _ | raid1, _, _ | raid4, _, _ | raid5, _, _ | raid6 _, _, _ | jbod, _, _
  | raid6noRotate _, _, _ => True

/-- The numbers of data disks for which a compiled layer does what its definition says.  From six on
the masks of MDR-I lose bits (`Ncfs.Widths.compiled_tests`); with one the choice of a disk under
Reed-Solomon divides by zero. -/
def Runnable : CodingLayer → ℕ → Prop
  | mdr1 _, k => k ≤ 5
  | rs _ _, k | srcRs _ _ _, k => 2 ≤ k
  | _, _ => True

/-- What `encode` keeps between the blocks of a store. -/
def Encoded : CodingLayer → NcfsState → Prop
  | raid0, _ | jbod, _ => True
  | raid1, st => ∀ d < st.diskTotalNum / 2, ∀ b, ∀ o < st.diskBlockSize,
      st.block (mirrorDiskId st.diskTotalNum d) b o = st.block d b o
  | raid4, st | raid5, st => RowsZero st
  | raid6 _, st => Raid6Parity st
  | rs _ matrix, st => RsParity matrix st
  | srcRs _ matrix srcF, st => SrcEquations matrix srcF st
  | mbr M _, st => MbrConsistent M st
  | mdr1 _, st => StoreParity (mdrCode st.dataDiskNum) st
  | raid6noRotate _, st => ∀ b, ∀ o < st.diskBlockSize, NoRotateRow st b o
  | evenodd coding, st | rdp coding, st => ∀ g, ∀ o < st.diskBlockSize, coding.StripParity st g o

/-- A store of the layer with `n` disks, `k` of them for data.  A block is a whole number of
integers. -/
structure Stores (L : CodingLayer) (n k : ℕ) (s : Devices) : Prop where
  /-- `disk_total_num`. -/
  total_eq : s.ncfs.diskTotalNum = n
  /-- `data_disk_num`. -/
  data_eq : s.ncfs.dataDiskNum = k
  /-- `disk_block_size`. -/
  words : s.ncfs.diskBlockSize % sizeofInt = 0
  /-- The equations. -/
  encoded : L.Encoded s.ncfs

/-! ### Reading after failures -/

/-- What the `decode` of the array codes does for a disk that has failed, on devices of these
sizes. -/
def degraded (diskSize : ℕ → ℕ) : CodingLayer → NcfsState → ℕ → Buf → ℕ → ℕ → Except CodingError Buf
  | mdr1 coding, st, diskId, buf, size, offset => do
      let r ← coding.decode st diskId buf size offset
      return r.buf
  | evenodd coding, st, diskId, buf, size, offset => do
      let r ← Coding4Evenodd.decode coding ⟨st, diskSize⟩ diskId buf size offset
      return r.1
  | rdp coding, st, diskId, buf, size, offset => do
      let r ← Coding4Rdp.decode coding ⟨st, diskSize⟩ diskId buf size offset
      return r.1
  | _, _, _, _, _, _ => .error .undefined

/-- After the disks of `F` have failed, block `b` of disk `d` is read as it was stored. -/
def Returns (L : CodingLayer) (s : Devices) (F : Finset ℕ) (junk : ℕ → ℕ → Byte) (d b : ℕ)
    (buf : Buf) :
    Prop :=
  ∃ out, L.decode (L.degraded s.diskSize) (s.ncfs.fail F junk) d buf s.ncfs.diskBlockSize
      (b * s.ncfs.diskBlockSize) = .ok out ∧
    ∀ o < s.ncfs.diskBlockSize, out o = s.ncfs.block d (L.blockNo b) o

/-- **`decode` recovers every block of data from the disks outside of `F`**, in every store of the
layer and whatever is found on the disks of `F`. -/
def Recovers (L : CodingLayer) (n k : ℕ) (F : Finset ℕ) : Prop :=
  ∀ s, L.Stores n k s → ∀ d < n, ∀ b, L.DataPlace s.ncfs d b →
    (∀ i < n, s.HasBlock i (L.blockNo b)) → ∀ junk buf, L.Returns s F junk d b buf

section Reading

variable {L : CodingLayer} {n k d b : ℕ} {F : Finset ℕ} {s : Devices}

/-- A working disk is read. -/
theorem returns_of_notMem (L : CodingLayer) (s : Devices) (hd : d ∉ F) (junk : ℕ → ℕ → Byte) (b : ℕ)
    (buf : Buf) :
    L.Returns s F junk d b buf := by
  have hstatus : (s.ncfs.fail F junk).diskStatus d = 0 := by rw [fail_diskStatus, if_neg hd]
  have hread := @decode_healthy (L.degraded s.diskSize) L _ d hstatus buf b s.ncfs.diskBlockSize 0
    s.ncfs.diskBlockSize_pos
  rw [Nat.add_zero, Nat.add_zero] at hread
  exact ⟨_, hread, fun o ho => readDisk_fail hd ho buf⟩

/-- The blocks of a working disk are what they were. -/
theorem block_fail {st : NcfsState} {junk : ℕ → ℕ → Byte} (hd : d ∉ F) (b o : ℕ) :
    (st.fail F junk).block d b o = st.block d b o := by
  rw [NcfsState.block, NcfsState.block]
  simp [NcfsState.fail, hd]

/-- Only lost blocks are in question. -/
theorem recovers_of_lost (h : ∀ s, L.Stores n k s → ∀ d ∈ F, d < n → ∀ b, L.DataPlace s.ncfs d b →
    (∀ i < n, s.HasBlock i (L.blockNo b)) → ∀ junk buf, L.Returns s F junk d b buf) :
    L.Recovers n k F := by
  intro s hs d hd b hplace hblock junk buf
  by_cases hdF : d ∈ F
  · exact h s hs d hdF hd b hplace hblock junk buf
  · exact returns_of_notMem L s hdF junk b buf

/-- A read that has no result. -/
theorem not_recovers_of_ne_ok (hs : L.Stores n k s) (hd : d < n) (hplace : L.DataPlace s.ncfs d b)
    (hblock : ∀ i < n, s.HasBlock i (L.blockNo b)) (junk : ℕ → ℕ → Byte) (buf : Buf)
    (h : ∀ out, L.decode (L.degraded s.diskSize) (s.ncfs.fail F junk) d buf s.ncfs.diskBlockSize
      (b * s.ncfs.diskBlockSize) ≠ .ok out) : ¬ L.Recovers n k F := by
  intro hrec
  obtain ⟨out, hok, -⟩ := hrec s hs d hd b hplace hblock junk buf
  exact h out hok

end Reading

/-- Zero disks with `size` blocks of four bytes. -/
def zeroDevices (n k size : ℕ) : Devices :=
  ⟨NcfsState.blank n k 4 fourBytes_pos size, fun _ => size⟩

/-- Zero disks satisfy the equations of every layer. -/
theorem encoded_blank {L : CodingLayer} {n k : ℕ} (hL : L.Configured n k) (hn : 0 < n) (size : ℤ) :
    L.Encoded (NcfsState.blank n k 4 fourBytes_pos size) := by
  have hzero : ∀ d < n, ∀ x, (NcfsState.blank n k 4 fourBytes_pos size).disk d x = 0 :=
    fun _ _ _ => rfl
  have hstrip : ∀ (coding : ElemTable) (g o : ℕ),
      coding.StripParity (NcfsState.blank n k 4 fourBytes_pos size) g o := by
    intro coding g o
    refine ⟨fun r _ => ?_, fun i _ => ?_⟩
    · exact (Finset.sum_eq_zero fun j _ => rfl).symm
    · refine (List.sum_eq_zero fun y hy => ?_).symm
      obtain ⟨x, -, rfl⟩ := List.mem_map.1 hy
      rfl
  cases L with
  | raid0 => trivial
  | jbod => trivial
  | raid1 => exact fun _ _ _ _ _ => rfl
  | raid4 => exact .of_zero hzero
  | raid5 => exact .of_zero hzero
  | raid6 undefinedDisk => exact .of_zero hn hzero
  | rs J matrix => exact .of_zero hzero
  | srcRs J matrix srcF => exact .of_zero hL.2.2.1 hzero
  | mbr M J => exact .of_zero hL.1 hzero
  | mdr1 coding =>
      have hblank : Blank (NcfsState.blank n k 4 fourBytes_pos size) (mdrCode k).dataDisks 4 :=
        ⟨⟨hL.1, rfl, rfl⟩, rfl, fun _ _ _ => rfl⟩
      exact hblank.storeParity
  | raid6noRotate undefinedDisk =>
      refine fun b o _ => ⟨(Finset.sum_eq_zero fun d _ => rfl).symm, ?_⟩
      exact (Finset.sum_eq_zero fun d _ => mul_zero _).symm
  | evenodd coding => exact fun g o _ => hstrip coding g o
  | rdp coding => exact fun g o _ => hstrip coding g o

theorem stores_zero {L : CodingLayer} {n k : ℕ} (hL : L.Configured n k) (hn : 0 < n) (size : ℕ) :
    L.Stores n k (zeroDevices n k size) :=
  ⟨rfl, rfl, show 4 % sizeofInt = 0 from rfl, encoded_blank hL hn size⟩

/-- A read of zero disks that has no result. -/
theorem not_recovers_of_zero {L : CodingLayer} {n k d b : ℕ} {F : Finset ℕ} (hL : L.Configured n k)
    (hd : d < n) (hplace : L.DataPlace (zeroDevices n k (L.blockNo b + 1)).ncfs d b)
    (h : ∀ out, L.decode (L.degraded (zeroDevices n k (L.blockNo b + 1)).diskSize)
      ((zeroDevices n k (L.blockNo b + 1)).ncfs.fail F fun _ _ => 0) d (fun _ => 0) 4
        (b * 4) ≠ .ok out) :
    ¬ L.Recovers n k F :=
  not_recovers_of_ne_ok (stores_zero hL (by omega) (L.blockNo b + 1)) hd hplace
    (fun _ _ => Nat.lt_succ_self _) _ _ h

/-! ### The codes without parity -/

section Plain

variable {L : CodingLayer} {n k : ℕ} {F : Finset ℕ}

/-- RAID0 and JBOD have no second copy of anything. -/
theorem plain_recovers_iff (hL : L = raid0 ∨ L = jbod) (hF : F ⊆ Finset.range n) :
    L.Recovers n k F ↔ F = ∅ := by
  constructor
  · intro hrec
    by_contra hne
    obtain ⟨d, hd⟩ := Finset.nonempty_iff_ne_empty.2 hne
    have hlost : ∀ (st : NcfsState) out, Coding4Raid0.decode (st.fail F fun _ _ => 0) d
        (fun _ => 0) 4 (0 * 4) ≠
        .ok out := by
      intro st out hok
      rw [Coding4Raid0.decode, if_neg (fail_diskStatus_ne_zero hd)] at hok
      cases hok
    have hlt := Finset.mem_range.1 (hF hd)
    rcases hL with rfl | rfl
    · exact not_recovers_of_zero (L := raid0) (b := 0) trivial hlt trivial (hlost _) hrec
    · exact not_recovers_of_zero (L := jbod) (b := 0) trivial hlt trivial (hlost _) hrec
  · rintro rfl
    exact recovers_of_lost fun _ _ d hd => absurd hd (Finset.notMem_empty d)

/-- A block whose mirror has failed too is not returned. -/
theorem raid1_decode_ne_ok {st : NcfsState} {d : ℕ} {junk : ℕ → ℕ → Byte} (hdF : d ∈ F)
    (hmirror : mirrorDiskId st.diskTotalNum d ∈ F) (size offset : ℕ) (buf : Buf) :
    ∀ out, Coding4Raid1.decode (st.fail F junk) d buf size offset ≠ .ok out := by
  intro out hok
  rw [Coding4Raid1.decode, if_neg (fail_diskStatus_ne_zero hdF), fail_diskTotalNum] at hok
  simp only [fail_diskStatus, if_pos hmirror] at hok
  cases hok

/-- Under RAID1 one disk of each pair has to work. -/
theorem raid1_recovers_iff : raid1.Recovers n k F ↔ ∀ d < n / 2, d ∈ F → mirrorDiskId n d ∉ F := by
  constructor
  · intro hrec d hd hdF hmirror
    exact not_recovers_of_zero (L := raid1) (b := 0) trivial (by omega) hd
      (raid1_decode_ne_ok hdF hmirror _ _ _) hrec
  · intro h
    refine recovers_of_lost fun s hs d hdF _ b hplace _ junk buf => ?_
    obtain ⟨rfl, -, -, hmirrors⟩ := hs
    have hd : d < s.ncfs.diskTotalNum / 2 := hplace
    have hwork := h d hd hdF
    have hstatus : (s.ncfs.fail F junk).diskStatus (mirrorDiskId s.ncfs.diskTotalNum d) = 0 := by
      rw [fail_diskStatus, if_neg hwork]
    refine ⟨_, (if_neg (fail_diskStatus_ne_zero hdF)).trans (if_pos hstatus), fun o ho => ?_⟩
    rw [fail_diskTotalNum, readDisk_fail hwork ho]
    exact hmirrors d hd b o ho

end Plain

/-! ### One parity block in a row -/

section Parity

variable {n k : ℕ} {F : Finset ℕ} {st : NcfsState} {d b : ℕ} {junk : ℕ → ℕ → Byte}

/-- The blocks of a row cannot be added up when one of their disks has failed. -/
theorem xorOthers_ne_ok {e : ℕ} (he : e ∈ F) (hne : e ≠ d) (hlt : e < st.diskTotalNum)
    (size offset : ℕ) (buf : Buf) :
    ∀ out, xorOthers (st.fail F junk) d size offset buf ≠ .ok out := by
  intro out hok
  obtain ⟨s₁, s₂, hpass⟩ := Loops.foldlM_each hok (List.mem_range.2 hlt)
  rw [if_neg hne, if_pos (fail_diskStatus_ne_zero he)] at hpass
  cases hpass

/-- With one failed disk a lost block comes back. -/
theorem raid5_decode_lost (hrows : RowsZero st) (hd : d < st.diskTotalNum)
    (hint : st.diskBlockSize % sizeofInt = 0) (hcard : F.card ≤ 1) (hdF : d ∈ F) (buf : Buf) :
    ∃ out, Coding4Raid5.decode (st.fail F junk) d buf st.diskBlockSize
      (b * st.diskBlockSize) = .ok out ∧ ∀ o < st.diskBlockSize, out o = st.block d b o := by
  obtain rfl : F = {d} :=
    (Finset.eq_of_subset_of_card_le (Finset.singleton_subset_iff.2 hdF) hcard).symm
  obtain ⟨out, hok, hout⟩ := @Coding4Raid5.decode_words st junk d b st.diskBlockSize hd
    (hrows b) buf
  refine ⟨out, hok, fun o ho => (hout o ho).trans (if_pos ?_)⟩
  rwa [intBytes_eq hint]

/-- With two or more none does that has lost another block of its row. -/
theorem raid5_decode_ne_ok (hF : F ⊆ Finset.range st.diskTotalNum) (hcard : 1 < F.card)
    (hdF : d ∈ F) (size offset : ℕ) (buf : Buf) :
    ∀ out, Coding4Raid5.decode (st.fail F junk) d buf size offset ≠ .ok out := by
  obtain ⟨e, he, hne⟩ := Finset.exists_mem_ne hcard d
  rw [Coding4Raid5.decode, if_neg (fail_diskStatus_ne_zero hdF)]
  exact xorOthers_ne_ok he hne (Finset.mem_range.1 (hF he)) _ _ _

/-- RAID4 survives one failure: of two disks, one has held data. -/
theorem raid4_recovers_iff (hF : F ⊆ Finset.range n) : raid4.Recovers n k F ↔ F.card ≤ 1 := by
  constructor
  · intro hrec
    by_contra hcard
    obtain ⟨d, hdF, hd⟩ := Finset.exists_mem_ne (not_le.1 hcard) (n - 1)
    have hlt := Finset.mem_range.1 (hF hdF)
    exact not_recovers_of_zero (L := raid4) (b := 0) trivial hlt ⟨hlt, hd⟩
      (raid5_decode_ne_ok hF (not_le.1 hcard) hdF _ _ _) hrec
  · intro hcard
    refine recovers_of_lost fun s hs d hdF hd b _ _ junk buf => ?_
    obtain ⟨rfl, -, hint, hrows⟩ := hs
    exact raid5_decode_lost hrows hd hint hcard hdF buf

/-- So does RAID5, where every disk holds data in some row. -/
theorem raid5_recovers_iff (hF : F ⊆ Finset.range n) : raid5.Recovers n k F ↔ F.card ≤ 1 := by
  constructor
  · intro hrec
    by_contra hcard
    obtain ⟨d, hdF⟩ := Finset.card_pos.1 (show 0 < F.card by omega)
    have hlt := Finset.mem_range.1 (hF hdF)
    have hle := Finset.card_le_card hF
    rw [Finset.card_range] at hle
    -- one of the first two rows has its parity elsewhere
    obtain ⟨b, hb⟩ : ∃ b, d ≠ raid5ParityDiskId n b := by
      by_cases h : d = raid5ParityDiskId n 0
      · refine ⟨1, fun h' => ?_⟩
        rw [raid5ParityDiskId, Nat.zero_mod] at h
        rw [raid5ParityDiskId, Nat.mod_eq_of_lt (by omega)] at h'
        omega
      · exact ⟨0, h⟩
    exact not_recovers_of_zero (L := raid5) (b := b) trivial hlt ⟨hlt, hb⟩
      (raid5_decode_ne_ok hF (not_le.1 hcard) hdF _ _ _) hrec
  · intro hcard
    refine recovers_of_lost fun s hs d hdF hd b _ _ junk buf => ?_
    obtain ⟨rfl, -, hint, hrows⟩ := hs
    exact raid5_decode_lost hrows hd hint hcard hdF buf

end Parity

/-! ### Two parity blocks in a row -/

section DoubleParity

variable {n k b d i p q : ℕ} {F : Finset ℕ} {st : NcfsState} {junk : ℕ → ℕ → Byte}

/-- Every disk holds data in one of the first three rows. -/
theorem exists_dataRow (hn : 3 ≤ n) (hd : d < n) : ∃ b, d ∈ dataDisks n b := by
  by_cases hlast : d = n - 1
  · refine ⟨1, mem_dataDisks.2 ⟨hd, ?_, ?_⟩⟩
    · rw [parityDiskId, Nat.mod_eq_of_lt (by omega)]
      omega
    · rw [codeDiskId, Nat.mod_eq_of_lt (by omega)]
      omega
  by_cases hnext : d = n - 2
  · refine ⟨2, mem_dataDisks.2 ⟨hd, ?_, ?_⟩⟩
    · rw [parityDiskId]
      rcases Nat.lt_or_eq_of_le hn with hlt | rfl
      · rw [Nat.mod_eq_of_lt (by omega)]
        omega
      · omega
    · rw [codeDiskId, Nat.mod_eq_of_lt (by omega)]
      omega
  · refine ⟨0, mem_dataDisks.2 ⟨hd, ?_, ?_⟩⟩
    · rw [parityDiskId, Nat.mod_eq_of_lt (by omega)]
      omega
    · rw [codeDiskId, Nat.zero_mod]
      omega

/-- Every disk holds `P` in some row, where the next disk holds `Q`. -/
theorem exists_parityRow {g : ℕ} (hg : g < n) :
    ∃ b, parityDiskId n b = g ∧ codeDiskId n b = (g + 1) % n := by
  have hsucc : (2 * n - 2 - g + 1) % n = n - 1 - g := by
    rw [show 2 * n - 2 - g + 1 = n - 1 - g + n by omega, Nat.add_mod_right, Nat.mod_eq_of_lt
      (by omega)]
  refine ⟨2 * n - 2 - g, ?_, ?_⟩
  · rw [parityDiskId, hsucc]
    omega
  · rw [codeDiskId]
    by_cases hlast : g + 1 = n
    · rw [hlast, Nat.mod_self, show 2 * n - 2 - g = n - 1 by omega, Nat.mod_eq_of_lt (by omega),
        Nat.sub_self]
    · rw [show 2 * n - 2 - g = n - 2 - g + n by omega, Nat.add_mod_right, Nat.mod_eq_of_lt
        (by omega), Nat.mod_eq_of_lt (by omega)]
      omega

/-- A store with a single block of data, in row `b` on disk `i`: its bytes are ones, and `c` is the
byte of `Q`. -/
def singleBlock (n k b i p q : ℕ) (c : Byte) : NcfsState :=
  { NcfsState.blank n k 4 fourBytes_pos 0 with
    disk := fun d x =>
      if x / 4 = b then if d = i ∨ d = p then Byte.ofNat 1 else if d = q then c else 0 else 0 }

theorem singleBlock_block (c : Byte) (d b' : ℕ) {o : ℕ} (ho : o < 4) :
    (singleBlock n k b i p q c).block d b' o =
      if b' = b then if d = i ∨ d = p then 1 else if d = q then c else 0 else 0 := by
  have hdiv : (b' * 4 + o) / 4 = b' := block_div ho
  change (if (b' * 4 + o) / 4 = b then if d = i ∨ d = p then Byte.ofNat 1 else if d = q then c else
    0 else 0) = _
  rw [hdiv]
  rfl

/-- It satisfies the equations of its row. -/
theorem singleBlock_row {s : Finset ℕ} {a : ℕ → Byte} (hi : i ∈ s) (hp : p ∉ s) (hq : q ∉ s)
    (hpq : p ≠ q) {o : ℕ} (ho : o < 4) :
    PQ.Row s p q a fun d => (singleBlock n k b i p q (a i)).block d b o := by
  have hblock : ∀ d, (singleBlock n k b i p q (a i)).block d b o =
      if d = i ∨ d = p then 1 else if d = q then a i else 0 :=
    fun d => (singleBlock_block _ d b ho).trans (if_pos rfl)
  have hothers : ∀ j ∈ s, j ≠ i → (singleBlock n k b i p q (a i)).block j b o = 0 := by
    intro j hj hji
    have hjp : j ≠ p := fun h => hp (h ▸ hj)
    have hjq : j ≠ q := fun h => hq (h ▸ hj)
    rw [hblock, if_neg (not_or.2 ⟨hji, hjp⟩), if_neg hjq]
  have hself : (singleBlock n k b i p q (a i)).block i b o = 1 := by rw [hblock, if_pos (.inl rfl)]
  have hqi : q ≠ i := fun h => hq (h ▸ hi)
  refine ⟨?_, ?_⟩
  · rw [Finset.sum_eq_single_of_mem i hi hothers, hself, hblock, if_pos (.inr rfl)]
  · rw [Finset.sum_eq_single_of_mem i hi fun j hj hji => by rw [hothers j hj hji, mul_zero],
      hself, mul_one, hblock, if_neg (not_or.2 ⟨hqi, hpq.symm⟩), if_pos rfl]

/-- The other rows are zero. -/
theorem singleBlock_row_of_ne {s : Finset ℕ} {p' q' : ℕ} {a : ℕ → Byte} {c : Byte} {b' : ℕ}
    (hb : b' ≠ b) {o : ℕ} (ho : o < 4) :
    PQ.Row s p' q' a fun d => (singleBlock n k b i p q c).block d b' o := by
  have hzero : ∀ d, (singleBlock n k b i p q c).block d b' o = 0 :=
    fun d => (singleBlock_block _ d b' ho).trans (if_neg hb)
  refine ⟨?_, ?_⟩
  · rw [hzero, Finset.sum_eq_zero fun j _ => hzero j]
  · rw [hzero, Finset.sum_eq_zero fun j _ => by rw [hzero, mul_zero]]

/-- A lost block comes back from `P` when no other disk has failed, however many disks there are. -/
theorem raid6_decode_lost_one (hn : 2 ≤ st.diskTotalNum) (hint : st.diskBlockSize % sizeofInt = 0)
    (hrow : ∀ o < st.diskBlockSize, Raid6Row st b o) (hd : d ∈ dataDisks st.diskTotalNum b)
    (buf : Buf) :
    ∃ out, Coding4Raid6.new.decode (st.fail {d} junk) d buf st.diskBlockSize
      (b * st.diskBlockSize) = .ok out ∧ ∀ o < st.diskBlockSize, out o = st.block d b o := by
  obtain ⟨hdn, -, hdq⟩ := mem_dataDisks.1 hd
  obtain ⟨out, hok, hout⟩ := @xorSurvivors_fail st {d} junk b
    (fun i => i ≠ d ∧ i ≠ codeDiskId st.diskTotalNum b) _
    (fun i _ h hi => h.1 (Finset.mem_singleton.1 hi))
      (memset0 buf st.diskBlockSize) st.diskBlockSize
  rw [decode_fail_singleton hdn, if_pos hdq]
  refine ⟨out, hok, fun o ho => ?_⟩
  rw [hout o ho, memset0_of_lt ho, zero_add, intBytes_eq hint, if_pos ho, sum_survivors hn
    (hrow o ho) hd]

/-- With three failed disks nothing is computed. -/
theorem raid6_decode_ne_ok (hF : F ⊆ Finset.range st.diskTotalNum) (hcard : 3 ≤ F.card)
    (hdF : d ∈ F) (size offset : ℕ) (buf : Buf) :
    ∀ out, Coding4Raid6.new.decode (st.fail F junk) d buf size offset ≠ .ok out := by
  intro out hok
  have hno := @diskFailedNo_fail st F junk hF
  rw [Coding4Raid6.decode] at hok
  simp only [hno, if_neg (fail_diskStatus_ne_zero hdF)] at hok
  rw [if_neg (by omega), if_neg (by omega), if_neg (by omega)] at hok
  cases hok

/-- The way that is taken when a data disk and `P` have failed. -/
theorem raid6_decode_data_parity (hd : d ∈ dataDisks st.diskTotalNum b) (buf : Buf) (size : ℕ) :
    Coding4Raid6.new.decode (st.fail {d, parityDiskId st.diskTotalNum b} junk) d buf size
      (b * st.diskBlockSize) = solveQ .new (st.fail {d, parityDiskId st.diskTotalNum b} junk) b d
        (parityDiskId st.diskTotalNum b) (memset0 buf size) size (b * st.diskBlockSize) := by
  have hn := three_le_of_mem_dataDisks hd
  obtain ⟨hdn, hdp, hdq⟩ := mem_dataDisks.1 hd
  rw [decode_fail_pair hdn (parityDiskId_lt (by omega)) hdp.symm,
    if_neg (parityDiskId_ne_codeDiskId (by omega)), if_neg (fun h => hdq h.1), if_neg hdp,
    if_neg hdq, if_pos rfl]

/-- Zeros are divided by anything without a look at the tables. -/
theorem gfDivBuf_zero {size c : ℕ} {buf out : Buf} (hzero : ∀ j < size, buf j = 0)
    (hok : gfDivBuf .new size c buf = .ok out) : ∀ j < size, out j = 0 := by
  refine Loops.foldlM_keeps (fun s => ∀ j < size, s j = 0) (fun s j hj s' hs hbuf => ?_) hzero hok
  have hdiv : Coding4Raid6.new.gfDiv (s j).toNat c fieldPower = .ok 0 := by
    rw [hbuf j (List.mem_range.1 hj)]
    rfl
  rw [hdiv] at hs
  rw [← Except.ok.inj hs]
  intro j' hj'
  by_cases h : j' = j
  · subst h
    exact Function.update_self ..
  · rw [Function.update_of_ne h]
    exact hbuf j' hj'

/-- Powers from `256` on leave nothing in a byte. -/
theorem ofNat_two_pow {j : ℕ} (hj : 8 ≤ j) : Byte.ofNat (2 ^ j) = 0 := by
  refine congrArg Byte.mk (BitVec.eq_of_toNat_eq ?_)
  change (BitVec.ofNat 8 (2 ^ j)).toNat = 0
  rw [BitVec.toNat_ofNat]
  exact Nat.mod_eq_zero_of_dvd (Nat.pow_dvd_pow 2 hj)

/-- Of two disks, one holds `P` in a row in which the other holds data. -/
theorem exists_pairRow {f g : ℕ} (hn : 3 ≤ n) (hf : f < n) (hg : g < n) (hfg : f ≠ g) :
    ∃ d b, d ∈ dataDisks n b ∧ ({f, g} : Finset ℕ) = {d, parityDiskId n b} := by
  by_cases hfq : f = (g + 1) % n
  · obtain ⟨b, hp, hq⟩ := exists_parityRow hf
    refine ⟨g, b, mem_dataDisks.2 ⟨hg, hp.trans_ne hfg |>.symm, fun hgq => ?_⟩, ?_⟩
    · rw [hq, hfq] at hgq
      by_cases hlast : g + 1 = n
      · rw [hlast, Nat.mod_self, Nat.mod_eq_of_lt (by omega)] at hgq
        omega
      · rw [Nat.mod_eq_of_lt (show g + 1 < n by omega)] at hgq
        by_cases hlast' : g + 1 + 1 = n
        · rw [hlast', Nat.mod_self] at hgq
          omega
        · rw [Nat.mod_eq_of_lt (by omega)] at hgq
          omega
    · rw [hp, Finset.pair_comm]
  · obtain ⟨b, hp, hq⟩ := exists_parityRow hg
    exact ⟨f, b, mem_dataDisks.2 ⟨hf, by rwa [hp], by rwa [hq]⟩, by rw [hp]⟩

/-- With more than ten disks, a block that would be solved for from `Q` does not come back from
every store. -/
theorem raid6_not_solved (hn : 11 ≤ n) (hd : d ∈ dataDisks n b) : ∃ i ∈ dataDisks n b, ∀ out,
    solveQ .new ((singleBlock n k b i (parityDiskId n b) (codeDiskId n b) (diskCoeff n b i)).fail
      {d, parityDiskId n b} junk) b d (parityDiskId n b) (memset0 (fun _ => 0) 4) 4
        (b * 4) = .ok out →
    ∃ o < 4, out o ≠
      (singleBlock n k b i (parityDiskId n b) (codeDiskId n b) (diskCoeff n b i)).block d b o := by
  have hpq := parityDiskId_ne_codeDiskId (n := n) (b := b) (by omega)
  obtain ⟨hdn, hdp, hdq⟩ := mem_dataDisks.1 hd
  obtain ⟨i, hi, hplace⟩ := exists_dataPlace (n := n) (b := b) (k := 0) (by omega)
  refine ⟨i, hi, fun out hok => ?_⟩
  obtain ⟨hin, hip, hiq⟩ := mem_dataDisks.1 hi
  let st := singleBlock n k b i (parityDiskId n b) (codeDiskId n b) (diskCoeff n b i)
  have hread : ∀ j, j ≠ d → j ≠ parityDiskId n b → ∀ o < 4,
      readDisk (st.fail {d, parityDiskId n b} junk) j (fun _ => 0) 4
        (b * 4) o = st.block j b o := by
    intro j hjd hjp o ho
    exact readDisk_fail (by simp [hjd, hjp]) ho _
  have hlow : 2 ≤ (st.fail {d, parityDiskId n b} junk).diskTotalNum := show 2 ≤ n by omega
  by_cases hid : i = d
  · -- the only block of data is the lost one, and its coefficient is not a byte
    subst hid
    obtain ⟨sum, hsum, hok⟩ := Loops.bind_eq_ok hok
    have hothers : ∀ j < n, OtherData (st.fail {i, parityDiskId n b} junk) b i
        (parityDiskId n b) j → ∀ o < 4, readDisk (st.fail {i, parityDiskId n b} junk) j
          (fun _ => 0) 4 (b * 4) o = 0 := by
      rintro j - ⟨hji, hjp, -, hjq⟩ o ho
      replace hjq : j ≠ codeDiskId n b := hjq
      rw [hread j hji hjp o ho, singleBlock_block _ _ _ ho, if_pos rfl,
        if_neg (not_or.2 ⟨hji, hjp⟩), if_neg hjq]
    have hclear := addCode_zero hothers hsum
    obtain ⟨c, -, hok⟩ := Loops.bind_eq_ok hok
    have hcoeff : diskCoeff n b i = 0 := by
      rw [diskCoeff, hplace, Nat.sub_zero]
      exact ofNat_two_pow (by omega)
    refine ⟨0, by decide, ?_⟩
    rw [gfDivBuf_zero (fun j hj => ?_) hok 0 (by decide), singleBlock_block _ _ _ (by decide),
      if_pos rfl, if_pos (.inl rfl)]
    · exact zero_ne_one
    · rw [hclear, xorBuf_of_lt _ _ hj, memset0_of_lt hj, zero_add]
      refine (hread _ hiq.symm hpq.symm j hj).trans ?_
      rw [singleBlock_block _ _ _ hj, if_pos rfl, if_neg (not_or.2 ⟨hiq.symm, hpq.symm⟩),
        if_pos rfl, hcoeff]
  · -- the coefficient of the other block is not a byte
    have hbound := (solveQ_bound hlow hok (by decide)).1 i hi hid hip ?_
    · have hbound : n ≤ dataPlace n b i + 10 := hbound
      omega
    · rw [hread i hid hip 0 (by decide), singleBlock_block _ _ _ (by decide), if_pos rfl,
        if_pos (.inl rfl)]
      exact one_ne_zero

/-- **RAID6 survives one failure, and a second one with up to ten disks.** -/
theorem raid6_recovers_iff {undefinedDisk : ℕ → ℕ → Byte} (hF : F ⊆ Finset.range n) :
    (raid6 undefinedDisk).Recovers n k F ↔ F.card ≤ 1 ∨ F.card ≤ 2 ∧ n ≤ 10 := by
  have hcardn := Finset.card_le_card hF
  rw [Finset.card_range] at hcardn
  constructor
  · intro hrec
    by_contra hnot
    rw [not_or, not_le, not_and_or, not_le, not_le] at hnot
    obtain ⟨hone, htwo⟩ := hnot
    by_cases hcard : 3 ≤ F.card
    · obtain ⟨d, hdF⟩ := Finset.card_pos.1 (show 0 < F.card by omega)
      have hlt := Finset.mem_range.1 (hF hdF)
      obtain ⟨b, hb⟩ := exists_dataRow (n := n) (by omega) hlt
      exact not_recovers_of_zero (L := raid6 undefinedDisk) (b := b) trivial hlt hb
        (raid6_decode_ne_ok hF hcard hdF _ _ _) hrec
    · -- a row with `P` on one of the disks and data on the other
      obtain ⟨d, b, hd, rfl⟩ : ∃ d b, d ∈ dataDisks n b ∧ F = {d, parityDiskId n b} := by
        obtain ⟨f, g, hfg, rfl⟩ := Finset.card_eq_two.1 (show F.card = 2 by omega)
        have hf := Finset.mem_range.1 (hF (Finset.mem_insert_self f _))
        have hg := Finset.mem_range.1 (hF (Finset.mem_insert_of_mem (Finset.mem_singleton_self g)))
        exact exists_pairRow (by omega) hf hg hfg
      obtain ⟨i, hi, hbad⟩ := @raid6_not_solved n k b d (fun _ _ => 0) (by omega) hd
      have hpq := parityDiskId_ne_codeDiskId (n := n) (b := b) (by omega)
      have hdn := (mem_dataDisks.1 hd).1
      have hstores : (raid6 undefinedDisk).Stores n k
          ⟨singleBlock n k b i (parityDiskId n b) (codeDiskId n b)
            (diskCoeff n b i), fun _ => b + 1⟩ := by
        refine ⟨rfl, rfl, show 4 % sizeofInt = 0 from rfl, fun b' o ho => ?_⟩
        by_cases hb : b' = b
        · subst hb
          exact singleBlock_row hi (fun h => (mem_dataDisks.1 h).2.1 rfl)
            (fun h => (mem_dataDisks.1 h).2.2 rfl) hpq ho
        · exact singleBlock_row_of_ne hb ho
      obtain ⟨out, hok, hout⟩ := hrec _ hstores d hdn b hd (fun _ _ => Nat.lt_succ_self b)
        (fun _ _ => 0) fun _ => 0
      have hway := @raid6_decode_data_parity b d
        (singleBlock n k b i (parityDiskId n b) (codeDiskId n b) (diskCoeff n b i))
          (fun _ _ => 0) hd (fun _ => 0) 4
      obtain ⟨o, ho, hne⟩ := hbad out (hway.symm.trans hok)
      exact hne (hout o ho)
  · intro htol
    refine recovers_of_lost fun s hs d hdF hd b hplace _ junk buf => ?_
    obtain ⟨rfl, -, hint, hparity⟩ := hs
    have hn := dataPlace_le (n := s.ncfs.diskTotalNum) (b := b)
      ((three_le_of_mem_dataDisks hplace).trans' (by decide)) hplace
    by_cases hcard : F.card ≤ 1
    · obtain rfl : F = {d} :=
        (Finset.eq_of_subset_of_card_le (Finset.singleton_subset_iff.2 hdF) hcard).symm
      exact raid6_decode_lost_one (by omega) hint (hparity b) hplace buf
    · obtain ⟨htwo, hn'⟩ := htol.resolve_left hcard
      exact Coding4Raid6.decode_data (by omega) hn' hplace hF htwo hdF hint (hparity b) buf

/-- On three disks all blocks of a row are the same. -/
theorem noRotate_three {o : ℕ} (hn : st.diskTotalNum = 3) (h : NoRotateRow st b o) :
    st.block 1 b o = st.block 0 b o ∧ st.block 2 b o = st.block 0 b o := by
  have hp := h.p_eq
  have hq := h.q_eq
  rw [hn] at hp hq
  have hdata : (Finset.range 3).filter (fun i => i ≠ 3 - 2 ∧ i ≠ 3 - 1) = {0} := by decide
  rw [hdata, Finset.sum_singleton] at hp hq
  have hone : diskCoeff 3 0 0 = 1 := rfl
  rw [hone, one_mul] at hq
  exact ⟨hp, hq⟩

/-- A lost block of data on three disks comes back, at whatever place `decode` takes it to be. -/
theorem noRotate_decode_three (hn : st.diskTotalNum = 3) (hint : st.diskBlockSize % sizeofInt = 0)
    (hrow : ∀ o < st.diskBlockSize, NoRotateRow st b o) (buf : Buf) :
    NoRotateReads st {0} junk 0 b buf := by
  by_cases hq : 0 = codeDiskId st.diskTotalNum b
  · -- it is taken for `Q`, and computed from disk `1`
    have hp : parityDiskId 3 b = 2 := by
      have hlt := Nat.mod_lt b (show 0 < 3 by decide)
      rw [hn, codeDiskId] at hq
      rw [parityDiskId_eq (by decide), if_neg (by omega)]
    have hdata : dataDisks (st.fail {0} junk).diskTotalNum b = {1} := by
      ext i
      rw [fail_diskTotalNum, hn, mem_dataDisks, hp, ← hn, ← hq, Finset.mem_singleton]
      omega
    have hcoeff : diskCoeff (st.fail {0} junk).diskTotalNum b 1 = 1 := by
      rw [fail_diskTotalNum, hn, diskCoeff, Nat.sub_self, Nat.zero_sub]
      rfl
    have hway := @decode_fail_singleton st junk 0 b (by omega) buf st.diskBlockSize
    rw [if_neg (not_not.2 hq), @codeOfData_eq (st.fail {0} junk) b st.diskBlockSize
      (show 2 ≤ st.diskTotalNum by omega) (show st.diskTotalNum ≤ 10 by omega)] at hway
    refine ⟨_, hway, fun o ho => ?_⟩
    rw [xorBuf_of_lt _ _ ho, memset0_of_lt ho, zero_add, hdata, Finset.sum_singleton,
      hcoeff, one_mul, readDisk_fail (by decide) ho]
    exact (noRotate_three hn (hrow o ho)).1
  · refine (noRotateReads_singleton_iff (by omega) hrow (by omega) hq junk buf).2 fun o ho => ?_
    rw [intBytes_eq hint, if_pos ho, hn]
    obtain ⟨hone, htwo⟩ := noRotate_three hn (hrow o ho)
    have hlt := codeDiskId_lt (n := 3) (b := b) (by decide)
    rw [hn] at hq
    generalize codeDiskId 3 b = q at hq hlt
    interval_cases q
    · exact absurd rfl hq
    · rw [hone, htwo]
    · rfl

/-- **RAID6 without rotation loses every block of data of a failed disk**, but on three disks:
`decode` looks for the parity where the rotating code has it. -/
theorem noRotate_recovers_iff {undefinedDisk : ℕ → ℕ → Byte} (hF : F ⊆ Finset.range n)
    (hcard : F.card ≠ 2) :
    (raid6noRotate undefinedDisk).Recovers n k F ↔ (∀ d ∈ F, n - 2 ≤ d) ∨ n = 3 ∧ F.card ≤ 1 := by
  have hcardn := Finset.card_le_card hF
  rw [Finset.card_range] at hcardn
  constructor
  · intro hrec
    by_contra hnot
    rw [not_or, not_and_or, not_le] at hnot
    obtain ⟨hdata, hnot⟩ := hnot
    push Not at hdata
    obtain ⟨d, hdF, hd⟩ := hdata
    have hlt := Finset.mem_range.1 (hF hdF)
    by_cases hthree : 3 ≤ F.card
    · exact not_recovers_of_zero (L := raid6noRotate undefinedDisk) (b := 0) trivial hlt hd
        (raid6_decode_ne_ok hF hthree hdF _ _ _) hrec
    · have hone : F.card ≤ 1 := by omega
      obtain rfl : F = {d} :=
        (Finset.eq_of_subset_of_card_le (Finset.singleton_subset_iff.2 hdF) hone).symm
      have hn : 4 ≤ n := by omega
      have hpq : n - 2 ≠ n - 1 := by omega
      -- the row in which the rotating code has `Q` where `P` is, with a block whose coefficient is
      -- two
      have hq : codeDiskId n 1 = n - 2 := by
        rw [codeDiskId, Nat.mod_eq_of_lt (by omega)]
        omega
      have hcoeff : diskCoeff n 0 (n - 4) ≠ 1 := by
        have hplace : dataPlace n 0 (n - 4) = n - 4 := by
          rw [dataPlace, codeDiskId, parityDiskId, Nat.zero_mod, Nat.mod_eq_of_lt (by omega),
            if_neg (by omega), if_neg (by omega)]
          rfl
        rw [diskCoeff, hplace, show n - 3 - (n - 4) = 1 by omega]
        decide
      let st := singleBlock n k 1 (n - 4) (n - 2) (n - 1) (diskCoeff n 0 (n - 4))
      have hrow : ∀ b, ∀ o < 4, NoRotateRow st b o := by
        intro b o ho
        by_cases hb : b = 1
        · subst hb
          have hfirst : n - 4 ∈ (Finset.range n).filter fun i => i ≠ n - 2 ∧ i ≠ n - 1 :=
            Finset.mem_filter.2 ⟨Finset.mem_range.2 (by omega), by omega, by omega⟩
          exact singleBlock_row hfirst (fun h => (Finset.mem_filter.1 h).2.1 rfl)
            (fun h => (Finset.mem_filter.1 h).2.2 rfl) hpq ho
        · exact singleBlock_row_of_ne hb ho
      have hreads := (@noRotateReads_singleton_iff st 1 d (show 2 ≤ n by omega) (hrow 1) hlt
        (show d ≠ codeDiskId n 1 by omega) (fun _ _ => 0) fun _ => 0).1
        (hrec ⟨st, fun _ => 2⟩ ⟨rfl, rfl, show 4 % sizeofInt = 0 from rfl, hrow⟩ d hlt 1 hd
          (fun _ _ => Nat.one_lt_two) _ _) 0 (show 0 < 4 by decide)
      rw [if_pos (show 0 < intBytes st.diskBlockSize from show 0 < intBytes 4 by decide)] at hreads
      change st.block (n - 1) 1 0 = st.block (codeDiskId n 1) 1 0 at hreads
      rw [hq, singleBlock_block _ _ _ (by decide), singleBlock_block _ _ _ (by decide), if_pos rfl,
        if_neg (show ¬ (n - 1 = n - 4 ∨ n - 1 = n - 2) by omega), if_pos rfl, if_pos rfl,
        if_pos (.inr rfl)] at hreads
      exact hcoeff hreads
  · rintro (hcode | ⟨rfl, hone⟩)
    · refine recovers_of_lost fun s hs d hdF hd b hplace _ junk buf => ?_
      obtain ⟨rfl, -, -, -⟩ := hs
      have hlt : d < s.ncfs.diskTotalNum - 2 := hplace
      exact absurd (hcode d hdF) (not_le.2 hlt)
    · refine recovers_of_lost fun s hs d hdF hd b hplace _ junk buf => ?_
      obtain ⟨hn, -, hint, hrow⟩ := hs
      have hlt : d < s.ncfs.diskTotalNum - 2 := hplace
      obtain rfl : d = 0 := by omega
      obtain rfl : F = {0} :=
        (Finset.eq_of_subset_of_card_le (Finset.singleton_subset_iff.2 hdF) hone).symm
      exact noRotate_decode_three hn hint (hrow b) buf

end DoubleParity

/-! ### Reed-Solomon codes -/

section ReedSolomon

variable {J : Jerasure} {matrix : ℕ → ℕ} {n k d b f : ℕ} {F : Finset ℕ} {st : NcfsState}
    {junk : ℕ → ℕ → Byte}

/-- There is no decoding matrix when more disks have failed than there are code disks. -/
theorem makeDecodingMatrix_fail (hF : F ⊆ Finset.range n) (hkn : k ≤ n) (hcard : n < F.card + k) :
    J.makeDecodingMatrix k (n - k) matrix
      (fun i => if (st.fail F junk).diskStatus i = 1 then 1 else 0) = .error .undefined := by
  have hflag : (fun i => if (st.fail F junk).diskStatus i = 1 then 1 else 0) = failedFlag F := by
    funext i
    simp only [fail_diskStatus_eq_one]
    rfl
  have hle := Finset.card_le_card hF
  rw [Finset.card_range] at hle
  rw [hflag]
  refine Jerasure.makeDecodingMatrix_of_lt ?_
  rw [Nat.add_sub_cancel' hkn, card_failedFlag hF]
  omega

/-- Then no lost block is returned. -/
theorem rs_decode_ne_ok (hF : F ⊆ Finset.range st.diskTotalNum)
    (hkn : st.dataDiskNum ≤ st.diskTotalNum) (hcard : st.diskTotalNum < F.card + st.dataDiskNum)
    (hdF : d ∈ F) (size offset : ℕ) (buf : Buf) :
    ∀ out, Coding4RS.decode J matrix (st.fail F junk) d buf size offset ≠ .ok out := by
  intro out hok
  rw [Coding4RS.decode, if_neg (fail_diskStatus_ne_zero hdF)] at hok
  obtain ⟨r, hr, -⟩ := Loops.bind_eq_ok hok
  have hnone := @makeDecodingMatrix_fail J matrix _ _ F st junk hF hkn hcard
  cases hr.symm.trans hnone

/-- **Reed-Solomon codes survive as many failures as there are code disks.** -/
theorem rs_recovers_iff (hL : (rs J matrix).Configured n k) (hF : F ⊆ Finset.range n) :
    (rs J matrix).Recovers n k F ↔ F.card + k ≤ n := by
  obtain ⟨hkn, hJ, hinv⟩ := hL
  constructor
  · intro hrec
    by_contra hcard
    -- the disks from `k` on are too few
    have hdata : ¬ ∀ d ∈ F, k ≤ d := by
      intro hcode
      have hle := Finset.card_le_card fun i hi => Finset.mem_Ico.2
        ⟨hcode i hi, Finset.mem_range.1 (hF hi)⟩
      rw [Nat.card_Ico] at hle
      omega
    push Not at hdata
    obtain ⟨d, hdF, hd⟩ := hdata
    exact not_recovers_of_zero (L := rs J matrix) (b := 0) ⟨hkn, hJ, hinv⟩ (hd.trans_le hkn) hd
      (rs_decode_ne_ok hF hkn (not_le.1 hcard) hdF _ _ _) hrec
  · intro hcard
    refine recovers_of_lost fun s hs d hdF _ b hplace _ junk buf => ?_
    obtain ⟨htotal, rfl, hint, hparity⟩ := hs
    have hd : d < s.ncfs.dataDiskNum := hplace
    have hsum : n = s.ncfs.dataDiskNum + (n - s.ncfs.dataDiskNum) := by omega
    exact Coding4RS.decode_data (m := n - s.ncfs.dataDiskNum) hJ rfl (htotal.trans hsum) hint
      (hparity b) (hsum ▸ hF) (by omega) (hsum ▸ hinv F hF hcard) hdF hd junk buf

/-- The walk of `decode` from a lost block meets no failed disk. -/
def ChainWorks (n f : ℕ) (F : Finset ℕ) (d b : ℕ) : Prop :=
  ∀ place ∈ srcChain n f (d, srcBlockNo f b), place.1 ∉ F

instance : Decidable (ChainWorks n f F d b) := inferInstanceAs (Decidable (∀ place ∈ _, _))

/-- A block is added up along its walk, or it is computed from the row as by the Reed-Solomon
layer. -/
theorem src_decode_fail (hdF : d ∈ F) (buf : Buf) :
    Coding4SrcRS.decode J matrix f (st.fail F junk) d buf st.diskBlockSize (b * st.diskBlockSize) =
      if ChainWorks st.diskTotalNum f F d b then
        .ok (copyBufAt 0 st.diskBlockSize buf (srcSum (st.fail F junk) st.diskBlockSize (fun _ => 0)
          (srcChain st.diskTotalNum f (d, srcBlockNo f b))))
      else Coding4RS.decode J matrix (st.fail F junk) d buf st.diskBlockSize
        (srcBlockNo f b * st.diskBlockSize) := by
  have hdiv : ∀ c, c * st.diskBlockSize / st.diskBlockSize = c :=
    fun c => Nat.mul_div_cancel c st.diskBlockSize_pos
  have hlocation : b * st.diskBlockSize + 0 + b / f * st.diskBlockSize = srcBlockNo f b *
      st.diskBlockSize + 0 := by
    rw [srcBlockNo, Nat.add_mul]
    omega
  have hworks : (∀ place ∈ srcChain st.diskTotalNum f (d, srcBlockNo f b),
      (st.fail F junk).diskStatus place.1 = 0) ↔ ChainWorks st.diskTotalNum f F d b := by
    refine forall₂_congr fun place _ => ?_
    rw [fail_diskStatus]
    split <;> simp_all
  rw [Coding4SrcRS.decode, Coding4RS.decode, if_neg (fail_diskStatus_ne_zero hdF),
    if_neg (fail_diskStatus_ne_zero hdF)]
  simp only [fail_diskBlockSize, fail_diskTotalNum, hdiv, Nat.sub_self, hlocation, hworks]

/-- The walk gives back the block. -/
theorem src_decode_chain (h : SrcEquations matrix f st) (hf : 1 ≤ f) (hfn : f < st.diskTotalNum)
    (hint : st.diskBlockSize % sizeofInt = 0) (hd : d < st.diskTotalNum)
    (hworks : ChainWorks st.diskTotalNum f F d b) (buf : Buf) {o : ℕ} (ho : o < st.diskBlockSize) :
    copyBufAt 0 st.diskBlockSize buf (srcSum (st.fail F junk) st.diskBlockSize (fun _ => 0)
      (srcChain st.diskTotalNum f (d, srcBlockNo f b))) o = st.block d (srcBlockNo f b) o := by
  have hgroups : SrcGroups f st := fun D hD s o ho => srcGroupSum_eq_zero.2 (h.groups D hD s o ho)
  rw [copyBufAt, if_pos (by omega), Nat.sub_zero]
  refine (@srcSum_of_lt (st.fail F junk) hint o ho _ _).trans ?_
  rw [zero_add, ← hgroups.sum_srcChain hf hfn hd b ho]
  exact congrArg List.sum (List.map_congr_left fun place hplace => block_fail
    (hworks place hplace) _ o)

/-- **Simple regenerating codes survive what Reed-Solomon codes do**, and more failures when every
lost block can be added up along its walk. -/
theorem src_recovers_iff (hL : (srcRs J matrix f).Configured n k) (hF : F ⊆ Finset.range n) :
    (srcRs J matrix f).Recovers n k F ↔ (∀ d ∈ F, d < k → ∀ b, ChainWorks n f F d b) ∨
    F.card + k ≤ n := by
  have ⟨hkn, hf, hfn, hJ, hinv⟩ := hL
  constructor
  · intro hrec
    by_contra hnot
    rw [not_or, not_le] at hnot
    obtain ⟨hchains, hcard⟩ := hnot
    push Not at hchains
    obtain ⟨d, hdF, hd, b, hchain⟩ := hchains
    refine not_recovers_of_zero (L := srcRs J matrix f) (b := b) hL (hd.trans_le hkn) hd
      (fun out hok => ?_) hrec
    have hway := @src_decode_fail J matrix d b f F
      (zeroDevices n k ((srcRs J matrix f).blockNo b + 1)).ncfs (fun _ _ => 0) hdF fun _ => 0
    refine @rs_decode_ne_ok J matrix d F (zeroDevices n k ((srcRs J matrix f).blockNo b + 1)).ncfs _
      hF hkn hcard hdF _ _ _ out (((if_neg hchain).symm.trans hway.symm).trans hok)
  · intro htol
    refine recovers_of_lost fun s hs d hdF hdn b hplace _ junk buf => ?_
    obtain ⟨rfl, rfl, hint, hequations⟩ := hs
    have hd : d < s.ncfs.dataDiskNum := hplace
    have hway := @src_decode_fail J matrix d b f F s.ncfs junk hdF buf
    by_cases hworks : ChainWorks s.ncfs.diskTotalNum f F d b
    · rw [if_pos hworks] at hway
      exact ⟨_, hway, fun o ho => src_decode_chain hequations hf hfn hint hdn hworks buf ho⟩
    · have hcard := htol.resolve_left fun h => hworks (h d hdF hd b)
      have hsum : s.ncfs.diskTotalNum = s.ncfs.dataDiskNum +
          (s.ncfs.diskTotalNum - s.ncfs.dataDiskNum) := by omega
      obtain ⟨out, hok, hout⟩ :=
        Coding4RS.decode_data (m := s.ncfs.diskTotalNum - s.ncfs.dataDiskNum) hJ rfl hsum hint
        (hequations.rows b) (hsum ▸ hF) (by omega) (hsum ▸ hinv F hF hcard) hdF hd junk buf
      rw [if_neg hworks, hok] at hway
      exact ⟨out, hway, hout⟩

end ReedSolomon

/-! ### Regenerating codes with copies -/

section Mbr

variable {J : Jerasure} {M : Coding4Mbr} {n k d e b : ℕ} {F : Finset ℕ} {st : NcfsState}
    {junk : ℕ → ℕ → Byte}

open Triangle

/-- The first copy of a native block is on one of the first `k` disks. -/
theorem mbrData_lt (hM : M.Fits n k) (h : MbrData M n d b) : d < k := by
  obtain ⟨hd, hnonneg, hlt⟩ := h
  have hn := hM.pos
  have hseg := hM.segment_eq
  rw [hseg] at hnonneg hlt
  rcases mbrPosition_block (b := b) (show 0 < n - 1 by omega) (show d ≤ n - 1 by omega) with
    ⟨hle, hfind, -⟩ | ⟨-, hfind, -⟩
  · have hoff := Nat.mod_lt b (show 0 < n - 1 by omega)
    rw [hfind, hM.native_eq] at hlt
    exact (pairId_lt_rowStart_iff (n := n - 1) (show d < b % (n - 1) + 1 by omega) (by omega)).1
      (by exact_mod_cast hlt)
  · omega

/-- The block that a disk among the first `k` shares with a later disk. -/
theorem mbrData_pair (hM : M.Fits n k) (hde : d < e) (he : e < n) (hdk : d < k) :
    MbrData M n d (e - 1) ∧ mbrPeer (n - 1) d (e - 1) = e := by
  have hoff : (e - 1) % (n - 1) = e - 1 := Nat.mod_eq_of_lt (by omega)
  have hfind := @mbrFindBlockId_eq (n - 1) d e (e - 1) hde (by omega) hoff
  have hnative := (pairId_lt_rowStart_iff (n := n - 1) (k := k) hde (by omega)).2 hdk
  refine ⟨⟨by omega, ?_, ?_⟩, ?_⟩
  · rw [hM.segment_eq, hfind]
    exact Int.natCast_nonneg _
  · rw [hM.segment_eq, hfind, hM.native_eq]
    exact_mod_cast hnative
  · rw [mbrPeer, hoff, if_pos (by omega)]
    omega

/-- With more than `n - k` failed disks a block that has lost both copies is not returned. -/
theorem mbr_decode_ne_ok (hM : M.Fits n k) (hF : F ⊆ Finset.range n) (hcard : n - k < F.card)
    (hdF : d ∈ F) (hpeer : mbrPeer (n - 1) d b ∈ F) (buf : Buf) :
    ∀ out, M.decode J (st.fail F junk) d buf st.diskBlockSize (b * st.diskBlockSize) ≠ .ok out := by
  intro out hok
  have hn := hM.pos
  have hseg := hM.segment_eq
  have hd := Finset.mem_range.1 (hF hdF)
  obtain ⟨id, -, dup, -, hlocate, hother, -⟩ := @mbrLocate_spec M.mbrSegmentSize d b (by omega)
    (by omega)
  have hnone : J.makeDecodingMatrix M.mbrM M.mbrC M.generatorMatrix (mbrErased M (st.fail F junk)) =
      .error .undefined := by
    refine Jerasure.makeDecodingMatrix_of_lt (not_le.1 fun hle => ?_)
    exact absurd ((card_mbrSurvivors_iff hM hF).1 hle) (not_le.2 hcard)
  rw [← hseg] at hpeer
  rw [Coding4Mbr.decode_fail J hdF buf hlocate, if_pos (hother.symm ▸ hpeer), hnone] at hok
  cases hok

/-- **The code with copies survives `n - k` failures**: with more of them a native block has lost
both copies. -/
theorem mbr_recovers_iff (hL : (mbr M J).Configured n k) (hF : F ⊆ Finset.range n) :
    (mbr M J).Recovers n k F ↔ F.card + k ≤ n := by
  have ⟨hM, hJ, hinv⟩ := hL
  have hn := hM.pos
  constructor
  · intro hrec
    by_contra hcard
    -- the first of the failed disks, and another one
    have hne : F.Nonempty := Finset.card_pos.1 (by omega)
    have hdF := F.min'_mem hne
    obtain ⟨e, heF, hed⟩ := Finset.exists_mem_ne (show 1 < F.card by omega) (F.min' hne)
    have hde : F.min' hne < e := lt_of_le_of_ne (F.min'_le e heF) hed.symm
    have he := Finset.mem_range.1 (hF heF)
    have hdk : F.min' hne < k := by
      have hsub : F ⊆ Finset.Ico (F.min' hne) n :=
        fun i hi => Finset.mem_Ico.2 ⟨F.min'_le i hi, Finset.mem_range.1 (hF hi)⟩
      have hle := Finset.card_le_card hsub
      rw [Nat.card_Ico] at hle
      omega
    obtain ⟨hplace, hpeer⟩ := mbrData_pair hM hde he hdk
    exact not_recovers_of_zero (L := mbr M J) (b := e - 1) hL (by omega) hplace
      (@mbr_decode_ne_ok J M n k _ _ F (zeroDevices n k (e - 1 + 1)).ncfs _ hM hF (by omega) hdF
        (hpeer.symm ▸ heF) _) hrec
  · intro hcard
    refine recovers_of_lost fun s hs d hdF hd b hplace _ junk buf => ?_
    obtain ⟨rfl, -, hint, hconsistent⟩ := hs
    have hdk := mbrData_lt hM hplace
    by_cases hpeer : mbrPeer (s.ncfs.diskTotalNum - 1) d b ∈ F
    · exact Coding4Mbr.decode_native hJ hM hint hconsistent hF (by omega) junk
        (hinv s.ncfs junk F hF hcard) hdF hpeer
        (.inl hdk) buf
    · exact Coding4Mbr.decode_copy hM hconsistent hd hdF hpeer junk buf

end Mbr

/-! ### The array codes -/

section Arrays

variable {L : CodingLayer} {n k d b : ℕ} {F : Finset ℕ} {st : NcfsState} {junk : ℕ → ℕ → Byte}

/-- The codes with a row of parity and one of `Q` blocks, whose `decode` asks for exactly one failed
disk. -/
def ArrayCode : CodingLayer → Prop
  | mdr1 _ | evenodd _ | rdp _ => True
  | _ => False

theorem failedDiskNum_fail (hF : F ⊆ Finset.range st.diskTotalNum) :
    failedDiskNum (st.fail F junk) = F.card := by
  have hlen : failedDiskNum (st.fail F junk) = ((List.range st.diskTotalNum).filter
      (· ∈ F)).length := by
    rw [failedDiskNum, List.countP_eq_length_filter]
    refine congrArg List.length (List.filter_congr fun i _ => ?_)
    rw [decide_eq_decide]
    exact fail_diskStatus_eq_one i
  rw [hlen, ← List.toFinset_card_of_nodup (List.nodup_range.filter _)]
  congr 1
  ext i
  simpa using fun hi => Finset.mem_range.1 (hF hi)

/-- What they do for a lost disk. -/
theorem ArrayCode.decode_fail (hL : L.ArrayCode) (hdF : d ∈ F) (diskSize : ℕ → ℕ) (buf : Buf)
    (size offset : ℕ) :
    L.decode (L.degraded diskSize) (st.fail F junk) d buf size offset =
      L.degraded diskSize (st.fail F junk) d buf size offset := by
  cases L with
  | mdr1 coding => exact if_neg (fail_diskStatus_ne_zero hdF)
  | evenodd coding => exact if_neg (fail_diskStatus_ne_zero hdF)
  | rdp coding => exact if_neg (fail_diskStatus_ne_zero hdF)
  | _ => exact hL.elim

/-- For two lost disks nothing is returned. -/
theorem ArrayCode.decode_ne_ok (hL : L.ArrayCode) (hF : F ⊆ Finset.range st.diskTotalNum)
    (hcard : F.card ≠ 1) (hdF : d ∈ F) (diskSize : ℕ → ℕ) (buf : Buf) (size offset : ℕ) :
    ∀ out, L.decode (L.degraded diskSize) (st.fail F junk) d buf size offset ≠ .ok out := by
  intro out hok
  have hstatus : (st.fail F junk).diskStatus d ≠ 0 := fail_diskStatus_ne_zero hdF
  have hfailed : ¬ failedDiskNum (st.fail F junk) = 1 := by rwa [failedDiskNum_fail hF]
  have htable : ∀ coding : ElemTable, coding.decode ⟨st.fail F junk, diskSize⟩ d buf size offset =
      .error .failed := fun coding => (if_neg hstatus).trans (if_neg hfailed)
  rw [hL.decode_fail hdF] at hok
  cases L with
  | mdr1 coding =>
      rw [degraded, Coding4Mdr1.decode, if_neg hstatus, if_neg hfailed] at hok
      cases hok
  | evenodd coding =>
      rw [degraded, Coding4Evenodd.decode, htable] at hok
      cases hok
  | rdp coding =>
      rw [degraded, Coding4Rdp.decode, htable] at hok
      cases hok
  | _ => exact hL.elim

/-- One lost data disk under EVENODD and RDP: the other blocks of the row are added up. -/
theorem table_decode_lost {coding : ElemTable} {s : Devices} (hk : coding.k = k)
    (hrow : 0 < coding.row) (htotal : s.ncfs.diskTotalNum = k + 2)
    (hparity : ∀ g, ∀ o < s.ncfs.diskBlockSize, coding.StripParity s.ncfs g o)
    (hblock : ∀ i < k + 2, s.HasBlock i b) (hd : d < k) (buf : Buf) :
    ∃ out s', coding.decode ⟨s.ncfs.fail {d} junk, s.diskSize⟩ d buf s.ncfs.diskBlockSize
        (b * s.ncfs.diskBlockSize) = .ok (out, s') ∧
      ∀ o < s.ncfs.diskBlockSize, out o = s.ncfs.block d b o := by
  have hs : Devices.SingleFailure ⟨s.ncfs.fail {d} junk, s.diskSize⟩ d :=
    ⟨show d < s.ncfs.diskTotalNum by omega,
      fun i _ => by rw [fail_diskStatus]; simp only [Finset.mem_singleton]⟩
  obtain ⟨out, hok, hout⟩ := @ElemTable.decode_line coding _ d b hs
    (show d < s.ncfs.diskTotalNum - 1 by omega)
    (fun i hi _ => hblock i (by have := htotal ▸ hi; omega)) 0 _ s.ncfs.diskBlockSize_pos
      (Nat.zero_add _).le buf
  refine ⟨out, _, hok, fun o ho => (hout o ho).trans ?_⟩
  have hsum := (hparity (b / coding.row) o ho).p (b % coding.row) (Nat.mod_lt _ hrow)
  simp only [hk, Nat.div_add_mod'] at hsum
  have hlost := @ElemTable.lostByte_of_rowParity coding _ _ _ _ _ htotal hsum hd.le
  have hlt : d < s.ncfs.diskTotalNum - 1 := by omega
  rw [← hlost, ElemTable.lostByte, ElemTable.lostByte, fail_diskTotalNum, if_pos hlt, if_pos hlt]
  refine congrArg List.sum (List.map_congr_left fun i hi => block_fail ?_ b o)
  have hid : i ≠ d := of_decide_eq_true (List.mem_filter.1 hi).2
  rwa [Finset.mem_singleton]

/-- One lost data disk under MDR-I: a fresh object reads the repair rows of the group. -/
theorem mdr_decode_lost {coding : Coding4Mdr1} {st₀ : NcfsState} (hk : 1 ≤ k)
    (hdata : st₀.dataDiskNum = k) (hnew : Coding4Mdr1.new st₀ = .ok coding)
    (hst : st.dataDiskNum = k) (htotal : st.diskTotalNum = k + 2)
    (hparity : StoreParity (mdrCode st.dataDiskNum) st) (hd : d < k) (buf : Buf) :
    ∃ r, coding.decode (st.fail {d} junk) d buf st.diskBlockSize (b * st.diskBlockSize) = .ok r ∧
      ∀ o < st.diskBlockSize, r.buf o = st.block d b o := by
  obtain ⟨coding', hnew', hc, hV, hM, -⟩ := Coding4Mdr1.new_ok (hdata.symm ▸ hk)
  obtain rfl : coding = coding' := Except.ok.inj (hnew.symm.trans hnew')
  rw [hdata] at hc
  have hstatus : (st.fail {d} junk).diskStatus d ≠ 0 :=
    fail_diskStatus_ne_zero (Finset.mem_singleton_self d)
  have hfailed : failedDiskNum (st.fail {d} junk) = 1 := by
    rw [failedDiskNum_fail (Finset.singleton_subset_iff.2 (Finset.mem_range.2 (by omega))),
      Finset.card_singleton]
  have ht := Nat.mod_lt b (Nat.two_pow_pos k)
  obtain ⟨r, hok, -, hr⟩ :=
    @decode_block (st.fail {d} junk) _ _ _ hk hst htotal hd.le hstatus hfailed
    (hc.cachesFor hV hM) buf (b / 2 ^ k) _ ht
  rw [Nat.div_add_mod'] at hok
  refine ⟨r, hok, fun o ho => ?_⟩
  rw [hst] at hparity
  have hgroup := mdrCode_parity_iff.1 (hparity (b / 2 ^ k) o ho)
  have hsurv : Survives (st.fail {d} junk) k d (b / 2 ^ k * 2 ^ k) o fun j t =>
      stripCells st (mdrCode k).rows (b / 2 ^ k) o (j, t) :=
    fun j _ hjd t _ => block_fail (by rwa [Finset.mem_singleton]) _ o
  rw [hr o ho _ hgroup hsurv, stripCells]
  exact congrArg (st.block d · o) (Nat.div_add_mod' b (2 ^ k))

/-- **The array codes survive one failure**, and any failures of disks that hold no data. -/
theorem array_recovers_iff (hL : L.Configured n k) (harray : L.ArrayCode)
    (hF : F ⊆ Finset.range n) :
    L.Recovers n k F ↔ F.card ≤ 1 ∨ ∀ d ∈ F, k ≤ d := by
  have hplaces : n = k + 2 ∧ ∀ (st : NcfsState) d b, L.DataPlace st d b ↔
      d < st.diskTotalNum - 2 := by
    cases L with
    | mdr1 coding => exact ⟨hL.1, fun _ _ _ => Iff.rfl⟩
    | evenodd coding => exact ⟨hL.1, fun _ _ _ => Iff.rfl⟩
    | rdp coding => exact ⟨hL.1, fun _ _ _ => Iff.rfl⟩
    | _ => exact harray.elim
  obtain ⟨hn, hplaces⟩ := hplaces
  constructor
  · intro hrec
    by_contra hnot
    rw [not_or, not_le] at hnot
    obtain ⟨hcard, hdata⟩ := hnot
    push Not at hdata
    obtain ⟨d, hdF, hd⟩ := hdata
    exact not_recovers_of_zero (b := 0) hL (by omega) ((hplaces _ d 0).2 (show d < n - 2 by omega))
      (harray.decode_ne_ok hF (by omega) hdF _ _ _ _) hrec
  · intro htol
    refine recovers_of_lost fun s hs d hdF hd b hplace hblock junk buf => ?_
    obtain ⟨rfl, hdata, -, hencoded⟩ := hs
    have hdk : d < k := by
      have hlt := (hplaces _ d b).1 hplace
      omega
    have hcard : F.card ≤ 1 := htol.resolve_right fun h => absurd (h d hdF) (by omega)
    obtain rfl : F = {d} :=
      (Finset.eq_of_subset_of_card_le (Finset.singleton_subset_iff.2 hdF) hcard).symm
    have hway :=
      @ArrayCode.decode_fail _ _ _ s.ncfs junk harray hdF s.diskSize buf s.ncfs.diskBlockSize
      (b * s.ncfs.diskBlockSize)
    cases L with
    | mdr1 coding =>
        obtain ⟨-, hk, st₀, hst₀, hnew⟩ := hL
        obtain ⟨r, hok, hout⟩ :=
          @mdr_decode_lost _ _ b _ junk _ _ hk hst₀ hnew hdata hn hencoded hdk buf
        exact ⟨r.buf, hway.trans (by rw [degraded, hok]; rfl), hout⟩
    | evenodd coding =>
        obtain ⟨-, hk, st₀, rfl, rfl⟩ := hL
        obtain ⟨out, s', hok, hout⟩ := @table_decode_lost _ d b junk _ s rfl
          (Coding4Evenodd.sound hk).row_pos hn hencoded
            (fun i hi => hblock i (hn.symm ▸ hi)) hdk buf
        exact ⟨out, hway.trans (by rw [degraded, Coding4Evenodd.decode, hok]; rfl), hout⟩
    | rdp coding =>
        obtain ⟨-, hk, st₀, rfl, rfl⟩ := hL
        obtain ⟨out, s', hok, hout⟩ := @table_decode_lost _ d b junk _ s rfl
          (Coding4Rdp.sound hk).row_pos hn hencoded (fun i hi => hblock i (hn.symm ▸ hi)) hdk buf
        exact ⟨out, hway.trans (by rw [degraded, Coding4Rdp.decode, hok]; rfl), hout⟩
    | _ => exact harray.elim

end Arrays

/-! ### All layers -/

/-- The failed disks that a layer survives.  Two failed disks under RAID6 without rotation are left
out of the results. -/
def Tolerates : CodingLayer → ℕ → ℕ → Finset ℕ → Prop
  | raid0, _, _, F | jbod, _, _, F => F = ∅
  | raid1, n, _, F => ∀ d < n / 2, d ∈ F → mirrorDiskId n d ∉ F
  | raid4, _, _, F | raid5, _, _, F => F.card ≤ 1
  | raid6 _, n, _, F => F.card ≤ 1 ∨ F.card ≤ 2 ∧ n ≤ 10
  | rs _ _, n, k, F | mbr _ _, n, k, F => F.card + k ≤ n
  | srcRs _ _ srcF, n, k, F => (∀ d ∈ F, d < k → ∀ b, ChainWorks n srcF F d b) ∨ F.card + k ≤ n
  | mdr1 _, _, k, F | evenodd _, _, k, F | rdp _, _, k, F => F.card ≤ 1 ∨ ∀ d ∈ F, k ≤ d
  | raid6noRotate _, n, _, F => (∀ d ∈ F, n - 2 ≤ d) ∨ n = 3 ∧ F.card ≤ 1

/-- **What a layer survives**: `decode` recovers every block of data exactly then. -/
theorem recovers_iff {L : CodingLayer} {n k : ℕ} {F : Finset ℕ} (hL : L.Configured n k)
    (hF : F ⊆ Finset.range n) (htwo : ∀ undefinedDisk, L = raid6noRotate undefinedDisk →
      F.card ≠ 2) : L.Recovers n k F ↔ L.Tolerates n k F := by
  cases L with
  | raid0 => exact plain_recovers_iff (.inl rfl) hF
  | jbod => exact plain_recovers_iff (.inr rfl) hF
  | raid1 => exact raid1_recovers_iff
  | raid4 => exact raid4_recovers_iff hF
  | raid5 => exact raid5_recovers_iff hF
  | raid6 undefinedDisk => exact raid6_recovers_iff hF
  | rs J matrix => exact rs_recovers_iff hL hF
  | srcRs J matrix srcF => exact src_recovers_iff hL hF
  | mbr M J => exact mbr_recovers_iff hL hF
  | mdr1 coding => exact array_recovers_iff hL trivial hF
  | evenodd coding => exact array_recovers_iff hL trivial hF
  | rdp coding => exact array_recovers_iff hL trivial hF
  | raid6noRotate undefinedDisk => exact noRotate_recovers_iff hF (htwo undefinedDisk rfl)

end CodingLayer

end Ncfs
