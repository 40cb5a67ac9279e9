/-
**Reading files after disks have failed.**

While disks are down the file system still answers reads, as long as `operation_mode` is not 2:
`ncfs_read` looks up the blocks of the range in the info file and has the layer decode each of them.
After any run of aligned writes, and after the failure of any disks that the code survives, what is
read is what was written last.

Main definitions:

* `Ncfs.Decoder.Returns` — a whole block is decoded.

Main results:

* `Ncfs.ncfsRead_whole` — a read of one or two whole blocks;
* `Ncfs.CodingLayer.returns_of_kept` — lost blocks come back from the equations that `encode` keeps;
* `Ncfs.EncodedMirror.degradedRead`, `Ncfs.degradedReads` — reads after failures.
-/
import FuseMdr.EncodedRuns
import FuseMdr.OperationMode

set_option relaxedAutoImplicit false
set_option autoImplicit false

namespace Ncfs

open IntFile

/-! ### Whole blocks -/

/-- A call of `decode` for block `b` of disk `d` returns the whole block. -/
structure Decoder.Returns (D : Decoder) (bs d b : ℕ) (block : ℕ → Byte) : Prop where
  /-- The result. -/
  result_eq : D.result d bs (b * bs : ℕ) = bs
  /-- The bytes. -/
  data_eq : ∀ buf, ∀ o < bs, D.data d bs (b * bs : ℕ) buf o = block o

section Whole

variable {D : Decoder} {bs size offset : ℕ} {fd : File} {byte : ℕ → Byte}

/-- The block that a call of `decode` asks for is mapped, and comes back. -/
def BlockRead.Returned (D : Decoder) (bs : ℕ) (fd : File) (byte : ℕ → Byte) (r : BlockRead) :
    Prop :=
  ∃ d b : ℕ, readInfo fd r.slot = ((d : ℤ), (b : ℤ)) ∧ Fits ((b : ℤ) * bs) ∧
    D.Returns bs d b fun o => byte (r.slot * bs + o)

theorem BlockRead.Returned.whole {r : BlockRead} (h : r.Returned D bs fd byte) (hsize : r.size = bs)
    (hoffset : r.readOffset = 0) :
    r.result D bs fd = r.size ∧
      ∀ start buf j, start ≤ j → j < start + bs → r.data D bs fd start buf j = byte
        (r.slot * bs + (j - start)) := by
  obtain ⟨d, b, hinfo, hfits, hreturns⟩ := h
  have hdisk : r.diskOffset bs fd = (b * bs : ℕ) := by
    rw [BlockRead.diskOffset, hinfo, hoffset]
    dsimp only
    rw [toInt_of_fits hfits, Nat.cast_mul, Nat.cast_zero, add_zero]
  refine ⟨?_, fun start buf j hle hlt => ?_⟩
  · rw [BlockRead.result, hdisk, hinfo, hsize]
    exact hreturns.result_eq
  · rw [BlockRead.data, if_neg (by omega), hdisk, hinfo, hsize]
    exact hreturns.data_eq _ _ (by omega)

/-- Whole blocks are asked for from their beginning. -/
theorem readCalls_whole (hat : offset % bs = 0) (hwhole : size % bs = 0) {r : BlockRead}
    (hr : r ∈ readCalls bs size offset) : r.size = bs ∧ r.readOffset = 0 := by
  have hend : (offset + size) % bs = 0 := by
    rw [Nat.add_mod, hat, hwhole]
    rfl
  rw [readCalls, List.mem_cons] at hr
  rcases hr with rfl | hr
  · simp [firstRead, hat]
  split at hr
  · cases hr
  · rcases List.mem_append.1 hr with hr | hr
    · obtain ⟨count, -, rfl⟩ := List.mem_map.1 hr
      exact ⟨rfl, rfl⟩
    · obtain rfl := List.mem_singleton.1 hr
      exact ⟨if_pos hend, rfl⟩

/-- One or two whole blocks are read. -/
theorem ncfsRead_whole (hbs : 0 < bs) (hsmall : bs ≤ sysblocksize) (hsize : 0 < size)
    (hat : offset % bs = 0) (hwhole : size % bs = 0)
    (hspan : endBlock bs size offset ≤ offset / bs + 1) {operationMode : ℕ}
    (hmode : operationMode ≠ 2) (hcalls : ∀ r ∈ readCalls bs size offset, r.Returned D bs fd byte)
    (errno : ℤ) (buf : Buf) :
    ∃ read, ncfsRead D bs fd operationMode errno buf size offset = .ok read ∧ read.1 = size ∧
      ∀ j < size, read.2 j = byte (offset + j) := by
  have hshape : ∀ r ∈ readCalls bs size offset, r.size = bs ∧ r.readOffset = 0 :=
    fun r => readCalls_whole hat hwhole
  have hall : ∀ r ∈ readCalls bs size offset, r.result D bs fd = r.size := fun r hr =>
    ((hcalls r hr).whole (hshape r hr).1 (hshape r hr).2).1
  have hdata : ∀ r ∈ readCalls bs size offset, ∀ start buf j, start ≤ j → j < start + bs →
      r.data D bs fd start buf j = byte (r.slot * bs + (j - start)) := fun r hr =>
    ((hcalls r hr).whole (hshape r hr).1 (hshape r hr).2).2
  have hstart : offset / bs * bs = offset := Nat.div_mul_cancel (Nat.dvd_of_mod_eq_zero hat)
  obtain ⟨hend, -, -⟩ := endBlock_spec hbs hsize offset
  have hfirst := hshape _ firstRead_mem
  have hlength : (lastRead bs size offset).size = bs := if_pos (by
    rw [Nat.add_mod, hat, hwhole]
    rfl)
  rw [hlength] at hend
  rw [sysblocksize] at hsmall
  -- the value that `readFileCache` returns, and its bytes
  obtain ⟨hcount, hbyte⟩ : (readFileCache D bs fd buf size offset).1 = size ∧
      ∀ j < size, (readFileCache D bs fd buf size offset).2 j = byte (offset + j) := by
    by_cases htwo : endBlock bs size offset = offset / bs + 1
    · have hlast := lastRead_mem (show ¬ endBlock bs size offset ≤ offset / bs by omega)
      rw [htwo, Nat.succ_mul] at hend
      have hfits : Fits ((bs : ℤ) + bs) := ⟨by omega, by omega⟩
      rw [readFileCache_two hall htwo, hfirst.1, hlength, toInt_of_fits hfits]
      refine ⟨by omega, fun j hj => ?_⟩
      dsimp only
      by_cases hjbs : j < bs
      · have hkept : ∀ buf, (lastRead bs size offset).data D bs fd (size - bs) buf j = buf j :=
          fun buf => if_pos (by omega)
        rw [hkept, hdata _ firstRead_mem 0 _ _ (by omega) (by omega), Nat.sub_zero]
        exact congrArg (fun p => byte (p + j)) hstart
      · rw [hdata _ hlast _ _ _ (by omega) (by omega)]
        refine congrArg byte ?_
        change endBlock bs size offset * bs + _ = _
        rw [htwo, Nat.succ_mul]
        omega
    · have hone : endBlock bs size offset ≤ offset / bs := by omega
      have heq : size = bs := by
        have hlt : offset / bs * bs < (endBlock bs size offset + 1) * bs := by
          rw [Nat.succ_mul]
          omega
        have hblock : endBlock bs size offset = offset / bs :=
          le_antisymm hone (Nat.le_of_lt_succ (Nat.lt_of_mul_lt_mul_right hlt))
        rw [hblock] at hend
        omega
      rw [readFileCache_one (hall _ firstRead_mem) hone, hfirst.1, toInt_of_fits
        ⟨by omega, by omega⟩]
      refine ⟨by omega, fun j hj => ?_⟩
      dsimp only
      rw [hdata _ firstRead_mem 0 _ _ (by omega) (by omega), Nat.sub_zero]
      exact congrArg (fun p => byte (p + j)) hstart
  have hle : size ≤ 2 * bs := by
    have hmul : endBlock bs size offset * bs ≤ (offset / bs + 1) * bs :=
      Nat.mul_le_mul_right bs hspan
    rw [Nat.succ_mul] at hmul
    omega
  have hvalue : toInt (bytesRead errno size (toSizeT size)) = size := by
    rw [toSizeT_of_nonneg (Int.natCast_nonneg size) (by omega), bytesRead, if_neg (by omega),
      if_neg (lt_irrefl _)]
    exact toInt_of_fits ⟨by omega, by omega⟩
  rw [ncfsRead, if_neg hmode, if_neg (by rw [sysblocksize]; omega)]
  dsimp only
  rw [hcount]
  exact ⟨_, rfl, hvalue, hbyte⟩

end Whole

/-! ### Lost blocks -/

namespace CodingLayer

variable {L : CodingLayer} {n k d b : ℕ} {F : Finset ℕ} {s : Devices}

/-- Under RDP a lost block of data is the sum of the other blocks of its row: the `Q` blocks do not
matter. -/
theorem rdp_returns_lost {coding : ElemTable} (hL : (rdp coding).Configured n k)
    (htotal : s.ncfs.diskTotalNum = n) (hdata : s.ncfs.dataDiskNum = k)
    (hkept : (rdp coding).Kept s.ncfs) (hblock : ∀ i < n, s.HasBlock i b) (hd : d < k)
    (junk : ℕ → ℕ → Byte) (buf : Buf) : (rdp coding).Returns s {d} junk d b buf := by
  obtain ⟨hn, hk, st₀, rfl, rfl⟩ := hL
  have hs : Devices.SingleFailure ⟨s.ncfs.fail {d} junk, s.diskSize⟩ d :=
    ⟨show d < s.ncfs.diskTotalNum by omega,
      fun i _ => by rw [fail_diskStatus]; simp only [Finset.mem_singleton]⟩
  obtain ⟨out, hok, hout⟩ := @ElemTable.decode_line (Coding4Rdp.new st₀) _ d b hs
    (show d < s.ncfs.diskTotalNum - 1 by omega)
    (fun i hi _ => hblock i (by have : i < s.ncfs.diskTotalNum - 1 := hi; omega)) 0 _
      s.ncfs.diskBlockSize_pos
    (Nat.zero_add _).le buf
  have hway := @ArrayCode.decode_fail (rdp (Coding4Rdp.new st₀)) _ _ s.ncfs junk trivial
    (Finset.mem_singleton_self d) s.diskSize buf s.ncfs.diskBlockSize (b * s.ncfs.diskBlockSize)
  have hok : (Coding4Rdp.new st₀).decode
      ⟨s.ncfs.fail {d} junk, s.diskSize⟩ d buf s.ncfs.diskBlockSize
      (b * s.ncfs.diskBlockSize) = .ok (out, ⟨s.ncfs.fail {d} junk, s.diskSize⟩) := hok
  refine ⟨out, hway.trans (by rw [degraded, Coding4Rdp.decode, hok]; rfl), fun o ho =>
    (hout o ho).trans ?_⟩
  have hsum : s.ncfs.block st₀.dataDiskNum b o = ∑ j ∈ Finset.range st₀.dataDiskNum,
      s.ncfs.block j b o := by
    rw [← hdata]
    exact hkept b o ho
  have hlost := @ElemTable.lostByte_of_rowParity (Coding4Rdp.new st₀) _ _ _ _ _
    (htotal.trans hn) hsum hd.le
  have hlt : d < s.ncfs.diskTotalNum - 1 := by omega
  refine Eq.trans ?_ hlost
  rw [ElemTable.lostByte, ElemTable.lostByte, fail_diskTotalNum, if_pos hlt, if_pos hlt]
  refine congrArg List.sum (List.map_congr_left fun i hi => block_fail ?_ b o)
  have hid : i ≠ d := of_decide_eq_true (List.mem_filter.1 hi).2
  rwa [Finset.mem_singleton]

/-- **Lost blocks of data come back** from the equations that `encode` keeps, under every layer and
after the failure of any disks that it survives. -/
theorem returns_of_kept (hL : L.Configured n k) (hF : F ⊆ Finset.range n)
    (htwo : ∀ undefinedDisk, L = raid6noRotate undefinedDisk → F.card ≠ 2)
    (htol : L.Tolerates n k F) (htotal : s.ncfs.diskTotalNum = n) (hdata : s.ncfs.dataDiskNum = k)
    (hwords : s.ncfs.diskBlockSize % sizeofInt = 0)
    (hkept : L.Kept s.ncfs) (hplace : L.DataPlace s.ncfs d b)
    (hblock : ∀ i < n, s.HasBlock i (L.blockNo b))
    (junk : ℕ → ℕ → Byte) (buf : Buf) : L.Returns s F junk d b buf := by
  by_cases hdF : d ∈ F
  · have hrecovers := (recovers_iff hL hF htwo).2 htol
    cases L with
    | rdp coding =>
        have hlt : d < s.ncfs.diskTotalNum - 2 := hplace
        have hn : n = k + 2 := hL.1
        have hcard : F.card ≤ 1 := htol.resolve_right fun h => absurd (h d hdF) (by omega)
        obtain rfl : F = {d} :=
          (Finset.eq_of_subset_of_card_le (Finset.singleton_subset_iff.2 hdF) hcard).symm
        exact rdp_returns_lost hL htotal hdata hkept hblock (by omega) junk buf
    | _ =>
        exact hrecovers s ⟨htotal, hdata, hwords, hkept⟩ d
          (Finset.mem_range.1 (hF hdF)) b hplace hblock junk buf
  · exact returns_of_notMem L s hdF junk b buf

end CodingLayer

/-! ### Files -/

/-- The failed disks are among those that the layer survives.  Two failed disks under RAID6 without
rotation are left out. -/
structure CodingLayer.Survives (L : CodingLayer) (n k : ℕ) (F : Finset ℕ) : Prop where
  /-- They are disks of the store. -/
  subset : F ⊆ Finset.range n
  /-- The layer survives their failure. -/
  tolerates : L.Tolerates n k F
  /-- Not two under RAID6 without rotation. -/
  not_two : ∀ undefinedDisk, L = .raid6noRotate undefinedDisk → F.card ≠ 2

/-- A read of one or two whole blocks of a file, which are mapped to blocks that every device
has. -/
structure WholeRead (L : CodingLayer) (fs : FsState) (diskSize : ℕ → ℕ) (f size offset : ℕ) :
    Prop where
  /-- Something is read. -/
  size_pos : 0 < size
  /-- From the start of a block. -/
  offset_mod : offset % fs.st.diskBlockSize = 0
  /-- In whole blocks. -/
  size_mod : size % fs.st.diskBlockSize = 0
  /-- At most two. -/
  span : endBlock fs.st.diskBlockSize size offset ≤ offset / fs.st.diskBlockSize + 1
  /-- They are mapped. -/
  mapped : ∀ r ∈ readCalls fs.st.diskBlockSize size offset, ∃ x : ℕ × ℕ,
    fs.slots f r.slot = some x ∧ ∀ i < fs.st.diskTotalNum, L.blockNo x.2 < diskSize i

section Files

variable {L : CodingLayer} {n k bs : ℕ} {s : Mirror} {F : Finset ℕ} {f size offset : ℕ}
    {path : String}

/-- What the layer returns for a block, `decode` returns to the read path. -/
theorem CodingLayer.decoder_returns {diskSize : ℕ → ℕ} {st : NcfsState}
    {junk : ℕ → ℕ → Byte} {d b : ℕ} (h : ∀ buf, L.Returns ⟨st, diskSize⟩ F junk d b buf) :
    Decoder.Returns
      (.ofLayer (L.decode (L.degraded diskSize) (st.fail F junk))) st.diskBlockSize d b
      (st.block d (L.blockNo b)) := by
  refine ⟨?_, fun buf o ho => ?_⟩
  · obtain ⟨out, hok, -⟩ := h fun _ => 0
    simp only [Decoder.ofLayer, Int.toNat_natCast, hok]
  · obtain ⟨out, hok, hout⟩ := h buf
    simp only [Decoder.ofLayer, Int.toNat_natCast, hok]
    exact hout o ho

/-- Reading in a state in which the files are stored. -/
theorem EncodedMirror.degradedRead (hL : L.Configured n k) (hwords : bs % sizeofInt = 0)
    (hsmall : bs ≤ sysblocksize) (h : EncodedMirror L n k bs s) (hF : L.Survives n k F)
    (junk : ℕ → ℕ → Byte) {diskSize : ℕ → ℕ}
    (hf : s.fs.names path = some f) (hread : WholeRead L s.fs diskSize f size offset) {mode : ℕ}
    (hmode : mode ≠ 2) (errno : ℤ) (buf : Buf) :
    ∃ read, ncfsRead
      (.ofLayer (L.decode (L.degraded diskSize) (s.fs.st.fail F junk))) s.fs.st.diskBlockSize
      (s.fs.info f) mode errno buf size offset = .ok read ∧
      read.1 = size ∧ ∀ j < size, read.2 j = (s.files path).byte (offset + j) := by
  have hblock : s.fs.st.diskBlockSize = bs := h.block_eq
  obtain ⟨hpos, hat, hwhole, hspan, hmapped⟩ := hread
  refine ncfsRead_whole s.fs.st.diskBlockSize_pos (hblock ▸ hsmall) hpos hat hwhole hspan hmode
    (fun r hr => ?_) errno buf
  obtain ⟨x, hx, hdevices⟩ := hmapped r hr
  have hmaps : s.fs.Maps f r.slot x := ⟨⟨path, hf⟩, hx⟩
  have hinfo := readInfo_of_stored (h.owning.tables.stored f _ _ hx) (h.owning.fits f _ _ hmaps)
  obtain ⟨hplace, hfits⟩ := h.place f r.slot x hmaps
  have hlayer : ∀ buf, L.Returns ⟨s.fs.st, diskSize⟩ F junk x.1 x.2 buf := fun buf =>
    CodingLayer.returns_of_kept (s := ⟨s.fs.st, diskSize⟩) hL hF.subset hF.not_two hF.tolerates
      h.total_eq h.data_eq
      (hblock ▸ hwords) h.kept hplace
        (fun i hi => hdevices i (hi.trans_eq h.total_eq.symm)) junk buf
  have hreturns := CodingLayer.decoder_returns hlayer
  refine ⟨x.1, x.2, hinfo, hblock ▸ hfits, hreturns.result_eq, fun buf o ho =>
    (hreturns.data_eq buf o ho).trans ?_⟩
  rw [hblock] at ho ⊢
  exact h.byte_eq path f r.slot x o hf hx ho

end Files

/-- **Degraded reads.**  From zero disks, for every layer and its parameters, after any run of
aligned writes and of reads, when any disks that the layer survives have failed and whatever is
found on them: as long as the mode that `get_operation_mode` computes is not 2, a read of one or two
whole blocks of any file returns its size and the bytes that were written last. -/
theorem degradedReads (L : CodingLayer) {st : NcfsState}
    (hL : L.Configured st.diskTotalNum st.dataDiskNum) (_ : L.Runnable st.dataDiskNum)
    (hbytes : L.ByteMatrix) (hfits : L.Fits st) (hn : 0 < st.diskTotalNum)
    (hwords : st.diskBlockSize % sizeofInt = 0)
    (hsmall : st.diskBlockSize ≤ sysblocksize) (hlist : st.spaceList = [])
    (hstatus : ∀ d, st.diskStatus d = 0) (hzero : ∀ d x, st.disk d x = 0) {ops : List FileOp}
    (hops : Machine.AllSteps (fileStep L) (fun s op => op.Succeeds L s ∧
      op.Aligned L s ∧ op.WholeWords L)
      ⟨.mounted st, fun _ => .empty⟩ ops)
    {F : Finset ℕ} (hF : L.Survives st.diskTotalNum st.dataDiskNum F) (junk : ℕ → ℕ → Byte)
    (diskSize : ℕ → ℕ) :
    let s := Machine.run (fileStep L) ⟨.mounted st, fun _ => .empty⟩ ops
    let failed := s.fs.st.fail F junk
    ∀ mode, getOperationMode L.raidType failed = some mode → mode ≠ 2 →
      ∀ path f size offset errno buf, s.fs.names path = some f →
      WholeRead L s.fs diskSize f size offset →
        ∃ read, ncfsRead (.ofLayer (L.decode (L.degraded diskSize) failed)) failed.diskBlockSize
          (s.fs.info f) mode errno buf size offset = .ok read ∧
          read.1 = size ∧ ∀ j < size, read.2 j = (s.files path).byte (offset + j) := by
  intro s failed mode _ hmode path f size offset errno buf hf hread
  have hrun : EncodedMirror L st.diskTotalNum st.dataDiskNum st.diskBlockSize s := by
    refine hops.invariant (fun s op h hop => ?_)
      (encodedMirror_mounted hL hn hlist hstatus hzero hfits)
    obtain ⟨hok, haligned, hwhole⟩ := hop
    cases op with
    | write path buf size offset mem => exact h.write hL hbytes hwords hsmall haligned hwhole hok
    | read path buf size offset errno => exact h
  exact hrun.degradedRead hL hwords hsmall hF junk hf hread hmode errno buf

/-- Reed-Solomon on six disks over the library's own functions: a file of two blocks, both of them
on disk `0`, which fails with a code disk. -/
theorem degradedReads_six :
    let L := CodingLayer.rs .library (generatorMatrix (fun _ => 0) 4 2 fieldPower)
    let s := Machine.run (fileStep L) ⟨.mounted (.blank 6 4 4 fourBytes_pos 8), fun _ => .empty⟩
      [.write "/a" (fun _ => 7) 8 0 fun _ => 0]
    let failed := s.fs.st.fail {0, 5} fun _ _ => 9
    ∃ read, ncfsRead (.ofLayer (L.decode (L.degraded fun _ => 8) failed)) failed.diskBlockSize
      (s.fs.info 0) 1 0
      (fun _ => 0) 8 0 = .ok read ∧
      read.1 = 8 ∧ ∀ j < 8, read.2 j = (s.files "/a").byte (0 + j) := by
  intro L
  have hL : L.Configured 6 4 :=
    CodingLayer.rs_configured (n := 6) (k := 4) (by decide) (by decide) (by decide)
  have hbytes : ∀ i, generatorMatrix (fun _ => 0) 4 2 fieldPower i < 256 :=
    (generatorMatrix_ok (fun _ => 0) (show 1 ≤ 4 by decide) (show 4 + 2 ≤ 256 by decide)).1
  have hops : Machine.AllSteps (fileStep L) (fun s op => op.Succeeds L s ∧
      op.Aligned L s ∧ op.WholeWords L)
      ⟨.mounted (.blank 6 4 4 fourBytes_pos 8), fun _ => .empty⟩ [.write "/a"
        (fun _ => 7) 8 0 fun _ => 0] := by
    refine ⟨⟨by decide +kernel, ⟨by decide, by decide, fun _ _ _ => rfl, ?_, fun _ =>
      ⟨?_, fun _ => trivial⟩⟩, trivial⟩, trivial⟩
    · exact .of_next 4 rfl (show _ = some (0, 0) by decide +kernel) (by decide) (by decide) trivial
    · exact .of_next 4 (by decide +kernel) (show _ = some (0, 1) by decide +kernel) (by decide)
        (by decide) trivial
  have hF : L.Survives 6 4 {0, 5} :=
    ⟨by decide, show Finset.card {0, 5} + 4 ≤ 6 by decide, fun _ h => CodingLayer.noConfusion h⟩
  have hruns : L.Runnable (NcfsState.blank 6 4 4 fourBytes_pos 8).dataDiskNum :=
    show 2 ≤ 4 by decide
  refine degradedReads L hL hruns hbytes trivial (show 0 < 6 by decide) rfl
    (show 4 ≤ sysblocksize by decide) rfl
    (fun _ => rfl) (fun _ _ => rfl) hops hF (fun _ _ => 9) (fun _ => 8) 1 (by decide +kernel)
      (by decide) "/a" 0 8 0 0
    (fun _ => 0) (by decide +kernel)
      ⟨by decide, by decide +kernel, by decide +kernel, by decide +kernel, ?_⟩
  intro r hr
  have hslot : ∀ r ∈ readCalls 4 8 0, r.slot = 0 ∨
      r.slot = 1 := by simp [readCalls, firstRead, lastRead, endBlock]
  rcases hslot r hr with hslot | hslot
  · rw [hslot]
    exact ⟨(0, 0), by decide +kernel, by decide +kernel⟩
  · rw [hslot]
    exact ⟨(0, 1), by decide +kernel, by decide +kernel⟩

end Ncfs
