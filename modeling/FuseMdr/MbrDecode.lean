/-
Reading a block of a failed disk under the MBR code.

The other copy of the block is read when its disk works.  Otherwise `decode` marks the blocks that
have lost both copies, takes the first `m` of the others and multiplies them by a row of the
decoding matrix, the row with the number of the lost block.  But the matrix has rows for native
blocks only, so that a coded block with two lost copies makes it read behind the matrix.

Main definitions:

* `Ncfs.mbrLocate`, `Ncfs.mbrErased`, `Ncfs.mbrSource` — the other copy of a block, the scan for
  erased blocks and the copy that is read of a survivor;
* `Ncfs.Coding4Mbr.decode`, `Ncfs.Coding4Mbr.decodeReads` — the function, and the blocks that it
  reads;
* `Ncfs.mbrPeer` — the disk with the other copy.

Main results:

* `Ncfs.mbrLocate_spec` — where the other copy is, and whether the block is native;
* `Ncfs.Coding4Mbr.erasures_sound` — how many blocks are erased, and that no failed disk is read;
* `Ncfs.Coding4Mbr.decode_lost_iff` — a lost block comes back exactly when it is native or has its
  other copy.
-/
import FuseMdr.MbrEncode
import FuseMdr.ReedSolomon

set_option relaxedAutoImplicit false
set_option autoImplicit false

namespace Ncfs

/-! ### The function -/

/-- The block at a position with the disk and the block number of its other copy. -/
def mbrLocate (seg diskId blockNo : ℕ) : ℤ × ℕ × ℕ :=
  let s := blockNo / seg
  if mbrFindBlockId diskId blockNo seg = -1 then
    let mbrBlockId := mbrFindDupBlockId diskId blockNo seg
    let dupDiskId := mbrGetDiskId mbrBlockId seg
    (mbrBlockId, dupDiskId, (mbrGetBlockNo dupDiskId mbrBlockId seg).toNat + s * seg)
  else
    let mbrBlockId := mbrFindBlockId diskId blockNo seg
    let dupDiskId := (mbrGetDupDiskId mbrBlockId seg).toNat
    (mbrBlockId, dupDiskId, mbrGetDupBlockNo diskId mbrBlockId seg + s * seg)

/-- The loop that marks the blocks with two copies on failed disks. -/
def mbrErased (M : Coding4Mbr) (st : NcfsState) (i : ℕ) : ℕ :=
  let tempDiskId := mbrGetDiskId i M.mbrSegmentSize
  let tempDupDiskId := (mbrGetDupDiskId i M.mbrSegmentSize).toNat
  if st.diskStatus tempDiskId = 1 ∧ st.diskStatus tempDupDiskId = 1 then 1 else 0

/-- The copy of block `id` of segment `s` that is read: the second one when the disk of the first
one has failed. -/
def mbrSource (M : Coding4Mbr) (st : NcfsState) (s id : ℕ) : ℕ × ℕ :=
  mbrAt M.mbrSegmentSize (st.diskStatus (mbrGetDiskId id M.mbrSegmentSize) = 1) s id

/-- One pass of the loop over the chosen survivors.  The matrix has `m * m` entries. -/
def mbrAddSurvivor (J : Jerasure) (M : Coding4Mbr) (st : NcfsState) (decodingMatrix : ℕ → ℕ)
    (ids : List ℕ) (mbrBlockId s size : ℕ) (buf : Buf) (i : ℕ) : Except CodingError Buf := do
  let m := M.mbrM
  let efficient ←
    if m * mbrBlockId + i < m * m then .ok (decodingMatrix (m * mbrBlockId + i))
      else .error .undefined
  let (tempDiskId, tempBlockNo) := mbrSource M st s (ids.getD i 0)
  let tempBuf := readDisk st tempDiskId (fun _ => 0) size (tempBlockNo * st.diskBlockSize)
  .ok (xorBuf (intBytes size) buf (galoisBuf J size efficient tempBuf))

/-- `Coding4Mbr::decode`. -/
def Coding4Mbr.decode (M : Coding4Mbr) (J : Jerasure) (st : NcfsState) (diskId : ℕ) (buf : Buf)
    (size offset : ℕ) : Except CodingError Buf :=
  if st.diskStatus diskId = 0 then .ok (readDisk st diskId buf size offset)
  else do
    let blockNo := offset / st.diskBlockSize
    let s := blockNo / M.mbrSegmentSize
    let (mbrBlockId, dupDiskId, dupBlockNo) := mbrLocate M.mbrSegmentSize diskId blockNo
    if st.diskStatus dupDiskId = 1 then
      let (decodingMatrix, ids) ← J.makeDecodingMatrix M.mbrM M.mbrC M.generatorMatrix
        (mbrErased M st)
      (List.range M.mbrM).foldlM (mbrAddSurvivor J M st decodingMatrix ids mbrBlockId.toNat s size)
        (memset0 buf size)
    else .ok (readDisk st dupDiskId (memset0 buf size) size (dupBlockNo * st.diskBlockSize))

/-- The blocks that `decode` reads for a block of a disk, in their order. -/
def Coding4Mbr.decodeReads (M : Coding4Mbr) (J : Jerasure) (st : NcfsState) (diskId blockNo : ℕ) :
    Except CodingError (List (ℕ × ℕ)) :=
  if st.diskStatus diskId = 0 then .ok [(diskId, blockNo)]
  else do
    let s := blockNo / M.mbrSegmentSize
    let (_, dupDiskId, dupBlockNo) := mbrLocate M.mbrSegmentSize diskId blockNo
    if st.diskStatus dupDiskId = 1 then
      let (_, ids) ← J.makeDecodingMatrix M.mbrM M.mbrC M.generatorMatrix (mbrErased M st)
      .ok (ids.map (mbrSource M st s))
    else .ok [(dupDiskId, dupBlockNo)]

/-! ### The other copy -/

/-- The disk that shares the block at a position. -/
def mbrPeer (seg diskId blockNo : ℕ) : ℕ :=
  if diskId ≤ blockNo % seg then blockNo % seg + 1 else blockNo % seg

section Locate

variable {seg a b : ℕ}

open Triangle

/-- The block at a position, as one of two copies, and where the other one is.  The block is native
when one of both disks is among the first `k`. -/
theorem mbrLocate_spec (hseg : 0 < seg) (ha : a ≤ seg) :
    ∃ id < rowStart seg seg, ∃ dup, mbrAt seg dup (b / seg) id = (a, b) ∧
      mbrLocate seg a b = ((id : ℤ), mbrAt seg (!dup) (b / seg) id) ∧
      (mbrAt seg (!dup) (b / seg) id).1 = mbrPeer seg a b ∧
      ∀ k, id < rowStart seg k ↔ a < k ∨ mbrPeer seg a b < k := by
  have hoff := Nat.mod_lt b hseg
  have hb := Nat.div_add_mod b seg
  rw [Nat.mul_comm] at hb
  rcases mbrPosition_block (b := b) hseg ha with ⟨hle, hfind, -⟩ | ⟨hlt, hfind, hdup⟩
  · have hpeer : mbrPeer seg a b = b % seg + 1 := if_pos hle
    have hpair : a < b % seg + 1 := by omega
    have hfirst := @mbrAt_first seg a (b % seg + 1) (b / seg) hpair hoff
    have hsecond := @mbrAt_second seg a (b % seg + 1) (b / seg) hpair hoff
    refine ⟨pairId seg a (b % seg + 1), pairId_lt_rowStart hpair hoff, false, ?_, ?_, ?_,
      fun k => ?_⟩
    · rw [hfirst, Nat.add_sub_cancel, Nat.add_comm, hb]
    · simp only [mbrLocate, hfind, Bool.not_false, hsecond, mbrGetDupDiskId_eq hpair hoff]
      rw [if_neg (by omega)]
      rfl
    · rw [Bool.not_false, hsecond, hpeer]
    · rw [pairId_lt_rowStart_iff hpair hoff, hpeer]
      omega
  · have hpeer : mbrPeer seg a b = b % seg := if_neg (not_le.2 hlt)
    have hfirst := @mbrAt_first seg (b % seg) a (b / seg) hlt ha
    have hsecond := @mbrAt_second seg (b % seg) a (b / seg) hlt ha
    refine ⟨pairId seg (b % seg) a, pairId_lt_rowStart hlt ha, true, ?_, ?_, ?_, fun k => ?_⟩
    · rw [hsecond, Nat.add_comm, hb]
    · simp only [mbrLocate, hfind, hdup, Bool.not_true, hfirst, mbrGetDiskId_eq hlt ha,
        mbrGetBlockNo_eq hlt ha]
      rw [if_pos trivial]
      congr 3
      omega
    · rw [Bool.not_true, hfirst, hpeer]
    · rw [pairId_lt_rowStart_iff hlt ha, hpeer]
      omega

end Locate

/-! ### The erased blocks -/

section Erased

variable {M : Coding4Mbr} {n k : ℕ} {st : NcfsState} {F : Finset ℕ} {junk : ℕ → ℕ → Byte}

open Triangle

/-- A block is erased when both of its disks have failed. -/
theorem mbrErased_pair {d e : ℕ} (hde : d < e) (he : e ≤ M.mbrSegmentSize) :
    mbrErased M (st.fail F junk) (pairId M.mbrSegmentSize d e) = if d ∈ F ∧ e ∈ F then 1
      else 0 := by
  simp only [mbrErased, mbrGetDiskId_eq hde he, mbrGetDupDiskId_eq hde he, Int.toNat_natCast,
    fail_diskStatus_eq_one]

/-- The coded blocks are those of the last rows. -/
theorem Coding4Mbr.Fits.code_eq (hM : M.Fits n k) : M.mbrC = (n - k) * (n - k - 1) / 2 := by
  have hn := hM.pos
  have hall := two_mul_rowStart (le_refl (n - 1))
  have hnative := two_mul_rowStart (show k ≤ n - 1 by omega)
  have htotal := hM.total_eq
  rw [hM.native_eq] at htotal
  obtain ⟨t, rfl⟩ : ∃ t, n = k + t + 1 := ⟨n - k - 1, by omega⟩
  rw [show k + t + 1 - 1 = k + t by omega] at hall hnative htotal
  rw [show 2 * (k + t) + 1 - (k + t) = k + t + 1 by omega] at hall
  rw [show 2 * (k + t) + 1 - k = k + 2 * t + 1 by omega] at hnative
  rw [show k + t + 1 - k = t + 1 by omega, Nat.add_sub_cancel]
  have hsum : (k + t) * (k + t + 1) = k * (k + 2 * t + 1) + (t + 1) * t := by ring
  omega

/-- The number of erased blocks. -/
theorem card_mbrErased (hM : M.Fits n k) (hF : F ⊆ Finset.range n) :
    ((Finset.range (M.mbrM + M.mbrC)).filter fun i => mbrErased M (st.fail F junk) i = 1).card =
      F.card * (F.card - 1) / 2 := by
  have hn := hM.pos
  rw [hM.total_eq]
  refine card_inside (by rwa [Nat.sub_add_cancel (by omega)]) fun d e hde he => ?_
  have hpair := @mbrErased_pair M st F junk d e hde (by rwa [hM.segment_eq])
  rw [hM.segment_eq] at hpair
  rw [hpair]
  split <;> simp_all

/-- Up to `n - k` failed disks leave enough blocks. -/
theorem card_mbrErased_le (hM : M.Fits n k) (hF : F ⊆ Finset.range n) :
    ((Finset.range (M.mbrM + M.mbrC)).filter fun i => mbrErased M
      (st.fail F junk) i = 1).card ≤ M.mbrC ↔ F.card ≤ n - k := by
  have hn := hM.pos
  rw [card_mbrErased hM hF, hM.code_eq]
  exact pairs_le_pairs (by omega)

theorem card_mbrSurvivors_iff (hM : M.Fits n k) (hF : F ⊆ Finset.range n) :
    M.mbrM ≤ ((Finset.range (M.mbrM + M.mbrC)).filter fun i => mbrErased M
      (st.fail F junk) i = 0).card ↔ F.card ≤ n - k := by
  have hle := @card_mbrErased_le M n k st F junk hM hF
  have hsum := Finset.card_filter_add_card_filter_not (s := Finset.range (M.mbrM + M.mbrC))
    fun i => mbrErased M (st.fail F junk) i = 1
  have hnot : (Finset.range (M.mbrM + M.mbrC)).filter
      (fun i => ¬ mbrErased M (st.fail F junk) i = 1) =
      (Finset.range (M.mbrM + M.mbrC)).filter fun i => mbrErased M (st.fail F junk) i = 0 := by
    refine Finset.filter_congr fun i _ => ?_
    rw [mbrErased]
    split <;> simp
  rw [hnot, Finset.card_range] at hsum
  omega

theorem card_mbrSurvivors (hM : M.Fits n k) (hF : F ⊆ Finset.range n) (hcard : F.card ≤ n - k) :
    M.mbrM ≤ ((Finset.range (M.mbrM + M.mbrC)).filter fun i => mbrErased M
      (st.fail F junk) i = 0).card :=
  (card_mbrSurvivors_iff hM hF).2 hcard

/-- The copy that is read of a survivor is on a disk that works. -/
theorem mbrSource_spec (hM : M.Fits n k) {id : ℕ} (hid : id < M.mbrM + M.mbrC)
    (herased : mbrErased M (st.fail F junk) id = 0) (s : ℕ) :
    ∃ dup, mbrSource M (st.fail F junk) s id = mbrAt M.mbrSegmentSize dup s id ∧
      (mbrAt M.mbrSegmentSize dup s id).1 < n ∧ (mbrAt M.mbrSegmentSize dup s id).1 ∉ F := by
  have hn := hM.pos
  have hseg := hM.segment_eq
  rw [hM.total_eq, ← hseg] at hid
  obtain ⟨d, e, hde, he, rfl⟩ := exists_pair hid
  rw [mbrErased_pair hde he] at herased
  refine ⟨_, rfl, ?_⟩
  simp only [mbrGetDiskId_eq hde he, fail_diskStatus_eq_one]
  by_cases hd : d ∈ F
  · rw [decide_eq_true hd, mbrAt_second hde he]
    refine ⟨show e < n by omega, fun heF => ?_⟩
    rw [if_pos ⟨hd, heF⟩] at herased
    exact one_ne_zero herased
  · rw [decide_eq_false hd, mbrAt_first hde he]
    exact ⟨show d < n by omega, hd⟩

/-- Every block that is read is on a disk that works. -/
theorem Coding4Mbr.decodeReads_spec (hM : M.Fits n k) (J : Jerasure) {a b : ℕ} (ha : a < n)
    {reads : List (ℕ × ℕ)} (hreads : M.decodeReads J (st.fail F junk) a b = .ok reads) :
    ∀ x ∈ reads, x.1 < n ∧ x.1 ∉ F := by
  have hn := hM.pos
  have hseg := hM.segment_eq
  rw [decodeReads] at hreads
  split at hreads
  · rename_i hwork
    obtain rfl := Except.ok.inj hreads
    intro x hx
    rw [List.mem_singleton.1 hx]
    exact ⟨ha, fun haF => fail_diskStatus_ne_zero haF hwork⟩
  · obtain ⟨id, hid, dup, hat, hlocate, -⟩ := @mbrLocate_spec M.mbrSegmentSize a b (by omega)
      (by omega)
    have hle := mbrAt_lt hid (!dup) (b / M.mbrSegmentSize)
    simp only [hlocate, fail_diskStatus_eq_one] at hreads
    split at hreads
    · cases hmatrix : J.makeDecodingMatrix M.mbrM M.mbrC M.generatorMatrix
          (mbrErased M (st.fail F junk)) with
      | error e =>
          rw [hmatrix] at hreads
          cases hreads
      | ok result =>
          rw [hmatrix] at hreads
          obtain rfl := Except.ok.inj hreads
          intro x hx
          obtain ⟨id, hid, rfl⟩ := List.mem_map.1 hx
          obtain ⟨hlt, herased⟩ := (Jerasure.mem_of_makeDecodingMatrix hmatrix).2 id hid
          obtain ⟨dup, hsource, hwork⟩ := mbrSource_spec hM hlt herased (b / M.mbrSegmentSize)
          rw [hsource]
          exact hwork
    · rename_i hpeer
      obtain rfl := Except.ok.inj hreads
      intro x hx
      rw [List.mem_singleton.1 hx]
      exact ⟨show _ < n by omega, hpeer⟩

/-- What `decode` does for a block of a failed disk. -/
theorem Coding4Mbr.decode_fail (J : Jerasure) {a b : ℕ} (haF : a ∈ F) (buf : Buf) {id : ℕ}
    {dup : Bool} (hlocate : mbrLocate M.mbrSegmentSize a b =
      ((id : ℤ), mbrAt M.mbrSegmentSize (!dup) (b / M.mbrSegmentSize) id)) :
    M.decode J (st.fail F junk) a buf st.diskBlockSize (b * st.diskBlockSize) =
      if (mbrAt M.mbrSegmentSize (!dup) (b / M.mbrSegmentSize) id).1 ∈ F then do
        let (decodingMatrix, ids) ← J.makeDecodingMatrix M.mbrM M.mbrC M.generatorMatrix
          (mbrErased M (st.fail F junk))
        (List.range M.mbrM).foldlM (mbrAddSurvivor J M (st.fail F junk) decodingMatrix ids id
          (b / M.mbrSegmentSize) st.diskBlockSize) (memset0 buf st.diskBlockSize)
      else .ok (readDisk (st.fail F junk)
        (mbrAt M.mbrSegmentSize (!dup) (b / M.mbrSegmentSize) id).1
        (memset0 buf st.diskBlockSize) st.diskBlockSize
        ((mbrAt M.mbrSegmentSize (!dup) (b / M.mbrSegmentSize) id).2 * st.diskBlockSize)) := by
  rw [decode, if_neg (fail_diskStatus_ne_zero haF)]
  simp only [fail_diskBlockSize, Nat.mul_div_cancel b st.diskBlockSize_pos, hlocate,
    fail_diskStatus_eq_one, Int.toNat_natCast]

theorem readDisk_junk {d : ℕ} (hd : d ∉ F) (junk' : ℕ → ℕ → Byte) (buf : Buf) (size offset : ℕ) :
    readDisk (st.fail F junk) d buf size offset = readDisk (st.fail F junk') d buf size offset := by
  funext j
  rw [readDisk, readDisk]
  simp [NcfsState.fail, hd]

/-- Adding a survivor on a disk that works. -/
theorem mbrAddSurvivor_junk (J : Jerasure) (decodingMatrix : ℕ → ℕ) (ids : List ℕ) (id s size : ℕ)
    (buf : Buf) {i : ℕ} (hwork : (mbrSource M (st.fail F junk) s (ids.getD i 0)).1 ∉ F)
    (junk' : ℕ → ℕ → Byte) :
    mbrAddSurvivor J M (st.fail F junk) decodingMatrix ids id s size buf i =
      mbrAddSurvivor J M (st.fail F junk') decodingMatrix ids id s size buf i := by
  have hsource : mbrSource M (st.fail F junk') = mbrSource M (st.fail F junk) := rfl
  simp only [mbrAddSurvivor, hsource, fail_diskBlockSize, readDisk_junk hwork junk']

/-- What is on the failed disks has no influence on what `decode` returns. -/
theorem Coding4Mbr.decode_junk (hM : M.Fits n k) (J : Jerasure) {a b : ℕ} (ha : a < n)
    (junk' : ℕ → ℕ → Byte) (buf : Buf) :
    M.decode J (st.fail F junk) a buf st.diskBlockSize (b * st.diskBlockSize) =
      M.decode J (st.fail F junk') a buf st.diskBlockSize (b * st.diskBlockSize) := by
  have hn := hM.pos
  have hseg := hM.segment_eq
  by_cases haF : a ∈ F
  · obtain ⟨id, -, dup, -, hlocate, -⟩ := @mbrLocate_spec M.mbrSegmentSize a b (by omega) (by omega)
    rw [decode_fail J haF buf hlocate, decode_fail J haF buf hlocate]
    by_cases hpeer : (mbrAt M.mbrSegmentSize (!dup) (b / M.mbrSegmentSize) id).1 ∈ F
    · rw [if_pos hpeer, if_pos hpeer]
      have herased : mbrErased M (st.fail F junk') = mbrErased M (st.fail F junk) := rfl
      rw [herased]
      cases hmatrix : J.makeDecodingMatrix M.mbrM M.mbrC M.generatorMatrix
          (mbrErased M (st.fail F junk)) with
      | error e => rw [Loops.error_bind, Loops.error_bind]
      | ok result =>
          obtain ⟨inv, ids⟩ := result
          obtain ⟨hlen, hids⟩ := Jerasure.mem_of_makeDecodingMatrix hmatrix
          simp only [Loops.ok_bind]
          refine Loops.foldlM_congr (fun out l hl => ?_) _
          have hl := List.mem_range.1 hl
          -- the chosen survivors are read from disks that work
          obtain ⟨hlt, herased⟩ := hids _ (getD_mem (show l < ids.length by omega))
          obtain ⟨dup, hsource, -, hwork⟩ := mbrSource_spec hM hlt herased (b / M.mbrSegmentSize)
          rw [← hsource] at hwork
          exact mbrAddSurvivor_junk J _ _ _ _ _ _ hwork junk'
    · rw [if_neg hpeer, if_neg hpeer, readDisk_junk hpeer junk']
  · rw [decode, decode, fail_diskStatus, fail_diskStatus, if_neg haF, if_pos rfl, if_pos rfl,
      readDisk_junk haF junk']

/-- **The scan for erased blocks.**  For `1 ≤ k < n` and every set of failed disks, the blocks with
two lost copies are as many as there are pairs of failed disks, and not more than the coded blocks
exactly for up to `n - k` failed disks.  Then at least `m` blocks survive, and `decode` reads from
disks that work only: what is on the others does not matter. -/
theorem Coding4Mbr.erasures_sound {n k : ℕ} (hk : 1 ≤ k) (hkn : k < n)
    (vandermonde : ℕ → ℕ → ℕ → ℕ → ℕ) (st : NcfsState) {F : Finset ℕ} (hF : F ⊆ Finset.range n)
    (junk : ℕ → ℕ → Byte) :
    let M := Coding4Mbr.new n k vandermonde
    let erased := fun flag =>
      ((Finset.range (M.mbrM + M.mbrC)).filter fun i => mbrErased M (st.fail F junk) i = flag).card
    erased 1 = F.card * (F.card - 1) / 2 ∧ (erased 1 ≤ M.mbrC ↔ F.card ≤ n - k) ∧
    (F.card ≤ n - k → M.mbrM ≤ erased 0 ∧ ∀ (J : Jerasure), ∀ a < n, ∀ b,
      (∀ reads, M.decodeReads J (st.fail F junk) a b = .ok reads → ∀ x ∈ reads, x.1 < n ∧ x.1 ∉ F) ∧
      ∀ buf junk', M.decode J (st.fail F junk) a buf st.diskBlockSize (b * st.diskBlockSize) =
        M.decode J (st.fail F junk') a buf st.diskBlockSize (b * st.diskBlockSize)) := by
  intro M erased
  have hM : M.Fits n k := Coding4Mbr.new_spec hk hkn vandermonde
  refine ⟨card_mbrErased hM hF, card_mbrErased_le hM hF, fun hcard =>
    ⟨card_mbrSurvivors hM hF hcard, fun J a ha b => ⟨fun reads hreads => ?_, fun buf junk' => ?_⟩⟩⟩
  · exact decodeReads_spec hM J ha hreads
  · exact decode_junk hM J ha junk' buf

/-- Three disks, two of them failed: one block has lost both copies. -/
theorem Coding4Mbr.erasures_sound_three :
    ((Finset.range 3).filter fun i => mbrErased (Coding4Mbr.new 3 1 fun _ _ _ _ => 1)
      ((NcfsState.blank 3 1 4 (by decide) 8).fail {0, 1} fun _ _ => 0) i = 1).card = 1 :=
  (Coding4Mbr.erasures_sound le_rfl (by decide) (fun _ _ _ _ => 1)
    (NcfsState.blank 3 1 4 (by decide) 8) (by decide) fun _ _ => 0).1

end Erased

/-! ### Lost blocks -/

section Decode

variable {J : Jerasure} {M : Coding4Mbr} {n k a b : ℕ} {st : NcfsState} {F : Finset ℕ}

/-- A copy of a block in terms of the native blocks. -/
theorem MbrConsistent.copy_eq (h : MbrConsistent M st) (dup : Bool) (s : ℕ) {id o : ℕ}
    (hid : id < M.mbrM + M.mbrC) (ho : o < st.diskBlockSize) :
    mbrCopy M.mbrSegmentSize st dup s id o =
      if id < M.mbrM then mbrCopy M.mbrSegmentSize st false s id o
      else ∑ j ∈ Finset.range M.mbrM,
        mbrCoeff M (id - M.mbrM) j * mbrCopy M.mbrSegmentSize st false s j o := by
  have hfirst : mbrCopy M.mbrSegmentSize st dup s id o = mbrCopy M.mbrSegmentSize st false s
      id o := by
    cases dup with
    | false => rfl
    | true => exact (h.copies s o ho id hid).symm
  by_cases hm : id < M.mbrM
  · rw [hfirst, if_pos hm]
  · have hcoded := h.coded s o ho (id - M.mbrM) (by omega)
    rw [Nat.add_sub_cancel' (not_lt.1 hm)] at hcoded
    rw [hfirst, if_neg hm, hcoded]

/-- The other copy is returned when its disk works. -/
theorem Coding4Mbr.decode_copy (hM : M.Fits n k) (h : MbrConsistent M st) (ha : a < n) (haF : a ∈ F)
    (hpeer : mbrPeer (n - 1) a b ∉ F) (junk : ℕ → ℕ → Byte) (buf : Buf) :
    ∃ out, M.decode J (st.fail F junk) a buf st.diskBlockSize (b * st.diskBlockSize) = .ok out ∧
      ∀ o < st.diskBlockSize, out o = st.block a b o := by
  have hn := hM.pos
  rw [← hM.segment_eq] at hpeer
  have hseg := hM.segment_eq
  obtain ⟨id, hid, dup, hat, hlocate, hother, -⟩ :=
    @mbrLocate_spec M.mbrSegmentSize a b (by omega) (by omega)
  rw [hseg, ← hM.total_eq] at hid
  rw [decode_fail J haF buf hlocate, if_neg (hother.symm ▸ hpeer)]
  refine ⟨_, rfl, fun o ho => ?_⟩
  rw [readDisk_fail (hother.symm ▸ hpeer) ho]
  have hcopy := h.copy_eq (!dup) (b / M.mbrSegmentSize) hid ho
  rw [← h.copy_eq dup (b / M.mbrSegmentSize) hid ho] at hcopy
  refine hcopy.trans ?_
  rw [mbrCopy, hat]

/-- A native block with two lost copies is solved for. -/
theorem Coding4Mbr.decode_native (hJ : J.Multiplies) (hM : M.Fits n k)
    (hint : st.diskBlockSize % sizeofInt = 0) (h : MbrConsistent M st) (hF : F ⊆ Finset.range n)
    (hcard : F.card ≤ n - k) (junk : ℕ → ℕ → Byte)
    (hinv : ∀ ids, dmIds M.mbrM (M.mbrM + M.mbrC) (mbrErased M (st.fail F junk)) = .ok ids →
      J.Inverts (survivorRows M.mbrM M.generatorMatrix ids) M.mbrM)
    (haF : a ∈ F) (hpeer : mbrPeer (n - 1) a b ∈ F) (hnative : a < k ∨ mbrPeer (n - 1) a b < k)
    (buf : Buf) :
    ∃ out, M.decode J (st.fail F junk) a buf st.diskBlockSize (b * st.diskBlockSize) = .ok out ∧
      ∀ o < st.diskBlockSize, out o = st.block a b o := by
  have hn := hM.pos
  have ha : a < n := Finset.mem_range.1 (hF haF)
  have hseg := hM.segment_eq
  obtain ⟨id, hid, dup, hat, hlocate, hother, hrow⟩ :=
    @mbrLocate_spec M.mbrSegmentSize a b (by omega) (by omega)
  rw [hseg, ← hM.total_eq] at hid
  rw [← hseg] at hpeer hnative
  have hidm : id < M.mbrM := by
    rw [hM.native_eq, ← hseg]
    exact (hrow k).2 hnative
  obtain ⟨inv, ids, hmatrix, hlen, hids, hbyte, hsolve⟩ :=
    J.makeDecodingMatrix_ok (card_mbrSurvivors hM hF hcard) hinv
  rw [decode_fail J haF buf hlocate, if_pos (hother.symm ▸ hpeer), hmatrix, Loops.ok_bind]
  let s := b / M.mbrSegmentSize
  let source := fun l => mbrSource M (st.fail F junk) s (ids.getD l 0)
  obtain ⟨out, hok, hout⟩ := foldlM_addSurvivor hJ hidm hint hbyte
    (fun l => readDisk (st.fail F junk)
      (source l).1 (fun _ => 0) st.diskBlockSize ((source l).2 * st.diskBlockSize)) buf
  refine ⟨out, hok, fun o ho => ?_⟩
  have hlost := h.copy_eq dup s hid ho
  rw [if_pos hidm, mbrCopy, hat] at hlost
  rw [hout o ho, hlost, ← hsolve (fun j => mbrCopy M.mbrSegmentSize st false s j o)
    (fun i => ∑ j ∈ Finset.range M.mbrM, mbrCoeff M i j * mbrCopy M.mbrSegmentSize st false s j o)
    (fun _ => rfl) id hidm]
  refine Finset.sum_congr rfl fun l hl => ?_
  have hl := Finset.mem_range.1 hl
  obtain ⟨hlt, herased⟩ := hids _ (getD_mem (show l < ids.length by omega))
  obtain ⟨dup', hsource, -, hwork⟩ := mbrSource_spec hM hlt herased s
  have hread : source l = mbrAt M.mbrSegmentSize dup' s (ids.getD l 0) := hsource
  rw [hread, readDisk_fail hwork ho]
  congr 1
  exact h.copy_eq dup' s hlt ho

/-- For a coded block with two lost copies `decode` reads behind the decoding matrix. -/
theorem Coding4Mbr.decode_coded (hM : M.Fits n k) (hF : F ⊆ Finset.range n) (hcard : F.card ≤ n - k)
    (junk : ℕ → ℕ → Byte)
    (hinv : ∀ ids, dmIds M.mbrM (M.mbrM + M.mbrC) (mbrErased M (st.fail F junk)) = .ok ids →
      J.Inverts (survivorRows M.mbrM M.generatorMatrix ids) M.mbrM)
    (haF : a ∈ F) (hpeer : mbrPeer (n - 1) a b ∈ F) (hcoded : k ≤ a ∧ k ≤ mbrPeer (n - 1) a b)
    (buf : Buf) :
    M.decode J (st.fail F junk) a buf st.diskBlockSize
      (b * st.diskBlockSize) = .error .undefined := by
  have hn := hM.pos
  have ha : a < n := Finset.mem_range.1 (hF haF)
  have hseg := hM.segment_eq
  obtain ⟨id, hid, dup, -, hlocate, hother, hrow⟩ :=
    @mbrLocate_spec M.mbrSegmentSize a b (by omega) (by omega)
  rw [← hseg] at hpeer hcoded
  have hidm : M.mbrM ≤ id := by
    rw [hM.native_eq, ← hseg]
    exact not_lt.1 fun h => by
      have := (hrow k).1 h
      omega
  obtain ⟨inv, ids, hmatrix, -⟩ := J.makeDecodingMatrix_ok (card_mbrSurvivors hM hF hcard) hinv
  have hpos := hM.segment_le
  rw [decode_fail J haF buf hlocate, if_pos (hother.symm ▸ hpeer), hmatrix, Loops.ok_bind]
  exact foldlM_addSurvivor_error J (by omega) hidm _ _ _

/-- **What `decode` returns.**  In a store with consistent copies and coded blocks, with no more
than `n - k` failed disks, `decode` returns the block of a failed disk exactly when the block is
native, which means that one of its two disks is among the first `k`, or its other disk works. -/
theorem Coding4Mbr.decode_lost_iff (hJ : J.Multiplies) {n k : ℕ} (hk : 1 ≤ k) (hkn : k < n)
    (vandermonde : ℕ → ℕ → ℕ → ℕ → ℕ) (hint : st.diskBlockSize % sizeofInt = 0)
    (h : MbrConsistent (Coding4Mbr.new n k vandermonde) st) (hF : F ⊆ Finset.range n)
    (hcard : F.card ≤ n - k) (junk : ℕ → ℕ → Byte)
    (hinv : let M := Coding4Mbr.new n k vandermonde
      ∀ ids, dmIds M.mbrM (M.mbrM + M.mbrC) (mbrErased M (st.fail F junk)) = .ok ids →
        J.Inverts (survivorRows M.mbrM M.generatorMatrix ids) M.mbrM)
    (haF : a ∈ F) (b : ℕ) (buf : Buf) :
    (∃ out, (Coding4Mbr.new n k vandermonde).decode J (st.fail F junk) a buf st.diskBlockSize
        (b * st.diskBlockSize) = .ok out ∧ ∀ o < st.diskBlockSize, out o = st.block a b o) ↔
      (a < k ∨ mbrPeer (n - 1) a b < k) ∨ mbrPeer (n - 1) a b ∉ F := by
  have hM := Coding4Mbr.new_spec hk hkn vandermonde
  constructor
  · rintro ⟨out, hok, -⟩
    by_contra hnot
    rw [not_or, not_not] at hnot
    rw [decode_coded hM hF hcard junk hinv haF hnot.2 (by omega)] at hok
    cases hok
  · intro hright
    by_cases hpeer : mbrPeer (n - 1) a b ∈ F
    · exact decode_native hJ hM hint h hF hcard junk hinv haF hpeer
        (hright.resolve_right (not_not.2 hpeer)) buf
    · exact decode_copy hM h (Finset.mem_range.1 (hF haF)) haF hpeer junk buf

end Decode

/-! ### Three disks with two native blocks and a coded one -/

/-- The code of three disks whose coded block is the sum of the native ones. -/
def mbrSampleCode : Coding4Mbr := .new 3 1 fun _ _ _ _ => 1

/-- Three disks with blocks of four bytes after a write. -/
def mbrSample : NcfsState :=
  (mbrSampleCode.encode .sample (NcfsState.blank 3 1 4 fourBytes_pos 8) (fun _ => Byte.ofNat 5) 4).2

theorem mbrSample_consistent : MbrConsistent mbrSampleCode mbrSample := by
  have hM : mbrSampleCode.Fits 3 1 := Coding4Mbr.new_spec le_rfl (by decide) _
  have hplaced : Placed 3 1 4 (MbrData mbrSampleCode 3) ⟨NcfsState.blank 3 1 4 (by decide) 8, []⟩ :=
    ⟨rfl, rfl, rfl, by simp [NcfsState.blank], by simp⟩
  have hop : (StoreOp.encode (fun _ => Byte.ofNat 5) 4).Sized fun size => size ≤ 4 := le_refl 4
  have hkeeps : Keeps 3 1 4 _ _ _ _ _ :=
    mbr_keeps hM Jerasure.sample_multiplies fun _ => show 1 < 256 by decide
  have hstep := (hkeeps.step hplaced (.of_zero hM fun _ _ _ => rfl) hop).2
  rwa [storeStep, Served.serve_st] at hstep

theorem mbrSample_inverts_code (junk : ℕ → ℕ → Byte) :
    ∀ ids, dmIds 2 3 (mbrErased mbrSampleCode (mbrSample.fail {0, 1} junk)) = .ok ids →
      Jerasure.sample.Inverts (survivorRows 2 (fun _ => 1) ids) 2 := by
  intro ids hids
  have hsurvivors : dmIds 2 3 (mbrErased mbrSampleCode (mbrSample.fail {0, 1} junk)) = .ok [1, 2] :=
    rfl
  obtain rfl := Except.ok.inj (hids.symm.trans hsurvivors)
  exact sample_inverts_code

theorem mbrSample_inverts_data (junk : ℕ → ℕ → Byte) :
    ∀ ids, dmIds 2 3 (mbrErased mbrSampleCode (mbrSample.fail {1, 2} junk)) = .ok ids →
      Jerasure.sample.Inverts (survivorRows 2 (fun _ => 1) ids) 2 := by
  intro ids hids
  have hsurvivors : dmIds 2 3 (mbrErased mbrSampleCode (mbrSample.fail {1, 2} junk)) = .ok [0, 1] :=
    rfl
  obtain rfl := Except.ok.inj (hids.symm.trans hsurvivors)
  exact sample_inverts_data

/-- A native block that has lost both copies. -/
theorem Coding4Mbr.decode_lost_iff_three :
    (∃ out, (Coding4Mbr.new 3 1 fun _ _ _ _ => 1).decode .sample
      (mbrSample.fail {0, 1} fun _ _ => 0) 0
        (fun _ => 0) 4 (0 * 4) = .ok out ∧ ∀ o < 4, out o = mbrSample.block 0 0 o) ↔
      (0 < 1 ∨ mbrPeer 2 0 0 < 1) ∨ mbrPeer 2 0 0 ∉ ({0, 1} : Finset ℕ) :=
  @Coding4Mbr.decode_lost_iff .sample 0 mbrSample {0, 1} Jerasure.sample_multiplies 3 1 le_rfl
    (by decide) (fun _ _ _ _ => 1) rfl mbrSample_consistent (by decide) (by decide) (fun _ _ => 0)
    (mbrSample_inverts_code _) (by decide) 0 fun _ => 0

/-- The coded block, which is on the last two disks, is not returned when both have failed. -/
theorem Coding4Mbr.decode_lost_broken :
    MbrConsistent (Coding4Mbr.new 3 1 fun _ _ _ _ => 1) mbrSample ∧
    (∀ ids, dmIds 2 3 (mbrErased (Coding4Mbr.new 3 1 fun _ _ _ _ => 1)
      (mbrSample.fail {1, 2} fun _ _ => 0)) = .ok ids →
        Jerasure.sample.Inverts (survivorRows 2 (fun _ => 1) ids) 2) ∧
    ¬ ∃ out, (Coding4Mbr.new 3 1 fun _ _ _ _ => 1).decode .sample
      (mbrSample.fail {1, 2} fun _ _ => 0) 1
        (fun _ => 0) 4 (1 * 4) = .ok out ∧ ∀ o < 4, out o = mbrSample.block 1 1 o := by
  refine ⟨mbrSample_consistent, mbrSample_inverts_data _, ?_⟩
  rintro ⟨out, hok, -⟩
  have hM : mbrSampleCode.Fits 3 1 := Coding4Mbr.new_spec le_rfl (by decide) _
  have herror := @Coding4Mbr.decode_coded .sample mbrSampleCode 3 1 1 1 mbrSample {1, 2} hM
    (by decide) (by decide) (fun _ _ => 0) (mbrSample_inverts_data _) (by decide) (by decide)
      (by decide) fun _ => 0
  exact absurd (hok.symm.trans herror) (by simp)

end Ncfs
