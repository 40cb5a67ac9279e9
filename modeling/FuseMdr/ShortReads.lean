/-
**Short reads of a lost block.**

The last part of a file may be shorter than a block, and need not be a whole number of integers.
The loops that add up the blocks of a row run over integers: under RAID4, RAID5 and Reed-Solomon,
and under RAID6 as long as `Q` is not needed.  The bytes behind the last whole integer of a request
keep the zeros that the buffer was filled with.  Where RAID6 needs `Q`, it goes byte by byte.

Main definitions:

* `Ncfs.ReadsShort` — a degraded read returns the first bytes of a block;
* `Ncfs.LastBytesZero` — the bytes behind the last whole integer are zero.

Main results:

* `Ncfs.Coding4Raid5.decode_words` — the sum of the other disks, in whole integers;
* `Ncfs.Coding4Raid6.readsShort_iff`, `Ncfs.Coding4RS.readsShort_iff` — the other codes;
* `Ncfs.shortReads_iff` — the four codes together.
-/
import FuseMdr.Raid5
import FuseMdr.Raid6Decode
import FuseMdr.ReedSolomon

set_option relaxedAutoImplicit false
set_option autoImplicit false

namespace Ncfs

/-! ### What is to be returned -/

/-- When the disks of `F` have failed, `size` bytes of block `b` of disk `d` are returned. -/
def ReadsShort (decode : NcfsState → ℕ → Buf → ℕ → ℕ → Except CodingError Buf) (st : NcfsState)
    (F : Finset ℕ) (junk : ℕ → ℕ → Byte) (d b size : ℕ) : Prop :=
  ∀ buf, ∃ out, decode (st.fail F junk) d buf size (b * st.diskBlockSize) = .ok out ∧
    ∀ o < size, out o = st.block d b o

/-- Of the first `size` bytes of a block, those behind the last whole integer are zero. -/
def LastBytesZero (st : NcfsState) (d b size : ℕ) : Prop :=
  ∀ o, intBytes size ≤ o → o < size → st.block d b o = 0

/-- There are none in a whole number of integers. -/
theorem LastBytesZero.of_mod {size : ℕ} (hint : size % sizeofInt = 0) (st : NcfsState) (d b : ℕ) :
    LastBytesZero st d b size := by
  intro o ho hlt
  rw [intBytes_eq hint] at ho
  exact absurd hlt (not_lt.2 ho)

section Reads

variable {decode : NcfsState → ℕ → Buf → ℕ → ℕ → Except CodingError Buf} {st : NcfsState}
    {F : Finset ℕ}
variable {junk : ℕ → ℕ → Byte} {d b size : ℕ}

/-- A read that returns whole integers and zeros behind them. -/
theorem readsShort_iff_of_words
    (h : ∀ buf, ∃ out, decode (st.fail F junk) d buf size (b * st.diskBlockSize) = .ok out ∧
      ∀ o < size, out o = if o < intBytes size then st.block d b o else 0) :
    ReadsShort decode st F junk d b size ↔ LastBytesZero st d b size := by
  constructor
  · intro hread o hint ho
    obtain ⟨out, hok, hout⟩ := hread (fun _ => 0)
    obtain ⟨out', hok', hout'⟩ := h (fun _ => 0)
    obtain rfl : out' = out := Except.ok.inj (hok'.symm.trans hok)
    rw [← hout o ho, hout' o ho, if_neg (not_lt.2 hint)]
  · intro hzero buf
    obtain ⟨out, hok, hout⟩ := h buf
    refine ⟨out, hok, fun o ho => ?_⟩
    rw [hout o ho]
    by_cases hint : o < intBytes size
    · rw [if_pos hint]
    · rw [if_neg hint, hzero o (not_lt.1 hint) ho]

/-! ### RAID4 and RAID5 -/

/-- The blocks of the other disks add up to the lost block, in whole integers. -/
theorem Coding4Raid5.decode_words (hd : d < st.diskTotalNum)
    (hrow : ∀ o < size, ∑ i ∈ Finset.range st.diskTotalNum, st.block i b o = 0) (buf : Buf) :
    ∃ out, Coding4Raid5.decode (st.fail {d} junk) d buf size (b * st.diskBlockSize) = .ok out ∧
      ∀ o < size, out o = if o < intBytes size then st.block d b o else 0 := by
  have hloop : ∀ buf, xorOthers (st.fail {d} junk) d size (b * st.diskBlockSize) buf =
      xorSurvivors (st.fail {d} junk) (· ≠ d) buf size (b * st.diskBlockSize) := by
    intro buf
    rw [xorOthers, xorSurvivors, forDisks]
    refine congrArg (fun step => List.foldlM step buf _) (funext₂ fun buf i => ?_)
    by_cases hi : i = d
    · rw [if_pos hi, if_neg (not_not.2 hi)]
    · rw [if_neg hi, if_pos hi]
  obtain ⟨out, hok, hout⟩ := @xorSurvivors_fail st {d} junk b (· ≠ d) _
    (fun i _ hi hmem => hi (Finset.mem_singleton.1 hmem)) (memset0 buf size) size
  rw [Coding4Raid5.decode, if_neg (fail_diskStatus_ne_zero (Finset.mem_singleton_self d)), hloop]
  refine ⟨out, hok, fun o ho => ?_⟩
  rw [hout o ho, memset0_of_lt ho, zero_add, Finset.filter_ne',
    Xor.sum_range_erase hd fun i => st.block i b o, hrow o ho, zero_add]

/-- RAID5, and RAID4 likewise. -/
theorem Coding4Raid5.readsShort_iff (hd : d < st.diskTotalNum)
    (hrow : ∀ o < size, ∑ i ∈ Finset.range st.diskTotalNum, st.block i b o = 0) :
    ReadsShort Coding4Raid5.decode st {d} junk d b size ↔ LastBytesZero st d b size :=
  readsShort_iff_of_words (Coding4Raid5.decode_words hd hrow)

/-! ### RAID6 -/

/-- Where only `Q` may have failed beside the disk, whole integers are returned, and elsewhere all
bytes. -/
theorem Coding4Raid6.readsShort_iff (hn : 2 ≤ st.diskTotalNum) (hn' : st.diskTotalNum ≤ 10)
    (hd : d ∈ dataDisks st.diskTotalNum b) (hF : F ⊆ Finset.range st.diskTotalNum)
    (hcard : F.card ≤ 2) (hdF : d ∈ F) (hrow : ∀ o < size, Raid6Row st b o) :
    ReadsShort Coding4Raid6.new.decode st F junk d b size ↔
      (F ⊆ {d, codeDiskId st.diskTotalNum b} → LastBytesZero st d b size) := by
  have hwords := @Coding4Raid6.decode_words st F junk d b hn hn' hd hF hcard hdF size hrow
  by_cases hq : ∀ i ∈ F, i = d ∨ i = codeDiskId st.diskTotalNum b
  · have hsub : F ⊆ {d, codeDiskId st.diskTotalNum b} := fun i hi => by simpa using hq i hi
    rw [forall_prop_of_true hsub]
    refine readsShort_iff_of_words fun buf => ?_
    obtain ⟨out, hok, hout⟩ := hwords buf
    exact ⟨out, hok, fun o ho => (hout o ho).trans (if_congr ⟨fun h => h hq, fun h _ => h⟩ rfl rfl)⟩
  · refine iff_of_true (fun buf => ?_) fun hsub => absurd (fun i hi => by simpa using hsub hi) hq
    obtain ⟨out, hok, hout⟩ := hwords buf
    exact ⟨out, hok, fun o ho => (hout o ho).trans (if_pos fun h => absurd h hq)⟩

/-! ### Reed-Solomon -/

/-- Whole integers are returned. -/
theorem Coding4RS.readsShort_iff {J : Jerasure} {matrix : ℕ → ℕ} {k m : ℕ} (hJ : J.Multiplies)
    (hdata : st.dataDiskNum = k) (htotal : st.diskTotalNum = k + m)
    (hrow : ∀ o < size, RsRow matrix st b o) (hF : F ⊆ Finset.range (k + m)) (hcard : F.card ≤ m)
    (hinv : ∀ ids, dmIds k (k + m) (failedFlag F) = .ok ids →
      J.Inverts (survivorRows k matrix ids) k)
    (hdF : d ∈ F) (hd : d < k) :
    ReadsShort (Coding4RS.decode J matrix) st F junk d b size ↔ LastBytesZero st d b size :=
  readsShort_iff_of_words (Coding4RS.decode_words hJ hdata htotal hrow hF hcard hinv hdF hd junk)

end Reads

/-! ### The four codes -/

/-- **Short reads.**  In a row that satisfies its equations let a data disk fail, with others as far
as the code tolerates it.  A degraded read of `size` bytes of its block, for any size up to that of
a block, returns these bytes exactly when those behind the last whole integer are zero; under RAID6
this is asked for only when the disk has failed alone or with `Q`. -/
theorem shortReads_iff (st : NcfsState) (d b size : ℕ) (hsize : size ≤ st.diskBlockSize)
    (junk : ℕ → ℕ → Byte) :
    (RowsZero st → d < st.diskTotalNum →
      (ReadsShort Coding4Raid4.decode st {d} junk d b size ↔ LastBytesZero st d b size) ∧
        (ReadsShort Coding4Raid5.decode st {d} junk d b size ↔ LastBytesZero st d b size)) ∧
    (Raid6Parity st → 2 ≤ st.diskTotalNum → st.diskTotalNum ≤ 10 → d ∈ dataDisks st.diskTotalNum b →
      ∀ F ⊆ Finset.range st.diskTotalNum, F.card ≤ 2 → d ∈ F →
        (ReadsShort Coding4Raid6.new.decode st F junk d b size ↔
          (F ⊆ {d, codeDiskId st.diskTotalNum b} → LastBytesZero st d b size))) ∧
    ∀ (J : Jerasure) (matrix : ℕ → ℕ) (m : ℕ), J.Multiplies → RsParity matrix st →
      st.diskTotalNum = st.dataDiskNum + m → d < st.dataDiskNum →
      ∀ F ⊆ Finset.range st.diskTotalNum, F.card ≤ m → d ∈ F →
        (∀ ids, dmIds st.dataDiskNum st.diskTotalNum (failedFlag F) = .ok ids →
          J.Inverts (survivorRows st.dataDiskNum matrix ids) st.dataDiskNum) →
        (ReadsShort (Coding4RS.decode J matrix) st F junk d b size ↔
          LastBytesZero st d b size) := by
  refine ⟨fun hrows hd => ?_, fun hrows hn hn' hd F hF hcard hdF => ?_,
    fun J matrix m hJ hrows htotal hd F hF hcard hdF hinv => ?_⟩
  · have hrow := fun o (ho : o < size) => hrows b o (ho.trans_le hsize)
    exact ⟨Coding4Raid5.readsShort_iff hd hrow, Coding4Raid5.readsShort_iff hd hrow⟩
  · exact Coding4Raid6.readsShort_iff hn hn' hd hF hcard hdF fun o ho => hrows b o
      (ho.trans_le hsize)
  · rw [htotal] at hF hinv
    exact Coding4RS.readsShort_iff hJ rfl htotal
      (fun o ho => hrows b o (ho.trans_le hsize)) hF hcard hinv hdF hd

/-- A block of eight bytes, the fifth and sixth of which are zero. -/
def wordBlock (o : ℕ) : Byte := Byte.ofNat ([5, 6, 7, 8, 0, 0, 9, 9].getD o 0)

/-- Three disks after a write of this block. -/
def threeWritten (enc : NcfsState → Buf → ℕ → Option (ℕ × ℕ) × NcfsState) : NcfsState :=
  (enc (NcfsState.blank 3 2 8 (by decide) 8) wordBlock 8).2

/-- RAID5 keeps the sums of the rows. -/
theorem rowsZero_raid5 {bs : ℕ} (hbs : 0 < bs) (hwords : bs % sizeofInt = 0) (buf : Buf) :
    RowsZero (Coding4Raid5.encode (NcfsState.blank 3 2 bs hbs 8) buf bs).2 := by
  have hplaced : Placed 3 2 bs (Raid5Data 3) ⟨NcfsState.blank 3 2 bs hbs 8, []⟩ :=
    ⟨rfl, rfl, rfl, List.forall_mem_nil _, List.forall_mem_nil _⟩
  have hop : (StoreOp.encode buf bs).Sized fun size => size ≤ bs := le_refl bs
  have hstep := ((raid5_keeps (by decide) hwords).step hplaced (.of_zero fun _ _ _ => rfl) hop).2
  rwa [storeStep, Served.serve_st] at hstep

theorem rsParity_threeWritten :
    RsParity (fun _ => 1) (threeWritten (Coding4RS.encode .sample fun _ => 1)) := by
  have hplaced : Placed (2 + 1) 2 8 (fun d _ => d < 2) ⟨NcfsState.blank 3 2 8 (by decide) 8, []⟩ :=
    ⟨rfl, rfl, rfl, List.forall_mem_nil _, List.forall_mem_nil _⟩
  have hop : (StoreOp.encode wordBlock 8).Sized fun size => size ≤ 8 := le_refl 8
  have hkeeps := @rs_keeps .sample (fun _ => 1) Jerasure.sample_multiplies
    (fun _ => by decide) 2 1 8
  have hstep := (hkeeps.step hplaced (.of_zero fun _ _ _ => rfl) hop).2
  rwa [storeStep, Served.serve_st] at hstep

/-- After the write of the block its disk fails.  RAID5 and Reed-Solomon return its first six bytes,
of which the last two are zero, but RAID5 not the first three; RAID6 returns the first three, after
the failure of both data disks. -/
theorem shortReads_iff_three :
    ReadsShort Coding4Raid5.decode (threeWritten Coding4Raid5.encode) {0} (fun _ _ => 7) 0 0 6 ∧
      ¬ ReadsShort Coding4Raid5.decode (threeWritten Coding4Raid5.encode) {0} (fun _ _ => 7) 0 0 3 ∧
      ReadsShort (Coding4RS.decode .sample fun _ => 1)
        (threeWritten (Coding4RS.encode .sample fun _ => 1)) {0} (fun _ _ => 7) 0 0 6 ∧
      ∃ s, [StoreOp.encode wordBlock 8].foldlM (raid6Step .new)
          ⟨NcfsState.blank 4 2 8 (by decide) 8, []⟩ = .ok s ∧
        ReadsShort Coding4Raid6.new.decode s.st {0, 1} (fun _ _ => 7) 0 0 3 := by
  have hraid5 :=
    fun size hsize =>
      ((shortReads_iff (threeWritten Coding4Raid5.encode) 0 0 size hsize fun _ _ => 7).1
        (rowsZero_raid5 _ rfl _) (by decide)).2
  refine ⟨(hraid5 6 (by decide)).2 ?_, fun h => ?_, ?_, ?_⟩
  · intro o hint ho
    have hlt : 4 ≤ o := hint
    interval_cases o <;> decide
  · exact absurd ((hraid5 3 (by decide)).1 h 0 (by decide) (by decide)) (by decide)
  · refine ((shortReads_iff (threeWritten (Coding4RS.encode .sample fun _ => 1)) 0 0 6 (by decide)
      fun _ _ => 7).2.2 .sample (fun _ => 1) 1 Jerasure.sample_multiplies rsParity_threeWritten rfl
        (by decide) {0} (by decide) (by decide) (by decide) sample_inverts_first).2
          fun o hint ho => ?_
    have hlt : 4 ≤ o := hint
    interval_cases o <;> decide
  · have hops : ∀ op ∈ [StoreOp.encode wordBlock 8], op.Small 8 := by simp [StoreOp.Small]
    obtain ⟨s, hrun, htotal, hblock, hparity⟩ := @raid6_run_parity 4 8 (by decide) (by decide)
      ⟨NcfsState.blank 4 2 8 (by decide) 8, []⟩ rfl rfl
        (.of_zero (by decide) fun _ _ _ => rfl) _ hops
    refine ⟨s, hrun, ((shortReads_iff s.st 0 0 3 (by omega) fun _ _ => 7).2.1 hparity (by omega)
      (by omega) (by rw [htotal]; decide) {0, 1} (by rw [htotal]; decide) (by decide)
        (by decide)).2 ?_⟩
    rw [htotal]
    exact fun h => absurd h (by decide)

/-- RAID5 with three disks, after a write of a block of fives. -/
def raid5Written : NcfsState :=
  (Coding4Raid5.encode (NcfsState.blank 3 2 4 fourBytes_pos 8) (fun _ => Byte.ofNat 5) 4).2

/-- The first byte of the block is read, and comes back as zero. -/
theorem shortReads_one_byte :
    RowsZero raid5Written ∧ ¬ ReadsShort Coding4Raid5.decode raid5Written {0}
    (fun _ _ => 0) 0 0 1 := by
  have hrows : RowsZero raid5Written := rowsZero_raid5 fourBytes_pos rfl _
  refine ⟨hrows, fun h => ?_⟩
  have hzero := (Coding4Raid5.readsShort_iff (show 0 < 3 by decide)
    fun o ho => hrows 0 o (ho.trans (show 1 < 4 by decide))).1 h
  exact absurd (hzero 0 (by decide) (by decide)) (by decide)

end Ncfs
