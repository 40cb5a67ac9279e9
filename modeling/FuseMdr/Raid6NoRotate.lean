/-
RAID6 without rotation.

The encoder of `coding_raid6_noRotate.cc` keeps `P` and `Q` on the last two disks.  Its `decode` was
taken over from the rotating code: it looks for `P` and `Q` of a row where that code has them.  Both
agree in the rows whose number is a multiple of the number of disks, and in no other row.

Main definitions:

* `Ncfs.Coding4Raid6noRotate.encode`, `Ncfs.Coding4Raid6noRotate.decode` — the two functions;
* `Ncfs.NoRotateEncoded` — a row as a call of `encode` left it;
* `Ncfs.NoRotateReads` — `decode` returns a block of a failed disk as it was stored.

Main results:

* `Ncfs.layoutAgrees_iff` — where both functions mean the same places and coefficients;
* `Ncfs.noRotateReads_of_dvd` — there lost data is read;
* `Ncfs.noRotateReads_iff` — and nowhere else.
-/
import FuseMdr.BlockAllocator
import FuseMdr.Raid6Rebuild

set_option relaxedAutoImplicit false
set_option autoImplicit false

namespace Ncfs

/-! ### The functions -/

/-- The tables of `Coding4Raid6noRotate`, which are computed in the same way. -/
abbrev Coding4Raid6noRotate := Coding4Raid6

/-- The lines of `encode` that compute `data_disk_coeff` for disk `i`, with `code_disk_id` and
`parity_disk_id` the last two disks. -/
def noRotateCoeff (diskTotalNum i : ℕ) : Except CodingError ℕ :=
  let coeff : ℤ := i
  let coeff := if diskTotalNum - 1 < i then coeff - 1 else coeff
  let coeff := if diskTotalNum - 2 < i then coeff - 1 else coeff
  gfGetCoefficient (diskTotalNum - 3 - coeff) fieldPower

/-- The choice of a block among the data disks.  With each block of disk `0` a block of both code
disks is charged. -/
def noRotateAllocate (st : NcfsState) (blockRequest : ℕ) : Option (ℕ × ℕ) × NcfsState :=
  let n := st.diskTotalNum
  let selected := selectDisk st (n - 2) blockRequest
  let st :=
    match selected with
    | some (0, _) =>
        let st := chargeDisk st (n - 2) (st.freeOffset (n - 2)) 1
        chargeDisk st (n - 1) (st.freeOffset (n - 1)) 1
    | _ => st
  takeBlock st selected blockRequest

/-- `Coding4Raid6noRotate::encode`. -/
def Coding4Raid6noRotate.encode (coding : Coding4Raid6noRotate) (st : NcfsState) (buf : Buf)
    (size : ℕ) : Except CodingError (Option (ℕ × ℕ) × NcfsState) :=
  match noRotateAllocate st (blockRequest st size) with
  | (none, st) => .ok (none, st)
  | (some (diskId, blockNo), st) => do
      let n := st.diskTotalNum
      let st ← pqWrite coding st (n - 2) (n - 1) (noRotateCoeff n) diskId blockNo buf size
      .ok (some (diskId, blockNo), st)

/-- `Coding4Raid6noRotate::decode` is word for word `Coding4Raid6::decode`. -/
def Coding4Raid6noRotate.decode (coding : Coding4Raid6noRotate) (st : NcfsState) (diskId : ℕ)
    (buf : Buf) (size offset : ℕ) : Except CodingError Buf :=
  Coding4Raid6.decode coding st diskId buf size offset

/-- Row `b` is as a call of `encode` with a whole block left it. -/
def NoRotateEncoded (st : NcfsState) (b : ℕ) : Prop :=
  ∃ st₀ buf d st₁,
    Coding4Raid6noRotate.encode .new st₀ buf st₀.diskBlockSize = .ok (some (d, b), st₁) ∧
    st₁.diskTotalNum = st.diskTotalNum ∧ st₁.diskBlockSize = st.diskBlockSize ∧
    ∀ i < st.diskTotalNum, ∀ o < st.diskBlockSize, st.block i b o = st₁.block i b o

/-- After the disks of `F` have failed, `decode` returns the whole block `b` of disk `d` as it is
stored. -/
def NoRotateReads (st : NcfsState) (F : Finset ℕ) (junk : ℕ → ℕ → Byte) (d b : ℕ) (buf : Buf) :
    Prop :=
  ∃ out, Coding4Raid6noRotate.decode .new (st.fail F junk) d buf st.diskBlockSize
      (b * st.diskBlockSize) = .ok out ∧
    ∀ o < st.diskBlockSize, out o = st.block d b o

/-- In row `b` the places and coefficients of `decode` are those of `encode`. -/
structure LayoutAgrees (n b : ℕ) : Prop where
  /-- `code_disk_id`. -/
  code_eq : codeDiskId n b = n - 1
  /-- `parity_disk_id`. -/
  parity_eq : parityDiskId n b = n - 2
  /-- The coefficients of the data disks. -/
  coeff_eq : ∀ i < n - 2, dataDiskCoeff n b i = noRotateCoeff n i

/-! ### The two layouts -/

section Layout

variable {n b : ℕ}

theorem codeDiskId_eq_last_iff (hn : 2 ≤ n) : codeDiskId n b = n - 1 ↔ n ∣ b := by
  have hlt := Nat.mod_lt b (show 0 < n by omega)
  rw [codeDiskId, Nat.dvd_iff_mod_eq_zero]
  omega

theorem parityDiskId_of_dvd (hn : 2 ≤ n) (h : n ∣ b) : parityDiskId n b = n - 2 := by
  have hmod := Nat.mod_eq_zero_of_dvd h
  rw [parityDiskId_eq hn, hmod, if_pos (by omega)]
  rfl

/-- Both functions mean the same places and coefficients exactly in the rows whose number is a
multiple of the number of disks. -/
theorem layoutAgrees_iff (hn : 2 ≤ n) : LayoutAgrees n b ↔ n ∣ b := by
  constructor
  · intro h
    exact (codeDiskId_eq_last_iff hn).1 h.code_eq
  · intro h
    have hq := (codeDiskId_eq_last_iff hn).2 h
    have hp := parityDiskId_of_dvd hn h
    refine ⟨hq, hp, fun i _ => ?_⟩
    rw [dataDiskCoeff, noRotateCoeff, hp, hq]

/-- The coefficients of `encode` are those of the rotating code in row `0`. -/
theorem noRotateCoeff_eq (hn : 2 ≤ n) (hn' : n ≤ 10) {i : ℕ} (hi : i < n)
    (huse : i ≠ n - 2 ∧ i ≠ n - 1) : noRotateCoeff n i = .ok (diskCoeff n 0 i).toNat := by
  have hagree := (layoutAgrees_iff hn).2 (dvd_zero n)
  rw [← hagree.coeff_eq i (by omega), dataDiskCoeff_eq hn' (dataPlace_le hn ?_)]
  rw [mem_dataDisks, hagree.code_eq, hagree.parity_eq]
  exact ⟨hi, huse⟩

end Layout

/-! ### A row after a call -/

/-- Byte `o` of row `b` satisfies both equations with `P` and `Q` on the last two disks. -/
def NoRotateRow (st : NcfsState) (b o : ℕ) : Prop :=
  PQ.Row ((Finset.range st.diskTotalNum).filter fun i =>
      i ≠ st.diskTotalNum - 2 ∧ i ≠ st.diskTotalNum - 1)
    (st.diskTotalNum - 2) (st.diskTotalNum - 1) (diskCoeff st.diskTotalNum 0)
      fun d => st.block d b o

theorem noRotateAllocate_same (st : NcfsState) (req : ℕ) :
    SameDevices st (noRotateAllocate st req).2 := by
  rw [noRotateAllocate]
  refine takeBlock_same st ?_ _ req
  split <;> exact ⟨rfl, rfl, rfl, rfl⟩

/-- A call of `encode` on up to ten disks leaves the row of its block with both equations. -/
theorem Coding4Raid6noRotate.encode_spec {st : NcfsState} (hn : 2 ≤ st.diskTotalNum)
    (hn' : st.diskTotalNum ≤ 10) (buf : Buf) {size : ℕ} (hsize : size ≤ st.diskBlockSize) {d b : ℕ}
    (hall : (noRotateAllocate st (blockRequest st size)).1 = some (d, b)) :
    ∃ st', Coding4Raid6noRotate.encode .new st buf size = .ok (some (d, b), st') ∧
      st'.diskTotalNum = st.diskTotalNum ∧ st'.diskBlockSize = st.diskBlockSize ∧
      (∀ o < size, NoRotateRow st' b o) ∧
      ∀ i < st.diskTotalNum - 2, ∀ o < size, st'.block i b o =
        if i = d then buf o else st.block i b o := by
  have hsame := noRotateAllocate_same st (blockRequest st size)
  rw [Coding4Raid6noRotate.encode]
  split
  · rename_i st₁ heq
    rw [heq] at hall
    cases hall
  · rename_i d' b' st₁ heq
    rw [heq] at hall hsame
    obtain ⟨rfl, rfl⟩ := Prod.mk.inj (Option.some.inj hall)
    have htotal : st₁.diskTotalNum = st.diskTotalNum := hsame.total_eq
    rw [← htotal] at hn hn'
    obtain ⟨st', hwrite, hwritten⟩ := @pqWrite_spec st₁ _ _
      (show st₁.diskTotalNum - 2 ≠ st₁.diskTotalNum - 1 by omega) (noRotateCoeff st₁.diskTotalNum)
      (diskCoeff st₁.diskTotalNum 0) (fun i hi huse => noRotateCoeff_eq hn hn' hi huse) d'
        b' buf size
      (hsize.trans_eq hsame.block_eq.symm)
    have htotal' : st'.diskTotalNum = st₁.diskTotalNum := by rw [hwritten.eq_disk]
    refine ⟨st', ?_, htotal'.trans htotal, ?_, fun o ho => ?_, fun i hi o ho => ?_⟩
    · simp only [hwrite]
      rfl
    · rw [hwritten.eq_disk]
      exact hsame.block_eq
    · rw [NoRotateRow, htotal']
      exact hwritten.row o ho
    · rw [hwritten.data i
        (Finset.mem_filter.2 ⟨Finset.mem_range.2 (by omega), by omega, by omega⟩) o ho, hsame.block]

/-- A row that `encode` left satisfies its equations. -/
theorem NoRotateEncoded.row {st : NcfsState} {b : ℕ} (hn : 2 ≤ st.diskTotalNum)
    (hn' : st.diskTotalNum ≤ 10) (h : NoRotateEncoded st b) :
    ∀ o < st.diskBlockSize, NoRotateRow st b o := by
  obtain ⟨st₀, buf, d, st₁, henc, htotal, hblock, hrow⟩ := h
  have hall : (noRotateAllocate st₀ (blockRequest st₀ st₀.diskBlockSize)).1 = some (d, b) ∧
      st₁.diskTotalNum = st₀.diskTotalNum := by
    rw [Coding4Raid6noRotate.encode] at henc
    have hsame := noRotateAllocate_same st₀ (blockRequest st₀ st₀.diskBlockSize)
    split at henc
    · cases henc
    · rename_i d' b' st₂ heq
      rw [heq] at hsame ⊢
      cases hwrite : pqWrite .new st₂ (st₂.diskTotalNum - 2) (st₂.diskTotalNum - 1)
          (noRotateCoeff st₂.diskTotalNum) d' b' buf st₀.diskBlockSize with
      | error e =>
          simp only [hwrite] at henc
          cases henc
      | ok st₃ =>
          simp only [hwrite] at henc
          cases henc
          rw [pqWrite_ok hwrite]
          exact ⟨rfl, hsame.total_eq⟩
  intro o ho
  have hn₀ : st.diskTotalNum = st₀.diskTotalNum := htotal.symm.trans hall.2
  obtain ⟨st', henc', -, hblock', hrow', -⟩ := Coding4Raid6noRotate.encode_spec (hn₀ ▸ hn)
    (hn₀ ▸ hn') buf le_rfl hall.1
  obtain ⟨-, rfl⟩ := Prod.mk.inj (Except.ok.inj (henc.symm.trans henc'))
  have hrow' := hrow' o (by rw [← hblock', hblock]; exact ho)
  rw [NoRotateRow, htotal] at hrow'
  exact hrow'.congr (hrow _ (by omega) o ho) (hrow _ (by omega) o ho)
    fun i hi => hrow i (Finset.mem_range.1 (Finset.mem_filter.1 hi).1) o ho

/-! ### Reading a lost block -/

section Reads

variable {st : NcfsState} {b d : ℕ}

/-- In a row whose number is a multiple of the number of disks the equations are those that `decode`
solves. -/
theorem NoRotateRow.raid6Row {o : ℕ} (hn : 2 ≤ st.diskTotalNum) (hdvd : st.diskTotalNum ∣ b)
    (h : NoRotateRow st b o) : Raid6Row st b o := by
  have hq := (codeDiskId_eq_last_iff hn).2 hdvd
  have hp := parityDiskId_of_dvd hn hdvd
  have hagree := (layoutAgrees_iff hn).2 (dvd_zero st.diskTotalNum)
  have hcoeff : diskCoeff st.diskTotalNum b = diskCoeff st.diskTotalNum 0 := by
    funext i
    rw [diskCoeff, diskCoeff, dataPlace, dataPlace, hq, hp, hagree.code_eq, hagree.parity_eq]
  rw [Raid6Row, dataDisks, hq, hp, hcoeff]
  exact h

/-- There lost data is read. -/
theorem noRotateReads_of_dvd (hn : 2 ≤ st.diskTotalNum) (hn' : st.diskTotalNum ≤ 10)
    (hdvd : st.diskTotalNum ∣ b) (hint : st.diskBlockSize % sizeofInt = 0)
    (hrow : ∀ o < st.diskBlockSize, NoRotateRow st b o) (hd : d < st.diskTotalNum - 2)
    {F : Finset ℕ} (hF : F ⊆ Finset.range st.diskTotalNum) (hcard : F.card ≤ 2) (hdF : d ∈ F)
    (junk : ℕ → ℕ → Byte) (buf : Buf) : NoRotateReads st F junk d b buf := by
  refine Coding4Raid6.decode_data hn hn' (mem_dataDisks.2 ⟨by omega, ?_, ?_⟩) hF hcard hdF hint
    (fun o ho => (hrow o ho).raid6Row hn hdvd) buf
  · rw [parityDiskId_of_dvd hn hdvd]
    omega
  · rw [(codeDiskId_eq_last_iff hn).2 hdvd]
    omega

/-- All blocks of a row add up to `Q`. -/
theorem NoRotateRow.sum_eq {o : ℕ} (hn : 2 ≤ st.diskTotalNum) (h : NoRotateRow st b o) :
    ∑ i ∈ Finset.range st.diskTotalNum, st.block i b o = st.block (st.diskTotalNum - 1) b o := by
  obtain ⟨m, hm⟩ : ∃ m, st.diskTotalNum = m + 2 := ⟨st.diskTotalNum - 2, by omega⟩
  have hp := h.p_eq
  have hdata : (Finset.range (m + 2)).filter (fun i => i ≠ m ∧ i ≠ m + 1) = Finset.range m := by
    ext i
    simp only [Finset.mem_filter, Finset.mem_range]
    omega
  rw [hm] at hp ⊢
  simp only [Nat.add_sub_cancel, show m + 2 - 1 = m + 1 from rfl, hdata] at hp ⊢
  rw [Finset.sum_range_succ, Finset.sum_range_succ, ← hp, CharTwo.add_self_eq_zero, zero_add]

/-- A single lost block that lies elsewhere than `Q` of the rotating code is read exactly when that
code's `Q` block and the real one are the same, and the last bytes are zero. -/
theorem noRotateReads_singleton_iff (hn : 2 ≤ st.diskTotalNum)
    (hrow : ∀ o < st.diskBlockSize, NoRotateRow st b o) (hd : d < st.diskTotalNum)
    (hdq : d ≠ codeDiskId st.diskTotalNum b) (junk : ℕ → ℕ → Byte) (buf : Buf) :
    NoRotateReads st {d} junk d b buf ↔ ∀ o < st.diskBlockSize,
      if o < intBytes st.diskBlockSize then
        st.block (st.diskTotalNum - 1) b o = st.block (codeDiskId st.diskTotalNum b) b o
      else st.block d b o = 0 := by
  have hok := @decode_fail_singleton st junk d b hd buf st.diskBlockSize
  obtain ⟨out, hout, hout'⟩ := @xorSurvivors_fail st {d} junk b
    (fun i => i ≠ d ∧ i ≠ codeDiskId st.diskTotalNum b) _
    (fun i _ h hi => h.1 (Finset.mem_singleton.1 hi))
      (memset0 buf st.diskBlockSize) st.diskBlockSize
  rw [if_pos hdq, hout] at hok
  have hsum : ∀ o < st.diskBlockSize, ∑ i ∈ (Finset.range st.diskTotalNum).filter
      (fun i => i ≠ d ∧ i ≠ codeDiskId st.diskTotalNum b), st.block i b o =
      st.block (st.diskTotalNum - 1) b o + st.block d b o +
        st.block (codeDiskId st.diskTotalNum b) b o := by
    intro o ho
    have herase : (Finset.range st.diskTotalNum).filter
        (fun i => i ≠ d ∧ i ≠ codeDiskId st.diskTotalNum b) =
        ((Finset.range st.diskTotalNum).erase d).erase (codeDiskId st.diskTotalNum b) := by
      ext i
      simp only [Finset.mem_filter, Finset.mem_erase]
      tauto
    have hq : codeDiskId st.diskTotalNum b ∈ (Finset.range st.diskTotalNum).erase d :=
      Finset.mem_erase.2 ⟨Ne.symm hdq, Finset.mem_range.2 (codeDiskId_lt (by omega))⟩
    rw [herase, PQ.sum_erase hq, PQ.sum_erase (Finset.mem_range.2 hd), (hrow o ho).sum_eq hn]
  refine (readsBlock_iff hok).trans (forall₂_congr fun o ho => ?_)
  rw [hout' o ho, memset0_of_lt ho, zero_add]
  split
  · rw [hsum o ho, add_right_comm, add_eq_right, CharTwo.add_eq_zero]
  · exact eq_comm

end Reads

/-! ### Where nothing else can be read -/

/-- A store before a call that takes block `b` of disk `0`: all its bytes are `v`. -/
def noRotateBefore (n b bs : ℕ) (hbs : 0 < bs) (v : Byte) : NcfsState :=
  { NcfsState.blank n (n - 2) bs hbs 1 with
    freeOffset := fun _ => b
    disk := fun _ _ => v }

/-- That call fills block `b` of disk `0` with ones. -/
theorem exists_noRotateEncoded {n bs : ℕ} (hn : 4 ≤ n) (hn' : n ≤ 10) (hbs : 0 < bs) (b : ℕ)
    (v : Byte) :
    ∃ st, st.diskTotalNum = n ∧ st.diskBlockSize = bs ∧ NoRotateEncoded st b ∧
      (∀ o < bs, NoRotateRow st b o) ∧
      ∀ i < n - 2, ∀ o < bs, st.block i b o = if i = 0 then 1 else v := by
  have hreq : blockRequest (noRotateBefore n b bs hbs v) bs = 1 := by
    rw [blockRequest_eq _ (show bs ≤ (noRotateBefore n b bs hbs v).diskBlockSize from le_rfl),
      if_neg (by omega)]
  have hselect : selectDisk (noRotateBefore n b bs hbs v) (n - 2) 1 = some (0, b) := by
    rw [selectDisk_eq_scan, Frontier.scan_eq_some (show 0 < n - 2 by omega) (le_refl (1 : ℤ))
      (fun _ _ => le_rfl) fun i hi => absurd hi (Nat.not_lt_zero i)]
    rfl
  have hall : (noRotateAllocate (noRotateBefore n b bs hbs v)
      (blockRequest (noRotateBefore n b bs hbs v) bs)).1 = some (0, b) := by
    rw [hreq, noRotateAllocate]
    change (takeBlock _ (selectDisk (noRotateBefore n b bs hbs v) (n - 2) 1) 1).1 = _
    rw [hselect]
    rfl
  obtain ⟨st, henc, htotal, hblock, hrow, hdata⟩ := @Coding4Raid6noRotate.encode_spec
    (noRotateBefore n b bs hbs v) (show 2 ≤ n by omega) hn' (fun _ => 1) bs le_rfl 0 b hall
  exact ⟨st, htotal, hblock, ⟨_, _, 0, st, henc, rfl, rfl, fun _ _ _ _ => rfl⟩, hrow, hdata⟩

/-- The first coefficient is neither zero nor one. -/
theorem diskCoeff_zero_ne_one {n : ℕ} (hn : 4 ≤ n) (hn' : n ≤ 10) : diskCoeff n 0 0 ≠ 1 := by
  intro h
  have hbyte := toNat_diskCoeff (b := 0) hn' 0
  have hone : (1 : Byte).toNat = 1 := rfl
  have hplace : dataPlace n 0 0 = 0 := by simp [dataPlace]
  rw [h, hone, hplace] at hbyte
  have := Nat.one_lt_two_pow (show n - 3 - 0 ≠ 0 by omega)
  omega

/-- **What `decode` reads.**  Both functions use the same places and coefficients exactly in the
rows whose number is a multiple of the number of disks; and `decode` returns all lost data of a row,
whatever was written, exactly in these rows, with blocks of whole integers. -/
theorem noRotateReads_iff {n bs : ℕ} (hn : 4 ≤ n) (hn' : n ≤ 10) (hbs : 0 < bs) (b : ℕ) :
    (LayoutAgrees n b ↔ n ∣ b) ∧
    ((∀ st : NcfsState, st.diskTotalNum = n → st.diskBlockSize = bs → NoRotateEncoded st b →
      ∀ d < n - 2, ∀ F ⊆ Finset.range n, F.card ≤ 2 → d ∈ F → ∀ junk buf,
        NoRotateReads st F junk d b buf) ↔
      n ∣ b ∧ bs % sizeofInt = 0) := by
  refine ⟨layoutAgrees_iff (by omega), fun h => ?_, fun ⟨hdvd, hint⟩ => ?_⟩
  · -- a data disk that the rotating code does not take for `Q`
    obtain ⟨d, hd, hdq⟩ : ∃ d < n - 2, d ≠ codeDiskId n b := by
      by_cases hq : codeDiskId n b = 0
      · exact ⟨1, by omega, by omega⟩
      · exact ⟨0, by omega, Ne.symm hq⟩
    have hread : ∀ v : Byte, ∃ st, st.diskTotalNum = n ∧ st.diskBlockSize = bs ∧
        (∀ o < bs, NoRotateRow st b o) ∧
        (∀ i < n - 2, ∀ o < bs, st.block i b o = if i = 0 then 1 else v) ∧
        ∀ o < bs, if o < intBytes bs then st.block (n - 1) b o = st.block (codeDiskId n b) b o
          else st.block d b o = 0 := by
      intro v
      obtain ⟨st, rfl, rfl, hencoded, hrow, hdata⟩ := exists_noRotateEncoded hn hn' hbs b v
      refine ⟨st, rfl, rfl, hrow, hdata, ?_⟩
      refine (noRotateReads_singleton_iff (by omega) hrow (by omega) hdq (fun _ _ => 0)
        fun _ => 0).1 (h st rfl rfl hencoded d hd {d} ?_ ?_ (Finset.mem_singleton_self d) _ _)
      · exact Finset.singleton_subset_iff.2 (Finset.mem_range.2 (by omega))
      · rw [Finset.card_singleton]
        decide
    have hint : bs % sizeofInt = 0 := by
      -- the byte behind the last whole integer, in a row of ones
      by_contra hne
      obtain ⟨st, -, -, -, hdata, hbytes⟩ := hread 1
      have htail : intBytes bs < bs := by
        simp only [intBytes, sizeofInt] at hne ⊢
        omega
      have hzero := hbytes (intBytes bs) htail
      rw [if_neg (lt_irrefl _), hdata d hd _ htail, ite_self] at hzero
      exact one_ne_zero hzero
    refine ⟨?_, hint⟩
    by_contra hdvd
    obtain ⟨st, hst, -, hrow, hdata, hbytes⟩ := hread 0
    have hbyte := hbytes 0 hbs
    have hrow := hrow 0 hbs
    have hp := hrow.p_eq
    have hq := hrow.q_eq
    rw [hst] at hp hq
    -- the row has a single one, on disk `0`
    have hsingle : ∀ i ∈ (Finset.range n).filter (fun i => i ≠ n - 2 ∧ i ≠ n - 1), i ≠ 0 →
        st.block i b 0 = 0 := by
      intro i hi hi0
      obtain ⟨hi, hip, hiq⟩ := Finset.mem_filter.1 hi
      rw [hdata i (by have := Finset.mem_range.1 hi; omega) 0 hbs, if_neg hi0]
    have hfirst : (0 : ℕ) ∈ (Finset.range n).filter (fun i => i ≠ n - 2 ∧ i ≠ n - 1) :=
      Finset.mem_filter.2 ⟨Finset.mem_range.2 (by omega), by omega, by omega⟩
    have hone : st.block 0 b 0 = 1 := hdata 0 (by omega) 0 hbs
    rw [Finset.sum_eq_single_of_mem 0 hfirst hsingle, hone] at hp
    rw [Finset.sum_eq_single_of_mem 0 hfirst fun i hi hi0 => by rw [hsingle i hi hi0, mul_zero],
      hone, mul_one] at hq
    rw [if_pos (by rw [intBytes_eq hint]; exact hbs), hq] at hbyte
    have hqn : codeDiskId n b ≠ n - 1 := fun hq => hdvd ((codeDiskId_eq_last_iff (by omega)).1 hq)
    have hqlt : codeDiskId n b < n := codeDiskId_lt (by omega)
    by_cases hqp : codeDiskId n b = n - 2
    · rw [hqp, hp] at hbyte
      exact diskCoeff_zero_ne_one hn hn' hbyte
    · rw [hdata _ (by omega) 0 hbs] at hbyte
      split at hbyte
      · exact diskCoeff_zero_ne_one hn hn' hbyte
      · exact diskCoeff_ne_zero hn' 0 hbyte
  · rintro st rfl rfl hencoded d hd F hF hcard hdF junk buf
    exact noRotateReads_of_dvd (by omega) hn' hdvd hint
      (hencoded.row (by omega) hn') hd hF hcard hdF junk buf

theorem noRotateReads_iff_four :
    (LayoutAgrees 4 1 ↔ 4 ∣ 1) ∧
    ((∀ st : NcfsState, st.diskTotalNum = 4 → st.diskBlockSize = 4 → NoRotateEncoded st 1 →
      ∀ d < 4 - 2, ∀ F ⊆ Finset.range 4, F.card ≤ 2 → d ∈ F → ∀ junk buf,
        NoRotateReads st F junk d 1 buf) ↔
      4 ∣ 1 ∧ 4 % sizeofInt = 0) :=
  noRotateReads_iff le_rfl (by decide) (by decide) 1

/-- Four disks with blocks of four bytes after two writes, which fill row `0`. -/
def noRotateSample : Except CodingError NcfsState := do
  let st := NcfsState.blank 4 2 4 fourBytes_pos 8
  let (_, st) ← Coding4Raid6noRotate.encode .new st (fun _ => Byte.ofNat 5) 4
  let (_, st) ← Coding4Raid6noRotate.encode .new st (fun _ => Byte.ofNat 6) 4
  .ok st

/-- A third write puts ones in row `1` of disk `0`.  When that disk alone has failed, `decode`
returns twos for them. -/
theorem noRotateReads_broken : ∃ st₀ st, noRotateSample = .ok st₀ ∧
    Coding4Raid6noRotate.encode .new st₀ (fun _ => Byte.ofNat 1) 4 = .ok (some (0, 1), st) ∧
    NoRotateEncoded st 1 ∧ ¬ NoRotateReads st {0} (fun _ _ => 0) 0 1 fun _ => 0 := by
  have h : (noRotateSample >>= fun st₀ =>
      (Coding4Raid6noRotate.encode .new st₀ (fun _ => Byte.ofNat 1) 4).bind fun r =>
        (Coding4Raid6noRotate.decode .new (r.2.fail {0} fun _ _ => 0) 0 (fun _ => 0) 4 (1 * 4)).map
          fun out => (st₀.diskBlockSize, r.1, r.2.diskBlockSize, out 0, r.2.block 0 1 0)) =
      .ok (4, some (0, 1), 4, Byte.ofNat 2, Byte.ofNat 1) := by decide +kernel
  cases hst₀ : noRotateSample with
  | error e =>
      rw [hst₀] at h
      cases h
  | ok st₀ =>
      rw [hst₀, Loops.ok_bind] at h
      cases hst : Coding4Raid6noRotate.encode .new st₀ (fun _ => Byte.ofNat 1) 4 with
      | error e =>
          rw [hst] at h
          cases h
      | ok r =>
          obtain ⟨served, st⟩ := r
          rw [hst] at h
          cases hout : Coding4Raid6noRotate.decode .new (st.fail {0} fun _ _ => 0) 0 (fun _ => 0) 4
              (1 * 4) with
          | error e =>
              simp only [Except.bind, hout] at h
              cases h
          | ok out =>
              simp only [Except.bind, hout, Except.map, Except.ok.injEq, Prod.mk.injEq] at h
              obtain ⟨hbs₀, rfl, hbs, htwo, hone⟩ := h
              refine ⟨st₀, st, rfl, hst, ⟨st₀, fun _ => Byte.ofNat 1, 0, st, ?_, rfl, rfl,
                fun _ _ _ _ => rfl⟩, ?_⟩
              · rw [hbs₀]
                exact hst
              · rintro ⟨out', hok, hread⟩
                rw [hbs] at hok hread
                obtain rfl := Except.ok.inj (hout.symm.trans hok)
                have := hread 0 (by decide)
                rw [htwo, hone] at this
                exact absurd this (by decide)

end Ncfs
