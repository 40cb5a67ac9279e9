/-
Reading the code blocks of a failed disk under RAID6.

The recovery of a replaced disk reads its `P` and `Q` blocks through `decode` too.  When `P` and a
block of data are lost, `decode` first finds the data from `Q` and then adds up the row, but it
divides the lost term by the coefficient of the disk that was asked for, which has no place among
the data disks.  Moreover the loops over whole integers leave the last bytes of a block out when its
length is not a multiple of the size of an integer.

Main definitions:

* `Ncfs.RowEncoded` — a row as a call of `encode` left it;
* `Ncfs.ReadsBlock` — `decode` returns a block of a failed disk as it was stored;
* `Ncfs.CodeReadable` — the condition under which it does, for `P` and `Q` and two failed disks.

Main results:

* `Ncfs.decode_code_data_iff`, `Ncfs.decode_parity_data_iff` — the two ways with a lost block of
  data;
* `Ncfs.decode_codeBlock_iff` — `decode` returns a code block exactly under the condition;
* `Ncfs.decode_codeBlock_broken` — a lost `P` block that comes back wrong.
-/
import FuseMdr.Raid6Decode

set_option relaxedAutoImplicit false
set_option autoImplicit false

namespace Ncfs

/-- Row `b` is as a call of `encode` with a whole block left it. -/
def RowEncoded (st : NcfsState) (b : ℕ) : Prop :=
  ∃ st₀ buf d st₁, Coding4Raid6.new.encode st₀ buf st₀.diskBlockSize = .ok (some (d, b), st₁) ∧
    st₁.diskTotalNum = st.diskTotalNum ∧ st₁.diskBlockSize = st.diskBlockSize ∧
    ∀ i < st.diskTotalNum, ∀ o < st.diskBlockSize, st.block i b o = st₁.block i b o

/-- After the disks of `F` have failed, `decode` returns the whole block `b` of disk `d` as it is
stored. -/
def ReadsBlock (st : NcfsState) (F : Finset ℕ) (junk : ℕ → ℕ → Byte) (d b : ℕ) (buf : Buf) : Prop :=
  ∃ out, Coding4Raid6.new.decode (st.fail F junk) d buf st.diskBlockSize (b * st.diskBlockSize) =
      .ok out ∧
    ∀ o < st.diskBlockSize, out o = st.block d b o

/-- The bytes of a block behind its last whole integer are zero. -/
def TailZero (st : NcfsState) (d b : ℕ) : Prop :=
  ∀ o, intBytes st.diskBlockSize ≤ o → o < st.diskBlockSize → st.block d b o = 0

/-- When the lost `P` block of row `b` can be read although the data disk `f` has failed: `P` is not
at either end of the disks, the coefficient of `f` is the one that is divided by, or its whole
integers are zero, and the last bytes agree by chance. -/
structure ParityReadable (st : NcfsState) (b f : ℕ) : Prop where
  /-- The exponent of `P` is not negative. -/
  row : 1 ≤ b % st.diskTotalNum ∧ b % st.diskTotalNum + 1 < st.diskTotalNum
  /-- The disk behind `Q` has the coefficient that is used for `P`. -/
  ints : f = codeDiskId st.diskTotalNum b + 1 ∨
    ∀ o < intBytes st.diskBlockSize, st.block f b o = 0
  /-- The last bytes are not added up. -/
  tail : ∀ o, intBytes st.diskBlockSize ≤ o → o < st.diskBlockSize →
    diskCoeff st.diskTotalNum b f * st.block f b o =
      diskCoeff st.diskTotalNum b (parityDiskId st.diskTotalNum b) *
        st.block (parityDiskId st.diskTotalNum b) b o

/-- The condition on a row with two failed disks: the one that is asked for, `a`, holds `P` or
`Q`. -/
def CodeReadable (st : NcfsState) (b a f : ℕ) : Prop :=
  if a = codeDiskId st.diskTotalNum b then f = parityDiskId st.diskTotalNum b ∨ TailZero st f b
  else if f = codeDiskId st.diskTotalNum b then TailZero st a b
  else ParityReadable st b f

/-! ### The row -/

/-- A row that `encode` left satisfies its equations. -/
theorem RowEncoded.row {st : NcfsState} {b : ℕ} (hn : 3 ≤ st.diskTotalNum)
    (hn' : st.diskTotalNum ≤ 10) (h : RowEncoded st b) :
    ∀ o < st.diskBlockSize, Raid6Row st b o := by
  obtain ⟨st₀, buf, d, st₁, henc, htotal, hblock, hrow⟩ := h
  intro o ho
  have hn₀ : st.diskTotalNum = st₀.diskTotalNum := by
    rw [← htotal, (Coding4Raid6.encode_ok henc).2]
    exact (raid6Allocate_same st₀ _).total_eq
  obtain ⟨served, st', henc', hspec⟩ := Coding4Raid6.encode_spec (hn₀ ▸ hn) (hn₀ ▸ hn') buf le_rfl
  obtain ⟨rfl, rfl⟩ := Prod.mk.inj (Except.ok.inj (henc.symm.trans henc'))
  refine (hspec.row d b rfl o ?_).congr htotal.symm (by omega) fun i hi => hrow i (by omega) o ho
  rw [← hspec.block_eq, hblock]
  exact ho

section Places

variable {n b f : ℕ}

/-- At either end of the disks the exponent of `P` is negative. -/
theorem dataDiskCoeff_parity (hn : 3 ≤ n) (h : ¬ (1 ≤ b % n ∧ b % n + 1 < n)) :
    dataDiskCoeff n b (parityDiskId n b) = .error .undefined := by
  have hlt := Nat.mod_lt b (show 0 < n by omega)
  have hp := parityDiskId_eq (b := b) (show 2 ≤ n by omega)
  have hq : codeDiskId n b = n - 1 - b % n := rfl
  rw [dataDiskCoeff_eq_shift (by omega), gfGetCoefficient, if_pos]
  left
  rw [dataPlace]
  split at hp <;> split <;> split <;> omega

theorem dataPlace_parity_le (h : 1 ≤ b % n ∧ b % n + 1 < n) :
    dataPlace n b (parityDiskId n b) + 3 ≤ n := by
  have hp := parityDiskId_eq (b := b) (show 2 ≤ n by omega)
  rw [if_pos h.2] at hp
  rw [dataPlace]
  split <;> omega

/-- Only the disk behind `Q` has the place that is computed for `P`. -/
theorem dataPlace_eq_parity_iff (h : 1 ≤ b % n ∧ b % n + 1 < n) (hf : f ∈ dataDisks n b) :
    dataPlace n b f = dataPlace n b (parityDiskId n b) ↔ f = codeDiskId n b + 1 := by
  have hp := parityDiskId_eq (b := b) (show 2 ≤ n by omega)
  rw [if_pos h.2] at hp
  have hq : codeDiskId n b = n - 1 - b % n := rfl
  obtain ⟨-, hfp, hfq⟩ := mem_dataDisks.1 hf
  rw [dataPlace, dataPlace]
  split <;> split <;> split <;> split <;> omega

end Places

/-! ### The four ways -/

theorem readsBlock_iff {st : NcfsState} {F : Finset ℕ} {junk : ℕ → ℕ → Byte} {d b : ℕ}
    {buf out : Buf} (h : Coding4Raid6.new.decode (st.fail F junk) d buf st.diskBlockSize
      (b * st.diskBlockSize) = .ok out) :
    ReadsBlock st F junk d b buf ↔ ∀ o < st.diskBlockSize, out o = st.block d b o := by
  constructor
  · rintro ⟨out', hok, hout⟩
    obtain rfl := Except.ok.inj (h.symm.trans hok)
    exact hout
  · intro hout
    exact ⟨out, h, hout⟩

section Ways

variable {st : NcfsState} {b f : ℕ} {junk : ℕ → ℕ → Byte}
variable (hn : 3 ≤ st.diskTotalNum) (hn' : st.diskTotalNum ≤ 10)
variable (hrow : ∀ o < st.diskBlockSize, Raid6Row st b o)
include hn hn' hrow

/-- `Q` with `P`: it is computed from the data. -/
theorem decode_code_parity (buf : Buf) :
    ReadsBlock st {codeDiskId st.diskTotalNum b, parityDiskId st.diskTotalNum b} junk
      (codeDiskId st.diskTotalNum b) b buf := by
  have hpq : parityDiskId st.diskTotalNum b ≠ codeDiskId st.diskTotalNum b :=
    parityDiskId_ne_codeDiskId (by omega)
  have hok := decode_fail_pair (codeDiskId_lt (by omega))
    (parityDiskId_lt (by omega)) hpq junk b buf st.diskBlockSize
  rw [if_neg hpq, if_pos ⟨rfl, rfl⟩,
    @codeOfData_eq (st.fail _ junk) b st.diskBlockSize (show 2 ≤ st.diskTotalNum by omega) hn']
      at hok
  refine (readsBlock_iff hok).2 fun o ho => ?_
  rw [xorBuf_of_lt _ _ ho, memset0_of_lt ho, zero_add, (hrow o ho).q_eq]
  refine Finset.sum_congr rfl fun i hi => ?_
  obtain ⟨-, hip, hiq⟩ := mem_dataDisks.1 hi
  rw [fail_diskTotalNum, readDisk_fail (by simp [hip, hiq]) ho]

/-- `Q` with a block of data: that block is found first, without its last bytes. -/
theorem decode_code_data_iff (hf : f ∈ dataDisks st.diskTotalNum b) (buf : Buf) :
    ReadsBlock st {codeDiskId st.diskTotalNum b, f} junk (codeDiskId st.diskTotalNum b) b buf ↔
      TailZero st f b := by
  obtain ⟨hfn, hfp, hfq⟩ := mem_dataDisks.1 hf
  have hpq : parityDiskId st.diskTotalNum b ≠ codeDiskId st.diskTotalNum b :=
    parityDiskId_ne_codeDiskId (by omega)
  obtain ⟨data, hdata, hdata'⟩ := @xorSurvivors_fail st {codeDiskId st.diskTotalNum b, f} junk b
    (fun i => i ≠ codeDiskId st.diskTotalNum b ∧ i ≠ f) _
    (fun i _ h hi => by simp [h.1, h.2] at hi) (memset0 buf st.diskBlockSize) st.diskBlockSize
  have hok := decode_fail_pair (codeDiskId_lt (by omega)) hfn hfq junk b buf st.diskBlockSize
  rw [if_neg hfq, if_neg (fun h => hfp h.2), if_neg (Ne.symm hpq), if_pos rfl, hdata, Loops.ok_bind,
    @codeOfData_eq (st.fail _ junk) b st.diskBlockSize (show 2 ≤ st.diskTotalNum by omega) hn',
    Loops.ok_bind, fail_diskTotalNum] at hok
  -- what is found of the lost block: its whole integers
  have hlost : ∀ o < st.diskBlockSize, data o =
      if o < intBytes st.diskBlockSize then st.block f b o else 0 := by
    intro o ho
    rw [hdata' o ho, memset0_of_lt ho, zero_add, ← sum_survivors (by omega) (hrow o ho) hf]
    simp only [and_comm]
  have hterm : ∀ o < st.diskBlockSize, ∑ i ∈ dataDisks st.diskTotalNum b,
      diskCoeff st.diskTotalNum b i * (if i ≠ f then readDisk
        (st.fail {codeDiskId st.diskTotalNum b, f} junk) i (fun _ => 0) st.diskBlockSize
          (b * st.diskBlockSize) else data) o =
      st.block (codeDiskId st.diskTotalNum b) b o +
        diskCoeff st.diskTotalNum b f * (st.block f b o + data o) := by
    intro o ho
    have hrest : ∑ i ∈ (dataDisks st.diskTotalNum b).erase f, diskCoeff st.diskTotalNum b i *
        (if i ≠ f then readDisk (st.fail {codeDiskId st.diskTotalNum b, f} junk) i (fun _ => 0)
          st.diskBlockSize (b * st.diskBlockSize) else data) o =
        ∑ i ∈ (dataDisks st.diskTotalNum b).erase f,
        diskCoeff st.diskTotalNum b i * st.block i b o := by
      refine Finset.sum_congr rfl fun i hi => ?_
      obtain ⟨hif, hi⟩ := Finset.mem_erase.1 hi
      obtain ⟨-, -, hiq⟩ := mem_dataDisks.1 hi
      rw [if_pos hif, readDisk_fail (by simp [hif, hiq]) ho]
    rw [← Finset.add_sum_erase _ _ hf, hrest, if_neg (not_not.2 rfl)]
    linear_combination (hrow o ho).term_of_q hf -
      st.block (codeDiskId st.diskTotalNum b) b o * (CharTwo.two_eq_zero : (2 : Byte) = 0)
  have hread : ∀ o < st.diskBlockSize, data o = st.block f b o ↔
      copyBufAt 0 st.diskBlockSize data (xorBuf st.diskBlockSize (fun _ => 0) fun j =>
        ∑ i ∈ dataDisks st.diskTotalNum b, diskCoeff st.diskTotalNum b i *
          (if i ≠ f then readDisk (st.fail {codeDiskId st.diskTotalNum b, f} junk) i (fun _ => 0)
            st.diskBlockSize (b * st.diskBlockSize) else data) j) o =
        st.block (codeDiskId st.diskTotalNum b) b o := by
    intro o ho
    rw [copyBufAt, if_pos ⟨Nat.zero_le o, by omega⟩, Nat.sub_zero, xorBuf_of_lt _ _ ho, zero_add,
      hterm o ho, add_eq_left, mul_eq_zero, or_iff_right (diskCoeff_ne_zero hn' f),
      CharTwo.add_eq_zero, eq_comm]
  refine (readsBlock_iff hok).trans ?_
  constructor
  · intro h o hle ho
    rw [← (hread o ho).2 (h o ho), hlost o ho, if_neg (by omega)]
  · intro h o ho
    refine (hread o ho).1 ?_
    rw [hlost o ho]
    split
    · rfl
    · exact (h o (by omega) ho).symm

/-- `P` with `Q`: the sum of the data, without its last bytes. -/
theorem decode_parity_code_iff (buf : Buf) :
    ReadsBlock st {parityDiskId st.diskTotalNum b, codeDiskId st.diskTotalNum b} junk
      (parityDiskId st.diskTotalNum b) b buf ↔ TailZero st (parityDiskId st.diskTotalNum b) b := by
  have hpq : parityDiskId st.diskTotalNum b ≠ codeDiskId st.diskTotalNum b :=
    parityDiskId_ne_codeDiskId (by omega)
  obtain ⟨out, hout, hout'⟩ := @xorSurvivors_fail st
    {parityDiskId st.diskTotalNum b, codeDiskId st.diskTotalNum b} junk b
    (fun i => i ≠ parityDiskId st.diskTotalNum b ∧ i ≠ codeDiskId st.diskTotalNum b) _
    (fun i _ h hi => by simp [h.1, h.2] at hi) (memset0 buf st.diskBlockSize) st.diskBlockSize
  have hok := decode_fail_pair (parityDiskId_lt (by omega)) (codeDiskId_lt (by omega)) (Ne.symm hpq)
    junk b buf st.diskBlockSize
  rw [if_pos rfl, hout] at hok
  have hsum : ∀ o < st.diskBlockSize, out o = if o < intBytes st.diskBlockSize then
      st.block (parityDiskId st.diskTotalNum b) b o else 0 := by
    intro o ho
    rw [hout' o ho, memset0_of_lt ho, zero_add, (hrow o ho).p_eq]
    rfl
  refine (readsBlock_iff hok).trans ⟨fun h o hle ho => ?_, fun h o ho => ?_⟩
  · rw [← h o ho, hsum o ho, if_neg (by omega)]
  · rw [hsum o ho]
    split
    · rfl
    · exact (h o (by omega) ho).symm

/-- `P` with a block of data: that block is found first, over the coefficient of the wrong disk. -/
theorem decode_parity_data_iff (hf : f ∈ dataDisks st.diskTotalNum b) (buf : Buf) :
    ReadsBlock st {parityDiskId st.diskTotalNum b, f} junk (parityDiskId st.diskTotalNum b) b buf ↔
      ParityReadable st b f := by
  obtain ⟨hfn, hfp, hfq⟩ := mem_dataDisks.1 hf
  have hpq : parityDiskId st.diskTotalNum b ≠ codeDiskId st.diskTotalNum b :=
    parityDiskId_ne_codeDiskId (by omega)
  have hok := decode_fail_pair (parityDiskId_lt (by omega)) hfn hfp junk b buf st.diskBlockSize
  rw [if_neg hfq, if_neg (fun h => hpq h.1), if_pos rfl] at hok
  by_cases hends : 1 ≤ b % st.diskTotalNum ∧ b % st.diskTotalNum + 1 < st.diskTotalNum
  swap
  · -- the shift is undefined
    refine iff_of_false ?_ fun h => hends h.row
    rintro ⟨out, h, -⟩
    rw [hok, solveQ, @addCode_eq (st.fail _ junk) b _ _ (show 2 ≤ st.diskTotalNum by omega) hn' _ _
      fun i hi huse => otherData_mem hi huse] at h
    simp only [Loops.ok_bind, fail_diskTotalNum, dataDiskCoeff_parity hn hends] at h
    cases h
  have herase : ((dataDisks st.diskTotalNum b).erase (parityDiskId st.diskTotalNum b)).erase f =
      (dataDisks st.diskTotalNum b).erase f := by
    rw [Finset.erase_eq_of_notMem fun h => (mem_dataDisks.1 h).2.1 rfl]
  obtain ⟨lost, hlost, hlost'⟩ := @solveQ_fail st {parityDiskId st.diskTotalNum b, f} junk
    (parityDiskId st.diskTotalNum b) f b f (by omega) hn' (dataPlace_parity_le hends) hf herase
    (fun i hi => by simpa [or_comm] using hi) st.diskBlockSize hrow buf
  obtain ⟨out, hout, hout'⟩ := @xorSurvivors_fail st {parityDiskId st.diskTotalNum b, f} junk b
    (fun i => i ≠ parityDiskId st.diskTotalNum b ∧ i ≠ codeDiskId st.diskTotalNum b ∧ i ≠ f) _
    (fun i _ h hi => by simp [h.1, h.2.2] at hi) lost st.diskBlockSize
  rw [hlost, Loops.ok_bind, hout] at hok
  have hfilter : (Finset.range st.diskTotalNum).filter (fun i =>
      i ≠ parityDiskId st.diskTotalNum b ∧ i ≠ codeDiskId st.diskTotalNum b ∧ i ≠ f) =
      (dataDisks st.diskTotalNum b).erase f := by
    ext i
    simp only [Finset.mem_filter, Finset.mem_range, Finset.mem_erase, mem_dataDisks]
    tauto
  have hcoeff := diskCoeff_ne_zero (b := b) hn' (parityDiskId st.diskTotalNum b)
  -- a byte of a whole integer is right when the term is divided by its own coefficient
  have hint : ∀ o < intBytes st.diskBlockSize, o < st.diskBlockSize →
      (out o = st.block (parityDiskId st.diskTotalNum b) b o ↔
        f = codeDiskId st.diskTotalNum b + 1 ∨ st.block f b o = 0) := by
    intro o hlt ho
    have hp : st.block (parityDiskId st.diskTotalNum b) b o = st.block f b o +
        ∑ i ∈ (dataDisks st.diskTotalNum b).erase f, st.block i b o := by
      rw [Finset.add_sum_erase _ (fun i => st.block i b o) hf]
      exact (hrow o ho).p_eq
    rw [hout' o ho, if_pos hlt, hlost' o ho, hfilter,
      ← dataPlace_eq_parity_iff hends hf,
      ← diskCoeff_eq_iff hn' (dataPlace_le (by omega) hf) (dataPlace_parity_le hends)]
    rw [hp, add_left_inj, div_eq_iff hcoeff, mul_comm (st.block f b o), mul_eq_mul_right_iff]
  have htail : ∀ o, intBytes st.diskBlockSize ≤ o → o < st.diskBlockSize →
      (out o = st.block (parityDiskId st.diskTotalNum b) b o ↔
        diskCoeff st.diskTotalNum b f * st.block f b o =
          diskCoeff st.diskTotalNum b (parityDiskId st.diskTotalNum b) *
            st.block (parityDiskId st.diskTotalNum b) b o) := by
    intro o hle ho
    rw [hout' o ho, if_neg (by omega), add_zero, hlost' o ho, div_eq_iff hcoeff,
      mul_comm (st.block (parityDiskId _ _) b o)]
  refine (readsBlock_iff hok).trans ?_
  constructor
  · intro h
    refine ⟨hends, ?_, fun o hle ho => (htail o hle ho).1 (h o ho)⟩
    by_cases hnext : f = codeDiskId st.diskTotalNum b + 1
    · exact .inl hnext
    · refine .inr fun o hlt => ?_
      have ho : o < st.diskBlockSize := hlt.trans_le (Nat.div_mul_le_self _ _)
      exact ((hint o hlt ho).1 (h o ho)).resolve_left hnext
  · intro h o ho
    rcases Nat.lt_or_ge o (intBytes st.diskBlockSize) with hlt | hge
    · exact (hint o hlt ho).2 (h.ints.imp_right fun hzero => hzero o hlt)
    · exact (htail o hge ho).2 (h.tail o hge ho)

end Ways

/-! ### Two failed disks -/

/-- In a row that `encode` left, `decode` asked for the `P` or the `Q` block of one of two failed
disks returns it exactly under the condition. -/
theorem decode_codeBlock_iff (st : NcfsState) (hn : 4 ≤ st.diskTotalNum)
    (hn' : st.diskTotalNum ≤ 10) {b a f : ℕ} (hrow : RowEncoded st b)
    (ha : a = parityDiskId st.diskTotalNum b ∨ a = codeDiskId st.diskTotalNum b)
    (hf : f < st.diskTotalNum) (hfa : f ≠ a) (junk : ℕ → ℕ → Byte) (buf : Buf) :
    ReadsBlock st {a, f} junk a b buf ↔ CodeReadable st b a f := by
  have hrow := hrow.row (by omega) hn'
  have hpq : parityDiskId st.diskTotalNum b ≠ codeDiskId st.diskTotalNum b :=
    parityDiskId_ne_codeDiskId (by omega)
  rw [CodeReadable]
  rcases ha with rfl | rfl
  · rw [if_neg hpq]
    by_cases hfq : f = codeDiskId st.diskTotalNum b
    · subst hfq
      rw [if_pos rfl]
      exact decode_parity_code_iff (by omega) hn' hrow buf
    · rw [if_neg hfq]
      exact decode_parity_data_iff (by omega) hn' hrow (mem_dataDisks.2 ⟨hf, hfa, hfq⟩) buf
  · rw [if_pos rfl]
    by_cases hfp : f = parityDiskId st.diskTotalNum b
    · subst hfp
      exact iff_of_true (decode_code_parity (by omega) hn' hrow buf) (.inl rfl)
    · rw [or_iff_right hfp]
      exact decode_code_data_iff (by omega) hn' hrow (mem_dataDisks.2 ⟨hf, hfp, hfa⟩) buf

/-- Four disks with blocks of four bytes after two writes, which fill row `0`. -/
def raid6Sample : Except CodingError NcfsState := do
  let st := NcfsState.blank 4 2 4 (by decide) 8
  let (_, st) ← Coding4Raid6.new.encode st (fun _ => Byte.ofNat 5) 4
  let (_, st) ← Coding4Raid6.new.encode st (fun _ => Byte.ofNat 6) 4
  .ok st

/-- A third write goes to disk `0` of row `1`, where `P` is on disk `1` and `Q` on disk `2`. -/
theorem raid6Sample_encode : ∃ st₀ st, raid6Sample = .ok st₀ ∧
    Coding4Raid6.new.encode st₀ (fun _ => Byte.ofNat 1) 4 = .ok (some (0, 1), st) ∧
    st.diskTotalNum = 4 ∧ st.diskBlockSize = 4 ∧ RowEncoded st 1 := by
  have h : (raid6Sample >>= fun st₀ => (Coding4Raid6.new.encode st₀ (fun _ => Byte.ofNat 1) 4).map
      fun r => (st₀.diskBlockSize, r.1, r.2.diskTotalNum, r.2.diskBlockSize)) =
      .ok (4, some (0, 1), 4, 4) := by decide +kernel
  cases hst₀ : raid6Sample with
  | error e =>
      rw [hst₀] at h
      cases h
  | ok st₀ =>
      rw [hst₀, Loops.ok_bind] at h
      cases hst : Coding4Raid6.new.encode st₀ (fun _ => Byte.ofNat 1) 4 with
      | error e =>
          rw [hst] at h
          cases h
      | ok r =>
          obtain ⟨served, st⟩ := r
          rw [hst] at h
          simp only [Except.map, Except.ok.injEq, Prod.mk.injEq] at h
          obtain ⟨hbs, rfl, hn, hbs'⟩ := h
          refine ⟨st₀, st, rfl, hst, hn, hbs', st₀, fun _ => Byte.ofNat 1, 0, st, ?_, rfl, rfl,
            fun _ _ _ _ => rfl⟩
          rw [hbs]
          exact hst

theorem decode_codeBlock_iff_four : ∃ st, RowEncoded st 1 ∧
    (ReadsBlock st {1, 0} (fun _ _ => 0) 1 1 (fun _ => 0) ↔ CodeReadable st 1 1 0) := by
  obtain ⟨st₀, st, -, -, hn, -, hrow⟩ := raid6Sample_encode
  refine ⟨st, hrow, decode_codeBlock_iff st (by omega) (by omega) hrow (.inl ?_) (by omega)
    (by omega) _ _⟩
  rw [hn]
  rfl

/-- The `P` block of row `1` is a one, as is the data of disk `0`.  When both disks have failed,
`decode` returns a two for it. -/
theorem decode_codeBlock_broken : ∃ st₀ st, raid6Sample = .ok st₀ ∧
    Coding4Raid6.new.encode st₀ (fun _ => Byte.ofNat 1) 4 = .ok (some (0, 1), st) ∧
    RowEncoded st 1 ∧ ¬ ReadsBlock st {1, 0} (fun _ _ => 0) 1 1 fun _ => 0 := by
  obtain ⟨st₀, st, hst₀, hst, hn, hbs, hrow⟩ := raid6Sample_encode
  refine ⟨st₀, st, hst₀, hst, hrow, ?_⟩
  have h : (raid6Sample >>= fun st₀ => Coding4Raid6.new.encode st₀ (fun _ => Byte.ofNat 1) 4 >>=
      fun r => (Coding4Raid6.new.decode (r.2.fail {1, 0} fun _ _ => 0) 1 (fun _ => 0) 4 (1 * 4)).map
        fun out => (out 0, r.2.block 1 1 0)) = .ok (Byte.ofNat 2, Byte.ofNat 1) := by decide +kernel
  rw [hst₀, Loops.ok_bind, hst, Loops.ok_bind] at h
  rintro ⟨out, hok, hout⟩
  rw [hbs] at hok hout
  rw [hok] at h
  simp only [Except.map, Except.ok.injEq, Prod.mk.injEq] at h
  have := hout 0 (by omega)
  rw [h.1, h.2] at this
  exact absurd this (by decide)

end Ncfs
