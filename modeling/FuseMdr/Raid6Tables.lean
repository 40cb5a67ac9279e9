/-
**The table lookups of RAID6.**

The table of logarithms has 256 entries, and only those from 1 to 255 are initialised.  `gf_mul` and
`gf_div` index it with bytes and with coefficients, and a coefficient is `1 << e`, where the
exponent `e` of the first data disk of a row is the number of disks less three.  From eleven disks
on this power does not fit in a byte, and from 34 on not in an `int`.  The branch of `decode` for a
lost `P` disk and a lost data disk asks for a coefficient of `P`, whose exponent is negative in two
rows of each rotation.

Main definitions:

* `Ncfs.EncodeInRange`, `Ncfs.DecodeInRange` — whatever the data, the function never reads the
  tables outside their initialised entries, divides by zero or shifts by an undefined count;
* `Ncfs.OwnCoefficients` — each data disk of a row has a coefficient of its own, which is not zero;
* `Ncfs.DecodeBounds` — the exact bounds for a call of `decode`.

Main results:

* `Ncfs.gfMul_returns_iff`, `Ncfs.gfDiv_returns_iff` — the operations return exactly on arguments in
  the range of the table;
* `Ncfs.raid6_lookups_iff` — the bounds are exact for `encode`, for each call of `decode` and for
  the coefficients;
* `Ncfs.raid6_lookups_eleven` — eleven disks, where a lookup of `encode` is out of range.
-/
import FuseMdr.Raid6Rebuild

set_option relaxedAutoImplicit false
set_option autoImplicit false

namespace Ncfs

/-! ### The operations -/

/-- The walk only writes the entries of bytes that are not zero. -/
theorem gfGen_unwritten {n x : ℕ} (hn : n ≤ 255) (hx : x = 0 ∨ 255 < x) :
    ((List.range n).foldl (gfGenStep 256) (⟨fun _ => none, fun _ => none⟩, 1)).1.gflog
      x = none := by
  induction n with
  | zero => rfl
  | succ n ih =>
      have hb := (gfGen_walk (show n ≤ 255 by omega)).1
      have hne : x ≠ (Byte.generator.pow n).toNat := by
        have hlt := (Byte.generator.pow n).toNat_lt
        have h0 := mt Byte.toNat_eq_zero.1 (Byte.generator.pow_ne_zero n)
        omega
      rw [List.range_succ, List.foldl_append, List.foldl_cons, List.foldl_nil, gfGenStep, hb]
      dsimp only
      rw [Function.update_of_ne hne]
      exact ih (by omega)

/-- The initialised entries of the table of logarithms are those from 1 to 255. -/
theorem gflog_returns_iff {x : ℕ} :
    (∃ v, tableEntry Coding4Raid6.new.gflog x = .ok v) ↔ 1 ≤ x ∧ x ≤ 255 := by
  constructor
  · rintro ⟨v, hv⟩
    by_contra hx
    rw [tableEntry, new_eq, gfGen_unwritten le_rfl (by omega)] at hv
    cases hv
  · rintro ⟨h1, h255⟩
    have hne : Byte.ofNat x ≠ 0 := by
      rw [Ne, ← Byte.toNat_eq_zero, Byte.toNat_ofNat_of_lt (by omega)]
      omega
    obtain ⟨i, hi, hpow⟩ := Byte.generator.exists_pow_eq hne
    refine ⟨i, ?_⟩
    rw [← gflog_new hi, hpow, Byte.toNat_ofNat_of_lt (by omega)]

/-- `gf_mul` returns exactly on arguments in the range of the table, or when one is zero. -/
theorem gfMul_returns_iff {a c : ℕ} :
    (∃ v, Coding4Raid6.new.gfMul a c fieldPower = .ok v) ↔
      a = 0 ∨ c = 0 ∨ a ≤ 255 ∧ c ≤ 255 := by
  constructor
  · rintro ⟨v, hv⟩
    by_cases h : a = 0 ∨ c = 0
    · exact or_assoc.1 (.inl h)
    · rw [Coding4Raid6.gfMul, if_neg h] at hv
      obtain ⟨i, hi, hv⟩ := Loops.bind_eq_ok hv
      obtain ⟨j, hj, -⟩ := Loops.bind_eq_ok hv
      exact .inr (.inr ⟨(gflog_returns_iff.1 ⟨i, hi⟩).2, (gflog_returns_iff.1 ⟨j, hj⟩).2⟩)
  · intro h
    by_cases hzero : a = 0 ∨ c = 0
    · exact ⟨0, if_pos hzero⟩
    · obtain ⟨ha, hc⟩ : a ≤ 255 ∧ c ≤ 255 := by tauto
      have hmul := gfMul_eq (Byte.ofNat a) (Byte.ofNat c)
      rw [Byte.toNat_ofNat_of_lt (by omega), Byte.toNat_ofNat_of_lt (by omega)] at hmul
      exact ⟨_, hmul⟩

/-- `gf_div` returns exactly on arguments in the range of the table with a divisor that is not zero,
or when it divides zero. -/
theorem gfDiv_returns_iff {a c : ℕ} :
    (∃ v, Coding4Raid6.new.gfDiv a c fieldPower = .ok v) ↔
      a = 0 ∨ a ≤ 255 ∧ 1 ≤ c ∧ c ≤ 255 := by
  constructor
  · rintro ⟨v, hv⟩
    by_cases h : a = 0
    · exact .inl h
    · rw [Coding4Raid6.gfDiv, if_neg h] at hv
      obtain ⟨i, hi, hv⟩ := Loops.bind_eq_ok hv
      obtain ⟨j, hj, -⟩ := Loops.bind_eq_ok hv
      exact .inr ⟨(gflog_returns_iff.1 ⟨i, hi⟩).2, gflog_returns_iff.1 ⟨j, hj⟩⟩
  · intro h
    by_cases hzero : a = 0
    · exact ⟨0, if_pos hzero⟩
    · obtain ⟨ha, hc, hc'⟩ : a ≤ 255 ∧ 1 ≤ c ∧ c ≤ 255 := by tauto
      have hne : Byte.ofNat c ≠ 0 := by
        rw [Ne, ← Byte.toNat_eq_zero, Byte.toNat_ofNat_of_lt (by omega)]
        omega
      have hdiv := gfDiv_eq (Byte.ofNat a) hne
      rw [Byte.toNat_ofNat_of_lt (by omega), Byte.toNat_ofNat_of_lt (by omega)] at hdiv
      exact ⟨_, hdiv⟩

/-! ### The loops -/

section Loops

variable {n size : ℕ} {use : ℕ → Prop} [DecidablePred use]

/-- A loop over disks returns when its body does. -/
theorem forDisks_returns {σ : Type} {body : σ → ℕ → Except CodingError σ}
    (h : ∀ s, ∀ i < n, use i → ∃ s', body s i = .ok s') (s : σ) :
    ∃ s', forDisks n use body s = .ok s' := by
  refine Loops.foldlM_returns (fun s i hi => ?_) s
  split
  · exact h s i (List.mem_range.1 hi) ‹_›
  · exact ⟨s, rfl⟩

/-- When a loop over disks returns, its body has returned for each disk. -/
theorem forDisks_pass {σ : Type} {body : σ → ℕ → Except CodingError σ} {s s' : σ}
    (hok : forDisks n use body s = .ok s') {i : ℕ} (hi : i < n) (huse : use i) :
    ∃ s₁ s₂, body s₁ i = .ok s₂ := by
  obtain ⟨s₁, s₂, hpass⟩ := Loops.foldlM_each hok (List.mem_range.2 hi)
  rw [if_pos huse] at hpass
  exact ⟨s₁, s₂, hpass⟩

/-- The first pass of a loop over disks that returns. -/
theorem forDisks_first {σ : Type} {body : σ → ℕ → Except CodingError σ} {s s' : σ}
    (hok : forDisks n use body s = .ok s') (hn : 0 < n) (huse : use 0) :
    ∃ s₁, body s 0 = .ok s₁ := by
  obtain ⟨m, rfl⟩ := Nat.exists_eq_succ_of_ne_zero hn.ne'
  rw [forDisks, List.range_succ_eq_map, List.foldlM_cons, if_pos huse] at hok
  obtain ⟨s₁, hs₁, -⟩ := Loops.bind_eq_ok hok
  exact ⟨s₁, hs₁⟩

/-- The loop over the bytes returns exactly when the coefficient is defined and in the range of the
table for each byte that is not zero. -/
theorem gfMulXorBuf_returns_iff {coeff : Except CodingError ℕ} {des src : Buf} :
    (∃ out, gfMulXorBuf .new size coeff des src = .ok out) ↔
      ∀ j < size, ∃ c, coeff = .ok c ∧ (src j = 0 ∨ c ≤ 255) := by
  constructor
  · rintro ⟨out, hok⟩ j hj
    obtain ⟨s₁, s₂, hpass⟩ := Loops.foldlM_each hok (List.mem_range.2 hj)
    obtain ⟨c, hc, hpass⟩ := Loops.bind_eq_ok hpass
    obtain ⟨m, hm, -⟩ := Loops.bind_eq_ok hpass
    refine ⟨c, hc, ?_⟩
    rcases gfMul_returns_iff.1 ⟨m, hm⟩ with h | h | h
    · exact .inl (Byte.toNat_eq_zero.1 h)
    · exact .inr (by omega)
    · exact .inr h.2
  · intro h
    refine Loops.foldlM_returns (fun des j hj => ?_) des
    obtain ⟨c, rfl, hc⟩ := h j (List.mem_range.1 hj)
    have hlt := (src j).toNat_lt
    have hrange : (src j).toNat = 0 ∨ c = 0 ∨ (src j).toNat ≤ 255 ∧ c ≤ 255 := by
      rcases hc with hc | hc
      · exact .inl (Byte.toNat_eq_zero.2 hc)
      · exact .inr (.inr ⟨by omega, hc⟩)
    obtain ⟨m, hm⟩ := gfMul_returns_iff.2 hrange
    exact ⟨_, by rw [Loops.ok_bind, hm, Loops.ok_bind]⟩

/-- A block of zeros adds nothing. -/
theorem gfMulXorBuf_zero {c : ℕ} {des src : Buf} (h : ∀ j < size, src j = 0) :
    gfMulXorBuf .new size (.ok c) des src = .ok des := by
  rw [gfMulXorBuf, Loops.foldlM_ok (g := fun des _ => des) (fun des j hj => ?_)]
  · exact congrArg Except.ok (Loops.foldl_frame id (fun _ _ _ => rfl) des)
  · rw [h j (List.mem_range.1 hj), Loops.ok_bind, Coding4Raid6.gfMul, if_pos (.inl rfl),
      Loops.ok_bind, show Byte.ofNat 0 = 0 from rfl, Byte.xor_eq_add, add_zero,
      Function.update_eq_self]

/-- The division of the first byte. -/
theorem gfDivBuf_first {c : ℕ} {buf out : Buf} (hok : gfDivBuf .new size c buf = .ok out)
    (hsize : 0 < size) : buf 0 = 0 ∨ 1 ≤ c ∧ c ≤ 255 := by
  obtain ⟨m, rfl⟩ := Nat.exists_eq_succ_of_ne_zero hsize.ne'
  rw [gfDivBuf, List.range_succ_eq_map, List.foldlM_cons] at hok
  obtain ⟨s, hs, -⟩ := Loops.bind_eq_ok hok
  obtain ⟨v, hv, -⟩ := Loops.bind_eq_ok hs
  rcases gfDiv_returns_iff.1 ⟨v, hv⟩ with h | h
  · exact .inl (Byte.toNat_eq_zero.1 h)
  · exact .inr h.2

/-- The first byte of the branch for two data disks. -/
theorem gfSolveBuf_first {g2 g12 : ℕ} {pTemp qTemp tempBuf buf out : Buf}
    (hok : gfSolveBuf .new size g2 g12 pTemp qTemp tempBuf buf = .ok out) (hsize : 0 < size) :
    (∃ v, Coding4Raid6.new.gfMul g2 (pTemp 0).toNat fieldPower = .ok v) ∧
      (pTemp 0 = 0 → qTemp 0 + tempBuf 0 ≠ 0 → 1 ≤ g12 ∧ g12 ≤ 255) := by
  obtain ⟨m, rfl⟩ := Nat.exists_eq_succ_of_ne_zero hsize.ne'
  rw [gfSolveBuf, List.range_succ_eq_map, List.foldlM_cons] at hok
  obtain ⟨s, hs, -⟩ := Loops.bind_eq_ok hok
  obtain ⟨v, hv, hs⟩ := Loops.bind_eq_ok hs
  obtain ⟨w, hw, -⟩ := Loops.bind_eq_ok hs
  refine ⟨⟨v, hv⟩, fun hp hne => ?_⟩
  rw [hp, Byte.toNat_zero, Coding4Raid6.gfMul, if_pos (.inr rfl)] at hv
  rcases gfDiv_returns_iff.1 ⟨w, hw⟩ with h | h
  · rw [← Except.ok.inj hv, Byte.toNat_eq_zero, show Byte.ofNat 0 = 0 from rfl, Byte.xor_eq_add,
      Byte.xor_eq_add, zero_add] at h
    exact absurd h hne
  · exact h.2

end Loops

/-! ### The coefficients of a row -/

section Coefficients

variable {n b : ℕ}

/-- Each place of a row belongs to a data disk. -/
theorem exists_dataPlace {k : ℕ} (hk : k + 3 ≤ n) : ∃ i ∈ dataDisks n b, dataPlace n b i = k := by
  have hpq := parityDiskId_ne_codeDiskId (n := n) (b := b) (by omega)
  simp only [mem_dataDisks, dataPlace]
  by_cases h₀ : k < parityDiskId n b ∧ k < codeDiskId n b
  · refine ⟨k, ⟨by omega, by omega, by omega⟩, ?_⟩
    split <;> split <;> omega
  by_cases h₁ : k + 1 < parityDiskId n b ∨ k + 1 < codeDiskId n b
  · refine ⟨k + 1, ⟨by omega, by omega, by omega⟩, ?_⟩
    split <;> split <;> omega
  · refine ⟨k + 2, ⟨by omega, by omega, by omega⟩, ?_⟩
    split <;> split <;> omega

variable {i : ℕ}

theorem dataDiskCoeff_of_le (hi : dataPlace n b i + 3 ≤ n) (h : n ≤ dataPlace n b i + 33) :
    dataDiskCoeff n b i = .ok (2 ^ (n - 3 - dataPlace n b i)) := by
  rw [dataDiskCoeff_eq_shift (by omega), gfGetCoefficient, if_neg (by omega), Nat.one_shiftLeft]
  congr 2
  omega

/-- The bit of the first places of many disks does not fit in an `int`. -/
theorem dataDiskCoeff_of_lt (hn : 2 ≤ n) (h : dataPlace n b i + 33 < n) :
    dataDiskCoeff n b i = .error .undefined := by
  rw [dataDiskCoeff_eq_shift hn, gfGetCoefficient, if_pos (by omega)]

/-- A coefficient is a byte up to the exponent seven. -/
theorem dataDiskCoeff_byte_iff (hi : dataPlace n b i + 3 ≤ n) :
    (∃ c, dataDiskCoeff n b i = .ok c ∧ c ≤ 255) ↔ n ≤ dataPlace n b i + 10 := by
  have hpow : 2 ^ (n - 3 - dataPlace n b i) ≤ 255 ↔ n ≤ dataPlace n b i + 10 := by
    have h := Nat.pow_lt_pow_iff_right (a := 2) (n := n - 3 - dataPlace n b i) (m := 8) (by decide)
    omega
  constructor
  · rintro ⟨c, hc, hle⟩
    by_cases h : n ≤ dataPlace n b i + 33
    · rw [dataDiskCoeff_of_le hi h] at hc
      exact hpow.1 (Except.ok.inj hc ▸ hle)
    · rw [dataDiskCoeff_of_lt (by omega) (by omega)] at hc
      cases hc
  · intro h
    exact ⟨_, dataDiskCoeff_of_le hi (by omega), hpow.2 h⟩

/-- Each data disk of the row has a coefficient, which is not zero and not that of another. -/
def OwnCoefficients (n b : ℕ) : Prop :=
  (∀ i ∈ dataDisks n b, ∃ c, dataDiskCoeff n b i = .ok c ∧ c ≠ 0) ∧
    ∀ i ∈ dataDisks n b, ∀ j ∈ dataDisks n b, i ≠ j → dataDiskCoeff n b i ≠ dataDiskCoeff n b j

/-- **The coefficients of a row are different up to 33 disks**, and are not all defined from 34
on. -/
theorem ownCoefficients_iff (hn : 3 ≤ n) : OwnCoefficients n b ↔ n ≤ 33 := by
  constructor
  · rintro ⟨hdef, -⟩
    obtain ⟨i, hi, hplace⟩ := exists_dataPlace (b := b) (k := 0) hn
    by_contra h
    obtain ⟨c, hc, -⟩ := hdef i hi
    rw [dataDiskCoeff_of_lt (by omega) (by omega)] at hc
    cases hc
  · intro h
    have hval : ∀ i ∈ dataDisks n b, dataDiskCoeff n b i = .ok (2 ^ (n - 3 - dataPlace n b i)) :=
      fun i hi => dataDiskCoeff_of_le (dataPlace_le (by omega) hi) (by omega)
    refine ⟨fun i hi => ⟨_, hval i hi, (Nat.two_pow_pos _).ne'⟩, fun i hi j hj hij heq => hij ?_⟩
    rw [hval i hi, hval j hj] at heq
    have hexp := Nat.pow_right_injective le_rfl (Except.ok.inj heq)
    have hi' := dataPlace_le (by omega) hi
    have hj' := dataPlace_le (by omega) hj
    exact dataPlace_injOn (by omega) hi hj (by omega)

end Coefficients

/-! ### The parts of the functions -/

section Parts

variable {st : NcfsState} {b size offset : ℕ}

/-- When the loop over data blocks returns, the coefficient of each of them is a byte, or the block
is zero. -/
theorem codeOfData_bound {block : ℕ → Buf} {buf out : Buf}
    (hok : codeOfData .new st b block buf size = .ok out) {i : ℕ}
    (hi : i ∈ dataDisks st.diskTotalNum b) (hsize : 0 < size) (hblock : block i 0 ≠ 0) :
    st.diskTotalNum ≤ dataPlace st.diskTotalNum b i + 10 := by
  obtain ⟨hlt, hother⟩ := mem_dataDisks.1 hi
  obtain ⟨s₁, s₂, hpass⟩ := forDisks_pass hok hlt hother
  obtain ⟨c, hc, h⟩ := gfMulXorBuf_returns_iff.1 ⟨s₂, hpass⟩ 0 hsize
  have hn := codeDiskId_lt (n := st.diskTotalNum) (b := b) (by omega)
  have hn' := parityDiskId_lt (n := st.diskTotalNum) (b := b) (by omega)
  by_cases htwo : 2 ≤ st.diskTotalNum
  · exact (dataDiskCoeff_byte_iff (dataPlace_le htwo hi)).1 ⟨c, hc, h.resolve_left hblock⟩
  · omega

variable (hn : 2 ≤ st.diskTotalNum)
include hn

theorem addCode_bound {use : ℕ → Prop} [DecidablePred use] {buf out : Buf}
    (hok : addCode .new st b use buf size offset = .ok out) {i : ℕ}
    (hi : i ∈ dataDisks st.diskTotalNum b) (huse : use i) (hsize : 0 < size)
    (hblock : readDisk st i (fun _ => 0) size offset 0 ≠ 0) :
    st.diskTotalNum ≤ dataPlace st.diskTotalNum b i + 10 := by
  obtain ⟨s₁, s₂, hpass⟩ := forDisks_pass hok (mem_dataDisks.1 hi).1 huse
  obtain ⟨c, hc, hpass⟩ := Loops.bind_eq_ok hpass
  obtain ⟨c', hc', h⟩ := gfMulXorBuf_returns_iff.1 ⟨s₂, hpass⟩ 0 hsize
  rw [← Except.ok.inj hc'] at h
  exact (dataDiskCoeff_byte_iff (dataPlace_le hn hi)).1 ⟨c, hc, h.resolve_left hblock⟩

theorem addCode_returns {use : ℕ → Prop} [DecidablePred use]
    (huse : ∀ i < st.diskTotalNum, use i → i ∈ dataDisks st.diskTotalNum b ∧
      st.diskTotalNum ≤ dataPlace st.diskTotalNum b i + 10) (buf : Buf) :
    ∃ out, addCode .new st b use buf size offset = .ok out := by
  refine forDisks_returns (fun buf i hi h => ?_) buf
  obtain ⟨hdata, hplace⟩ := huse i hi h
  obtain ⟨c, hc, hle⟩ := (dataDiskCoeff_byte_iff (dataPlace_le hn hdata)).2 hplace
  rw [hc, Loops.ok_bind]
  exact gfMulXorBuf_returns_iff.2 fun j _ => ⟨c, rfl, .inr hle⟩

omit hn in
/-- Blocks of zeros leave the buffer as it is. -/
theorem addCode_zero {use : ℕ → Prop} [DecidablePred use]
    (hzero : ∀ i < st.diskTotalNum, use i → ∀ j < size,
      readDisk st i (fun _ => 0) size offset j = 0) {buf out : Buf}
    (hok : addCode .new st b use buf size offset = .ok out) : out = buf := by
  refine Loops.foldlM_keeps (fun s => s = buf) (fun s i hi s' hs hbuf => ?_) rfl hok
  split at hs
  · obtain ⟨c, -, hs⟩ := Loops.bind_eq_ok hs
    rw [gfMulXorBuf_zero (hzero i (List.mem_range.1 hi) ‹_›)] at hs
    exact (Except.ok.inj hs).symm.trans hbuf
  · exact (Except.ok.inj hs).symm.trans hbuf

/-- The lines that end with the division by the coefficient of `disk_id` return when the
coefficients of that disk and of the other data disks are bytes. -/
theorem solveQ_returns {d f : ℕ}
    (hothers : ∀ i ∈ dataDisks st.diskTotalNum b, i ≠ d → i ≠ f →
      st.diskTotalNum ≤ dataPlace st.diskTotalNum b i + 10)
    (hd : dataPlace st.diskTotalNum b d + 3 ≤ st.diskTotalNum)
    (hd' : st.diskTotalNum ≤ dataPlace st.diskTotalNum b d + 10) (buf : Buf) :
    ∃ out, solveQ .new st b d f buf size offset = .ok out := by
  obtain ⟨sum, hsum⟩ := @addCode_returns st b size offset hn (OtherData st b d f) _
    (fun i hi h => ⟨otherData_mem hi h, hothers i (otherData_mem hi h) h.1 h.2.1⟩) buf
  have hc := dataDiskCoeff_of_le hd (by omega)
  have hle : 2 ^ (st.diskTotalNum - 3 - dataPlace st.diskTotalNum b d) < 2 ^ 8 :=
    Nat.pow_lt_pow_right Nat.one_lt_two (by omega)
  have hne : Byte.ofNat (2 ^ (st.diskTotalNum - 3 - dataPlace st.diskTotalNum b d)) ≠ 0 := by
    rw [Ne, ← Byte.toNat_eq_zero, Byte.toNat_ofNat_of_lt hle]
    exact (Nat.two_pow_pos _).ne'
  have hdiv := fun buf => @gfDivBuf_eq size _ hne buf
  simp only [Byte.toNat_ofNat_of_lt hle] at hdiv
  rw [solveQ, hsum, Loops.ok_bind, hc, Loops.ok_bind, hdiv]
  exact ⟨_, rfl⟩

/-- When these lines return, the coefficients of the other data disks are bytes, or their blocks are
zero; and when all of these are zero and `Q` is not, the coefficient of `disk_id` is a byte. -/
theorem solveQ_bound {d f : ℕ} {buf out : Buf}
    (hok : solveQ .new st b d f (memset0 buf size) size offset = .ok out) (hsize : 0 < size) :
    (∀ i ∈ dataDisks st.diskTotalNum b, i ≠ d → i ≠ f →
      readDisk st i (fun _ => 0) size offset 0 ≠ 0 →
        st.diskTotalNum ≤ dataPlace st.diskTotalNum b i + 10) ∧
    ∃ c, dataDiskCoeff st.diskTotalNum b d = .ok c ∧
      ((∀ i < st.diskTotalNum, OtherData st b d f i → ∀ j < size,
          readDisk st i (fun _ => 0) size offset j = 0) →
        readDisk st (codeDiskId st.diskTotalNum b) (fun _ => 0) size offset 0 ≠ 0 → c ≤ 255) := by
  obtain ⟨sum, hsum, hok⟩ := Loops.bind_eq_ok hok
  obtain ⟨c, hc, hok⟩ := Loops.bind_eq_ok hok
  refine ⟨fun i hi hid hif => ?_, c, hc, fun hzero hq => ?_⟩
  · exact addCode_bound hn hsum hi ⟨hid, hif, (mem_dataDisks.1 hi).2⟩ hsize
  · rcases gfDivBuf_first hok hsize with h | h
    · rw [addCode_zero hzero hsum, xorBuf_of_lt _ _ hsize, memset0_of_lt hsize, zero_add] at h
      exact absurd h hq
    · exact h.2

omit hn in
/-- What a pass of the branch for two data disks has done when it returns. -/
theorem solvePQStep_ok {d f g2 g12 i : ℕ} {pTemp : Buf} {bufs out : Buf × Buf}
    (hok : solvePQStep .new st b d f g2 g12 pTemp size offset bufs i = .ok out) :
    ∃ qTemp,
      (if OtherData st b d f i then ∃ c, dataDiskCoeff st.diskTotalNum b i = .ok c ∧
          gfMulXorBuf .new size (.ok c) bufs.1 (readDisk st i (fun _ => 0) size offset) = .ok qTemp
        else qTemp = bufs.1) ∧
      ∃ buf, gfSolveBuf .new size g2 g12 pTemp qTemp
        (readDisk st (codeDiskId st.diskTotalNum b) (fun _ => 0) size offset) bufs.2 = .ok buf := by
  rw [solvePQStep] at hok
  split at hok
  · rename_i hother
    obtain ⟨c, hc, hok⟩ := Loops.bind_eq_ok hok
    obtain ⟨qTemp, hq, hok⟩ := Loops.bind_eq_ok hok
    obtain ⟨buf, hbuf, -⟩ := Loops.bind_eq_ok hok
    exact ⟨qTemp, by rw [if_pos hother]; exact ⟨c, hc, hq⟩, buf, hbuf⟩
  · rename_i hother
    rw [Loops.ok_bind] at hok
    obtain ⟨buf, hbuf, -⟩ := Loops.bind_eq_ok hok
    exact ⟨bufs.1, by rw [if_neg hother], buf, hbuf⟩

/-- When the branch for two data disks returns, both coefficients are defined, those of the other
data disks are bytes, or their blocks are zero; and when all of these are zero, the one of the other
failed disk is a byte or `P` is zero, and the sum of both is a byte where `P` is zero and `Q` is
not. -/
theorem solvePQ_bound {d f : ℕ} {buf out : Buf}
    (hok : solvePQ .new st b d f buf size offset = .ok out) (hsize : 0 < size) :
    (∀ i ∈ dataDisks st.diskTotalNum b, i ≠ d → i ≠ f →
      readDisk st i (fun _ => 0) size offset 0 ≠ 0 →
        st.diskTotalNum ≤ dataPlace st.diskTotalNum b i + 10) ∧
    ∃ g1 g2, dataDiskCoeff st.diskTotalNum b d = .ok g1 ∧
      dataDiskCoeff st.diskTotalNum b f = .ok g2 ∧
      ((∀ i < st.diskTotalNum, OtherData st b d f i → ∀ j < size,
          readDisk st i (fun _ => 0) size offset j = 0) →
        (readDisk st (parityDiskId st.diskTotalNum b) (fun _ => 0) size offset 0 ≠ 0 → g2 ≤ 255) ∧
        (readDisk st (parityDiskId st.diskTotalNum b) (fun _ => 0) size offset 0 = 0 →
          readDisk st (codeDiskId st.diskTotalNum b) (fun _ => 0) size offset 0 ≠ 0 →
            g1 ^^^ g2 ≤ 255)) := by
  obtain ⟨g1, hg1, hok⟩ := Loops.bind_eq_ok hok
  obtain ⟨g2, hg2, hok⟩ := Loops.bind_eq_ok hok
  obtain ⟨pTemp, hp, hok⟩ := Loops.bind_eq_ok hok
  obtain ⟨bufs, hbufs, -⟩ := Loops.bind_eq_ok hok
  refine ⟨fun i hi hid hif hblock => ?_, g1, g2, hg1, hg2, fun hzero => ?_⟩
  · obtain ⟨s₁, s₂, hpass⟩ := forDisks_pass hbufs (mem_dataDisks.1 hi).1 trivial
    have hother : OtherData st b d f i := ⟨hid, hif, (mem_dataDisks.1 hi).2⟩
    obtain ⟨qTemp, hq, -⟩ := solvePQStep_ok hpass
    rw [if_pos hother] at hq
    obtain ⟨c, hc, hq⟩ := hq
    obtain ⟨c', hc', h⟩ := gfMulXorBuf_returns_iff.1 ⟨qTemp, hq⟩ 0 hsize
    rw [← Except.ok.inj hc'] at h
    exact (dataDiskCoeff_byte_iff (dataPlace_le hn hi)).1 ⟨c, hc, h.resolve_left hblock⟩
  · -- in the first pass `Q_temp` is still zero
    obtain ⟨s, hs⟩ := forDisks_first hbufs (by omega) trivial
    obtain ⟨qTemp, hq, buf', hsolve⟩ := solvePQStep_ok hs
    have hqzero : qTemp = fun _ => 0 := by
      split at hq
      · rename_i hother
        obtain ⟨c, -, hq⟩ := hq
        rw [gfMulXorBuf_zero (hzero 0 (by omega) hother)] at hq
        exact (Except.ok.inj hq).symm
      · exact hq
    rw [forDisks_xorBuf fun _ _ _ _ => rfl] at hp
    have hsum : pTemp 0 = 0 := by
      rw [← Except.ok.inj hp, xorBuf_of_lt _ _ hsize, zero_add]
      refine Finset.sum_eq_zero fun i hi => ?_
      obtain ⟨hi, hother⟩ := Finset.mem_filter.1 hi
      exact hzero i (Finset.mem_range.1 hi) hother 0 hsize
    have hfirst := gfSolveBuf_first hsolve hsize
    rw [xorBuf_of_lt _ _ hsize, hsum, zero_add, hqzero] at hfirst
    refine ⟨fun hpne => ?_, fun hpzero hqne => ?_⟩
    · rcases gfMul_returns_iff.1 hfirst.1 with h | h | h
      · omega
      · exact absurd (Byte.toNat_eq_zero.1 h) hpne
      · exact h.1
    · exact (hfirst.2 hpzero (by simpa using hqne)).2

end Parts

/-! ### The calls -/

/-- Whatever the data of a row, `encode` makes its lookups in range when it writes a block of it. -/
def EncodeInRange (n b : ℕ) : Prop :=
  ∀ (st : NcfsState) (d : ℕ) (buf : Buf) (size : ℕ), st.diskTotalNum = n →
    (raid6Allocate st (blockRequest st size)).1 = some (d, b) →
      ∃ result, Coding4Raid6.new.encode st buf size = .ok result

/-- Whatever the data of a row, `decode` of disk `d` makes its lookups in range when the disks of
`F` have failed. -/
def DecodeInRange (n b d : ℕ) (F : Finset ℕ) : Prop :=
  ∀ (st : NcfsState) (junk : ℕ → ℕ → Byte) (buf : Buf) (size offset : ℕ), st.diskTotalNum = n →
    offset / st.diskBlockSize = b →
      ∃ out, Coding4Raid6.new.decode (st.fail F junk) d buf size offset = .ok out

/-- The bounds for a call of `decode`.  A disk that works is read, and a disk that is not `Q` is
restored from `P` without the tables when no data disk but itself has failed.  `P` with a lost data
disk has a coefficient of its own in the inner rows, and then the coefficient of the lost data disk
is not asked for. -/
def DecodeBounds (n b d : ℕ) (F : Finset ℕ) : Prop :=
  if d ∉ F ∨ d ≠ codeDiskId n b ∧ F ⊆ {d, codeDiskId n b} then True
  else if d = parityDiskId n b then
    1 ≤ b % n ∧ b % n + 1 < n ∧ (n ≤ 10 ∨ n = 11 ∧ 0 ∈ F ∧ b % n + 2 < n)
  else n ≤ 10

/-- A store of blocks of four bytes, which are ones on the disks of `S` and zero elsewhere. -/
def onesOn (n : ℕ) (S : Finset ℕ) : NcfsState :=
  { NcfsState.blank n (n - 2) 4 fourBytes_pos 0 with
    disk := fun d _ => if d ∈ S then Byte.ofNat 1 else 0 }

@[simp] theorem onesOn_diskTotalNum (n : ℕ) (S : Finset ℕ) : (onesOn n S).diskTotalNum = n := rfl

section Calls

variable {n b d f : ℕ} {F S : Finset ℕ} {junk : ℕ → ℕ → Byte}

theorem readDisk_onesOn {i size offset j : ℕ} (hi : i ∉ F) (hj : j < size) :
    readDisk ((onesOn n S).fail F junk) i (fun _ => 0) size offset j =
      if i ∈ S then Byte.ofNat 1 else 0 := by
  simp only [readDisk, NcfsState.fail, if_pos hj, if_neg hi]
  rfl

/-- The first byte of a block of ones. -/
theorem readDisk_onesOn_ne {i size offset : ℕ} (hi : i ∉ F) (hiS : i ∈ S) (hsize : 0 < size) :
    readDisk ((onesOn n S).fail F junk) i (fun _ => 0) size offset 0 ≠ 0 := by
  rw [readDisk_onesOn hi hsize, if_pos hiS]
  decide

/-- A call in range, on such a store. -/
theorem DecodeInRange.onesOn (h : DecodeInRange n b d F) (S : Finset ℕ) :
    ∃ out, Coding4Raid6.new.decode ((onesOn n S).fail F fun _ _ => 0) d (fun _ => 0) 4
      (b * (Ncfs.onesOn n S).diskBlockSize) = .ok out :=
  h (Ncfs.onesOn n S) _ _ _ _ rfl (Nat.mul_div_cancel b fourBytes_pos)

/-- The coefficients of all data disks are bytes up to ten disks. -/
theorem le_ten_of_places (hn : 3 ≤ n) (h : ∀ i ∈ dataDisks n b, n ≤ dataPlace n b i + 10) :
    n ≤ 10 := by
  obtain ⟨i, hi, hplace⟩ := exists_dataPlace (b := b) (k := 0) hn
  have := h i hi
  omega

/-- Disks that work are read. -/
theorem decodeInRange_of_notMem (hd : d ∉ F) : DecodeInRange n b d F := by
  intro st junk buf size offset _ _
  refine ⟨readDisk (st.fail F junk) d (memset0 buf size) size offset, ?_⟩
  rw [Coding4Raid6.decode]
  exact if_pos (by rw [fail_diskStatus, if_neg hd])

/-- The sum of the survivors needs no table. -/
theorem xorSurvivors_returns {st : NcfsState} {use : ℕ → Prop} [DecidablePred use]
    (h : ∀ i < st.diskTotalNum, use i → i ∉ F) (buf : Buf) (size offset : ℕ) :
    ∃ out, xorSurvivors (st.fail F junk) use buf size offset = .ok out :=
  ⟨_, xorSurvivors_eq (fun i hi huse => by rw [fail_diskStatus, if_neg (h i hi huse)]) buf⟩

/-- **Without `Q` the tables are not used.** -/
theorem decodeInRange_sum (hd : d < n) (hdF : d ∈ F) (hdq : d ≠ codeDiskId n b)
    (hF : F ⊆ {d, codeDiskId n b}) : DecodeInRange n b d F := by
  rintro st junk buf size offset rfl hoffset
  have hq := codeDiskId_lt (n := st.diskTotalNum) (b := b) (by omega)
  have hsum := fun buf => @xorSurvivors_returns F junk st
    (fun i => i ≠ d ∧ i ≠ codeDiskId st.diskTotalNum b) _ (fun i _ h hi => by
      rcases Finset.mem_insert.1 (hF hi) with hi | hi
      · exact h.1 hi
      · exact h.2 (Finset.mem_singleton.1 hi)) buf size offset
  by_cases hqF : codeDiskId st.diskTotalNum b ∈ F
  · obtain rfl : F = {d, codeDiskId st.diskTotalNum b} := by
      refine Finset.Subset.antisymm hF fun i hi => ?_
      rcases Finset.mem_insert.1 hi with rfl | hi
      · exact hdF
      · exact Finset.mem_singleton.1 hi ▸ hqF
    rw [decode_pair hoffset hd hq hdq.symm, if_pos rfl]
    exact hsum _
  · obtain rfl : F = {d} := by
      refine Finset.eq_singleton_iff_unique_mem.2 ⟨hdF, fun i hi => ?_⟩
      rcases Finset.mem_insert.1 (hF hi) with hi' | hi'
      · exact hi'
      · exact absurd (Finset.mem_singleton.1 hi' ▸ hi) hqF
    rw [decode_singleton hoffset hd, if_pos hdq]
    exact hsum _

/-- **`Q` is computed from the data up to ten disks.** -/
theorem decodeInRange_code (hn : 3 ≤ n)
    (hF : F = {codeDiskId n b} ∨ F = {codeDiskId n b, parityDiskId n b}) :
    DecodeInRange n b (codeDiskId n b) F ↔ n ≤ 10 := by
  have hq := codeDiskId_lt (n := n) (b := b) (by omega)
  have hp := parityDiskId_lt (n := n) (b := b) (by omega)
  have hpq := parityDiskId_ne_codeDiskId (n := n) (b := b) (by omega)
  have hway : ∀ (st : NcfsState) (junk : ℕ → ℕ → Byte) (buf : Buf) (size offset : ℕ),
      st.diskTotalNum = n → offset / st.diskBlockSize = b →
        Coding4Raid6.new.decode (st.fail F junk) (codeDiskId n b) buf size offset =
          codeOfData .new (st.fail F junk) b
            (fun i => readDisk (st.fail F junk) i (fun _ => 0) size offset)
              (memset0 buf size) size := by
    rintro st junk buf size offset rfl hoffset
    rcases hF with rfl | rfl
    · rw [decode_singleton hoffset hq, if_neg (not_not.2 rfl)]
    · rw [decode_pair hoffset hq hp hpq, if_neg hpq, if_pos ⟨rfl, rfl⟩]
  have hdata : ∀ i ∈ dataDisks n b, i ∉ F := by
    intro i hi
    obtain ⟨-, hip, hiq⟩ := mem_dataDisks.1 hi
    rcases hF with rfl | rfl <;> simp [hip, hiq]
  constructor
  · intro h
    refine le_ten_of_places (b := b) hn fun i hi => ?_
    obtain ⟨out, hok⟩ := h.onesOn {i}
    rw [hway _ _ _ _ _ rfl (Nat.mul_div_cancel b fourBytes_pos)] at hok
    exact @codeOfData_bound ((Ncfs.onesOn n {i}).fail F _) _ _ _ _ _ hok i hi (by decide)
      (readDisk_onesOn_ne (hdata i hi) (Finset.mem_singleton_self i) (by decide))
  · intro hn' st junk buf size offset htotal hoffset
    rw [hway st junk buf size offset htotal hoffset]
    have hlow : 2 ≤ (st.fail F junk).diskTotalNum := show 2 ≤ st.diskTotalNum by omega
    have hhigh : (st.fail F junk).diskTotalNum ≤ 10 := show st.diskTotalNum ≤ 10 by omega
    exact ⟨_, codeOfData_eq hlow hhigh _ _⟩

/-- **`Q` is computed from the data that `P` restores up to ten disks.** -/
theorem decodeInRange_code_data (hn : 3 ≤ n) (hf : f ∈ dataDisks n b) :
    DecodeInRange n b (codeDiskId n b) {codeDiskId n b, f} ↔ n ≤ 10 := by
  have hq := codeDiskId_lt (n := n) (b := b) (by omega)
  have hp := parityDiskId_lt (n := n) (b := b) (by omega)
  have hpq := parityDiskId_ne_codeDiskId (n := n) (b := b) (by omega)
  obtain ⟨hfn, hfp, hfq⟩ := mem_dataDisks.1 hf
  have hsurvive : ∀ i, i ≠ codeDiskId n b ∧ i ≠ f → i ∉ ({codeDiskId n b, f} : Finset ℕ) :=
    fun i h => by simp [h.1, h.2]
  constructor
  · intro h
    refine le_ten_of_places (b := b) hn fun i hi => ?_
    obtain ⟨-, hip, hiq⟩ := mem_dataDisks.1 hi
    -- the block of `i` is one: on its disk, or as the sum of the survivors
    obtain ⟨out, hok⟩ := h.onesOn (if i = f then {parityDiskId n b} else {i})
    rw [decode_pair (Nat.mul_div_cancel b fourBytes_pos) hq hfn hfq, onesOn_diskTotalNum,
      if_neg hfq, if_neg (fun h => hfp h.2), if_neg hpq.symm, if_pos rfl] at hok
    obtain ⟨buf, hbuf, hok⟩ := Loops.bind_eq_ok hok
    obtain ⟨qTemp, hqTemp, -⟩ := Loops.bind_eq_ok hok
    refine @codeOfData_bound ((Ncfs.onesOn n _).fail _ _) _ _ _ _ _ hqTemp i hi (by decide) ?_
    by_cases hif : i = f
    · rw [if_neg (not_not.2 hif)]
      rw [xorSurvivors_eq (fun j _ hj => by rw [fail_diskStatus, if_neg (hsurvive j hj)])] at hbuf
      rw [← Except.ok.inj hbuf, xorBuf_of_lt _ _ (by decide), memset0_of_lt (by decide), zero_add,
        if_pos hif, Finset.sum_eq_single (parityDiskId n b)]
      · exact readDisk_onesOn_ne (hsurvive _ ⟨hpq, hfp.symm⟩) (Finset.mem_singleton_self _)
          (by decide)
      · intro j hj hjp
        rw [readDisk_onesOn (hsurvive j (Finset.mem_filter.1 hj).2) (by decide),
          if_neg (fun h => hjp (Finset.mem_singleton.1 h))]
      · intro h
        exact absurd (Finset.mem_filter.2 ⟨Finset.mem_range.2 hp, hpq, hfp.symm⟩) h
    · rw [if_pos hif, if_neg hif]
      exact readDisk_onesOn_ne (hsurvive i ⟨hiq, hif⟩) (Finset.mem_singleton_self i) (by decide)
  · rintro hn' st junk buf size offset rfl hoffset
    rw [decode_pair hoffset hq hfn hfq, if_neg hfq, if_neg (fun h => hfp h.2), if_neg hpq.symm,
      if_pos rfl]
    let failed := st.fail {codeDiskId st.diskTotalNum b, f} junk
    obtain ⟨sum, hsum⟩ : ∃ sum, xorSurvivors failed _ (memset0 buf size) size offset = .ok sum :=
      xorSurvivors_returns (fun i _ h => hsurvive i h) (memset0 buf size) size offset
    rw [hsum, Loops.ok_bind]
    have hlow : 2 ≤ failed.diskTotalNum := show 2 ≤ st.diskTotalNum by omega
    have hhigh : failed.diskTotalNum ≤ 10 := hn'
    rw [@codeOfData_eq failed b size hlow hhigh]
    exact ⟨_, rfl⟩

/-- The bounds of the lines that end with the division by the coefficient of `disk_id`, from their
runs on blocks of ones. -/
theorem solveQ_onesOn_bound (hn : 3 ≤ n) (hq : codeDiskId n b ∉ F) (hF : ∀ i ∈ F, i = d ∨ i = f)
    (h : ∀ S, ∃ out, solveQ .new ((onesOn n S).fail F junk) b d f
      (memset0 (fun _ => 0) 4) 4 (b * 4) = .ok out) :
    (∀ i ∈ dataDisks n b, i ≠ d → i ≠ f → n ≤ dataPlace n b i + 10) ∧
      ∃ c, dataDiskCoeff n b d = .ok c ∧ c ≤ 255 := by
  have hsurvive : ∀ i, i ≠ d → i ≠ f → i ∉ F := fun i hid hif hi => (hF i hi).elim hid hif
  refine ⟨fun i hi hid hif => ?_, ?_⟩
  · obtain ⟨out, hok⟩ := h {i}
    have hlow : 2 ≤ ((onesOn n {i}).fail F junk).diskTotalNum := show 2 ≤ n by omega
    refine (solveQ_bound hlow hok (by decide)).1 i hi hid hif ?_
    exact readDisk_onesOn_ne (hsurvive i hid hif) (Finset.mem_singleton_self i) (by decide)
  · obtain ⟨out, hok⟩ := h {codeDiskId n b}
    have hlow : 2 ≤ ((onesOn n {codeDiskId n b}).fail F junk).diskTotalNum := show 2 ≤ n by omega
    obtain ⟨c, hc, hle⟩ := (solveQ_bound hlow hok (by decide)).2
    refine ⟨c, hc, hle (fun i _ hother j hj => ?_)
      (readDisk_onesOn_ne hq (Finset.mem_singleton_self _) (by decide))⟩
    refine (readDisk_onesOn (hsurvive i hother.1 hother.2.1) hj).trans (if_neg fun h => ?_)
    exact hother.2.2.2 (Finset.mem_singleton.1 h)

/-- **A data disk is solved from `Q` up to ten disks.** -/
theorem decodeInRange_data_parity (hn : 3 ≤ n) (hd : d ∈ dataDisks n b) :
    DecodeInRange n b d {d, parityDiskId n b} ↔ n ≤ 10 := by
  have hp := parityDiskId_lt (n := n) (b := b) (by omega)
  have hpq := parityDiskId_ne_codeDiskId (n := n) (b := b) (by omega)
  obtain ⟨hdn, hdp, hdq⟩ := mem_dataDisks.1 hd
  constructor
  · intro h
    obtain ⟨hothers, hcoeff⟩ := @solveQ_onesOn_bound n b d (parityDiskId n b) {d, parityDiskId n b}
      (fun _ _ => 0) hn (by simp [hdq.symm, hpq.symm]) (fun i hi => by simpa using hi) fun S => by
        have hok := h.onesOn S
        rwa [decode_pair (Nat.mul_div_cancel b fourBytes_pos) hdn hp hdp.symm, onesOn_diskTotalNum,
          if_neg hpq, if_neg (fun h => hdq h.1), if_neg hdp, if_neg hdq, if_pos rfl] at hok
    refine le_ten_of_places (b := b) hn fun i hi => ?_
    by_cases hid : i = d
    · rw [hid]
      exact (dataDiskCoeff_byte_iff (dataPlace_le (by omega) hd)).1 hcoeff
    · exact hothers i hi hid (mem_dataDisks.1 hi).2.1
  · rintro hn' st junk buf size offset rfl hoffset
    rw [decode_pair hoffset hdn hp hdp.symm, if_neg hpq, if_neg (fun h => hdq h.1), if_neg hdp,
      if_neg hdq, if_pos rfl]
    have hlow : 2 ≤ (st.fail {d, parityDiskId st.diskTotalNum b} junk).diskTotalNum :=
      show 2 ≤ st.diskTotalNum by omega
    exact solveQ_returns hlow (fun i _ _ _ => show st.diskTotalNum ≤ _ by omega)
      (dataPlace_le (n := st.diskTotalNum) (by omega) hd) (show st.diskTotalNum ≤ _ by omega) _

/-- The bounds of the branch for `P` and a data disk. -/
theorem parity_bounds_iff (hn : 4 ≤ n) (hf : f ∈ dataDisks n b) :
    ((∀ i ∈ dataDisks n b, i ≠ parityDiskId n b → i ≠ f → n ≤ dataPlace n b i + 10) ∧
      ∃ c, dataDiskCoeff n b (parityDiskId n b) = .ok c ∧ c ≤ 255) ↔
    1 ≤ b % n ∧ b % n + 1 < n ∧
      (n ≤ 10 ∨ n = 11 ∧ 0 ∈ ({parityDiskId n b, f} : Finset ℕ) ∧ b % n + 2 < n) := by
  by_cases hrow : 1 ≤ b % n ∧ b % n + 1 < n
  · have hp := parityDiskId_eq (b := b) (show 2 ≤ n by omega)
    rw [if_pos hrow.2] at hp
    have hq : codeDiskId n b = n - 1 - b % n := rfl
    have hplace : dataPlace n b (parityDiskId n b) = n - 2 - b % n := by
      rw [dataPlace]
      split <;> split <;> omega
    rw [dataDiskCoeff_byte_iff (dataPlace_parity_le hrow), hplace, Finset.mem_insert,
      Finset.mem_singleton, hp]
    constructor
    · rintro ⟨hothers, hle⟩
      refine ⟨hrow.1, hrow.2, ?_⟩
      obtain ⟨i, hi, hi0⟩ := exists_dataPlace (b := b) (k := 0) (show 0 + 3 ≤ n by omega)
      obtain ⟨j, hj, hj1⟩ := exists_dataPlace (b := b) (k := 1) (show 1 + 3 ≤ n by omega)
      by_contra hten
      have hif : i = f := by
        by_contra h
        have := hothers i hi (hp ▸ (mem_dataDisks.1 hi).2.1) h
        omega
      have hjf : j ≠ f := by
        rintro rfl
        rw [hif] at hi0
        omega
      have hjn := hothers j hj (hp ▸ (mem_dataDisks.1 hj).2.1) hjf
      -- the first data disk is the first disk
      have hzero : i = 0 := by
        rw [dataPlace] at hi0
        obtain ⟨-, hip, hiq⟩ := mem_dataDisks.1 hi
        split at hi0 <;> split at hi0 <;> omega
      omega
    · rintro ⟨-, -, hten | ⟨rfl, h0, hlt⟩⟩
      · exact ⟨fun i _ _ _ => by omega, by omega⟩
      · have hf0 : f = 0 := by omega
        refine ⟨fun i hi _ hif => ?_, by omega⟩
        have hplace : 1 ≤ dataPlace 11 b i := by
          obtain ⟨-, hip, hiq⟩ := mem_dataDisks.1 hi
          rw [dataPlace]
          split <;> split <;> omega
        omega
  · refine iff_of_false (fun h => ?_) (fun h => hrow ⟨h.1, h.2.1⟩)
    obtain ⟨-, c, hc, -⟩ := h
    rw [dataDiskCoeff_parity (by omega) hrow] at hc
    cases hc

/-- **`P` and a data disk**: the coefficient of `P` is asked for, and not that of the data disk. -/
theorem decodeInRange_parity_data (hn : 4 ≤ n) (hf : f ∈ dataDisks n b) :
    DecodeInRange n b (parityDiskId n b) {parityDiskId n b, f} ↔
      1 ≤ b % n ∧ b % n + 1 < n ∧
        (n ≤ 10 ∨ n = 11 ∧ 0 ∈ ({parityDiskId n b, f} : Finset ℕ) ∧ b % n + 2 < n) := by
  have hp := parityDiskId_lt (n := n) (b := b) (by omega)
  have hpq := parityDiskId_ne_codeDiskId (n := n) (b := b) (by omega)
  obtain ⟨hfn, hfp, hfq⟩ := mem_dataDisks.1 hf
  rw [← parity_bounds_iff hn hf]
  constructor
  · intro h
    refine @solveQ_onesOn_bound n b _ f {parityDiskId n b, f} (fun _ _ => 0) (by omega)
      (by simp [hpq.symm, hfq.symm]) (fun i hi => by simpa using hi) fun S => ?_
    obtain ⟨out, hok⟩ := h.onesOn S
    rw [decode_pair (Nat.mul_div_cancel b fourBytes_pos) hp hfn hfp, onesOn_diskTotalNum,
      if_neg hfq, if_neg (fun h => hpq h.1), if_pos rfl] at hok
    obtain ⟨buf, hbuf, -⟩ := Loops.bind_eq_ok hok
    exact ⟨buf, hbuf⟩
  · rintro ⟨hothers, c, hc, hle⟩ st junk buf size offset rfl hoffset
    have hplace : dataPlace st.diskTotalNum b (parityDiskId st.diskTotalNum b) + 3 ≤
        st.diskTotalNum := by
      by_contra h
      have hrow : ¬ (1 ≤ b % st.diskTotalNum ∧ b % st.diskTotalNum + 1 < st.diskTotalNum) :=
        fun hrow => h (dataPlace_parity_le hrow)
      rw [dataDiskCoeff_parity (by omega) hrow] at hc
      cases hc
    rw [decode_pair hoffset hp hfn hfp, if_neg hfq, if_neg (fun h => hpq h.1), if_pos rfl]
    let failed := st.fail {parityDiskId st.diskTotalNum b, f} junk
    have hlow : 2 ≤ failed.diskTotalNum := show 2 ≤ st.diskTotalNum by omega
    obtain ⟨sum, hsum⟩ := @solveQ_returns failed b size offset hlow _ f hothers hplace
      ((dataDiskCoeff_byte_iff hplace).1 ⟨c, hc, hle⟩) (memset0 buf size)
    rw [hsum, Loops.ok_bind]
    exact xorSurvivors_returns (fun i _ h hi => by
      rcases Finset.mem_insert.1 hi with hi | hi
      · exact h.1 hi
      · exact h.2.2 (Finset.mem_singleton.1 hi)) sum size offset

/-- The sum of a large power of two and a smaller one is no byte. -/
theorem two_pow_xor_two_pow_gt {i j : ℕ} (hi : 8 ≤ i) (hij : i ≠ j) : 255 < 2 ^ i ^^^ 2 ^ j := by
  have hbit : (2 ^ i ^^^ 2 ^ j).testBit i = true := by
    rw [Nat.testBit_xor, Nat.testBit_two_pow_self, Nat.testBit_two_pow_of_ne hij.symm]
    rfl
  calc 255 < 2 ^ 8 := by decide
    _ ≤ 2 ^ i := Nat.pow_le_pow_right (by decide) hi
    _ ≤ 2 ^ i ^^^ 2 ^ j := Nat.ge_two_pow_of_testBit hbit

/-- **Two data disks are solved from `P` and `Q` up to ten disks.** -/
theorem decodeInRange_data_data (hn : 3 ≤ n) (hd : d ∈ dataDisks n b) (hf : f ∈ dataDisks n b)
    (hfd : f ≠ d) : DecodeInRange n b d {d, f} ↔ n ≤ 10 := by
  have hp := parityDiskId_lt (n := n) (b := b) (by omega)
  have hpq := parityDiskId_ne_codeDiskId (n := n) (b := b) (by omega)
  obtain ⟨hdn, hdp, hdq⟩ := mem_dataDisks.1 hd
  obtain ⟨hfn, hfp, hfq⟩ := mem_dataDisks.1 hf
  have hsurvive : ∀ i, i ≠ d → i ≠ f → i ∉ ({d, f} : Finset ℕ) := fun i hid hif => by
    simp [hid, hif]
  constructor
  · intro h
    have hway : ∀ S, ∃ out, solvePQ .new ((Ncfs.onesOn n S).fail {d, f} fun _ _ => 0) b d f
        (memset0 (fun _ => 0) 4) 4 (b * 4) = .ok out := by
      intro S
      have hok := h.onesOn S
      rwa [decode_pair (Nat.mul_div_cancel b fourBytes_pos) hdn hfn hfd, onesOn_diskTotalNum,
        if_neg hfq, if_neg (fun h => hdq h.1), if_neg hdp, if_neg hdq, if_neg hfp] at hok
    have hzero : ∀ (S : Finset ℕ), (∀ i ∈ S, i ∉ dataDisks n b) → ∀ i < n,
        OtherData ((Ncfs.onesOn n S).fail {d, f} fun _ _ => 0) b d f i → ∀ j < 4,
          readDisk ((Ncfs.onesOn n S).fail {d, f} fun _ _ => 0) i (fun _ => 0) 4 (b * 4) j = 0 := by
      intro S hS i hi hother j hj
      rw [readDisk_onesOn (hsurvive i hother.1 hother.2.1) hj,
        if_neg (fun h => hS i h (mem_dataDisks.2 ⟨hi, hother.2.2⟩))]
    have htwo : 2 ≤ n := by omega
    obtain ⟨i, hi, hplace⟩ := exists_dataPlace (b := b) (k := 0) hn
    by_cases hid : i = d
    · -- `Q` is one: the sum of the coefficients is asked for
      subst hid
      obtain ⟨out, hok⟩ := hway {codeDiskId n b}
      obtain ⟨-, g1, g2, hg1, hg2, hle⟩ := @solvePQ_bound _ b 4 (b * 4) htwo i f _ _ hok (by decide)
      have hsum :=
        (hle (hzero _ fun j hj h => (mem_dataDisks.1 h).2.2 (Finset.mem_singleton.1 hj))).2
        (by
          refine (readDisk_onesOn (hsurvive _ hdp.symm hfp.symm) (by decide)).trans
            (if_neg fun h => ?_)
          exact hpq (Finset.mem_singleton.1 h))
        (readDisk_onesOn_ne (hsurvive _ hdq.symm hfq.symm) (Finset.mem_singleton_self _)
          (by decide))
      by_contra hten
      have hfplace : dataPlace n b f ≠ 0 := fun h =>
        hfd (dataPlace_injOn htwo hf hd (h.trans hplace.symm))
      have h33 : n ≤ 33 := by
        by_contra h
        have := hg1.symm.trans (dataDiskCoeff_of_lt (n := n) htwo (by omega))
        cases this
      have hg1' := hg1.symm.trans (dataDiskCoeff_of_le (n := n) (dataPlace_le htwo hd) (by omega))
      have hg2' := hg2.symm.trans (dataDiskCoeff_of_le (n := n) (dataPlace_le htwo hf) (by omega))
      rw [Except.ok.inj hg1', Except.ok.inj hg2'] at hsum
      have hgt := two_pow_xor_two_pow_gt (i := n - 3 - dataPlace n b i)
        (j := n - 3 - dataPlace n b f) (by omega) (by have := dataPlace_le htwo hf; omega)
      omega
    by_cases hif : i = f
    · -- `P` is one: the coefficient of the other failed disk is asked for
      subst hif
      obtain ⟨out, hok⟩ := hway {parityDiskId n b}
      obtain ⟨-, g1, g2, hg1, hg2, hle⟩ := @solvePQ_bound _ b 4 (b * 4) htwo d i _ _ hok (by decide)
      have hbyte :=
        (hle (hzero _ fun j hj h => (mem_dataDisks.1 h).2.1 (Finset.mem_singleton.1 hj))).1
        (readDisk_onesOn_ne (hsurvive _ hdp.symm hfp.symm) (Finset.mem_singleton_self _)
          (by decide))
      have := (dataDiskCoeff_byte_iff (dataPlace_le htwo hf)).1 ⟨g2, hg2, hbyte⟩
      omega
    · obtain ⟨out, hok⟩ := hway {i}
      have := (@solvePQ_bound _ b 4 (b * 4) htwo d f _ _ hok (by decide)).1 i hi hid hif
        (readDisk_onesOn_ne (hsurvive i hid hif) (Finset.mem_singleton_self i) (by decide))
      have hn' : n ≤ dataPlace n b i + 10 := this
      omega
  · rintro hn' st junk buf size offset rfl hoffset
    rw [decode_pair hoffset hdn hfn hfd, if_neg hfq, if_neg (fun h => hdq h.1), if_neg hdp,
      if_neg hdq, if_neg hfp]
    have hlow : 2 ≤ (st.fail {d, f} junk).diskTotalNum := show 2 ≤ st.diskTotalNum by omega
    obtain ⟨out, hok, -⟩ :=
      @solvePQ_eq (st.fail {d, f} junk) b size offset hlow hn' d f hd hf hfd.symm
      (memset0 buf size)
    exact ⟨out, hok⟩

/-- **The bounds are exact for each call of `decode`.** -/
theorem decodeInRange_iff (hn : 4 ≤ n) (hF : F ⊆ Finset.range n) (hcard : F.card ≤ 2) (hd : d < n) :
    DecodeInRange n b d F ↔ DecodeBounds n b d F := by
  rw [DecodeBounds]
  by_cases hdF : d ∈ F
  swap
  · rw [if_pos (.inl hdF)]
    exact iff_true_intro (decodeInRange_of_notMem hdF)
  by_cases hsum : d ≠ codeDiskId n b ∧ F ⊆ {d, codeDiskId n b}
  · rw [if_pos (.inr hsum)]
    exact iff_true_intro (decodeInRange_sum hd hdF hsum.1 hsum.2)
  rw [if_neg (fun h => h.elim (fun h => h hdF) hsum)]
  have hpq := parityDiskId_ne_codeDiskId (n := n) (b := b) (by omega)
  obtain ⟨F', hF', rfl⟩ : ∃ F', d ∉ F' ∧ insert d F' = F :=
    ⟨F.erase d, Finset.notMem_erase d F, Finset.insert_erase hdF⟩
  have hcard' : F'.card ≤ 1 := by
    rw [Finset.card_insert_of_notMem hF'] at hcard
    omega
  obtain ⟨f, hf⟩ := Finset.card_le_one_iff_subset_singleton.1 hcard'
  rcases Finset.subset_singleton_iff.1 hf with rfl | rfl
  · -- one failed disk, which is `Q`
    obtain rfl : d = codeDiskId n b := by
      by_contra h
      exact hsum ⟨h, by simp⟩
    rw [if_neg hpq.symm]
    exact decodeInRange_code (by omega) (.inl rfl)
  · have hfn : f < n := Finset.mem_range.1 (hF (by simp))
    have hfd : f ≠ d := fun h => hF' (by simp [h])
    by_cases hdq : d = codeDiskId n b
    · rw [if_neg (hdq ▸ hpq.symm)]
      subst hdq
      by_cases hfp : f = parityDiskId n b
      · exact decodeInRange_code (by omega) (.inr (by rw [hfp]))
      · exact decodeInRange_code_data (by omega) (mem_dataDisks.2 ⟨hfn, hfp, hfd⟩)
    have hfq : f ≠ codeDiskId n b := fun h => hsum ⟨hdq, by rw [h]⟩
    by_cases hdp : d = parityDiskId n b
    · rw [if_pos hdp]
      subst hdp
      exact decodeInRange_parity_data hn (mem_dataDisks.2 ⟨hfn, hfd, hfq⟩)
    rw [if_neg hdp]
    have hdata : d ∈ dataDisks n b := mem_dataDisks.2 ⟨hd, hdp, hdq⟩
    by_cases hfp : f = parityDiskId n b
    · subst hfp
      exact decodeInRange_data_parity (by omega) hdata
    · exact decodeInRange_data_data (by omega) hdata (mem_dataDisks.2 ⟨hfn, hfp, hfq⟩) hfd

end Calls

/-! ### Writes -/

/-- A full store hands out the first block of the space list. -/
theorem raid6Allocate_full {st : NcfsState} (hfull : ∀ i, st.freeSize i ≤ 0) {x : ℕ × ℕ}
    (hlist : st.spaceList = [x]) {req : ℕ} (hreq : 0 < req) :
    (raid6Allocate st req).1 = some x ∧ (raid6Allocate st req).2.disk = st.disk := by
  have hskip : (∀ i, (raid6SkipCodeBlocks st).freeSize i ≤ 0) ∧
      (raid6SkipCodeBlocks st).spaceList = [x] := by
    refine Loops.foldl_inv (fun st : NcfsState => (∀ i, st.freeSize i ≤ 0) ∧ st.spaceList = [x])
      (fun st i _ h => ?_) ⟨hfull, hlist⟩
    split
    · refine ⟨fun j => ?_, h.2⟩
      have hle := h.1 i
      rcases eq_or_ne j i with rfl | hji
      · simp only [chargeDisk, Function.update_self]
        omega
      · simpa only [chargeDisk, Function.update_of_ne hji] using h.1 j
    · exact h
  have hselect : selectDisk (raid6SkipCodeBlocks st) (raid6SkipCodeBlocks st).diskTotalNum req =
      none := by
    refine Loops.foldl_inv (fun acc : Option (ℕ × ℕ) × ℕ => acc.1 = none) (fun acc i _ h => ?_) rfl
    have hle := hskip.1 i
    rw [if_neg (by omega)]
    exact h
  refine ⟨?_, (raid6Allocate_same st req).disk_eq⟩
  rw [raid6Allocate, raid6Pick, hselect, hskip.2]

/-- A write returns when the coefficients are bytes. -/
theorem raid6Write_returns {st : NcfsState} (hn : 3 ≤ st.diskTotalNum) (hn' : st.diskTotalNum ≤ 10)
    (d b : ℕ) (buf : Buf) (size : ℕ) : ∃ st', raid6Write .new st d b buf size = .ok st' := by
  let bufRead := fun i => readDisk (writeDisk st d buf size (b * st.diskBlockSize)) i (fun _ => 0)
    (roundToBlockSize st size) (b * st.diskBlockSize)
  let pass (bufs : Buf × Buf) (i : ℕ) : Except CodingError (Buf × Buf) := do
    let buf3 ← gfMulXorBuf .new (roundToBlockSize st size) (dataDiskCoeff st.diskTotalNum b i)
      bufs.2 (bufRead i)
    .ok (xorBuf (roundToBlockSize st size) bufs.1 (bufRead i), buf3)
  have hpass : ∀ bufs, ∀ i < st.diskTotalNum, i ≠ parityDiskId st.diskTotalNum b ∧
      i ≠ codeDiskId st.diskTotalNum b → ∃ bufs', pass bufs i = .ok bufs' := by
    intro bufs i hi huse
    have hcoeff := dataDiskCoeff_eq (b := b) hn'
      (dataPlace_le (by omega) (mem_dataDisks.2 ⟨hi, huse⟩))
    simp only [pass, gfMulXorBuf_eq hcoeff, Loops.ok_bind]
    exact ⟨_, rfl⟩
  obtain ⟨bufs, hbufs⟩ := forDisks_returns hpass (fun _ => 0, fun _ => 0)
  let st₁ := writeDisk st d buf size (b * st.diskBlockSize)
  let st₂ := writeDisk st₁ (parityDiskId st.diskTotalNum b) bufs.1 size (b * st.diskBlockSize)
  refine ⟨writeDisk st₂ (codeDiskId st.diskTotalNum b) bufs.2 size (b * st.diskBlockSize), ?_⟩
  exact (congrArg (fun x => x >>= _) hbufs).trans (Loops.ok_bind ..)

/-- A full store of ones, with one block on the space list. -/
def fullOfOnes (n b : ℕ) : NcfsState :=
  { NcfsState.blank n (n - 2) 4 fourBytes_pos 0 with
    spaceList := [(0, b)]
    disk := fun _ _ => Byte.ofNat 1 }

theorem blockRequest_fullOfOnes (n b : ℕ) : blockRequest (fullOfOnes n b) 4 = 1 := by
  have hbs : (fullOfOnes n b).diskBlockSize = 4 := rfl
  rw [blockRequest, roundToBlockSize, hbs]
  rfl

theorem raid6Allocate_fullOfOnes (n b : ℕ) :
    (raid6Allocate (fullOfOnes n b) (blockRequest (fullOfOnes n b) 4)).1 = some (0, b) ∧
      (raid6Allocate (fullOfOnes n b) (blockRequest (fullOfOnes n b) 4)).2.disk =
        (fullOfOnes n b).disk := by
  refine raid6Allocate_full (fun _ => le_rfl) rfl ?_
  rw [blockRequest_fullOfOnes]
  exact Nat.one_pos

/-- Writing ones there returns only when all coefficients are bytes. -/
theorem encode_fullOfOnes {n b : ℕ} (hn : 3 ≤ n) {result : Option (ℕ × ℕ) × NcfsState}
    (hok : Coding4Raid6.new.encode (fullOfOnes n b) (fun _ => Byte.ofNat 1) 4 = .ok result) :
    n ≤ 10 := by
  refine le_ten_of_places (b := b) hn fun i hi => ?_
  obtain ⟨hpick, hdisk⟩ := raid6Allocate_fullOfOnes n b
  have hsame := raid6Allocate_same (fullOfOnes n b) (blockRequest (fullOfOnes n b) 4)
  rw [Coding4Raid6.encode] at hok
  obtain ⟨⟨served, st₁⟩, hall⟩ :
      ∃ x, raid6Allocate (fullOfOnes n b) (blockRequest (fullOfOnes n b) 4) = x := ⟨_, rfl⟩
  rw [hall] at hok hpick hsame hdisk
  obtain rfl : served = some (0, b) := hpick
  obtain ⟨st₂, hwrite, -⟩ := Loops.bind_eq_ok hok
  obtain ⟨bufs, hbufs, -⟩ := Loops.bind_eq_ok hwrite
  have htotal : st₁.diskTotalNum = n := hsame.total_eq
  have hwritten :
      (writeDisk st₁ 0 (fun _ => Byte.ofNat 1) 4 (b * st₁.diskBlockSize)).diskTotalNum = n :=
    htotal
  rw [htotal, hwritten] at hbufs
  obtain ⟨s₁, s₂, hpass⟩ := forDisks_pass hbufs (mem_dataDisks.1 hi).1 (mem_dataDisks.1 hi).2
  obtain ⟨buf3, hbuf3, -⟩ := Loops.bind_eq_ok hpass
  have hbs : st₁.diskBlockSize = 4 := hsame.block_eq
  have hsize : roundToBlockSize st₁ 4 = 4 := by
    rw [roundToBlockSize, hbs]
    rfl
  obtain ⟨c, hc, hle⟩ := gfMulXorBuf_returns_iff.1 ⟨buf3, hbuf3⟩ 0 (by rw [hsize]; decide)
  refine (dataDiskCoeff_byte_iff (dataPlace_le (by omega) hi)).1 ⟨c, hc, hle.resolve_left ?_⟩
  have hones : ∀ d x, (writeDisk st₁ 0 (fun _ => Byte.ofNat 1) 4 (b * st₁.diskBlockSize)).disk d x =
      Byte.ofNat 1 := by
    intro d x
    have hold : st₁.disk d x = Byte.ofNat 1 := congrFun (congrFun hdisk d) x
    simp only [writeDisk, hold, ite_self]
  rw [readDisk, hsize, if_pos (by decide), hones]
  decide

/-- **`encode` makes its lookups in range up to ten disks.** -/
theorem encodeInRange_iff {n b : ℕ} (hn : 3 ≤ n) : EncodeInRange n b ↔ n ≤ 10 := by
  constructor
  · intro h
    obtain ⟨result, hok⟩ := h (fullOfOnes n b) 0 (fun _ => Byte.ofNat 1) 4 rfl
      (raid6Allocate_fullOfOnes n b).1
    exact encode_fullOfOnes hn hok
  · rintro hn' st d buf size rfl -
    rw [Coding4Raid6.encode]
    split
    · exact ⟨_, rfl⟩
    · rename_i d b st₁ hall
      have hn₁ : st₁.diskTotalNum = st.diskTotalNum := by
        have := (raid6Allocate_same st (blockRequest st size)).total_eq
        rwa [hall] at this
      obtain ⟨st₂, hwrite⟩ := @raid6Write_returns st₁ (by omega) (by omega) d b buf size
      exact ⟨_, by rw [hwrite, Loops.ok_bind]⟩

/-! ### All bounds -/

/-- **The lookups of RAID6 are in range exactly within these bounds.**  For every row: those of
`encode` up to ten disks, those of a call of `decode` as `DecodeBounds` says, and the data disks
have coefficients of their own up to 33 disks. -/
theorem raid6_lookups_iff {n : ℕ} (hn : 4 ≤ n) (b : ℕ) :
    (EncodeInRange n b ↔ n ≤ 10) ∧
    (∀ F ⊆ Finset.range n, F.card ≤ 2 → ∀ d < n, DecodeInRange n b d F ↔ DecodeBounds n b d F) ∧
    (OwnCoefficients n b ↔ n ≤ 33) :=
  ⟨encodeInRange_iff (by omega), fun _ hF hcard _ hd => decodeInRange_iff hn hF hcard hd,
    ownCoefficients_iff (by omega)⟩

/-- Four disks. -/
theorem raid6_lookups_four :
    EncodeInRange 4 1 ∧ DecodeInRange 4 1 0 {0, 3} ∧ OwnCoefficients 4 1 := by
  obtain ⟨hencode, hdecode, hown⟩ := raid6_lookups_iff (n := 4) le_rfl 1
  refine ⟨hencode.2 (by decide), (hdecode {0, 3} (by decide) (by decide) 0 (by decide)).2 ?_,
    hown.2 (by decide)⟩
  rw [DecodeBounds]
  decide

/-- Eleven disks, whose first data disk has the coefficient 256. -/
theorem raid6_lookups_eleven :
    ¬ ∃ result, Coding4Raid6.new.encode (fullOfOnes 11 0)
    (fun _ => Byte.ofNat 1) 4 = .ok result := by
  rintro ⟨result, hok⟩
  exact absurd (encode_fullOfOnes (by decide) hok) (by decide)

end Ncfs
