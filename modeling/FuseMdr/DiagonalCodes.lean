/-
The fault tolerance of the EVENODD and RDP layouts.

The constructors accept every number `k` of data disks.  Any two disks of a strip are determined by
the others exactly when `k` is an odd prime for EVENODD, and when `k + 1` is prime for RDP.

Main definitions:

* `Ncfs.ElemTable.Determines` — two disks are determined by the others.

Main results:

* `Ncfs.ElemTable.determines_iff` — it suffices to look at contents that are zero on the other
  disks;
* `Ncfs.Coding4Evenodd.sum_elemHash`, `Ncfs.Coding4Rdp.sum_elemHash` — the cells listed for a `Q`
  block as values of the extended columns;
* `Ncfs.diagonalCodes_determine_iff` — the sizes at which the codes tolerate two faults.
-/
import FuseMdr.Evenodd
import FuseMdr.Rdp
import FuseMdr.Residues

set_option relaxedAutoImplicit false
set_option autoImplicit false

namespace Ncfs

open Residue

/-! ### Lost disks -/

namespace ElemTable

variable {V : Type*} [AddCommGroup V] {coding : ElemTable}

/-- The contents of disks `a` and `b` are determined by those of the other disks. -/
def Determines (V : Type*) [AddCommGroup V] (coding : ElemTable) (a b : ℕ) : Prop :=
  ∀ c c' : Pair → V, coding.Parity c → coding.Parity c' →
    (∀ j ≤ coding.k + 1, j ≠ a → j ≠ b → ∀ r < coding.row, c (r, j) = c' (r, j)) →
    ∀ r < coding.row, c (r, a) = c' (r, a) ∧ c (r, b) = c' (r, b)

/-- The contents are zero outside two disks. -/
def VanishesOff (coding : ElemTable) (c : Pair → V) (a b : ℕ) : Prop :=
  ∀ j ≤ coding.k + 1, j ≠ a → j ≠ b → ∀ r < coding.row, c (r, j) = 0

theorem Parity.zero : coding.Parity fun _ => (0 : V) :=
  ⟨fun _ _ => by simp, fun _ _ => by simp⟩

theorem Parity.add {c c' : Pair → V} (h : coding.Parity c) (h' : coding.Parity c') :
    coding.Parity fun e => c e + c' e where
  p r hr := by rw [h.p r hr, h'.p r hr, Finset.sum_add_distrib]
  q i hi := by rw [h.q i hi, h'.q i hi, ← List.sum_map_add]

theorem determines_comm {a b : ℕ} : coding.Determines V a b ↔ coding.Determines V b a := by
  have hsymm : ∀ a b, coding.Determines V a b → coding.Determines V b a := by
    intro a b h c c' hc hc' hagree r hr
    exact (h c c' hc hc' (fun j hj hja hjb => hagree j hj hjb hja) r hr).symm
  exact ⟨hsymm a b, hsymm b a⟩

/-- `Q` is zero where the listed cells are. -/
theorem Parity.q_eq_zero {c : Pair → V} (h : coding.Parity c) (hs : coding.Sound) {i : ℕ}
    (hi : i < coding.row) (hzero : ∀ j ≤ coding.k, ∀ r < coding.row, c (r, j) = 0) :
    c (i, coding.k + 1) = 0 := by
  rw [h.q i hi]
  refine List.sum_eq_zero fun x hx => ?_
  obtain ⟨e, he, rfl⟩ := List.mem_map.1 hx
  obtain ⟨h₁, h₂⟩ := hs.named_mem i hi e.swap (List.mem_map.2 ⟨e, he, rfl⟩)
  exact hzero e.2 h₁ e.1 h₂

variable [Module (ZMod 2) V]

/-- Two disks are determined exactly when contents that are zero on the other disks are zero. -/
theorem determines_iff {a b : ℕ} :
    coding.Determines V a b ↔ ∀ c : Pair → V, coding.Parity c → coding.VanishesOff c a b →
      ∀ r < coding.row, c (r, a) = 0 ∧ c (r, b) = 0 := by
  constructor
  · intro h c hc hoff
    exact h c (fun _ => 0) hc Parity.zero hoff
  · intro h c c' hc hc' hagree r hr
    obtain ⟨ha, hb⟩ := h _ (hc.add hc') (fun j hj hja hjb r hr =>
      Xor.add_eq_zero_iff.2 (hagree j hj hja hjb r hr)) r hr
    exact ⟨Xor.eq_of_add_eq_zero ha, Xor.eq_of_add_eq_zero hb⟩

/-- A row whose blocks are zero but for one data or `P` block is zero. -/
theorem Parity.eq_zero_of_row {c : Pair → V} (h : coding.Parity c) {a r : ℕ} (ha : a ≤ coding.k)
    (hr : r < coding.row) (hother : ∀ j ≤ coding.k, j ≠ a → c (r, j) = 0) : c (r, a) = 0 := by
  have hsum : ∑ j ∈ Finset.range (coding.k + 1), c (r, j) = 0 := by
    rw [Finset.sum_range_succ, ← h.p r hr, ZModModule.add_self]
  rwa [Finset.sum_eq_single a
    (fun j hj hja => hother j (Nat.lt_succ_iff.1 (Finset.mem_range.1 hj)) hja)
    (fun hmem => absurd (Finset.mem_range.2 (Nat.lt_succ_of_le ha)) hmem)] at hsum

/-- In a row whose blocks are zero but for two data or `P` blocks, these are equal. -/
theorem Parity.eq_of_row {c : Pair → V} (h : coding.Parity c) {a b r : ℕ} (hab : a < b)
    (hb : b ≤ coding.k) (hr : r < coding.row)
    (hother : ∀ j ≤ coding.k, j ≠ a → j ≠ b → c (r, j) = 0) : c (r, a) = c (r, b) := by
  have hsum : ∑ j ∈ Finset.range (coding.k + 1), c (r, j) = 0 := by
    rw [Finset.sum_range_succ, ← h.p r hr, ZModModule.add_self]
  exact Xor.eq_of_sum_eq_zero (by omega) (by omega) (by omega)
    (fun j hj hja hjb => hother j (by omega) hja hjb) hsum

/-- `Q` and a data disk or `P` are always determined. -/
theorem determines_q (hs : coding.Sound) {a : ℕ} (ha : a ≤ coding.k) :
    coding.Determines V a (coding.k + 1) := by
  refine determines_iff.2 fun c hc hoff => ?_
  have hzero : ∀ j ≤ coding.k, ∀ r < coding.row, c (r, j) = 0 := by
    intro j hj r hr
    by_cases hja : j = a
    · subst hja
      exact hc.eq_zero_of_row hj hr fun j' hj' hne => hoff j' (by omega) hne (by omega) r hr
    · exact hoff j (by omega) hja (by omega) r hr
  exact fun r hr => ⟨hzero a ha r hr, hc.q_eq_zero hs hr hzero⟩

end ElemTable

/-! ### EVENODD -/

namespace Coding4Evenodd

variable {V : Type*} [AddCommGroup V] {st : NcfsState}

/-- The cells listed for a `Q` block: in each data disk one on the special diagonal, and one on its
own. -/
theorem sum_elemHash {i : ℕ} (hi : i < st.dataDiskNum - 1) (c : Pair → V) :
    (((new st).elemHash (i, st.dataDiskNum + 1)).map c).sum =
      ∑ d ∈ Finset.range st.dataDiskNum,
        (extend st.dataDiskNum (fun r => c (r, d)) (-1 - d) +
          extend st.dataDiskNum (fun r => c (r, d)) (i - d)) := by
  rw [Xor.sum_map_of_count (s := Finset.range (st.dataDiskNum - 1) ×ˢ Finset.range st.dataDiskNum)
    (p := fun e : Pair => e.1 + e.2 = st.dataDiskNum - 1 ∨ (e.1 + e.2) % st.dataDiskNum = i),
    Finset.sum_product_right]
  · refine Finset.sum_congr rfl fun d hd => ?_
    have hd := Finset.mem_range.1 hd
    rw [← natCast_pred (by omega), ← sum_diagonal _ (by omega), ← sum_diagonal _ (by omega),
      ← Finset.sum_add_distrib]
    refine Finset.sum_congr rfl fun r hr => ?_
    have hr := Finset.mem_range.1 hr
    -- the special diagonal is the one of the virtual row
    have hspecial : r + d = st.dataDiskNum - 1 ↔ (r + d) % st.dataDiskNum = st.dataDiskNum - 1 := by
      rcases Nat.lt_or_ge (r + d) st.dataDiskNum with h | h
      · rw [Nat.mod_eq_of_lt h]
      · rw [Nat.mod_eq_sub_mod h, Nat.mod_eq_of_lt (by omega)]
        omega
    dsimp only
    by_cases h : (r + d) % st.dataDiskNum = st.dataDiskNum - 1
    · rw [if_pos (Or.inl (hspecial.2 h)), if_pos h, if_neg (by omega), add_zero]
    · simp only [hspecial, h, false_or, if_false, zero_add]
  · rintro ⟨r, d⟩
    rw [count_elemHash hi]
    refine if_congr ?_ rfl rfl
    rw [Finset.mem_product, Finset.mem_range, Finset.mem_range]
    tauto

/-- The equations of a strip, with the `Q` blocks in terms of extended columns. -/
theorem parity_iff_extend {c : Pair → V} :
    (new st).Parity c ↔
      (∀ r < st.dataDiskNum - 1, c (r, st.dataDiskNum) =
        ∑ j ∈ Finset.range st.dataDiskNum, c (r, j)) ∧
      ∀ i < st.dataDiskNum - 1, c (i, st.dataDiskNum + 1) =
        ∑ d ∈ Finset.range st.dataDiskNum,
          (extend st.dataDiskNum (fun r => c (r, d)) (-1 - d) +
            extend st.dataDiskNum (fun r => c (r, d)) (i - d)) := by
  constructor
  · intro h
    exact ⟨h.p, fun i hi => (h.q i hi).trans (sum_elemHash hi c)⟩
  · rintro ⟨hp, hq⟩
    exact ⟨hp, fun i hi => (hq i hi).trans (sum_elemHash hi c).symm⟩

variable [Module (ZMod 2) V]

/-- A data disk and `P` are determined: all cells of the data disk equal the one on the special
diagonal, and the virtual one is zero. -/
theorem determines_p (hk : 2 ≤ st.dataDiskNum) {a : ℕ} (ha : a < st.dataDiskNum) :
    (new st).Determines V a st.dataDiskNum := by
  refine ElemTable.determines_iff.2 fun c hc hoff => ?_
  have hoff : ∀ j ≤ st.dataDiskNum + 1, j ≠ a → j ≠ st.dataDiskNum →
      ∀ r < st.dataDiskNum - 1, c (r, j) = 0 := hoff
  have hpos : 0 < st.dataDiskNum := by omega
  set v := extend st.dataDiskNum fun r => c (r, a) with hv
  have hq : ∀ i < st.dataDiskNum - 1, v (-1 - a) + v ((i : ℕ) - a) = 0 := by
    intro i hi
    have hqi := (parity_iff_extend.1 hc).2 i hi
    rw [hoff _ le_rfl (by omega) (by omega) i hi, Finset.sum_eq_single a] at hqi
    · exact hqi.symm
    · intro d hd hda
      have hd := Finset.mem_range.1 hd
      rw [extend_eq_zero (hoff d (by omega) hda (by omega))]
      simp
    · intro hmem
      exact absurd (Finset.mem_range.2 ha) hmem
  have hconst : ∀ y : ZMod st.dataDiskNum, v (-1 - a) + v (y - a) = 0 :=
    forall_of_lt hpos hq (ZModModule.add_self _)
  have hzero : ∀ y, v y = 0 := by
    intro y
    have hy := Xor.eq_of_add_eq_zero (hconst (y + a))
    have hlast := Xor.eq_of_add_eq_zero (hconst (-1 + a))
    rw [add_sub_cancel_right] at hy hlast
    rw [← hy, hlast, hv, extend_neg_one _ hpos]
  have hdata : ∀ r < st.dataDiskNum - 1, c (r, a) = 0 := by
    intro r hr
    rw [← hzero r, hv, extend_natCast _ hr]
  intro r hr
  refine ⟨hdata r hr, ?_⟩
  rw [(parity_iff_extend.1 hc).1 r hr]
  refine Finset.sum_eq_zero fun j hj => ?_
  have hj := Finset.mem_range.1 hj
  by_cases hja : j = a
  · rw [hja]
    exact hdata r hr
  · exact hoff j (by omega) hja (by omega) r hr

/-- For an odd prime number of data disks, any two data disks are determined. -/
theorem determines_data (hprime : st.dataDiskNum.Prime) (hodd : Odd st.dataDiskNum) {a b : ℕ}
    (hab : a < b) (hb : b < st.dataDiskNum) : (new st).Determines V a b := by
  have : Fact st.dataDiskNum.Prime := ⟨hprime⟩
  have hpos : 0 < st.dataDiskNum := by omega
  refine ElemTable.determines_iff.2 fun c hc hoff => ?_
  have hoff : ∀ j ≤ st.dataDiskNum + 1, j ≠ a → j ≠ b →
      ∀ r < st.dataDiskNum - 1, c (r, j) = 0 := hoff
  have hrow : ∀ r < st.dataDiskNum - 1, c (r, a) = c (r, b) := fun r hr =>
    hc.eq_of_row hab hb.le hr fun j (hj : j ≤ st.dataDiskNum) hja hjb =>
      hoff j (by omega) hja hjb r hr
  set v := extend st.dataDiskNum fun r => c (r, a) with hv
  have hvb : extend st.dataDiskNum (fun r => c (r, b)) = v :=
    extend_congr fun r hr => (hrow r hr).symm
  have hq : ∀ i < st.dataDiskNum - 1,
      v ((i : ℕ) - a) + v ((i : ℕ) - b) = v (-1 - a) + v (-1 - b) := by
    intro i hi
    have hqi := (parity_iff_extend.1 hc).2 i hi
    rw [hoff _ le_rfl (by omega) (by omega) i hi, Finset.sum_eq_add_of_mem a b
      (Finset.mem_range.2 (by omega)) (Finset.mem_range.2 hb) (by omega), hvb,
      add_add_add_comm] at hqi
    · exact (Xor.eq_of_add_eq_zero hqi.symm).symm
    · intro d hd hne
      have hd := Finset.mem_range.1 hd
      rw [extend_eq_zero (hoff d (by omega) hne.1 hne.2)]
      simp
  have hall : ∀ y : ZMod st.dataDiskNum, v (y - a) + v (y - b) = v (-1 - a) + v (-1 - b) :=
    forall_of_lt hpos hq rfl
  have hzero : ∀ y, v y = 0 := eq_zero_of_add_eq hodd (natCast_ne (by omega) hb (by omega))
    (extend_neg_one (fun r => c (r, a)) hpos) hall
  intro r hr
  have hra : c (r, a) = 0 := by
    rw [← hzero r, hv, extend_natCast _ hr]
  exact ⟨hra, (hrow r hr).symm.trans hra⟩

/-- When `m` divides the number of data disks, disks `0` and `m` may hold the same comb. -/
theorem parity_comb {m : ℕ} (hm : 1 < m) (hmk : m < st.dataDiskNum) (hdvd : m ∣ st.dataDiskNum)
    (δ : V) :
    (new st).Parity fun e => if e.2 = 0 ∨ e.2 = m then comb m δ e.1 else 0 := by
  have hpair : ∀ {f : ℕ → V}, (∀ d < st.dataDiskNum, d ≠ 0 → d ≠ m → f d = 0) → f 0 = f m →
      ∑ d ∈ Finset.range st.dataDiskNum, f d = 0 := by
    intro f hf heq
    rw [Finset.sum_eq_add_of_mem 0 m (Finset.mem_range.2 (by omega)) (Finset.mem_range.2 hmk)
      (by omega) fun d hd hne => hf d (Finset.mem_range.1 hd) hne.1 hne.2, heq, ZModModule.add_self]
  refine parity_iff_extend.2 ⟨fun r _ => ?_, fun i _ => ?_⟩
  · rw [if_neg (by omega), hpair]
    · intro d _ h₀ hm'
      exact if_neg (by tauto)
    · simp
  · rw [if_neg (by omega), hpair]
    · intro d _ h₀ hm'
      rw [extend_eq_zero fun r _ => if_neg (by tauto)]
      simp
    · simp only [true_or, or_true, if_true, Nat.cast_zero, sub_zero]
      rw [show (fun r => comb m δ r) = comb m δ from rfl, extend_comb_sub (by omega) hm hdvd,
        extend_comb_sub (by omega) hm hdvd]

/-- With two data disks both may hold the same block. -/
theorem parity_two (hk : st.dataDiskNum = 2) (δ : V) :
    (new st).Parity fun e => if e.2 < 2 then δ else 0 := by
  obtain ⟨n, k, bs, hbs, fo, fs, status, list, disk⟩ := st
  obtain rfl : k = 2 := hk
  have h₀ : extend 2 (fun _ => δ) 0 = δ := rfl
  have h₁ : extend 2 (fun _ => δ) 1 = 0 := rfl
  refine parity_iff_extend.2 ⟨fun r _ => ?_, fun i hi => ?_⟩
  · simp [Finset.sum_range_succ, ZModModule.add_self]
  · obtain rfl : i = 0 := Nat.lt_one_iff.1 hi
    change (0 : V) = ∑ d ∈ Finset.range 2,
      (extend 2 (fun _ => if d < 2 then δ else 0) (-1 - (d : ZMod 2)) +
        extend 2 (fun _ => if d < 2 then δ else 0) (((0 : ℕ) : ZMod 2) - d))
    rw [Finset.sum_range_succ, Finset.sum_range_one]
    simp only [Nat.zero_lt_two, Nat.one_lt_two, if_true]
    rw [show (-1 - ((0 : ℕ) : ZMod 2)) = 1 by decide,
      show (((0 : ℕ) : ZMod 2) - ((0 : ℕ) : ZMod 2)) = 0 by decide,
      show (-1 - ((1 : ℕ) : ZMod 2)) = 0 by decide,
      show (((0 : ℕ) : ZMod 2) - ((1 : ℕ) : ZMod 2)) = 1 by decide, h₀, h₁, zero_add, add_zero,
      ZModModule.add_self]

/-- Any two disks are determined exactly for an odd prime number of data disks. -/
theorem determines_iff_prime [Nontrivial V] (hk : 2 ≤ st.dataDiskNum) :
    (∀ a b, a ≠ b → a ≤ st.dataDiskNum + 1 → b ≤ st.dataDiskNum + 1 →
      (new st).Determines V a b) ↔ st.dataDiskNum.Prime ∧ Odd st.dataDiskNum := by
  constructor
  · intro h
    obtain ⟨δ, hδ⟩ := exists_ne (0 : V)
    have hne : st.dataDiskNum ≠ 2 := by
      intro h2
      have hzero := ElemTable.determines_iff.1 (h 0 1 (by omega) (by omega) (by omega)) _
        (parity_two h2 δ) (fun j _ h₀ h₁ r _ => if_neg (show ¬ j < 2 by omega)) 0
        (show 0 < st.dataDiskNum - 1 by omega)
      exact hδ hzero.1
    have hprime : st.dataDiskNum.Prime := by
      by_contra hnot
      obtain ⟨m, hdvd, hm, hmk⟩ := Nat.exists_dvd_of_not_prime2 hk hnot
      have hzero := ElemTable.determines_iff.1 (h 0 m (by omega) (by omega) (by omega)) _
        (parity_comb hm hmk hdvd δ) (fun j _ h₀ h₁ r _ => if_neg (by tauto)) 0
        (show 0 < st.dataDiskNum - 1 by omega)
      have hδ' := hzero.1
      rw [if_pos (Or.inl rfl), comb, if_pos (dvd_zero m)] at hδ'
      exact hδ hδ'
    exact ⟨hprime, hprime.odd_of_ne_two hne⟩
  · rintro ⟨hprime, hodd⟩
    have hlt : ∀ a b, a < b → b ≤ st.dataDiskNum + 1 → (new st).Determines V a b := by
      intro a b hab hb
      rcases Nat.lt_trichotomy b st.dataDiskNum with hbk | rfl | hbk
      · exact determines_data hprime hodd hab hbk
      · exact determines_p hk hab
      · obtain rfl : b = st.dataDiskNum + 1 := by omega
        exact ElemTable.determines_q (sound hk) (show a ≤ st.dataDiskNum by omega)
    intro a b hab ha hb
    rcases lt_or_gt_of_ne hab with h | h
    · exact hlt a b h hb
    · exact ElemTable.determines_comm.1 (hlt b a h ha)

end Coding4Evenodd

/-! ### RDP -/

namespace Coding4Rdp

variable {V : Type*} [AddCommGroup V] {st : NcfsState}

/-- The cells listed for a `Q` block: in each data disk and in `P` the one on its diagonal. -/
theorem sum_elemHash {i : ℕ} (hi : i < st.dataDiskNum) (c : Pair → V) :
    (((new st).elemHash (i, st.dataDiskNum + 1)).map c).sum =
      ∑ d ∈ Finset.range (st.dataDiskNum + 1),
        extend (st.dataDiskNum + 1) (fun r => c (r, d)) (i - d) := by
  rw [Xor.sum_map_of_count (s := Finset.range st.dataDiskNum ×ˢ Finset.range (st.dataDiskNum + 1))
    (p := fun e : Pair => (e.1 + e.2) % (st.dataDiskNum + 1) = i), Finset.sum_product_right]
  · refine Finset.sum_congr rfl fun d _ => ?_
    rw [← sum_diagonal _ (by omega)]
    rfl
  · rintro ⟨r, d⟩
    rw [count_elemHash hi]
    refine if_congr ?_ rfl rfl
    rw [Finset.mem_product, Finset.mem_range, Finset.mem_range, Nat.lt_succ_iff, and_assoc]

/-- The equations of a strip, with the `Q` blocks in terms of extended columns. -/
theorem parity_iff_extend {c : Pair → V} :
    (new st).Parity c ↔
      (∀ r < st.dataDiskNum, c (r, st.dataDiskNum) =
        ∑ j ∈ Finset.range st.dataDiskNum, c (r, j)) ∧
      ∀ i < st.dataDiskNum, c (i, st.dataDiskNum + 1) =
        ∑ d ∈ Finset.range (st.dataDiskNum + 1),
          extend (st.dataDiskNum + 1) (fun r => c (r, d)) (i - d) := by
  constructor
  · intro h
    exact ⟨h.p, fun i hi => (h.q i hi).trans (sum_elemHash hi c)⟩
  · rintro ⟨hp, hq⟩
    exact ⟨hp, fun i hi => (hq i hi).trans (sum_elemHash hi c).symm⟩

variable [Module (ZMod 2) V]

/-- When one more than the number of data disks is prime, any two data or `P` disks are determined:
the equation of the diagonal without a `Q` block follows from the others. -/
theorem determines_data (hprime : (st.dataDiskNum + 1).Prime) {a b : ℕ} (hab : a < b)
    (hb : b ≤ st.dataDiskNum) : (new st).Determines V a b := by
  have : Fact (st.dataDiskNum + 1).Prime := ⟨hprime⟩
  refine ElemTable.determines_iff.2 fun c hc hoff => ?_
  have hoff : ∀ j ≤ st.dataDiskNum + 1, j ≠ a → j ≠ b → ∀ r < st.dataDiskNum, c (r, j) = 0 := hoff
  have hrow : ∀ r < st.dataDiskNum, c (r, a) = c (r, b) := fun r hr =>
    hc.eq_of_row hab hb hr fun j (hj : j ≤ st.dataDiskNum) hja hjb =>
      hoff j (by omega) hja hjb r hr
  set v := extend (st.dataDiskNum + 1) fun r => c (r, a) with hv
  have hvb : extend (st.dataDiskNum + 1) (fun r => c (r, b)) = v :=
    extend_congr fun r hr => (hrow r hr).symm
  have hq : ∀ i < st.dataDiskNum + 1 - 1, v ((i : ℕ) - a) + v ((i : ℕ) - b) = 0 := by
    intro i hi
    have hqi := (parity_iff_extend.1 hc).2 i hi
    rw [hoff _ le_rfl (by omega) (by omega) i hi, Finset.sum_eq_add_of_mem a b
      (Finset.mem_range.2 (by omega)) (Finset.mem_range.2 (by omega)) (by omega), hvb] at hqi
    · exact hqi.symm
    · intro d hd hne
      have hd := Finset.mem_range.1 hd
      rw [extend_eq_zero (hoff d (by omega) hne.1 hne.2)]
      rfl
  have hall : ∀ y, v (y - a) + v (y - b) = 0 := eq_zero_of_sum hq (sum_add_translate v a b)
  have hzero : ∀ y, v y = 0 := eq_zero_of_translate (natCast_ne (by omega) (by omega) (by omega))
    (extend_neg_one (fun r => c (r, a)) (by omega)) hall
  intro r hr
  have hra : c (r, a) = 0 := by
    rw [← hzero r, hv, extend_natCast _ hr]
  exact ⟨hra, (hrow r hr).symm.trans hra⟩

/-- When `m` divides one more than the number of data disks, disks `0` and `m` may hold the same
comb. -/
theorem parity_comb {m : ℕ} (hm : 1 < m) (hmk : m < st.dataDiskNum)
    (hdvd : m ∣ st.dataDiskNum + 1) (δ : V) :
    (new st).Parity fun e => if e.2 = 0 ∨ e.2 = m then comb m δ e.1 else 0 := by
  have hpair : ∀ {n : ℕ} {f : ℕ → V}, m < n → (∀ d < n, d ≠ 0 → d ≠ m → f d = 0) → f 0 = f m →
      ∑ d ∈ Finset.range n, f d = 0 := by
    intro n f hmn hf heq
    rw [Finset.sum_eq_add_of_mem 0 m (Finset.mem_range.2 (by omega)) (Finset.mem_range.2 hmn)
      (by omega) fun d hd hne => hf d (Finset.mem_range.1 hd) hne.1 hne.2, heq, ZModModule.add_self]
  refine parity_iff_extend.2 ⟨fun r _ => ?_, fun i _ => ?_⟩
  · rw [if_neg (by omega), hpair hmk]
    · intro d _ h₀ hm'
      exact if_neg (by tauto)
    · simp
  · rw [if_neg (by omega), hpair (by omega)]
    · intro d _ h₀ hm'
      rw [extend_eq_zero fun r _ => if_neg (by tauto)]
      rfl
    · simp only [true_or, or_true, if_true, Nat.cast_zero, sub_zero]
      rw [show (fun r => comb m δ r) = comb m δ from rfl, extend_comb_sub (by omega) hm hdvd]

/-- Any two disks are determined exactly when one more than the number of data disks is prime. -/
theorem determines_iff_prime [Nontrivial V] (hk : 1 ≤ st.dataDiskNum) :
    (∀ a b, a ≠ b → a ≤ st.dataDiskNum + 1 → b ≤ st.dataDiskNum + 1 →
      (new st).Determines V a b) ↔ (st.dataDiskNum + 1).Prime := by
  constructor
  · intro h
    obtain ⟨δ, hδ⟩ := exists_ne (0 : V)
    by_contra hnot
    obtain ⟨m, hdvd, hm, hmk⟩ := Nat.exists_dvd_of_not_prime2 (by omega) hnot
    have hlt : m < st.dataDiskNum := by
      -- `m` does not divide two successive numbers
      rcases Nat.lt_or_eq_of_le (Nat.lt_succ_iff.1 hmk) with hlt | rfl
      · exact hlt
      · have := Nat.le_of_dvd one_pos ((Nat.dvd_add_right dvd_rfl).1 hdvd)
        omega
    have hzero := ElemTable.determines_iff.1 (h 0 m (by omega) (by omega) (by omega)) _
      (parity_comb hm hlt hdvd δ) (fun j _ h₀ h₁ r _ => if_neg (by tauto)) 0 hk
    have hδ' := hzero.1
    rw [if_pos (Or.inl rfl), comb, if_pos (dvd_zero m)] at hδ'
    exact hδ hδ'
  · intro hprime
    have hlt : ∀ a b, a < b → b ≤ st.dataDiskNum + 1 → (new st).Determines V a b := by
      intro a b hab hb
      rcases Nat.lt_or_ge st.dataDiskNum b with hbk | hbk
      · obtain rfl : b = st.dataDiskNum + 1 := by omega
        exact ElemTable.determines_q (sound hk) (show a ≤ st.dataDiskNum by omega)
      · exact determines_data hprime hab hbk
    intro a b hab ha hb
    rcases lt_or_gt_of_ne hab with h | h
    · exact hlt a b h hb
    · exact ElemTable.determines_comm.1 (hlt b a h ha)

end Coding4Rdp

/-- The sizes at which the two codes tolerate the loss of any two disks. -/
theorem diagonalCodes_determine_iff (V : Type*) [AddCommGroup V] [Module (ZMod 2) V] [Nontrivial V]
    (st : NcfsState) :
    (2 ≤ st.dataDiskNum →
      ((∀ a b, a ≠ b → a ≤ st.dataDiskNum + 1 → b ≤ st.dataDiskNum + 1 →
        (Coding4Evenodd.new st).Determines V a b) ↔
          st.dataDiskNum.Prime ∧ Odd st.dataDiskNum)) ∧
      (1 ≤ st.dataDiskNum →
        ((∀ a b, a ≠ b → a ≤ st.dataDiskNum + 1 → b ≤ st.dataDiskNum + 1 →
          (Coding4Rdp.new st).Determines V a b) ↔ (st.dataDiskNum + 1).Prime)) :=
  ⟨fun hk => Coding4Evenodd.determines_iff_prime hk, fun hk => Coding4Rdp.determines_iff_prime hk⟩

/-- Four data disks: EVENODD does not tolerate two faults, RDP does. -/
theorem diagonalCodes_determine_iff_four :
    let st := NcfsState.blank 6 4 1 (by decide) 4
    ((∀ a b, a ≠ b → a ≤ 5 → b ≤ 5 → (Coding4Evenodd.new st).Determines Byte a b) ↔
      Nat.Prime 4 ∧ Odd 4) ∧
      ((∀ a b, a ≠ b → a ≤ 5 → b ≤ 5 → (Coding4Rdp.new st).Determines Byte a b) ↔ Nat.Prime 5) :=
  ⟨(diagonalCodes_determine_iff Byte (NcfsState.blank 6 4 1 (by decide) 4)).1 (by decide),
    (diagonalCodes_determine_iff Byte (NcfsState.blank 6 4 1 (by decide) 4)).2 (by decide)⟩

end Ncfs
