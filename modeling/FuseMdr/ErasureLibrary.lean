/-
**The codes over the library itself.**

The layers over GF(256) have been proved correct for any library that multiplies and inverts.  Here
they run on the functions of the library: its tables, its elimination and its generator matrix.

Main definitions:

* `Ncfs.Jerasure.library` — the functions, as the layers call them;
* `Ncfs.generatorMatrix` — what their constructors store.

Main results:

* `Ncfs.Jerasure.library_multiplies`, `Ncfs.library_inverts` — what the layers rely on;
* `Ncfs.CodingLayer.rs_configured`, `Ncfs.CodingLayer.srcRs_configured`,
  `Ncfs.CodingLayer.mbr_configured` — the layers that the constructors make;
* `Ncfs.CodingLayer.library_recovers_iff` — which failures they survive.
-/
import FuseMdr.FaultTolerance
import FuseMdr.Vandermonde

set_option relaxedAutoImplicit false
set_option autoImplicit false

namespace Ncfs

open Elimination

/-! ### The library -/

/-- The functions of the library.  A call that does not return, of which there are none, stands for
a zero and for no matrix. -/
def Jerasure.library : Jerasure where
  galoisSingleMultiply x y w :=
    match Ncfs.galoisSingleMultiply x y w with
    | .ok v => v
    | .error _ => 0
  jerasureInvertMatrix mat rows w :=
    match Ncfs.jerasureInvertMatrix mat (fun _ => 0) rows w with
    | .ok inv => inv
    | .error _ => none

/-- `NCFS_DATA->generator_matrix` after `reed_sol_vandermonde_coding_matrix`. -/
def generatorMatrix (memory : ℕ → ℕ) (k m w i : ℕ) : ℕ :=
  match reedSolVandermondeCodingMatrix k m w memory with
  | .ok (some matrix) => matrix.getD i 0
  | _ => 0

theorem Jerasure.library_multiplies : library.Multiplies := by
  intro x y
  change (match Ncfs.galoisSingleMultiply x.toNat y.toNat fieldPower with
    | .ok v => v
    | .error _ => 0) = _
  rw [galoisSingleMultiply_eq]

section Inverts

variable {k m : ℕ} {memory : ℕ → ℕ}

/-- The generator rows of the matrix.  Without code cells there is no matrix, and only the unit rows
are left. -/
theorem generatorMatrix_ok (memory : ℕ → ℕ) (hk : 1 ≤ k) (hfield : k + m ≤ 256) :
    (∀ i, generatorMatrix memory k m fieldPower i < 256) ∧ ∃ A : ℕ → ℕ → Byte, Generic (k + m) k A ∧
      ∀ r < k + m, ∀ c < k, LinearCode.generator k
        (fun j i => Byte.ofNat (generatorMatrix memory k m fieldPower (j * k + i))) r
          c = A r c := by
  rcases Nat.eq_zero_or_pos m with rfl | hm
  · have hnull : ∀ i, generatorMatrix memory k 0 fieldPower i = 0 := fun i => by
      rw [generatorMatrix, reedSolVandermondeCodingMatrix_none (Or.inl rfl)]
    refine ⟨fun i => (hnull i).trans_lt (by decide), unit, generic_unit k, fun r hr c _ => ?_⟩
    rw [LinearCode.generator, if_pos (show r < k from hr), unit]
    exact if_congr eq_comm rfl rfl
  obtain ⟨matrix, A, hok, hlen, hgeneric, hunit, -, -, hentry⟩ :=
    reedSolVandermondeCodingMatrix_ok hk hm hfield memory
  have hmatrix : ∀ i, generatorMatrix memory k m fieldPower i = matrix.getD i 0 := fun i => by
    rw [generatorMatrix, hok]
  refine ⟨fun i => ?_, A, hgeneric, fun r hr c hc => ?_⟩
  · rw [hmatrix]
    by_cases hi : i < m * k
    · have hrow : i / k < m := Nat.div_lt_of_lt_mul (by rwa [Nat.mul_comm])
      rw [← Nat.div_add_mod' i k, hentry (i / k) hrow (i % k) (Nat.mod_lt i hk)]
      exact Byte.toNat_lt _
    · rw [List.getD_eq_default _ _ (by omega)]
      decide
  · rw [LinearCode.generator]
    split
    · rename_i hrk
      rw [hunit r hrk c hc, unit]
      exact if_congr eq_comm rfl rfl
    · rename_i hrk
      rw [hmatrix, hentry (r - k) (by omega) c hc, Byte.ofNat_toNat, Nat.add_sub_cancel'
        (not_lt.1 hrk)]

/-- The chosen cells are different. -/
theorem dmIds_spec {total : ℕ} {erased : ℕ → ℕ} {ids : List ℕ}
    (h : dmIds k total erased = .ok ids) :
    ids.length = k ∧ ids.Nodup ∧ ∀ id ∈ ids, id < total := by
  rw [dmIds] at h
  split at h
  · cases h
  · rename_i hlen
    obtain rfl := Except.ok.inj h
    refine ⟨?_, (List.nodup_range.filter _).sublist (List.take_sublist ..), fun id hid => ?_⟩
    · rw [List.length_take] at hlen ⊢
      omega
    · exact List.mem_range.1 (List.mem_filter.1 (List.mem_of_mem_take hid)).1

/-- The rows of the chosen cells are an array of bytes. -/
theorem survivorRows_enc {matrix : ℕ → ℕ} (hmatrix : ∀ i, matrix i < 256) (ids : List ℕ) :
    Enc k k (survivorRows k matrix ids) fun l i =>
      LinearCode.generator k (fun j i => Byte.ofNat (matrix (j * k + i))) (ids.getD l 0) i := by
  intro l _ i hi
  refine Eq.trans (Byte.toNat_ofNat_of_lt ?_).symm (congrArg Byte.toNat (survivorRows_eq hi))
  rw [survivorRows]
  split
  · split <;> decide
  · exact hmatrix _

/-- **The library inverts the rows of any `k` cells.** -/
theorem library_inverts (hk : 1 ≤ k) (hfield : k + m ≤ 256) {erased : ℕ → ℕ} {ids : List ℕ}
    (hids : dmIds k (k + m) erased = .ok ids) :
    Jerasure.library.Inverts (survivorRows k (generatorMatrix memory k m fieldPower) ids) k := by
  obtain ⟨hmatrix, A, hgeneric, hrows⟩ := generatorMatrix_ok memory hk hfield
  obtain ⟨hlen, hnodup, hlt⟩ := dmIds_spec hids
  have henc := survivorRows_enc (k := k) hmatrix ids
  have hmem : ∀ l < k, ids.getD l 0 < k + m := fun l hl => hlt _ (getD_mem (by omega))
  rcases jerasureInvertMatrix_spec henc fun _ => 0 with ⟨-, v, hv, j, hj, hne⟩ | ⟨inv, B,
    hok, hB, hone⟩
  · -- no vector is mapped to zero
    refine absurd (hgeneric (fun l => ids.getD l 0) (fun l hl l' hl' heq => ?_) hmem v
      (hv.congr fun l hl c hc => ?_) j hj) hne
    · have hl : l < k := hl
      have hl' : l' < k := hl'
      have heq : ids.getD l 0 = ids.getD l' 0 := heq
      rw [List.getD_eq_getElem _ _ (by omega), List.getD_eq_getElem _ _ (by omega)] at heq
      exact hnodup.getElem_inj_iff.1 heq
    · exact (hrows _ (hmem l hl) c hc).symm
  · refine ⟨inv, ?_, fun i hi => ?_, fun d hd i hi => ?_⟩
    · change (match Ncfs.jerasureInvertMatrix _ (fun _ => 0) k fieldPower with
        | .ok inv => inv
        | .error _ => none) = _
      rw [hok]
    · rw [← Nat.div_add_mod' i k, hB (i / k) (Nat.div_lt_of_lt_mul hi) (i % k) (Nat.mod_lt i hk)]
      exact Byte.toNat_lt _
    · refine Eq.trans (Finset.sum_congr rfl fun l hl => ?_) (hone d hd i hi)
      rw [Nat.mul_comm k d, hB d hd l (Finset.mem_range.1 hl), Byte.ofNat_toNat, survivorRows_eq hi]

end Inverts

/-! ### The layers -/

namespace CodingLayer

variable {n k : ℕ} {memory : ℕ → ℕ}

theorem library_invertsAll (hk : 1 ≤ k) (hkn : k < n) (hfield : n ≤ 256) :
    InvertsAll .library (generatorMatrix memory k (n - k) fieldPower) n k := by
  intro F _ _ ids hids
  have hcells : dmIds k (k + (n - k)) (failedFlag F) = .ok ids := by
    rwa [Nat.add_sub_cancel' hkn.le]
  exact library_inverts hk (by omega) hcells

/-- The Reed-Solomon layer of `Coding4RS::Coding4RS`. -/
theorem rs_configured (hk : 1 ≤ k) (hkn : k < n) (hfield : n ≤ 256) :
    (rs .library (generatorMatrix memory k (n - k) fieldPower)).Configured n k :=
  ⟨hkn.le, Jerasure.library_multiplies, library_invertsAll hk hkn hfield⟩

/-- The layer of `Coding4SrcRS::Coding4SrcRS`. -/
theorem srcRs_configured (hk : 1 ≤ k) (hkn : k < n) (hfield : n ≤ 256) {f : ℕ} (hf : 1 ≤ f)
    (hfn : f < n) :
    (srcRs .library (generatorMatrix memory k (n - k) fieldPower) f).Configured n k :=
  ⟨hkn.le, hf, hfn, Jerasure.library_multiplies, library_invertsAll hk hkn hfield⟩

/-- The layer of `Coding4Mbr::Coding4Mbr`, whose code has a cell for each pair of disks.  With one
code disk none of them is a code cell, and `generator_matrix` is `NULL`. -/
theorem mbr_configured (hk : 1 ≤ k) (hkn : k < n) (hfield : n * (n - 1) / 2 ≤ 256) :
    (mbr (Coding4Mbr.new n k (generatorMatrix memory)) .library).Configured n k := by
  have hM := Coding4Mbr.new_spec hk hkn (generatorMatrix memory)
  have hmatrix : (Coding4Mbr.new n k (generatorMatrix memory)).generatorMatrix =
      generatorMatrix memory (Coding4Mbr.new n k (generatorMatrix memory)).mbrM
        (Coding4Mbr.new n k (generatorMatrix memory)).mbrC fieldPower := rfl
  have htotal := hM.total_eq
  have hnative := hM.native_eq
  have hfirst : Triangle.rowStart (n - 1) 1 ≤ Triangle.rowStart (n - 1) k :=
    Triangle.rowStart_mono _ hk
  rw [Triangle.rowStart_succ] at hfirst
  rw [Triangle.rowStart_self, Nat.sub_add_cancel (by omega), Nat.mul_comm] at htotal
  refine ⟨hM, Jerasure.library_multiplies, fun st junk F _ _ ids hids => ?_⟩
  rw [hmatrix]
  generalize (Coding4Mbr.new n k (generatorMatrix memory)).mbrM = native at *
  generalize (Coding4Mbr.new n k (generatorMatrix memory)).mbrC = code at *
  exact library_inverts (by omega) (by omega) hids

/-- **What the codes over the library survive.**  Nothing is assumed of the library: with its own
tables, elimination and generator matrix the codes recover from as many failures as they have code
disks, as long as the field has an element for each cell of a row. -/
theorem library_recovers_iff (memory : ℕ → ℕ) (hk : 1 ≤ k) (hkn : k < n) {F : Finset ℕ}
    (hF : F ⊆ Finset.range n) :
    (n ≤ 256 →
      ((rs .library (generatorMatrix memory k (n - k) fieldPower)).Recovers n k F ↔
        F.card + k ≤ n)) ∧
      (n ≤ 256 → ∀ f, 1 ≤ f → f < n →
        ((srcRs .library (generatorMatrix memory k (n - k) fieldPower) f).Recovers n k F ↔
          (∀ d ∈ F, d < k → ∀ b, ChainWorks n f F d b) ∨ F.card + k ≤ n)) ∧
      (n * (n - 1) / 2 ≤ 256 →
        ((mbr (Coding4Mbr.new n k (generatorMatrix memory)) .library).Recovers n k F ↔
          F.card + k ≤ n)) := by
  refine ⟨fun hfield => ?_, fun hfield f hf hfn => ?_, fun hfield => ?_⟩
  · exact rs_recovers_iff (rs_configured hk hkn hfield) hF
  · exact src_recovers_iff (srcRs_configured hk hkn hfield hf hfn) hF
  · exact mbr_recovers_iff (mbr_configured hk hkn hfield) hF

/-- Four data disks and two code disks, of which two have failed, and MBR on six disks with one code
disk, of which one has failed. -/
theorem library_recovers_iff_six :
    (rs .library (generatorMatrix (fun _ => 0) 4 2 fieldPower)).Recovers 6 4 {1, 5} ∧
      (mbr (Coding4Mbr.new 6 5 (generatorMatrix fun _ => 0)) .library).Recovers 6 5 {1} :=
  ⟨((library_recovers_iff (fun _ => 0) (show 1 ≤ 4 by decide) (show 4 < 6 by decide)
    (show {1, 5} ⊆ Finset.range 6 by decide)).1 (by decide)).2 (by decide),
    ((library_recovers_iff (fun _ => 0) (show 1 ≤ 5 by decide) (show 5 < 6 by decide)
      (show {1} ⊆ Finset.range 6 by decide)).2.2 (by decide)).2 (by decide)⟩

end CodingLayer

end Ncfs
