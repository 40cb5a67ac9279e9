/-
Groups in which every element is its own inverse, written additively.

Bytes under exclusive or form such a group, and so do blocks of bytes.  Mathlib describes them as
additive commutative groups that are modules over `ZMod 2`; this module adds the facts that
parity arguments use.

* `Xor.eq_of_add_eq_zero`, `Xor.add_add_cancel_left` — cancellation without subtraction;
* `Xor.nsmul_eq_ite` — a multiple only depends on the parity of its factor;
* `Xor.sum_range_erase` — one summand is the sum of the others and of the total;
* `Xor.touch`, `Xor.syndrome`, `Xor.incidence` — adding one value to a list of cells, the sum of a
  list of cells, and how often the one meets the other;
* `Xor.syndrome_touch` — a check moves by as many copies of the value as it meets touched cells.
-/
import Mathlib

set_option relaxedAutoImplicit false
set_option autoImplicit false

namespace Xor

variable {V : Type*} [AddCommGroup V] [Module (ZMod 2) V]

/-! ### Cancellation -/

theorem eq_of_add_eq_zero {x y : V} (h : x + y = 0) : x = y := by
  rw [← ZModModule.sub_eq_add] at h
  exact sub_eq_zero.1 h

theorem add_eq_zero_iff {x y : V} : x + y = 0 ↔ x = y := by
  constructor
  · exact eq_of_add_eq_zero
  · rintro rfl
    exact ZModModule.add_self x

theorem add_add_cancel_left (x y : V) : x + (x + y) = y := by
  rw [← add_assoc, ZModModule.add_self, zero_add]

/-- A multiple only depends on the parity of its factor. -/
theorem nsmul_eq_ite (n : ℕ) (x : V) : n • x = if Odd n then x else 0 := by
  induction n with
  | zero => simp
  | succ n ih =>
      rw [succ_nsmul, ih]
      by_cases h : Odd n
      · rw [if_pos h, if_neg (by simpa [Nat.odd_add_one] using h)]
        exact ZModModule.add_self x
      · rw [if_neg h, if_pos (Nat.odd_add_one.2 h), zero_add]

/-! ### Sums -/

/-- One summand is the total plus all the others. -/
theorem sum_range_erase {n d : ℕ} (hd : d < n) (f : ℕ → V) :
    f d = (∑ j ∈ Finset.range n, f j) + ∑ j ∈ (Finset.range n).erase d, f j := by
  rw [← Finset.add_sum_erase (Finset.range n) f (Finset.mem_range.2 hd), add_assoc,
    ZModModule.add_self, add_zero]

/-- Two summands that alone may be different from zero are equal when the sum is zero. -/
theorem eq_of_sum_eq_zero {n a b : ℕ} (ha : a < n) (hb : b < n) (hab : a ≠ b) {f : ℕ → V}
    (hf : ∀ j < n, j ≠ a → j ≠ b → f j = 0) (hsum : ∑ j ∈ Finset.range n, f j = 0) :
    f a = f b := by
  rw [Finset.sum_eq_add_of_mem a b (Finset.mem_range.2 ha) (Finset.mem_range.2 hb) hab] at hsum
  · exact eq_of_add_eq_zero hsum
  · intro j hj hne
    exact hf j (Finset.mem_range.1 hj) hne.1 hne.2

/-- The sum over the first numbers, as a sum over a list. -/
theorem sum_map_range {W : Type*} [AddCommMonoid W] (n : ℕ) (f : ℕ → W) :
    ((List.range n).map f).sum = ∑ j ∈ Finset.range n, f j :=
  rfl

/-- A sum over the selected numbers, as a sum of selected summands. -/
theorem sum_map_filter_range {W : Type*} [AddCommMonoid W] (n : ℕ) (p : ℕ → Bool) (f : ℕ → W) :
    (((List.range n).filter p).map f).sum = ∑ t ∈ Finset.range n, if p t then f t else 0 := by
  have hnodup : ((List.range n).filter p).Nodup := List.nodup_range.filter _
  rw [← Finset.sum_filter, ← List.sum_toFinset f hnodup, List.toFinset_filter,
    List.toFinset_range]

/-- A sum over the cells of a table of lists. -/
theorem sum_map_flatMap {ι κ W : Type*} [AddCommMonoid W] (l : List ι) (g : ι → List κ)
    (f : κ → W) : ((l.flatMap g).map f).sum = (l.map fun x => ((g x).map f).sum).sum := by
  rw [List.map_flatMap, List.flatMap, List.sum_flatten, List.map_map]
  rfl

/-- A sum over a list that holds each selected element of `s` once and nothing else. -/
theorem sum_map_of_count {ι W : Type*} [AddCommMonoid W] [BEq ι] [LawfulBEq ι] [DecidableEq ι]
    {l : List ι} {s : Finset ι} {p : ι → Prop} [DecidablePred p]
    (h : ∀ x, l.count x = if x ∈ s ∧ p x then 1 else 0) (f : ι → W) :
    (l.map f).sum = ∑ x ∈ s, if p x then f x else 0 := by
  have hperm : l.Perm (s.filter p).toList := by
    refine List.perm_iff_count.2 fun x => ?_
    rw [h x]
    split
    · rename_i hx
      exact (List.count_eq_one_of_mem (Finset.nodup_toList _)
        (Finset.mem_toList.2 (Finset.mem_filter.2 hx))).symm
    · rename_i hx
      refine (List.count_eq_zero.2 fun hmem => hx ?_).symm
      exact Finset.mem_filter.1 (Finset.mem_toList.1 hmem)
  rw [(hperm.map f).sum_eq, Finset.sum_map_toList, Finset.sum_filter]

/-! ### Cells and checks -/

section Cells

variable {ι : Type*} [BEq ι]

/-- Adding `δ` to each cell that `l` lists, once for each time it is listed. -/
def touch (l : List ι) (δ : V) (c : ι → V) : ι → V := fun i => c i + l.count i • δ

/-- The sum of the cells that `check` lists. -/
def syndrome (check : List ι) (c : ι → V) : V := (check.map c).sum

/-- How often cells of `l` stand in `check`, counted with multiplicity on both sides. -/
def incidence (check l : List ι) : ℕ := (check.map fun i => l.count i).sum

omit [Module (ZMod 2) V] in
/-- Touching the cells of `l` moves a check by as many copies of `δ` as it meets `l`. -/
theorem syndrome_touch (check l : List ι) (δ : V) (c : ι → V) :
    syndrome check (touch l δ c) = syndrome check c + incidence check l • δ := by
  induction check with
  | nil => simp [syndrome, incidence]
  | cons i check ih =>
      simp only [syndrome, incidence, touch, List.map_cons, List.sum_cons] at ih ⊢
      rw [ih, add_smul]
      exact add_add_add_comm ..

theorem incidence_nil_right (check : List ι) : incidence check [] = 0 := by
  simp [incidence]

theorem incidence_cons_left (x : ι) (check l : List ι) :
    incidence (x :: check) l = l.count x + incidence check l := by
  simp [incidence]

variable [LawfulBEq ι]

theorem incidence_cons_right (check : List ι) (x : ι) (l : List ι) :
    incidence check (x :: l) = check.count x + incidence check l := by
  induction check with
  | nil => rfl
  | cons i check ih =>
      simp only [incidence, List.map_cons, List.sum_cons, List.count_cons] at ih ⊢
      rw [ih]
      by_cases h : i = x
      · simp [h]
        omega
      · simp [h, Ne.symm h]
        omega

theorem incidence_eq_zero {check l : List ι} (h : ∀ x ∈ check, x ∉ l) : incidence check l = 0 := by
  refine List.sum_eq_zero fun n hn => ?_
  obtain ⟨x, hx, rfl⟩ := List.mem_map.1 hn
  exact List.count_eq_zero.2 (h x hx)

end Cells

end Xor
