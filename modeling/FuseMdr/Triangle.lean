/-
Numbering the pairs of `0`, …, `n` row by row.

Row `d` holds the pairs `(d, e)` with `d < e ≤ n`, so the rows have the lengths `n`, `n - 1`, …,
`1`.  The pairs are the edges of the complete graph on `n + 1` vertices.

Main definitions:

* `Triangle.rowStart` — the number of the first pair of a row;
* `Triangle.pairId` — the number of a pair.

Main results:

* `Triangle.two_mul_rowStart` — the closed form;
* `Triangle.exists_pair`, `Triangle.pairId_inj` — every number below `rowStart n n` is that of one
  pair;
* `Triangle.card_inside` — the number of pairs inside a set.
-/
import Mathlib

set_option relaxedAutoImplicit false
set_option autoImplicit false

namespace Triangle

/-- The number of the first pair of row `d`. -/
def rowStart (n d : ℕ) : ℕ := ∑ i ∈ Finset.range d, (n - i)

/-- The number of the pair `(d, e)`. -/
def pairId (n d e : ℕ) : ℕ := rowStart n d + (e - d - 1)

variable {n d e id : ℕ}

@[simp] theorem rowStart_zero (n : ℕ) : rowStart n 0 = 0 := rfl

theorem rowStart_succ (n d : ℕ) : rowStart n (d + 1) = rowStart n d + (n - d) :=
  Finset.sum_range_succ ..

theorem rowStart_le_succ (n d : ℕ) : rowStart n d ≤ rowStart n (d + 1) := by
  rw [rowStart_succ]
  exact Nat.le_add_right ..

theorem rowStart_mono (n : ℕ) : Monotone (rowStart n) :=
  monotone_nat_of_le_succ (rowStart_le_succ n)

theorem two_mul_rowStart (hd : d ≤ n) : 2 * rowStart n d = d * (2 * n + 1 - d) := by
  induction d with
  | zero => simp
  | succ d ih =>
      have ih := ih (by omega)
      rw [rowStart_succ, Nat.mul_add, ih]
      obtain ⟨m, rfl⟩ : ∃ m, n = d + 1 + m := ⟨n - (d + 1), by omega⟩
      rw [show 2 * (d + 1 + m) + 1 - d = d + 2 * m + 3 by omega,
        show 2 * (d + 1 + m) + 1 - (d + 1) = d + 2 * m +
          2 by omega, show d + 1 + m - d = m + 1 by omega]
      ring

/-- The number of all pairs. -/
theorem rowStart_self (n : ℕ) : rowStart n n = n * (n + 1) / 2 := by
  have h := two_mul_rowStart (le_refl n)
  rw [show 2 * n + 1 - n = n + 1 by omega] at h
  omega

/-- Every number lies in a row. -/
theorem exists_row (h : id < rowStart n n) :
    ∃ d < n, rowStart n d ≤ id ∧ id < rowStart n (d + 1) := by
  have hrow : ∀ d, id < rowStart n d → ∃ c < d, rowStart n c ≤ id ∧ id < rowStart n (c + 1) := by
    intro d
    induction d with
    | zero =>
        intro h
        exact absurd h (Nat.not_lt_zero id)
    | succ d ih =>
        intro h
        rcases Nat.lt_or_ge id (rowStart n d) with hlt | hge
        · obtain ⟨c, hc, hle, hlt⟩ := ih hlt
          exact ⟨c, hc.trans (Nat.lt_succ_self d), hle, hlt⟩
        · exact ⟨d, Nat.lt_succ_self d, hge, h⟩
  exact hrow n h

/-- A number lies in one row only. -/
theorem row_unique {d' : ℕ} (h : rowStart n d ≤ id) (h' : id < rowStart n (d' + 1)) : d ≤ d' := by
  by_contra hlt
  exact absurd (h'.trans_le (rowStart_mono n (show d' + 1 ≤ d by omega))) (not_lt.2 h)

theorem rowStart_le_pairId : rowStart n d ≤ pairId n d e := Nat.le_add_right ..

theorem pairId_lt (hde : d < e) (he : e ≤ n) : pairId n d e < rowStart n (d + 1) := by
  rw [pairId, rowStart_succ]
  omega

theorem pairId_lt_rowStart (hde : d < e) (he : e ≤ n) : pairId n d e < rowStart n n :=
  (pairId_lt hde he).trans_le (rowStart_mono n (show d + 1 ≤ n by omega))

/-- The pairs of the first `k` rows have the first numbers. -/
theorem pairId_lt_rowStart_iff {k : ℕ} (hde : d < e) (he : e ≤ n) :
    pairId n d e < rowStart n k ↔ d < k := by
  constructor
  · intro h
    by_contra hle
    exact absurd (h.trans_le (rowStart_mono n (not_lt.1 hle))) (not_lt.2 rowStart_le_pairId)
  · intro h
    exact (pairId_lt hde he).trans_le (rowStart_mono n h)

/-- Every number is that of a pair. -/
theorem exists_pair (h : id < rowStart n n) : ∃ d e, d < e ∧ e ≤ n ∧ pairId n d e = id := by
  obtain ⟨d, hd, hle, hlt⟩ := exists_row h
  rw [rowStart_succ] at hlt
  exact ⟨d, d + 1 + (id - rowStart n d), by omega, by omega, by rw [pairId]; omega⟩

/-- Different pairs have different numbers. -/
theorem pairId_inj {d' e' : ℕ} (hde : d < e) (he : e ≤ n) (hde' : d' < e') (he' : e' ≤ n)
    (h : pairId n d e = pairId n d' e') : d = d' ∧ e = e' := by
  have hle : d ≤ d' := row_unique rowStart_le_pairId (h ▸ pairId_lt hde' he')
  have hge : d' ≤ d := row_unique rowStart_le_pairId (h ▸ pairId_lt hde he)
  obtain rfl : d = d' := le_antisymm hle hge
  rw [pairId, pairId] at h
  exact ⟨rfl, by omega⟩

/-! ### Pairs inside a set -/

/-- The pairs of different elements of a set, each once. -/
theorem two_mul_card_pairs (F : Finset ℕ) :
    2 * (F.offDiag.filter fun p => p.1 < p.2).card = F.card * (F.card - 1) := by
  have hswap : (F.offDiag.filter fun p => ¬ p.1 < p.2).card = (F.offDiag.filter fun p =>
      p.1 < p.2).card := by
    refine Finset.card_bij' (fun p _ => p.swap) (fun p _ => p.swap) ?_ ?_ (fun p _ => p.swap_swap)
      (fun p _ => p.swap_swap)
    · rintro ⟨d, e⟩ h
      simp only [Finset.mem_filter, Finset.mem_offDiag, Prod.swap] at h ⊢
      exact ⟨⟨h.1.2.1, h.1.1, h.1.2.2.symm⟩, by omega⟩
    · rintro ⟨d, e⟩ h
      simp only [Finset.mem_filter, Finset.mem_offDiag, Prod.swap] at h ⊢
      exact ⟨⟨h.1.2.1, h.1.1, h.1.2.2.symm⟩, by omega⟩
  have hsum := Finset.card_filter_add_card_filter_not (s := F.offDiag) fun p => p.1 < p.2
  rw [hswap, Finset.offDiag_card, ← Nat.mul_sub_one] at hsum
  omega

/-- The numbers of the pairs inside a set. -/
theorem card_inside {F : Finset ℕ} (hF : F ⊆ Finset.range (n + 1)) {P : ℕ → Prop} [DecidablePred P]
    (hP : ∀ d e, d < e → e ≤ n → (P (pairId n d e) ↔ d ∈ F ∧ e ∈ F)) :
    ((Finset.range (rowStart n n)).filter P).card = F.card * (F.card - 1) / 2 := by
  have hle : ∀ e ∈ F, e ≤ n := fun e he => Nat.lt_succ_iff.1 (Finset.mem_range.1 (hF he))
  have himage : (Finset.range (rowStart n n)).filter P =
      (F.offDiag.filter fun p => p.1 < p.2).image fun p => pairId n p.1 p.2 := by
    ext id
    simp only [Finset.mem_filter, Finset.mem_range, Finset.mem_image, Finset.mem_offDiag,
      Prod.exists]
    constructor
    · rintro ⟨hlt, hid⟩
      obtain ⟨d, e, hde, he, rfl⟩ := exists_pair hlt
      obtain ⟨hd, he⟩ := (hP d e hde he).1 hid
      exact ⟨d, e, ⟨⟨hd, he, hde.ne⟩, hde⟩, rfl⟩
    · rintro ⟨d, e, ⟨⟨hd, he, -⟩, hde⟩, rfl⟩
      exact ⟨pairId_lt_rowStart hde (hle e he), (hP d e hde (hle e he)).2 ⟨hd, he⟩⟩
  have hinj : Set.InjOn (fun p : ℕ × ℕ => pairId n p.1 p.2)
      (F.offDiag.filter fun p => p.1 < p.2) := by
    rintro ⟨d, e⟩ h ⟨d', e'⟩ h' heq
    simp only [Finset.coe_filter, Finset.mem_offDiag, Set.mem_ofPred_eq] at h h'
    obtain ⟨rfl, rfl⟩ := pairId_inj h.2 (hle e h.1.2.1) h'.2 (hle e' h'.1.2.1) heq
    rfl
  rw [himage, Finset.card_image_of_injOn hinj, ← two_mul_card_pairs]
  omega

/-- The numbers of pairs compare as the numbers of elements, from one element on. -/
theorem pairs_le_pairs {x y : ℕ} (hy : 1 ≤ y) : x * (x - 1) / 2 ≤ y * (y - 1) / 2 ↔ x ≤ y := by
  rw [← Nat.choose_two_right, ← Nat.choose_two_right]
  constructor
  · intro h
    by_contra hlt
    have hle := Nat.choose_le_choose 2 (show y + 1 ≤ x by omega)
    have hstep : (y + 1).choose 2 = y + y.choose 2 := by
      rw [Nat.choose_succ_succ' y 1, Nat.choose_one_right]
    omega
  · exact Nat.choose_le_choose 2

end Triangle
