/-
The field behind a table of logarithms.

Let an additive map step through all nonzero vectors of a finite group, starting from one of them.
Then every nonzero vector is a power of the generator, and adding exponents is a multiplication that
distributes over the addition: multiplying by the `i`-th power is the `i`-th iterate of the map.

Main definitions:

* `LogField.Generator` — an additive map with one orbit of nonzero vectors;
* `LogField.Generator.pow`, `LogField.Generator.log` — the tables;
* `LogField.Generator.field` — the field.

Main results:

* `LogField.minimalPeriod_eq` — a period is minimal when no prime can be divided out of it;
* `LogField.Generator.pow_mul_pow`, `LogField.Generator.pow_div_pow` — products and quotients are
  sums and differences of exponents.
-/
import Mathlib

set_option relaxedAutoImplicit false
set_option autoImplicit false

namespace LogField

/-- A period is minimal when no prime can be divided out of it. -/
theorem minimalPeriod_eq {α : Type*} {f : α → α} {x : α} {n : ℕ}
    (hper : Function.IsPeriodicPt f n x)
    (hprime : ∀ p, p.Prime → p ∣ n → ¬ Function.IsPeriodicPt f (n / p) x) :
    Function.minimalPeriod f x = n := by
  obtain ⟨m, hm⟩ := hper.minimalPeriod_dvd
  by_cases hone : m = 1
  · rw [hm, hone, mul_one]
  · -- a prime factor of the cofactor can be divided out
    obtain ⟨p, hp, hpm⟩ := Nat.exists_prime_and_dvd hone
    have hpn : p ∣ n := hm ▸ Dvd.dvd.mul_left hpm _
    have hdvd : Function.minimalPeriod f x ∣ n / p := by
      obtain ⟨c, rfl⟩ := hpm
      refine ⟨c, Nat.div_eq_of_eq_mul_left hp.pos ?_⟩
      rw [hm, mul_comm p c, mul_assoc]
    exact absurd (Function.isPeriodicPt_iff_minimalPeriod_dvd.2 hdvd) (hprime p hp hpn)

variable {V : Type*} [AddCommGroup V]

/-- An additive map whose orbit of `one` is all nonzero vectors. -/
structure Generator (V : Type*) [AddCommGroup V] where
  /-- Multiplication by the generator. -/
  step : V →+ V
  /-- The start of the orbit. -/
  one : V
  /-- The orbit does not start at zero. -/
  one_ne_zero : one ≠ 0
  /-- The length of the orbit. -/
  order : ℕ
  /-- The orbit closes after `order` steps and not before. -/
  minimalPeriod_eq : Function.minimalPeriod step one = order
  /-- There are no other nonzero vectors. -/
  card_eq : Nat.card V = order + 1

namespace Generator

variable (g : Generator V)

/-! ### Powers and logarithms -/

/-- The `i`-th power of the generator. -/
def pow (i : ℕ) : V := g.step^[i] g.one

theorem pow_succ (i : ℕ) : g.pow (i + 1) = g.step (g.pow i) :=
  Function.iterate_succ_apply' ..

theorem pow_add (i j : ℕ) : g.pow (i + j) = g.step^[i] (g.pow j) :=
  Function.iterate_add_apply ..

theorem pow_order : g.pow g.order = g.one := by
  have h := Function.iterate_minimalPeriod (f := g.step) (x := g.one)
  rwa [g.minimalPeriod_eq] at h

theorem pow_mod (i : ℕ) : g.pow (i % g.order) = g.pow i := by
  have h := Function.iterate_mod_minimalPeriod_eq (f := g.step) (x := g.one) (n := i)
  rwa [g.minimalPeriod_eq] at h

theorem pow_injOn : Set.InjOn g.pow (Set.Iio g.order) := by
  have h := Function.iterate_injOn_Iio_minimalPeriod (f := g.step) (x := g.one)
  rwa [g.minimalPeriod_eq] at h

theorem order_pos : 0 < g.order := by
  have : Finite V := Nat.finite_of_card_ne_zero (by rw [g.card_eq]; omega)
  have hnontrivial : Nontrivial V := ⟨g.one, 0, g.one_ne_zero⟩
  have : 1 < Nat.card V := Finite.one_lt_card
  rw [g.card_eq] at this
  omega

theorem pow_ne_zero (i : ℕ) : g.pow i ≠ 0 := by
  intro h
  -- a zero would stay zero, but the orbit comes back to its start
  have hle : i ≤ g.order * i := Nat.le_mul_of_pos_left i g.order_pos
  have hback : g.pow (g.order * i) = g.one := by
    rw [← g.pow_mod, Nat.mul_mod_right]
    rfl
  rw [← Nat.sub_add_cancel hle, pow_add, h, iterate_map_zero] at hback
  exact g.one_ne_zero hback.symm

/-- Every nonzero vector is a power of the generator. -/
theorem exists_pow_eq {v : V} (hv : v ≠ 0) : ∃ i < g.order, g.pow i = v := by
  classical
  have hfinite : Finite V := Nat.finite_of_card_ne_zero (by rw [g.card_eq]; omega)
  have : Fintype V := Fintype.ofFinite V
  have hsub : (Finset.range g.order).image g.pow ⊆ Finset.univ.erase 0 := by
    intro x hx
    obtain ⟨i, -, rfl⟩ := Finset.mem_image.1 hx
    exact Finset.mem_erase.2 ⟨g.pow_ne_zero i, Finset.mem_univ _⟩
  have hcard : ((Finset.range g.order).image g.pow).card = g.order := by
    rw [Finset.card_image_of_injOn, Finset.card_range]
    intro i hi j hj hij
    exact g.pow_injOn (by simpa using hi) (by simpa using hj) hij
  have huniv : (Finset.univ.erase (0 : V)).card = g.order := by
    rw [Finset.card_erase_of_mem (Finset.mem_univ _), Finset.card_univ, ← Nat.card_eq_fintype_card,
      g.card_eq]
    rfl
  have himage := Finset.eq_of_subset_of_card_le hsub (by rw [hcard, huniv])
  have hmem : v ∈ (Finset.range g.order).image g.pow := by
    rw [himage]
    exact Finset.mem_erase.2 ⟨hv, Finset.mem_univ _⟩
  obtain ⟨i, hi, rfl⟩ := Finset.mem_image.1 hmem
  exact ⟨i, Finset.mem_range.1 hi, rfl⟩

open Classical in
/-- The exponent of a nonzero vector. -/
noncomputable def log (v : V) : ℕ := if h : v ≠ 0 then (g.exists_pow_eq h).choose else 0

theorem pow_log {v : V} (hv : v ≠ 0) : g.pow (g.log v) = v := by
  rw [log, dif_pos hv]
  exact (g.exists_pow_eq hv).choose_spec.2

theorem log_lt {v : V} (hv : v ≠ 0) : g.log v < g.order := by
  rw [log, dif_pos hv]
  exact (g.exists_pow_eq hv).choose_spec.1

/-! ### Multiplication -/

open Classical in
/-- Multiplication adds exponents. -/
noncomputable def mul (v w : V) : V :=
  if v = 0 ∨ w = 0 then 0 else g.pow (g.log v + g.log w)

open Classical in
/-- Inversion reverses exponents. -/
noncomputable def inv (v : V) : V := if v = 0 then 0 else g.pow (g.order - g.log v)

theorem zero_mul (v : V) : g.mul 0 v = 0 := if_pos (.inl rfl)

theorem mul_zero (v : V) : g.mul v 0 = 0 := if_pos (.inr rfl)

theorem mul_comm (v w : V) : g.mul v w = g.mul w v := by
  by_cases h : v = 0 ∨ w = 0
  · rw [mul, mul, if_pos h, if_pos h.symm]
  · rw [mul, mul, if_neg h, if_neg (mt Or.symm h), add_comm]

/-- Multiplication by a power is an iterate of the step. -/
theorem pow_mul (i : ℕ) (v : V) : g.mul (g.pow i) v = g.step^[i] v := by
  by_cases hv : v = 0
  · rw [hv, mul_zero, iterate_map_zero]
  · rw [mul, if_neg (by simp [g.pow_ne_zero, hv]), add_comm, pow_add, g.pow_log (g.pow_ne_zero i),
      ← pow_add, add_comm, pow_add, g.pow_log hv]

theorem mul_add (u v w : V) : g.mul u (v + w) = g.mul u v + g.mul u w := by
  by_cases hu : u = 0
  · rw [hu, zero_mul, zero_mul, zero_mul, add_zero]
  · rw [← g.pow_log hu, pow_mul, pow_mul, pow_mul, iterate_map_add]

theorem mul_assoc (u v w : V) : g.mul (g.mul u v) w = g.mul u (g.mul v w) := by
  by_cases hu : u = 0
  · rw [hu, zero_mul, zero_mul, zero_mul]
  by_cases hv : v = 0
  · rw [hv, mul_zero, zero_mul, mul_zero]
  rw [← g.pow_log hu, ← g.pow_log hv, pow_mul, ← pow_add, pow_mul, pow_mul, pow_mul,
    Function.iterate_add_apply]

theorem one_mul (v : V) : g.mul g.one v = v := g.pow_mul 0 v

theorem mul_inv_cancel {v : V} (hv : v ≠ 0) : g.mul v (g.inv v) = g.one := by
  rw [inv, if_neg hv]
  nth_rewrite 1 [← g.pow_log hv]
  rw [pow_mul, ← pow_add, Nat.add_sub_cancel' (g.log_lt hv).le, pow_order]

/-- The field whose multiplication adds exponents. -/
@[reducible] noncomputable def field : Field V where
  __ := (inferInstance : AddCommGroup V)
  mul := g.mul
  one := g.one
  inv := g.inv
  mul_assoc := g.mul_assoc
  one_mul := g.one_mul
  mul_one v := by
    change g.mul v g.one = v
    rw [mul_comm, one_mul]
  left_distrib := g.mul_add
  right_distrib u v w := by
    change g.mul (u + v) w = g.mul u w + g.mul v w
    rw [mul_comm, mul_add, g.mul_comm w u, g.mul_comm w v]
  zero_mul := g.zero_mul
  mul_zero := g.mul_zero
  mul_comm := g.mul_comm
  exists_pair_ne := ⟨g.one, 0, g.one_ne_zero⟩
  mul_inv_cancel _ hv := g.mul_inv_cancel hv
  inv_zero := if_pos rfl
  nnqsmul := _
  nnqsmul_def _ _ := rfl
  qsmul := _
  qsmul_def _ _ := rfl

/-! ### Products and quotients of powers -/

theorem pow_mul_pow (i j : ℕ) : g.mul (g.pow i) (g.pow j) = g.pow (i + j) := by
  rw [pow_mul, pow_add]

/-- A quotient of powers is the power that closes the product. -/
theorem pow_div_pow {i j k : ℕ} (h : (k + j) % g.order = i % g.order) :
    letI := g.field
    g.pow i / g.pow j = g.pow k := by
  let _ := g.field
  have hmul : g.pow k * g.pow j = g.pow i :=
    (g.pow_mul_pow k j).trans (by rw [← g.pow_mod, h, g.pow_mod])
  rw [div_eq_iff (g.pow_ne_zero j), hmul]

end Generator

end LogField
