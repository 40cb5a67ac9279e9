/-
Functions on residues.

Diagonals of an array wrap around modulo the number `n` of its rows and one virtual row.  A column
is therefore extended to the residues modulo `n` by a zero in the last row, and sums over a diagonal
become values of such extensions.

* `Residue.eq_of_periodic` — modulo a prime, a function with a nonzero period is constant;
* `Residue.extend`, `Residue.sum_diagonal` — the extension of a column, and the one cell that it has
  on a diagonal;
* `Residue.comb`, `Residue.extend_comb_sub` — for a divisor of `n`, a column that repeats;
* `Residue.eq_zero_of_add_eq` — modulo an odd prime, a column whose sums with its own translate are
  all equal is zero.
-/
import FuseMdr.XorGroup

set_option relaxedAutoImplicit false
set_option autoImplicit false

namespace Residue

variable {V : Type*}

/-- Modulo a prime every residue is a multiple of a nonzero period. -/
theorem eq_of_periodic {p : ℕ} [Fact p.Prime] {f : ZMod p → V} {d : ZMod p} (hd : d ≠ 0)
    (h : Function.Periodic f d) (y z : ZMod p) : f y = f z := by
  have hmul : ((y - z) / d).val • d = y - z := by
    rw [nsmul_eq_mul, ZMod.natCast_zmod_val, div_mul_cancel₀ _ hd]
  have hper := h.nsmul ((y - z) / d).val z
  rwa [hmul, add_sub_cancel] at hper

variable [AddCommGroup V]

/-- A column of `n - 1` rows on the residues modulo `n`, with a zero in the last one. -/
def extend (n : ℕ) (x : ℕ → V) : ZMod n → V := fun y => if y.val < n - 1 then x y.val else 0

variable {n : ℕ}

theorem extend_natCast (x : ℕ → V) {r : ℕ} (hr : r < n - 1) : extend n x r = x r := by
  rw [extend, ZMod.val_natCast, Nat.mod_eq_of_lt (by omega), if_pos hr]

theorem extend_neg_one (x : ℕ → V) (hn : 0 < n) : extend n x (-1) = 0 := by
  obtain ⟨m, rfl⟩ : ∃ m, n = m + 1 := ⟨n - 1, by omega⟩
  rw [extend, ZMod.val_neg_one, if_neg (by omega)]

theorem extend_eq_zero {x : ℕ → V} (hx : ∀ r < n - 1, x r = 0) : extend n x = 0 := by
  funext y
  rw [extend]
  split
  · exact hx _ ‹_›
  · rfl

theorem extend_congr {x x' : ℕ → V} (h : ∀ r < n - 1, x r = x' r) : extend n x = extend n x' := by
  funext y
  rw [extend, extend]
  split
  · exact h _ ‹_›
  · rfl

theorem natCast_pred (hn : 0 < n) : ((n - 1 : ℕ) : ZMod n) = -1 := by
  rw [Nat.cast_sub hn, ZMod.natCast_self, Nat.cast_one, zero_sub]

/-- What holds of the rows and of the virtual row holds of all residues. -/
theorem forall_of_lt {P : ZMod n → Prop} (hn : 0 < n) (h : ∀ i < n - 1, P (i : ℕ)) (hlast : P (-1))
    (y : ZMod n) : P y := by
  have : NeZero n := ⟨by omega⟩
  rw [← ZMod.natCast_zmod_val y]
  have hy := ZMod.val_lt y
  by_cases hrow : y.val < n - 1
  · exact h _ hrow
  · have hval : y.val = n - 1 := by omega
    rw [hval, natCast_pred hn]
    exact hlast

/-- When a sum over all residues is zero, so is its last summand if the others are. -/
theorem eq_zero_of_sum [NeZero n] {f : ZMod n → V} (h : ∀ i < n - 1, f (i : ℕ) = 0)
    (hsum : ∑ y, f y = 0) (y : ZMod n) : f y = 0 := by
  have hn : 0 < n := NeZero.pos n
  have hother : ∀ y : ZMod n, y ≠ -1 → f y = 0 :=
    forall_of_lt (P := fun y => y ≠ -1 → f y = 0) hn (fun i hi _ => h i hi)
      fun hne => absurd rfl hne
  refine forall_of_lt (P := fun y => f y = 0) hn h ?_ y
  rwa [Finset.sum_eq_single (-1) (fun y _ hy => hother y hy)
    (fun hmem => absurd (Finset.mem_univ _) hmem)] at hsum

theorem natCast_ne {a b : ℕ} (ha : a < n) (hb : b < n) (hab : a ≠ b) : (a : ZMod n) ≠ b := by
  intro h
  rw [ZMod.natCast_eq_natCast_iff', Nat.mod_eq_of_lt ha, Nat.mod_eq_of_lt hb] at h
  exact hab h

/-- The cell of a column on a diagonal. -/
theorem add_mod_eq_iff {r d l : ℕ} (hr : r < n) (hl : l < n) :
    (r + d) % n = l ↔ r = ((l : ZMod n) - d).val := by
  have : NeZero n := ⟨by omega⟩
  calc (r + d) % n = l ↔ ((r + d : ℕ) : ZMod n) = l := by
        rw [ZMod.natCast_eq_natCast_iff', Nat.mod_eq_of_lt hl]
    _ ↔ ((r : ℕ) : ZMod n) = l - d := by rw [Nat.cast_add, eq_sub_iff_add_eq]
    _ ↔ r = ((l : ZMod n) - d).val := by
        rw [← (ZMod.val_injective n).eq_iff, ZMod.val_natCast, Nat.mod_eq_of_lt hr]

/-- The sum of a column over a diagonal is a value of its extension. -/
theorem sum_diagonal (x : ℕ → V) {d l : ℕ} (hl : l < n) :
    (∑ r ∈ Finset.range (n - 1), if (r + d) % n = l then x r else 0) =
      extend n x ((l : ZMod n) - d) := by
  have hterm : ∀ r ∈ Finset.range (n - 1), (if (r + d) % n = l then x r else 0) =
      if r = ((l : ZMod n) - d).val then x r else 0 := by
    intro r hr
    have hr := Finset.mem_range.1 hr
    exact if_congr (add_mod_eq_iff (by omega) hl) rfl rfl
  rw [Finset.sum_congr rfl hterm, Finset.sum_ite_eq', extend]
  simp only [Finset.mem_range]

/-- The column with one value in every `m`-th row. -/
def comb (m : ℕ) (δ : V) (r : ℕ) : V := if m ∣ r then δ else 0

/-- When `m` divides `n`, the extended column repeats after `m` rows. -/
theorem extend_comb_sub {m : ℕ} (hn : 0 < n) (hm : 1 < m) (hmn : m ∣ n) (δ : V) (y : ZMod n) :
    extend n (comb m δ) (y - m) = extend n (comb m δ) y := by
  have : NeZero n := ⟨by omega⟩
  have hval : ∀ z : ZMod n, extend n (comb m δ) z =
      if ZMod.castHom hmn (ZMod m) z = 0 then δ else 0 := by
    intro z
    have hdvd : m ∣ z.val ↔ ZMod.castHom hmn (ZMod m) z = 0 := by
      rw [← ZMod.natCast_eq_zero_iff, ZMod.natCast_val]
      rfl
    rw [extend, comb]
    split
    · exact if_congr hdvd rfl rfl
    · -- the virtual row is not a multiple of `m`
      rename_i hz
      have hlast : z.val = n - 1 := by
        have := ZMod.val_lt z
        omega
      rw [if_neg]
      rw [← hdvd, hlast]
      intro h
      have hone : m ∣ 1 := by
        have := Nat.dvd_sub hmn h
        rwa [Nat.sub_sub_self (by omega)] at this
      have := Nat.le_of_dvd one_pos hone
      omega
  rw [hval, hval, map_sub, map_natCast, ZMod.natCast_self, sub_zero]

variable [Module (ZMod 2) V]

/-- The sum of all values added to itself, in another order, is zero. -/
theorem sum_add_translate [NeZero n] (v : ZMod n → V) (a b : ZMod n) :
    ∑ y, (v (y - a) + v (y - b)) = 0 := by
  rw [Finset.sum_add_distrib, Fintype.sum_equiv (Equiv.subRight a) (fun y => v (y - a)) v
    fun _ => rfl, Fintype.sum_equiv (Equiv.subRight b) (fun y => v (y - b)) v fun _ => rfl,
    ZModModule.add_self]

/-- Modulo a prime, a function that equals its own translate and vanishes somewhere is zero. -/
theorem eq_zero_of_translate {p : ℕ} [Fact p.Prime] {v : ZMod p → V} {a b : ZMod p} (hab : a ≠ b)
    {z : ZMod p} (hz : v z = 0) (h : ∀ y, v (y - a) + v (y - b) = 0) (y : ZMod p) : v y = 0 := by
  have hper : Function.Periodic v (b - a) := by
    intro y
    have hy := Xor.eq_of_add_eq_zero (h (y + b))
    rwa [add_sub_cancel_right, add_sub_assoc] at hy
  rw [eq_of_periodic (sub_ne_zero.2 (Ne.symm hab)) hper y z, hz]

/-- Modulo an odd prime, a function whose sums with its own translate are all equal, and that
vanishes somewhere, is zero. -/
theorem eq_zero_of_add_eq {p : ℕ} [Fact p.Prime] (hodd : Odd p) {v : ZMod p → V} {a b : ZMod p}
    (hab : a ≠ b) {z : ZMod p} (hz : v z = 0) {s : V} (h : ∀ y, v (y - a) + v (y - b) = s)
    (y : ZMod p) : v y = 0 := by
  -- the sum over all residues counts `s` an odd number of times
  have hs : s = 0 := by
    have hsum := sum_add_translate v a b
    rw [Finset.sum_congr rfl fun y _ => h y, Finset.sum_const, Finset.card_univ, ZMod.card,
      Xor.nsmul_eq_ite, if_pos hodd] at hsum
    exact hsum
  exact eq_zero_of_translate hab hz (fun y => (h y).trans hs) y

end Residue
