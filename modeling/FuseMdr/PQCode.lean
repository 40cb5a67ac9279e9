/-
Two parities over a field of characteristic two.

The first parity `P` of a row is the sum of its data, the second parity `Q` the sum with one
coefficient for each place.  Any two lost cells can be computed from the others when the
coefficients are different and not zero.

Main definitions:

* `PQ.Row` — a row of cells that satisfies both equations.

Main results:

* `PQ.Row.data_of_p` — one lost data cell, from the first parity;
* `PQ.Row.data_of_pq` — one of two lost data cells.
-/
import Mathlib

set_option relaxedAutoImplicit false
set_option autoImplicit false

namespace PQ

variable {F ι : Type*} [Field F]

/-- The cells `c` of a row with data places `s`, parity places `p` and `q`, and coefficients `a`. -/
structure Row (s : Finset ι) (p q : ι) (a c : ι → F) : Prop where
  /-- The first parity. -/
  p_eq : c p = ∑ i ∈ s, c i
  /-- The second parity. -/
  q_eq : c q = ∑ i ∈ s, a i * c i

/-- The equations only look at the places of the row. -/
theorem Row.congr {s : Finset ι} {p q : ι} {a c c' : ι → F} (h : Row s p q a c)
    (hp : c' p = c p) (hq : c' q = c q) (hs : ∀ i ∈ s, c' i = c i) : Row s p q a c' := by
  refine ⟨?_, ?_⟩
  · rw [hp, h.p_eq]
    exact Finset.sum_congr rfl fun i hi => (hs i hi).symm
  · rw [hq, h.q_eq]
    exact Finset.sum_congr rfl fun i hi => by rw [hs i hi]

variable [CharP F 2] [DecidableEq ι]
variable {s : Finset ι} {p q d e : ι} {a c : ι → F}

/-- Leaving out a summand is adding it once more. -/
theorem sum_erase {f : ι → F} (hd : d ∈ s) : ∑ i ∈ s.erase d, f i = ∑ i ∈ s, f i + f d := by
  rw [Finset.sum_erase_eq_sub hd, CharTwo.sub_eq_add]

/-- A lost data cell is the first parity plus the other data cells. -/
theorem Row.data_of_p (h : Row s p q a c) (hd : d ∈ s) : ∑ i ∈ s.erase d, c i + c p = c d := by
  rw [sum_erase hd, ← h.p_eq, add_right_comm, CharTwo.add_self_eq_zero, zero_add]

/-- The second parity plus the terms of the other data cells is the term of the lost one. -/
theorem Row.term_of_q (h : Row s p q a c) (hd : d ∈ s) :
    ∑ i ∈ s.erase d, a i * c i + c q = a d * c d := by
  rw [sum_erase (f := fun i => a i * c i) hd, ← h.q_eq, add_right_comm, CharTwo.add_self_eq_zero,
    zero_add]

/-- A lost data cell from both parities, when another one is lost too. -/
theorem Row.data_of_pq (h : Row s p q a c) (hd : d ∈ s) (he : e ∈ s) (hde : d ≠ e)
    (ha : a d ≠ a e) :
    (a e * (∑ i ∈ (s.erase d).erase e, c i + c p) + ∑ i ∈ (s.erase d).erase e, a i * c i + c q) /
      (a d + a e) = c d := by
  have he' : e ∈ s.erase d := Finset.mem_erase.2 ⟨hde.symm, he⟩
  -- the first parity leaves the sum of the two lost cells, the second that of their terms
  have hp : ∑ i ∈ (s.erase d).erase e, c i + c p = c d + c e := by
    rw [sum_erase he', add_right_comm, h.data_of_p hd]
  have hq : ∑ i ∈ (s.erase d).erase e, a i * c i + c q = a d * c d + a e * c e := by
    rw [sum_erase (f := fun i => a i * c i) he', add_right_comm, h.term_of_q hd]
  have hne : a d + a e ≠ 0 := by
    rwa [Ne, ← CharTwo.sub_eq_add, sub_eq_zero]
  rw [add_assoc, hp, hq, div_eq_iff hne]
  linear_combination (a e * c e) * (CharTwo.two_eq_zero : (2 : F) = 0)

end PQ
