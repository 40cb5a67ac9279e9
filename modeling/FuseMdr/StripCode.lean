/-
Array codes with two parity disks.

A strip has `dataDisks` data disks, then a disk `P` with the sum of each row, then a disk `Q` whose
block `i` is the sum of a list of named cells, which are data or `P` cells.  A cell is a disk and a
row.

Main definitions:

* `Strip.Code`, `Strip.Code.Parity` — a code, and the contents that satisfy its equations;
* `Strip.Code.written` — the cells that one write is to change: the data cell, the `P` cell of its
  row, and some `Q` cells.

Main results:

* `Strip.Code.parity_iff_syndrome` — the equations as checks;
* `Strip.Code.parity_write_iff` — what a write that does not look at the old data does to the
  equations.
-/
import FuseMdr.XorGroup

set_option relaxedAutoImplicit false
set_option autoImplicit false

namespace Strip

/-- An array code with row parity and one more parity disk. -/
structure Code where
  /-- The number of data disks, and the number of disk `P`; disk `Q` comes next. -/
  dataDisks : ℕ
  /-- The rows of a strip. -/
  rows : ℕ
  /-- The cells whose sum is a `Q` block. -/
  named : ℕ → List (ℕ × ℕ)
  /-- They are cells of data disks or of `P`. -/
  named_mem : ∀ i < rows, ∀ x ∈ named i, x.1 ≤ dataDisks ∧ x.2 < rows

namespace Code

variable {V : Type*} [AddCommGroup V] (C : Code)

/-- The contents satisfy the equations of the code. -/
structure Parity (c : ℕ × ℕ → V) : Prop where
  /-- Every `P` block is the sum of the data blocks of its row. -/
  p : ∀ r < C.rows, c (C.dataDisks, r) = ∑ j ∈ Finset.range C.dataDisks, c (j, r)
  /-- Every `Q` block is the sum of its named cells. -/
  q : ∀ i < C.rows, c (C.dataDisks + 1, i) = ((C.named i).map c).sum

/-- The cells of a row check. -/
def pCheck (r : ℕ) : List (ℕ × ℕ) :=
  (C.dataDisks, r) :: (List.range C.dataDisks).map fun j => (j, r)

/-- The cells of a `Q` check. -/
def qCheck (i : ℕ) : List (ℕ × ℕ) := (C.dataDisks + 1, i) :: C.named i

/-- The cells that a write of data cell `(d, r)` changes, when `qs` are the `Q` blocks it
updates. -/
def written (d r : ℕ) (qs : List ℕ) : List (ℕ × ℕ) :=
  (d, r) :: (C.dataDisks, r) :: qs.map fun i => (C.dataDisks + 1, i)

variable {C} {d r : ℕ} {qs : List ℕ}

/-! ### How often a write meets a check -/

theorem count_pCheck {x r r' : ℕ} (hx : x ≤ C.dataDisks) :
    (C.pCheck r').count (x, r) = if r' = r then 1 else 0 := by
  by_cases hr : r' = r
  · subst hr
    rw [if_pos rfl]
    refine List.count_eq_one_of_mem (List.nodup_cons.2 ⟨?_, ?_⟩) ?_
    · simp
    · exact List.nodup_range.map fun j j' h => (Prod.mk.inj h).1
    · rcases Nat.lt_or_eq_of_le hx with hlt | rfl
      · exact List.mem_cons_of_mem _ (List.mem_map.2 ⟨x, List.mem_range.2 hlt, rfl⟩)
      · exact List.mem_cons_self ..
  · rw [if_neg hr, List.count_eq_zero]
    intro hmem
    rcases List.mem_cons.1 hmem with h | h
    · exact hr (Prod.mk.inj h).2.symm
    · obtain ⟨j, -, h⟩ := List.mem_map.1 h
      exact hr (Prod.mk.inj h).2

theorem count_qCheck {x i : ℕ} (hx : x ≤ C.dataDisks) :
    (C.qCheck i).count (x, r) = (C.named i).count (x, r) := by
  rw [qCheck, List.count_cons_of_ne]
  intro h
  have := (Prod.mk.inj h).1
  omega

theorem incidence_pCheck_written (hd : d < C.dataDisks) (r' : ℕ) :
    Xor.incidence (C.pCheck r') (C.written d r qs) = if r' = r then 2 else 0 := by
  have hq : Xor.incidence (C.pCheck r') (qs.map fun i => (C.dataDisks + 1, i)) = 0 := by
    refine Xor.incidence_eq_zero fun x hx hmem => ?_
    obtain ⟨i, -, rfl⟩ := List.mem_map.1 hmem
    simp only [pCheck, List.mem_cons, Prod.mk.injEq, List.mem_map, List.mem_range] at hx
    rcases hx with h | ⟨j, hj, h, -⟩ <;> omega
  rw [written, Xor.incidence_cons_right, Xor.incidence_cons_right, hq, count_pCheck hd.le,
    count_pCheck le_rfl]
  split <;> rfl

theorem incidence_qCheck_written (hd : d < C.dataDisks) {i : ℕ} (hi : i < C.rows) :
    Xor.incidence (C.qCheck i) (C.written d r qs) =
      (C.named i).count (d, r) + ((C.named i).count (C.dataDisks, r) + qs.count i) := by
  have hq : Xor.incidence (C.named i) (qs.map fun i => (C.dataDisks + 1, i)) = 0 := by
    refine Xor.incidence_eq_zero fun x hx hmem => ?_
    obtain ⟨i', -, rfl⟩ := List.mem_map.1 hmem
    have := (C.named_mem i hi _ hx).1
    dsimp only at this
    omega
  have hcount : (qs.map fun i => (C.dataDisks + 1, i)).count (C.dataDisks + 1, i) = qs.count i :=
    List.count_map_of_injective qs (fun i => (C.dataDisks + 1, i))
      (fun i i' h => (Prod.mk.inj h).2) i
  rw [written, Xor.incidence_cons_right, Xor.incidence_cons_right, count_qCheck hd.le,
    count_qCheck le_rfl, qCheck, Xor.incidence_cons_left, hcount, hq, add_zero]

/-- How often a write changes a cell. -/
theorem count_written (j t : ℕ) :
    (C.written d r qs).count (j, t) =
      (if j = d ∧ t = r then 1 else 0) + ((if j = C.dataDisks ∧ t = r then 1 else 0) +
        if j = C.dataDisks + 1 then qs.count t else 0) := by
  have hq : (qs.map fun i => (C.dataDisks + 1, i)).count (j, t) =
      if j = C.dataDisks + 1 then qs.count t else 0 := by
    split
    · rename_i hj
      rw [hj]
      exact List.count_map_of_injective qs (fun i => (C.dataDisks + 1, i))
        (fun i i' h => (Prod.mk.inj h).2) t
    · rename_i hj
      refine List.count_eq_zero.2 fun hmem => ?_
      obtain ⟨i, -, h⟩ := List.mem_map.1 hmem
      exact hj (Prod.mk.inj h).1.symm
  have hcell : ∀ x : ℕ, ((x, r) == (j, t)) = decide (j = x ∧ t = r) := by
    intro x
    rw [Bool.eq_iff_iff, beq_iff_eq, decide_eq_true_iff, Prod.mk.injEq]
    constructor <;> rintro ⟨rfl, rfl⟩ <;> exact ⟨rfl, rfl⟩
  rw [written, List.count_cons, List.count_cons, hq, hcell, hcell]
  simp only [decide_eq_true_eq]
  omega

/-! ### The equations as checks -/

/-- The equations speak about the cells of the strip only. -/
theorem Parity.congr {c c' : ℕ × ℕ → V} (h : C.Parity c)
    (hc : ∀ j ≤ C.dataDisks + 1, ∀ r < C.rows, c' (j, r) = c (j, r)) : C.Parity c' where
  p r hr := by
    rw [hc _ (by omega) r hr, h.p r hr]
    refine Finset.sum_congr rfl fun j hj => (hc j ?_ r hr).symm
    have := Finset.mem_range.1 hj
    omega
  q i hi := by
    rw [hc _ le_rfl i hi, h.q i hi]
    refine congrArg List.sum (List.map_congr_left fun x hx => ?_)
    obtain ⟨h₁, h₂⟩ := C.named_mem i hi x hx
    exact (hc x.1 (by omega) x.2 h₂).symm

variable [Module (ZMod 2) V] {c : ℕ × ℕ → V}

/-- The contents satisfy the equations when all checks are zero. -/
theorem parity_iff_syndrome :
    C.Parity c ↔ (∀ r < C.rows, Xor.syndrome (C.pCheck r) c = 0) ∧
      ∀ i < C.rows, Xor.syndrome (C.qCheck i) c = 0 := by
  have hp : ∀ r, Xor.syndrome (C.pCheck r) c = 0 ↔
      c (C.dataDisks, r) = ∑ j ∈ Finset.range C.dataDisks, c (j, r) := by
    intro r
    rw [Xor.syndrome, pCheck, List.map_cons, List.sum_cons, List.map_map, Xor.add_eq_zero_iff,
      ← Xor.sum_map_range]
    rfl
  have hq : ∀ i, Xor.syndrome (C.qCheck i) c = 0 ↔
      c (C.dataDisks + 1, i) = ((C.named i).map c).sum := by
    intro i
    rw [Xor.syndrome, qCheck, List.map_cons, List.sum_cons, Xor.add_eq_zero_iff]
  constructor
  · intro h
    exact ⟨fun r hr => (hp r).2 (h.p r hr), fun i hi => (hq i).2 (h.q i hi)⟩
  · rintro ⟨h₁, h₂⟩
    exact ⟨fun r hr => (hp r).1 (h₁ r hr), fun i hi => (hq i).1 (h₂ i hi)⟩

/-- A write adds the new value to the written cells; the data cell also loses its old value.  The
equations survive exactly when there is no old value and every `Q` block that depends on the write
an odd number of times more than it is updated sees a zero. -/
theorem parity_write_iff (h : C.Parity c) (hd : d < C.dataDisks) (hr : r < C.rows) (old new : V) :
    C.Parity (Xor.touch (C.written d r qs) new (Xor.touch [(d, r)] old c)) ↔
      old = 0 ∧ ∀ i < C.rows,
        Odd (qs.count i + (C.named i).count (d, r) + (C.named i).count (C.dataDisks, r)) →
          new = 0 := by
  obtain ⟨hp, hq⟩ := parity_iff_syndrome.1 h
  have hp' : ∀ r' < C.rows, Xor.syndrome (C.pCheck r')
      (Xor.touch (C.written d r qs) new (Xor.touch [(d, r)] old c)) = if r' = r then old
        else 0 := by
    intro r' hr'
    rw [Xor.syndrome_touch, Xor.syndrome_touch, hp r' hr', incidence_pCheck_written hd,
      Xor.incidence_cons_right, Xor.incidence_nil_right, count_pCheck hd.le]
    by_cases hrr : r' = r
    · simp [hrr, two_nsmul, ZModModule.add_self]
    · simp [hrr]
  have hq' : ∀ i < C.rows, Xor.syndrome (C.qCheck i)
      (Xor.touch (C.written d r qs) new (Xor.touch [(d, r)] old c)) =
        (C.named i).count (d, r) • old +
        if Odd (qs.count i + (C.named i).count (d, r) + (C.named i).count (C.dataDisks, r)) then new
        else 0 := by
    intro i hi
    rw [Xor.syndrome_touch, Xor.syndrome_touch, hq i hi, incidence_qCheck_written hd hi,
      Xor.incidence_cons_right, Xor.incidence_nil_right, count_qCheck hd.le, add_zero, zero_add,
      ← Xor.nsmul_eq_ite, add_comm (qs.count i), add_assoc,
      add_comm (qs.count i)]
  rw [parity_iff_syndrome]
  constructor
  · rintro ⟨h₁, h₂⟩
    have hold : old = 0 := by
      rw [← h₁ r hr, hp' r hr, if_pos rfl]
    refine ⟨hold, fun i hi hodd => ?_⟩
    rw [← h₂ i hi, hq' i hi, hold, smul_zero, zero_add, if_pos hodd]
  · rintro ⟨rfl, hnew⟩
    refine ⟨fun r' hr' => ?_, fun i hi => ?_⟩
    · rw [hp' r' hr', ite_self]
    · rw [hq' i hi, smul_zero, zero_add]
      split
      · exact hnew i hi ‹_›
      · rfl

end Code

end Strip
