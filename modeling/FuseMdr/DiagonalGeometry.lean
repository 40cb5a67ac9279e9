/-
**The diagonals of the EVENODD and RDP tables.**

Both constructors fill `elem_hash` by loops over different variables: RDP finds the `P` cell and the
data cells of a diagonal apart, and leaves out the row of the `P` cell; EVENODD finds the special
diagonal by rows, the others by disks.  Here the lists are compared with the diagonals themselves,
as sets of cells, and the lookup of `encode` with the lists.

Main definitions:

* `Ncfs.diagonal`, `Ncfs.specialDiagonal` — the cells whose row and disk add up to a number, modulo
  another or not.

Main results:

* `Ncfs.ElemTable.coe_findQBlocksId` — the lookup returns the `Q` blocks that list the cell, each
  once, when no list has a cell twice;
* `Ncfs.Coding4Rdp.lists_each_diagonal` — **RDP**: every diagonal but the last, and no cell of the
  last;
* `Ncfs.Coding4Evenodd.lists_two_diagonals` — **EVENODD**: the special diagonal and another one,
  which are disjoint.
-/
import FuseMdr.Evenodd
import FuseMdr.Rdp

set_option relaxedAutoImplicit false
set_option autoImplicit false

namespace Ncfs

/-! ### Diagonals -/

/-- Diagonal `i` modulo `m` of a strip of `rows` rows on `disks` disks. -/
def diagonal (rows disks m i : ℕ) : Finset Pair :=
  (Finset.range rows ×ˢ Finset.range disks).filter fun e => (e.1 + e.2) % m = i

/-- The special diagonal of an EVENODD strip on `k` data disks. -/
def specialDiagonal (k : ℕ) : Finset Pair :=
  (Finset.range (k - 1) ×ˢ Finset.range k).filter fun e => e.1 + e.2 = k - 1

theorem mem_diagonal {rows disks m i : ℕ} {e : Pair} :
    e ∈ diagonal rows disks m i ↔ (e.1 < rows ∧ e.2 < disks) ∧ (e.1 + e.2) % m = i := by
  rw [diagonal, Finset.mem_filter, Finset.mem_product, Finset.mem_range, Finset.mem_range]

theorem mem_specialDiagonal {k : ℕ} {e : Pair} :
    e ∈ specialDiagonal k ↔ (e.1 < k - 1 ∧ e.2 < k) ∧ e.1 + e.2 = k - 1 := by
  rw [specialDiagonal, Finset.mem_filter, Finset.mem_product, Finset.mem_range, Finset.mem_range]

/-- A cell lies on one diagonal. -/
theorem disjoint_diagonal {rows disks m i i' : ℕ} (h : i ≠ i') :
    Disjoint (diagonal rows disks m i) (diagonal rows disks m i') := by
  refine Finset.disjoint_left.2 fun e he he' => h ?_
  exact (mem_diagonal.1 he).2.symm.trans (mem_diagonal.1 he').2

/-- The special diagonal is the one that has no `Q` block of its own. -/
theorem specialDiagonal_eq (k : ℕ) : specialDiagonal k = diagonal (k - 1) k k (k - 1) := by
  ext e
  rw [mem_specialDiagonal, mem_diagonal]
  refine and_congr_right fun ⟨hr, hc⟩ => ⟨fun h => ?_, fun h => ?_⟩
  · rw [h, Nat.mod_eq_of_lt (by omega)]
  · -- a sum of `k` or more leaves less than `k - 2`
    rcases Nat.lt_or_ge (e.1 + e.2) k with hlt | hge
    · rwa [Nat.mod_eq_of_lt hlt] at h
    · rw [Nat.mod_eq_sub_mod hge, Nat.mod_eq_of_lt (by omega)] at h
      omega

/-! ### Lists of distinct entries -/

/-- A list that has every element of a set once, and nothing else. -/
theorem coe_eq_val {α : Type*} [BEq α] [LawfulBEq α] [DecidableEq α] {l : List α} {s : Finset α}
    (h : ∀ a, l.count a = if a ∈ s then 1 else 0) : (l : Multiset α) = s.val := by
  have hnodup : l.Nodup := by
    refine List.nodup_iff_count_le_one.2 fun a => (h a).trans_le ?_
    split
    · exact le_rfl
    · exact Nat.zero_le 1
  refine (Multiset.Nodup.ext (Multiset.coe_nodup.2 hnodup) s.nodup).2 fun a => ?_
  rw [Multiset.mem_coe, Finset.mem_val, ← List.count_pos_iff, h]
  by_cases ha : a ∈ s
  · rw [if_pos ha]
    exact iff_of_true Nat.one_pos ha
  · rw [if_neg ha]
    exact iff_of_false (lt_irrefl 0) ha

/-- The lookup of `encode` returns the `Q` blocks that list the cell, each once. -/
theorem ElemTable.coe_findQBlocksId {coding : ElemTable} {pushes : List (Pair × Pair)}
    (hhash : coding.elemHash = fillHash pushes) (hsymm : SymmPushes pushes) {e : Pair}
    (honce : ∀ i < coding.row, (coding.elemHash (i, coding.col - 1)).count e ≤ 1)
    (hrow : ∀ i, e ∈ coding.elemHash (i, coding.col - 1) → i < coding.row) :
    (coding.findQBlocksId e.2 e.1 : Multiset ℕ) =
      ((Finset.range coding.row).filter fun i => e ∈ coding.elemHash (i, coding.col - 1)).val := by
  refine coe_eq_val fun i => ?_
  rw [ElemTable.count_findQBlocksId hhash hsymm, ElemTable.count_named]
  by_cases hmem : e ∈ coding.elemHash (i, coding.col - 1)
  · have hi := hrow i hmem
    have hpos := List.count_pos_iff.2 hmem
    rw [if_pos (Finset.mem_filter.2 ⟨Finset.mem_range.2 hi, hmem⟩)]
    exact le_antisymm (honce i hi) hpos
  · refine (List.count_eq_zero.2 hmem).trans (if_neg fun h => ?_).symm
    exact hmem (Finset.mem_filter.1 h).2

/-! ### RDP -/

namespace Coding4Rdp

variable (st : NcfsState)

theorem coe_elemHash {i : ℕ} (hi : i < st.dataDiskNum) :
    ((new st).elemHash (i, st.dataDiskNum + 1) : Multiset Pair) =
      (diagonal st.dataDiskNum (st.dataDiskNum + 1) (st.dataDiskNum + 1) i).val := by
  refine coe_eq_val fun e => ?_
  refine (count_elemHash hi e.1 e.2).trans ?_
  refine if_congr ?_ rfl rfl
  rw [mem_diagonal, and_assoc, Nat.lt_succ_iff]

/-- Only the `Q` cells of the strip have lists. -/
theorem lt_of_mem_elemHash {i : ℕ} {e : Pair} (h : e ∈ (new st).elemHash (i, st.dataDiskNum + 1)) :
    i < st.dataDiskNum :=
  lt_of_mem_elemsRelatedElems (mem_fillHash.1 h)

/-- The entries of the two directions are the same. -/
theorem count_converse (e : Pair) (i : ℕ) :
    ((new st).elemHash e).count (i, st.dataDiskNum + 1) =
      ((new st).elemHash (i, st.dataDiskNum + 1)).count e := by
  rw [new, count_fillHash, count_fillHash, elemsRelatedElems_symm]

theorem coe_rdpFindQBlocksId (e : Pair) :
    (rdpFindQBlocksId (new st) e.2 e.1 : Multiset ℕ) =
      ((Finset.range st.dataDiskNum).filter fun i =>
        e ∈ (new st).elemHash (i, st.dataDiskNum + 1)).val := by
  refine ElemTable.coe_findQBlocksId rfl (elemsRelatedElems_symm _ _ _) (fun i hi => ?_) fun i h =>
    lt_of_mem_elemHash st h
  refine (count_elemHash hi e.1 e.2).trans_le ?_
  split
  · exact le_rfl
  · exact Nat.zero_le 1

/-- The last diagonal is listed for no `Q` block. -/
theorem not_mem_elemHash_of_last {e : Pair}
    (h : (e.1 + e.2) % (st.dataDiskNum + 1) = st.dataDiskNum) (i : ℕ) :
    e ∉ (new st).elemHash (i, st.dataDiskNum + 1) := by
  intro hmem
  have hi := lt_of_mem_elemHash st hmem
  have hdiag : e ∈ diagonal st.dataDiskNum (st.dataDiskNum + 1) (st.dataDiskNum + 1) i := by
    rw [← Finset.mem_val, ← coe_elemHash st hi]
    exact hmem
  have := (mem_diagonal.1 hdiag).2
  omega

/-- **The diagonals of RDP.**  The list of `Q` block `i` is diagonal `i` of the data and `P` cells,
each cell once.  The entries from a cell to the `Q` blocks are the converse: the lookup returns the
blocks that list the cell, each once.  The cells of the last diagonal are listed for none. -/
theorem lists_each_diagonal :
    (∀ i < st.dataDiskNum, ((new st).elemHash (i, st.dataDiskNum + 1) : Multiset Pair) =
      (diagonal st.dataDiskNum (st.dataDiskNum + 1) (st.dataDiskNum + 1) i).val) ∧
    (∀ e : Pair, (∀ i, ((new st).elemHash e).count (i, st.dataDiskNum + 1) =
        ((new st).elemHash (i, st.dataDiskNum + 1)).count e) ∧
      (rdpFindQBlocksId (new st) e.2 e.1 : Multiset ℕ) =
        ((Finset.range st.dataDiskNum).filter fun i =>
          e ∈ (new st).elemHash (i, st.dataDiskNum + 1)).val) ∧
    ∀ e : Pair, (e.1 + e.2) % (st.dataDiskNum + 1) = st.dataDiskNum →
      (∀ i, e ∉ (new st).elemHash (i, st.dataDiskNum + 1)) ∧ rdpFindQBlocksId
        (new st) e.2 e.1 = [] := by
  refine ⟨fun i hi => coe_elemHash st hi,
    fun e => ⟨count_converse st e, coe_rdpFindQBlocksId st e⟩, fun e hlast => ?_⟩
  have hnone := not_mem_elemHash_of_last st hlast
  refine ⟨hnone, ?_⟩
  rw [← Multiset.coe_eq_zero, coe_rdpFindQBlocksId, Finset.filter_false_of_mem fun i _ => hnone i]
  rfl

/-- The `Q` equations of RDP in terms of diagonals. -/
theorem parity_iff_diagonal {V : Type*} [AddCommGroup V] (c : Pair → V) :
    (new st).Parity c ↔
      (∀ r < st.dataDiskNum, c (r, st.dataDiskNum) = ∑ j ∈ Finset.range st.dataDiskNum, c (r, j)) ∧
      ∀ i < st.dataDiskNum, c (i, st.dataDiskNum + 1) =
        ∑ e ∈ diagonal st.dataDiskNum (st.dataDiskNum + 1) (st.dataDiskNum + 1) i, c e := by
  have hsum : ∀ i < st.dataDiskNum, (((new st).elemHash (i, st.dataDiskNum + 1)).map c).sum =
      ∑ e ∈ diagonal st.dataDiskNum (st.dataDiskNum + 1) (st.dataDiskNum + 1) i, c e := by
    intro i hi
    rw [Finset.sum, ← coe_elemHash st hi, Multiset.map_coe, Multiset.sum_coe]
  constructor
  · intro h
    exact ⟨h.p, fun i hi => (h.q i hi).trans (hsum i hi)⟩
  · rintro ⟨hp, hq⟩
    exact ⟨hp, fun i hi => (hq i hi).trans (hsum i hi).symm⟩

end Coding4Rdp

/-! ### EVENODD -/

namespace Coding4Evenodd

variable (st : NcfsState)

/-- The special diagonal has no cell on the diagonal of a `Q` block. -/
theorem disjoint_specialDiagonal {k i : ℕ} (hi : i < k - 1) :
    Disjoint (specialDiagonal k) (diagonal (k - 1) k k i) := by
  rw [specialDiagonal_eq]
  exact disjoint_diagonal hi.ne'

theorem coe_elemHash {i : ℕ} (hi : i < st.dataDiskNum - 1) :
    ((new st).elemHash (i, st.dataDiskNum + 1) : Multiset Pair) =
      (specialDiagonal st.dataDiskNum).val +
        (diagonal (st.dataDiskNum - 1) st.dataDiskNum st.dataDiskNum i).val := by
  have hdisj := disjoint_specialDiagonal hi
  refine (coe_eq_val (s := (specialDiagonal st.dataDiskNum).disjUnion _ hdisj) fun e => ?_).trans
    (Finset.disjUnion_val _ _ _)
  refine (count_elemHash hi e.1 e.2).trans ?_
  refine if_congr ?_ rfl rfl
  rw [Finset.mem_disjUnion, mem_specialDiagonal, mem_diagonal, ← and_or_left, ← and_assoc,
    and_comm (a := e.2 < _)]

theorem lt_of_mem_elemHash {i : ℕ} {e : Pair} (h : e ∈ (new st).elemHash (i, st.dataDiskNum + 1)) :
    i < st.dataDiskNum - 1 :=
  lt_of_mem_elemsRelatedElems (mem_fillHash.1 h)

/-- The cells of the list of a `Q` block. -/
theorem mem_elemHash {i : ℕ} (hi : i < st.dataDiskNum - 1) {e : Pair} :
    e ∈ (new st).elemHash (i, st.dataDiskNum + 1) ↔ e ∈ specialDiagonal st.dataDiskNum ∨
      e ∈ diagonal (st.dataDiskNum - 1) st.dataDiskNum st.dataDiskNum i := by
  rw [← Multiset.mem_coe, coe_elemHash st hi, Multiset.mem_add, Finset.mem_val, Finset.mem_val]

theorem coe_evenoddFindQBlocksId (e : Pair) :
    (evenoddFindQBlocksId (new st) e.2 e.1 : Multiset ℕ) =
      ((Finset.range (st.dataDiskNum - 1)).filter fun i =>
        e ∈ (new st).elemHash (i, st.dataDiskNum + 1)).val := by
  refine ElemTable.coe_findQBlocksId rfl (elemsRelatedElems_symm _ _) (fun i hi => ?_) fun i h =>
    lt_of_mem_elemHash st h
  refine (count_elemHash hi e.1 e.2).trans_le ?_
  split
  · exact le_rfl
  · exact Nat.zero_le 1

/-- The `Q` blocks of a data cell: all for a cell of the special diagonal, else that of its
diagonal. -/
theorem filter_mem_elemHash {e : Pair} (hr : e.1 < st.dataDiskNum - 1) (hc : e.2 < st.dataDiskNum) :
    (Finset.range (st.dataDiskNum - 1)).filter
      (fun i => e ∈ (new st).elemHash (i, st.dataDiskNum + 1)) = if e ∈
        specialDiagonal st.dataDiskNum then Finset.range (st.dataDiskNum - 1)
      else {(e.1 + e.2) % st.dataDiskNum} := by
  by_cases hspecial : e ∈ specialDiagonal st.dataDiskNum
  · rw [if_pos hspecial]
    exact Finset.filter_true_of_mem fun i hi =>
      (mem_elemHash st (Finset.mem_range.1 hi)).2 (Or.inl hspecial)
  · -- the index of its diagonal is that of a row, since its diagonal is not the special one
    have hlast : (e.1 + e.2) % st.dataDiskNum ≠ st.dataDiskNum - 1 := by
      rw [specialDiagonal_eq, mem_diagonal] at hspecial
      exact fun h => hspecial ⟨⟨hr, hc⟩, h⟩
    have hlt : (e.1 + e.2) % st.dataDiskNum < st.dataDiskNum := Nat.mod_lt _ (by omega)
    rw [if_neg hspecial]
    ext i
    rw [Finset.mem_filter, Finset.mem_range, Finset.mem_singleton]
    constructor
    · rintro ⟨hi, hmem⟩
      exact ((mem_diagonal.1 (((mem_elemHash st hi).1 hmem).resolve_left hspecial)).2).symm
    · rintro rfl
      have hi : (e.1 + e.2) % st.dataDiskNum < st.dataDiskNum - 1 := by omega
      exact ⟨hi, (mem_elemHash st hi).2 (Or.inr (mem_diagonal.2 ⟨⟨hr, hc⟩, rfl⟩))⟩

/-- **The diagonals of EVENODD.**  The list of `Q` block `i` is the special diagonal and diagonal
`i`, which are disjoint, each cell once.  The lookup of a data cell returns the blocks that list the
cell, each once: all of them for a cell of the special diagonal, the one of its diagonal for any
other. -/
theorem lists_two_diagonals :
    (∀ i < st.dataDiskNum - 1,
      Disjoint (specialDiagonal st.dataDiskNum)
        (diagonal (st.dataDiskNum - 1) st.dataDiskNum st.dataDiskNum i) ∧
      ((new st).elemHash (i, st.dataDiskNum + 1) : Multiset Pair) =
        (specialDiagonal st.dataDiskNum).val +
          (diagonal (st.dataDiskNum - 1) st.dataDiskNum st.dataDiskNum i).val) ∧
    ∀ e : Pair, e.1 < st.dataDiskNum - 1 → e.2 < st.dataDiskNum →
      (evenoddFindQBlocksId (new st) e.2 e.1 : Multiset ℕ) =
        ((Finset.range (st.dataDiskNum - 1)).filter fun i =>
          e ∈ (new st).elemHash (i, st.dataDiskNum + 1)).val ∧
      (e ∈ specialDiagonal st.dataDiskNum → (evenoddFindQBlocksId (new st) e.2 e.1 : Multiset ℕ) =
        (Finset.range (st.dataDiskNum - 1)).val) ∧
      (e ∉ specialDiagonal st.dataDiskNum →
        evenoddFindQBlocksId (new st) e.2 e.1 = [(e.1 + e.2) % st.dataDiskNum]) := by
  refine ⟨fun i hi => ⟨disjoint_specialDiagonal hi, coe_elemHash st hi⟩, fun e hr hc => ?_⟩
  have hfind := coe_evenoddFindQBlocksId st e
  have hfilter := filter_mem_elemHash st hr hc
  refine ⟨hfind, fun hspecial => ?_, fun hspecial => ?_⟩
  · rw [hfind, hfilter, if_pos hspecial]
  · rw [hfilter, if_neg hspecial] at hfind
    exact Multiset.coe_eq_singleton.1 hfind

/-- The `Q` equations of EVENODD in terms of diagonals. -/
theorem parity_iff_diagonal {V : Type*} [AddCommGroup V] (c : Pair → V) :
    (new st).Parity c ↔
      (∀ r < st.dataDiskNum - 1,
        c (r, st.dataDiskNum) = ∑ j ∈ Finset.range st.dataDiskNum, c (r, j)) ∧
      ∀ i < st.dataDiskNum - 1, c (i, st.dataDiskNum + 1) =
        ∑ e ∈ specialDiagonal st.dataDiskNum, c e +
          ∑ e ∈ diagonal (st.dataDiskNum - 1) st.dataDiskNum st.dataDiskNum i, c e := by
  have hsum : ∀ i < st.dataDiskNum - 1, (((new st).elemHash (i, st.dataDiskNum + 1)).map c).sum =
      ∑ e ∈ specialDiagonal st.dataDiskNum, c e +
        ∑ e ∈ diagonal (st.dataDiskNum - 1) st.dataDiskNum st.dataDiskNum i, c e := by
    intro i hi
    rw [Finset.sum, Finset.sum, ← Multiset.sum_add, ← Multiset.map_add, ← coe_elemHash st hi,
      Multiset.map_coe, Multiset.sum_coe]
  constructor
  · intro h
    exact ⟨h.p, fun i hi => (h.q i hi).trans (hsum i hi)⟩
  · rintro ⟨hp, hq⟩
    exact ⟨hp, fun i hi => (hq i hi).trans (hsum i hi).symm⟩

end Coding4Evenodd

end Ncfs
