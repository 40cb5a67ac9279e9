/-
**Where the bytes come from.**

The loop over the rows copies blocks, and it puts sums of rows to free places.  The places depend on
the free offsets and sizes alone, and so does what a block holds afterwards: what one of the blocks
held before, or the value that was put away in a row.  The value of a row is what a block held
before only if nothing was put into the row earlier, or if it is the copy of such a value: each
value is put into one later row at most, so that the values of the rows make up a forest, and a sum
over several branches is not what a single block held.

Main definitions:

* `Ncfs.Source`, `Ncfs.sourceAfter` — what the blocks hold after so many rows;
* `Ncfs.Carries` — the value that is put away in a row is what a block held;
* `Ncfs.Feeds` — the value of a row has been put into a later one.

Main results:

* `Ncfs.cellsAfter_eq` — the blocks after the loop;
* `Ncfs.Carries.rowContent`, `Ncfs.carries_of_rowContent` — `Carries` is exact;
* `Ncfs.comesFrom_iff` — a block holds what another one held, for all contents.
-/
import FuseMdr.Remap

set_option relaxedAutoImplicit false
set_option autoImplicit false

namespace Ncfs

open Relation

/-- What a block holds: what a block held before, or the value that was put away in a row. -/
inductive Source where
  | block (x : ℕ × ℕ)
  | row (i : ℕ)
deriving DecidableEq, Repr

/-- What the blocks hold after the first rows. -/
def sourceAfter (bb : NcfsState) (failDisk : ℕ) : ℕ → ℕ × ℕ → Source
  | 0 => .block
  | i + 1 => fun x =>
      let put := fun y =>
        if placeOf bb failDisk i = some y then .row i else sourceAfter bb failDisk i y
      if Swaps bb.diskTotalNum failDisk i ∧ x = (raid5ParityDiskId bb.diskTotalNum i, i) then
        put (newParityDiskId bb.diskTotalNum failDisk i, i)
      else put x

/-- The value that is put away in row `k` is what block `x` held. -/
inductive Carries (bb : NcfsState) (failDisk : ℕ) : ℕ → ℕ × ℕ → Prop
  /-- The block of the failed disk is recovered, from a row into which nothing has been put. -/
  | recovered {k : ℕ} (parity : raid5ParityDiskId bb.diskTotalNum k ≠ failDisk)
      (read : ∀ i < k, ∀ d, placeOf bb failDisk i ≠ some (d, k)) :
      Carries bb failDisk k (failDisk, k)
  /-- The parity of the row is lost, and a block makes room for the new one. -/
  | moved {k : ℕ} (parity : raid5ParityDiskId bb.diskTotalNum k = failDisk)
      (read : ∀ i < k,
        placeOf bb failDisk i ≠ some (newParityDiskId bb.diskTotalNum failDisk k, k)) :
      Carries bb failDisk k (newParityDiskId bb.diskTotalNum failDisk k, k)
  /-- So does a block that was put there before. -/
  | again {k i : ℕ} {x : ℕ × ℕ} (parity : raid5ParityDiskId bb.diskTotalNum k = failDisk)
      (earlier : i < k)
      (place : placeOf bb failDisk i = some (newParityDiskId bb.diskTotalNum failDisk k, k))
      (carries : Carries bb failDisk i x) : Carries bb failDisk k x

/-- After the loop over the rows block `t` holds what block `x` held. -/
def ComesFrom (bb : NcfsState) (failDisk : ℕ) (t x : ℕ × ℕ) : Prop :=
  sourceAfter bb failDisk (bb.freeOffset failDisk) t = .block x ∨
    ∃ k, sourceAfter bb failDisk (bb.freeOffset failDisk) t = .row k ∧ Carries bb failDisk k x

/-- The contents add up to zero in each row of `n` disks. -/
def Balanced (n : ℕ) (c : ℕ × ℕ → Byte) : Prop := ∀ b, ∑ j ∈ Finset.range n, c (j, b) = 0

/-- Two blocks of row `b` hold `a`, the others zero. -/
def pairContent (a : Byte) (j j' b : ℕ) : ℕ × ℕ → Byte := fun x =>
  if x = (j, b) ∨ x = (j', b) then a else 0

/-- The byte that stands for the source of a block, with `c` what the blocks held. -/
def Source.value (c : ℕ × ℕ → Byte) (rowContent : ℕ → Byte) : Source → Byte
  | .block x => c x
  | .row i => rowContent i

section Contents

variable {n j j' b : ℕ} {a : Byte} {x y : ℕ × ℕ}

theorem pairContent_left : pairContent a j j' b (j, b) = a := if_pos (.inl rfl)

theorem pairContent_of_ne (hj : x ≠ (j, b)) (hj' : x ≠ (j', b)) : pairContent a j j' b x = 0 :=
  if_neg fun h => h.elim hj hj'

theorem pairContent_row {d m : ℕ} (hm : m ≠ b) : pairContent a j j' b (d, m) = 0 :=
  pairContent_of_ne (fun h => hm (Prod.mk.inj h).2) fun h => hm (Prod.mk.inj h).2

/-- Two equal bytes add up to zero. -/
theorem balanced_pairContent (hj : j < n) (hj' : j' < n) (hne : j ≠ j') :
    Balanced n (pairContent a j j' b) := by
  intro m
  by_cases hm : m = b
  · subst hm
    have hright : pairContent a j j' m (j', m) = a := if_pos (.inr rfl)
    rw [Finset.sum_eq_add_of_mem j j' (Finset.mem_range.2 hj) (Finset.mem_range.2 hj') hne,
      pairContent_left, hright, ZModModule.add_self]
    rintro d - ⟨hd, hd'⟩
    exact pairContent_of_ne (fun h => hd (Prod.mk.inj h).1) fun h => hd' (Prod.mk.inj h).1
  · exact Finset.sum_eq_zero fun d _ => pairContent_row hm

/-- Different blocks of three disks or more can hold different bytes. -/
theorem eq_of_contents (hn : 3 ≤ n) (hx : x.1 < n) (h : ∀ c, Balanced n c → c y = c x) : y = x := by
  by_contra hne
  obtain ⟨z, hz, hzx, hzy⟩ : ∃ z < n, z ≠ x.1 ∧ z ≠ y.1 := by
    by_contra hall
    push Not at hall
    have hzero := hall 0 (by omega)
    have hone := hall 1 (by omega)
    have htwo := hall 2 (by omega)
    omega
  have ha : (Byte.ofNat 1 : Byte) ≠ 0 := by decide
  have hsame := h _ (balanced_pairContent (a := Byte.ofNat 1) (b := x.2) hx hz hzx.symm)
  rw [pairContent_left, pairContent_of_ne hne fun hy => hzy (congrArg Prod.fst hy).symm] at hsame
  exact ha hsame.symm

end Contents

section Rows

variable {bb : NcfsState} {failDisk n k i i' m : ℕ} {c : ℕ × ℕ → Byte} {x y : ℕ × ℕ}

/-- The value that is put away in a row. -/
noncomputable def rowContent (bb : NcfsState) (failDisk : ℕ) (c : ℕ × ℕ → Byte) (k : ℕ) : Byte :=
  rowValue bb.diskTotalNum failDisk (cellsAfter bb failDisk c k) k

/-- **The blocks after the first rows**, by their sources. -/
theorem cellsAfter_eq (bb : NcfsState) (failDisk : ℕ) (c : ℕ × ℕ → Byte) (n : ℕ) (x : ℕ × ℕ) :
    cellsAfter bb failDisk c n x =
      (sourceAfter bb failDisk n x).value c (rowContent bb failDisk c) := by
  induction n generalizing x with
  | zero => rfl
  | succ n ih =>
      have hput : ∀ y, putAway bb failDisk n (cellsAfter bb failDisk c n) y =
          (if placeOf bb failDisk n = some y then .row n else sourceAfter bb failDisk n y :
            Source).value c (rowContent bb failDisk c) := by
        intro y
        rw [putAway]
        split
        · rfl
        · exact ih y
      rw [cellsAfter, sourceAfter]
      dsimp only
      split <;> exact hput _

/-- Up to its own row only places are written in a row. -/
theorem sourceAfter_early (bb : NcfsState) (failDisk : ℕ) {n : ℕ} {x : ℕ × ℕ} (hn : n ≤ x.2) :
    (∀ i, sourceAfter bb failDisk n x = .row i → i < n ∧ placeOf bb failDisk i = some x) ∧
      ∀ y, sourceAfter bb failDisk n x = .block y →
        y = x ∧ ∀ i < n, placeOf bb failDisk i ≠ some x := by
  induction n with
  | zero =>
      refine ⟨fun i h => Source.noConfusion h, fun y h => ⟨?_, fun i hi => absurd hi (by omega)⟩⟩
      exact (Source.block.inj h).symm
  | succ n ih =>
      obtain ⟨hrow, hblock⟩ := ih (by omega)
      have hstep : sourceAfter bb failDisk (n + 1) x =
          if placeOf bb failDisk n = some x then .row n else sourceAfter bb failDisk n x := by
        rw [sourceAfter]
        refine if_neg fun hand => ?_
        rw [hand.2] at hn
        exact absurd hn (Nat.not_succ_le_self n)
      rw [hstep]
      by_cases hplace : placeOf bb failDisk n = some x
      · rw [if_pos hplace]
        refine ⟨fun i h => ?_, fun y h => Source.noConfusion h⟩
        obtain rfl := Source.row.inj h
        exact ⟨Nat.lt_succ_self n, hplace⟩
      · rw [if_neg hplace]
        refine ⟨fun i h => ⟨(hrow i h).1.trans (Nat.lt_succ_self n), (hrow i h).2⟩, fun y h => ?_⟩
        obtain ⟨hy, hnone⟩ := hblock y h
        refine ⟨hy, fun i hi => ?_⟩
        rcases Nat.lt_succ_iff_lt_or_eq.1 hi with hlt | rfl
        · exact hnone i hlt
        · exact hplace

/-- Row `k` without its own parity. -/
theorem rowContent_lost (h : raid5ParityDiskId bb.diskTotalNum k = failDisk) :
    rowContent bb failDisk c k =
      (sourceAfter bb failDisk k (newParityDiskId bb.diskTotalNum failDisk k, k)).value c
        (rowContent bb failDisk c) := by
  rw [rowContent, rowValue, if_pos h, cellsAfter_eq]

/-- Row `k` without a block of data. -/
theorem rowContent_sum (h : raid5ParityDiskId bb.diskTotalNum k ≠ failDisk) :
    rowContent bb failDisk c k = ∑ j ∈ (Finset.range bb.diskTotalNum).erase failDisk,
      (sourceAfter bb failDisk k (j, k)).value c (rowContent bb failDisk c) := by
  rw [rowContent, rowValue, if_neg h]
  exact Finset.sum_congr rfl fun j _ => cellsAfter_eq ..

/-- A block of its row into which nothing has been put. -/
theorem sourceAfter_free {d : ℕ} (hfree : ∀ i < k, placeOf bb failDisk i ≠ some (d, k)) :
    sourceAfter bb failDisk k (d, k) = .block (d, k) := by
  obtain ⟨hrow, hblock⟩ := sourceAfter_early bb failDisk (x := (d, k)) le_rfl
  cases hsource : sourceAfter bb failDisk k (d, k) with
  | block y => rw [(hblock y hsource).1]
  | row i => exact absurd (hrow i hsource).2 (hfree i (hrow i hsource).1)

/-- A block of its row into which something has been put. -/
theorem sourceAfter_place {d : ℕ} (hi : i < k) (hplace : placeOf bb failDisk i = some (d, k)) :
    sourceAfter bb failDisk k (d, k) = .row i := by
  obtain ⟨hrow, hblock⟩ := sourceAfter_early bb failDisk (x := (d, k)) le_rfl
  cases hsource : sourceAfter bb failDisk k (d, k) with
  | block y => exact absurd hplace ((hblock y hsource).2 i hi)
  | row i' =>
      rcases Nat.lt_trichotomy i i' with hlt | rfl | hgt
      · exact absurd rfl (place_ne hplace (hrow i' hsource).2 hlt)
      · rfl
      · exact absurd rfl (place_ne (hrow i' hsource).2 hplace hgt)

/-! ### The forest -/

/-- The value of row `i` has been put into row `k` before that row's turn. -/
def Feeds (bb : NcfsState) (failDisk i k : ℕ) : Prop :=
  i < k ∧ ∃ d, placeOf bb failDisk i = some (d, k)

theorem feeds_unique {k' : ℕ} (h : Feeds bb failDisk i k) (h' : Feeds bb failDisk i k') :
    k = k' := by
  obtain ⟨-, d, hd⟩ := h
  obtain ⟨-, d', hd'⟩ := h'
  exact (Prod.mk.inj (Option.some.inj (hd.symm.trans hd'))).2

theorem le_of_feeds (h : ReflTransGen (Feeds bb failDisk) m k) : m ≤ k := by
  induction h with
  | refl => exact le_rfl
  | tail _ hstep ih => exact ih.trans hstep.1.le

/-- The branches below a row are disjoint. -/
theorem feeds_disjoint (hi : Feeds bb failDisk i k) (hi' : Feeds bb failDisk i' k)
    (hm : ReflTransGen (Feeds bb failDisk) m i) (hm' : ReflTransGen (Feeds bb failDisk) m i') :
    i = i' := by
  have hside : ∀ {i i'}, Feeds bb failDisk i k → Feeds bb failDisk i' k →
      ReflTransGen (Feeds bb failDisk) i i' → i = i' := by
    intro i i' hi hi' h
    rcases ReflTransGen.cases_head h with heq | ⟨e, he, hrest⟩
    · exact heq
    · obtain rfl := feeds_unique hi he
      exact absurd (le_of_feeds hrest) (not_le.2 hi'.1)
  have hunique : Relator.RightUnique (Feeds bb failDisk) := fun _ _ _ => feeds_unique
  rcases ReflTransGen.total_of_right_unique hunique hm hm' with h | h
  · exact hside hi hi' h
  · exact (hside hi' hi h).symm

/-- The value of a row depends on the rows below it only. -/
theorem rowContent_eq_zero
    (h : ∀ m, ReflTransGen (Feeds bb failDisk) m k → ∀ j, c (j, m) = 0) :
    rowContent bb failDisk c k = 0 := by
  induction k using Nat.strong_induction_on with
  | _ k ih =>
      have hsource : ∀ d,
          (sourceAfter bb failDisk k (d, k)).value c (rowContent bb failDisk c) = 0 := by
        intro d
        obtain ⟨hrow, hblock⟩ :=
          sourceAfter_early bb failDisk (x := (d, k)) le_rfl
        cases hsource : sourceAfter bb failDisk k (d, k) with
        | block y =>
            rw [(hblock y hsource).1]
            exact h k .refl d
        | row i =>
            obtain ⟨hi, hplace⟩ := hrow i hsource
            exact ih i hi fun m hm => h m (hm.tail ⟨hi, d, hplace⟩)
      by_cases hlost : raid5ParityDiskId bb.diskTotalNum k = failDisk
      · rw [rowContent_lost hlost, hsource]
      · rw [rowContent_sum hlost]
        exact Finset.sum_eq_zero fun j _ => hsource j

/-- With contents in one row below `i`, the sum of row `k` is the value of row `i`. -/
theorem rowContent_of_feeds (hdata : raid5ParityDiskId bb.diskTotalNum k ≠ failDisk)
    (hi : Feeds bb failDisk i k) (hm : ReflTransGen (Feeds bb failDisk) m i)
    (hc : ∀ b, b ≠ m → ∀ j, c (j, b) = 0) :
    rowContent bb failDisk c k = rowContent bb failDisk c i := by
  obtain ⟨hlt, d, hplace⟩ := hi
  obtain ⟨-, -, hd, hne⟩ := placeOf_spec hplace
  rw [rowContent_sum hdata, Finset.sum_eq_single_of_mem d
    (Finset.mem_erase.2 ⟨hne, Finset.mem_range.2 hd⟩) fun j _ hj => ?_,
    sourceAfter_place hlt hplace]
  · rfl
  · obtain ⟨hrow, hblock⟩ :=
      sourceAfter_early bb failDisk (x := (j, k)) le_rfl
    cases hsource : sourceAfter bb failDisk k (j, k) with
    | block y =>
        rw [(hblock y hsource).1]
        exact hc k (fun hk => absurd (le_of_feeds hm) (by omega)) j
    | row i' =>
        obtain ⟨hi', hplace'⟩ := hrow i' hsource
        refine rowContent_eq_zero fun m' hm' j' => hc m' ?_ j'
        rintro rfl
        obtain rfl := feeds_disjoint ⟨hlt, d, hplace⟩ ⟨hi', j, hplace'⟩ hm hm'
        exact hj (Prod.mk.inj (Option.some.inj (hplace'.symm.trans hplace))).1

/-- With contents in its own row, on a disk into which nothing has been put, the sum of row `k` is
the byte of this disk. -/
theorem rowContent_pair (hdata : raid5ParityDiskId bb.diskTotalNum k ≠ failDisk) {j : ℕ}
    (hj : j < bb.diskTotalNum) (hne : j ≠ failDisk)
    (hfree : ∀ i < k, placeOf bb failDisk i ≠ some (j, k)) (a : Byte) :
    rowContent bb failDisk (pairContent a j failDisk k) k = a := by
  rw [rowContent_sum hdata, Finset.sum_eq_single_of_mem j
    (Finset.mem_erase.2 ⟨hne, Finset.mem_range.2 hj⟩) fun d hd hdj => ?_, sourceAfter_free hfree]
  · exact pairContent_left
  · obtain ⟨hrow, hblock⟩ :=
      sourceAfter_early bb failDisk (x := (d, k)) le_rfl
    cases hsource : sourceAfter bb failDisk k (d, k) with
    | block y =>
        rw [(hblock y hsource).1]
        refine pairContent_of_ne (fun h => hdj (Prod.mk.inj h).1) fun h => ?_
        exact (Finset.mem_erase.1 hd).1 (Prod.mk.inj h).1
    | row i =>
        obtain ⟨hi, -⟩ := hrow i hsource
        refine rowContent_eq_zero fun m hm d' => pairContent_row fun hk => ?_
        exact absurd (le_of_feeds hm) (by omega)

/-- The value of every row depends on some row. -/
theorem exists_rowContent (hn : 2 ≤ bb.diskTotalNum) (hfail : failDisk < bb.diskTotalNum) (k : ℕ) :
    ∃ m c, ReflTransGen (Feeds bb failDisk) m k ∧ Balanced bb.diskTotalNum c ∧
      (∀ b, b ≠ m → ∀ j, c (j, b) = 0) ∧ rowContent bb failDisk c k ≠ 0 := by
  have ha : (Byte.ofNat 1 : Byte) ≠ 0 := by decide
  induction k using Nat.strong_induction_on with
  | _ k ih =>
      by_cases hlost : raid5ParityDiskId bb.diskTotalNum k = failDisk
      · obtain ⟨hlt, hne⟩ := newParityDiskId_spec hn failDisk k
        by_cases hfree : ∀ i < k,
            placeOf bb failDisk i ≠ some (newParityDiskId bb.diskTotalNum failDisk k, k)
        · refine ⟨k, _, .refl, balanced_pairContent (a := Byte.ofNat 1) (b := k) hlt hfail hne,
            fun b hb j => pairContent_row hb, ?_⟩
          rw [rowContent_lost hlost, sourceAfter_free hfree]
          exact ne_of_eq_of_ne pairContent_left ha
        · push Not at hfree
          obtain ⟨i, hi, hplace⟩ := hfree
          obtain ⟨m, c, hm, hc, hother, hvalue⟩ := ih i hi
          refine ⟨m, c, hm.tail ⟨hi, _, hplace⟩, hc, hother, ?_⟩
          rw [rowContent_lost hlost, sourceAfter_place hi hplace]
          exact hvalue
      · by_cases hfree : ∃ j < bb.diskTotalNum, j ≠ failDisk ∧
            ∀ i < k, placeOf bb failDisk i ≠ some (j, k)
        · obtain ⟨j, hj, hne, hfree⟩ := hfree
          refine ⟨k, _, .refl, balanced_pairContent (a := Byte.ofNat 1) (b := k) hj hfail hne,
            fun b hb j => pairContent_row hb, ?_⟩
          rw [rowContent_pair hlost hj hne hfree]
          exact ha
        · push Not at hfree
          obtain ⟨j, hj, hne⟩ : ∃ j < bb.diskTotalNum, j ≠ failDisk :=
            ⟨_, newParityDiskId_spec hn failDisk k⟩
          obtain ⟨i, hi, hplace⟩ := hfree j hj hne
          obtain ⟨m, c, hm, hc, hother, hvalue⟩ := ih i hi
          refine ⟨m, c, hm.tail ⟨hi, _, hplace⟩, hc, hother, ?_⟩
          rwa [rowContent_of_feeds hlost ⟨hi, j, hplace⟩ hm hother]

/-! ### What a row carries -/

/-- The value is the one of the block. -/
theorem Carries.rowContent (h : Carries bb failDisk k x) (hfail : failDisk < bb.diskTotalNum)
    (hc : Balanced bb.diskTotalNum c) : Ncfs.rowContent bb failDisk c k = c x := by
  induction h with
  | @recovered k parity read =>
      rw [rowContent_sum parity, Finset.sum_congr rfl fun j _ => by
        rw [sourceAfter_free fun i hi => read i hi j]]
      have hsum := Xor.sum_range_erase hfail fun j => c (j, k)
      rw [hc k, zero_add] at hsum
      exact hsum.symm
  | @moved k parity read =>
      rw [rowContent_lost parity, sourceAfter_free read]
      rfl
  | @again k i x parity earlier place carries ih =>
      rw [rowContent_lost parity, sourceAfter_place earlier place]
      exact ih

/-- A row into which something has been put does not carry the block of the failed disk, nor any
other one. -/
theorem not_carries_of_feeds (hn : 4 ≤ bb.diskTotalNum) (hfail : failDisk < bb.diskTotalNum)
    (hdata : raid5ParityDiskId bb.diskTotalNum k ≠ failDisk) (hi : Feeds bb failDisk i k) :
    ¬ ∀ c, Balanced bb.diskTotalNum c → rowContent bb failDisk c k = c x := by
  intro h
  have ha : (Byte.ofNat 1 : Byte) ≠ 0 := by decide
  -- below each branch there is a row that `x` would have to be in
  have hbelow : ∀ {i}, Feeds bb failDisk i k →
      ∃ m, ReflTransGen (Feeds bb failDisk) m i ∧ m ≤ i ∧ x.2 = m := by
    intro i hi
    obtain ⟨m, c, hm, hc, hother, hvalue⟩ := exists_rowContent (by omega) hfail i
    refine ⟨m, hm, le_of_feeds hm, ?_⟩
    by_contra hne
    rw [← rowContent_of_feeds hdata hi hm hother, h c hc] at hvalue
    exact hvalue (hother x.2 hne x.1)
  obtain ⟨m, hm, hle, hxm⟩ := hbelow hi
  obtain ⟨hlt, d, hplace⟩ := hi
  by_cases hfree : ∃ j < bb.diskTotalNum, j ≠ failDisk ∧
      ∀ i < k, placeOf bb failDisk i ≠ some (j, k)
  · obtain ⟨j, hj, hne, hfree⟩ := hfree
    have hvalue := h _ (balanced_pairContent (a := Byte.ofNat 1) (b := k) hj hfail hne)
    rw [rowContent_pair hdata hj hne hfree] at hvalue
    refine ha (hvalue.trans (pairContent_row ?_))
    omega
  · push Not at hfree
    obtain ⟨j, hj, hne, hjd⟩ : ∃ j < bb.diskTotalNum, j ≠ failDisk ∧ j ≠ d := by
      by_contra hall
      push Not at hall
      have hzero := hall 0 (by omega)
      have hone := hall 1 (by omega)
      have htwo := hall 2 (by omega)
      omega
    obtain ⟨i', hi', hplace'⟩ := hfree j hj hne
    obtain ⟨m', hm', -, hxm'⟩ := hbelow ⟨hi', j, hplace'⟩
    obtain rfl : m = m' := hxm.symm.trans hxm'
    obtain rfl := feeds_disjoint ⟨hlt, d, hplace⟩ ⟨hi', j, hplace'⟩ hm hm'
    exact hjd (Prod.mk.inj (Option.some.inj (hplace'.symm.trans hplace))).1

/-- **A row carries no other block**: its value is the one of `x`, whatever the blocks hold, only if
it comes from `x`. -/
theorem carries_of_rowContent (hn : 4 ≤ bb.diskTotalNum) (hfail : failDisk < bb.diskTotalNum)
    (hx : x.1 < bb.diskTotalNum)
    (h : ∀ c, Balanced bb.diskTotalNum c → rowContent bb failDisk c k = c x) :
    Carries bb failDisk k x := by
  have hthree : 3 ≤ bb.diskTotalNum := by omega
  induction k using Nat.strong_induction_on with
  | _ k ih =>
      by_cases hlost : raid5ParityDiskId bb.diskTotalNum k = failDisk
      · by_cases hfree : ∀ i < k,
            placeOf bb failDisk i ≠ some (newParityDiskId bb.diskTotalNum failDisk k, k)
        · have heq : (newParityDiskId bb.diskTotalNum failDisk k, k) = x := by
            refine eq_of_contents hthree hx fun c hc => ?_
            rw [← h c hc, rowContent_lost hlost, sourceAfter_free hfree]
            rfl
          exact heq ▸ .moved hlost hfree
        · push Not at hfree
          obtain ⟨i, hi, hplace⟩ := hfree
          refine .again hlost hi hplace (ih i hi fun c hc => ?_)
          rw [← h c hc, rowContent_lost hlost, sourceAfter_place hi hplace]
          rfl
      · by_cases hfeeds : ∃ i, Feeds bb failDisk i k
        · obtain ⟨i, hi⟩ := hfeeds
          exact absurd h (not_carries_of_feeds hn hfail hlost hi)
        · have hread : ∀ i < k, ∀ d, placeOf bb failDisk i ≠ some (d, k) := fun i hi d hplace =>
            hfeeds ⟨i, hi, d, hplace⟩
          have hcarries := Carries.recovered hlost hread
          have heq : (failDisk, k) = x :=
            eq_of_contents hthree hx fun c hc => (hcarries.rowContent hfail hc).symm.trans (h c hc)
          exact heq ▸ hcarries

/-- **What a block holds after the loop.**  It is what block `x` held, whatever the blocks held,
exactly if it comes from `x`. -/
theorem comesFrom_iff (hn : 4 ≤ bb.diskTotalNum) (hfail : failDisk < bb.diskTotalNum)
    (hx : x.1 < bb.diskTotalNum) (t : ℕ × ℕ) :
    ComesFrom bb failDisk t x ↔ ∀ c, Balanced bb.diskTotalNum c →
      cellsAfter bb failDisk c (bb.freeOffset failDisk) t = c x := by
  constructor
  · rintro (hsource | ⟨k, hsource, hcarries⟩) c hc
    · rw [cellsAfter_eq, hsource]
      rfl
    · rw [cellsAfter_eq, hsource]
      exact hcarries.rowContent hfail hc
  · intro h
    cases hsource : sourceAfter bb failDisk (bb.freeOffset failDisk) t with
    | block y =>
        have heq : y = x := eq_of_contents (by omega) hx fun c hc => by
          rw [← h c hc, cellsAfter_eq, hsource]
          rfl
        exact .inl (heq ▸ hsource)
    | row k =>
        refine .inr ⟨k, hsource, carries_of_rowContent hn hfail hx fun c hc => ?_⟩
        rw [← h c hc, cellsAfter_eq, hsource]
        rfl

end Rows

end Ncfs
