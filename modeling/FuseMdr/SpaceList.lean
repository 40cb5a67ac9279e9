/-
**The order of the space list.**

`space_list_add` looks for the place of a freed block with one test over the disk and the block
number: a node is passed unless its disk is not smaller *and* its block is larger.  The
lexicographic order of the pairs would ask for the block number only when the disks agree, so a
block of a lower disk with a high number is put behind nodes of higher disks.

Main definitions:

* `Ncfs.SpaceList`, `Ncfs.SpaceList.add`, `Ncfs.SpaceList.remove` — the list with its counter;
* `Ncfs.SpaceSorted` — sorted lexicographically by disk and block;
* `Ncfs.FitsPlace` — the first node behind a pair's place has a larger block number.

Main results:

* `Ncfs.spaceListAdd_sorted_iff` — `space_list_add` keeps a list sorted exactly when the pair fits;
* `Ncfs.SpaceList.run_sorted` — a run all of whose adds fit keeps the list sorted;
* `Ncfs.SpaceList.add_iff` — the list and its counter after an add, and the counter over all runs.
-/
import FuseMdr.StoreOps
import Mathlib.Data.Prod.Lex

set_option relaxedAutoImplicit false
set_option autoImplicit false

namespace Ncfs

/-! ### The list and its counter -/

/-- The space list: its nodes, as disk and block, and `space_list_num`. -/
structure SpaceList where
  /-- The nodes from `space_list_head` on. -/
  nodes : List (ℕ × ℕ)
  /-- `space_list_num`. -/
  num : ℤ

namespace SpaceList

/-- The list that `main` starts with. -/
def empty : SpaceList := ⟨[], 0⟩

/-- `FileSystemLayer::space_list_add`, with the number it returns. -/
def add (s : SpaceList) (diskId diskBlockNo : ℕ) : ℤ × SpaceList :=
  let spaceListNum := match s.nodes with
    | [] => 1
    | _ :: _ => s.num + 1
  (spaceListNum, ⟨spaceListAdd s.nodes diskId diskBlockNo, spaceListNum⟩)

/-- Nodes are compared by disk and number. -/
local instance lawfulBEqNode : LawfulBEq (ℕ × ℕ) := inferInstance

/-- `FileSystemLayer::space_list_remove`: 0 when the node was found, else -1. -/
def remove (s : SpaceList) (diskId diskBlockNo : ℕ) : ℤ × SpaceList :=
  if (diskId, diskBlockNo) ∈ s.nodes then
    (0, ⟨spaceListRemove s.nodes diskId diskBlockNo, s.num - 1⟩)
  else (-1, s)

end SpaceList

/-- An operation on the space list. -/
inductive SpaceOp where
  /-- A block is freed. -/
  | add (diskId diskBlockNo : ℕ)
  /-- A block is taken. -/
  | remove (diskId diskBlockNo : ℕ)

/-- The list after an operation. -/
def SpaceList.step (s : SpaceList) : SpaceOp → SpaceList
  | .add diskId diskBlockNo => (s.add diskId diskBlockNo).2
  | .remove diskId diskBlockNo => (s.remove diskId diskBlockNo).2

/-- The list after a sequence of operations. -/
def SpaceList.run (s : SpaceList) (ops : List SpaceOp) : SpaceList := ops.foldl step s

/-! ### The order -/

/-- Sorted lexicographically by disk and block. -/
def SpaceSorted (l : List (ℕ × ℕ)) : Prop := l.Pairwise fun x y => toLex x ≤ toLex y

instance (l : List (ℕ × ℕ)) : Decidable (SpaceSorted l) :=
  inferInstanceAs (Decidable (l.Pairwise fun x y => toLex x ≤ toLex y))

/-- If a node is lexicographically larger than the pair, the first such node has a larger block
number too. -/
def FitsPlace (l : List (ℕ × ℕ)) (x : ℕ × ℕ) : Prop :=
  ∀ y, l.find? (fun y => toLex x < toLex y) = some y → x.2 < y.2

/-- What `space_list_add` tests implies the lexicographic order. -/
theorem lex_of_test {x y : ℕ × ℕ} (hd : x.1 ≤ y.1) (hb : x.2 < y.2) : toLex x < toLex y :=
  Prod.Lex.toLex_lt_toLex.2 (hd.lt_or_eq.imp_right fun h => ⟨h, hb⟩)

/-- For a pair that is lexicographically smaller, the test is the one of the block numbers. -/
theorem test_iff_of_lex {x y : ℕ × ℕ} (h : toLex x < toLex y) :
    x.1 ≤ y.1 ∧ x.2 < y.2 ↔ x.2 < y.2 := by
  have hd : x.1 ≤ y.1 := by
    rcases Prod.Lex.toLex_lt_toLex.1 h with h | h
    · exact h.le
    · exact h.1.le
  exact and_iff_right hd

theorem fits_nil (x : ℕ × ℕ) : FitsPlace [] x := by
  intro y h
  cases h

theorem fits_cons_of_lt {x y : ℕ × ℕ} {l : List (ℕ × ℕ)} (h : toLex x < toLex y) :
    FitsPlace (y :: l) x ↔ x.2 < y.2 := by
  have hfind : (y :: l).find? (fun y => toLex x < toLex y) = some y :=
    List.find?_cons_of_pos (by simpa using h)
  unfold FitsPlace
  rw [hfind]
  constructor
  · intro hfit
    exact hfit y rfl
  · rintro hb _ ⟨⟩
    exact hb

theorem fits_cons_of_not_lt {x y : ℕ × ℕ} {l : List (ℕ × ℕ)} (h : ¬ toLex x < toLex y) :
    FitsPlace (y :: l) x ↔ FitsPlace l x := by
  have hfind : (y :: l).find? (fun y => toLex x < toLex y) =
      l.find? (fun y => toLex x < toLex y) :=
    List.find?_cons_of_neg (by simpa using h)
  unfold FitsPlace
  rw [hfind]

/-- **The order survives exactly the adds that fit.** -/
theorem spaceListAdd_sorted_iff {l : List (ℕ × ℕ)} {d b : ℕ} (hl : SpaceSorted l)
    (hnew : (d, b) ∉ l) : SpaceSorted (spaceListAdd l d b) ↔ FitsPlace l (d, b) := by
  induction l with
  | nil =>
      simp only [spaceListAdd, fits_nil, iff_true]
      exact List.pairwise_singleton ..
  | cons y l ih =>
      obtain ⟨hy, hl⟩ := List.pairwise_cons.1 hl
      have hnew : (d, b) ∉ l := fun h => hnew (List.mem_cons_of_mem y h)
      rw [spaceListAdd]
      by_cases hlt : toLex (d, b) < toLex y
      · rw [fits_cons_of_lt hlt]
        have hiff := test_iff_of_lex hlt
        split
        · rename_i htest
          refine iff_of_true (List.pairwise_cons.2 ⟨fun z hz => ?_, List.pairwise_cons.2 ⟨hy, hl⟩⟩)
            (hiff.1 htest)
          rcases List.mem_cons.1 hz with rfl | hz
          · exact hlt.le
          · exact hlt.le.trans (hy z hz)
        · -- the walk passes a larger node, and the new one comes behind it
          rename_i htest
          refine iff_of_false (fun h => ?_) (mt hiff.2 htest)
          exact absurd ((List.pairwise_cons.1 h).1 (d, b) (mem_spaceListAdd.2 (.inl rfl)))
            (not_le.2 hlt)
      · have hle : toLex y ≤ toLex (d, b) := not_lt.1 hlt
        have htest : ¬ (d ≤ y.1 ∧ b < y.2) := fun h => hlt (lex_of_test h.1 h.2)
        rw [if_neg htest, fits_cons_of_not_lt hlt, ← ih hl hnew]
        constructor
        · intro h
          exact (List.pairwise_cons.1 h).2
        · intro h
          refine List.pairwise_cons.2 ⟨fun z hz => ?_, h⟩
          rcases mem_spaceListAdd.1 hz with rfl | hz
          · exact hle
          · exact hy z hz

/-- `space_list_remove` takes one node out. -/
theorem spaceListRemove_eq_erase (l : List (ℕ × ℕ)) (d b : ℕ) :
    spaceListRemove l d b = l.erase (d, b) := by
  induction l with
  | nil => rfl
  | cons y l ih =>
      rw [spaceListRemove]
      split
      · rename_i h
        obtain rfl : (d, b) = y := Prod.ext h.1 h.2
        exact (List.erase_cons_head ..).symm
      · rename_i h
        have hne : ¬ (y == (d, b)) = true := by
          intro heq
          obtain rfl := eq_of_beq heq
          exact h ⟨rfl, rfl⟩
        rw [ih, List.erase_cons_tail hne]

theorem spaceListRemove_sorted {l : List (ℕ × ℕ)} (hl : SpaceSorted l) (d b : ℕ) :
    SpaceSorted (spaceListRemove l d b) := by
  rw [spaceListRemove_eq_erase]
  exact hl.sublist List.erase_sublist

/-! ### The counter -/

namespace SpaceList

variable {s : SpaceList}

/-- The counter is the number of nodes. -/
def Counted (s : SpaceList) : Prop := s.num = s.nodes.length

theorem add_num (hs : s.Counted) (d b : ℕ) : (s.add d b).2.num = s.num + 1 := by
  unfold Counted at hs
  unfold add
  cases h : s.nodes with
  | nil =>
      rw [h] at hs
      simp [hs]
  | cons y l => rfl

theorem add_perm (s : SpaceList) (d b : ℕ) : (s.add d b).2.nodes.Perm ((d, b) :: s.nodes) :=
  spaceListAdd_perm s.nodes d b

theorem add_counted (hs : s.Counted) (d b : ℕ) : (s.add d b).2.Counted := by
  have hlen : (s.add d b).2.nodes.length = s.nodes.length + 1 := (s.add_perm d b).length_eq
  rw [Counted, add_num hs, hs, hlen]
  push_cast
  rfl

theorem remove_counted (hs : s.Counted) (d b : ℕ) : (s.remove d b).2.Counted := by
  unfold remove
  split
  · rename_i hmem
    have hlen := List.length_erase_add_one hmem
    unfold Counted at hs ⊢
    simp only [spaceListRemove_eq_erase, hs, ← hlen]
    push_cast
    exact add_sub_cancel_right ..
  · exact hs

/-- **The counter is right in every run.** -/
theorem run_counted (hs : s.Counted) (ops : List SpaceOp) : (s.run ops).Counted := by
  induction ops generalizing s with
  | nil => exact hs
  | cons op ops ih =>
      refine ih (s := s.step op) ?_
      cases op with
      | add d b => exact add_counted hs d b
      | remove d b => exact remove_counted hs d b

/-- Each add of the run is of a pair that is not on the list and fits. -/
def AllFit : SpaceList → List SpaceOp → Prop
  | _, [] => True
  | s, .add d b :: ops => (d, b) ∉ s.nodes ∧ FitsPlace s.nodes (d, b) ∧ AllFit (s.add d b).2 ops
  | s, .remove d b :: ops => AllFit (s.remove d b).2 ops

/-- **A run all of whose adds fit keeps the list sorted.** -/
theorem run_sorted {ops : List SpaceOp} (hs : SpaceSorted s.nodes) (hfit : s.AllFit ops) :
    SpaceSorted (s.run ops).nodes := by
  induction ops generalizing s with
  | nil => exact hs
  | cons op ops ih =>
      cases op with
      | add d b =>
          obtain ⟨hnew, hfits, hfit⟩ := hfit
          exact ih (s := (s.add d b).2) ((spaceListAdd_sorted_iff hs hnew).2 hfits) hfit
      | remove d b =>
          refine ih (s := (s.remove d b).2) ?_ hfit
          unfold remove
          split
          · exact spaceListRemove_sorted hs d b
          · exact hs

/-- **An add to a sorted list gives the sorted list of one more pair exactly when the pair fits**;
the nodes and the counter are right in every case, and the counter over every run. -/
theorem add_iff (hs : s.Counted) (hsorted : SpaceSorted s.nodes) {d b : ℕ}
    (hnew : (d, b) ∉ s.nodes) :
    (SpaceSorted (s.add d b).2.nodes ∧ (s.add d b).2.nodes.Perm ((d, b) :: s.nodes) ∧
      (s.add d b).2.num = s.num + 1 ↔ FitsPlace s.nodes (d, b)) ∧
    (s.add d b).2.nodes.Perm ((d, b) :: s.nodes) ∧ (s.add d b).2.num = s.num + 1 ∧
    ∀ ops : List SpaceOp, (empty.run ops).num = (empty.run ops).nodes.length := by
  have hkept : (s.add d b).2.nodes.Perm ((d, b) :: s.nodes) ∧ (s.add d b).2.num = s.num + 1 :=
    ⟨s.add_perm d b, add_num hs d b⟩
  have hempty : Counted empty := rfl
  refine ⟨?_, hkept.1, hkept.2, fun ops => run_counted hempty ops⟩
  rw [← spaceListAdd_sorted_iff hsorted hnew]
  exact and_iff_left hkept

/-- The block 5 of disk 1 goes between the block 3 of disk 1 and the block 7 of disk 2. -/
theorem add_iff_two :
    SpaceSorted (add ⟨[(1, 3), (2, 7)], 2⟩ 1 5).2.nodes ∧
      (add ⟨[(1, 3), (2, 7)], 2⟩ 1 5).2.num = 3 := by
  have h := (add_iff (s := ⟨[(1, 3), (2, 7)], 2⟩) rfl (by decide) (d := 1) (b := 5) (by decide)).1.2
    (by rintro y h; cases h; decide)
  exact ⟨h.1, h.2.2⟩

/-- The block 5 of disk 0 comes behind the block 3 of disk 1. -/
theorem add_misplaced :
    ¬ ∀ (s : SpaceList) (d b : ℕ), s.Counted → SpaceSorted s.nodes → (d, b) ∉ s.nodes →
      SpaceSorted (s.add d b).2.nodes := by
  intro h
  exact absurd (h ⟨[(1, 3)], 1⟩ 0 5 rfl (by decide) (by decide)) (by decide)

end SpaceList

end Ncfs
