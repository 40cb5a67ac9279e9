/-
The relation table of the EVENODD and RDP layers.

Both layers fill a map `elem_hash` from cells to lists of cells: a data or `P` cell is related to
the parity cells it is a summand of, and a parity cell to its summands.  `encode` looks a written
cell up to find the `Q` blocks to update; `decode` looks a `Q` cell up to find its summands.  A cell
is a pair of a row and a disk.

Main definitions:

* `Ncfs.fillHash` — the map after a sequence of `push_back`s;
* `Ncfs.ElemTable`, `Ncfs.ElemTable.findQBlocksId`, `Ncfs.ElemTable.named` — the object of a layer,
  the lookup of `encode`, and the summands of a `Q` block;
* `Ncfs.diagonalIndex` — the index arithmetic of both tables;
* `Ncfs.SymmPushes` — related cells are pushed in both directions;
* `Ncfs.ElemTable.Sound.code`, `Ncfs.ElemTable.Sound.encoder` — the array code of a table, and its
  encoder.

Main results:

* `Ncfs.count_fillHash` — the entries under a key, counted;
* `Ncfs.ElemTable.count_findQBlocksId` — for symmetric pushes the lookup of `encode` finds a `Q`
  block as often as the written cell is listed for it.
-/
import FuseMdr.ArrayRun

set_option relaxedAutoImplicit false
set_option autoImplicit false

namespace Ncfs

/-! ### The map -/

/-- `PAIR`: a row and a disk. -/
abbrev Pair := ℕ × ℕ

/-- `elem_hash[key].push_back(value)`. -/
def pushBack (elemHash : Pair → List Pair) (key value : Pair) : Pair → List Pair :=
  Function.update elemHash key (elemHash key ++ [value])

/-- The map after the pushes of a list, in order. -/
def fillHash (pushes : List (Pair × Pair)) : Pair → List Pair :=
  pushes.foldl (fun elemHash p => pushBack elemHash p.1 p.2) fun _ => []

theorem fillHash_apply (pushes : List (Pair × Pair)) (key : Pair) :
    fillHash pushes key = (pushes.filter fun p => p.1 == key).map Prod.snd := by
  have hfold : ∀ (l : List (Pair × Pair)) (h : Pair → List Pair),
      l.foldl (fun elemHash p => pushBack elemHash p.1 p.2) h key =
        h key ++ (l.filter fun p => p.1 == key).map Prod.snd := by
    intro l
    induction l with
    | nil => simp
    | cons p l ih =>
        intro h
        rw [List.foldl_cons, ih, pushBack]
        by_cases hp : p.1 = key
        · subst hp
          simp
        · rw [Function.update_of_ne (Ne.symm hp), List.filter_cons_of_neg (by simpa using hp)]
  exact hfold pushes _

/-- The entries under a key, counted. -/
theorem count_fillHash (pushes : List (Pair × Pair)) (key value : Pair) :
    (fillHash pushes key).count value = pushes.count (key, value) := by
  rw [fillHash_apply, List.count, List.countP_map, List.countP_filter, List.count]
  refine List.countP_congr fun p _ => ?_
  obtain ⟨a, b⟩ := p
  simp [and_comm]

theorem mem_fillHash {pushes : List (Pair × Pair)} {key value : Pair} :
    value ∈ fillHash pushes key ↔ (key, value) ∈ pushes := by
  rw [← List.count_pos_iff, count_fillHash, List.count_pos_iff]

/-! ### Symmetric pushes -/

/-- Every push comes with its reverse. -/
def SymmPushes (pushes : List (Pair × Pair)) : Prop :=
  ∀ a b, pushes.count (a, b) = pushes.count (b, a)

theorem SymmPushes.nil : SymmPushes [] := fun _ _ => rfl

theorem SymmPushes.pair (a b : Pair) : SymmPushes [(a, b), (b, a)] := by
  intro x y
  simp only [List.count_cons, List.count_nil, zero_add, beq_iff_eq, Prod.mk.injEq]
  rw [add_comm]
  congr 1 <;> exact if_congr and_comm rfl rfl

theorem SymmPushes.append {l l' : List (Pair × Pair)} (h : SymmPushes l) (h' : SymmPushes l') :
    SymmPushes (l ++ l') := by
  intro a b
  rw [List.count_append, List.count_append, h, h']

theorem SymmPushes.flatMap {ι : Type*} {l : List ι} {f : ι → List (Pair × Pair)}
    (h : ∀ x ∈ l, SymmPushes (f x)) : SymmPushes (l.flatMap f) := by
  intro a b
  rw [List.count_flatMap, List.count_flatMap]
  exact congrArg List.sum (List.map_congr_left fun x hx => h x hx a b)

/-- One cell related to several. -/
theorem SymmPushes.star (d : Pair) (qs : List Pair) :
    SymmPushes ((qs.map fun q => (d, q)) ++ qs.map fun q => (q, d)) := by
  have hcount : ∀ a b, (qs.map fun q => (d, q)).count (a, b) =
      (qs.map fun q => (q, d)).count (b, a) := by
    intro a b
    rw [List.count, List.countP_map, List.count, List.countP_map]
    refine List.countP_congr fun q _ => ?_
    simp [and_comm]
  intro a b
  rw [List.count_append, List.count_append, hcount a b, ← hcount b a, add_comm]

/-! ### Diagonals -/

/-- The two statements `x = (i - t) % m; x = (x >= 0) ? x : (x + m);` that find a cell on a
diagonal. -/
def diagonalIndex (m i t : ℕ) : ℤ :=
  let x := Int.tmod ((i : ℤ) - t) m
  if 0 ≤ x then x else x + m

theorem diagonalIndex_eq {k i t : ℕ} (hi : i < k) (ht : t < k) :
    diagonalIndex k i t = ((i + k - t) % k : ℕ) := by
  rw [diagonalIndex]
  rcases Nat.lt_or_ge i t with h | h
  · have hmod : Int.tmod ((i : ℤ) - t) k = (i : ℤ) - t := by
      rw [← Int.neg_inj, ← Int.neg_tmod, Int.neg_sub, Int.tmod_eq_of_lt (by omega) (by omega)]
    rw [hmod, if_neg (by omega), Nat.mod_eq_of_lt (by omega)]
    omega
  · have hmod : Int.tmod ((i : ℤ) - t) k = (i : ℤ) - t := Int.tmod_eq_of_lt (by omega) (by omega)
    rw [hmod, if_pos (by omega), show i + k - t = (i - t) + k by omega, Nat.add_mod_right,
      Nat.mod_eq_of_lt (by omega)]
    omega

/-- The indices of a cell add up to its diagonal. -/
theorem diagonal_iff {k i t r : ℕ} (hi : i < k) (ht : t < k) (hr : r < k) :
    (i + k - t) % k = r ↔ (r + t) % k = i := by
  rcases Nat.lt_or_ge i t with h | h
  · rw [Nat.mod_eq_of_lt (by omega)]
    rcases Nat.lt_or_ge (r + t) k with h' | h'
    · rw [Nat.mod_eq_of_lt h']
      omega
    · rw [Nat.mod_eq_sub_mod h', Nat.mod_eq_of_lt (by omega)]
      omega
  · rw [show i + k - t = (i - t) + k by omega, Nat.add_mod_right, Nat.mod_eq_of_lt (by omega)]
    rcases Nat.lt_or_ge (r + t) k with h' | h'
    · rw [Nat.mod_eq_of_lt h']
      omega
    · rw [Nat.mod_eq_sub_mod h', Nat.mod_eq_of_lt (by omega)]
      omega

/-! ### The object -/

/-- The members of `Coding4Evenodd` and of `Coding4Rdp` that coding uses. -/
structure ElemTable where
  /-- `k`, the number of data disks. -/
  k : ℕ
  /-- `row`, which is also `strip_size`. -/
  row : ℕ
  /-- `col`, the number of disks. -/
  col : ℕ
  /-- `elem_hash`. -/
  elemHash : Pair → List Pair

namespace ElemTable

/-- `evenodd_find_q_blocks_id` and `rdp_find_q_blocks_id`. -/
def findQBlocksId (coding : ElemTable) (diskId blockNo : ℕ) : List ℕ :=
  (coding.elemHash (blockNo, diskId)).filterMap fun e =>
    if e.2 = coding.col - 1 then some e.1 else none

/-- The summands of a `Q` block, as cells of a strip. -/
def named (coding : ElemTable) (i : ℕ) : List (ℕ × ℕ) :=
  (coding.elemHash (i, coding.col - 1)).map Prod.swap

theorem count_named (coding : ElemTable) (i d r : ℕ) :
    (coding.named i).count (d, r) = (coding.elemHash (i, coding.col - 1)).count (r, d) :=
  List.count_map_of_injective _ Prod.swap Prod.swap_injective (r, d)

theorem mem_findQBlocksId {coding : ElemTable} {diskId blockNo i : ℕ} :
    i ∈ coding.findQBlocksId diskId blockNo ↔
      (i, coding.col - 1) ∈ coding.elemHash (blockNo, diskId) := by
  rw [findQBlocksId, List.mem_filterMap]
  constructor
  · rintro ⟨⟨a, b⟩, he, h⟩
    split at h
    · cases h
      rename_i hb
      rwa [← hb]
    · cases h
  · intro h
    exact ⟨_, h, if_pos rfl⟩

theorem count_findQBlocksId_eq (coding : ElemTable) (diskId blockNo i : ℕ) :
    (coding.findQBlocksId diskId blockNo).count i =
      (coding.elemHash (blockNo, diskId)).count (i, coding.col - 1) := by
  rw [findQBlocksId]
  induction coding.elemHash (blockNo, diskId) with
  | nil => rfl
  | cons e l ih =>
      obtain ⟨a, b⟩ := e
      rw [List.count_cons, ← ih]
      by_cases hb : b = coding.col - 1
      · rw [List.filterMap_cons_some (by rw [if_pos hb]), List.count_cons]
        simp [hb]
      · rw [List.filterMap_cons_none (by rw [if_neg hb])]
        simp [hb]

/-- For symmetric pushes the lookup of `encode` finds a `Q` block as often as the written cell is
listed for it. -/
theorem count_findQBlocksId {coding : ElemTable} {pushes : List (Pair × Pair)}
    (hhash : coding.elemHash = fillHash pushes) (hsymm : SymmPushes pushes)
    (diskId blockNo i : ℕ) :
    (coding.findQBlocksId diskId blockNo).count i = (coding.named i).count (diskId, blockNo) := by
  rw [count_findQBlocksId_eq, count_named, hhash, count_fillHash, count_fillHash, hsymm]

/-- The table names cells and blocks of the strip only. -/
structure Sound (coding : ElemTable) : Prop where
  /-- A strip is not empty. -/
  row_pos : 0 < coding.row
  /-- The summands of a `Q` block are data or `P` cells. -/
  named_mem : ∀ i < coding.row, ∀ x ∈ coding.named i, x.1 ≤ coding.k ∧ x.2 < coding.row
  /-- The `Q` blocks of a cell are blocks of the strip. -/
  find_lt : ∀ d < coding.k, ∀ r < coding.row, ∀ i ∈ coding.findQBlocksId d r, i < coding.row

variable {coding : ElemTable}

/-- The array code of a table: `decode` recomputes a `Q` block from the cells listed for it. -/
def Sound.code (h : coding.Sound) : Strip.Code where
  dataDisks := coding.k
  rows := coding.row
  named := coding.named
  named_mem := h.named_mem

/-- The encoder of a table. -/
def Sound.encoder (h : coding.Sound) : ArrayEncoder h.code where
  findQBlocksId := coding.findQBlocksId
  find_lt := h.find_lt
  xorSize _ size := size
  qSize st size := roundToBlockSize st size
  sizes st size hsize := by
    obtain ⟨h₁, -⟩ := roundToBlockSize_le hsize
    exact ⟨by omega, le_rfl, hsize⟩
  rows_pos := h.row_pos

/-- The contents of a strip satisfy the equations by which `decode` and the rebuilds recompute a
lost `P` or `Q` block. -/
structure Parity {V : Type*} [AddCommGroup V] (coding : ElemTable) (c : Pair → V) : Prop where
  /-- Every `P` block is the sum of the data blocks of its row. -/
  p : ∀ r < coding.row, c (r, coding.k) = ∑ j ∈ Finset.range coding.k, c (r, j)
  /-- Every `Q` block is the sum of the cells listed for it. -/
  q : ∀ i < coding.row, c (i, coding.k + 1) =
    ((coding.elemHash (i, coding.col - 1)).map c).sum

/-- Byte `o` of strip `g` satisfies them. -/
abbrev StripParity (coding : ElemTable) (st : NcfsState) (g o : ℕ) : Prop :=
  coding.Parity fun e => st.block e.2 (g * coding.row + e.1) o

theorem parity_iff {V : Type*} [AddCommGroup V] (h : coding.Sound) (c : Pair → V) :
    h.code.Parity (fun x => c x.swap) ↔ coding.Parity c := by
  have hsum : ∀ i, ((coding.named i).map fun x => c x.swap).sum =
      ((coding.elemHash (i, coding.col - 1)).map c).sum := fun i => by
    rw [named, List.map_map]
    simp only [Function.comp_def, Prod.swap_swap]
  constructor
  · intro hpar
    exact ⟨hpar.p, fun i hi => (hpar.q i hi).trans (hsum i)⟩
  · intro hpar
    exact ⟨hpar.p, fun i hi => (hpar.q i hi).trans (hsum i).symm⟩

theorem storeParity_iff_stripParity (h : coding.Sound) {st : NcfsState} {bs : ℕ}
    (hblock : st.diskBlockSize = bs) :
    StoreParity h.code st ↔ ∀ g, ∀ o < bs, coding.StripParity st g o := by
  rw [StoreParity, hblock]
  exact forall_congr' fun g => forall₂_congr fun o _ =>
    parity_iff h fun e => st.block e.2 (g * coding.row + e.1) o

end ElemTable

end Ncfs
