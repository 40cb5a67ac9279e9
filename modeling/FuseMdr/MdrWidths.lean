/-
The encoding matrix of the MDR-I code in the types of the source.

`mdr_I_encoding_matrixB` holds its words as `long long`, while the constants `1 << t` that build and
test them are of type `int`.  A word for `k` data disks has `2 ^ k` bits, so its top bit is
`1 << (2 ^ k - 1)`.  Here the construction and the three functions that test bits are computed on
machine words; a shift or a conversion whose value does not fit its type has no value.

Main definitions:

* `Ncfs.Widths.intBit`, `Ncfs.Widths.shiftWord`, `Ncfs.Widths.toInt` — the shifts and the conversion
  of the source;
* `Ncfs.Widths.mdrIEncodingMatrix` — the construction on machine words;
* `Ncfs.Widths.mdrIFindQBlocksId`, `Ncfs.Widths.mdrIRepairQDiskBlocksId`,
  `Ncfs.Widths.mdrIRepairDpDiskNonstripeIndexsBlocksNo` — the functions that test bits;
* `Ncfs.Widths.Suffice` — the types hold every value, and what is computed is exact;
* `Ncfs.Widths.compiledBit`, `Ncfs.Widths.compiledMatrixB` — the constants and the words that
  compiled code has where the language defines none.

Main results:

* `Ncfs.Widths.mdrIEncodingMatrix_holds` — while a constant has room for the top bit, the words are
  the exact ones;
* `Ncfs.Widths.suffice_iff` — the types suffice for up to four data disks, and for no more;
* `Ncfs.Widths.compiled_tests` — the tests that compiled code makes are the exact ones for up to
  five data disks.
-/
import FuseMdr.MdrRepairSet

set_option relaxedAutoImplicit false
set_option autoImplicit false

namespace Ncfs

namespace Widths

/-! ### The types of the source -/

/-- `1 << t`, of type `int`.  The language leaves `1 << 31` undefined, like every larger count;
`Ncfs.Widths.compiledBit` is what compiled code makes of it. -/
def intBit (t : ℕ) : Except CodingError (BitVec 32) :=
  if t < 31 then .ok (1#32 <<< t) else .error .undefined

/-- `word << t` for a `long long`. -/
def shiftWord (word : BitVec 64) (t : ℕ) : Except CodingError (BitVec 64) :=
  if t < 64 ∧ word.toNat * 2 ^ t < 2 ^ 63 then .ok (word <<< t) else .error .undefined

/-- An `int` in a place for a `long long`. -/
def ofInt (val : BitVec 32) : BitVec 64 := val.signExtend 64

/-- `int val = word` for a `long long` that an `int` can hold. -/
def toInt (word : BitVec 64) : Except CodingError (BitVec 32) :=
  if ofInt (word.setWidth 32) = word then .ok (word.setWidth 32) else .error .undefined

theorem intBit_ok {t : ℕ} (ht : t < 31) : ∃ val, intBit t = .ok val ∧ val.toNat = 2 ^ t := by
  refine ⟨1#32 <<< t, if_pos ht, ?_⟩
  have hlt : 2 ^ t < 2 ^ 32 := Nat.pow_lt_pow_right (by decide) (by omega)
  rw [BitVec.toNat_shiftLeft, Nat.shiftLeft_eq]
  exact (congrArg (· % 2 ^ 32) (one_mul _)).trans (Nat.mod_eq_of_lt hlt)

theorem intBit_undefined {t : ℕ} (ht : 31 ≤ t) : intBit t = .error .undefined :=
  if_neg (by omega)

/-- An `int` that is not negative keeps its value. -/
theorem toNat_ofInt {val : BitVec 32} (hval : val.toNat < 2 ^ 31) :
    (ofInt val).toNat = val.toNat := by
  have hmsb : val.msb = false := by
    rw [BitVec.msb_eq_false_iff_two_mul_lt]
    omega
  rw [ofInt, BitVec.signExtend_eq_setWidth_of_msb_false hmsb, BitVec.toNat_setWidth,
    Nat.mod_eq_of_lt (by omega)]

theorem shiftWord_ok {word : BitVec 64} {t : ℕ} (ht : t < 64)
    (hword : word.toNat * 2 ^ t < 2 ^ 63) :
    ∃ word', shiftWord word t = .ok word' ∧ word'.toNat = word.toNat <<< t := by
  refine ⟨word <<< t, if_pos ⟨ht, hword⟩, ?_⟩
  rw [BitVec.toNat_shiftLeft, Nat.mod_eq_of_lt]
  rw [Nat.shiftLeft_eq]
  omega

theorem toInt_ok {word : BitVec 64} (hword : word.toNat < 2 ^ 31) :
    ∃ val, toInt word = .ok val ∧ val.toNat = word.toNat := by
  have hval : (word.setWidth 32).toNat = word.toNat := by
    rw [BitVec.toNat_setWidth, Nat.mod_eq_of_lt (by omega)]
  refine ⟨word.setWidth 32, if_pos (BitVec.eq_of_toNat_eq ?_), hval⟩
  rw [toNat_ofInt (by omega), hval]

/-! ### The matrix -/

/-- Entry `[j][i]` that `Coding4Mdr1::mdr_I_iterative_construct_encoding_matrixB(matrix, k)`
computes. -/
def mdrIIterativeConstructEncodingMatrixB (matrix : ℕ → ℕ → BitVec 64) (k j i : ℕ) :
    Except CodingError (BitVec 64) :=
  let row := 2 ^ k
  let col := k + 1
  let newRow := 2 ^ (k + 1)
  let newCol := k + 2
  if i < newCol - 2 then
    if j < row then shiftWord (matrix j i ^^^ matrix j (col - 1)) row
    else .ok (matrix (j - row) i ^^^ matrix (j - row) (col - 1))
  else if i = newCol - 2 then
    if j < row then ofInt <$> intBit (row - 1 - j) else .ok 0
  else
    if j < row then .ok 0 else ofInt <$> intBit (row + (newRow - 1 - j))

/-- The array `new_matrix` after all its entries have been computed. -/
def fillMatrix (newRow newCol : ℕ) (entry : ℕ → ℕ → Except CodingError (BitVec 64)) :
    Except CodingError (ℕ → ℕ → BitVec 64) :=
  if ∀ j < newRow, ∀ i < newCol, (entry j i).isOk then
    .ok fun j i => (entry j i).toOption.getD 0
  else .error .undefined

/-- The matrix for one data disk, as `long long` words. -/
def mdrIBaseMatrixB (j i : ℕ) : BitVec 64 := BitVec.ofNat 64 (Ncfs.mdrIBaseMatrixB j i)

/-- `Coding4Mdr1::mdr_I_encoding_matrix` on machine words. -/
def mdrIEncodingMatrix : ℕ → Except CodingError (ℕ → ℕ → BitVec 64)
  | 0 => .error .exit
  | 1 => .ok mdrIBaseMatrixB
  | k + 2 => do
      let matrix ← mdrIEncodingMatrix (k + 1)
      fillMatrix (2 ^ (k + 2)) (k + 3) (mdrIIterativeConstructEncodingMatrixB matrix (k + 1))

/-! ### The functions that test bits -/

/-- `Coding4Mdr1::mdr_I_find_q_blocks_id` on machine words. -/
def mdrIFindQBlocksId (matrix : ℕ → ℕ → BitVec 64) (stripSize : ℕ) (st : NcfsState)
    (diskId blockNo : ℕ) : Except CodingError (List ℕ) := do
  let pDiskId := st.dataDiskNum
  let t ← intBit (stripSize - blockNo - 1)
  return (List.range stripSize).flatMap fun i =>
    (if matrix i diskId &&& ofInt t != 0 then [i] else []) ++
    (if matrix i pDiskId &&& ofInt t != 0 then [i] else [])

/-- `Coding4Mdr1::mdr_I_repair_qDisk_blocks_id` on machine words. -/
def mdrIRepairQDiskBlocksId (matrix : ℕ → ℕ → BitVec 64) (stripSize : ℕ) (st : NcfsState)
    (blockNo : ℕ) : Except CodingError (List (List ℕ)) :=
  (List.range (st.dataDiskNum + 1)).foldlM (fun iivec i => do
    let ivec ← (List.range stripSize).foldlM (fun ivec j => do
      let mask ← intBit (stripSize - j - 1)
      return if matrix blockNo i &&& ofInt mask != 0 then ivec ++ [j] else ivec) []
    return iivec ++ [ivec]) []

/-- The loop over `t` in `mdr_I_repair_dpDisk_nonstripeIndexs_blocks_no`. -/
def splitSelected (stripSize : ℕ) (stripeIndexs : List ℕ) (val : BitVec 32)
    (failDiskBlockNo : Option ℕ) : Except CodingError (List ℕ × Option ℕ) :=
  (List.range stripSize).foldlM (fun (ivec, fail) t => do
    let mask ← intBit (stripSize - t - 1)
    return if val &&& mask != 0 then
      if t ∈ stripeIndexs then (ivec ++ [t], fail) else (ivec, some t)
    else (ivec, fail)) ([], failDiskBlockNo)

/-- The loop over `j` there: the word is first copied into an `int`. -/
def splitRow (matrix : ℕ → ℕ → BitVec 64) (stripSize : ℕ) (st : NcfsState)
    (stripeIndexs : List ℕ) (s : ℕ) : Except CodingError (List (List ℕ) × Option ℕ) :=
  (List.range (st.dataDiskNum + 1)).foldlM (fun (iivec, fail) j => do
    let val ← toInt (matrix s j)
    let (ivec, fail) ← splitSelected stripSize stripeIndexs val fail
    return (iivec ++ [ivec], fail)) ([], none)

/-- `Coding4Mdr1::mdr_I_repair_dpDisk_nonstripeIndexs_blocks_no` on machine words. -/
def mdrIRepairDpDiskNonstripeIndexsBlocksNo (matrix : ℕ → ℕ → BitVec 64) (stripSize : ℕ)
    (st : NcfsState) (stripeIndexs : List ℕ) : Except CodingError (ℕ → List (List ℕ)) :=
  stripeIndexs.foldlM (fun ivmap s => do
    match ← splitRow matrix stripSize st stripeIndexs s with
    | (_, none) => .error .exit
    | (iivec, some failDiskBlockNo) =>
        .ok (Function.update ivmap failDiskBlockNo (iivec ++ [[s]]))) fun _ => []

/-- The types hold every value that is computed for the object: the matrix can be built and is the
exact one, and every index set that is computed from it is the exact one. -/
structure Suffice (coding : Coding4Mdr1) (st : NcfsState) (matrix : ℕ → ℕ → BitVec 64) : Prop where
  /-- The matrix is built without leaving the types. -/
  built : mdrIEncodingMatrix st.dataDiskNum = .ok matrix
  /-- Its words are the exact ones. -/
  words : ∀ s < coding.stripSize, ∀ j ≤ st.dataDiskNum,
    (matrix s j).toNat = coding.mdrIEncodingMatrixB s j
  /-- The `Q` blocks of a data block. -/
  find : ∀ diskId ≤ st.dataDiskNum, ∀ blockNo < coding.stripSize,
    mdrIFindQBlocksId matrix coding.stripSize st diskId blockNo =
      .ok (Ncfs.mdrIFindQBlocksId coding st diskId blockNo)
  /-- The blocks of a `Q` block. -/
  chain : ∀ blockNo < coding.stripSize,
    mdrIRepairQDiskBlocksId matrix coding.stripSize st blockNo =
      .ok (Ncfs.mdrIRepairQDiskBlocksId coding st blockNo)
  /-- The table of the rows that are not read. -/
  table : ∀ stripeIndexs : List ℕ, (∀ s ∈ stripeIndexs, s < coding.stripSize) →
    mdrIRepairDpDiskNonstripeIndexsBlocksNo matrix coding.stripSize st stripeIndexs =
      Ncfs.mdrIRepairDpDiskNonstripeIndexsBlocksNo coding st stripeIndexs

/-! ### While the top bit fits -/

/-- The words are the exact ones. -/
def Holds (k : ℕ) (matrix : ℕ → ℕ → BitVec 64) : Prop :=
  ∀ s < 2 ^ k, ∀ j ≤ k, (matrix s j).toNat = Ncfs.mdrIEncodingMatrixB k s j

variable {k : ℕ}

/-- While a constant has room for the top bit, the words are small. -/
theorem mdrIEncodingMatrixB_lt_int (hk : 2 ^ k ≤ 31) {s j : ℕ} (hs : s < 2 ^ k) (hj : j ≤ k) :
    Ncfs.mdrIEncodingMatrixB k s j < 2 ^ 31 :=
  lt_of_lt_of_le (mdrIEncodingMatrixB_lt k hs hj) (Nat.pow_le_pow_right (by decide) hk)

theorem fillMatrix_ok {newRow newCol : ℕ} {entry : ℕ → ℕ → Except CodingError (BitVec 64)}
    {value : ℕ → ℕ → ℕ}
    (h : ∀ j < newRow, ∀ i < newCol, ∃ word, entry j i = .ok word ∧ word.toNat = value j i) :
    ∃ matrix, fillMatrix newRow newCol entry = .ok matrix ∧
      ∀ j < newRow, ∀ i < newCol, (matrix j i).toNat = value j i := by
  refine ⟨_, if_pos fun j hj i hi => ?_, fun j hj i hi => ?_⟩
  · obtain ⟨word, hword, -⟩ := h j hj i hi
    rw [hword]
    rfl
  · obtain ⟨word, hword, hval⟩ := h j hj i hi
    rw [hword]
    exact hval

/-- One entry of the next matrix. -/
theorem mdrIIterativeConstructEncodingMatrixB_ok (hk : 2 ^ (k + 1) ≤ 31)
    {matrix : ℕ → ℕ → BitVec 64} (hm : Holds k matrix) {j i : ℕ} (hj : j < 2 ^ (k + 1))
    (hi : i < k + 2) :
    ∃ word, mdrIIterativeConstructEncodingMatrixB matrix k j i = .ok word ∧
      word.toNat = Ncfs.mdrIEncodingMatrixB (k + 1) j i := by
  have hrow : 2 ^ (k + 1) = 2 ^ k + 2 ^ k := by rw [pow_succ, mul_two]
  have hconst : ∀ {t : ℕ}, t < 31 → ∃ word, ofInt <$> intBit t = .ok word ∧
      word.toNat = 1 <<< t := by
    intro t ht
    obtain ⟨val, hval, hnat⟩ := intBit_ok ht
    have hlt : val.toNat < 2 ^ 31 := hnat ▸ Nat.pow_lt_pow_right (by decide) ht
    refine ⟨ofInt val, by rw [hval]; rfl, ?_⟩
    rw [toNat_ofInt hlt, hnat, Nat.one_shiftLeft]
  have hxor : ∀ {s : ℕ}, s < 2 ^ k → i ≤ k →
      (matrix s i ^^^ matrix s k).toNat =
        Ncfs.mdrIEncodingMatrixB k s i ^^^ Ncfs.mdrIEncodingMatrixB k s k := by
    intro s hs hi
    rw [BitVec.toNat_xor, hm s hs i hi, hm s hs k le_rfl]
  rw [mdrIEncodingMatrixB_succ k hj (by omega)]
  simp only [mdrIIterativeConstructEncodingMatrixB, Ncfs.mdrIIterativeConstructEncodingMatrixB,
    Nat.add_sub_cancel]
  split_ifs with hold hup hdata hup' hup''
  · rw [← hxor hup (by omega)]
    refine shiftWord_ok (by omega) ?_
    have hlt : (matrix j i ^^^ matrix j k).toNat < 2 ^ 2 ^ k := by
      rw [hxor hup (by omega)]
      exact Nat.xor_lt_two_pow (mdrIEncodingMatrixB_lt k hup (by omega))
        (mdrIEncodingMatrixB_lt k hup le_rfl)
    calc _ < 2 ^ 2 ^ k * 2 ^ 2 ^ k := Nat.mul_lt_mul_of_pos_right hlt (Nat.two_pow_pos _)
      _ = 2 ^ 2 ^ (k + 1) := by rw [hrow, pow_add]
      _ ≤ 2 ^ 63 := Nat.pow_le_pow_right (by decide) (by omega)
  · exact ⟨_, rfl, hxor (by omega) (by omega)⟩
  · exact hconst (by omega)
  · exact ⟨0, rfl, rfl⟩
  · exact ⟨0, rfl, rfl⟩
  · exact hconst (by omega)

/-- While a constant has room for the top bit, the matrix is built, and its words are the exact
ones. -/
theorem mdrIEncodingMatrix_holds (k : ℕ) (hk : 2 ^ (k + 1) ≤ 31) :
    ∃ matrix, mdrIEncodingMatrix (k + 1) = .ok matrix ∧ Holds (k + 1) matrix := by
  induction k with
  | zero =>
      refine ⟨_, rfl, fun s hs j hj => ?_⟩
      have hs' : s = 0 ∨ s = 1 := by omega
      have hj' : j = 0 ∨ j = 1 := by omega
      rcases hs' with rfl | rfl <;> rcases hj' with rfl | rfl <;> rfl
  | succ k ih =>
      have hrow : 2 ^ (k + 2) = 2 ^ (k + 1) + 2 ^ (k + 1) := by rw [pow_succ, mul_two]
      obtain ⟨matrix, hbuilt, hm⟩ := ih (by omega)
      obtain ⟨matrix', hfill, hm'⟩ := fillMatrix_ok fun j (hj : j < 2 ^ (k + 2)) i
        (hi : i < k + 3) =>
        mdrIIterativeConstructEncodingMatrixB_ok hk hm hj hi
      refine ⟨matrix', ?_, fun s hs j hj => hm' s hs j (by omega)⟩
      rw [mdrIEncodingMatrix, hbuilt]
      exact hfill

/-- The test of a word against a constant. -/
theorem and_ofInt_ne_zero {word : BitVec 64} {mask : BitVec 32} {n : ℕ} (hmask : mask.toNat = 2 ^ n)
    (hn : n < 31) : (word &&& ofInt mask != 0) = word.toNat.testBit n := by
  have hlt : mask.toNat < 2 ^ 31 := hmask ▸ Nat.pow_lt_pow_right (by decide) hn
  have hnat : (word &&& ofInt mask).toNat = word.toNat &&& 1 <<< n := by
    rw [BitVec.toNat_and, toNat_ofInt hlt, hmask, Nat.one_shiftLeft]
  rw [← and_shiftLeft_ne_zero, ← hnat, Bool.eq_iff_iff, bne_iff_ne, bne_iff_ne, ne_eq, ne_eq,
    BitVec.toNat_eq]
  rfl

/-- The same test on an `int`. -/
theorem and_ne_zero {val mask : BitVec 32} {n : ℕ} (hmask : mask.toNat = 2 ^ n) :
    (val &&& mask != 0) = val.toNat.testBit n := by
  have hnat : (val &&& mask).toNat = val.toNat &&& 1 <<< n := by
    rw [BitVec.toNat_and, hmask, Nat.one_shiftLeft]
  rw [← and_shiftLeft_ne_zero, ← hnat, Bool.eq_iff_iff, bne_iff_ne, bne_iff_ne, ne_eq, ne_eq,
    BitVec.toNat_eq]
  rfl

section IndexSets

variable {coding : Coding4Mdr1} {st : NcfsState} {matrix : ℕ → ℕ → BitVec 64}

/-- The test of an entry for a block. -/
theorem Holds.hasBit (hm : Holds k matrix) (hc : coding.For k) (hk : 2 ^ k ≤ 31) {s j t : ℕ}
    (hs : s < 2 ^ k) (hj : j ≤ k) :
    ∃ mask, intBit (coding.stripSize - t - 1) = .ok mask ∧
      (matrix s j &&& ofInt mask != 0) = coding.hasBit (coding.mdrIEncodingMatrixB s j) t := by
  have hlt : coding.stripSize - t - 1 < 31 := by
    rw [hc.stripSize_eq]
    omega
  obtain ⟨mask, hmask, hnat⟩ := intBit_ok hlt
  refine ⟨mask, hmask, ?_⟩
  rw [and_ofInt_ne_zero hnat hlt, hm s hs j hj, Coding4Mdr1.hasBit, and_shiftLeft_ne_zero,
    hc.matrix_eq]

theorem mdrIFindQBlocksId_eq (hm : Holds k matrix) (hc : coding.For k) (hst : st.dataDiskNum = k)
    (hk : 2 ^ k ≤ 31) {diskId : ℕ} (hd : diskId ≤ k) (blockNo : ℕ) :
    mdrIFindQBlocksId matrix coding.stripSize st diskId blockNo =
      .ok (Ncfs.mdrIFindQBlocksId coding st diskId blockNo) := by
  have hmask := fun (i : ℕ) (hi : i < 2 ^ k) (j : ℕ) (hj : j ≤ k) =>
    hm.hasBit hc hk (t := blockNo) hi hj
  obtain ⟨mask, hbit, -⟩ := hmask 0 (Nat.two_pow_pos k) 0 (Nat.zero_le k)
  rw [mdrIFindQBlocksId, hbit]
  refine congrArg Except.ok ?_
  rw [Ncfs.mdrIFindQBlocksId, hst]
  refine List.flatMap_congr fun i hi => ?_
  rw [List.mem_range, hc.stripSize_eq] at hi
  obtain ⟨mask₁, hbit₁, hdata⟩ := hmask i hi diskId hd
  obtain ⟨mask₂, hbit₂, hparity⟩ := hmask i hi k le_rfl
  obtain rfl : mask = mask₁ := Except.ok.inj (hbit.symm.trans hbit₁)
  obtain rfl : mask = mask₂ := Except.ok.inj (hbit.symm.trans hbit₂)
  rw [hdata, hparity]

theorem foldl_push {α : Type} (p : α → Bool) (l acc : List α) :
    l.foldl (fun acc x => if p x then acc ++ [x] else acc) acc = acc ++ l.filter p := by
  induction l generalizing acc with
  | nil => rw [List.foldl_nil, List.filter_nil, List.append_nil]
  | cons x l ih =>
      rw [List.foldl_cons, ih, List.filter_cons]
      split <;> simp

theorem mdrIRepairQDiskBlocksId_eq (hm : Holds k matrix) (hc : coding.For k)
    (hst : st.dataDiskNum = k) (hk : 2 ^ k ≤ 31) {blockNo : ℕ} (hb : blockNo < 2 ^ k) :
    mdrIRepairQDiskBlocksId matrix coding.stripSize st blockNo =
      .ok (Ncfs.mdrIRepairQDiskBlocksId coding st blockNo) := by
  have hcol : ∀ i ≤ k, (List.range coding.stripSize).foldlM (fun ivec j => do
      let mask ← intBit (coding.stripSize - j - 1)
      return if matrix blockNo i &&& ofInt mask != 0 then ivec ++ [j] else ivec) [] =
      Except.ok ((List.range coding.stripSize).filter fun j =>
        coding.hasBit (coding.mdrIEncodingMatrixB blockNo i) j) := by
    intro i hi
    rw [Loops.foldlM_ok (g := fun ivec j =>
      if coding.hasBit (coding.mdrIEncodingMatrixB blockNo i) j then ivec ++ [j] else ivec),
        foldl_push,
      List.nil_append]
    intro ivec j hj
    obtain ⟨mask, hbit, htest⟩ := hm.hasBit hc hk (t := j) hb hi
    rw [hbit, Loops.ok_bind, htest]
    rfl
  rw [mdrIRepairQDiskBlocksId, hst, Loops.foldlM_ok (g := fun iivec i =>
    iivec ++ [(List.range coding.stripSize).filter fun j =>
      coding.hasBit (coding.mdrIEncodingMatrixB blockNo i) j])]
  · rw [Ncfs.mdrIRepairQDiskBlocksId, hst]
    have key : ∀ (l : List ℕ) (acc : List (List ℕ)) (f : ℕ → List ℕ),
        l.foldl (fun acc i => acc ++ [f i]) acc = acc ++ l.map f := by
      intro l
      induction l with
      | nil => simp
      | cons x l ih => simp [ih]
    rw [key, List.nil_append]
  · intro iivec i hi
    rw [hcol i (by rw [List.mem_range] at hi; omega)]
    rfl

theorem splitSelected_eq (hm : Holds k matrix) (hc : coding.For k) (hk : 2 ^ k ≤ 31) {s j : ℕ}
    (hs : s < 2 ^ k) (hj : j ≤ k) {val : BitVec 32} (hval : val.toNat = (matrix s j).toNat)
    (stripeIndexs : List ℕ) (fail : Option ℕ) :
    splitSelected coding.stripSize stripeIndexs val fail =
      .ok (Ncfs.splitSelected coding stripeIndexs (coding.mdrIEncodingMatrixB s j) fail) := by
  refine Loops.foldlM_ok (fun p t ht => ?_) _
  have hlt : coding.stripSize - t - 1 < 31 := by
    rw [hc.stripSize_eq]
    omega
  obtain ⟨mask, hbit, hnat⟩ := intBit_ok hlt
  have htest : (val &&& mask != 0) = coding.hasBit (coding.mdrIEncodingMatrixB s j) t := by
    rw [and_ne_zero hnat, hval, hm s hs j hj, Coding4Mdr1.hasBit, and_shiftLeft_ne_zero,
      hc.matrix_eq]
  dsimp only
  rw [hbit, Loops.ok_bind, htest]
  rfl

theorem splitRow_eq (hm : Holds k matrix) (hc : coding.For k) (hst : st.dataDiskNum = k)
    (hk : 2 ^ k ≤ 31) {s : ℕ} (hs : s < 2 ^ k) (stripeIndexs : List ℕ) :
    splitRow matrix coding.stripSize st stripeIndexs s =
      .ok (Ncfs.splitRow coding st stripeIndexs s) := by
  refine Loops.foldlM_ok (fun p j hj => ?_) _
  rw [List.mem_range, hst] at hj
  have hlt : (matrix s j).toNat < 2 ^ 31 := by
    rw [hm s hs j (by omega)]
    exact mdrIEncodingMatrixB_lt_int hk hs (by omega)
  obtain ⟨val, hval, hnat⟩ := toInt_ok hlt
  dsimp only
  rw [hval, Loops.ok_bind, splitSelected_eq hm hc hk hs (by omega) hnat]
  rfl

theorem mdrIRepairDpDiskNonstripeIndexsBlocksNo_eq (hm : Holds k matrix) (hc : coding.For k)
    (hst : st.dataDiskNum = k) (hk : 2 ^ k ≤ 31) {stripeIndexs : List ℕ}
    (hrows : ∀ s ∈ stripeIndexs, s < 2 ^ k) :
    mdrIRepairDpDiskNonstripeIndexsBlocksNo matrix coding.stripSize st stripeIndexs =
      Ncfs.mdrIRepairDpDiskNonstripeIndexsBlocksNo coding st stripeIndexs := by
  refine Loops.foldlM_congr (fun ivmap s hs => ?_) _
  rw [splitRow_eq hm hc hst hk (hrows s hs)]
  rfl

end IndexSets

/-! ### Beyond it -/

/-- The last entry of the first lower row is the top bit. -/
theorem mdrIIterativeConstructEncodingMatrixB_undefined (hk : 31 < 2 ^ (k + 1))
    (matrix : ℕ → ℕ → BitVec 64) :
    mdrIIterativeConstructEncodingMatrixB matrix k (2 ^ k) (k + 1) = .error .undefined := by
  have hrow : 2 ^ (k + 1) = 2 ^ k + 2 ^ k := by rw [pow_succ, mul_two]
  have htop : intBit (2 ^ k + (2 ^ (k + 1) - 1 - 2 ^ k)) = .error .undefined :=
    intBit_undefined (by omega)
  simp only [mdrIIterativeConstructEncodingMatrixB]
  rw [if_neg (by omega), if_neg (by omega), if_neg (lt_irrefl _), htop]
  rfl

/-- A matrix that is built leaves room for the top bit. -/
theorem two_pow_le_of_mdrIEncodingMatrix {matrix : ℕ → ℕ → BitVec 64}
    (h : mdrIEncodingMatrix k = .ok matrix) : 2 ^ k ≤ 31 := by
  match k, h with
  | 0, _ => decide
  | 1, _ => decide
  | k + 2, h =>
      by_contra htop
      have hrow : 2 ^ (k + 2) = 2 ^ (k + 1) + 2 ^ (k + 1) := by rw [pow_succ, mul_two]
      rw [mdrIEncodingMatrix] at h
      cases hprev : mdrIEncodingMatrix (k + 1) with
      | error e =>
          rw [hprev] at h
          cases h
      | ok prev =>
          rw [hprev, Loops.ok_bind, fillMatrix, if_neg] at h
          · cases h
          · intro hall
            have hentry := hall (2 ^ (k + 1)) (by have := Nat.two_pow_pos (k + 1); omega) (k + 2)
              (by omega)
            rw [mdrIIterativeConstructEncodingMatrixB_undefined (by omega)] at hentry
            cases hentry

/-- The types of the source suffice for up to four data disks, and for no more. -/
theorem suffice_iff {st : NcfsState} {coding : Coding4Mdr1}
    (hnew : Coding4Mdr1.new st = .ok coding) :
    (∃ matrix, Suffice coding st matrix) ↔ st.dataDiskNum ≤ 4 := by
  have hk : 1 ≤ st.dataDiskNum := by
    by_contra hzero
    rw [Coding4Mdr1.new, Ncfs.mdrIEncodingMatrix, if_pos (by omega)] at hnew
    cases hnew
  obtain ⟨coding', hnew', hc, -⟩ := Coding4Mdr1.new_ok hk
  obtain rfl : coding = coding' := Except.ok.inj (hnew.symm.trans hnew')
  constructor
  · rintro ⟨matrix, hsuffice⟩
    have htop := two_pow_le_of_mdrIEncodingMatrix hsuffice.built
    by_contra hmany
    have : 2 ^ 5 ≤ 2 ^ st.dataDiskNum := Nat.pow_le_pow_right (by decide) (by omega)
    omega
  · intro hfew
    have htop : 2 ^ st.dataDiskNum ≤ 31 :=
      (Nat.pow_le_pow_right (by decide) hfew).trans (by decide)
    obtain ⟨k, hsucc⟩ : ∃ k, st.dataDiskNum = k + 1 := ⟨st.dataDiskNum - 1, by omega⟩
    obtain ⟨matrix, hbuilt, hm⟩ := mdrIEncodingMatrix_holds k (hsucc ▸ htop)
    rw [← hsucc] at hbuilt hm
    refine ⟨matrix, hbuilt, ?_, ?_, ?_, ?_⟩
    · intro s hs j hj
      rw [hc.matrix_eq]
      exact hm s (hc.stripSize_eq ▸ hs) j hj
    · intro diskId hd blockNo _
      exact mdrIFindQBlocksId_eq hm hc rfl htop hd blockNo
    · intro blockNo hb
      exact mdrIRepairQDiskBlocksId_eq hm hc rfl htop (hc.stripSize_eq ▸ hb)
    · intro stripeIndexs hrows
      exact mdrIRepairDpDiskNonstripeIndexsBlocksNo_eq hm hc rfl htop
        fun s hs => hc.stripSize_eq ▸ hrows s hs

/-- They suffice for two data disks. -/
theorem suffice_two :
    ∃ coding, Coding4Mdr1.new (NcfsState.blank 4 2 4 fourBytes_pos 8) = .ok coding ∧ ∃ matrix,
    Suffice coding (NcfsState.blank 4 2 4 fourBytes_pos 8) matrix := by
  obtain ⟨coding, hnew, -⟩ := @Coding4Mdr1.new_ok (NcfsState.blank 4 2 4 fourBytes_pos 8)
    (by decide : 1 ≤ 2)
  exact ⟨coding, hnew, (suffice_iff hnew).2 (by decide : 2 ≤ 4)⟩

/-- With five data disks a word has 32 bits: the matrix cannot be built in the types, and the
constant that selects the first block of a disk does not fit an `int` either. -/
theorem five_exceeds : ∃ coding,
    Coding4Mdr1.new (NcfsState.blank 7 5 4 fourBytes_pos 32) = .ok coding ∧
    (∀ matrix diskId, mdrIFindQBlocksId matrix coding.stripSize
      (NcfsState.blank 7 5 4 fourBytes_pos 32) diskId 0 = .error .undefined) ∧
    ¬ ∃ matrix, Suffice coding (NcfsState.blank 7 5 4 fourBytes_pos 32) matrix := by
  obtain ⟨coding, hnew, hc, -⟩ := @Coding4Mdr1.new_ok (NcfsState.blank 7 5 4 fourBytes_pos 32)
    (by decide : 1 ≤ 5)
  refine ⟨coding, hnew, fun matrix diskId => ?_, ?_⟩
  · rw [mdrIFindQBlocksId, hc.stripSize_eq]
    rfl
  · rintro ⟨matrix, hsuffice⟩
    have htop : 2 ^ 5 ≤ 31 := two_pow_le_of_mdrIEncodingMatrix hsuffice.built
    omega

/-! ### What compiled code computes

Compiled code takes the count of a shift modulo the width and keeps the bits of the result, so that
`1 << 31` has the bits of `INT_MIN`. -/

/-- `1 << t` in compiled code. -/
def compiledBit (t : ℕ) : BitVec 32 := 1#32 <<< (t % 32)

/-- The words of `mdr_I_encoding_matrixB` for `k` data disks in compiled code. -/
def compiledMatrixB : ℕ → ℕ → ℕ → BitVec 64
  | 0, _, _ => 0
  | 1, j, i => mdrIBaseMatrixB j i
  | k + 2, j, i =>
      let row := 2 ^ (k + 1)
      let newRow := 2 ^ (k + 2)
      if i < k + 1 then
        if j < row then
          (compiledMatrixB (k + 1) j i ^^^ compiledMatrixB (k + 1) j (k + 1)) <<< (row % 64)
        else compiledMatrixB (k + 1) (j - row) i ^^^ compiledMatrixB (k + 1) (j - row) (k + 1)
      else if i = k + 1 then
        if j < row then ofInt (compiledBit (row - 1 - j)) else 0
      else
        if j < row then 0 else ofInt (compiledBit (row + (newRow - 1 - j)))

/-- The test of a word against a constant, as `mdr_I_find_q_blocks_id` and
`mdr_I_repair_qDisk_blocks_id` make it. -/
def compiledTest (word : BitVec 64) (t : ℕ) : Bool := word &&& ofInt (compiledBit t) != 0

/-- The same test after the word has been copied into an `int`. -/
def compiledIntTest (word : BitVec 64) (t : ℕ) : Bool := word.setWidth 32 &&& compiledBit t != 0

theorem toNat_compiledBit {t : ℕ} (ht : t < 32) : (compiledBit t).toNat = 2 ^ t := by
  have hlt : 2 ^ t < 2 ^ 32 := Nat.pow_lt_pow_right (by decide) ht
  rw [compiledBit, Nat.mod_eq_of_lt ht, BitVec.toNat_shiftLeft, Nat.shiftLeft_eq]
  exact (congrArg (· % 2 ^ 32) (one_mul _)).trans (Nat.mod_eq_of_lt hlt)

/-- The one word of five data disks that is not exact: the top bit, with the bits above it set as
well. -/
def IsTopBit (word : BitVec 64) (value : ℕ) : Prop :=
  word = ofInt (compiledBit 31) ∧ value = 2 ^ 31

theorem toNat_ofInt_compiledBit {t : ℕ} (ht : t < 31) :
    (ofInt (compiledBit t)).toNat = 1 <<< t := by
  have hnat := toNat_compiledBit (show t < 32 by omega)
  have hlt : (compiledBit t).toNat < 2 ^ 31 := hnat ▸ Nat.pow_lt_pow_right (by decide) ht
  rw [toNat_ofInt hlt, hnat, Nat.one_shiftLeft]

/-- One entry of the next matrix: exact but for the top bit. -/
theorem compiledMatrixB_succ (hk : 2 ^ (k + 2) ≤ 32)
    (hm : ∀ s < 2 ^ (k + 1), ∀ j ≤ k + 1,
      (compiledMatrixB (k + 1) s j).toNat = Ncfs.mdrIEncodingMatrixB (k + 1) s j)
    {j i : ℕ} (hj : j < 2 ^ (k + 2)) (hi : i ≤ k + 2) :
    (compiledMatrixB (k + 2) j i).toNat = Ncfs.mdrIEncodingMatrixB (k + 2) j i ∨
      2 ^ (k + 2) = 32 ∧
        IsTopBit (compiledMatrixB (k + 2) j i) (Ncfs.mdrIEncodingMatrixB (k + 2) j i) := by
  have hrow : 2 ^ (k + 2) = 2 ^ (k + 1) + 2 ^ (k + 1) := by rw [pow_succ, mul_two]
  have hpos := Nat.two_pow_pos (k + 1)
  have hxor : ∀ {s : ℕ}, s < 2 ^ (k + 1) → i ≤ k + 1 →
      (compiledMatrixB (k + 1) s i ^^^ compiledMatrixB (k + 1) s (k + 1)).toNat =
        Ncfs.mdrIEncodingMatrixB (k + 1) s i ^^^ Ncfs.mdrIEncodingMatrixB (k + 1) s (k + 1) := by
    intro s hs hi
    rw [BitVec.toNat_xor, hm s hs i hi, hm s hs (k + 1) le_rfl]
  rw [mdrIEncodingMatrixB_succ (k + 1) hj hi]
  simp only [compiledMatrixB, Ncfs.mdrIIterativeConstructEncodingMatrixB, Nat.add_sub_cancel]
  split_ifs with hold hup hdata hup' hup''
  · -- a data word moves to the upper half
    have hlt := Nat.xor_lt_two_pow (mdrIEncodingMatrixB_lt (k + 1) hup (show i ≤ k + 1 by omega))
      (mdrIEncodingMatrixB_lt (k + 1) hup le_rfl)
    have hbound : (Ncfs.mdrIEncodingMatrixB (k + 1) j i ^^^
        Ncfs.mdrIEncodingMatrixB (k + 1) j (k + 1)) * 2 ^ 2 ^ (k + 1) < 2 ^ 64 :=
      calc _ < 2 ^ 2 ^ (k + 1) * 2 ^ 2 ^ (k + 1) :=
            Nat.mul_lt_mul_of_pos_right hlt (Nat.two_pow_pos _)
        _ = 2 ^ 2 ^ (k + 2) := (pow_add 2 _ _).symm.trans (congrArg (2 ^ ·) hrow.symm)
        _ ≤ 2 ^ 64 := Nat.pow_le_pow_right (by decide) (by omega)
    left
    rw [Nat.mod_eq_of_lt (by omega), BitVec.toNat_shiftLeft, hxor hup (by omega),
      Nat.shiftLeft_eq, Nat.mod_eq_of_lt hbound]
  · exact Or.inl (hxor (by omega) (by omega))
  · exact Or.inl (toNat_ofInt_compiledBit (by omega))
  · exact Or.inl rfl
  · exact Or.inl rfl
  · -- the constants of the lower half, with the top bit in its first row
    rcases Nat.lt_or_ge (2 ^ (k + 1) + (2 ^ (k + 2) - 1 - j)) 31 with hlt | hge
    · exact Or.inl (toNat_ofInt_compiledBit hlt)
    · have htop : 2 ^ (k + 1) + (2 ^ (k + 2) - 1 - j) = 31 := by omega
      rw [htop]
      exact Or.inr ⟨by omega, rfl, Nat.one_shiftLeft 31⟩

/-- The words of up to four data disks are exact. -/
theorem compiledMatrixB_eq (k : ℕ) (hk : 2 ^ (k + 1) ≤ 31) :
    ∀ s < 2 ^ (k + 1), ∀ j ≤ k + 1,
      (compiledMatrixB (k + 1) s j).toNat = Ncfs.mdrIEncodingMatrixB (k + 1) s j := by
  induction k with
  | zero =>
      intro s hs j hj
      interval_cases s <;> interval_cases j <;> rfl
  | succ k ih =>
      have hrow : 2 ^ (k + 2) = 2 ^ (k + 1) + 2 ^ (k + 1) := by rw [pow_succ, mul_two]
      intro s hs j hj
      rcases compiledMatrixB_succ (by omega) (ih (by omega)) hs hj with h | h
      · exact h
      · omega

/-- A word below `2 ^ 32` is tested exactly. -/
theorem compiledTest_of_lt {word : BitVec 64} (hword : word.toNat < 2 ^ 32) {t : ℕ} (ht : t < 32) :
    compiledTest word t = word.toNat.testBit t ∧ compiledIntTest word t = word.toNat.testBit t := by
  have hval : (word.setWidth 32).toNat = word.toNat := by
    rw [BitVec.toNat_setWidth, Nat.mod_eq_of_lt hword]
  refine ⟨?_, ?_⟩
  · rcases Nat.lt_or_ge t 31 with hlt | hge
    · exact and_ofInt_ne_zero (toNat_compiledBit ht) hlt
    · -- the constant has all the upper bits set, and the word has none of them but bit 31
      obtain rfl : t = 31 := by omega
      have hmask : word &&& ofInt (compiledBit 31) = word &&& 0x80000000#64 := by
        have hhigh : word = (word.setWidth 32).setWidth 64 :=
          BitVec.eq_of_toNat_eq (by rw [BitVec.toNat_setWidth, hval, Nat.mod_eq_of_lt word.isLt])
        have hsplit : ofInt (compiledBit 31) = 0xFFFFFFFF80000000#64 := rfl
        rw [hsplit, hhigh]
        ext i hi
        rcases Nat.lt_or_ge i 32 with hlow | hlow
        · interval_cases i <;> simp
        · simp [show ¬ i < 32 by omega]
      have hnat : (word &&& 0x80000000#64).toNat = word.toNat &&& 1 <<< 31 := BitVec.toNat_and ..
      rw [compiledTest, hmask, ← and_shiftLeft_ne_zero, ← hnat, Bool.eq_iff_iff, bne_iff_ne,
        bne_iff_ne, ne_eq, ne_eq, BitVec.toNat_eq]
      rfl
  · rw [compiledIntTest, and_ne_zero (toNat_compiledBit ht), hval]

/-- So is the top bit of five data disks. -/
theorem IsTopBit.tests {word : BitVec 64} {value : ℕ} (h : IsTopBit word value) {t : ℕ}
    (ht : t < 32) :
    compiledTest word t = value.testBit t ∧ compiledIntTest word t = value.testBit t := by
  obtain ⟨rfl, rfl⟩ := h
  interval_cases t <;> decide

/-- Up to five data disks every test that compiled code makes is the exact one, so that the index
sets are. -/
theorem compiled_tests {coding : Coding4Mdr1} (hc : coding.For k) (hk : 1 ≤ k) (hk5 : k ≤ 5)
    {s j t : ℕ} (hs : s < 2 ^ k) (hj : j ≤ k) :
    compiledTest (compiledMatrixB k s j) (coding.stripSize - t - 1) =
        coding.hasBit (coding.mdrIEncodingMatrixB s j) t ∧
      compiledIntTest (compiledMatrixB k s j) (coding.stripSize - t - 1) =
        coding.hasBit (coding.mdrIEncodingMatrixB s j) t := by
  have htop : 2 ^ k ≤ 32 := (Nat.pow_le_pow_right (by decide) hk5).trans (by decide)
  have hlt : 2 ^ k - t - 1 < 32 := by omega
  rw [Coding4Mdr1.hasBit, and_shiftLeft_ne_zero, hc.matrix_eq, hc.stripSize_eq]
  have hsmall := mdrIEncodingMatrixB_lt k hs hj
  have hword : Ncfs.mdrIEncodingMatrixB k s j < 2 ^ 32 :=
    lt_of_lt_of_le hsmall (Nat.pow_le_pow_right (by decide) htop)
  have hexact : (compiledMatrixB k s j).toNat = Ncfs.mdrIEncodingMatrixB k s j ∨
      IsTopBit (compiledMatrixB k s j) (Ncfs.mdrIEncodingMatrixB k s j) := by
    rcases hk.eq_or_lt with rfl | hmore
    · exact Or.inl (compiledMatrixB_eq 0 (by decide) s hs j hj)
    · obtain ⟨m, rfl⟩ : ∃ m, k = m + 2 := ⟨k - 2, by omega⟩
      have hrow : 2 ^ (m + 2) = 2 ^ (m + 1) + 2 ^ (m + 1) := by rw [pow_succ, mul_two]
      exact (compiledMatrixB_succ htop (compiledMatrixB_eq m (by omega)) hs hj).imp_right And.right
  rcases hexact with h | h
  · rw [← h]
    exact compiledTest_of_lt (h ▸ hword) hlt
  · exact h.tests hlt

/-- With six data disks the constant for block 0 is `1 << 63`, which becomes `INT_MIN` and selects
the upper half of a word: row 0 is taken for a `Q` block of block 0 of disk 0. -/
example : compiledTest (compiledMatrixB 6 0 0) (2 ^ 6 - 0 - 1) = true ∧
    (Ncfs.mdrIEncodingMatrixB 6 0 0).testBit (2 ^ 6 - 0 - 1) = false := by
  decide +kernel

end Widths

end Ncfs
