/-
**Short writes under simple regenerating codes.**

`encode` of `Coding4SrcRS` computes the difference of the new and the old data integer by integer,
and adds it to the SRC block and, multiplied, to the code blocks and theirs.  The data itself is
written byte by byte.  When the length of a write is not a multiple of the size of an integer, the
bytes behind the last whole integer change in the data block alone.

Main definitions:

* `Ncfs.srcGroupSum` — the sum of a group and its SRC block;
* `Ncfs.SrcEquations` — the equations of all rows and of all groups;
* `Ncfs.TailKept`, `Ncfs.StoreOp.KeepsTail` — the bytes behind the last whole integer are written as
  they are.

Main results:

* `Ncfs.srcGroupSum_pair`, `Ncfs.block_pair` — what writing a block and its SRC block does to the
  groups and to the rows;
* `Ncfs.srcWrite_spec` — what a write of any length does to them;
* `Ncfs.SrcEquations.srcWrite_iff`, `Ncfs.SrcEquations.step_iff` — a write keeps the equations
  exactly when it keeps the tail;
* `Ncfs.Coding4SrcRS.encode_run_iff` — the same for runs.
-/
import FuseMdr.SrcEncode

set_option relaxedAutoImplicit false
set_option autoImplicit false

namespace Ncfs

theorem intBytes_le (size : ℕ) : intBytes size ≤ size := Nat.div_mul_le_self size sizeofInt

/-! ### Rows and groups -/

section Places

variable {n f d b b' : ℕ}

theorem srcBlockNo_mod (hf : 0 < f) : srcBlockNo f b % (f + 1) = b % f := by
  rw [srcBlockNo_eq]
  exact Staircase.pos_row_mod (Nat.mod_lt b hf).le

theorem srcBlockNo_inj (hf : 0 < f) : srcBlockNo f b = srcBlockNo f b' ↔ b = b' := by
  constructor
  · intro h
    have hmod : b % f = b' % f := by rw [← srcBlockNo_mod hf, h, srcBlockNo_mod hf]
    have hdiv : b / f = b' / f := by
      rw [← Staircase.pos_row_div (s := b / f) (Nat.mod_lt b hf).le, ← srcBlockNo_eq, h,
        srcBlockNo_eq, Staircase.pos_row_div (Nat.mod_lt b' hf).le]
    rw [← Nat.div_add_mod b f, ← Nat.div_add_mod b' f, hmod, hdiv]
  · exact congrArg _

/-- SRC blocks do not lie in the rows of the blocks. -/
theorem srcBlockNo_ne_code (hf : 0 < f) : srcBlockNo f b ≠ (srcCodePlace n f d b').2 := by
  intro h
  have hrow : (srcCodePlace n f d b').2 = (f + 1) * (b' / f) + f := by
    change (f + 1) * (b' / f + 1) - 1 = _
    rw [Nat.mul_succ]
    omega
  have hmod := Nat.mod_lt b hf
  rw [← srcBlockNo_mod (b := b) hf, h, hrow, Staircase.pos_row_mod le_rfl] at hmod
  exact lt_irrefl f hmod

end Places

/-- The sum of byte `o` over a group and its SRC block. -/
noncomputable def srcGroupSum (f : ℕ) (st : NcfsState) (D s o : ℕ) : Byte :=
  ∑ t ∈ Finset.range (f + 1), srcStep st.diskTotalNum f st D s t o

section Pair

variable {f d b size : ℕ} {st : NcfsState}

/-- The state after a block and its SRC block have been written. -/
def writePair (f : ℕ) (st : NcfsState) (d b size : ℕ) (code buf : Buf) : NcfsState :=
  writeDisk (writeDisk st (srcCodePlace st.diskTotalNum f d b).1 code size
    ((srcCodePlace st.diskTotalNum f d b).2 * st.diskBlockSize)) d buf size
      (srcBlockNo f b * st.diskBlockSize)

/-- In the rows, only the block itself is written. -/
theorem block_pair (hf : 0 < f) (hsize : size ≤ st.diskBlockSize) (code buf : Buf) {x b' o : ℕ}
    (ho : o < st.diskBlockSize) : (writePair f st d b size code buf).block x (srcBlockNo f b') o =
      if x = d ∧ b' = b ∧ o < size then buf o else st.block x (srcBlockNo f b') o := by
  have hcode := block_writeDisk st (srcCodePlace st.diskTotalNum f d b).1
    (srcCodePlace st.diskTotalNum f d b).2 size code hsize (x := x) (y := srcBlockNo f b') ho
  rw [if_neg fun h => srcBlockNo_ne_code hf h.2.1] at hcode
  refine (block_writeDisk (writeDisk st (srcCodePlace st.diskTotalNum f d b).1 code size
    ((srcCodePlace st.diskTotalNum f d b).2 * st.diskBlockSize)) d (srcBlockNo f b) size buf hsize
    ho).trans ?_
  rw [hcode]
  exact if_congr (and_congr_right fun _ => and_congr_left fun _ => srcBlockNo_inj hf) rfl rfl

/-- The sum of a group changes by the differences of both blocks. -/
theorem srcGroupSum_pair (hf : 0 < f) (hfn : f < st.diskTotalNum) (hd : d < st.diskTotalNum)
    (hsize : size ≤ st.diskBlockSize) (code buf : Buf) {D s o : ℕ} (hD : D < st.diskTotalNum)
    (ho : o < st.diskBlockSize) : srcGroupSum f (writePair f st d b size code buf) D s o =
      srcGroupSum f st D s o +
        if D = (srcCodePlace st.diskTotalNum f d b).1 ∧ s = b / f ∧ o < size then
          (st.block d (srcBlockNo f b) o + buf o) +
            (st.block (srcCodePlace st.diskTotalNum f d b).1
              (srcCodePlace st.diskTotalNum f d b).2 o + code o)
        else 0 := by
  have hmod := Nat.mod_lt b hf
  have hstep := fun t (ht : t ∈ Finset.range (f + 1)) => srcStep_write (D := D)
    (s := s) hf hfn hd hsize code buf hD (Nat.lt_succ_iff.1 (Finset.mem_range.1 ht)) ho (b := b)
  refine (Finset.sum_congr rfl hstep).trans ?_
  by_cases hgroup : D = (srcCodePlace st.diskTotalNum f d b).1 ∧ s = b / f ∧ o < size
  · simp only [if_pos hgroup]
    obtain ⟨rfl, rfl, -⟩ := hgroup
    -- the steps of the block and of its SRC block apart from the others
    have hmem : b % f ∈ Finset.range f := Finset.mem_range.2 hmod
    have hold : ∀ t, t ∉ [b % f, f] → (if t = b % f then buf o else if t = f then code o
        else srcStep st.diskTotalNum f st (srcCodePlace st.diskTotalNum f d b).1 (b / f) t o) =
          srcStep st.diskTotalNum f st (srcCodePlace st.diskTotalNum f d b).1 (b / f) t o := by
      intro t ht
      simp only [List.mem_cons, List.not_mem_nil, or_false, not_or] at ht
      rw [if_neg ht.1, if_neg ht.2]
    have hblock : srcStep st.diskTotalNum f st (srcCodePlace st.diskTotalNum f d b).1 (b / f)
        (b % f) o = st.block d (srcBlockNo f b) o := by
      rw [srcStep, pos_srcBlockNo hf hfn hd]
    have hcode : srcStep st.diskTotalNum f st (srcCodePlace st.diskTotalNum f d b).1 (b / f) f o =
        st.block (srcCodePlace st.diskTotalNum f d b).1
          (srcCodePlace st.diskTotalNum f d b).2 o := by
      rw [srcStep, pos_srcCodePlace hfn]
    have hrest : ∑ t ∈ (Finset.range f).erase (b % f),
        (if t = b % f then buf o else if t = f then code o else srcStep st.diskTotalNum f st
          (srcCodePlace st.diskTotalNum f d b).1 (b / f) t o) =
        ∑ t ∈ (Finset.range f).erase (b % f),
          srcStep st.diskTotalNum f st (srcCodePlace st.diskTotalNum f d b).1 (b / f) t o := by
      refine Finset.sum_congr rfl fun t ht => hold t ?_
      obtain ⟨hne, hlt⟩ := Finset.mem_erase.1 ht
      have := Finset.mem_range.1 hlt
      simp only [List.mem_cons, List.not_mem_nil, or_false, not_or]
      omega
    rw [srcGroupSum, Finset.sum_range_succ, Finset.sum_range_succ, ← Finset.add_sum_erase _ _ hmem,
      ← Finset.add_sum_erase _ _ hmem, hrest, if_pos rfl, if_neg hmod.ne', if_pos rfl,
      hblock, hcode]
    generalize ∑ t ∈ (Finset.range f).erase (b % f),
      srcStep st.diskTotalNum f st (srcCodePlace st.diskTotalNum f d b).1 (b / f) t o = rest
    generalize st.block d (srcBlockNo f b) o = x
    generalize st.block (srcCodePlace st.diskTotalNum f d b).1
      (srcCodePlace st.diskTotalNum f d b).2 o = y
    calc buf o + rest + code o = (x + x) + (y + y) + (buf o + rest + code o) := by
          rw [CharTwo.add_self_eq_zero, CharTwo.add_self_eq_zero, zero_add, zero_add]
      _ = x + rest + y + (x + buf o + (y + code o)) := by ac_rfl
  · simp only [if_neg hgroup, add_zero]
    rfl

end Pair

/-! ### What a write does -/

/-- A difference that is added to two blocks cancels. -/
theorem add_difference_twice (x y delta : Byte) : x + (x + delta) + (y + (y + delta)) = 0 := by
  rw [← add_assoc x, CharTwo.add_self_eq_zero, zero_add, ← add_assoc y, CharTwo.add_self_eq_zero,
    zero_add, CharTwo.add_self_eq_zero]

/-- The same, when the first block is written over. -/
theorem add_written_twice (x y z : Byte) : x + z + (y + (y + (x + z))) = 0 := by
  rw [← add_assoc y, CharTwo.add_self_eq_zero, zero_add, CharTwo.add_self_eq_zero]

/-- A block that is not written over does not change a sum. -/
theorem add_unwritten (x y z : Byte) : x + z + (y + (y + 0)) = x + z := by
  rw [add_zero, CharTwo.add_self_eq_zero, add_zero]

section Write

variable {J : Jerasure} {matrix : ℕ → ℕ} {f d b size : ℕ} {st : NcfsState}

/-- A pass of the loop over the code disks adds the same to a code block and to its SRC block. -/
theorem srcUpdateCode_spec (hJ : J.Multiplies) (hmatrix : ∀ i, matrix i < 256) (hf : 0 < f)
    (hfn : f < st.diskTotalNum) (hsize : size ≤ st.diskBlockSize) (bufRead : Buf)
    {sizeRequest i : ℕ} (hround : size ≤ sizeRequest) (hi : st.dataDiskNum + i < st.diskTotalNum) :
    (∀ x b', ∀ o < st.diskBlockSize,
      (srcUpdateCode J matrix f bufRead size sizeRequest d b st i).block x (srcBlockNo f b') o =
        if x = st.dataDiskNum + i ∧ b' = b ∧ o < intBytes size then
          st.block x (srcBlockNo f b') o + rsCoeff matrix st.dataDiskNum i d * bufRead o
        else st.block x (srcBlockNo f b') o) ∧
    ∀ D < st.diskTotalNum, ∀ s, ∀ o < st.diskBlockSize,
      srcGroupSum f (srcUpdateCode J matrix f bufRead size sizeRequest d b st i) D s o =
        srcGroupSum f st D s o := by
  let bufTemp := galoisBuf J sizeRequest (matrix (i * st.dataDiskNum + d)) bufRead
  let place := srcCodePlace st.diskTotalNum f (st.dataDiskNum + i) b
  let code := xorBuf (intBytes size)
    (readDisk st place.1 (fun _ => 0) size (place.2 * st.diskBlockSize)) bufTemp
  let bufWrite := xorBuf (intBytes size)
    (readDisk st (st.dataDiskNum + i) (fun _ => 0) sizeRequest
      (srcBlockNo f b * st.diskBlockSize)) bufTemp
  have hle := intBytes_le size
  have htemp : ∀ o < sizeRequest, bufTemp o = rsCoeff matrix st.dataDiskNum i d * bufRead o :=
    fun o ho => galoisBuf_of_lt hJ (hmatrix _) ho bufRead
  have hpair : srcUpdateCode J matrix f bufRead size sizeRequest d b st i =
      writePair f st (st.dataDiskNum + i) b size code bufWrite := rfl
  have hcode : ∀ o < size, code o =
      st.block place.1 place.2 o + if o < intBytes size then bufTemp o else 0 := by
    intro o ho
    simp only [code, xorBuf, readDisk_block _ _ _ _ _ ho]
    split
    · rfl
    · rw [add_zero]
  have hbuf : ∀ o < size, bufWrite o =
      st.block (st.dataDiskNum + i) (srcBlockNo f b) o + if o < intBytes size then bufTemp o
        else 0 := by
    intro o ho
    simp only [bufWrite, xorBuf, readDisk_block _ _ _ _ _ (ho.trans_le hround)]
    split
    · rfl
    · rw [add_zero]
  rw [hpair]
  constructor
  · intro x b' o ho
    rw [block_pair hf hsize code bufWrite ho]
    by_cases hx : x = st.dataDiskNum + i ∧ b' = b ∧ o < size
    · obtain ⟨rfl, rfl, hlt⟩ := hx
      rw [if_pos ⟨rfl, rfl, hlt⟩, hbuf o hlt]
      by_cases hint : o < intBytes size
      · rw [if_pos hint, if_pos ⟨rfl, rfl, hint⟩, htemp o (hlt.trans_le hround)]
      · rw [if_neg hint, if_neg fun h => hint h.2.2, add_zero]
    · rw [if_neg hx, if_neg fun h => hx ⟨h.1, h.2.1, h.2.2.trans_le hle⟩]
  · intro D hD s o ho
    rw [srcGroupSum_pair hf hfn hi hsize code bufWrite hD ho]
    split
    · rename_i h
      rw [hcode o h.2.2, hbuf o h.2.2]
      exact (congrArg _ (add_difference_twice ..)).trans (add_zero _)
    · rw [add_zero]

/-- The first `t` passes of the loop. -/
theorem foldl_srcUpdateCode (hJ : J.Multiplies) (hmatrix : ∀ i, matrix i < 256) (hf : 0 < f)
    (hfn : f < st.diskTotalNum) (hsize : size ≤ st.diskBlockSize) (bufRead : Buf) {sizeRequest : ℕ}
    (hround : size ≤ sizeRequest) {t : ℕ} (ht : st.dataDiskNum + t ≤ st.diskTotalNum) :
    ∃ disk, (List.range t).foldl (srcUpdateCode J matrix f bufRead size sizeRequest d b) st =
        { st with disk := disk } ∧
      (∀ x b', ∀ o < st.diskBlockSize,
        ({ st with disk := disk } : NcfsState).block x (srcBlockNo f b') o =
          if b' = b ∧ o < intBytes size ∧ st.dataDiskNum ≤ x ∧ x < st.dataDiskNum + t then
            st.block x (srcBlockNo f b') o +
              rsCoeff matrix st.dataDiskNum (x - st.dataDiskNum) d * bufRead o
          else st.block x (srcBlockNo f b') o) ∧
      ∀ D < st.diskTotalNum, ∀ s, ∀ o < st.diskBlockSize,
        srcGroupSum f { st with disk := disk } D s o = srcGroupSum f st D s o := by
  induction t with
  | zero =>
      refine ⟨st.disk, rfl, fun x b' o _ => ?_, fun _ _ _ _ _ => rfl⟩
      rw [if_neg (by omega)]
  | succ t ih =>
      obtain ⟨disk, hfold, hblock, hsum⟩ := ih (by omega)
      rw [List.range_succ, List.foldl_append, hfold, List.foldl_cons, List.foldl_nil]
      obtain ⟨hblock', hsum'⟩ := @srcUpdateCode_spec J matrix f d b size { st with disk := disk }
        hJ hmatrix hf hfn hsize bufRead sizeRequest t hround
        (show st.dataDiskNum + t < st.diskTotalNum by omega)
      refine ⟨_, rfl, fun x b' o ho => (hblock' x b' o ho).trans ?_, fun D hD s o ho =>
        (hsum' D hD s o ho).trans (hsum D hD s o ho)⟩
      change (if x = st.dataDiskNum + t ∧ b' = b ∧ o < intBytes size then
        ({ st with disk := disk } : NcfsState).block x (srcBlockNo f b') o +
          rsCoeff matrix st.dataDiskNum t d * bufRead o
        else ({ st with disk := disk } : NcfsState).block x (srcBlockNo f b') o) = _
      rw [hblock x b' o ho]
      by_cases hx : x = st.dataDiskNum + t ∧ b' = b ∧ o < intBytes size
      · obtain ⟨rfl, rfl, hlt⟩ := hx
        rw [if_pos ⟨rfl, rfl, hlt⟩, if_neg (by omega), if_pos (by omega), Nat.add_sub_cancel_left]
      · rw [if_neg hx]
        by_cases hx' : b' = b ∧ o < intBytes size ∧ st.dataDiskNum ≤ x ∧ x < st.dataDiskNum + t
        · rw [if_pos hx', if_pos (by omega)]
        · rw [if_neg hx', if_neg (by omega)]

/-- What a write does: the code blocks of the row follow the data in whole integers, and the sum of
the group of the data block changes where they do not. -/
theorem srcWrite_spec (hJ : J.Multiplies) (hmatrix : ∀ i, matrix i < 256) (hf : 0 < f)
    (hfn : f < st.diskTotalNum) (hk : st.dataDiskNum ≤ st.diskTotalNum) (hd : d < st.dataDiskNum)
    (hsize : size ≤ st.diskBlockSize) (buf : Buf) :
    ∃ disk, srcWrite J matrix f buf size st d b = { st with disk := disk } ∧
      (∀ x < st.diskTotalNum, ∀ b', ∀ o < st.diskBlockSize,
        ({ st with disk := disk } : NcfsState).block x (srcBlockNo f b') o =
          if b' = b ∧ o < size then
            if x < st.dataDiskNum then if x = d then buf o else st.block x (srcBlockNo f b') o
            else if o < intBytes size then st.block x (srcBlockNo f b') o +
              rsCoeff matrix st.dataDiskNum (x - st.dataDiskNum) d *
                (st.block d (srcBlockNo f b) o + buf o)
            else st.block x (srcBlockNo f b') o
          else st.block x (srcBlockNo f b') o) ∧
      ∀ D < st.diskTotalNum, ∀ s, ∀ o < st.diskBlockSize,
        srcGroupSum f { st with disk := disk } D s o = srcGroupSum f st D s o +
          if D = (srcCodePlace st.diskTotalNum f d b).1 ∧ s = b / f ∧
          intBytes size ≤ o ∧ o < size then
            st.block d (srcBlockNo f b) o + buf o
          else 0 := by
  have hround := (roundToBlockSize_le hsize).1
  have hle := intBytes_le size
  have hdn : d < st.diskTotalNum := hd.trans_le hk
  let place := srcCodePlace st.diskTotalNum f d b
  let bufRead := readDisk st d (fun _ => 0) (roundToBlockSize st size)
    (srcBlockNo f b * st.diskBlockSize)
  let code := xorBuf (intBytes size) (xorBuf (intBytes size)
    (readDisk st place.1 (fun _ => 0) size (place.2 * st.diskBlockSize)) bufRead) buf
  let st₁ := writePair f st d b size code buf
  obtain ⟨disk, hfold, hblock, hsum⟩ :=
    @foldl_srcUpdateCode J matrix f d b size st₁ hJ hmatrix hf hfn hsize
      (xorBuf (intBytes size) bufRead buf) (roundToBlockSize st size) hround
    (st.diskTotalNum - st.dataDiskNum)
    (show st.dataDiskNum + (st.diskTotalNum - st.dataDiskNum) ≤ st.diskTotalNum by omega)
  have hread : ∀ o < size, bufRead o = st.block d (srcBlockNo f b) o := fun o ho =>
    readDisk_block _ _ _ _ _ (ho.trans_le hround)
  have hcode : ∀ o < size, code o = st.block place.1 place.2 o +
      if o < intBytes size then st.block d (srcBlockNo f b) o + buf o else 0 := by
    intro o ho
    simp only [code, xorBuf, readDisk_block _ _ _ _ _ ho, hread o ho]
    split
    · exact add_assoc ..
    · rw [add_zero]
  refine ⟨disk, hfold, fun x hx b' o ho => ?_, fun D hD s o ho => ?_⟩
  · have hpair := fun y c => @block_pair f d b size st hf hsize code buf y c o ho
    have hcell : ({ st with disk := disk } : NcfsState).block x (srcBlockNo f b') o =
        if b' = b ∧ o < intBytes size ∧ st.dataDiskNum ≤ x ∧
            x < st.dataDiskNum + (st.diskTotalNum - st.dataDiskNum) then
          (if x = d ∧ b' = b ∧ o < size then buf o else st.block x (srcBlockNo f b') o) +
            rsCoeff matrix st.dataDiskNum (x - st.dataDiskNum) d * xorBuf
              (intBytes size) bufRead buf o
        else if x = d ∧ b' = b ∧ o < size then buf o else st.block x (srcBlockNo f b') o := by
      rw [← hpair x b']
      exact hblock x b' o ho
    rw [hcell]
    by_cases hb : b' = b ∧ o < size
    · obtain ⟨rfl, hlt⟩ := hb
      rw [if_pos (⟨rfl, hlt⟩ : b' = b' ∧ o < size)]
      by_cases hxk : x < st.dataDiskNum
      · have hdata : ¬ (b' = b' ∧ o < intBytes size ∧ st.dataDiskNum ≤ x ∧
            x < st.dataDiskNum + (st.diskTotalNum - st.dataDiskNum)) := by omega
        rw [if_neg hdata, if_pos hxk]
        exact if_congr (and_iff_left ⟨rfl, hlt⟩) rfl rfl
      · rw [if_neg hxk, if_neg (show ¬ (x = d ∧ b' = b' ∧ o < size) by omega)]
        by_cases hint : o < intBytes size
        · have hcode : b' = b' ∧ o < intBytes size ∧ st.dataDiskNum ≤ x ∧
              x < st.dataDiskNum + (st.diskTotalNum - st.dataDiskNum) :=
              ⟨rfl, hint, by omega, by omega⟩
          rw [if_pos hcode, if_pos hint, xorBuf_of_lt _ _ hint, hread o hlt]
        · rw [if_neg fun h => hint h.2.1, if_neg hint]
    · rw [if_neg hb, if_neg fun h => hb ⟨h.1, h.2.1.trans_le hle⟩, if_neg fun h => hb h.2]
  · refine (hsum D hD s o ho).trans ((srcGroupSum_pair hf hfn hdn hsize code buf hD ho).trans ?_)
    congr 1
    by_cases hgroup : D = place.1 ∧ s = b / f ∧ o < size
    · obtain ⟨hDD, hs, hlt⟩ := hgroup
      rw [if_pos ⟨hDD, hs, hlt⟩, hcode o hlt]
      by_cases hint : o < intBytes size
      · rw [if_pos hint, if_neg fun h => absurd hint (not_lt.2 h.2.2.1)]
        exact add_written_twice ..
      · rw [if_neg hint, if_pos ⟨hDD, hs, not_lt.1 hint, hlt⟩]
        exact add_unwritten ..
    · rw [if_neg hgroup, if_neg fun h => hgroup ⟨h.1, h.2.1, h.2.2.2⟩]

end Write

/-! ### The equations -/

/-- The equations of a store: a code block is the combination of the data of its row, and an SRC
block is the sum of the blocks of its group. -/
structure SrcEquations (matrix : ℕ → ℕ) (f : ℕ) (st : NcfsState) : Prop where
  /-- The rows. -/
  rows : ∀ b, ∀ o < st.diskBlockSize, RsRow matrix st (srcBlockNo f b) o
  /-- The groups. -/
  groups : ∀ D < st.diskTotalNum, ∀ s, ∀ o < st.diskBlockSize,
    srcStep st.diskTotalNum f st D s f o =
      ∑ t ∈ Finset.range f, srcStep st.diskTotalNum f st D s t o

/-- The bytes of a write behind the last whole integer are those of the block. -/
def TailKept (f : ℕ) (st : NcfsState) (d b : ℕ) (buf : Buf) (size : ℕ) : Prop :=
  ∀ o, intBytes size ≤ o → o < size → buf o = st.block d (srcBlockNo f b) o

/-- There are none when the length is a multiple of that of an integer. -/
theorem TailKept.of_mod {f size : ℕ} (hint : size % sizeofInt = 0) (st : NcfsState) (d b : ℕ)
    (buf : Buf) :
    TailKept f st d b buf size := by
  intro o ho hlt
  rw [intBytes_eq hint] at ho
  exact absurd hlt (not_lt.2 ho)

section Equations

variable {J : Jerasure} {matrix : ℕ → ℕ} {f : ℕ} {st : NcfsState}

theorem srcGroupSum_eq_zero {D s o : ℕ} : srcGroupSum f st D s o = 0 ↔
    srcStep st.diskTotalNum f st D s f o =
      ∑ t ∈ Finset.range f, srcStep st.diskTotalNum f st D s t o := by
  rw [srcGroupSum, Finset.sum_range_succ, CharTwo.add_eq_zero, eq_comm]

theorem SrcEquations.same {st' : NcfsState} (h : SrcEquations matrix f st)
    (hsame : SameDevices st st') (hdata : st'.dataDiskNum = st.dataDiskNum) :
    SrcEquations matrix f st' where
  rows b o ho i hi := by
    rw [hsame.block_eq] at ho
    rw [hsame.total_eq, hdata] at hi
    rw [hdata, hsame.block, h.rows b o ho i hi]
    exact Finset.sum_congr rfl fun j _ => by rw [hsame.block]
  groups D hD s o ho := by
    rw [hsame.total_eq] at hD ⊢
    rw [hsame.block_eq] at ho
    have hstep : ∀ t, srcStep st.diskTotalNum f st' D s t o = srcStep st.diskTotalNum f st
        D s t o :=
      fun t => hsame.block _ _ o
    rw [hstep, h.groups D hD s o ho]
    exact Finset.sum_congr rfl fun t _ => (hstep t).symm

/-- Zero disks. -/
theorem SrcEquations.of_zero (hfn : f < st.diskTotalNum)
    (hzero : ∀ d < st.diskTotalNum, ∀ x, st.disk d x = 0) : SrcEquations matrix f st where
  rows b o ho := RsParity.of_zero hzero (srcBlockNo f b) o ho
  groups D hD s o ho := srcGroupSum_eq_zero.1 (SrcGroups.of_zero hfn hzero D hD s o ho)

/-- **One write.**  It keeps the equations exactly when it keeps the bytes behind the last whole
integer. -/
theorem SrcEquations.srcWrite_iff (hJ : J.Multiplies) (hmatrix : ∀ i, matrix i < 256) (hf : 0 < f)
    (hfn : f < st.diskTotalNum) (hk : st.dataDiskNum ≤ st.diskTotalNum) {d b size : ℕ}
    (hd : d < st.dataDiskNum) (hsize : size ≤ st.diskBlockSize) (buf : Buf)
    (h : SrcEquations matrix f st) :
    SrcEquations matrix f (srcWrite J matrix f buf size st d b) ↔ TailKept f st d b buf size := by
  obtain ⟨disk, heq, hblock, hsum⟩ :=
    @srcWrite_spec J matrix f d b size st hJ hmatrix hf hfn hk hd hsize buf
  rw [heq]
  constructor
  · -- the group of the block tells whether the tail was kept
    intro hnew o hint hlt
    have hD : (srcCodePlace st.diskTotalNum f d b).1 < st.diskTotalNum := Staircase.column_lt hfn
    have ho : o < st.diskBlockSize := hlt.trans_le hsize
    have hzero := hsum _ hD (b / f) o ho
    rw [if_pos ⟨rfl, rfl, hint, hlt⟩, srcGroupSum_eq_zero.2 (hnew.groups _ hD _ o ho),
      srcGroupSum_eq_zero.2 (h.groups _ hD _ o ho), zero_add] at hzero
    exact (CharTwo.add_eq_zero.1 hzero.symm).symm
  · intro htail
    have hdelta : ∀ o, ¬ o < intBytes size → o < size →
        st.block d (srcBlockNo f b) o + buf o = 0 := by
      intro o hint hlt
      rw [htail o (not_lt.1 hint) hlt]
      exact CharTwo.add_self_eq_zero _
    refine ⟨fun b' o ho => ?_, fun D hD s o ho => srcGroupSum_eq_zero.1 ?_⟩
    · by_cases hb : b' = b ∧ o < size
      · obtain ⟨rfl, hlt⟩ := hb
        refine (h.rows b' o ho).update (v := buf o) hd (fun j hj => ?_) fun i hi => ?_
        · rw [hblock j (by omega) b' o ho, if_pos ⟨rfl, hlt⟩, if_pos hj]
        · rw [hblock _ (by omega) b' o ho, if_pos ⟨rfl, hlt⟩, if_neg (by omega),
            Nat.add_sub_cancel_left]
          by_cases hint : o < intBytes size
          · rw [if_pos hint]
          · rw [if_neg hint, hdelta o hint hlt, mul_zero, add_zero]
      · refine (h.rows b' o ho).congr hk fun x hx => ?_
        rw [hblock x hx b' o ho, if_neg hb]
    · refine (hsum D hD s o ho).trans ?_
      rw [srcGroupSum_eq_zero.2 (h.groups D hD s o ho), zero_add]
      split
      · rename_i hgroup
        exact hdelta o (not_lt.2 hgroup.2.2.1) hgroup.2.2.2
      · rfl

end Equations

/-! ### Runs -/

/-- The operation keeps the bytes behind the last whole integer of the block that is chosen for
it. -/
def StoreOp.KeepsTail (f : ℕ) (s : Served) : StoreOp → Prop
  | .encode buf size => ∀ d b, (rsAllocate s.st (blockRequest s.st size)).1 = some (d, b) →
      TailKept f s.st d b buf size
  | .free _ _ => True

/-- Where blocks are. -/
theorem src_places (J : Jerasure) (matrix : ℕ → ℕ) (f : ℕ) {n k bs : ℕ} :
    Keeps n k bs (fun d _ => d < k) (fun size => size ≤ bs) (fun _ => True) rsAllocate
      (srcWrite J matrix f) where
  alloc_ok st req _ hdata hlist := by
    subst hdata
    exact rsAllocate_ok req hlist
  write_eq := srcWrite_eq J matrix f
  write_ok _ _ _ _ _ _ _ _ _ _ _ := trivial
  same _ _ _ _ _ := trivial

section Runs

variable {J : Jerasure} {matrix : ℕ → ℕ} {n k f bs : ℕ}

/-- One operation. -/
theorem SrcEquations.step_iff (hJ : J.Multiplies) (hmatrix : ∀ i, matrix i < 256) (hf : 0 < f)
    (hfn : f < n) (hk : k ≤ n) {s : Served} (hs : Placed n k bs (fun d _ => d < k) s)
    (h : SrcEquations matrix f s.st) {op : StoreOp} (hop : op.Sized fun size => size ≤ bs) :
    SrcEquations matrix f (storeStep (Coding4SrcRS.encode J matrix f) s op).st ↔
    op.KeepsTail f s := by
  cases op with
  | encode buf size =>
      have hop : size ≤ bs := hop
      obtain ⟨htotal, hdata, hblock, hlist, -⟩ := hs
      have halloc := rsAllocate_ok (blockRequest s.st size) (hdata.symm ▸ hlist)
      have hkeep := h.same halloc.same halloc.data_eq
      rw [storeStep, Served.serve_st, Coding4SrcRS.encode, encodeWith, StoreOp.KeepsTail]
      cases htaken : rsAllocate s.st (blockRequest s.st size) with
      | mk taken st =>
          rw [htaken] at halloc hkeep
          cases taken with
          | none => exact ⟨fun _ _ _ hdb => (Option.some_ne_none _ hdb.symm).elim, fun _ => hkeep⟩
          | some x =>
              have hsame : SameDevices s.st st := halloc.same
              have hd := halloc.served x.1 x.2 rfl
              have hdatast : st.dataDiskNum = s.st.dataDiskNum := halloc.data_eq
              have hfn : f < st.diskTotalNum := by
                rw [hsame.total_eq, htotal]
                exact hfn
              have hk : st.dataDiskNum ≤ st.diskTotalNum := by
                rw [hdatast, hsame.total_eq, hdata, htotal]
                exact hk
              have hop : size ≤ st.diskBlockSize := by
                rw [hsame.block_eq, hblock]
                exact hop
              have hwrite :=
                @SrcEquations.srcWrite_iff J matrix f st hJ hmatrix hf hfn hk x.1 x.2 size
                (hdatast.symm ▸ hd) hop buf hkeep
              refine hwrite.trans ⟨fun htail d b hdb o hint hlt => ?_, fun htail o hint hlt => ?_⟩
              · obtain ⟨rfl, rfl⟩ := Prod.mk.inj (Option.some.inj hdb)
                rw [← hsame.block]
                exact htail o hint hlt
              · rw [hsame.block]
                exact htail x.1 x.2 rfl o hint hlt
  | free diskId blockNo =>
      obtain ⟨l, hl⟩ := s.free_st diskId blockNo
      rw [storeStep, hl]
      exact ⟨fun _ => trivial, fun _ => h.same ⟨rfl, rfl, rfl, rfl⟩ rfl⟩

/-- **The equations of a run.**  For `k ≥ 2` data disks and groups of `f` blocks, `1 ≤ f < n`, from
any store that meets the equations: they hold after every operation of a run of writes of at most a
block and frees exactly when every write keeps the bytes behind the last whole integer of the block
that is chosen for it.  With a single data disk the choice would divide by zero. -/
theorem Coding4SrcRS.encode_run_iff (hJ : J.Multiplies) (hmatrix : ∀ i, matrix i < 256)
    (_hk : 2 ≤ k) (hkn : k ≤ n) (hf : 1 ≤ f) (hfn : f < n) {st : NcfsState}
    (htotal : st.diskTotalNum = n) (hdata : st.dataDiskNum = k) (hblock : st.diskBlockSize = bs)
    (hlist : ∀ x ∈ st.spaceList, x.1 < k) (h : SrcEquations matrix f st) {ops : List StoreOp}
    (hops : ∀ op ∈ ops, op.Sized fun size => size ≤ bs) :
    Machine.Always (storeStep (Coding4SrcRS.encode J matrix f))
    (fun s => SrcEquations matrix f s.st)
        ⟨st, []⟩ ops ↔
      Machine.AllSteps (storeStep (Coding4SrcRS.encode J matrix f)) (fun s op => op.KeepsTail f s)
        ⟨st, []⟩ ops := by
  have hplaced : Placed n k bs (fun d _ => d < k) ⟨st, []⟩ :=
    ⟨htotal, hdata, hblock, hlist, by simp⟩
  exact Machine.always_iff_allSteps (I := Placed n k bs fun d _ => d < k)
    (P := fun s => SrcEquations matrix f s.st)
    (fun s op hop hs => ((src_places J matrix f).step hs trivial hop).1)
    (fun s op hop hs hP => hP.step_iff hJ hmatrix hf hfn hkn hs hop) hplaced h hops

/-- Three disks, two of them for data, and groups of two blocks: a write, a free and a write of one
byte. -/
theorem Coding4SrcRS.encode_run_iff_three :
    let st := NcfsState.blank 3 2 4 fourBytes_pos 8
    let ops : List StoreOp := [.encode (fun _ => Byte.ofNat 5) 4, .free 0 0,
      .encode (fun _ => Byte.ofNat 5) 1]
    Machine.Always (storeStep (Coding4SrcRS.encode .sample (fun _ => 1) 2))
        (fun s => SrcEquations (fun _ => 1) 2 s.st) ⟨st, []⟩ ops ↔
      Machine.AllSteps (storeStep (Coding4SrcRS.encode .sample (fun _ => 1) 2))
        (fun s op => op.KeepsTail 2 s) ⟨st, []⟩ ops := by
  intro st ops
  refine @Coding4SrcRS.encode_run_iff .sample (fun _ => 1) 3 2 2 4 Jerasure.sample_multiplies
    (fun _ => by decide) le_rfl (by decide) (by decide) (by decide) st rfl rfl rfl
    (fun _ hx => by cases hx) (.of_zero (by decide) fun _ _ _ => rfl) ops fun op hop => ?_
  simp only [ops, List.mem_cons, List.not_mem_nil, or_false] at hop
  rcases hop with rfl | rfl | rfl
  · exact le_rfl
  · trivial
  · exact (by decide : 1 ≤ 4)

/-- A write of one byte to empty disks is in the data block alone. -/
theorem Coding4SrcRS.encode_run_short :
    ¬ Machine.Always (storeStep (Coding4SrcRS.encode .sample (fun _ => 1) 2))
      (fun s => SrcEquations (fun _ => 1) 2 s.st) ⟨NcfsState.blank 3 2 4 fourBytes_pos 8, []⟩
      [.encode (fun _ => Byte.ofNat 5) 1] := by
  rintro ⟨hfirst, hlast⟩
  have hplaced : Placed 3 2 4 (fun d _ => d < 2) ⟨NcfsState.blank 3 2 4 fourBytes_pos 8, []⟩ :=
    ⟨rfl, rfl, rfl, List.forall_mem_nil _, List.forall_mem_nil _⟩
  have hone : StoreOp.Sized (fun size => size ≤ 4) (.encode (fun _ => Byte.ofNat 5) 1) :=
    show 1 ≤ 4 by decide
  have hkeep := (hfirst.step_iff Jerasure.sample_multiplies (fun _ => by decide) (by decide)
    (by decide) (by decide) hplaced hone).1 hlast
  exact absurd (hkeep 0 0 (by decide) 0 (by decide) (by decide)) (by decide)

end Runs

end Ncfs
