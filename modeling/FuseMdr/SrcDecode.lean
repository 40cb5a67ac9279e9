/-
Repairing a disk under simple regenerating codes.

To read a block of a failed disk, `decode` goes round the group of the block, from each block to the
one further down on the disk before, and adds up what it finds; only when one of these disks has
failed too does it fall back on Reed-Solomon decoding.  `recover_conventional` goes back through a
group from its SRC block to compute that block anew.

Main definitions:

* `Ncfs.srcNext`, `Ncfs.srcChain` — the walk of `decode`;
* `Ncfs.srcBack`, `Ncfs.srcBackChain` — the walk of `recover_conventional`;
* `Ncfs.Coding4SrcRS.decode`, `Ncfs.Coding4SrcRS.recoverConventional` — the functions;
* `Ncfs.SrcMember` — the blocks that `encode` folds into an SRC block, and that block itself;
* `Ncfs.SrcRepair` — what is expected of the repair of a disk.

Main results:

* `Ncfs.srcChain_eq`, `Ncfs.srcBackChain_eq` — the walks go round a staircase;
* `Ncfs.mem_srcChain` — the walk of `decode` visits the other members of a group;
* `Ncfs.Coding4SrcRS.decode_lost`, `Ncfs.Coding4SrcRS.recoverConventional_lost` — what is returned
  and rebuilt;
* `Ncfs.Coding4SrcRS.encode_run_repair` — the repair of a disk after a run of writes and frees.
-/
import FuseMdr.SrcEncode

set_option relaxedAutoImplicit false
set_option autoImplicit false

namespace Ncfs

/-! ### The functions -/

/-- The step of the walk of `decode`: the next block on the disk before, within the group. -/
def srcNext (n f : ℕ) (place : ℕ × ℕ) : ℕ × ℕ :=
  let srcDiskToRead := (place.1 + n - 1) % n
  let srcBlockToRead := place.2 + 1
  if srcBlockToRead % (f + 1) = 0 then ((srcDiskToRead + f + 1) % n, srcBlockToRead - (f + 1))
  else (srcDiskToRead, srcBlockToRead)

/-- The places that `decode` visits from that of the lost block on. -/
def srcChain (n f : ℕ) (place : ℕ × ℕ) : List (ℕ × ℕ) :=
  List.iterate (srcNext n f) (srcNext n f place) f

/-- The step of the walk of `recover_conventional`: the block before on the next disk. -/
def srcBack (n : ℕ) (place : ℕ × ℕ) : ℕ × ℕ := ((place.1 + 1) % n, place.2 - 1)

/-- The places that `recover_conventional` visits from that of the lost SRC block on. -/
def srcBackChain (n f : ℕ) (place : ℕ × ℕ) : List (ℕ × ℕ) :=
  List.iterate (srcBack n) (srcBack n place) f

/-- The loops that read the blocks at some places and add them up. -/
def srcSum (st : NcfsState) (size : ℕ) (buf : Buf) (places : List (ℕ × ℕ)) : Buf :=
  places.foldl (fun buf place =>
    xorBuf (intBytes size) buf
      (readDisk st place.1 (fun _ => 0) size (place.2 * st.diskBlockSize))) buf

/-- `Coding4SrcRS::decode`. -/
def Coding4SrcRS.decode (J : Jerasure) (matrix : ℕ → ℕ) (f : ℕ) (st : NcfsState) (diskId : ℕ)
    (buf : Buf) (size offset : ℕ) : Except CodingError Buf :=
  let srcOffset := offset / st.diskBlockSize / f * st.diskBlockSize
  if st.diskStatus diskId = 0 then .ok (readDisk st diskId buf size (offset + srcOffset))
  else
    let blockNo := offset / st.diskBlockSize
    let blockOffset := offset - blockNo * st.diskBlockSize
    let chain := srcChain st.diskTotalNum f (diskId, srcBlockNo f blockNo)
    if ∀ place ∈ chain, st.diskStatus place.1 = 0 then
      .ok (copyBufAt 0 size buf (srcSum st size (fun _ => 0) chain))
    else do
      let k := st.dataDiskNum
      let location := blockNo * st.diskBlockSize + blockOffset + srcOffset
      let erased := fun i => if st.diskStatus i = 1 then 1 else 0
      let (decodingMatrix, ids) ← J.makeDecodingMatrix k (st.diskTotalNum - k) matrix erased
      (List.range k).foldlM (rsAddSurvivor J st decodingMatrix ids diskId size location)
        (memset0 buf size)

/-- The part of the loop of `recover_conventional` that computes an SRC block anew, with the buffer
that it leaves. -/
def srcRecoverCode (f failedDiskId : ℕ) (st : NcfsState) (i : ℕ) : Buf × NcfsState :=
  let buf : Buf := memset0 (fun _ => 0) st.diskBlockSize
  if (i + 1) % f = 0 then
    let srcBlock := i + (i + 1) / f
    let buf := srcSum st st.diskBlockSize buf
      (srcBackChain st.diskTotalNum f (failedDiskId, srcBlock))
    (buf, writeDisk st failedDiskId buf st.diskBlockSize (srcBlock * st.diskBlockSize))
  else (buf, st)

/-- One pass of the loop of `recover_conventional`. -/
def srcRecoverBlock (J : Jerasure) (matrix : ℕ → ℕ) (f failedDiskId : ℕ) (st : NcfsState) (i : ℕ) :
    Except CodingError NcfsState := do
  let (buf, st) := srcRecoverCode f failedDiskId st i
  let offset := i * st.diskBlockSize
  let srcOffset := offset / st.diskBlockSize / f * st.diskBlockSize
  let buf ← Coding4SrcRS.decode J matrix f st failedDiskId buf st.diskBlockSize offset
  .ok (writeDisk st failedDiskId buf st.diskBlockSize (offset + srcOffset))

/-- `Coding4SrcRS::recover_conventional`, for a disk of `recoverSize` blocks. -/
def Coding4SrcRS.recoverConventional (J : Jerasure) (matrix : ℕ → ℕ) (f : ℕ) (st : NcfsState)
    (failedDiskId recoverSize : ℕ) : Except CodingError NcfsState :=
  (List.range recoverSize).foldlM (srcRecoverBlock J matrix f failedDiskId) st

/-! ### The walks -/

section Walks

variable {n f D s t : ℕ}

open Staircase

/-- A step of the walk of `decode` goes round the staircase. -/
theorem srcNext_pos (hfn : f < n) (ht : t ≤ f) :
    srcNext n f (pos n f D s t) = pos n f D s ((t + 1) % (f + 1)) := by
  have hn : 0 < n := by omega
  rcases Nat.lt_or_eq_of_le ht with hlt | rfl
  · have hrow : ((pos n f D s t).2 + 1) % (f + 1) = t + 1 := pos_row_mod (s := s) (t := t + 1) hlt
    simp only [srcNext, hrow, pos_fst_succ hn hlt]
    rw [if_neg (by omega), Nat.mod_eq_of_lt (by omega)]
    rfl
  · have hrow : (pos n t D s t).2 + 1 = (t + 1) * (s + 1) := by
      rw [Nat.mul_succ]
      exact Nat.add_assoc ..
    simp only [srcNext, hrow, Nat.mul_mod_right, pos_fst_last hn]
    rw [if_pos trivial, Nat.mod_self]
    refine Prod.ext rfl ?_
    change (t + 1) * (s + 1) - (t + 1) = (t + 1) * s + 0
    rw [Nat.mul_succ, Nat.add_sub_cancel]
    rfl

theorem iterate_srcNext_pos (hfn : f < n) (ht : t ≤ f) (i : ℕ) :
    (srcNext n f)^[i] (pos n f D s t) = pos n f D s ((t + i) % (f + 1)) := by
  induction i with
  | zero => rw [Nat.add_zero, Nat.mod_eq_of_lt (by omega), Function.iterate_zero_apply]
  | succ i ih =>
      have hmod : (t + i) % (f + 1) < f + 1 := Nat.mod_lt _ (Nat.succ_pos f)
      rw [Function.iterate_succ_apply', ih, srcNext_pos hfn (by omega), Nat.mod_add_mod,
        Nat.add_assoc]

/-- The walk of `decode` visits all other steps of the staircase. -/
theorem srcChain_eq (hfn : f < n) (ht : t ≤ f) :
    srcChain n f (pos n f D s t) = (others (f + 1) t).map (pos n f D s) := by
  rw [srcChain, srcNext_pos hfn ht, ← List.range_map_iterate, others, List.map_map,
    Nat.add_sub_cancel]
  refine List.map_congr_left fun i _ => ?_
  have hmod : (t + 1) % (f + 1) < f + 1 := Nat.mod_lt _ (Nat.succ_pos f)
  rw [iterate_srcNext_pos hfn (by omega), Nat.mod_add_mod]
  rfl

theorem srcBack_pos (ht : t < f) :
    srcBack n (pos n f D s (t + 1)) = pos n f D s t := by
  refine Prod.ext ?_ rfl
  change ((D + f - (t + 1)) % n + 1) % n = (D + f - t) % n
  rw [Nat.mod_add_mod]
  congr 1
  omega

theorem iterate_srcBack_pos {i : ℕ} (hi : i ≤ f) :
    (srcBack n)^[i] (pos n f D s f) = pos n f D s (f - i) := by
  induction i with
  | zero => rfl
  | succ i ih =>
      rw [Function.iterate_succ_apply', ih (by omega), show f - i = f - (i + 1) + 1 by omega,
        srcBack_pos (by omega)]

/-- The walk of `recover_conventional` visits the steps before the last one, from the last of them
on. -/
theorem srcBackChain_eq :
    srcBackChain n f (pos n f D s f) = (List.range f).map fun i => pos n f D s (f - 1 - i) := by
  rw [srcBackChain, ← List.range_map_iterate]
  refine List.map_congr_left fun i hi => ?_
  have hi := List.mem_range.1 hi
  rw [← Function.iterate_succ_apply, iterate_srcBack_pos hi]
  congr 1
  omega

end Walks

/-! ### The members of a group -/

/-- An SRC block and the blocks that `encode` folds into it. -/
def SrcMember (n f : ℕ) (code place : ℕ × ℕ) : Prop :=
  place = code ∨ ∃ d < n, ∃ b, srcCodePlace n f d b = code ∧ place = (d, srcBlockNo f b)

section Members

variable {n f a b : ℕ}

open Staircase

/-- The members of a group are the steps of its staircase. -/
theorem srcMember_iff (hf : 0 < f) (hfn : f < n) {place : ℕ × ℕ} :
    SrcMember n f (srcCodePlace n f a b) place ↔
      ∃ t ≤ f, place = pos n f (srcCodePlace n f a b).1 (b / f) t := by
  have hcode := pos_srcCodePlace (d := a) (b := b) hfn
  constructor
  · rintro (rfl | ⟨d, hd, c, hsame, rfl⟩)
    · exact ⟨f, le_rfl, hcode.symm⟩
    · have hrow : c / f = b / f := by
        have hsnd : (f + 1) * (c / f + 1) - 1 = (f + 1) * (b / f + 1) - 1 := congrArg Prod.snd hsame
        have hmul : (f + 1) * (c / f + 1) = (f + 1) * (b / f + 1) := by
          have hpos : ∀ x, 0 < (f + 1) * (x + 1) := fun x => Nat.mul_pos (Nat.succ_pos f)
            (Nat.succ_pos x)
          have := hpos (c / f)
          have := hpos (b / f)
          omega
        have := Nat.eq_of_mul_eq_mul_left (Nat.succ_pos f) hmul
        omega
      refine ⟨c % f, (Nat.mod_lt c hf).le, ?_⟩
      rw [← hsame, ← hrow, pos_srcBlockNo hf hfn hd]
  · rintro ⟨t, ht, rfl⟩
    rcases Nat.lt_or_eq_of_le ht with hlt | rfl
    · right
      have hdiv : (f * (b / f) + t) / f = b / f := by
        rw [Nat.mul_add_div hf, Nat.div_eq_of_lt hlt, Nat.add_zero]
      have hmod : (f * (b / f) + t) % f = t := by
        rw [Nat.mul_add_mod, Nat.mod_eq_of_lt hlt]
      refine ⟨(pos n f (srcCodePlace n f a b).1 (b / f) t).1, pos_fst_lt hfn,
        f * (b / f) + t, ?_, ?_⟩
      · rw [srcCodePlace, srcCodePlace, hdiv, hmod]
        exact Prod.ext (column_pos hfn (column_lt hfn) ht) rfl
      · rw [srcBlockNo_eq, hdiv, hmod]
        rfl
    · exact .inl hcode

/-- The walk of `decode` visits the other members of the group of the lost block. -/
theorem mem_srcChain (hf : 0 < f) (hfn : f < n) (ha : a < n) {place : ℕ × ℕ} :
    place ∈ srcChain n f (a, srcBlockNo f b) ↔
      SrcMember n f (srcCodePlace n f a b) place ∧ place ≠ (a, srcBlockNo f b) := by
  have hmod := Nat.mod_lt b hf
  have hcol : (srcCodePlace n f a b).1 < n := column_lt hfn
  rw [srcMember_iff hf hfn, ← pos_srcBlockNo hf hfn ha, srcChain_eq hfn hmod.le, List.mem_map]
  constructor
  · rintro ⟨t, ht, rfl⟩
    obtain ⟨hlt, hne⟩ := (mem_others (by omega)).1 ht
    exact ⟨⟨t, by omega, rfl⟩, fun h => hne (pos_inj hcol hcol (by omega) hmod.le h).2.2⟩
  · rintro ⟨⟨t, ht, rfl⟩, hne⟩
    exact ⟨t, (mem_others (by omega)).2 ⟨by omega, fun h => hne (by rw [h])⟩, rfl⟩

/-- Its disks are all different. -/
theorem nodup_srcChain (hf : 0 < f) (hfn : f < n) (ha : a < n) :
    ((srcChain n f (a, srcBlockNo f b)).map Prod.fst).Nodup := by
  have hmod := Nat.mod_lt b hf
  rw [← pos_srcBlockNo hf hfn ha, srcChain_eq hfn hmod.le, List.map_map]
  refine (nodup_others (by omega)).map_on fun t ht t' ht' h => ?_
  obtain ⟨hlt, -⟩ := (mem_others (by omega)).1 ht
  obtain ⟨hlt', -⟩ := (mem_others (by omega)).1 ht'
  exact pos_fst_inj hfn (by omega) (by omega) h

/-- And none of them is the disk of the lost block. -/
theorem srcChain_disk (hf : 0 < f) (hfn : f < n) (ha : a < n) {place : ℕ × ℕ}
    (hplace : place ∈ srcChain n f (a, srcBlockNo f b)) : place.1 < n ∧ place.1 ≠ a := by
  have hmod := Nat.mod_lt b hf
  have hself := pos_srcBlockNo (b := b) hf hfn ha
  rw [← hself, srcChain_eq hfn hmod.le, List.mem_map] at hplace
  obtain ⟨t, ht, rfl⟩ := hplace
  obtain ⟨hlt, hne⟩ := (mem_others (by omega)).1 ht
  refine ⟨pos_fst_lt hfn, fun h => hne ?_⟩
  exact pos_fst_inj (s := b / f) hfn (by omega) hmod.le (h.trans (congrArg Prod.fst hself).symm)

end Members

/-! ### Repairing a disk -/

/-- A store that has lost disk `a`: the other disks work, with the contents that they had. -/
structure LostDisk (a : ℕ) (st lost : NcfsState) : Prop where
  /-- `disk_total_num`. -/
  total_eq : lost.diskTotalNum = st.diskTotalNum
  /-- `disk_block_size`. -/
  block_eq : lost.diskBlockSize = st.diskBlockSize
  /-- The disk has failed. -/
  failed : lost.diskStatus a ≠ 0
  /-- The others have not. -/
  works : ∀ d ≠ a, lost.diskStatus d = 0
  /-- Their contents. -/
  disk_eq : ∀ d ≠ a, lost.disk d = st.disk d

theorem LostDisk.fail (a : ℕ) (st : NcfsState) (junk : ℕ → ℕ → Byte) :
    LostDisk a st (st.fail {a} junk) where
  total_eq := rfl
  block_eq := rfl
  failed := by simp [fail_diskStatus]
  works d hd := by simp [fail_diskStatus, hd]
  disk_eq d hd := by simp [NcfsState.fail, hd]

/-- Writing to the lost disk. -/
theorem LostDisk.writeDisk {a : ℕ} {st lost : NcfsState} (h : LostDisk a st lost) (buf : Buf)
    (size offset : ℕ) : LostDisk a st (writeDisk lost a buf size offset) where
  total_eq := h.total_eq
  block_eq := h.block_eq
  failed := h.failed
  works := h.works
  disk_eq d hd := by
    funext x
    rw [← h.disk_eq d hd]
    exact if_neg fun hx => hd hx.1

theorem LostDisk.block {a : ℕ} {st lost : NcfsState} (h : LostDisk a st lost) {d : ℕ} (hd : d ≠ a)
    (b o : ℕ) : lost.block d b o = st.block d b o := by
  rw [NcfsState.block, NcfsState.block, h.disk_eq d hd, h.block_eq]

/-- What the loops that add up blocks compute. -/
theorem srcSum_of_lt {st : NcfsState} (hint : st.diskBlockSize % sizeofInt = 0) {o : ℕ}
    (ho : o < st.diskBlockSize) (places : List (ℕ × ℕ)) (buf : Buf) :
    srcSum st st.diskBlockSize buf places o =
      buf o + (places.map fun place => st.block place.1 place.2 o).sum := by
  have hread : ∀ place : ℕ × ℕ, readDisk st place.1 (fun _ => 0) st.diskBlockSize
      (place.2 * st.diskBlockSize) o = st.block place.1 place.2 o :=
      fun _ => readDisk_block _ _ _ _ _ ho
  rw [srcSum, foldl_xorBuf, intBytes_eq hint, xorBuf_of_lt _ _ ho]
  simp only [hread]

section Repair

variable {f a : ℕ} {st lost : NcfsState}

open Staircase

/-- The blocks of the walk add up to the lost block. -/
theorem SrcGroups.sum_srcChain (h : SrcGroups f st) (hf : 0 < f) (hfn : f < st.diskTotalNum)
    (ha : a < st.diskTotalNum) (b : ℕ) {o : ℕ} (ho : o < st.diskBlockSize) :
    ((srcChain st.diskTotalNum f (a, srcBlockNo f b)).map fun place =>
      st.block place.1 place.2 o).sum = st.block a (srcBlockNo f b) o := by
  have hmod := Nat.mod_lt b hf
  have hself := pos_srcBlockNo (b := b) hf hfn ha
  have hsum := sum_others (t := b % f) (by omega)
    (h (srcCodePlace st.diskTotalNum f a b).1 (column_lt hfn) (b / f) o ho)
  rw [srcStep, hself, CharTwo.neg_eq] at hsum
  rw [← hself, srcChain_eq hfn hmod.le, List.map_map]
  exact hsum

/-- A lost block is returned. -/
theorem Coding4SrcRS.decode_lost (J : Jerasure) (matrix : ℕ → ℕ) (h : SrcGroups f st) (hf : 0 < f)
    (hfn : f < st.diskTotalNum) (hint : st.diskBlockSize % sizeofInt = 0) (ha : a < st.diskTotalNum)
    (hlost : LostDisk a st lost) (b : ℕ) (buf : Buf) :
    ∃ out, decode J matrix f lost a buf st.diskBlockSize (b * st.diskBlockSize) = .ok out ∧
      ∀ o < st.diskBlockSize, out o = st.block a (srcBlockNo f b) o := by
  have hchain := fun place (hplace : place ∈ srcChain st.diskTotalNum f (a, srcBlockNo f b)) =>
    (srcChain_disk hf hfn ha hplace).2
  have hdiv : b * st.diskBlockSize / st.diskBlockSize = b :=
    Nat.mul_div_cancel b st.diskBlockSize_pos
  rw [decode, if_neg hlost.failed]
  simp only [hlost.block_eq, hlost.total_eq, hdiv]
  rw [if_pos fun place hplace => hlost.works place.1 (hchain place hplace)]
  refine ⟨_, rfl, fun o ho => ?_⟩
  rw [copyBufAt, if_pos (by omega), Nat.sub_zero, ← hlost.block_eq,
    srcSum_of_lt (hlost.block_eq.symm ▸ hint) (hlost.block_eq.symm ▸ ho), zero_add,
    ← h.sum_srcChain hf hfn ha b ho]
  congr 1
  exact List.map_congr_left fun place hplace => hlost.block (hchain place hplace) _ _

/-- The blocks of a group add up to its SRC block. -/
theorem SrcGroups.sum_srcBackChain (h : SrcGroups f st)
    (ha : a < st.diskTotalNum) (s : ℕ) {o : ℕ} (ho : o < st.diskBlockSize) :
    ((srcBackChain st.diskTotalNum f (a, (f + 1) * s + f)).map fun place =>
      st.block place.1 place.2 o).sum = st.block a ((f + 1) * s + f) o := by
  have hself := pos_last (f := f) (s := s) ha
  have hsum := h a ha s o ho
  rw [Finset.sum_range_succ, srcStep, hself] at hsum
  rw [← hself, srcBackChain_eq, List.map_map, ← List.sum_toFinset _ List.nodup_range,
    List.toFinset_range]
  have hreflect := Finset.sum_range_reflect (fun t => srcStep st.diskTotalNum f st a s t o) f
  exact hreflect.trans (CharTwo.add_eq_zero.1 hsum)

theorem srcBackChain_disk (hfn : f < st.diskTotalNum) (ha : a < st.diskTotalNum) {s : ℕ}
    {place : ℕ × ℕ} (hplace : place ∈ srcBackChain st.diskTotalNum f (a, (f + 1) * s + f)) :
    place.1 ≠ a := by
  have hself := pos_last (f := f) (s := s) ha
  rw [← hself, srcBackChain_eq, List.mem_map] at hplace
  obtain ⟨i, hi, rfl⟩ := hplace
  have hi := List.mem_range.1 hi
  intro heq
  have := pos_fst_inj (s := s) hfn (show f - 1 - i ≤ f by omega) le_rfl
    (heq.trans (congrArg Prod.fst hself).symm)
  omega

/-- Where the SRC block after block `i` is. -/
theorem srcCodeBlock_eq {i : ℕ} (hf : 0 < f) (hi : (i + 1) % f = 0) :
    i + (i + 1) / f = (f + 1) * (i / f) + f := by
  obtain ⟨q, hq⟩ := Nat.dvd_of_mod_eq_zero hi
  obtain ⟨s, rfl⟩ : ∃ s, q = s + 1 := ⟨q - 1, by
    cases q with
    | zero => simp at hq
    | succ q => rfl⟩
  have hdiv : (i + 1) / f = s + 1 := by rw [hq, Nat.mul_div_cancel_left _ hf]
  rw [Nat.mul_succ] at hq
  have hdiv' : i / f = s := by
    rw [show i = f * s + (f - 1) by omega, Nat.mul_add_div hf, Nat.div_eq_of_lt (by omega),
      Nat.add_zero]
  rw [hdiv, hdiv', Nat.add_mul, Nat.one_mul]
  omega

/-- The SRC block that one pass of `recover_conventional` computes is the one that was lost. -/
theorem srcRecoverCode_lost (h : SrcGroups f st) (hf : 0 < f) (hfn : f < st.diskTotalNum)
    (hint : st.diskBlockSize % sizeofInt = 0) (ha : a < st.diskTotalNum)
    (hlost : LostDisk a st lost) (i : ℕ) :
    LostDisk a st (srcRecoverCode f a lost i).2 ∧ ∀ y, ∀ o < st.diskBlockSize,
      (srcRecoverCode f a lost i).2.block a y o =
        if (i + 1) % f = 0 ∧ y = i + (i + 1) / f then st.block a y o else lost.block a y o := by
  rw [srcRecoverCode]
  by_cases hi : (i + 1) % f = 0
  · simp only [if_pos hi]
    refine ⟨hlost.writeDisk _ _ _, fun y o ho => ?_⟩
    have hlt : o < lost.diskBlockSize := hlost.block_eq.symm ▸ ho
    rw [block_writeDisk lost a _ _ _ le_rfl hlt]
    by_cases hy : y = i + (i + 1) / f
    · rw [if_pos ⟨rfl, hy, hlt⟩, if_pos ⟨hi, hy⟩, srcSum_of_lt (hlost.block_eq.symm ▸ hint) hlt,
        memset0_of_lt hlt, zero_add, hlost.total_eq, hy, srcCodeBlock_eq hf hi,
        ← h.sum_srcBackChain ha (i / f) ho]
      congr 1
      exact List.map_congr_left fun place hplace => hlost.block
        (srcBackChain_disk hfn ha hplace) _ _
    · rw [if_neg fun h => hy h.2.1, if_neg fun h => hy h.2]
  · simp only [if_neg hi]
    exact ⟨hlost, fun y o _ => (if_neg fun h => hi h.1).symm⟩

/-- One pass of `recover_conventional` rebuilds a block, and the SRC block after the last block of a
group. -/
theorem srcRecoverBlock_lost (J : Jerasure) (matrix : ℕ → ℕ) (h : SrcGroups f st) (hf : 0 < f)
    (hfn : f < st.diskTotalNum) (hint : st.diskBlockSize % sizeofInt = 0) (ha : a < st.diskTotalNum)
    (hlost : LostDisk a st lost) (i : ℕ) :
    ∃ lost', srcRecoverBlock J matrix f a lost i = .ok lost' ∧ LostDisk a st lost' ∧
      ∀ y, ∀ o < st.diskBlockSize, lost'.block a y o =
        if y = srcBlockNo f i ∨ (i + 1) % f = 0 ∧ y = i + (i + 1) / f then st.block a y o
        else lost.block a y o := by
  obtain ⟨hlost', hblock⟩ := srcRecoverCode_lost h hf hfn hint ha hlost i
  obtain ⟨out, hout, hbytes⟩ := Coding4SrcRS.decode_lost J matrix h hf hfn hint ha hlost' i
    (srcRecoverCode f a lost i).1
  have hdiv : i * st.diskBlockSize / st.diskBlockSize = i :=
    Nat.mul_div_cancel i st.diskBlockSize_pos
  have hoffset : i * st.diskBlockSize + i / f * st.diskBlockSize = srcBlockNo f i *
      st.diskBlockSize := by
    rw [srcBlockNo, Nat.add_mul]
  refine ⟨writeDisk (srcRecoverCode f a lost i).2 a out st.diskBlockSize
    (srcBlockNo f i * st.diskBlockSize), ?_, hlost'.writeDisk _ _ _, fun y o ho => ?_⟩
  · simp only [srcRecoverBlock, hlost'.block_eq, hdiv, hout, Loops.ok_bind, hoffset]
  · have hlt : o < (srcRecoverCode f a lost i).2.diskBlockSize := hlost'.block_eq.symm ▸ ho
    have hwrite := block_writeDisk (srcRecoverCode f a lost i).2 a
      (srcBlockNo f i) st.diskBlockSize out hlost'.block_eq.symm.le (x := a) (y := y) hlt
    rw [hlost'.block_eq] at hwrite
    rw [hwrite, hblock y o ho]
    by_cases hy : y = srcBlockNo f i
    · rw [if_pos ⟨rfl, hy, ho⟩, if_pos (.inl hy), hbytes o ho, hy]
    · rw [if_neg fun h => hy h.2.1]
      exact if_congr ⟨.inr, fun h => h.resolve_left hy⟩ rfl rfl

/-- `recover_conventional` rebuilds all blocks and SRC blocks of a disk. -/
theorem Coding4SrcRS.recoverConventional_lost (J : Jerasure) (matrix : ℕ → ℕ) (h : SrcGroups f st)
    (hf : 0 < f) (hfn : f < st.diskTotalNum) (hint : st.diskBlockSize % sizeofInt = 0)
    (ha : a < st.diskTotalNum) (hlost : LostDisk a st lost) (recoverSize : ℕ) :
    ∃ rebuilt, recoverConventional J matrix f lost a recoverSize = .ok rebuilt ∧
      LostDisk a st rebuilt ∧ ∀ i < recoverSize, ∀ o < st.diskBlockSize,
        rebuilt.block a (srcBlockNo f i) o = st.block a (srcBlockNo f i) o ∧
        ((i + 1) % f = 0 → rebuilt.block a (i + (i + 1) / f) o = st.block a
          (i + (i + 1) / f) o) := by
  induction recoverSize with
  | zero => exact ⟨lost, rfl, hlost, fun i hi => absurd hi (Nat.not_lt_zero i)⟩
  | succ size ih =>
      obtain ⟨rebuilt, hok, hrebuilt, hblocks⟩ := ih
      obtain ⟨rebuilt', hok', hrebuilt', hblock⟩ :=
        srcRecoverBlock_lost J matrix h hf hfn hint ha hrebuilt size
      refine ⟨rebuilt', ?_, hrebuilt', fun i hi o ho => ?_⟩
      · rw [recoverConventional] at hok ⊢
        rw [List.range_succ, List.foldlM_append, hok, Loops.ok_bind, List.foldlM_cons, hok']
        rfl
      · rw [hblock _ o ho, hblock _ o ho]
        rcases Nat.lt_succ_iff_lt_or_eq.1 hi with hlt | rfl
        · obtain ⟨hdata, hcode⟩ := hblocks i hlt o ho
          refine ⟨?_, fun hmod => ?_⟩
          · rw [hdata, ite_self]
          · rw [hcode hmod, ite_self]
        · exact ⟨if_pos (.inl rfl), fun hmod => if_pos (.inr ⟨hmod, rfl⟩)⟩

end Repair

/-! ### Runs -/

/-- What the walk of `decode` is to find for block `b` of disk `a`. -/
structure SrcRepair (n f bs : ℕ) (st : NcfsState) (a b : ℕ) : Prop where
  /-- It visits `f` places, -/
  length_eq : (srcChain n f (a, srcBlockNo f b)).length = f
  /-- all of them on different disks, -/
  disks : ((srcChain n f (a, srcBlockNo f b)).map Prod.fst).Nodup
  /-- which have not failed. -/
  works : ∀ place ∈ srcChain n f (a, srcBlockNo f b), place.1 < n ∧ place.1 ≠ a
  /-- The places are those of the other members of the group into which `encode` folds the block. -/
  members : ∀ place, place ∈ srcChain n f (a, srcBlockNo f b) ↔
    SrcMember n f (srcCodePlace n f a b) place ∧ place ≠ (a, srcBlockNo f b)
  /-- Together they are the block. -/
  sum_eq : ∀ o < bs, ((srcChain n f (a, srcBlockNo f b)).map fun place =>
    st.block place.1 place.2 o).sum = st.block a (srcBlockNo f b) o

theorem SrcGroups.repair {f a : ℕ} {st : NcfsState} (h : SrcGroups f st) (hf : 0 < f)
    (hfn : f < st.diskTotalNum) (ha : a < st.diskTotalNum) (b : ℕ) :
    SrcRepair st.diskTotalNum f st.diskBlockSize st a b where
  length_eq := List.length_iterate _ _ _
  disks := nodup_srcChain hf hfn ha
  works _ hplace := srcChain_disk hf hfn ha hplace
  members _ := mem_srcChain hf hfn ha
  sum_eq _ ho := h.sum_srcChain hf hfn ha b ho

/-- **The repair of a disk.**  For `1 ≤ f < n`, after every run of writes of whole blocks and frees
from zero disks, the walk of `decode` finds for each block of any single failed disk the other
members of its group, and `decode` returns the block; `recover_conventional` rebuilds all blocks of
the disk and all its SRC blocks.  Multiplication and the matrix do not matter for it. -/
theorem Coding4SrcRS.encode_run_repair (J : Jerasure) (matrix : ℕ → ℕ) {n k f bs : ℕ} (hf : 1 ≤ f)
    (hfn : f < n) (hk : k ≤ n) (hint : bs % sizeofInt = 0) {st : NcfsState}
    (htotal : st.diskTotalNum = n)
    (hdata : st.dataDiskNum = k) (hblock : st.diskBlockSize = bs) (hlist : st.spaceList = [])
    (hzero : ∀ d < n, ∀ x, st.disk d x = 0) {ops : List StoreOp}
    (hops : ∀ op ∈ ops, op.Sized fun size => size = bs) {a : ℕ} (ha : a < n) (junk : ℕ → ℕ → Byte) :
    let s := Machine.run (storeStep (Coding4SrcRS.encode J matrix f)) ⟨st, []⟩ ops
    (∀ b, SrcRepair n f bs s.st a b ∧
      ∀ buf, ∃ out, Coding4SrcRS.decode J matrix f (s.st.fail {a} junk) a buf bs
        (b * bs) = .ok out ∧ ∀ o < bs, out o = s.st.block a (srcBlockNo f b) o) ∧
    ∀ recoverSize, ∃ rebuilt,
      Coding4SrcRS.recoverConventional J matrix f (s.st.fail {a} junk) a recoverSize = .ok rebuilt ∧
        ∀ i < recoverSize, ∀ o < bs,
          rebuilt.block a (srcBlockNo f i) o = s.st.block a (srcBlockNo f i) o ∧
          ((i + 1) % f = 0 → rebuilt.block a (i + (i + 1) / f) o = s.st.block a
            (i + (i + 1) / f) o) := by
  intro s
  have hplaced : Placed n k bs (fun d _ => d < k) ⟨st, []⟩ :=
    ⟨htotal, hdata, hblock, by simp [hlist], by simp⟩
  have hgroups : SrcGroups f st := .of_zero (htotal.symm ▸ hfn) (htotal.symm ▸ hzero)
  obtain ⟨hs, h⟩ : Placed n k bs (fun d _ => d < k) s ∧ SrcGroups f s.st :=
    (src_keeps J matrix hf hfn hk hint).run hplaced hgroups hops
  clear_value s
  have htotal := hs.total_eq
  have hblock := hs.block_eq
  subst htotal hblock
  have hlost := LostDisk.fail a s.st junk
  refine ⟨fun b => ⟨h.repair hf hfn ha b, fun buf => ?_⟩, fun recoverSize => ?_⟩
  · exact Coding4SrcRS.decode_lost J matrix h hf hfn hint ha hlost b buf
  · obtain ⟨rebuilt, hok, -, hblocks⟩ :=
      Coding4SrcRS.recoverConventional_lost J matrix h hf hfn hint ha hlost recoverSize
    exact ⟨rebuilt, hok, hblocks⟩

/-- Three disks, two of them with data, and groups of two: a write, a free and a write. -/
theorem Coding4SrcRS.encode_run_repair_three :
    let st := NcfsState.blank 3 2 4 (by decide) 8
    let ops : List StoreOp := [.encode (fun _ => Byte.ofNat 5) 4, .free 0 0,
      .encode (fun _ => Byte.ofNat 6) 4]
    let s := Machine.run (storeStep (Coding4SrcRS.encode .sample (fun _ => 1) 2)) ⟨st, []⟩ ops
    ∀ b, SrcRepair 3 2 4 s.st 0 b := by
  intro st ops s b
  refine ((@Coding4SrcRS.encode_run_repair .sample (fun _ => 1) 3 2 2 4 (by decide) (by decide)
    (by decide)
    (by decide) st rfl rfl rfl rfl (fun _ _ _ => rfl) ops (fun op hop => ?_) 0 (by decide)
    fun _ _ => 0).1 b).1
  simp only [ops, List.mem_cons, List.not_mem_nil, or_false] at hop
  rcases hop with rfl | rfl | rfl
  · exact Eq.refl 4
  · trivial
  · exact Eq.refl 4

end Ncfs
