/-
What `readFileCache` fills when all disks work.

The first block is read from the start of the range to its own end, also where the range ends
before; the whole blocks behind it are read but not counted; the last block is read up to the end of
the range.

Main definitions:

* `Ncfs.Decoder.Healthy` — every read inside a block succeeds;
* `Ncfs.fileByte` — a byte of a file by its block table;
* `Ncfs.ReadsRange` — the range is filled, nothing else is, and its size is returned.

Main results:

* `Ncfs.healthy_ofLayer` — the layers' decoders, when all disks work;
* `Ncfs.BlockRead.result_healthy`, `Ncfs.BlockRead.data_healthy` — one block;
* `Ncfs.readFileCache_one`, `Ncfs.readFileCache_count`, `Ncfs.readFileCache_two` — what is returned;
* `Ncfs.readFileCache_exact` — ranges that are filled;
* `Ncfs.readsRange_iff` — when the range is filled;
* `Ncfs.readFileCache_overruns` — a range for which it is not.
-/
import FuseMdr.LayerData
import FuseMdr.ReadPath

set_option relaxedAutoImplicit false
set_option autoImplicit false

namespace Ncfs

open IntFile

/-! ### Working disks -/

/-- All disks work: what is asked for inside a block is read from the devices `dev`. -/
structure Decoder.Healthy (D : Decoder) (blockSize : ℕ) (dev : ℕ → ℕ → Byte) : Prop where
  /-- All bytes are read. -/
  result_eq : ∀ d size off : ℕ, off % blockSize + size ≤ blockSize → D.result d size off = size
  /-- They are those of the device. -/
  data_eq : ∀ (d size off : ℕ) (buf : Buf) (j : ℕ), off % blockSize + size ≤ blockSize →
    D.data d size off buf j = if j < size then dev d (off + j) else buf j

/-- Byte `p` of a file, as its block table maps it. -/
def fileByte (blockSize : ℕ) (fd : File) (dev : ℕ → ℕ → Byte) (p : ℕ) : Byte :=
  let info := readInfo fd (p / blockSize)
  dev info.1.toNat (info.2.toNat * blockSize + p % blockSize)

/-- The entry of a slot names a disk and a block. -/
def NamesBlock (fd : File) (slot : ℕ) : Prop := 0 ≤ (readInfo fd slot).1 ∧ 0 ≤ (readInfo fd slot).2

/-- The offset of the block on its disk is a value of an `int`. -/
def OffsetFits (blockSize : ℕ) (fd : File) (slot : ℕ) : Prop :=
  Fits ((readInfo fd slot).2 * blockSize)

/-- Whatever is on the devices, `readFileCache` fills the range with the bytes of the file, nothing
else, and returns the size. -/
def ReadsRange (blockSize : ℕ) (fd : File) (size offset : ℕ) : Prop :=
  ∀ (dev : ℕ → ℕ → Byte) (D : Decoder), D.Healthy blockSize dev → ∀ buf,
    (readFileCache D blockSize fd buf size offset).1 = size ∧
      ∀ i, (readFileCache D blockSize fd buf size offset).2 i =
        if i < size then fileByte blockSize fd dev (offset + i) else buf i

/-- When all disks work, `decode` of a layer reads its blocks. -/
theorem healthy_ofLayer {degraded : NcfsState → ℕ → Buf → ℕ → ℕ → Except CodingError Buf}
    (L : CodingLayer) {st : NcfsState} (hstatus : ∀ d, st.diskStatus d = 0) :
    (Decoder.ofLayer (L.decode degraded st)).Healthy st.diskBlockSize fun d x =>
      st.block d (L.blockNo (x / st.diskBlockSize)) (x % st.diskBlockSize) := by
  have hpos := st.diskBlockSize_pos
  have hdecode : ∀ (d off : ℕ) (buf : Buf) (size : ℕ), L.decode degraded st d buf size off = .ok
      (readDisk st d buf size
        (L.blockNo (off / st.diskBlockSize) * st.diskBlockSize + off % st.diskBlockSize)) := by
    intro d off buf size
    rw [← L.decode_healthy (hstatus d) buf (Nat.mod_lt off hpos), Nat.div_add_mod']
  refine ⟨fun d size off _ => ?_, fun d size off buf j hin => ?_⟩
  · simp only [Decoder.ofLayer, hdecode]
  · simp only [Decoder.ofLayer, Int.toNat_natCast, hdecode]
    rw [readDisk]
    split
    · have hdiv := Nat.div_add_mod' off st.diskBlockSize
      have hat : off + j = off / st.diskBlockSize * st.diskBlockSize +
          (off % st.diskBlockSize + j) := by omega
      have hlt : off % st.diskBlockSize + j < st.diskBlockSize := by omega
      rw [hat, block_div hlt, block_mod hlt, NcfsState.block, Nat.add_assoc]
    · rfl

section Blocks

variable {D : Decoder} {bs : ℕ} {dev : ℕ → ℕ → Byte} {fd : File} {r : BlockRead} {size offset : ℕ}

/-- Where the block of a slot lies. -/
theorem diskOffset_eq (hnames : NamesBlock fd r.slot) (hfits : OffsetFits bs fd r.slot) :
    r.diskOffset bs fd = ((readInfo fd r.slot).2.toNat * bs + r.readOffset : ℕ) := by
  rw [BlockRead.diskOffset, toInt_of_fits hfits]
  push_cast
  rw [Int.toNat_of_nonneg hnames.2]

theorem offset_mod_le (hr : r.readOffset + r.size ≤ bs) (b : ℕ) :
    (b * bs + r.readOffset) % bs + r.size ≤ bs := by
  rw [Nat.mul_comm, Nat.mul_add_mod]
  exact (Nat.add_le_add_right (Nat.mod_le ..) _).trans hr

/-- A block is read. -/
theorem BlockRead.result_healthy (hD : D.Healthy bs dev) (hnames : NamesBlock fd r.slot)
    (hfits : OffsetFits bs fd r.slot) (hr : r.readOffset + r.size ≤ bs) :
    r.result D bs fd = r.size := by
  rw [BlockRead.result, diskOffset_eq hnames hfits, ← Int.toNat_of_nonneg hnames.1]
  exact hD.result_eq _ _ _ (offset_mod_le hr _)

theorem BlockRead.data_healthy (hD : D.Healthy bs dev) (hnames : NamesBlock fd r.slot)
    (hfits : OffsetFits bs fd r.slot) (hr : r.readOffset + r.size ≤ bs) (start : ℕ)
    (buf : Buf) (j : ℕ) :
    r.data D bs fd start buf j = if start ≤ j ∧ j < start + r.size then
      dev (readInfo fd r.slot).1.toNat
        ((readInfo fd r.slot).2.toNat * bs + r.readOffset + (j - start))
    else buf j := by
  rw [BlockRead.data, diskOffset_eq hnames hfits]
  by_cases hj : j < start
  · rw [if_pos hj, if_neg fun h => absurd h.1 (by omega)]
  · have hdata := hD.data_eq (readInfo fd r.slot).1.toNat r.size
      ((readInfo fd r.slot).2.toNat * bs + r.readOffset) (fun j => buf (start + j)) (j - start)
      (offset_mod_le hr _)
    rw [Int.toNat_of_nonneg hnames.1] at hdata
    rw [if_neg hj, hdata]
    by_cases hlt : j - start < r.size
    · rw [if_pos hlt, if_pos ⟨by omega, by omega⟩]
    · rw [if_neg hlt, if_neg fun h => hlt (by omega), Nat.add_sub_cancel' (by omega)]

/-- What lies in front of the block is left. -/
theorem BlockRead.data_of_lt {start j : ℕ} (hj : j < start) (buf : Buf) :
    r.data D bs fd start buf j = buf j :=
  if_pos hj

/-- The byte of the file at an offset into a block. -/
theorem fileByte_block {slot o : ℕ} (ho : o < bs) : fileByte bs fd dev (slot * bs + o) =
    dev (readInfo fd slot).1.toNat ((readInfo fd slot).2.toNat * bs + o) := by
  rw [fileByte, block_div ho, block_mod ho]

/-! ### The range -/

/-- The end of a range in its last block. -/
theorem endBlock_spec (hbs : 0 < bs) (hsize : 1 ≤ size) (offset : ℕ) :
    offset + size = endBlock bs size offset * bs + (lastRead bs size offset).size ∧
      1 ≤ (lastRead bs size offset).size ∧ (lastRead bs size offset).size ≤ bs := by
  have hdiv := Nat.div_add_mod (offset + size) bs
  have hmod := Nat.mod_lt (offset + size) hbs
  rw [Nat.mul_comm] at hdiv
  simp only [endBlock, lastRead]
  by_cases hzero : (offset + size) % bs = 0
  · have hquot : 1 ≤ (offset + size) / bs := by
      rw [Nat.one_le_iff_ne_zero]
      intro h
      rw [h] at hdiv
      omega
    have hsub : ((offset + size) / bs - 1) * bs + bs = (offset + size) / bs * bs := by
      rw [← Nat.succ_mul]
      exact congrArg (· * bs) (Nat.sub_add_cancel hquot)
    rw [if_pos hzero, if_pos hzero]
    omega
  · rw [if_neg hzero, if_neg hzero]
    omega

theorem firstRead_spec (hbs : 0 < bs) (offset : ℕ) :
    offset = offset / bs * bs + (firstRead bs offset).readOffset ∧
    (firstRead bs offset).readOffset + (firstRead bs offset).size = bs ∧
    1 ≤ (firstRead bs offset).size := by
  have hdiv := Nat.div_add_mod offset bs
  have hmod := Nat.mod_lt offset hbs
  rw [Nat.mul_comm] at hdiv
  simp only [firstRead]
  omega

/-- The first block of a range is read behind its start. -/
theorem firstRead_data (hbs : 0 < bs) (hD : D.Healthy bs dev) (hnames : NamesBlock fd (offset / bs))
    (hfits : OffsetFits bs fd (offset / bs)) (buf : Buf) (i : ℕ) :
    (firstRead bs offset).data D bs fd 0 buf i =
      if i < (firstRead bs offset).size then fileByte bs fd dev (offset + i) else buf i := by
  obtain ⟨hoffset, hblock, -⟩ := firstRead_spec hbs offset
  rw [BlockRead.data_healthy (r := firstRead bs offset) hD hnames hfits hblock.le]
  simp only [Nat.zero_le, true_and, Nat.zero_add, Nat.sub_zero]
  by_cases hi : i < (firstRead bs offset).size
  · have hat : offset + i = offset / bs * bs + ((firstRead bs offset).readOffset + i) := by omega
    rw [if_pos hi, if_pos hi, hat, fileByte_block (by omega), Nat.add_assoc]
    rfl
  · rw [if_neg hi, if_neg hi]

/-- The last block of a range is read up to its end. -/
theorem lastRead_data (hbs : 0 < bs) (hsize : 1 ≤ size) (hD : D.Healthy bs dev)
    (hnames : NamesBlock fd (endBlock bs size offset))
    (hfits : OffsetFits bs fd (endBlock bs size offset))
    (hle : (lastRead bs size offset).size ≤ size) (buf : Buf) (i : ℕ) :
    (lastRead bs size offset).data D bs fd (size - (lastRead bs size offset).size) buf i =
      if size - (lastRead bs size offset).size ≤ i ∧ i < size then fileByte bs fd dev (offset + i)
        else buf i := by
  obtain ⟨hend, -, hblock⟩ := endBlock_spec hbs hsize offset
  rw [BlockRead.data_healthy (r := lastRead bs size offset) hD hnames hfits
    (by simpa [lastRead] using hblock), Nat.sub_add_cancel hle]
  by_cases hi : size - (lastRead bs size offset).size ≤ i ∧ i < size
  · have hat : offset + i =
        endBlock bs size offset * bs + (i - (size - (lastRead bs size offset).size)) := by omega
    rw [if_pos hi, if_pos hi, hat, fileByte_block (by omega)]
    rfl
  · rw [if_neg hi, if_neg hi]

/-! ### The calls -/

theorem firstRead_mem : firstRead bs offset ∈ readCalls bs size offset := List.mem_cons_self ..

theorem lastRead_mem (hmore : ¬ endBlock bs size offset ≤ offset / bs) :
    lastRead bs size offset ∈ readCalls bs size offset := by
  rw [readCalls, if_neg hmore]
  exact List.mem_cons_of_mem _ (List.mem_append_right _ (List.mem_singleton_self _))

/-- In a range of one block, what is read is returned. -/
theorem readFileCache_one
    (hfirst : (firstRead bs offset).result D bs fd = (firstRead bs offset).size)
    (hone : endBlock bs size offset ≤ offset / bs) (buf : Buf) :
    readFileCache D bs fd buf size offset =
      (toInt (firstRead bs offset).size, (firstRead bs offset).data D bs fd 0 buf) := by
  rw [readFileCache]
  simp only [hfirst]
  rw [if_neg (by omega), if_pos hone]

/-- In a longer range the bytes of the first and of the last block are counted. -/
theorem readFileCache_count (hall : ∀ r ∈ readCalls bs size offset, r.result D bs fd = r.size)
    (hmore : ¬ endBlock bs size offset ≤ offset / bs) (buf : Buf) :
    (readFileCache D bs fd buf size offset).1 =
      toInt ((firstRead bs offset).size + (lastRead bs size offset).size) := by
  have hfirst := hall _ firstRead_mem
  have hlast := hall _ (lastRead_mem hmore)
  have hloop := Loops.untilFail_fst (f := middleStep D bs fd offset (firstRead bs offset).size)
    (p := fun count =>
      decide (0 ≤ (middleRead bs offset count).result D bs fd)) (fun _ _ => rfl)
    ((firstRead bs offset).data D bs fd 0 buf)
      (List.range (endBlock bs size offset - (offset / bs + 1)))
  have hmiddle : (List.range (endBlock bs size offset - (offset / bs + 1))).all (fun count =>
      decide (0 ≤ (middleRead bs offset count).result D bs fd)) = true := by
    refine List.all_eq_true.2 fun count hcount => decide_eq_true ?_
    rw [hall _ ?_]
    · exact Int.natCast_nonneg _
    · rw [readCalls, if_neg hmore]
      exact List.mem_cons_of_mem _ (List.mem_append_left _ (List.mem_map_of_mem hcount))
  rw [hmiddle] at hloop
  rw [readFileCache]
  simp only [hfirst, hlast, Int.toNat_natCast]
  rw [if_neg (by omega), if_neg hmore]
  generalize Loops.untilFail _ _ _ = result at hloop ⊢
  obtain ⟨ok, buf'⟩ := result
  obtain rfl : ok = true := hloop
  dsimp only
  rw [if_pos rfl, if_neg (by omega)]

/-- A range of two blocks. -/
theorem readFileCache_two (hall : ∀ r ∈ readCalls bs size offset, r.result D bs fd = r.size)
    (htwo : endBlock bs size offset = offset / bs + 1) (buf : Buf) :
    readFileCache D bs fd buf size offset =
      (toInt ((firstRead bs offset).size + (lastRead bs size offset).size),
        (lastRead bs size offset).data D bs fd (size - (lastRead bs size offset).size)
          ((firstRead bs offset).data D bs fd 0 buf)) := by
  have hmore : ¬ endBlock bs size offset ≤ offset / bs := by omega
  have hfirst := hall _ firstRead_mem
  have hlast := hall _ (lastRead_mem hmore)
  have hcount : List.range (endBlock bs size offset - (offset / bs + 1)) = [] := by
    rw [htwo, Nat.sub_self, List.range_zero]
  rw [readFileCache]
  simp only [hfirst, hlast, hcount, Loops.untilFail]
  rw [if_neg (by omega), if_neg hmore, if_pos trivial, if_neg (by omega)]

/-! ### Exact ranges -/

/-- The ranges that are filled: they lie in one block and end with it, or in two blocks, and the
offsets of their blocks and their size are values of an `int`. -/
structure ExactRange (bs : ℕ) (fd : File) (size offset : ℕ) : Prop where
  /-- Blocks that are not counted, or read too far, are not needed. -/
  blocks : endBlock bs size offset = offset / bs + 1 ∨
    endBlock bs size offset = offset / bs ∧ (offset + size) % bs = 0
  /-- The products do not overflow. -/
  offsets : ∀ r ∈ readCalls bs size offset, OffsetFits bs fd r.slot
  /-- The result does not overflow. -/
  fits : Fits size

/-- Every call for a range stays inside a block. -/
theorem readCalls_inside (hbs : 0 < bs) (hsize : 1 ≤ size) {r : BlockRead}
    (hr : r ∈ readCalls bs size offset) :
    r.readOffset + r.size ≤ bs := by
  rw [readCalls] at hr
  rcases List.mem_cons.1 hr with rfl | hr
  · exact (firstRead_spec hbs offset).2.1.le
  · split at hr
    · cases hr
    · rcases List.mem_append.1 hr with hr | hr
      · obtain ⟨count, -, rfl⟩ := List.mem_map.1 hr
        exact (Nat.zero_add bs).le
      · obtain rfl := List.mem_singleton.1 hr
        exact (Nat.zero_add _).le.trans (endBlock_spec hbs hsize offset).2.2

/-- An exact range is filled. -/
theorem readFileCache_exact (hbs : 0 < bs) (hsize : 1 ≤ size) (hD : D.Healthy bs dev)
    (hnames : ∀ r ∈ readCalls bs size offset, NamesBlock fd r.slot)
    (h : ExactRange bs fd size offset) (buf : Buf) : readFileCache D bs fd buf size offset =
      ((size : ℤ), fun i => if i < size then fileByte bs fd dev (offset + i) else buf i) := by
  have hall : ∀ r ∈ readCalls bs size offset, r.result D bs fd = r.size := fun r hr =>
    BlockRead.result_healthy hD (hnames r hr) (h.offsets r hr) (readCalls_inside hbs hsize hr)
  have hnames₁ : NamesBlock fd (offset / bs) := hnames (firstRead bs offset) firstRead_mem
  have hoffset₁ : OffsetFits bs fd (offset / bs) := h.offsets (firstRead bs offset) firstRead_mem
  have hfirst := firstRead_data hbs hD hnames₁ hoffset₁ buf
  obtain ⟨hoffset, hblock, -⟩ := firstRead_spec hbs offset
  obtain ⟨hend, hpos, hle⟩ := endBlock_spec hbs hsize offset
  rcases h.blocks with htwo | ⟨hone, hmod⟩
  · have hlast : lastRead bs size offset ∈ readCalls bs size offset := lastRead_mem (by omega)
    have hnames₂ : NamesBlock fd (endBlock bs size offset) := hnames (lastRead bs size offset) hlast
    have hoffset₂ : OffsetFits bs fd (endBlock bs size offset) :=
      h.offsets (lastRead bs size offset) hlast
    rw [htwo, Nat.add_mul] at hend
    have hsum : (firstRead bs offset).size + (lastRead bs size offset).size = size := by omega
    have hcount : toInt ((firstRead bs offset).size + (lastRead bs size offset).size) = size := by
      rw [← Nat.cast_add, hsum, toInt_of_fits h.fits]
    rw [readFileCache_two hall htwo, hcount]
    rw [Prod.mk.injEq]
    refine ⟨rfl, funext fun i => ?_⟩
    rw [lastRead_data hbs hsize hD hnames₂ hoffset₂ (by omega), hfirst]
    by_cases hi : i < size
    · by_cases hin : size - (lastRead bs size offset).size ≤ i
      · rw [if_pos ⟨hin, hi⟩, if_pos hi]
      · rw [if_neg fun h => hin h.1, if_pos (by omega), if_pos hi]
    · rw [if_neg fun h => hi h.2, if_neg (by omega), if_neg hi]
  · -- the range ends with its block
    have hlast : (lastRead bs size offset).size = bs := if_pos hmod
    rw [hone] at hend
    have hsum : (firstRead bs offset).size = size := by omega
    rw [readFileCache_one (hall _ firstRead_mem) hone.le, hsum, toInt_of_fits h.fits]
    rw [Prod.mk.injEq]
    refine ⟨rfl, funext fun i => ?_⟩
    rw [hfirst, hsum]

/-! ### Other ranges -/

/-- The devices are read byte after byte from the offset on, and a negative offset is an error. -/
def Decoder.contiguous (dev : ℕ → ℕ → Byte) : Decoder where
  result _ size offset := if offset < 0 then -1 else size
  data diskId size offset buf := fun j =>
    if j < size.toNat then dev diskId.toNat (offset.toNat + j) else buf j

theorem Decoder.contiguous_healthy (bs : ℕ) (dev : ℕ → ℕ → Byte) :
    (contiguous dev).Healthy bs dev :=
  ⟨fun _ size off _ => if_neg (c := (off : ℤ) < 0) (t := -1) (e := (size : ℤ))
    (not_lt.2 (Int.natCast_nonneg off)), fun _ _ _ _ _ _ => rfl⟩

/-- A block whose offset overflows is not read at its place. -/
theorem contiguous_data_ne {r : BlockRead} (hnames : NamesBlock fd r.slot)
    (hfits : ¬ OffsetFits bs fd r.slot) (hpos : 1 ≤ r.size) (hoffset : 0 ≤ r.diskOffset bs fd)
    (start : ℕ) (buf : Buf) :
    r.data (.contiguous fun _ x =>
      if x = (readInfo fd r.slot).2.toNat * bs + r.readOffset then 1
      else 0) bs fd start buf start = 0 := by
  have hne : (r.diskOffset bs fd).toNat ≠ (readInfo fd r.slot).2.toNat * bs + r.readOffset := by
    intro heq
    have hcast : r.diskOffset bs fd = (readInfo fd r.slot).2 * bs + r.readOffset := by
      rw [← Int.toNat_of_nonneg hoffset, heq]
      push_cast
      rw [Int.toNat_of_nonneg hnames.2]
    rw [BlockRead.diskOffset] at hcast
    have hbmod := Int.le_bmod (x := (readInfo fd r.slot).2 * bs) (m := 2 ^ 32) (by decide)
    have hbmod' := Int.bmod_lt (x := (readInfo fd r.slot).2 * bs) (m := 2 ^ 32) (by decide)
    refine hfits ⟨?_, ?_⟩
    · rw [toInt] at hcast
      omega
    · rw [toInt] at hcast
      omega
  rw [BlockRead.data, if_neg (lt_irrefl _), Nat.sub_self]
  simp only [Decoder.contiguous, Int.toNat_natCast, Nat.add_zero]
  rw [if_pos (by omega), if_neg hne]

/-- Where a range is filled, no call has a negative offset. -/
theorem ReadsRange.result_eq (h : ReadsRange bs fd size offset) (dev : ℕ → ℕ → Byte) {r : BlockRead}
    (hr : r ∈ readCalls bs size offset) :
    0 ≤ r.diskOffset bs fd ∧ r.result (.contiguous dev) bs fd = r.size := by
  by_cases hoffset : r.diskOffset bs fd < 0
  · have hresult : r.result (.contiguous dev) bs fd = -1 := if_pos hoffset
    have hfatal := readFileCache_of_fails hr (by rw [hresult]; exact neg_one_lt_zero) fun _ => 0
    rw [(h dev _ (Decoder.contiguous_healthy bs dev) _).1, fatalError] at hfatal
    omega
  · exact ⟨not_lt.1 hoffset, if_neg hoffset⟩

/-- Where a range is filled, the offset of a block that is read into its place fits. -/
theorem ReadsRange.offsetFits (h : ReadsRange bs fd size offset) {r : BlockRead}
    (hr : r ∈ readCalls bs size offset) (hname : NamesBlock fd r.slot) (hone : 1 ≤ r.size)
    (hin : r.readOffset < bs) {start : ℕ} (hlt : start < size)
    (hat : offset + start = r.slot * bs + r.readOffset) (buf : Buf)
    (hread : ∀ dev, ∃ buf', (readFileCache (.contiguous dev) bs fd buf size offset).2 start =
      r.data (.contiguous dev) bs fd start buf' start) : OffsetFits bs fd r.slot := by
  by_contra hfits
  let dev : ℕ → ℕ → Byte := fun _ x =>
    if x = (readInfo fd r.slot).2.toNat * bs + r.readOffset then 1 else 0
  obtain ⟨buf', hread⟩ := hread dev
  have hbyte := (h dev _ (Decoder.contiguous_healthy bs dev) buf).2 start
  rw [if_pos hlt, hread, hat, fileByte_block hin,
    contiguous_data_ne hname hfits hone (h.result_eq dev hr).1] at hbyte
  simp only [dev, if_true] at hbyte
  exact absurd hbyte (by decide)

/-- An `int` that is the sum of two block lengths. -/
theorem eq_of_toInt {n : ℕ} (hn : n ≤ 2 * bs) (hbs : Fits bs) (hsize : 1 ≤ size)
    (h : toInt n = size) :
    n = size ∧ Fits size := by
  obtain ⟨-, hbs⟩ := hbs
  rw [toInt, Int.bmod] at h
  rw [Fits]
  omega

/-- What is filled is an exact range. -/
theorem ReadsRange.exact (hbs : 0 < bs) (hint : Fits bs) (hsize : 1 ≤ size)
    (hnames : ∀ r ∈ readCalls bs size offset, NamesBlock fd r.slot)
    (h : ReadsRange bs fd size offset) :
    ExactRange bs fd size offset := by
  have hall := fun dev r (hr : r ∈ readCalls bs size offset) => (h.result_eq dev hr).2
  have hreturned := (h (fun _ _ => 0) _ (Decoder.contiguous_healthy bs _) fun _ => 0).1
  have hnames₁ : NamesBlock fd (firstRead bs offset).slot := hnames _ firstRead_mem
  obtain ⟨hoffset, hblock, hpos₁⟩ := firstRead_spec hbs offset
  obtain ⟨hend, hpos, hle⟩ := endBlock_spec hbs hsize offset
  by_cases hone : endBlock bs size offset ≤ offset / bs
  · rw [readFileCache_one (hall _ _ firstRead_mem) hone] at hreturned
    dsimp only at hreturned
    have hn : (firstRead bs offset).size ≤ 2 * bs := by omega
    obtain ⟨hfirst, hfits⟩ := eq_of_toInt hn hint hsize hreturned
    have hquot : endBlock bs size offset = offset / bs := by
      refine le_antisymm hone (Nat.le_of_lt_succ ?_)
      by_contra hlt
      have hmul := Nat.mul_le_mul_right bs (not_lt.1 hlt)
      rw [Nat.succ_mul] at hmul
      omega
    refine ⟨.inr ⟨hquot, ?_⟩, fun r hr => ?_, hfits⟩
    · have hsum : offset + size = bs * (offset / bs + 1) := by
        rw [Nat.mul_succ, Nat.mul_comm]
        omega
      rw [hsum, Nat.mul_mod_right]
    · rw [readCalls, if_pos hone] at hr
      obtain rfl := List.mem_singleton.1 hr
      refine h.offsetFits firstRead_mem hnames₁ hpos₁ (by omega) hsize hoffset (fun _ => 0)
        fun dev => ⟨fun _ => 0, ?_⟩
      rw [readFileCache_one (hall _ _ firstRead_mem) hone]
  · have hlast : lastRead bs size offset ∈ readCalls bs size offset := lastRead_mem hone
    rw [readFileCache_count (hall _) hone, ← Nat.cast_add] at hreturned
    have hn : (firstRead bs offset).size + (lastRead bs size offset).size ≤ 2 * bs := by omega
    obtain ⟨hsum, hfits⟩ := eq_of_toInt hn hint hsize hreturned
    have htwo : endBlock bs size offset = offset / bs + 1 := by
      refine Nat.eq_of_mul_eq_mul_right hbs ?_
      rw [Nat.succ_mul]
      omega
    have hread := fun dev => readFileCache_two (hall dev) htwo fun _ => 0
    refine ⟨.inl htwo, fun r hr => ?_, hfits⟩
    rw [readCalls, if_neg hone, htwo, Nat.sub_self, List.range_zero, List.map_nil, List.nil_append]
      at hr
    rcases List.mem_pair.1 hr with rfl | rfl
    · refine h.offsetFits firstRead_mem hnames₁ hpos₁ (by omega) hsize hoffset (fun _ => 0)
        fun dev => ⟨fun _ => 0, ?_⟩
      rw [hread]
      exact BlockRead.data_of_lt (by omega) _
    · have hstart : size - (lastRead bs size offset).size < size := by omega
      have hat : offset + (size - (lastRead bs size offset).size) =
          endBlock bs size offset * bs + (lastRead bs size offset).readOffset := by
        have hzero : (lastRead bs size offset).readOffset = 0 := rfl
        omega
      exact h.offsetFits hlast (hnames _ hlast) hpos hbs hstart hat (fun _ => 0)
        fun dev => ⟨_, congrFun (congrArg Prod.snd (hread dev)) _⟩

/-- **Filled ranges.**  For every block table whose entries for the range name blocks, every offset
and every size, `readFileCache` fills the range with the bytes of the file, nothing else, and
returns the size, exactly when the range is exact. -/
theorem readsRange_iff (hbs : 0 < bs) (hint : Fits bs) (hsize : 1 ≤ size)
    (hnames : ∀ r ∈ readCalls bs size offset, NamesBlock fd r.slot) :
    ReadsRange bs fd size offset ↔ ExactRange bs fd size offset := by
  refine ⟨fun h => h.exact hbs hint hsize hnames, fun h dev D hD buf => ?_⟩
  rw [readFileCache_exact hbs hsize hD hnames h buf]
  exact ⟨rfl, fun i => rfl⟩

/-- The info file of a file of three blocks. -/
def threeBlockInfo : File :=
  (((File.empty.pwrite (record [12288]) 4 0).pwrite (record [0, 0]) 8 (slotOffset 0)).pwrite
    (record [2, 1]) 8 (slotOffset 1)).pwrite (record [1, 3]) 8 (slotOffset 2)

/-- A part of two blocks is read; a range over all three is not. -/
theorem readsRange_iff_parts :
    ReadsRange 4096 threeBlockInfo 5000 1000 ∧ ¬ ReadsRange 4096 threeBlockInfo 9000 1000 := by
  have hnames : ∀ r ∈ readCalls 4096 5000 1000, NamesBlock threeBlockInfo r.slot := by
    unfold NamesBlock
    decide +kernel
  have hnames' : ∀ r ∈ readCalls 4096 9000 1000, NamesBlock threeBlockInfo r.slot := by
    unfold NamesBlock
    decide +kernel
  have hoffsets : ∀ r ∈ readCalls 4096 5000 1000, OffsetFits 4096 threeBlockInfo r.slot := by
    unfold OffsetFits
    decide +kernel
  refine ⟨(readsRange_iff (by decide) (by decide) (by decide) hnames).2
    ⟨.inl rfl, hoffsets, by decide⟩, fun h => ?_⟩
  have hexact := (readsRange_iff (by decide) (by decide) (by decide) hnames').1 h
  exact absurd hexact.blocks (by decide)

/-- Ten bytes of a file of one block are asked for: the whole block is copied behind the start of
the buffer, and its size is returned. -/
theorem readFileCache_overruns : ¬ ReadsRange 4096 oneBlockInfo 10 0 := by
  intro h
  have hread := (h (fun _ _ => 0) _ (Decoder.contiguous_healthy 4096 _) fun _ => 1).1
  exact absurd hread (by decide +kernel)

end Blocks

end Ncfs
