/-
**What the migration keeps.**

Afterwards a block of a file is where the table of the file leads, with the numbers that the disks
have then.  The tables are led along the moves, but for those of the files that `readdir` returns as
the first or the second entry of the directory.  The place has to hold what the block held, it must
not be one of the new parity, and the free offset that is recorded for its disk, in blocks, has to
be behind it when it is read as a number of bytes.  Moreover the program has to come to its end:
`find_space` must find a disk for each row, and it does not look behind a disk that stands on a
parity block.

All of this depends on the free offsets and sizes, the failed disk and the tables, not on what the
blocks hold.  For a single store the condition is enough, and a store of zeros loses nothing; so it
is exact for the stores of one layout together.

Main definitions:

* `Ncfs.RemapValid`, `Ncfs.Migrates` — the stores, and that their files are kept;
* `Ncfs.RemapFinishes` — the program comes to its end;
* `Ncfs.entryPairs`, `Ncfs.recordedOffset`, `Ncfs.KeptAt` — where the tables lead, and that a block
  is kept there.

Main results:

* `Ncfs.remapXor_iff` — when the program comes to its end;
* `Ncfs.RowsMigrated.blockMigrated_iff` — when a block is kept;
* `Ncfs.migrates_iff` — **the exact condition**.
-/
import FuseMdr.RowSources

set_option relaxedAutoImplicit false
set_option autoImplicit false

namespace Ncfs

/-! ### The tables and the offsets -/

/-- The entries of all files. -/
def entriesOf (bb : NcfsState) (dir : RootDir) : List (ℕ × ℕ) :=
  dir.reduceOption.flatMap fun file => (List.range (file.slots bb)).map file.blocks

section Tables

variable {bb : NcfsState} {failDisk n d i : ℕ} {s : RemapState}

theorem entriesOf_append (bb : NcfsState) (dir dir' : RootDir) :
    entriesOf bb (dir ++ dir') = entriesOf bb dir ++ entriesOf bb dir' := by
  rw [entriesOf, List.reduceOption_append, List.flatMap_append]
  rfl

/-- Every entry is looked up among the moves. -/
theorem entriesOf_update (hblock : s.bb.diskBlockSize = bb.diskBlockSize) (dir : RootDir) :
    entriesOf bb (dir.map (Option.map (updateFileBlock s))) =
      (entriesOf bb dir).map (pointTo s.moveRec) := by
  have hslots : ∀ file : InfoFile, file.slots s.bb = file.slots bb := fun file => by
    rw [InfoFile.slots, InfoFile.slots, roundToBlockSize, roundToBlockSize, hblock]
  rw [entriesOf, entriesOf, List.reduceOption_map, List.flatMap_map, List.map_flatMap]
  refine congrArg (fun f => dir.reduceOption.flatMap f) (funext fun file => ?_)
  have hupdate : (updateFileBlock s file).slots bb = file.slots bb := rfl
  rw [hupdate, List.map_map]
  refine List.map_congr_left fun j hj => ?_
  have hloop := Loops.foldl_update_range (fun _ => pointTo s.moveRec) (file.slots s.bb)
    file.blocks j
  rwa [hslots, if_pos (List.mem_range.1 hj), ← hslots] at hloop

/-- The numbers of the disks without the failed one. -/
theorem oldDiskId_newDiskId (hd : d ≠ failDisk) :
    oldDiskId failDisk (newDiskId failDisk d) = d := by
  rw [newDiskId, oldDiskId]
  split <;> split <;> omega

theorem newDiskId_oldDiskId (failDisk d : ℕ) : newDiskId failDisk (oldDiskId failDisk d) = d := by
  rw [oldDiskId, newDiskId]
  split <;> split <;> omega

theorem oldDiskId_ne (failDisk d : ℕ) : oldDiskId failDisk d ≠ failDisk := by
  rw [oldDiskId]
  split <;> omega

theorem oldDiskId_lt (hfail : failDisk < n) : oldDiskId failDisk d < n ↔ d < n - 1 := by
  rw [oldDiskId]
  split <;> omega

/-- The parity of the smaller array is at its own place. -/
theorem newParityDiskId_eq (n failDisk b : ℕ) :
    newParityDiskId n failDisk b = oldDiskId failDisk (raid5ParityDiskId (n - 1) b) := rfl

/-- A sum over the smaller array. -/
theorem sum_oldDiskId (hfail : failDisk < n) (g : ℕ → Byte) :
    ∑ d ∈ Finset.range (n - 1), g (oldDiskId failDisk d) = ∑ j ∈ (Finset.range n).erase failDisk,
    g j := by
  refine Finset.sum_nbij (oldDiskId failDisk) (fun d hd => ?_) (fun d _ d' _ h => ?_)
    (fun j hj => ?_) fun _ _ => rfl
  · exact Finset.mem_erase.2 ⟨oldDiskId_ne failDisk d,
      Finset.mem_range.2 ((oldDiskId_lt hfail).2 (Finset.mem_range.1 hd))⟩
  · rw [← newDiskId_oldDiskId failDisk d, h, newDiskId_oldDiskId]
  · obtain ⟨hne, hlt⟩ := Finset.mem_erase.1 hj
    have hold := oldDiskId_newDiskId hne
    refine ⟨newDiskId failDisk j, Finset.mem_coe.2 (Finset.mem_range.2 ((oldDiskId_lt hfail).1 ?_)),
      hold⟩
    rw [hold]
    exact Finset.mem_range.1 hlt

/-- The record that is written for a disk. -/
theorem updateRaidMetadata_apply (stray : ℤ → ℤ) (s : RemapState) (d : ℕ) :
    updateRaidMetadata failDisk stray s d =
      if oldDiskId failDisk d < s.bb.diskTotalNum then
        some ⟨d, s.bb.freeOffset (oldDiskId failDisk d),
          IntFile.toInt (s.freeSizeAt stray (oldDiskId failDisk d) * s.bb.diskBlockSize)⟩
      else none := by
  rw [updateRaidMetadata]
  generalize s.bb.diskTotalNum = n
  induction n with
  | zero => rfl
  | succ n ih =>
      rw [List.range_succ, List.foldl_append, List.foldl_cons, List.foldl_nil]
      have hne := oldDiskId_ne failDisk d
      by_cases hn : n = failDisk
      · rw [if_pos hn, ih]
        exact if_congr (by omega) rfl rfl
      rw [if_neg hn]
      by_cases hd : d = newDiskId failDisk n
      · subst hd
        rw [Function.update_self, oldDiskId_newDiskId hn, if_pos (Nat.lt_succ_self n)]
      · rw [Function.update_of_ne hd, ih]
        refine if_congr ⟨fun h => h.trans (Nat.lt_succ_self n), fun h => ?_⟩ rfl rfl
        refine lt_of_le_of_ne (Nat.le_of_lt_succ h) fun heq => hd ?_
        rw [← heq, newDiskId_oldDiskId]

end Tables

/-! ### The condition -/

/-- Where the table of a file that is rewritten leads, in the new numbers: to the new place of the
first move from there. -/
def entryAfter (bb : NcfsState) (failDisk : ℕ) (x : ℕ × ℕ) : ℕ × ℕ :=
  pointTo ((List.range (bb.freeOffset failDisk)).flatMap (rowMoves bb failDisk)) x

/-- The entries of all files, before and after.  The first two entries of the directory are not
rewritten. -/
def entryPairs (bb : NcfsState) (failDisk : ℕ) (dir : RootDir) : List ((ℕ × ℕ) × (ℕ × ℕ)) :=
  (entriesOf bb (dir.take 2)).map (fun x => (x, x)) ++
    (entriesOf bb (dir.drop 2)).map fun x => (x, entryAfter bb failDisk x)

/-- The bookkeeping after the loop over the rows. -/
def spaceLeft (bb : NcfsState) (failDisk : ℕ) : NcfsState :=
  spaceAfter bb failDisk (bb.freeOffset failDisk)

/-- The free offset that is recorded for a disk, in blocks. -/
def recordedOffset (bb : NcfsState) (failDisk d : ℕ) : ℕ :=
  raisedOffset bb.diskTotalNum failDisk (spaceLeft bb failDisk).freeOffset
    (maxUsed (spaceLeft bb failDisk) failDisk).toNat d

/-- The block at `x` is kept at `y`, a place in the new numbers. -/
structure KeptAt (bb : NcfsState) (failDisk : ℕ) (x y : ℕ × ℕ) : Prop where
  /-- It is a place for data. -/
  data : Raid5Data (bb.diskTotalNum - 1) y.1 y.2
  /-- The recorded offset, read as a number of bytes, is behind it. -/
  free : y.2 < recordedOffset bb failDisk (oldDiskId failDisk y.1) / bb.diskBlockSize
  /-- It holds what the block held. -/
  holds : ComesFrom bb failDisk (oldDiskId failDisk y.1, y.2) x

/-- The program comes to its end. -/
structure RemapFinishes (bb : NcfsState) (failDisk : ℕ) (dir : RootDir) : Prop where
  /-- The loop over the rows. -/
  rows : RowsFinish bb failDisk (bb.freeOffset failDisk)
  /-- The new parity: the byte offsets are `int`s. -/
  parity : ∀ b < (maxUsed (spaceLeft bb failDisk) failDisk).toNat, b * bb.diskBlockSize < 2 ^ 31
  /-- The tables: their sizes are `int`s when they are rounded up. -/
  sizes : ∀ file ∈ (dir.drop 2).reduceOption, file.FitsInt bb

/-! ### The property -/

/-- A store in a valid state, with room for the blocks of the failed disk on every other one. -/
structure RemapValid (bb : NcfsState) (failDisk : ℕ) (dir : RootDir) : Prop where
  /-- There are four disks. -/
  disks : 4 ≤ bb.diskTotalNum
  /-- One of them has failed. -/
  failed : failDisk < bb.diskTotalNum
  /-- The files point to blocks of data in front of the free offsets, -/
  blocks : ∀ x ∈ entriesOf bb dir, Raid5Data bb.diskTotalNum x.1 x.2 ∧ x.2 < bb.freeOffset x.1
  /-- all of them different. -/
  nodup : (entriesOf bb dir).Nodup
  /-- The room. -/
  room : ∀ d < bb.diskTotalNum, d ≠ failDisk → (bb.freeOffset failDisk : ℤ) ≤ bb.freeSize d

/-- Block `x` of the old store is block `x'` of the new one. -/
structure BlockMigrated (bb bb' : NcfsState) (x x' : ℕ × ℕ) : Prop where
  /-- It is at a place for data. -/
  data : Raid5Data bb'.diskTotalNum x'.1 x'.2
  /-- The free offset is behind it. -/
  free : x'.2 < bb'.freeOffset x'.1
  /-- It has the same bytes. -/
  bytes : ∀ o < bb.diskBlockSize, bb'.block x'.1 x'.2 o = bb.block x.1 x.2 o

/-- The files have been kept. -/
structure Migrated (bb : NcfsState) (failDisk : ℕ) (dir : RootDir) (r : Remapped) : Prop where
  /-- They have their sizes. -/
  sizes : r.dir.map (Option.map InfoFile.fileSize) = dir.map (Option.map InfoFile.fileSize)
  /-- They have their blocks. -/
  blocks : List.Forall₂ (BlockMigrated bb (mountAfter failDisk r)) (entriesOf bb dir)
    (entriesOf (mountAfter failDisk r) r.dir)
  /-- No block has two entries. -/
  nodup : (entriesOf (mountAfter failDisk r) r.dir).Nodup
  /-- The rows in front of the recorded offsets add up to zero. -/
  rows : ∀ b, (∃ d record, r.metadata d = some record ∧ b < record.freeOffset) →
    ∀ o < bb.diskBlockSize, ∑ d ∈ Finset.range (mountAfter failDisk r).diskTotalNum,
      (mountAfter failDisk r).block d b o = 0

/-- `remap_xor` keeps the files, whatever is in front of the array of the free sizes. -/
def Migrates (bb : NcfsState) (failDisk : ℕ) (dir : RootDir) : Prop :=
  ∀ stray, ∃ r, remapXor bb failDisk dir stray = .ok r ∧ Migrated bb failDisk dir r

section Result

variable {bb : NcfsState} {disk : ℕ → ℕ → Byte} {failDisk d : ℕ} {dir : RootDir} {s : RemapState}

/-- The entries before. -/
theorem entryPairs_fst (bb : NcfsState) (failDisk : ℕ) (dir : RootDir) :
    (entryPairs bb failDisk dir).map Prod.fst = entriesOf bb dir := by
  rw [entryPairs, List.map_append, List.map_map, List.map_map]
  simp only [Function.comp_def, List.map_id']
  rw [← entriesOf_append, List.take_append_drop]

/-- The rows have been moved and have their new parity. -/
structure RowsMigrated (bb : NcfsState) (disk : ℕ → ℕ → Byte) (failDisk : ℕ) (s : RemapState) :
    Prop where
  /-- The number of disks. -/
  total_eq : s.bb.diskTotalNum = bb.diskTotalNum
  /-- The size of a block. -/
  block_eq : s.bb.diskBlockSize = bb.diskBlockSize
  /-- The moves. -/
  moves_eq : s.moveRec = (List.range (bb.freeOffset failDisk)).flatMap (rowMoves bb failDisk)
  /-- The free offsets. -/
  offset_eq : ∀ d, s.bb.freeOffset d = recordedOffset bb failDisk d
  /-- The blocks that are not parity. -/
  cells : ∀ d b, d ≠ newParityDiskId bb.diskTotalNum failDisk b → ∀ o < bb.diskBlockSize,
    s.bb.block d b o =
      cellsAfter bb failDisk (cellsOf bb disk o) (bb.freeOffset failDisk) (d, b)
  /-- The rows in front of the free offsets. -/
  rows : 2 ≤ bb.diskTotalNum → ∀ d < bb.diskTotalNum, d ≠ failDisk → ∀ b < s.bb.freeOffset d,
    ∀ o < bb.diskBlockSize, ∑ j ∈ (Finset.range bb.diskTotalNum).erase failDisk,
      s.bb.block j b o = 0

/-- The largest free offset after the loop over the rows. -/
theorem RowsDone.maxUsed_eq (h : RowsDone bb disk failDisk (bb.freeOffset failDisk) s) :
    maxUsed s.bb failDisk = maxUsed (spaceLeft bb failDisk) failDisk := by
  rw [maxUsed, maxUsed, h.total_eq, h.offset_eq, spaceLeft, spaceAfter_diskTotalNum]

/-- The two loops. -/
theorem RowsDone.migrated (h : RowsDone bb disk failDisk (bb.freeOffset failDisk) s)
    {s' : RemapState} (hparity : ParityDone failDisk s (maxUsed s.bb failDisk).toNat s') :
    RowsMigrated bb disk failDisk s' := by
  refine ⟨hparity.total_eq.trans h.total_eq, hparity.block_eq.trans h.block_eq,
    hparity.moves_eq.trans h.moves_eq, fun d => ?_, fun d b hd o ho => ?_,
    fun hn d hd hne b hb o ho => ?_⟩
  · rw [hparity.offset_eq, h.maxUsed_eq, h.total_eq, h.offset_eq]
    rfl
  · rw [hparity.block _ _ _ (h.block_eq.symm ▸ ho), h.total_eq, if_neg fun hp => hd hp.2,
      h.cells _ _ o ho]
  · have hused := le_maxUsed (h.total_eq.symm ▸ hd) hne
    have hlt : b < (maxUsed s.bb failDisk).toNat := by
      rw [hparity.offset_eq] at hb
      rcases raisedOffset_lt s.bb.diskTotalNum failDisk s.bb.freeOffset
        (maxUsed s.bb failDisk).toNat d with heq | hlt <;> omega
    have hrow := hparity.rows (h.total_eq.symm ▸ hn) hlt (h.block_eq.symm ▸ ho)
    rwa [h.total_eq] at hrow

/-- The sizes are looked at only as far as the blocks are as large. -/
theorem fitsInt_congr (hblock : s.bb.diskBlockSize = bb.diskBlockSize) (file : InfoFile) :
    file.FitsInt s.bb ↔ file.FitsInt bb := by
  rw [InfoFile.FitsInt, InfoFile.FitsInt, InfoFile.slots, InfoFile.slots, roundToBlockSize,
    roundToBlockSize, hblock]

/-- What `remap_xor` leaves. -/
theorem remapXor_ok (h : RemapFinishes bb failDisk dir) (disk : ℕ → ℕ → Byte) (stray : ℤ → ℤ) :
    ∃ s, remapXor { bb with disk := disk } failDisk dir stray =
      .ok (rewriteTables failDisk dir stray s) ∧ RowsMigrated bb disk failDisk s := by
  obtain ⟨s, hok, hdone⟩ := remapRows_ok disk h.rows
  obtain ⟨s', hok', hparity⟩ := updateXorEncoding_ok fun b hb => by
    rw [hdone.block_eq]
    exact h.parity b (hdone.maxUsed_eq ▸ hb)
  have hmigrated := hdone.migrated hparity
  refine ⟨s', ?_, hmigrated⟩
  rw [remapXor]
  dsimp only
  rw [hok, Loops.ok_bind, hok', Loops.ok_bind]
  exact if_pos fun file hfile => (fitsInt_congr hmigrated.block_eq file).2 (h.sizes file hfile)

/-- **The program comes to its end** exactly when there is a place for every row and room in
`move_rec`, and when all byte offsets and sizes are `int`s. -/
theorem remapXor_iff (disk : ℕ → ℕ → Byte) (stray : ℤ → ℤ) :
    (∃ r, remapXor { bb with disk := disk } failDisk dir stray = .ok r) ↔
      RemapFinishes bb failDisk dir := by
  constructor
  · rintro ⟨r, hok⟩
    obtain ⟨s, hrows, hok⟩ := Loops.bind_eq_ok hok
    obtain ⟨s', hxor, hok⟩ := Loops.bind_eq_ok hok
    obtain ⟨hfinish, hdone⟩ := remapRows_finish hrows
    obtain ⟨hfits, hparity⟩ := updateXorEncoding_finish hxor
    refine ⟨hfinish, fun b hb => ?_, fun file hfile => ?_⟩
    · rw [← hdone.block_eq]
      exact hfits b (hdone.maxUsed_eq.symm ▸ hb)
    · by_contra hnot
      have hall : ¬ ∀ file ∈ (dir.drop 2).reduceOption, file.FitsInt s'.bb := fun hall =>
        hnot ((fitsInt_congr (hdone.migrated hparity).block_eq file).1 (hall file hfile))
      rw [if_neg hall] at hok
      cases hok
  · intro h
    obtain ⟨s, hok, -⟩ := remapXor_ok h disk stray
    exact ⟨_, hok⟩

/-- The entries after. -/
theorem RowsMigrated.entries (h : RowsMigrated bb disk failDisk s) (dir : RootDir)
    (stray : ℤ → ℤ) :
    entriesOf (mountAfter failDisk (rewriteTables failDisk dir stray s))
      (rewriteTables failDisk dir stray s).dir = (entryPairs bb failDisk dir).map Prod.snd := by
  have hsame : ∀ dir', entriesOf (mountAfter failDisk (rewriteTables failDisk dir stray s)) dir' =
      entriesOf bb dir' := by
    intro dir'
    have hslots : ∀ file : InfoFile,
        file.slots (mountAfter failDisk (rewriteTables failDisk dir stray s)) = file.slots bb := by
      intro file
      have hblock : (mountAfter failDisk (rewriteTables failDisk dir stray s)).diskBlockSize =
          bb.diskBlockSize := h.block_eq
      rw [InfoFile.slots, InfoFile.slots, roundToBlockSize, roundToBlockSize, hblock]
    simp only [entriesOf, hslots]
  have hdir : (rewriteTables failDisk dir stray s).dir =
      dir.take 2 ++ (dir.drop 2).map (Option.map (updateFileBlock s)) := rfl
  have hpoint : pointTo s.moveRec = entryAfter bb failDisk := by
    funext x
    rw [entryAfter, h.moves_eq]
  rw [hsame, hdir, entriesOf_append, entriesOf_update h.block_eq, hpoint, entryPairs,
    List.map_append, List.map_map, List.map_map]
  simp only [Function.comp_def, List.map_id']

/-- The free offset that the file system reads is the recorded one, divided by the size of a
block. -/
theorem RowsMigrated.freeOffset_mount (h : RowsMigrated bb disk failDisk s) (stray : ℤ → ℤ)
    (hd : oldDiskId failDisk d < bb.diskTotalNum) :
    (mountAfter failDisk (rewriteTables failDisk dir stray s)).freeOffset d =
      recordedOffset bb failDisk (oldDiskId failDisk d) / bb.diskBlockSize := by
  have hrecord := @updateRaidMetadata_apply failDisk stray s d
  rw [h.total_eq, if_pos hd, h.offset_eq] at hrecord
  simp only [mountAfter, rewriteTables, hrecord, Option.map_some, Option.getD_some, h.block_eq]

/-- **When a block is kept.** -/
theorem RowsMigrated.blockMigrated_iff (h : RowsMigrated bb disk failDisk s)
    (hfail : failDisk < bb.diskTotalNum) (stray : ℤ → ℤ) (x y : ℕ × ℕ) :
    BlockMigrated { bb with disk := disk }
        (mountAfter failDisk (rewriteTables failDisk dir stray s)) x y ↔
      Raid5Data (bb.diskTotalNum - 1) y.1 y.2 ∧
        y.2 < recordedOffset bb failDisk (oldDiskId failDisk y.1) / bb.diskBlockSize ∧
        ∀ o < bb.diskBlockSize, cellsAfter bb failDisk (cellsOf bb disk o)
          (bb.freeOffset failDisk) (oldDiskId failDisk y.1, y.2) = cellsOf bb disk o x := by
  have htotal : (mountAfter failDisk (rewriteTables failDisk dir stray s)).diskTotalNum =
      bb.diskTotalNum - 1 := congrArg (· - 1) h.total_eq
  have hblock : ∀ o, (mountAfter failDisk (rewriteTables failDisk dir stray s)).block y.1 y.2 o =
      s.bb.block (oldDiskId failDisk y.1) y.2 o := fun _ => rfl
  -- a place for data does not hold parity in the old numbers either
  have hold : Raid5Data (bb.diskTotalNum - 1) y.1 y.2 → oldDiskId failDisk y.1 < bb.diskTotalNum ∧
      oldDiskId failDisk y.1 ≠ newParityDiskId bb.diskTotalNum failDisk y.2 := by
    intro hdata
    refine ⟨(oldDiskId_lt hfail).2 hdata.1, fun hparity => hdata.2 ?_⟩
    rw [newParityDiskId_eq] at hparity
    rw [← newDiskId_oldDiskId failDisk y.1, hparity, newDiskId_oldDiskId]
  constructor
  · intro hkept
    have hdata := htotal ▸ hkept.data
    obtain ⟨hlt, hne⟩ := hold hdata
    refine ⟨hdata, ?_, fun o ho => ?_⟩
    · rw [← h.freeOffset_mount stray hlt]
      exact hkept.free
    · rw [← h.cells _ _ hne o ho, ← hblock]
      exact hkept.bytes o ho
  · rintro ⟨hdata, hfree, hcells⟩
    obtain ⟨hlt, hne⟩ := hold hdata
    refine ⟨htotal.symm ▸ hdata, ?_, fun o ho => ?_⟩
    · rw [h.freeOffset_mount stray hlt]
      exact hfree
    · rw [hblock, h.cells _ _ hne o ho]
      exact hcells o ho

/-- The files keep their sizes. -/
theorem map_fileSize_updateFileBlocks (dir : RootDir) (s : RemapState) :
    (updateFileBlocks dir s).map (Option.map InfoFile.fileSize) =
      dir.map (Option.map InfoFile.fileSize) := by
  have hsize : Option.map InfoFile.fileSize ∘ Option.map (updateFileBlock s) =
      Option.map InfoFile.fileSize := by
    rw [Option.map_comp_map]
    rfl
  rw [updateFileBlocks, List.map_append, List.map_map, hsize, ← List.map_append,
    List.take_append_drop]

/-- The rows in front of a recorded offset add up to zero. -/
theorem RowsMigrated.rows_mount (h : RowsMigrated bb disk failDisk s) (hn : 2 ≤ bb.diskTotalNum)
    (hfail : failDisk < bb.diskTotalNum) (stray : ℤ → ℤ) {b : ℕ} {record : RaidMetadata}
    (hrecord : updateRaidMetadata failDisk stray s d = some record) (hb : b < record.freeOffset)
    {o : ℕ} (ho : o < bb.diskBlockSize) :
    ∑ d ∈ Finset.range (mountAfter failDisk (rewriteTables failDisk dir stray s)).diskTotalNum,
      (mountAfter failDisk (rewriteTables failDisk dir stray s)).block d b o = 0 := by
  have htotal : (mountAfter failDisk (rewriteTables failDisk dir stray s)).diskTotalNum =
      bb.diskTotalNum - 1 := congrArg (· - 1) h.total_eq
  rw [updateRaidMetadata_apply] at hrecord
  split at hrecord
  · rename_i hd
    obtain rfl := Option.some.inj hrecord
    rw [htotal, ← h.rows hn _ (h.total_eq ▸ hd) (oldDiskId_ne failDisk d) b hb o ho]
    exact sum_oldDiskId hfail fun j => s.bb.block j b o
  · cases hrecord

/-- Devices that hold the same byte everywhere in a block. -/
theorem cellsOf_content (bb : NcfsState) (c : ℕ × ℕ → Byte) {o : ℕ} (ho : o < bb.diskBlockSize) :
    cellsOf bb (fun d x => c (d, x / bb.diskBlockSize)) o = c := by
  funext x
  have hdiv : (x.2 * bb.diskBlockSize + o) / bb.diskBlockSize = x.2 := by
    rw [Nat.mul_comm, Nat.mul_add_div bb.diskBlockSize_pos, Nat.div_eq_of_lt ho, Nat.add_zero]
  exact congrArg (fun b => c (x.1, b)) hdiv

/-- Under its condition a file is kept by every store of the layout. -/
theorem RemapFinishes.migrates (hfinish : RemapFinishes bb failDisk dir)
    (hv : RemapValid bb failDisk dir)
    (hkept : ∀ p ∈ entryPairs bb failDisk dir, KeptAt bb failDisk p.1 p.2)
    (hrows : RowsZero { bb with disk := disk }) :
    Migrates { bb with disk := disk } failDisk dir := by
  intro stray
  have hdisks := hv.disks
  have hnodup : ((entryPairs bb failDisk dir).map Prod.fst).Nodup := by
    rw [entryPairs_fst]
    exact hv.nodup
  have hlt : ∀ p ∈ entryPairs bb failDisk dir, p.1.1 < bb.diskTotalNum := by
    intro p hp
    refine (hv.blocks p.1 ?_).1.1
    rw [← entryPairs_fst bb failDisk dir]
    exact List.mem_map_of_mem hp
  obtain ⟨s, hok, hs⟩ := remapXor_ok hfinish disk stray
  have hentries := hs.entries dir stray
  refine ⟨_, hok, ?_, ?_, ?_, ?_⟩
  · exact map_fileSize_updateFileBlocks dir s
  · have hbefore : entriesOf { bb with disk := disk } dir =
        (entryPairs bb failDisk dir).map Prod.fst := (entryPairs_fst bb failDisk dir).symm
    rw [hentries, hbefore]
    refine List.forall₂_map_left_iff.2 (List.forall₂_map_right_iff.2 (List.forall₂_same.2 ?_))
    intro p hp
    have hp' := hkept p hp
    refine (hs.blockMigrated_iff hv.failed stray p.1 p.2).2 ⟨hp'.data, hp'.free, fun o ho => ?_⟩
    exact (comesFrom_iff hdisks hv.failed (hlt p hp) _).1 hp'.holds _ fun b => hrows b o ho
  · rw [hentries]
    refine List.Nodup.map_on (fun p hp q hq heq => ?_) hnodup.of_map
    refine List.inj_on_of_nodup_map hnodup hp hq ?_
    -- one place cannot hold what two blocks held
    refine eq_of_contents (by omega) (hlt q hq) fun c hc => ?_
    rw [← (comesFrom_iff hdisks hv.failed (hlt p hp) _).1 (hkept p hp).holds c hc, heq]
    exact (comesFrom_iff hdisks hv.failed (hlt q hq) _).1 (hkept q hq).holds c hc
  · rintro b ⟨d, record, hrecord, hlt⟩ o ho
    exact hs.rows_mount (by omega) hv.failed stray hrecord hlt ho

/-- A file that every store of the layout keeps is kept under the condition. -/
theorem KeptAt.of_migrates (hv : RemapValid bb failDisk dir)
    (h : ∀ disk, RowsZero { bb with disk := disk } → Migrates { bb with disk := disk } failDisk dir)
    (hfinish : RemapFinishes bb failDisk dir) {p : (ℕ × ℕ) × (ℕ × ℕ)}
    (hp : p ∈ entryPairs bb failDisk dir) : KeptAt bb failDisk p.1 p.2 := by
  have hcontent : ∀ c, Balanced bb.diskTotalNum c →
      Raid5Data (bb.diskTotalNum - 1) p.2.1 p.2.2 ∧
        p.2.2 < recordedOffset bb failDisk (oldDiskId failDisk p.2.1) / bb.diskBlockSize ∧
        cellsAfter bb failDisk c (bb.freeOffset failDisk) (oldDiskId failDisk p.2.1, p.2.2) =
          c p.1 := by
    intro c hc
    have hrows : RowsZero { bb with disk := fun d x => c (d, x / bb.diskBlockSize) } := by
      intro b o ho
      rw [← hc b]
      exact Finset.sum_congr rfl fun j _ => congrFun (cellsOf_content bb c ho) (j, b)
    obtain ⟨r, hok, hr⟩ := h _ hrows fun _ => 0
    obtain ⟨s, hok', hs⟩ :=
      remapXor_ok hfinish (fun d x => c (d, x / bb.diskBlockSize)) fun _ => 0
    obtain rfl := Except.ok.inj (hok.symm.trans hok')
    have hblocks := hr.blocks
    have hbefore : entriesOf { bb with disk := fun d x => c (d, x / bb.diskBlockSize) } dir =
        (entryPairs bb failDisk dir).map Prod.fst := (entryPairs_fst bb failDisk dir).symm
    rw [hs.entries, hbefore, List.forall₂_map_left_iff, List.forall₂_map_right_iff,
      List.forall₂_same] at hblocks
    obtain ⟨hdata, hfree, hcells⟩ := (hs.blockMigrated_iff hv.failed _ p.1 p.2).1 (hblocks p hp)
    have hzero := hcells 0 bb.diskBlockSize_pos
    rw [cellsOf_content bb c bb.diskBlockSize_pos] at hzero
    exact ⟨hdata, hfree, hzero⟩
  have hmem : p.1 ∈ entriesOf bb dir := by
    rw [← entryPairs_fst bb failDisk dir]
    exact List.mem_map_of_mem hp
  obtain ⟨hdata, hfree, -⟩ := hcontent (fun _ => 0) fun _ => Finset.sum_eq_zero fun _ _ => rfl
  refine ⟨hdata, hfree, (comesFrom_iff hv.disks hv.failed (hv.blocks _ hmem).1.1 _).2
    fun c hc => ?_⟩
  exact (hcontent c hc).2.2

end Result

/-- Four disks of which the last has failed, all with the first two rows in use. -/
def twoRows : NcfsState := { NcfsState.blank 4 3 1 (by decide) 100 with freeOffset := fun _ => 2 }

/-- A file whose block stays where it is. -/
def firstBlock : InfoFile := ⟨1, fun _ => (0, 0)⟩

/-- A file with the other data of these rows. -/
def fiveBlocks : InfoFile := ⟨5, fun i => [(1, 0), (2, 0), (0, 1), (1, 1), (3, 1)].getD i (0, 0)⟩

/-- Four disks of which the last has failed and has no rows.  The free offset of the first one is
moved to its last new parity block. -/
def raised : NcfsState :=
  { NcfsState.blank 4 3 2 (by decide) 100 with freeOffset := fun d => [2, 10, 2, 0].getD d 0 }

/-- Four disks of which the last has failed, all with the first four rows in use. -/
def fourRows : NcfsState := { NcfsState.blank 4 3 1 (by decide) 100 with freeOffset := fun _ => 4 }

end Ncfs
