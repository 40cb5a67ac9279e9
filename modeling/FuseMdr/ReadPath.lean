/-
Reading a file.

`ncfs_read` asks `readFileCache` for a range of a file, which looks up the blocks of the range in
the block table and has the coding layer decode them one after the other.  A failed decode makes
`readFileCache` return an `int` below zero, which `ncfs_read` stores as a `size_t`.

Main definitions:

* `Ncfs.Decoder` — `decode` of a coding layer, on a store that reads do not change;
* `Ncfs.readCalls` — the blocks that a range needs;
* `Ncfs.readFileCache`, `Ncfs.ncfsRead` — the two functions, with their conversions;
* `Ncfs.ReportsFailure` — a read that cannot decode one of its blocks returns a negative value.

Main results:

* `Ncfs.readFileCache_of_fails` — a failed decode is reported by `readFileCache`;
* `Ncfs.reportsFailure_iff` — when `ncfs_read` reports it;
* `Ncfs.ncfsRead_hides_failure` — a read that does not.
-/
import FuseMdr.BlockTables
import FuseMdr.Raid5

set_option relaxedAutoImplicit false
set_option autoImplicit false

namespace Ncfs

open IntFile

/-! ### Decoding -/

/-- `codingLayer->decode(disk_id, buf, size, offset)`: the result is the number of bytes or
negative. -/
structure Decoder where
  /-- The result, from `disk_id`, `size` and `offset`. -/
  result : ℤ → ℤ → ℤ → ℤ
  /-- What is done to the buffer. -/
  data : ℤ → ℤ → ℤ → Buf → Buf

/-- A `decode` of one of the layers: all bytes are decoded, or the result is `-1`. -/
def Decoder.ofLayer (decode : ℕ → Buf → ℕ → ℕ → Except CodingError Buf) : Decoder where
  result diskId size offset :=
    match decode diskId.toNat (fun _ => 0) size.toNat offset.toNat with
    | .ok _ => size
    | .error _ => -1
  data diskId size offset buf :=
    match decode diskId.toNat buf size.toNat offset.toNat with
    | .ok buf => buf
    | .error _ => buf

/-! ### The range -/

/-- A call of `decode`: the slot that is looked up, and the bytes of its block that are asked
for. -/
structure BlockRead where
  /-- The number of the block in the file. -/
  slot : ℕ
  /-- `copySize`. -/
  size : ℕ
  /-- `readOffset`. -/
  readOffset : ℕ

/-- `endBlock`. -/
def endBlock (blockSize size offset : ℕ) : ℕ :=
  if (offset + size) % blockSize = 0 then (offset + size) / blockSize - 1
  else (offset + size) / blockSize

/-- The rest of the block at the start of the range. -/
def firstRead (blockSize offset : ℕ) : BlockRead :=
  let copySize := blockSize - offset % blockSize
  { slot := offset / blockSize, size := copySize, readOffset := blockSize - copySize }

/-- The whole blocks behind the first one. -/
def middleRead (blockSize offset count : ℕ) : BlockRead :=
  { slot := offset / blockSize + 1 + count, size := blockSize, readOffset := 0 }

/-- The last block, up to the end of the range. -/
def lastRead (blockSize size offset : ℕ) : BlockRead :=
  let copySize := (offset + size) % blockSize
  { slot := endBlock blockSize size offset
    size := if copySize = 0 then blockSize else copySize
    readOffset := 0 }

/-- The blocks that a range needs. -/
def readCalls (blockSize size offset : ℕ) : List BlockRead :=
  firstRead blockSize offset ::
    if endBlock blockSize size offset ≤ offset / blockSize then []
    else (List.range (endBlock blockSize size offset - (offset / blockSize + 1))).map
      (middleRead blockSize offset) ++ [lastRead blockSize size offset]

/-! ### The functions -/

/-- `FATALERROR`. -/
def fatalError : ℤ := -3

section Functions

variable (D : Decoder) (blockSize : ℕ) (fd : File)

/-- The fields of the record in a slot, and zeros where the file ends. -/
def readInfo (slot : ℕ) : ℤ × ℤ :=
  let blockInfo := (fd.pread (fun _ => 0) sizeofBlockInfo (slotOffset slot)).2
  (intAt blockInfo 0, intAt blockInfo 4)

/-- The offset on the disk; the product is one of `int`s. -/
def BlockRead.diskOffset (r : BlockRead) : ℤ :=
  toInt ((readInfo fd r.slot).2 * blockSize) + r.readOffset

/-- The result of the call. -/
def BlockRead.result (r : BlockRead) : ℤ :=
  D.result (readInfo fd r.slot).1 r.size (r.diskOffset blockSize fd)

/-- The call, for the buffer at `buf + start`. -/
def BlockRead.data (r : BlockRead) (start : ℕ) (buf : Buf) : Buf := fun j =>
  if j < start then buf j
  else D.data (readInfo fd r.slot).1 r.size (r.diskOffset blockSize fd) (fun j => buf (start + j))
    (j - start)

/-- One pass of the loop over the whole blocks. -/
def middleStep (offset startBlockOffset : ℕ) (buf : Buf) (count : ℕ) : Bool × Buf :=
  let r := middleRead blockSize offset count
  (0 ≤ r.result D blockSize fd, r.data D blockSize fd (startBlockOffset + count * blockSize) buf)

/-- `NoCache::readFileCache`. -/
def readFileCache (buf : Buf) (size offset : ℕ) : ℤ × Buf :=
  let startBlock := offset / blockSize
  let first := firstRead blockSize offset
  let retstat := first.result D blockSize fd
  let buf := first.data D blockSize fd 0 buf
  if retstat < 0 then (fatalError, buf)
  else
    let startBlockOffset := retstat.toNat
    let finishedSize := retstat
    if endBlock blockSize size offset ≤ startBlock then (toInt finishedSize, buf)
    else
      let (ok, buf) := Loops.untilFail (middleStep D blockSize fd offset startBlockOffset) buf
        (List.range (endBlock blockSize size offset - (startBlock + 1)))
      if ok then
        let last := lastRead blockSize size offset
        let retstat := last.result D blockSize fd
        let buf := last.data D blockSize fd (size - last.size) buf
        if retstat < 0 then (fatalError, buf) else (toInt (finishedSize + retstat), buf)
      else (fatalError, buf)

/-- The end of `ncfs_read`, from what `readFileCache` has returned as a `size_t`: the value that is
returned. -/
def bytesRead (errno : ℤ) (size : ℕ) (bytesReadAlready : ℤ) : ℤ :=
  if bytesReadAlready ≤ 0 then toSizeT (-errno)
  else if bytesReadAlready > size then size
  else bytesReadAlready

/-- `ncfs_read` in an operation mode, for the file with this info file.  `errno` is what earlier
calls have left.  In big-block mode `bytes_read_already` bytes are copied, which may be `-errno` as
a `size_t`. -/
def ncfsRead (operationMode : ℕ) (errno : ℤ) (buf : Buf) (size offset : ℕ) :
    Except CodingError (ℤ × Buf) :=
  if operationMode = 2 then .ok (-1, buf)
  else if sysblocksize < blockSize then
    let deployblocksize := if size < blockSize then size else blockSize
    let (ret, bigreadbuf) := readFileCache D blockSize fd (fun _ => 0) deployblocksize offset
    let ret := toSizeT ret
    let ret : ℤ := if ret > deployblocksize then deployblocksize else ret
    let bytes := bytesRead errno size ret
    -- `bigreadbuf` has `blockSize` bytes
    if bytes ≤ blockSize then .ok (toInt bytes, copyBufAt 0 bytes.toNat buf bigreadbuf)
      else .error .undefined
  else
    let (ret, buf) := readFileCache D blockSize fd buf size offset
    .ok (toInt (bytesRead errno size (toSizeT ret)), buf)

end Functions

/-! ### Failures -/

section Failures

variable {D : Decoder} {blockSize : ℕ} {fd : File} {size offset : ℕ}

/-- A failed decode is reported by `readFileCache`, whichever block it is. -/
theorem readFileCache_of_fails {r : BlockRead} (hr : r ∈ readCalls blockSize size offset)
    (hfails : r.result D blockSize fd < 0) (buf : Buf) :
    (readFileCache D blockSize fd buf size offset).1 = fatalError := by
  rw [readFileCache]
  dsimp only
  by_cases hfirst : (firstRead blockSize offset).result D blockSize fd < 0
  · rw [if_pos hfirst]
  · rw [if_neg hfirst]
    rw [readCalls] at hr
    rcases List.mem_cons.1 hr with rfl | hr
    · exact absurd hfails hfirst
    · by_cases hend : endBlock blockSize size offset ≤ offset / blockSize
      · rw [if_pos hend] at hr
        cases hr
      · rw [if_neg hend] at hr ⊢
        have hloop := Loops.untilFail_fst (f := middleStep D blockSize fd offset
          ((firstRead blockSize offset).result D blockSize fd).toNat) (p := fun count =>
            decide (0 ≤ (middleRead blockSize offset count).result D blockSize fd)) (fun _ _ => rfl)
          ((firstRead blockSize offset).data D blockSize fd 0 buf)
          (List.range (endBlock blockSize size offset - (offset / blockSize + 1)))
        generalize Loops.untilFail _ _ _ = result at hloop ⊢
        obtain ⟨ok, buf'⟩ := result
        cases ok with
        | false => rfl
        | true =>
            rcases List.mem_append.1 hr with hr | hr
            · obtain ⟨count, hcount, rfl⟩ := List.mem_map.1 hr
              have hok := List.all_eq_true.1 hloop.symm count hcount
              exact absurd hfails (not_lt.2 (of_decide_eq_true hok))
            · rw [List.mem_singleton.1 hr] at hfails
              exact congrArg Prod.fst (if_pos hfails)

/-- The bytes that `ncfs_read` asks for: at most a block in big-block mode. -/
def askedSize (blockSize size : ℕ) : ℕ :=
  if sysblocksize < blockSize ∧ blockSize ≤ size then blockSize else size

/-- When one of the blocks that it needs cannot be decoded, `ncfs_read` returns a negative value. -/
def ReportsFailure (D : Decoder) (blockSize : ℕ) (fd : File) (operationMode : ℕ) (errno : ℤ)
    (buf : Buf) (size offset : ℕ) : Prop :=
  (∃ r ∈ readCalls blockSize (askedSize blockSize size) offset, r.result D blockSize fd < 0) →
    ∃ read, ncfsRead D blockSize fd operationMode errno buf size offset = .ok read ∧ read.1 < 0

/-- A `size_t` that is cut off by the conversions around `fatalError` is negative as an `int`. -/
theorem toInt_of_fatal {n : ℕ} (hn : n < 2 ^ 64) (hle : ¬ toSizeT fatalError > n) :
    toInt n < 0 := by
  simp only [toSizeT, fatalError] at hle
  simp only [toInt, Int.bmod]
  omega

theorem toInt_fatal : toInt (toSizeT fatalError) < 0 := by decide

/-- The value that is returned after a failed decode of `n` of the `size` bytes. -/
theorem bytesRead_fatal {size : ℕ} (hsize : size < 2 ^ 64) (errno : ℤ) :
    toInt (bytesRead errno size (toSizeT fatalError)) < 0 ↔ toInt size < 0 := by
  have hpos : ¬ toSizeT fatalError ≤ 0 := by decide
  rw [bytesRead, if_neg hpos]
  split
  · exact Iff.rfl
  · exact iff_of_true toInt_fatal (toInt_of_fatal hsize ‹_›)

/-- `bytes_read_already` is a `size_t`. -/
theorem bytesRead_nonneg (errno : ℤ) (size : ℕ) (bytesReadAlready : ℤ) :
    0 ≤ bytesRead errno size bytesReadAlready := by
  rw [bytesRead]
  split
  · exact Int.emod_nonneg _ (by decide)
  · split
    · exact Int.natCast_nonneg size
    · omega

/-- The numbers of bytes that fit the buffer of one block are no negative `int`s. -/
theorem toInt_nonneg {blockSize : ℕ} (hblock : blockSize < 2 ^ 31) {bytes : ℤ} (hpos : 0 ≤ bytes)
    (hle : bytes ≤ blockSize) : 0 ≤ toInt bytes := by
  rw [toInt_of_fits ⟨by omega, by omega⟩]
  exact hpos

/-- In big-block mode the conversions make the value at least zero, or the copy behind them goes
wrong. -/
theorem ncfsRead_big_nonneg (hbig : sysblocksize < blockSize) (hblock : blockSize < 2 ^ 31)
    {operationMode : ℕ} (hmode : operationMode ≠ 2) (errno : ℤ) (buf : Buf) {read : ℤ × Buf}
    (hread : ncfsRead D blockSize fd operationMode errno buf size offset = .ok read) :
    0 ≤ read.1 := by
  rw [ncfsRead, if_neg hmode, if_pos hbig] at hread
  dsimp only at hread
  generalize hbytes : bytesRead errno size _ = bytes at hread
  by_cases hle : bytes ≤ blockSize
  · rw [if_pos hle] at hread
    obtain rfl := Except.ok.inj hread
    exact toInt_nonneg hblock (hbytes ▸ bytesRead_nonneg errno size _) hle
  · rw [if_neg hle] at hread
    cases hread

/-- What `ncfs_read` returns after a failed decode. -/
theorem ncfsRead_of_fails {operationMode : ℕ} (hmode : operationMode ≠ 2) (hsize : size < 2 ^ 64)
    (hblock : blockSize < 2 ^ 31) {r : BlockRead}
    (hr : r ∈ readCalls blockSize (askedSize blockSize size) offset)
    (hfails : r.result D blockSize fd < 0) (errno : ℤ) (buf : Buf) :
    (∃ read, ncfsRead D blockSize fd operationMode errno buf size offset = .ok read ∧ read.1 < 0) ↔
      blockSize ≤ sysblocksize ∧ toInt size < 0 := by
  by_cases hbig : sysblocksize < blockSize
  · refine iff_of_false ?_ fun h => absurd hbig (not_lt.2 h.1)
    rintro ⟨read, hread, hneg⟩
    exact absurd hneg (not_lt.2 (ncfsRead_big_nonneg hbig hblock hmode errno buf hread))
  · have hasked : askedSize blockSize size = size := if_neg fun h => hbig h.1
    rw [hasked] at hr
    rw [ncfsRead, if_neg hmode, if_neg hbig]
    simp only [Except.ok.injEq, exists_eq_left', readFileCache_of_fails hr hfails,
      not_lt.1 hbig, true_and]
    exact bytesRead_fatal hsize errno

/-- **Failed reads.**  On every store, for every file and range: a failed decode makes `ncfs_read`
return a negative value exactly in operation mode `2`, or when no decode fails, or without big
blocks when the size of the range is negative as an `int`. -/
theorem reportsFailure_iff (D : Decoder) (blockSize : ℕ) (fd : File) (operationMode : ℕ) (errno : ℤ)
    (buf : Buf) (size offset : ℕ) (hsize : size < 2 ^ 64) (hblock : blockSize < 2 ^ 31) :
    ReportsFailure D blockSize fd operationMode errno buf size offset ↔
      operationMode = 2 ∨
      (∀ r ∈ readCalls blockSize (askedSize blockSize size) offset, 0 ≤ r.result D blockSize fd) ∨
      blockSize ≤ sysblocksize ∧ toInt size < 0 := by
  by_cases hmode : operationMode = 2
  · refine iff_of_true (fun _ => ⟨(-1, buf), ?_, neg_one_lt_zero⟩) (.inl hmode)
    rw [ncfsRead, if_pos hmode]
  · by_cases hfails : ∃ r ∈ readCalls blockSize (askedSize blockSize size) offset,
      r.result D blockSize fd < 0
    · obtain ⟨r, hr, hlt⟩ := hfails
      have hall : ¬ ∀ r ∈ readCalls blockSize (askedSize blockSize size) offset,
          0 ≤ r.result D blockSize fd :=
        fun hall => absurd hlt (not_lt.2 (hall r hr))
      rw [ReportsFailure, ncfsRead_of_fails hmode hsize hblock hr hlt]
      simp only [hmode, hall, false_or]
      exact ⟨fun h => h ⟨r, hr, hlt⟩, fun h _ => h⟩
    · refine iff_of_true (fun h => absurd h hfails) (.inr (.inl fun r hr => ?_))
      exact not_lt.1 fun hlt => hfails ⟨r, hr, hlt⟩

/-- A RAID5 store of three disks, of which the first two have failed. -/
def twoFailed : NcfsState :=
  { NcfsState.blank 3 2 4096 sysblocksize_pos 1 with diskStatus := fun i => if i < 2 then 1 else 0 }

/-- The info file of a file of one block, which lies on the first disk. -/
def oneBlockInfo : File :=
  (File.empty.pwrite (record [4096]) 4 0).pwrite (record [0, 0]) 8 (slotOffset 0)

/-- In operation mode `2` nothing is read; and in operation mode `1`, where the block of the file
cannot be decoded, a range of `2^31` bytes is returned as a negative number. -/
theorem reportsFailure_iff_stopped :
    let D : Decoder := .ofLayer (Coding4Raid5.decode twoFailed)
    ReportsFailure D 4096 oneBlockInfo 2 0 (fun _ => 0) 4096 0 ∧
      (firstRead 4096 0).result D 4096 oneBlockInfo < 0 ∧
      ReportsFailure D 4096 oneBlockInfo 1 0 (fun _ => 0) (2 ^ 31) 0 := by
  intro D
  exact ⟨(reportsFailure_iff D 4096 oneBlockInfo 2 0 _ 4096 0 (by decide) (by decide)).2 (.inl rfl),
    by decide +kernel,
    (reportsFailure_iff D 4096 oneBlockInfo 1 0 _ (2 ^ 31) 0 (by decide) (by decide)).2
      (.inr (.inr ⟨le_rfl, by decide⟩))⟩

/-- In operation mode `1` the block cannot be decoded, and `ncfs_read` returns the size of the
range. -/
theorem ncfsRead_hides_failure :
    ¬ ReportsFailure (.ofLayer (Coding4Raid5.decode twoFailed)) 4096 oneBlockInfo 1 0
      (fun _ => 0) 4096 0 := by
  intro h
  have hvalue : (ncfsRead (.ofLayer (Coding4Raid5.decode twoFailed)) 4096 oneBlockInfo 1 0
      (fun _ => 0) 4096 0).map Prod.fst = .ok 4096 := by
    decide +kernel
  obtain ⟨read, hread, hneg⟩ := h ⟨firstRead 4096 0, List.mem_cons_self .., by decide +kernel⟩
  rw [hread] at hvalue
  have hfull : read.1 = 4096 := Except.ok.inj hvalue
  omega

end Failures

end Ncfs
