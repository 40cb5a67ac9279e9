/-
**When the recorded length is the length of the file.**

A file's size and its block table lie in the info file.  `ncfs_write` records the end of its own
range as the size, however long the file was; `ncfs_truncate` cuts the info file itself, the size
and the table with it.  Both are compared with the length of a file under POSIX: a write makes it
the larger of the old length and the end of the range, a truncation the new size.

Main definitions:

* `Ncfs.TrackedFile`, `Ncfs.lengthStep` — a file with the length and the table that it should have;
* `Ncfs.TrackedFile.Tracks` — the recorded size is the length, and every block below it is in the
  table;
* `Ncfs.LengthOp.KeepsLength` — a write reaches the end of the file, and a truncation cuts nothing.

Main results:

* `Ncfs.ncfsWrite_records` — what a successful write leaves in the info file;
* `Ncfs.tracks_write_iff`, `Ncfs.tracks_truncate_iff` — one operation;
* `Ncfs.lengthTracked_iff` — **the exact condition**: in a run of successful operations the length
  is tracked throughout exactly when every operation meets it;
* `Ncfs.rewrite_not_tracked` — writing the front of a file again: the blocks behind it are
  forgotten.
-/
import FuseMdr.BlockTables

set_option relaxedAutoImplicit false
set_option autoImplicit false

namespace Ncfs

open IntFile

/-! ### The file and its length -/

/-- A file system, and what should be recorded for one of its files: the length, and the blocks. -/
structure TrackedFile where
  fs : FsState
  length : ℕ
  table : ℕ → Option (ℕ × ℕ)

/-- Writes and truncations of the file. -/
inductive LengthOp
  /-- `ncfs_write`. -/
  | write (buf : Buf) (size offset : ℕ) (mem : Buf)
  /-- `ncfs_truncate`. -/
  | truncate (newsize : ℕ)

section

variable (L : CodingLayer) (path : String) (f : ℕ)

/-- The slots of a write. -/
def writtenSlots (blockSize : ℕ) (buf : Buf) (size offset : ℕ) (mem : Buf) : List ℕ :=
  (blockWrites blockSize buf size offset mem).map BlockWrite.slot

/-- One operation on the file, which is the info file `f` at `path`.  The blocks that a write stores
replace those of its slots; the blocks behind the new length are dropped. -/
def lengthStep (s : TrackedFile) : LengthOp → TrackedFile
  | .write buf size offset mem =>
      let fs := (ncfsWrite L s.fs path buf size offset mem).2
      let length := max s.length (offset + size)
      ⟨fs, length, fun i =>
        if i < blocksOf s.fs.st.diskBlockSize length then
          if i ∈ writtenSlots s.fs.st.diskBlockSize buf size offset mem then fs.slots f i
          else s.table i
        else none⟩
  | .truncate newsize =>
      ⟨ncfsTruncate s.fs path newsize, newsize, fun i =>
        if i < blocksOf s.fs.st.diskBlockSize newsize then s.table i else none⟩

/-- The operation succeeds. -/
def LengthOp.Succeeds (s : TrackedFile) : LengthOp → Prop
  | .write buf size offset mem => (ncfsWrite L s.fs path buf size offset mem).1 = size
  | .truncate _ => True

/-- **The length is tracked**: the recorded size is the length, and every block of the file is in
the table. -/
def TrackedFile.Tracks (s : TrackedFile) : Prop :=
  intAt (s.fs.info f).byte 0 = s.length ∧
    ∀ i x, s.table i = some x → Stored (s.fs.info f) (slotOffset i) [(x.1 : ℤ), x.2]

/-- The condition: a write ends at the end of the file or behind it, at a place that an `int` can
hold.  A truncation is to the length that the file has, or to fewer than four bytes and these are
what is left of the recorded size; and what it leaves of the info file holds the table. -/
def LengthOp.KeepsLength (s : TrackedFile) : LengthOp → Prop
  | .write _ size offset _ => s.length ≤ offset + size ∧ offset + size < 2 ^ 31
  | .truncate newsize =>
      (if 4 ≤ newsize then newsize = s.length else s.length % 256 ^ newsize = newsize) ∧
        ∀ i < blocksOf s.fs.st.diskBlockSize newsize, s.table i ≠ none →
        slotOffset (i + 1) ≤ newsize

end

/-- The file is open, in block mode. -/
structure TrackedFile.Open (path : String) (f : ℕ) (s : TrackedFile) : Prop where
  names_eq : s.fs.names path = some f
  tables : s.fs.Tables
  block_le : s.fs.st.diskBlockSize ≤ sysblocksize

variable {L : CodingLayer} {path : String} {f : ℕ} {fs : FsState} {s : TrackedFile}

/-! ### Recorded integers -/

/-- An `int` is in the range of an `int`. -/
theorem fits_intAt (buf : ℕ → UInt8) (off : ℕ) : Fits (intAt buf off) := by
  have h₀ := (buf off).toNat_lt
  have h₁ := (buf (off + 1)).toNat_lt
  have h₂ := (buf (off + 2)).toNat_lt
  have h₃ := (buf (off + 3)).toNat_lt
  rw [intAt]
  constructor <;> split <;> omega

/-- What the first bytes of a size make, when a truncation has left fewer than four of them. -/
theorem intAt_truncate {fd : File} {n length : ℕ} (hn : n < 4) (h : intAt fd.byte 0 = length) :
    intAt (fd.truncate n).byte 0 = (length % 256 ^ n : ℕ) := by
  have h₀ := (fd.byte 0).toNat_lt
  have h₁ := (fd.byte 1).toNat_lt
  have h₂ := (fd.byte 2).toNat_lt
  have h₃ := (fd.byte 3).toNat_lt
  have hbyte : ∀ i, (fd.truncate n).byte i = if i < n then fd.byte i else 0 := fun _ => rfl
  rw [intAt] at h ⊢
  simp only [hbyte, Nat.zero_add] at h ⊢
  split at h
  · interval_cases n <;> simp <;> omega
  · omega

/-- What a write leaves in the info file: the recorded size, and the other slots. -/
structure Records (f : ℕ) (fs fs' : FsState) (fileSize : ℤ) (slots : List ℕ) : Prop where
  block_eq : fs'.st.diskBlockSize = fs.st.diskBlockSize
  names_eq : fs'.names = fs.names
  size_eq : intAt (fs'.info f).byte 0 = intAt (record [fileSize]) 0
  kept : ∀ i ∉ slots, ∀ x : ℕ × ℕ, Stored (fs.info f) (slotOffset i) [(x.1 : ℤ), x.2] →
    Stored (fs'.info f) (slotOffset i) [(x.1 : ℤ), x.2]

theorem storeBlock_records {w : BlockWrite} (hpath : fs.names path = some f)
    (hok : (storeBlock L path fs w).1 = true) :
    Records f fs (storeBlock L path fs w).2 w.fileSize [w.slot] := by
  have hblock : (storeBlock L path fs w).2.st.diskBlockSize = fs.st.diskBlockSize := by
    rw [storeBlock_st]
    exact (L.encode_sameStore ..).block_eq
  have hcase := storeBlock_case L path fs w
  generalize storeBlock L path fs w = result at hcase hok hblock ⊢
  cases hcase with
  | noRoom st hencode => cases hok
  | stored x st hencode =>
      have hopen : FsState.openCreate { fs with st := st } path = { fs with st := st } :=
        FsState.openCreate_of_some hpath
      have hnames : (FsState.openCreate { fs with st := st } path).names path = some f := by
        rw [hopen]
        exact hpath
      have heq : FsState.recordBlock { fs with st := st } path w x = _ :=
        FsState.recordBlock_eq hnames x
      rw [hopen] at heq
      refine ⟨hblock, by rw [heq], ?_, fun i hi y hy => ?_⟩
      · rw [heq]
        dsimp only
        rw [Function.update_self]
        refine intAt_congr fun k hk => ?_
        -- the slots of the table lie behind the size
        have hslot : ¬(slotOffset w.slot ≤ 0 + k ∧ 0 + k < slotOffset w.slot + 8) := by
          simp only [slotOffset, sizeofBlockInfo]
          omega
        exact (if_neg hslot).trans (if_pos ⟨Nat.zero_le _, by omega⟩)
      · rw [heq]
        dsimp only
        rw [Function.update_self]
        have hne : i ≠ w.slot := fun h => hi (List.mem_singleton.2 h)
        refine Stored.pwrite (hy.pwrite (.inl ?_)) ?_
        all_goals
          simp only [slotOffset, sizeofBlockInfo, List.length_cons, List.length_nil]
          omega

/-- The calls of `encode` of a write. -/
theorem stores_records {ws : List BlockWrite} {w : BlockWrite} (hlast : ws.getLast? = some w)
    (hpath : fs.names path = some f) (hok : (Loops.untilFail (storeBlock L path) fs ws).1 = true) :
    Records f fs (Loops.untilFail (storeBlock L path) fs ws).2 w.fileSize
      (ws.map BlockWrite.slot) := by
  induction ws generalizing fs with
  | nil => cases hlast
  | cons v ws ih =>
      have hone := fun h => storeBlock_records (L := L) (w := v) hpath h
      rw [Loops.untilFail] at hok ⊢
      generalize storeBlock L path fs v = result at hone hok ⊢
      obtain ⟨ok, fs₁⟩ := result
      cases ok with
      | false => cases hok
      | true =>
          have hone := hone rfl
          cases ws with
          | nil =>
              cases hlast
              exact hone
          | cons v' ws =>
              have hrest : Records f fs₁ _ _ _ := ih hlast (hone.names_eq ▸ hpath) hok
              refine ⟨hrest.block_eq.trans hone.block_eq, hrest.names_eq.trans hone.names_eq,
                hrest.size_eq, fun i hi x hx => ?_⟩
              rw [List.map_cons, List.mem_cons, not_or] at hi
              exact hrest.kept i hi.2 x (hone.kept i (fun h => hi.1 (List.mem_singleton.1 h)) x hx)

/-- The last call records the end of the range. -/
theorem getLast_blockChunks {blockSize : ℕ} (hblock : 0 < blockSize) (buf : Buf) (offset : ℕ)
    {fuel size : ℕ} (hfuel : size ≤ fuel) (hpos : 0 < size) (mem : Buf) (pos : ℕ) :
    ∃ w, (blockChunks blockSize buf offset fuel mem size pos).getLast? = some w ∧
      w.fileSize = (offset + pos + size : ℕ) := by
  induction fuel generalizing size mem pos with
  | zero => omega
  | succ fuel ih =>
      rw [blockChunks, if_neg hpos.ne']
      dsimp only
      by_cases hle : size ≤ blockSize
      · have hrest : ∀ mem, blockChunks blockSize buf offset fuel mem 0 (pos + size) = [] := by
          intro mem
          cases fuel with
          | zero => rfl
          | succ fuel => exact if_pos rfl
        simp only [if_pos hle, Nat.sub_self, hrest]
        refine ⟨_, List.getLast?_singleton .., ?_⟩
        push_cast
        rfl
      · simp only [if_neg hle]
        obtain ⟨w, hw, hsize⟩ := @ih (size - blockSize) (by omega) (by omega)
          (fun j => if j < blockSize then buf (pos + j) else mem j) (pos + blockSize)
        refine ⟨w, ?_, hsize.trans (congrArg _ (by omega))⟩
        rw [List.getLast?_cons, hw]
        rfl

theorem getLast_blockWrites {blockSize : ℕ} (hblock : 0 < blockSize) (buf : Buf) (size offset : ℕ)
    (mem : Buf) :
    ∃ w, (blockWrites blockSize buf size offset mem).getLast? = some w ∧
    w.fileSize = (offset + size : ℕ) := by
  rw [blockWrites]
  split
  · exact ⟨_, rfl, (Nat.cast_add ..).symm⟩
  · obtain ⟨w, hw, hsize⟩ := getLast_blockChunks hblock buf offset (Nat.le_refl size)
      (by omega) mem 0
    exact ⟨w, hw, hsize⟩

/-- **A write that succeeds** records the end of its range as the size, and leaves the other
slots. -/
theorem ncfsWrite_records {buf : Buf} {size offset : ℕ} {mem : Buf}
    (hblock : fs.st.diskBlockSize ≤ sysblocksize) (hpath : fs.names path = some f)
    (hok : (ncfsWrite L fs path buf size offset mem).1 = size) :
    Records f fs (ncfsWrite L fs path buf size offset mem).2 (offset + size : ℕ)
      (writtenSlots fs.st.diskBlockSize buf size offset mem) := by
  obtain ⟨w, hlast, hsize⟩ := getLast_blockWrites fs.st.diskBlockSize_pos buf size offset mem
  rw [ncfsWrite] at hok ⊢
  split at hok
  · omega
  · rename_i hmode
    simp only [if_neg hmode, if_neg hblock.not_gt] at hok ⊢
    rw [← hsize]
    refine stores_records hlast hpath ?_
    by_contra hfailed
    rw [if_neg hfailed, enospc] at hok
    omega

/-! ### One operation -/

variable {buf : Buf} {size offset : ℕ} {mem : Buf}

theorem TrackedFile.Open.write (h : s.Open path f)
    (hok : (ncfsWrite L s.fs path buf size offset mem).1 = size) :
    (lengthStep L path f s (.write buf size offset mem)).Open path f := by
  have hrecords := ncfsWrite_records h.block_le h.names_eq hok
  exact ⟨(congrFun hrecords.names_eq path).trans h.names_eq, h.tables.write ..,
    hrecords.block_eq.trans_le h.block_le⟩

/-- **A write** keeps the length tracked exactly when it reaches the end of the file. -/
theorem tracks_write_iff (h : s.Open path f) (htracks : s.Tracks f)
    (hok : (ncfsWrite L s.fs path buf size offset mem).1 = size) :
    (lengthStep L path f s (.write buf size offset mem)).Tracks f ↔
      s.length ≤ offset + size ∧ offset + size < 2 ^ 31 := by
  have hrecords := ncfsWrite_records h.block_le h.names_eq hok
  have hread : ∀ v : ℕ, v < 2 ^ 31 → intAt (record [(v : ℤ)]) 0 = v := by
    intro v hv
    have hfits : Fits (v : ℤ) := ⟨by omega, by omega⟩
    exact @intAt_record [(v : ℤ)] 0 hfits
  constructor
  · rintro ⟨hsize, -⟩
    change intAt ((ncfsWrite L s.fs path buf size offset mem).2.info f).byte 0 =
      (max s.length (offset + size) : ℕ) at hsize
    rw [hrecords.size_eq] at hsize
    have hfits := fits_intAt (record [((offset + size : ℕ) : ℤ)]) 0
    rw [hsize] at hfits
    have hlt : offset + size < 2 ^ 31 := by
      have := hfits.2
      omega
    rw [hread _ hlt] at hsize
    omega
  · rintro ⟨hle, hlt⟩
    refine ⟨?_, fun i x hx => ?_⟩
    · change intAt ((ncfsWrite L s.fs path buf size offset mem).2.info f).byte 0 =
        (max s.length (offset + size) : ℕ)
      rw [hrecords.size_eq, hread _ hlt, max_eq_right hle]
    · change (if _ then if i ∈ writtenSlots s.fs.st.diskBlockSize buf size offset mem then
        _ else s.table i else none) = some x at hx
      split at hx
      · split at hx
        · exact (h.write hok).tables.stored f i x hx
        · rename_i hnot
          exact hrecords.kept i hnot x (htracks.2 i x hx)
      · cases hx

/-- **A truncation** keeps the length tracked exactly when it is to the length that is recorded, or
the rest of the recorded size happens to be the new one, and it cuts no block. -/
theorem tracks_truncate_iff (h : s.Open path f) (htracks : s.Tracks f) (newsize : ℕ) :
    (lengthStep L path f s (.truncate newsize)).Tracks f ↔
    (LengthOp.truncate newsize).KeepsLength s := by
  have hinfo : (ncfsTruncate s.fs path newsize).info f = (s.fs.info f).truncate newsize := by
    rw [ncfsTruncate, h.names_eq]
    exact Function.update_self ..
  have hsize : intAt ((s.fs.info f).truncate newsize).byte 0 = newsize ↔
      if 4 ≤ newsize then newsize = s.length else s.length % 256 ^ newsize = newsize := by
    split
    · rename_i hle
      have hread : intAt ((s.fs.info f).truncate newsize).byte 0 = s.length := by
        rw [← htracks.1]
        refine intAt_congr fun k hk => ?_
        exact if_pos (by omega)
      rw [hread]
      omega
    · rename_i hlt
      rw [intAt_truncate (by omega) htracks.1]
      omega
  refine and_congr ?_ ⟨fun hstored i hi hne => ?_, fun hkept i x hx => ?_⟩
  · change intAt ((ncfsTruncate s.fs path newsize).info f).byte 0 = newsize ↔ _
    rw [hinfo]
    exact hsize
  · obtain ⟨x, hx⟩ := Option.ne_none_iff_exists'.1 hne
    have hle := (hstored i x ((if_pos hi).trans hx)).le_length
    change _ ≤ ((ncfsTruncate s.fs path newsize).info f).length at hle
    rw [hinfo] at hle
    change _ ≤ newsize at hle
    simp only [slotOffset, sizeofBlockInfo, List.length_cons, List.length_nil] at hle ⊢
    omega
  · change (if i < blocksOf s.fs.st.diskBlockSize newsize then s.table i else none) = some x at hx
    change Stored ((ncfsTruncate s.fs path newsize).info f) _ _
    split at hx
    · rename_i hi
      have hle := hkept i hi (by rw [hx]; exact Option.some_ne_none x)
      rw [hinfo]
      refine (htracks.2 i x hx).truncate ?_
      simp only [slotOffset, sizeofBlockInfo, List.length_cons, List.length_nil] at hle ⊢
      omega
    · cases hx

theorem TrackedFile.Open.truncate (h : s.Open path f) (newsize : ℕ) :
    (lengthStep L path f s (.truncate newsize)).Open path f := by
  refine ⟨?_, h.tables.truncate path newsize, ?_⟩
  · change (ncfsTruncate s.fs path newsize).names path = some f
    rw [ncfsTruncate, h.names_eq]
    exact h.names_eq
  · change (ncfsTruncate s.fs path newsize).st.diskBlockSize ≤ sysblocksize
    rw [ncfsTruncate, h.names_eq]
    exact h.block_le

/-! ### Runs -/

/-- An open file stays open. -/
theorem TrackedFile.Open.step (h : s.Open path f) {op : LengthOp} (hop : op.Succeeds L path s) :
    (lengthStep L path f s op).Open path f := by
  cases op with
  | write buf size offset mem => exact h.write hop
  | truncate newsize => exact h.truncate newsize

theorem tracks_step_iff (h : s.Open path f) (htracks : s.Tracks f) {op : LengthOp}
    (hop : op.Succeeds L path s) : (lengthStep L path f s op).Tracks f ↔ op.KeepsLength s := by
  cases op with
  | write buf size offset mem => exact tracks_write_iff h htracks hop
  | truncate newsize => exact tracks_truncate_iff h htracks newsize

/-- **When the length of a file is tracked.**  Throughout a run of successful writes and truncations
of an open file the recorded size is the length of the file, and the table has all its blocks,
exactly when every write ends at the end of the file or behind it, and no truncation changes the
length or cuts a block. -/
theorem lengthTracked_iff (h : s.Open path f) (htracks : s.Tracks f) {ops : List LengthOp}
    (hops : Machine.AllSteps (lengthStep L path f) (fun s op => op.Succeeds L path s) s ops) :
    Machine.Always (lengthStep L path f) (TrackedFile.Tracks f) s ops ↔
      Machine.AllSteps (lengthStep L path f) (fun s op => op.KeepsLength s) s ops :=
  Machine.always_iff_allSteps_of_invariant (I := fun s => s.Open path f ∧ s.Tracks f)
    (P := TrackedFile.Tracks f) (C := fun s op => op.KeepsLength s) (fun _ h => h.2)
    (fun _ _ hop h hkeeps => ⟨h.1.step hop, (tracks_step_iff h.1 h.2 hop).2 hkeeps⟩)
    (fun _ _ hop h htracks => (tracks_step_iff h.1 h.2 hop).1 htracks) ⟨h, htracks⟩ hops

/-- A new file, on a RAID0 disk of three blocks. -/
def newFile : TrackedFile :=
  ⟨(FsState.mounted (.blank 1 1 4096 sysblocksize_pos 3)).openCreate "/a", 0, fun _ => none⟩

/-- Two blocks are written, then the first again. -/
def rewriteOps : List LengthOp :=
  [.write (fun _ => 0) 8192 0 fun _ => 0, .write (fun _ => 0) 4096 0 fun _ => 0]

theorem newFile_open : newFile.Open "/a" 0 where
  names_eq := by decide
  tables := (FsState.tables_mounted _).openCreate "/a"
  block_le := le_rfl

theorem newFile_tracks : newFile.Tracks 0 := by
  refine ⟨by decide, fun i x hx => ?_⟩
  cases hx

/-- The three blocks suffice. -/
theorem rewriteOps_succeed :
    Machine.AllSteps (lengthStep .raid0 "/a" 0)
    (fun s op => op.Succeeds .raid0 "/a" s) newFile rewriteOps := by
  refine ⟨?_, ?_, trivial⟩
  · change (ncfsWrite .raid0 _ _ _ _ _ _).1 = _
    decide +kernel
  · change (ncfsWrite .raid0 _ _ _ _ _ _).1 = _
    decide +kernel

theorem lengthTracked_iff_rewrite :
    Machine.Always (lengthStep .raid0 "/a" 0) (TrackedFile.Tracks 0) newFile rewriteOps ↔
      Machine.AllSteps (lengthStep .raid0 "/a" 0)
      (fun s op => op.KeepsLength s) newFile rewriteOps :=
  lengthTracked_iff newFile_open newFile_tracks rewriteOps_succeed

/-- The second write succeeds and records half of the length. -/
theorem rewrite_not_tracked :
    Machine.AllSteps (lengthStep .raid0 "/a" 0)
    (fun s op => op.Succeeds .raid0 "/a" s) newFile rewriteOps ∧
      ¬ Machine.Always (lengthStep .raid0 "/a" 0) (TrackedFile.Tracks 0) newFile rewriteOps := by
  refine ⟨rewriteOps_succeed, ?_⟩
  rintro ⟨-, -, hsize, -⟩
  exact absurd hsize (by decide +kernel)

end Ncfs
