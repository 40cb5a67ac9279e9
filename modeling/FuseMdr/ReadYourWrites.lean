/-
Reading back what has been written.

Each file is compared with an array of bytes in which a write replaces a range.  `ncfs_write` stores
the bytes of a range from the start of a new block on, wherever in the block the range starts and
whatever the block before it held.  So the two agree as long as the writes start at a block and
nothing lies behind them in their last block.

Main definitions:

* `Ncfs.ByteFile` — what a file should hold;
* `Ncfs.FileOp`, `Ncfs.fileStep` — writes and reads;
* `Ncfs.FileOp.ReadsBack` — a read returns what the file should hold;
* `Ncfs.FileOp.Aligned` — the condition for this.

Main results:

* `Ncfs.Mirrored.storeBlock`, `Ncfs.Mirrored.write` — the blocks of the files hold the bytes of the
  arrays;
* `Ncfs.ncfsRead_exact` — a read of at most two blocks;
* `Ncfs.readsBack_of_aligned` — in a run of aligned writes and short reads, what is read has been
  written;
* `Ncfs.unaligned_write_lost` — runs in which it has not.
-/
import FuseMdr.ReadRange
import FuseMdr.Unlink

set_option relaxedAutoImplicit false
set_option autoImplicit false

namespace Ncfs

open IntFile

/-! ### What a file should hold -/

/-- The bytes of a file and its length.  What has not been written is zero. -/
structure ByteFile where
  /-- The length. -/
  length : ℕ
  /-- The bytes. -/
  byte : ℕ → Byte

namespace ByteFile

/-- A file before the first write. -/
def empty : ByteFile := ⟨0, fun _ => 0⟩

/-- A write replaces a range. -/
def write (f : ByteFile) (buf : Buf) (size offset : ℕ) : ByteFile where
  length := max f.length (offset + size)
  byte p := if offset ≤ p ∧ p < offset + size then buf (p - offset) else f.byte p

/-- What a call of `encode` with its record makes of the bytes: the whole block is replaced, by
zeros behind the bytes of the call. -/
def putBlock (blockSize : ℕ) (f : ByteFile) (w : BlockWrite) : ByteFile where
  length := f.length
  byte p := if p / blockSize = w.slot then if p % blockSize < w.size then w.buf (p % blockSize)
    else 0 else f.byte p

end ByteFile

/-! ### The operations -/

/-- A file system and what its files should hold. -/
structure Mirror where
  /-- The file system. -/
  fs : FsState
  /-- The files. -/
  files : String → ByteFile

/-- Writes and reads. -/
inductive FileOp where
  /-- `ncfs_write`. -/
  | write (path : String) (buf : Buf) (size offset : ℕ) (mem : Buf)
  /-- `ncfs_read`.  `errno` is what earlier calls have left. -/
  | read (path : String) (buf : Buf) (size offset : ℕ) (errno : ℤ)

/-- One operation. -/
def fileStep (L : CodingLayer) (s : Mirror) : FileOp → Mirror
  | .write path buf size offset mem =>
      ⟨(ncfsWrite L s.fs path buf size offset mem).2,
        Function.update s.files path ((s.files path).write buf size offset)⟩
  | .read _ _ _ _ _ => s

/-- A write that stores all its bytes. -/
def FileOp.Succeeds (L : CodingLayer) (s : Mirror) : FileOp → Prop
  | .write path buf size offset mem => (ncfsWrite L s.fs path buf size offset mem).1 = size
  | .read _ _ _ _ _ => True

instance FileOp.decidableSucceeds (L : CodingLayer) (s : Mirror) :
    DecidablePred (FileOp.Succeeds L s)
  | .write path buf size offset mem =>
      inferInstanceAs (Decidable ((ncfsWrite L s.fs path buf size offset mem).1 = size))
  | .read _ _ _ _ _ => .isTrue trivial

/-- A read inside a file returns its size, and the bytes that the file should hold. -/
def FileOp.ReadsBack (L : CodingLayer)
    (degraded : NcfsState → ℕ → Buf → ℕ → ℕ → Except CodingError Buf) (s : Mirror) : FileOp → Prop
  | .write _ _ _ _ _ => True
  | .read path buf size offset errno => 0 < size → offset + size ≤ (s.files path).length →
      ∃ f, s.fs.names path = some f ∧
        ∃ read, ncfsRead (.ofLayer (L.decode degraded s.fs.st)) s.fs.st.diskBlockSize (s.fs.info f)
          s.fs.operationMode errno buf size offset = .ok read ∧
          read.1 = size ∧ ∀ j < size, read.2 j = (s.files path).byte (offset + j)

/-- The choice of a block has passed the code blocks.  Only RAID6 may fail to. -/
def CodingLayer.PassesCode (L : CodingLayer) (st : NcfsState) (x : ℕ × ℕ) : Prop :=
  match L with
  | .raid6 _ => x.1 ∈ dataDisks st.diskTotalNum x.2
  | _ => True

/-- A call of `encode` whose block can be found again: it is no code block, and its number and its
offset are values of an `int`. -/
def FindsBlock (L : CodingLayer) (fs : FsState) (w : BlockWrite) : Prop :=
  ∀ x, L.next fs.st w.size = some x →
    Fits x.1 ∧ Fits ((x.2 : ℤ) * fs.st.diskBlockSize) ∧ L.PassesCode fs.st x

/-- The block that `next` chooses is known. -/
theorem FindsBlock.of_next {L : CodingLayer} {fs : FsState} {w : BlockWrite} (bs : ℕ)
    {d b : ℕ} (hblock : fs.st.diskBlockSize = bs) (hnext : L.next fs.st w.size = some (d, b))
    (hd : d < 2 ^ 31)
    (hb : b * bs < 2 ^ 31) (hpass : L.PassesCode fs.st (d, b)) : FindsBlock L fs w := by
  intro x hx
  cases hnext.symm.trans hx
  rw [hblock]
  exact ⟨⟨by omega, by omega⟩,
    ⟨le_trans (by decide)
      (mul_nonneg (Int.natCast_nonneg b) (Int.natCast_nonneg bs)), by exact_mod_cast hb⟩, hpass⟩

/-- The condition: a write starts at a block, the file is zero behind it in its last block, and its
blocks can be found again; a read covers blocks that are mapped, and no more than two. -/
def FileOp.Aligned (L : CodingLayer) (s : Mirror) : FileOp → Prop
  | .write path buf size offset mem => 0 < size ∧ offset % s.fs.st.diskBlockSize = 0 ∧
      (∀ p, offset + size ≤ p → p / s.fs.st.diskBlockSize = (offset + size - 1) /
        s.fs.st.diskBlockSize →
        (s.files path).byte p = 0) ∧
      AllStores L (FindsBlock L) s.fs path buf size offset mem
  | .read path _ size offset _ =>
      endBlock s.fs.st.diskBlockSize size offset ≤ offset / s.fs.st.diskBlockSize + 1 ∧
      ∃ f, s.fs.names path = some f ∧ ∀ r ∈ readCalls s.fs.st.diskBlockSize size offset,
      s.fs.slots f r.slot ≠ none

/-! ### The blocks of a write -/

section Blocks

variable {bs : ℕ} {buf : Buf}

/-- What the blocks of a range put into a file, when the range starts at a block. -/
def putRange (bs : ℕ) (buf : Buf) (offset pos size : ℕ) (f : ByteFile) (p : ℕ) : Byte :=
  if offset + pos ≤ p ∧ p < offset + pos + size then buf (p - offset)
  else if offset + pos + size ≤ p ∧ p / bs = (offset + pos + size - 1) / bs then 0
  else f.byte p

/-- A block at the start of a range. -/
theorem putBlock_byte (hbs : 0 < bs) {q size pos offset : ℕ} (hat : offset + pos = q * bs)
    (hsize : size ≤ bs) (hpos : 0 < size) (f : ByteFile) {w : BlockWrite} (hslot : w.slot = q)
    (hlen : w.size = size) (hbuf : ∀ j < size, w.buf j = buf (pos + j)) (p : ℕ) :
    (f.putBlock bs w).byte p = putRange bs buf offset pos size f p := by
  have hdiv := Nat.div_add_mod' p bs
  have hmod := Nat.mod_lt p hbs
  have hlast : (q * bs + size - 1) / bs = q := by
    rw [show q * bs + size - 1 = q * bs + (size - 1) by omega]
    exact block_div (by omega)
  rw [ByteFile.putBlock, putRange, hat, hlast, hslot, hlen]
  dsimp only
  by_cases hq : p / bs = q
  · rw [hq] at hdiv
    rw [if_pos hq]
    by_cases hlt : p % bs < size
    · rw [if_pos hlt, if_pos (by omega), hbuf _ hlt]
      exact congrArg buf (by omega)
    · rw [if_neg hlt, if_neg (by omega), if_pos ⟨by omega, hq⟩]
  · have hout : ¬ (q * bs ≤ p ∧ p < q * bs + size) := by
      rintro ⟨hle, hlt⟩
      refine hq ?_
      rw [show p = q * bs + (p - q * bs) by omega]
      exact block_div (by omega)
    rw [if_neg hq, if_neg hout, if_neg fun h => hq h.2]

/-- The first block of a longer range, and the rest. -/
theorem putRange_split (hbs : 0 < bs) {offset size pos : ℕ} (hat : (offset + pos) % bs = 0)
    (hsize : bs < size) {f g : ByteFile} (hg : ∀ p, g.byte p = putRange bs buf offset pos bs f p)
    (p : ℕ) :
    putRange bs buf offset (pos + bs) (size - bs) g p = putRange bs buf offset pos size f p := by
  have hblock := Nat.div_mul_cancel (Nat.dvd_of_mod_eq_zero hat)
  have hlast : (offset + pos + bs - 1) / bs = (offset + pos) / bs := by
    rw [show offset + pos + bs - 1 = (offset + pos) / bs * bs + (bs - 1) by omega]
    exact block_div (by omega)
  have hend : offset + (pos + bs) + (size - bs) = offset + pos + size := by omega
  have hout : ¬ (offset + pos + bs ≤ p ∧ p / bs = (offset + pos) / bs) := by
    rintro ⟨hle, hq⟩
    have hp := Nat.div_add_mod' p bs
    have hmod := Nat.mod_lt p hbs
    rw [hq] at hp
    omega
  rw [putRange, putRange, hend, hg, putRange, hlast, if_neg hout]
  by_cases hin : offset + pos ≤ p ∧ p < offset + pos + size
  · rw [if_pos hin]
    by_cases hfirst : p < offset + pos + bs
    · rw [if_neg (by omega), if_neg (by omega), if_pos ⟨hin.1, hfirst⟩]
    · rw [if_pos (by omega)]
  · rw [if_neg hin, if_neg (by omega)]
    split
    · rfl
    · exact if_neg (by omega)

/-- The blocks of a loop that starts at a block. -/
theorem putBlocks_chunks (hbs : 0 < bs) {offset fuel size pos : ℕ} (hfuel : size ≤ fuel)
    (hpos : 0 < size) (hat : (offset + pos) % bs = 0) (tempBuf : Buf) (f : ByteFile) (p : ℕ) :
    ((blockChunks bs buf offset fuel tempBuf size pos).foldl (ByteFile.putBlock bs) f).byte p =
      putRange bs buf offset pos size f p := by
  induction fuel generalizing size pos tempBuf f with
  | zero => omega
  | succ fuel ih =>
      have hblock : offset + pos = (offset + pos) / bs * bs :=
        (Nat.div_mul_cancel (Nat.dvd_of_mod_eq_zero hat)).symm
      rw [blockChunks, if_neg (by omega)]
      dsimp only
      rw [List.foldl_cons]
      by_cases hsize : size ≤ bs
      · have hrest : ∀ tempBuf, blockChunks bs buf offset fuel tempBuf (size - size)
            (pos + size) = [] := by
          intro tempBuf
          rw [Nat.sub_self]
          cases fuel with
          | zero => rfl
          | succ fuel => exact if_pos rfl
        simp only [if_pos hsize]
        rw [hrest, List.foldl_nil]
        exact putBlock_byte hbs hblock hsize hpos f rfl rfl (fun j hj => if_pos hj) p
      · simp only [if_neg hsize]
        rw [ih (by omega) (by omega) (by rw [← Nat.add_assoc, Nat.add_mod_right, hat])]
        refine putRange_split hbs hat (by omega) (fun p => ?_) p
        exact putBlock_byte hbs hblock le_rfl hbs f rfl rfl (fun j hj => if_pos hj) p

/-- What the blocks of a write put into a file that is zero behind the range: the range is
replaced. -/
theorem putBlocks_eq (hbs : 0 < bs) {size offset : ℕ} (hpos : 0 < size) (hat : offset % bs = 0)
    {f : ByteFile} (hzero : ∀ p, offset + size ≤ p → p / bs = (offset + size - 1) / bs →
      f.byte p = 0) (mem : Buf) (p : ℕ) :
    ((blockWrites bs buf size offset mem).foldl (ByteFile.putBlock bs) f).byte p =
      (f.write buf size offset).byte p := by
  have hrange : putRange bs buf offset 0 size f p = (f.write buf size offset).byte p := by
    rw [putRange, ByteFile.write, Nat.add_zero]
    dsimp only
    split
    · rfl
    · split
      · rename_i hbehind
        exact (hzero p hbehind.1 hbehind.2).symm
      · rfl
  rw [← hrange, blockWrites]
  split
  · rename_i hsize
    have hblock : offset + 0 = offset / bs * bs :=
      (Nat.div_mul_cancel (Nat.dvd_of_mod_eq_zero hat)).symm
    exact putBlock_byte hbs hblock hsize hpos f rfl rfl (fun j _ => by rw [Nat.zero_add]) p
  · exact putBlocks_chunks hbs le_rfl hpos hat mem f p

/-- A call of `encode` in a write has bytes, and no more than a block of them. -/
theorem size_of_mem_blockWrites (hbs : 0 < bs) {size offset : ℕ} (hpos : 0 < size) {mem : Buf}
    {w : BlockWrite} (hw : w ∈ blockWrites bs buf size offset mem) : 0 < w.size ∧ w.size ≤ bs := by
  have hchunks : ∀ fuel tempBuf size pos, w ∈ blockChunks bs buf offset fuel tempBuf size pos →
      0 < w.size ∧ w.size ≤ bs := by
    intro fuel
    induction fuel with
    | zero => exact fun _ _ _ hw => absurd hw List.not_mem_nil
    | succ fuel ih =>
        intro tempBuf size pos hw
        rw [blockChunks] at hw
        by_cases hnil : size = 0
        · rw [if_pos hnil] at hw
          exact absurd hw List.not_mem_nil
        · rw [if_neg hnil] at hw
          rcases List.mem_cons.1 hw with rfl | hw
          · dsimp only
            split <;> omega
          · exact ih _ _ _ hw
  rw [blockWrites] at hw
  split at hw
  · obtain rfl := List.mem_singleton.1 hw
    exact ⟨hpos, ‹_›⟩
  · exact hchunks _ _ _ _ hw

end Blocks

/-! ### The table of a file -/

namespace FsState

variable {fs : FsState} {path other : String} {w : BlockWrite} {x y : ℕ × ℕ} {f g i : ℕ}

/-- No two paths refer to one file. -/
def NoLinks (fs : FsState) : Prop :=
  ∀ path other f, fs.names path = some f → fs.names other = some f → path = other

theorem NoLinks.openCreate (h : fs.NoLinks) (htables : fs.Tables) (path : String) :
    (fs.openCreate path).NoLinks := by
  rw [FsState.openCreate]
  split
  · exact h
  · have hlt : ∀ other, fs.names other ≠ some fs.nextInfo := fun other hother =>
      absurd (htables.names_lt other _ hother) (lt_irrefl _)
    intro p q f hp hq
    dsimp only at hp hq
    rw [Function.update_apply] at hp hq
    split at hp <;> split at hq
    · simp [*]
    · exact absurd (hq.trans hp.symm) (hlt q)
    · exact absurd (hp.trans hq.symm) (hlt p)
    · exact h p q f hp hq

/-- A new file maps nothing. -/
theorem openCreate_slot (hg : (fs.openCreate path).names other = some g)
    (hy : (fs.openCreate path).slots g i = some y) :
    fs.names other = some g ∧ fs.slots g i = some y := by
  rw [FsState.openCreate] at hg hy
  split at hg
  · rename_i hpath
    rw [hpath] at hy
    exact ⟨hg, hy⟩
  · rename_i hpath
    rw [hpath] at hy
    dsimp only at hg hy
    rw [Function.update_apply] at hg hy
    split at hy
    · cases hy
    · split at hg
      · cases hg
        exact absurd rfl ‹_›
      · exact ⟨hg, hy⟩

/-- The slots after the records of a block. -/
theorem Tables.recordBlock_slot (h : fs.Tables) (hlinks : fs.NoLinks)
    (hg : (fs.recordBlock path w x).names other = some g)
    (hy : (fs.recordBlock path w x).slots g i = some y) :
    other = path ∧ i = w.slot ∧ y = x ∨
      (fs.names other = some g ∧ fs.slots g i = some y) ∧ ¬ (other = path ∧ i = w.slot) := by
  obtain ⟨f, hf⟩ := fs.openCreate_names path
  rw [recordBlock_eq hf] at hg hy
  dsimp only at hg hy
  have hfile : g = f ↔ other = path := by
    constructor
    · rintro rfl
      exact hlinks.openCreate h path _ _ _ hg hf
    · rintro rfl
      exact Option.some.inj (hg.symm.trans hf)
  by_cases hself : g = f
  · subst hself
    rw [Function.update_self, Function.update_apply] at hy
    split at hy
    · cases hy
      exact .inl ⟨hfile.1 rfl, ‹_›, rfl⟩
    · exact .inr ⟨openCreate_slot hg hy, fun hslot => absurd hslot.2 ‹_›⟩
  · rw [Function.update_of_ne hself] at hy
    exact .inr ⟨openCreate_slot hg hy, fun hslot => hself (hfile.2 hslot.1)⟩

end FsState

/-! ### The invariant -/

/-- The mapped blocks hold what the files should hold, and the others are zero. -/
structure Mirrored (L : CodingLayer) (bs : ℕ) (s : Mirror) : Prop where
  /-- The blocks have owners. -/
  owning : Owning s.fs
  /-- Every file has one path. -/
  links : s.fs.NoLinks
  /-- Nothing has been freed. -/
  list_eq : s.fs.st.spaceList = []
  /-- All disks work. -/
  status_eq : ∀ d, s.fs.st.diskStatus d = 0
  /-- `operation_mode`. -/
  mode_eq : s.fs.operationMode = 0
  /-- `disk_block_size`. -/
  block_eq : s.fs.st.diskBlockSize = bs
  /-- The layer suits the store. -/
  fits : L.Fits s.fs.st
  /-- What is mapped is at a place for data, and can be found there. -/
  place : ∀ f i x, s.fs.Maps f i x → L.DataPlace s.fs.st x.1 x.2 ∧ Fits ((x.2 : ℤ) * bs)
  /-- What is not in use is zero. -/
  unused : ∀ x y o, L.DataPlace s.fs.st x y → (x, y) ∉ s.fs.live → o < bs → s.fs.st.block x
    (L.blockNo y) o = 0
  /-- What is mapped holds the bytes of the file. -/
  byte_eq : ∀ path f i x o, s.fs.names path = some f → s.fs.slots f i = some x → o < bs →
    s.fs.st.block x.1 (L.blockNo x.2) o = (s.files path).byte (i * bs + o)

section Steps

variable {L : CodingLayer} {bs : ℕ} {s : Mirror} {fs : FsState} {files : String → ByteFile}
    {path : String}

theorem mirrored_mounted {st : NcfsState} (hlist : st.spaceList = [])
    (hstatus : ∀ d, st.diskStatus d = 0) (hzero : ∀ d x, st.disk d x = 0) (hfits : L.Fits st) :
    Mirrored L st.diskBlockSize ⟨.mounted st, fun _ => .empty⟩ where
  owning := owning_mounted hlist
  links path other f h := by cases h
  list_eq := hlist
  status_eq := hstatus
  mode_eq := rfl
  block_eq := rfl
  fits := hfits
  place f i x h := by cases h.2
  unused x y o _ _ _ := hzero ..
  byte_eq path f i x o h := by cases h

/-- Only the bytes of the files matter. -/
theorem Mirrored.congr {files' : String → ByteFile} (h : Mirrored L bs ⟨fs, files⟩)
    (hfiles : ∀ path p, (files' path).byte p = (files path).byte p) : Mirrored L bs ⟨fs, files'⟩ :=
  ⟨h.owning, h.links, h.list_eq, h.status_eq, h.mode_eq, h.block_eq, h.fits, h.place, h.unused,
    fun path f i x o hf hx ho => (h.byte_eq path f i x o hf hx ho).trans (hfiles path _).symm⟩

/-- Without freed blocks, a call is served the selected block. -/
theorem encode_of_nil {st st' : NcfsState} {buf : Buf} {size : ℕ} {x : ℕ × ℕ}
    (hlist : st.spaceList = []) (hencode : L.encode st buf size = (some x, st')) :
    L.select (L.skip st) (blockRequest st size) = some x ∧ st'.spaceList = [] := by
  have htakes := L.encode_takes st buf size
  have hskip := (L.skip_moved st).list_eq.trans hlist
  rw [hencode] at htakes
  generalize hresult : ((some x, st') : Option (ℕ × ℕ) × NcfsState) = result at htakes
  cases htakes with
  | full => cases hresult
  | fresh hsome _ _ _ hlist' =>
      cases hresult
      exact ⟨hsome, hlist'.trans hskip⟩
  | reused _ hcons =>
      rw [hskip] at hcons
      cases hcons

/-- A block that can be found again is at a place for data. -/
theorem place_of_select {st : NcfsState} (hfits : L.Fits st) {req : ℕ} {x : ℕ × ℕ}
    (hsel : L.select (L.skip st) req = some x) (hpass : L.PassesCode st x) :
    L.DataPlace st x.1 x.2 := by
  cases L with
  | raid6 undefinedDisk => exact hpass
  | _ => exact CodingLayer.select_data hfits (fun _ h => by cases h) hsel

/-- A call of `encode` and its records put a block into the file. -/
theorem Mirrored.storeBlock (h : Mirrored L bs ⟨fs, files⟩) {w : BlockWrite} (hpos : 0 < w.size)
    (hsize : w.size ≤ bs) (hfinds : FindsBlock L fs w) (hok : (storeBlock L path fs w).1 = true) :
    Mirrored L bs ⟨(storeBlock L path fs w).2,
      Function.update files path ((files path).putBlock bs w)⟩ := by
  have hblock : fs.st.diskBlockSize = bs := h.block_eq
  have hlist : fs.st.spaceList = [] := h.list_eq
  have hfits : L.Fits fs.st := h.fits
  have hbs : 0 < bs := hblock ▸ fs.st.diskBlockSize_pos
  have hsafe : L.Safe fs.served (.encode w.buf w.size) := by
    refine ⟨?_, fun _ d b hhead => ?_⟩
    · change 1 ≤ blockRequest fs.st w.size
      rw [blockRequest_eq fs.st (hsize.trans_eq hblock.symm), if_neg hpos.ne']
    · change (L.skip fs.st).spaceList.head? = some (d, b) at hhead
      rw [(L.skip_moved fs.st).list_eq, hlist] at hhead
      cases hhead
  have hnext := L.encode_fst fs.st w.buf w.size
  have hfree := (CodingLayer.owned_step L h.owning.owned hsafe).2
  have howning : Owning (Ncfs.storeBlock L path fs w).2 := by
    refine h.owning.storeBlock ⟨hsafe, fun x hx => ?_⟩
    obtain ⟨hd, hb, -⟩ := hfinds x hx
    refine ⟨hd, ?_, ?_⟩
    · have := Int.natCast_nonneg x.2
      omega
    · refine lt_of_le_of_lt ?_ hb.2
      have hone : (1 : ℤ) ≤ fs.st.diskBlockSize := by exact_mod_cast fs.st.diskBlockSize_pos
      nlinarith [Int.natCast_nonneg x.2]
  have hcase := storeBlock_case L path fs w
  generalize Ncfs.storeBlock L path fs w = result at hcase hok howning ⊢
  cases hcase with
  | noRoom st hencode => cases hok
  | stored x st hencode =>
      obtain ⟨hsel, hlist'⟩ := encode_of_nil hlist hencode
      simp only [hencode] at hnext
      obtain ⟨hd, hb, hpass⟩ := hfinds x hnext.symm
      have hplace := place_of_select hfits hsel hpass
      have hnew : x ∉ fs.live := hfree x (by rw [FsState.served, hencode])
      have hreturned : (L.encode fs.st w.buf w.size).1 = some (x.1, x.2) := by rw [hencode]
      have hwrites := CodingLayer.encode_data hfits hplace (hsize.trans_eq hblock.symm) hreturned
      rw [hencode] at hwrites
      have hsame : SameStore fs.st st := hwrites.toSameStore
      have hdata := L.dataPlace_eq hsame
      obtain ⟨f, hf⟩ := FsState.openCreate_names { fs with st := st } path
      have htables : FsState.Tables { fs with st := st } :=
        ⟨h.owning.tables.stored, h.owning.tables.names_lt⟩
      have hlinks : FsState.NoLinks { fs with st := st } := h.links
      have hlive := (FsState.recordBlock_history { fs with st := st } path w x).1
      have hst := FsState.recordBlock_st { fs with st := st } path w x
      have hmode : (FsState.recordBlock { fs with st := st } path w x).operationMode = 0 := by
        rw [FsState.recordBlock_eq hf, FsState.openCreate]
        split <;> exact h.mode_eq
      -- the other blocks at places for data are as before
      have hother : ∀ y z o, L.DataPlace fs.st y z → (y, z) ≠ x → o < bs →
          st.block y (L.blockNo z) o = fs.st.block y (L.blockNo z) o := by
        intro y z o hyz hne ho
        rw [hwrites.data y z o hyz (ho.trans_eq hblock.symm), if_neg fun heq =>
          hne (Prod.ext heq.1 heq.2.1)]
      constructor
      · exact howning
      · intro p q g hp hq
        dsimp only at hp hq
        rw [FsState.recordBlock_names] at hp hq
        exact hlinks.openCreate htables path p q g hp hq
      · exact (congrArg NcfsState.spaceList hst).trans hlist'
      · intro d
        dsimp only
        rw [hst, hsame.status_eq]
        exact h.status_eq d
      · exact hmode
      · dsimp only
        rw [hst]
        exact hsame.block_eq.trans hblock
      · dsimp only
        rw [hst]
        exact (L.fits_iff hsame).2 hfits
      · rintro g i y ⟨⟨p, hp⟩, hy⟩
        dsimp only at hp hy ⊢
        rw [hst, hdata]
        rcases htables.recordBlock_slot hlinks hp hy with ⟨-, -, rfl⟩ | ⟨⟨hg, hy⟩, -⟩
        · exact ⟨hplace, hblock ▸ hb⟩
        · exact h.place g i y ⟨⟨p, hg⟩, hy⟩
      · intro y z o hyz hunused ho
        dsimp only at hyz hunused ⊢
        rw [hst, hdata] at hyz
        rw [hlive, List.mem_cons, not_or] at hunused
        rw [hst, hother y z o hyz hunused.1 ho]
        exact h.unused y z o hyz hunused.2 ho
      · intro p g i y o hp hy ho
        dsimp only at hp hy ⊢
        rw [hst]
        rcases htables.recordBlock_slot hlinks hp hy with ⟨rfl, rfl, rfl⟩ | ⟨⟨hg, hy⟩, hne⟩
        · rw [hwrites.data y.1 y.2 o hplace (ho.trans_eq hblock.symm), Function.update_self,
            ByteFile.putBlock]
          dsimp only
          rw [block_div ho, block_mod ho, if_pos rfl]
          simp only [true_and]
          split
          · rfl
          · exact h.unused y.1 y.2 o hplace hnew ho
        · have hmaps : fs.Maps g i y := ⟨⟨p, hg⟩, hy⟩
          have hlt : y ≠ x := fun heq => hnew (heq ▸ h.owning.mem_live g i y hmaps)
          rw [hother y.1 y.2 o (h.place g i y hmaps).1 hlt ho, h.byte_eq p g i y o hg hy ho]
          by_cases hp : p = path
          · subst hp
            rw [Function.update_self, ByteFile.putBlock]
            dsimp only
            rw [block_div ho, if_neg fun hi => hne ⟨rfl, hi⟩]
          · rw [Function.update_of_ne hp]

/-- The calls of `encode` of a write. -/
theorem Mirrored.stores {ws : List BlockWrite} (h : Mirrored L bs ⟨fs, files⟩)
    (hsize : ∀ w ∈ ws, 0 < w.size ∧ w.size ≤ bs)
    (hfinds : Loops.AllPasses (Ncfs.storeBlock L path) (FindsBlock L) fs ws)
    (hok : (Loops.untilFail (Ncfs.storeBlock L path) fs ws).1 = true) :
    Mirrored L bs ⟨(Loops.untilFail (Ncfs.storeBlock L path) fs ws).2,
      Function.update files path (ws.foldl (ByteFile.putBlock bs) (files path))⟩ := by
  induction ws generalizing fs files with
  | nil =>
      rw [List.foldl_nil, Function.update_eq_self]
      exact h
  | cons w ws ih =>
      obtain ⟨hw, hsize⟩ := List.forall_mem_cons.1 hsize
      obtain ⟨hfind, hfinds⟩ := hfinds
      have hone : (Ncfs.storeBlock L path fs w).1 = true → Mirrored L bs
          ⟨(Ncfs.storeBlock L path fs w).2, Function.update files path
            ((files path).putBlock bs w)⟩ := h.storeBlock hw.1 hw.2 hfind
      rw [Loops.untilFail] at hok ⊢
      generalize Ncfs.storeBlock L path fs w = result at hone hfinds hok ⊢
      obtain ⟨ok, fs₁⟩ := result
      cases ok with
      | false => cases hok
      | true =>
          have hrest := ih (hone rfl) hsize (hfinds rfl) hok
          rwa [Function.update_idem, Function.update_self] at hrest

/-- A write that succeeds. -/
theorem Mirrored.write (h : Mirrored L bs ⟨fs, files⟩) (hsmall : bs ≤ sysblocksize) {buf : Buf}
    {size offset : ℕ} {mem : Buf}
    (hop : (FileOp.write path buf size offset mem).Aligned L ⟨fs, files⟩)
    (hok : (FileOp.write path buf size offset mem).Succeeds L ⟨fs, files⟩) :
    Mirrored L bs (fileStep L ⟨fs, files⟩ (.write path buf size offset mem)) := by
  obtain ⟨hpos, hat, hzero, hfinds⟩ := hop
  have hblock : fs.st.diskBlockSize = bs := h.block_eq
  have hmode : fs.operationMode = 0 := h.mode_eq
  have hbs : 0 < bs := hblock ▸ fs.st.diskBlockSize_pos
  have hnot : ¬ sysblocksize < fs.st.diskBlockSize := by omega
  rw [AllStores, if_neg hnot] at hfinds
  rw [FileOp.Succeeds] at hok
  rw [fileStep]
  have hwrite : ncfsWrite L fs path buf size offset mem =
      let result := Loops.untilFail (Ncfs.storeBlock L path) fs (blockWrites bs buf size offset mem)
      (if result.1 then (size : ℤ) else -enospc, result.2) := by
    rw [ncfsWrite, hmode, if_neg (by decide), if_neg hnot, hblock]
  dsimp only at hat hzero hfinds
  rw [hblock] at hat hzero hfinds
  dsimp only at hok ⊢
  rw [hwrite] at hok ⊢
  dsimp only at hok ⊢
  have hall :
      (Loops.untilFail (Ncfs.storeBlock L path) fs
        (blockWrites bs buf size offset mem)).1 = true := by
    by_contra hfailed
    rw [if_neg hfailed, enospc] at hok
    omega
  refine (h.stores (fun w hw => size_of_mem_blockWrites hbs hpos hw) hfinds hall).congr
    fun p q => ?_
  by_cases hp : p = path
  · subst hp
    rw [Function.update_self, Function.update_self]
    exact (putBlocks_eq hbs hpos hat hzero mem q).symm
  · rw [Function.update_of_ne hp, Function.update_of_ne hp]

end Steps

/-! ### Reads -/

section Reads

variable {L : CodingLayer} {bs : ℕ} {D : Decoder} {dev : ℕ → ℕ → Byte} {fd : File} {size offset : ℕ}

/-- A block that has been recorded is looked up. -/
theorem readInfo_of_stored {slot : ℕ} {x : ℕ × ℕ}
    (hstored : Stored fd (slotOffset slot) [(x.1 : ℤ), x.2]) (hfits : FitsPair x) :
    readInfo fd slot = ((x.1 : ℤ), (x.2 : ℤ)) := by
  have hall : ∀ v ∈ [(x.1 : ℤ), x.2], Fits v := by
    intro v hv
    rcases List.mem_pair.1 hv with rfl | rfl
    · exact hfits.1
    · exact hfits.2
  have hread := (hstored.pread hall fun _ => 0).2
  exact Prod.ext (hread 0 (Nat.succ_pos 1)) (hread 1 (Nat.lt_succ_self 1))

/-- A read of at most two blocks returns its size, and the bytes of the file. -/
theorem ncfsRead_exact (hbs : 0 < bs) (hsmall : bs ≤ sysblocksize) (hsize : 1 ≤ size)
    (hD : D.Healthy bs dev) (hnames : ∀ r ∈ readCalls bs size offset, NamesBlock fd r.slot)
    (hoffsets : ∀ r ∈ readCalls bs size offset, OffsetFits bs fd r.slot)
    (hspan : endBlock bs size offset ≤ offset / bs + 1) {operationMode : ℕ}
    (hmode : operationMode ≠ 2) (errno : ℤ) (buf : Buf) :
    ∃ read, ncfsRead D bs fd operationMode errno buf size offset = .ok read ∧ read.1 = size ∧
      ∀ i < size, read.2 i = fileByte bs fd dev (offset + i) := by
  obtain ⟨hoffset, hblock, hpos⟩ := firstRead_spec hbs offset
  obtain ⟨hend, hpos', hle⟩ := endBlock_spec hbs hsize offset
  -- the value that `readFileCache` returns, and its bytes
  obtain ⟨n, hn, hnsize, hcount, hbyte⟩ : ∃ n : ℕ, n ≤ 2 * bs ∧ size ≤ n ∧
      (readFileCache D bs fd buf size offset).1 = n ∧
      ∀ i < size, (readFileCache D bs fd buf size offset).2 i = fileByte bs fd dev
        (offset + i) := by
    have hmul : endBlock bs size offset * bs ≤ (offset / bs + 1) * bs :=
      Nat.mul_le_mul_right bs hspan
    rw [Nat.succ_mul] at hmul
    rw [sysblocksize] at hsmall
    by_cases htwo : endBlock bs size offset = offset / bs + 1
    · have hread := readFileCache_exact hbs hsize hD hnames
        ⟨.inl htwo, hoffsets, ⟨by omega, by omega⟩⟩ buf
      refine ⟨size, by omega, le_rfl, congrArg Prod.fst hread, fun i hi => ?_⟩
      rw [hread]
      exact if_pos hi
    · have hone : endBlock bs size offset ≤ offset / bs := by omega
      have hmul' := Nat.mul_le_mul_right bs hone
      have hnames₁ : NamesBlock fd (offset / bs) := hnames (firstRead bs offset) firstRead_mem
      have hoffset₁ : OffsetFits bs fd (offset / bs) := hoffsets (firstRead bs offset) firstRead_mem
      have hresult := BlockRead.result_healthy hD (hnames _ firstRead_mem)
        (hoffsets _ firstRead_mem) hblock.le
      have hfits : Fits (firstRead bs offset).size := ⟨by omega, by omega⟩
      rw [readFileCache_one hresult hone, toInt_of_fits hfits]
      refine ⟨(firstRead bs offset).size, by omega, by omega, rfl, fun i hi => ?_⟩
      dsimp only
      rw [firstRead_data hbs hD hnames₁ hoffset₁, if_pos (by omega)]
  have hvalue : toInt (bytesRead errno size (toSizeT n)) = size := by
    rw [sysblocksize] at hsmall
    rw [toSizeT_of_nonneg (Int.natCast_nonneg n) (by omega), bytesRead, if_neg (by omega)]
    split
    · exact toInt_of_fits ⟨by omega, by omega⟩
    · rw [toInt_of_fits ⟨by omega, by omega⟩]
      omega
  rw [ncfsRead, if_neg hmode, if_neg (by omega)]
  dsimp only
  rw [hcount]
  exact ⟨_, rfl, hvalue, hbyte⟩

/-- Each byte of a range of at most two blocks lies in a block that is read. -/
theorem exists_readCall (hbs : 0 < bs) (hspan : endBlock bs size offset ≤ offset / bs + 1) {j : ℕ}
    (hj : j < size) :
    ∃ r ∈ readCalls bs size offset, r.slot = (offset + j) / bs := by
  obtain ⟨hend, -, hle⟩ := endBlock_spec hbs (show 1 ≤ size by omega) offset
  have hlow : offset / bs ≤ (offset + j) / bs := Nat.div_le_div_right (Nat.le_add_right ..)
  have hhigh : (offset + j) / bs ≤ endBlock bs size offset := by
    refine Nat.le_of_lt_succ ((Nat.div_lt_iff_lt_mul hbs).2 ?_)
    rw [Nat.succ_mul]
    omega
  by_cases hfirst : (offset + j) / bs = offset / bs
  · exact ⟨_, firstRead_mem, hfirst.symm⟩
  · have hlast : endBlock bs size offset = (offset + j) / bs := by omega
    exact ⟨_, lastRead_mem (by omega), hlast⟩

/-- A read of mapped blocks returns what the file should hold. -/
theorem Mirrored.read {s : Mirror} (h : Mirrored L bs s) (hsmall : bs ≤ sysblocksize)
    {degraded : NcfsState → ℕ → Buf → ℕ → ℕ → Except CodingError Buf} {path : String} {buf : Buf}
    {errno : ℤ} (hop : (FileOp.read path buf size offset errno).Aligned L s) :
    (FileOp.read path buf size offset errno).ReadsBack L degraded s := by
  intro hsize hlength
  obtain ⟨hspan, f, hf, hmapped⟩ := hop
  have hblock := h.block_eq
  have hbs : 0 < bs := hblock ▸ s.fs.st.diskBlockSize_pos
  rw [hblock] at hspan hmapped
  refine ⟨f, hf, ?_⟩
  have hD := @healthy_ofLayer degraded L _ h.status_eq
  rw [hblock] at hD ⊢
  -- the entry of a mapped slot
  have hinfo : ∀ {slot x}, s.fs.slots f slot = some x →
      readInfo (s.fs.info f) slot = ((x.1 : ℤ), (x.2 : ℤ)) :=
    fun hx => readInfo_of_stored (h.owning.tables.stored f _ _ hx)
      (h.owning.fits f _ _ ⟨⟨path, hf⟩, hx⟩)
  have hentry : ∀ r ∈ readCalls bs size offset, ∃ x, s.fs.slots f r.slot = some x :=
    fun r hr => Option.ne_none_iff_exists'.1 (hmapped r hr)
  have hnames : ∀ r ∈ readCalls bs size offset, NamesBlock (s.fs.info f) r.slot := by
    intro r hr
    obtain ⟨x, hx⟩ := hentry r hr
    rw [NamesBlock, hinfo hx]
    exact ⟨Int.natCast_nonneg _, Int.natCast_nonneg _⟩
  have hoffsets : ∀ r ∈ readCalls bs size offset, OffsetFits bs (s.fs.info f) r.slot := by
    intro r hr
    obtain ⟨x, hx⟩ := hentry r hr
    rw [OffsetFits, hinfo hx]
    exact (h.place f _ x ⟨⟨path, hf⟩, hx⟩).2
  have hmode : s.fs.operationMode ≠ 2 := by
    rw [h.mode_eq]
    decide
  obtain ⟨read, hread, hcount, hbyte⟩ :=
    ncfsRead_exact hbs hsmall hsize hD hnames hoffsets hspan hmode errno buf
  refine ⟨read, hread, hcount, fun j hj => ?_⟩
  obtain ⟨r, hr, hslot⟩ := exists_readCall hbs hspan hj
  obtain ⟨x, hx⟩ := hentry r hr
  have hat : offset + j = r.slot * bs + (offset + j) % bs := by
    rw [hslot]
    exact (Nat.div_add_mod' _ _).symm
  have hmod := Nat.mod_lt (offset + j) hbs
  rw [hbyte j hj, hat, fileByte_block hmod, hinfo hx, Int.toNat_natCast, Int.toNat_natCast,
    block_div hmod, block_mod hmod]
  exact h.byte_eq path f r.slot x _ hf hx hmod

end Reads

/-! ### Runs -/

/-- **Read your writes.**  From zero disks that all work, with blocks of at most `sysblocksize`
bytes: in every run of writes that succeed and reads, on any number of files, when the writes and
the reads are aligned, every read inside a file returns its size and the bytes that were written
last. -/
theorem readsBack_of_aligned (L : CodingLayer)
    (degraded : NcfsState → ℕ → Buf → ℕ → ℕ → Except CodingError Buf) {st : NcfsState}
    (hlist : st.spaceList = []) (hstatus : ∀ d, st.diskStatus d = 0)
    (hzero : ∀ d x, st.disk d x = 0)
    (hfits : L.Fits st) (hsmall : st.diskBlockSize ≤ sysblocksize) {ops : List FileOp}
    (hops : Machine.AllSteps (fileStep L) (fun s op => op.Succeeds L s ∧ op.Aligned L s)
      ⟨.mounted st, fun _ => .empty⟩ ops) :
    Machine.AllSteps (fileStep L) (fun s op => op.ReadsBack L degraded s)
      ⟨.mounted st, fun _ => .empty⟩ ops := by
  refine hops.imp (I := Mirrored L st.diskBlockSize) (fun s op h hop => ?_) (fun s op h hop => ?_)
    (mirrored_mounted hlist hstatus hzero hfits)
  · cases op with
    | write path buf size offset mem => exact h.write hsmall hop.2 hop.1
    | read path buf size offset errno => exact h
  · cases op with
    | write path buf size offset mem => trivial
    | read path buf size offset errno => exact h.read hsmall hop.2

/-- RAID5 on three disks, with blocks of four bytes: six bytes are written, so that the last block
is short, and the first block is written over; the whole file is read, and a range inside of it. -/
theorem readsBack_of_aligned_overwrite : Machine.AllSteps (fileStep .raid5)
    (fun s op => op.ReadsBack .raid5 (fun _ _ _ _ _ => .error .failed) s)
    ⟨.mounted (.blank 3 2 4 fourBytes_pos 8), fun _ => .empty⟩
    [.write "/a" (fun j => Byte.ofNat (j + 1)) 6 0 fun _ => 0,
      .write "/a" (fun j => Byte.ofNat (j + 7)) 4 0 fun _ => 0, .read "/a" (fun _ => 0) 6 0 0,
      .read "/a" (fun _ => 0) 3 2 0] := by
  have hfits : CodingLayer.raid5.Fits (.blank 3 2 4 fourBytes_pos 8) := show 2 ≤ 3 by decide
  -- a read of both blocks, which are mapped
  have hreads : ∀ {s : Mirror} {size offset errno : ℕ}, s.fs.st.diskBlockSize = 4 →
      s.fs.names "/a" = some 0 →
      (s.fs.slots 0 0).isSome = true → (s.fs.slots 0 1).isSome = true →
      endBlock 4 size offset = 1 → offset / 4 = 0 →
      (FileOp.read "/a" (fun _ => 0) size offset errno).Aligned .raid5 s := by
    intro s size offset errno hblock hname h0 h1 hend hstart
    rw [FileOp.Aligned, hblock]
    refine ⟨by omega, 0, hname, fun r hr => ?_⟩
    have hslot : r.slot = 0 ∨ r.slot = 1 := by
      simp only [readCalls, hend, hstart, Nat.sub_self, List.range_zero, List.map_nil,
        List.nil_append] at hr
      simp only [firstRead, lastRead, hend, hstart] at hr
      grind
    rcases hslot with hslot | hslot <;> rw [hslot]
    · exact Option.isSome_iff_ne_none.1 h0
    · exact Option.isSome_iff_ne_none.1 h1
  refine readsBack_of_aligned .raid5 _ rfl (fun _ => rfl) (fun _ _ => rfl) hfits
    (show 4 ≤ sysblocksize by decide)
    ⟨⟨by decide +kernel, by decide, by decide, fun _ _ _ => rfl, ?_, fun _ =>
      ⟨?_, fun _ => trivial⟩⟩,
      ⟨by decide +kernel, by decide, by decide +kernel, fun p hp hlast => ?_, ?_, fun _ => trivial⟩,
      ⟨trivial, ?_⟩, ⟨trivial, ?_⟩, trivial⟩
  · exact .of_next 4 rfl (show _ = some (0, 0) by decide +kernel) (by decide) (by decide) trivial
  · exact .of_next 4 (by decide +kernel) (show _ = some (1, 0) by decide +kernel) (by decide)
      (by decide) trivial
  · have hblock : (fileStep .raid5 ⟨.mounted (.blank 3 2 4 fourBytes_pos 8), fun _ => .empty⟩
        (.write "/a" (fun j => Byte.ofNat (j + 1)) 6 0 fun _ => 0)).fs.st.diskBlockSize =
          4 := by decide +kernel
    rw [hblock] at hlast
    omega
  · exact .of_next 4 (by decide +kernel) (show _ = some (0, 1) by decide +kernel) (by decide)
      (by decide) trivial
  · exact hreads (by decide +kernel) (by decide +kernel) (by decide +kernel) (by decide +kernel)
      (by decide) (by decide)
  · exact hreads (by decide +kernel) (by decide +kernel) (by decide +kernel) (by decide +kernel)
      (by decide) (by decide)

/-- Block `0` of a file is written and then ten bytes in it, so that the block is lost; block `2` of
a file is written alone, so that block `1` is read from the disk's first block; and a file of three
blocks is read at once, so that the second block is not counted. -/
theorem unaligned_write_lost :
    let start : Mirror := ⟨.mounted (.blank 1 1 4096 sysblocksize_pos 4), fun _ => .empty⟩
    let write (size offset : ℕ) : FileOp := .write "/a" (fun _ => 1) size offset fun _ => 0
    let read (size offset : ℕ) : FileOp := .read "/a" (fun _ => 0) size offset 0
    let ReadsBack := Machine.AllSteps (fileStep .raid0)
      (fun s op => op.ReadsBack .raid0 (fun _ _ _ _ _ => .error .failed) s) start
    let Succeeds := Machine.AllSteps (fileStep .raid0) (FileOp.Succeeds .raid0) start
    (Succeeds [write 4096 0, write 10 100, read 1 50] ∧
      ¬ ReadsBack [write 4096 0, write 10 100, read 1 50]) ∧
      (Succeeds [write 4096 8192, read 1 4096] ∧ ¬ ReadsBack [write 4096 8192, read 1 4096]) ∧
      (Succeeds [write 12288 0, read 12288 0] ∧ ¬ ReadsBack [write 12288 0, read 12288 0]) := by
  refine ⟨⟨⟨by decide +kernel, by decide +kernel, trivial, trivial⟩, ?_⟩,
    ⟨⟨by decide +kernel, trivial, trivial⟩, ?_⟩, ⟨⟨by decide +kernel, trivial, trivial⟩, ?_⟩⟩
  · rintro ⟨-, -, h, -⟩
    obtain ⟨f, hf, read, hread, -, hbyte⟩ := h (by decide) (by decide +kernel)
    obtain rfl : 0 = f := Option.some.inj (Eq.trans (by decide +kernel) hf)
    have hvalue := congrArg (Except.map fun read => read.2 0) hread
    rw [Except.map, hbyte 0 (by decide)] at hvalue
    exact absurd hvalue (by decide +kernel)
  · rintro ⟨-, h, -⟩
    obtain ⟨f, hf, read, hread, -, hbyte⟩ := h (by decide) (by decide +kernel)
    obtain rfl : 0 = f := Option.some.inj (Eq.trans (by decide +kernel) hf)
    have hvalue := congrArg (Except.map fun read => read.2 0) hread
    rw [Except.map, hbyte 0 (by decide)] at hvalue
    exact absurd hvalue (by decide +kernel)
  · rintro ⟨-, h, -⟩
    obtain ⟨f, hf, read, hread, hcount, -⟩ := h (by decide) (by decide +kernel)
    obtain rfl : 0 = f := Option.some.inj (Eq.trans (by decide +kernel) hf)
    have hvalue := congrArg (Except.map Prod.fst) hread
    rw [Except.map, hcount] at hvalue
    exact absurd hvalue (by decide +kernel)

end Ncfs
