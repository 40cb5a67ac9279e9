/-
**Files in big-block mode.**

Where blocks are larger than `sysblocksize`, `ncfs_write` gathers the pieces of its range in a
buffer, each at a place of `sysblocksize` bytes, and stores the buffer when it is full as a block of
the file that is being written.  There is one buffer for all files, and neither `ncfs_flush` nor
`ncfs_release` looks at it.  So a file is described by its table only if its bytes come in whole
buffers of their own.

Main definitions:

* `Ncfs.ncfsFlush`, `Ncfs.ncfsRelease` — the calls by which a file is closed;
* `Ncfs.Streams`, `Ncfs.streamStep` — files that are written from their start to their end;
* `Ncfs.Streams.Describes` — the recorded size and the table of a file give its bytes;
* `Ncfs.StreamOp.Whole` — the condition: a write fills the buffer with pieces of its own file, and a
  file is closed when none of its bytes are in the buffer.

Main results:

* `Ncfs.Gathered.add` — one piece, whether it fills the buffer or not;
* `Ncfs.Gathered.write` — the pieces of a write;
* `Ncfs.described_of_whole` — **in a run of whole writes** every closed file is described;
* `Ncfs.withinBuffer_of_served` — in a run of served writes no byte goes behind the end of the
  buffer;
* `Ncfs.bigBlocks_mixed` — two files whose bytes get into one block, and a file whose bytes are
  lost.
-/
import FuseMdr.FileLength
import FuseMdr.ReadYourWrites

set_option relaxedAutoImplicit false
set_option autoImplicit false

namespace Ncfs

open IntFile

/-! ### The calls -/

/-- `ncfs_flush`. -/
def ncfsFlush (fs : FsState) (_path : String) : ℤ × FsState := (0, fs)

/-- `ncfs_release`.  The cache layer forgets the path of the handle. -/
def ncfsRelease (fs : FsState) (_path : String) : ℤ × FsState := (0, fs)

/-- `bigtempbuf_maxcount`. -/
def FsState.maxcount (fs : FsState) : ℕ := fs.st.diskBlockSize / sysblocksize

/-- The number of pieces in the buffer. -/
def FsState.buffered (fs : FsState) : ℕ := ((fs.maxcount : ℤ) - fs.bigtempbufCounter).toNat

/-- The number of pieces of a write. -/
def pieceCount (size : ℕ) : ℕ := (size + sysblocksize - 1) / sysblocksize

/-! ### Files that are written sequentially -/

/-- A file system with what has been written to its files.  The last three fields tell the history:
which files have been released since they were last written to, which file was written to last, and
for which files the size that was recorded last is not where the bytes of the buffer ended. -/
structure Streams where
  /-- The file system. -/
  fs : FsState
  /-- The bytes written to each file. -/
  files : String → ByteFile
  /-- The files that are closed. -/
  released : String → Bool
  /-- The file that was written to last. -/
  last : Option String
  /-- The files whose recorded size is wrong. -/
  misSized : String → Bool

/-- A call for a file. -/
inductive StreamOp where
  /-- A file is made. -/
  | create (path : String)
  /-- `ncfs_write` at the end of a file. -/
  | write (path : String) (buf : Buf) (size : ℕ)
  /-- `ncfs_flush`. -/
  | flush (path : String)
  /-- `ncfs_release`. -/
  | release (path : String)

/-- The size that a write records with a full buffer is not where its bytes end: a short write takes
the buffer to be as large as a block, and a long one takes it to have been empty before. -/
def FsState.missesSize (fs : FsState) (size : ℕ) : Bool :=
  if size ≤ sysblocksize then fs.st.diskBlockSize % sysblocksize ≠ 0 else fs.buffered ≠ 0

/-- What a write that leaves the file system `fs` adds to the history.  `filled` says whether it has
filled the buffer, and `misses` whether the size that it recorded is wrong. -/
def Streams.append (s : Streams) (fs : FsState) (path : String) (buf : Buf) (size : ℕ)
    (filled misses : Bool) :
    Streams where
  fs := fs
  files := Function.update s.files path ((s.files path).write buf size (s.files path).length)
  released := Function.update s.released path false
  last := some path
  misSized := if filled then Function.update s.misSized path misses else s.misSized

/-- One call. -/
def streamStep (L : CodingLayer) (s : Streams) : StreamOp → Streams
  | .create path => { s with fs := s.fs.openCreate path }
  | .write path buf size =>
      s.append (ncfsWrite L s.fs path buf size (s.files path).length fun _ => 0).2 path buf size
        (s.fs.maxcount ≤ s.fs.buffered + pieceCount size) (s.fs.missesSize size)
  | .flush path => { s with fs := (ncfsFlush s.fs path).2 }
  | .release path =>
      { s with fs := (ncfsRelease s.fs path).2, released := Function.update s.released path true }

/-- A call for a file that is there, with something to write and room for it. -/
def StreamOp.Served (L : CodingLayer) (s : Streams) : StreamOp → Prop
  | .write path buf size => s.fs.names path ≠ none ∧ 0 < size ∧
      (ncfsWrite L s.fs path buf size (s.files path).length fun _ => 0).1 = size
  | .release path => s.fs.names path ≠ none
  | _ => True

/-- The info file has the length of the file as its size, and for each byte the block that holds
it. -/
def Streams.Describes (L : CodingLayer) (s : Streams) (path : String) : Prop :=
  ∃ f, s.fs.names path = some f ∧ intAt (s.fs.info f).byte 0 = (s.files path).length ∧
    ∀ p < (s.files path).length, ∃ x : ℕ × ℕ,
      Stored (s.fs.info f) (slotOffset (p / s.fs.st.diskBlockSize)) [(x.1 : ℤ), x.2] ∧
        s.fs.st.block x.1 (L.blockNo x.2) (p % s.fs.st.diskBlockSize) = (s.files path).byte p

/-- Where the next byte of a file goes in the buffer: behind other bytes of the file, or to the
start of a block. -/
def Streams.Home (s : Streams) (path : String) : Prop :=
  if s.fs.buffered = 0 then (s.files path).length % s.fs.st.diskBlockSize = 0
  else s.last = some path

/-- The condition.  A write finds nothing in the buffer and its file ends at a block, or it finds
bytes of its own file; a short piece, behind which nothing can be added, fills the buffer; the
buffer is as large as a block, or filled once only; the file does not become too long for an `int`,
and its blocks can be found again.  When a file is released, none of its bytes are in the buffer,
and the size that was recorded last is right. -/
def StreamOp.Whole (L : CodingLayer) (s : Streams) : StreamOp → Prop
  | .write path buf size => s.Home path ∧
      (size % sysblocksize = 0 ∨ (s.fs.buffered + pieceCount size) % s.fs.maxcount = 0) ∧
      (s.fs.st.diskBlockSize % sysblocksize = 0 ∨ s.fs.buffered + pieceCount size ≤ s.fs.maxcount) ∧
      (s.files path).length + size < 2 ^ 31 ∧
      AllStores L (FindsBlock L) s.fs path buf size (s.files path).length fun _ => 0
  | .release path => (s.fs.buffered = 0 ∨ s.last ≠ some path) ∧ s.misSized path = false
  | _ => True

/-- As they are first mounted. -/
def Streams.mounted (st : NcfsState) : Streams :=
  ⟨.mounted st, fun _ => .empty, fun _ => false, none, fun _ => false⟩

/-! ### Steps of the file system -/

section FileSystem

variable {L : CodingLayer} {bs : ℕ} {fs : FsState} {files : String → ByteFile}
    {path : String} {f : ℕ}

/-- The buffer does not matter to the blocks. -/
theorem Mirrored.buffer (h : Mirrored L bs ⟨fs, files⟩) (buf : Buf) (counter : ℤ) (overrun : Bool) :
    Mirrored L bs
      ⟨{ fs with bigtempbuf := buf, bigtempbufCounter := counter, bigtempbufOverrun := overrun },
        files⟩ where
  owning := ⟨⟨h.owning.tables.stored, h.owning.tables.names_lt⟩, h.owning.fits, h.owning.owned,
    h.owning.mem_live, h.owning.inj⟩
  links := h.links
  list_eq := h.list_eq
  status_eq := h.status_eq
  mode_eq := h.mode_eq
  block_eq := h.block_eq
  fits := h.fits
  place := h.place
  unused := h.unused
  byte_eq := h.byte_eq

theorem openCreate_fields (fs : FsState) (path : String) : (fs.openCreate path).st = fs.st ∧
    (fs.openCreate path).live = fs.live ∧ (fs.openCreate path).operationMode = fs.operationMode ∧
    (fs.openCreate path).bigtempbuf = fs.bigtempbuf ∧
    (fs.openCreate path).bigtempbufCounter = fs.bigtempbufCounter := by
  rw [FsState.openCreate]
  split <;> exact ⟨rfl, rfl, rfl, rfl, rfl⟩

/-- A new file has no blocks. -/
theorem Mirrored.create (h : Mirrored L bs ⟨fs, files⟩) (path : String) :
    Mirrored L bs ⟨fs.openCreate path, files⟩ := by
  obtain ⟨hst, hlive, hmode, -, -⟩ := openCreate_fields fs path
  have htables : fs.Tables := h.owning.tables
  have hserved : (fs.openCreate path).served = fs.served := by
    rw [FsState.served, FsState.served, hst, hlive]
  constructor
  · exact h.owning.of_maps (htables.openCreate path) hserved fun _ _ _ => htables.openCreate_maps.1
  · exact h.links.openCreate htables path
  · exact (congrArg NcfsState.spaceList hst).trans h.list_eq
  · intro d
    dsimp only
    rw [hst]
    exact h.status_eq d
  · exact hmode.trans h.mode_eq
  · exact (congrArg NcfsState.diskBlockSize hst).trans h.block_eq
  · dsimp only
    rw [hst]
    exact h.fits
  · intro g i x hx
    dsimp only
    rw [hst]
    exact h.place g i x (htables.openCreate_maps.1 hx)
  · intro x y o hplace hnew ho
    dsimp only at hplace hnew ⊢
    rw [hst] at hplace ⊢
    rw [hlive] at hnew
    exact h.unused x y o hplace hnew ho
  · intro p g i x o hp hx ho
    dsimp only at hp hx ⊢
    rw [hst]
    obtain ⟨hg, hslot⟩ := FsState.openCreate_slot hp hx
    exact h.byte_eq p g i x o hg hslot ho

/-- What a call of `encode` with its records makes of a file that is there. -/
theorem storeBlock_recorded {w : BlockWrite} (hpath : fs.names path = some f)
    (hok : (storeBlock L path fs w).1 = true) :
    ∃ x st, L.encode fs.st w.buf w.size = (some x, st) ∧ (storeBlock L path fs w).2 = { fs with
      st := st
      info := Function.update fs.info f
        (((fs.info f).pwrite (record [w.fileSize]) 4 0).pwrite (record [x.1, x.2]) 8
          (slotOffset w.slot))
      slots := Function.update fs.slots f (Function.update (fs.slots f) w.slot (some x))
      live := x :: fs.live
      returned := x :: fs.returned } := by
  have hcase := storeBlock_case L path fs w
  generalize storeBlock L path fs w = result at hcase hok ⊢
  cases hcase with
  | noRoom st hencode => cases hok
  | stored x st hencode =>
      have hopen : FsState.openCreate { fs with st := st } path = { fs with st := st } :=
        FsState.openCreate_of_some hpath
      have hnames : (FsState.openCreate { fs with st := st } path).names path = some f := by
        rw [hopen]
        exact hpath
      have heq : FsState.recordBlock { fs with st := st } path w x = _ :=
        FsState.recordBlock_eq hnames x
      rw [hopen] at heq
      exact ⟨x, st, hencode, heq⟩

end FileSystem

/-! ### The invariant -/

/-- How many bytes of a file are not in the buffer. -/
def Streams.storedLength (s : Streams) (path : String) : ℕ :=
  if s.last = some path then (s.files path).length - s.fs.buffered * sysblocksize
  else (s.files path).length

/-- The blocks hold the bytes that are not in the buffer, and the buffer holds the last bytes of one
file. -/
structure Gathered (L : CodingLayer) (bs : ℕ) (s : Streams) : Prop where
  /-- The bytes that are stored are where the table says. -/
  mirrored : ∃ stored : String → ByteFile, Mirrored L bs ⟨s.fs, stored⟩ ∧
    ∀ path f p, s.fs.names path = some f → p < s.storedLength path →
      (stored path).byte p = (s.files path).byte p ∧ s.fs.slots f (p / bs) ≠ none
  /-- The counter counts the free places. -/
  counter_eq : s.fs.bigtempbufCounter = s.fs.maxcount - s.fs.buffered
  /-- There is one. -/
  lt_maxcount : s.fs.buffered < s.fs.maxcount
  /-- The recorded sizes. -/
  size_eq : ∀ path f, s.fs.names path = some f → s.misSized path = false →
    intAt (s.fs.info f).byte 0 = s.storedLength path
  /-- The bytes in the buffer. -/
  buffer_eq : ∀ path, s.last = some path → 0 < s.fs.buffered →
    s.fs.buffered * sysblocksize ≤ (s.files path).length ∧ s.storedLength path % bs = 0 ∧
      ∀ o < s.fs.buffered * sysblocksize, s.fs.bigtempbuf o = (s.files path).byte
        (s.storedLength path + o)
  /-- The closed files. -/
  closed : ∀ path, s.released path = true → s.fs.names path ≠ none ∧
    s.storedLength path = (s.files path).length ∧ s.misSized path = false
  /-- The files that are not there. -/
  fresh : ∀ path, s.fs.names path = none → (s.files path).length = 0

section Invariant

variable {L : CodingLayer} {bs : ℕ} {s : Streams} {path : String} {f : ℕ}

/-- A file with a right size and no bytes in the buffer is described. -/
theorem Gathered.describes (h : Gathered L bs s) (hpath : s.fs.names path ≠ none)
    (hstored : s.storedLength path = (s.files path).length) (hsize : s.misSized path = false) :
    s.Describes L path := by
  obtain ⟨f, hf⟩ := Option.ne_none_iff_exists'.1 hpath
  obtain ⟨stored, hmirrored, hbytes⟩ := h.mirrored
  have hblock : s.fs.st.diskBlockSize = bs := hmirrored.block_eq
  have hbs : 0 < bs := hblock ▸ s.fs.st.diskBlockSize_pos
  refine ⟨f, hf, (h.size_eq path f hf hsize).trans (congrArg _ hstored), fun p hp => ?_⟩
  obtain ⟨hbyte, hslot⟩ := hbytes path f p hf (hp.trans_eq hstored.symm)
  obtain ⟨x, hx⟩ := Option.ne_none_iff_exists'.1 hslot
  rw [hblock]
  refine ⟨x, hmirrored.owning.tables.stored f _ x hx, ?_⟩
  rw [hmirrored.byte_eq path f (p / bs) x (p % bs) hf hx (Nat.mod_lt p hbs), Nat.div_add_mod']
  exact hbyte

/-- What a file that is at home finds in the buffer. -/
theorem Gathered.home (h : Gathered L bs s) (hhome : s.Home path) :
    s.storedLength path + s.fs.buffered * sysblocksize = (s.files path).length ∧
      s.storedLength path % bs = 0 ∧ ∀ o < s.fs.buffered * sysblocksize,
        s.fs.bigtempbuf o = (s.files path).byte (s.storedLength path + o) := by
  obtain ⟨stored, hmirrored, -⟩ := h.mirrored
  have hblock : s.fs.st.diskBlockSize = bs := hmirrored.block_eq
  rw [Streams.Home, hblock] at hhome
  by_cases hempty : s.fs.buffered = 0
  · rw [if_pos hempty] at hhome
    have hlen : s.storedLength path = (s.files path).length := by
      rw [Streams.storedLength, hempty, Nat.zero_mul, Nat.sub_zero, ite_self]
    rw [hempty, hlen, Nat.zero_mul]
    exact ⟨rfl, hhome, fun o ho => absurd ho (Nat.not_lt_zero o)⟩
  · rw [if_neg hempty] at hhome
    obtain ⟨hle, haligned, hbytes⟩ := h.buffer_eq path hhome (Nat.pos_of_ne_zero hempty)
    refine ⟨?_, haligned, hbytes⟩
    rw [Streams.storedLength, if_pos hhome]
    omega

/-- The other files are stored. -/
theorem Streams.Home.stored_of_ne (hhome : s.Home path) {other : String} (hne : other ≠ path) :
    s.storedLength other = (s.files other).length := by
  rw [Streams.Home] at hhome
  rw [Streams.storedLength]
  split
  · rename_i hlast
    split at hhome
    · rename_i hempty
      rw [hempty, Nat.zero_mul, Nat.sub_zero]
    · exact absurd (Option.some.inj (hlast.symm.trans hhome)) hne
  · rfl

end Invariant

/-! ### The history of a write -/

section Append

variable {L : CodingLayer} {bs : ℕ} {s : Streams} {fs : FsState} {path other : String} {buf : Buf}
    {size : ℕ} {filled misses : Bool}

theorem ByteFile.length_write_end (file : ByteFile) (buf : Buf) (size : ℕ) :
    (file.write buf size file.length).length = file.length + size :=
  max_eq_right (Nat.le_add_right ..)

theorem Streams.append_files_self :
    (s.append fs path buf size filled misses).files path =
      (s.files path).write buf size (s.files path).length :=
  Function.update_self ..

theorem Streams.append_files_of_ne (hne : other ≠ path) :
    (s.append fs path buf size filled misses).files other = s.files other :=
  Function.update_of_ne hne ..

theorem Streams.append_length :
    ((s.append fs path buf size filled misses).files path).length =
      (s.files path).length + size := by
  rw [append_files_self, ByteFile.length_write_end]

/-- The bytes in front stay. -/
theorem Streams.append_byte {p : ℕ} (hp : p < (s.files path).length) :
    ((s.append fs path buf size filled misses).files path).byte p = (s.files path).byte p := by
  rw [append_files_self, ByteFile.write]
  dsimp only
  rw [if_neg (by omega)]

/-- The file is the one whose bytes are in the buffer. -/
theorem Streams.append_storedLength :
    (s.append fs path buf size filled misses).storedLength path =
      (s.files path).length + size - fs.buffered * sysblocksize := by
  rw [storedLength, append_length]
  exact if_pos rfl

theorem Streams.append_storedLength_of_ne (hne : other ≠ path) :
    (s.append fs path buf size filled misses).storedLength other = (s.files other).length := by
  rw [storedLength, append_files_of_ne hne]
  exact if_neg fun heq => hne (Option.some.inj heq).symm

theorem Streams.append_misSized_of_ne (hne : other ≠ path) :
    (s.append fs path buf size filled misses).misSized other = s.misSized other := by
  cases filled with
  | true => exact Function.update_of_ne hne ..
  | false => rfl

/-- A file that is closed was closed before. -/
theorem Streams.append_released
    (hrel : (s.append fs path buf size filled misses).released other = true) :
    other ≠ path ∧ s.released other = true := by
  change Function.update s.released path false other = true at hrel
  by_cases hne : other = path
  · rw [hne, Function.update_self] at hrel
    cases hrel
  · rw [Function.update_of_ne hne] at hrel
    exact ⟨hne, hrel⟩

/-- The closed files stay as they are. -/
theorem Gathered.closed_append (h : Gathered L bs s)
    (hrel : (s.append fs path buf size filled misses).released other = true) :
    s.fs.names other ≠ none ∧ (s.append fs path buf size filled misses).storedLength other =
        ((s.append fs path buf size filled misses).files other).length ∧
      (s.append fs path buf size filled misses).misSized other = false := by
  obtain ⟨hne, hold⟩ := Streams.append_released hrel
  obtain ⟨hname, -, hright⟩ := h.closed other hold
  rw [Streams.append_storedLength_of_ne hne, Streams.append_files_of_ne hne,
    Streams.append_misSized_of_ne hne]
  exact ⟨hname, rfl, hright⟩

/-- So do the files that are not there. -/
theorem Gathered.fresh_append (h : Gathered L bs s) (hpath : s.fs.names path ≠ none)
    (hnone : s.fs.names other = none) :
    ((s.append fs path buf size filled misses).files other).length = 0 := by
  have hne : other ≠ path := fun heq => hpath (heq ▸ hnone)
  rw [Streams.append_files_of_ne hne]
  exact h.fresh other hnone

end Append

/-! ### One piece -/

section Piece

variable {L : CodingLayer} {bs : ℕ} {s : Streams} {path : String} {f : ℕ} {piece : Buf × ℕ}
    {single : Bool} {t : ℕ}

theorem FsState.buffered_of_counter {fs : FsState} {j : ℕ}
    (h : fs.bigtempbufCounter = fs.maxcount - j) :
    fs.buffered = j := by
  rw [FsState.buffered, h]
  omega

/-- A piece takes the next place. -/
theorem Gathered.fillBig_buffered (h : Gathered L bs s) (piece : Buf × ℕ) :
    (s.fs.fillBig piece).bigtempbufCounter = s.fs.maxcount - (s.fs.buffered + 1 : ℕ) ∧
      (s.fs.fillBig piece).buffered = s.fs.buffered + 1 := by
  have hcounter : (s.fs.fillBig piece).bigtempbufCounter = s.fs.maxcount -
      (s.fs.buffered + 1 : ℕ) := by
    change s.fs.bigtempbufCounter - 1 = _
    rw [h.counter_eq]
    push_cast
    ring
  exact ⟨hcounter, @FsState.buffered_of_counter (s.fs.fillBig piece) _ hcounter⟩

/-- The buffer with a piece. -/
theorem Gathered.fillBig_byte (h : Gathered L bs s) (hhome : s.Home path) {o : ℕ}
    (ho : o < s.fs.buffered * sysblocksize + piece.2) :
    (s.fs.fillBig piece).bigtempbuf o =
      ((s.files path).write piece.1 piece.2 (s.files path).length).byte
        (s.storedLength path + o) := by
  obtain ⟨hlen, -, hbytes⟩ := h.home hhome
  have hplace : (((s.fs.st.diskBlockSize / sysblocksize : ℕ) : ℤ) - s.fs.bigtempbufCounter).toNat *
      sysblocksize = s.fs.buffered * sysblocksize := rfl
  change copyBufAt _ _ _ _ o = _
  rw [hplace, copyBufAt, ByteFile.write]
  dsimp only
  by_cases hin : s.fs.buffered * sysblocksize ≤ o
  · rw [if_pos ⟨hin, ho⟩, if_pos (by omega)]
    exact congrArg piece.1 (by omega)
  · rw [if_neg fun hle => hin hle.1, if_neg (by omega)]
    exact hbytes o (by omega)

/-- A piece that leaves room in the buffer. -/
theorem Gathered.gather (h : Gathered L bs s) (hpath : s.fs.names path = some f)
    (hhome : s.Home path) (hwhole : piece.2 = sysblocksize)
    (hroom : s.fs.buffered + 1 < s.fs.maxcount) (misses : Bool) :
    bigStep L path single (s.fs, t) piece = (true, (s.fs.fillBig piece, t)) ∧
      Gathered L bs (s.append (s.fs.fillBig piece) path piece.1 piece.2 false misses) ∧
      (s.append (s.fs.fillBig piece) path piece.1 piece.2 false misses).storedLength path =
        s.storedLength path := by
  obtain ⟨hcounter, hbuffered⟩ := h.fillBig_buffered piece
  obtain ⟨hlen, haligned, -⟩ := h.home hhome
  obtain ⟨stored, hmirrored, hbytes⟩ := h.mirrored
  have hself : (s.append (s.fs.fillBig piece) path piece.1 piece.2 false misses).storedLength path =
      s.storedLength path := by
    rw [Streams.append_storedLength, hbuffered, hwhole, Nat.succ_mul]
    omega
  have hstored : ∀ other,
      (s.append (s.fs.fillBig piece) path piece.1 piece.2 false misses).storedLength other =
      s.storedLength other := by
    intro other
    by_cases hne : other = path
    · rw [hne, hself]
    · rw [Streams.append_storedLength_of_ne hne, hhome.stored_of_ne hne]
  refine ⟨?_, ⟨⟨stored, hmirrored.buffer _ _ _, fun other g p hg hp => ?_⟩, ?_, ?_,
    fun other g hg hsize => ?_, fun other hlast _ => ?_, fun other hrel => h.closed_append hrel,
    fun other hnone => h.fresh_append (by rw [hpath]; exact Option.some_ne_none f) hnone⟩, hself⟩
  · rw [bigStep]
    dsimp only
    rw [if_neg (by omega)]
  · rw [hstored] at hp
    obtain ⟨hbyte, hslot⟩ := hbytes other g p hg hp
    refine ⟨hbyte.trans ?_, hslot⟩
    by_cases hne : other = path
    · subst hne
      rw [Streams.append_byte (by omega)]
    · rw [Streams.append_files_of_ne hne]
  · exact hcounter.trans (by rw [← hbuffered]; rfl)
  · exact hbuffered.trans_lt hroom
  · rw [hstored]
    exact h.size_eq other g hg hsize
  · obtain rfl : path = other := Option.some.inj hlast
    change (s.fs.fillBig piece).buffered * _ ≤ _ ∧ _ ∧
      ∀ o < (s.fs.fillBig piece).buffered * _, (s.fs.fillBig piece).bigtempbuf o = _
    rw [hstored, hbuffered, Streams.append_length, Streams.append_files_self, Nat.succ_mul]
    refine ⟨by omega, haligned, fun o ho => h.fillBig_byte hhome ?_⟩
    rwa [hwhole]

/-- A call of `encode` that stores a block of a file. -/
theorem Mirrored.storeBlock_kept {files : String → ByteFile} {fs : FsState}
    (h : Mirrored L bs ⟨fs, files⟩) (hpath : fs.names path = some f) {w : BlockWrite}
    (hpos : 0 < w.size) (hsize : w.size ≤ bs)
    (hfinds : FindsBlock L fs w) (hok : (Ncfs.storeBlock L path fs w).1 = true) :
    Mirrored L bs ⟨(Ncfs.storeBlock L path fs w).2, Function.update files path
      ((files path).putBlock bs w)⟩ ∧
      (Ncfs.storeBlock L path fs w).2.names = fs.names ∧
      (Ncfs.storeBlock L path fs w).2.slots f w.slot ≠ none ∧
      (∀ g i, (g, i) ≠ (f, w.slot) → (Ncfs.storeBlock L path fs w).2.slots g i = fs.slots g i) ∧
      (∀ other g, other ≠ path → fs.names other = some g →
        (Ncfs.storeBlock L path fs w).2.info g = fs.info g) ∧
      (Fits w.fileSize → intAt ((Ncfs.storeBlock L path fs w).2.info f).byte 0 = w.fileSize) := by
  refine ⟨h.storeBlock hpos hsize hfinds hok, ?_⟩
  have hrecords := storeBlock_records hpath hok
  obtain ⟨x, st, -, heq⟩ := storeBlock_recorded hpath hok
  refine ⟨hrecords.names_eq, ?_, fun g i hne => ?_, fun other g hne hg => ?_, fun hfits => ?_⟩
  · rw [heq]
    dsimp only
    rw [Function.update_self, Function.update_self]
    exact Option.some_ne_none x
  · rw [heq]
    dsimp only
    by_cases hg : g = f
    · subst hg
      rw [Function.update_self, Function.update_of_ne fun hi => hne (congrArg (Prod.mk g) hi)]
    · rw [Function.update_of_ne hg]
  · rw [heq]
    dsimp only
    refine Function.update_of_ne (fun hgf => hne ?_) ..
    subst hgf
    exact h.links other path g hg hpath
  · rw [hrecords.size_eq]
    exact @intAt_record [w.fileSize] 0 hfits

/-- A full buffer is stored and emptied. -/
theorem bigStep_full {fs : FsState} (hfull : (fs.fillBig piece).bigtempbufCounter ≤ 0)
    (hok : (bigStep L path single (fs, t) piece).1 = true) :
    let w := (fs.fillBig piece).bigRequest single t piece.2
    let fs' := (storeBlock L path (fs.fillBig piece) w).2
    (storeBlock L path (fs.fillBig piece) w).1 = true ∧ bigStep L path single (fs, t) piece =
      (true, ({ fs' with
        bigtempbuf := memset0 fs'.bigtempbuf fs'.st.diskBlockSize
        bigtempbufCounter := fs'.st.diskBlockSize / sysblocksize }, t + w.size)) := by
  intro w fs'
  rw [bigStep] at hok ⊢
  simp only [if_pos hfull] at hok ⊢
  by_cases hstore : (storeBlock L path (fs.fillBig piece) w).1 = true
  · exact ⟨hstore, if_pos hstore⟩
  · rw [if_neg hstore] at hok
    cases hok

/-- A block behind the stored bytes of a file, with the bytes that come next. -/
theorem putBlock_append {file g : ByteFile} {n : ℕ} (haligned : n % bs = 0) {w : BlockWrite}
    (hw : w.size ≤ bs) (hslot : w.slot = n / bs) (hbuf : ∀ o < w.size, w.buf o = g.byte (n + o))
    (hold : ∀ p < n, file.byte p = g.byte p) {p : ℕ} (hp : p < n + w.size) :
    (file.putBlock bs w).byte p = g.byte p ∧ (p / bs = w.slot ↔ n ≤ p) := by
  have hn : n / bs * bs = n := Nat.div_mul_cancel (Nat.dvd_of_mod_eq_zero haligned)
  have hdiv := Nat.div_add_mod' p bs
  rw [ByteFile.putBlock, hslot]
  dsimp only
  by_cases hle : n ≤ p
  · have hblock : p / bs = n / bs := by
      rw [show p = n / bs * bs + (p - n) by omega]
      exact block_div (by omega)
    rw [hblock, hn] at hdiv
    rw [if_pos hblock, if_pos (by omega), hbuf _ (by omega), show n + p % bs = p by omega]
    exact ⟨rfl, iff_of_true hblock hle⟩
  · have hne : p / bs ≠ n / bs := by
      intro heq
      rw [heq, hn] at hdiv
      omega
    rw [if_neg hne]
    exact ⟨hold p (by omega), iff_of_false hne hle⟩

/-- A piece that fills the buffer. -/
theorem Gathered.store (h : Gathered L bs s) (hpath : s.fs.names path = some f)
    (hhome : s.Home path) (hpos : 0 < piece.2) (hpiece : piece.2 ≤ sysblocksize)
    (hfull : s.fs.buffered + 1 = s.fs.maxcount)
    (hslot : t / bs = s.storedLength path / bs) {misses : Bool}
    (hsize : misses = false → ((s.fs.fillBig piece).bigRequest single t piece.2).fileSize =
      ((s.files path).length + piece.2 : ℕ) ∧ (s.files path).length + piece.2 < 2 ^ 31)
    (hfinds : FindsBlock L (s.fs.fillBig piece) ((s.fs.fillBig piece).bigRequest single t piece.2))
    (hok : (bigStep L path single (s.fs, t) piece).1 = true) :
    let s' := s.append (bigStep L path single (s.fs, t) piece).2.1 path piece.1 piece.2 true misses
    (bigStep L path single (s.fs, t) piece).2.2 = t + (s.fs.buffered * sysblocksize + piece.2) ∧
      Gathered L bs s' ∧ s'.fs.buffered = 0 ∧ s'.fs.names = s.fs.names ∧
      s'.fs.maxcount = s.fs.maxcount := by
  intro s'
  obtain ⟨hcounter, hbuffered⟩ := h.fillBig_buffered piece
  obtain ⟨hlen, haligned, -⟩ := h.home hhome
  obtain ⟨stored, hmirrored, hbytes⟩ := h.mirrored
  have hblock : s.fs.st.diskBlockSize = bs := hmirrored.block_eq
  have hfill : Mirrored L bs ⟨s.fs.fillBig piece, stored⟩ := hmirrored.buffer _ _ _
  have hcap : s.fs.maxcount * sysblocksize ≤ bs := by
    rw [FsState.maxcount, hblock]
    exact Nat.div_mul_le_self bs sysblocksize
  have hbyte : ∀ o < s.fs.buffered * sysblocksize + piece.2,
      (s.fs.fillBig piece).bigtempbuf o = _ :=
    fun o ho => h.fillBig_byte hhome ho
  -- the request
  obtain ⟨hstore, hstep⟩ := bigStep_full (by rw [hcounter]; omega) hok
  have hw : ((s.fs.fillBig piece).bigRequest single t piece.2).size =
      s.fs.buffered * sysblocksize + piece.2 := by
    change (s.fs.maxcount - 1) * sysblocksize + piece.2 = _
    rw [← hfull, Nat.add_sub_cancel]
  have hwslot : ((s.fs.fillBig piece).bigRequest single t piece.2).slot =
      s.storedLength path / bs := by
    change t / s.fs.st.diskBlockSize = _
    rw [hblock, hslot]
  have hwbuf : ((s.fs.fillBig piece).bigRequest single t piece.2).buf =
      (s.fs.fillBig piece).bigtempbuf := rfl
  have hsizes : s.fs.buffered * sysblocksize + piece.2 ≤ bs := by
    rw [← hfull, Nat.succ_mul] at hcap
    omega
  have hs' : s' = s.append (bigStep L path single (s.fs, t) piece).2.1 path piece.1 piece.2 true
      misses := rfl
  clear_value s'
  rw [hstep] at hs' ⊢
  generalize (s.fs.fillBig piece).bigRequest single t piece.2 = w at *
  obtain ⟨hmirrored', hnames, hmapped, hslots, hinfo, hrecorded⟩ :=
    hfill.storeBlock_kept hpath (by omega) (hw.trans_le hsizes) hfinds hstore
  generalize (Ncfs.storeBlock L path (s.fs.fillBig piece) w).2 = fs' at *
  have hblock' : fs'.st.diskBlockSize = bs := hmirrored'.block_eq
  have hmax : fs'.maxcount = s.fs.maxcount := by
    rw [FsState.maxcount, FsState.maxcount, hblock', hblock]
  -- the file system with the empty buffer
  generalize hfs : ({ fs' with
    bigtempbuf := memset0 fs'.bigtempbuf fs'.st.diskBlockSize
    bigtempbufCounter := fs'.st.diskBlockSize / sysblocksize } : FsState) = fs'' at *
  have hmirrored'' : Mirrored L bs
      ⟨fs'', Function.update stored path ((stored path).putBlock bs w)⟩ :=
    hfs ▸ hmirrored'.buffer _ _ _
  have hcounter'' : fs''.bigtempbufCounter = fs''.maxcount - (0 : ℕ) := by
    rw [← hfs]
    change (fs'.st.diskBlockSize : ℤ) / sysblocksize =
      (fs'.st.diskBlockSize / sysblocksize : ℕ) - (0 : ℕ)
    push_cast
    ring
  have hempty := FsState.buffered_of_counter hcounter''
  have hmax'' : fs''.maxcount = s.fs.maxcount := hfs ▸ hmax
  have hnames'' : fs''.names = s.fs.names := hfs ▸ hnames
  -- what is stored now
  change s' = s.append fs'' path piece.1 piece.2 true misses at hs'
  have hfs' : s'.fs = fs'' := by rw [hs']; rfl
  have hself : s'.storedLength path = s.storedLength path + w.size := by
    rw [hs', Streams.append_storedLength, hempty]
    omega
  have hput : ∀ p < s.storedLength path + w.size, ((stored path).putBlock bs w).byte p =
      (s'.files path).byte p ∧
      (p / bs = w.slot ↔ s.storedLength path ≤ p) := by
    intro p hp
    refine putBlock_append haligned (hw.trans_le hsizes) hwslot (fun o ho => ?_) (fun p hp => ?_) hp
    · rw [hwbuf, hs', Streams.append_files_self]
      exact hbyte o (ho.trans_eq hw)
    · rw [(hbytes path f p hpath hp).1, hs', Streams.append_byte (by omega)]
  refine ⟨by rw [hw], ⟨?_, ?_, ?_, ?_, ?_, ?_, ?_⟩, by rw [hfs', hempty], by rw [hfs', hnames''],
    by rw [hfs', hmax'']⟩
  · refine ⟨_, hfs' ▸ hmirrored'', fun other g p hg hp => ?_⟩
    rw [hfs', ← hfs]
    rw [hfs', hnames''] at hg
    change _ ∧ fs'.slots g (p / bs) ≠ none
    by_cases hne : other = path
    · subst hne
      obtain rfl : f = g := Option.some.inj (hpath.symm.trans hg)
      rw [hself] at hp
      obtain ⟨hbyte, hin⟩ := hput p hp
      rw [Function.update_self]
      refine ⟨hbyte, ?_⟩
      by_cases hslot : p / bs = w.slot
      · rw [hslot]
        exact hmapped
      · rw [hslots f _ fun heq => hslot (Prod.mk.inj heq).2]
        exact (hbytes other f p hpath (by omega)).2
    · rw [hs', Streams.append_storedLength_of_ne hne, ← hhome.stored_of_ne hne] at hp
      obtain ⟨hbyte, hslot⟩ := hbytes other g p hg hp
      rw [Function.update_of_ne hne, hs', Streams.append_files_of_ne hne]
      refine ⟨hbyte, ?_⟩
      rw [hslots g _ fun heq => hne (hmirrored.links other path g hg ((Prod.mk.inj heq).1 ▸ hpath))]
      exact hslot
  · rw [hfs', hempty]
    exact hcounter''
  · rw [hfs', hempty, hmax'']
    omega
  · intro other g hg hright
    rw [hfs', hnames''] at hg
    rw [hfs', ← hfs]
    change intAt (fs'.info g).byte 0 = _
    by_cases hne : other = path
    · subst hne
      obtain rfl : f = g := Option.some.inj (hpath.symm.trans hg)
      have hmisses : misses = false := by
        rw [hs'] at hright
        change Function.update s.misSized other misses other = false at hright
        rwa [Function.update_self] at hright
      obtain ⟨heq, hlt⟩ := hsize hmisses
      rw [hrecorded (heq ▸ ⟨by omega, by omega⟩), heq, hself, ← hlen, hw]
      congr 1
      omega
    · rw [hs', Streams.append_misSized_of_ne hne] at hright
      rw [hinfo other g hne hg, hs', Streams.append_storedLength_of_ne hne,
        ← hhome.stored_of_ne hne]
      exact h.size_eq other g hg hright
  · intro other hlast hsome
    rw [hfs', hempty] at hsome
    exact absurd hsome (lt_irrefl 0)
  · intro other hrel
    rw [hs'] at hrel
    obtain ⟨hname, hclosed⟩ := h.closed_append hrel
    rw [hfs', hnames'', hs']
    exact ⟨hname, hclosed⟩
  · intro other hnone
    rw [hfs', hnames''] at hnone
    rw [hs']
    exact h.fresh_append (by rw [hpath]; exact Option.some_ne_none f) hnone

/-- What a piece makes of the file system, and of the offset at which it is stored. -/
structure Filled (L : CodingLayer) (bs : ℕ) (s : Streams) (path : String) (piece : Buf × ℕ) (t : ℕ)
    (misses : Bool) (result : FsState × ℕ) : Prop where
  /-- The invariant is kept. -/
  gathered : Gathered L bs
    (s.append result.1 path piece.1 piece.2 (s.fs.buffered + 1 = s.fs.maxcount) misses)
  names_eq : result.1.names = s.fs.names
  maxcount_eq : result.1.maxcount = s.fs.maxcount
  buffered_eq : result.1.buffered = if s.fs.buffered + 1 = s.fs.maxcount then 0
    else s.fs.buffered + 1
  offset_eq : result.2 =
    if s.fs.buffered + 1 = s.fs.maxcount then t + (s.fs.buffered * sysblocksize + piece.2) else t

/-- **One piece**, of whole size if it leaves room in the buffer. -/
theorem Gathered.add (h : Gathered L bs s) (hpath : s.fs.names path = some f) (hhome : s.Home path)
    (hpos : 0 < piece.2) (hpiece : piece.2 ≤ sysblocksize)
    (hwhole : piece.2 = sysblocksize ∨ s.fs.buffered + 1 = s.fs.maxcount)
    (hslot : t / bs = s.storedLength path / bs) {misses : Bool}
    (hsize : s.fs.buffered + 1 = s.fs.maxcount → misses = false →
      ((s.fs.fillBig piece).bigRequest single t piece.2).fileSize =
        ((s.files path).length + piece.2 : ℕ) ∧
        (s.files path).length + piece.2 < 2 ^ 31)
    (hfinds : (s.fs.fillBig piece).bigtempbufCounter ≤ 0 →
      FindsBlock L (s.fs.fillBig piece) ((s.fs.fillBig piece).bigRequest single t piece.2))
    (hok : (bigStep L path single (s.fs, t) piece).1 = true) :
    Filled L bs s path piece t misses (bigStep L path single (s.fs, t) piece).2 := by
  obtain ⟨hcounter, hbuffered⟩ := h.fillBig_buffered piece
  by_cases hfull : s.fs.buffered + 1 = s.fs.maxcount
  · obtain ⟨hoffset, hgathered, hempty, hnames, hmax⟩ := h.store hpath hhome hpos hpiece hfull hslot
      (hsize hfull) (hfinds (by rw [hcounter]; omega)) hok
    refine ⟨?_, hnames, hmax, ?_, ?_⟩
    · rw [decide_eq_true hfull]
      exact hgathered
    · rw [if_pos hfull]
      exact hempty
    · rw [if_pos hfull]
      exact hoffset
  · have hroom := h.lt_maxcount
    obtain ⟨hstep, hgathered, -⟩ : bigStep L path single (s.fs, t) piece = _ ∧ _ :=
      h.gather hpath hhome (hwhole.resolve_right hfull) (by omega) misses
    rw [hstep]
    refine ⟨?_, rfl, rfl, ?_, ?_⟩
    · rw [decide_eq_false hfull]
      exact hgathered
    · rw [if_neg hfull]
      exact hbuffered
    · rw [if_neg hfull]

end Piece

/-! ### Whole writes -/

section Write

variable {L : CodingLayer} {bs : ℕ} {s : Streams} {path : String} {f : ℕ}

/-- Appending twice. -/
theorem ByteFile.write_write (file : ByteFile) (buf : Buf) (pos n m : ℕ) :
    (file.write (fun j => buf (pos + j)) n file.length).write (fun j => buf (pos + n + j)) m
      (file.length + n) = file.write (fun j => buf (pos + j)) (n + m) file.length := by
  rw [ByteFile.write, ByteFile.write, ByteFile.write]
  dsimp only
  refine congrArg₂ ByteFile.mk (by omega) (funext fun p => ?_)
  by_cases hle : file.length + n ≤ p
  · by_cases hlt : p < file.length + n + m
    · rw [if_pos ⟨hle, hlt⟩, if_pos (by omega)]
      exact congrArg buf (by omega)
    · rw [if_neg (by omega), if_neg (by omega), if_neg (by omega)]
  · rw [if_neg (by omega)]
    by_cases hin : file.length ≤ p
    · rw [if_pos (by omega), if_pos (by omega)]
    · rw [if_neg (by omega), if_neg (by omega)]

theorem Streams.append_append (s : Streams) (fs fs' : FsState) (buf : Buf) (pos n m : ℕ)
    (filled filled' misses : Bool) :
    (s.append fs path (fun j => buf (pos + j)) n filled misses).append fs' path
      (fun j => buf (pos + n + j)) m filled' misses = s.append fs' path (fun j => buf (pos + j))
      (n + m) (filled || filled') misses := by
  rw [Streams.append, Streams.append, Streams.append]
  dsimp only
  rw [Function.update_self, ByteFile.length_write_end, ByteFile.write_write, Function.update_idem,
    Function.update_idem]
  cases filled <;> cases filled' <;> simp

theorem pieceCount_of_le {size : ℕ} (hpos : 0 < size) (hle : size ≤ sysblocksize) :
    pieceCount size = 1 := by
  rw [pieceCount, sysblocksize] at *
  omega

theorem pieceCount_of_lt {size : ℕ} (hlt : sysblocksize < size) :
    pieceCount size = pieceCount (size - sysblocksize) + 1 ∧ 0 < pieceCount
      (size - sysblocksize) := by
  rw [pieceCount, pieceCount, sysblocksize] at *
  omega

/-- After a piece of whole size the file is still at home, if the buffer is as large as a block. -/
theorem Filled.home {piece : Buf × ℕ} {t : ℕ} {misses : Bool} {result : FsState × ℕ}
    (h : Gathered L bs s) (hhome : s.Home path) (hfilled : Filled L bs s path piece t misses result)
    (hwhole : piece.2 = sysblocksize)
    (hcap : s.fs.buffered + 1 = s.fs.maxcount → bs % sysblocksize = 0) :
    (s.append result.1 path piece.1 piece.2 (s.fs.buffered + 1 = s.fs.maxcount) misses).Home
      path := by
  obtain ⟨stored, hmirrored, -⟩ := hfilled.gathered.mirrored
  have hblock : result.1.st.diskBlockSize = bs := hmirrored.block_eq
  obtain ⟨hlen, haligned, -⟩ := h.home hhome
  obtain ⟨stored, hmirrored, -⟩ := h.mirrored
  have hblock' : s.fs.st.diskBlockSize = bs := hmirrored.block_eq
  rw [Streams.Home, Streams.append_length]
  change if result.1.buffered = 0 then
    ((s.files path).length + piece.2) % result.1.st.diskBlockSize = 0 else some path = some path
  rw [hfilled.buffered_eq, hblock]
  by_cases hfull : s.fs.buffered + 1 = s.fs.maxcount
  · rw [if_pos hfull, if_pos rfl]
    have hmax : s.fs.maxcount * sysblocksize = bs := by
      rw [FsState.maxcount, hblock']
      exact Nat.div_mul_cancel (Nat.dvd_of_mod_eq_zero (hcap hfull))
    rw [← hfull, Nat.succ_mul] at hmax
    rw [← hlen, hwhole, Nat.add_assoc, hmax, Nat.add_mod_right, haligned]
  · rw [if_neg hfull, if_neg (Nat.succ_ne_zero _)]

/-- The last piece is whole, or fills the buffer. -/
theorem Gathered.last_piece (h : Gathered L bs s) {size : ℕ} (hpos : 0 < size)
    (hle : size ≤ sysblocksize)
    (hshort : size % sysblocksize = 0 ∨ (s.fs.buffered + pieceCount size) % s.fs.maxcount = 0) :
    (size = sysblocksize ∨ s.fs.buffered + 1 = s.fs.maxcount) ∧
      decide (s.fs.maxcount ≤ s.fs.buffered + pieceCount size) = decide
        (s.fs.buffered + 1 = s.fs.maxcount) := by
  have hroom := h.lt_maxcount
  rw [pieceCount_of_le hpos hle] at hshort ⊢
  refine ⟨hshort.imp (fun hmod => ?_) fun hmod => ?_, decide_eq_decide.2 ⟨le_antisymm hroom, Eq.ge⟩⟩
  · exact le_antisymm hle (Nat.le_of_dvd hpos (Nat.dvd_of_mod_eq_zero hmod))
  · exact le_antisymm hroom (Nat.le_of_dvd (Nat.succ_pos _) (Nat.dvd_of_mod_eq_zero hmod))

/-- The first pass of a loop that does not fail. -/
theorem untilFail_cons {σ ι : Type*} {g : σ → ι → Bool × σ} {a : σ} {x : ι} {l : List ι}
    (hok : (Loops.untilFail g a (x :: l)).1 = true) :
    (g a x).1 = true ∧ Loops.untilFail g a (x :: l) = Loops.untilFail g (g a x).2 l := by
  rw [Loops.untilFail] at hok ⊢
  generalize g a x = result at hok ⊢
  obtain ⟨ok, b⟩ := result
  cases ok with
  | false => cases hok
  | true => exact ⟨rfl, rfl⟩

/-- Behind a block a range of fewer bytes than the block is in the same block. -/
theorem add_div_of_aligned {n e : ℕ} (haligned : n % bs = 0) (he : e < bs) :
    (n + e) / bs = n / bs := by
  obtain ⟨q, rfl⟩ := Nat.dvd_of_mod_eq_zero haligned
  rw [Nat.mul_add_div (by omega), Nat.div_eq_of_lt he, Nat.add_zero, Nat.mul_div_cancel_left q
    (by omega)]

/-- The pieces of a long write.  `e` is what the write found in the buffer. -/
theorem Gathered.chunks {buf : Buf} {fuel size pos t e : ℕ} {misses : Bool} (h : Gathered L bs s)
    (hpath : s.fs.names path = some f) (hhome : s.Home path) (hfuel : size ≤ fuel) (hpos : 0 < size)
    (ht : t = s.storedLength path + e) (he : e < bs) (hmisses : misses = false → e = 0)
    (hshort : size % sysblocksize = 0 ∨ (s.fs.buffered + pieceCount size) % s.fs.maxcount = 0)
    (hcap : bs % sysblocksize = 0 ∨ s.fs.buffered + pieceCount size ≤ s.fs.maxcount)
    (hlt : (s.files path).length + size < 2 ^ 31)
    (hfinds : Loops.AllPasses (bigStep L path false)
      (fun s piece => (s.1.fillBig piece).bigtempbufCounter ≤ 0 →
        FindsBlock L (s.1.fillBig piece) ((s.1.fillBig piece).bigRequest false s.2 piece.2))
      (s.fs, t) (sysChunks buf fuel size pos))
    (hok :
      (Loops.untilFail (bigStep L path false) (s.fs, t) (sysChunks buf fuel size pos)).1 = true) :
    Gathered L bs
      (s.append
        (Loops.untilFail (bigStep L path false) (s.fs, t) (sysChunks buf fuel size pos)).2.1 path
        (fun j => buf (pos + j)) size (s.fs.maxcount ≤ s.fs.buffered + pieceCount size)
        misses) := by
  induction fuel generalizing s size pos t with
  | zero => omega
  | succ fuel ih =>
      obtain ⟨hlen, haligned, -⟩ := h.home hhome
      have hroom := h.lt_maxcount
      have hslot : t / bs = s.storedLength path / bs := by
        rw [ht]
        exact add_div_of_aligned haligned he
      -- the size that is recorded with a full buffer
      have hsize : ∀ n, ∀ piece : Buf × ℕ, piece.2 = n → n ≤ size →
          s.fs.buffered + 1 = s.fs.maxcount → misses = false →
          ((s.fs.fillBig piece).bigRequest false t n).fileSize =
            ((s.files path).length + n : ℕ) ∧ (s.files path).length + n < 2 ^ 31 := by
        intro n piece hn hle hfull hright
        refine ⟨?_, by omega⟩
        change (t : ℤ) + ((s.fs.maxcount - 1) * sysblocksize + n : ℕ) = _
        rw [← hfull, Nat.add_sub_cancel, ht, hmisses hright]
        push_cast
        omega
      rw [sysChunks, if_neg hpos.ne'] at hfinds hok ⊢
      dsimp only at hfinds hok ⊢
      obtain ⟨hone, hrest⟩ := untilFail_cons hok
      obtain ⟨hfind, hfinds⟩ := hfinds
      have hfinds := hfinds hone
      by_cases hle : size ≤ sysblocksize
      · have hnil : ∀ pos, sysChunks buf fuel 0 pos = [] := by
          intro pos
          cases fuel with
          | zero => rfl
          | succ fuel => exact if_pos rfl
        simp only [if_pos hle, Nat.sub_self, hnil] at hone hrest hfind ⊢
        obtain ⟨hwhole, hfills⟩ := h.last_piece hpos hle hshort
        have hfilled : Filled L bs s path (fun j => buf (pos + j), size) t misses _ :=
          h.add hpath hhome hpos hle hwhole hslot (hsize size _ rfl le_rfl) hfind hone
        rw [hrest, hfills]
        exact hfilled.gathered
      · obtain ⟨hcount, hmore⟩ := pieceCount_of_lt (not_le.1 hle)
        simp only [if_neg hle] at hok hone hrest hfind hfinds ⊢
        rw [hrest] at hok ⊢
        clear hrest
        have hfilled : Filled L bs s path (fun j => buf (pos + j), sysblocksize) t misses _ :=
          h.add hpath hhome sysblocksize_pos le_rfl (.inl rfl) hslot
            (hsize sysblocksize _ rfl (by omega)) hfind hone
        have hhome' := hfilled.home h hhome rfl fun hfull => hcap.resolve_right (by omega)
        generalize (bigStep L path false (s.fs, t)
          (fun j => buf (pos + j), sysblocksize)).2 = result at *
        obtain ⟨fs', t'⟩ := result
        have hbuffered : fs'.buffered = _ := hfilled.buffered_eq
        have hmax : fs'.maxcount = s.fs.maxcount := hfilled.maxcount_eq
        have hoffset : t' = _ := hfilled.offset_eq
        have hlength : ((s.append fs' path (fun j => buf (pos + j)) sysblocksize
            (s.fs.buffered + 1 = s.fs.maxcount) misses).files path).length =
              (s.files path).length + sysblocksize := Streams.append_length
        have hstored : (s.append fs' path (fun j => buf (pos + j)) sysblocksize
            (s.fs.buffered + 1 = s.fs.maxcount) misses).storedLength path =
              (s.files path).length + sysblocksize - fs'.buffered * sysblocksize :=
          Streams.append_storedLength
        have hsys : 0 < sysblocksize := sysblocksize_pos
        have ht' : t' = (s.files path).length + sysblocksize - fs'.buffered * sysblocksize + e := by
          rw [hoffset, hbuffered, ht]
          split
          · omega
          · rw [Nat.succ_mul]
            omega
        have hfills : s.fs.buffered + pieceCount size = (if s.fs.buffered + 1 = s.fs.maxcount then
            s.fs.maxcount else 0) + (fs'.buffered + pieceCount (size - sysblocksize)) := by
          rw [hbuffered, hcount]
          split <;> omega
        have hshort' : (size - sysblocksize) % sysblocksize = 0 ∨
            (fs'.buffered + pieceCount (size - sysblocksize)) % fs'.maxcount = 0 := by
          refine hshort.imp (fun hmod => ?_) fun hmod => ?_
          · rw [← Nat.mod_eq_sub_mod (by omega)]
            exact hmod
          · rw [hfills] at hmod
            rw [hmax]
            split at hmod
            · rwa [Nat.add_mod_left] at hmod
            · rwa [Nat.zero_add] at hmod
        have hcap' : bs % sysblocksize = 0 ∨
            fs'.buffered + pieceCount (size - sysblocksize) ≤ fs'.maxcount := by
          refine hcap.imp_right fun hcap => ?_
          rw [hmax]
          omega
        have hgathered := @ih _ (size - sysblocksize) (pos + sysblocksize) t' hfilled.gathered
          ((congrFun hfilled.names_eq path).trans hpath) hhome' (by omega) (by omega)
            (by rw [hstored, ht'])
          hshort' hcap' (by rw [hlength]; omega) hfinds hok
        rw [Streams.append_append] at hgathered
        have hmaxed : (decide (s.fs.buffered + 1 = s.fs.maxcount) ||
            decide (fs'.maxcount ≤ fs'.buffered + pieceCount (size - sysblocksize))) =
              decide (s.fs.maxcount ≤ s.fs.buffered + pieceCount size) := by
          rw [← Bool.decide_or, hmax]
          refine decide_eq_decide.2 ?_
          split at hfills <;> omega
        have hsum : sysblocksize + (size - sysblocksize) = size := by omega
        rw [hsum] at hgathered
        rw [← hmaxed]
        exact hgathered

/-- What is in the buffer is less than a block. -/
theorem Gathered.buffered_lt (h : Gathered L bs s) : s.fs.buffered * sysblocksize < bs := by
  obtain ⟨stored, hmirrored, -⟩ := h.mirrored
  have hblock : s.fs.st.diskBlockSize = bs := hmirrored.block_eq
  have hlt := h.lt_maxcount
  have hcap : s.fs.maxcount * sysblocksize ≤ bs := by
    rw [FsState.maxcount, hblock]
    exact Nat.div_mul_le_self bs sysblocksize
  exact (Nat.mul_lt_mul_of_pos_right hlt sysblocksize_pos).trans_le hcap

/-- **A write** that meets the condition. -/
theorem Gathered.write (h : Gathered L bs s) (hbig : sysblocksize < bs) {buf : Buf} {size : ℕ}
    (hserved : (StreamOp.write path buf size).Served L s)
    (hwhole : (StreamOp.write path buf size).Whole L s) :
    Gathered L bs (streamStep L s (.write path buf size)) := by
  obtain ⟨hname, hpos, hok⟩ := hserved
  obtain ⟨hhome, hshort, hcap, hlt, hfinds⟩ := hwhole
  obtain ⟨f, hpath⟩ := Option.ne_none_iff_exists'.1 hname
  obtain ⟨stored, hmirrored, -⟩ := h.mirrored
  have hblock : s.fs.st.diskBlockSize = bs := hmirrored.block_eq
  have hmode : s.fs.operationMode = 0 := hmirrored.mode_eq
  obtain ⟨hlen, haligned, -⟩ := h.home hhome
  have hroom := h.lt_maxcount
  have hmode' : sysblocksize < s.fs.st.diskBlockSize := hbig.trans_eq hblock.symm
  have hwrite : ncfsWrite L s.fs path buf size (s.files path).length (fun _ => 0) =
      let result := Loops.untilFail (bigStep L path (size ≤ sysblocksize))
        (s.fs, (s.files path).length) (bigPieces buf size)
      (if result.1 then (size : ℤ) else -enospc, result.2.1) := by
    rw [ncfsWrite, hmode, if_neg (by decide), if_pos hmode']
  rw [hblock] at hcap
  rw [AllStores, if_pos hmode'] at hfinds
  rw [hwrite] at hok
  rw [streamStep, hwrite]
  dsimp only at hok ⊢
  have hall : (Loops.untilFail (bigStep L path (size ≤ sysblocksize)) (s.fs, (s.files path).length)
      (bigPieces buf size)).1 = true := by
    by_contra hfailed
    rw [if_neg hfailed, enospc] at hok
    omega
  clear hok hwrite
  by_cases hle : size ≤ sysblocksize
  · have hmisses : s.fs.missesSize size = false → bs % sysblocksize = 0 := by
      intro hright
      rw [FsState.missesSize, if_pos hle, hblock] at hright
      simpa using hright
    rw [bigPieces, if_pos hle] at hfinds hall ⊢
    rw [decide_eq_true hle] at hfinds hall ⊢
    obtain ⟨hone, hrest⟩ := untilFail_cons hall
    rw [hrest]
    obtain ⟨hpieces, hfills⟩ := h.last_piece hpos hle hshort
    have hslot : (s.files path).length / bs = s.storedLength path / bs := by
      rw [← hlen]
      exact add_div_of_aligned haligned h.buffered_lt
    have hfilled : Filled L bs s path (buf, size) (s.files path).length (s.fs.missesSize size)
        (bigStep L path true (s.fs, (s.files path).length) (buf, size)).2 := by
      refine h.add hpath hhome hpos hle hpieces hslot (fun hfull hright => ⟨?_, hlt⟩) hfinds.1 hone
      have hmax : s.fs.maxcount * sysblocksize = bs := by
        rw [FsState.maxcount, hblock]
        exact Nat.div_mul_cancel (Nat.dvd_of_mod_eq_zero (hmisses hright))
      change ((s.files path).length : ℤ) + ((s.fs.maxcount - 1) * sysblocksize + size : ℕ) -
        ((s.fs.st.diskBlockSize : ℤ) - sysblocksize) = _
      rw [hblock, ← hmax, ← hfull, Nat.add_sub_cancel]
      push_cast
      ring
    rw [hfills]
    exact hfilled.gathered
  · have hmisses : s.fs.missesSize size = false → s.fs.buffered * sysblocksize = 0 := by
      intro hright
      rw [FsState.missesSize, if_neg hle] at hright
      rw [show s.fs.buffered = 0 by simpa using hright, Nat.zero_mul]
    rw [bigPieces, if_neg hle] at hfinds hall ⊢
    rw [decide_eq_false hle] at hfinds hall ⊢
    have hgathered := h.chunks hpath hhome le_rfl hpos hlen.symm h.buffered_lt hmisses hshort hcap
      hlt hfinds hall
    have hbuf : (fun j => buf (0 + j)) = buf := funext fun j => congrArg buf (Nat.zero_add j)
    rw [hbuf] at hgathered
    exact hgathered

end Write

/-! ### Runs -/

section Run

variable {L : CodingLayer} {bs : ℕ} {s : Streams}

/-- A file is made. -/
theorem Gathered.create (h : Gathered L bs s) (path : String) :
    Gathered L bs (streamStep L s (.create path)) := by
  rw [streamStep]
  cases hpath : s.fs.names path with
  | some f =>
      rw [FsState.openCreate_of_some hpath]
      exact h
  | none =>
      obtain ⟨hst, -, -, hbuf, hcounter⟩ := openCreate_fields s.fs path
      obtain ⟨stored, hmirrored, hbytes⟩ := h.mirrored
      have hmax : (s.fs.openCreate path).maxcount = s.fs.maxcount := by
        rw [FsState.maxcount, hst]
        rfl
      have hbuffered : (s.fs.openCreate path).buffered = s.fs.buffered := by
        rw [FsState.buffered, hmax, hcounter]
        rfl
      have hlength := h.fresh path hpath
      have hnew : ∀ other g, (s.fs.openCreate path).names other = some g →
          (other = path ∧ g = s.fs.nextInfo) ∨ (s.fs.names other = some g ∧ g ≠ s.fs.nextInfo) := by
        intro other g hg
        rw [FsState.openCreate, hpath] at hg
        dsimp only at hg
        by_cases hne : other = path
        · rw [hne, Function.update_self] at hg
          exact .inl ⟨hne, (Option.some.inj hg).symm⟩
        · rw [Function.update_of_ne hne] at hg
          exact .inr ⟨hg, (hmirrored.owning.tables.names_lt other g hg).ne⟩
      have hstored : ∀ other,
          Streams.storedLength { s with fs := s.fs.openCreate path } other =
            s.storedLength other := by
        intro other
        rw [Streams.storedLength, Streams.storedLength]
        dsimp only
        rw [hbuffered]
      have hzero : s.storedLength path = 0 := by
        rw [Streams.storedLength]
        split <;> omega
      refine ⟨⟨stored, hmirrored.create path, fun other g p hg hp => ?_⟩, ?_, ?_,
        fun other g hg hright => ?_, fun other hlast hsome => ?_, fun other hrel => ?_,
        fun other hnone => ?_⟩
      · rw [hstored] at hp
        rcases hnew other g hg with ⟨rfl, rfl⟩ | ⟨hg, hne⟩
        · rw [hzero] at hp
          exact absurd hp (Nat.not_lt_zero p)
        · rw [FsState.openCreate, hpath]
          dsimp only
          rw [Function.update_of_ne hne]
          exact hbytes other g p hg hp
      · dsimp only
        rw [hcounter, hmax, hbuffered]
        exact h.counter_eq
      · dsimp only
        rw [hmax, hbuffered]
        exact h.lt_maxcount
      · rw [hstored, FsState.openCreate, hpath]
        dsimp only
        rcases hnew other g hg with ⟨rfl, rfl⟩ | ⟨hg, hne⟩
        · rw [Function.update_self, hzero]
          rfl
        · rw [Function.update_of_ne hne]
          exact h.size_eq other g hg hright
      · rw [hstored]
        dsimp only at hsome ⊢
        rw [hbuf]
        rw [hbuffered] at hsome ⊢
        exact h.buffer_eq other hlast hsome
      · obtain ⟨hname, hall, hright⟩ := h.closed other hrel
        refine ⟨?_, (hstored other).trans hall, hright⟩
        rw [FsState.openCreate, hpath]
        dsimp only
        rwa [Function.update_of_ne fun heq => hname (by rw [heq, hpath])]
      · refine h.fresh other ?_
        rw [FsState.openCreate, hpath] at hnone
        dsimp only at hnone
        by_cases hne : other = path
        · exact hne ▸ hpath
        · rwa [Function.update_of_ne hne] at hnone

/-- A file is closed when none of its bytes are in the buffer. -/
theorem Gathered.release (h : Gathered L bs s) {path : String} (hname : s.fs.names path ≠ none)
    (hwhole : (StreamOp.release path).Whole L s) :
    Gathered L bs (streamStep L s (.release path)) := by
  obtain ⟨hgone, hright⟩ := hwhole
  refine ⟨h.mirrored, h.counter_eq, h.lt_maxcount, h.size_eq, h.buffer_eq,
    fun other hrel => ?_, h.fresh⟩
  by_cases hne : other = path
  · subst hne
    refine ⟨hname, ?_, hright⟩
    change s.storedLength other = _
    rw [Streams.storedLength]
    split
    · rename_i hlast
      rw [hgone.resolve_right fun hother => hother hlast, Nat.zero_mul, Nat.sub_zero]
      rfl
    · rfl
  · refine h.closed other ?_
    change Function.update s.released path true other = true at hrel
    rwa [Function.update_of_ne hne] at hrel

/-- One call. -/
theorem Gathered.step (h : Gathered L bs s) (hbig : sysblocksize < bs) {op : StreamOp}
    (hserved : op.Served L s) (hwhole : op.Whole L s) : Gathered L bs (streamStep L s op) := by
  cases op with
  | create path => exact h.create path
  | write path buf size => exact h.write hbig hserved hwhole
  | flush path => exact h
  | release path => exact h.release hserved hwhole

theorem gathered_mounted {st : NcfsState} (hlist : st.spaceList = [])
    (hstatus : ∀ d, st.diskStatus d = 0) (hzero : ∀ d x, st.disk d x = 0) (hfits : L.Fits st)
    (hbig : sysblocksize < st.diskBlockSize) :
    Gathered L st.diskBlockSize (.mounted st) := by
  have hcounter : (Streams.mounted st).fs.bigtempbufCounter =
      (Streams.mounted st).fs.maxcount - (0 : ℕ) := by
    change (st.diskBlockSize : ℤ) / sysblocksize = (st.diskBlockSize / sysblocksize : ℕ) - (0 : ℕ)
    push_cast
    ring
  have hempty := FsState.buffered_of_counter hcounter
  refine ⟨⟨_, mirrored_mounted hlist hstatus hzero hfits, fun path f p h => ?_⟩, ?_, ?_,
    fun path f h => ?_, fun path h => ?_, fun path h => ?_, fun path _ => rfl⟩
  · cases h
  · rw [hempty]
    exact hcounter
  · rw [hempty]
    exact Nat.div_pos hbig.le sysblocksize_pos
  · cases h
  · cases h
  · cases h

end Run

/-- **Files in big-block mode.**  From zero disks that all work, with blocks larger than
`sysblocksize`: in every run of calls for any number of files, in any order, in which the writes
fill the buffer with bytes of one file and the files are released when none of their bytes are left
in it, every closed file is described by its size and its table, down to the last byte. -/
theorem described_of_whole (L : CodingLayer) {st : NcfsState} (hlist : st.spaceList = [])
    (hstatus : ∀ d, st.diskStatus d = 0) (hzero : ∀ d x, st.disk d x = 0) (hfits : L.Fits st)
    (hbig : sysblocksize < st.diskBlockSize) {ops : List StreamOp}
    (hops : Machine.AllSteps (streamStep L) (fun s op => op.Served L s ∧ op.Whole L s)
      (.mounted st) ops) :
    Machine.Always (streamStep L) (fun s => ∀ path, s.released path = true → s.Describes L path)
      (.mounted st) ops := by
  refine (hops.always (I := Gathered L st.diskBlockSize) (fun s op h hop => h.step hbig hop.1 hop.2)
    (gathered_mounted hlist hstatus hzero hfits hbig)).mono fun s h path hrel => ?_
  obtain ⟨hname, hstored, hright⟩ := h.closed path hrel
  exact h.describes hname hstored hright

/-- A RAID0 disk of two blocks of twice the size of a piece. -/
def twoPieceDisk : NcfsState := .blank 1 1 8192 (by decide) 2

/-- Two files that are open together and share the buffer: a block of `/a`, one of `/b` whose last
piece is short, and another one of `/a`. -/
def sharedOps : List StreamOp :=
  [.create "/a", .create "/b", .write "/a" (fun _ => Byte.ofNat 1) 4096, .write "/a"
    (fun _ => Byte.ofNat 2) 4096, .write "/b" (fun _ => Byte.ofNat 3) 4096, .write "/b"
      (fun _ => Byte.ofNat 4) 4000, .flush "/b", .release "/b",
    .write "/a" (fun _ => Byte.ofNat 5) 8192, .flush "/a", .release "/a"]

/-- Both files are described, `/b` down to its short end. -/
theorem described_of_whole_shared : Machine.Always (streamStep .raid0)
    (fun s => ∀ path, s.released path = true → s.Describes .raid0 path)
    (.mounted (.blank 1 1 8192 (by decide) 4))
    sharedOps := by
  refine described_of_whole .raid0 rfl (fun _ => rfl) (fun _ _ => rfl) trivial (by decide)
    ⟨⟨trivial, trivial⟩, ⟨trivial, trivial⟩, ?_, ?_, ?_, ?_, ⟨trivial, trivial⟩, ?_, ?_,
      ⟨trivial, trivial⟩, ?_, trivial⟩
  -- the block of `/a`
  · refine ⟨⟨by decide +kernel, by decide, by decide +kernel⟩, ?_, .inl (by decide),
      .inl (by decide +kernel), by decide +kernel, fun hfull => absurd hfull (by decide +kernel),
      fun _ => trivial⟩
    unfold Streams.Home
    decide +kernel
  · refine ⟨⟨by decide +kernel, by decide, by decide +kernel⟩, ?_, .inl (by decide),
      .inl (by decide +kernel), by decide +kernel, fun _ => ?_, fun _ => trivial⟩
    · unfold Streams.Home
      decide +kernel
    · exact .of_next 8192 (by decide +kernel) (show _ = some (0, 0) by decide +kernel) (by decide)
        (by decide) trivial
  -- the block of `/b`
  · refine ⟨⟨by decide +kernel, by decide, by decide +kernel⟩, ?_, .inl (by decide),
      .inl (by decide +kernel), by decide +kernel, fun hfull => absurd hfull (by decide +kernel),
      fun _ => trivial⟩
    unfold Streams.Home
    decide +kernel
  · refine ⟨⟨by decide +kernel, by decide, by decide +kernel⟩, ?_, .inr (by decide +kernel),
      .inl (by decide +kernel), by decide +kernel, fun _ => ?_, fun _ => trivial⟩
    · unfold Streams.Home
      decide +kernel
    · exact .of_next 8192 (by decide +kernel) (show _ = some (0, 1) by decide +kernel) (by decide)
        (by decide) trivial
  · exact ⟨show FsState.names _ _ ≠ _ by decide +kernel, by decide +kernel, by decide +kernel⟩
  -- the second block of `/a`
  · refine ⟨⟨by decide +kernel, by decide, by decide +kernel⟩, ?_, .inl (by decide),
      .inl (by decide +kernel), by decide +kernel, fun hfull => absurd hfull (by decide +kernel),
      fun _ => ⟨fun _ => ?_, fun _ => trivial⟩⟩
    · unfold Streams.Home
      decide +kernel
    · exact .of_next 8192 (by decide +kernel) (show _ = some (0, 2) by decide +kernel) (by decide)
        (by decide) trivial
  · exact ⟨show FsState.names _ _ ≠ _ by decide +kernel, by decide +kernel, by decide +kernel⟩

/-- A call that is served leaves room in the buffer. -/
theorem Streams.hasRoom_step {L : CodingLayer} {s : Streams} (h : s.fs.HasRoom) {op : StreamOp}
    (hserved : op.Served L s) : (streamStep L s op).fs.HasRoom := by
  cases op with
  | create path =>
      obtain ⟨hst, -, -, -, hcounter⟩ := openCreate_fields s.fs path
      refine ⟨h.big.trans_eq (congrArg NcfsState.diskBlockSize hst.symm),
        h.counter_pos.trans_eq hcounter.symm, ?_⟩
      change (s.fs.openCreate path).bigtempbufOverrun = false
      rw [FsState.openCreate]
      split <;> exact h.within
  | write path buf size => exact (h.write L path buf size _ _).2 hserved.2.2
  | flush path => exact h
  | release path => exact h

/-- **The buffer of a run.**  In big-block mode, in every run of calls that are served, for any
number of files and whether or not their bytes get mixed, no byte is copied behind the end of the
buffer. -/
theorem withinBuffer_of_served (L : CodingLayer) {st : NcfsState}
    (hbig : sysblocksize < st.diskBlockSize) {ops : List StreamOp}
    (hops : Machine.AllSteps (streamStep L) (fun s op => op.Served L s) (.mounted st) ops) :
    Machine.Always (streamStep L) (fun s => s.fs.bigtempbufOverrun = false) (.mounted st) ops := by
  have hstart : (Streams.mounted st).fs.HasRoom :=
    ⟨hbig, Int.natCast_pos.2
      (Nat.div_pos (show sysblocksize ≤ st.diskBlockSize from hbig.le) sysblocksize_pos), rfl⟩
  exact (hops.always (I := fun s => s.fs.HasRoom)
    (fun _ _ h hop => Streams.hasRoom_step h hop) hstart).mono fun _ h => h.within

/-- On a disk without free blocks a block is refused, and the piece that follows goes behind the
buffer. -/
example : (Machine.run (streamStep .raid0) (.mounted { twoPieceDisk with freeSize := fun _ => 0 })
    [.create "/a", .write "/a" (fun _ => Byte.ofNat 1) 8192,
      .write "/a" (fun _ => Byte.ofNat 2) 1]).fs.bigtempbufOverrun =
      true := by
  decide +kernel

/-- Two files are written by a piece each, and one more piece follows. -/
def mixedOps : List StreamOp :=
  [.create "/a", .create "/b", .write "/a" (fun _ => Byte.ofNat 1) 4096, .write "/b"
    (fun _ => Byte.ofNat 2) 4096, .write "/a" (fun _ => Byte.ofNat 3) 4096, .flush "/a",
    .release "/a", .flush "/b", .release "/b"]

/-- The bytes of the first file are stored as the block of the second, and those that were written
last are in no block. -/
theorem bigBlocks_mixed :
    Machine.AllSteps (streamStep .raid0) (fun s op => op.Served .raid0 s)
    (.mounted twoPieceDisk) mixedOps ∧
      ¬ Machine.Always (streamStep .raid0)
      (fun s => ∀ path, s.released path = true → s.Describes .raid0 path)
        (.mounted twoPieceDisk) mixedOps ∧
      let s := Machine.run (streamStep .raid0) (.mounted twoPieceDisk) mixedOps
      s.fs.slots 1 0 = some (0, 0) ∧ s.fs.st.block 0 0 0 = Byte.ofNat 1 ∧
      (s.files "/b").byte 0 = Byte.ofNat 2 ∧
        s.fs.slots 0 0 = none ∧ (s.files "/a").length = 8192 := by
  refine ⟨⟨trivial, trivial, ⟨by decide +kernel, by decide, by decide +kernel⟩,
    ⟨by decide +kernel, by decide, by decide +kernel⟩,
    ⟨by decide +kernel, by decide, by decide +kernel⟩, trivial, ?_, trivial, ?_, trivial⟩,
    ?_, by decide +kernel⟩
  · change FsState.names _ _ ≠ _
    decide +kernel
  · change FsState.names _ _ ≠ _
    decide +kernel
  · rintro ⟨-, -, -, -, -, -, -, -, -, h⟩
    obtain ⟨f, hf, hsize, -⟩ := h "/a" (by decide +kernel)
    obtain rfl : 0 = f := Option.some.inj (Eq.trans (by decide +kernel) hf)
    exact absurd hsize (by decide +kernel)

end Ncfs
