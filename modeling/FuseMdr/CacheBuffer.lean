/-
**A buffer of the cache refines a flat array.**

`src/cache/cache_buffer.cc` keeps a window of a file in memory.  A buffer starts at a multiple of
its size; its pages are read from the file when they are first needed, and not at all where a write
covers them whole; a write marks the blocks it touches, and a write-back stores the runs of marked
blocks.  The file is the array of its bytes, zero behind its end; the calls of the system succeed.
The start address of a buffer without content is `-1` in the source and does not matter there, as
such a buffer contains no offset.

Main definitions:

* `Ncfs.BufferTemplate` with `Ncfs.readFromBuffer`, `Ncfs.writeToBuffer`, `Ncfs.doWriteBack` and
  `Ncfs.doFetch` — the operations of the buffer;
* `Ncfs.FlatView` — what a buffer is for: an array, read and written in ranges that are cut off at
  the end of a window;
* `Ncfs.Holds` — the buffer and the file make up the array.

Main results:

* `Ncfs.Holds.read`, `Ncfs.Holds.write`, `Ncfs.Holds.doWriteBack`, `Ncfs.holds_doFetch` — every
  operation keeps the relation;
* `Ncfs.buffer_refines` — **the refinement**: after any calls the replies are those of the array, a
  write-back makes the file equal to it, and bytes that no call wrote have never changed.
-/
import FuseMdr.FlatArray
import FuseMdr.IntFile
import FuseMdr.Machine

set_option relaxedAutoImplicit false
set_option autoImplicit false

namespace Ncfs

open FlatArray IntFile

/-! ### The buffer -/

inductive BlockStatus
  | clean
  | dirty
  | processing
  deriving DecidableEq, Repr

inductive PageStatus
  | unfetched
  | fetched
  deriving DecidableEq, Repr

/-- The sizes of `initSizes`. -/
structure BufferSizes where
  blockSize : ℕ
  bufferSize : ℕ
  pageSize : ℕ
  doWrite : Bool
  /-- A page is made of whole blocks. -/
  blockSize_dvd : blockSize ∣ pageSize
  /-- The buffer is made of whole pages. -/
  pageSize_dvd : pageSize ∣ bufferSize
  bufferSize_pos : 0 < bufferSize

structure BufferTemplate where
  content : ℕ → UInt8
  dirtyBit : BlockStatus
  dirtyBlock : ℕ → BlockStatus
  pageStatus : ℕ → PageStatus
  startAddress : ℕ
  contentSize : ℕ

def clearContent : BufferTemplate where
  content := fun _ => 0
  dirtyBit := .clean
  dirtyBlock := fun _ => .clean
  pageStatus := fun _ => .unfetched
  startAddress := 0
  contentSize := 0

def BufferTemplate.containOffset (b : BufferTemplate) (offset : ℕ) : Prop :=
  b.startAddress ≤ offset ∧ offset < b.startAddress + b.contentSize

instance (b : BufferTemplate) (offset : ℕ) : Decidable (b.containOffset offset) :=
  inferInstanceAs (Decidable (_ ∧ _))

section

variable (z : BufferSizes)

def BufferSizes.numOfBlock : ℕ := z.bufferSize / z.blockSize

/-- Reading a page of the file into its place: what lies behind the end of the file is left as it
is. -/
def fetchOnePage (f : File) (b : BufferTemplate) (pageNum : ℕ) (readContent : Bool) :
    BufferTemplate :=
  if b.pageStatus pageNum = .fetched then b
  else
    let cacheAddress := pageNum * z.pageSize
    { b with
      content := if readContent then fun i =>
          if cacheAddress ≤ i then
            (f.pread (fun j => b.content (cacheAddress + j)) z.pageSize
              (b.startAddress + cacheAddress)).2 (i - cacheAddress)
          else b.content i
        else b.content
      pageStatus := Function.update b.pageStatus pageNum .fetched }

def fetchPages (f : File) (b : BufferTemplate) (startPage endPage : ℕ) (readContent : Bool) :
    BufferTemplate :=
  (List.range' startPage (endPage + 1 - startPage)).foldl
    (fun b pageNum => fetchOnePage z f b pageNum readContent) b

/-- Fetching the pages of a range.  With `alwaysRead` off, the pages inside the range are not
read. -/
def checkAvailability (f : File) (b : BufferTemplate) (size offset : ℕ) (alwaysRead : Bool) :
    BufferTemplate :=
  let startPage := (offset - b.startAddress) / z.pageSize
  let endAddress := min (offset + size) (b.startAddress + b.contentSize)
  let endPage := if endAddress % z.pageSize = 0 then (endAddress - b.startAddress) / z.pageSize - 1
    else (endAddress - b.startAddress) / z.pageSize
  let b₁ := if offset = b.startAddress + startPage * z.pageSize ∧ z.pageSize ≤ size then
      fetchOnePage z f b startPage alwaysRead
    else fetchOnePage z f b startPage true
  if startPage < endPage then
    let b₂ := if endAddress % z.pageSize = 0 then fetchOnePage z f b₁ endPage alwaysRead
      else fetchOnePage z f b₁ endPage true
    fetchPages z f b₂ (startPage + 1) (endPage - 1) alwaysRead
  else b₁

def checkReadAvailability (f : File) (b : BufferTemplate) (size offset : ℕ) : BufferTemplate :=
  checkAvailability z f b size offset true

def checkWriteAvailability (f : File) (b : BufferTemplate) (size offset : ℕ) : BufferTemplate :=
  checkAvailability z f b size offset false

/-- The bytes read, unless the offset is `UNAVAILABLE`. -/
def readFromBuffer (f : File) (b : BufferTemplate) (size offset : ℕ) :
    Option (BufferTemplate × List UInt8) :=
  if b.containOffset offset then
    let b := checkReadAvailability z f b size offset
    let readSize := min size (b.startAddress + b.contentSize - offset)
    some (b, slice b.content (offset - b.startAddress) readSize)
  else none

/-- Bytes copied to a position, with the blocks from `dirtyStart` to `dirtyEnd` marked: a range that
ends with a block does not reach the next one. -/
def BufferTemplate.put (b : BufferTemplate) (position : ℕ) (data : List UInt8) : BufferTemplate :=
  let dirtyStart := position / z.blockSize
  let dirtyEnd := (position + data.length) / z.blockSize
  { b with
    content := store b.content position data
    dirtyBlock := fun i =>
      if dirtyStart ≤ i ∧
          i < (if (position + data.length) % z.blockSize = 0 then dirtyEnd else dirtyEnd + 1) then
            .dirty
      else b.dirtyBlock i
    dirtyBit := .dirty }

/-- The number of bytes written, unless the offset is `UNAVAILABLE`. -/
def writeToBuffer (f : File) (b : BufferTemplate) (data : List UInt8) (offset : ℕ) :
    Option (BufferTemplate × ℕ) :=
  if b.containOffset offset then
    let b := checkWriteAvailability z f b data.length offset
    let writeSize := min data.length (b.startAddress + b.contentSize - offset)
    some (b.put z (offset - b.startAddress) (data.take writeSize), writeSize)
  else none

/-- The state of the loop of `doWriteBack`: `dirtyStart` is `none` for the source's `-1`. -/
structure WriteBackLoop where
  file : File
  dirtyBlock : ℕ → BlockStatus
  dirtyStart : Option ℕ

/-- A run of blocks is written, and marked as clean. -/
def writeRun (b : BufferTemplate) (w : WriteBackLoop) (dirtyStart i : ℕ) : WriteBackLoop where
  file := w.file.pwrite (fun j => b.content (z.blockSize * dirtyStart + j))
    ((i - dirtyStart) * z.blockSize) (b.startAddress + z.blockSize * dirtyStart)
  dirtyBlock := fun j => if dirtyStart ≤ j ∧ j < i then .clean else w.dirtyBlock j
  dirtyStart := none

def writeBackStep (b : BufferTemplate) (w : WriteBackLoop) (i : ℕ) : WriteBackLoop :=
  if w.dirtyBlock i = .dirty then
    { w with
      dirtyStart := some (w.dirtyStart.getD i)
      dirtyBlock := Function.update w.dirtyBlock i .processing }
  else
    match w.dirtyStart with
    | none => w
    | some dirtyStart => writeRun z b w dirtyStart i

def doWriteBack (f : File) (b : BufferTemplate) : File × BufferTemplate :=
  let w := (List.range z.numOfBlock).foldl (writeBackStep z b) ⟨f, b.dirtyBlock, none⟩
  let w := match w.dirtyStart with
    | none => w
    | some dirtyStart => writeRun z b w dirtyStart z.numOfBlock
  (w.file, { b with dirtyBlock := w.dirtyBlock, dirtyBit := .clean })

/-- `writeBack`, with its job done: only a buffer that is dirty is written back. -/
def writeBack (f : File) (b : BufferTemplate) : File × BufferTemplate :=
  if !z.doWrite then (f, b)
  else if b.dirtyBit = .clean then (f, b)
  else doWriteBack z f b

def doPrefetch (offset : ℕ) : BufferTemplate :=
  { clearContent with
    startAddress := offset / z.bufferSize * z.bufferSize
    contentSize := z.bufferSize }

def doFetch (offset : ℕ) : BufferTemplate := doPrefetch z offset

end

variable {z : BufferSizes} {f : File} {b b' b'' : BufferTemplate} {m : ℕ → UInt8} {skip : ℕ → Prop}

theorem BufferSizes.pageSize_pos : 0 < z.pageSize :=
  Nat.pos_of_dvd_of_pos z.pageSize_dvd z.bufferSize_pos

theorem BufferSizes.blockSize_pos : 0 < z.blockSize :=
  Nat.pos_of_dvd_of_pos z.blockSize_dvd z.pageSize_pos

/-! ### Fetching pages -/

/-- Pages that have not been fetched are zero. -/
def ZeroUnfetched (z : BufferSizes) (b : BufferTemplate) : Prop :=
  ∀ i, b.pageStatus (i / z.pageSize) ≠ .fetched → b.content i = 0

/-- From `b` to `b'` pages have been fetched, and read from the file but for the bytes of `skip`. -/
structure Fetches (z : BufferSizes) (f : File) (b b' : BufferTemplate) (skip : ℕ → Prop) :
    Prop where
  startAddress : b'.startAddress = b.startAddress
  contentSize : b'.contentSize = b.contentSize
  dirtyBlock : b'.dirtyBlock = b.dirtyBlock
  dirtyBit : b'.dirtyBit = b.dirtyBit
  /-- A page stays fetched. -/
  mono : ∀ p, b.pageStatus p = .fetched → b'.pageStatus p = .fetched
  /-- The bytes of the other pages are kept. -/
  kept : ∀ i, b.pageStatus (i / z.pageSize) = .fetched ∨ b'.pageStatus (i / z.pageSize) ≠ .fetched →
    b'.content i = b.content i
  /-- The bytes of the new pages come from the file. -/
  filled : ∀ i, b.pageStatus (i / z.pageSize) ≠ .fetched → b'.pageStatus
    (i / z.pageSize) = .fetched → skip i ∨ b'.content i = f.byte (b.startAddress + i)

theorem Fetches.refl : Fetches z f b b skip :=
  ⟨rfl, rfl, rfl, rfl, fun _ h => h, fun _ _ => rfl, fun _ h h' => absurd h' h⟩

theorem Fetches.zero (h : Fetches z f b b' skip) (hz : ZeroUnfetched z b) : ZeroUnfetched z b' := by
  intro i hi
  rw [h.kept i (.inr hi)]
  exact hz i fun hf => hi (h.mono _ hf)

theorem Fetches.trans (h : Fetches z f b b' skip) (h' : Fetches z f b' b'' skip) :
    Fetches z f b b'' skip where
  startAddress := h'.startAddress.trans h.startAddress
  contentSize := h'.contentSize.trans h.contentSize
  dirtyBlock := h'.dirtyBlock.trans h.dirtyBlock
  dirtyBit := h'.dirtyBit.trans h.dirtyBit
  mono p hp := h'.mono p (h.mono p hp)
  kept i hi := by
    rcases hi with hi | hi
    · rw [h'.kept i (.inl (h.mono _ hi)), h.kept i (.inl hi)]
    · rw [h'.kept i (.inr hi), h.kept i (.inr fun hf => hi (h'.mono _ hf))]
  filled i hi hi' := by
    by_cases hmid : b'.pageStatus (i / z.pageSize) = .fetched
    · rw [h'.kept i (.inl hmid)]
      exact h.filled i hi hmid
    · rw [← h.startAddress]
      exact h'.filled i hmid hi'

theorem fetchOnePage_pageStatus (pageNum : ℕ) (readContent : Bool) :
    (fetchOnePage z f b pageNum readContent).pageStatus =
      Function.update b.pageStatus pageNum .fetched := by
  rw [fetchOnePage]
  split
  · rename_i h
    rw [← h, Function.update_eq_self]
  · rfl

/-- The bytes of a page that is read, as far as the file goes. -/
theorem fetchOnePage_content (pageNum : ℕ) (readContent : Bool) (i : ℕ) :
    (fetchOnePage z f b pageNum readContent).content i =
      if b.pageStatus pageNum ≠ .fetched ∧ readContent ∧ i / z.pageSize = pageNum ∧
          b.startAddress + i < f.length then f.byte (b.startAddress + i) else b.content i := by
  rw [fetchOnePage]
  by_cases hp : b.pageStatus pageNum = .fetched
  · rw [if_pos hp, if_neg fun h => h.1 hp]
  · rw [if_neg hp]
    cases readContent with
    | false => exact (if_neg fun h => absurd h.2.1 Bool.false_ne_true).symm
    | true =>
        have hpage : i / z.pageSize = pageNum ↔
            pageNum * z.pageSize ≤ i ∧ i < pageNum * z.pageSize + z.pageSize := by
          have hpos := z.pageSize_pos
          rw [Nat.div_eq_iff hpos]
          omega
        change (if pageNum * z.pageSize ≤ i then
            if i - pageNum * z.pageSize <
                min z.pageSize (f.length - (b.startAddress + pageNum * z.pageSize)) then
              f.byte (b.startAddress + pageNum * z.pageSize + (i - pageNum * z.pageSize))
            else b.content (pageNum * z.pageSize + (i - pageNum * z.pageSize))
          else b.content i) = _
        by_cases hle : pageNum * z.pageSize ≤ i
        · rw [if_pos hle, Nat.add_assoc, Nat.add_sub_cancel' hle]
          refine if_congr ?_ rfl rfl
          rw [hpage]
          constructor
          · intro h
            exact ⟨hp, rfl, ⟨hle, by omega⟩, by omega⟩
          · rintro ⟨-, -, hin, hlen⟩
            omega
        · rw [if_neg hle, if_neg fun h => hle (hpage.1 h.2.2.1).1]

/-- Where a page is not read, its bytes are among those that may be left out. -/
theorem fetches_fetchOnePage (hz : ZeroUnfetched z b) {pageNum : ℕ} {readContent : Bool}
    (hskip : readContent = false → ∀ i, i / z.pageSize = pageNum → skip i) :
    Fetches z f b (fetchOnePage z f b pageNum readContent) skip := by
  obtain ⟨hstart, hsize, hdirty, hbit⟩ : (fetchOnePage z f b pageNum readContent).startAddress =
      b.startAddress ∧ (fetchOnePage z f b pageNum readContent).contentSize = b.contentSize ∧
      (fetchOnePage z f b pageNum readContent).dirtyBlock = b.dirtyBlock ∧
      (fetchOnePage z f b pageNum readContent).dirtyBit = b.dirtyBit := by
    rw [fetchOnePage]
    split <;> exact ⟨rfl, rfl, rfl, rfl⟩
  refine ⟨hstart, hsize, hdirty, hbit, fun p hp => ?_, fun i hi => ?_, fun i hi hi' => ?_⟩
  · rw [fetchOnePage_pageStatus]
    by_cases hpage : p = pageNum
    · rw [hpage, Function.update_self]
    · rw [Function.update_of_ne hpage, hp]
  · rw [fetchOnePage_content, if_neg]
    rintro ⟨hnew, -, rfl, -⟩
    rcases hi with hi | hi
    · exact hnew hi
    · rw [fetchOnePage_pageStatus, Function.update_self] at hi
      exact hi rfl
  · have hpage : i / z.pageSize = pageNum := by
      by_contra hne
      rw [fetchOnePage_pageStatus, Function.update_of_ne hne] at hi'
      exact hi hi'
    cases readContent with
    | false => exact .inl (hskip rfl i hpage)
    | true =>
        right
        rw [fetchOnePage_content]
        split
        · rfl
        · rename_i h
          have hlen : f.length ≤ b.startAddress + i := by
            by_contra hlt
            exact h ⟨hpage ▸ hi, rfl, hpage, by omega⟩
          rw [hz i hi, f.byte_of_le _ hlen]

theorem fetchOnePage_fetched (pageNum : ℕ) (readContent : Bool) :
    (fetchOnePage z f b pageNum readContent).pageStatus pageNum = .fetched := by
  rw [fetchOnePage_pageStatus, Function.update_self]

theorem fetches_fetchPages (hz : ZeroUnfetched z b) {startPage endPage : ℕ} {readContent : Bool}
    (hskip : readContent = false →
      ∀ i, startPage ≤ i / z.pageSize → i / z.pageSize ≤ endPage → skip i) :
    Fetches z f b (fetchPages z f b startPage endPage readContent) skip ∧
      ∀ p, startPage ≤ p → p ≤ endPage →
        (fetchPages z f b startPage endPage readContent).pageStatus p = .fetched := by
  suffices ∀ l : List ℕ, (readContent = false → ∀ i, i / z.pageSize ∈ l → skip i) →
      ∀ b, ZeroUnfetched z b →
        Fetches z f b (l.foldl (fun b pageNum => fetchOnePage z f b pageNum readContent) b) skip ∧
          ∀ p ∈ l, (l.foldl (fun b pageNum => fetchOnePage z f b pageNum readContent) b).pageStatus
            p = .fetched by
    obtain ⟨hfetch, hall⟩ := this (List.range' startPage (endPage + 1 - startPage))
      (fun hr i hi => by
        rw [List.mem_range'_1] at hi
        exact hskip hr i hi.1 (by omega)) b hz
    exact ⟨hfetch, fun p hp hp' => hall p (List.mem_range'_1.2 ⟨hp, by omega⟩)⟩
  intro l
  induction l with
  | nil => exact fun _ b _ => ⟨.refl, fun p hp => absurd hp (List.not_mem_nil)⟩
  | cons pageNum l ih =>
      intro hl b hz
      have hone : Fetches z f b (fetchOnePage z f b pageNum readContent) skip :=
        fetches_fetchOnePage hz fun hr i hi => hl hr i (hi ▸ List.mem_cons_self ..)
      obtain ⟨hfetch, hall⟩ := ih (fun hr i hi => hl hr i (List.mem_cons_of_mem _ hi)) _
        (hone.zero hz)
      refine ⟨hone.trans hfetch, fun p hp => ?_⟩
      rcases List.mem_cons.1 hp with rfl | hp
      · exact hfetch.mono _ (fetchOnePage_fetched ..)
      · exact hall p hp

/-! ### Buffers that are well formed -/

/-- What holds of a buffer whatever the file has in it. -/
structure WellFormed (z : BufferSizes) (b : BufferTemplate) : Prop where
  start_dvd : z.bufferSize ∣ b.startAddress
  size_eq : b.contentSize = 0 ∨ b.contentSize = z.bufferSize
  zero : ZeroUnfetched z b
  /-- A dirty block lies in a page that has been fetched. -/
  fetched_of_dirty : ∀ i, b.dirtyBlock (i / z.blockSize) = .dirty → b.pageStatus
    (i / z.pageSize) = .fetched
  /-- It lies in the buffer. -/
  lt_of_dirty : ∀ i, b.dirtyBlock (i / z.blockSize) = .dirty → i < b.contentSize
  clean : b.dirtyBit = .clean → ∀ k, b.dirtyBlock k ≠ .dirty
  not_processing : ∀ k, b.dirtyBlock k ≠ .processing

/-- A position of the buffer in the range `[offset, offset + size)`. -/
def InRange (b : BufferTemplate) (size offset i : ℕ) : Prop :=
  offset ≤ b.startAddress + i ∧ b.startAddress + i < offset + size ∧ i < b.contentSize

/-- A buffer that contains an offset is full. -/
theorem WellFormed.contentSize_eq (hwf : WellFormed z b) {offset : ℕ}
    (hoff : b.containOffset offset) :
    b.contentSize = z.bufferSize := by
  obtain ⟨hlow, hhigh⟩ := hoff
  exact hwf.size_eq.resolve_left (by omega)

section Pages

variable {size offset i : ℕ}

/-- The pages between the first and the end of a range lie in it. -/
theorem inRange_of_page (hlow : (offset - b.startAddress) / z.pageSize < i / z.pageSize)
    (hhigh : i / z.pageSize <
      (min (offset + size) (b.startAddress + b.contentSize) - b.startAddress) / z.pageSize) :
    InRange b size offset i := by
  have h₁ : offset - b.startAddress < i := Nat.lt_of_div_lt_div hlow
  have h₂ : i < min (offset + size) (b.startAddress + b.contentSize) - b.startAddress :=
    Nat.lt_of_div_lt_div hhigh
  exact ⟨by omega, by omega, by omega⟩

/-- The first page lies in a range that starts with it and is as long. -/
theorem inRange_of_firstPage (hwf : WellFormed z b) (hoff : b.containOffset offset)
    (halign : offset = b.startAddress + (offset - b.startAddress) / z.pageSize * z.pageSize)
    (hsize : z.pageSize ≤ size) (hpage : i / z.pageSize = (offset - b.startAddress) / z.pageSize) :
    InRange b size offset i := by
  have hpos := z.pageSize_pos
  generalize (offset - b.startAddress) / z.pageSize = p at halign hpage
  obtain ⟨hle, hlt⟩ := (Nat.div_eq_iff hpos).1 hpage
  have hfit : (p + 1) * z.pageSize ≤ b.contentSize := by
    rw [hwf.contentSize_eq hoff]
    obtain ⟨n, hn⟩ := z.pageSize_dvd
    have hpn : p < n := by
      have h : p * z.pageSize < n * z.pageSize := by
        rw [Nat.mul_comm n, ← hn, ← hwf.contentSize_eq hoff]
        have := hoff.2
        omega
      exact Nat.lt_of_mul_lt_mul_right h
    rw [hn, Nat.mul_comm z.pageSize]
    exact Nat.mul_le_mul_right _ hpn
  rw [Nat.succ_mul] at hfit
  exact ⟨by omega, by omega, by omega⟩

/-- The pages of a range are those from its first to its last. -/
theorem page_of_inRange (hin : InRange b size offset i) :
    (offset - b.startAddress) / z.pageSize ≤ i / z.pageSize ∧
      i / z.pageSize ≤
        (min (offset + size) (b.startAddress + b.contentSize) - b.startAddress) / z.pageSize := by
  obtain ⟨hlow, hhigh, hsize⟩ := hin
  exact ⟨Nat.div_le_div_right (by omega), Nat.div_le_div_right (by omega)⟩

/-- A range that ends with a page does not reach the next one. -/
theorem page_lt_of_inRange (hwf : WellFormed z b) (hin : InRange b size offset i)
    (hend : min (offset + size) (b.startAddress + b.contentSize) % z.pageSize = 0) :
    i / z.pageSize <
      (min (offset + size) (b.startAddress + b.contentSize) - b.startAddress) / z.pageSize := by
  obtain ⟨hlow, hhigh, hsize⟩ := hin
  have hdvd : z.pageSize ∣ min (offset + size) (b.startAddress + b.contentSize) - b.startAddress :=
    Nat.dvd_sub (Nat.dvd_of_mod_eq_zero hend) (z.pageSize_dvd.trans hwf.start_dvd)
  rw [Nat.div_lt_iff_lt_mul z.pageSize_pos, Nat.div_mul_cancel hdvd]
  omega

end Pages

/-- The page of the offset and those of the range are fetched.  Bytes outside the range are read,
and with `alwaysRead` those inside as well. -/
theorem fetches_checkAvailability (hwf : WellFormed z b) {size offset : ℕ} {alwaysRead : Bool}
    (hoff : b.containOffset offset) :
    Fetches z f b (checkAvailability z f b size offset alwaysRead)
        (fun i => alwaysRead = false ∧ InRange b size offset i) ∧
      ∀ i, i = offset - b.startAddress ∨ InRange b size offset i →
        (checkAvailability z f b size offset alwaysRead).pageStatus
          (i / z.pageSize) = .fetched := by
  have hpage : ∀ i, InRange b size offset i → _ := fun i => page_of_inRange (z := z) (i := i)
  have hlast : ∀ i, InRange b size offset i → _ → _ := fun i => page_lt_of_inRange hwf (i := i)
  have hmid : ∀ i, _ → _ → InRange b size offset i := fun i => inRange_of_page (z := z) (i := i)
  have hfirst : ∀ i, _ → _ → _ → InRange b size offset i :=
    fun i => inRange_of_firstPage hwf hoff (i := i)
  rw [checkAvailability]
  dsimp only
  generalize hstart : (offset - b.startAddress) / z.pageSize = startPage at hpage hmid hfirst ⊢
  generalize min (offset + size) (b.startAddress + b.contentSize) = endAddress at hpage hlast hmid ⊢
  generalize (endAddress - b.startAddress) / z.pageSize = stop at hpage hlast hmid ⊢
  -- the first page
  generalize hb₁ : (if offset = b.startAddress + startPage * z.pageSize ∧ z.pageSize ≤ size then
      fetchOnePage z f b startPage alwaysRead else fetchOnePage z f b startPage true) = b₁
  have h₁ : Fetches z f b b₁ (fun i => alwaysRead = false ∧ InRange b size offset i) ∧
      b₁.pageStatus startPage = .fetched := by
    rw [← hb₁]
    split
    · rename_i halign
      exact ⟨fetches_fetchOnePage hwf.zero fun hr i hi => ⟨hr, hfirst i halign.1 halign.2 hi⟩,
        fetchOnePage_fetched ..⟩
    · exact ⟨fetches_fetchOnePage hwf.zero fun h => absurd h (by decide), fetchOnePage_fetched ..⟩
  -- the last page
  generalize hendPage : (if endAddress % z.pageSize = 0 then stop - 1 else stop) = endPage
  have hbound : ∀ i, InRange b size offset i → startPage ≤ i / z.pageSize ∧
      i / z.pageSize ≤ endPage := by
    intro i hi
    obtain ⟨hlow, hhigh⟩ := hpage i hi
    refine ⟨hlow, ?_⟩
    rw [← hendPage]
    split
    · rename_i hend
      exact Nat.le_sub_one_of_lt (hlast i hi hend)
    · exact hhigh
  by_cases hlt : startPage < endPage
  · rw [if_pos hlt]
    generalize hb₂ : (if endAddress % z.pageSize = 0 then fetchOnePage z f b₁ endPage alwaysRead
      else fetchOnePage z f b₁ endPage true) = b₂
    have h₂ : Fetches z f b₁ b₂ (fun i => alwaysRead = false ∧ InRange b size offset i) ∧
        b₂.pageStatus endPage = .fetched := by
      rw [← hb₂]
      split
      · rename_i hend
        rw [if_pos hend] at hendPage
        exact ⟨fetches_fetchOnePage (h₁.1.zero hwf.zero) fun hr i hi =>
          ⟨hr, hmid i (by omega) (by omega)⟩, fetchOnePage_fetched ..⟩
      · exact ⟨fetches_fetchOnePage (h₁.1.zero hwf.zero) fun h => absurd h (by decide),
          fetchOnePage_fetched ..⟩
    -- the pages between
    have hstop : endPage ≤ stop := by
      rw [← hendPage]
      split
      · exact Nat.sub_le ..
      · exact le_rfl
    have h₃ : Fetches z f b₂ (fetchPages z f b₂ (startPage + 1) (endPage - 1) alwaysRead)
        (fun i => alwaysRead = false ∧ InRange b size offset i) ∧ _ :=
      fetches_fetchPages (h₂.1.zero (h₁.1.zero hwf.zero))
        fun hr i hi hi' => ⟨hr, hmid i (by omega) (by omega)⟩
    obtain ⟨h₃, hall⟩ := h₃
    refine ⟨(h₁.1.trans h₂.1).trans h₃, fun i hi => ?_⟩
    have hpages : i / z.pageSize = startPage ∨ startPage < i / z.pageSize ∧
        i / z.pageSize ≤ endPage := by
      rcases hi with rfl | hi
      · exact .inl hstart
      · have := hbound i hi
        omega
    rcases hpages with heq | ⟨hlow, hhigh⟩
    · exact h₃.mono _ (h₂.1.mono _ (heq ▸ h₁.2))
    · rcases hhigh.eq_or_lt with heq | hhigh
      · exact h₃.mono _ (heq ▸ h₂.2)
      · exact hall _ hlow (by omega)
  · rw [if_neg hlt]
    refine ⟨h₁.1, fun i hi => ?_⟩
    have heq : i / z.pageSize = startPage := by
      rcases hi with rfl | hi
      · exact hstart
      · have := hbound i hi
        omega
    rw [heq]
    exact h₁.2

/-! ### Writing back -/

/-- The loop has gone through the blocks below `i`; a run of dirty ones may still be open. -/
structure WrittenBack (z : BufferSizes) (f : File) (b : BufferTemplate) (i : ℕ)
    (w : WriteBackLoop) : Prop where
  /-- The blocks of the open run. -/
  run : ∀ d, w.dirtyStart = some d → d < i ∧ ∀ j, d ≤ j → j < i → b.dirtyBlock j = .dirty
  /-- The dirty blocks before it have been written. -/
  byte_eq : ∀ a, w.file.byte a =
    if b.startAddress ≤ a ∧ (a - b.startAddress) / z.blockSize < w.dirtyStart.getD i ∧
        b.dirtyBlock ((a - b.startAddress) / z.blockSize) = .dirty then b.content
          (a - b.startAddress)
    else f.byte a
  /-- They are clean. -/
  done : ∀ j < w.dirtyStart.getD i,
    w.dirtyBlock j = if b.dirtyBlock j = .dirty then .clean else b.dirtyBlock j
  rest : ∀ j, i ≤ j → w.dirtyBlock j = b.dirtyBlock j

theorem writtenBack_zero : WrittenBack z f b 0 ⟨f, b.dirtyBlock, none⟩ where
  run _ h := absurd h (by simp)
  byte_eq _ := (if_neg fun h => Nat.not_lt_zero _ h.2.1).symm
  done _ h := absurd h (Nat.not_lt_zero _)
  rest _ _ := rfl

variable {w : WriteBackLoop} {i d : ℕ}

theorem writeRun_byte (a : ℕ) : (writeRun z b w d i).file.byte a =
    if b.startAddress + z.blockSize * d ≤ a ∧
        a < b.startAddress + z.blockSize * d + (i - d) * z.blockSize then
      b.content (z.blockSize * d + (a - (b.startAddress + z.blockSize * d)))
    else w.file.byte a := rfl

theorem writeRun_getD : (writeRun z b w d i).dirtyStart.getD i = i := rfl

theorem writeRun_dirtyBlock (j : ℕ) : (writeRun z b w d i).dirtyBlock j =
    if d ≤ j ∧ j < i then .clean else w.dirtyBlock j := rfl

/-- The open run is written. -/
theorem WrittenBack.writeRun (h : WrittenBack z f b i w) (hd : w.dirtyStart = some d) :
    WrittenBack z f b i (writeRun z b w d i) where
  run _ h := absurd h (by simp [Ncfs.writeRun])
  byte_eq a := by
    obtain ⟨hdi, hrun⟩ := h.run d hd
    have hbyte := h.byte_eq a
    rw [hd, Option.getD_some] at hbyte
    have hblock : b.startAddress + z.blockSize * d ≤ a ∧
        a < b.startAddress + z.blockSize * d + (i - d) * z.blockSize ↔
          b.startAddress ≤ a ∧ d ≤ (a - b.startAddress) / z.blockSize ∧
            (a - b.startAddress) / z.blockSize < i := by
      have hlen : z.blockSize * d + (i - d) * z.blockSize = i * z.blockSize := by
        rw [Nat.mul_comm z.blockSize, ← Nat.add_mul, Nat.add_sub_cancel' hdi.le]
      rw [Nat.add_assoc, hlen, Nat.le_div_iff_mul_le z.blockSize_pos,
        Nat.div_lt_iff_lt_mul z.blockSize_pos, Nat.mul_comm z.blockSize]
      omega
    rw [writeRun_byte, writeRun_getD]
    by_cases hin : b.startAddress + z.blockSize * d ≤ a ∧
        a < b.startAddress + z.blockSize * d + (i - d) * z.blockSize
    · obtain ⟨hlow, hdle, hlt⟩ := hblock.1 hin
      rw [if_pos hin, if_pos ⟨hlow, hlt, hrun _ hdle hlt⟩]
      refine congrArg b.content ?_
      have := hin.1
      omega
    · rw [if_neg hin, hbyte]
      refine if_congr ?_ rfl rfl
      constructor
      · rintro ⟨hlow, hlt, hdirty⟩
        exact ⟨hlow, hlt.trans hdi, hdirty⟩
      · rintro ⟨hlow, hlt, hdirty⟩
        refine ⟨hlow, ?_, hdirty⟩
        by_contra hge
        exact hin (hblock.2 ⟨hlow, Nat.not_lt.1 hge, hlt⟩)
  done j hj := by
    obtain ⟨hdi, hrun⟩ := h.run d hd
    have hdone := h.done j
    rw [hd, Option.getD_some] at hdone
    rw [writeRun_getD] at hj
    rw [writeRun_dirtyBlock]
    by_cases hdj : d ≤ j
    · rw [if_pos ⟨hdj, hj⟩, if_pos (hrun j hdj hj)]
    · rw [if_neg fun h => hdj h.1]
      exact hdone (Nat.not_le.1 hdj)
  rest j hj := by
    rw [writeRun_dirtyBlock, if_neg fun h => Nat.not_lt.2 hj h.2]
    exact h.rest j hj

/-- A block that is not dirty is passed over. -/
theorem WrittenBack.pass (h : WrittenBack z f b i w) (hd : w.dirtyStart = none)
    (hi : b.dirtyBlock i ≠ .dirty) :
    WrittenBack z f b (i + 1) w where
  run _ hrun := absurd (hd ▸ hrun) (by simp)
  byte_eq a := by
    rw [h.byte_eq a, hd, Option.getD_none, Option.getD_none]
    refine if_congr (and_congr_right fun _ => and_congr_left fun hdirty => ?_) rfl rfl
    have hne : (a - b.startAddress) / z.blockSize ≠ i := fun he => hi (he ▸ hdirty)
    omega
  done j hj := by
    rw [hd, Option.getD_none] at hj
    rcases Nat.lt_succ_iff_lt_or_eq.1 hj with hj | rfl
    · exact h.done j (by rwa [hd, Option.getD_none])
    · rw [if_neg hi]
      exact h.rest j le_rfl
  rest j hj := h.rest j (by omega)

/-- One pass of the loop. -/
theorem WrittenBack.step (h : WrittenBack z f b i w) :
    WrittenBack z f b (i + 1) (writeBackStep z b w i) := by
  rw [writeBackStep, h.rest i le_rfl]
  by_cases hi : b.dirtyBlock i = .dirty
  · rw [if_pos hi]
    have hle : w.dirtyStart.getD i ≤ i := by
      cases hd : w.dirtyStart with
      | none => exact le_rfl
      | some d => exact (h.run d hd).1.le
    refine ⟨?_, h.byte_eq, fun j hj => ?_, fun j hj => ?_⟩
    · intro d hd
      obtain rfl : w.dirtyStart.getD i = d := Option.some.inj hd
      refine ⟨by omega, fun j hj hji => ?_⟩
      rcases Nat.lt_succ_iff_lt_or_eq.1 hji with hji | rfl
      · cases hd : w.dirtyStart with
        | none =>
            rw [hd, Option.getD_none] at hj
            omega
        | some d =>
            rw [hd, Option.getD_some] at hj
            exact (h.run d hd).2 j hj hji
      · exact hi
    · change Function.update w.dirtyBlock i .processing j = _
      rw [Function.update_of_ne (by
        have hj : j < w.dirtyStart.getD i := hj
        omega)]
      exact h.done j hj
    · change Function.update w.dirtyBlock i .processing j = _
      rw [Function.update_of_ne (by omega)]
      exact h.rest j (by omega)
  · rw [if_neg hi]
    cases hd : w.dirtyStart with
    | none => exact h.pass hd hi
    | some d => exact (h.writeRun hd).pass rfl hi

theorem doWriteBack_written :
    ∃ w : WriteBackLoop, w.dirtyStart = none ∧ WrittenBack z f b z.numOfBlock w ∧
    doWriteBack z f b = (w.file, { b with dirtyBlock := w.dirtyBlock, dirtyBit := .clean }) := by
  have hloop : ∀ n, WrittenBack z f b n
      ((List.range n).foldl (writeBackStep z b) ⟨f, b.dirtyBlock, none⟩) := by
    intro n
    induction n with
    | zero => exact writtenBack_zero
    | succ n ih =>
        rw [List.range_succ, List.foldl_append]
        exact ih.step
  rw [doWriteBack]
  cases hd :
    ((List.range z.numOfBlock).foldl (writeBackStep z b) ⟨f, b.dirtyBlock, none⟩).dirtyStart with
  | none => exact ⟨_, hd, hloop _, rfl⟩
  | some d => exact ⟨_, rfl, (hloop _).writeRun hd, rfl⟩

/-! ### The buffer and the file make up an array -/

/-- The byte of the file waits in the buffer. -/
def Dirty (z : BufferSizes) (b : BufferTemplate) (a : ℕ) : Prop :=
  b.startAddress ≤ a ∧ b.dirtyBlock ((a - b.startAddress) / z.blockSize) = .dirty

/-- The pages of the buffer are those of the array. -/
def UpToDate (z : BufferSizes) (b : BufferTemplate) (m : ℕ → UInt8) : Prop :=
  ∀ i < b.contentSize, b.pageStatus (i / z.pageSize) = .fetched → b.content i = m
    (b.startAddress + i)

/-- **The buffer and the file make up the array `m`.** -/
structure Holds (z : BufferSizes) (f : File) (b : BufferTemplate) (m : ℕ → UInt8) : Prop
    extends WellFormed z b where
  upToDate : UpToDate z b m
  /-- The file has every byte that does not wait. -/
  backed : ∀ a, ¬Dirty z b a → f.byte a = m a

theorem wellFormed_clearContent : WellFormed z clearContent where
  start_dvd := dvd_zero _
  size_eq := .inl rfl
  zero _ _ := rfl
  fetched_of_dirty _ h := absurd h (by simp [clearContent])
  lt_of_dirty _ h := absurd h (by simp [clearContent])
  clean _ _ := by simp [clearContent]
  not_processing _ := by simp [clearContent]

theorem wellFormed_doFetch (offset : ℕ) : WellFormed z (doFetch z offset) where
  start_dvd := Dvd.intro_left _ rfl
  size_eq := .inr rfl
  zero _ _ := rfl
  fetched_of_dirty _ h := absurd h (by simp [doFetch, doPrefetch, clearContent])
  lt_of_dirty _ h := absurd h (by simp [doFetch, doPrefetch, clearContent])
  clean _ _ := by simp [doFetch, doPrefetch, clearContent]
  not_processing _ := by simp [doFetch, doPrefetch, clearContent]

theorem WellFormed.fetches (h : WellFormed z b) (hf : Fetches z f b b' skip) : WellFormed z b' where
  start_dvd := hf.startAddress ▸ h.start_dvd
  size_eq := hf.contentSize ▸ h.size_eq
  zero := hf.zero h.zero
  fetched_of_dirty i hi := hf.mono _ (h.fetched_of_dirty i (hf.dirtyBlock ▸ hi))
  lt_of_dirty i hi := hf.contentSize ▸ h.lt_of_dirty i (hf.dirtyBlock ▸ hi)
  clean hc := hf.dirtyBlock ▸ h.clean (hf.dirtyBit ▸ hc)
  not_processing := hf.dirtyBlock ▸ h.not_processing

/-- A byte of a page that is fetched now, unless it was left out. -/
theorem Holds.content_eq (h : Holds z f b m) (hf : Fetches z f b b' skip) {i : ℕ}
    (hsize : i < b.contentSize) (hi : b'.pageStatus (i / z.pageSize) = .fetched) (hskip : ¬skip i) :
    b'.content i = m (b.startAddress + i) := by
  by_cases hold : b.pageStatus (i / z.pageSize) = .fetched
  · rw [hf.kept i (.inl hold), h.upToDate i hsize hold]
  · rw [(hf.filled i hold hi).resolve_left hskip]
    refine h.backed _ fun hd => hold (h.fetched_of_dirty i ?_)
    have hdirty := hd.2
    rwa [Nat.add_sub_cancel_left] at hdirty

theorem Holds.fetches (h : Holds z f b m) (hf : Fetches z f b b' skip) (hskip : ∀ i, ¬skip i) :
    Holds z f b' m where
  toWellFormed := h.toWellFormed.fetches hf
  upToDate i hsize hi := by
    rw [hf.contentSize] at hsize
    rw [hf.startAddress]
    exact h.content_eq hf hsize hi (hskip i)
  backed a ha := h.backed a fun hd => ha (by rwa [Dirty, hf.startAddress, hf.dirtyBlock])

/-! ### The operations of the buffer -/

variable {offset : ℕ} {data : List UInt8}

/-- A read returns what the buffer has of the range. -/
theorem WellFormed.read_eq (h : WellFormed z b) (hoff : b.containOffset offset) (size : ℕ) :
    readFromBuffer z f b size offset = some (checkReadAvailability z f b size offset,
      slice (checkReadAvailability z f b size offset).content (offset - b.startAddress)
        (min size (b.startAddress + b.contentSize - offset))) := by
  obtain ⟨hf, -⟩ : Fetches z f b (checkReadAvailability z f b size offset) _ ∧ _ :=
    fetches_checkAvailability h hoff
  rw [readFromBuffer, if_pos hoff]
  dsimp only
  rw [hf.startAddress, hf.contentSize]

/-- **A read** returns bytes of the array. -/
theorem Holds.read (h : Holds z f b m) (hoff : b.containOffset offset) (size : ℕ) :
    ∃ b', readFromBuffer z f b size offset =
        some (b', slice m offset (min size (b.startAddress + b.contentSize - offset))) ∧
      Holds z f b' m ∧ b'.startAddress = b.startAddress ∧ b'.contentSize = b.contentSize := by
  obtain ⟨hf, hpages⟩ : Fetches z f b (checkReadAvailability z f b size offset) _ ∧ _ :=
    fetches_checkAvailability h.toWellFormed hoff
  refine ⟨checkReadAvailability z f b size offset, ?_, h.fetches hf fun i hi => absurd hi.1
    (by decide), hf.startAddress, hf.contentSize⟩
  rw [h.read_eq hoff size]
  refine congrArg some (Prod.ext rfl (slice_congr fun j hj => ?_))
  obtain ⟨hlow, hhigh⟩ := hoff
  have hrange : InRange b size offset (offset - b.startAddress + j) :=
    ⟨by omega, by omega, by omega⟩
  rw [h.content_eq hf (by omega) (hpages _ (.inr hrange)) fun hi => absurd hi.1 (by decide)]
  exact congrArg m (by omega)

/-- The blocks below the stop of a write are those that begin before its end. -/
theorem lt_dirtyStop_iff {e k : ℕ} :
    k < (if e % z.blockSize = 0 then e / z.blockSize else e / z.blockSize + 1) ↔
    k * z.blockSize < e := by
  have hpos := z.blockSize_pos
  have hdiv := Nat.div_add_mod' e z.blockSize
  split
  · rename_i hmod
    rw [hmod, Nat.add_zero] at hdiv
    rw [← Nat.mul_lt_mul_right hpos, hdiv]
  · rename_i hmod
    have hlt := Nat.mod_lt e hpos
    rw [Nat.lt_succ_iff]
    constructor
    · intro hk
      have := Nat.mul_le_mul_right z.blockSize hk
      omega
    · intro hk
      exact (Nat.le_div_iff_mul_le hpos).2 hk.le

/-- A block is dirty if it was before, or if the write reaches it. -/
theorem put_dirty_iff {lo k : ℕ} : (b.put z lo data).dirtyBlock k = .dirty ↔
    lo / z.blockSize ≤ k ∧ k * z.blockSize < lo + data.length ∨ b.dirtyBlock k = .dirty := by
  change (if _ then BlockStatus.dirty else b.dirtyBlock k) = .dirty ↔ _
  rw [← lt_dirtyStop_iff]
  by_cases hk : lo / z.blockSize ≤ k ∧ k < (if (lo + data.length) % z.blockSize = 0 then
      (lo + data.length) / z.blockSize else (lo + data.length) / z.blockSize + 1)
  · rw [if_pos hk]
    exact iff_of_true rfl (.inl hk)
  · rw [if_neg hk, or_iff_right hk]

theorem page_of_block {i j : ℕ} (h : i / z.blockSize = j / z.blockSize) :
    i / z.pageSize = j / z.pageSize := by
  obtain ⟨c, hc⟩ := z.blockSize_dvd
  rw [hc, ← Nat.div_div_eq_div_mul, ← Nat.div_div_eq_div_mul, h]

/-- The blocks of the buffer are whole. -/
theorem WellFormed.lt_of_block (h : WellFormed z b) {i : ℕ}
    (hi : i / z.blockSize * z.blockSize < b.contentSize) : i < b.contentSize := by
  have hdvd : z.blockSize ∣ b.contentSize := by
    rcases h.size_eq with hsize | hsize
    · exact hsize ▸ dvd_zero _
    · exact hsize ▸ z.blockSize_dvd.trans z.pageSize_dvd
  obtain ⟨n, hn⟩ := hdvd
  rw [hn, Nat.mul_comm z.blockSize] at hi ⊢
  exact (Nat.div_lt_iff_lt_mul z.blockSize_pos).1 (Nat.lt_of_mul_lt_mul_right hi)

/-- Bytes put into pages that are fetched. -/
theorem WellFormed.put (h : WellFormed z b) {lo : ℕ} (hfit : lo + data.length ≤ b.contentSize)
    (hpages : ∀ i, i = lo ∨ lo ≤ i ∧ i < lo + data.length → b.pageStatus
      (i / z.pageSize) = .fetched) :
    WellFormed z (b.put z lo data) where
  start_dvd := h.start_dvd
  size_eq := h.size_eq
  zero i hi := (store_of_not fun hin => hi (hpages i (.inr hin))).trans (h.zero i hi)
  fetched_of_dirty i hi := by
    change b.pageStatus (i / z.pageSize) = .fetched
    rcases put_dirty_iff.1 hi with ⟨hlow, hhigh⟩ | hold
    · -- the block holds the first byte of the range, or begins in it
      rcases Nat.lt_or_ge (i / z.blockSize * z.blockSize) lo with hlt | hge
      · have hle : i / z.blockSize ≤ lo / z.blockSize :=
          (Nat.le_div_iff_mul_le z.blockSize_pos).2 hlt.le
        rw [page_of_block (le_antisymm hle hlow)]
        exact hpages lo (.inl rfl)
      · have hblock : i / z.blockSize = i / z.blockSize * z.blockSize / z.blockSize :=
          (Nat.mul_div_cancel _ z.blockSize_pos).symm
        rw [page_of_block hblock]
        exact hpages _ (.inr ⟨hge, hhigh⟩)
    · exact h.fetched_of_dirty i hold
  lt_of_dirty i hi := by
    rcases put_dirty_iff.1 hi with ⟨-, hhigh⟩ | hold
    · exact h.lt_of_block (hhigh.trans_le hfit)
    · exact h.lt_of_dirty i hold
  clean hc := absurd hc BlockStatus.noConfusion
  not_processing k hk := by
    have hor : (b.put z lo data).dirtyBlock k = .dirty ∨
        (b.put z lo data).dirtyBlock k = b.dirtyBlock k :=
      ite_eq_or_eq ..
    rcases hor with heq | heq
    · exact BlockStatus.noConfusion (heq.symm.trans hk)
    · exact h.not_processing k (heq.symm.trans hk)

/-- A write puts its bytes into the buffer, as far as that goes. -/
theorem WellFormed.write (h : WellFormed z b) (hoff : b.containOffset offset) (data : List UInt8) :
    ∃ b', Fetches z f b b' (InRange b data.length offset) ∧
      writeToBuffer z f b data offset = some (b'.put z (offset - b.startAddress)
        (data.take (min data.length (b.startAddress + b.contentSize - offset))),
        min data.length (b.startAddress + b.contentSize - offset)) ∧
      WellFormed z (b'.put z (offset - b.startAddress)
        (data.take (min data.length (b.startAddress + b.contentSize - offset)))) ∧
      ∀ i, InRange b data.length offset i → b'.pageStatus (i / z.pageSize) = .fetched := by
  obtain ⟨hf, hpages⟩ : Fetches z f b (checkWriteAvailability z f b data.length offset) _ ∧ _ :=
    fetches_checkAvailability h hoff
  have hwrite : writeToBuffer z f b data offset = some _ := if_pos hoff
  rw [hf.startAddress, hf.contentSize] at hwrite
  obtain ⟨hlow, hhigh⟩ := hoff
  refine ⟨_, ⟨hf.startAddress, hf.contentSize, hf.dirtyBlock, hf.dirtyBit, hf.mono, hf.kept,
    fun i hi hi' => (hf.filled i hi hi').imp_left And.right⟩, hwrite,
    (h.fetches hf).put ?_ fun i hi => hpages i (hi.imp_right fun hin => ?_), fun i hi => hpages i
      (.inr hi)⟩
  · rw [List.length_take, hf.contentSize]
    omega
  · rw [List.length_take] at hin
    exact ⟨by omega, by omega, by omega⟩

/-- **A write** changes the array as far as the buffer goes. -/
theorem Holds.write (h : Holds z f b m) (hoff : b.containOffset offset) (data : List UInt8) :
    ∃ b', writeToBuffer z f b data offset =
        some (b', min data.length (b.startAddress + b.contentSize - offset)) ∧
      Holds z f b'
        (store m offset (data.take (min data.length (b.startAddress + b.contentSize - offset)))) ∧
      b'.startAddress = b.startAddress ∧ b'.contentSize = b.contentSize := by
  obtain ⟨b', hf, hwrite, hwf, hpages⟩ := h.toWellFormed.write (f := f) hoff data
  refine ⟨_, hwrite, ⟨hwf, fun i hsize hi => ?_, fun a ha => ?_⟩, hf.startAddress, hf.contentSize⟩
  · obtain ⟨hlow, hhigh⟩ := hoff
    change i < b'.contentSize at hsize
    change b'.pageStatus (i / z.pageSize) = .fetched at hi
    change store b'.content (offset - b.startAddress) _ i = store m offset _ (b'.startAddress + i)
    rw [hf.contentSize] at hsize
    rw [hf.startAddress]
    by_cases hin : InRange b data.length offset i
    · obtain ⟨hle, hlt, -⟩ := hin
      have hpos : b.startAddress + i = offset + (b.startAddress + i - offset) := by omega
      have hpos' : i = offset - b.startAddress + (b.startAddress + i - offset) := by omega
      rw [hpos]
      conv_lhs => rw [hpos']
      refine store_congr ?_
      rw [List.length_take]
      omega
    · rw [store_of_not, store_of_not]
      · exact h.content_eq hf hsize hi hin
      all_goals
        rw [List.length_take]
        exact fun hin' => hin ⟨by omega, by omega, hsize⟩
  · have hnot : ¬Dirty z b a := by
      rintro ⟨hstart, hd⟩
      refine ha ⟨hf.startAddress ▸ hstart, put_dirty_iff.2 (.inr ?_)⟩
      change b'.dirtyBlock ((a - b'.startAddress) / z.blockSize) = .dirty
      rwa [hf.startAddress, hf.dirtyBlock]
    rw [h.backed a hnot, store_of_not]
    rintro ⟨hle, hlt⟩
    have hstart : b'.startAddress ≤ a := hf.startAddress ▸ hoff.1.trans hle
    refine ha ⟨hstart, put_dirty_iff.2 (.inl ?_)⟩
    change _ ≤ (a - b'.startAddress) / z.blockSize ∧
      (a - b'.startAddress) / z.blockSize * z.blockSize < _
    rw [hf.startAddress]
    have := Nat.div_mul_le_self (a - b.startAddress) z.blockSize
    exact ⟨Nat.div_le_div_right (by omega), by omega⟩

/-- A write-back leaves no block dirty. -/
theorem WellFormed.doWriteBack (h : WellFormed z b) :
    ∃ w : WriteBackLoop, WrittenBack z f b z.numOfBlock w ∧ w.dirtyStart = none ∧
      Ncfs.doWriteBack z f b = (w.file, { b with dirtyBlock := w.dirtyBlock, dirtyBit := .clean }) ∧
      WellFormed z { b with dirtyBlock := w.dirtyBlock, dirtyBit := .clean } ∧
      ∀ i, b.dirtyBlock (i / z.blockSize) = .dirty → i / z.blockSize < z.numOfBlock := by
  obtain ⟨w, hd, hw, heq⟩ := doWriteBack_written (z := z) (f := f) (b := b)
  have hin : ∀ i, b.dirtyBlock (i / z.blockSize) = .dirty → i / z.blockSize < z.numOfBlock := by
    intro i hi
    have hlt := h.lt_of_dirty i hi
    have hsize : b.contentSize = z.bufferSize := h.size_eq.resolve_left (by omega)
    rw [Nat.div_lt_iff_lt_mul z.blockSize_pos, BufferSizes.numOfBlock,
      Nat.div_mul_cancel (z.blockSize_dvd.trans z.pageSize_dvd)]
    omega
  have hclean : ∀ k, w.dirtyBlock k ≠ .dirty ∧ w.dirtyBlock k ≠ .processing := by
    intro k
    have hk : k * z.blockSize / z.blockSize = k := Nat.mul_div_cancel _ z.blockSize_pos
    rcases Nat.lt_or_ge k z.numOfBlock with hlt | hge
    · rw [hw.done k (by rwa [hd, Option.getD_none])]
      split
      · exact ⟨by decide, by decide⟩
      · rename_i hk
        exact ⟨hk, h.not_processing k⟩
    · rw [hw.rest k hge]
      refine ⟨fun hdirty => Nat.not_lt.2 hge ?_, h.not_processing k⟩
      rw [← hk] at hdirty ⊢
      exact hin _ hdirty
  exact ⟨w, hw, hd, heq, ⟨h.start_dvd, h.size_eq, h.zero, fun i hi => absurd hi (hclean _).1,
    fun i hi => absurd hi (hclean _).1, fun _ k => (hclean k).1, fun k => (hclean k).2⟩, hin⟩

/-- **A write-back** makes the file equal to the array, and leaves nothing dirty. -/
theorem Holds.doWriteBack (h : Holds z f b m) :
    Holds z (doWriteBack z f b).1 (doWriteBack z f b).2 m ∧ (doWriteBack z f b).1.byte = m ∧
      (doWriteBack z f b).2.dirtyBit = .clean ∧
      (doWriteBack z f b).2.startAddress = b.startAddress ∧
      (doWriteBack z f b).2.contentSize = b.contentSize := by
  obtain ⟨w, hw, hd, heq, hwf, hin⟩ := h.toWellFormed.doWriteBack (f := f)
  rw [heq]
  have hbyte : w.file.byte = m := by
    funext a
    rw [hw.byte_eq a, hd, Option.getD_none]
    split
    · rename_i hdirty
      obtain ⟨hstart, -, hdirty⟩ := hdirty
      rw [h.upToDate _ (h.lt_of_dirty _ hdirty) (h.fetched_of_dirty _ hdirty),
        Nat.add_sub_cancel' hstart]
    · rename_i hdirty
      exact h.backed a fun ha => hdirty ⟨ha.1, hin _ ha.2, ha.2⟩
  exact ⟨⟨hwf, h.upToDate, fun a _ => congrFun hbyte a⟩, hbyte, rfl, rfl, rfl⟩

/-- **A fetch** into a buffer, where the file is the array. -/
theorem holds_doFetch (hf : f.byte = m) (offset : ℕ) : Holds z f (doFetch z offset) m where
  toWellFormed := wellFormed_doFetch offset
  upToDate _ _ hi := absurd hi PageStatus.noConfusion
  backed a _ := congrFun hf a

theorem holds_clearContent : Holds z f clearContent f.byte where
  toWellFormed := wellFormed_clearContent
  upToDate _ _ hi := absurd hi PageStatus.noConfusion
  backed _ _ := rfl

/-! ### Calls of a buffer -/

/-- The calls of a buffer: it is moved to another place only directly after a write-back. -/
inductive BufferCall
  | readFromBuffer (size offset : ℕ)
  | writeToBuffer (data : List UInt8) (offset : ℕ)
  | doWriteBack
  | refetch (offset : ℕ)

inductive BufferReply
  | unavailable
  | bytes (data : List UInt8)
  | size (n : ℕ)
  | done
  deriving DecidableEq, Repr

/-- The calls on a buffer and its file. -/
def serveBuffer (z : BufferSizes) (s : File × BufferTemplate) :
    BufferCall → (File × BufferTemplate) × BufferReply
  | .readFromBuffer size offset =>
      match readFromBuffer z s.1 s.2 size offset with
      | some (b, data) => ((s.1, b), .bytes data)
      | none => (s, .unavailable)
  | .writeToBuffer data offset =>
      match writeToBuffer z s.1 s.2 data offset with
      | some (b, n) => ((s.1, b), .size n)
      | none => (s, .unavailable)
  | .doWriteBack => (doWriteBack z s.1 s.2, .done)
  | .refetch offset =>
      let s := doWriteBack z s.1 s.2
      ((s.1, doFetch z offset), .done)

/-- An array with a window, for which a buffer stands. -/
structure FlatView where
  array : ℕ → UInt8
  start : ℕ
  size : ℕ

/-- Ranges are cut off at the end of the window, and are not available outside it. -/
def FlatView.serve (z : BufferSizes) (v : FlatView) : BufferCall → FlatView × BufferReply
  | .readFromBuffer size offset =>
      if v.start ≤ offset ∧ offset < v.start + v.size then
        (v, .bytes (slice v.array offset (min size (v.start + v.size - offset))))
      else (v, .unavailable)
  | .writeToBuffer data offset =>
      if v.start ≤ offset ∧ offset < v.start + v.size then
        let n := min data.length (v.start + v.size - offset)
        ({ v with array := store v.array offset (data.take n) }, .size n)
      else (v, .unavailable)
  | .doWriteBack => (v, .done)
  | .refetch offset =>
      ({ v with start := offset / z.bufferSize * z.bufferSize, size := z.bufferSize }, .done)

/-- The buffer and the file stand for the array and its window. -/
def StandsFor (z : BufferSizes) (s : File × BufferTemplate) (v : FlatView) : Prop :=
  Holds z s.1 s.2 v.array ∧ s.2.startAddress = v.start ∧ s.2.contentSize = v.size

/-- **The simulation**: one call. -/
theorem StandsFor.serve {s : File × BufferTemplate} {v : FlatView} (h : StandsFor z s v)
    (c : BufferCall) : (serveBuffer z s c).2 = (v.serve z c).2 ∧ StandsFor z (serveBuffer z s c).1
      (v.serve z c).1 := by
  obtain ⟨f, b⟩ := s
  obtain ⟨m, start, size⟩ := v
  obtain ⟨hholds, hstart, hsize⟩ := h
  dsimp only at hholds hstart hsize
  subst hstart hsize
  cases c with
  | readFromBuffer size offset =>
      by_cases hoff : b.containOffset offset
      · obtain ⟨b', hread, hholds', hstart', hsize'⟩ := hholds.read hoff size
        have hserve : serveBuffer z (f, b) (.readFromBuffer size offset) =
            ((f, b'),
              .bytes (slice m offset (min size (b.startAddress + b.contentSize - offset)))) := by
          simp only [serveBuffer, hread]
        have hview : FlatView.serve z ⟨m, b.startAddress, b.contentSize⟩
            (.readFromBuffer size offset) = _ :=
          if_pos hoff
        rw [hserve, hview]
        exact ⟨rfl, hholds', hstart', hsize'⟩
      · have hserve : serveBuffer z (f, b) (.readFromBuffer size offset) = ((f, b),
            .unavailable) := by
          simp only [serveBuffer, readFromBuffer, if_neg hoff]
        have hview : FlatView.serve z ⟨m, b.startAddress, b.contentSize⟩
            (.readFromBuffer size offset) = _ :=
          if_neg hoff
        rw [hserve, hview]
        exact ⟨rfl, hholds, rfl, rfl⟩
  | writeToBuffer data offset =>
      by_cases hoff : b.containOffset offset
      · obtain ⟨b', hwrite, hholds', hstart', hsize'⟩ := hholds.write hoff data
        have hserve : serveBuffer z (f, b) (.writeToBuffer data offset) =
            ((f, b'), .size (min data.length (b.startAddress + b.contentSize - offset))) := by
          simp only [serveBuffer, hwrite]
        have hview : FlatView.serve z ⟨m, b.startAddress, b.contentSize⟩
            (.writeToBuffer data offset) = _ :=
          if_pos hoff
        rw [hserve, hview]
        exact ⟨rfl, hholds', hstart', hsize'⟩
      · have hserve : serveBuffer z (f, b) (.writeToBuffer data offset) = ((f, b),
            .unavailable) := by
          simp only [serveBuffer, writeToBuffer, if_neg hoff]
        have hview : FlatView.serve z ⟨m, b.startAddress, b.contentSize⟩
            (.writeToBuffer data offset) = _ :=
          if_neg hoff
        rw [hserve, hview]
        exact ⟨rfl, hholds, rfl, rfl⟩
  | doWriteBack =>
      obtain ⟨hholds', -, -, hstart', hsize'⟩ := hholds.doWriteBack
      exact ⟨rfl, hholds', hstart', hsize'⟩
  | refetch offset => exact ⟨rfl, holds_doFetch hholds.doWriteBack.2.1 offset, rfl, rfl⟩

/-- The calls do not write at `a`. -/
def BufferCall.Leaves (a : ℕ) : BufferCall → Prop
  | .writeToBuffer data offset => ¬(offset ≤ a ∧ a < offset + data.length)
  | _ => True

/-- A call that leaves a byte leaves it in the array. -/
theorem FlatView.serve_of_leaves {v : FlatView} {a : ℕ} {c : BufferCall} (hc : c.Leaves a) :
    (v.serve z c).1.array a = v.array a := by
  cases c with
  | readFromBuffer size offset =>
      rw [FlatView.serve]
      split <;> rfl
  | writeToBuffer data offset =>
      rw [FlatView.serve]
      split
      · refine store_of_not fun hin => hc ⟨hin.1, hin.2.trans_le ?_⟩
        exact Nat.add_le_add_left (List.length_take_le' ..) offset
      · rfl
  | doWriteBack => rfl
  | refetch offset => rfl

/-- The file changes in a write-back only, to the array. -/
theorem StandsFor.file_eq {s : File × BufferTemplate} {v : FlatView} (h : StandsFor z s v)
    (c : BufferCall) : (serveBuffer z s c).1.1 = s.1 ∨ (serveBuffer z s c).1.1.byte = v.array := by
  cases c with
  | readFromBuffer size offset =>
      rw [serveBuffer]
      split <;> exact .inl rfl
  | writeToBuffer data offset =>
      rw [serveBuffer]
      split <;> exact .inl rfl
  | doWriteBack => exact .inr h.1.doWriteBack.2.1
  | refetch offset => exact .inr h.1.doWriteBack.2.1

/-- **A buffer refines a flat array.**  After any calls the replies are those of the array, a
write-back makes the file equal to it, and no byte that the calls leave has changed. -/
theorem buffer_refines (z : BufferSizes) (f : File) (calls : List BufferCall) :
    let s := Machine.run (fun s c => (serveBuffer z s c).1) (f, clearContent) calls
    let v := Machine.run (fun v c => (FlatView.serve z v c).1) ⟨f.byte, 0, 0⟩ calls
    Machine.replies (serveBuffer z) (f, clearContent) calls =
        Machine.replies (FlatView.serve z) ⟨f.byte, 0, 0⟩ calls ∧
      (doWriteBack z s.1 s.2).1.byte = v.array ∧
      ∀ a, (∀ c ∈ calls, c.Leaves a) → s.1.byte a = f.byte a ∧ v.array a = f.byte a := by
  intro s v
  have hinit : StandsFor z (f, clearContent) ⟨f.byte, 0, 0⟩ := ⟨holds_clearContent, rfl, rfl⟩
  have hall : ∀ c ∈ calls, (fun _ : BufferCall => True) c := fun _ _ => trivial
  obtain ⟨hreplies, hlast⟩ :=
    Machine.replies_eq (R := StandsFor z) (fun s v c _ h => h.serve c) hinit hall
  refine ⟨hreplies, hlast.1.doWriteBack.2.1, fun a hleave => ?_⟩
  -- along calls that leave the byte, the file and the array both keep it
  have hkept := Machine.replies_eq (A := BufferCall.Leaves a)
    (R := fun s v => StandsFor z s v ∧ s.1.byte a = f.byte a ∧ v.array a = f.byte a)
    (fun s v c hc h => by
      obtain ⟨hstands, hfile, harray⟩ := h
      obtain ⟨hreply, hnext⟩ := hstands.serve c
      refine ⟨hreply, hnext, ?_, (FlatView.serve_of_leaves hc).trans harray⟩
      rcases hstands.file_eq c with heq | heq
      · rw [heq, hfile]
      · rw [heq, harray]) ⟨hinit, rfl, rfl⟩ hleave
  exact hkept.2.2

end Ncfs
