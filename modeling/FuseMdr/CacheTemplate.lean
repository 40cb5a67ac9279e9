/-
**When the cache of several buffers is coherent.**

A cache of `src/cache/cache_template.cc` works on one of its buffers at a time.  Where that does not
contain an offset, `flush` writes it back, looks for the offset in the others from the next one on,
and fetches it into the next one if none has it; then it prefetches the region behind into the
buffer that follows, which is the only one it looks at.  So a region may get into two buffers, and a
write goes to one of them.

Each job is done when it is issued here.  The buffers share one file, and read their pages from it
when these are first needed: with the threads of `ThreadPool`, which do the jobs later, a page may
be read before the bytes that another buffer holds have been written back, also when the jobs are
done in order.

Main definitions:

* `Ncfs.CacheTemplate` with `Ncfs.CacheTemplate.flush`, `Ncfs.CacheTemplate.read` and
  `Ncfs.CacheTemplate.write` — the cache and its loops;
* `Ncfs.CacheCall.passes` — the passes of one call, region by region;
* `Ncfs.Coherent` — no two buffers hold a region with one of them out of date;
* `Ncfs.CopiesKept` — a write finds every other buffer with the region unread there, or with the
  bytes that are written.

Main results:

* `Ncfs.serveCache_passes` — every call returns, and is the run of its passes;
* `Ncfs.Sound.pass` — a pass whose write leaves the other copies right keeps the cache coherent;
* `Ncfs.cacheAnswers_iff` — **the exact condition**: in a run the cache is coherent throughout, and
  every read returns the bytes written last, exactly when every write leaves the other copies right;
* `Ncfs.staleCalls_not_answered` — four buffers and six calls: an old byte comes back.
-/
import FuseMdr.CacheBuffer

set_option relaxedAutoImplicit false
set_option autoImplicit false

namespace Ncfs

open FlatArray IntFile

/-! ### Calls -/

/-- A call of a cache, or what is left of it. -/
inductive CacheCall
  | read (size offset : ℕ)
  | write (data : List UInt8) (offset : ℕ)

namespace CacheCall

def size : CacheCall → ℕ
  | .read size _ => size
  | .write data _ => data.length

def offset : CacheCall → ℕ
  | .read _ offset => offset
  | .write _ offset => offset

/-- What is left after `n` bytes. -/
def rest (n : ℕ) : CacheCall → CacheCall
  | .read size offset => .read (size - n) (offset + n)
  | .write data offset => .write (data.drop n) (offset + n)

/-- The call of the working buffer: the buffer, the number of bytes, and those read. -/
def move (z : BufferSizes) (f : File) (b : BufferTemplate) :
    CacheCall → Option (BufferTemplate × ℕ × List UInt8)
  | .read size offset => (readFromBuffer z f b size offset).map fun r => (r.1, r.2.length, r.2)
  | .write data offset => (writeToBuffer z f b data offset).map fun r => (r.1, r.2, [])

/-- The array after `n` bytes of the call. -/
def after (m : ℕ → UInt8) (n : ℕ) : CacheCall → ℕ → UInt8
  | .read _ _ => m
  | .write data offset => store m offset (data.take n)

/-- The first `n` bytes that a read returns. -/
def bytes (m : ℕ → UInt8) (n : ℕ) : CacheCall → List UInt8
  | .read _ offset => slice m offset n
  | .write _ _ => []

end CacheCall

/-! ### The cache -/

/-- A cache: its buffers and the file behind them.  `workingBuffer_` is the buffer at
`currentPos`. -/
structure CacheTemplate where
  file : File
  buffer : ℕ → BufferTemplate
  currentPos : ℕ

namespace CacheTemplate

/-- Nothing has been cached. -/
def fresh (f : File) : CacheTemplate := ⟨f, fun _ => clearContent, 0⟩

def workingBuffer (c : CacheTemplate) : BufferTemplate := c.buffer c.currentPos

/-- The cache with another buffer at position `i`. -/
def setBuffer (c : CacheTemplate) (i : ℕ) (b : BufferTemplate) : CacheTemplate :=
  { c with buffer := Function.update c.buffer i b }

section

variable (z : BufferSizes) (numOfBuffer : ℕ)

/-- `flush` first writes the working buffer back. -/
def writeBackWorking (c : CacheTemplate) : CacheTemplate :=
  let written := writeBack z c.file c.workingBuffer
  { c.setBuffer c.currentPos written.2 with file := written.1 }

/-- It looks for the offset from the next buffer on; where none has it, the next one fetches it. -/
def takeBuffer (c : CacheTemplate) (offset : ℕ) : CacheTemplate :=
  let oldPos := c.currentPos
  let found := (List.range' 1 (numOfBuffer - 1)).find? fun i =>
    (c.buffer ((oldPos + i) % numOfBuffer)).containOffset offset
  match found with
  | some i => { c with currentPos := (oldPos + i) % numOfBuffer }
  | none =>
      { c.setBuffer ((oldPos + 1) % numOfBuffer) (doFetch z offset) with
        currentPos := (oldPos + 1) % numOfBuffer }

/-- The buffer that follows prefetches the region behind, unless it has it. -/
def prefetchNext (c : CacheTemplate) (offset : ℕ) : CacheTemplate :=
  let prefetchPos := (c.currentPos + 1) % numOfBuffer
  if (c.buffer prefetchPos).containOffset (offset + z.bufferSize) then c
  else c.setBuffer prefetchPos (doPrefetch z (offset + z.bufferSize))

def flush (c : CacheTemplate) (offset : ℕ) : CacheTemplate :=
  ((c.writeBackWorking z).takeBuffer z numOfBuffer offset).prefetchNext z numOfBuffer offset

/-- The loop of `read` and of `write`: the number of bytes moved, and those read. -/
def transferLoop : ℕ → CacheTemplate → CacheCall → CacheTemplate × ℕ × List UInt8
  | 0, c, _ => (c, 0, [])
  | fuel + 1, c, call =>
      if call.size = 0 then (c, 0, [])
      else
        match call.move z c.file c.workingBuffer with
        | none => transferLoop fuel (c.flush z numOfBuffer call.offset) call
        | some (b, retstat, bytes) =>
            let c := c.setBuffer c.currentPos b
            let c := if retstat < call.size then c.flush z numOfBuffer (call.offset + retstat)
              else c
            let left := transferLoop fuel c (call.rest retstat)
            (left.1, retstat + left.2.1, bytes ++ left.2.2)

/-- Every pass through the loop moves a byte, but for the first. -/
def transfer (c : CacheTemplate) (call : CacheCall) : CacheTemplate × ℕ × List UInt8 :=
  transferLoop z numOfBuffer (call.size + 1) c call

/-- The number of bytes written. -/
def write (c : CacheTemplate) (data : List UInt8) (offset : ℕ) : CacheTemplate × ℕ :=
  let r := c.transfer z numOfBuffer (.write data offset)
  (r.1, r.2.1)

/-- The bytes read. -/
def read (c : CacheTemplate) (size offset : ℕ) : CacheTemplate × List UInt8 :=
  let r := c.transfer z numOfBuffer (.read size offset)
  (r.1, r.2.2)

end

end CacheTemplate

/-- A cache, and the array of the bytes written. -/
structure Session where
  cache : CacheTemplate
  array : ℕ → UInt8

/-- The calls on a cache. -/
def serveCache (z : BufferSizes) (numOfBuffer : ℕ) (s : Session) : CacheCall → Session × BufferReply
  | .read size offset =>
      let r := s.cache.read z numOfBuffer size offset
      (⟨r.1, s.array⟩, .bytes r.2)
  | .write data offset =>
      let r := s.cache.write z numOfBuffer data offset
      (⟨r.1, store s.array offset data⟩, .size r.2)

/-- The reply that the array gives. -/
def CacheCall.reply (m : ℕ → UInt8) : CacheCall → BufferReply
  | .read size offset => .bytes (slice m offset size)
  | .write data _ => .size data.length

/-! ### The passes of a call -/

/-- What a way through the loop does. -/
inductive Pass
  /-- A buffer is taken that contains the offset. -/
  | seek (offset : ℕ)
  /-- The working buffer moves what it has of the range. -/
  | transfer (call : CacheCall)

variable {z : BufferSizes} {n : ℕ} {c : CacheTemplate} {call : CacheCall} {m : ℕ → UInt8}
    {offset : ℕ}

/-- Another buffer is taken only if the working one does not contain the offset. -/
def CacheTemplate.seek (z : BufferSizes) (n : ℕ) (c : CacheTemplate) (offset : ℕ) : CacheTemplate :=
  if c.workingBuffer.containOffset offset then c else c.flush z n offset

/-- One pass on a cache. -/
def passStep (z : BufferSizes) (n : ℕ) (s : Session) : Pass → Session
  | .seek offset => { s with cache := s.cache.seek z n offset }
  | .transfer call =>
      match call.move z s.cache.file s.cache.workingBuffer with
      | some (b, retstat, _) => ⟨s.cache.setBuffer s.cache.currentPos b, call.after s.array retstat⟩
      | none => s

/-- What is left of the region of an offset. -/
def BufferSizes.regionRest (z : BufferSizes) (offset : ℕ) : ℕ :=
  z.bufferSize - offset % z.bufferSize

/-- The number of bytes of a call that lie in the region of its offset. -/
def CacheCall.part (z : BufferSizes) (call : CacheCall) : ℕ :=
  min call.size (z.regionRest call.offset)

/-- The passes of a call, one region after the other. -/
def passesOf (z : BufferSizes) : ℕ → CacheCall → List Pass
  | 0, _ => []
  | fuel + 1, call =>
      if call.size = 0 then []
      else .seek call.offset :: .transfer call :: passesOf z fuel (call.rest (call.part z))

def CacheCall.passes (z : BufferSizes) (call : CacheCall) : List Pass := passesOf z call.size call

/-! ### Regions -/

theorem BufferSizes.regionRest_pos : 0 < z.regionRest offset :=
  Nat.sub_pos_of_lt (Nat.mod_lt offset z.bufferSize_pos)

/-- The start of a buffer that contains an offset. -/
theorem WellFormed.start_eq {b : BufferTemplate} (h : WellFormed z b)
    (hoff : b.containOffset offset) :
    b.startAddress = offset / z.bufferSize * z.bufferSize := by
  have hsize := h.contentSize_eq hoff
  obtain ⟨hlow, hhigh⟩ := hoff
  obtain ⟨k, hk⟩ := h.start_dvd
  rw [hsize] at hhigh
  rw [hk, Nat.mul_comm] at hlow hhigh ⊢
  have hdiv : offset / z.bufferSize = k := (Nat.div_eq_iff z.bufferSize_pos).2 ⟨hlow, by omega⟩
  rw [hdiv]

/-- What is left of the buffer behind an offset is what is left of the region. -/
theorem WellFormed.rest_eq {b : BufferTemplate} (h : WellFormed z b)
    (hoff : b.containOffset offset) :
    b.startAddress + b.contentSize - offset = z.regionRest offset := by
  have hmod := Nat.div_add_mod' offset z.bufferSize
  have hlt := Nat.mod_lt offset z.bufferSize_pos
  rw [h.start_eq hoff, h.contentSize_eq hoff, BufferSizes.regionRest]
  omega

theorem doFetch_containOffset : (doFetch z offset).containOffset offset := by
  have hmod := Nat.div_add_mod' offset z.bufferSize
  have hlt := Nat.mod_lt offset z.bufferSize_pos
  refine ⟨Nat.div_mul_le_self .., ?_⟩
  change offset < offset / z.bufferSize * z.bufferSize + z.bufferSize
  omega

/-! ### Flushes -/

namespace CacheTemplate

@[simp] theorem setBuffer_self {i : ℕ} {b : BufferTemplate} : (c.setBuffer i b).buffer i = b :=
  Function.update_self ..

@[simp] theorem setBuffer_of_ne {i j : ℕ} {b : BufferTemplate} (h : j ≠ i) :
    (c.setBuffer i b).buffer j = c.buffer j :=
  Function.update_of_ne h ..

/-- The buffer that is taken contains the offset.  The others are kept. -/
theorem takeBuffer_spec (hn : 0 < n) (offset : ℕ) : (c.takeBuffer z n offset).file = c.file ∧
    (c.takeBuffer z n offset).currentPos < n ∧
    (c.takeBuffer z n offset).workingBuffer.containOffset offset ∧
    ∀ i, (c.takeBuffer z n offset).buffer i = c.buffer i ∨
      (c.takeBuffer z n offset).buffer i = doFetch z offset := by
  rw [takeBuffer]
  split
  · rename_i i hi
    have hfound := List.find?_some hi
    exact ⟨rfl, Nat.mod_lt _ hn, of_decide_eq_true hfound, fun i => .inl rfl⟩
  · refine ⟨rfl, Nat.mod_lt _ hn, ?_, fun i => ?_⟩
    · change ((c.setBuffer _ (doFetch z offset)).buffer _).containOffset offset
      rw [setBuffer_self]
      exact doFetch_containOffset
    · by_cases hi : i = (c.currentPos + 1) % n
      · subst hi
        exact .inr setBuffer_self
      · exact .inl (setBuffer_of_ne hi)

/-- The buffer that prefetches is not the working one. -/
theorem prefetchNext_spec (hn : 2 ≤ n) (hpos : c.currentPos < n) (offset : ℕ) :
    (c.prefetchNext z n offset).file = c.file ∧
      (c.prefetchNext z n offset).currentPos = c.currentPos ∧
      (c.prefetchNext z n offset).workingBuffer = c.workingBuffer ∧
      ∀ i, (c.prefetchNext z n offset).buffer i = c.buffer i ∨
        (c.prefetchNext z n offset).buffer i = doFetch z (offset + z.bufferSize) := by
  have hne : c.currentPos ≠ (c.currentPos + 1) % n := by
    rcases Nat.lt_or_ge (c.currentPos + 1) n with hlt | hge
    · rw [Nat.mod_eq_of_lt hlt]
      omega
    · rw [show c.currentPos + 1 = n by omega, Nat.mod_self]
      omega
  rw [prefetchNext]
  split
  · exact ⟨rfl, rfl, rfl, fun i => .inl rfl⟩
  · refine ⟨rfl, rfl, setBuffer_of_ne hne, fun i => ?_⟩
    by_cases hi : i = (c.currentPos + 1) % n
    · subst hi
      exact .inr setBuffer_self
    · exact .inl (setBuffer_of_ne hi)

/-- What a flush does. -/
theorem flush_spec (hn : 2 ≤ n) (offset : ℕ) :
    (c.flush z n offset).file = (c.writeBackWorking z).file ∧ (c.flush z n offset).currentPos < n ∧
    (c.flush z n offset).workingBuffer.containOffset offset ∧ ∀ i,
    (c.flush z n offset).buffer i = (c.writeBackWorking z).buffer i ∨
      ∃ o, (c.flush z n offset).buffer i = doFetch z o := by
  obtain ⟨hfile, hpos, hcontain, htaken⟩ :=
    takeBuffer_spec (c := c.writeBackWorking z) (z := z) (Nat.zero_lt_of_lt hn) offset
  obtain ⟨hfile', hpos', hworking, hbuffer⟩ :=
    prefetchNext_spec (z := z) hn hpos offset
  refine ⟨hfile'.trans hfile, hpos'.trans_lt hpos, ?_, fun i => ?_⟩
  · rw [flush, hworking]
    exact hcontain
  · rcases hbuffer i with heq | heq
    · rcases htaken i with heq' | heq'
      · exact .inl (heq.trans heq')
      · exact .inr ⟨_, heq.trans heq'⟩
    · exact .inr ⟨_, heq⟩

end CacheTemplate

/-! ### Caches that are coherent -/

/-- What holds of a cache whatever the buffers have in them. -/
structure Arranged (z : BufferSizes) (n : ℕ) (c : CacheTemplate) : Prop where
  pos_lt : c.currentPos < n
  wellFormed : ∀ i < n, WellFormed z (c.buffer i)

theorem WellFormed.writeBack {f : File} {b : BufferTemplate} (h : WellFormed z b) :
    WellFormed z (writeBack z f b).2 := by
  rw [Ncfs.writeBack]
  split
  · exact h
  · split
    · exact h
    · obtain ⟨w, -, -, heq, hwf, -⟩ := h.doWriteBack (f := f)
      rw [heq]
      exact hwf

theorem Arranged.setBuffer {b : BufferTemplate} (h : Arranged z n c) (hb : WellFormed z b) :
    Arranged z n (c.setBuffer c.currentPos b) where
  pos_lt := h.pos_lt
  wellFormed i hi := by
    by_cases hpos : i = c.currentPos
    · subst hpos
      rw [CacheTemplate.setBuffer_self]
      exact hb
    · rw [CacheTemplate.setBuffer_of_ne hpos]
      exact h.wellFormed i hi

theorem Arranged.flush (h : Arranged z n c) (hn : 2 ≤ n) : Arranged z n (c.flush z n offset) := by
  obtain ⟨-, hpos, -, hbuffer⟩ := CacheTemplate.flush_spec (c := c) (z := z) hn offset
  refine ⟨hpos, fun i hi => ?_⟩
  rcases hbuffer i with heq | ⟨o, heq⟩
  · rw [heq]
    exact (h.setBuffer (h.wellFormed _ h.pos_lt).writeBack).wellFormed i hi
  · rw [heq]
    exact wellFormed_doFetch o

/-- The working buffer moves what it has of the range. -/
theorem WellFormed.move {f : File} {b : BufferTemplate} (h : WellFormed z b)
    (hoff : b.containOffset call.offset) :
    ∃ b' bytes, call.move z f b = some (b', call.part z, bytes) ∧
      WellFormed z b' ∧ b'.startAddress = b.startAddress ∧ b'.contentSize = b.contentSize := by
  have hrest := h.rest_eq hoff
  cases call with
  | read size offset =>
      have hread := h.read_eq (f := f) hoff size
      obtain ⟨hf, -⟩ : Fetches z f b (checkReadAvailability z f b size offset) _ ∧ _ :=
        fetches_checkAvailability h hoff
      have hmove : (CacheCall.read size offset).move z f b = _ := congrArg (Option.map _) hread
      rw [Option.map_some, slice_length, hrest] at hmove
      exact ⟨_, _, hmove, h.fetches hf, hf.startAddress, hf.contentSize⟩
  | write data offset =>
      obtain ⟨b', hf, hwrite, hwf, -⟩ := h.write (f := f) hoff data
      have hmove : (CacheCall.write data offset).move z f b = _ := congrArg (Option.map _) hwrite
      rw [Option.map_some, hrest] at hmove
      rw [hrest] at hwf
      exact ⟨_, _, hmove, hwf, hf.startAddress, hf.contentSize⟩

theorem CacheCall.move_eq_none {f : File} {b : BufferTemplate}
    (hoff : ¬b.containOffset call.offset) :
    call.move z f b = none := by
  cases call with
  | read size offset => exact congrArg (Option.map _) (if_neg hoff)
  | write data offset => exact congrArg (Option.map _) (if_neg hoff)

/-- The working buffer moves bytes of the array. -/
theorem Holds.move {f : File} {b : BufferTemplate} (h : Holds z f b m)
    (hoff : b.containOffset call.offset) :
    ∃ b', call.move z f b = some (b', call.part z, call.bytes m (call.part z)) ∧
      Holds z f b' (call.after m (call.part z)) ∧
      b'.startAddress = b.startAddress ∧ b'.contentSize = b.contentSize := by
  have hrest := h.toWellFormed.rest_eq hoff
  cases call with
  | read size offset =>
      obtain ⟨b', hread, hholds⟩ := h.read hoff size
      have hmove : (CacheCall.read size offset).move z f b = _ := congrArg (Option.map _) hread
      rw [Option.map_some, slice_length, hrest] at hmove
      exact ⟨b', hmove, hholds⟩
  | write data offset =>
      obtain ⟨b', hwrite, hholds⟩ := h.write hoff data
      have hmove : (CacheCall.write data offset).move z f b = _ := congrArg (Option.map _) hwrite
      rw [Option.map_some, hrest] at hmove
      rw [hrest] at hholds
      exact ⟨b', hmove, hholds⟩

/-- No two buffers hold a region with one of them out of date. -/
def Coherent (z : BufferSizes) (n : ℕ) (s : Session) : Prop :=
  ∀ i < n, ∀ j < n, i ≠ j → 0 < (s.cache.buffer i).contentSize →
    0 < (s.cache.buffer j).contentSize →
    (s.cache.buffer i).startAddress = (s.cache.buffer j).startAddress →
    UpToDate z (s.cache.buffer i) s.array ∧ UpToDate z (s.cache.buffer j) s.array

/-- The buffer has not read the byte at `a`, or has `v` for it. -/
def BufferTemplate.Agrees (z : BufferSizes) (b : BufferTemplate) (a : ℕ) (v : UInt8) : Prop :=
  b.containOffset a → b.pageStatus ((a - b.startAddress) / z.pageSize) = .fetched →
    b.content (a - b.startAddress) = v

/-- A write finds each byte of its region in every other buffer unread, or as it writes it. -/
def CopiesKept (z : BufferSizes) (n : ℕ) (s : Session) : Pass → Prop
  | .transfer (.write data offset) =>
      s.cache.workingBuffer.containOffset offset → ∀ i < n, i ≠ s.cache.currentPos →
        ∀ j < (CacheCall.write data offset).part z, (s.cache.buffer i).Agrees z (offset + j)
          (data.getD j 0)
  | _ => True

instance (b : BufferTemplate) (a : ℕ) (v : UInt8) : Decidable (b.Agrees z a v) :=
  inferInstanceAs (Decidable (_ → _ → _))

instance (s : Session) : ∀ p, Decidable (CopiesKept z n s p)
  | .seek _ => isTrue trivial
  | .transfer (.read _ _) => isTrue trivial
  | .transfer (.write _ _) => inferInstanceAs (Decidable (_ → ∀ _ < n, _ → ∀ _ < _, _))

/-- **The cache and the file make up the array**, and every buffer has its part of it. -/
structure Sound (z : BufferSizes) (n : ℕ) (s : Session) : Prop extends Arranged z n s.cache where
  upToDate : ∀ i < n, UpToDate z (s.cache.buffer i) s.array
  /-- Only the working buffer has bytes that wait. -/
  clean : ∀ i < n, i ≠ s.cache.currentPos → (s.cache.buffer i).dirtyBit = .clean
  backed : ∀ a, ¬Dirty z s.cache.workingBuffer a → s.cache.file.byte a = s.array a

variable {s : Session}

theorem Sound.holds (h : Sound z n s) : Holds z s.cache.file s.cache.workingBuffer s.array where
  toWellFormed := h.wellFormed _ h.pos_lt
  upToDate := h.upToDate _ h.pos_lt
  backed := h.backed

theorem Sound.coherent (h : Sound z n s) : Coherent z n s :=
  fun i hi j hj _ _ _ _ => ⟨h.upToDate i hi, h.upToDate j hj⟩

theorem sound_fresh (hn : 2 ≤ n) (f : File) : Sound z n ⟨.fresh f, f.byte⟩ where
  pos_lt := Nat.zero_lt_of_lt hn
  wellFormed _ _ := wellFormed_clearContent
  upToDate _ _ _ _ hi := absurd hi PageStatus.noConfusion
  clean _ _ _ := rfl
  backed _ _ := rfl

/-- A buffer that is written back leaves nothing that waits. -/
theorem Holds.writeBack {f : File} {b : BufferTemplate} (h : Holds z f b m)
    (hdo : z.doWrite = true) :
    (writeBack z f b).1.byte = m ∧ (writeBack z f b).2.dirtyBit = .clean ∧
      UpToDate z (writeBack z f b).2 m := by
  rw [Ncfs.writeBack, hdo]
  by_cases hclean : b.dirtyBit = .clean
  · rw [if_neg (by decide), if_pos hclean]
    refine ⟨funext fun a => h.backed a fun hd => ?_, hclean, h.upToDate⟩
    exact h.clean hclean _ hd.2
  · rw [if_neg (by decide), if_neg hclean]
    obtain ⟨hholds, hbyte, hbit, -⟩ := h.doWriteBack
    exact ⟨hbyte, hbit, hholds.upToDate⟩

/-- Other buffers keep the cache sound if they have been fetched just now. -/
theorem Sound.flush (h : Sound z n s) (hn : 2 ≤ n) (hdo : z.doWrite = true) (offset : ℕ) :
    Sound z n ⟨s.cache.flush z n offset, s.array⟩ := by
  obtain ⟨hfile, hpos, -, hbuffer⟩ := CacheTemplate.flush_spec (c := s.cache) (z := z) hn offset
  obtain ⟨hbyte, hclean, hupToDate⟩ := h.holds.writeBack hdo
  have hback : ∀ i < n, ((s.cache.writeBackWorking z).buffer i).dirtyBit = .clean ∧
      UpToDate z ((s.cache.writeBackWorking z).buffer i) s.array := by
    intro i hi
    by_cases hi' : i = s.cache.currentPos
    · subst hi'
      have heq : (s.cache.writeBackWorking z).buffer s.cache.currentPos = _ :=
        CacheTemplate.setBuffer_self
      rw [heq]
      exact ⟨hclean, hupToDate⟩
    · have heq : (s.cache.writeBackWorking z).buffer i = _ := CacheTemplate.setBuffer_of_ne hi'
      rw [heq]
      exact ⟨h.clean i hi hi', h.upToDate i hi⟩
  refine ⟨h.toArranged.flush hn, fun i hi => ?_, fun i hi _ => ?_, fun a _ => ?_⟩
  · rcases hbuffer i with heq | ⟨o, heq⟩
    · exact heq ▸ (hback i hi).2
    · exact heq ▸ fun _ _ hf => absurd hf PageStatus.noConfusion
  · rcases hbuffer i with heq | ⟨o, heq⟩
    · exact heq ▸ (hback i hi).1
    · exact congrArg BufferTemplate.dirtyBit heq
  · exact (congrFun (congrArg File.byte hfile) a).trans (congrFun hbyte a)

/-- A buffer is up to date after a write exactly when it has the bytes written. -/
theorem UpToDate.store_iff {b : BufferTemplate} (h : UpToDate z b m) {data : List UInt8} {k : ℕ}
    (hk : k ≤ data.length) :
    UpToDate z b (store m offset (data.take k)) ↔ ∀ j < k, b.Agrees z (offset + j)
    (data.getD j 0) := by
  have hlen : (data.take k).length = k := List.length_take_of_le hk
  have hval : ∀ j < k, store m offset (data.take k) (offset + j) = data.getD j 0 := by
    intro j hj
    rw [store_add, List.getD_eq_getElem _ _ (hlen.symm ▸ hj), List.getElem_take,
      List.getD_eq_getElem _ _ (hj.trans_le hk)]
  constructor
  · rintro h' j hj ⟨hlow, hhigh⟩ hf
    rw [h' _ (by omega) hf, Nat.add_sub_cancel' hlow, hval j hj]
  · intro h' i hi hf
    by_cases hin : offset ≤ b.startAddress + i ∧ b.startAddress + i < offset + (data.take k).length
    · obtain ⟨hlow, hhigh⟩ := hin
      obtain ⟨j, hj⟩ := Nat.exists_eq_add_of_le hlow
      rw [hlen] at hhigh
      have hpos : offset + j - b.startAddress = i := by omega
      have hcontent := h' j (by omega) ⟨by omega, by omega⟩
      rw [hpos] at hcontent
      rw [hj, hval j (by omega), hcontent hf]
    · rw [store_of_not hin]
      exact h i hi hf

/-- What a pass does where the working buffer contains the offset. -/
theorem Sound.transfer_eq (h : Sound z n s)
    (hoff : s.cache.workingBuffer.containOffset call.offset) :
    ∃ b, passStep z n s (.transfer call) =
        ⟨s.cache.setBuffer s.cache.currentPos b, call.after s.array (call.part z)⟩ ∧
      Holds z s.cache.file b (call.after s.array (call.part z)) ∧
      b.startAddress = s.cache.workingBuffer.startAddress ∧
      b.contentSize = s.cache.workingBuffer.contentSize := by
  obtain ⟨b, hmove, hholds⟩ := h.holds.move hoff
  refine ⟨b, ?_, hholds⟩
  rw [passStep, hmove]

theorem CacheCall.part_le : call.part z ≤ call.size := min_le_left ..

/-- The pass leaves every other buffer up to date exactly when it keeps the copies. -/
theorem Sound.copiesKept_iff (h : Sound z n s)
    (hoff : s.cache.workingBuffer.containOffset call.offset) :
    CopiesKept z n s (.transfer call) ↔ ∀ i < n, i ≠ s.cache.currentPos →
      UpToDate z (s.cache.buffer i) (call.after s.array (call.part z)) := by
  cases call with
  | read size offset => exact iff_of_true trivial fun i hi _ => h.upToDate i hi
  | write data offset =>
      constructor
      · intro hkept i hi hne
        exact ((h.upToDate i hi).store_iff CacheCall.part_le).2 (hkept hoff i hi hne)
      · intro hkept _ i hi hne
        exact ((h.upToDate i hi).store_iff CacheCall.part_le).1 (hkept i hi hne)

/-- **A pass** that keeps the copies keeps the cache sound. -/
theorem Sound.pass (h : Sound z n s) (hn : 2 ≤ n) (hdo : z.doWrite = true) {p : Pass}
    (hp : CopiesKept z n s p) : Sound z n (passStep z n s p) := by
  cases p with
  | seek offset =>
      rw [passStep, CacheTemplate.seek]
      split
      · exact h
      · exact h.flush hn hdo offset
  | transfer call =>
      by_cases hoff : s.cache.workingBuffer.containOffset call.offset
      · obtain ⟨b, heq, hholds, -⟩ := h.transfer_eq hoff
        have hothers := (h.copiesKept_iff hoff).1 hp
        rw [heq]
        refine ⟨h.toArranged.setBuffer hholds.toWellFormed, fun i hi => ?_, fun i hi hne => ?_, ?_⟩
        · by_cases hpos : i = s.cache.currentPos
          · subst hpos
            change UpToDate z ((s.cache.setBuffer _ b).buffer _) _
            rw [CacheTemplate.setBuffer_self]
            exact hholds.upToDate
          · change UpToDate z ((s.cache.setBuffer _ b).buffer i) _
            rw [CacheTemplate.setBuffer_of_ne hpos]
            exact hothers i hi hpos
        · have hne : i ≠ s.cache.currentPos := hne
          change ((s.cache.setBuffer _ b).buffer i).dirtyBit = .clean
          rw [CacheTemplate.setBuffer_of_ne hne]
          exact h.clean i hi hne
        · have hworking : (s.cache.setBuffer s.cache.currentPos b).workingBuffer = b :=
            CacheTemplate.setBuffer_self
          rw [hworking]
          exact hholds.backed
      · rw [passStep, CacheCall.move_eq_none hoff]
        exact h

/-- Two places in one region. -/
theorem BufferSizes.region_eq {j : ℕ} (hj : j < z.regionRest offset) :
    (offset + j) / z.bufferSize = offset / z.bufferSize := by
  have hmod := Nat.div_add_mod' offset z.bufferSize
  rw [BufferSizes.regionRest] at hj
  exact (Nat.div_eq_iff z.bufferSize_pos).2 ⟨by omega, by omega⟩

/-- A pass that does not keep the copies leaves one out of date. -/
theorem Sound.copiesKept_of_coherent (h : Sound z n s) {p : Pass}
    (hp : Coherent z n (passStep z n s p)) :
    CopiesKept z n s p := by
  cases p with
  | seek offset => trivial
  | transfer call =>
      cases call with
      | read size offset => trivial
      | write data offset =>
          intro hoff i hi hne j hj hin hf
          have hworking : WellFormed z s.cache.workingBuffer := h.wellFormed _ h.pos_lt
          have hstart : (s.cache.buffer i).startAddress = s.cache.workingBuffer.startAddress := by
            rw [(h.wellFormed i hi).start_eq hin, hworking.start_eq hoff,
              BufferSizes.region_eq (show j < z.regionRest offset from hj.trans_le
                (min_le_right ..))]
          obtain ⟨b, heq, hholds, hbstart, hbsize⟩ :=
            @Sound.transfer_eq z n (.write data offset) s h hoff
          rw [heq] at hp
          have hpair := hp i hi s.cache.currentPos h.pos_lt hne
          dsimp only at hpair
          rw [CacheTemplate.setBuffer_of_ne hne, CacheTemplate.setBuffer_self, hbstart, hbsize]
            at hpair
          have hcopy := (hpair (by have := hin.2; have := hin.1; omega)
            (by have := hoff.2; have := hoff.1; omega) hstart).1
          exact ((h.upToDate i hi).store_iff CacheCall.part_le).1 hcopy j hj hin hf

/-! ### Calls are runs of passes -/

@[simp] theorem CacheCall.size_rest (k : ℕ) : (call.rest k).size = call.size - k := by
  cases call with
  | read size offset => rfl
  | write data offset => exact List.length_drop

@[simp] theorem CacheCall.offset_rest (k : ℕ) : (call.rest k).offset = call.offset + k := by
  cases call <;> rfl

theorem CacheCall.part_pos (h : call.size ≠ 0) : 0 < call.part z :=
  lt_min (Nat.pos_of_ne_zero h) BufferSizes.regionRest_pos

theorem CacheCall.after_zero : call.after m 0 = m := by
  cases call with
  | read size offset => rfl
  | write data offset => exact store_nil

theorem CacheCall.bytes_zero : call.bytes m 0 = [] := by
  cases call <;> rfl

/-- The bytes of a call are those of its first part and of the rest. -/
theorem CacheCall.after_rest {k : ℕ} (hk : k ≤ call.size) :
    (call.rest k).after (call.after m k) (call.rest k).size = call.after m call.size := by
  cases call with
  | read size offset => rfl
  | write data offset =>
      have hlen : offset + (data.take k).length = offset + k :=
        congrArg (offset + ·) (List.length_take_of_le hk)
      change store (store m offset (data.take k)) (offset + k)
        ((data.drop k).take (data.drop k).length) = store m offset (data.take data.length)
      rw [List.take_length, List.take_length, ← hlen, store_append, List.take_append_drop]

theorem CacheCall.bytes_rest {k : ℕ} (hk : k ≤ call.size) :
    call.bytes m k ++ (call.rest k).bytes (call.after m k)
    (call.rest k).size = call.bytes m call.size := by
  cases call with
  | read size offset =>
      have hsum : k + (size - k) = size := Nat.add_sub_cancel' hk
      change slice m offset k ++ slice m (offset + k) (size - k) = slice m offset size
      rw [← slice_append, hsum]
  | write data offset => rfl

theorem passesOf_of_size_eq_zero (h : call.size = 0) (k : ℕ) : passesOf z k call = [] := by
  cases k with
  | zero => rfl
  | succ k => exact if_pos h

theorem passesOf_succ (h : call.size ≠ 0) (k : ℕ) : passesOf z (k + 1) call =
    .seek call.offset :: .transfer call :: passesOf z k (call.rest (call.part z)) := if_neg h

theorem CacheTemplate.seek_containOffset (hn : 2 ≤ n) (c : CacheTemplate) (offset : ℕ) :
    (c.seek z n offset).workingBuffer.containOffset offset := by
  rw [CacheTemplate.seek]
  split
  · assumption
  · exact (CacheTemplate.flush_spec hn offset).2.2.1

/-- The passes of a call begin with a seek, which may have been made before. -/
theorem passStep_seek_seek (hn : 2 ≤ n) (c : CacheTemplate) (m : ℕ → UInt8) (offset : ℕ) :
    passStep z n ⟨c.seek z n offset, m⟩ (.seek offset) = passStep z n ⟨c, m⟩ (.seek offset) := by
  have hcontain := CacheTemplate.seek_containOffset (z := z) hn c offset
  change Session.mk ((c.seek z n offset).seek z n offset) m = ⟨c.seek z n offset, m⟩
  conv_lhs => rw [CacheTemplate.seek, if_pos hcontain]

/-- What the loop does is what the passes do. -/
structure RunsAs (z : BufferSizes) (n : ℕ) (s : Session) (call : CacheCall) (passes : List Pass)
    (r : CacheTemplate × ℕ × List UInt8) : Prop where
  cache_eq : (Machine.run (passStep z n) s passes).cache = r.1
  /-- All bytes are moved. -/
  size_eq : r.2.1 = call.size
  array_eq : (Machine.run (passStep z n) s passes).array = call.after s.array call.size
  arranged : Arranged z n r.1
  /-- Where the copies are kept, a read returns bytes of the array. -/
  bytes_eq : z.doWrite = true → Sound z n s → Machine.AllSteps (passStep z n)
    (CopiesKept z n) s passes → r.2.2 = call.bytes s.array call.size

/-- A buffer may have been taken before the loop. -/
theorem RunsAs.of_seek (hn : 2 ≤ n) {r : CacheTemplate × ℕ × List UInt8}
    (hsize : call.size ≠ 0) {k : ℕ}
    (h : RunsAs z n ⟨c.seek z n call.offset, m⟩ call (passesOf z (k + 1) call) r) :
    RunsAs z n ⟨c, m⟩ call (passesOf z (k + 1) call) r := by
  have hrun : Machine.run (passStep z n) ⟨c.seek z n call.offset, m⟩ (passesOf z (k + 1) call) =
      Machine.run (passStep z n) ⟨c, m⟩ (passesOf z (k + 1) call) := by
    simp only [passesOf_succ hsize, Machine.run_cons, passStep_seek_seek hn]
  refine ⟨hrun ▸ h.cache_eq, h.size_eq, hrun ▸ h.array_eq, h.arranged, fun hdo hsound hall => ?_⟩
  refine h.bytes_eq hdo (hsound.pass hn hdo (p := .seek call.offset) trivial) ?_
  rw [passesOf_succ hsize] at hall ⊢
  refine ⟨trivial, ?_⟩
  rw [passStep_seek_seek hn]
  exact hall.2

/-- The first part of a call, and the rest of it. -/
theorem RunsAs.transfer (hn : 2 ≤ n) (hsize : call.size ≠ 0)
    (hoff : c.workingBuffer.containOffset call.offset) {b : BufferTemplate} {bytes : List UInt8}
    (hmove : call.move z c.file c.workingBuffer = some (b, call.part z, bytes)) {k : ℕ}
    {left : CacheTemplate × ℕ × List UInt8}
    (hleft : RunsAs z n ⟨c.setBuffer c.currentPos b, call.after m (call.part z)⟩
      (call.rest (call.part z)) (passesOf z k (call.rest (call.part z))) left) :
    RunsAs z n ⟨c, m⟩ call (passesOf z (k + 1) call)
      (left.1, call.part z + left.2.1, bytes ++ left.2.2) := by
  have hseek : passStep z n ⟨c, m⟩ (.seek call.offset) = ⟨c, m⟩ :=
    congrArg (Session.mk · m) (if_pos hoff)
  have htransfer : passStep z n ⟨c, m⟩ (.transfer call) =
      ⟨c.setBuffer c.currentPos b, call.after m (call.part z)⟩ := by
    rw [passStep, hmove]
  have hrun : Machine.run (passStep z n) ⟨c, m⟩ (passesOf z (k + 1) call) =
      Machine.run (passStep z n) ⟨c.setBuffer c.currentPos b, call.after m (call.part z)⟩
        (passesOf z k (call.rest (call.part z))) := by
    rw [passesOf_succ hsize, Machine.run_cons, Machine.run_cons, hseek, htransfer]
  refine ⟨hrun ▸ hleft.cache_eq, ?_, ?_, hleft.arranged, fun hdo hsound hall => ?_⟩
  · change call.part z + left.2.1 = call.size
    rw [hleft.size_eq, CacheCall.size_rest, Nat.add_sub_cancel' CacheCall.part_le]
  · rw [hrun, hleft.array_eq]
    exact CacheCall.after_rest CacheCall.part_le
  · rw [passesOf_succ hsize, Machine.AllSteps, Machine.AllSteps, hseek, htransfer] at hall
    have hbytes : bytes = call.bytes m (call.part z) := by
      obtain ⟨b', hmove', -⟩ := hsound.holds.move hoff
      exact congrArg (fun r => r.2.2) (Option.some.inj (hmove.symm.trans hmove'))
    have hsound' := hsound.pass hn hdo hall.2.1
    rw [htransfer] at hsound'
    change bytes ++ left.2.2 = _
    rw [hleft.bytes_eq hdo hsound' hall.2.2, hbytes]
    exact CacheCall.bytes_rest CacheCall.part_le

theorem transferLoop_of_move {fuel retstat : ℕ} {b : BufferTemplate} {bytes : List UInt8}
    (hsize : call.size ≠ 0)
    (hmove : call.move z c.file c.workingBuffer = some (b, retstat, bytes)) :
    c.transferLoop z n (fuel + 1) call =
      let left := (if retstat < call.size then
          (c.setBuffer c.currentPos b).flush z n (call.offset + retstat)
        else c.setBuffer c.currentPos b).transferLoop z n fuel (call.rest retstat)
      (left.1, retstat + left.2.1, bytes ++ left.2.2) := by
  rw [CacheTemplate.transferLoop, if_neg hsize, hmove]

/-- **The loop** does what the passes of its call do, where its working buffer contains the
offset. -/
theorem transferLoop_runsAs (hn : 2 ≤ n) (fuel : ℕ) : ∀ (c : CacheTemplate) (call : CacheCall)
    (m : ℕ → UInt8) (k : ℕ), Arranged z n c →
    (call.size ≠ 0 → c.workingBuffer.containOffset call.offset) →
      call.size ≤ fuel → call.size ≤ k →
        RunsAs z n ⟨c, m⟩ call (passesOf z k call) (c.transferLoop z n fuel call) := by
  have hempty : ∀ (c : CacheTemplate) (call : CacheCall) (m : ℕ → UInt8) (k : ℕ), Arranged z n c →
      call.size = 0 → RunsAs z n ⟨c, m⟩ call (passesOf z k call) (c, 0, []) := by
    intro c call m k h hsize
    rw [passesOf_of_size_eq_zero hsize]
    refine ⟨rfl, hsize.symm, ?_, h, fun _ _ _ => ?_⟩
    · rw [hsize, CacheCall.after_zero]
      rfl
    · rw [hsize, CacheCall.bytes_zero]
  induction fuel with
  | zero => exact fun c call m k h _ hfuel _ => hempty c call m k h (Nat.le_zero.1 hfuel)
  | succ fuel ih =>
      intro c call m k h hoff hfuel hk
      by_cases hsize : call.size = 0
      · rw [CacheTemplate.transferLoop, if_pos hsize]
        exact hempty c call m k h hsize
      · have hoff := hoff hsize
        have hpart : 0 < call.part z := CacheCall.part_pos hsize
        have hworking := h.wellFormed _ h.pos_lt
        obtain ⟨b, bytes, hmove, hwf, hstart, hcsize⟩ := hworking.move (f := c.file) hoff
        obtain ⟨k, rfl⟩ := Nat.exists_eq_succ_of_ne_zero (n := k) (by omega)
        rw [transferLoop_of_move hsize hmove]
        refine RunsAs.transfer hn hsize hoff hmove ?_
        have harranged := h.setBuffer hwf
        by_cases hlt : call.part z < call.size
        · -- the rest lies behind the working buffer
          have hnot : ¬(c.setBuffer c.currentPos b).workingBuffer.containOffset
              (call.offset + call.part z) := by
            have hself : (c.setBuffer c.currentPos b).workingBuffer = b :=
              CacheTemplate.setBuffer_self
            have hrest : c.workingBuffer.startAddress + c.workingBuffer.contentSize - call.offset =
                z.regionRest call.offset := hworking.rest_eq hoff
            have hend : call.part z = z.regionRest call.offset := by
              rw [CacheCall.part] at hlt ⊢
              omega
            rw [hself]
            rintro ⟨-, hhigh⟩
            have hhigh' : call.offset + call.part z <
                c.workingBuffer.startAddress + c.workingBuffer.contentSize :=
                hstart ▸ hcsize ▸ hhigh
            omega
          have hseek : (c.setBuffer c.currentPos b).flush z n (call.offset + call.part z) =
              (c.setBuffer c.currentPos b).seek z n (call.rest (call.part z)).offset := by
            rw [CacheCall.offset_rest, CacheTemplate.seek, if_neg hnot]
          have hrest : (call.rest (call.part z)).size ≠ 0 := by
            rw [CacheCall.size_rest]
            omega
          have hk' : (call.rest (call.part z)).size ≤ k := by
            rw [CacheCall.size_rest]
            omega
          obtain ⟨k, rfl⟩ := Nat.exists_eq_succ_of_ne_zero (n := k) (by omega)
          rw [if_pos hlt, hseek]
          refine RunsAs.of_seek hn hrest (ih _ _ _ _ (hseek ▸ harranged.flush hn)
            (fun _ => CacheTemplate.seek_containOffset hn _ _) ?_ hk')
          rw [CacheCall.size_rest]
          omega
        · rw [if_neg hlt]
          refine ih _ _ _ _ harranged (fun hrest => absurd ?_ hrest) ?_ ?_
          all_goals rw [CacheCall.size_rest]; omega

/-- **A call** returns, and is the run of its passes. -/
theorem Arranged.transfer_runsAs (h : Arranged z n c) (hn : 2 ≤ n) (call : CacheCall)
    (m : ℕ → UInt8) :
    RunsAs z n ⟨c, m⟩ call (call.passes z) (c.transfer z n call) := by
  rw [CacheTemplate.transfer, CacheCall.passes]
  by_cases hsize : call.size = 0
  · exact transferLoop_runsAs hn _ c call m _ h (absurd hsize) (by omega) le_rfl
  · by_cases hoff : c.workingBuffer.containOffset call.offset
    · exact transferLoop_runsAs hn _ c call m _ h (fun _ => hoff) (by omega) le_rfl
    · -- the first pass takes a buffer
      have hseek : c.flush z n call.offset = c.seek z n call.offset := (if_neg hoff).symm
      have hloop : c.transferLoop z n (call.size + 1) call =
          (c.seek z n call.offset).transferLoop z n call.size call := by
        rw [CacheTemplate.transferLoop, if_neg hsize, CacheCall.move_eq_none hoff, ← hseek]
      rw [hloop]
      obtain ⟨k, hk⟩ := Nat.exists_eq_succ_of_ne_zero hsize
      have hruns := transferLoop_runsAs hn call.size _ call m call.size (hseek ▸ h.flush hn)
        (fun _ => CacheTemplate.seek_containOffset hn c call.offset) le_rfl le_rfl
      rw [show passesOf z call.size call = passesOf z (k + 1) call by rw [hk]] at hruns ⊢
      exact RunsAs.of_seek hn hsize hruns

/-- What a call does, and its reply. -/
theorem serveCache_eq (call : CacheCall) : serveCache z n s call =
    (⟨(s.cache.transfer z n call).1, call.after s.array call.size⟩,
      match call with
      | .read _ _ => .bytes (s.cache.transfer z n call).2.2
      | .write _ _ => .size (s.cache.transfer z n call).2.1) := by
  cases call with
  | read size offset => rfl
  | write data offset =>
      have hdata : (CacheCall.write data offset).after s.array data.length =
          store s.array offset data :=
        congrArg (store s.array offset) List.take_length
      rw [CacheCall.size, hdata]
      rfl

/-- **Every call** of a cache is the run of its passes. -/
theorem serveCache_passes (hn : 2 ≤ n) (h : Arranged z n s.cache) (call : CacheCall) :
    (serveCache z n s call).1 = Machine.run (passStep z n) s (call.passes z) ∧
      Arranged z n (serveCache z n s call).1.cache := by
  have hruns := h.transfer_runsAs hn call s.array
  rw [serveCache_eq]
  refine ⟨?_, hruns.arranged⟩
  rw [← hruns.cache_eq, ← hruns.array_eq]

/-- The call is answered: the cache is coherent at every moment of it, and the reply is that of the
array. -/
def Answered (z : BufferSizes) (n : ℕ) (s : Session) (call : CacheCall) : Prop :=
  (serveCache z n s call).2 = call.reply s.array ∧
    Machine.Always (passStep z n) (Coherent z n) s (call.passes z)

/-- Of a sound cache, a call is answered exactly when its passes keep the copies. -/
theorem Sound.answered_iff (h : Sound z n s) (hn : 2 ≤ n) (hdo : z.doWrite = true)
    (call : CacheCall) :
    Answered z n s call ↔ Machine.AllSteps (passStep z n) (CopiesKept z n) s (call.passes z) := by
  have hall : Machine.AllSteps (passStep z n) (fun _ _ => True) s (call.passes z) :=
    Machine.allSteps_of_forall (fun _ _ => trivial) _ _
  have hcoherent : Machine.Always (passStep z n) (Coherent z n) s (call.passes z) ↔
      Machine.AllSteps (passStep z n) (CopiesKept z n) s (call.passes z) :=
    Machine.always_iff_allSteps_of_invariant (I := Sound z n) (P := Coherent z n)
      (C := CopiesKept z n) (fun s hs => hs.coherent) (fun s p _ hs hp => hs.pass hn hdo hp)
      (fun s p _ hs hp => hs.copiesKept_of_coherent hp) h hall
  refine ⟨fun hanswered => hcoherent.1 hanswered.2, fun hkept => ⟨?_, hcoherent.2 hkept⟩⟩
  have hruns := h.toArranged.transfer_runsAs hn call s.array
  rw [serveCache_eq]
  cases call with
  | read size offset => exact congrArg BufferReply.bytes (hruns.bytes_eq hdo h hkept)
  | write data offset => exact congrArg BufferReply.size hruns.size_eq

/-- **When the cache answers its calls.**  In a run from an empty cache, the cache is coherent
throughout and every read returns the bytes written last, or those of the file, exactly when every
write finds the other copies of its region unread, or as it writes them. -/
theorem cacheAnswers_iff (hn : 2 ≤ n) (hdo : z.doWrite = true) (f : File) (calls : List CacheCall) :
    Machine.AllSteps (fun s call => (serveCache z n s call).1)
    (Answered z n) ⟨.fresh f, f.byte⟩ calls ↔
      Machine.AllSteps (fun s call => (serveCache z n s call).1)
        (fun s call => Machine.AllSteps (passStep z n) (CopiesKept z n) s (call.passes z))
        ⟨.fresh f, f.byte⟩ calls := by
  refine Machine.allSteps_iff (I := Sound z n) (fun s call hs hanswered => ?_)
    (fun s call hs => hs.answered_iff hn hdo call) (sound_fresh hn f)
  rw [(serveCache_passes hn hs.toArranged call).1]
  exact ((hs.answered_iff hn hdo call).1 hanswered).invariant
    (fun _ _ hs' hp => hs'.pass hn hdo hp) hs

/-! ### An old byte -/

/-- Buffers of one byte. -/
def oneByte : BufferSizes where
  blockSize := 1
  bufferSize := 1
  pageSize := 1
  doWrite := true
  blockSize_dvd := dvd_rfl
  pageSize_dvd := dvd_rfl
  bufferSize_pos := Nat.one_pos

/-- The read at 4 prefetches the region at 5, which another buffer holds already. -/
def staleCalls : List CacheCall :=
  [.read 1 5, .read 1 4, .write [7] 5, .read 1 4, .read 1 10, .read 1 5]

/-- **Four buffers**: the last read returns the byte from before the write. -/
theorem staleCalls_not_answered :
    ¬Machine.AllSteps (fun s call => (serveCache oneByte 4 s call).1) (Answered oneByte 4)
      ⟨.fresh .empty, File.empty.byte⟩ staleCalls := by
  rintro ⟨-, -, -, -, -, hread, -⟩
  exact absurd hread.1 (by decide +kernel)

/-- Three buffers answer the same calls. -/
theorem staleCalls_answered :
    Machine.AllSteps (fun s call => (serveCache oneByte 3 s call).1) (Answered oneByte 3)
      ⟨.fresh .empty, File.empty.byte⟩ staleCalls :=
  (cacheAnswers_iff (by decide) rfl .empty staleCalls).2 (by decide +kernel)

end Ncfs
