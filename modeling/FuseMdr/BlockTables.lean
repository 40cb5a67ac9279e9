/-
The block tables of the files.

What the operations on files do to the tables: which file maps a block at which slot, and what
`ncfs_unlink` finds when it reads a table back.

Main definitions:

* `Ncfs.FsState.Tables` — the info files hold what has been recorded;
* `Ncfs.FsState.Maps` — a file with a path maps a block at a slot;
* `Ncfs.recordedBlocks` — the number of blocks by the size in an info file.

Main results:

* `Ncfs.FsState.Tables.step` — every operation keeps the tables;
* `Ncfs.FsState.Tables.recordBlock_maps` — what the records of a block make of the mapping;
* `Ncfs.getElem?_unlinkLoop`, `Ncfs.fileBlockNum_eq` — what `ncfs_unlink` reads.
-/
import FuseMdr.FileSystem

set_option relaxedAutoImplicit false
set_option autoImplicit false

namespace Ncfs

open IntFile

/-! ### Reading a table -/

section Reading

variable {fd : File}

theorem length_unlinkLoop (fd : File) (n i : ℕ) (tempInfo : ℕ → UInt8) :
    (unlinkLoop fd n i tempInfo).length = n := by
  induction n generalizing i tempInfo with
  | zero => rfl
  | succ n ih =>
      rw [unlinkLoop]
      exact congrArg (· + 1) (ih ..)

/-- A recorded block is read from its slot. -/
theorem getElem?_unlinkLoop {n i k d b : ℕ} (hk : k < n)
    (hstored : Stored fd (slotOffset (i + k)) [(d : ℤ), b]) (hd : Fits d) (hb : Fits b)
    (tempInfo : ℕ → UInt8) : (unlinkLoop fd n i tempInfo)[k]? = some (d, b) := by
  induction n generalizing i k tempInfo with
  | zero => exact absurd hk (Nat.not_lt_zero k)
  | succ n ih =>
      rw [unlinkLoop]
      cases k with
      | zero =>
          have hfits : ∀ v ∈ [(d : ℤ), b], Fits v := by
            intro v hv
            rcases List.mem_pair.1 hv with rfl | rfl
            · exact hd
            · exact hb
          have hread := (hstored.pread hfits tempInfo).2
          have hfirst := hread 0 (Nat.succ_pos 1)
          have hsecond := hread 1 (Nat.lt_succ_self 1)
          simp only [List.length_cons, List.length_nil, Nat.zero_add, Nat.mul_zero, Nat.mul_one,
            Nat.add_zero, List.getD_cons_zero, List.getD_cons_succ] at hfirst hsecond
          rw [List.getElem?_cons_zero, sizeofBlockInfo, hfirst, hsecond, Int.toNat_natCast,
            Int.toNat_natCast]
      | succ k =>
          rw [List.getElem?_cons_succ]
          exact ih (by omega) (by rwa [Nat.add_assoc, Nat.add_comm 1 k]) _

/-- The blocks of a file of the size that its info file holds. -/
def recordedBlocks (blockSize : ℕ) (fd : File) : ℕ := blocksOf blockSize (intAt fd.byte 0)

/-- Where a size has been recorded, `ncfs_unlink` reads it. -/
theorem fileBlockNum_eq (hlength : sizeofInt ≤ fd.length) (blockSize : ℕ) (fileSize : ℕ → UInt8) :
    fileBlockNum blockSize fd fileSize = recordedBlocks blockSize fd := by
  have hsize : intAt (fd.pread fileSize sizeofInt 0).2 0 = intAt fd.byte 0 := by
    refine intAt_congr fun k hk => ?_
    have hcount : 0 + k < min sizeofInt (fd.length - 0) := by
      rw [sizeofInt] at *
      omega
    exact (if_pos hcount).trans (by rw [Nat.zero_add])
  rw [fileBlockNum, hsize, recordedBlocks]

/-- The numbers of a block are values of the `int` fields of a record. -/
def FitsPair (x : ℕ × ℕ) : Prop := Fits x.1 ∧ Fits x.2

end Reading

/-! ### The tables -/

namespace FsState

/-- The info files hold the recorded blocks, and no path refers to an info file that is not made
yet. -/
structure Tables (fs : FsState) : Prop where
  /-- A recorded block lies in its slot. -/
  stored : ∀ f i x, fs.slots f i = some x → Stored (fs.info f) (slotOffset i) [(x.1 : ℤ), x.2]
  /-- The info files have been made. -/
  names_lt : ∀ path f, fs.names path = some f → f < fs.nextInfo

/-- A file with a path maps a block at a slot. -/
def Maps (fs : FsState) (f i : ℕ) (x : ℕ × ℕ) : Prop :=
  (∃ path, fs.names path = some f) ∧ fs.slots f i = some x

variable {fs : FsState} {path : String}

theorem tables_mounted (st : NcfsState) : (mounted st).Tables := by
  refine ⟨fun f i x h => ?_, fun path f h => ?_⟩
  · cases h
  · cases h

theorem Tables.openCreate (h : fs.Tables) (path : String) : (fs.openCreate path).Tables := by
  rw [FsState.openCreate]
  split
  · exact h
  · refine ⟨fun f i x hx => ?_, fun other f hf => ?_⟩
    · by_cases hnew : f = fs.nextInfo
      · simp [hnew] at hx
      · simp only [Function.update_of_ne hnew] at hx ⊢
        exact h.stored f i x hx
    · change f < fs.nextInfo + 1
      by_cases hother : other = path
      · simp only [hother, Function.update_self, Option.some.injEq] at hf
        omega
      · simp only [Function.update_of_ne hother] at hf
        exact (h.names_lt other f hf).trans (Nat.lt_succ_self _)

/-- A new file maps nothing. -/
theorem Tables.openCreate_maps (h : fs.Tables) {f i : ℕ} {x : ℕ × ℕ} :
    (fs.openCreate path).Maps f i x ↔ fs.Maps f i x := by
  rw [FsState.openCreate]
  split
  · exact Iff.rfl
  · rename_i hpath
    rw [Maps, Maps]
    by_cases hnew : f = fs.nextInfo
    · subst hnew
      constructor
      · rintro ⟨-, hx⟩
        simp at hx
      · rintro ⟨⟨other, hother⟩, -⟩
        exact absurd (h.names_lt other _ hother) (lt_irrefl _)
    · simp only [Function.update_of_ne hnew]
      refine and_congr_left fun _ => ⟨?_, ?_⟩
      · rintro ⟨other, hother⟩
        refine ⟨other, ?_⟩
        by_cases heq : other = path
        · rw [heq, Function.update_self] at hother
          exact absurd (Option.some.inj hother).symm hnew
        · rwa [Function.update_of_ne heq] at hother
      · rintro ⟨other, hother⟩
        have heq : other ≠ path := by
          rintro rfl
          rw [hpath] at hother
          cases hother
        exact ⟨other, by rwa [Function.update_of_ne heq]⟩

theorem Tables.recordBlock (h : fs.Tables) (path : String) (w : BlockWrite) (x : ℕ × ℕ) :
    (fs.recordBlock path w x).Tables := by
  obtain ⟨f, hf⟩ := fs.openCreate_names path
  have hopen := h.openCreate path
  rw [recordBlock_eq hf]
  refine ⟨fun g i y hy => ?_, hopen.names_lt⟩
  by_cases hg : g = f
  · subst hg
    simp only [Function.update_self] at hy ⊢
    by_cases hi : i = w.slot
    · -- the pair that is written last
      subst hi
      rw [Function.update_self] at hy
      cases hy
      exact stored_pwrite (List.cons_ne_nil _ _)
    · rw [Function.update_of_ne hi] at hy
      have hslots : slotOffset w.slot + 8 ≤ slotOffset i ∨
          slotOffset i + 8 ≤ slotOffset w.slot := by
        simp only [slotOffset, sizeofBlockInfo]
        omega
      refine Stored.pwrite ((hopen.stored g i y hy).pwrite (.inl ?_)) hslots
      simp only [slotOffset, sizeofBlockInfo]
      omega
  · simp only [Function.update_of_ne hg] at hy ⊢
    exact hopen.stored g i y hy

/-- The records of a block enter it into the mapping, in the place of what its slot has mapped. -/
theorem Tables.recordBlock_maps (h : fs.Tables) (path : String) (w : BlockWrite) (x : ℕ × ℕ) :
    ∃ f, (fs.names path = some f ∨ ∀ other, fs.names other ≠ some f) ∧
      ∀ g i y, (fs.recordBlock path w x).Maps g i y ↔
        g = f ∧ i = w.slot ∧ y = x ∨ fs.Maps g i y ∧ ¬ (g = f ∧ i = w.slot) := by
  obtain ⟨f, hf⟩ := fs.openCreate_names path
  refine ⟨f, ?_, fun g i y => ?_⟩
  · cases hpath : fs.names path with
    | some g =>
        rw [openCreate_of_some hpath, hpath] at hf
        exact .inl hf
    | none =>
        have hnew : fs.nextInfo = f := by
          simp only [FsState.openCreate, hpath, Function.update_self, Option.some.injEq] at hf
          exact hf
        exact .inr fun other hother => hnew.not_gt (h.names_lt other f hother)
  · have hopen : (fs.openCreate path).Maps g i y ↔ fs.Maps g i y := h.openCreate_maps
    rw [← hopen, recordBlock_eq hf, Maps, Maps]
    dsimp only
    by_cases hslot : g = f ∧ i = w.slot
    · obtain ⟨rfl, rfl⟩ := hslot
      simp only [Function.update_self, Option.some.injEq, not_true, and_false, or_false,
        true_and, and_self]
      exact ⟨fun hx => hx.2.symm, fun hx => ⟨⟨path, hf⟩, hx.symm⟩⟩
    · have hsame : Function.update (fs.openCreate path).slots f
          (Function.update ((fs.openCreate path).slots f) w.slot (some x)) g i =
            (fs.openCreate path).slots g i := by
        by_cases hg : g = f
        · subst hg
          rw [Function.update_self, Function.update_of_ne fun hi => hslot ⟨rfl, hi⟩]
        · rw [Function.update_of_ne hg]
      rw [hsame]
      tauto

theorem Tables.storeBlock (h : fs.Tables) (L : CodingLayer) (path : String) (w : BlockWrite) :
    (Ncfs.storeBlock L path fs w).2.Tables := by
  have hcase := storeBlock_case L path fs w
  generalize Ncfs.storeBlock L path fs w = result at hcase ⊢
  cases hcase with
  | noRoom st _ => exact ⟨h.stored, h.names_lt⟩
  | stored x st _ =>
      have hstore : Tables { fs with st := st } := ⟨h.stored, h.names_lt⟩
      exact hstore.recordBlock path w x

theorem Tables.truncate (h : fs.Tables) (path : String) (newsize : ℕ) :
    (ncfsTruncate fs path newsize).Tables := by
  rw [ncfsTruncate]
  split
  · exact h
  · rename_i f _
    refine ⟨fun g i x hx => ?_, h.names_lt⟩
    by_cases hg : g = f
    · subst hg
      simp only [Function.update_self] at hx ⊢
      split at hx
      · rename_i hsize
        refine (h.stored g i x hx).truncate ?_
        simpa only [slotOffset, sizeofBlockInfo, List.length_cons, List.length_nil, Nat.succ_mul]
          using hsize
      · cases hx
    · simp only [Function.update_of_ne hg] at hx ⊢
      exact h.stored g i x hx

theorem Tables.rename (h : fs.Tables) (path newpath : String) :
    (ncfsRename fs path newpath).Tables := by
  rw [ncfsRename]
  split
  · exact h
  · rename_i f hf
    split
    · exact h
    · refine ⟨h.stored, fun other g hg => ?_⟩
      by_cases hnew : other = newpath
      · simp only [hnew, Function.update_self, Option.some.injEq] at hg
        exact hg ▸ h.names_lt path f hf
      · simp only [Function.update_of_ne hnew] at hg
        by_cases hold : other = path
        · simp only [hold, Function.update_self] at hg
          cases hg
        · simp only [Function.update_of_ne hold] at hg
          exact h.names_lt other g hg

theorem Tables.link (h : fs.Tables) (path newpath : String) :
    (ncfsLink fs path newpath).Tables := by
  rw [ncfsLink]
  split
  · rename_i f hf _
    refine ⟨h.stored, fun other g hg => ?_⟩
    by_cases hnew : other = newpath
    · simp only [hnew, Function.update_self, Option.some.injEq] at hg
      exact hg ▸ h.names_lt path f hf
    · simp only [Function.update_of_ne hnew] at hg
      exact h.names_lt other g hg
  · exact h

theorem Tables.unlink (h : fs.Tables) (path : String) (fileSize tempInfo : ℕ → UInt8) :
    (ncfsUnlink fs path fileSize tempInfo).Tables := by
  rw [ncfsUnlink]
  split
  · exact h
  · refine ⟨h.stored, fun other g hg => ?_⟩
    by_cases hpath : other = path
    · simp only [hpath, Function.update_self] at hg
      cases hg
    · simp only [Function.update_of_ne hpath] at hg
      exact h.names_lt other g hg

theorem Tables.write (h : fs.Tables) (L : CodingLayer) (path : String) (buf : Buf) (size offset : ℕ)
    (mem : Buf) : (ncfsWrite L fs path buf size offset mem).2.Tables :=
  ncfsWrite_inv (C := fun _ _ => True) (fun _ _ _ _ h => ⟨h.stored, h.names_lt⟩)
    (fun _ w h _ => h.storeBlock L path w) h
      (allStores_of_forall (fun _ _ => trivial) fs buf size offset mem)

/-- Every operation keeps the tables. -/
theorem Tables.step (h : fs.Tables) (L : CodingLayer) (op : FsOp) : (fsStep L fs op).Tables := by
  cases op with
  | create path => exact h.openCreate path
  | write path buf size offset mem => exact h.write L path buf size offset mem
  | unlink path fileSize tempInfo => exact h.unlink path fileSize tempInfo
  | truncate path newsize => exact h.truncate path newsize
  | rename path newpath => exact h.rename path newpath
  | link path newpath => exact h.link path newpath


/-- A block at a slot below the recorded size is read back when its file is unlinked. -/
theorem Tables.getElem?_unlinkFrees (h : fs.Tables) {f i : ℕ} {x : ℕ × ℕ}
    (hx : fs.slots f i = some x) (hfits : FitsPair x)
    (hi : i < recordedBlocks fs.st.diskBlockSize (fs.info f)) (fileSize tempInfo : ℕ → UInt8) :
    (unlinkFrees fs.st.diskBlockSize (fs.info f) fileSize tempInfo)[i]? = some x := by
  have hstored := h.stored f i x hx
  have hlength : sizeofInt ≤ (fs.info f).length := by
    have hle := hstored.le_length
    simp only [List.length_cons, List.length_nil, sizeofInt] at *
    omega
  rw [unlinkFrees, fileBlockNum_eq hlength]
  exact getElem?_unlinkLoop hi (by rwa [Nat.zero_add]) hfits.1 hfits.2 tempInfo

/-! ### The mapping -/

/-- Cutting a table takes the slots behind the new size out of the mapping. -/
theorem truncate_maps {newsize g i : ℕ} {x : ℕ × ℕ} : (ncfsTruncate fs path newsize).Maps g i x ↔
    fs.Maps g i x ∧ (fs.names path = some g → slotOffset (i + 1) ≤ newsize) := by
  rw [ncfsTruncate]
  split
  · rename_i hpath
    simp [hpath]
  · rename_i f hf
    rw [Maps, Maps, hf, and_assoc]
    refine and_congr_right fun _ => ?_
    dsimp only
    by_cases hg : g = f
    · subst hg
      simp only [Function.update_self, forall_const]
      split <;> simp [*]
    · rw [Function.update_of_ne hg]
      exact ⟨fun hx => ⟨hx, fun heq => absurd (Option.some.inj heq).symm hg⟩, fun hx => hx.1⟩

/-- A new path adds nothing to the mapping. -/
theorem maps_of_link {newpath : String} {g i : ℕ} {x : ℕ × ℕ}
    (h : (ncfsLink fs path newpath).Maps g i x) :
    fs.Maps g i x := by
  rw [ncfsLink] at h
  split at h
  · rename_i f hf _
    obtain ⟨⟨other, hother⟩, hx⟩ := h
    refine ⟨?_, hx⟩
    by_cases hnew : other = newpath
    · simp only [hnew, Function.update_self, Option.some.injEq] at hother
      exact ⟨path, hother ▸ hf⟩
    · simp only [Function.update_of_ne hnew] at hother
      exact ⟨other, hother⟩
  · exact h

theorem Maps.link {g i : ℕ} {x : ℕ × ℕ} (h : fs.Maps g i x) (path newpath : String) :
    (ncfsLink fs path newpath).Maps g i x := by
  rw [ncfsLink]
  split
  · rename_i hnone
    obtain ⟨⟨other, hother⟩, hx⟩ := h
    refine ⟨⟨other, ?_⟩, hx⟩
    have hne : other ≠ newpath := by
      rintro rfl
      rw [hnone] at hother
      cases hother
    simpa only [Function.update_of_ne hne] using hother
  · exact h

/-- Nor does a renaming. -/
theorem maps_of_rename {newpath : String} {g i : ℕ} {x : ℕ × ℕ}
    (h : (ncfsRename fs path newpath).Maps g i x) :
    fs.Maps g i x := by
  rw [ncfsRename] at h
  split at h
  · exact h
  · rename_i f hf
    split at h
    · exact h
    · obtain ⟨⟨other, hother⟩, hx⟩ := h
      refine ⟨?_, hx⟩
      by_cases hnew : other = newpath
      · simp only [hnew, Function.update_self, Option.some.injEq] at hother
        exact ⟨path, hother ▸ hf⟩
      · simp only [Function.update_of_ne hnew] at hother
        by_cases hold : other = path
        · simp only [hold, Function.update_self] at hother
          cases hother
        · simp only [Function.update_of_ne hold] at hother
          exact ⟨other, hother⟩

/-- It takes a file that loses its last path out of the mapping. -/
theorem Maps.rename {g i : ℕ} {x : ℕ × ℕ} (h : fs.Maps g i x) {path newpath : String}
    (hkeep : fs.names newpath = some g → fs.names path ≠ some g →
      ∃ other, other ≠ newpath ∧ fs.names other = some g) :
    (ncfsRename fs path newpath).Maps g i x := by
  rw [ncfsRename]
  split
  · exact h
  · rename_i f hf
    split
    · exact h
    · rename_i hne
      obtain ⟨⟨other, hother⟩, hx⟩ := h
      refine ⟨?_, hx⟩
      by_cases hg : g = f
      · exact ⟨newpath, by rw [hg]; exact Function.update_self ..⟩
      · -- a path of another file stays, unless it is the one that is replaced
        have hstays : ∀ other, other ≠ newpath → fs.names other = some g →
            Function.update (Function.update fs.names path none) newpath
              (some f) other = some g := by
          intro other hnew hother
          have hold : other ≠ path := by
            rintro rfl
            rw [hf] at hother
            exact hg (Option.some.inj hother).symm
          rw [Function.update_of_ne hnew, Function.update_of_ne hold, hother]
        by_cases hnew : other = newpath
        · have hlost := hkeep (hnew ▸ hother) fun heq => hg (Option.some.inj (heq.symm.trans hf))
          obtain ⟨other, hnew, hother⟩ := hlost
          exact ⟨other, hstays other hnew hother⟩
        · exact ⟨other, hstays other hnew hother⟩

/-- Unlinking adds nothing to the mapping. -/
theorem maps_of_unlink {fileSize tempInfo : ℕ → UInt8} {g i : ℕ} {x : ℕ × ℕ}
    (h : (ncfsUnlink fs path fileSize tempInfo).Maps g i x) :
    fs.Maps g i x ∧ ∃ other, other ≠ path ∧ fs.names other = some g := by
  rw [ncfsUnlink] at h
  split at h
  · rename_i hpath
    obtain ⟨other, hother⟩ := h.1
    refine ⟨h, other, ?_, hother⟩
    rintro rfl
    rw [hpath] at hother
    cases hother
  · obtain ⟨⟨other, hother⟩, hx⟩ := h
    have hne : other ≠ path := by
      rintro rfl
      simp only [Function.update_self] at hother
      cases hother
    simp only [Function.update_of_ne hne] at hother
    exact ⟨⟨⟨other, hother⟩, hx⟩, other, hne, hother⟩

/-- It takes a file that loses its last path out of the mapping. -/
theorem Maps.unlink {g i : ℕ} {x : ℕ × ℕ} (h : fs.Maps g i x) {path : String}
    (hkeep : ∃ other, other ≠ path ∧ fs.names other = some g) (fileSize tempInfo : ℕ → UInt8) :
    (ncfsUnlink fs path fileSize tempInfo).Maps g i x := by
  rw [ncfsUnlink]
  split
  · exact h
  · obtain ⟨other, hne, hother⟩ := hkeep
    exact ⟨⟨other, (Function.update_of_ne hne ..).trans hother⟩, h.2⟩

end FsState

end Ncfs
