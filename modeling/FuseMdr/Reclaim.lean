/-
Blocks that are given back.

A block that `encode` has returned is needed as long as some file maps it; afterwards it should be
on the space list.  Only `ncfs_unlink` puts blocks there, and the blocks that are written over, cut
off or replaced by a renaming are neither mapped nor listed.

Main definitions:

* `Ncfs.FsState.Accounted` — every block that has been returned is mapped or listed;
* `Ncfs.FsOp.KeepsBlocks` — an operation that takes no block out of the mapping without listing it.

Main results:

* `Ncfs.accounted_of_keepsBlocks` — in a run of such operations every block stays accounted for;
* `Ncfs.truncate_loses_block` — a run that loses a block.
-/
import FuseMdr.BlockTables

set_option relaxedAutoImplicit false
set_option autoImplicit false

namespace Ncfs

/-! ### The operations -/

/-- Every block that `encode` has returned is on the space list, or in the table of a file with a
path. -/
def FsState.Accounted (fs : FsState) : Prop :=
  ∀ x ∈ fs.returned, x ∈ fs.st.spaceList ∨ ∃ f i, fs.Maps f i x

/-- A block is recorded in a slot that maps nothing. -/
def RecordsNew (L : CodingLayer) (path : String) (fs : FsState) (w : BlockWrite) : Prop :=
  ∀ x, L.next fs.st w.size = some x → FitsPair x ∧ ∀ f, fs.names path = some f →
    fs.slots f w.slot = none

/-- An operation that takes no block out of the mapping without listing it: a write fills slots that
map nothing; a truncation cuts only slots that map nothing; a renaming replaces only a file that has
another path or maps nothing; and what is unlinked has another path, or maps blocks only at slots
below its recorded size. -/
def FsOp.KeepsBlocks (L : CodingLayer) (fs : FsState) : FsOp → Prop
  | .create _ => True
  | .link _ _ => True
  | .write path buf size offset mem => AllStores L (RecordsNew L path) fs path buf size offset mem
  | .truncate path newsize =>
      ∀ f, fs.names path = some f → ∀ i, fs.slots f i ≠ none → slotOffset (i + 1) ≤ newsize
  | .rename path newpath =>
      ∀ g, fs.names newpath = some g → fs.names path ≠ some g →
        (∃ other, other ≠ newpath ∧ fs.names other = some g) ∨ ∀ i, fs.slots g i = none
  | .unlink path _ _ =>
      ∀ f, fs.names path = some f → (∃ other, other ≠ path ∧ fs.names other = some f) ∨
        ∀ i, fs.slots f i ≠ none → i < recordedBlocks fs.st.diskBlockSize (fs.info f)

/-! ### One operation -/

/-- The invariant of these operations. -/
structure Reclaimable (fs : FsState) : Prop where
  /-- The tables hold what has been recorded. -/
  tables : fs.Tables
  /-- The numbers in the tables can be read back. -/
  fits : ∀ f i x, fs.Maps f i x → FitsPair x
  /-- No block is lost. -/
  accounted : fs.Accounted

section Step

variable {L : CodingLayer} {fs : FsState} {path newpath : String}

theorem reclaimable_mounted (st : NcfsState) : Reclaimable (.mounted st) := by
  refine ⟨FsState.tables_mounted st, fun f i x h => ?_, fun x hx => ?_⟩
  · cases h.2
  · cases hx

/-- An operation that adds nothing to the mapping, and lists the blocks that it takes out. -/
theorem Reclaimable.of_maps (h : Reclaimable fs) {fs' : FsState} (htables : fs'.Tables)
    (hreturned : fs'.returned = fs.returned) (hlist : ∀ x ∈ fs.st.spaceList, x ∈ fs'.st.spaceList)
    (hmaps : ∀ f i x, fs'.Maps f i x → fs.Maps f i x)
    (hlost : ∀ f i x, fs.Maps f i x → fs'.Maps f i x ∨ x ∈ fs'.st.spaceList) : Reclaimable fs' := by
  refine ⟨htables, fun f i x hx => h.fits f i x (hmaps f i x hx), fun x hx => ?_⟩
  rw [hreturned] at hx
  rcases h.accounted x hx with hmem | ⟨f, i, hx⟩
  · exact .inl (hlist x hmem)
  · rcases hlost f i x hx with hx | hmem
    · exact .inr ⟨f, i, hx⟩
    · exact .inl hmem

/-- A block that is recorded in a new slot comes to what is mapped. -/
theorem Reclaimable.storeBlock (h : Reclaimable fs) {w : BlockWrite}
    (hnew : RecordsNew L path fs w) :
    Reclaimable (storeBlock L path fs w).2 := by
  have htables := h.tables.storeBlock L path w
  have hlist := fun x => L.mem_encode_spaceList fs.st w.buf w.size (x := x)
  have hnext := L.encode_fst fs.st w.buf w.size
  have hcase := storeBlock_case L path fs w
  generalize Ncfs.storeBlock L path fs w = result at hcase htables ⊢
  cases hcase with
  | noRoom st hencode =>
      simp only [hencode, reduceCtorEq, false_or] at hlist
      refine ⟨htables, h.fits, fun x hx => ?_⟩
      rcases h.accounted x hx with hmem | hmapped
      · exact .inl (hlist x hmem)
      · exact .inr hmapped
  | stored x st hencode =>
      simp only [hencode] at hlist hnext
      obtain ⟨hfits, hslot⟩ := hnew x hnext.symm
      have hstore : FsState.Tables { fs with st := st } := ⟨h.tables.stored, h.tables.names_lt⟩
      obtain ⟨f, hf, hmaps⟩ := hstore.recordBlock_maps path w x
      -- what was mapped stays mapped: the slot is new
      have hkeeps : ∀ g i y, fs.Maps g i y →
          ({ fs with st := st }.recordBlock path w x).Maps g i y := by
        intro g i y hy
        refine (hmaps g i y).2 (.inr ⟨hy, ?_⟩)
        rintro ⟨rfl, rfl⟩
        rcases hf with hf | hf
        · cases (hslot g hf).symm.trans hy.2
        · obtain ⟨other, hother⟩ := hy.1
          exact hf other hother
      refine ⟨htables, fun g i y hy => ?_, fun y hy => ?_⟩
      · rcases (hmaps g i y).1 hy with ⟨-, -, rfl⟩ | ⟨hy, -⟩
        · exact hfits
        · exact h.fits g i y hy
      · dsimp only at hy ⊢
        rw [(FsState.recordBlock_history ..).2] at hy
        rw [FsState.recordBlock_st]
        have hself : ∃ g i, ({ fs with st := st }.recordBlock path w x).Maps g i x :=
          ⟨f, w.slot, (hmaps f w.slot x).2 (.inl ⟨rfl, rfl, rfl⟩)⟩
        rcases List.mem_cons.1 hy with rfl | hy
        · exact .inr hself
        · rcases h.accounted y hy with hmem | ⟨g, i, hy⟩
          · rcases hlist y hmem with heq | hmem
            · cases heq
              exact .inr hself
            · exact .inl hmem
          · exact .inr ⟨g, i, hkeeps g i y hy⟩

theorem Reclaimable.write (h : Reclaimable fs) {buf : Buf} {size offset : ℕ} {mem : Buf}
    (hnew : AllStores L (RecordsNew L path) fs path buf size offset mem) :
    Reclaimable (ncfsWrite L fs path buf size offset mem).2 :=
  ncfsWrite_inv (fun _ _ _ _ h => ⟨⟨h.tables.stored, h.tables.names_lt⟩, h.fits, h.accounted⟩)
    (fun _ _ h hnew => h.storeBlock hnew) h hnew

theorem Reclaimable.create (h : Reclaimable fs) (path : String) :
    Reclaimable (fs.openCreate path) := by
  have hst : (fs.openCreate path).st = fs.st := by
    rw [FsState.openCreate]
    split <;> rfl
  have hreturned : (fs.openCreate path).returned = fs.returned := by
    rw [FsState.openCreate]
    split <;> rfl
  exact h.of_maps (h.tables.openCreate path) hreturned (fun x hx => hst ▸ hx)
    (fun f i x => h.tables.openCreate_maps.1) (fun f i x hx => .inl (h.tables.openCreate_maps.2 hx))

theorem Reclaimable.link (h : Reclaimable fs) (path newpath : String) :
    Reclaimable (ncfsLink fs path newpath) := by
  have hsame : (ncfsLink fs path newpath).st = fs.st ∧
      (ncfsLink fs path newpath).returned = fs.returned := by
    rw [ncfsLink]
    split <;> exact ⟨rfl, rfl⟩
  exact h.of_maps (h.tables.link path newpath) hsame.2 (fun x hx => hsame.1 ▸ hx)
    (fun f i x => FsState.maps_of_link) (fun f i x hx => .inl (hx.link path newpath))

theorem Reclaimable.truncate (h : Reclaimable fs) {newsize : ℕ}
    (hcut : ∀ f, fs.names path = some f → ∀ i, fs.slots f i ≠ none → slotOffset (i + 1) ≤ newsize) :
    Reclaimable (ncfsTruncate fs path newsize) := by
  have hsame : (ncfsTruncate fs path newsize).st = fs.st ∧
      (ncfsTruncate fs path newsize).returned = fs.returned := by
    rw [ncfsTruncate]
    split <;> exact ⟨rfl, rfl⟩
  refine h.of_maps (h.tables.truncate path newsize) hsame.2 (fun x hx => hsame.1 ▸ hx)
    (fun f i x hx => (FsState.truncate_maps.1 hx).1) (fun f i x hx => .inl ?_)
  refine FsState.truncate_maps.2 ⟨hx, fun hf => hcut f hf i ?_⟩
  rw [hx.2]
  exact Option.some_ne_none x

theorem Reclaimable.rename (h : Reclaimable fs)
    (hreplaced : ∀ g, fs.names newpath = some g → fs.names path ≠ some g →
      (∃ other, other ≠ newpath ∧ fs.names other = some g) ∨ ∀ i, fs.slots g i = none) :
    Reclaimable (ncfsRename fs path newpath) := by
  have hsame : (ncfsRename fs path newpath).st = fs.st ∧
      (ncfsRename fs path newpath).returned = fs.returned := by
    rw [ncfsRename]
    split
    · exact ⟨rfl, rfl⟩
    · split <;> exact ⟨rfl, rfl⟩
  refine h.of_maps (h.tables.rename path newpath) hsame.2 (fun x hx => hsame.1 ▸ hx)
    (fun f i x => FsState.maps_of_rename) (fun g i x hx => .inl (hx.rename fun hg hne => ?_))
  rcases hreplaced g hg hne with hother | hnone
  · exact hother
  · cases (hnone i).symm.trans hx.2

theorem Reclaimable.unlink (h : Reclaimable fs) (fileSize tempInfo : ℕ → UInt8)
    (hlast : ∀ f, fs.names path = some f → (∃ other, other ≠ path ∧ fs.names other = some f) ∨
      ∀ i, fs.slots f i ≠ none → i < recordedBlocks fs.st.diskBlockSize (fs.info f)) :
    Reclaimable (ncfsUnlink fs path fileSize tempInfo) := by
  cases hpath : fs.names path with
  | none =>
      have hsame : ncfsUnlink fs path fileSize tempInfo = fs := by rw [ncfsUnlink, hpath]
      rwa [hsame]
  | some f =>
      have hspace : ∀ x, x ∈ (ncfsUnlink fs path fileSize tempInfo).st.spaceList ↔
          x ∈ unlinkFrees fs.st.diskBlockSize (fs.info f) fileSize tempInfo ∨
          x ∈ fs.st.spaceList := by
        intro x
        rw [ncfsUnlink, hpath, ← List.mem_append]
        exact (foldl_spaceListAdd_perm ..).mem_iff
      refine h.of_maps (h.tables.unlink path fileSize tempInfo) ?_
        (fun x hx => (hspace x).2 (.inr hx))
        (fun g i x hx => (FsState.maps_of_unlink hx).1) (fun g i x hx => ?_)
      · rw [ncfsUnlink, hpath]
      · by_cases hother : ∃ other, other ≠ path ∧ fs.names other = some g
        · exact .inl (hx.unlink hother fileSize tempInfo)
        · -- the path was the last one
          obtain ⟨other, hg⟩ := hx.1
          have hgf : g = f := by
            by_cases heq : other = path
            · rw [heq, hpath] at hg
              exact (Option.some.inj hg).symm
            · exact absurd ⟨other, heq, hg⟩ hother
          subst hgf
          have hslot : fs.slots g i ≠ none := by
            rw [hx.2]
            exact Option.some_ne_none x
          have hi := (hlast g hpath).resolve_left hother i hslot
          have hfreed := h.tables.getElem?_unlinkFrees hx.2 (h.fits g i x hx) hi fileSize tempInfo
          exact .inr ((hspace x).2 (.inl (List.mem_of_getElem? hfreed)))

theorem Reclaimable.step (h : Reclaimable fs) {op : FsOp} (hop : op.KeepsBlocks L fs) :
    Reclaimable (fsStep L fs op) := by
  cases op with
  | create path => exact h.create path
  | write path buf size offset mem => exact h.write hop
  | unlink path fileSize tempInfo => exact h.unlink fileSize tempInfo hop
  | truncate path newsize => exact h.truncate hop
  | rename path newpath => exact h.rename hop
  | link path newpath => exact h.link path newpath

end Step

/-! ### Runs -/

/-- **No block is lost.**  On every store, after every operation of a run that takes no block out of
the mapping without listing it, each block that `encode` has returned is mapped by a file or on the
space list. -/
theorem accounted_of_keepsBlocks (L : CodingLayer) (st : NcfsState) {ops : List FsOp}
    (hops : Machine.AllSteps (fsStep L) (fun fs op => op.KeepsBlocks L fs) (.mounted st) ops) :
    Machine.Always (fsStep L) FsState.Accounted (.mounted st) ops :=
  (hops.always (I := Reclaimable) (fun _ _ h hop => h.step hop) (reclaimable_mounted st)).mono
    fun _ h => h.accounted

/-- The block that `next` chooses is known, and the slot is free. -/
theorem RecordsNew.of_next {L : CodingLayer} {path : String} {fs : FsState} {w : BlockWrite}
    {x : ℕ × ℕ} (hnext : L.next fs.st w.size = some x) (hfits : FitsPair x)
    (hslot : ∀ f ∈ fs.names path, fs.slots f w.slot = none) : RecordsNew L path fs w := by
  intro y hy
  obtain rfl := Option.some.inj (hnext.symm.trans hy)
  exact ⟨hfits, hslot⟩

/-- A file of two blocks is truncated to its table and takes the place of one that has another
path.  Then it is unlinked. -/
theorem accounted_of_keepsBlocks_renamed :
    Machine.Always (fsStep .raid5) FsState.Accounted (.mounted (.blank 3 2 4096 sysblocksize_pos 8))
      [.write "/a" (fun j => Byte.ofNat j) 8192 0 fun _ => 0, .truncate "/a" 24,
        .write "/b" (fun j => Byte.ofNat j) 4096 0 fun _ => 0, .link "/b" "/c", .rename "/a" "/b",
        .unlink "/b" (fun _ => 0) fun _ => 0] := by
  have hfits : ∀ {d b : ℕ}, d < 3 → b < 3 → FitsPair (d, b) := fun hd hb =>
    ⟨⟨by omega, by omega⟩, ⟨by omega, by omega⟩⟩
  refine accounted_of_keepsBlocks .raid5 _ ⟨⟨?_, fun _ => ⟨?_, fun _ => trivial⟩⟩,
    fun f hf i hi => ?_,
    ⟨?_, fun _ => trivial⟩, trivial, fun g hg _ => .inl ⟨"/c", by decide, ?_⟩,
    fun f hf => .inr fun i hi => ?_, trivial⟩
  · exact .of_next (x := (0, 0)) (by decide +kernel) (hfits (by decide) (by decide))
      (by decide +kernel)
  · exact .of_next (x := (1, 0)) (by decide +kernel) (hfits (by decide) (by decide))
      (by decide +kernel)
  · obtain rfl : f = 0 := Option.some.inj (hf.symm.trans (by decide +kernel))
    match i with
    | 0 => decide
    | 1 => decide
    | i + 2 => exact absurd rfl hi
  · exact .of_next (x := (0, 1)) (by decide +kernel) (hfits (by decide) (by decide))
      (by decide +kernel)
  · exact hg ▸ by decide +kernel
  · obtain rfl : f = 0 := Option.some.inj (hf.symm.trans (by decide +kernel))
    match i with
    | 0 => decide +kernel
    | 1 => decide +kernel
    | i + 2 =>
        have hcut : ¬ slotOffset (i + 2 + 1) ≤ 24 := by
          rw [slotOffset, sizeofBlockInfo]
          omega
        exact absurd (if_neg hcut) hi

/-- A disk of two blocks on RAID0. -/
def twoBlockDisk : FsState := .mounted (.blank 1 1 4096 sysblocksize_pos 2)

/-- A file of one block is cut to nothing.  Its block is neither mapped nor listed afterwards. -/
theorem truncate_loses_block : ¬ Machine.Always (fsStep .raid0) FsState.Accounted twoBlockDisk
    [.write "/a" (fun _ => 0) 4096 0 fun _ => 0, .truncate "/a" 0] := by
  rintro ⟨-, -, h⟩
  rcases h (0, 0) (by decide +kernel) with hmem | ⟨f, i, hmaps⟩
  · exact absurd hmem (by decide +kernel)
  · let fs := (ncfsWrite .raid0 twoBlockDisk "/a" (fun _ => 0) 4096 0 fun _ => 0).2
    obtain ⟨⟨⟨path, hpath⟩, -⟩, hcut⟩ :=
      FsState.truncate_maps.1 (show (ncfsTruncate fs "/a" 0).Maps f i (0, 0) from hmaps)
    -- there is only one file
    have htables : fs.Tables := (FsState.tables_mounted _).write .raid0 "/a" _ 4096 0 _
    have hf : f < 1 := (htables.names_lt path f hpath).trans_eq (by decide +kernel)
    obtain rfl := Nat.lt_one_iff.1 hf
    have hle := hcut (by decide +kernel)
    simp only [slotOffset, sizeofBlockInfo] at hle
    omega

end Ncfs
