/-
Which blocks `ncfs_unlink` frees.

It walks over the slots up to the size of the file and frees what it finds there, whether or not a
size has been recorded, whether or not a slot maps a block, and whether or not the file has another
path.

Main definitions:

* `Ncfs.FsOp.FreesOwn` — what is unlinked frees its own blocks, each once, and no block that another
  path leads to;
* `Ncfs.FsOp.Exclusive` — the condition for this.

Main results:

* `Ncfs.freesOwn_of_exclusive` — in a run of exclusive operations only own blocks are freed;
* `Ncfs.unlink_frees_others` — runs in which a block is freed that another path leads to, or that
  the file never had.
-/
import FuseMdr.BlockTables
import FuseMdr.Ownership

set_option relaxedAutoImplicit false
set_option autoImplicit false

namespace Ncfs

/-! ### The operations -/

/-- The blocks that an unlinked file frees are those in its table, each once, and no other path
leads to one of them. -/
def FsOp.FreesOwn (fs : FsState) : FsOp → Prop
  | .unlink path fileSize tempInfo => ∀ f, fs.names path = some f →
      (unlinkFrees fs.st.diskBlockSize (fs.info f) fileSize tempInfo).Nodup ∧
      ∀ x, (x ∈ unlinkFrees fs.st.diskBlockSize (fs.info f) fileSize tempInfo ↔
        ∃ i, fs.slots f i = some x) ∧
        (x ∈ unlinkFrees fs.st.diskBlockSize (fs.info f) fileSize tempInfo →
          ∀ other g i, other ≠ path → fs.names other = some g → fs.slots g i ≠ some x)
  | _ => True

/-- The blocks in use, as the coding layer counts them. -/
def FsState.served (fs : FsState) : Served := ⟨fs.st, fs.live⟩

/-- A call of `encode` that is served no block in use. -/
def RecordsOwned (L : CodingLayer) (fs : FsState) (w : BlockWrite) : Prop :=
  L.Safe fs.served (.encode w.buf w.size) ∧ ∀ x, L.next fs.st w.size = some x → FitsPair x

/-- The condition: the blocks of a write are not in use; and what is unlinked has a recorded size,
maps a block at exactly the slots below this size, and has no other path if it maps a block. -/
def FsOp.Exclusive (L : CodingLayer) (fs : FsState) : FsOp → Prop
  | .write path buf size offset mem => AllStores L (RecordsOwned L) fs path buf size offset mem
  | .unlink path _ _ => ∀ f, fs.names path = some f → sizeofInt ≤ (fs.info f).length ∧
      ∀ i, (fs.slots f i ≠ none ↔ i < recordedBlocks fs.st.diskBlockSize (fs.info f)) ∧
        (fs.slots f i ≠ none → fs.Sole path f)
  | _ => True

/-! ### One operation -/

/-- The invariant of these operations. -/
structure Owning (fs : FsState) : Prop where
  /-- The tables hold what has been recorded. -/
  tables : fs.Tables
  /-- The numbers in the tables can be read back. -/
  fits : ∀ f i x, fs.Maps f i x → FitsPair x
  /-- No block is owned twice. -/
  owned : Owned fs.served
  /-- What is mapped is in use. -/
  mem_live : ∀ f i x, fs.Maps f i x → x ∈ fs.live
  /-- No block is mapped twice. -/
  inj : ∀ f i g j x, fs.Maps f i x → fs.Maps g j x → f = g ∧ i = j

section Step

variable {L : CodingLayer} {fs : FsState} {path newpath : String}

theorem owning_mounted {st : NcfsState} (hlist : st.spaceList = []) : Owning (.mounted st) := by
  refine ⟨FsState.tables_mounted st, fun f i x h => ?_, owned_of_nil rfl hlist, fun f i x h => ?_,
    fun f i g j x h => ?_⟩
  · cases h.2
  · cases h.2
  · cases h.2

/-- An operation that adds nothing to the mapping and leaves the blocks in use. -/
theorem Owning.of_maps (h : Owning fs) {fs' : FsState} (htables : fs'.Tables)
    (hserved : fs'.served = fs.served) (hmaps : ∀ f i x, fs'.Maps f i x → fs.Maps f i x) :
    Owning fs' where
  tables := htables
  fits f i x hx := h.fits f i x (hmaps f i x hx)
  owned := hserved ▸ h.owned
  mem_live f i x hx := by
    have hlive : fs'.live = fs.live := congrArg Served.returned hserved
    rw [hlive]
    exact h.mem_live f i x (hmaps f i x hx)
  inj f i g j x hx hx' := h.inj f i g j x (hmaps f i x hx) (hmaps g j x hx')

theorem storeBlock_served (L : CodingLayer) (path : String) (fs : FsState) (w : BlockWrite) :
    (storeBlock L path fs w).2.served = storeStep L.encode fs.served (.encode w.buf w.size) := by
  have hcase := storeBlock_case L path fs w
  generalize storeBlock L path fs w = result at hcase ⊢
  cases hcase with
  | noRoom st hencode =>
      rw [storeStep, FsState.served, FsState.served, hencode]
      rfl
  | stored x st hencode =>
      rw [storeStep, FsState.served, FsState.served, hencode, FsState.recordBlock_st,
        (FsState.recordBlock_history ..).1]
      rfl

/-- A block that was not in use is recorded. -/
theorem Owning.storeBlock (h : Owning fs) {w : BlockWrite} (hnew : RecordsOwned L fs w) :
    Owning (storeBlock L path fs w).2 := by
  obtain ⟨hsafe, hfits⟩ := hnew
  obtain ⟨howned, hfree⟩ := CodingLayer.owned_step L h.owned hsafe
  have htables := h.tables.storeBlock L path w
  rw [← storeBlock_served L path fs w] at howned
  have hnext := L.encode_fst fs.st w.buf w.size
  have hcase := storeBlock_case L path fs w
  generalize Ncfs.storeBlock L path fs w = result at hcase htables howned ⊢
  cases hcase with
  | noRoom st hencode => exact ⟨htables, h.fits, howned, h.mem_live, h.inj⟩
  | stored x st hencode =>
      have hstore : FsState.Tables { fs with st := st } := ⟨h.tables.stored, h.tables.names_lt⟩
      obtain ⟨f, -, hmaps⟩ := hstore.recordBlock_maps path w x
      simp only [hencode] at hnext
      -- the new block is mapped by no other slot
      have hx : x ∉ fs.live := hfree x (by rw [FsState.served, hencode])
      have hnot : ∀ g i, ¬ fs.Maps g i x := fun g i hmaps => hx (h.mem_live g i x hmaps)
      refine ⟨htables, fun g i y hy => ?_, howned, fun g i y hy => ?_, fun g i g' i' y hy hy' => ?_⟩
      · rcases (hmaps g i y).1 hy with ⟨-, -, rfl⟩ | ⟨hy, -⟩
        · exact hfits y hnext.symm
        · exact h.fits g i y hy
      · dsimp only
        rw [(FsState.recordBlock_history ..).1]
        rcases (hmaps g i y).1 hy with ⟨-, -, rfl⟩ | ⟨hy, -⟩
        · exact List.mem_cons_self ..
        · exact List.mem_cons_of_mem x (h.mem_live g i y hy)
      · rcases (hmaps g i y).1 hy with ⟨rfl, rfl, rfl⟩ | ⟨hold, -⟩ <;>
          rcases (hmaps g' i' y).1 hy' with ⟨rfl, rfl, heq⟩ | ⟨hold', -⟩
        · exact ⟨rfl, rfl⟩
        · exact absurd hold' (hnot g' i')
        · exact absurd (heq ▸ hold) (hnot g i)
        · exact h.inj g i g' i' y hold hold'

theorem Owning.write (h : Owning fs) {buf : Buf} {size offset : ℕ} {mem : Buf}
    (hnew : AllStores L (RecordsOwned L) fs path buf size offset mem) :
    Owning (ncfsWrite L fs path buf size offset mem).2 :=
  ncfsWrite_inv (fun _ _ _ _ h => ⟨⟨h.tables.stored, h.tables.names_lt⟩, h.fits, h.owned,
    h.mem_live, h.inj⟩)
    (fun _ _ h hnew => h.storeBlock hnew) h hnew

/-- The blocks that are freed, by their slots. -/
theorem Owning.getElem?_unlinkFrees (h : Owning fs) {f : ℕ} (hf : fs.names path = some f)
    (hlength : sizeofInt ≤ (fs.info f).length)
    (hslots : ∀ i, fs.slots f i ≠ none ↔ i < recordedBlocks fs.st.diskBlockSize (fs.info f))
    (fileSize tempInfo : ℕ → UInt8) (i : ℕ) :
    (unlinkFrees fs.st.diskBlockSize (fs.info f) fileSize tempInfo)[i]? = fs.slots f i := by
  by_cases hi : i < recordedBlocks fs.st.diskBlockSize (fs.info f)
  · obtain ⟨x, hx⟩ := Option.ne_none_iff_exists'.1 ((hslots i).2 hi)
    rw [h.tables.getElem?_unlinkFrees hx (h.fits f i x ⟨⟨path, hf⟩, hx⟩) hi, hx]
  · have hnone : fs.slots f i = none := by_contra fun hne => hi ((hslots i).1 hne)
    rw [hnone, List.getElem?_eq_none_iff, unlinkFrees, length_unlinkLoop, fileBlockNum_eq hlength]
    omega

/-- An exclusive operation frees only own blocks. -/
theorem Owning.freesOwn (h : Owning fs) {op : FsOp} (hop : op.Exclusive L fs) : op.FreesOwn fs := by
  cases op with
  | unlink path fileSize tempInfo =>
      intro f hf
      obtain ⟨hlength, hslots⟩ := hop f hf
      have hfreed := h.getElem?_unlinkFrees hf hlength (fun i => (hslots i).1) fileSize tempInfo
      have hmem : ∀ x, x ∈ unlinkFrees fs.st.diskBlockSize (fs.info f) fileSize tempInfo ↔
          ∃ i, fs.slots f i = some x := by
        intro x
        simp only [List.mem_iff_getElem?, hfreed]
      refine ⟨?_, fun x => ⟨hmem x, fun hx other g j hother hg hj => ?_⟩⟩
      · rw [List.nodup_iff_getElem?_ne_getElem?]
        intro i j hij hj heq
        have hx := (hfreed j).symm.trans (List.getElem?_eq_getElem hj)
        rw [hfreed, hfreed, hx] at heq
        exact hij.ne (h.inj f i f j _ ⟨⟨path, hf⟩, heq⟩ ⟨⟨path, hf⟩, hx⟩).2
      · obtain ⟨i, hi⟩ := (hmem x).1 hx
        obtain ⟨rfl, -⟩ := h.inj f i g j x ⟨⟨path, hf⟩, hi⟩ ⟨⟨other, hg⟩, hj⟩
        have hsole := (hslots i).2 (by rw [hi]; exact Option.some_ne_none x)
        exact hother (hsole.2 other hg)
  | _ => trivial

theorem mem_foldl_erase {l freed : List (ℕ × ℕ)} {x : ℕ × ℕ} (hx : x ∈ l) (hne : x ∉ freed) :
    x ∈ freed.foldl List.erase l := by
  refine Loops.foldl_inv (fun l => x ∈ l) (fun l y hy hl => (List.mem_erase_of_ne ?_).2 hl) hx
  rintro rfl
  exact hne hy

theorem Owning.unlink (h : Owning fs) {fileSize tempInfo : ℕ → UInt8}
    (hop : (FsOp.unlink path fileSize tempInfo).Exclusive L fs) :
    Owning (ncfsUnlink fs path fileSize tempInfo) := by
  have htables := h.tables.unlink path fileSize tempInfo
  cases hf : fs.names path with
  | none =>
      have hsame : ncfsUnlink fs path fileSize tempInfo = fs := by rw [ncfsUnlink, hf]
      rwa [hsame]
  | some f =>
      obtain ⟨hnodup, hfreed⟩ := h.freesOwn hop f hf
      have hserved : ∃ freed, freed = unlinkFrees fs.st.diskBlockSize
          (fs.info f) fileSize tempInfo ∧
          (ncfsUnlink fs path fileSize tempInfo).served =
            ⟨{ fs.st with
                spaceList := freed.foldl (fun l x => spaceListAdd l x.1 x.2) fs.st.spaceList },
              freed.foldl List.erase fs.live⟩ := by
        refine ⟨_, rfl, ?_⟩
        rw [FsState.served, ncfsUnlink, hf]
      obtain ⟨freed, hdef, hserved⟩ := hserved
      rw [← hdef] at hnodup hfreed
      refine ⟨htables, fun g i x hx => h.fits g i x (FsState.maps_of_unlink hx).1, ?_,
        fun g i x hx => ?_, fun g i g' i' x hx hx' => h.inj g i g' i' x
          (FsState.maps_of_unlink hx).1 (FsState.maps_of_unlink hx').1⟩
      · rw [hserved]
        refine h.owned.freeAll hnodup fun x hx => ?_
        obtain ⟨i, hi⟩ := (hfreed x).1.1 hx
        exact h.mem_live f i x ⟨⟨path, hf⟩, hi⟩
      · obtain ⟨hx, other, hother, hg⟩ := FsState.maps_of_unlink hx
        rw [show (ncfsUnlink fs path fileSize tempInfo).live = _ from congrArg
          Served.returned hserved]
        exact mem_foldl_erase (h.mem_live g i x hx) fun hmem =>
          (hfreed x).2 hmem other g i hother hg hx.2

/-- An exclusive operation keeps the invariant. -/
theorem Owning.step (h : Owning fs) {op : FsOp} (hop : op.Exclusive L fs) :
    Owning (fsStep L fs op) := by
  cases op with
  | create path =>
      refine h.of_maps (h.tables.openCreate path) ?_ fun f i x => h.tables.openCreate_maps.1
      rw [fsStep, FsState.openCreate]
      split <;> rfl
  | write path buf size offset mem => exact h.write hop
  | unlink path fileSize tempInfo => exact h.unlink hop
  | truncate path newsize =>
      refine h.of_maps (h.tables.truncate path newsize) ?_ fun f i x hx =>
        (FsState.truncate_maps.1 hx).1
      rw [fsStep, ncfsTruncate]
      split <;> rfl
  | rename path newpath =>
      refine h.of_maps (h.tables.rename path newpath) ?_ fun f i x => FsState.maps_of_rename
      rw [fsStep, ncfsRename]
      split
      · rfl
      · split <;> rfl
  | link path newpath =>
      refine h.of_maps (h.tables.link path newpath) ?_ fun f i x => FsState.maps_of_link
      rw [fsStep, ncfsLink]
      split <;> rfl

end Step

/-! ### Runs -/

/-- **Own blocks.**  From a store without freed blocks, in a run of exclusive operations what is
unlinked frees exactly its own blocks, each once, and none that another path leads to. -/
theorem freesOwn_of_exclusive (L : CodingLayer) {st : NcfsState} (hlist : st.spaceList = [])
    {ops : List FsOp} (hops : Machine.AllSteps (fsStep L) (fun fs op => op.Exclusive L fs)
      (.mounted st) ops) :
    Machine.AllSteps (fsStep L) (fun fs op => op.FreesOwn fs) (.mounted st) ops :=
  hops.imp (I := Owning) (fun _ _ h hop => h.step hop) (fun _ _ h hop => h.freesOwn hop)
    (owning_mounted hlist)

/-- The block that `next` chooses is known. -/
theorem RecordsOwned.of_next {L : CodingLayer} {fs : FsState} {w : BlockWrite} {x : ℕ × ℕ}
    (hreq : 1 ≤ blockRequest fs.st w.size)
    (hselect : (L.select (L.skip fs.st) (blockRequest fs.st w.size)).isSome = true)
    (hnext : L.next fs.st w.size = some x) (hfits : FitsPair x) : RecordsOwned L fs w := by
  refine ⟨⟨hreq, fun hnone => ?_⟩, fun y hy => ?_⟩
  · have hnone : L.select (L.skip fs.st) (blockRequest fs.st w.size) = none := hnone
    rw [hnone] at hselect
    cases hselect
  · obtain rfl := Option.some.inj (hnext.symm.trans hy)
    exact hfits

/-- A link makes at most its new path. -/
theorem ncfsLink_names_of_ne (fs : FsState) (path : String) {newpath other : String}
    (hne : other ≠ newpath) : (ncfsLink fs path newpath).names other = fs.names other := by
  unfold ncfsLink
  split
  · exact Function.update_of_ne hne ..
  · rfl

/-- Two files, of which the second has a second path. -/
def linkedOps : List FsOp :=
  [.write "/a" (fun j => Byte.ofNat j) 7 0 fun _ => 0,
    .write "/b" (fun j => Byte.ofNat j) 4 0 fun _ => 0, .link "/b" "/c"]

/-- The file with a single path is unlinked. -/
theorem freesOwn_of_exclusive_linked :
    Machine.AllSteps (fsStep .raid5) (fun fs op => op.FreesOwn fs)
      (.mounted (.blank 3 2 4 fourBytes_pos 8))
      (linkedOps ++ [.unlink "/a" (fun _ => 0) fun _ => 0]) := by
  have hfits : ∀ {d b : ℕ}, d < 3 → b < 3 → FitsPair (d, b) := fun hd hb =>
    ⟨⟨by omega, by omega⟩, ⟨by omega, by omega⟩⟩
  refine freesOwn_of_exclusive .raid5 rfl ⟨⟨?_, fun _ => ⟨?_, fun _ => trivial⟩⟩,
    ⟨?_, fun _ => trivial⟩, trivial, fun f hf => ?_, trivial⟩
  · exact .of_next (by decide +kernel) (by decide +kernel)
      (show _ = some (0, 0) by decide +kernel) (hfits (by decide) (by decide))
  · exact .of_next (by decide +kernel) (by decide +kernel)
      (show _ = some (1, 0) by decide +kernel) (hfits (by decide) (by decide))
  · exact .of_next (by decide +kernel) (by decide +kernel)
      (show _ = some (0, 1) by decide +kernel) (hfits (by decide) (by decide))
  · obtain rfl : f = 0 := Option.some.inj (hf.symm.trans (by decide +kernel))
    refine ⟨by decide +kernel, fun i => ⟨?_, fun _ => ⟨hf, fun other hother => ?_⟩⟩⟩
    · match i with
      | 0 => exact iff_of_true (by decide +kernel) (by decide +kernel)
      | 1 => exact iff_of_true (by decide +kernel) (by decide +kernel)
      | i + 2 =>
          refine iff_of_false (fun h => h rfl) ?_
          have htwo : recordedBlocks 4 ((Machine.run (fsStep .raid5)
            (.mounted (.blank 3 2 4 fourBytes_pos 8)) linkedOps).info 0) = 2 := by decide +kernel
          exact fun hi => absurd (hi.trans_eq htwo) (by omega)
    · by_contra hne
      by_cases hc : other = "/c"
      · subst hc
        exact absurd hother (by decide +kernel)
      by_cases hb : other = "/b"
      · subst hb
        exact absurd hother (by decide +kernel)
      have hlink : ∀ fs, (fsStep .raid5 fs (.link "/b" "/c")).names other = fs.names other :=
        fun fs => ncfsLink_names_of_ne fs "/b" hc
      have hwrite : ∀ fs path buf size offset mem, other ≠ path →
          (fsStep .raid5 fs (.write path buf size offset mem)).names other = fs.names other :=
        fun fs _ buf size offset mem hne => ncfsWrite_names_of_ne .raid5 fs buf size offset mem hne
      rw [hlink, hwrite _ _ _ _ _ _ hb, hwrite _ _ _ _ _ _ hne] at hother
      cases hother

/-- What is unlinked shares its block with another path, has a slot in front of its block that maps
nothing, or is empty.  In each case block `0` of the disk is freed while a file maps it. -/
theorem unlink_frees_others :
    let disk : FsState := .mounted (.blank 1 1 4096 sysblocksize_pos 2)
    let write (path : String) (offset : ℕ) : FsOp := .write path (fun _ => 0) 4096 offset fun _ => 0
    let unlink : FsOp := .unlink "/a" (fun j => if j = 0 then 1 else 0) fun _ => 0
    let OwnOnly := Machine.AllSteps (fsStep .raid0) (fun fs op => op.FreesOwn fs) disk
    ¬ OwnOnly [write "/a" 0, .link "/a" "/b", unlink] ∧ ¬ OwnOnly
    [write "/b" 0, write "/a" 4096, unlink] ∧
      ¬ OwnOnly [write "/b" 0, .create "/a", unlink] := by
  refine ⟨?_, ?_, ?_⟩
  · rintro ⟨-, -, h, -⟩
    exact ((h 0 (by decide +kernel)).2 (0, 0)).2 (by decide +kernel) "/b" 0 0 (by decide)
      (by decide +kernel) (by decide +kernel)
  · rintro ⟨-, -, h, -⟩
    exact ((h 1 (by decide +kernel)).2 (0, 0)).2 (by decide +kernel) "/b" 0 0 (by decide)
      (by decide +kernel) (by decide +kernel)
  · rintro ⟨-, -, h, -⟩
    exact ((h 1 (by decide +kernel)).2 (0, 0)).2 (by decide +kernel) "/b" 0 0 (by decide)
      (by decide +kernel) (by decide +kernel)

end Ncfs
