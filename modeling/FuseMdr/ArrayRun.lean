/-
Runs of an array encoder.

An encoder of the family is a code with the `Q` blocks that it updates for each data block.  This
module follows the equations of the code through runs of `encode` calls, and through runs that also
free blocks, so that a block may be written again.

Main definitions:

* `Ncfs.ArrayEncoder`, `Ncfs.ArrayEncoder.Exact` — an encoder, and the property that it updates the
  `Q` blocks that its code makes depend on a data block;
* `Ncfs.CleanStep` — the block that is served holds no old data.

Main results:

* `Ncfs.ArrayEncoder.storeParity_step_iff` — when one write keeps the equations;
* `Ncfs.ArrayEncoder.run_storeParity` — writes to unused blocks keep the equations;
* `Ncfs.ArrayEncoder.Exact.always_storeParity_iff` — in a run with frees, the equations hold
  throughout exactly when every write is served a block without old data.
-/
import FuseMdr.ArrayEncode
import FuseMdr.GfTables
import FuseMdr.Machine
import FuseMdr.StoreOps

set_option relaxedAutoImplicit false
set_option autoImplicit false

namespace Ncfs

/-! ### Encoders -/

/-- What distinguishes the encoders of the family: the `Q` blocks that a data block changes, and the
lengths of the copies. -/
structure ArrayEncoder (C : Strip.Code) where
  /-- The `Q` blocks to update for a disk and a row. -/
  findQBlocksId : ℕ → ℕ → List ℕ
  /-- They are blocks of the strip. -/
  find_lt : ∀ d < C.dataDisks, ∀ r < C.rows, ∀ i ∈ findQBlocksId d r, i < C.rows
  /-- The length of the loops that add the bytes. -/
  xorSize : NcfsState → ℕ → ℕ
  /-- The length of the writes of `Q` blocks. -/
  qSize : NcfsState → ℕ → ℕ
  /-- These lengths suit a write of at most one block. -/
  sizes : ∀ (st : NcfsState) (size : ℕ), size ≤ st.diskBlockSize →
    CopySizes st size (xorSize st size) (qSize st size)
  /-- A strip is not empty. -/
  rows_pos : 0 < C.rows

namespace ArrayEncoder

variable {C : Strip.Code}

/-- The encoder's `encode`. -/
def encode (E : ArrayEncoder C) (st : NcfsState) (buf : Buf) (size : ℕ) :
    Option (ℕ × ℕ) × NcfsState :=
  arrayEncode C.rows E.findQBlocksId (E.xorSize st size) (E.qSize st size) st buf size

/-- A function that is the encoder's `encode` on states with the disks of the code. -/
def Implements (E : ArrayEncoder C) (bs : ℕ)
    (enc : NcfsState → Buf → ℕ → Option (ℕ × ℕ) × NcfsState) : Prop :=
  ∀ st buf size, st.Shaped C.dataDisks bs → enc st buf size = E.encode st buf size

/-- The `Q` blocks that depend on a data block oddly often, in its own cell or through the `P` cell
of its row, are those that are updated oddly often. -/
def Exact (E : ArrayEncoder C) : Prop :=
  ∀ d < C.dataDisks, ∀ r < C.rows, ∀ i < C.rows,
    Even ((E.findQBlocksId d r).count i + (C.named i).count (d, r) +
      (C.named i).count (C.dataDisks, r))

variable {E : ArrayEncoder C} {bs : ℕ} {st : NcfsState}
variable {enc : NcfsState → Buf → ℕ → Option (ℕ × ℕ) × NcfsState}

theorem encode_shaped (henc : E.Implements bs enc) (h : st.Shaped C.dataDisks bs) (buf : Buf)
    (size : ℕ) : (enc st buf size).2.Shaped C.dataDisks bs := by
  rw [henc st buf size h]
  exact arrayEncode_shaped h buf

theorem encode_fst (henc : E.Implements bs enc) (h : st.Shaped C.dataDisks bs) (buf : Buf)
    (size : ℕ) : (enc st buf size).1 = arrayPick st (blockRequest st size) := by
  rw [henc st buf size h, encode]
  cases hpick : arrayPick st (blockRequest st size) with
  | none => exact (arrayEncode_none h buf hpick).1
  | some x => rw [arrayEncode_some buf hpick]

theorem encode_unused (henc : E.Implements bs enc) (h : st.Shaped C.dataDisks bs)
    (hun : Unused st C.dataDisks) (buf : Buf) {size : ℕ} (hsize : size ≤ bs) :
    Unused (enc st buf size).2 C.dataDisks := by
  rw [henc st buf size h]
  exact arrayEncode_unused h hun (E.sizes st size (by rwa [h.block_eq])) buf

/-- When one write keeps the equations: the overwritten bytes are zero, and so are the new ones
wherever the encoder updates the wrong number of `Q` blocks. -/
theorem storeParity_step_iff (henc : E.Implements bs enc) (h : st.Shaped C.dataDisks bs)
    (hlist : ∀ x ∈ st.spaceList, x.1 < C.dataDisks) (hparity : StoreParity C st) (buf : Buf)
    {size : ℕ} (hsize : size ≤ bs) :
    StoreParity C (enc st buf size).2 ↔
      ∀ d b, arrayPick st (blockRequest st size) = some (d, b) → ∀ o < size,
        st.block d b o = 0 ∧ ∀ i < C.rows,
          Odd ((E.findQBlocksId d (b % C.rows)).count i + (C.named i).count (d, b % C.rows) +
            (C.named i).count (C.dataDisks, b % C.rows)) → buf o = 0 := by
  rw [henc st buf size h, encode]
  cases hpick : arrayPick st (blockRequest st size) with
  | none =>
      have hnone : (E.encode st buf size).1 = none ∧
          (E.encode st buf size).2.Shaped C.dataDisks bs ∧
          (E.encode st buf size).2.disk = st.disk := arrayEncode_none h buf hpick
      obtain ⟨-, hshape, hdisk⟩ := hnone
      constructor
      · intro _ d b hdb
        cases hdb
      · intro _
        exact hparity.of_disk_eq (hshape.block_eq.trans h.block_eq.symm) hdisk
  | some x =>
      obtain ⟨d, b⟩ := x
      have hd : d < C.dataDisks := by
        have := arrayPick_lt (fun x hx => by rw [h.total_eq]; exact hlist x hx) hpick
        rwa [h.total_eq] at this
      rw [arrayEncode_storeParity_iff h (E.sizes st size (by rwa [h.block_eq])) buf E.rows_pos hd
        (E.find_lt d hd _ (Nat.mod_lt _ E.rows_pos)) hpick hparity]
      constructor
      · intro hclean d' b' hdb
        obtain ⟨rfl, rfl⟩ := Prod.mk.inj (Option.some.inj hdb)
        exact hclean
      · intro hclean
        exact hclean d b rfl

/-- For an exact encoder only the overwritten bytes matter. -/
theorem Exact.storeParity_step_iff (hexact : E.Exact) (henc : E.Implements bs enc)
    (h : st.Shaped C.dataDisks bs) (hlist : ∀ x ∈ st.spaceList, x.1 < C.dataDisks)
    (hparity : StoreParity C st) (buf : Buf) {size : ℕ} (hsize : size ≤ bs) :
    StoreParity C (enc st buf size).2 ↔
      ∀ d b, arrayPick st (blockRequest st size) = some (d, b) → ∀ o < size,
      st.block d b o = 0 := by
  rw [ArrayEncoder.storeParity_step_iff henc h hlist hparity buf hsize]
  constructor
  · intro hclean d b hpick o ho
    exact (hclean d b hpick o ho).1
  · intro hclean d b hpick o ho
    refine ⟨hclean d b hpick o ho, fun i hi hodd => ?_⟩
    have hd : d < C.dataDisks := by
      have := arrayPick_lt (fun x hx => by rw [h.total_eq]; exact hlist x hx) hpick
      rwa [h.total_eq] at this
    have heven := hexact d hd (b % C.rows) (Nat.mod_lt _ E.rows_pos) i hi
    exact absurd hodd (Nat.not_odd_iff_even.2 heven)

end ArrayEncoder

/-! ### Runs of writes -/

/-- A write of a run: the bytes and their number. -/
abbrev Call := Buf × ℕ

/-- The state after a call of `encode`. -/
def encodeStep (enc : NcfsState → Buf → ℕ → Option (ℕ × ℕ) × NcfsState) (st : NcfsState)
    (call : Call) : NcfsState :=
  (enc st call.1 call.2).2

/-- A store as it is first mounted for a code: zero disks, and no freed blocks. -/
structure Blank (st : NcfsState) (k bs : ℕ) : Prop where
  /-- The disks of the code. -/
  shaped : st.Shaped k bs
  /-- No block has been freed. -/
  list_eq : st.spaceList = []
  /-- All disks are zero. -/
  zero : ∀ d ≤ k + 1, ∀ x, st.disk d x = 0

theorem Blank.unused {st : NcfsState} {k bs : ℕ} (h : Blank st k bs) : Unused st k :=
  ⟨h.list_eq, fun d hd _ _ _ _ => h.zero d (by omega) _⟩

theorem Blank.storeParity {C : Strip.Code} {st : NcfsState} {bs : ℕ}
    (h : Blank st C.dataDisks bs) : StoreParity C st := by
  intro g o _
  have hcell : ∀ j ≤ C.dataDisks + 1, ∀ t, stripCells st C.rows g o (j, t) = 0 := fun j hj t =>
    h.zero j hj _
  refine ⟨fun r hr => ?_, fun i hi => ?_⟩
  · rw [hcell _ (by omega)]
    refine (Finset.sum_eq_zero fun j hj => hcell j ?_ r).symm
    have := Finset.mem_range.1 hj
    omega
  · rw [hcell _ le_rfl]
    refine (List.sum_eq_zero fun y hy => ?_).symm
    obtain ⟨x, hx, rfl⟩ := List.mem_map.1 hy
    have := (C.named_mem i hi x hx).1
    exact hcell x.1 (by omega) x.2

namespace ArrayEncoder

variable {C : Strip.Code} {E : ArrayEncoder C} {bs : ℕ} {st : NcfsState}
variable {enc : NcfsState → Buf → ℕ → Option (ℕ × ℕ) × NcfsState}

/-- Writes of an exact encoder to unused blocks keep the equations of its code. -/
theorem run_storeParity (hexact : E.Exact) (henc : E.Implements bs enc)
    (hblank : Blank st C.dataDisks bs) {calls : List Call} (hsize : ∀ call ∈ calls, call.2 ≤ bs) :
    (Machine.run (encodeStep enc) st calls).Shaped C.dataDisks bs ∧
      StoreParity C (Machine.run (encodeStep enc) st calls) := by
  let I : NcfsState → Prop := fun st =>
    st.Shaped C.dataDisks bs ∧ Unused st C.dataDisks ∧ StoreParity C st
  have hstep : ∀ st (call : Call), call.2 ≤ bs → I st → I (encodeStep enc st call) := by
    rintro st call hcall ⟨hshape, hun, hparity⟩
    refine ⟨encode_shaped henc hshape call.1 call.2, encode_unused henc hshape hun call.1 hcall,
      (hexact.storeParity_step_iff henc hshape (by simp [hun.list_eq]) hparity call.1 hcall).2 ?_⟩
    intro d b hpick o ho
    exact hun.pick_zero hshape hpick (by rw [hshape.block_eq]; omega)
  have hrun : I (Machine.run (encodeStep enc) st calls) :=
    Machine.run_induct hstep ⟨hblank.shaped, hblank.unused, hblank.storeParity⟩ hsize
  exact ⟨hrun.1, hrun.2.2⟩

end ArrayEncoder

/-! ### The rows of any encoder -/

namespace ArrayEncoder

variable {C : Strip.Code} (E : ArrayEncoder C) {bs : ℕ} {st : NcfsState}
variable {enc : NcfsState → Buf → ℕ → Option (ℕ × ℕ) × NcfsState}

/-- The data cells whose changes are added to `Q` block `i`. -/
def followed (i : ℕ) : List (ℕ × ℕ) :=
  (List.range C.dataDisks).flatMap fun d => (List.range C.rows).flatMap fun r =>
    List.replicate ((E.findQBlocksId d r).count i) (d, r)

theorem mem_followed {i : ℕ} {x : ℕ × ℕ} (h : x ∈ E.followed i) :
    x.1 < C.dataDisks ∧ x.2 < C.rows := by
  obtain ⟨d, hd, h⟩ := List.mem_flatMap.1 h
  obtain ⟨r, hr, h⟩ := List.mem_flatMap.1 h
  obtain rfl := List.eq_of_mem_replicate h
  exact ⟨List.mem_range.1 hd, List.mem_range.1 hr⟩

theorem count_followed {i d r : ℕ} (hd : d < C.dataDisks) (hr : r < C.rows) :
    (E.followed i).count (d, r) = (E.findQBlocksId d r).count i := by
  have hcell : ∀ d' r' : ℕ,
      (List.replicate ((E.findQBlocksId d' r').count i) (d', r')).count (d, r) = if d' = d then
        (if r' = r then (E.findQBlocksId d r).count i else 0) else 0 := by
    intro d' r'
    rw [List.count_replicate]
    by_cases hd' : d' = d
    · by_cases hr' : r' = r
      · simp [hd', hr']
      · simp [hr']
    · simp [hd']
  have hrow : ∀ d' ∈ Finset.range C.dataDisks,
      ((List.range C.rows).flatMap fun r' =>
        List.replicate ((E.findQBlocksId d' r').count i) (d', r')).count (d, r) =
      if d' = d then (E.findQBlocksId d r).count i else 0 := by
    intro d' _
    rw [List.count_flatMap, Function.comp_def, Xor.sum_map_range,
      Finset.sum_congr rfl fun r' _ => hcell d' r']
    by_cases hd' : d' = d
    · simp only [if_pos hd']
      rw [Finset.sum_ite_eq', if_pos (Finset.mem_range.2 hr)]
    · simp only [if_neg hd']
      exact Finset.sum_const_zero
  rw [followed, List.count_flatMap, Function.comp_def, Xor.sum_map_range, Finset.sum_congr rfl hrow,
    Finset.sum_ite_eq', if_pos (Finset.mem_range.2 hd)]

/-- The code that the encoder keeps, whatever its `Q` blocks are meant to be. -/
def followedCode : Strip.Code where
  dataDisks := C.dataDisks
  rows := C.rows
  named := E.followed
  named_mem _ _ _ hx := ⟨(E.mem_followed hx).1.le, (E.mem_followed hx).2⟩

/-- The encoder as one of that code. -/
def followedEncoder : ArrayEncoder E.followedCode where
  findQBlocksId := E.findQBlocksId
  find_lt := E.find_lt
  xorSize := E.xorSize
  qSize := E.qSize
  sizes := E.sizes
  rows_pos := E.rows_pos

theorem followedEncoder_exact : E.followedEncoder.Exact := by
  intro d hd r hr i _
  have hcount : (E.followed i).count (d, r) = (E.findQBlocksId d r).count i :=
    E.count_followed hd hr
  have hp : (E.followed i).count (C.dataDisks, r) = 0 :=
    List.count_eq_zero.2 fun hmem => lt_irrefl _ (E.mem_followed hmem).1
  change Even ((E.findQBlocksId d r).count i + (E.followed i).count (d, r) + (E.followed i).count
    (C.dataDisks, r))
  rw [hcount, hp, Nat.add_zero]
  exact ⟨_, rfl⟩

variable {E}

/-- Writes to unused blocks keep the sums of the rows, whatever they do to the `Q` blocks. -/
theorem run_rowParity (henc : E.Implements bs enc) (hblank : Blank st C.dataDisks bs)
    {calls : List Call} (hsize : ∀ call ∈ calls, call.2 ≤ bs) :
    let st' := Machine.run (encodeStep enc) st calls
    ∀ b, ∀ o < bs, st'.block C.dataDisks b o = ∑ j ∈ Finset.range C.dataDisks, st'.block j b o := by
  intro st' b o ho
  have hrun : st'.Shaped C.dataDisks bs ∧ StoreParity E.followedCode st' :=
    run_storeParity E.followedEncoder_exact (fun st buf size h => henc st buf size h) hblank hsize
  have hrow := (hrun.2 (b / C.rows) o (by rwa [hrun.1.block_eq])).p (b % C.rows)
    (Nat.mod_lt _ E.rows_pos)
  simp only [stripCells] at hrow
  change st'.block C.dataDisks (b / C.rows * C.rows + b % C.rows) o =
    ∑ j ∈ Finset.range C.dataDisks, st'.block j (b / C.rows * C.rows + b % C.rows) o at hrow
  rwa [Nat.div_add_mod'] at hrow

end ArrayEncoder

/-! ### Runs with frees -/

/-- The block that the state serves to a write holds zero where it is overwritten. -/
def CleanStep (s : Served) : StoreOp → Prop
  | .encode _ size => ∀ d b, arrayPick s.st (blockRequest s.st size) = some (d, b) →
      ∀ o < size, s.st.block d b o = 0
  | .free _ _ => True

/-- The disks of a code, with all blocks in use or freed on data disks. -/
structure Served.Valid (s : Served) (k bs : ℕ) : Prop where
  /-- The disks of the code. -/
  shaped : s.st.Shaped k bs
  /-- Freed blocks are data blocks. -/
  list_lt : ∀ x ∈ s.st.spaceList, x.1 < k
  /-- Blocks in use are data blocks. -/
  returned_lt : ∀ x ∈ s.returned, x.1 < k

namespace ArrayEncoder

variable {C : Strip.Code} {E : ArrayEncoder C} {bs : ℕ} {s : Served}
variable {enc : NcfsState → Buf → ℕ → Option (ℕ × ℕ) × NcfsState}

/-- An operation keeps the disks, and the blocks in use and on the space list data blocks. -/
theorem storeStep_valid (henc : E.Implements bs enc) (h : s.Valid C.dataDisks bs) (op : StoreOp) :
    (storeStep enc s op).Valid C.dataDisks bs := by
  cases op with
  | encode buf size =>
      rw [storeStep]
      refine ⟨?_, fun x hx => ?_, fun x hx => ?_⟩
      · rw [Served.serve_st]
        exact encode_shaped henc h.shaped buf size
      · rw [Served.serve_st, henc s.st buf size h.shaped] at hx
        exact h.list_lt x (arrayEncode_spaceList hx)
      · rcases Served.mem_returned_serve.1 hx with hx | hx
        · rw [encode_fst henc h.shaped] at hx
          have := arrayPick_lt (d := x.1) (b := x.2)
            (fun x hx => by rw [h.shaped.total_eq]; exact h.list_lt x hx) hx
          rwa [h.shaped.total_eq] at this
        · exact h.returned_lt x hx
  | free diskId blockNo =>
      have hmem : ∀ x, x ∈ s.returned ∨ x ∈ s.st.spaceList → x.1 < C.dataDisks := by
        rintro x (hx | hx)
        · exact h.returned_lt x hx
        · exact h.list_lt x hx
      obtain ⟨l, hl⟩ := s.free_st diskId blockNo
      obtain ⟨h₁, h₂, h₃⟩ := h.shaped
      refine ⟨?_, fun x hx => hmem x (Served.mem_of_free (.inr hx)), fun x hx =>
        hmem x (Served.mem_of_free (.inl hx))⟩
      rw [storeStep, hl]
      exact ⟨h₁, h₂, h₃⟩

/-- When one operation keeps the equations: the block it is served holds no old data. -/
theorem Exact.storeParity_storeStep_iff (hexact : E.Exact) (henc : E.Implements bs enc)
    (h : s.Valid C.dataDisks bs) {op : StoreOp} (hop : op.Small bs)
    (hparity : StoreParity C s.st) :
    StoreParity C (storeStep enc s op).st ↔ CleanStep s op := by
  cases op with
  | encode buf size =>
      rw [storeStep, Served.serve_st]
      exact hexact.storeParity_step_iff henc h.shaped h.list_lt hparity buf hop
  | free diskId blockNo =>
      refine iff_of_true ?_ trivial
      obtain ⟨l, hl⟩ := s.free_st diskId blockNo
      rw [storeStep, hl]
      exact hparity.of_disk_eq rfl rfl

/-- In a run of writes and frees, the equations hold throughout exactly when every write is served a
block that holds no old data. -/
theorem Exact.always_storeParity_iff (hexact : E.Exact) (henc : E.Implements bs enc)
    (hs : s.Valid C.dataDisks bs) (hparity : StoreParity C s.st) {ops : List StoreOp}
    (hops : ∀ op ∈ ops, op.Small bs) :
    Machine.Always (storeStep enc) (fun s => StoreParity C s.st) s ops ↔
      Machine.AllSteps (storeStep enc) CleanStep s ops :=
  Machine.always_iff_allSteps (I := fun s : Served => s.Valid C.dataDisks bs)
    (fun _ op _ hs => storeStep_valid henc hs op)
    (fun _ _ hop hs hp => hexact.storeParity_storeStep_iff henc hs hop hp) hs hparity hops

end ArrayEncoder

end Ncfs
