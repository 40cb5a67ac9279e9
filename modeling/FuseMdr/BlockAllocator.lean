/-
The choice of a block, as all encoders of the row codes make it.

Each disk has a free offset.  `encode` first moves every disk that stands on a block which may not
hold data over that block, then takes the disk with the smallest free offset, and when no disk has
room the first block of the space list.

Main definitions:

* `Ncfs.skipBlocks` — the loop that moves each disk over one block;
* `Ncfs.takeBlock` — the block that was selected, or the first of the space list, charged to its
  disk;
* `Ncfs.encodeWith` — an encoder that takes a block and writes to the devices;
* `Ncfs.Keeps` — what such an encoder does that keeps a property of the devices;
* `Ncfs.Fresh` — a store whose blocks have been handed out in order and never freed.

Main results:

* `Ncfs.skipBlocks_eq` — what the loop leaves;
* `Ncfs.takeBlock_cases` — what may be taken;
* `Ncfs.Keeps.run` — what is kept in runs of writes and frees;
* `Ncfs.Fresh.step` — one choice on a fresh store.
-/
import FuseMdr.Frontier
import FuseMdr.Machine
import FuseMdr.StoreOps

set_option relaxedAutoImplicit false
set_option autoImplicit false

namespace Ncfs

/-! ### The steps of the choice -/

/-- The loop over all disks that moves each disk on a block where it may not hold data over that
block. -/
def skipBlocks (st : NcfsState) (bad : ℕ → ℕ → Prop) [∀ i b, Decidable (bad i b)] : NcfsState :=
  (List.range st.diskTotalNum).foldl (fun st i =>
    if bad i (st.freeOffset i) then chargeDisk st i (st.freeOffset i) 1 else st) st

/-- The block that was selected, or else the first block of the space list. -/
def pickBlock (st : NcfsState) : Option (ℕ × ℕ) → Option (ℕ × ℕ) × NcfsState
  | some (diskId, blockNo) => (some (diskId, blockNo), st)
  | none =>
      match st.spaceList with
      | [] => (none, st)
      | (diskId, blockNo) :: _ =>
          (some (diskId, blockNo),
            { st with spaceList := spaceListRemove st.spaceList diskId blockNo })

/-- The block for a request, charged to its disk, `none` standing for disk `-1`. -/
def takeBlock (st : NcfsState) (selected : Option (ℕ × ℕ)) (blockRequest : ℕ) :
    Option (ℕ × ℕ) × NcfsState :=
  match pickBlock st selected with
  | (none, st) => (none, st)
  | (some (diskId, blockNo), st) =>
      (some (diskId, blockNo), chargeDisk st diskId blockNo blockRequest)

/-- A call of an encoder from the block it took: `write` does all that is done to the devices. -/
def writeTaken (taken : Option (ℕ × ℕ) × NcfsState) (write : NcfsState → ℕ → ℕ → NcfsState) :
    Option (ℕ × ℕ) × NcfsState :=
  match taken with
  | (none, st) => (none, st)
  | (some (diskId, blockNo), st) => (some (diskId, blockNo), write st diskId blockNo)

/-! ### What they leave -/

section Steps

variable (st : NcfsState)

/-- The loop moves the free offset and the free size of the disks in question by one. -/
theorem skipBlocks_eq (bad : ℕ → ℕ → Prop) [∀ i b, Decidable (bad i b)] :
    skipBlocks st bad =
      { st with
        freeOffset := Frontier.skip st.diskTotalNum (fun i b => ¬ bad i b) st.freeOffset
        freeSize := fun i =>
          if i < st.diskTotalNum ∧ bad i (st.freeOffset i) then st.freeSize i - 1
          else st.freeSize i } := by
  have hfold : ∀ n, (List.range n).foldl (fun st i =>
      if bad i (st.freeOffset i) then chargeDisk st i (st.freeOffset i) 1 else st) st =
      { st with
        freeOffset := Frontier.skip n (fun i b => ¬ bad i b) st.freeOffset
        freeSize := fun i =>
          if i < n ∧ bad i (st.freeOffset i) then st.freeSize i - 1 else st.freeSize i } := by
    intro n
    induction n with
    | zero =>
        have hskip : Frontier.skip 0 (fun i b => ¬ bad i b) st.freeOffset = st.freeOffset :=
          funext fun i => if_neg fun h => Nat.not_lt_zero i h.1
        rw [hskip]
        simp
    | succ n ih =>
        have hn : Frontier.skip n (fun i b => ¬ bad i b) st.freeOffset n = st.freeOffset n :=
          if_neg fun h => lt_irrefl n h.1
        rw [List.range_succ, List.foldl_append, List.foldl_cons, List.foldl_nil, ih]
        simp only [hn]
        by_cases hbad : bad n (st.freeOffset n)
        · rw [if_pos hbad, chargeDisk]
          congr 1
          · funext i
            simp only [Function.update_apply, Frontier.skip]
            grind
          · funext i
            simp only [Function.update_apply]
            grind
        · rw [if_neg hbad]
          congr 1
          · funext i
            simp only [Frontier.skip]
            grind
          · funext i
            grind
  exact hfold _

/-- Selecting a disk is a scan for the smallest free offset. -/
theorem selectDisk_eq_scan (disks req : ℕ) :
    selectDisk st disks req =
      Frontier.scan (fun i => (req : ℤ) ≤ st.freeSize i) st.freeOffset disks := rfl

/-- What is taken is the selected block or a block of the space list; only the bookkeeping
changes. -/
theorem takeBlock_cases (selected : Option (ℕ × ℕ)) (req : ℕ) :
    (takeBlock st selected req = (none, st) ∧ selected = none ∧ st.spaceList = []) ∨
      ∃ d b l, (selected = some (d, b) ∨ (d, b) ∈ st.spaceList) ∧ (∀ x ∈ l, x ∈ st.spaceList) ∧
        takeBlock st selected req = (some (d, b),
          chargeDisk { st with spaceList := l } d b req) := by
  cases selected with
  | some x => exact .inr ⟨x.1, x.2, st.spaceList, .inl rfl, fun _ h => h, rfl⟩
  | none =>
      cases hl : st.spaceList with
      | nil =>
          refine .inl ⟨?_, rfl, rfl⟩
          simp only [takeBlock, pickBlock, hl]
      | cons x l =>
          refine .inr ⟨x.1, x.2, spaceListRemove (x :: l) x.1 x.2, .inr (List.mem_cons_self ..),
            fun _ h => mem_of_mem_spaceListRemove h, ?_⟩
          simp only [takeBlock, pickBlock, hl]

/-- Taking a block leaves the devices as they are. -/
theorem takeBlock_same {st' : NcfsState} (h : SameDevices st st') (selected : Option (ℕ × ℕ))
    (req : ℕ) :
    SameDevices st (takeBlock st' selected req).2 := by
  rcases takeBlock_cases st' selected req with ⟨heq, -, -⟩ | ⟨d, b, l, -, -, heq⟩
  · rw [heq]
    exact h
  · rw [heq]
    exact ⟨h.total_eq, h.block_eq, h.status_eq, h.disk_eq⟩

/-- When only the devices are written, the rest is what the choice left. -/
theorem writeTaken_eq {write : NcfsState → ℕ → ℕ → NcfsState}
    (hwrite : ∀ st d b, write st d b = { st with disk := (write st d b).disk })
    (taken : Option (ℕ × ℕ) × NcfsState) :
    ∃ disk, writeTaken taken write = (taken.1, { taken.2 with disk := disk }) := by
  obtain ⟨x, st⟩ := taken
  cases x with
  | none => exact ⟨st.disk, rfl⟩
  | some x => exact ⟨(write st x.1 x.2).disk, congrArg (Prod.mk (some x)) (hwrite st x.1 x.2)⟩

end Steps

/-! ### What an encoder keeps -/

/-- What taking a block from a state makes of it: the bookkeeping changes, the space list is not
extended, and the block is at one of the places for data. -/
structure Allocated (place : ℕ → ℕ → Prop) (st : NcfsState) (taken : Option (ℕ × ℕ) × NcfsState) :
    Prop where
  /-- The devices are those before. -/
  same : SameDevices st taken.2
  /-- `data_disk_num`. -/
  data_eq : taken.2.dataDiskNum = st.dataDiskNum
  /-- The space list. -/
  list_sub : ∀ x ∈ taken.2.spaceList, x ∈ st.spaceList
  /-- The block. -/
  served : ∀ d b, taken.1 = some (d, b) → place d b

/-- Taking a selected block at a place for data, or one of a space list of such blocks. -/
theorem takeBlock_allocated {place : ℕ → ℕ → Prop} {st st' : NcfsState} (hsame : SameDevices st st')
    (hdata : st'.dataDiskNum = st.dataDiskNum) (hlist : st'.spaceList = st.spaceList)
    (hplace : ∀ x ∈ st.spaceList, place x.1 x.2) {selected : Option (ℕ × ℕ)}
    (hselected : ∀ d b, selected = some (d, b) → place d b) (req : ℕ) :
    Allocated place st (takeBlock st' selected req) := by
  rw [← hlist] at hplace
  rcases takeBlock_cases st' selected req with ⟨heq, -, -⟩ | ⟨d, b, l, hdb, hl, heq⟩
  · rw [heq]
    exact ⟨hsame, hdata, fun x hx => hlist ▸ hx, fun d b h => by cases h⟩
  · rw [heq]
    refine ⟨⟨hsame.total_eq, hsame.block_eq, hsame.status_eq, hsame.disk_eq⟩, hdata,
      fun x hx => hlist ▸ hl x hx, fun d' b' h => ?_⟩
    obtain ⟨rfl, rfl⟩ := Prod.mk.inj (Option.some.inj h)
    rcases hdb with hdb | hdb
    · exact hselected d b hdb
    · exact hplace (d, b) hdb

theorem skipBlocks_same (st : NcfsState) (bad : ℕ → ℕ → Prop) [∀ i b, Decidable (bad i b)] :
    SameDevices st (skipBlocks st bad) := by
  rw [skipBlocks_eq]
  exact ⟨rfl, rfl, rfl, rfl⟩

/-- A store of `n` disks, `k` of them for data, whose blocks in use and freed blocks are at places
for data. -/
structure Placed (n k bs : ℕ) (place : ℕ → ℕ → Prop) (s : Served) : Prop where
  /-- `disk_total_num`. -/
  total_eq : s.st.diskTotalNum = n
  /-- `data_disk_num`. -/
  data_eq : s.st.dataDiskNum = k
  /-- `disk_block_size`. -/
  block_eq : s.st.diskBlockSize = bs
  /-- The freed blocks. -/
  list_place : ∀ x ∈ s.st.spaceList, place x.1 x.2
  /-- The blocks in use. -/
  returned_place : ∀ x ∈ s.returned, place x.1 x.2

/-- What an encoder does that keeps the property `P` of the devices: it takes blocks at places for
data, and a write of an admissible size to such a block keeps `P`. -/
structure Keeps (n k bs : ℕ) (place : ℕ → ℕ → Prop) (sized : ℕ → Prop) (P : NcfsState → Prop)
    (alloc : NcfsState → ℕ → Option (ℕ × ℕ) × NcfsState)
    (write : Buf → ℕ → NcfsState → ℕ → ℕ → NcfsState) : Prop where
  /-- What is taken. -/
  alloc_ok : ∀ st req, st.diskTotalNum = n → st.dataDiskNum = k →
    (∀ x ∈ st.spaceList, place x.1 x.2) → Allocated place st (alloc st req)
  /-- Only the devices are written. -/
  write_eq : ∀ buf size st d b,
    write buf size st d b = { st with disk := (write buf size st d b).disk }
  /-- What is written. -/
  write_ok : ∀ buf size st d b, st.diskTotalNum = n → st.dataDiskNum = k → st.diskBlockSize = bs →
    sized size → place d b → P st → P (write buf size st d b)
  /-- The property is one of the devices. -/
  same : ∀ st st', SameDevices st st' → st'.dataDiskNum = st.dataDiskNum → P st → P st'

/-- The encoder of an allocation and a write. -/
def encodeWith (alloc : NcfsState → ℕ → Option (ℕ × ℕ) × NcfsState)
    (write : Buf → ℕ → NcfsState → ℕ → ℕ → NcfsState) (st : NcfsState) (buf : Buf) (size : ℕ) :
    Option (ℕ × ℕ) × NcfsState :=
  writeTaken (alloc st (blockRequest st size)) (write buf size)

section Keeps

variable {n k bs : ℕ} {place : ℕ → ℕ → Prop} {sized : ℕ → Prop} {P : NcfsState → Prop}
variable {alloc : NcfsState → ℕ → Option (ℕ × ℕ) × NcfsState}
variable {write : Buf → ℕ → NcfsState → ℕ → ℕ → NcfsState}

/-- One operation. -/
theorem Keeps.step (h : Keeps n k bs place sized P alloc write) {s : Served}
    (hs : Placed n k bs place s) (hP : P s.st) {op : StoreOp} (hop : op.Sized sized) :
    Placed n k bs place (storeStep (encodeWith alloc write) s op) ∧
      P (storeStep (encodeWith alloc write) s op).st := by
  cases op with
  | encode buf size =>
      have halloc := h.alloc_ok s.st (blockRequest s.st size) hs.total_eq hs.data_eq hs.list_place
      have hkeep := h.same s.st _ halloc.same halloc.data_eq hP
      cases htaken : alloc s.st (blockRequest s.st size) with
      | mk taken st =>
          rw [htaken] at halloc hkeep
          have htotal : st.diskTotalNum = n := halloc.same.total_eq.trans hs.total_eq
          have hdata : st.dataDiskNum = k := halloc.data_eq.trans hs.data_eq
          have hblock : st.diskBlockSize = bs := halloc.same.block_eq.trans hs.block_eq
          have hlist : ∀ x ∈ st.spaceList, place x.1 x.2 := fun x hx =>
            hs.list_place x (halloc.list_sub x hx)
          cases taken with
          | none =>
              have hstep : storeStep (encodeWith alloc write) s (.encode buf size) =
                  ⟨st, s.returned⟩ := by
                simp only [storeStep, encodeWith, htaken, writeTaken, Served.serve]
              rw [hstep]
              exact ⟨⟨htotal, hdata, hblock, hlist, hs.returned_place⟩, hkeep⟩
          | some x =>
              have hplace := halloc.served x.1 x.2 rfl
              have hstep : storeStep (encodeWith alloc write) s (.encode buf size) =
                  ⟨{ st with disk := (write buf size st x.1 x.2).disk }, x :: s.returned⟩ := by
                rw [← h.write_eq]
                simp only [storeStep, encodeWith, htaken, writeTaken, Served.serve]
              rw [hstep]
              refine ⟨⟨htotal, hdata, hblock, hlist, List.forall_mem_cons.2
                ⟨hplace, hs.returned_place⟩⟩, ?_⟩
              rw [← h.write_eq]
              exact h.write_ok buf size st x.1 x.2 htotal hdata hblock hop hplace hkeep
  | free diskId blockNo =>
      obtain ⟨l, hl⟩ := s.free_st diskId blockNo
      have hmem : ∀ x, x ∈ s.returned ∨ x ∈ s.st.spaceList → place x.1 x.2 := by
        rintro x (hx | hx)
        · exact hs.returned_place x hx
        · exact hs.list_place x hx
      rw [storeStep]
      refine ⟨⟨?_, ?_, ?_, fun x hx => hmem x (Served.mem_of_free (.inr hx)),
        fun x hx => hmem x (Served.mem_of_free (.inl hx))⟩, ?_⟩
      · rw [hl]
        exact hs.total_eq
      · rw [hl]
        exact hs.data_eq
      · rw [hl]
        exact hs.block_eq
      · rw [hl]
        exact h.same s.st _ ⟨rfl, rfl, rfl, rfl⟩ rfl hP

/-- A run of writes and frees. -/
theorem Keeps.run (h : Keeps n k bs place sized P alloc write) {s : Served}
    (hs : Placed n k bs place s) (hP : P s.st) {ops : List StoreOp}
    (hops : ∀ op ∈ ops, op.Sized sized) :
    Placed n k bs place (Machine.run (storeStep (encodeWith alloc write)) s ops) ∧
      P (Machine.run (storeStep (encodeWith alloc write)) s ops).st :=
  @Machine.run_induct _ _ (storeStep (encodeWith alloc write))
    (fun s => Placed n k bs place s ∧ P s.st) (StoreOp.Sized sized)
    (fun _ _ hop hs => h.step hs.1 hs.2 hop) s ⟨hs, hP⟩ ops hops

end Keeps

/-! ### Stores without recycled blocks -/

/-- A store of `n` disks with `rows` blocks each, whose good blocks have been handed out in order
and none of them freed. -/
structure Fresh (n : ℕ) (good : ℕ → ℕ → Prop) (rows : ℕ) (s : Served) : Prop where
  /-- `disk_total_num`. -/
  total_eq : s.st.diskTotalNum = n
  /-- The free blocks are those from the free offset on. -/
  size_eq : ∀ i < n, s.st.freeSize i = (rows : ℤ) - s.st.freeOffset i
  /-- The space list is empty. -/
  list_eq : s.st.spaceList = []
  /-- The blocks that have been handed out. -/
  handed : Frontier.Handed n good rows s.st.freeOffset s.returned

section Fresh

variable {n rows : ℕ} {bad : ℕ → ℕ → Prop}

/-- Mounting a store. -/
theorem Fresh.init {st : NcfsState} (hn : st.diskTotalNum = n)
    (hoffset : st.freeOffset = fun _ => 0) (hsize : ∀ i < n, st.freeSize i = rows)
    (hlist : st.spaceList = [])
    (hrow : ∃ i < n, ¬ bad i 0) : Fresh n (fun i b => ¬ bad i b) rows ⟨st, []⟩ where
  total_eq := hn
  size_eq i hi := by simp [hsize i hi, hoffset]
  list_eq := hlist
  handed := by
    rw [hoffset]
    exact .init hrow

/-- One choice.  The scan may use a disk only when there is room on it, and then at least if its
free block is a good one.  If it finds none, all good blocks have been handed out. -/
theorem Fresh.step [∀ i b, Decidable (bad i b)] {use : NcfsState → ℕ → Prop}
    [∀ st, DecidablePred (use st)] (hrow : ∀ b, ∃ i < n, ¬ bad i b) {s : Served}
    (h : Fresh n (fun i b => ¬ bad i b) rows s)
    (hroom : ∀ st, ∀ i < n, use st i → 1 ≤ st.freeSize i)
    (huse : ∀ st, ∀ i < n, ¬ bad i (st.freeOffset i) → 1 ≤ st.freeSize i → use st i)
    {result : Option (ℕ × ℕ) × NcfsState}
    (hresult : takeBlock (skipBlocks s.st bad)
      (Frontier.scan (use (skipBlocks s.st bad)) (skipBlocks s.st bad).freeOffset n) 1 = result) :
    Fresh n (fun i b => ¬ bad i b) rows (s.serve result) ∧
      (result.1 = none → ∀ i < n, ∀ b < rows, ¬ bad i b → (i, b) ∈ s.returned) := by
  have hoff : (skipBlocks s.st bad).freeOffset =
      Frontier.skip n (fun i b => ¬ bad i b) s.st.freeOffset := by
    rw [skipBlocks_eq, h.total_eq]
  have hsize : ∀ i < n, (skipBlocks s.st bad).freeSize i =
      (rows : ℤ) - (skipBlocks s.st bad).freeOffset i := by
    intro i hi
    have hsum := h.size_eq i hi
    rw [hoff, skipBlocks_eq, h.total_eq]
    by_cases hbad : bad i (s.st.freeOffset i)
    · simp only [Frontier.skip, hi, hbad, not_not, and_self, if_true]
      omega
    · simp only [Frontier.skip, hi, hbad, not_false_eq_true, not_true_eq_false, and_false, if_false]
      exact hsum
  have htotal : (skipBlocks s.st bad).diskTotalNum = n := by
    rw [skipBlocks_eq]
    exact h.total_eq
  have hlist : (skipBlocks s.st bad).spaceList = [] := by
    rw [skipBlocks_eq]
    exact h.list_eq
  have hstep := h.handed.step hrow
    (fun i hi (hin : use (skipBlocks s.st bad) i) => by
      have := hroom _ i hi hin
      have := hsize i hi
      rw [← hoff]
      omega)
    (fun i hi hgood hlt => by
      rw [← hoff] at hgood hlt
      refine huse _ i hi hgood ?_
      have := hsize i hi
      omega)
  rw [← hoff] at hstep
  rcases hstep with ⟨d, b, hscan, hhanded⟩ | ⟨hscan, hhanded, hall⟩
  · rw [hscan] at hresult
    subst hresult
    refine ⟨⟨htotal, fun i hi => ?_, hlist, hhanded⟩, fun h => by cases h⟩
    have := hsize i hi
    change Function.update (skipBlocks s.st bad).freeSize d
      ((skipBlocks s.st bad).freeSize d - 1) i =
      (rows : ℤ) - Function.update (skipBlocks s.st bad).freeOffset d (b + 1) i
    by_cases hid : i = d
    · subst hid
      have hb := (Frontier.scan_some hscan).2.2
      rw [Function.update_self, Function.update_self, hb]
      omega
    · rw [Function.update_of_ne hid, Function.update_of_ne hid, this]
  · rw [hscan] at hresult
    have hnone : takeBlock (skipBlocks s.st bad) none 1 = (none, skipBlocks s.st bad) := by
      simp only [takeBlock, pickBlock, hlist]
    rw [hnone] at hresult
    subst hresult
    exact ⟨⟨htotal, hsize, hlist, hhanded⟩, fun _ => hall⟩

/-- The contents of the devices do not matter for the choice. -/
theorem Fresh.of_disk {good : ℕ → ℕ → Prop} {s : Served}
    {result : Option (ℕ × ℕ) × NcfsState} (h : Fresh n good rows (s.serve result))
    (disk : ℕ → ℕ → Byte) :
    Fresh n good rows (s.serve (result.1, { result.2 with disk := disk })) := by
  obtain ⟨x, st⟩ := result
  cases x with
  | none => exact ⟨h.total_eq, h.size_eq, h.list_eq, h.handed⟩
  | some x => exact ⟨h.total_eq, h.size_eq, h.list_eq, h.handed⟩

end Fresh

end Ncfs
