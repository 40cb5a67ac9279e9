/-
The capacity of the data disks under RAID0 and RAID4.

For each data disk the free size, the blocks on the space list and the blocks in use should add up
to the size of the disk, and a write should find no block only when none is free by this count.  A
free moves a block from those in use to the space list, and a write to a fresh block keeps the sum,
too.  A write to a block of the space list charges the free size once more.

Main definitions:

* `Ncfs.Conserved` — the count;
* `Ncfs.CodingLayer.CapacityKept` — an operation keeps the count and reports a full store rightly;
* `Ncfs.CodingLayer.FreshOrFull` — the condition for this: no block of the space list is written
  again, and disk `0` hides no block of a larger disk.

Main results:

* `Ncfs.CodingLayer.capacityKept_iff` — the capacity is right in exactly the runs whose steps meet
  the condition;
* `Ncfs.CodingLayer.raid0_capacity_lost` — a run that loses a block.
-/
import FuseMdr.Ownership

set_option relaxedAutoImplicit false
set_option autoImplicit false

namespace Ncfs

/-! ### The count -/

/-- The blocks of a disk in a list. -/
def onDisk (l : List (ℕ × ℕ)) (i : ℕ) : ℕ := l.countP fun x => x.1 = i

theorem onDisk_cons (x : ℕ × ℕ) (l : List (ℕ × ℕ)) (i : ℕ) :
    onDisk (x :: l) i = onDisk l i + if x.1 = i then 1 else 0 := by
  rw [onDisk, List.countP_cons]
  simp [onDisk]

theorem onDisk_append (l l' : List (ℕ × ℕ)) (i : ℕ) :
    onDisk (l ++ l') i = onDisk l i + onDisk l' i :=
  List.countP_append ..

/-- The free blocks of a disk by the count: the free size and the blocks on the space list. -/
def Served.freeBlocks (s : Served) (i : ℕ) : ℤ := s.st.freeSize i + onDisk s.st.spaceList i

/-- Free blocks and blocks in use make up the capacity `cap i` of each of `m` data disks. -/
def Conserved (cap : ℕ → ℕ) (m : ℕ) (s : Served) : Prop :=
  ∀ i < m, s.freeBlocks i + onDisk s.returned i = cap i

/-- The count by what is owned. -/
theorem freeBlocks_add (s : Served) (i : ℕ) :
    s.freeBlocks i + onDisk s.returned i = s.st.freeSize i + onDisk s.owned i := by
  rw [Served.freeBlocks, Served.owned, onDisk_append]
  push_cast
  ring

/-- A free keeps the count. -/
theorem Conserved.free {cap : ℕ → ℕ} {m : ℕ} {s : Served} (h : Conserved cap m s) (d b : ℕ) :
    Conserved cap m (s.free d b) := by
  intro i hi
  obtain ⟨l, hst⟩ := s.free_st d b
  have howned : onDisk (s.free d b).owned i = onDisk s.owned i := (s.owned_free d b).countP_eq _
  have hsize : (s.free d b).st.freeSize i = s.st.freeSize i := by rw [hst]
  have hi := h i hi
  rw [freeBlocks_add] at hi ⊢
  rw [howned, hsize]
  exact hi

/-! ### RAID0 and RAID4 -/

namespace CodingLayer

/-- The layer hands out the blocks of the first `m` of `n` disks row by row. -/
def StripesOver (L : CodingLayer) (n m : ℕ) : Prop := L = .raid0 ∧ m = n ∨ L = .raid4 ∧ m + 1 = n

/-- A call selects among the data disks, takes a block and writes to the devices. -/
theorem StripesOver.encode_eq {L : CodingLayer} {n m : ℕ} (hL : L.StripesOver n m) {st : NcfsState}
    (hn : st.diskTotalNum = n) (buf : Buf) (size : ℕ) : ∃ disk, L.encode st buf size =
      ((takeBlock st (selectDisk st m (blockRequest st size)) (blockRequest st size)).1,
        { (takeBlock st (selectDisk st m (blockRequest st size)) (blockRequest st size)).2 with
          disk := disk }) := by
  subst hn
  obtain ⟨disk, h⟩ := L.encode_eq st buf size
  rcases hL with ⟨rfl, rfl⟩ | ⟨rfl, hm⟩
  · exact ⟨disk, h⟩
  · obtain rfl : m = st.diskTotalNum - 1 := by omega
    exact ⟨disk, h⟩

theorem StripesOver.select_eq {L : CodingLayer} {n m : ℕ} (hL : L.StripesOver n m) {st : NcfsState}
    (hn : st.diskTotalNum = n) (req : ℕ) : L.select st req = selectDisk st m req := by
  subst hn
  rcases hL with ⟨rfl, rfl⟩ | ⟨rfl, hm⟩
  · rfl
  · obtain rfl : m = st.diskTotalNum - 1 := by omega
    rfl

/-! ### The condition -/

/-- An operation keeps the count, and a write that finds no block leaves no data disk with a free
one. -/
def CapacityKept (L : CodingLayer) (cap : ℕ → ℕ) (m : ℕ) (s : Served) (op : StoreOp) : Prop :=
  Conserved cap m (storeStep L.encode s op) ∧
    match op with
    | .encode buf size => (L.encode s.st buf size).1 = none →
        ∀ i < m, (storeStep L.encode s op).freeBlocks i ≤ 0
    | .free _ _ => True

/-- A write that is served by a disk asks for one block.  When no disk is selected, the space list
is empty, not even one block would be found, and no disk is larger than disk `0` by more than a
block. -/
def FreshOrFull (L : CodingLayer) (cap : ℕ → ℕ) (m : ℕ) (s : Served) : StoreOp → Prop
  | .encode _ size =>
      match L.select s.st (blockRequest s.st size) with
      | some _ => blockRequest s.st size = 1
      | none => s.st.spaceList = [] ∧ L.select s.st 1 = none ∧ ∀ i < m, cap i ≤ cap 0 + 1
  | .free _ _ => True

/-- A store in which no block has been written twice. -/
structure WrittenOnce (n m : ℕ) (cap : ℕ → ℕ) (s : Served) : Prop where
  /-- `disk_total_num`. -/
  total_eq : s.st.diskTotalNum = n
  /-- The count. -/
  conserved : Conserved cap m s
  /-- The blocks below the free offset are those that have been charged. -/
  offset_eq : ∀ i < m, (s.st.freeOffset i : ℤ) = cap i - s.st.freeSize i
  /-- No disk is ahead of disk `0` by more than a block. -/
  near : ∀ i < m, s.st.freeOffset i ≤ s.st.freeOffset 0 + 1
  /-- No disk is overdrawn. -/
  size_nonneg : ∀ i < m, 0 ≤ s.st.freeSize i
  /-- Only blocks of data disks are owned. -/
  owned_lt : ∀ x ∈ s.owned, x.1 < m

variable {L : CodingLayer} {n m : ℕ} {cap : ℕ → ℕ} {s : Served}

theorem WrittenOnce.free (h : WrittenOnce n m cap s) (d b : ℕ) :
    WrittenOnce n m cap (s.free d b) := by
  obtain ⟨l, hst⟩ := s.free_st d b
  refine ⟨?_, h.conserved.free d b, ?_, ?_, ?_, fun x hx => ?_⟩
  · rw [hst]
    exact h.total_eq
  · rw [hst]
    exact h.offset_eq
  · rw [hst]
    exact h.near
  · rw [hst]
    exact h.size_nonneg
  · exact h.owned_lt x ((s.owned_free d b).mem_iff.1 hx)

/-- Where no disk has a free block, none is selected for one block. -/
theorem selectDisk_one_none {st : NcfsState} (h : ∀ i < m, st.freeSize i ≤ 0) :
    selectDisk st m 1 = none :=
  Frontier.scan_eq_none fun i hi huse => by
    have := h i hi
    omega

/-- A store that is full by the selection is full by the count exactly when disk `0` hides no block
of a larger disk. -/
theorem WrittenOnce.full_iff (h : WrittenOnce n m cap s) : (∀ i < m, s.st.freeSize i ≤ 0) ↔
    selectDisk s.st m 1 = none ∧ ∀ i < m, cap i ≤ cap 0 + 1 := by
  constructor
  · intro hfull
    refine ⟨selectDisk_one_none hfull, fun i hi => ?_⟩
    have hi' := h.offset_eq i hi
    have hnonneg := h.size_nonneg i hi
    have hfull' := hfull i hi
    have h0 := h.offset_eq 0 (by omega)
    have hnonneg0 := h.size_nonneg 0 (by omega)
    have hfull0 := hfull 0 (by omega)
    have hnear := h.near i hi
    omega
  · rintro ⟨hnone, hcap⟩ i hi
    by_contra hroom
    have hahead : ∀ i < m, (1 : ℤ) ≤ s.st.freeSize i → s.st.freeOffset 0 < s.st.freeOffset i := by
      rw [selectDisk_eq_scan] at hnone
      rcases @Frontier.scan_bound
        (fun i => ((1 : ℕ) : ℤ) ≤ s.st.freeSize i) _ s.st.freeOffset m with
        ⟨x, hx, -⟩ | ⟨-, hahead⟩
      · rw [hx] at hnone
        cases hnone
      · exact hahead
    -- disk `0` is full, and disk `i` is ahead of it by one block, with room behind
    have hi' := hahead i hi (by omega)
    have hsize0 : s.st.freeSize 0 ≤ 0 := by
      by_contra hroom0
      exact lt_irrefl _ (hahead 0 (by omega) (by omega))
    have hnear := h.near i hi
    have hoffset := h.offset_eq i hi
    have hoffset0 := h.offset_eq 0 (by omega)
    have hnonneg0 := h.size_nonneg 0 (by omega)
    have hcap := hcap i hi
    omega

/-- Some disk is selected when nothing is asked for. -/
theorem WrittenOnce.select_zero (h : WrittenOnce n m cap s) (hm : 0 < m) :
    selectDisk s.st m 0 ≠ none := by
  intro hnone
  rw [selectDisk_eq_scan] at hnone
  rcases @Frontier.scan_bound (fun i => ((0 : ℕ) : ℤ) ≤ s.st.freeSize i) _ s.st.freeOffset m with
    ⟨x, hx, -⟩ | ⟨-, hahead⟩
  · rw [hx] at hnone
    cases hnone
  · exact lt_irrefl _ (hahead 0 hm (h.size_nonneg 0 hm))

/-- A write to the block at a free offset. -/
theorem WrittenOnce.charge (h : WrittenOnce n m cap s) {d b req : ℕ}
    (hsel : selectDisk s.st m req = some (d, b)) (disk : ℕ → ℕ → Byte) :
    (Conserved cap m (s.serve (some (d, b), { chargeDisk s.st d b req with disk := disk })) ↔
      req = 1) ∧
      (req = 1 → WrittenOnce n m cap
        (s.serve (some (d, b), { chargeDisk s.st d b req with disk := disk }))) := by
  have hscan := hsel
  rw [selectDisk_eq_scan] at hscan
  obtain ⟨hd, hroom, hb⟩ := Frontier.scan_some hscan
  have hle : b ≤ s.st.freeOffset 0 := by
    rcases @Frontier.scan_bound (fun i => (req : ℤ) ≤ s.st.freeSize i) _ s.st.freeOffset m with
      ⟨x, hx, hle⟩ | ⟨hnone, -⟩
    · obtain rfl := Option.some.inj (hscan.symm.trans hx)
      exact hle
    · rw [hnone] at hscan
      cases hscan
  have hself : ((Function.update s.st.freeSize d (s.st.freeSize d - req)) d : ℤ) =
      s.st.freeSize d - req := Function.update_self ..
  have howned : (s.serve (some (d, b), { chargeDisk s.st d b req with disk := disk })).owned =
      (d, b) :: s.owned := rfl
  have hcount : Conserved cap m
      (s.serve (some (d, b), { chargeDisk s.st d b req with disk := disk })) ↔ req = 1 := by
    constructor
    · intro hcons
      have hnew := hcons d hd
      have hold := h.conserved d hd
      rw [freeBlocks_add] at hnew hold
      rw [howned, onDisk_cons, if_pos rfl] at hnew
      change (Function.update s.st.freeSize d (s.st.freeSize d - req)) d + _ = _ at hnew
      rw [hself] at hnew
      push_cast at hnew
      omega
    · rintro rfl i hi
      have hold := h.conserved i hi
      rw [freeBlocks_add] at hold ⊢
      rw [howned, onDisk_cons]
      change (Function.update s.st.freeSize d (s.st.freeSize d - (1 : ℕ))) i + _ = _
      by_cases hdi : d = i
      · subst hdi
        rw [hself, if_pos rfl]
        push_cast
        omega
      · rw [Function.update_of_ne (Ne.symm hdi), if_neg hdi]
        exact hold
  refine ⟨hcount, fun hreq => ⟨h.total_eq, hcount.2 hreq, ?_, ?_, ?_, ?_⟩⟩
  all_goals subst hreq
  · intro i hi
    change ((Function.update s.st.freeOffset d (b + 1)) i : ℤ) =
      cap i - (Function.update s.st.freeSize d (s.st.freeSize d - (1 : ℕ))) i
    have hold := h.offset_eq i hi
    by_cases hdi : i = d
    · subst hdi
      rw [Function.update_self, hself, hb]
      push_cast
      omega
    · rw [Function.update_of_ne hdi, Function.update_of_ne hdi]
      exact hold
  · intro i hi
    change (Function.update s.st.freeOffset d (b + 1)) i ≤ (Function.update s.st.freeOffset d
      (b + 1)) 0 + 1
    have hnear := h.near i hi
    -- only the offset of the charged disk grows, and it was not above that of disk `0`
    have hgrow : s.st.freeOffset 0 ≤ (Function.update s.st.freeOffset d (b + 1)) 0 := by
      by_cases hd0 : 0 = d
      · subst hd0
        rw [Function.update_self]
        omega
      · rw [Function.update_of_ne hd0]
    by_cases hdi : i = d
    · subst hdi
      rw [Function.update_self]
      omega
    · rw [Function.update_of_ne hdi]
      omega
  · intro i hi
    change 0 ≤ (Function.update s.st.freeSize d (s.st.freeSize d - (1 : ℕ))) i
    have hnonneg := h.size_nonneg i hi
    by_cases hdi : i = d
    · subst hdi
      rw [hself]
      omega
    · rwa [Function.update_of_ne hdi]
  · intro x hx
    rw [howned] at hx
    rcases List.mem_cons.1 hx with rfl | hx
    · exact hd
    · exact h.owned_lt x hx

/-- A write to a block of the space list. -/
theorem WrittenOnce.not_conserved_reused (h : WrittenOnce n m cap s) {d b req : ℕ}
    {rest : List (ℕ × ℕ)} (hsel : selectDisk s.st m req = none)
    (hlist : s.st.spaceList = (d, b) :: rest)
    (disk : ℕ → ℕ → Byte) : ¬ Conserved cap m (s.serve (some (d, b),
      { chargeDisk { s.st with spaceList := rest } d b req with disk := disk })) := by
  intro hcons
  have hmem : (d, b) ∈ s.owned := by
    rw [Served.owned, hlist]
    exact List.mem_append_right _ (List.mem_cons_self ..)
  have hd : d < m := h.owned_lt (d, b) hmem
  have hreq : req ≠ 0 := by
    rintro rfl
    exact h.select_zero (by omega) hsel
  have hperm : (s.serve (some (d, b),
      { chargeDisk { s.st with spaceList := rest } d b req with disk := disk })).owned.Perm
        s.owned := by
    simp only [Served.owned, Served.serve, chargeDisk, hlist, List.cons_append]
    exact List.perm_middle.symm
  have hnew := hcons d hd
  have hold := h.conserved d hd
  rw [freeBlocks_add] at hnew hold
  rw [onDisk, hperm.countP_eq, ← onDisk] at hnew
  change (Function.update s.st.freeSize d (s.st.freeSize d - req)) d + _ = _ at hnew
  rw [Function.update_self] at hnew
  omega

/-- Only the devices differ. -/
theorem WrittenOnce.of_disk (h : WrittenOnce n m cap s) (disk : ℕ → ℕ → Byte) :
    WrittenOnce n m cap { s with st := { s.st with disk := disk } } :=
  ⟨h.total_eq, h.conserved, h.offset_eq, h.near, h.size_nonneg, h.owned_lt⟩

/-- The capacity is right after a step exactly under the condition, which keeps the invariant. -/
theorem WrittenOnce.step (hL : L.StripesOver n m) (h : WrittenOnce n m cap s) (op : StoreOp) :
    (L.CapacityKept cap m s op ↔ L.FreshOrFull cap m s op) ∧
      (L.FreshOrFull cap m s op → WrittenOnce n m cap (storeStep L.encode s op)) := by
  cases op with
  | free d b =>
      exact ⟨⟨fun _ => trivial, fun _ => ⟨h.conserved.free d b, trivial⟩⟩, fun _ => h.free d b⟩
  | encode buf size =>
      obtain ⟨disk, hencode⟩ := hL.encode_eq h.total_eq buf size
      have hcase := takeBlock_case s.st (selectDisk s.st m (blockRequest s.st size))
        (blockRequest s.st size)
      simp only [CapacityKept, FreshOrFull, storeStep, hL.select_eq h.total_eq]
      rw [hencode]
      generalize htaken : takeBlock s.st (selectDisk s.st m (blockRequest s.st size))
        (blockRequest s.st size) = taken at hcase ⊢
      clear htaken hencode
      cases hcase with
      | fresh d b hsel =>
          obtain ⟨hcount, hkeep⟩ := h.charge hsel disk
          rw [hsel]
          refine ⟨⟨fun hq => hcount.1 hq.1, fun hreq => ⟨hcount.2 hreq, fun hnone => ?_⟩⟩, hkeep⟩
          cases hnone
      | reused d b rest hsel hlist =>
          have hlost := h.not_conserved_reused hsel hlist disk
          rw [hsel, hlist]
          have hlisted : ¬ (d, b) :: rest = [] := List.cons_ne_nil _ _
          exact ⟨⟨fun hq => absurd hq.1 hlost, fun hc => absurd hc.1 hlisted⟩, fun hc =>
            absurd hc.1 hlisted⟩
      | full hsel hlist =>
          rw [hsel]
          have hfree : ∀ i, Served.freeBlocks (s.serve (none, { s.st with disk := disk })) i =
              s.st.freeSize i := by
            intro i
            simp [Served.freeBlocks, Served.serve, hlist, onDisk]
          refine ⟨⟨fun hq => ⟨hlist, h.full_iff.1 fun i hi => ?_⟩, fun hc => ⟨h.conserved, ?_⟩⟩,
            fun _ => h.of_disk disk⟩
          · exact (hfree i).symm.trans_le (hq.2 rfl i hi)
          · exact fun _ i hi => (hfree i).trans_le (h.full_iff.2 hc.2 i hi)

/-- **Capacity.**  From an empty store with disks of any sizes, in a run of writes and frees under
RAID0 or RAID4, free blocks and blocks in use of every data disk make up its size after every step,
and writes find no block only when none is free, exactly when every step meets the condition. -/
theorem capacityKept_iff (hL : L.StripesOver n m) (htotal : s.st.diskTotalNum = n)
    (hoffset : ∀ i < m, s.st.freeOffset i = 0) (hsize : ∀ i < m, s.st.freeSize i = cap i)
    (hlist : s.st.spaceList = []) (hreturned : s.returned = []) (ops : List StoreOp) :
    Machine.AllSteps (storeStep L.encode) (L.CapacityKept cap m) s ops ↔
      Machine.AllSteps (storeStep L.encode) (L.FreshOrFull cap m) s ops := by
  have howned : s.owned = [] := by rw [Served.owned, hreturned, hlist, List.append_nil]
  have hs : WrittenOnce n m cap s := by
    refine ⟨htotal, fun i hi => ?_, fun i hi => ?_, fun i hi => ?_, fun i hi => ?_, fun x hx => ?_⟩
    · rw [freeBlocks_add, howned, hsize i hi]
      exact add_zero _
    · rw [hoffset i hi, hsize i hi, sub_self]
      rfl
    · rw [hoffset i hi]
      exact Nat.zero_le _
    · rw [hsize i hi]
      exact Int.natCast_nonneg _
    · rw [howned] at hx
      cases hx
  exact Machine.allSteps_iff (I := WrittenOnce n m cap)
    (fun s op h hq => (h.step hL op).2 ((h.step hL op).1.1 hq)) (fun s op h => (h.step hL op).1) hs

/-- Three disks of four blocks under RAID4. -/
theorem capacityKept_iff_raid4 :
    let s : Served := ⟨NcfsState.blank 3 2 1 (by decide) 4, []⟩
    let ops : List StoreOp := [.encode (fun _ => 0) 1, .encode (fun _ => 0) 1, .free 0 0,
      .encode (fun _ => 0) 1]
    Machine.AllSteps (storeStep raid4.encode) (raid4.CapacityKept (fun _ => 4) 2) s ops ↔
      Machine.AllSteps (storeStep raid4.encode) (raid4.FreshOrFull (fun _ => 4) 2) s ops :=
  capacityKept_iff (.inr ⟨rfl, rfl⟩) rfl (fun _ _ => rfl) (fun _ _ => rfl) rfl rfl _

/-- Two runs under RAID0.  A disk of one block is written, freed and written again, and its block is
charged twice.  Of two disks with one and with four blocks three blocks are written, and the fourth
write finds none although two are free. -/
theorem raid0_capacity_lost :
    let write : StoreOp := .encode (fun _ => 0) 1
    ¬ Machine.AllSteps (storeStep raid0.encode) (raid0.CapacityKept (fun _ => 1) 1)
        ⟨NcfsState.blank 1 1 1 (by decide) 1, []⟩ [write, .free 0 0, write] ∧
      ¬ Machine.AllSteps (storeStep raid0.encode)
      (raid0.CapacityKept (fun i => if i = 0 then 1 else 4) 2)
        ⟨{ NcfsState.blank 2 2 1 (by decide) 0 with freeSize := fun i => if i = 0 then 1 else 4 },
          []⟩ [write, write, write, write] := by
  intro write
  constructor
  · rintro ⟨-, -, hlast, -⟩
    exact absurd (hlast.1 0 (by decide)) (by decide +kernel)
  · rintro ⟨-, -, -, hlast, -⟩
    exact absurd (hlast.2 (by decide +kernel) 1 (by decide)) (by decide +kernel)

end CodingLayer

end Ncfs
