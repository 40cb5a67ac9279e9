/-
Where the MBR code keeps its blocks.

A segment of `n` disks has `n - 1` blocks on each disk, and every block is kept twice.  The blocks
of a segment are the edges of the complete graph on the disks: an edge lies on both of its disks, so
that a lost disk is rebuilt by copying one block from each of the others.

Main definitions:

* `Ncfs.mbrFindBlockId`, `Ncfs.mbrFindDupBlockId` — the block at a position, if it is the first copy
  or the second one;
* `Ncfs.mbrGetDiskId`, `Ncfs.mbrGetBlockNo`, `Ncfs.mbrGetDupDiskId`, `Ncfs.mbrGetDupBlockNo` — the
  positions of both copies;
* `Ncfs.MbrStores` — a disk keeps a copy of a block.

Main results:

* `Ncfs.mbrGetDiskIdLoop_stops` — the loop for the disk stops for every block of the layout;
* `Ncfs.mbrLayout` — the six functions are inverse to each other, and any two disks share one block.
-/
import FuseMdr.Triangle

set_option relaxedAutoImplicit false
set_option autoImplicit false

namespace Ncfs

/-! ### The functions -/

/-- `mbr_find_block_id`. -/
def mbrFindBlockId (diskId blockNo mbrSegmentSize : ℕ) : ℤ :=
  let blockOffset := blockNo % mbrSegmentSize
  if blockOffset < diskId then -1
  else
    let mbrOffset : ℤ := blockOffset - diskId
    let (mbrBlockId, _) := (List.range diskId).foldl
      (fun (s : ℤ × ℤ) _ => (s.1 + s.2, s.2 - 1)) (0, (mbrSegmentSize : ℤ))
    mbrBlockId + mbrOffset

/-- `mbr_find_dup_block_id`. -/
def mbrFindDupBlockId (diskId blockNo mbrSegmentSize : ℕ) : ℤ :=
  let blockOffset := blockNo % mbrSegmentSize
  if diskId ≤ blockOffset then -1
  else
    let (mbrBlockId, _, mbrOffset) := (List.range blockOffset).foldl
      (fun (s : ℤ × ℤ × ℤ) _ => (s.1 + s.2.1, s.2.1 - 1, s.2.2 - 1))
      (0, (mbrSegmentSize : ℤ), (diskId : ℤ) - 1)
    mbrBlockId + mbrOffset

/-- The loop `while (temp > 0)` of `mbr_get_disk_id`.  Once the counter is zero, `temp` does not
fall any more and the loop does not end. -/
def mbrGetDiskIdLoop : ℕ → ℤ → ℕ → Option ℕ
  | 0, temp, mbrBlockGroup => if 0 < temp then none else some mbrBlockGroup
  | counter + 1, temp, mbrBlockGroup =>
      if 0 < temp then mbrGetDiskIdLoop counter (temp - counter) (mbrBlockGroup + 1)
      else some mbrBlockGroup

/-- `mbr_get_disk_id`; see `mbrGetDiskIdLoop_stops` for its loop. -/
def mbrGetDiskId (mbrBlockId : ℤ) (mbrSegmentSize : ℕ) : ℕ :=
  (mbrGetDiskIdLoop mbrSegmentSize (mbrBlockId + 1 - mbrSegmentSize) 0).getD 0

/-- `mbr_get_block_no`. -/
def mbrGetBlockNo (diskId : ℕ) (mbrBlockId : ℤ) (mbrSegmentSize : ℕ) : ℤ :=
  let mbrOffset := (List.range diskId).foldl
    (fun mbrOffset j => mbrOffset - ((mbrSegmentSize : ℤ) - (j : ℕ))) mbrBlockId
  mbrOffset + diskId

/-- `mbr_get_dup_disk_id`. -/
def mbrGetDupDiskId (mbrBlockId : ℤ) (mbrSegmentSize : ℕ) : ℤ :=
  let diskId := mbrGetDiskId mbrBlockId mbrSegmentSize
  let mbrOffset := (List.range diskId).foldl
    (fun mbrOffset j => mbrOffset - ((mbrSegmentSize : ℤ) - (j : ℕ))) mbrBlockId
  mbrOffset + 1 + diskId

/-- `mbr_get_dup_block_no`: the other arguments are not used. -/
def mbrGetDupBlockNo (diskId : ℕ) (_mbrBlockId : ℤ) (_mbrSegmentSize : ℕ) : ℕ := diskId

/-! ### Their closed forms -/

section Closed

variable {seg d e : ℕ}

open Triangle

theorem foldl_counter (hd : d ≤ seg) :
    (List.range d).foldl (fun (s : ℤ × ℤ) _ => (s.1 + s.2, s.2 - 1)) (0, (seg : ℤ)) =
      ((rowStart seg d : ℤ), (seg : ℤ) - d) := by
  induction d with
  | zero => simp
  | succ d ih =>
      rw [List.range_succ, List.foldl_append, ih (by omega), List.foldl_cons, List.foldl_nil,
        rowStart_succ]
      refine Prod.ext ?_ ?_
      · push_cast [Nat.cast_sub (show d ≤ seg by omega)]
        ring
      · push_cast
        ring

theorem foldl_counter_offset (hd : d ≤ seg) (x : ℤ) :
    (List.range d).foldl (fun (s : ℤ × ℤ × ℤ) _ => (s.1 + s.2.1, s.2.1 - 1, s.2.2 - 1))
      (0, (seg : ℤ), x) = ((rowStart seg d : ℤ), (seg : ℤ) - d, x - d) := by
  induction d with
  | zero => simp
  | succ d ih =>
      rw [List.range_succ, List.foldl_append, ih (by omega), List.foldl_cons, List.foldl_nil,
        rowStart_succ]
      refine Prod.ext ?_ (Prod.ext ?_ ?_)
      · push_cast [Nat.cast_sub (show d ≤ seg by omega)]
        ring
      · push_cast
        ring
      · push_cast
        ring

theorem foldl_offset (hd : d ≤ seg) (x : ℤ) :
    (List.range d).foldl (fun mbrOffset j => mbrOffset - ((seg : ℤ) - (j : ℕ))) x =
      x - rowStart seg d := by
  induction d with
  | zero => simp
  | succ d ih =>
      rw [List.range_succ, List.foldl_append, ih (by omega), List.foldl_cons, List.foldl_nil,
        rowStart_succ]
      push_cast [Nat.cast_sub (show d ≤ seg by omega)]
      ring

/-- The first copy of the block of disks `d < e` is on disk `d`. -/
theorem mbrFindBlockId_eq {b : ℕ} (hde : d < e) (he : e ≤ seg) (hb : b % seg = e - 1) :
    mbrFindBlockId d b seg = pairId seg d e := by
  simp only [mbrFindBlockId, hb, foldl_counter (show d ≤ seg by omega), pairId]
  rw [if_neg (by omega)]
  omega

theorem mbrFindBlockId_of_lt {b : ℕ} (h : b % seg < d) : mbrFindBlockId d b seg = -1 := by
  simp only [mbrFindBlockId, if_pos h]

/-- The second copy is on disk `e`. -/
theorem mbrFindDupBlockId_eq {b : ℕ} (hde : d < e) (he : e ≤ seg) (hb : b % seg = d) :
    mbrFindDupBlockId e b seg = pairId seg d e := by
  simp only [mbrFindDupBlockId, hb, foldl_counter_offset (show d ≤ seg by omega), pairId]
  rw [if_neg (by omega)]
  omega

theorem mbrFindDupBlockId_of_le {b : ℕ} (h : d ≤ b % seg) : mbrFindDupBlockId d b seg = -1 := by
  simp only [mbrFindDupBlockId, if_pos h]

/-- The loop finds the row of a number, from any row before it. -/
theorem mbrGetDiskIdLoop_eq {id : ℕ} (hd : d < seg) (hle : rowStart seg d ≤ id)
    (hlt : id < rowStart seg (d + 1)) :
    ∀ {counter group : ℕ}, counter + group = seg → group ≤ d →
      mbrGetDiskIdLoop counter ((id : ℤ) + 1 - rowStart seg (group + 1)) group = some d := by
  intro counter
  induction counter with
  | zero =>
      intro group hsum hgroup
      omega
  | succ counter ih =>
      intro group hsum hgroup
      rw [mbrGetDiskIdLoop]
      rcases Nat.eq_or_lt_of_le hgroup with rfl | hgroup
      · rw [if_neg (by omega)]
      · have hmono := rowStart_mono seg (show group + 1 ≤ d from hgroup)
        have hnext : (id : ℤ) + 1 - rowStart seg (group + 1) - counter =
            (id : ℤ) + 1 - rowStart seg (group + 1 + 1) := by
          rw [rowStart_succ seg (group + 1)]
          omega
        rw [if_pos (by omega), hnext]
        exact ih (by omega) hgroup

/-- The loop of `mbr_get_disk_id` stops for every block of the layout. -/
theorem mbrGetDiskIdLoop_stops {id : ℕ} (h : id < rowStart seg seg) :
    mbrGetDiskIdLoop seg ((id : ℤ) + 1 - seg) 0 = some (mbrGetDiskId id seg) := by
  obtain ⟨d, hd, hle, hlt⟩ := exists_row h
  have hloop := mbrGetDiskIdLoop_eq hd hle hlt (show seg + 0 = seg from rfl) (Nat.zero_le d)
  rw [zero_add, rowStart_succ, rowStart_zero, zero_add, Nat.sub_zero] at hloop
  rw [mbrGetDiskId, hloop]
  rfl

theorem mbrGetDiskId_eq (hde : d < e) (he : e ≤ seg) : mbrGetDiskId (pairId seg d e) seg = d := by
  have hloop := mbrGetDiskIdLoop_eq (show d < seg by omega) rowStart_le_pairId (pairId_lt hde he)
    (show seg + 0 = seg from rfl) (Nat.zero_le d)
  rw [zero_add, rowStart_succ, rowStart_zero, zero_add, Nat.sub_zero] at hloop
  rw [mbrGetDiskId, hloop]
  rfl

theorem mbrGetBlockNo_eq (hde : d < e) (he : e ≤ seg) :
    mbrGetBlockNo d (pairId seg d e) seg = (e : ℤ) - 1 := by
  simp only [mbrGetBlockNo, foldl_offset (show d ≤ seg by omega), pairId]
  omega

theorem mbrGetDupDiskId_eq (hde : d < e) (he : e ≤ seg) :
    mbrGetDupDiskId (pairId seg d e) seg = e := by
  simp only [mbrGetDupDiskId, mbrGetDiskId_eq hde he, foldl_offset (show d ≤ seg by omega)]
  rw [pairId]
  omega

end Closed

/-! ### The layout -/

/-- In segment `s`, disk `d` keeps a copy of block `id`. -/
def MbrStores (seg s d id : ℕ) : Prop :=
  ∃ off < seg, mbrFindBlockId d (s * seg + off) seg = id ∨ mbrFindDupBlockId d
    (s * seg + off) seg = id

/-- What makes the layout one in which a lost disk is copied back, for `n` disks with `seg` blocks
of each segment. -/
structure MbrLayout (n seg : ℕ) : Prop where
  /-- Each position holds the first copy or the second copy of a block, not both. -/
  one_copy : ∀ s, ∀ d < n, ∀ off < seg, (0 ≤ mbrFindBlockId d (s * seg + off) seg ↔
    ¬ 0 ≤ mbrFindDupBlockId d (s * seg + off) seg)
  /-- Its block is found again from a first copy. -/
  get_find : ∀ s, ∀ d < n, ∀ off < seg, ∀ id, mbrFindBlockId d (s * seg + off) seg = id → 0 ≤ id →
    id < (n * (n - 1) / 2 : ℕ) ∧ mbrGetDiskId id seg = d ∧ mbrGetBlockNo d id seg = off
  /-- And from a second copy. -/
  get_findDup : ∀ s, ∀ d < n, ∀ off < seg, ∀ id, mbrFindDupBlockId d
    (s * seg + off) seg = id → 0 ≤ id → id < (n * (n - 1) / 2 : ℕ) ∧ mbrGetDupDiskId id seg = d ∧
      mbrGetDupBlockNo (mbrGetDiskId id seg) id seg = off
  /-- Every block has a first copy. -/
  find_get : ∀ s, ∀ id < n * (n - 1) / 2, ∃ off < seg,
    mbrGetDiskIdLoop seg ((id : ℤ) + 1 - seg) 0 = some (mbrGetDiskId id seg) ∧
    mbrGetDiskId id seg < n ∧
      mbrGetBlockNo (mbrGetDiskId id seg) id seg = off ∧
      mbrFindBlockId (mbrGetDiskId id seg) (s * seg + off) seg = id
  /-- And a second copy. -/
  findDup_get : ∀ s, ∀ id < n * (n - 1) / 2, ∃ d < n, mbrGetDupDiskId id seg = d ∧
    mbrGetDupBlockNo (mbrGetDiskId id seg) id seg < seg ∧
      mbrFindDupBlockId d (s * seg + mbrGetDupBlockNo (mbrGetDiskId id seg) id seg) seg = id
  /-- Every block is on two disks. -/
  two_disks : ∀ s, ∀ id < n * (n - 1) / 2, ∃ d < n, ∃ e < n, d ≠ e ∧
    ∀ x < n, MbrStores seg s x id ↔ x = d ∨ x = e
  /-- Two disks share one block. -/
  share_one : ∀ s, ∀ d < n, ∀ e < n, d ≠ e → ∃! id, MbrStores seg s d id ∧ MbrStores seg s e id

section Layout

variable {seg d e off : ℕ}

open Triangle

/-- A position before the disk's own number holds the second copy of a block of that row, the others
the first copies of the disk's own row. -/
theorem mbrPosition (s : ℕ) (hd : d ≤ seg) (hoff : off < seg) :
    (d ≤ off ∧ mbrFindBlockId d (s * seg + off) seg = pairId seg d (off + 1) ∧
      mbrFindDupBlockId d (s * seg + off) seg = -1) ∨
    (off < d ∧ mbrFindBlockId d (s * seg + off) seg = -1 ∧
      mbrFindDupBlockId d (s * seg + off) seg = pairId seg off d) := by
  have hmod : (s * seg + off) % seg = off := by
    rw [Nat.add_comm, Nat.add_mul_mod_self_right, Nat.mod_eq_of_lt hoff]
  rcases Nat.lt_or_ge off d with hlt | hge
  · right
    exact ⟨hlt, mbrFindBlockId_of_lt (by rwa [hmod]), mbrFindDupBlockId_eq hlt hd hmod⟩
  · left
    exact ⟨hge, mbrFindBlockId_eq (by omega) (by omega) hmod, mbrFindDupBlockId_of_le
      (by rwa [hmod])⟩

/-- The same for a block number of a disk. -/
theorem mbrPosition_block {b : ℕ} (hseg : 0 < seg) (hd : d ≤ seg) :
    (d ≤ b % seg ∧ mbrFindBlockId d b seg = pairId seg d (b % seg + 1) ∧
      mbrFindDupBlockId d b seg = -1) ∨
    (b % seg < d ∧ mbrFindBlockId d b seg = -1 ∧ mbrFindDupBlockId d b seg = pairId seg
      (b % seg) d) := by
  have h := mbrPosition (b / seg) hd (Nat.mod_lt b hseg)
  rwa [Nat.mul_comm, Nat.div_add_mod] at h

/-- A block is on its own two disks only. -/
theorem mbrStores_iff (s : ℕ) (hde : d < e) (he : e ≤ seg) {x : ℕ} (hx : x ≤ seg) :
    MbrStores seg s x (pairId seg d e) ↔ x = d ∨ x = e := by
  constructor
  · rintro ⟨off, hoff, h⟩
    rcases mbrPosition s hx hoff with ⟨hle, hfind, hdup⟩ | ⟨hlt, hfind, hdup⟩
    · rw [hfind, hdup] at h
      rcases h with h | h
      · exact .inl (pairId_inj (show x < off + 1 by omega) (show off + 1 ≤ seg by omega) hde he
          (by omega)).1
      · omega
    · rw [hfind, hdup] at h
      rcases h with h | h
      · omega
      · exact .inr (pairId_inj hlt hx hde he (by omega)).2
  · rintro (rfl | rfl)
    · refine ⟨e - 1, by omega, .inl ?_⟩
      refine mbrFindBlockId_eq hde he ?_
      rw [Nat.add_comm, Nat.add_mul_mod_self_right, Nat.mod_eq_of_lt (by omega)]
    · refine ⟨d, by omega, .inr ?_⟩
      refine mbrFindDupBlockId_eq hde he ?_
      rw [Nat.add_comm, Nat.add_mul_mod_self_right, Nat.mod_eq_of_lt (by omega)]

/-- The number of blocks of a segment. -/
theorem mbrBlocks_eq {n : ℕ} (hn : 1 ≤ n) : n * (n - 1) / 2 = rowStart (n - 1) (n - 1) := by
  rw [rowStart_self, show n - 1 + 1 = n by omega, Nat.mul_comm]

/-- What a disk keeps is a block of the layout. -/
theorem MbrStores.exists_pair {s id : ℕ} (hd : d ≤ seg) (h : MbrStores seg s d id) :
    ∃ a b, a < b ∧ b ≤ seg ∧ pairId seg a b = id := by
  obtain ⟨off, hoff, h⟩ := h
  rcases mbrPosition s hd hoff with ⟨hle, hfind, hdup⟩ | ⟨hlt, hfind, hdup⟩
  · rw [hfind, hdup] at h
    exact ⟨d, off + 1, by omega, by omega, by omega⟩
  · rw [hfind, hdup] at h
    exact ⟨off, d, hlt, hd, by omega⟩

/-- Two disks share the block of their pair. -/
theorem mbrShare {x y : ℕ} (s : ℕ) (hxy : x < y) (hy : y ≤ seg) {id : ℕ} :
    MbrStores seg s x id ∧ MbrStores seg s y id ↔ id = pairId seg x y := by
  constructor
  · rintro ⟨hx', hy'⟩
    obtain ⟨a, b, hab, hb, rfl⟩ := hx'.exists_pair (show x ≤ seg by omega)
    have hxa := (mbrStores_iff s hab hb (show x ≤ seg by omega)).1 hx'
    have hya := (mbrStores_iff s hab hb hy).1 hy'
    have : a = x ∧ b = y := by omega
    rw [this.1, this.2]
  · rintro rfl
    exact ⟨(mbrStores_iff s hxy hy (by omega)).2 (.inl rfl), (mbrStores_iff s hxy hy hy).2
      (.inr rfl)⟩

end Layout

/-- **The layout.**  For every number of disks, the six functions are inverse to each other in every
segment, every block is on two disks and any two disks share one block. -/
theorem mbrLayout {n : ℕ} (hn : 2 ≤ n) : MbrLayout n (n - 1) := by
  have hcount := mbrBlocks_eq (show 1 ≤ n by omega)
  have hpos : ∀ s, ∀ d < n, ∀ off < n - 1, _ := fun s d hd off hoff =>
    mbrPosition s (show d ≤ n - 1 by omega) hoff
  have hpair : ∀ id < n * (n - 1) / 2, ∃ a b, a < b ∧ b ≤ n - 1 ∧ Triangle.pairId
      (n - 1) a b = id :=
    fun id hid => Triangle.exists_pair (hcount ▸ hid)
  constructor
  · intro s d hd off hoff
    rcases hpos s d hd off hoff with ⟨-, hfind, hdup⟩ | ⟨-, hfind, hdup⟩ <;>
      rw [hfind, hdup] <;> omega
  · rintro s d hd off hoff id rfl hid
    rcases hpos s d hd off hoff with ⟨hle, hfind, -⟩ | ⟨-, hfind, -⟩
    · rw [hfind, mbrGetDiskId_eq (by omega) (by omega), mbrGetBlockNo_eq (by omega)
        (by omega), hcount]
      have := Triangle.pairId_lt_rowStart (show d < off + 1 by omega)
        (show off + 1 ≤ n - 1 by omega)
      omega
    · omega
  · rintro s d hd off hoff id rfl hid
    rcases hpos s d hd off hoff with ⟨-, -, hdup⟩ | ⟨hlt, -, hdup⟩
    · omega
    · rw [hdup, mbrGetDiskId_eq hlt (by omega), mbrGetDupDiskId_eq hlt (by omega),
        mbrGetDupBlockNo, hcount]
      have := Triangle.pairId_lt_rowStart hlt (show d ≤ n - 1 by omega)
      omega
  · intro s id hid
    have hstop := mbrGetDiskIdLoop_stops (hcount ▸ hid)
    obtain ⟨a, b, hab, hb, rfl⟩ := hpair id hid
    refine ⟨b - 1, by omega, hstop, ?_, ?_, ?_⟩
    · rw [mbrGetDiskId_eq hab hb]
      omega
    · rw [mbrGetDiskId_eq hab hb, mbrGetBlockNo_eq hab hb]
      omega
    · rw [mbrGetDiskId_eq hab hb]
      refine mbrFindBlockId_eq hab hb ?_
      rw [Nat.add_comm, Nat.add_mul_mod_self_right, Nat.mod_eq_of_lt (by omega)]
  · intro s id hid
    obtain ⟨a, b, hab, hb, rfl⟩ := hpair id hid
    rw [mbrGetDiskId_eq hab hb, mbrGetDupDiskId_eq hab hb, mbrGetDupBlockNo]
    refine ⟨b, by omega, rfl, by omega, mbrFindDupBlockId_eq hab hb ?_⟩
    rw [Nat.add_comm, Nat.add_mul_mod_self_right, Nat.mod_eq_of_lt (by omega)]
  · intro s id hid
    obtain ⟨a, b, hab, hb, rfl⟩ := hpair id hid
    exact ⟨a, by omega, b, by omega, by omega, fun x hx => mbrStores_iff s hab hb (by omega)⟩
  · intro s d hd e he hne
    rcases Nat.lt_or_gt_of_ne hne with hlt | hgt
    · exact ⟨Triangle.pairId (n - 1) d e, (mbrShare s hlt (by omega)).2 rfl,
        fun id h => (mbrShare s hlt (by omega)).1 h⟩
    · exact ⟨Triangle.pairId (n - 1) e d, And.symm ((mbrShare s hgt (by omega)).2 rfl),
        fun id h => (mbrShare s hgt (by omega)).1 (And.symm h)⟩

theorem mbrLayout_five : MbrLayout 5 4 := mbrLayout (by decide)

end Ncfs
