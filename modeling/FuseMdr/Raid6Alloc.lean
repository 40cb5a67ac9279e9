/-
Which blocks RAID6 hands out.

The loop at the start of `encode` moves each disk over one code block only, while the code blocks of
a disk come in pairs.  Nevertheless the data blocks are handed out row by row, none of them twice
and none of them left out, and no code block is handed out.

Main definitions:

* `Ncfs.raid6Call` — a call of `encode`, also where the contents of the code blocks are not defined;
* `Ncfs.raid6Calls` — a run of calls.

Main results:

* `Ncfs.raid6Calls_places` — all blocks that a run of calls returns.
-/
import FuseMdr.BlockAllocator
import FuseMdr.Raid6Encode

set_option relaxedAutoImplicit false
set_option autoImplicit false

namespace Ncfs

/-- The code blocks: disk `i` holds `Q` or `P` of row `b`. -/
abbrev Raid6Code (n i b : ℕ) : Prop := i = codeDiskId n b ∨ i = parityDiskId n b

/-- A call of `encode` with a whole result.  On more than ten disks a coefficient may lie outside
the tables: what is then on the devices is not defined, but the block has been chosen before. -/
def raid6Call (undefinedDisk : ℕ → ℕ → Byte) (st : NcfsState) (buf : Buf) (size : ℕ) :
    Option (ℕ × ℕ) × NcfsState :=
  match Coding4Raid6.new.encode st buf size with
  | .ok result => result
  | .error _ =>
      let (served, st) := raid6Allocate st (blockRequest st size)
      (served, { st with disk := undefinedDisk })

/-- A run of calls: each with its buffer, its size and what an undefined coefficient would make of
the devices. -/
def raid6Calls (calls : List (Buf × ℕ × (ℕ → ℕ → Byte))) (s : Served) : Served :=
  calls.foldl (fun s call => s.serve (raid6Call call.2.2 s.st call.1 call.2.1)) s

/-- Every row has a block of data. -/
theorem exists_raid6Data {n : ℕ} (hn : 3 ≤ n) (b : ℕ) : ∃ i < n, ¬ Raid6Code n i b := by
  have hcard : ({codeDiskId n b, parityDiskId n b} : Finset ℕ).card < (Finset.range n).card := by
    have := Finset.card_le_two (a := codeDiskId n b) (b := parityDiskId n b)
    rw [Finset.card_range]
    omega
  obtain ⟨i, hi, hnot⟩ := Finset.exists_mem_notMem_of_card_lt_card hcard
  exact ⟨i, Finset.mem_range.1 hi, by simpa using hnot⟩

theorem raid6SkipCodeBlocks_eq (st : NcfsState) :
    raid6SkipCodeBlocks st = skipBlocks st (Raid6Code st.diskTotalNum) := by
  refine Loops.foldl_congr (fun st' : NcfsState => st'.diskTotalNum = st.diskTotalNum)
    (fun st' i _ h => ⟨by rw [h], ?_⟩) rfl
  split <;> exact h

theorem raid6Pick_eq (st : NcfsState) (req : ℕ) :
    raid6Pick st req = pickBlock st (selectDisk st st.diskTotalNum req) := by
  rw [raid6Pick]
  cases selectDisk st st.diskTotalNum req with
  | none => rfl
  | some x => rfl

theorem raid6Allocate_eq (st : NcfsState) (req : ℕ) :
    raid6Allocate st req = takeBlock (skipBlocks st (Raid6Code st.diskTotalNum))
      (selectDisk (skipBlocks st (Raid6Code st.diskTotalNum)) st.diskTotalNum req) req := by
  have htotal : (raid6SkipCodeBlocks st).diskTotalNum = st.diskTotalNum :=
    (raid6SkipCodeBlocks_same st).total_eq
  rw [raid6Allocate, raid6Pick_eq, htotal, raid6SkipCodeBlocks_eq]
  rfl

/-- What a call returns is the allocated block, and its bookkeeping that of the allocation. -/
theorem raid6Call_eq (undefinedDisk : ℕ → ℕ → Byte) (st : NcfsState) (buf : Buf) (size : ℕ) :
    ∃ disk, raid6Call undefinedDisk st buf size =
      ((raid6Allocate st (blockRequest st size)).1,
        { (raid6Allocate st (blockRequest st size)).2 with disk := disk }) := by
  rw [raid6Call]
  cases henc : Coding4Raid6.new.encode st buf size with
  | ok result =>
      obtain ⟨served, st'⟩ := result
      obtain ⟨hserved, hst'⟩ := Coding4Raid6.encode_ok henc
      exact ⟨st'.disk, Prod.ext hserved hst'⟩
  | error e => exact ⟨undefinedDisk, rfl⟩

/-- One call on a store without recycled blocks. -/
theorem Fresh.raid6Call {n rows : ℕ} (hn : 3 ≤ n) {s : Served}
    (h : Fresh n (fun i b => ¬ Raid6Code n i b) rows s) (undefinedDisk : ℕ → ℕ → Byte) (buf : Buf)
    {size : ℕ} (hpos : 0 < size) (hsize : size ≤ s.st.diskBlockSize) :
    Fresh n (fun i b => ¬ Raid6Code n i b) rows (s.serve (raid6Call undefinedDisk s.st buf size)) ∧
      ((Ncfs.raid6Call undefinedDisk s.st buf size).1 = none →
        ∀ i < n, ∀ b < rows, ¬ Raid6Code n i b → (i, b) ∈ s.returned) := by
  obtain ⟨disk, hcall⟩ := raid6Call_eq undefinedDisk s.st buf size
  have hreq : blockRequest s.st size = 1 := by
    rw [blockRequest_eq s.st hsize, if_neg (by omega)]
  have hstep := h.step (exists_raid6Data hn)
    (fun st i _ (huse : (1 : ℤ) ≤ st.freeSize i) => huse) (fun st i _ _ hroom => hroom) rfl
  have halloc : raid6Allocate s.st 1 = takeBlock (skipBlocks s.st (Raid6Code n))
      (Frontier.scan (fun i => (1 : ℤ) ≤ (skipBlocks s.st (Raid6Code n)).freeSize i)
        (skipBlocks s.st (Raid6Code n)).freeOffset n) 1 := by
    rw [raid6Allocate_eq, h.total_eq]
    rfl
  rw [hcall, hreq, halloc]
  exact ⟨hstep.1.of_disk disk, hstep.2⟩

/-- **The blocks of a run.**  From a store of equal disks on which nothing has been written, a run
of calls for one block each returns no code block and no block twice, and when a call finds no block
all data blocks of all rows have been returned.  Up to ten disks nothing is undefined. -/
theorem raid6Calls_places {n rows : ℕ} (hn : 3 ≤ n) {st : NcfsState} (htotal : st.diskTotalNum = n)
    (hoffset : st.freeOffset = fun _ => 0) (hfree : ∀ i < n, st.freeSize i = rows)
    (hlist : st.spaceList = []) (calls : List (Buf × ℕ × (ℕ → ℕ → Byte)))
    (hcalls : ∀ call ∈ calls, 0 < call.2.1 ∧ call.2.1 ≤ st.diskBlockSize) :
    (raid6Calls calls ⟨st, []⟩).returned.Nodup ∧
    (∀ d b, (d, b) ∈ (raid6Calls calls ⟨st, []⟩).returned →
      d < n ∧ b < rows ∧ d ≠ parityDiskId n b ∧ d ≠ codeDiskId n b) ∧
    (∀ undefinedDisk buf size, 0 < size → size ≤ st.diskBlockSize →
      (raid6Call undefinedDisk (raid6Calls calls ⟨st, []⟩).st buf size).1 = none →
        ∀ b < rows, ∀ d ∈ dataDisks n b, (d, b) ∈ (raid6Calls calls ⟨st, []⟩).returned) ∧
    (n ≤ 10 → ∀ buf size, size ≤ st.diskBlockSize →
      ∃ result, Coding4Raid6.new.encode (raid6Calls calls ⟨st, []⟩).st buf size = .ok result) := by
  have hrun : Fresh n (fun i b => ¬ Raid6Code n i b) rows (raid6Calls calls ⟨st, []⟩) ∧
      (raid6Calls calls ⟨st, []⟩).st.diskBlockSize = st.diskBlockSize := by
    refine Loops.foldl_inv (fun s : Served => Fresh n (fun i b => ¬ Raid6Code n i b) rows s ∧
      s.st.diskBlockSize = st.diskBlockSize) (fun s call hcall ⟨hfresh, hblock⟩ => ?_)
      ⟨.init htotal hoffset hfree hlist (exists_raid6Data hn 0), rfl⟩
    obtain ⟨hpos, hsize⟩ := hcalls call hcall
    refine ⟨(hfresh.raid6Call hn call.2.2 call.1 hpos (by rwa [hblock])).1, ?_⟩
    obtain ⟨disk, heq⟩ := raid6Call_eq call.2.2 s.st call.1 call.2.1
    rw [Served.serve_st, heq]
    exact (raid6Allocate_same s.st _).block_eq.trans hblock
  obtain ⟨hfresh, hblock⟩ := hrun
  refine ⟨hfresh.handed.nodup, fun d b hmem => ?_,
    fun undefinedDisk buf size hpos hsize hnone b hb d hd => ?_, fun hn' buf size hsize => ?_⟩
  · obtain ⟨hd, hcode, hb⟩ := hfresh.handed.mem hmem
    exact ⟨hd, hb, fun h => hcode (.inr h), fun h => hcode (.inl h)⟩
  · obtain ⟨hd, hp, hq⟩ := mem_dataDisks.1 hd
    exact (hfresh.raid6Call hn undefinedDisk buf hpos (by rwa [hblock])).2 hnone d hd b hb
      fun hcode => hcode.elim hq hp
  · rw [← hblock] at hsize
    obtain ⟨served, st', henc, -⟩ := Coding4Raid6.encode_spec (hfresh.total_eq.symm ▸ hn)
      (hfresh.total_eq.symm ▸ hn') buf hsize
    exact ⟨_, henc⟩

/-- Seven calls for a block each. -/
def sevenCalls : List (Buf × ℕ × (ℕ → ℕ → Byte)) :=
  (List.range 7).map fun i => (fun j => Byte.ofNat (i + j), 3 + i % 2, fun _ _ => 0)

/-- Four disks of three rows: six calls take all data blocks, and the seventh finds none. -/
theorem raid6Calls_places_four :
    let s := raid6Calls sevenCalls ⟨.blank 4 2 4 fourBytes_pos (3 : ℕ), []⟩
    s.returned.length = 6 ∧ s.returned.Nodup ∧
      (∀ d b, (d, b) ∈ s.returned → d < 4 ∧ b < 3 ∧ d ≠ parityDiskId 4 b ∧ d ≠ codeDiskId 4 b) ∧
      (∀ b < 3, ∀ d ∈ dataDisks 4 b, (d, b) ∈ s.returned) ∧
      ∃ result, Coding4Raid6.new.encode s.st (fun _ => 0) 4 = .ok result := by
  intro s
  have hcalls : ∀ call ∈ sevenCalls, 0 < call.2.1 ∧ call.2.1 ≤ 4 := by decide +kernel
  obtain ⟨hnodup, hplaces, hfull, hdefined⟩ := @raid6Calls_places 4 3 (by decide)
    (.blank 4 2 4 fourBytes_pos (3 : ℕ)) rfl rfl (fun _ _ => rfl) rfl sevenCalls hcalls
  refine ⟨by decide +kernel, hnodup, hplaces, ?_, hdefined (by decide) _ 4 le_rfl⟩
  exact hfull (fun _ _ => 0) (fun _ => 0) 4 (by decide) le_rfl (by decide +kernel)

end Ncfs
