/-
Which blocks the MBR code hands out.

On disk `d` the native blocks of a segment follow `d` blocks that are not native, or there are none
at all on it, while `encode` moves each disk over one block in a call.  A disk that stands on a
block which is not native is not a candidate.  Disk `0` has native blocks in every row, so that it
is never behind; and all native blocks are handed out row by row, none of them twice and none of
them left out.

Main definitions:

* `Ncfs.StoreOp.OneBlock` — a call of `encode` for one block;
* `Ncfs.MbrOther` — the blocks that are not native, as the loop tests them.

Main results:

* `Ncfs.exists_mbrNative` — every row has a native block;
* `Ncfs.Fresh.mbrCall` — one call on a store without recycled blocks;
* `Ncfs.Coding4Mbr.encode_run_places` — all blocks that a run of calls returns.
-/
import FuseMdr.MbrEncode

set_option relaxedAutoImplicit false
set_option autoImplicit false

namespace Ncfs

/-- A call of `encode` for one block of `bs` bytes. -/
def StoreOp.OneBlock (bs : ℕ) : StoreOp → Prop
  | .encode _ size => 0 < size ∧ size ≤ bs
  | .free _ _ => False

/-- The blocks that are not native. -/
abbrev MbrOther (M : Coding4Mbr) (i b : ℕ) : Prop :=
  mbrFindBlockId i b M.mbrSegmentSize = -1 ∨ M.mbrM ≤ mbrFindBlockId i b M.mbrSegmentSize

section Calls

variable {M : Coding4Mbr} {n k rows : ℕ}

theorem mbrData_iff (hM : M.Fits n k) {d b : ℕ} : MbrData M n d b ↔ d < n ∧ ¬ MbrOther M d b := by
  have hseg := hM.segment_eq
  have hn := hM.pos
  rw [MbrData]
  refine and_congr_right fun hd => ?_
  constructor
  · rintro ⟨hpos, hlt⟩ (hnone | hcoded)
    · omega
    · omega
  · intro hnot
    have hne : mbrFindBlockId d b M.mbrSegmentSize ≠ -1 := fun h => hnot (.inl h)
    exact ⟨mbrFindBlockId_nonneg (by omega) (by omega) hne, not_le.1 fun h => hnot (.inr h)⟩

/-- Every row has a native block, on disk `0`. -/
theorem exists_mbrNative (hM : M.Fits n k) (b : ℕ) : ∃ i < n, ¬ MbrOther M i b := by
  have hseg := hM.segment_eq
  have hn := hM.pos
  have hoff := Nat.mod_lt b (show 0 < M.mbrSegmentSize by omega)
  have hfirst := hM.segment_le
  refine ⟨0, by omega, ?_⟩
  rcases mbrPosition_block (d := 0) (b := b) (show 0 < M.mbrSegmentSize by omega)
    (Nat.zero_le _) with
    ⟨-, hfind, -⟩ | ⟨hlt, -, -⟩
  · rw [Triangle.pairId, Triangle.rowStart_zero] at hfind
    rintro (hnone | hcoded)
    · omega
    · omega
  · omega

/-- One call on a store without recycled blocks. -/
theorem Fresh.mbrCall (hM : M.Fits n k) (J : Jerasure) {s : Served}
    (h : Fresh n (fun i b => ¬ MbrOther M i b) rows s) (buf : Buf) {size : ℕ} (hpos : 0 < size)
    (hsize : size ≤ s.st.diskBlockSize) :
    Fresh n (fun i b => ¬ MbrOther M i b) rows (s.serve (M.encode J s.st buf size)) ∧
      ((M.encode J s.st buf size).1 = none →
        ∀ i < n, ∀ b < rows, ¬ MbrOther M i b → (i, b) ∈ s.returned) := by
  have hreq : blockRequest s.st size = 1 := by
    rw [blockRequest_eq s.st hsize, if_neg (by omega)]
  have hstep := @Fresh.step n rows (MbrOther M) _
    (fun st i => (1 : ℤ) ≤ st.freeSize i ∧ MbrNative M i (st.freeOffset i)) _
      (exists_mbrNative hM) s h
    (fun st i _ huse => huse.1)
    (fun st i _ hgood hroom => ⟨hroom, fun h => hgood (.inl h), not_le.1 fun h =>
      hgood (.inr h)⟩) _ rfl
  have halloc : mbrAllocate M s.st 1 = takeBlock (skipBlocks s.st (MbrOther M))
      (Frontier.scan (fun i => (1 : ℤ) ≤ (skipBlocks s.st (MbrOther M)).freeSize i ∧
        MbrNative M i ((skipBlocks s.st (MbrOther M)).freeOffset i))
        (skipBlocks s.st (MbrOther M)).freeOffset n) 1 := by
    have htotal : (skipBlocks s.st (MbrOther M)).diskTotalNum = n :=
      (skipBlocks_same s.st _).total_eq.trans h.total_eq
    rw [← htotal]
    rfl
  rw [← halloc] at hstep
  obtain ⟨disk, hwrite⟩ := writeTaken_eq (mbrWrite_eq J M buf size) (mbrAllocate M s.st 1)
  rw [Coding4Mbr.encode, encodeWith, hreq, hwrite]
  exact ⟨hstep.1.of_disk disk, hstep.2⟩

theorem mbrEncode_block (J : Jerasure) (st : NcfsState) (buf : Buf) (size : ℕ) :
    (M.encode J st buf size).2.diskBlockSize = st.diskBlockSize := by
  obtain ⟨disk, hwrite⟩ := writeTaken_eq (mbrWrite_eq J M buf size)
    (mbrAllocate M st (blockRequest st size))
  rw [Coding4Mbr.encode, encodeWith, hwrite]
  exact (takeBlock_same st (skipBlocks_same st _) _ _).block_eq

/-- **The blocks of a run.**  For `1 ≤ k < n`, from a store of equal disks on which nothing has been
written, a run of calls for one block each returns native blocks only and none of them twice, and
when a call finds no block all native blocks of all disks have been returned. -/
theorem Coding4Mbr.encode_run_places (J : Jerasure) {n k bs rows : ℕ} (hk : 1 ≤ k) (hkn : k < n)
    (vandermonde : ℕ → ℕ → ℕ → ℕ → ℕ) {st : NcfsState} (htotal : st.diskTotalNum = n)
    (hblock : st.diskBlockSize = bs) (hoffset : st.freeOffset = fun _ => 0)
    (hfree : ∀ i < n, st.freeSize i = rows) (hlist : st.spaceList = []) {ops : List StoreOp}
    (hops : ∀ op ∈ ops, op.OneBlock bs) :
    let M := Coding4Mbr.new n k vandermonde
    let s := Machine.run (storeStep (M.encode J)) ⟨st, []⟩ ops
    s.returned.Nodup ∧
    (∀ d b, (d, b) ∈ s.returned → d < n ∧ b < rows ∧ 0 ≤ mbrFindBlockId d b M.mbrSegmentSize ∧
      mbrFindBlockId d b M.mbrSegmentSize < M.mbrM) ∧
    ∀ buf size, 0 < size → size ≤ bs → (M.encode J s.st buf size).1 = none →
      ∀ d < n, ∀ b < rows, 0 ≤ mbrFindBlockId d b M.mbrSegmentSize →
        mbrFindBlockId d b M.mbrSegmentSize < M.mbrM → (d, b) ∈ s.returned := by
  intro M s
  have hM : M.Fits n k := Coding4Mbr.new_spec hk hkn vandermonde
  have hrun : Fresh n (fun i b => ¬ MbrOther M i b) rows s ∧ s.st.diskBlockSize = bs := by
    refine @Machine.run_induct _ _ (storeStep (M.encode J))
      (fun s => Fresh n (fun i b => ¬ MbrOther M i b) rows s ∧ s.st.diskBlockSize = bs)
      (StoreOp.OneBlock bs) (fun s op hop hs => ?_) ⟨st, []⟩
      ⟨.init htotal hoffset hfree hlist (exists_mbrNative hM 0), hblock⟩ ops hops
    obtain ⟨hfresh, hbs⟩ := hs
    cases op with
    | encode buf size =>
        refine ⟨(hfresh.mbrCall hM J buf hop.1 (hbs.symm ▸ hop.2)).1, ?_⟩
        rw [storeStep, Served.serve_st]
        exact (mbrEncode_block J s.st buf size).trans hbs
    | free diskId blockNo => exact hop.elim
  obtain ⟨hfresh, hbs⟩ := hrun
  refine ⟨hfresh.handed.nodup, fun d b hmem => ?_,
    fun buf size hpos hsize hnone d hd b hb h₀ hlt => ?_⟩
  · obtain ⟨hd, hgood, hb⟩ := hfresh.handed.mem hmem
    obtain ⟨-, hnative⟩ := (mbrData_iff hM).2 ⟨hd, hgood⟩
    exact ⟨hd, hb, hnative⟩
  · exact (hfresh.mbrCall hM J buf hpos (hbs.symm ▸ hsize)).2 hnone d hd b hb
      ((mbrData_iff hM).1 ⟨hd, h₀, hlt⟩).2

end Calls

/-- Three disks with two rows, which are one segment: disk `0` holds both native blocks. -/
theorem Coding4Mbr.encode_run_places_three : ∃ st : NcfsState, st.diskTotalNum = 3 ∧
    (Machine.run (storeStep ((Coding4Mbr.new 3 1 fun _ _ _ _ => 1).encode .sample)) ⟨st, []⟩
      [.encode (fun _ => 0) 1, .encode (fun _ => 0) 1]).returned.Nodup := by
  refine ⟨.blank 3 1 1 (by decide) (2 : ℕ), rfl, ?_⟩
  refine (@Coding4Mbr.encode_run_places .sample 3 1 1 2 le_rfl (by decide) (fun _ _ _ _ => 1)
    (.blank 3 1 1 (by decide) (2 : ℕ)) rfl rfl rfl (fun _ _ => rfl) rfl
    [.encode (fun _ => 0) 1, .encode (fun _ => 0) 1] fun op hop => ?_).1
  simp only [List.mem_cons, List.not_mem_nil, or_false, or_self] at hop
  subst hop
  exact ⟨Nat.one_pos, le_rfl⟩

end Ncfs
