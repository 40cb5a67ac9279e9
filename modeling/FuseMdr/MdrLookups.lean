/-
The lookups that the repair of a disk makes under the MDR-I code.

`decode` and the rebuild of a stripe group look up rows in the repair set and chains in a table, and
end the process where nothing is found.  The chains only name rows of the set, and there is a chain
for each row outside it.  The tables that an object has cached belong to one disk, so that the
lookups meet even where another disk has failed.

Main definitions:

* `Ncfs.RepairCall` — a call of `decode` or of the rebuild, in any state of the store;
* `Ncfs.RepairCall.next` — the object after it.

Main results:

* `Ncfs.mate_bijOn`, `Ncfs.repairRows_length` — the rows outside the repair set are matched with
  those in it;
* `Ncfs.RepairCall.run_spec` — a call finds what it looks up;
* `Ncfs.repairSet_spec` — the repair set, and the calls that go by it.
-/
import FuseMdr.MdrHistory

set_option relaxedAutoImplicit false
set_option autoImplicit false

namespace Ncfs

/-! ### The rows in the set and the rows outside -/

section Rows

variable {k d : ℕ}

/-- The rows outside the repair set are matched with those in it. -/
theorem mate_bijOn (hk : 1 ≤ k) (hd : d ≤ k) :
    Set.BijOn (mate k d) {s | s ∈ repairRows k d} {t | t < 2 ^ k ∧ t ∉ repairRows k d} := by
  refine ⟨fun s hs => ?_, fun s hs s' hs' heq => ?_, fun t ht => ?_⟩
  · obtain ⟨hlt, hrep⟩ := mem_repairRows.1 hs
    obtain ⟨hmate, hout⟩ := mate_spec k hd hlt hrep
    refine ⟨hmate, fun hmem => ?_⟩
    rw [(mem_repairRows.1 hmem).2] at hout
    cases hout
  · obtain ⟨hlt, hrep⟩ := mem_repairRows.1 hs
    obtain ⟨hlt', hrep'⟩ := mem_repairRows.1 hs'
    exact mate_injective k hd hlt hlt' hrep hrep' heq
  · obtain ⟨hlt, hout⟩ := ht
    have hfalse : repairRow k d t = false := by simpa [mem_repairRows, hlt] using hout
    obtain ⟨s, hslt, hrep, hmate⟩ := exists_mate k hk hd hlt hfalse
    exact ⟨s, mem_repairRows.2 ⟨hslt, hrep⟩, hmate⟩

/-- The repair set is half of the rows. -/
theorem repairRows_length (hk : 1 ≤ k) (hd : d ≤ k) : (repairRows k d).length = 2 ^ (k - 1) := by
  have hbij := mate_bijOn hk hd
  let rows : Finset ℕ := (repairRows k d).toFinset
  have hcard : rows.card = (repairRows k d).length := List.toFinset_card_of_nodup
    (repairRows_nodup k d)
  have hsub : rows ⊆ Finset.range (2 ^ k) := fun s hs =>
    Finset.mem_range.2 (mem_repairRows.1 (List.mem_toFinset.1 hs)).1
  have hmem : ∀ t, t ∈ Finset.range (2 ^ k) \ rows ↔ t < 2 ^ k ∧ t ∉ repairRows k d := fun t => by
    rw [Finset.mem_sdiff, Finset.mem_range, List.mem_toFinset]
  have heq : rows.card = (Finset.range (2 ^ k) \ rows).card := by
    refine Finset.card_nbij (mate k d)
      (fun s hs => (hmem _).2 (hbij.mapsTo (List.mem_toFinset.1 hs))) ?_ ?_
    · intro s hs s' hs' h
      exact hbij.injOn (List.mem_toFinset.1 hs) (List.mem_toFinset.1 hs') h
    · intro t ht
      obtain ⟨s, hs, rfl⟩ := hbij.surjOn ((hmem t).1 ht)
      exact ⟨s, List.mem_toFinset.2 hs, rfl⟩
  have htotal := Finset.card_sdiff_add_card_eq_card hsub
  rw [Finset.card_range, ← heq, hcard] at htotal
  obtain ⟨n, rfl⟩ := Nat.exists_eq_add_of_le' hk
  rw [pow_succ] at htotal
  rw [Nat.add_sub_cancel]
  omega

end Rows

/-! ### A call -/

/-- A call of `decode`, or of `mdr_I_recover_oneStripeGroup2`, for a disk of a store with `k` data
disks, whatever state it is in. -/
structure RepairCall (k : ℕ) where
  /-- The state of the store. -/
  st : NcfsState
  /-- The disk. -/
  diskId : ℕ
  /-- The buffer. -/
  buf : Buf
  /-- The size. -/
  size : ℕ
  /-- The offset. -/
  offset : ℕ
  /-- The buffers `pread_stripes`, where a stripe group is rebuilt. -/
  group : Option (ℕ → ℕ → Buf)
  /-- `data_disk_num`. -/
  data_eq : st.dataDiskNum = k
  /-- There are two more disks, `P` and `Q`. -/
  total_eq : st.diskTotalNum = k + 2
  /-- The disk is one of them. -/
  disk_le : diskId ≤ k + 1

namespace RepairCall

variable {k : ℕ}

/-- The call, as far as the object goes. -/
def run (c : RepairCall k) (coding : Coding4Mdr1) : Except CodingError Coding4Mdr1 :=
  match c.group with
  | none => do
      let r ← coding.decode c.st c.diskId c.buf c.size c.offset
      return r.coding
  | some pread => do
      let r ← mdrIRecoverOneStripeGroup2 coding c.st c.diskId c.buf c.size c.offset pread
      return r.coding

/-- The object after the call, which a call that fails leaves as it is. -/
def next (coding : Coding4Mdr1) (c : RepairCall k) : Coding4Mdr1 :=
  match c.run coding with
  | .ok coding' => coding'
  | .error _ => coding

variable {coding : Coding4Mdr1} {e : ℕ}

/-- The other blocks of a group are repaired when the table has the chains of the set. -/
theorem repairOthers_ok {st : NcfsState} (hk : 1 ≤ k) (hnum : st.diskTotalNum = k + 2) (he : e ≤ k)
    (hstrip : coding.stripSize = 2 ^ k)
    (hmates : ∀ s ∈ repairRows k e, coding.mdrIOneDpDiskFailNonStripeIndex
      (mate k e s) = repairChain k e s)
    (pread : ℕ → ℕ → Buf) (buf : Buf) :
    ∃ buf', repairOthers coding st (repairRows k e) pread buf = .ok buf' := by
  have hlookup : ∀ t < coding.stripSize, t ∉ repairRows k e →
      (coding.mdrIOneDpDiskFailNonStripeIndex t).length = st.diskTotalNum ∧
        ∀ j, ∀ x ∈ (coding.mdrIOneDpDiskFailNonStripeIndex t).getD j [], x ∈ repairRows k e := by
    intro t ht hout
    rw [hstrip] at ht
    obtain ⟨s, hs, rfl⟩ := (mate_bijOn hk he).surjOn ⟨ht, hout⟩
    rw [hmates s hs, repairChain_length, hnum]
    exact ⟨rfl, fun j x hx => mem_repairRows_of_mem_repairChain hs hx⟩
  obtain ⟨buf', hrun, -⟩ := repairOthers_block hlookup pread buf
  exact ⟨buf', hrun⟩

/-- The rebuild of a group of a data disk or the `P` disk, by the disk `e` that the caches belong
to. -/
theorem rebuild_dpDisk (c : RepairCall k) (hk : 1 ≤ k) (hd : c.diskId ≤ k)
    (hstatus : c.st.diskStatus c.diskId ≠ 0) (hfailed : failedDiskNum c.st = 1) (he : e ≤ k)
    (hc : coding.CachesFor k e)
    (hV : coding.mdrIOneDpDiskFailBoolV = false → c.diskId = e) (pread : ℕ → ℕ → Buf) :
    ∃ r, mdrIRecoverOneStripeGroup2 coding c.st c.diskId c.buf c.size c.offset pread = .ok r ∧
      r.coding.CachesFor k e ∧ r.coding.mdrIOneDpDiskFailBoolV = true := by
  have hnum := c.total_eq
  obtain ⟨cached, hrows, hcached, hfilled⟩ := cacheStripeIndexs_ok hk c.data_eq he hc hV
  obtain ⟨full, hfull, hcfull, hVfull, hmates⟩ :=
    cacheNonStripeIndexs_ok c.data_eq he hcached hfilled
  let firstRow := c.offset / c.st.diskBlockSize / 2 ^ k * 2 ^ k
  let read := repairStripes c.st c.diskId (repairRows k e)
    (preadStripes c.st c.diskId firstRow (repairRows k e) pread) (memset0 c.buf c.size)
  obtain ⟨buf', hothers⟩ := repairOthers_ok hk hnum he hcfull.stripSize_eq hmates read.1 read.2
  refine ⟨⟨full, buf', read.1, c.size⟩, ?_, hcfull, hVfull⟩
  rw [mdrIRecoverOneStripeGroup2, if_neg hstatus, if_pos hfailed, if_pos (by omega), hrows]
  simp only [Loops.ok_bind, hfull, hcfull.rows hVfull, hc.stripSize_eq, hcfull.stripSize_eq]
  rw [hothers]
  rfl

theorem leftBy_setQ {first : Option ℕ} (h : LeftBy coding k first) (table : ℕ → List (List ℕ)) :
    LeftBy { coding with mdrIOneQDiskFailBool := true, mdrIOneQDiskFailStripeIndex := table } k
      first := by
  cases first with
  | none => exact ⟨⟨h.1.matrix_eq, h.1.stripSize_eq⟩, h.2⟩
  | some e =>
      obtain ⟨he, hc, hV⟩ := h
      exact ⟨he, ⟨⟨hc.matrix_eq, hc.stripSize_eq⟩, hc.rows, hc.order, hc.chains⟩, hV⟩

/-- The disk that the caches belong to, once a call for a data disk or the `P` disk has been
made. -/
theorem exists_cachesFor (c : RepairCall k) {first : Option ℕ} (h : LeftBy coding k first) :
    ∃ e ≤ k, coding.CachesFor k e ∧
    (c.diskId ≤ k → coding.mdrIOneDpDiskFailBoolV = false → c.diskId = e) := by
  cases first with
  | none =>
      refine ⟨min c.diskId k, min_le_right _ _, h.1.cachesFor h.2.1 h.2.2, fun hd _ => ?_⟩
      exact (min_eq_left hd).symm
  | some e => exact ⟨e, h.1, h.2.1, fun _ hV => absurd hV (by rw [h.2.2]; decide)⟩

/-- `decode` finds what it looks up. -/
theorem decode_spec (c : RepairCall k) (hk : 1 ≤ k) {first : Option ℕ} (h : LeftBy coding k first) :
    (∃ r first', coding.decode c.st c.diskId c.buf c.size c.offset = .ok r ∧
      LeftBy r.coding k first') ∨ coding.decode c.st c.diskId c.buf c.size c.offset =
        .error .failed := by
  obtain ⟨e, he, hc, hV⟩ := c.exists_cachesFor h
  have hnum := c.total_eq
  have hdisk := c.disk_le
  by_cases hstatus : c.st.diskStatus c.diskId = 0
  · exact Or.inl ⟨⟨coding, _, _⟩, first, if_pos hstatus, h⟩
  · by_cases hfailed : failedDiskNum c.st = 1
    · by_cases hd : c.diskId ≤ k
      · obtain ⟨r, hrun, -, hr, hVr, -⟩ :=
          decode_dpDisk hk c.data_eq hnum hd hstatus hfailed he hc (hV hd) c.buf c.size c.offset
        exact Or.inl ⟨r, some e, hrun, he, hr, hVr⟩
      · obtain hq : c.diskId = k + 1 := by omega
        refine Or.inl ⟨⟨coding, memset0 c.buf c.size, c.size⟩, first, ?_, h⟩
        rw [hq]
        exact decode_qDisk hnum (hq ▸ hstatus) hfailed coding c.buf c.size c.offset
    · right
      rw [Coding4Mdr1.decode, if_neg hstatus, if_neg hfailed]

/-- So does the rebuild of a stripe group. -/
theorem rebuild_spec (c : RepairCall k) (hk : 1 ≤ k) {first : Option ℕ} (h : LeftBy coding k first)
    (pread : ℕ → ℕ → Buf) :
    (∃ r first', mdrIRecoverOneStripeGroup2 coding c.st c.diskId c.buf c.size c.offset
      pread = .ok r ∧ LeftBy r.coding k first') ∨
      mdrIRecoverOneStripeGroup2 coding c.st c.diskId c.buf c.size c.offset pread =
        .error .failed := by
  obtain ⟨e, he, hc, hV⟩ := c.exists_cachesFor h
  have hnum := c.total_eq
  have hdisk := c.disk_le
  by_cases hstatus : c.st.diskStatus c.diskId = 0
  · exact Or.inl ⟨⟨coding, _, _, _⟩, first, if_pos hstatus, h⟩
  · by_cases hfailed : failedDiskNum c.st = 1
    · by_cases hd : c.diskId ≤ k
      · obtain ⟨r, hrun, hr, hVr⟩ := c.rebuild_dpDisk hk hd hstatus hfailed he hc (hV hd) pread
        exact Or.inl ⟨r, some e, hrun, he, hr, hVr⟩
      · -- no lookup is made for the `Q` disk
        left
        rw [mdrIRecoverOneStripeGroup2, if_neg hstatus, if_pos hfailed, if_neg (by omega),
          if_pos (by omega)]
        refine ⟨_, first, rfl, ?_⟩
        by_cases hflag : coding.mdrIOneQDiskFailBool = true
        · simp only [if_pos hflag]
          exact h
        · simp only [if_neg hflag]
          exact leftBy_setQ h _
    · right
      rw [mdrIRecoverOneStripeGroup2, if_neg hstatus, if_neg hfailed]

/-- A call finds what it looks up. -/
theorem run_spec (c : RepairCall k) (hk : 1 ≤ k) {first : Option ℕ} (h : LeftBy coding k first) :
    (∃ coding' first', c.run coding = .ok coding' ∧ LeftBy coding' k first') ∨
    c.run coding = .error .failed := by
  rw [run]
  cases c.group with
  | none =>
      rcases c.decode_spec hk h with ⟨r, first', hrun, hr⟩ | hfail
      · exact Or.inl ⟨r.coding, first', by simp only [hrun]; rfl, hr⟩
      · exact Or.inr (by simp only [hfail]; rfl)
  | some pread =>
      rcases c.rebuild_spec hk h pread with ⟨r, first', hrun, hr⟩ | hfail
      · exact Or.inl ⟨r.coding, first', by simp only [hrun]; rfl, hr⟩
      · exact Or.inr (by simp only [hfail]; rfl)

/-- A history of calls leaves the caches of one disk. -/
theorem foldl_next (hk : 1 ≤ k) (calls : List (RepairCall k)) {first : Option ℕ}
    (h : LeftBy coding k first) :
    ∃ first', LeftBy (calls.foldl next coding) k first' := by
  refine Loops.foldl_inv (fun coding => ∃ first', LeftBy coding k first')
    (fun coding c _ hcoding => ?_) ⟨first, h⟩
  obtain ⟨first, hcoding⟩ := hcoding
  rw [next]
  rcases c.run_spec hk hcoding with ⟨coding', first', hrun, h'⟩ | hfail
  · rw [hrun]
    exact ⟨first', h'⟩
  · rw [hfail]
    exact ⟨first, hcoding⟩

end RepairCall

/-- The repair set of a disk is half of the rows.  A row of the matrix in it selects one block
outside, which is on that disk, and this matches the set with the other rows.  Whatever calls an
object has answered, for this disk or for others, no lookup of its next call fails. -/
theorem repairSet_spec (st : NcfsState) {coding : Coding4Mdr1}
    (hnew : Coding4Mdr1.new st = .ok coding) :
    let k := st.dataDiskNum
    (∀ d ≤ k, ∃ stripeIndexs, mdrIRepairDpDiskStripeIndexs d k = .ok stripeIndexs ∧
      stripeIndexs.length = 2 ^ (k - 1) ∧ stripeIndexs.Nodup ∧ (∀ s ∈ stripeIndexs, s < 2 ^ k) ∧
      ∃ row : ℕ → ℕ, Set.BijOn row {s | s ∈ stripeIndexs} {t | t < 2 ^ k ∧ t ∉ stripeIndexs} ∧
        ∀ s ∈ stripeIndexs, ∀ j ≤ k, ∀ t < 2 ^ k, t ∉ stripeIndexs →
          (coding.hasBit (coding.mdrIEncodingMatrixB s j) t = true ↔ j = d ∧ t = row s)) ∧
    ∀ (calls : List (RepairCall k)) (c : RepairCall k),
      c.run (calls.foldl RepairCall.next coding) ≠ .error .exit := by
  intro k
  have hk : 1 ≤ k := by
    by_contra hzero
    rw [Coding4Mdr1.new, mdrIEncodingMatrix, if_pos (by omega)] at hnew
    cases hnew
  obtain ⟨coding', hnew', hc, hV, hM, -⟩ := Coding4Mdr1.new_ok hk
  obtain rfl : coding = coding' := Except.ok.inj (hnew.symm.trans hnew')
  refine ⟨fun d hd => ⟨repairRows k d, mdrIRepairDpDiskStripeIndexs_eq hk hd,
    repairRows_length hk hd, repairRows_nodup k d, fun s hs => (mem_repairRows.1 hs).1, mate k d,
    mate_bijOn hk hd, ?_⟩, fun calls c => ?_⟩
  · intro s hs j hj t ht hout
    obtain ⟨hslt, hrep⟩ := mem_repairRows.1 hs
    rw [hc.hasBit_eq]
    exact selects_repairRow k hd hslt hrep hj ht (by simpa [mem_repairRows, ht] using hout)
  · have hfresh : LeftBy coding k none := ⟨hc, hV, hM⟩
    obtain ⟨first, hleft⟩ := RepairCall.foldl_next hk calls hfresh
    intro hexit
    rcases c.run_spec hk hleft with ⟨coding', -, hrun, -⟩ | hfail
    · cases hrun.symm.trans hexit
    · cases hfail.symm.trans hexit

/-- Three data disks. -/
theorem repairSet_spec_three :
    ∃ coding, Coding4Mdr1.new (NcfsState.blank 5 3 4 fourBytes_pos 8) = .ok coding ∧
    (∃ stripeIndexs, mdrIRepairDpDiskStripeIndexs 1 3 = .ok stripeIndexs ∧
      stripeIndexs.length = 4) ∧ ∀ (calls : List (RepairCall 3)) (c : RepairCall 3), c.run
        (calls.foldl RepairCall.next coding) ≠ .error .exit := by
  obtain ⟨coding, hnew, -⟩ := @Coding4Mdr1.new_ok (NcfsState.blank 5 3 4 fourBytes_pos 8)
    (by decide : 1 ≤ 3)
  obtain ⟨hsets, hcalls⟩ := repairSet_spec _ hnew
  obtain ⟨stripeIndexs, hrun, hlen, -⟩ := hsets 1 (by decide : 1 ≤ 3)
  exact ⟨coding, hnew, ⟨stripeIndexs, hrun, hlen⟩, hcalls⟩

end Ncfs
