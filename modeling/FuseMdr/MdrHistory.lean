/-
Degraded reads by an object that has a history.

An object keeps the repair set and the chains of the first data or `P` disk that it has read for.
Once that disk has been repaired and another one has failed, the object goes on using them.

Main definitions:

* `Ncfs.DegradedRead` — a call of `decode` for the one disk that has failed;
* `Ncfs.served` — the object after a history of such calls;
* `Ncfs.firstDisk` — the first data or `P` disk of a history;
* `Ncfs.SameBytes` — two objects answer a read alike.

Main results:

* `Ncfs.served_ok` — a history runs, and leaves the caches of its first disk;
* `Ncfs.decode_history_iff` — the histories that make no difference to the reads of a disk.
-/
import FuseMdr.MdrDecode

set_option relaxedAutoImplicit false
set_option autoImplicit false

namespace Ncfs

/-! ### Histories -/

/-- A degraded read: a call of `decode` for the one disk that has failed, with the state of the
store at the time.  The store has `k` data disks throughout. -/
structure DegradedRead (k : ℕ) where
  /-- The state of the store. -/
  st : NcfsState
  /-- The disk that is read. -/
  diskId : ℕ
  /-- The buffer. -/
  buf : Buf
  /-- The size. -/
  size : ℕ
  /-- The offset. -/
  offset : ℕ
  /-- `data_disk_num`. -/
  data_eq : st.dataDiskNum = k
  /-- There are two more disks, `P` and `Q`. -/
  total_eq : st.diskTotalNum = k + 2
  /-- The disk is one of them. -/
  disk_le : diskId ≤ k + 1
  /-- It is the only one that has failed. -/
  status_eq : ∀ i < st.diskTotalNum, st.diskStatus i = if i = diskId then 1 else 0

variable {k : ℕ}

namespace DegradedRead

/-- The call. -/
def call (r : DegradedRead k) (coding : Coding4Mdr1) : Except CodingError DecodeResult :=
  coding.decode r.st r.diskId r.buf r.size r.offset

/-- A whole block is read. -/
def WholeBlock (r : DegradedRead k) : Prop :=
  r.size = r.st.diskBlockSize ∧ r.st.diskBlockSize ∣ r.offset

theorem status_ne (r : DegradedRead k) : r.st.diskStatus r.diskId ≠ 0 := by
  have hlt : r.diskId < r.st.diskTotalNum := by
    have := r.total_eq
    have := r.disk_le
    omega
  rw [r.status_eq r.diskId hlt, if_pos rfl]
  decide

theorem failed_eq (r : DegradedRead k) : failedDiskNum r.st = 1 := by
  refine failedDiskNum_eq_one ?_ r.status_eq
  have := r.total_eq
  have := r.disk_le
  omega

end DegradedRead

/-- The object after a degraded read. -/
def serve (coding : Coding4Mdr1) (r : DegradedRead k) : Except CodingError Coding4Mdr1 := do
  let result ← r.call coding
  return result.coding

/-- The object after a history of degraded reads. -/
def served (coding : Coding4Mdr1) (history : List (DegradedRead k)) :
    Except CodingError Coding4Mdr1 :=
  history.foldlM serve coding

/-- The first data or `P` disk that is read in a history. -/
def firstDisk (history : List (DegradedRead k)) : Option ℕ :=
  (history.find? fun r => r.diskId ≤ k).map fun r => r.diskId

/-- Two objects answer a read with the same bytes. -/
def SameBytes (coding coding' : Coding4Mdr1) (r : DegradedRead k) : Prop :=
  ∃ x x', r.call coding = .ok x ∧ r.call coding' = .ok x' ∧ ∀ o < r.size, x.buf o = x'.buf o

/-! ### What a history leaves -/

/-- The object is as new, or has the caches of the first disk. -/
def LeftBy (coding : Coding4Mdr1) (k : ℕ) : Option ℕ → Prop
  | none =>
      coding.For k ∧ coding.mdrIOneDpDiskFailBoolV = false ∧ coding.mdrIOneDpDiskFailBoolM = false
  | some e => e ≤ k ∧ coding.CachesFor k e ∧ coding.mdrIOneDpDiskFailBoolV = true

/-- A degraded read of a data disk or the `P` disk goes by the first one. -/
theorem DegradedRead.call_dpDisk (r : DegradedRead k) (hk : 1 ≤ k) (hd : r.diskId ≤ k)
    {coding : Coding4Mdr1} {first : Option ℕ} (h : LeftBy coding k first) :
    let e := first.getD r.diskId
    let blockNo := r.offset / r.st.diskBlockSize
    ∃ x, r.call coding = .ok x ∧ LeftBy x.coding k (some e) ∧
      (repairRow k e (blockNo % 2 ^ k) = true →
        x.buf = xorRow r.st r.diskId r.size r.offset (memset0 r.buf r.size)) ∧
      ∀ s ∈ repairRows k e, mate k e s = blockNo % 2 ^ k →
        x.buf = xorChain r.st r.diskId r.size (blockNo / 2 ^ k * 2 ^ k) (repairChain k e s)
          (memset0 r.buf r.size) := by
  intro e blockNo
  have hcaches : e ≤ k ∧ coding.CachesFor k e ∧
      (coding.mdrIOneDpDiskFailBoolV = false → r.diskId = e) := by
    cases first with
    | none => exact ⟨hd, h.1.cachesFor h.2.1 h.2.2, fun _ => rfl⟩
    | some e => exact ⟨h.1, h.2.1, fun hV => absurd hV (by rw [h.2.2]; decide)⟩
  obtain ⟨he, hc, hV⟩ := hcaches
  obtain ⟨x, hok, -, hx, hVx, hbuf⟩ :=
    decode_dpDisk hk r.data_eq r.total_eq hd r.status_ne r.failed_eq he hc hV r.buf r.size r.offset
  exact ⟨x, hok, ⟨he, hx, hVx⟩, hbuf⟩

theorem DegradedRead.call_qDisk (r : DegradedRead k) (hd : r.diskId = k + 1)
    (coding : Coding4Mdr1) :
    r.call coding = .ok ⟨coding, memset0 r.buf r.size, r.size⟩ := by
  rw [DegradedRead.call, hd]
  exact decode_qDisk r.total_eq (hd ▸ r.status_ne) r.failed_eq coding r.buf r.size r.offset

/-- One read. -/
theorem serve_ok (hk : 1 ≤ k) {coding : Coding4Mdr1} {first : Option ℕ} (h : LeftBy coding k first)
    (r : DegradedRead k) :
    ∃ coding', serve coding r = .ok coding' ∧ LeftBy coding' k (first.or (firstDisk [r])) := by
  by_cases hd : r.diskId ≤ k
  · obtain ⟨x, hok, hx, -⟩ := r.call_dpDisk hk hd h
    have hfirst : first.or (firstDisk [r]) = some (first.getD r.diskId) := by
      rw [firstDisk, List.find?_cons_of_pos (by simpa using hd)]
      cases first <;> rfl
    refine ⟨x.coding, ?_, hfirst ▸ hx⟩
    rw [serve, hok]
    rfl
  · have hfirst : first.or (firstDisk [r]) = first := by
      rw [firstDisk, List.find?_cons_of_neg (by simpa using hd)]
      exact Option.or_none
    refine ⟨coding, ?_, hfirst.symm ▸ h⟩
    rw [serve, r.call_qDisk (le_antisymm r.disk_le (by omega))]
    rfl

theorem firstDisk_cons (r : DegradedRead k) (history : List (DegradedRead k)) :
    firstDisk (r :: history) = (firstDisk [r]).or (firstDisk history) := by
  simp only [firstDisk, List.find?_cons]
  split <;> rfl

/-- A history runs, and leaves the caches of its first disk. -/
theorem served_ok (hk : 1 ≤ k) (history : List (DegradedRead k)) {coding : Coding4Mdr1}
    {first : Option ℕ} (h : LeftBy coding k first) :
    ∃ used, served coding history = .ok used ∧ LeftBy used k (first.or (firstDisk history)) := by
  induction history generalizing coding first with
  | nil => exact ⟨coding, rfl, by rwa [show firstDisk ([] : List (DegradedRead k)) = none from rfl,
      Option.or_none]⟩
  | cons r history ih =>
      obtain ⟨coding', hserve, h'⟩ := serve_ok hk h r
      obtain ⟨used, hrest, hused⟩ := ih h'
      refine ⟨used, ?_, ?_⟩
      · rw [served, List.foldlM_cons, hserve]
        exact hrest
      · rwa [firstDisk_cons, ← Option.or_assoc]

/-! ### The histories that matter -/

/-- Of two different disks, the first has a repair row that the second does not have. -/
theorem exists_repairRow_of_ne (k : ℕ) : ∀ {d e : ℕ}, d ≤ k → e ≤ k → d ≠ e →
    ∃ t < 2 ^ k, repairRow k d t = true ∧ repairRow k e t = false := by
  induction k with
  | zero => omega
  | succ k ih =>
      intro d e hd he hne
      have hrow : 2 ^ (k + 1) = 2 ^ k + 2 ^ k := by rw [pow_succ, mul_two]
      have hpos := Nat.two_pow_pos k
      -- a row in either half stands for a row of the previous matrix
      have hlow : ∀ {a t : ℕ}, a < k → t < 2 ^ k → repairRow (k + 1) a t = repairRow k a t := by
        intro a t ha ht
        rw [repairRow_succ_old ha, Nat.mod_eq_of_lt ht]
      have hhigh : ∀ {a t : ℕ}, a < k → t < 2 ^ k → repairRow (k + 1) a
          (2 ^ k + t) = repairRow k a t := by
        intro a t ha ht
        rw [repairRow_succ_old ha, Nat.add_mod_left, Nat.mod_eq_of_lt ht]
      rcases Nat.lt_trichotomy d k with hdk | rfl | hdk
      · rcases Nat.lt_trichotomy e k with hek | rfl | hek
        · obtain ⟨t, ht, htrue, hfalse⟩ := ih hdk.le hek.le hne
          exact ⟨t, by omega, (hlow hdk ht).trans htrue, (hlow hek ht).trans hfalse⟩
        · obtain ⟨t, ht, htrue, -⟩ := ih hdk.le le_rfl hne
          refine ⟨2 ^ e + t, by omega, (hhigh hdk ht).trans htrue, ?_⟩
          rw [repairRow_succ_data]
          exact decide_eq_false (by omega)
        · obtain rfl : e = k + 1 := by omega
          obtain ⟨t, ht, htrue, -⟩ := ih hdk.le le_rfl hdk.ne
          refine ⟨t, by omega, (hlow hdk ht).trans htrue, ?_⟩
          rw [repairRow_succ_parity]
          exact decide_eq_false (by omega)
      · rcases Nat.lt_trichotomy e d with hek | rfl | hek
        · obtain ⟨t, ht, -, hfalse⟩ := ih le_rfl hek.le hne
          refine ⟨t, by omega, ?_, (hlow hek ht).trans hfalse⟩
          rw [repairRow_succ_data]
          exact decide_eq_true ht
        · exact absurd rfl hne
        · obtain rfl : e = d + 1 := by omega
          refine ⟨0, by omega, ?_, ?_⟩
          · rw [repairRow_succ_data]
            exact decide_eq_true hpos
          · rw [repairRow_succ_parity]
            exact decide_eq_false (by omega)
      · obtain rfl : d = k + 1 := by omega
        rcases Nat.lt_trichotomy e k with hek | rfl | hek
        · obtain ⟨t, ht, -, hfalse⟩ := ih le_rfl hek.le hek.ne'
          refine ⟨2 ^ k + t, by omega, ?_, (hhigh hek ht).trans hfalse⟩
          rw [repairRow_succ_parity]
          exact decide_eq_true (by omega)
        · refine ⟨2 ^ e, by omega, ?_, ?_⟩
          · rw [repairRow_succ_parity]
            exact decide_eq_true le_rfl
          · rw [repairRow_succ_data]
            exact decide_eq_false (by omega)
        · omega

/-- Two objects that go by the same first disk answer a read of a data or `P` disk alike. -/
theorem sameBytes_of_first (hk : 1 ≤ k) (r : DegradedRead k) (hd : r.diskId ≤ k)
    {coding coding' : Coding4Mdr1} {first first' : Option ℕ} (h : LeftBy coding k first)
    (h' : LeftBy coding' k first') (heq : first.getD r.diskId = first'.getD r.diskId) :
    SameBytes coding coding' r := by
  obtain ⟨x, hok, hx, hrow, hchain⟩ := r.call_dpDisk hk hd h
  obtain ⟨x', hok', hx', hrow', hchain'⟩ := r.call_dpDisk hk hd h'
  rw [← heq] at hrow' hchain'
  refine ⟨x, x', hok, hok', fun o _ => ?_⟩
  have hlt := Nat.mod_lt (r.offset / r.st.diskBlockSize) (Nat.two_pow_pos k)
  cases hrep : repairRow k (first.getD r.diskId) (r.offset / r.st.diskBlockSize % 2 ^ k) with
  | true => rw [hrow hrep, hrow' hrep]
  | false =>
      obtain ⟨s, hslt, hs, hmate⟩ := exists_mate k hk hx.1 hlt hrep
      have hmem := mem_repairRows.2 ⟨hslt, hs⟩
      rw [hchain s hmem hmate, hchain' s hmem hmate]

/-- A store of one stripe group with blocks of one byte: all of it is zero but `Q` block `s`. -/
def oneQBlock (k d s : ℕ) : NcfsState :=
  { NcfsState.blank (k + 2) k 1 Nat.one_pos 0 with
    diskStatus := fun i => if i = d then 1 else 0
    disk := fun j x => if j = k + 1 ∧ x = s then Byte.ofNat 1 else 0 }

/-- A read of one of its blocks. -/
def oneQRead (k d s t : ℕ) (hd : d ≤ k + 1) : DegradedRead k where
  st := oneQBlock k d s
  diskId := d
  buf := fun _ => 0
  size := 1
  offset := t
  data_eq := rfl
  total_eq := rfl
  disk_le := hd
  status_eq _ _ := rfl

/-- The data and `P` blocks of this store add nothing. -/
theorem sum_oneQBlock (k d s : ℕ) (l : List ℕ) (hl : ∀ i ∈ l, i ≤ k) (x : ℕ) :
    (l.map fun i => if i ≠ d then (oneQBlock k d s).disk i x else 0).sum = 0 := by
  refine List.sum_eq_zero fun b hb => ?_
  obtain ⟨i, hi, rfl⟩ := List.mem_map.1 hb
  split
  · exact if_neg fun h => absurd (hl i hi) (by omega)
  · rfl

/-- A chain that ends in `Q` block `s` is all that `Q` block. -/
theorem sum_chain_oneQBlock {k d e s : ℕ} (hd : d ≤ k) :
    ((chainCells (repairChain k e s)).map
      (chainByte (oneQBlock k d s) d 0 0)).sum = Byte.ofNat 1 := by
  have hzero : ∀ j ∈ Finset.range (k + 1),
      (((repairChain k e s).getD j []).map fun x => chainByte (oneQBlock k d s) d 0 0
        (j, x)).sum = 0 := by
    intro j hj
    have hj := Finset.mem_range.1 hj
    refine List.sum_eq_zero fun b hb => ?_
    obtain ⟨x, -, rfl⟩ := List.mem_map.1 hb
    rw [chainByte]
    split
    · exact sum_oneQBlock k d s _ (fun i hi => Nat.lt_succ_iff.1 (List.mem_range.1 hi)) _
    · exact if_neg fun h => absurd h.1 (by simp only; omega)
  have hq : chainByte (oneQBlock k d s) d 0 0 (k + 1, s) = Byte.ofNat 1 := by
    rw [chainByte, if_neg (by simp only; omega)]
    exact if_pos ⟨rfl, by simp [oneQBlock, NcfsState.blank]⟩
  rw [chainCells_sum, repairChain_length, Finset.sum_range_succ, Finset.sum_eq_zero hzero,
    repairChain_getD_succ, List.map_singleton, List.sum_singleton, hq, zero_add]

/-- An object that goes by another disk does not answer every read of a data or `P` disk as a fresh
one does. -/
theorem exists_not_sameBytes (hk : 1 ≤ k) {d e : ℕ} (hd : d ≤ k) (hne : d ≠ e)
    {fresh used : Coding4Mdr1} (hfresh : LeftBy fresh k none) (hused : LeftBy used k (some e)) :
    ∃ r : DegradedRead k, r.diskId = d ∧ r.WholeBlock ∧ ¬ SameBytes fresh used r := by
  have he : e ≤ k := hused.1
  -- a row that a fresh object adds up, while the other one follows the chain to a `Q` block
  obtain ⟨t, ht, htrue, hfalse⟩ := exists_repairRow_of_ne k hd he hne
  obtain ⟨s, hslt, hs, hmate⟩ := exists_mate k hk he ht hfalse
  let r := oneQRead k d s t (by omega)
  refine ⟨r, rfl, ⟨rfl, one_dvd _⟩, ?_⟩
  rintro ⟨x, x', hok, hok', hsame⟩
  obtain ⟨y, hy, -, hrow, -⟩ := r.call_dpDisk hk hd hfresh
  obtain ⟨y', hy', -, -, hchain⟩ := r.call_dpDisk hk hd hused
  obtain rfl : x = y := Except.ok.inj (hok.symm.trans hy)
  obtain rfl : x' = y' := Except.ok.inj (hok'.symm.trans hy')
  have hno : r.offset / r.st.diskBlockSize = t := Nat.div_one t
  have hmod : t % 2 ^ k = t := Nat.mod_eq_of_lt ht
  have hdiv : t / 2 ^ k * 2 ^ k = 0 := by rw [Nat.div_eq_of_lt ht, zero_mul]
  simp only [hno, hmod, hdiv] at hrow hchain
  have hsize : 0 < r.size := Nat.one_pos
  have hx : x.buf 0 = 0 := by
    rw [hrow htrue, xorRow_apply r.st hsize]
    exact (congrArg₂ (· + ·) rfl (sum_oneQBlock k d s _
      (fun i hi => Nat.lt_succ_iff.1 (List.mem_range.1 hi)) _)).trans (add_zero _)
  have hx' : x'.buf 0 = Byte.ofNat 1 := by
    rw [hchain s (mem_repairRows.2 ⟨hslt, hs⟩) hmate, xorChain_apply r.st hsize]
    exact (congrArg₂ (· + ·) rfl (sum_chain_oneQBlock hd)).trans (zero_add _)
  have hbyte := hsame 0 hsize
  rw [hx, hx'] at hbyte
  exact absurd hbyte (by decide)

/-- A history makes no difference to the reads of a disk if and only if that disk is `Q`, or the
first data or `P` disk of the history, if any, is that disk. -/
theorem decode_history_iff (st : NcfsState) {fresh : Coding4Mdr1}
    (hnew : Coding4Mdr1.new st = .ok fresh) (history : List (DegradedRead st.dataDiskNum)) :
    ∃ used, served fresh history = .ok used ∧ ∀ d ≤ st.dataDiskNum + 1,
      ((∀ r : DegradedRead st.dataDiskNum, r.diskId = d → r.WholeBlock → SameBytes fresh used r) ↔
        d = st.dataDiskNum + 1 ∨ firstDisk history = none ∨ firstDisk history = some d) := by
  have hk : 1 ≤ st.dataDiskNum := by
    by_contra hzero
    rw [Coding4Mdr1.new, mdrIEncodingMatrix, if_pos (by omega)] at hnew
    cases hnew
  obtain ⟨coding, hnew', hc, hV, hM, -⟩ := Coding4Mdr1.new_ok hk
  obtain rfl : fresh = coding := Except.ok.inj (hnew.symm.trans hnew')
  have hfresh : LeftBy fresh st.dataDiskNum none := ⟨hc, hV, hM⟩
  obtain ⟨used, hrun, hused⟩ := served_ok hk history hfresh
  rw [Option.none_or] at hused
  refine ⟨used, hrun, fun d hd => ⟨fun hall => ?_, fun hcond r hrd _ => ?_⟩⟩
  · by_contra hnot
    rw [not_or, not_or] at hnot
    obtain ⟨hdq, hnone, hsome⟩ := hnot
    obtain ⟨e, hfirst⟩ := Option.ne_none_iff_exists'.1 hnone
    rw [hfirst] at hused
    have hne : d ≠ e := by
      rintro rfl
      exact hsome hfirst
    obtain ⟨r, hrd, hblock, hdiff⟩ := exists_not_sameBytes hk (by omega) hne hfresh hused
    exact hdiff (hall r hrd hblock)
  · by_cases hdq : d = st.dataDiskNum + 1
    · have hq := hrd.trans hdq
      exact ⟨_, _, r.call_qDisk hq fresh, r.call_qDisk hq used, fun _ _ => rfl⟩
    · refine sameBytes_of_first hk r (by omega) hfresh hused ?_
      rcases hcond with hq | hnone | hsome
      · exact absurd hq hdq
      · rw [hnone]
      · rw [hsome, hrd]
        rfl

/-- A read of row `t` of the first sample group, of two data disks. -/
def sampleRead (d t : ℕ) (hd : d ≤ 3) : DegradedRead 2 where
  st := { NcfsState.blank 4 2 1 Nat.one_pos 8 with
    diskStatus := fun i => if i = d then 1 else 0
    disk := fun j => if j = d then fun _ => 0 else sampleGroup j }
  diskId := d
  buf := fun _ => 0
  size := 1
  offset := t
  data_eq := rfl
  total_eq := rfl
  disk_le := hd
  status_eq _ _ := rfl

/-- The first disk has been read for, and fails again. -/
theorem decode_history_sample : ∃ fresh used,
    Coding4Mdr1.new (NcfsState.blank 4 2 1 Nat.one_pos 8) = .ok fresh ∧
    served fresh [sampleRead 0 1 (Nat.zero_le 3)] = .ok used ∧
    ∀ r : DegradedRead 2, r.diskId = 0 → r.WholeBlock → SameBytes fresh used r := by
  obtain ⟨fresh, hnew, -⟩ := @Coding4Mdr1.new_ok (NcfsState.blank 4 2 1 Nat.one_pos 8)
    (by decide : 1 ≤ 2)
  obtain ⟨used, hrun, hiff⟩ := decode_history_iff _ hnew [sampleRead 0 1 (Nat.zero_le 3)]
  exact ⟨fresh, used, hnew, hrun, (hiff 0 (by decide : 0 ≤ 3)).2 (Or.inr (Or.inr rfl))⟩

/-- The first disk has been read for and repaired, and the second one fails: its row 1, which is
six, is answered with row 1 of the first disk, which is two. -/
theorem call_sampleRead : ∃ fresh used x x',
    Coding4Mdr1.new (NcfsState.blank 4 2 1 Nat.one_pos 8) = .ok fresh ∧
    served fresh [sampleRead 0 1 (Nat.zero_le 3)] = .ok used ∧
    (sampleRead 1 1 (by decide)).call fresh = .ok x ∧ x.buf 0 = sampleGroup 1 1 ∧
    (sampleRead 1 1 (by decide)).call used = .ok x' ∧ x'.buf 0 = sampleGroup 0 1 :=
  ⟨_, _, _, _, rfl, rfl, rfl, by decide, rfl, by decide⟩

/-- So a history makes a difference in a store whose stripe group is a codeword. -/
theorem decode_history_differs : ∃ fresh used,
    Coding4Mdr1.new (NcfsState.blank 4 2 1 Nat.one_pos 8) = .ok fresh ∧
    served fresh [sampleRead 0 1 (Nat.zero_le 3)] = .ok used ∧
    MdrParity (mdrIEncodingMatrixB 2) 2 sampleGroup ∧
    ¬ SameBytes fresh used (sampleRead 1 1 (by decide)) := by
  obtain ⟨fresh, used, x, x', hnew, hrun, hx, hbyte, hx', hbyte'⟩ := call_sampleRead
  refine ⟨fresh, used, hnew, hrun, ⟨by decide, by decide⟩, ?_⟩
  rintro ⟨y, y', hy, hy', hsame⟩
  obtain rfl : x = y := Except.ok.inj (hx.symm.trans hy)
  obtain rfl : x' = y' := Except.ok.inj (hx'.symm.trans hy')
  have hequal : x.buf 0 = x'.buf 0 := hsame 0 Nat.one_pos
  rw [hbyte, hbyte'] at hequal
  exact absurd hequal (by decide)

end Ncfs
