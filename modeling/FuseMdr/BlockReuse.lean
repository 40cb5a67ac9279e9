/-
Writing freed blocks again.

When the data disks are full, `encode` takes a block from the space list.  The array encoders add
the new bytes to both parities without taking the old bytes of the block out, so the parities keep
the content of the deleted block.

Main definitions:

* `Ncfs.MdrStoreParity`, `Ncfs.EvenoddStoreParity` — both parities of a store.

Main results:

* `Ncfs.blockReuse_parity_iff` — in a run of writes and frees both parities hold throughout exactly
  when no write is served a block with old data;
* `Ncfs.blockReuse_parity_broken` — a block that is written, freed and written again.
-/
import FuseMdr.Evenodd
import FuseMdr.MdrEncode

set_option relaxedAutoImplicit false
set_option autoImplicit false

namespace Ncfs

/-- Every byte of every stripe group satisfies the equations of the matrix. -/
def MdrStoreParity (k : ℕ) (st : NcfsState) : Prop :=
  ∀ g, ∀ o < st.diskBlockSize, MdrParity (mdrIEncodingMatrixB k) k fun j t =>
    st.block j (g * 2 ^ k + t) o

/-- Every byte of every strip satisfies the equations of the table. -/
def EvenoddStoreParity (coding : ElemTable) (st : NcfsState) : Prop :=
  ∀ g, ∀ o < st.diskBlockSize, coding.StripParity st g o

theorem mdrStoreParity_iff {k : ℕ} {st : NcfsState} :
    MdrStoreParity k st ↔ StoreParity (mdrCode k) st :=
  forall_congr' fun g => forall₂_congr fun o _ =>
    (mdrCode_parity_iff (c := stripCells st (2 ^ k) g o)).symm

theorem evenoddStoreParity_iff {coding : ElemTable} (h : coding.Sound) {st : NcfsState} :
    EvenoddStoreParity coding st ↔ StoreParity h.code st :=
  (ElemTable.storeParity_iff_stripParity h rfl).symm

/-- In a run of writes and frees under the MDR or the EVENODD layer, both parities hold in every
state exactly when every write is served a block whose overwritten bytes are zero.  With six data
disks and more the masks of the MDR layer leave their types (`Ncfs.Widths.compiled_tests`). -/
theorem blockReuse_parity_iff (s : Served) {k bs : ℕ} (hs : s.Valid k bs) (ops : List StoreOp)
    (hops : ∀ op ∈ ops, op.Small bs) :
    (∀ coding, Coding4Mdr1.new s.st = .ok coding → k ≤ 5 → MdrStoreParity k s.st →
      (Machine.Always (storeStep coding.encode) (fun s => MdrStoreParity k s.st) s ops ↔
        Machine.AllSteps (storeStep coding.encode) CleanStep s ops)) ∧
      ∀ coding, Coding4Evenodd.new s.st = coding → 2 ≤ k → EvenoddStoreParity coding s.st →
        (Machine.Always (storeStep (Coding4Evenodd.encode coding))
            (fun s => EvenoddStoreParity coding s.st) s ops ↔
          Machine.AllSteps (storeStep (Coding4Evenodd.encode coding)) CleanStep s ops) := by
  constructor
  · intro coding hnew _ hparity
    have hk : 1 ≤ s.st.dataDiskNum := by
      by_contra hk
      rw [Coding4Mdr1.new, mdrIEncodingMatrix, if_pos (by omega)] at hnew
      cases hnew
    obtain ⟨coding', hnew', hcoding, -⟩ := Coding4Mdr1.new_ok hk
    obtain rfl : coding' = coding := Except.ok.inj (hnew'.symm.trans hnew)
    rw [hs.shaped.data_eq] at hcoding
    simp only [mdrStoreParity_iff] at hparity ⊢
    exact (mdrEncoder_exact hcoding hs.shaped.data_eq).always_storeParity_iff
      (mdrEncoder_implements hcoding hs.shaped.data_eq bs) hs hparity hops
  · rintro coding rfl hk hparity
    have hk' : 2 ≤ s.st.dataDiskNum := by rwa [hs.shaped.data_eq]
    have hs' : s.Valid (Coding4Evenodd.sound hk').code.dataDisks bs := by
      change s.Valid s.st.dataDiskNum bs
      rwa [hs.shaped.data_eq]
    simp only [evenoddStoreParity_iff (Coding4Evenodd.sound hk')] at hparity ⊢
    exact (Coding4Evenodd.encoder_exact hk').always_storeParity_iff
      (Coding4Evenodd.encoder_implements hk' bs) hs' hparity hops

section Blank

variable (disks k bs : ℕ) (hbs : 0 < bs) (freeSize : ℤ)

/-- Zeroed disks satisfy the equations of the matrix. -/
theorem mdrStoreParity_blank : MdrStoreParity k (NcfsState.blank disks k bs hbs freeSize) :=
  fun g o _ => ⟨fun t _ => by simp [NcfsState.block, NcfsState.blank],
    fun t _ => by simp [NcfsState.block, NcfsState.blank, columnSum]⟩

/-- They satisfy the equations of the table. -/
theorem evenoddStoreParity_blank (coding : ElemTable) :
    EvenoddStoreParity coding (NcfsState.blank disks k bs hbs freeSize) :=
  fun g o _ => ⟨fun r _ => by simp [NcfsState.block, NcfsState.blank],
    fun i _ => by simp [NcfsState.block, NcfsState.blank]⟩

end Blank

/-- Two data disks of one block: the second write goes to the other disk, the third to the freed
block. -/
theorem blockReuse_parity_iff_two :
    let s : Served := ⟨NcfsState.blank 4 2 1 (by decide) 1, []⟩
    let ops : List StoreOp := [.encode (fun _ => Byte.ofNat 5) 1, .encode (fun _ => Byte.ofNat 6) 1,
      .free 0 0, .encode (fun _ => Byte.ofNat 3) 1]
    ∃ coding, Coding4Mdr1.new s.st = .ok coding ∧
      (Machine.Always (storeStep coding.encode) (fun s => MdrStoreParity 2 s.st) s ops ↔
        Machine.AllSteps (storeStep coding.encode) CleanStep s ops) ∧
      (Machine.Always (storeStep (Coding4Evenodd.encode (Coding4Evenodd.new s.st)))
          (fun s' => EvenoddStoreParity (Coding4Evenodd.new s.st) s'.st) s ops ↔
        Machine.AllSteps (storeStep (Coding4Evenodd.encode (Coding4Evenodd.new s.st)))
          CleanStep s ops) := by
  intro s ops
  have hvalid : s.Valid 2 1 := ⟨⟨rfl, rfl, rfl⟩, by simp [s, NcfsState.blank], by simp [s]⟩
  have hops : ∀ op ∈ ops, op.Small 1 := by
    intro op hop
    simp only [ops, List.mem_cons, List.not_mem_nil, or_false] at hop
    rcases hop with rfl | rfl | rfl | rfl <;> first | exact le_rfl | trivial
  have hboth := blockReuse_parity_iff s hvalid ops hops
  obtain ⟨coding, hnew, -⟩ := @Coding4Mdr1.new_ok s.st (by decide : 1 ≤ 2)
  exact ⟨coding, hnew, hboth.1 coding hnew (by decide) (mdrStoreParity_blank _ _ _ _ _),
    hboth.2 _ rfl le_rfl (evenoddStoreParity_blank _ _ _ _ _ _)⟩

/-- One data disk of one block under MDR: a five is written, freed and overwritten by a three, and
`P` holds their sum. -/
theorem blockReuse_parity_broken :
    let st := NcfsState.blank 3 1 1 (by decide) 1
    let ops : List StoreOp := [.encode (fun _ => Byte.ofNat 5) 1, .free 0 0,
      .encode (fun _ => Byte.ofNat 3) 1]
    ∃ coding, Coding4Mdr1.new st = .ok coding ∧ MdrStoreParity 1 st ∧
      ¬ Machine.Always (storeStep coding.encode) (fun s => MdrStoreParity 1 s.st) ⟨st, []⟩ ops := by
  intro st ops
  refine ⟨_, rfl, mdrStoreParity_blank _ _ _ _ _, fun h => ?_⟩
  have hlast := (Machine.always_iff_prefix.1 h ops List.prefix_rfl) 0 0 (by decide)
  exact absurd (hlast.p 0 (by decide)) (by decide)

end Ncfs
