/-
Who owns a block.

A block that `encode` has returned is in use until it is freed, and then waits on the space list.
Fresh blocks are taken at the free offset of a disk, so that the offset of a disk with room should
lie behind all blocks of the disk that are in use or listed.  The encoders set it just behind the
block they have taken, also behind one from the space list.

Main definitions:

* `Ncfs.Owned` — no block is owned twice, and the free offsets lie behind the owned blocks;
* `Ncfs.CodingLayer.Safe` — the condition under which an operation keeps this;
* `Ncfs.CodingLayer.ServesFree` — `encode` returns no block in use.

Main results:

* `Ncfs.CodingLayer.servesFree_of_safe` — in a run of safe operations no block in use is returned;
* `Ncfs.CodingLayer.raid0_serves_live` — a run that returns a block in use.
-/
import FuseMdr.CodingLayer
import FuseMdr.Machine

set_option relaxedAutoImplicit false
set_option autoImplicit false

namespace Ncfs

/-! ### The invariant -/

/-- The blocks in use and the blocks on the space list. -/
def Served.owned (s : Served) : List (ℕ × ℕ) := s.returned ++ s.st.spaceList

/-- Nothing is owned twice, and a disk with room takes its blocks behind all that is owned. -/
structure Owned (s : Served) : Prop where
  /-- No block is in use twice, listed twice, or both. -/
  nodup : s.owned.Nodup
  /-- The free offset of a disk with room lies behind its blocks. -/
  below : ∀ d b, (d, b) ∈ s.owned → s.st.freeSize d ≤ 0 ∨ b < s.st.freeOffset d

/-- Before the first call nothing is owned. -/
theorem owned_of_nil {s : Served} (hreturned : s.returned = []) (hlist : s.st.spaceList = []) :
    Owned s := by
  have howned : s.owned = [] := by rw [Served.owned, hreturned, hlist, List.append_nil]
  refine ⟨?_, fun d b hmem => ?_⟩
  · rw [howned]
    exact List.nodup_nil
  · rw [howned] at hmem
    cases hmem

/-- A freed block stays owned. -/
theorem Served.owned_free (s : Served) (d b : ℕ) : (s.free d b).owned.Perm s.owned := by
  rw [Served.free]
  split
  · rename_i hmem
    calc s.returned.erase (d, b) ++ spaceListAdd s.st.spaceList d b
        _ |>.Perm (s.returned.erase (d, b) ++ (d, b) :: s.st.spaceList) :=
          (spaceListAdd_perm ..).append_left _
        _ |>.Perm ((d, b) :: s.returned.erase (d, b) ++ s.st.spaceList) := List.perm_middle
        _ |>.Perm (s.returned ++ s.st.spaceList) := (List.perm_cons_erase hmem).symm.append_right _
  · exact .refl _

theorem Owned.free {s : Served} (h : Owned s) (d b : ℕ) : Owned (s.free d b) := by
  have hperm := s.owned_free d b
  obtain ⟨l, hst⟩ := s.free_st d b
  refine ⟨hperm.nodup_iff.2 h.nodup, fun i c hmem => ?_⟩
  rw [hst]
  exact h.below i c (hperm.mem_iff.1 hmem)

/-- Freeing several blocks in use. -/
theorem Served.foldl_free {freed : List (ℕ × ℕ)} (hnodup : freed.Nodup) {s : Served}
    (hmem : ∀ x ∈ freed, x ∈ s.returned) : freed.foldl (fun s x => s.free x.1 x.2) s =
      ⟨{ s.st with spaceList := freed.foldl (fun l x => spaceListAdd l x.1 x.2) s.st.spaceList },
        freed.foldl List.erase s.returned⟩ := by
  induction freed generalizing s with
  | nil => rfl
  | cons x freed ih =>
      obtain ⟨hx, hnodup⟩ := List.nodup_cons.1 hnodup
      obtain ⟨hself, hmem⟩ := List.forall_mem_cons.1 hmem
      have hfree : s.free x.1 x.2 = ⟨{ s.st with spaceList := spaceListAdd s.st.spaceList x.1 x.2 },
          s.returned.erase x⟩ := if_pos hself
      rw [List.foldl_cons, hfree, ih hnodup fun y hy => ?_]
      · rfl
      · have hne : y ≠ x := by
          rintro rfl
          exact hx hy
        exact (List.mem_erase_of_ne hne).2 (hmem y hy)

theorem Owned.freeAll {freed : List (ℕ × ℕ)} {s : Served} (h : Owned s) (hnodup : freed.Nodup)
    (hmem : ∀ x ∈ freed, x ∈ s.returned) :
    Owned ⟨{ s.st with
        spaceList := freed.foldl (fun l x => spaceListAdd l x.1 x.2) s.st.spaceList },
      freed.foldl List.erase s.returned⟩ := by
  rw [← Served.foldl_free hnodup hmem]
  exact Loops.foldl_inv Owned (fun s x _ h => h.free x.1 x.2) h

/-- Moving disks forward keeps what is owned behind their free offsets. -/
theorem Owned.moved {s : Served} {st : NcfsState} (h : Owned s) (hmoved : Moved s.st st) :
    Owned { s with st := st } := by
  have howned : Served.owned { s with st := st } = s.owned := by
    rw [Served.owned, Served.owned, hmoved.list_eq]
  refine ⟨?_, fun d b hmem => ?_⟩
  · rw [howned]
    exact h.nodup
  · rw [howned] at hmem
    rcases h.below d b hmem with hsize | hoffset
    · exact .inl ((hmoved.size_le d).trans hsize)
    · exact .inr (hoffset.trans_le (hmoved.offset_le d))

/-! ### One call -/

/-- The first block of the space list may be taken: its disk has no room afterwards, or nothing that
is owned lies behind the block. -/
def ReuseSafe (s : Served) (req : ℕ) : Prop :=
  ∀ d b, s.st.spaceList.head? = some (d, b) →
    s.st.freeSize d ≤ req ∨ ∀ b', (d, b') ∈ s.owned → b' < b + req

/-- What a call returns was not in use, and the invariant is kept. -/
theorem Owned.takes {s : Served} (h : Owned s) {selected : Option (ℕ × ℕ)} {req : ℕ}
    (hreq : 1 ≤ req) (hselected : ∀ d b, selected = some (d, b) → b = s.st.freeOffset d ∧
      (req : ℤ) ≤ s.st.freeSize d)
    (hsafe : selected = none → ReuseSafe s req) {result : Option (ℕ × ℕ) × NcfsState}
    (htakes : Takes s.st selected req result) :
    Owned (s.serve result) ∧ ∀ x, result.1 = some x → x ∉ s.returned := by
  cases htakes with
  | full hnone hlist hoffset hsize hlist' =>
      refine ⟨⟨?_, fun d b hmem => ?_⟩, fun x hx => by cases hx⟩
      · have hnodup := h.nodup
        rw [Served.owned, hlist] at hnodup
        simpa only [Served.owned, Served.serve, hlist'] using hnodup
      · simp only [Served.owned, Served.serve, hlist'] at hmem
        simp only [Served.serve, hoffset, hsize]
        exact h.below d b (by rwa [Served.owned, hlist])
  | @fresh st' d b hsome hoffset hsize hothers hlist =>
      obtain ⟨hb, hroom⟩ := hselected d b hsome
      -- an owned block at the free offset would contradict the room of the disk
      have hfree : (d, b) ∉ s.owned := by
        intro hmem
        rcases h.below d b hmem with h' | h' <;> omega
      have howned : (s.serve (some (d, b), st')).owned = (d, b) :: s.owned := by
        simp only [Served.owned, Served.serve, hlist, List.cons_append]
      refine ⟨⟨?_, fun i c hmem => ?_⟩, ?_⟩
      · rw [howned]
        exact List.nodup_cons.2 ⟨hfree, h.nodup⟩
      · rw [howned] at hmem
        change st'.freeSize i ≤ 0 ∨ c < st'.freeOffset i
        by_cases hi : i = d
        · subst hi
          rcases List.mem_cons.1 hmem with heq | hmem
          · right
            obtain ⟨-, rfl⟩ := Prod.mk.inj heq
            omega
          · rcases h.below i c hmem with h' | h' <;> omega
        · have hother := hothers i hi
          rcases List.mem_cons.1 hmem with heq | hmem
          · exact absurd (Prod.mk.inj heq).1 hi
          · rcases h.below i c hmem with h' | h' <;> omega
      · intro x hx hmem
        cases hx
        exact hfree (List.mem_append_left _ hmem)
  | @reused st' d b rest hnone hlist hoffset hsize hlist' =>
      have hhead := hsafe hnone d b (by rw [hlist, List.head?_cons])
      have hperm : (s.serve (some (d, b), st')).owned.Perm s.owned := by
        simp only [Served.owned, Served.serve, hlist, hlist', List.cons_append]
        exact List.perm_middle.symm
      refine ⟨⟨hperm.nodup_iff.2 h.nodup, fun i c hmem => ?_⟩, ?_⟩
      · replace hmem := hperm.mem_iff.1 hmem
        change st'.freeSize i ≤ 0 ∨ c < st'.freeOffset i
        rw [hoffset, hsize]
        by_cases hi : i = d
        · subst hi
          rw [Function.update_self, Function.update_self]
          rcases hhead with h' | h'
          · exact .inl (by omega)
          · exact .inr (h' c hmem)
        · rw [Function.update_of_ne hi, Function.update_of_ne hi]
          exact h.below i c hmem
      · intro x hx hmem
        cases hx
        have hnodup := h.nodup
        rw [Served.owned, hlist] at hnodup
        exact List.disjoint_of_nodup_append hnodup hmem (List.mem_cons_self ..)

namespace CodingLayer

/-- An operation that leaves the free offsets behind the owned blocks: a write asks for a block, and
where the layer selects no disk, the first block of the space list may be taken. -/
def Safe (L : CodingLayer) (s : Served) : StoreOp → Prop
  | .encode _ size =>
      1 ≤ blockRequest s.st size ∧
        (L.select (L.skip s.st) (blockRequest s.st size) = none →
          ReuseSafe { s with st := L.skip s.st } (blockRequest s.st size))
  | .free _ _ => True

/-- A write is served no block in use. -/
def ServesFree (L : CodingLayer) (s : Served) : StoreOp → Prop
  | .encode buf size => ∀ x, (L.encode s.st buf size).1 = some x → x ∉ s.returned
  | .free _ _ => True

/-- A safe operation keeps the invariant and is served no block in use. -/
theorem owned_step (L : CodingLayer) {s : Served} (h : Owned s) {op : StoreOp}
    (hsafe : L.Safe s op) :
    Owned (storeStep L.encode s op) ∧ L.ServesFree s op := by
  cases op with
  | encode buf size =>
      have htakes := L.encode_takes s.st buf size
      have hserve := (h.moved (L.skip_moved s.st)).takes hsafe.1 (fun d b hsel => select_spec hsel)
        hsafe.2 htakes
      refine ⟨?_, hserve.2⟩
      obtain ⟨x, st⟩ := L.encode s.st buf size
      cases x with
      | none => exact hserve.1
      | some x => exact hserve.1
  | free d b => exact ⟨h.free d b, trivial⟩

/-- **Ownership.**  From a store without blocks in use, with disks of any sizes, in a run of safe
writes and of frees no write is served a block in use. -/
theorem servesFree_of_safe (L : CodingLayer) {s : Served} (hreturned : s.returned = [])
    (hlist : s.st.spaceList = []) {ops : List StoreOp}
    (hsafe : Machine.AllSteps (storeStep L.encode) L.Safe s ops) :
    Machine.AllSteps (storeStep L.encode) L.ServesFree s ops :=
  hsafe.imp (I := Owned) (fun _ _ h hc => (L.owned_step h hc).1)
    (fun _ _ h hc => (L.owned_step h hc).2) (owned_of_nil hreturned hlist)

/-- A disk of one block: it is written, freed and written again. -/
theorem servesFree_of_safe_single :
    let s : Served := ⟨NcfsState.blank 1 1 1 (by decide) 1, []⟩
    Machine.AllSteps (storeStep raid0.encode) raid0.ServesFree s
      [.encode (fun _ => 0) 1, .free 0 0, .encode (fun _ => 0) 1] := by
  refine servesFree_of_safe raid0 rfl rfl ⟨⟨by decide, fun h => absurd h (by decide)⟩, trivial,
    ⟨by decide, fun _ d b hhead => .inl ?_⟩, trivial⟩
  obtain ⟨rfl, rfl⟩ := Prod.mk.inj (Option.some.inj hhead)
  decide

/-- RAID0 with disks of one and of four blocks.  After three writes disk `1` is in front of disk
`0`, which is full, so that the next write takes the freed block `0` of disk `1` and moves the disk
back to block `1`. -/
theorem raid0_serves_live :
    let s : Served := ⟨{ NcfsState.blank 2 2 1 (by decide) 0 with
      freeSize := fun i => if i = 0 then 1 else 4 }, []⟩
    let write : StoreOp := .encode (fun _ => 0) 1
    ¬ Machine.AllSteps (storeStep raid0.encode) raid0.ServesFree s
      [write, write, write, .free 1 0, write, write] := by
  rintro s write ⟨-, -, -, -, -, hlast, -⟩
  exact hlast (1, 1) (by decide +kernel) (by decide +kernel)

end CodingLayer

end Ncfs
