/-
What a file system does with a store: it writes blocks and frees blocks.

A freed block goes to the space list, from which `encode` takes blocks when no disk has a free one,
so a block may be written again.

Main definitions:

* `Ncfs.Served` — a store with the blocks in use;
* `Ncfs.StoreOp`, `Ncfs.storeStep` — writes and frees.
-/
import FuseMdr.NcfsState

set_option relaxedAutoImplicit false
set_option autoImplicit false

namespace Ncfs

/-- A store with the blocks that `encode` has returned and that have not been freed since. -/
structure Served where
  /-- The state. -/
  st : NcfsState
  /-- The blocks in use. -/
  returned : List (ℕ × ℕ)

/-- The store after a call of `encode` with this result. -/
def Served.serve (s : Served) : Option (ℕ × ℕ) × NcfsState → Served
  | (none, st) => { s with st := st }
  | (some x, st) => ⟨st, x :: s.returned⟩

/-- Freeing a block.  A block that is not in use cannot be freed. -/
def Served.free (s : Served) (diskId blockNo : ℕ) : Served :=
  if (diskId, blockNo) ∈ s.returned then
    ⟨{ s.st with spaceList := spaceListAdd s.st.spaceList diskId blockNo },
      s.returned.erase (diskId, blockNo)⟩
  else s

/-- What a file system does with a store. -/
inductive StoreOp where
  /-- Writing a block. -/
  | encode (buf : Buf) (size : ℕ)
  /-- Freeing a block: it goes to the space list. -/
  | free (diskId blockNo : ℕ)

/-- An operation that writes at most one block. -/
def StoreOp.Small (bs : ℕ) : StoreOp → Prop
  | .encode _ size => size ≤ bs
  | .free _ _ => True

/-- An operation that writes an admissible number of bytes. -/
def StoreOp.Sized (sized : ℕ → Prop) : StoreOp → Prop
  | .encode _ size => sized size
  | .free _ _ => True

/-- One operation. -/
def storeStep (enc : NcfsState → Buf → ℕ → Option (ℕ × ℕ) × NcfsState) (s : Served) :
    StoreOp → Served
  | .encode buf size => s.serve (enc s.st buf size)
  | .free diskId blockNo => s.free diskId blockNo

@[simp] theorem Served.serve_st (s : Served) (result : Option (ℕ × ℕ) × NcfsState) :
    (s.serve result).st = result.2 := by
  obtain ⟨x, st⟩ := result
  cases x <;> rfl

theorem Served.mem_returned_serve {s : Served} {result : Option (ℕ × ℕ) × NcfsState} {x : ℕ × ℕ} :
    x ∈ (s.serve result).returned ↔ result.1 = some x ∨ x ∈ s.returned := by
  obtain ⟨y, st⟩ := result
  cases y with
  | none => simp [serve]
  | some y => simp [serve, eq_comm]

/-- A free only moves a block from those in use to the space list. -/
theorem Served.mem_of_free {s : Served} {d b : ℕ} {x : ℕ × ℕ}
    (h : x ∈ (s.free d b).returned ∨ x ∈ (s.free d b).st.spaceList) :
    x ∈ s.returned ∨ x ∈ s.st.spaceList := by
  rw [free] at h
  split at h
  · rename_i hmem
    rcases h with h | h
    · exact .inl (List.mem_of_mem_erase h)
    · rcases mem_spaceListAdd.1 h with rfl | h
      · exact .inl hmem
      · exact .inr h
  · exact h

/-- Freeing only changes the space list. -/
theorem Served.free_st (s : Served) (diskId blockNo : ℕ) :
    ∃ l, (s.free diskId blockNo).st = { s.st with spaceList := l } := by
  rw [Served.free]
  split
  · exact ⟨_, rfl⟩
  · exact ⟨s.st.spaceList, rfl⟩

end Ncfs
