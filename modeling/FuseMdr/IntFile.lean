/-
Files of bytes, and the integers stored in them.

A file is as long as it has been written; behind its end, and in the gaps that writes have left, its
bytes are zero.  A record is a list of integers, stored as C lays out a structure of `int` fields:
each integer takes four bytes, the lowest first.  An integer outside the range of an `int` is stored
by its low bits.

* `IntFile.File.pwrite`, `IntFile.File.pread`, `IntFile.File.truncate` — the operations;
* `IntFile.toInt`, `IntFile.toSizeT` — the conversions to `int` and to `size_t`;
* `IntFile.intAt_record` — an `int` is read back from its bytes;
* `IntFile.Stored` — a record lies at an offset of a file: `IntFile.stored_pwrite` puts it there,
  `IntFile.Stored.pwrite` and `IntFile.Stored.truncate` keep it, and `IntFile.Stored.pread` reads
  it;
* `IntFile.stored_table`, `IntFile.Stored.table` — a loop that writes the records of a table.
-/
import Mathlib

set_option relaxedAutoImplicit false
set_option autoImplicit false

namespace IntFile

/-! ### Integers -/

/-- The values of an `int`. -/
def Fits (v : ℤ) : Prop := -2 ^ 31 ≤ v ∧ v < 2 ^ 31

instance (v : ℤ) : Decidable (Fits v) := inferInstanceAs (Decidable (_ ∧ _))

/-- The value after a conversion to `int`. -/
def toInt (v : ℤ) : ℤ := Int.bmod v (2 ^ 32)

/-- The value after a conversion to `size_t`. -/
def toSizeT (v : ℤ) : ℤ := v % 2 ^ 64

theorem toInt_of_fits {v : ℤ} (hv : Fits v) : toInt v = v := by
  obtain ⟨hlow, hhigh⟩ := hv
  exact Int.bmod_eq_of_le_mul_two (by omega) (by omega)

theorem toSizeT_of_nonneg {v : ℤ} (hv : 0 ≤ v) (hlt : v < 2 ^ 64) : toSizeT v = v :=
  Int.emod_eq_of_lt hv hlt

/-- Byte `k` of an `int`. -/
def intByte (v : ℤ) (k : ℕ) : UInt8 := UInt8.ofNat ((v % 2 ^ 32).toNat / 256 ^ k)

/-- The memory of a structure of `int` fields. -/
def record (vs : List ℤ) (j : ℕ) : UInt8 := intByte (vs.getD (j / 4) 0) (j % 4)

/-- The `int` at an offset of the memory. -/
def intAt (buf : ℕ → UInt8) (off : ℕ) : ℤ :=
  let n : ℕ := (buf off).toNat + 256 * (buf (off + 1)).toNat + 256 ^ 2 * (buf (off + 2)).toNat +
    256 ^ 3 * (buf (off + 3)).toNat
  if n < 2 ^ 31 then n else (n : ℤ) - 2 ^ 32

theorem intByte_toNat (v : ℤ) (k : ℕ) :
    (intByte v k).toNat = (v % 2 ^ 32).toNat / 256 ^ k % 256 := by
  rw [intByte, UInt8.toNat_ofNat']

/-- The memory matters at the four bytes only. -/
theorem intAt_congr {buf buf' : ℕ → UInt8} {off off' : ℕ}
    (h : ∀ k < 4, buf (off + k) = buf' (off' + k)) :
    intAt buf off = intAt buf' off' := by
  have h0 : buf off = buf' off' := h 0 (by omega)
  rw [intAt, intAt, h0, h 1 (by omega), h 2 (by omega), h 3 (by omega)]

/-- Four bytes make up the integer again. -/
theorem intAt_intByte {v : ℤ} (hv : Fits v) : intAt (intByte v) 0 = v := by
  obtain ⟨hlow, hhigh⟩ := hv
  simp only [intAt, intByte_toNat]
  norm_num
  split <;> omega

/-- A field of a structure is read back. -/
theorem intAt_record {vs : List ℤ} {i : ℕ} (hv : Fits (vs.getD i 0)) :
    intAt (record vs) (4 * i) = vs.getD i 0 := by
  refine (intAt_congr fun k hk => ?_).trans (intAt_intByte hv)
  rw [record, show (4 * i + k) / 4 = i by omega, show (4 * i + k) % 4 = k by omega, Nat.zero_add]

/-! ### Files -/

/-- A file: its bytes behind the end are zero. -/
structure File where
  /-- The number of bytes. -/
  length : ℕ
  /-- The byte at each offset. -/
  byte : ℕ → UInt8
  /-- There is nothing behind the end. -/
  byte_of_le : ∀ i, length ≤ i → byte i = 0

namespace File

/-- The file without bytes. -/
def empty : File := ⟨0, fun _ => 0, fun _ _ => rfl⟩

/-- Writing `n` bytes of memory at an offset. -/
def pwrite (f : File) (buf : ℕ → UInt8) (n off : ℕ) : File where
  length := if n = 0 then f.length else max f.length (off + n)
  byte i := if off ≤ i ∧ i < off + n then buf (i - off) else f.byte i
  byte_of_le i hi := by
    split at hi
    · rw [if_neg (by omega)]
      exact f.byte_of_le i hi
    · rw [if_neg (by omega)]
      exact f.byte_of_le i (by omega)

/-- Reading up to `n` bytes at an offset into memory: the number of bytes read, and the memory. -/
def pread (f : File) (buf : ℕ → UInt8) (n off : ℕ) : ℕ × (ℕ → UInt8) :=
  let count := min n (f.length - off)
  (count, fun j => if j < count then f.byte (off + j) else buf j)

/-- Setting the length: what lies behind is dropped, and a gap is filled with zeros. -/
def truncate (f : File) (n : ℕ) : File where
  length := n
  byte i := if i < n then f.byte i else 0
  byte_of_le i hi := if_neg (by omega)

end File

/-! ### Stored records -/

/-- The record lies in the file at an offset. -/
structure Stored (f : File) (off : ℕ) (vs : List ℤ) : Prop where
  /-- The record is inside the file. -/
  le_length : off + 4 * vs.length ≤ f.length
  /-- Its bytes. -/
  byte_eq : ∀ j < 4 * vs.length, f.byte (off + j) = record vs j

variable {f : File} {off : ℕ} {vs : List ℤ}

/-- A record is written. -/
theorem stored_pwrite (hvs : vs ≠ []) :
    Stored (f.pwrite (record vs) (4 * vs.length) off) off vs := by
  have hlen : 0 < vs.length := List.length_pos_iff.2 hvs
  refine ⟨?_, fun j hj => ?_⟩
  · change off + 4 * vs.length ≤ if 4 * vs.length = 0 then f.length else max f.length
      (off + 4 * vs.length)
    rw [if_neg (by omega)]
    exact le_max_right ..
  · change (if off ≤ off + j ∧ off + j < off + 4 * vs.length then record vs
      (off + j - off) else _) = _
    rw [if_pos (by omega), Nat.add_sub_cancel_left]

/-- A write elsewhere keeps a record. -/
theorem Stored.pwrite (h : Stored f off vs) {buf : ℕ → UInt8} {n off' : ℕ}
    (hoff : off' + n ≤ off ∨ off + 4 * vs.length ≤ off') : Stored (f.pwrite buf n off') off vs := by
  refine ⟨?_, fun j hj => ?_⟩
  · have hle := h.le_length
    change off + 4 * vs.length ≤ if n = 0 then f.length else max f.length (off' + n)
    split <;> omega
  · change (if off' ≤ off + j ∧ off + j < off' + n then _ else f.byte (off + j)) = _
    rw [if_neg (by omega)]
    exact h.byte_eq j hj

/-- Cutting a file behind a record keeps it. -/
theorem Stored.truncate (h : Stored f off vs) {n : ℕ} (hn : off + 4 * vs.length ≤ n) :
    Stored (f.truncate n) off vs := by
  refine ⟨hn, fun j hj => ?_⟩
  change (if off + j < n then f.byte (off + j) else 0) = _
  rw [if_pos (by omega)]
  exact h.byte_eq j hj

/-- A record is read whole. -/
theorem Stored.pread (h : Stored f off vs) (hfits : ∀ v ∈ vs, Fits v) (buf : ℕ → UInt8) :
    (f.pread buf (4 * vs.length) off).1 = 4 * vs.length ∧
      ∀ i < vs.length, intAt (f.pread buf (4 * vs.length) off).2 (4 * i) = vs.getD i 0 := by
  have hcount : min (4 * vs.length) (f.length - off) = 4 * vs.length := by
    have := h.le_length
    omega
  refine ⟨hcount, fun i hi => ?_⟩
  have hv : Fits (vs.getD i 0) := by
    rw [List.getD_eq_getElem _ _ hi]
    exact hfits _ (List.getElem_mem hi)
  rw [← intAt_record hv]
  refine intAt_congr fun k hk => ?_
  change (if 4 * i + k < min (4 * vs.length) (f.length - off) then f.byte
    (off + (4 * i + k)) else _) = _
  rw [hcount, if_pos (by omega)]
  exact h.byte_eq (4 * i + k) (by omega)

/-! ### Tables -/

/-- A loop that writes `n` records, each in a slot of `w` bytes. -/
def writeTable (f : File) (base w : ℕ) (row : ℕ → List ℤ) (n : ℕ) : File :=
  (List.range n).foldl (fun f i => f.pwrite (record (row i)) (4 * (row i).length) (base + w * i)) f

variable {base w n : ℕ} {row : ℕ → List ℤ}

theorem writeTable_succ : writeTable f base w row (n + 1) =
    (writeTable f base w row n).pwrite (record (row n)) (4 * (row n).length) (base + w * n) := by
  rw [writeTable, List.range_succ, List.foldl_append]
  rfl

/-- A record outside the table is kept. -/
theorem Stored.table (h : Stored f off vs) (hrow : ∀ i < n, 4 * (row i).length ≤ w)
    (hoff : base + w * n ≤ off ∨ off + 4 * vs.length ≤ base) :
    Stored (writeTable f base w row n) off vs := by
  induction n with
  | zero => exact h
  | succ n ih =>
      rw [writeTable_succ]
      have hn := hrow n (Nat.lt_succ_self n)
      rw [Nat.mul_succ] at hoff
      refine (ih (fun i hi => hrow i (by omega)) (by omega)).pwrite ?_
      rcases hoff with hoff | hoff
      · exact .inl (by omega)
      · exact .inr (hoff.trans (Nat.le_add_right ..))

/-- Every record of the table is written. -/
theorem stored_table (hrow : ∀ i < n, row i ≠ [] ∧ 4 * (row i).length ≤ w) {i : ℕ} (hi : i < n) :
    Stored (writeTable f base w row n) (base + w * i) (row i) := by
  induction n with
  | zero => exact absurd hi (Nat.not_lt_zero i)
  | succ n ih =>
      rw [writeTable_succ]
      rcases Nat.lt_succ_iff_lt_or_eq.1 hi with hlt | rfl
      · refine (ih (fun i hi => hrow i (by omega)) hlt).pwrite (.inr ?_)
        have hslot : w * (i + 1) ≤ w * n := Nat.mul_le_mul_left w hlt
        have hw := (hrow i hi).2
        rw [Nat.mul_succ] at hslot
        omega
      · exact stored_pwrite (hrow i (Nat.lt_succ_self i)).1

end IntFile
