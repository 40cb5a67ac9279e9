/-
The tables of logarithms of the RAID6 layer.

`gf_gen_tables` walks through the powers of two modulo the polynomial `x^8 + x^4 + x^3 + x^2 + 1`
and stores each power under its exponent and each exponent under its power.  `gf_mul` and `gf_div`
add and subtract exponents.  An entry that the walk does not reach is not initialised, and reading
it is undefined.

Main definitions:

* `Ncfs.Coding4Raid6` — the tables, `Ncfs.gfGenTables` — the walk;
* `Ncfs.Coding4Raid6.gfMul`, `Ncfs.Coding4Raid6.gfDiv`, `Ncfs.gfGetCoefficient` — the operations;
* `Ncfs.Byte.doubling` — the walk as a map of bytes.

Main results:

* the field of bytes whose multiplication is that of the tables;
* `Ncfs.gfMul_eq`, `Ncfs.gfDiv_eq` — the operations of the tables are those of the field.
-/
import FuseMdr.LogField
import FuseMdr.Loops
import FuseMdr.NcfsState

set_option relaxedAutoImplicit false
set_option autoImplicit false

namespace Ncfs

/-! ### The operations -/

/-- `prim_poly_8`. -/
def primPoly8 : ℕ := 285

/-- `field_power`. -/
def fieldPower : ℕ := 8

/-- The members of `Coding4Raid6`: tables whose entries may not be initialised. -/
structure Coding4Raid6 where
  /-- The exponents. -/
  gflog : ℕ → Option ℕ
  /-- The powers. -/
  gfilog : ℕ → Option ℕ

/-- The last two lines of the loop of `gf_gen_tables`: the next value of `b`. -/
def gfDouble (gfElements b : ℕ) : ℕ :=
  let b := b <<< 1
  if b &&& gfElements ≠ 0 then b ^^^ primPoly8 else b

/-- The body of the loop of `gf_gen_tables`. -/
def gfGenStep (gfElements : ℕ) (acc : Coding4Raid6 × ℕ) (index : ℕ) : Coding4Raid6 × ℕ :=
  let (tables, b) := acc
  ({ gflog := Function.update tables.gflog b (some (index % 256))
     gfilog := Function.update tables.gfilog index (some (b % 256)) },
    gfDouble gfElements b)

/-- `Coding4Raid6::gf_gen_tables`. -/
def gfGenTables (s : ℕ) : Coding4Raid6 :=
  let gfElements := 1 <<< s
  ((List.range (gfElements - 1)).foldl (gfGenStep gfElements) (⟨fun _ => none, fun _ => none⟩, 1)).1

/-- The constructor. -/
def Coding4Raid6.new : Coding4Raid6 := gfGenTables fieldPower

/-- Reading a table. -/
def tableEntry (table : ℕ → Option ℕ) (i : ℕ) : Except CodingError ℕ :=
  match table i with
  | some v => .ok v
  | none => .error .undefined

namespace Coding4Raid6

/-- `Coding4Raid6::gf_mul`. -/
def gfMul (coding : Coding4Raid6) (a b s : ℕ) : Except CodingError ℕ :=
  if a = 0 ∨ b = 0 then .ok 0
  else do
    let fieldMax := (1 <<< s) - 1
    let sum := (← tableEntry coding.gflog a) + (← tableEntry coding.gflog b)
    let sum := sum % fieldMax
    tableEntry coding.gfilog sum

/-- `Coding4Raid6::gf_div`. -/
def gfDiv (coding : Coding4Raid6) (a b s : ℕ) : Except CodingError ℕ :=
  if a = 0 then .ok 0
  else do
    let fieldMax := (1 <<< s) - 1
    let diff : ℤ := (← tableEntry coding.gflog a) - (← tableEntry coding.gflog b)
    let diff := if diff < 0 then diff + fieldMax else diff
    tableEntry coding.gfilog diff.toNat

end Coding4Raid6

/-- `Coding4Raid6::gf_get_coefficient`: a power of two.  The shift of an `int` is undefined when the
count is negative or the bit does not fit. -/
def gfGetCoefficient (value : ℤ) (_s : ℕ) : Except CodingError ℕ :=
  if value < 0 ∨ 31 ≤ value then .error .undefined else .ok (1 <<< value.toNat)

/-! ### Doubling a byte -/

namespace Byte

/-- The byte that follows in the walk. -/
def double (a : Byte) : Byte := ⟨(a.bits <<< 1) ^^^ if a.bits.msb then 0x1d#8 else 0#8⟩

theorem double_add (a b : Byte) : double (a + b) = double a + double b := by
  refine ext_bits ?_
  have hpoly : ∀ x y : Bool, (if (x ^^ y) = true then 0x1d#8 else 0#8) =
      (if x = true then 0x1d#8 else 0#8) ^^^ if y = true then 0x1d#8 else 0#8 := by decide
  rw [add_bits]
  simp only [double, add_bits, BitVec.msb_xor, BitVec.shiftLeft_xor_distrib, hpoly]
  ac_rfl

/-- Doubling, as a map that respects exclusive or. -/
def doubling : Byte →+ Byte where
  toFun := double
  map_zero' := by decide
  map_add' := double_add

theorem card_eq : Nat.card Byte = 256 := by
  have e : Byte ≃ Fin 256 :=
    { toFun := fun a => ⟨a.toNat, a.toNat_lt⟩
      invFun := fun i => ofNat i
      left_inv := fun a => ofNat_toNat a
      right_inv := fun i => Fin.ext (toNat_ofNat_of_lt i.isLt) }
  rw [Nat.card_congr e, Nat.card_eq_fintype_card, Fintype.card_fin]

theorem minimalPeriod_doubling : Function.minimalPeriod doubling (ofNat 1) = 255 := by
  have hperiod : Function.IsPeriodicPt doubling 255 (ofNat 1) := by
    unfold Function.IsPeriodicPt Function.IsFixedPt
    decide +kernel
  refine LogField.minimalPeriod_eq hperiod fun p hp hdvd => ?_
  have h255 : p ∣ 3 * (5 * 17) := hdvd
  -- the prime factors are 3, 5 and 17
  have hcases : p = 3 ∨ p = 5 ∨ p = 17 := by
    rcases hp.dvd_mul.1 h255 with h | h
    · exact .inl ((Nat.prime_dvd_prime_iff_eq hp (by norm_num)).1 h)
    rcases hp.dvd_mul.1 h with h | h
    · exact .inr (.inl ((Nat.prime_dvd_prime_iff_eq hp (by norm_num)).1 h))
    · exact .inr (.inr ((Nat.prime_dvd_prime_iff_eq hp (by norm_num)).1 h))
  unfold Function.IsPeriodicPt Function.IsFixedPt
  rcases hcases with rfl | rfl | rfl <;> decide +kernel

/-- The powers of two run through all nonzero bytes. -/
def generator : LogField.Generator Byte where
  step := doubling
  one := ofNat 1
  one_ne_zero := by decide
  order := 255
  minimalPeriod_eq := minimalPeriod_doubling
  card_eq := card_eq

noncomputable instance : Field Byte := generator.field

instance : CharP Byte 2 := CharTwo.of_one_ne_zero_of_two_eq_zero one_ne_zero (by
  rw [← one_add_one_eq_two]
  exact ZModModule.add_self (1 : Byte))

/-- The walk of the tables on small numbers is doubling. -/
theorem gfDouble_eq (a : Byte) : gfDouble 256 a.toNat = (double a).toNat := by
  have h : ∀ n < 256, gfDouble 256 n = (double (ofNat n)).toNat := by decide +kernel
  rw [h a.toNat a.toNat_lt, ofNat_toNat]

theorem toNat_injective : Function.Injective toNat := fun a b h => by
  rw [← ofNat_toNat a, h, ofNat_toNat]

end Byte

/-! ### The tables -/

open Byte (generator)

/-- After `n` passes the tables hold the first `n` powers, and `b` is the next one. -/
theorem gfGen_walk {n : ℕ} (hn : n ≤ 255) :
    let acc := (List.range n).foldl (gfGenStep 256) (⟨fun _ => none, fun _ => none⟩, 1)
    acc.2 = (generator.pow n).toNat ∧ ∀ i < n,
      acc.1.gfilog i = some (generator.pow i).toNat ∧
        acc.1.gflog (generator.pow i).toNat = some i := by
  induction n with
  | zero => exact ⟨rfl, fun i hi => absurd hi (by omega)⟩
  | succ n ih =>
      obtain ⟨hb, htables⟩ := ih (by omega)
      rw [List.range_succ, List.foldl_append, List.foldl_cons, List.foldl_nil]
      refine ⟨?_, fun i hi => ?_⟩
      · rw [gfGenStep, hb, Byte.gfDouble_eq, generator.pow_succ]
        rfl
      · rw [gfGenStep, hb]
        rcases Nat.lt_succ_iff_lt_or_eq.1 hi with hlt | rfl
        · have hne : (generator.pow i).toNat ≠ (generator.pow n).toNat := by
            intro h
            have hi : i < 255 := by omega
            have hn : n < 255 := by omega
            have := generator.pow_injOn hi hn (Byte.toNat_injective h)
            omega
          dsimp only
          rw [Function.update_of_ne (by omega), Function.update_of_ne hne]
          exact htables i hlt
        · dsimp only
          rw [Function.update_self, Function.update_self, Nat.mod_eq_of_lt (Byte.toNat_lt _),
            Nat.mod_eq_of_lt (by omega)]
          exact ⟨rfl, rfl⟩

theorem new_eq : Coding4Raid6.new =
    ((List.range 255).foldl (gfGenStep 256) (⟨fun _ => none, fun _ => none⟩, 1)).1 := by
  have h : 1 <<< fieldPower = 256 := rfl
  simp only [Coding4Raid6.new, gfGenTables, h, Nat.reduceSub]

theorem tableEntry_eq {table : ℕ → Option ℕ} {i v : ℕ} (h : table i = some v) :
    tableEntry table i = .ok v := by
  rw [tableEntry, h]

theorem gfilog_new {i : ℕ} (hi : i < 255) :
    tableEntry Coding4Raid6.new.gfilog i = .ok (generator.pow i).toNat := by
  rw [new_eq]
  exact tableEntry_eq ((gfGen_walk le_rfl).2 i hi).1

theorem gflog_new {i : ℕ} (hi : i < 255) :
    tableEntry Coding4Raid6.new.gflog (generator.pow i).toNat = .ok i := by
  rw [new_eq]
  exact tableEntry_eq ((gfGen_walk le_rfl).2 i hi).2

theorem fieldMax_eq : (1 <<< fieldPower) - 1 = 255 := rfl

/-- The product of the tables is that of the field. -/
theorem gfMul_eq (a b : Byte) :
    Coding4Raid6.new.gfMul a.toNat b.toNat fieldPower = .ok (a * b).toNat := by
  rw [Coding4Raid6.gfMul]
  simp only [Byte.toNat_eq_zero, fieldMax_eq]
  split
  · rename_i h
    rw [mul_eq_zero.2 h]
    rfl
  · rename_i h
    obtain ⟨ha, hb⟩ := not_or.1 h
    obtain ⟨i, hi, rfl⟩ := generator.exists_pow_eq ha
    obtain ⟨j, hj, rfl⟩ := generator.exists_pow_eq hb
    have hprod : generator.pow i * generator.pow j = generator.pow ((i + j) % 255) :=
      (generator.pow_mul_pow i j).trans (generator.pow_mod (i + j)).symm
    simp only [gflog_new hi, gflog_new hj, bind, Except.bind, hprod]
    exact gfilog_new (Nat.mod_lt _ (by decide))

/-- The quotient of the tables is that of the field. -/
theorem gfDiv_eq (a : Byte) {b : Byte} (hb : b ≠ 0) :
    Coding4Raid6.new.gfDiv a.toNat b.toNat fieldPower = .ok (a / b).toNat := by
  rw [Coding4Raid6.gfDiv]
  simp only [Byte.toNat_eq_zero, fieldMax_eq]
  split
  · rename_i h
    rw [h, zero_div]
    rfl
  · rename_i ha
    obtain ⟨i, hi, rfl⟩ := generator.exists_pow_eq ha
    obtain ⟨j, hj, rfl⟩ := generator.exists_pow_eq hb
    have hi : i < 255 := hi
    have hj : j < 255 := hj
    have hquot : ∀ k < 255, (k + j) % 255 = i % 255 → ∀ diff : ℤ, diff.toNat = k →
        tableEntry Coding4Raid6.new.gfilog diff.toNat =
          .ok (generator.pow i / generator.pow j).toNat := by
      intro k hk hkj diff hdiff
      rw [hdiff, gfilog_new hk]
      exact congrArg (fun v => Except.ok (Byte.toNat v)) (generator.pow_div_pow hkj).symm
    simp only [gflog_new hi, gflog_new hj, bind, Except.bind]
    split
    · exact hquot (i + 255 - j) (by omega) (by omega) _ (by omega)
    · exact hquot (i - j) (by omega) (by omega) _ (by omega)

end Ncfs
