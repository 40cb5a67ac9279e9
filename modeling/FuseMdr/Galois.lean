/-
**The arithmetic of the erasure coding library.**

`galois_create_log_tables` walks through the powers of two, as the RAID6 layer does for itself, and
checks that it does not meet a power twice.  Its table of powers has three copies of the period, so
that sums and differences of logarithms need not be reduced.  For small fields all products and
quotients are then stored in two more tables, which are filled in one pass.

Main definitions:

* `Ncfs.galoisCreateLogTables`, `Ncfs.galoisCreateMultTables` — the tables;
* `Ncfs.galoisSingleMultiply`, `Ncfs.galoisSingleDivide` — the operations.

Main results:

* `Ncfs.galoisCreateLogTables_ok`, `Ncfs.galoisCreateMultTables_ok` — the tables of GF(256);
* `Ncfs.galoisSingleMultiply_eq`, `Ncfs.galoisSingleDivide_eq` — the operations are those of the
  field;
* `Ncfs.galois_eq_gf` — they agree with the tables of the RAID6 layer.
-/
import FuseMdr.GfTables

set_option relaxedAutoImplicit false
set_option autoImplicit false

namespace Ncfs

/-! ### The tables -/

/-- `prim_poly`. -/
def primPoly (w : ℕ) : ℕ :=
  [0, 0o1, 0o7, 0o13, 0o23, 0o45, 0o103, 0o211, 0o435, 0o1021, 0o2011, 0o4005, 0o10123, 0o20033,
    0o42103, 0o100003, 0o210013, 0o400011, 0o1000201, 0o2000047, 0o4000011, 0o10000005, 0o20000003,
    0o40000041, 0o100000207, 0o200000011, 0o400000107, 0o1000000047, 0o2000000011, 0o4000000005,
    0o10040000007, 0o20000000011, 0o20000007].getD w 0

/-- The constants in `mult_type`. -/
inductive MultType where
  | none
  | table
  | shift
  | logs
  | splitw8
deriving DecidableEq

/-- `mult_type`. -/
def multType (w : ℕ) : MultType :=
  if w = 0 ∨ 32 < w then .none else if w ≤ 9 then .table else if w ≤ 22 then .logs
  else if w ≤ 31 then .shift else .splitw8

/-- `nw`. -/
def nw (w : ℕ) : ℕ := 1 <<< w

/-- `nwm1`. -/
def nwm1 (w : ℕ) : ℕ := nw w - 1

/-- `galois_log_tables[w]` and the memory that `galois_ilog_tables[w]` points into. -/
structure GaloisLogTables where
  /-- The exponents. -/
  log : ℕ → ℕ
  /-- The powers, from the start of the memory. -/
  ilog : ℕ → Option ℕ

/-- Reading `galois_ilog_tables[w]`, which points behind the first copy of the period. -/
def GaloisLogTables.ilogAt (t : GaloisLogTables) (w : ℕ) (i : ℤ) : Except CodingError ℕ :=
  if i + nwm1 w < 0 then .error .undefined else tableEntry t.ilog (i + nwm1 w).toNat

/-- The last two lines of the loop: the next value of `b`. -/
def galoisDouble (w b : ℕ) : ℕ :=
  let b := b <<< 1
  if b &&& nw w ≠ 0 then (b ^^^ primPoly w) &&& nwm1 w else b

/-- The body of the loop that walks through the powers. -/
def galoisLogStep (w : ℕ) (acc : GaloisLogTables × ℕ) (j : ℕ) :
    Except CodingError (GaloisLogTables × ℕ) :=
  let (t, b) := acc
  if t.log b ≠ nwm1 w then .error .exit
  else .ok (⟨Function.update t.log b j, Function.update t.ilog j (some b)⟩, galoisDouble w b)

/-- The loop that copies the period. -/
def galoisCopyPeriod (w : ℕ) (t : GaloisLogTables) : GaloisLogTables :=
  { t with
    ilog := (List.range (nwm1 w)).foldl (fun ilog j =>
      Function.update (Function.update ilog (j + nwm1 w) (ilog j)) (j + nwm1 w * 2)
        (ilog j)) t.ilog }

/-- `galois_create_log_tables`. -/
def galoisCreateLogTables (w : ℕ) : Except CodingError GaloisLogTables :=
  if 30 < w then .error .failed
  else do
    let t : GaloisLogTables := ⟨fun _ => nwm1 w, fun j => if j < nw w then some 0 else none⟩
    let (t, _) ← (List.range (nwm1 w)).foldlM (galoisLogStep w) (t, 1)
    return galoisCopyPeriod w t

/-- `galois_mult_tables[w]` and `galois_div_tables[w]`. -/
structure GaloisMultTables where
  /-- The products. -/
  mult : ℕ → Option ℕ
  /-- The quotients, `-1` for those by zero. -/
  div : ℕ → Option ℤ

/-- The entries at `j` are set, and `j++`. -/
def galoisPush (acc : GaloisMultTables × ℕ) (mult : ℕ) (div : ℤ) : GaloisMultTables × ℕ :=
  (⟨Function.update acc.1.mult acc.2 (some mult), Function.update acc.1.div acc.2 (some div)⟩,
    acc.2 + 1)

/-- The body of the loop over `x > 0`. -/
def galoisMultRow (logs : GaloisLogTables) (w : ℕ) (acc : GaloisMultTables × ℕ) (x : ℕ) :
    Except CodingError (GaloisMultTables × ℕ) :=
  let logx := logs.log x
  (List.range (nw w - 1)).foldlM (fun acc y => do
    let y := y + 1
    let mult ← logs.ilogAt w (logx + logs.log y)
    let div ← logs.ilogAt w (logx - logs.log y)
    return galoisPush acc mult div) (galoisPush acc 0 (-1))

/-- `galois_create_mult_tables`. -/
def galoisCreateMultTables (w : ℕ) : Except CodingError GaloisMultTables :=
  if 14 ≤ w then .error .failed
  else do
    let logs ← galoisCreateLogTables w
    -- x = 0
    let acc := (List.range (nw w - 1)).foldl (fun acc _ => galoisPush acc 0 0)
      (galoisPush (⟨fun _ => none, fun _ => none⟩, 0) 0 (-1))
    let (t, _) ← (List.range (nw w - 1)).foldlM (fun acc x => galoisMultRow logs w acc (x + 1)) acc
    return t

/-- A function that does not return. -/
def orExit {α : Type} : Except CodingError α → Except CodingError α
  | .ok t => .ok t
  | .error _ => .error .exit

/-- `galois_single_multiply`, for fields with tables. -/
def galoisSingleMultiply (x y w : ℕ) : Except CodingError ℕ :=
  if x = 0 ∨ y = 0 then .ok 0
  else match multType w with
    | .table => do
        let t ← orExit (galoisCreateMultTables w)
        tableEntry t.mult ((x <<< w) ||| y)
    | .logs => do
        let t ← orExit (galoisCreateLogTables w)
        t.ilogAt w (t.log x + t.log y)
    | _ => .error .undefined

/-- `galois_single_divide`, for fields with tables. -/
def galoisSingleDivide (a b w : ℕ) : Except CodingError ℤ :=
  match multType w with
  | .table => do
      let t ← orExit (galoisCreateMultTables w)
      match t.div ((a <<< w) ||| b) with
      | some v => .ok v
      | none => .error .undefined
  | .logs =>
      if b = 0 then .ok (-1)
      else if a = 0 then .ok 0
      else do
        let t ← orExit (galoisCreateLogTables w)
        return ((← t.ilogAt w (t.log a - t.log b) : ℕ) : ℤ)
  | _ => .error .undefined

/-! ### The tables of GF(256) -/

open Byte (generator)

theorem nwm1_eq : nwm1 fieldPower = 255 := rfl

theorem galoisDouble_eq (a : Byte) :
    galoisDouble fieldPower a.toNat = (generator.step a).toNat := by
  have h : ∀ n < 256, galoisDouble 8 n = (Byte.double (Byte.ofNat n)).toNat := by decide +kernel
  have hdouble := h a.toNat a.toNat_lt
  rwa [Byte.ofNat_toNat] at hdouble

/-- After `n` passes the tables hold the first `n` powers and nothing else, and `b` is the next
one. -/
theorem galoisLog_walk {n : ℕ} (hn : n ≤ 255) (t₀ : GaloisLogTables) (hlog : ∀ a, t₀.log a = 255) :
    ∃ acc, (List.range n).foldlM (galoisLogStep fieldPower) (t₀, 1) = .ok acc ∧
    acc.2 = (generator.pow n).toNat ∧
      (∀ i < n, acc.1.ilog i = some (generator.pow i).toNat ∧
        acc.1.log (generator.pow i).toNat = i) ∧
      ∀ a, (∀ i < n, a ≠ (generator.pow i).toNat) → acc.1.log a = 255 := by
  refine Loops.foldlM_range (fun n (acc : GaloisLogTables × ℕ) => acc.2 = (generator.pow n).toNat ∧
    (∀ i < n, acc.1.ilog i = some (generator.pow i).toNat ∧ acc.1.log (generator.pow i).toNat = i) ∧
    ∀ a, (∀ i < n, a ≠ (generator.pow i).toNat) → acc.1.log a = 255) (fun m hm acc hacc => ?_)
    ⟨rfl, fun i hi => absurd hi (Nat.not_lt_zero i), fun a _ => hlog a⟩
  obtain ⟨t, b⟩ := acc
  obtain ⟨rfl, htables, hrest⟩ := hacc
  have hne : ∀ i < m, (generator.pow m).toNat ≠ (generator.pow i).toNat := by
    intro i hi heq
    have hm' : m < 255 := by omega
    have hi' : i < 255 := by omega
    have := generator.pow_injOn hm' hi' (Byte.toNat_injective heq)
    omega
  refine ⟨_, if_neg (not_not.2 (hrest _ hne)), ?_, fun i hi => ?_, fun a ha => ?_⟩
  · rw [galoisDouble_eq, generator.pow_succ]
  · rcases Nat.lt_succ_iff_lt_or_eq.1 hi with hlt | rfl
    · refine ⟨?_, ?_⟩
      · exact (Function.update_of_ne hlt.ne ..).trans (htables i hlt).1
      · exact (Function.update_of_ne (hne i hlt).symm ..).trans (htables i hlt).2
    · exact ⟨Function.update_self .., Function.update_self ..⟩
  · refine (Function.update_of_ne (ha m (Nat.lt_succ_self m)) ..).trans
      (hrest a fun i hi => ha i (by omega))

/-- The copies continue the powers. -/
theorem galoisCopyPeriod_ilog {t : GaloisLogTables}
    (h : ∀ i < 255, t.ilog i = some (generator.pow i).toNat) {i : ℕ} (hi : i < 765) :
    (galoisCopyPeriod fieldPower t).ilog i = some (generator.pow i).toNat := by
  have hpow : ∀ i c, generator.pow (i + 255 * c) = generator.pow i := fun i c => by
    rw [← generator.pow_mod, ← generator.pow_mod i]
    exact congrArg generator.pow (Nat.add_mul_mod_self_left i 255 c)
  have hloop := Loops.foldl_range (n := 255) (s := t.ilog)
    (f := fun (ilog : ℕ → Option ℕ) j =>
      Function.update (Function.update ilog (j + 255) (ilog j)) (j + 255 * 2) (ilog j))
    (fun n ilog => (∀ i < 255, ilog i = some (generator.pow i).toNat) ∧
      ∀ i < n, ilog (i + 255) = some (generator.pow i).toNat ∧ ilog (i + 255 * 2) = some
        (generator.pow i).toNat)
    (fun j hj ilog hilog => ?_) ⟨h, fun i hi => absurd hi (Nat.not_lt_zero i)⟩
  · have hcopy : (galoisCopyPeriod fieldPower t).ilog = (List.range 255).foldl
        (fun (ilog : ℕ → Option ℕ) j =>
          Function.update (Function.update ilog (j + 255) (ilog j)) (j + 255 * 2)
          (ilog j)) t.ilog := by
      rw [galoisCopyPeriod, nwm1_eq]
    rw [hcopy]
    obtain ⟨hfirst, hrest⟩ := hloop
    by_cases h1 : i < 255
    · exact hfirst i h1
    by_cases h2 : i < 510
    · obtain ⟨j, rfl⟩ := Nat.exists_eq_add_of_le' (not_lt.1 h1)
      rw [(hrest j (by omega)).1, ← hpow j 1]
    · obtain ⟨j, rfl⟩ := Nat.exists_eq_add_of_le' (show 255 * 2 ≤ i by omega)
      rw [(hrest j (by omega)).2, ← hpow j 2]
  · obtain ⟨hfirst, hrest⟩ := hilog
    refine ⟨fun i hi => ?_, fun i hi => ?_⟩
    · rw [Function.update_of_ne (by omega), Function.update_of_ne (by omega), hfirst i hi]
    · rcases Nat.lt_succ_iff_lt_or_eq.1 hi with hlt | rfl
      · rw [Function.update_of_ne (by omega), Function.update_of_ne (by omega),
          Function.update_of_ne (by omega), Function.update_of_ne (by omega)]
        exact hrest i hlt
      · rw [Function.update_of_ne (by omega), Function.update_self, Function.update_self,
          hfirst i hj]
        exact ⟨rfl, rfl⟩

/-- **The tables of logarithms** are made without a complaint, and hold the powers. -/
theorem galoisCreateLogTables_ok : ∃ t, galoisCreateLogTables fieldPower = .ok t ∧
    (∀ i < 255, t.log (generator.pow i).toNat = i) ∧
    ∀ i : ℤ, -255 ≤ i → i < 510 → t.ilogAt fieldPower i = .ok
      (generator.pow (i + 255).toNat).toNat := by
  obtain ⟨acc, hok, -, htables, -⟩ := galoisLog_walk le_rfl
    ⟨fun _ => nwm1 fieldPower, fun j => if j < nw fieldPower then some 0 else none⟩ fun _ => rfl
  refine ⟨galoisCopyPeriod fieldPower acc.1, ?_, fun i hi => (htables i hi).2,
    fun i hlow hhigh => ?_⟩
  · rw [galoisCreateLogTables, if_neg (by decide)]
    exact congrArg (fun r => r >>= fun x : GaloisLogTables × ℕ => Except.ok
      (galoisCopyPeriod fieldPower x.1)) hok
  · have hcopy := galoisCopyPeriod_ilog (fun i hi => (htables i hi).1)
      (show (i + 255).toNat < 765 by omega)
    rw [GaloisLogTables.ilogAt, nwm1_eq, if_neg (by omega)]
    exact tableEntry_eq hcopy

/-- The product that belongs at index `n`. -/
noncomputable def productAt (n : ℕ) : ℕ := (Byte.ofNat (n / 256) * Byte.ofNat (n % 256)).toNat

/-- The quotient. -/
noncomputable def quotientAt (n : ℕ) : ℤ :=
  if n % 256 = 0 then -1 else (Byte.ofNat (n / 256) / Byte.ofNat (n % 256)).toNat

/-- The first `n` entries have been set. -/
def TablesFilled (n : ℕ) (acc : GaloisMultTables × ℕ) : Prop :=
  acc.2 = n ∧ ∀ i < n, acc.1.mult i = some (productAt i) ∧ acc.1.div i = some (quotientAt i)

theorem TablesFilled.push {n mult : ℕ} {div : ℤ} {acc : GaloisMultTables × ℕ}
    (h : TablesFilled n acc) (hmult : mult = productAt n) (hdiv : div = quotientAt n) :
    TablesFilled (n + 1) (galoisPush acc mult div) := by
  obtain ⟨rfl, hfilled⟩ := h
  refine ⟨rfl, fun i hi => ?_⟩
  rcases Nat.lt_succ_iff_lt_or_eq.1 hi with hlt | rfl
  · refine ⟨(Function.update_of_ne hlt.ne ..).trans (hfilled i hlt).1, ?_⟩
    exact (Function.update_of_ne hlt.ne ..).trans (hfilled i hlt).2
  · rw [hmult, hdiv]
    exact ⟨Function.update_self .., Function.update_self ..⟩

/-- An entry of row `x`. -/
theorem productAt_eq (x : ℕ) {y : ℕ} (hy : y < 256) :
    productAt (x * 256 + y) = (Byte.ofNat x * Byte.ofNat y).toNat ∧
      quotientAt (x * 256 + y) = if y = 0 then -1 else
        ((Byte.ofNat x / Byte.ofNat y).toNat : ℤ) := by
  have hdiv : (x * 256 + y) / 256 = x := by omega
  have hmod : (x * 256 + y) % 256 = y := by omega
  rw [productAt, quotientAt, hdiv, hmod]
  exact ⟨rfl, rfl⟩

theorem ofNat_ne_zero {x : ℕ} (hx : x ≠ 0) (hlt : x < 256) : Byte.ofNat x ≠ 0 := by
  intro h
  have hnat := Byte.toNat_ofNat_of_lt hlt
  rw [h] at hnat
  exact hx hnat.symm

/-- The row of `x > 0`. -/
theorem galoisMultRow_ok {logs : GaloisLogTables}
    (hlog : ∀ i < 255, logs.log (generator.pow i).toNat = i)
    (hilog : ∀ i : ℤ, -255 ≤ i → i < 510 → logs.ilogAt fieldPower i = .ok
      (generator.pow (i + 255).toNat).toNat) {acc : GaloisMultTables × ℕ} {x : ℕ} (hx : x ≠ 0)
      (hlt : x < 256) (h : TablesFilled (x * 256) acc) :
    ∃ acc', galoisMultRow logs fieldPower acc x = .ok acc' ∧ TablesFilled ((x + 1) * 256) acc' := by
  have hfirst : TablesFilled (x * 256 + 1) (galoisPush acc 0 (-1)) := by
    obtain ⟨hproduct, hquotient⟩ := productAt_eq x (show 0 < 256 by decide)
    rw [Nat.add_zero] at hproduct hquotient
    refine h.push ?_ ?_
    · rw [hproduct, show Byte.ofNat 0 = 0 from rfl, mul_zero, Byte.toNat_zero]
    · rw [hquotient, if_pos rfl]
  have hpass : ∀ y < 255, ∀ acc, TablesFilled (x * 256 + 1 + y) acc → ∃ acc', (do
      let mult ← logs.ilogAt fieldPower (logs.log x + logs.log (y + 1))
      let div ← logs.ilogAt fieldPower (logs.log x - logs.log (y + 1))
      return galoisPush acc mult div : Except CodingError (GaloisMultTables × ℕ)) = .ok acc' ∧
        TablesFilled (x * 256 + 1 + (y + 1)) acc' := by
    intro y hy acc hacc
    obtain ⟨i, hi, hpowx⟩ := generator.exists_pow_eq (ofNat_ne_zero hx hlt)
    obtain ⟨j, hj, hpowy⟩ := generator.exists_pow_eq (ofNat_ne_zero (Nat.succ_ne_zero y) (by omega))
    have hi : i < 255 := hi
    have hj : j < 255 := hj
    have hlogx := hlog i hi
    have hlogy := hlog j hj
    rw [hpowx, Byte.toNat_ofNat_of_lt hlt] at hlogx
    rw [hpowy, Byte.toNat_ofNat_of_lt (by omega)] at hlogy
    have hproduct : generator.pow ((i : ℤ) + j + 255).toNat = Byte.ofNat x * Byte.ofNat
        (y + 1) := by
      rw [← hpowx, ← hpowy, ← generator.pow_mod]
      refine Eq.trans ?_ (generator.pow_mul_pow i j).symm
      rw [← generator.pow_mod (i + j)]
      refine congrArg generator.pow ?_
      change ((i : ℤ) + j + 255).toNat % 255 = (i + j) % 255
      omega
    have hquotient : generator.pow ((i : ℤ) - j + 255).toNat = Byte.ofNat x / Byte.ofNat
        (y + 1) := by
      rw [← hpowx, ← hpowy]
      refine (generator.pow_div_pow ?_).symm
      change (((i : ℤ) - j + 255).toNat + j) % 255 = i % 255
      omega
    obtain ⟨hprod, hquot⟩ := productAt_eq x (show y + 1 < 256 by omega)
    rw [hlogx, hlogy, hilog _ (by omega) (by omega), hilog _ (by omega) (by omega), hproduct,
      hquotient]
    refine ⟨_, rfl, ?_⟩
    rw [show x * 256 + 1 + (y + 1) = x * 256 + (y + 1) + 1 by ring]
    refine TablesFilled.push (by rwa [show x * 256 + (y + 1) = x * 256 + 1 + y by ring])
      hprod.symm ?_
    rw [hquot, if_neg (Nat.succ_ne_zero y)]
  obtain ⟨acc', hok, hfilled⟩ :=
    Loops.foldlM_range (fun y acc => TablesFilled (x * 256 + 1 + y) acc) hpass hfirst
  refine ⟨acc', hok, ?_⟩
  rwa [show (x + 1) * 256 = x * 256 + 1 + 255 by ring]

/-- **The tables of products and quotients** are those of the field. -/
theorem galoisCreateMultTables_ok : ∃ t, galoisCreateMultTables fieldPower = .ok t ∧
    ∀ i < 256 * 256, t.mult i = some (productAt i) ∧ t.div i = some (quotientAt i) := by
  obtain ⟨logs, hlogs, hlog, hilog⟩ := galoisCreateLogTables_ok
  have hzero : TablesFilled 256 ((List.range 255).foldl (fun acc _ => galoisPush acc 0 0)
      (galoisPush (⟨fun _ => none, fun _ => none⟩, 0) 0 (-1))) := by
    refine Loops.foldl_range (fun y acc => TablesFilled (y + 1) acc) (fun y hy acc hacc => ?_) ?_
    · obtain ⟨hprod, hquot⟩ := productAt_eq 0 (show y + 1 < 256 by omega)
      rw [Nat.zero_mul, Nat.zero_add] at hprod hquot
      refine hacc.push ?_ ?_
      · exact (hprod.trans (congrArg Byte.toNat (zero_mul (Byte.ofNat (y + 1))))).symm
      · rw [hquot, if_neg (Nat.succ_ne_zero y)]
        exact congrArg (fun a : Byte => (a.toNat : ℤ)) (zero_div (Byte.ofNat (y + 1))).symm
    · refine TablesFilled.push ⟨rfl, fun i hi => absurd hi (Nat.not_lt_zero i)⟩ ?_ (if_pos rfl).symm
      exact (congrArg Byte.toNat (mul_zero (Byte.ofNat (0 / 256)))).symm
  obtain ⟨acc, hok, -, hfilled⟩ := Loops.foldlM_range (n := 255)
    (f := fun acc x => galoisMultRow logs fieldPower acc (x + 1))
      (fun x acc => TablesFilled ((x + 1) * 256) acc)
    (fun x hx acc hacc => galoisMultRow_ok hlog hilog (Nat.succ_ne_zero x) (by omega) hacc) hzero
  refine ⟨acc.1, ?_, hfilled⟩
  rw [galoisCreateMultTables, if_neg (by decide), hlogs, Loops.ok_bind]
  exact congrArg (fun r => r >>= fun x : GaloisMultTables × ℕ => Except.ok x.1) hok

/-! ### The operations -/

theorem galoisIndex (a b : Byte) :
    (a.toNat <<< fieldPower) ||| b.toNat = a.toNat * 256 + b.toNat := by
  rw [← Nat.shiftLeft_add_eq_or_of_lt (i := fieldPower) b.toNat_lt, Nat.shiftLeft_eq]
  rfl

/-- **`galois_single_multiply`** is the product of the field. -/
theorem galoisSingleMultiply_eq (a b : Byte) :
    galoisSingleMultiply a.toNat b.toNat fieldPower = .ok (a * b).toNat := by
  obtain ⟨t, ht, htable⟩ := galoisCreateMultTables_ok
  rw [galoisSingleMultiply]
  simp only [Byte.toNat_eq_zero]
  split
  · rename_i h
    rw [mul_eq_zero.2 h]
    rfl
  · have hlt : a.toNat * 256 + b.toNat < 256 * 256 := by
      have ha := a.toNat_lt
      have hb := b.toNat_lt
      omega
    have hentry := (htable _ hlt).1
    rw [(productAt_eq a.toNat b.toNat_lt).1, Byte.ofNat_toNat, Byte.ofNat_toNat] at hentry
    change (orExit (galoisCreateMultTables fieldPower) >>= fun t : GaloisMultTables =>
      tableEntry t.mult _) = _
    rw [ht, galoisIndex]
    exact tableEntry_eq hentry

/-- **`galois_single_divide`** is the quotient of the field. -/
theorem galoisSingleDivide_eq (a : Byte) {b : Byte} (hb : b ≠ 0) :
    galoisSingleDivide a.toNat b.toNat fieldPower = .ok ((a / b).toNat : ℤ) := by
  obtain ⟨t, ht, htable⟩ := galoisCreateMultTables_ok
  have hlt : a.toNat * 256 + b.toNat < 256 * 256 := by
    have ha := a.toNat_lt
    have hb := b.toNat_lt
    omega
  have hentry := (htable _ hlt).2
  rw [(productAt_eq a.toNat b.toNat_lt).2, if_neg (mt Byte.toNat_eq_zero.1 hb), Byte.ofNat_toNat,
    Byte.ofNat_toNat] at hentry
  change (orExit (galoisCreateMultTables fieldPower) >>= fun t : GaloisMultTables =>
    match t.div _ with | some v => Except.ok v | none => Except.error CodingError.undefined) = _
  rw [ht, galoisIndex]
  change (match t.div _ with | some v => Except.ok v | none => Except.error CodingError.undefined) =
    _
  rw [hentry]

/-- A quotient by zero is stored as `-1`. -/
theorem galoisSingleDivide_zero (a : Byte) :
    galoisSingleDivide a.toNat 0 fieldPower = .ok (-1) := by
  obtain ⟨t, ht, htable⟩ := galoisCreateMultTables_ok
  have hlt : a.toNat * 256 + (0 : Byte).toNat < 256 * 256 := by
    have ha := a.toNat_lt
    rw [Byte.toNat_zero]
    omega
  have hentry := (htable _ hlt).2
  rw [(productAt_eq a.toNat (0 : Byte).toNat_lt).2, if_pos Byte.toNat_zero] at hentry
  change (orExit (galoisCreateMultTables fieldPower) >>= fun t : GaloisMultTables =>
    match t.div ((a.toNat <<< fieldPower) ||| (0 : Byte).toNat) with
    | some v => Except.ok v
    | none => Except.error CodingError.undefined) = _
  rw [ht, galoisIndex]
  change (match t.div _ with | some v => Except.ok v | none => Except.error CodingError.undefined) =
    _
  rw [hentry]

/-- **The library agrees with the RAID6 layer.**  Both multiply and divide in the same field,
whatever tables they use, and the library answers `-1` for a quotient by zero. -/
theorem galois_eq_gf (a b : Byte) :
    (∃ v : ℕ, galoisSingleMultiply a.toNat b.toNat fieldPower = .ok v ∧
      Coding4Raid6.new.gfMul a.toNat b.toNat fieldPower = .ok v ∧ v = (a * b).toNat) ∧
      (b ≠ 0 → ∃ v : ℕ, galoisSingleDivide a.toNat b.toNat fieldPower = .ok v ∧
        Coding4Raid6.new.gfDiv a.toNat b.toNat fieldPower = .ok v ∧ v = (a / b).toNat) ∧
      (b = 0 → galoisSingleDivide a.toNat b.toNat fieldPower = .ok (-1)) := by
  refine ⟨⟨_, galoisSingleMultiply_eq a b, gfMul_eq a b, rfl⟩, fun hb => ?_, fun hb => ?_⟩
  · exact ⟨_, galoisSingleDivide_eq a hb, gfDiv_eq a hb, rfl⟩
  · rw [hb]
    exact galoisSingleDivide_zero a

end Ncfs
