/-
Handing out the good positions of several lanes in rows, lane by lane.

Each of `n` lanes has an offset, the next row in which it may be served.  Before a position is
handed out, every lane that stands on a position that is not good moves on by one row, and by one
row only.  Then a scan from the last lane to the first takes the lane with the smallest offset, the
first lane among equals.  A lane may have fallen behind on a long stretch of positions that are not
good; that no position is lost all the same is the content of `Frontier.Handed.step`.

Main definitions:

* `Frontier.scan` — the scan for the smallest offset;
* `Frontier.skip` — the offsets after every lane has moved on;
* `Frontier.Before` — row by row, the order in which positions are handed out;
* `Frontier.At` — the offsets when a given position is the next one;
* `Frontier.Handed` — a list of positions handed out, up to a bound on the rows.

Main results:

* `Frontier.scan_eq_some`, `Frontier.scan_bound` — what the scan finds;
* `Frontier.At.next` — the position after the next one;
* `Frontier.Handed.step` — the scan finds the next position, and finds none only when all positions
  below the bound have been handed out.
-/
import Mathlib

set_option relaxedAutoImplicit false
set_option autoImplicit false

namespace Frontier

/-! ### The scan -/

section Scan

variable (use : ℕ → Prop) [DecidablePred use] (off : ℕ → ℕ)

/-- One pass of the scan: a lane in use is taken when its offset is not above the bound, which it
then becomes. -/
def look (acc : Option (ℕ × ℕ) × ℕ) (i : ℕ) : Option (ℕ × ℕ) × ℕ :=
  if use i ∧ off i ≤ acc.2 then (some (i, off i), off i) else acc

/-- The scan from the last of `n` lanes to the first.  The bound is at first the offset of lane
`0`. -/
def scan (n : ℕ) : Option (ℕ × ℕ) :=
  ((List.range n).reverse.foldl (look use off) (none, off 0)).1

variable {use off} {n d : ℕ}

theorem foldl_look_succ (acc : Option (ℕ × ℕ) × ℕ) :
    (List.range (n + 1)).reverse.foldl (look use off) acc =
      (List.range n).reverse.foldl (look use off) (look use off acc n) := by
  rw [List.range_succ, List.reverse_append, List.reverse_singleton, List.singleton_append,
    List.foldl_cons]

/-- Lanes that are not in use, or are above the bound, are passed over. -/
theorem foldl_look_eq {acc : Option (ℕ × ℕ) × ℕ} (h : ∀ i < n, use i → acc.2 < off i) :
    (List.range n).reverse.foldl (look use off) acc = acc := by
  induction n with
  | zero => rfl
  | succ n ih =>
      have hlook : look use off acc n = acc := if_neg fun hn =>
        absurd (h n (Nat.lt_succ_self n) hn.1) (by omega)
      rw [foldl_look_succ, hlook]
      exact ih fun i hi => h i (by omega)

theorem scan_eq_none (h : ∀ i < n, ¬ use i) : scan use off n = none := by
  rw [scan, foldl_look_eq fun i hi huse => absurd huse (h i hi)]

/-- Once a lane has been taken, a lane is taken in the end, and the bound only falls. -/
theorem foldl_look_some (x : ℕ × ℕ) (bound : ℕ) (hx : x.2 ≤ bound) :
    ∃ y, ((List.range n).reverse.foldl (look use off) (some x, bound)).1 =
      some y ∧ y.2 ≤ bound := by
  induction n generalizing x bound with
  | zero => exact ⟨x, rfl, hx⟩
  | succ n ih =>
      rw [foldl_look_succ, look]
      by_cases hn : use n ∧ off n ≤ bound
      · rw [if_pos hn]
        obtain ⟨y, hy, hle⟩ := ih (n, off n) (off n) le_rfl
        exact ⟨y, hy, hle.trans hn.2⟩
      · rw [if_neg hn]
        exact ih x bound hx

/-- The scan finds a lane that is not behind lane `0`, or all lanes in use are. -/
theorem scan_bound : (∃ x, scan use off n = some x ∧ x.2 ≤ off 0) ∨
    scan use off n = none ∧ ∀ i < n, use i → off 0 < off i := by
  have hfold : ∀ bound,
      (∃ x, ((List.range n).reverse.foldl (look use off) (none, bound)).1 = some x ∧ x.2 ≤ bound) ∨
        ((List.range n).reverse.foldl (look use off) (none, bound)).1 = none ∧
          ∀ i < n, use i → bound < off i := by
    induction n with
    | zero => exact fun bound => .inr ⟨rfl, fun i hi => absurd hi (Nat.not_lt_zero i)⟩
    | succ n ih =>
        intro bound
        rw [foldl_look_succ, look]
        by_cases hn : use n ∧ off n ≤ bound
        · rw [if_pos hn]
          obtain ⟨y, hy, hle⟩ := @foldl_look_some use _ off n (n, off n) (off n) le_rfl
          exact .inl ⟨y, hy, hle.trans hn.2⟩
        · rw [if_neg hn]
          rcases ih bound with hsome | ⟨hnone, hrest⟩
          · exact .inl hsome
          · refine .inr ⟨hnone, fun i hi huse => ?_⟩
            rcases Nat.lt_succ_iff_lt_or_eq.1 hi with hlt | rfl
            · exact hrest i hlt huse
            · exact lt_of_not_ge fun hle => hn ⟨huse, hle⟩
  exact hfold (off 0)

/-- What the scan finds is a lane in use, at its offset. -/
theorem scan_some {b : ℕ} (h : scan use off n = some (d, b)) : d < n ∧ use d ∧ b = off d := by
  have hfold : ∀ acc : Option (ℕ × ℕ) × ℕ,
      ((List.range n).reverse.foldl (look use off) acc).1 = some (d, b) →
        acc.1 = some (d, b) ∨ d < n ∧ use d ∧ b = off d := by
    clear h
    induction n with
    | zero => exact fun _ => .inl
    | succ n ih =>
        intro acc hacc
        rw [foldl_look_succ] at hacc
        rcases ih _ hacc with hlook | ⟨hd, huse, hb⟩
        · rw [look] at hlook
          split at hlook
          · rename_i hn
            obtain ⟨rfl, rfl⟩ := Prod.mk.inj (Option.some.inj hlook)
            exact .inr ⟨Nat.lt_succ_self n, hn.1, rfl⟩
          · exact .inl hlook
        · exact .inr ⟨hd.trans (Nat.lt_succ_self n), huse, hb⟩
  rcases hfold _ h with hnone | hfound
  · cases hnone
  · exact hfound

theorem foldl_look_min (hd : d < n) (huse : use d) (hmin : ∀ i < n, off d ≤ off i)
    (hfirst : ∀ i < d, off d < off i) {acc : Option (ℕ × ℕ) × ℕ} (hacc : off d ≤ acc.2) :
    (List.range n).reverse.foldl (look use off) acc = (some (d, off d), off d) := by
  induction n generalizing acc with
  | zero => exact absurd hd (Nat.not_lt_zero d)
  | succ n ih =>
      rw [foldl_look_succ]
      rcases Nat.lt_succ_iff_lt_or_eq.1 hd with hlt | rfl
      · refine ih hlt (fun i hi => hmin i (by omega)) ?_
        rw [look]
        split
        · exact hmin n (Nat.lt_succ_self n)
        · exact hacc
      · have hlook : look use off acc d = (some (d, off d), off d) := if_pos ⟨huse, hacc⟩
        rw [hlook]
        exact foldl_look_eq fun i hi _ => hfirst i hi

/-- The scan finds the lane with the smallest offset, the first one among equals. -/
theorem scan_eq_some (hd : d < n) (huse : use d) (hmin : ∀ i < n, off d ≤ off i)
    (hfirst : ∀ i < d, off d < off i) : scan use off n = some (d, off d) := by
  rw [scan, foldl_look_min hd huse hmin hfirst (hmin 0 (by omega))]

end Scan

/-! ### The offsets -/

section Offsets

variable (n : ℕ) (good : ℕ → ℕ → Prop)

/-- The offsets after every lane on a position that is not good has moved on by one row. -/
def skip [∀ i r, Decidable (good i r)] (off : ℕ → ℕ) (i : ℕ) : ℕ :=
  if i < n ∧ ¬ good i (off i) then off i + 1 else off i

/-- Row by row: row `r` of lane `i` comes before row `b` of lane `d`. -/
def Before (i r d b : ℕ) : Prop := r < b ∨ r = b ∧ i < d

/-- The offsets when row `b` of lane `d` is the next good position.  Lanes may have moved ahead over
positions that are not good. -/
structure At (off : ℕ → ℕ) (d b : ℕ) : Prop where
  /-- There is such a lane. -/
  lt : d < n
  /-- The position is good. -/
  isGood : good d b
  /-- No lane has been left behind. -/
  ge : ∀ i < n, b ≤ off i
  /-- The lanes that have been served in this row have passed it. -/
  past : ∀ i < d, good i b → b < off i
  /-- No good position has been passed without being served. -/
  passed : ∀ i < n, ∀ r < off i, good i r → Before i r d b

variable {n} {good} {off : ℕ → ℕ} {d b : ℕ}

/-- When every row has a good position, there is a first one after each position. -/
theorem exists_next (d b : ℕ) (hrow : ∀ r, ∃ i < n, good i r) :
    ∃ d' b', d' < n ∧ good d' b' ∧ (b' = b ∨ b' = b + 1) ∧
      ∀ i < n, ∀ r, good i r → (Before i r d' b' ↔ Before i r d b ∨ i = d ∧ r = b) := by
  classical
  by_cases hmore : ∃ i, d < i ∧ i < n ∧ good i b
  · -- in the same row
    obtain ⟨hdi, hin, hfind⟩ := Nat.find_spec hmore
    refine ⟨Nat.find hmore, b, hin, hfind, .inl rfl, fun i _ r hgood => ?_⟩
    have hleast : r = b → d < i → Nat.find hmore ≤ i := by
      rintro rfl hi
      exact Nat.find_min' hmore ⟨hi, ‹_›, hgood⟩
    rw [Before, Before]
    omega
  · -- in the next row
    obtain ⟨hin, hfind⟩ := Nat.find_spec (hrow (b + 1))
    refine ⟨Nat.find (hrow (b + 1)), b + 1, hin, hfind, .inr rfl, fun i hi r hgood => ?_⟩
    have hleast : r = b + 1 → Nat.find (hrow (b + 1)) ≤ i := by
      rintro rfl
      exact Nat.find_min' (hrow (b + 1)) ⟨hi, hgood⟩
    have hlast : r = b → ¬ d < i := by
      rintro rfl hdi
      exact hmore ⟨i, hdi, hi, hgood⟩
    rw [Before, Before]
    omega

/-- The lane that is next has its offset on the position that is next. -/
theorem At.off_eq (h : At n good off d b) : off d = b := by
  refine le_antisymm (not_lt.1 fun hlt => ?_) (h.ge d h.lt)
  rcases h.passed d h.lt b hlt h.isGood with hb | ⟨-, hd⟩
  · exact lt_irrefl b hb
  · exact lt_irrefl d hd

/-- Before anything has been served, the next position is the first good one of row `0`. -/
theorem At.init (hrow : ∃ i < n, good i 0) :
    ∃ d, At n good (fun _ => 0) d 0 ∧ ∀ i < d, ¬ good i 0 := by
  classical
  obtain ⟨hin, hgood⟩ := Nat.find_spec hrow
  have hleast : ∀ i < Nat.find hrow, ¬ good i 0 := fun i hi hgood =>
    Nat.find_min hrow hi ⟨hi.trans hin, hgood⟩
  exact ⟨Nat.find hrow, ⟨hin, hgood, fun _ _ => le_rfl, fun i hi hgood => absurd hgood
    (hleast i hi), fun i _ r hr => absurd hr (Nat.not_lt_zero r)⟩, hleast⟩

variable [∀ i r, Decidable (good i r)]

theorem le_skip (i : ℕ) : off i ≤ skip n good off i := by
  rw [skip]
  split <;> omega

/-- Only positions that are not good are passed over. -/
theorem lt_of_lt_skip {i r : ℕ} (hr : r < skip n good off i) (hgood : good i r) : r < off i := by
  rw [skip] at hr
  split at hr
  · rename_i h
    rcases Nat.lt_succ_iff_lt_or_eq.1 hr with hlt | rfl
    · exact hlt
    · exact absurd hgood h.2
  · exact hr

/-- A lane on a position that is not good moves on. -/
theorem lt_skip {i : ℕ} (hi : i < n) (hge : b ≤ off i) (h : ¬ good i b) :
    b < skip n good off i := by
  rcases Nat.eq_or_lt_of_le hge with rfl | hlt
  · rw [skip, if_pos ⟨hi, h⟩]
    exact Nat.lt_succ_self _
  · exact hlt.trans_le (le_skip i)

theorem At.skipped (h : At n good off d b) : At n good (skip n good off) d b where
  lt := h.lt
  isGood := h.isGood
  ge i hi := (h.ge i hi).trans (le_skip i)
  past i hi hgood := (h.past i hi hgood).trans_le (le_skip i)
  passed i hi r hr hgood := h.passed i hi r (lt_of_lt_skip hr hgood) hgood

/-- After the lanes have moved on, those before the next one are ahead of it. -/
theorem At.lt_skip_of_lt (h : At n good off d b) {i : ℕ} (hi : i < d) : b < skip n good off i := by
  by_cases hgood : good i b
  · exact (h.past i hi hgood).trans_le (le_skip i)
  · exact lt_skip (hi.trans h.lt) (h.ge i (hi.trans h.lt)) hgood

theorem At.skip_eq (h : At n good off d b) : skip n good off d = b := h.skipped.off_eq

/-- The scan finds the next position. -/
theorem At.scan_eq {use : ℕ → Prop} [DecidablePred use] (h : At n good off d b) (huse : use d) :
    scan use (skip n good off) n = some (d, b) := by
  have hd := h.skip_eq
  rw [scan_eq_some h.lt huse (fun i hi => ?_) (fun i hi => ?_), hd]
  · rw [hd]
    exact h.skipped.ge i hi
  · rw [hd]
    exact h.lt_skip_of_lt hi

/-- Once the next position has been served, the lanes up to its own are ahead of its row, and so are
those that are not good there. -/
theorem At.lt_update (h : At n good off d b) {i : ℕ} (hi : i < n) (hnot : ¬ (d < i ∧ good i b)) :
    b < Function.update (skip n good off) d (b + 1) i := by
  rcases Nat.lt_trichotomy i d with hlt | rfl | hgt
  · rw [Function.update_of_ne hlt.ne]
    exact h.lt_skip_of_lt hlt
  · rw [Function.update_self]
    exact Nat.lt_succ_self b
  · rw [Function.update_of_ne hgt.ne']
    exact lt_skip hi (h.ge i hi) fun hgood => hnot ⟨hgt, hgood⟩

/-- The only good position that has been passed anew is the one that was served. -/
theorem At.passed_update (h : At n good off d b) {i r : ℕ} (hi : i < n)
    (hr : r < Function.update (skip n good off) d (b + 1) i) (hgood : good i r) :
    Before i r d b ∨ i = d ∧ r = b := by
  by_cases hid : i = d
  · subst hid
    rw [Function.update_self] at hr
    rcases Nat.lt_succ_iff_lt_or_eq.1 hr with hlt | heq
    · exact .inl (.inl hlt)
    · exact .inr ⟨rfl, heq⟩
  · rw [Function.update_of_ne hid] at hr
    exact .inl (h.skipped.passed i hi r hr hgood)

/-- When every row has a good position, there is a next one after the next one has been served. -/
theorem At.next (hrow : ∀ r, ∃ i < n, good i r) (h : At n good off d b) :
    ∃ d' b', At n good (Function.update (skip n good off) d (b + 1)) d' b' ∧
      ∀ i < n, ∀ r, good i r → (Before i r d' b' ↔ Before i r d b ∨ i = d ∧ r = b) := by
  obtain ⟨d', b', hlt, hgood, hrows, hbefore⟩ := exists_next d b hrow
  refine ⟨d', b', ⟨hlt, hgood, fun i hi => ?_, fun i hi hgood => ?_, fun i hi r hr hgood => ?_⟩,
    hbefore⟩
  · rcases hrows with rfl | rfl
    · by_cases hid : i = d
      · rw [hid, Function.update_self]
        exact Nat.le_succ b'
      · rw [Function.update_of_ne hid]
        exact h.skipped.ge i hi
    · refine h.lt_update hi ?_
      rintro ⟨hdi, hgood⟩
      have := (hbefore i hi b hgood).1 (.inl (Nat.lt_succ_self b))
      rw [Before] at this
      omega
  · have := (hbefore i (hi.trans hlt) b' hgood).1 (.inr ⟨rfl, hi⟩)
    rw [Before] at this
    rcases hrows with rfl | rfl
    · exact h.lt_update (hi.trans hlt) fun hnot => by omega
    · omega
  · exact (hbefore i hi r hgood).2 (h.passed_update hi hr hgood)

end Offsets

/-! ### Handing out -/

section Handing

variable {n rows : ℕ} {good : ℕ → ℕ → Prop} {off : ℕ → ℕ} {out : List (ℕ × ℕ)}

/-- The positions of `out` are the good ones below row `rows` that come before the next one, each
once. -/
def Handed (n : ℕ) (good : ℕ → ℕ → Prop) (rows : ℕ) (off : ℕ → ℕ) (out : List (ℕ × ℕ)) : Prop :=
  ∃ d b, At n good off d b ∧ out.Nodup ∧
    ∀ i r, (i, r) ∈ out ↔ i < n ∧ good i r ∧ r < rows ∧ Before i r d b

theorem Handed.init (hrow : ∃ i < n, good i 0) : Handed n good rows (fun _ => 0) [] := by
  obtain ⟨d, hat, hleast⟩ := At.init hrow
  refine ⟨d, 0, hat, List.nodup_nil, fun i r => ?_⟩
  refine iff_of_false (List.not_mem_nil) ?_
  rintro ⟨-, hgood, -, hlt | ⟨rfl, hi⟩⟩
  · exact absurd hlt (Nat.not_lt_zero r)
  · exact hleast i hi hgood

theorem Handed.nodup (h : Handed n good rows off out) : out.Nodup := by
  obtain ⟨d, b, -, hnodup, -⟩ := h
  exact hnodup

theorem Handed.mem (h : Handed n good rows off out) {x : ℕ × ℕ}
    (hx : x ∈ out) : x.1 < n ∧ good x.1 x.2 ∧ x.2 < rows := by
  obtain ⟨d, b, -, -, hmem⟩ := h
  obtain ⟨hlt, hgood, hrows, -⟩ := (hmem x.1 x.2).1 hx
  exact ⟨hlt, hgood, hrows⟩

/-- One step.  A lane may be used only below the bound, and is used there at least on good
positions. -/
theorem Handed.step [∀ i r, Decidable (good i r)] {use : ℕ → Prop} [DecidablePred use]
    (hrow : ∀ r, ∃ i < n, good i r) (h : Handed n good rows off out)
    (hbound : ∀ i < n, use i → skip n good off i < rows)
    (huse : ∀ i < n, good i (skip n good off i) → skip n good off i < rows → use i) :
    (∃ d b, scan use (skip n good off) n = some (d, b) ∧
        Handed n good rows (Function.update (skip n good off) d (b + 1)) ((d, b) :: out)) ∨
      scan use (skip n good off) n = none ∧ Handed n good rows (skip n good off) out ∧
        ∀ i < n, ∀ r < rows, good i r → (i, r) ∈ out := by
  obtain ⟨d, b, hat, hnodup, hmem⟩ := h
  by_cases hb : b < rows
  · left
    have hd := hat.skip_eq
    refine ⟨d, b, hat.scan_eq (huse d hat.lt ?_ ?_), ?_⟩
    · rw [hd]
      exact hat.isGood
    · rwa [hd]
    · obtain ⟨d', b', hat', hbefore⟩ := hat.next hrow
      refine ⟨d', b', hat', List.nodup_cons.2 ⟨fun hin => ?_, hnodup⟩, fun i r => ?_⟩
      · obtain ⟨-, -, -, hlt | ⟨-, hlt⟩⟩ := (hmem d b).1 hin
        · exact lt_irrefl b hlt
        · exact lt_irrefl d hlt
      · rw [List.mem_cons, hmem, Prod.mk.injEq]
        constructor
        · rintro (⟨rfl, rfl⟩ | ⟨hi, hgood, hr, hlt⟩)
          · exact ⟨hat.lt, hat.isGood, hb, (hbefore i hat.lt r hat.isGood).2 (.inr ⟨rfl, rfl⟩)⟩
          · exact ⟨hi, hgood, hr, (hbefore i hi r hgood).2 (.inl hlt)⟩
        · rintro ⟨hi, hgood, hr, hlt⟩
          rcases (hbefore i hi r hgood).1 hlt with hlt | heq
          · exact .inr ⟨hi, hgood, hr, hlt⟩
          · exact .inl heq
  · right
    refine ⟨scan_eq_none fun i hi hin => ?_, ⟨d, b, hat.skipped, hnodup, hmem⟩,
      fun i hi r hr hgood => ?_⟩
    · have := hbound i hi hin
      have := hat.skipped.ge i hi
      omega
    · exact (hmem i r).2 ⟨hi, hgood, hr, .inl (by omega)⟩

end Handing

end Frontier
