/-
Counting loops as folds.

A loop `for (i = 0; i < n; i++)` over a state is a left fold over `List.range n`; a loop whose body
may stop is a monadic fold in `Except`.  The rules here say what such a loop computes from what its
body does.

* `Loops.foldlM_ok`, `Loops.foldlM_congr` — a loop whose body never stops is the plain loop, and
  bodies that agree make the same loop;
* `Loops.foldlM_inv`, `Loops.foldlM_keeps` — a loop whose body does not stop under an invariant, and
  keeps it, and what is kept where the loop has not stopped;
* `Loops.foldlM_pass`, `Loops.foldlM_error` — one pass of a loop that has not stopped, and why a
  loop stops;
* `Loops.foldlM_returns`, `Loops.foldlM_each` — a loop does not stop when its passes do not, and
  conversely;
* `Loops.foldlM_range`, `Loops.foldl_range`, `Loops.foldlM_range'`, `Loops.foldlM_range_reverse` — a
  counting loop whose invariant says how far it has come;
* `Loops.foldlM_fst`, `Loops.foldl_fst` — a loop of which a part of the state stays as it is;
* `Loops.untilFail_inv` — what is kept by a loop that stops at the first pass that fails;
* `Loops.foldl_prod`, `Loops.foldlM_prod`, `Loops.foldl_last` — two loops in one, and a variable
  that every pass computes anew from another one;
* `Loops.foldl_inv`, `Loops.foldl_congr` — an invariant of the body holds after the loop, and bodies
  that agree under one make the same loop;
* `Loops.foldl_frame`, `Loops.foldl_once` — what no pass changes, and what one pass changes;
* `Loops.foldl_update_range` — a loop over the entries of an array;
* `Loops.foldl_some` — a variable that every pass either keeps or sets to one value;
* `Loops.foldl_update` — a table filled under keys.
-/
import Mathlib

set_option relaxedAutoImplicit false
set_option autoImplicit false

namespace Loops

variable {σ τ ι ε : Type*}

/-- A step that does not stop hands its value on. -/
theorem ok_bind {α β : Type} (x : α) (f : α → Except ε β) : (Except.ok x >>= f) = f x := rfl

/-- A step that stops ends the computation. -/
theorem error_bind {α β : Type} (e : ε) (f : α → Except ε β) : (Except.error e >>= f) = .error e :=
  rfl

/-- Two steps that do not stop. -/
theorem bind_eq_ok {α β : Type} {x : Except ε α} {f : α → Except ε β} {b : β}
    (h : (x >>= f) = .ok b) :
    ∃ a, x = .ok a ∧ f a = .ok b := by
  cases x with
  | error e => cases h
  | ok a => exact ⟨a, rfl, h⟩

/-- A loop whose body never stops is the plain loop. -/
theorem foldlM_ok {f : σ → ι → Except ε σ} {g : σ → ι → σ} {l : List ι}
    (h : ∀ s, ∀ x ∈ l, f s x = .ok (g s x)) (s : σ) : l.foldlM f s = .ok (l.foldl g s) := by
  induction l generalizing s with
  | nil => rfl
  | cons x l ih =>
      rw [List.foldlM_cons, h s x (List.mem_cons_self ..), List.foldl_cons]
      exact ih (fun s y hy => h s y (List.mem_cons_of_mem x hy)) (g s x)

/-- Bodies that agree make the same loop. -/
theorem foldlM_congr {f g : σ → ι → Except ε σ} {l : List ι}
    (h : ∀ s, ∀ x ∈ l, f s x = g s x) (s : σ) :
    l.foldlM f s = l.foldlM g s := by
  induction l generalizing s with
  | nil => rfl
  | cons x l ih =>
      rw [List.foldlM_cons, List.foldlM_cons, h s x (List.mem_cons_self ..)]
      exact congrArg _ (funext fun s => ih (fun s y hy => h s y (List.mem_cons_of_mem x hy)) s)

/-- A loop whose body does not stop where an invariant holds, and keeps it, does not stop, and keeps
it. -/
theorem foldlM_inv {f : σ → ι → Except ε σ} {l : List ι} {P : σ → Prop}
    (h : ∀ s, ∀ x ∈ l, P s → ∃ s', f s x = .ok s' ∧ P s') {s : σ} (hs : P s) :
    ∃ s', l.foldlM f s = .ok s' ∧ P s' := by
  induction l generalizing s with
  | nil => exact ⟨s, rfl, hs⟩
  | cons x l ih =>
      obtain ⟨s₁, hs₁, hP₁⟩ := h s x (List.mem_cons_self ..) hs
      rw [List.foldlM_cons, hs₁]
      exact ih (fun s y hy => h s y (List.mem_cons_of_mem x hy)) hP₁

/-- A loop whose body does not stop does not stop. -/
theorem foldlM_returns {f : σ → ι → Except ε σ} {l : List ι}
    (h : ∀ s, ∀ x ∈ l, ∃ s', f s x = .ok s') (s : σ) : ∃ s', l.foldlM f s = .ok s' := by
  obtain ⟨s', hs', -⟩ := foldlM_inv (P := fun _ => True)
    (fun s x hx _ => (h s x hx).imp fun _ hs' => ⟨hs', trivial⟩) (s := s) trivial
  exact ⟨s', hs'⟩

/-- An invariant that says how far a counting loop has come. -/
theorem foldlM_range {f : σ → ℕ → Except ε σ} {n : ℕ} (P : ℕ → σ → Prop)
    (h : ∀ i < n, ∀ s, P i s → ∃ s', f s i = .ok s' ∧ P (i + 1) s') {s : σ} (hs : P 0 s) :
    ∃ s', (List.range n).foldlM f s = .ok s' ∧ P n s' := by
  induction n with
  | zero => exact ⟨s, rfl, hs⟩
  | succ n ih =>
      obtain ⟨s₁, hs₁, hP₁⟩ := ih fun i hi => h i (by omega)
      obtain ⟨s₂, hs₂, hP₂⟩ := h n (Nat.lt_succ_self n) s₁ hP₁
      refine ⟨s₂, ?_, hP₂⟩
      rw [List.range_succ, List.foldlM_append, hs₁]
      change [n].foldlM f s₁ = .ok s₂
      rw [List.foldlM_cons, hs₂]
      rfl

/-- Two loops in one, whose bodies may stop and do not. -/
theorem foldlM_prod {σ τ : Type} {f : σ → ι → Except ε σ} {g : τ → ι → Except ε τ} {l : List ι}
    {s s' : σ} {t t' : τ} (hf : l.foldlM f s = .ok s') (hg : l.foldlM g t = .ok t') :
    l.foldlM (fun (x : σ × τ) i => do return (← f x.1 i, ← g x.2 i)) (s, t) = .ok (s', t') := by
  induction l generalizing s t with
  | nil =>
      cases hf
      cases hg
      rfl
  | cons i l ih =>
      obtain ⟨s₁, hs₁, hf⟩ := bind_eq_ok ((List.foldlM_cons ..).symm.trans hf)
      obtain ⟨t₁, ht₁, hg⟩ := bind_eq_ok ((List.foldlM_cons ..).symm.trans hg)
      rw [List.foldlM_cons]
      dsimp only
      rw [hs₁, ht₁]
      exact ih hf hg

/-- A counting loop that does not start at zero. -/
theorem foldlM_range' {f : σ → ℕ → Except ε σ} {a n : ℕ} (P : ℕ → σ → Prop)
    (h : ∀ i, a ≤ i → i < a + n → ∀ s, P i s → ∃ s', f s i = .ok s' ∧ P (i + 1) s') {s : σ}
    (hs : P a s) :
    ∃ s', (List.range' a n).foldlM f s = .ok s' ∧ P (a + n) s' := by
  induction n generalizing a s with
  | zero => exact ⟨s, rfl, hs⟩
  | succ n ih =>
      obtain ⟨s₁, hs₁, hP₁⟩ := h a le_rfl (by omega) s hs
      rw [List.range'_succ, List.foldlM_cons, hs₁]
      obtain ⟨s₂, hs₂, hP₂⟩ := ih (fun i hi hin => h i (by omega) (by omega)) hP₁
      exact ⟨s₂, hs₂, by rwa [show a + (n + 1) = a + 1 + n by omega]⟩

/-- A counting loop that goes down. -/
theorem foldlM_range_reverse {f : σ → ℕ → Except ε σ} {n : ℕ} (P : ℕ → σ → Prop)
    (h : ∀ i < n, ∀ s, P (i + 1) s → ∃ s', f s i = .ok s' ∧ P i s') {s : σ} (hs : P n s) :
    ∃ s', (List.range n).reverse.foldlM f s = .ok s' ∧ P 0 s' := by
  induction n generalizing s with
  | zero => exact ⟨s, rfl, hs⟩
  | succ n ih =>
      obtain ⟨s₁, hs₁, hP₁⟩ := h n (Nat.lt_succ_self n) s hs
      rw [List.range_succ, List.reverse_append, List.reverse_singleton, List.singleton_append,
        List.foldlM_cons, hs₁]
      exact ih (fun i hi => h i (by omega)) hP₁

/-- A counting loop whose body never stops. -/
theorem foldl_range {f : σ → ℕ → σ} {n : ℕ} (P : ℕ → σ → Prop)
    (h : ∀ i < n, ∀ s, P i s → P (i + 1) (f s i)) {s : σ} (hs : P 0 s) :
    P n ((List.range n).foldl f s) := by
  induction n with
  | zero => exact hs
  | succ n ih =>
      rw [List.range_succ, List.foldl_append]
      exact h n (Nat.lt_succ_self n) _ (ih fun i hi => h i (by omega))

/-- A loop of which a part of the state stays as it is. -/
theorem foldlM_fst {f : σ × τ → ι → Except ε (σ × τ)} {g : σ → ι → σ} {t : τ} {l : List ι}
    (h : ∀ s, ∀ x ∈ l, f (s, t) x = .ok (g s x, t)) (s : σ) :
    l.foldlM f (s, t) = .ok (l.foldl g s, t) := by
  induction l generalizing s with
  | nil => rfl
  | cons x l ih =>
      rw [List.foldlM_cons, h s x (List.mem_cons_self ..), List.foldl_cons]
      exact ih (fun s y hy => h s y (List.mem_cons_of_mem x hy)) (g s x)

theorem foldl_fst {f : σ × τ → ι → σ × τ} {g : σ → ι → σ} {t : τ} {l : List ι}
    (h : ∀ s, ∀ x ∈ l, f (s, t) x = (g s x, t)) (s : σ) : l.foldl f (s, t) = (l.foldl g s, t) := by
  induction l generalizing s with
  | nil => rfl
  | cons x l ih =>
      rw [List.foldl_cons, h s x (List.mem_cons_self ..), List.foldl_cons]
      exact ih (fun s y hy => h s y (List.mem_cons_of_mem x hy)) (g s x)

/-- What every pass that does not stop keeps, a loop that does not stop keeps. -/
theorem foldlM_keeps {f : σ → ι → Except ε σ} {l : List ι} (P : σ → Prop)
    (h : ∀ s, ∀ x ∈ l, ∀ s', f s x = .ok s' → P s → P s') {s s' : σ} (hs : P s)
    (hok : l.foldlM f s = .ok s') : P s' := by
  induction l generalizing s with
  | nil =>
      cases hok
      exact hs
  | cons x l ih =>
      rw [List.foldlM_cons] at hok
      cases hx : f s x with
      | error e =>
          rw [hx] at hok
          cases hok
      | ok s₁ =>
          rw [hx] at hok
          change l.foldlM f s₁ = .ok s' at hok
          exact ih (fun s y hy => h s y (List.mem_cons_of_mem x hy))
            (h s x (List.mem_cons_self ..) s₁ hx hs) hok

/-- A loop stops only as one of its passes does. -/
theorem foldlM_error {f : σ → ι → Except ε σ} {l : List ι} {P : ε → Prop}
    (h : ∀ s, ∀ x ∈ l, ∀ e, f s x = .error e → P e) {s : σ} {e : ε}
    (herr : l.foldlM f s = .error e) : P e := by
  induction l generalizing s with
  | nil => cases herr
  | cons x l ih =>
      rw [List.foldlM_cons] at herr
      cases hx : f s x with
      | error e' =>
          rw [hx] at herr
          cases herr
          exact h s x (List.mem_cons_self ..) e hx
      | ok s₁ =>
          rw [hx] at herr
          exact ih (fun s y hy => h s y (List.mem_cons_of_mem x hy)) herr

/-- A loop that does not stop makes each of its passes; what every pass does to the state, those in
front of that pass and those behind it do. -/
theorem foldlM_pass {f : σ → ι → Except ε σ} {l : List ι} {R : σ → σ → Prop} (hrefl : ∀ s, R s s)
    (htrans : ∀ s₁ s₂ s₃, R s₁ s₂ → R s₂ s₃ → R s₁ s₃)
    (h : ∀ s, ∀ x ∈ l, ∀ s', f s x = .ok s' → R s s') {s s' : σ} (hok : l.foldlM f s = .ok s') :
    R s s' ∧ ∀ x ∈ l, ∃ s₁ s₂, R s s₁ ∧ f s₁ x = .ok s₂ ∧ R s₂ s' := by
  induction l generalizing s with
  | nil =>
      cases hok
      exact ⟨hrefl _, fun x hx => absurd hx List.not_mem_nil⟩
  | cons y l ih =>
      rw [List.foldlM_cons] at hok
      cases hy : f s y with
      | error e =>
          rw [hy] at hok
          cases hok
      | ok s₀ =>
          rw [hy] at hok
          obtain ⟨hrest, hpass⟩ := ih (fun s x hx => h s x (List.mem_cons_of_mem y hx)) hok
          have hfirst : R s s₀ := h s y (List.mem_cons_self ..) s₀ hy
          refine ⟨htrans s s₀ s' hfirst hrest, fun x hx => ?_⟩
          rcases List.mem_cons.1 hx with rfl | hx
          · exact ⟨s, s₀, hrefl s, hy, hrest⟩
          · obtain ⟨s₁, s₂, h₁, hx, h₂⟩ := hpass x hx
            exact ⟨s₁, s₂, htrans s s₀ s₁ hfirst h₁, hx, h₂⟩

/-- A loop that does not stop has made each of its passes. -/
theorem foldlM_each {f : σ → ι → Except ε σ} {l : List ι} {s s' : σ} (hok : l.foldlM f s = .ok s')
    {x : ι} (hx : x ∈ l) : ∃ s₁ s₂, f s₁ x = .ok s₂ := by
  obtain ⟨s₁, s₂, -, hpass, -⟩ := (foldlM_pass (R := fun _ _ => True) (fun _ => trivial)
    (fun _ _ _ _ _ => trivial) (fun _ _ _ _ _ => trivial) hok).2 x hx
  exact ⟨s₁, s₂, hpass⟩

/-- The same for a loop whose body never stops. -/
theorem foldl_pass {f : σ → ι → σ} {l : List ι} {R : σ → σ → Prop} (hrefl : ∀ s, R s s)
    (htrans : ∀ s₁ s₂ s₃, R s₁ s₂ → R s₂ s₃ → R s₁ s₃) (h : ∀ s, ∀ x ∈ l, R s (f s x)) (s : σ) :
    R s (l.foldl f s) ∧ ∀ x ∈ l, ∃ s₁, R s s₁ ∧ R (f s₁ x) (l.foldl f s) := by
  have hrun : l.foldlM (fun s x => (Except.ok (f s x) : Except Unit σ)) s = .ok (l.foldl f s) :=
    foldlM_ok (fun _ _ _ => rfl) s
  obtain ⟨hR, hpass⟩ := foldlM_pass hrefl htrans
    (fun s x hx s' hs => Except.ok.inj hs ▸ h s x hx) hrun
  refine ⟨hR, fun x hx => ?_⟩
  obtain ⟨s₁, s₂, h₁, heq, h₂⟩ := hpass x hx
  exact ⟨s₁, h₁, Except.ok.inj heq ▸ h₂⟩

/-- What the passes of a counting loop keep, as far as it has come. -/
theorem foldlM_range_keeps {σ : Type} {f : σ → ℕ → Except ε σ} {n : ℕ} (P : ℕ → σ → Prop)
    (h : ∀ i < n, ∀ s s', f s i = .ok s' → P i s → P (i + 1) s') {s s' : σ} (hs : P 0 s)
    (hok : (List.range n).foldlM f s = .ok s') : P n s' := by
  induction n generalizing s' with
  | zero =>
      cases hok
      exact hs
  | succ n ih =>
      rw [List.range_succ, List.foldlM_append] at hok
      obtain ⟨s₁, hs₁, hok⟩ := bind_eq_ok hok
      rw [List.foldlM_cons] at hok
      obtain ⟨s₂, hs₂, hok⟩ := bind_eq_ok hok
      cases hok
      exact h n (Nat.lt_succ_self n) s₁ s' hs₂ (ih (fun i hi => h i (by omega)) hs₁)

/-- A loop that stops at the first pass that fails, and says whether none has. -/
def untilFail (f : σ → ι → Bool × σ) : σ → List ι → Bool × σ
  | s, [] => (true, s)
  | s, x :: l =>
      match f s x with
      | (true, s) => untilFail f s l
      | (false, s) => (false, s)

/-- A condition on the passes that such a loop makes. -/
def AllPasses (f : σ → ι → Bool × σ) (C : σ → ι → Prop) : σ → List ι → Prop
  | _, [] => True
  | s, x :: l => C s x ∧ ((f s x).1 = true → AllPasses f C (f s x).2 l)

/-- A condition on the passes that every pass meets. -/
theorem allPasses_of_forall {f : σ → ι → Bool × σ} {C : σ → ι → Prop} {l : List ι}
    (h : ∀ s, ∀ x ∈ l, C s x) (s : σ) : AllPasses f C s l := by
  induction l generalizing s with
  | nil => trivial
  | cons x l ih =>
      exact ⟨h s x (List.mem_cons_self ..), fun _ =>
        ih (fun s y hy => h s y (List.mem_cons_of_mem x hy)) _⟩

/-- What the passes that meet a condition keep, the loop keeps when all its passes meet the
condition. -/
theorem untilFail_inv {f : σ → ι → Bool × σ} {C : σ → ι → Prop} (P : σ → Prop)
    (h : ∀ s x, P s → C s x → P (f s x).2) {s : σ} (hs : P s) {l : List ι}
    (hl : AllPasses f C s l) :
    P (untilFail f s l).2 := by
  induction l generalizing s with
  | nil => exact hs
  | cons x l ih =>
      have hstep := h s x hs hl.1
      have hrest := hl.2
      rw [untilFail]
      generalize f s x = result at hstep hrest
      obtain ⟨ok, s'⟩ := result
      cases ok with
      | true => exact ih hstep (hrest rfl)
      | false => exact hstep

/-- When the state has no say in it, none of the passes fails, or one does. -/
theorem untilFail_fst {f : σ → ι → Bool × σ} {p : ι → Bool} (h : ∀ s x, (f s x).1 = p x) (s : σ)
    (l : List ι) : (untilFail f s l).1 = l.all p := by
  induction l generalizing s with
  | nil => rfl
  | cons x l ih =>
      have hx := h s x
      rw [untilFail, List.all_cons, ← hx]
      generalize f s x = result
      obtain ⟨ok, s'⟩ := result
      cases ok with
      | true => exact ih s'
      | false => rfl

/-- Two loops in one. -/
theorem foldl_prod (f : σ → ι → σ) (g : τ → ι → τ) (l : List ι) (s : σ × τ) :
    l.foldl (fun s x => (f s.1 x, g s.2 x)) s = (l.foldl f s.1, l.foldl g s.2) := by
  induction l generalizing s with
  | nil => rfl
  | cons x l ih => rw [List.foldl_cons, ih, List.foldl_cons, List.foldl_cons]

/-- A second variable that every pass computes anew from the first: after the loop it is what the
last pass made of the final value of the first. -/
theorem foldl_last (f : σ → ι → σ) (h : σ → τ → τ) {l : List ι} (hl : l ≠ []) (s : σ × τ) :
    ∃ t, l.foldl (fun s x => (f s.1 x, h (f s.1 x) s.2)) s = (l.foldl f s.1,
      h (l.foldl f s.1) t) := by
  induction l generalizing s with
  | nil => exact absurd rfl hl
  | cons x l ih =>
      rw [List.foldl_cons, List.foldl_cons]
      by_cases hnil : l = []
      · subst hnil
        exact ⟨s.2, rfl⟩
      · exact ih hnil _

/-- An invariant of the body holds after the loop. -/
theorem foldl_inv {f : σ → ι → σ} {l : List ι} (P : σ → Prop)
    (h : ∀ s, ∀ x ∈ l, P s → P (f s x)) {s : σ} (hs : P s) : P (l.foldl f s) := by
  induction l generalizing s with
  | nil => exact hs
  | cons x l ih =>
      rw [List.foldl_cons]
      exact ih (fun s y hy => h s y (List.mem_cons_of_mem x hy))
        (h s x (List.mem_cons_self ..) hs)

/-- Two loops whose bodies agree under an invariant. -/
theorem foldl_congr {f g : σ → ι → σ} {l : List ι} (P : σ → Prop)
    (h : ∀ s, ∀ x ∈ l, P s → f s x = g s x ∧ P (g s x)) {s : σ} (hs : P s) :
    l.foldl f s = l.foldl g s := by
  induction l generalizing s with
  | nil => rfl
  | cons x l ih =>
      obtain ⟨hfg, hP⟩ := h s x (List.mem_cons_self ..) hs
      rw [List.foldl_cons, List.foldl_cons, hfg]
      exact ih (fun s y hy => h s y (List.mem_cons_of_mem x hy)) hP

/-- What no pass changes is unchanged after the loop. -/
theorem foldl_frame {f : σ → ι → σ} {l : List ι} (obs : σ → τ)
    (h : ∀ s, ∀ x ∈ l, obs (f s x) = obs s) (s : σ) : obs (l.foldl f s) = obs s :=
  foldl_inv (fun s' => obs s' = obs s) (fun s' x hx hs' => (h s' x hx).trans hs') rfl

/-- An observation that pass `x` changes by `F`, and no other pass changes, is changed by `F` in
the loop.  The invariant `P` may speak about what no pass changes. -/
theorem foldl_once {f : σ → ι → σ} {l : List ι} (hl : l.Nodup) (P : σ → Prop)
    (hP : ∀ s, ∀ y ∈ l, P s → P (f s y)) {x : ι} (hx : x ∈ l) (obs : σ → τ) (F : τ → τ)
    (hself : ∀ s, P s → obs (f s x) = F (obs s))
    (hother : ∀ s, ∀ y ∈ l, y ≠ x → obs (f s y) = obs s) {s : σ} (hs : P s) :
    obs (l.foldl f s) = F (obs s) := by
  induction l generalizing s with
  | nil => cases hx
  | cons y l ih =>
      obtain ⟨hy, hl⟩ := List.nodup_cons.1 hl
      have hP' := fun s z hz => hP s z (List.mem_cons_of_mem y hz)
      have hother' := fun s z hz => hother s z (List.mem_cons_of_mem y hz)
      rw [List.foldl_cons]
      rcases List.mem_cons.1 hx with rfl | hx
      · -- the passes after `x` leave the observation alone
        rw [foldl_frame obs (fun s z hz => hother' s z hz (by rintro rfl; exact hy hz)), hself s hs]
      · have hyx : y ≠ x := by
          rintro rfl
          exact hy hx
        rw [ih hl hP' hx hother' (hP s y (List.mem_cons_self ..) hs),
          hother s y (List.mem_cons_self ..) hyx]

/-- A loop that updates the entries of an array one after the other. -/
theorem foldl_update_range (g : ℕ → τ → τ) (n : ℕ) (a : ℕ → τ) (j : ℕ) :
    (List.range n).foldl (fun a i => Function.update a i (g i (a i))) a j =
      if j < n then g j (a j) else a j := by
  split
  · refine foldl_once List.nodup_range (fun _ => True) (fun _ _ _ _ => trivial)
      (List.mem_range.2 ‹_›) (fun a : ℕ → τ => a j) (g j) (fun a _ => ?_)
        (fun a i _ hij => ?_) trivial
    · exact Function.update_self ..
    · exact Function.update_of_ne (Ne.symm hij) ..
  · refine foldl_frame (fun a : ℕ → τ => a j) (fun a i hi => ?_) a
    have hi := List.mem_range.1 hi
    exact Function.update_of_ne (by omega) ..

/-- A variable that every pass either keeps or sets to `b`. -/
theorem foldl_some {p : ι → Prop} [DecidablePred p] {g : ι → τ} {b : τ} {l : List ι}
    (h : ∀ x ∈ l, p x → g x = b) (acc : Option τ) :
    l.foldl (fun acc x => if p x then some (g x) else acc) acc =
      if ∃ x ∈ l, p x then some b else acc := by
  induction l generalizing acc with
  | nil => simp
  | cons x l ih =>
      rw [List.foldl_cons, ih fun y hy => h y (List.mem_cons_of_mem x hy)]
      by_cases hl : ∃ y ∈ l, p y
      · have : ∃ y ∈ x :: l, p y := by
          obtain ⟨y, hy, hpy⟩ := hl
          exact ⟨y, List.mem_cons_of_mem x hy, hpy⟩
        rw [if_pos hl, if_pos this]
      · rw [if_neg hl]
        by_cases hx : p x
        · rw [if_pos hx, if_pos ⟨x, List.mem_cons_self .., hx⟩, h x (List.mem_cons_self ..) hx]
        · rw [if_neg hx, if_neg]
          rintro ⟨y, hy, hpy⟩
          rcases List.mem_cons.1 hy with rfl | hy
          · exact hx hpy
          · exact hl ⟨y, hy, hpy⟩

/-- A table filled under keys holds under a key what was stored there, when all that was stored
there is the same. -/
theorem foldl_update {κ : Type*} [DecidableEq κ] {key : ι → κ} {val : ι → τ} {l : List ι} {y : κ}
    {v : τ} (h : ∀ x ∈ l, key x = y → val x = v) (m : κ → τ) :
    l.foldl (fun m x => Function.update m (key x) (val x)) m y =
      if ∃ x ∈ l, key x = y then v else m y := by
  induction l generalizing m with
  | nil => simp
  | cons x l ih =>
      rw [List.foldl_cons, ih fun z hz => h z (List.mem_cons_of_mem x hz)]
      by_cases hl : ∃ z ∈ l, key z = y
      · have : ∃ z ∈ x :: l, key z = y := by
          obtain ⟨z, hz, hkz⟩ := hl
          exact ⟨z, List.mem_cons_of_mem x hz, hkz⟩
        rw [if_pos hl, if_pos this]
      · rw [if_neg hl]
        by_cases hx : key x = y
        · rw [if_pos ⟨x, List.mem_cons_self .., hx⟩, ← hx, Function.update_self,
            h x (List.mem_cons_self ..) hx]
        · rw [Function.update_of_ne (Ne.symm hx), if_neg]
          rintro ⟨z, hz, hkz⟩
          rcases List.mem_cons.1 hz with rfl | hz
          · exact hx hkz
          · exact hl ⟨z, hz, hkz⟩

end Loops
