/-
Machines that take one action after the other.

`Machine.run` is the state after a list of actions.  `Machine.Always` says that a property holds in
every state of a run, the first and the last included, and `Machine.AllSteps` that a condition holds
of every action in the state in which it is taken.

* `Machine.run_induct` — what every admissible action preserves holds after a run of them;
* `Machine.always_iff_prefix` — the states of a run are those after its prefixes;
* `Machine.always_iff_allSteps` — where the property survives exactly the actions that meet the
  condition, it holds throughout a run exactly when all its actions do;
* `Machine.replies`, `Machine.replies_eq` — machines that answer their actions, and a simulation
  between two;
* `Machine.always_iff_allSteps_of_invariant` — the same where the actions keep an invariant behind
  the property;
* `Machine.AllSteps.invariant`, `Machine.AllSteps.always`, `Machine.AllSteps.imp`,
  `Machine.allSteps_iff` — where the actions that meet a condition keep an invariant, it holds after
  a run of them and throughout it, and under it one condition may be replaced by another;
* `Machine.AllSteps.length_le` — a measure that such actions make smaller bounds their number.
-/
import Mathlib

set_option relaxedAutoImplicit false
set_option autoImplicit false

namespace Machine

variable {σ α : Type*} (step : σ → α → σ)

/-- The state after a list of actions. -/
def run (s : σ) (l : List α) : σ := l.foldl step s

/-- The property `P` holds in every state of a run. -/
def Always (P : σ → Prop) : σ → List α → Prop
  | s, [] => P s
  | s, a :: l => P s ∧ Always P (step s a) l

/-- The condition `C` holds of every action of a run, in the state in which it is taken. -/
def AllSteps (C : σ → α → Prop) : σ → List α → Prop
  | _, [] => True
  | s, a :: l => C s a ∧ AllSteps C (step s a) l

instance decidableAllSteps {C : σ → α → Prop} [∀ s a, Decidable (C s a)] :
    ∀ s l, Decidable (AllSteps step C s l)
  | _, [] => isTrue trivial
  | s, a :: l =>
      have := decidableAllSteps (C := C) (step s a) l
      inferInstanceAs (Decidable (C s a ∧ AllSteps step C (step s a) l))

@[simp] theorem run_nil (s : σ) : run step s [] = s := rfl

@[simp] theorem run_cons (s : σ) (a : α) (l : List α) :
    run step s (a :: l) = run step (step s a) l := rfl

variable {step}

/-- What every admissible action preserves holds after a run of admissible actions. -/
theorem run_induct {I : σ → Prop} {A : α → Prop} (hstep : ∀ s a, A a → I s → I (step s a)) {s : σ}
    (hs : I s) {l : List α} (hl : ∀ a ∈ l, A a) : I (run step s l) := by
  induction l generalizing s with
  | nil => exact hs
  | cons a l ih =>
      obtain ⟨ha, hl⟩ := List.forall_mem_cons.1 hl
      exact ih (hstep s a ha hs) hl

theorem always_iff_prefix {P : σ → Prop} {s : σ} {l : List α} :
    Always step P s l ↔ ∀ l', l' <+: l → P (run step s l') := by
  induction l generalizing s with
  | nil => simp [Always]
  | cons a l ih =>
      rw [Always, ih]
      constructor
      · rintro ⟨hs, h⟩ l' hl'
        rcases List.prefix_cons_iff.1 hl' with rfl | ⟨t, rfl, ht⟩
        · exact hs
        · exact h t ht
      · intro h
        exact ⟨h [] (List.nil_prefix ..), fun l' hl' => h (a :: l')
          (List.cons_prefix_cons.2 ⟨rfl, hl'⟩)⟩

/-- Where an invariant `I` holds, let the property survive exactly the actions that meet the
condition.  Then it holds throughout a run exactly when all its actions meet the condition. -/
theorem always_iff_allSteps {I P : σ → Prop} {A : α → Prop} {C : σ → α → Prop}
    (hI : ∀ s a, A a → I s → I (step s a))
    (hP : ∀ s a, A a → I s → P s → (P (step s a) ↔ C s a)) {s : σ} (hs : I s) (hps : P s)
    {l : List α} (hl : ∀ a ∈ l, A a) : Always step P s l ↔ AllSteps step C s l := by
  induction l generalizing s with
  | nil => exact ⟨fun _ => trivial, fun _ => hps⟩
  | cons a l ih =>
      obtain ⟨ha, hl⟩ := List.forall_mem_cons.1 hl
      have hstep := hP s a ha hs hps
      rw [Always, AllSteps]
      constructor
      · rintro ⟨-, h⟩
        have hnext : P (step s a) := by
          cases l with
          | nil => exact h
          | cons b l => exact h.1
        exact ⟨hstep.1 hnext, (ih (hI s a ha hs) hnext hl).1 h⟩
      · rintro ⟨hc, h⟩
        exact ⟨hps, (ih (hI s a ha hs) (hstep.2 hc) hl).2 h⟩

/-- Let the actions that meet the condition keep an invariant that implies the property, and let
only they keep the property.  Then it holds throughout a run of admissible actions exactly when all
of them meet the condition. -/
theorem always_iff_allSteps_of_invariant {I P : σ → Prop} {A C : σ → α → Prop}
    (hP : ∀ s, I s → P s) (hI : ∀ s a, A s a → I s → C s a → I (step s a))
    (hC : ∀ s a, A s a → I s → P (step s a) → C s a) {s : σ} (hs : I s) {l : List α}
    (hl : AllSteps step A s l) : Always step P s l ↔ AllSteps step C s l := by
  induction l generalizing s with
  | nil => exact ⟨fun _ => trivial, fun _ => hP s hs⟩
  | cons a l ih =>
      obtain ⟨ha, hl⟩ := hl
      rw [Always, AllSteps]
      constructor
      · rintro ⟨-, h⟩
        have hnext : P (step s a) := by
          cases l with
          | nil => exact h
          | cons b l => exact h.1
        have hc := hC s a ha hs hnext
        exact ⟨hc, (ih (hI s a ha hs hc) hl).1 h⟩
      · rintro ⟨hc, h⟩
        exact ⟨hP s hs, (ih (hI s a ha hs hc) hl).2 h⟩

theorem allSteps_of_forall {C : σ → α → Prop} (h : ∀ s a, C s a) (s : σ) (l : List α) :
    AllSteps step C s l := by
  induction l generalizing s with
  | nil => trivial
  | cons a l ih => exact ⟨h s a, ih _⟩

/-- Where the actions that meet a condition keep an invariant, it holds after a run of them. -/
theorem AllSteps.invariant {I : σ → Prop} {C : σ → α → Prop}
    (hI : ∀ s a, I s → C s a → I (step s a)) {s : σ} (hs : I s) {l : List α}
    (h : AllSteps step C s l) : I (run step s l) := by
  induction l generalizing s with
  | nil => exact hs
  | cons a l ih => exact ih (hI s a hs h.1) h.2

/-- It holds throughout such a run. -/
theorem AllSteps.always {I : σ → Prop} {C : σ → α → Prop}
    (hI : ∀ s a, I s → C s a → I (step s a)) {s : σ} (hs : I s) {l : List α}
    (h : AllSteps step C s l) : Always step I s l := by
  induction l generalizing s with
  | nil => exact hs
  | cons a l ih => exact ⟨hs, ih (hI s a hs h.1) h.2⟩

theorem Always.mono {P Q : σ → Prop} (hPQ : ∀ s, P s → Q s) {s : σ} {l : List α}
    (h : Always step P s l) :
    Always step Q s l := by
  induction l generalizing s with
  | nil => exact hPQ s h
  | cons a l ih => exact ⟨hPQ s h.1, ih h.2⟩

/-- Under such an invariant a condition that follows holds of all actions. -/
theorem AllSteps.imp {I : σ → Prop} {C D : σ → α → Prop} (hI : ∀ s a, I s → C s a → I (step s a))
    (hCD : ∀ s a, I s → C s a → D s a) {s : σ} (hs : I s) {l : List α} (h : AllSteps step C s l) :
    AllSteps step D s l := by
  induction l generalizing s with
  | nil => trivial
  | cons a l ih => exact ⟨hCD s a hs h.1, ih (hI s a hs h.1) h.2⟩

/-- Conditions that are equivalent under an invariant hold in the same runs. -/
theorem allSteps_iff {I : σ → Prop} {C D : σ → α → Prop} (hI : ∀ s a, I s → C s a → I (step s a))
    (hCD : ∀ s a, I s → (C s a ↔ D s a)) {s : σ} (hs : I s) {l : List α} :
    AllSteps step C s l ↔ AllSteps step D s l := by
  constructor
  · exact fun h => h.imp hI (fun s a hs hc => (hCD s a hs).1 hc) hs
  · exact fun h => h.imp (fun s a hs hd => hI s a hs ((hCD s a hs).2 hd))
      (fun s a hs hd => (hCD s a hs).2 hd) hs

/-- Where such actions make a measure smaller, there are not more of them in a run than it says. -/
theorem AllSteps.length_le {I : σ → Prop} {C : σ → α → Prop} (size : σ → ℕ)
    (hI : ∀ s a, I s → C s a → I (step s a)) (hsize : ∀ s a, I s → C s a → size (step s a) < size s)
    {s : σ} (hs : I s) {l : List α} (h : AllSteps step C s l) : l.length ≤ size s := by
  induction l generalizing s with
  | nil => exact Nat.zero_le _
  | cons a l ih => exact (Nat.succ_le_succ (ih (hI s a hs h.1) h.2)).trans (hsize s a hs h.1)

/-! ### Machines that answer -/

variable {τ β : Type*} {serve : σ → α → σ × β} {serve' : τ → α → τ × β}

/-- The replies to a list of actions. -/
def replies (serve : σ → α → σ × β) : σ → List α → List β
  | _, [] => []
  | s, a :: l => (serve s a).2 :: replies serve (serve s a).1 l

/-- Where a relation makes two machines answer alike and is kept, so do runs of them. -/
theorem replies_eq {R : σ → τ → Prop} {A : α → Prop}
    (h : ∀ s t a, A a → R s t → (serve s a).2 = (serve' t a).2 ∧ R (serve s a).1 (serve' t a).1)
    {s : σ} {t : τ} (hst : R s t) {l : List α} (hl : ∀ a ∈ l, A a) :
    replies serve s l = replies serve' t l ∧
      R (run (fun s a => (serve s a).1) s l) (run (fun t a => (serve' t a).1) t l) := by
  induction l generalizing s t with
  | nil => exact ⟨rfl, hst⟩
  | cons a l ih =>
      obtain ⟨ha, hl⟩ := List.forall_mem_cons.1 hl
      obtain ⟨hreply, hnext⟩ := h s t a ha hst
      obtain ⟨hrest, hlast⟩ := ih hnext hl
      exact ⟨congrArg₂ List.cons hreply hrest, hlast⟩

end Machine
