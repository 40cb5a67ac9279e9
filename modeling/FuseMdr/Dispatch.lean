/-
Handing out tasks to workers that hold one at a time.

A dispatcher sends a task to a worker that holds none, and takes it back when the worker
acknowledges it.  A task that has been sent is not sent again.

* `Dispatch.State` — what the workers hold, and the logs of what was sent and acknowledged;
* `Dispatch.State.send`, `Dispatch.State.ack` — the two moves;
* `Dispatch.State.Valid` — no task was sent twice, and what a worker was given is what it returned,
  in the same order, and what it holds;
* `Dispatch.State.Valid.send`, `Dispatch.State.Valid.ack` — the moves keep this;
* `Dispatch.State.Valid.mem_tasks_iff`, `Dispatch.State.Valid.holds_inj`,
  `Dispatch.State.Valid.ne_of_acked` — a task that was sent has been acknowledged or is held, by one
  worker, and not both;
* `Dispatch.State.Valid.nodup_done` — no task was acknowledged twice.
-/
import Mathlib

set_option relaxedAutoImplicit false
set_option autoImplicit false

namespace Dispatch

variable {ι τ : Type*} [DecidableEq ι]

/-- A dispatcher and its workers. -/
structure State (ι τ : Type*) where
  /-- The task a worker holds. -/
  holds : ι → Option τ
  /-- What was sent to whom, in order. -/
  sent : List (ι × τ)
  /-- What was acknowledged by whom, in order. -/
  acked : List (ι × τ)

namespace State

/-- Nothing has happened yet. -/
def start : State ι τ := ⟨fun _ => none, [], []⟩

/-- Sending a task. -/
def send (s : State ι τ) (i : ι) (t : τ) : State ι τ :=
  { s with holds := Function.update s.holds i (some t), sent := s.sent ++ [(i, t)] }

/-- Taking a task back. -/
def ack (s : State ι τ) (i : ι) (t : τ) : State ι τ :=
  { s with holds := Function.update s.holds i none, acked := s.acked ++ [(i, t)] }

/-- The tasks that were sent. -/
def tasks (s : State ι τ) : List τ := s.sent.map Prod.snd

/-- The tasks that were acknowledged. -/
def done (s : State ι τ) : List τ := s.acked.map Prod.snd

/-- The entries of one worker in a log. -/
def entries (l : List (ι × τ)) (i : ι) : List τ := (l.filter fun x => x.1 = i).map Prod.snd

/-- No task was sent twice, and what a worker was given is what it returned and what it holds. -/
structure Valid (s : State ι τ) : Prop where
  /-- No task was sent twice. -/
  nodup : s.tasks.Nodup
  /-- What a worker was given. -/
  given : ∀ i, entries s.sent i = entries s.acked i ++ (s.holds i).toList

theorem mem_entries {l : List (ι × τ)} {i : ι} {t : τ} : t ∈ entries l i ↔ (i, t) ∈ l := by
  simp [entries]

theorem entries_append_self (l : List (ι × τ)) (i : ι) (t : τ) :
    entries (l ++ [(i, t)]) i = entries l i ++ [t] := by
  simp [entries]

theorem entries_append_of_ne {i j : ι} (h : j ≠ i) (l : List (ι × τ)) (t : τ) :
    entries (l ++ [(i, t)]) j = entries l j := by
  simp [entries, Ne.symm h]

variable {s : State ι τ} {i j : ι} {t : τ}

theorem valid_start : (start : State ι τ).Valid := ⟨List.nodup_nil, fun _ => rfl⟩

theorem Valid.send (h : s.Valid) (hi : s.holds i = none) (ht : t ∉ s.tasks) :
    (s.send i t).Valid where
  nodup := by
    have htasks : (s.send i t).tasks = s.tasks ++ [t] := List.map_append
    rw [htasks]
    exact h.nodup.append (List.nodup_singleton t) (List.disjoint_singleton.2 ht)
  given j := by
    by_cases hj : j = i
    · subst hj
      have hgiven := h.given j
      rw [hi, Option.toList_none, List.append_nil] at hgiven
      change entries (s.sent ++ [(j, t)]) j = entries s.acked j ++ (Function.update s.holds j
        (some t) j).toList
      rw [entries_append_self, hgiven, Function.update_self, Option.toList_some]
    · change entries (s.sent ++ [(i, t)]) j = entries s.acked j ++ (Function.update s.holds i
        (some t) j).toList
      rw [entries_append_of_ne hj, Function.update_of_ne hj, h.given j]

theorem Valid.ack (h : s.Valid) (hi : s.holds i = some t) : (s.ack i t).Valid where
  nodup := h.nodup
  given j := by
    by_cases hj : j = i
    · subst hj
      change entries s.sent j = entries (s.acked ++ [(j, t)]) j ++
        (Function.update s.holds j none j).toList
      rw [entries_append_self, Function.update_self, h.given j, hi, Option.toList_some,
        Option.toList_none, List.append_nil]
    · change entries s.sent j = entries (s.acked ++ [(i, t)]) j ++
        (Function.update s.holds i none j).toList
      rw [entries_append_of_ne hj, Function.update_of_ne hj, h.given j]

/-- What a worker holds was sent to it. -/
theorem Valid.mem_sent (h : s.Valid) (hi : s.holds i = some t) : (i, t) ∈ s.sent := by
  rw [← mem_entries, h.given i, hi]
  exact List.mem_append_right _ (List.mem_singleton_self t)

/-- A task that was sent has been acknowledged or is held. -/
theorem Valid.mem_tasks_iff (h : s.Valid) : t ∈ s.tasks ↔ t ∈ s.done ∨ ∃ i, s.holds i = some t := by
  constructor
  · intro ht
    obtain ⟨⟨i, t'⟩, hmem, rfl⟩ := List.mem_map.1 ht
    rw [← mem_entries, h.given i, List.mem_append, mem_entries, Option.mem_toList] at hmem
    rcases hmem with hmem | hmem
    · exact Or.inl (List.mem_map.2 ⟨_, hmem, rfl⟩)
    · exact Or.inr ⟨i, hmem⟩
  · rintro (ht | ⟨i, hi⟩)
    · obtain ⟨⟨i, t'⟩, hmem, rfl⟩ := List.mem_map.1 ht
      have hgiven : t' ∈ entries s.sent i := by
        rw [h.given i]
        exact List.mem_append_left _ (mem_entries.2 hmem)
      exact List.mem_map.2 ⟨_, mem_entries.1 hgiven, rfl⟩
    · exact List.mem_map.2 ⟨_, h.mem_sent hi, rfl⟩

/-- A task was sent to one worker. -/
theorem Valid.sent_inj (h : s.Valid) (hi : (i, t) ∈ s.sent) (hj : (j, t) ∈ s.sent) : i = j :=
  congrArg Prod.fst (List.inj_on_of_nodup_map h.nodup hi hj rfl)

theorem Valid.holds_inj (h : s.Valid) (hi : s.holds i = some t) (hj : s.holds j = some t) : i = j :=
  h.sent_inj (h.mem_sent hi) (h.mem_sent hj)

theorem count_entries [DecidableEq τ] (l : List (ι × τ)) (i : ι) (t : τ) :
    (entries l i).count t = l.count (i, t) := by
  induction l with
  | nil => rfl
  | cons x l ih =>
      obtain ⟨j, t'⟩ := x
      by_cases hj : j = i
      · have hcons : entries ((j, t') :: l) i = t' :: entries l i := by simp [entries, hj]
        rw [hcons, List.count_cons, List.count_cons, ih, hj]
        simp
      · have hcons : entries ((j, t') :: l) i = entries l i := by simp [entries, hj]
        rw [hcons, List.count_cons, ih]
        simp [hj]

/-- No task was acknowledged twice. -/
theorem Valid.nodup_done (h : s.Valid) : s.done.Nodup := by
  classical
  have hsent : ∀ {i t}, (i, t) ∈ s.acked → (i, t) ∈ s.sent := fun {i t} hmem => by
    rw [← mem_entries, h.given i]
    exact List.mem_append_left _ (mem_entries.2 hmem)
  have hacked : s.acked.Nodup := List.nodup_iff_count_le_one.2 fun ⟨i, t⟩ => by
    calc s.acked.count (i, t) = (entries s.acked i).count t := (count_entries ..).symm
      _ ≤ (entries s.sent i).count t := by
        rw [h.given i, List.count_append]
        exact Nat.le_add_right ..
      _ = s.sent.count (i, t) := count_entries ..
      _ ≤ 1 := List.nodup_iff_count_le_one.1 h.nodup.of_map _
  refine hacked.map_on fun ⟨i, t⟩ hi ⟨j, t'⟩ hj htt => ?_
  obtain rfl : t = t' := htt
  exact Prod.ext (h.sent_inj (hsent hi) (hsent hj)) rfl

/-- A task that has been acknowledged is no longer held. -/
theorem Valid.ne_of_acked (h : s.Valid) (ht : t ∈ s.done) : s.holds i ≠ some t := by
  intro hi
  obtain ⟨⟨j, t'⟩, hmem, rfl⟩ := List.mem_map.1 ht
  have hj : (j, t') ∈ s.sent := by
    rw [← mem_entries, h.given j]
    exact List.mem_append_left _ (mem_entries.2 hmem)
  obtain rfl := h.sent_inj (h.mem_sent hi) hj
  -- it would have been given to the worker twice
  have hnodup : (entries s.sent i).Nodup :=
    (h.nodup.of_map _).filter _ |>.map_on fun x hx y hy hxy => by
      have hx := List.mem_filter.1 hx
      have hy := List.mem_filter.1 hy
      exact Prod.ext ((of_decide_eq_true hx.2).trans (of_decide_eq_true hy.2).symm) hxy
  rw [h.given i, hi, Option.toList_some, List.nodup_append] at hnodup
  exact hnodup.2.2 t' (mem_entries.2 hmem) t' (List.mem_singleton_self _) rfl

end State

end Dispatch
