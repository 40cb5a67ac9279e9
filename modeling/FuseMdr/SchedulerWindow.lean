/-
**Repairs with fewer tasks than the scheduler has slots.**

`main` fills all sixteen slots of the window with the numbers from 0 to 15, whatever the number of
tasks is; only the slots that are filled again later are checked against it.  A repair of fewer
tasks is therefore scheduled like one of sixteen: the scheduler is the same but for the number that
it writes into its messages.

Before that `main` copies an address for every executer, and there are three of them: with more
executers it does not come to its loop.

Main definitions:

* `Ncfs.RepairSettings.widened`, `Ncfs.RepairSystem.widened` — the repair of at least sixteen tasks
  that has the same schedule;
* `Ncfs.RepairSystem.SchedulesTasks` — the loop is reached, only tasks of the repair are sent, and
  the loop ends after as many acknowledgements as there are tasks.

Main results:

* `Ncfs.RepairSystem.Step.widened`, `Ncfs.RepairSystem.Step.of_widened` — the two repairs simulate
  each other;
* `Ncfs.RepairSystem.Reachable.acked_length` — the loop ends after sixteen acknowledgements at
  least;
* `Ncfs.RepairSystem.schedulesTasks_iff` — the tasks of the repair are scheduled exactly when there
  are as many of them as slots and no more executers than addresses.
-/
import FuseMdr.RepairScheduler

set_option relaxedAutoImplicit false
set_option autoImplicit false

namespace Ncfs

/-! ### The wider repair -/

/-- The same repair, with at least as many tasks as the window has slots. -/
def RepairSettings.widened (c : RepairSettings) : RepairSettings :=
  { c with totalRepairTasks := max scheduleQueueLen c.totalRepairTasks }

/-- A message of the wider repair. -/
def RepairTaskParams.widened (c : RepairSettings) (m : RepairTaskParams) : RepairTaskParams :=
  { m with repairTasksNum := c.widened.totalRepairTasks }

/-- The system with the messages of the wider repair. -/
def RepairSystem.widened (c : RepairSettings) (s : RepairSystem) : RepairSystem :=
  { s with inbox := fun i => (s.inbox i).map (RepairTaskParams.widened c) }

/-- Once the window is full, the slots are filled again in the same way. -/
theorem TaskTables.retire_widened {c : RepairSettings} {q : TaskTables} (p : ℕ)
    (hnext : scheduleQueueLen ≤ q.nextTaskToSchedule) :
    q.retire c.widened.totalRepairTasks p = q.retire c.totalRepairTasks p := by
  have hlt : q.nextTaskToSchedule < c.widened.totalRepairTasks ↔
      q.nextTaskToSchedule < c.totalRepairTasks := by
    rw [RepairSettings.widened, lt_max_iff]
    exact or_iff_right hnext.not_gt
  rw [retire, retire]
  exact if_congr hlt rfl rfl

namespace RepairSystem

variable {c : RepairSettings} {s s' : RepairSystem} {i : ℕ}

theorem send_widened (s : RepairSystem) (i seq : ℕ) :
    (s.widened c).send c.widened i seq = (s.send c i seq).widened c := by
  have hinbox : Function.update (s.widened c).inbox i
      ((s.widened c).inbox i ++ [c.widened.params seq]) = ((s.send c i seq).widened c).inbox := by
    funext j
    by_cases hj : j = i
    · subst hj
      simp [widened, send, RepairTaskParams.widened, RepairSettings.params, RepairSettings.widened]
    · simp [widened, send, hj]
  rw [send, hinbox]
  rfl

/-- `AllocateRepairTask` does the same in both repairs. -/
theorem allocateRepairTask_widened (hnext : scheduleQueueLen ≤ s.tables.nextTaskToSchedule) :
    allocateRepairTask c.widened (s.widened c) i = (allocateRepairTask c s i).map (widened c) := by
  have houtbox : (s.widened c).outbox = s.outbox := rfl
  have htables : (s.widened c).tables = s.tables := rfl
  rw [allocateRepairTask, allocateRepairTask, houtbox, htables]
  cases s.outbox i with
  | nil => rfl
  | cons taskId later =>
      dsimp only
      cases (s.tables.countTask i).findTaskPosition taskId with
      | none => rfl
      | some position =>
          have hretire := TaskTables.retire_widened (c := c)
            (q := s.tables.countTask i) position hnext
          dsimp only
          rw [hretire]
          cases ((s.tables.countTask i).retire c.totalRepairTasks
            position).findAvailableTaskPosition
              position with
          | none => rfl
          | some p =>
              have hsend := send_widened (c := c)
                { s with
                  outbox := Function.update s.outbox i later
                  acked := s.acked ++ [(i, taskId)] } i
                (((s.tables.countTask i).retire c.totalRepairTasks position).taskScheduleQueue p)
              exact congrArg (fun t : RepairSystem => some { t with
                tables :=
                  ((s.tables.countTask i).retire c.totalRepairTasks position).assign p }) hsend

/-- A step of the repair is one of the wider repair. -/
theorem Step.widened (hs : Step c s s') (hnext : scheduleQueueLen ≤ s.tables.nextTaskToSchedule) :
    Step c.widened (s.widened c) (s'.widened c) := by
  cases hs with
  | @receive i m later hin hwork =>
      have hin' : (s.widened c).inbox i = m.widened c :: later.map
          (RepairTaskParams.widened c) := by
        simp [RepairSystem.widened, hin]
      have hstep := Step.receive (c := c.widened) (s := s.widened c) hin' hwork
      have hinbox : Function.update (s.widened c).inbox i (later.map (RepairTaskParams.widened c)) =
          fun j => (Function.update s.inbox i later j).map (RepairTaskParams.widened c) := by
        funext j
        by_cases hj : j = i
        · simp [hj]
        · simp [RepairSystem.widened, hj]
      rw [hinbox] at hstep
      exact hstep
  | finish hwork => exact .finish (c := c.widened) (s := s.widened c) hwork
  | select hready hcont hne hsub harrived =>
      exact .select (c := c.widened) (s := s.widened c) hready hcont hne hsub harrived
  | @allocate s₁ i rest hready hallocate =>
      have hallocate' := allocateRepairTask_widened (c := c) (i := i) hnext
      rw [hallocate] at hallocate'
      exact .allocate (c := c.widened) (s := s.widened c) hready hallocate'

/-- A step of the wider repair is one of the repair. -/
theorem Step.of_widened {t : RepairSystem} (ht : Step c.widened (s.widened c) t)
    (hnext : scheduleQueueLen ≤ s.tables.nextTaskToSchedule) : ∃ s', Step c s s' := by
  cases ht with
  | @receive i m later hin hwork =>
      obtain ⟨m', later', hin', -, -⟩ := List.map_eq_cons_iff.1 hin
      exact ⟨_, .receive hin' hwork⟩
  | finish hwork => exact ⟨_, .finish hwork⟩
  | select hready hcont hne hsub harrived => exact ⟨_, .select hready hcont hne hsub harrived⟩
  | @allocate t₁ i rest hready hallocate =>
      rw [allocateRepairTask_widened hnext] at hallocate
      obtain ⟨s₁, hs₁, -⟩ := Option.map_eq_some_iff.1 hallocate
      exact ⟨_, .allocate hready hs₁⟩

theorem opening_widened (c : RepairSettings) (m : ℕ) :
    (opening c m).widened c = opening c.widened m := by
  have hinbox : (fun i => ((opening c m).inbox i).map (RepairTaskParams.widened c)) =
      (opening c.widened m).inbox := by
    funext i
    change (if i < m then [c.params i] else []).map (RepairTaskParams.widened c) =
      if i < m then [c.widened.params i] else []
    split <;> rfl
  rw [RepairSystem.widened, hinbox]
  rfl

/-- What comes about in the repair comes about in the wider repair. -/
theorem Reachable.widened (hn : c.totalTaskExecuters ≤ 16) (h : Reachable c s) :
    Reachable c.widened (s.widened c) ∧ Inv c.widened (s.widened c) := by
  have hinv : ∀ {t}, Reachable c.widened t → Inv c.widened t := fun ht =>
    ht.inv (le_max_left ..) hn
  induction h with
  | initial =>
      have hinitial : (RepairSystem.initial c).widened c = RepairSystem.initial c.widened := by
        rw [initial_eq hn, initial_eq (c := c.widened) hn, opening_widened]
        rfl
      rw [hinitial]
      exact ⟨.initial, hinv .initial⟩
  | step _ hs ih =>
      have hreach := ih.1.step (hs.widened ih.2.tables.next_ge)
      exact ⟨hreach, hinv hreach⟩

/-! ### The end of the loop -/

/-- The loop is over exactly when there are as many acknowledgements as tasks. -/
theorem Inv.finishRepair_iff_length (h : Inv c s) :
    s.tables.finishRepair = true ↔ s.acked.length = c.totalRepairTasks := by
  have hlen : s.view.done.length = s.acked.length := List.length_map ..
  have hsub : s.view.done ⊆ List.range c.totalRepairTasks := by
    intro t ht
    have hsent := h.valid.mem_tasks_iff.2 (Or.inl ht)
    exact List.mem_range.2 (lt_of_lt_of_le (h.tables.sent_lt t hsent) h.tables.next_le)
  have hsubperm := h.valid.nodup_done.subperm hsub
  rw [h.finishRepair_iff]
  constructor
  · intro hall
    have hperm := (List.perm_ext_iff_of_nodup h.valid.nodup_done List.nodup_range).2 fun t =>
      ⟨fun ht => hsub ht, fun ht => hall t (List.mem_range.1 ht)⟩
    rw [← hlen, hperm.length_eq, List.length_range]
  · intro heq t ht
    have hperm := hsubperm.perm_of_length_le (by rw [List.length_range, hlen, heq])
    exact hperm.mem_iff.2 (List.mem_range.2 ht)

/-- **The loop ends after sixteen acknowledgements at least.** -/
theorem Reachable.acked_length (hn : c.totalTaskExecuters ≤ 16) (h : Reachable c s) :
    s.tables.finishRepair = true ↔ s.acked.length = max scheduleQueueLen c.totalRepairTasks :=
  (h.widened hn).2.finishRepair_iff_length

/-- No run goes on for ever. -/
theorem Reachable.acc (hn : c.totalTaskExecuters ≤ 16) (h : Reachable c s) :
    Acc (fun s₂ s₁ => Step c s₁ s₂) s := by
  induction hp : pending c.widened (s.widened c) using Nat.strong_induction_on generalizing s with
  | _ n ih =>
      obtain ⟨-, hinv⟩ := h.widened hn
      refine ⟨s, fun s' hs => ih _ ?_ (h.step hs) rfl⟩
      rw [← hp]
      exact (hs.widened hinv.tables.next_ge).pending_lt hinv

/-- While the loop goes on, there is a step. -/
theorem Reachable.progress (hn : 1 ≤ c.totalTaskExecuters) (hn' : c.totalTaskExecuters ≤ 16)
    (h : Reachable c s) (hcont : s.tables.finishRepair = false) : ∃ s', Step c s s' := by
  obtain ⟨-, hinv⟩ := h.widened hn'
  obtain ⟨t, ht⟩ := hinv.progress hn hcont
  exact ht.of_widened hinv.tables.next_ge

/-- Every system leads to one where the loop is over. -/
theorem Reachable.exists_finished (hn : 1 ≤ c.totalTaskExecuters) (hn' : c.totalTaskExecuters ≤ 16)
    (h : Reachable c s) : ∃ s', Reachable c s' ∧ s'.tables.finishRepair = true := by
  induction h.acc hn' with
  | intro s _ ih =>
      by_cases hfin : s.tables.finishRepair = true
      · exact ⟨s, h, hfin⟩
      · obtain ⟨s', hs⟩ := h.progress hn hn' (Bool.not_eq_true _ ▸ hfin)
        exact ih s' hs (h.step hs)

/-! ### The tasks of the repair -/

/-- Three executers have an address. -/
theorem initializeRepairExecuters_isSome_iff (hn : c.totalTaskExecuters ≤ 6) :
    (initializeRepairExecuters c).isSome ↔ c.totalTaskExecuters ≤ 3 := by
  rw [initializeRepairExecuters]
  generalize c.totalTaskExecuters = n at hn
  interval_cases n <;> decide

/-- The loop is reached, only tasks of the repair are sent, and the loop ends after as many
acknowledgements as there are tasks, whatever their order. -/
structure SchedulesTasks (c : RepairSettings) : Prop where
  /-- `main` comes to its loop. -/
  starts : (initializeRepairExecuters c).isSome
  /-- Only tasks of the repair are sent. -/
  inside : ∀ s, Reachable c s → ∀ x ∈ s.sent, x.2 < c.totalRepairTasks
  /-- The loop is over after as many acknowledgements, and not before. -/
  ends : ∀ s, Reachable c s → (s.tables.finishRepair = true ↔ s.acked.length = c.totalRepairTasks)
  /-- No run goes on for ever. -/
  acc : ∀ s, Reachable c s → Acc (fun s₂ s₁ => Step c s₁ s₂) s
  /-- No run stops before the loop is over. -/
  progress : ∀ s, Reachable c s → s.tables.finishRepair = false → ∃ s', Step c s s'

/-- **The scheduler sends the tasks of the repair, and no others, exactly when there are at least as
many of them as slots, and at most as many executers as addresses.** -/
theorem schedulesTasks_iff (c : RepairSettings) (hn : 1 ≤ c.totalTaskExecuters)
    (hn' : c.totalTaskExecuters ≤ 6) :
    SchedulesTasks c ↔ scheduleQueueLen ≤ c.totalRepairTasks ∧ c.totalTaskExecuters ≤ 3 := by
  have hle : c.totalTaskExecuters ≤ 16 := by omega
  constructor
  · intro h
    refine ⟨?_, (initializeRepairExecuters_isSome_iff hn').1 h.starts⟩
    obtain ⟨s, hs, hfin⟩ := Reachable.exists_finished hn hle (.initial (c := c))
    rw [← max_eq_right_iff, ← (hs.acked_length hle).1 hfin]
    exact (h.ends s hs).1 hfin
  · intro ⟨htotal, hthree⟩
    have hmax : max scheduleQueueLen c.totalRepairTasks = c.totalRepairTasks := max_eq_right htotal
    refine ⟨(initializeRepairExecuters_isSome_iff hn').2 hthree, fun s hs x hx => ?_,
      fun s hs => ?_, fun s hs => hs.acc hle, fun s hs => hs.progress hn hle⟩
    · have hinv := hs.inv htotal hle
      exact lt_of_lt_of_le (hinv.tables.sent_lt x.2 (List.mem_map.2 ⟨x, hx, rfl⟩))
        hinv.tables.next_le
    · rw [hs.acked_length hle, hmax]

/-- Twenty tasks for three executers. -/
theorem schedulesTasks_twenty : SchedulesTasks ⟨0, 4, 20, 3, "/dev/sdb"⟩ :=
  (schedulesTasks_iff ⟨0, 4, 20, 3, "/dev/sdb"⟩ (by decide) (by decide)).2 (by decide)

/-- Two tasks for three executers: all three have an address, and the third is sent a task that does
not exist. -/
theorem initial_sends_beyond :
    (initializeRepairExecuters ⟨0, 4, 2, 3, "/dev/sdb"⟩).isSome ∧
      ¬ ∀ x ∈ (initial ⟨0, 4, 2, 3, "/dev/sdb"⟩).sent, x.2 < 2 := by
  decide

end RepairSystem

end Ncfs
