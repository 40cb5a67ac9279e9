/-
The scheduler of a repair and its task executers.

The scheduler keeps a window of sixteen task numbers with a status each.  An executer that
acknowledges its task has the slot of that task given the next number, or marked as finished once
there is none, and is sent the number of the next waiting slot.  An executer takes its messages in
turn, works on the task and sends the number back.

The system is a step relation over the tables, the messages in flight and the executers, so that the
executers may answer in any order and at any point of the scheduler's loop.  Time-outs of `select`
change nothing and are left out; sends and receives of whole messages succeed.

Main definitions:

* `Ncfs.TaskTables` — the scheduler's tables, and the functions that search and change them;
* `Ncfs.RepairSystem` — the scheduler, the executers and the messages between them;
* `Ncfs.RepairSystem.Step`, `Ncfs.RepairSystem.Reachable` — its steps, and what they lead to;
* `Ncfs.RepairSystem.view` — the system as a dispatcher;
* `Ncfs.TaskTables.Matches` — what the tables say about the dispatcher.

Main results:

* `Ncfs.TaskTables.Matches.retire`, `Ncfs.TaskTables.Matches.assign` — the tables follow the
  dispatcher;
* `Ncfs.RepairSystem.Step.inv` — every step keeps the invariant;
* `Ncfs.RepairSystem.schedule_correct` — the tasks are each sent once, to executers that hold none,
  none of these is left idle while a slot waits, and the loop is left exactly when all tasks are
  acknowledged.
-/
import FuseMdr.Dispatch
import FuseMdr.Loops

set_option relaxedAutoImplicit false
set_option autoImplicit false

namespace Ncfs

/-! ### The scheduler's tables -/

/-- `SCHEDULE_QUEUE_LEN`. -/
def scheduleQueueLen : ℕ := 16

/-- The values of `task_status_queue`. -/
inductive TaskStatus where
  /-- `0`: the task waits for an executer. -/
  | waiting
  /-- `1`: the task is under processing. -/
  | processing
  /-- `-1`: there is no further task for the slot. -/
  | finished
deriving DecidableEq

/-- The tables of the scheduler. -/
structure TaskTables where
  /-- `task_schedule_queue`. -/
  taskScheduleQueue : ℕ → ℕ
  /-- `task_status_queue`. -/
  taskStatusQueue : ℕ → TaskStatus
  /-- `next_task_to_schedule`. -/
  nextTaskToSchedule : ℕ
  /-- `_executer_tasks_num`. -/
  executerTasksNum : ℕ → ℕ

/-- The parameters of a repair, from the command line of the scheduler. -/
structure RepairSettings where
  /-- `_failed_node_id`. -/
  failedNodeId : ℕ
  /-- `_rebuild_method`. -/
  rebuildMethod : ℕ
  /-- `_total_repair_tasks`. -/
  totalRepairTasks : ℕ
  /-- `_total_task_executers`. -/
  totalTaskExecuters : ℕ
  /-- `_newdevice`. -/
  newdevice : String

/-- `struct repair_task_params`, the message to an executer. -/
structure RepairTaskParams where
  /-- `repair_tasks_num`. -/
  repairTasksNum : ℕ
  /-- `repair_task_seq`. -/
  repairTaskSeq : ℕ
  /-- `failed_node_id`. -/
  failedNodeId : ℕ
  /-- `repair_method`. -/
  repairMethod : ℕ
  /-- `new_device_name`. -/
  newDeviceName : String

/-- The message that sends task `seq`. -/
def RepairSettings.params (c : RepairSettings) (seq : ℕ) : RepairTaskParams where
  repairTasksNum := c.totalRepairTasks
  repairTaskSeq := seq
  failedNodeId := c.failedNodeId
  repairMethod := c.rebuildMethod
  newDeviceName := c.newdevice

/-- `ipAddrTemp` in `InitializeRepairExecuters`: `MAX_CONNECTION_NUM` pointers, of which three are
given an address and the others are null. -/
def ipAddrTemp : List (Option String) :=
  [some "192.168.0.17", some "192.168.0.117", some "192.168.0.118", none, none, none]

/-- `InitializeRepairExecuters`: the addresses of the executers.  It has no value where `strncpy` is
given a null pointer. -/
def initializeRepairExecuters (c : RepairSettings) : Option (List String) :=
  (List.range c.totalTaskExecuters).mapM fun i => ipAddrTemp.getD i none

namespace TaskTables

/-- The tables that `main` begins with. -/
def initial : TaskTables where
  taskScheduleQueue i := i
  taskStatusQueue _ := .waiting
  nextTaskToSchedule := scheduleQueueLen
  executerTasksNum _ := 0

/-- `finish_repair`. -/
def finishRepair (q : TaskTables) : Bool :=
  (List.range scheduleQueueLen).all fun i => q.taskStatusQueue i = .finished

/-- `find_available_task`. -/
def findAvailableTask (q : TaskTables) : Option ℕ :=
  ((List.range scheduleQueueLen).find? fun i => q.taskStatusQueue i = .waiting).map
    q.taskScheduleQueue

/-- `find_available_task_position(start)`. -/
def findAvailableTaskPosition (q : TaskTables) (start : ℕ) : Option ℕ :=
  ((List.range scheduleQueueLen).map fun i => (start + 1 + i) % scheduleQueueLen).find? fun p =>
    q.taskStatusQueue p = .waiting

/-- `find_task_position(task_id)`. -/
def findTaskPosition (q : TaskTables) (taskId : ℕ) : Option ℕ :=
  (List.range scheduleQueueLen).find? fun i => q.taskScheduleQueue i = taskId

/-- The slot of an acknowledged task takes the next number, or is finished. -/
def retire (total position : ℕ) (q : TaskTables) : TaskTables :=
  if q.nextTaskToSchedule < total then
    { q with
      taskScheduleQueue := Function.update q.taskScheduleQueue position q.nextTaskToSchedule
      taskStatusQueue := Function.update q.taskStatusQueue position .waiting
      nextTaskToSchedule := q.nextTaskToSchedule + 1 }
  else { q with taskStatusQueue := Function.update q.taskStatusQueue position .finished }

/-- The task of a slot is under processing. -/
def assign (position : ℕ) (q : TaskTables) : TaskTables :=
  { q with taskStatusQueue := Function.update q.taskStatusQueue position .processing }

/-- `_executer_tasks_num[i]++`. -/
def countTask (i : ℕ) (q : TaskTables) : TaskTables :=
  { q with executerTasksNum := Function.update q.executerTasksNum i (q.executerTasksNum i + 1) }

end TaskTables

/-! ### The system -/

/-- The scheduler, the executers and what is between them. -/
structure RepairSystem where
  /-- The tables. -/
  tables : TaskTables
  /-- The executers in `repair_executer_fds` that `AllocateRepairTask` has still to look at. -/
  ready : List ℕ
  /-- The messages on their way to an executer. -/
  inbox : ℕ → List RepairTaskParams
  /-- The task an executer works on. -/
  working : ℕ → Option ℕ
  /-- The acknowledgements on their way to the scheduler. -/
  outbox : ℕ → List ℕ
  /-- All messages sent so far: the executer and the number of the task. -/
  sent : List (ℕ × ℕ)
  /-- All acknowledgements received so far. -/
  acked : List (ℕ × ℕ)

namespace RepairSystem

/-- `send(_socketid[i], …)` of task `seq`. -/
def send (c : RepairSettings) (s : RepairSystem) (i seq : ℕ) : RepairSystem :=
  { s with
    inbox := Function.update s.inbox i (s.inbox i ++ [c.params seq])
    sent := s.sent ++ [(i, seq)] }

/-- `InitializeRepairTaskAllocation`.  The slot that is marked is the one with the number of the
executer, not the one that was found. -/
def initializeRepairTaskAllocation (c : RepairSettings) (s : RepairSystem) : RepairSystem :=
  (List.range c.totalTaskExecuters).foldl (fun s i =>
    match s.tables.findAvailableTask with
    | none => s
    | some seq => { s.send c i seq with tables := s.tables.assign i }) s

/-- The body of `AllocateRepairTask` for executer `i`.  It has no value where the acknowledgement is
not there, or names a task that is not in the window, in which case the tables are written before
their beginning. -/
def allocateRepairTask (c : RepairSettings) (s : RepairSystem) (i : ℕ) : Option RepairSystem :=
  match s.outbox i with
  | [] => none
  | taskId :: later =>
      let tables := s.tables.countTask i
      let s := { s with
        outbox := Function.update s.outbox i later
        acked := s.acked ++ [(i, taskId)] }
      match tables.findTaskPosition taskId with
      | none => none
      | some position =>
          let tables := tables.retire c.totalRepairTasks position
          match tables.findAvailableTaskPosition position with
          | none => some { s with tables := tables }
          | some p =>
              some { s.send c i (tables.taskScheduleQueue p) with tables := tables.assign p }

/-- The system when `main` enters its loop, after `InitializeRepairExecuters` has copied an address
for every executer and the connections are made. -/
def initial (c : RepairSettings) : RepairSystem :=
  initializeRepairTaskAllocation c {
    tables := .initial
    ready := []
    inbox := fun _ => []
    working := fun _ => none
    outbox := fun _ => []
    sent := []
    acked := [] }

/-- The steps of the system. -/
inductive Step (c : RepairSettings) : RepairSystem → RepairSystem → Prop
  /-- `recv` in `process_th` of executer `i`. -/
  | receive {s : RepairSystem} {i : ℕ} {m : RepairTaskParams} {later : List RepairTaskParams}
      (inbox_eq : s.inbox i = m :: later) (working_eq : s.working i = none) :
      Step c s { s with
        inbox := Function.update s.inbox i later
        working := Function.update s.working i (some m.repairTaskSeq) }
  /-- Executer `i` has recovered its part and acknowledges the task. -/
  | finish {s : RepairSystem} {i seq : ℕ} (working_eq : s.working i = some seq) :
      Step c s { s with
        working := Function.update s.working i none
        outbox := Function.update s.outbox i (s.outbox i ++ [seq]) }
  /-- `select` in the loop of `main` returns executers whose acknowledgements have arrived. -/
  | select {s : RepairSystem} {l : List ℕ} (ready_eq : s.ready = [])
      (continues : s.tables.finishRepair = false) (ne_nil : l ≠ [])
      (sublist : l.Sublist (List.range c.totalTaskExecuters)) (arrived : ∀ i ∈ l, s.outbox i ≠ []) :
      Step c s { s with ready := l }
  /-- `AllocateRepairTask` comes to the next of these. -/
  | allocate {s s' : RepairSystem} {i : ℕ} {rest : List ℕ} (ready_eq : s.ready = i :: rest)
      (allocate_eq : allocateRepairTask c s i = some s') :
      Step c s { s' with ready := rest }

/-- The systems that can come about. -/
inductive Reachable (c : RepairSettings) : RepairSystem → Prop
  | initial : Reachable c (initial c)
  | step {s s' : RepairSystem} (h : Reachable c s) (hs : Step c s s') : Reachable c s'

/-- `main` leaves its loop. -/
def Leaves (s : RepairSystem) : Prop := s.ready = [] ∧ s.tables.finishRepair = true

/-! ### The system as a dispatcher -/

/-- The tasks that are somewhere between the scheduler and executer `i`. -/
def held (s : RepairSystem) (i : ℕ) : List ℕ :=
  (s.inbox i).map (fun m => m.repairTaskSeq) ++ (s.working i).toList ++ s.outbox i

/-- The system as a dispatcher. -/
def view (s : RepairSystem) : Dispatch.State ℕ ℕ := ⟨fun i => (s.held i).head?, s.sent, s.acked⟩

end RepairSystem

/-! ### The tables and the dispatcher -/

namespace TaskTables

section Search

variable {q : TaskTables} {p : ℕ}

theorem findTaskPosition_eq {t : ℕ} (hp : p < 16) (ht : q.taskScheduleQueue p = t)
    (hinj : ∀ p < 16, ∀ p' < 16, q.taskScheduleQueue p = q.taskScheduleQueue p' → p = p') :
    q.findTaskPosition t = some p := by
  cases hfind : q.findTaskPosition t with
  | none =>
      have hnone := List.find?_eq_none.1 hfind p (List.mem_range.2 hp)
      exact absurd (decide_eq_true ht) hnone
  | some p' =>
      have hp' : p' < 16 := List.mem_range.1 (List.mem_of_find?_eq_some hfind)
      have ht' : q.taskScheduleQueue p' = t := by
        have htest := List.find?_some hfind
        simpa using htest
      rw [hinj p' hp' p hp (ht'.trans ht.symm)]

theorem findAvailableTaskPosition_some {start : ℕ}
    (h : q.findAvailableTaskPosition start = some p) :
    p < 16 ∧ q.taskStatusQueue p = .waiting := by
  have htest := List.find?_some h
  obtain ⟨i, -, rfl⟩ := List.mem_map.1 (List.mem_of_find?_eq_some h)
  exact ⟨Nat.mod_lt _ (by decide), by simpa using htest⟩

/-- The search comes to every slot. -/
theorem findAvailableTaskPosition_none {start : ℕ} (h : q.findAvailableTaskPosition start = none)
    (hp : p < 16) : q.taskStatusQueue p ≠ .waiting := by
  have hmem : p ∈ (List.range scheduleQueueLen).map fun i =>
      (start + 1 + i) % scheduleQueueLen := by
    refine List.mem_map.2 ⟨(p + 16 - (start + 1) % 16) % 16, List.mem_range.2
      (Nat.mod_lt _ (by decide)), ?_⟩
    change (start + 1 + (p + 16 - (start + 1) % 16) % 16) % 16 = p
    omega
  exact fun hw => List.find?_eq_none.1 h p hmem (decide_eq_true hw)

theorem finishRepair_iff : q.finishRepair = true ↔ ∀ p < 16, q.taskStatusQueue p = .finished := by
  simp [finishRepair, scheduleQueueLen]

end Search

/-- What the tables say about the dispatcher. -/
structure Matches (total n : ℕ) (q : TaskTables) (s : Dispatch.State ℕ ℕ) : Prop where
  /-- The window began with the first sixteen tasks. -/
  next_ge : 16 ≤ q.nextTaskToSchedule
  /-- There are no further tasks. -/
  next_le : q.nextTaskToSchedule ≤ total
  /-- The numbers in the window have been given out. -/
  number_lt : ∀ p < 16, q.taskScheduleQueue p < q.nextTaskToSchedule
  /-- They differ. -/
  number_inj : ∀ p < 16, ∀ p' < 16, q.taskScheduleQueue p = q.taskScheduleQueue p' → p = p'
  /-- A number that has left the window has been acknowledged. -/
  left : ∀ t < q.nextTaskToSchedule, (∃ p < 16, q.taskScheduleQueue p = t) ∨ t ∈ s.done
  /-- Only numbers that have been given out have been sent. -/
  sent_lt : ∀ t ∈ s.tasks, t < q.nextTaskToSchedule
  /-- A waiting slot has not been sent. -/
  waiting : ∀ p < 16, q.taskStatusQueue p = .waiting → q.taskScheduleQueue p ∉ s.tasks
  /-- A slot under processing is held by an executer. -/
  processing : ∀ p < 16, q.taskStatusQueue p = .processing → ∃ i < n, s.holds i = some
    (q.taskScheduleQueue p)
  /-- A finished slot has been acknowledged, and there is no further task for it. -/
  finished : ∀ p < 16, q.taskStatusQueue p = .finished →
    q.taskScheduleQueue p ∈ s.done ∧ q.nextTaskToSchedule = total
  /-- What an executer holds is in the window, under processing. -/
  held : ∀ i t, s.holds i = some t →
    i < n ∧ ∃ p < 16, q.taskScheduleQueue p = t ∧ q.taskStatusQueue p = .processing

/-- No executer is idle while a slot waits. -/
def NoneIdle (n : ℕ) (q : TaskTables) (s : Dispatch.State ℕ ℕ) : Prop :=
  ∀ i < n, s.holds i = none → ∀ p < 16, q.taskStatusQueue p ≠ .waiting

section Matches

variable {total n i t p : ℕ} {q : TaskTables} {s : Dispatch.State ℕ ℕ}

/-- Counting the tasks of the executers does not matter. -/
theorem Matches.countTask (h : Matches total n q s) (i : ℕ) : Matches total n (q.countTask i) s :=
  ⟨h.next_ge, h.next_le, h.number_lt, h.number_inj, h.left, h.sent_lt, h.waiting, h.processing,
    h.finished, h.held⟩

/-- An acknowledged task gives its slot away. -/
theorem Matches.retire (h : Matches total n q s) (hs : s.Valid) (hi : s.holds i = some t)
    (hp : p < 16) (ht : q.taskScheduleQueue p = t) :
    Matches total n (q.retire total p) (s.ack i t) := by
  -- the other executers hold other tasks
  have hother : ∀ {j t'}, (s.ack i t).holds j = some t' → j ≠ i ∧ s.holds j = some t' ∧ t' ≠ t := by
    intro j t' hj
    by_cases hji : j = i
    · subst hji
      rw [show (s.ack j t).holds j = none from Function.update_self ..] at hj
      cases hj
    · rw [show (s.ack i t).holds j = s.holds j from Function.update_of_ne hji ..] at hj
      exact ⟨hji, hj, fun htt => hji (hs.holds_inj hj (htt ▸ hi))⟩
  have hdone : ∀ {t'}, t' ∈ (s.ack i t).done ↔ t' ∈ s.done ∨ t' = t := by
    intro t'
    simp [Dispatch.State.done, Dispatch.State.ack]
  -- the slots that are under processing belong to the same executers, but for the one of the task
  have hprocessing : ∀ p' < 16, p' ≠ p → q.taskStatusQueue p' = .processing →
      ∃ j < n, (s.ack i t).holds j = some (q.taskScheduleQueue p') := by
    intro p' hp' hne hst
    obtain ⟨j, hj, hholds⟩ := h.processing p' hp' hst
    refine ⟨j, hj, ?_⟩
    have hji : j ≠ i := by
      rintro rfl
      rw [hi] at hholds
      exact hne (h.number_inj p' hp' p hp ((Option.some.inj hholds).symm.trans ht.symm))
    exact (Function.update_of_ne hji ..).trans hholds
  have hheld : ∀ j t', (s.ack i t).holds j = some t' →
      j < n ∧ ∃ p' < 16, p' ≠ p ∧ q.taskScheduleQueue p' = t' ∧
      q.taskStatusQueue p' = .processing := by
    intro j t' hj
    obtain ⟨-, hholds, hne⟩ := hother hj
    obtain ⟨hjn, p', hp', hnum, hst⟩ := h.held j t' hholds
    exact ⟨hjn, p', hp', fun hpp => hne (by rw [← hnum, hpp, ht]), hnum, hst⟩
  rw [TaskTables.retire]
  split
  · -- the next number comes into the window
    rename_i hlt
    have hnew : ∀ t' ∈ s.tasks, t' ≠ q.nextTaskToSchedule := fun t' ht' => (h.sent_lt t' ht').ne
    refine ⟨h.next_ge.trans (Nat.le_succ _), hlt, fun p' hp' => ?_, fun p₁ hp₁ p₂ hp₂ heq => ?_,
      fun t' ht' => ?_, fun t' ht' => Nat.lt_succ_of_lt (h.sent_lt t' ht'), fun p' hp' hst => ?_,
      fun p' hp' hst => ?_, fun p' hp' hst => ?_, fun j t' hj => ?_⟩
    · by_cases hpp : p' = p
      · rw [hpp]
        simp
      · have := h.number_lt p' hp'
        simp only [Function.update_of_ne hpp]
        omega
    · have h₁ := h.number_lt p₁ hp₁
      have h₂ := h.number_lt p₂ hp₂
      by_cases hpp₁ : p₁ = p <;> by_cases hpp₂ : p₂ = p
      · rw [hpp₁, hpp₂]
      · simp only [hpp₁, Function.update_self, Function.update_of_ne hpp₂] at heq
        omega
      · simp only [hpp₂, Function.update_self, Function.update_of_ne hpp₁] at heq
        omega
      · simp only [Function.update_of_ne hpp₁, Function.update_of_ne hpp₂] at heq
        exact h.number_inj p₁ hp₁ p₂ hp₂ heq
    · rcases Nat.lt_succ_iff_lt_or_eq.1 ht' with hlt' | rfl
      · rcases h.left t' hlt' with ⟨p', hp', hnum⟩ | hmem
        · by_cases hpp : p' = p
          · exact Or.inr (hdone.2 (Or.inr (by rw [← hnum, hpp, ht])))
          · exact Or.inl ⟨p', hp', by simp only [Function.update_of_ne hpp, hnum]⟩
        · exact Or.inr (hdone.2 (Or.inl hmem))
      · exact Or.inl ⟨p, hp, Function.update_self ..⟩
    · by_cases hpp : p' = p
      · rw [hpp]
        exact fun hmem => hnew _ hmem (Function.update_self ..)
      · simp only [Function.update_of_ne hpp] at hst ⊢
        exact h.waiting p' hp' hst
    · by_cases hpp : p' = p
      · simp [hpp] at hst
      · simp only [Function.update_of_ne hpp] at hst ⊢
        exact hprocessing p' hp' hpp hst
    · by_cases hpp : p' = p
      · simp [hpp] at hst
      · simp only [Function.update_of_ne hpp] at hst
        exact absurd (h.finished p' hp' hst).2 hlt.ne
    · obtain ⟨hjn, p', hp', hpp, hnum, hst⟩ := hheld j t' hj
      exact ⟨hjn, p', hp', by simp only [Function.update_of_ne hpp, hnum],
        by simp only [Function.update_of_ne hpp, hst]⟩
  · -- the slot is finished
    rename_i hge
    refine ⟨h.next_ge, h.next_le, h.number_lt, h.number_inj, fun t' ht' => ?_, h.sent_lt,
      fun p' hp' hst => ?_, fun p' hp' hst => ?_, fun p' hp' hst => ?_, fun j t' hj => ?_⟩
    · exact (h.left t' ht').imp_right fun hmem => hdone.2 (Or.inl hmem)
    · by_cases hpp : p' = p
      · simp [hpp] at hst
      · simp only [Function.update_of_ne hpp] at hst
        exact h.waiting p' hp' hst
    · by_cases hpp : p' = p
      · simp [hpp] at hst
      · simp only [Function.update_of_ne hpp] at hst
        exact hprocessing p' hp' hpp hst
    · by_cases hpp : p' = p
      · exact ⟨hdone.2 (Or.inr (by rw [hpp, ht])), le_antisymm h.next_le (not_lt.1 hge)⟩
      · simp only [Function.update_of_ne hpp] at hst
        exact (h.finished p' hp' hst).imp_left fun hmem => hdone.2 (Or.inl hmem)
    · obtain ⟨hjn, p', hp', hpp, hnum, hst⟩ := hheld j t' hj
      exact ⟨hjn, p', hp', hnum, by simp only [Function.update_of_ne hpp, hst]⟩

/-- A waiting slot is sent to an executer that holds nothing. -/
theorem Matches.assign (h : Matches total n q s) (hi : i < n) (hidle : s.holds i = none)
    (hp : p < 16) (hst : q.taskStatusQueue p = .waiting) :
    Matches total n (q.assign p) (s.send i (q.taskScheduleQueue p)) := by
  have hself : (s.send i (q.taskScheduleQueue p)).holds i = some (q.taskScheduleQueue p) :=
    Function.update_self ..
  have hother : ∀ {j}, j ≠ i → (s.send i (q.taskScheduleQueue p)).holds j = s.holds j :=
    fun hj => Function.update_of_ne hj ..
  have htasks : ∀ {t'}, t' ∈ (s.send i (q.taskScheduleQueue p)).tasks ↔
      t' ∈ s.tasks ∨ t' = q.taskScheduleQueue p := by
    intro t'
    simp [Dispatch.State.tasks, Dispatch.State.send]
  refine ⟨h.next_ge, h.next_le, h.number_lt, h.number_inj, h.left, fun t' ht' => ?_,
    fun p' hp' hst' => ?_, fun p' hp' hst' => ?_, fun p' hp' hst' => ?_, fun j t' hj => ?_⟩
  · rcases htasks.1 ht' with hmem | rfl
    · exact h.sent_lt t' hmem
    · exact h.number_lt p hp
  · by_cases hpp : p' = p
    · simp [TaskTables.assign, hpp] at hst'
    · simp only [TaskTables.assign, Function.update_of_ne hpp] at hst'
      intro hmem
      rcases htasks.1 hmem with hmem | heq
      · exact h.waiting p' hp' hst' hmem
      · exact hpp (h.number_inj p' hp' p hp heq)
  · by_cases hpp : p' = p
    · exact ⟨i, hi, by rw [hself, hpp]; rfl⟩
    · simp only [TaskTables.assign, Function.update_of_ne hpp] at hst'
      obtain ⟨j, hj, hholds⟩ := h.processing p' hp' hst'
      have hji : j ≠ i := by
        rintro rfl
        rw [hidle] at hholds
        cases hholds
      exact ⟨j, hj, (hother hji).trans hholds⟩
  · by_cases hpp : p' = p
    · simp [TaskTables.assign, hpp] at hst'
    · simp only [TaskTables.assign, Function.update_of_ne hpp] at hst'
      exact h.finished p' hp' hst'
  · by_cases hji : j = i
    · rw [hji, hself] at hj
      obtain rfl := Option.some.inj hj
      exact ⟨hji ▸ hi, p, hp, rfl, Function.update_self ..⟩
    · rw [hother hji] at hj
      obtain ⟨hjn, p', hp', hnum, hst'⟩ := h.held j t' hj
      have hpp : p' ≠ p := by
        rintro rfl
        rw [hst] at hst'
        cases hst'
      exact ⟨hjn, p', hp', hnum, by simp only [TaskTables.assign, Function.update_of_ne hpp, hst']⟩

theorem retire_status_of_ne {r : ℕ} (hr : r ≠ p) :
    (q.retire total p).taskStatusQueue r = q.taskStatusQueue r := by
  rw [TaskTables.retire]
  split <;> exact Function.update_of_ne hr ..

/-- The executer that has given its task back is sent a waiting slot, if there is one. -/
theorem NoneIdle.assign (h : NoneIdle n q s) {p' : ℕ} (hp' : p' < 16)
    (hst : (q.retire total p).taskStatusQueue p' = .waiting) (t' : ℕ) :
    NoneIdle n ((q.retire total p).assign p') ((s.ack i t).send i t') := by
  intro j hj hidle r hr
  have hji : j ≠ i := by
    rintro rfl
    rw [show ((s.ack j t).send j t').holds j = some t' from Function.update_self ..] at hidle
    cases hidle
  have hbefore : s.holds j = none := by
    rw [← hidle]
    exact ((Function.update_of_ne hji ..).trans (Function.update_of_ne hji ..)).symm
  -- no slot waited before, so the slot that was found is the one given away
  have hpp : p' = p := by
    by_contra hne
    rw [retire_status_of_ne hne] at hst
    exact h j hj hbefore p' hp' hst
  by_cases hrp : r = p'
  · simp [TaskTables.assign, hrp]
  · simp only [TaskTables.assign, Function.update_of_ne hrp]
    rw [retire_status_of_ne (hpp ▸ hrp)]
    exact h j hj hbefore r hr

end Matches

end TaskTables

/-! ### The invariant -/

namespace RepairSystem

variable {c : RepairSettings} {s s' : RepairSystem} {i : ℕ}

/-- The invariant of the system. -/
structure Inv (c : RepairSettings) (s : RepairSystem) : Prop where
  /-- An executer has one task at most. -/
  single : ∀ i, s.held i = (s.view.holds i).toList
  /-- The logs. -/
  valid : s.view.Valid
  /-- The tables. -/
  tables : s.tables.Matches c.totalRepairTasks c.totalTaskExecuters s.view
  /-- No executer is idle while a slot waits. -/
  idle : s.tables.NoneIdle c.totalTaskExecuters s.view
  /-- Tasks are sent to the executers. -/
  executer_lt : ∀ x ∈ s.sent, x.1 < c.totalTaskExecuters
  /-- An executer is looked at once in a pass. -/
  nodup : s.ready.Nodup
  /-- Its acknowledgement has arrived. -/
  arrived : ∀ i ∈ s.ready, s.outbox i ≠ []

theorem Inv.length_le (h : Inv c s) (i : ℕ) : (s.held i).length ≤ 1 := by
  rw [h.single i]
  cases s.view.holds i with
  | none => exact Nat.zero_le 1
  | some t => exact le_rfl

theorem length_held (s : RepairSystem) (i : ℕ) :
    (s.held i).length = (s.inbox i).length + (s.working i).toList.length + (s.outbox i).length := by
  rw [held, List.length_append, List.length_append, List.length_map]

/-- A step of an executer moves its task on. -/
theorem Inv.of_held (h : Inv c s) (hheld : s'.held = s.held) (htables : s'.tables = s.tables)
    (hsent : s'.sent = s.sent) (hacked : s'.acked = s.acked) (hready : s'.ready = s.ready)
    (houtbox : ∀ i, s.outbox i ≠ [] → s'.outbox i ≠ []) : Inv c s' := by
  have hview : s'.view = s.view := by
    rw [view, view, hheld, hsent, hacked]
  refine ⟨fun i => ?_, ?_, ?_, ?_, ?_, ?_, fun i hi => ?_⟩
  · rw [hview, hheld]
    exact h.single i
  · rw [hview]
    exact h.valid
  · rw [hview, htables]
    exact h.tables
  · rw [hview, htables]
    exact h.idle
  · rw [hsent]
    exact h.executer_lt
  · rw [hready]
    exact h.nodup
  · rw [hready] at hi
    exact houtbox i (h.arrived i hi)

/-- An acknowledgement that has arrived is all that the executer has. -/
theorem Inv.of_outbox (h : Inv c s) {taskId : ℕ} {later : List ℕ}
    (hout : s.outbox i = taskId :: later) :
    s.inbox i = [] ∧ s.working i = none ∧ later = [] ∧ s.view.holds i = some taskId := by
  have hlen := h.length_le i
  rw [length_held, hout, List.length_cons] at hlen
  have hin : s.inbox i = [] := List.length_eq_zero_iff.1 (by omega)
  have hlater : later = [] := List.length_eq_zero_iff.1 (by omega)
  have hwork : s.working i = none := by
    cases hw : s.working i with
    | none => rfl
    | some t =>
        rw [hw, Option.toList_some, List.length_singleton] at hlen
        omega
  refine ⟨hin, hwork, hlater, ?_⟩
  change (s.held i).head? = some taskId
  rw [held, hin, hwork, hout, hlater]
  rfl

/-- What `AllocateRepairTask` does for an executer: it takes the task back, and may send another
one. -/
theorem Inv.allocate (h : Inv c s) {rest : List ℕ} (hready : s.ready = i :: rest) :
    ∃ s', allocateRepairTask c s i = some s' ∧ Inv c { s' with ready := rest } ∧
      s'.working = s.working ∧ s'.outbox i = [] ∧
      (∀ j, j ≠ i → s'.inbox j = s.inbox j ∧ s'.outbox j = s.outbox j) ∧
      (s'.sent = s.sent ∧ s'.inbox i = [] ∨ ∃ seq, s'.sent = s.sent ++ [(i, seq)]) := by
  obtain ⟨taskId, later, hout⟩ := List.exists_cons_of_ne_nil
    (h.arrived i (hready ▸ List.mem_cons_self ..))
  obtain ⟨hin, hwork, rfl, hholds⟩ := h.of_outbox hout
  obtain ⟨hi, p, hp, hnum, -⟩ := h.tables.held i taskId hholds
  have hcount := h.tables.countTask i
  have hpos : (s.tables.countTask i).findTaskPosition taskId = some p :=
    TaskTables.findTaskPosition_eq hp hnum hcount.number_inj
  -- the acknowledgement has been taken
  let taken : RepairSystem := { s with
    outbox := Function.update s.outbox i []
    acked := s.acked ++ [(i, taskId)] }
  have htakenself : taken.held i = [] := by
    simp only [taken, held, hin, hwork, Function.update_self]
    rfl
  have htaken : ∀ j, j ≠ i → taken.held j = s.held j := by
    intro j hj
    simp only [taken, held, Function.update_of_ne hj]
  have hview : taken.view = s.view.ack i taskId := by
    have hholds : (fun j => (taken.held j).head?) = Function.update s.view.holds i none := by
      funext j
      by_cases hj : j = i
      · rw [hj, htakenself, Function.update_self]
        rfl
      · rw [htaken j hj, Function.update_of_ne hj]
        rfl
    rw [view, hholds]
    rfl
  have hvalid := h.valid.ack hholds
  have hmatch := hcount.retire h.valid hholds hp hnum
  have hother : ∀ j, j ≠ i → taken.inbox j = s.inbox j ∧ taken.outbox j = s.outbox j :=
    fun j hj => ⟨rfl, Function.update_of_ne hj ..⟩
  have hnodup := h.nodup
  rw [hready, List.nodup_cons] at hnodup
  have hrest : ∀ j ∈ rest, taken.outbox j ≠ [] := by
    intro j hj
    have hji : j ≠ i := fun hji => hnodup.1 (hji ▸ hj)
    rw [(hother j hji).2]
    exact h.arrived j (hready ▸ List.mem_cons_of_mem _ hj)
  let tables := (s.tables.countTask i).retire c.totalRepairTasks p
  rw [allocateRepairTask, hout]
  simp only [hpos]
  cases hfind : tables.findAvailableTaskPosition p with
  | none =>
      refine ⟨{ taken with tables := tables }, ?_,
        ⟨fun j => ?_, ?_, ?_, ?_, h.executer_lt, hnodup.2, hrest⟩, rfl,
        Function.update_self .., hother, Or.inl ⟨rfl, hin⟩⟩
      · rfl
      · change taken.held j = (taken.view.holds j).toList
        rw [hview]
        by_cases hj : j = i
        · rw [hj, htakenself,
            show (s.view.ack i taskId).holds i = none from Function.update_self ..]
          rfl
        · rw [htaken j hj, show (s.view.ack i taskId).holds j = s.view.holds j from
            Function.update_of_ne hj .., h.single j]
      · change taken.view.Valid
        rwa [hview]
      · change tables.Matches c.totalRepairTasks c.totalTaskExecuters taken.view
        rwa [hview]
      · exact fun _ _ _ r hr => TaskTables.findAvailableTaskPosition_none hfind hr
  | some p' =>
      obtain ⟨hp', hst⟩ := TaskTables.findAvailableTaskPosition_some hfind
      let seq := tables.taskScheduleQueue p'
      have hidle : (s.view.ack i taskId).holds i = none := Function.update_self ..
      let sent : RepairSystem := taken.send c i seq
      have hsentself : sent.held i = [seq] := by
        simp only [sent, taken, RepairSystem.send, held, hin, hwork, Function.update_self]
        rfl
      have hsentother : ∀ j, j ≠ i → sent.held j = s.held j := by
        intro j hj
        simp only [sent, taken, RepairSystem.send, held, Function.update_of_ne hj]
      have hviewsent : sent.view = (s.view.ack i taskId).send i seq := by
        have hholds : (fun j => (sent.held j).head?) =
            Function.update (s.view.ack i taskId).holds i (some seq) := by
          funext j
          by_cases hj : j = i
          · rw [hj, hsentself, Function.update_self]
            rfl
          · rw [hsentother j hj, Function.update_of_ne hj]
            change (s.held j).head? = Function.update s.view.holds i none j
            rw [Function.update_of_ne hj]
            rfl
        rw [view, hholds]
        rfl
      refine ⟨{ sent with tables := tables.assign p' }, ?_,
        ⟨fun j => ?_, ?_, ?_, ?_, fun x hx => ?_, hnodup.2, hrest⟩, rfl,
        Function.update_self .., fun j hj => ⟨Function.update_of_ne hj .., (hother j hj).2⟩,
        Or.inr ⟨seq, rfl⟩⟩
      · rfl
      · change sent.held j = (sent.view.holds j).toList
        rw [hviewsent]
        by_cases hj : j = i
        · rw [hj, hsentself, show ((s.view.ack i taskId).send i seq).holds i = some seq from
            Function.update_self ..]
          rfl
        · rw [hsentother j hj, show ((s.view.ack i taskId).send i seq).holds j = s.view.holds j from
            (Function.update_of_ne hj ..).trans (Function.update_of_ne hj ..), h.single j]
      · change sent.view.Valid
        rw [hviewsent]
        exact hvalid.send hidle (hmatch.waiting p' hp' hst)
      · change (tables.assign p').Matches c.totalRepairTasks c.totalTaskExecuters sent.view
        rw [hviewsent]
        exact hmatch.assign hi hidle hp' hst
      · change (tables.assign p').NoneIdle c.totalTaskExecuters sent.view
        rw [hviewsent]
        exact TaskTables.NoneIdle.assign (q := s.tables.countTask i) h.idle hp' hst seq
      · rcases List.mem_append.1 hx with hx | hx
        · exact h.executer_lt x hx
        · rw [List.mem_singleton.1 hx]
          exact hi

/-- Every step keeps the invariant. -/
theorem Step.inv (hs : Step c s s') (h : Inv c s) : Inv c s' := by
  cases hs with
  | @receive i m later hin hwork =>
      have hlen := h.length_le i
      rw [length_held, hin, hwork, List.length_cons, Option.toList_none, List.length_nil] at hlen
      obtain rfl : later = [] := List.length_eq_zero_iff.1 (by omega)
      have hout : s.outbox i = [] := List.length_eq_zero_iff.1 (by omega)
      refine h.of_held (funext fun j => ?_) rfl rfl rfl rfl fun _ hj => hj
      by_cases hj : j = i
      · simp [held, hj, hin, hwork, hout]
      · simp [held, hj]
  | @finish i seq hwork =>
      have hlen := h.length_le i
      rw [length_held, hwork, Option.toList_some, List.length_singleton] at hlen
      have hin : s.inbox i = [] := List.length_eq_zero_iff.1 (by omega)
      have hout : s.outbox i = [] := List.length_eq_zero_iff.1 (by omega)
      refine h.of_held (funext fun j => ?_) rfl rfl rfl rfl fun j hj => ?_
      · by_cases hj : j = i
        · simp [held, hj, hin, hwork, hout]
        · simp [held, hj]
      · have hji : j ≠ i := by
          rintro rfl
          exact hj hout
        simpa [hji] using hj
  | select hready hcont hne hsub harrived =>
      exact ⟨h.single, h.valid, h.tables, h.idle, h.executer_lt,
        hsub.nodup List.nodup_range, harrived⟩
  | allocate hready hallocate =>
      obtain ⟨s₁, hs₁, hinv, -⟩ := h.allocate hready
      obtain rfl := Option.some.inj (hallocate.symm.trans hs₁)
      exact hinv

/-! ### The first tasks -/

/-- The system after the first `m` executers have been sent a task. -/
def opening (c : RepairSettings) (m : ℕ) : RepairSystem where
  tables := { TaskTables.initial with
    taskStatusQueue := fun p => if p < m then .processing else .waiting }
  ready := []
  inbox i := if i < m then [c.params i] else []
  working _ := none
  outbox _ := []
  sent := (List.range m).map fun i => (i, i)
  acked := []

theorem opening_succ {m : ℕ} (hm : m < 16) :
    ((opening c m).tables.findAvailableTask = some m) ∧
    { (opening c m).send c m m with tables := (opening c m).tables.assign m } = opening c
      (m + 1) := by
  constructor
  · have hfind : (List.range scheduleQueueLen).find?
        (fun i => (opening c m).tables.taskStatusQueue i = .waiting) = some m := by
      rw [List.find?_eq_some_iff_getElem]
      refine ⟨by simp [opening], m, by simpa [scheduleQueueLen] using hm, by simp, fun j hj => ?_⟩
      simp [opening, hj]
    rw [TaskTables.findAvailableTask, hfind]
    rfl
  · have hstatus : Function.update (opening c m).tables.taskStatusQueue m .processing =
        (opening c (m + 1)).tables.taskStatusQueue := by
      funext p
      by_cases hp : p = m
      · simp [opening, hp]
      · rw [Function.update_of_ne hp]
        exact if_congr (by omega) rfl rfl
    have hinbox : Function.update (opening c m).inbox m ((opening c m).inbox m ++ [c.params m]) =
        (opening c (m + 1)).inbox := by
      funext j
      by_cases hj : j = m
      · simp [opening, hj]
      · rw [Function.update_of_ne hj]
        exact if_congr (by omega) rfl rfl
    have hsent : (opening c m).sent ++ [(m, m)] = (opening c (m + 1)).sent := by
      simp [opening, List.range_succ]
    simp only [RepairSystem.send, TaskTables.assign, hstatus, hinbox, hsent]
    rfl

theorem initial_eq (hn : c.totalTaskExecuters ≤ 16) :
    initial c = opening c c.totalTaskExecuters := by
  rw [initial, initializeRepairTaskAllocation]
  generalize c.totalTaskExecuters = n at hn
  induction n with
  | zero => rfl
  | succ m ih =>
      obtain ⟨hfind, hnext⟩ := opening_succ (c := c) (m := m) (by omega)
      rw [List.range_succ, List.foldl_append, ih (by omega), List.foldl_cons, List.foldl_nil, hfind]
      exact hnext

theorem held_opening (c : RepairSettings) (m i : ℕ) :
    (opening c m).held i = if i < m then [i] else [] := by
  rw [held]
  by_cases hi : i < m <;> simp [opening, hi, RepairSettings.params]

theorem holds_opening (c : RepairSettings) (m i : ℕ) :
    (opening c m).view.holds i = if i < m then some i else none := by
  change ((opening c m).held i).head? = _
  rw [held_opening]
  split <;> rfl

theorem valid_opening (c : RepairSettings) (m : ℕ) : (opening c m).view.Valid := by
  induction m with
  | zero =>
      have hview : (opening c 0).view = Dispatch.State.start := by
        have hholds : (opening c 0).view.holds = fun _ => none :=
          funext fun i => holds_opening c 0 i
        rw [Dispatch.State.start, ← hholds]
        rfl
      rw [hview]
      exact Dispatch.State.valid_start
  | succ m ih =>
      have hview : (opening c (m + 1)).view = (opening c m).view.send m m := by
        have hholds : (opening c (m + 1)).view.holds =
            Function.update (opening c m).view.holds m (some m) := by
          funext j
          rw [holds_opening]
          by_cases hj : j = m
          · simp [hj]
          · rw [Function.update_of_ne hj, holds_opening]
            exact if_congr (by omega) rfl rfl
        have hsent : (opening c (m + 1)).sent = (opening c m).sent ++ [(m, m)] := by
          simp [opening, List.range_succ]
        rw [Dispatch.State.send, ← hholds]
        change _ = (⟨_, (opening c m).sent ++ [(m, m)], _⟩ : Dispatch.State ℕ ℕ)
        rw [← hsent]
        rfl
      rw [hview]
      refine ih.send ((holds_opening c m m).trans (if_neg (lt_irrefl m))) ?_
      simp [Dispatch.State.tasks, view, opening]

/-- The invariant holds when `main` enters its loop. -/
theorem inv_initial (htotal : 16 ≤ c.totalRepairTasks) (hn : c.totalTaskExecuters ≤ 16) :
    Inv c (initial c) := by
  rw [initial_eq hn]
  have hstatus : ∀ p, (opening c c.totalTaskExecuters).tables.taskStatusQueue p =
      if p < c.totalTaskExecuters then .processing else .waiting := fun _ => rfl
  have htasks : ∀ t, t ∈ (opening c c.totalTaskExecuters).view.tasks ↔
      t < c.totalTaskExecuters := by
    intro t
    simp [Dispatch.State.tasks, view, opening]
  refine ⟨fun i => ?_, valid_opening c _, ⟨le_rfl, htotal, fun p hp => hp, fun p _ p' _ h => h,
    fun t ht => Or.inl ⟨t, ht, rfl⟩, fun t ht => ?_, fun p _ hst => ?_, fun p _ hst => ?_,
    fun p _ hst => ?_, fun i t hi => ?_⟩, fun i hi hidle => ?_, fun x hx => ?_, List.nodup_nil,
    fun i hi => absurd hi (List.not_mem_nil)⟩
  · rw [held_opening, holds_opening]
    split <;> rfl
  · exact lt_of_lt_of_le ((htasks t).1 ht) hn
  · rw [hstatus] at hst
    rw [htasks]
    intro hlt
    rw [if_pos (show p < c.totalTaskExecuters from hlt)] at hst
    cases hst
  · rw [hstatus] at hst
    split at hst
    · rename_i hlt
      exact ⟨p, hlt, (holds_opening c _ p).trans (if_pos hlt)⟩
    · cases hst
  · rw [hstatus] at hst
    split at hst <;> cases hst
  · rw [holds_opening] at hi
    split at hi
    · rename_i hlt
      obtain rfl := Option.some.inj hi
      exact ⟨hlt, i, lt_of_lt_of_le hlt hn, rfl, (hstatus i).trans (if_pos hlt)⟩
    · cases hi
  · rw [holds_opening, if_pos hi] at hidle
    cases hidle
  · obtain ⟨j, hj, rfl⟩ := List.mem_map.1 hx
    exact List.mem_range.1 hj

/-- The invariant holds in every system that can come about. -/
theorem Reachable.inv (htotal : 16 ≤ c.totalRepairTasks) (hn : c.totalTaskExecuters ≤ 16)
    (h : Reachable c s) : Inv c s := by
  induction h with
  | initial => exact inv_initial htotal hn
  | step _ hs ih => exact hs.inv ih

/-! ### The end of the loop -/

/-- The loop is over exactly when all tasks have been acknowledged. -/
theorem Inv.finishRepair_iff (h : Inv c s) :
    s.tables.finishRepair = true ↔ ∀ t < c.totalRepairTasks, t ∈ s.view.done := by
  rw [TaskTables.finishRepair_iff]
  constructor
  · intro hfin t ht
    rw [← (h.tables.finished 0 (by decide) (hfin 0 (by decide))).2] at ht
    rcases h.tables.left t ht with ⟨p, hp, rfl⟩ | hmem
    · exact (h.tables.finished p hp (hfin p hp)).1
    · exact hmem
  · intro hall p hp
    have hdone := hall _ (lt_of_lt_of_le (h.tables.number_lt p hp) h.tables.next_le)
    cases hst : s.tables.taskStatusQueue p with
    | waiting => exact absurd (h.valid.mem_tasks_iff.2 (Or.inl hdone)) (h.tables.waiting p hp hst)
    | processing =>
        obtain ⟨i, -, hi⟩ := h.tables.processing p hp hst
        exact absurd hi (h.valid.ne_of_acked hdone)
    | finished => rfl

/-! ### Progress -/

/-- While the loop goes on, there is a step. -/
theorem Inv.progress (h : Inv c s) (hn : 1 ≤ c.totalTaskExecuters)
    (hcont : s.tables.finishRepair = false) : ∃ s', Step c s s' := by
  cases hready : s.ready with
  | cons i rest =>
      obtain ⟨s₁, hs₁, -⟩ := h.allocate hready
      exact ⟨_, .allocate hready hs₁⟩
  | nil =>
      -- some slot is under processing: if none were, all executers would be idle, and no slot would
      -- wait
      have hbusy : ∃ p < 16, s.tables.taskStatusQueue p = .processing := by
        by_contra hnone
        have hidle : s.view.holds 0 = none := by
          cases hholds : s.view.holds 0 with
          | none => rfl
          | some t =>
              obtain ⟨-, p, hp, -, hst⟩ := h.tables.held 0 t hholds
              exact absurd ⟨p, hp, hst⟩ hnone
        rw [← Bool.not_eq_true, TaskTables.finishRepair_iff] at hcont
        refine hcont fun p hp => ?_
        cases hst : s.tables.taskStatusQueue p with
        | waiting => exact absurd hst (h.idle 0 hn hidle p hp)
        | processing => exact absurd ⟨p, hp, hst⟩ hnone
        | finished => rfl
      obtain ⟨p, hp, hst⟩ := hbusy
      obtain ⟨i, hi, hholds⟩ := h.tables.processing p hp hst
      have hlen := h.length_le i
      have hheld := h.single i
      rw [hholds, Option.toList_some] at hheld
      cases hwork : s.working i with
      | some t => exact ⟨_, .finish hwork⟩
      | none =>
          cases hin : s.inbox i with
          | cons m later => exact ⟨_, .receive hin hwork⟩
          | nil =>
              have hout : s.outbox i ≠ [] := by
                intro hout
                rw [held, hin, hwork, hout] at hheld
                cases hheld
              exact ⟨_, .select (l := [i]) hready hcont (by simp)
                (List.singleton_sublist.2 (List.mem_range.2 hi)) (by simpa using hout)⟩

/-- How far the task of an executer is from coming back. -/
def stage (s : RepairSystem) (i : ℕ) : ℕ :=
  if s.inbox i ≠ [] then 4
  else if s.working i ≠ none then 3
  else if s.outbox i = [] then 0
  else if i ∈ s.ready then 1
  else 2

/-- What is still to be done: five steps for a task that has not been sent, and fewer for the
others. -/
def pending (c : RepairSettings) (s : RepairSystem) : ℕ :=
  5 * (c.totalRepairTasks - s.sent.length) + ∑ i ∈ Finset.range c.totalTaskExecuters, s.stage i

/-- No more tasks are sent than there are. -/
theorem Inv.length_sent_le (h : Inv c s) : s.sent.length ≤ c.totalRepairTasks := by
  have hsub : s.view.tasks ⊆ List.range c.totalRepairTasks := fun t ht =>
    List.mem_range.2 (lt_of_lt_of_le (h.tables.sent_lt t ht) h.tables.next_le)
  have hle := (h.valid.nodup.subperm hsub).length_le
  rwa [List.length_range, Dispatch.State.tasks, List.length_map] at hle

/-- A step that changes the stage of one executer only. -/
theorem sum_stage_lt {n i : ℕ} (hi : i < n) (hother : ∀ j, j ≠ i → s'.stage j = s.stage j) {a b : ℕ}
    (hstage : s'.stage i + a < s.stage i + b) :
    ∑ j ∈ Finset.range n, s'.stage j + a < ∑ j ∈ Finset.range n, s.stage j + b := by
  have hmem := Finset.mem_range.2 hi
  have hrest : ∑ j ∈ (Finset.range n).erase i, s'.stage j = ∑ j ∈ (Finset.range n).erase i,
      s.stage j :=
    Finset.sum_congr rfl fun j hj => hother j (Finset.ne_of_mem_erase hj)
  rw [← Finset.add_sum_erase _ _ hmem, ← Finset.add_sum_erase _ _ hmem, hrest]
  omega

/-- An executer that has something is one of the executers. -/
theorem Inv.lt_of_held (h : Inv c s) {i : ℕ} (hi : s.held i ≠ []) : i < c.totalTaskExecuters := by
  rw [h.single i] at hi
  cases hholds : s.view.holds i with
  | none =>
      rw [hholds] at hi
      exact absurd rfl hi
  | some t => exact (h.tables.held i t hholds).1

/-- Every step leaves less to be done, so that every run ends. -/
theorem Step.pending_lt (hs : Step c s s') (h : Inv c s) : pending c s' < pending c s := by
  cases hs with
  | @receive i m later hin hwork =>
      have hlen := h.length_le i
      rw [length_held, hin, hwork, List.length_cons, Option.toList_none, List.length_nil] at hlen
      obtain rfl : later = [] := List.length_eq_zero_iff.1 (by omega)
      have hi := h.lt_of_held (i := i) (by simp [held, hin])
      refine Nat.add_lt_add_left (sum_stage_lt (a := 0) (b := 0) hi (fun j hj => ?_) ?_) _
      · simp [stage, hj]
      · simp [stage, hin]
  | @finish i seq hwork =>
      have hlen := h.length_le i
      rw [length_held, hwork, Option.toList_some, List.length_singleton] at hlen
      have hin : s.inbox i = [] := List.length_eq_zero_iff.1 (by omega)
      have hi := h.lt_of_held (i := i) (by simp [held, hwork])
      refine Nat.add_lt_add_left (sum_stage_lt (a := 0) (b := 0) hi (fun j hj => ?_) ?_) _
      · simp [stage, hj]
      · simp only [stage, hin, hwork, Function.update_self]
        split_ifs <;> simp_all
  | @select l hready hcont hne hsub harrived =>
      refine Nat.add_lt_add_left ?_ _
      obtain ⟨i, rest, rfl⟩ := List.exists_cons_of_ne_nil hne
      have hmem : i ∈ i :: rest := List.mem_cons_self ..
      obtain ⟨taskId, later, hout⟩ := List.exists_cons_of_ne_nil (harrived i hmem)
      obtain ⟨hin, hwork, -⟩ := h.of_outbox hout
      refine Finset.sum_lt_sum (fun j _ => ?_) ⟨i, hsub.subset hmem, ?_⟩
      · simp only [stage, hready]
        split_ifs <;> simp_all
      · simp [stage, hin, hwork, hout, hready]
  | @allocate s₁ i rest hready hallocate =>
      obtain ⟨s₂, hs₂, hinv, hwork, hout, hother, hsent⟩ := h.allocate hready
      obtain rfl := Option.some.inj (hallocate.symm.trans hs₂)
      have hmem : i ∈ s.ready := hready ▸ List.mem_cons_self ..
      obtain ⟨taskId, later, harrived⟩ := List.exists_cons_of_ne_nil (h.arrived i hmem)
      obtain ⟨hin, hworki, -, -⟩ := h.of_outbox harrived
      have hi := h.lt_of_held (i := i) (by simp [held, harrived])
      have hnodup := h.nodup
      rw [hready, List.nodup_cons] at hnodup
      have hstage : s.stage i = 1 := by simp [stage, hin, hworki, harrived, hmem]
      have hstages : ∀ j, j ≠ i → RepairSystem.stage { s₁ with ready := rest } j = s.stage j := by
        intro j hj
        obtain ⟨hinj, houtj⟩ := hother j hj
        simp [stage, hinj, houtj, hwork, hready, hj]
      rcases hsent with ⟨hsent, hini⟩ | ⟨seq, hsent⟩
      · have hself : RepairSystem.stage { s₁ with ready := rest } i = 0 := by
          simp [stage, hini, hwork, hworki, hout]
        have hsum := sum_stage_lt (a := 0) (b := 0) hi hstages (by omega)
        rw [pending, pending]
        change 5 * (c.totalRepairTasks - s₁.sent.length) + _ < _
        have hlen : s₁.sent.length = s.sent.length := by rw [hsent]
        omega
      · have hself : RepairSystem.stage { s₁ with ready := rest } i ≤ 4 := by
          simp only [stage]
          split_ifs <;> omega
        have hsum := sum_stage_lt (a := 0) (b := 4) hi hstages (by omega)
        have hlen : s₁.sent.length = s.sent.length + 1 := by rw [hsent, List.length_append]; rfl
        have hle := hinv.length_sent_le
        change s₁.sent.length ≤ c.totalRepairTasks at hle
        rw [pending, pending]
        change 5 * (c.totalRepairTasks - s₁.sent.length) + _ < _
        omega

/-! ### Correctness -/

/-- What the scheduling of a repair is for. -/
structure Correct (c : RepairSettings) (s : RepairSystem) : Prop where
  /-- No task is sent twice, to the same or to different executers. -/
  once : (s.sent.map Prod.snd).Nodup
  /-- Only tasks of the repair are sent, and only to the executers. -/
  inside : ∀ x ∈ s.sent, x.1 < c.totalTaskExecuters ∧ x.2 < c.totalRepairTasks
  /-- What an executer has been sent is what it has acknowledged and, behind it, at most one more
  task, which is on its way to it, with it or on its way back. -/
  oneAtATime : ∀ i, Dispatch.State.entries s.sent i = Dispatch.State.entries s.acked i ++ s.held i ∧
    (s.held i).length ≤ 1
  /-- No executer is left without a task while a slot waits. -/
  noneIdle : ∀ i < c.totalTaskExecuters, s.held i = [] →
    ∀ p < scheduleQueueLen, s.tables.taskStatusQueue p ≠ .waiting
  /-- A slot is finished after its task has been acknowledged. -/
  finishedAfter : ∀ p < scheduleQueueLen, s.tables.taskStatusQueue p = .finished →
    s.tables.taskScheduleQueue p ∈ s.acked.map Prod.snd
  /-- The loop is over when all tasks have been acknowledged, and not before. -/
  overWhenAcked : s.tables.finishRepair = true ↔
    ∀ t < c.totalRepairTasks, t ∈ s.acked.map Prod.snd
  /-- Then every task has been sent, once. -/
  allSent : s.tables.finishRepair = true → (s.sent.map Prod.snd).Perm
    (List.range c.totalRepairTasks)
  /-- Then no executer is waited for any more, and the loop is left. -/
  leaves : s.tables.finishRepair = true → s.Leaves
  /-- Until then there is a step. -/
  progress : s.tables.finishRepair = false → ∃ s', Step c s s'

theorem Inv.correct (h : Inv c s) (hn : 1 ≤ c.totalTaskExecuters) : Correct c s where
  once := h.valid.nodup
  inside x hx := ⟨h.executer_lt x hx,
    lt_of_lt_of_le (h.tables.sent_lt x.2 (List.mem_map.2 ⟨x, hx, rfl⟩)) h.tables.next_le⟩
  oneAtATime i := ⟨by rw [h.single i]; exact h.valid.given i, h.length_le i⟩
  noneIdle i hi hheld := h.idle i hi (by
    change (s.held i).head? = none
    rw [hheld]
    rfl)
  finishedAfter p hp hst := (h.tables.finished p hp hst).1
  overWhenAcked := h.finishRepair_iff
  allSent hfin := by
    have hall := h.finishRepair_iff.1 hfin
    refine (List.perm_ext_iff_of_nodup h.valid.nodup List.nodup_range).2 fun t => ?_
    rw [List.mem_range]
    constructor
    · exact fun ht => lt_of_lt_of_le (h.tables.sent_lt t ht) h.tables.next_le
    · exact fun ht => h.valid.mem_tasks_iff.2 (Or.inl (hall t ht))
  leaves hfin := by
    refine ⟨List.eq_nil_iff_forall_not_mem.2 fun i hi => ?_, hfin⟩
    obtain ⟨taskId, later, hout⟩ := List.exists_cons_of_ne_nil (h.arrived i hi)
    obtain ⟨-, p, hp, -, hst⟩ := h.tables.held i taskId (h.of_outbox hout).2.2.2
    rw [TaskTables.finishRepair_iff.1 hfin p hp] at hst
    cases hst
  progress := h.progress hn

/-- For at least sixteen tasks and up to six executers the scheduling is correct in every system
that can come about, whatever the order of the acknowledgements, and every step leads towards its
end. -/
theorem schedule_correct (c : RepairSettings) (htotal : 16 ≤ c.totalRepairTasks)
    (hn : 1 ≤ c.totalTaskExecuters) (hn' : c.totalTaskExecuters ≤ 6) (s : RepairSystem)
    (h : Reachable c s) : Correct c s ∧ ∀ s', Step c s s' → pending c s' < pending c s := by
  have hinv := h.inv htotal (by omega)
  exact ⟨hinv.correct hn, fun s' hs => hs.pending_lt hinv⟩

/-- Twenty tasks for three executers: the second executer acknowledges its task before the first
does, and both have been sent another one. -/
theorem schedule_correct_acked :
    let c : RepairSettings := ⟨0, 4, 20, 3, "/dev/sdb"⟩
    ∃ s, Reachable c s ∧ s.acked = [(1, 1), (0, 0)] ∧
      s.sent = [(0, 0), (1, 1), (2, 2), (1, 3), (0, 16)] ∧
      Correct c s ∧ ∀ s', Step c s s' → pending c s' < pending c s := by
  intro c
  have hsecond := Reachable.initial (c := c)
    |>.step (.receive (i := 1) rfl rfl)
    |>.step (.finish (i := 1) rfl)
    |>.step (.select (l := [1]) rfl rfl (by decide) (by decide) (by decide))
    |>.step (.allocate (i := 1) rfl rfl)
  have hfirst := hsecond
    |>.step (.receive (i := 0) rfl rfl)
    |>.step (.finish (i := 0) rfl)
    |>.step (.select (l := [0]) rfl rfl (by decide) (by decide) (by decide))
    |>.step (.allocate (i := 0) rfl rfl)
  exact ⟨_, hfirst, rfl, rfl, schedule_correct c (by decide) (by decide) (by decide) _ hfirst⟩

end RepairSystem

end Ncfs
