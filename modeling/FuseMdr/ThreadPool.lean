/-
**The thread pool of the cache.**

Fetching a region into a buffer and writing it back are jobs for the threads of a pool.  Whoever
issues a job locks the buffer, and the thread that has done the job unlocks it.  The threads take
the jobs from a queue, and wait on a condition where it is empty.  `fetchOneJob` wraps this in a
`do ... while(0)`, so that its `continue` leaves the loop: a thread that is woken up and finds the
queue empty goes on with the job it had before.

The system is a machine over the queue, the threads and the locks, whose actions are what one
thread or one caller does between two points at which others can interfere.  Reads and writes of
a buffer lock it and unlock it again, and leave nothing behind here.  What the jobs do to the
buffers is not modelled: the buffers of a cache share a file, and read its pages when they are
first needed and outside of the queue, so that the order of the jobs does not determine it.

Main definitions:

* `Ncfs.ThreadPool` — the queue, the threads, the locks, and what has happened so far;
* `Ncfs.startThreadPool` — a new pool, for whose threads there are four entries;
* `Ncfs.PoolAction`, `Ncfs.ThreadPool.Enabled`, `Ncfs.ThreadPool.step` — what can happen;
* `Ncfs.ThreadPool.Serial` — every job is done once, and its buffer is locked until then;
* `Ncfs.PoolAction.EmptyWake` — a thread is woken up for nothing.

Main results:

* `Ncfs.ThreadPool.Serial.step` — the steps;
* `Ncfs.ThreadPool.Serial.exclusive` — no two threads process jobs of one buffer;
* `Ncfs.ThreadPool.serial_iff` — **every interleaving**: the jobs are done once and in order until
  a thread is woken up for nothing;
* `Ncfs.ThreadPool.serial_of_all_iff` — pools of one thread, and no others, never get there by
  themselves.
-/
import FuseMdr.Machine
import FuseMdr.NcfsState

set_option relaxedAutoImplicit false
set_option autoImplicit false

namespace Ncfs

/-! ### The jobs -/

/-- `BufferJobType`. -/
inductive BufferJobType where
  | prefetch
  | writeback
  | fetch
deriving DecidableEq, Repr

/-- `CacheThreadPool::JobItem`. -/
structure JobItem where
  targetBuffer : ℕ
  job : BufferJobType
  offset : ℤ
deriving DecidableEq, Repr

/-! ### The pool -/

/-- Where a thread is in `threadFunction`, which calls `fetchOneJob`. -/
inductive ThreadPc where
  /-- It is about to lock `queueLock_`. -/
  | start
  /-- It holds the lock in front of the first test of the queue. -/
  | testing
  /-- It holds the lock, and is about to wait. -/
  | willWait
  /-- It waits, without the lock. -/
  | waiting
  /-- It has been woken up, and needs the lock. -/
  | woken
  /-- It holds the lock in front of the second test. -/
  | deciding
  /-- It processes its job. -/
  | processing
  /-- It has returned. -/
  | returned
deriving DecidableEq, Repr

/-- The thread holds `queueLock_`. -/
def ThreadPc.Holds (pc : ThreadPc) : Prop := pc = .testing ∨ pc = .willWait ∨ pc = .deciding

/-- The pool and its callers.  The last four fields are a record of what has happened. -/
structure ThreadPool where
  /-- `jobQueue_`. -/
  jobQueue : List JobItem
  /-- The thread that holds `queueLock_` between two actions. -/
  queueLock : Option ℕ
  /-- `ended_`. -/
  ended : Bool
  /-- Where the threads are. -/
  pc : ℕ → ThreadPc
  /-- The variable `job` of `threadFunction`, which lives as long as the thread. -/
  job : ℕ → JobItem
  /-- `bufferLock_` of a buffer is locked. -/
  bufferLock : ℕ → Bool
  /-- The calls that have locked their buffer, and have not called `addJob` yet. -/
  issuing : Multiset JobItem
  /-- The jobs for which a buffer has been locked. -/
  issued : Multiset JobItem
  /-- The jobs that have been added. -/
  added : List JobItem
  /-- The jobs that threads have started. -/
  started : List JobItem
  /-- The jobs that threads have done. -/
  done : Multiset JobItem

/-- `CACHE_THREADPOOL_DEFAULT_NUM`. -/
def cacheThreadpoolDefaultNum : ℕ := 4

/-- `numOfThread_`, from the configuration. -/
def numOfThread (configured : ℤ) : ℕ :=
  if configured < 0 then cacheThreadpoolDefaultNum else configured.toNat

/-- The entries of `tid_`. -/
def tidEntries : ℕ := 4

/-- `startThreadPool`.  The variables of the threads have not been set.  With more threads than
entries the loop writes behind `tid_`. -/
def startThreadPool (n : ℕ) (job : ℕ → JobItem) : Except CodingError ThreadPool :=
  if n ≤ tidEntries then
    .ok {
      jobQueue := []
      queueLock := none
      ended := false
      pc := fun _ => .start
      job := job
      bufferLock := fun _ => false
      issuing := 0
      issued := 0
      added := []
      started := []
      done := 0 }
  else .error .undefined

/-- What one thread or one caller does. -/
inductive PoolAction where
  /-- A thread locks `queueLock_`, at the start or behind the wait. -/
  | lockQueue (t : ℕ)
  /-- It tests the queue and `ended_`. -/
  | test (t : ℕ)
  /-- `pthread_cond_wait` unlocks `queueLock_`. -/
  | wait (t : ℕ)
  /-- A thread wakes up although nobody has called it. -/
  | spurious (t : ℕ)
  /-- The second test: the thread takes a job, or returns; it unlocks `queueLock_`. -/
  | take (t : ℕ)
  /-- The job is done by `processJob`, and its buffer is unlocked. -/
  | process (t : ℕ)
  /-- `writeBack`, `prefetch` or `fetch` of a buffer locks it. -/
  | lockBuffer (item : JobItem)
  /-- `addJob`, which wakes up a thread that waits. -/
  | addJob (item : JobItem) (signalled : Option ℕ)
  /-- The destructor sets `ended_`. -/
  | setEnded
  /-- The destructor wakes up all threads that wait. -/
  | broadcast

/-- A thread is woken up and finds nothing to do. -/
def PoolAction.EmptyWake (s : ThreadPool) : PoolAction → Prop
  | .take _ => s.jobQueue = [] ∧ s.ended = false
  | _ => False

namespace ThreadPool

/-- `pthread_cond_signal` wakes up a thread, if one waits. -/
def Signals (n : ℕ) (s : ThreadPool) : Option ℕ → Prop
  | some t => t < n ∧ s.pc t = .waiting
  | none => ∀ t < n, s.pc t ≠ .waiting

/-- The action can be taken, in a pool of `n` threads. -/
def Enabled (n : ℕ) (s : ThreadPool) : PoolAction → Prop
  | .lockQueue t => t < n ∧ (s.pc t = .start ∨ s.pc t = .woken) ∧ s.queueLock = none
  | .test t => t < n ∧ s.pc t = .testing
  | .wait t => t < n ∧ s.pc t = .willWait
  | .spurious t => t < n ∧ s.pc t = .waiting
  | .take t => t < n ∧ s.pc t = .deciding
  | .process t => t < n ∧ s.pc t = .processing
  | .lockBuffer item => s.bufferLock item.targetBuffer = false
  | .addJob item signalled => item ∈ s.issuing ∧ s.queueLock = none ∧ s.Signals n signalled
  | .setEnded => True
  | .broadcast => s.ended = true

/-- The second test of `fetchOneJob`.  Where the queue is empty and `ended_` is not set, `continue`
leaves the loop, and `true` is returned. -/
def takeJob (s : ThreadPool) (t : ℕ) : ThreadPool :=
  match s.jobQueue with
  | [] =>
      if s.ended then { s with queueLock := none, pc := Function.update s.pc t .returned }
      else
        { s with
          queueLock := none
          pc := Function.update s.pc t .processing
          started := s.started ++ [s.job t] }
  | item :: jobQueue =>
      { s with
        jobQueue := jobQueue
        queueLock := none
        pc := Function.update s.pc t .processing
        job := Function.update s.job t item
        started := s.started ++ [item] }

/-- One action. -/
def step (s : ThreadPool) : PoolAction → ThreadPool
  | .lockQueue t =>
      { s with
        queueLock := some t
        pc := Function.update s.pc t (if s.pc t = .start then .testing else .deciding) }
  | .test t =>
      { s with
        pc := Function.update s.pc t
          (if s.jobQueue = [] ∧ s.ended = false then .willWait else .deciding) }
  | .wait t => { s with queueLock := none, pc := Function.update s.pc t .waiting }
  | .spurious t => { s with pc := Function.update s.pc t .woken }
  | .take t => s.takeJob t
  | .process t =>
      { s with
        pc := Function.update s.pc t .start
        bufferLock := Function.update s.bufferLock (s.job t).targetBuffer false
        done := s.job t ::ₘ s.done }
  | .lockBuffer item =>
      { s with
        bufferLock := Function.update s.bufferLock item.targetBuffer true
        issuing := item ::ₘ s.issuing
        issued := item ::ₘ s.issued }
  | .addJob item signalled =>
      { s with
        jobQueue := s.jobQueue ++ [item]
        pc := fun t => if signalled = some t then .woken else s.pc t
        issuing := s.issuing.erase item
        added := s.added ++ [item] }
  | .setEnded => { s with ended := true }
  | .broadcast => { s with pc := fun t => if s.pc t = .waiting then .woken else s.pc t }

/-! ### The jobs in flight -/

/-- The jobs that the threads process. -/
def running (n : ℕ) (pc : ℕ → ThreadPc) (job : ℕ → JobItem) : Multiset JobItem :=
  ((Finset.range n).filter fun t => pc t = .processing).val.map job

/-- The jobs that have been issued and are not done. -/
def inFlight (n : ℕ) (s : ThreadPool) : Multiset JobItem :=
  s.issuing + s.jobQueue + running n s.pc s.job

/-- Every job is started once, in the order in which the jobs have been added; each job that has
been issued is in flight or done; no buffer has two jobs in flight; and exactly the buffers that
have one are locked, so that `waitJob` waits for it. -/
structure Serial (n : ℕ) (s : ThreadPool) : Prop where
  once : s.started ++ s.jobQueue = s.added
  accounted : s.issued = s.inFlight n + s.done
  nodup : ((s.inFlight n).map JobItem.targetBuffer).Nodup
  locked_iff : ∀ b, s.bufferLock b = true ↔ b ∈ (s.inFlight n).map JobItem.targetBuffer

section Running

variable {n t : ℕ} {pc pc' : ℕ → ThreadPc} {job : ℕ → JobItem} {item : JobItem}

theorem running_congr (h : ∀ t, pc' t = .processing ↔ pc t = .processing) :
    running n pc' job = running n pc job := by
  simp only [running, h]

/-- A thread that did not process a job gets one. -/
theorem running_update (ht : t < n) (hpc : pc t ≠ .processing) (item : JobItem) :
    running n (Function.update pc t .processing) (Function.update job t item) =
      item ::ₘ running n pc job := by
  have hset : (Finset.range n).filter (fun i => Function.update pc t .processing i = .processing) =
      insert t ((Finset.range n).filter fun i => pc i = .processing) := by
    ext i
    by_cases hi : i = t
    · subst hi
      simp [ht]
    · simp [hi]
  have hnot : t ∉ (Finset.range n).filter fun i => pc i = .processing := by simp [hpc]
  rw [running, hset, Finset.insert_val_of_notMem hnot, Multiset.map_cons, Function.update_self,
    running]
  refine congrArg (item ::ₘ ·) (Multiset.map_congr rfl fun i hi => Function.update_of_ne ?_ ..)
  rintro rfl
  exact hnot hi

/-- A thread has processed its job. -/
theorem running_finish (ht : t < n) (hpc : pc t = .processing) :
    running n pc job = job t ::ₘ running n (Function.update pc t .start) job := by
  have hne : Function.update pc t .start t ≠ .processing := by simp
  have h : running n _ (Function.update job t (job t)) = job t ::ₘ running n _ job :=
    running_update ht hne (job t)
  rwa [Function.update_idem, Function.update_eq_self, ← hpc, Function.update_eq_self] at h

/-- A thread that does not process a job goes somewhere else. -/
theorem running_move (hpc : pc t ≠ .processing) {x : ThreadPc} (hx : x ≠ .processing) :
    running n (Function.update pc t x) job = running n pc job := by
  refine running_congr fun i => ?_
  by_cases hi : i = t
  · subst hi
    simp [hpc, hx]
  · simp [hi]

end Running

/-! ### The steps -/

section Steps

variable {n : ℕ} {s s' : ThreadPool} {a : PoolAction}

/-- The pool of a start. -/
theorem startThreadPool_eq {job : ℕ → JobItem} (hs : startThreadPool n job = .ok s) :
    n ≤ tidEntries ∧ s = ⟨[], none, false, fun _ => .start, job, fun _ => false, 0, 0, [],
      [], 0⟩ := by
  rw [startThreadPool] at hs
  split at hs
  · exact ⟨‹_›, (Except.ok.inj hs).symm⟩
  · cases hs

theorem serial_start {job : ℕ → JobItem} (hs : startThreadPool n job = .ok s) : Serial n s := by
  obtain ⟨-, rfl⟩ := startThreadPool_eq hs
  constructor <;> simp [inFlight, running]

/-- What the property is about: the record, the jobs in flight and the locks. -/
theorem Serial.congr (h : Serial n s) (honce : s'.started ++ s'.jobQueue = s'.added)
    (hflight : s'.inFlight n = s.inFlight n) (hissued : s'.issued = s.issued)
    (hdone : s'.done = s.done) (hlock : s'.bufferLock = s.bufferLock) : Serial n s' := by
  refine ⟨honce, ?_, ?_, fun b => ?_⟩
  · rw [hissued, hflight, hdone, h.accounted]
  · rw [hflight]
    exact h.nodup
  · rw [hflight, hlock, h.locked_iff]

/-- A buffer that is not locked has no job. -/
theorem Serial.idle (h : Serial n s) {b : ℕ} (hb : s.bufferLock b = false) :
    b ∉ (s.inFlight n).map JobItem.targetBuffer := by
  rw [← h.locked_iff, hb]
  exact Bool.false_ne_true

/-- A thread goes on without a job. -/
theorem Serial.move (h : Serial n s) {t : ℕ} {x : ThreadPc} (hpc : s.pc t ≠ .processing)
    (hx : x ≠ .processing) (queueLock : Option ℕ) :
    Serial n { s with queueLock := queueLock, pc := Function.update s.pc t x } := by
  refine h.congr h.once ?_ rfl rfl rfl
  rw [inFlight, inFlight, running_move hpc hx]

/-! The second test, branch by branch. -/

theorem takeJob_of_ended {t : ℕ} (hqueue : s.jobQueue = []) (hended : s.ended = true) :
    s.takeJob t = { s with queueLock := none, pc := Function.update s.pc t .returned } := by
  simp [takeJob, hqueue, hended]

theorem takeJob_of_running {t : ℕ} (hqueue : s.jobQueue = []) (hended : s.ended = false) :
    s.takeJob t = { s with
      queueLock := none
      pc := Function.update s.pc t .processing
      started := s.started ++ [s.job t] } := by
  simp [takeJob, hqueue, hended]

theorem takeJob_cons {t : ℕ} {item : JobItem} {jobQueue : List JobItem}
    (hqueue : s.jobQueue = item :: jobQueue) :
    s.takeJob t = { s with
      jobQueue := jobQueue
      queueLock := none
      pc := Function.update s.pc t .processing
      job := Function.update s.job t item
      started := s.started ++ [item] } := by
  simp [takeJob, hqueue]

/-- A thread takes a job, or returns. -/
theorem Serial.takeJob (h : Serial n s) {t : ℕ} (ht : t < n) (hpc : s.pc t = .deciding)
    (hwake : ¬ (s.jobQueue = [] ∧ s.ended = false)) : Serial n (s.takeJob t) := by
  have hne : s.pc t ≠ .processing := by simp [hpc]
  cases hqueue : s.jobQueue with
  | nil =>
      rw [takeJob_of_ended hqueue (by simpa [hqueue] using hwake)]
      exact h.move hne (by decide) none
  | cons item jobQueue =>
      rw [takeJob_cons hqueue]
      refine h.congr ?_ ?_ rfl rfl rfl
      · rw [← h.once, hqueue]
        simp
      · rw [inFlight, inFlight, running_update ht hne, hqueue, ← Multiset.cons_coe,
          Multiset.add_cons, Multiset.add_cons, Multiset.cons_add]

/-- A thread does its job. -/
theorem Serial.process (h : Serial n s) {t : ℕ} (ht : t < n) (hpc : s.pc t = .processing) :
    Serial n (s.step (.process t)) := by
  have hflight : s.inFlight n = s.job t ::ₘ (s.step (.process t)).inFlight n := by
    rw [inFlight, inFlight, running_finish ht hpc, Multiset.add_cons]
    rfl
  have hnodup := h.nodup
  rw [hflight, Multiset.map_cons, Multiset.nodup_cons] at hnodup
  refine ⟨h.once, ?_, hnodup.2, fun b => ?_⟩
  · calc s.issued = s.job t ::ₘ (s.step (.process t)).inFlight n + s.done := by
          rw [h.accounted, hflight]
      _ = (s.step (.process t)).inFlight n + s.job t ::ₘ s.done := by
          rw [Multiset.cons_add, Multiset.add_cons]
  · by_cases hb : b = (s.job t).targetBuffer
    · subst hb
      simp only [step, Function.update_self, Bool.false_eq_true, false_iff]
      exact hnodup.1
    · simp only [step, Function.update_of_ne hb, h.locked_iff, hflight, Multiset.map_cons,
        Multiset.mem_cons, hb, false_or]

/-- A caller locks a buffer. -/
theorem Serial.lockBuffer (h : Serial n s) {item : JobItem}
    (hfree : s.bufferLock item.targetBuffer = false) : Serial n (s.step (.lockBuffer item)) := by
  have hflight : (s.step (.lockBuffer item)).inFlight n = item ::ₘ s.inFlight n := by
    rw [inFlight, inFlight, step, Multiset.cons_add, Multiset.cons_add]
  refine ⟨h.once, ?_, ?_, fun b => ?_⟩
  · rw [hflight, Multiset.cons_add, step, h.accounted]
  · rw [hflight, Multiset.map_cons, Multiset.nodup_cons]
    exact ⟨h.idle hfree, h.nodup⟩
  · rw [hflight, Multiset.map_cons, Multiset.mem_cons]
    by_cases hb : b = item.targetBuffer
    · simp [step, hb]
    · simp [step, hb, h.locked_iff]

/-- The job of a caller is added to the queue. -/
theorem Serial.addJob (h : Serial n s) {item : JobItem} {signalled : Option ℕ}
    (hitem : item ∈ s.issuing) (hsignals : s.Signals n signalled) :
    Serial n (s.step (.addJob item signalled)) := by
  have hpc : ∀ t, (if signalled = some t then .woken else s.pc t) = ThreadPc.processing ↔
      s.pc t = .processing := by
    intro t
    by_cases ht : signalled = some t
    · subst ht
      simp [hsignals.2]
    · rw [if_neg ht]
  refine h.congr ?_ ?_ rfl rfl rfl
  · rw [step, ← h.once, List.append_assoc]
  · calc (s.step (.addJob item signalled)).inFlight n
        = s.issuing.erase item + ↑(s.jobQueue ++ [item]) + running n s.pc s.job := by
          rw [inFlight, step, running_congr hpc]
      _ = item ::ₘ s.issuing.erase item + ↑s.jobQueue + running n s.pc s.job := by
          rw [← Multiset.coe_add, Multiset.coe_singleton, ← Multiset.singleton_add]
          ac_rfl
      _ = s.inFlight n := by rw [Multiset.cons_erase hitem, inFlight]

/-- Every step, but for a thread that is woken up for nothing. -/
theorem Serial.step (h : Serial n s) (ha : s.Enabled n a) (hwake : ¬ a.EmptyWake s) :
    Serial n (s.step a) := by
  cases a with
  | lockQueue t =>
      have hne : s.pc t ≠ .processing := by rcases ha.2.1 with hpc | hpc <;> simp [hpc]
      exact h.move hne (by split <;> decide) (some t)
  | test t => exact h.move (by simp [ha.2]) (by split <;> decide) s.queueLock
  | wait t => exact h.move (by simp [ha.2]) (by decide) none
  | spurious t => exact h.move (by simp [ha.2]) (by decide) s.queueLock
  | take t => exact h.takeJob ha.1 ha.2 hwake
  | process t => exact h.process ha.1 ha.2
  | lockBuffer item => exact h.lockBuffer ha
  | addJob item signalled => exact h.addJob ha.1 ha.2.2
  | setEnded => exact h.congr h.once rfl rfl rfl rfl
  | broadcast =>
      refine h.congr h.once ?_ rfl rfl rfl
      rw [inFlight, inFlight, ThreadPool.step, running_congr fun t => ?_]
      by_cases ht : s.pc t = .waiting <;> simp [ht]

/-- Two threads never process jobs of one buffer. -/
theorem Serial.exclusive (h : Serial n s) {t t' : ℕ} (ht : t < n) (ht' : t' < n)
    (hpc : s.pc t = .processing) (hpc' : s.pc t' = .processing) (hne : t ≠ t') :
    (s.job t).targetBuffer ≠ (s.job t').targetBuffer := by
  intro hsame
  have hnodup := h.nodup
  rw [inFlight, Multiset.map_add, Multiset.nodup_add, running, Multiset.map_map] at hnodup
  refine hne (Multiset.inj_on_of_nodup_map hnodup.2.1 t ?_ t' ?_ hsame)
  · simp [ht, hpc]
  · simp [ht', hpc']

/-- A thread that is woken up for nothing starts a job that was not in the queue. -/
theorem not_serial_of_emptyWake (h : s.Serial n) (hwake : a.EmptyWake s) :
    ¬ (s.step a).Serial n := by
  cases a with
  | take t =>
      obtain ⟨hqueue, hended⟩ := hwake
      intro h'
      have honce := h.once
      have honce' := h'.once
      rw [hqueue, List.append_nil] at honce
      simp only [ThreadPool.step, takeJob_of_running hqueue hended, hqueue, honce, List.append_nil]
        at honce'
      exact absurd (congrArg List.length honce') (by simp)
  | _ => exact hwake.elim

/-- From any state with the property. -/
theorem Serial.always_iff (h : Serial n s) {l : List PoolAction}
    (hl : Machine.AllSteps ThreadPool.step (Enabled n) s l) :
    Machine.Always ThreadPool.step (Serial n) s l ↔
      Machine.AllSteps ThreadPool.step (fun s a => ¬ a.EmptyWake s) s l :=
  Machine.always_iff_allSteps_of_invariant (I := Serial n) (P := Serial n) (fun _ h => h)
    (fun _ _ ha h hwake => h.step ha hwake)
    (fun _ _ _ h hserial hwake => not_serial_of_emptyWake h hwake hserial) h hl

end Steps

section Runs

variable {n : ℕ} {job : ℕ → JobItem} {s : ThreadPool}

/-- **Every interleaving of threads and callers.**  For every number of threads for which
`startThreadPool` has entries: all jobs are started once and in order, each is in flight or done,
and a buffer is locked exactly as long as it has a job in flight, and never has two, in every state
of a run, exactly if no thread in it is woken up for nothing. -/
theorem serial_iff (hs : startThreadPool n job = .ok s) {l : List PoolAction}
    (hl : Machine.AllSteps step (Enabled n) s l) :
    Machine.Always step (Serial n) s l ↔
      Machine.AllSteps step (fun s a => ¬ a.EmptyWake s) s l :=
  (serial_start hs).always_iff hl

/-- A job is added while a thread waits, and taken by another one before that has got the lock. -/
def stolenWake (item : JobItem) : List PoolAction :=
  [.lockQueue 0, .test 0, .wait 0, .lockBuffer item, .addJob item (some 0), .lockQueue 1, .test 1,
    .take 1, .lockQueue 0, .take 0]

/-- Two threads come to that by themselves. -/
theorem allSteps_stolenWake (hs : startThreadPool n job = .ok s) (hn : 2 ≤ n) (item : JobItem) :
    Machine.AllSteps step (fun s a => s.Enabled n a ∧ ∀ t, a ≠ .spurious t) s
      (stolenWake item) := by
  obtain ⟨-, rfl⟩ := startThreadPool_eq hs
  have hzero : 0 < n := by omega
  have hone : 1 < n := by omega
  simp [stolenWake, Machine.AllSteps, Enabled, Signals, step, takeJob, hzero, hone]

theorem not_always_stolenWake (hs : startThreadPool n job = .ok s) (hn : 2 ≤ n) (item : JobItem) :
    ¬ Machine.Always step (Serial n) s (stolenWake item) := by
  have henabled : Machine.AllSteps step (Enabled n) s (stolenWake item) :=
    (allSteps_stolenWake hs hn item).imp (I := fun _ => True) (fun _ _ _ _ => trivial)
      (fun _ _ _ h => h.1) trivial
  rw [(serial_start hs).always_iff henabled]
  obtain ⟨-, rfl⟩ := startThreadPool_eq hs
  simp [stolenWake, Machine.AllSteps, PoolAction.EmptyWake, step, takeJob]

/-- Four threads: one that has been woken up for a job finds that another one has taken it. -/
theorem serial_iff_four : ∃ s, startThreadPool 4 (fun _ => ⟨1, .writeback, 0⟩) = .ok s ∧
    ¬ Machine.Always step (Serial 4) s (stolenWake ⟨0, .fetch, 0⟩) := by
  refine ⟨_, rfl, ?_⟩
  have henabled := (@allSteps_stolenWake 4 (fun _ => ⟨1, .writeback, 0⟩) _ rfl
    (by decide) ⟨0, .fetch, 0⟩).imp (D := Enabled 4) (I := fun _ => True) (fun _ _ _ _ => trivial)
      (fun _ _ _ h => h.1) trivial
  rw [serial_iff rfl henabled]
  simp [stolenWake, Machine.AllSteps, PoolAction.EmptyWake, step, takeJob]

end Runs

/-! ### One thread -/

/-- A thread behind the wait finds a job, until the pool ends. -/
def Called (n : ℕ) (s : ThreadPool) : Prop :=
  ∀ t < n, s.ended = false → s.pc t = .woken ∨ s.pc t = .deciding → s.jobQueue ≠ []

/-- Nobody takes the job from the only thread. -/
theorem Called.step {n : ℕ} {s : ThreadPool} {a : PoolAction} (hn : n ≤ 1) (h : s.Called n)
    (ha : s.Enabled n a) (hspurious : ∀ t, a ≠ .spurious t) : (s.step a).Called n := by
  intro t ht hended hpc
  have honly : ∀ {t'}, t' < n → t = t' := fun ht' => by omega
  cases a with
  | lockQueue t' =>
      obtain rfl := honly ha.1
      rcases ha.2.1 with hstart | hwoken
      · simp [ThreadPool.step, hstart] at hpc
      · exact h t ht hended (.inl hwoken)
  | test t' =>
      obtain rfl := honly ha.1
      intro hqueue
      have hqueue : s.jobQueue = [] := hqueue
      have hended : s.ended = false := hended
      simp [ThreadPool.step, hqueue, hended] at hpc
  | wait t' =>
      obtain rfl := honly ha.1
      simp [ThreadPool.step] at hpc
  | spurious t' => exact absurd rfl (hspurious t')
  | take t' =>
      obtain rfl := honly ha.1
      have hleft : (s.takeJob t).pc t = .returned ∨ (s.takeJob t).pc t = .processing := by
        cases hqueue : s.jobQueue with
        | nil =>
            cases hended : s.ended with
            | true => simp [takeJob_of_ended hqueue hended]
            | false => simp [takeJob_of_running hqueue hended]
        | cons item jobQueue => simp [takeJob_cons hqueue]
      have hpc : (s.takeJob t).pc t = .woken ∨ (s.takeJob t).pc t = .deciding := hpc
      rcases hleft with hleft | hleft <;> simp [hleft] at hpc
  | process t' =>
      obtain rfl := honly ha.1
      simp [ThreadPool.step] at hpc
  | lockBuffer item => exact h t ht hended hpc
  | addJob item signalled => exact List.append_ne_nil_of_right_ne_nil _ (List.cons_ne_nil item [])
  | setEnded => cases hended
  | broadcast => cases ha.symm.trans hended

/-- **The size of a pool.**  Without wake-ups that nobody has caused, every run of a pool of up to
four threads does each of its jobs once, and in order, exactly if the pool has at most one
thread. -/
theorem serial_of_all_iff {n : ℕ} {job : ℕ → JobItem} {s : ThreadPool}
    (hs : startThreadPool n job = .ok s) :
    (∀ l, Machine.AllSteps step (fun s a => s.Enabled n a ∧ ∀ t, a ≠ .spurious t) s l →
      Machine.Always step (Serial n) s l) ↔ n ≤ 1 := by
  constructor
  · intro h
    by_contra hn
    have hn : 2 ≤ n := by omega
    exact not_always_stolenWake hs hn _ (h _ (allSteps_stolenWake hs hn ⟨0, .fetch, 0⟩))
  · intro hn l hl
    have hstart : s.Called n := by
      obtain ⟨-, rfl⟩ := startThreadPool_eq hs
      exact fun t _ _ hpc => by simp at hpc
    have henabled := hl.imp (D := Enabled n) (I := fun _ => True) (fun _ _ _ _ => trivial)
      (fun _ _ _ h => h.1) trivial
    refine ((serial_start hs).always_iff henabled).2 ?_
    refine hl.imp (fun s a h ha => h.step hn ha.1 ha.2) (fun s a h ha hwake => ?_) hstart
    cases a with
    | take t => exact h t ha.1.1 hwake.2 (.inr ha.1.2) hwake.1
    | _ => exact hwake.elim

/-- Pools of one thread and of four, as many as by default. -/
theorem serial_of_all_iff_one :
    (∃ s, startThreadPool 1 (fun _ => ⟨1, .writeback, 0⟩) = .ok s ∧
      ∀ l, Machine.AllSteps step (fun s a => s.Enabled 1 a ∧ ∀ t, a ≠ .spurious t) s l →
        Machine.Always step (Serial 1) s l) ∧
      ∃ s, startThreadPool (numOfThread (-1)) (fun _ => ⟨1, .writeback, 0⟩) = .ok s ∧
        ¬ ∀ l, Machine.AllSteps step (fun s a => s.Enabled 4 a ∧ ∀ t, a ≠ .spurious t) s l →
          Machine.Always step (Serial 4) s l :=
  ⟨⟨_, rfl, (serial_of_all_iff rfl).2 le_rfl⟩,
    ⟨_, rfl, fun h => absurd ((serial_of_all_iff rfl).1 h) (by decide)⟩⟩

end ThreadPool

end Ncfs
