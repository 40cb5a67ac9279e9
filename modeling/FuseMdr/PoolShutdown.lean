/-
**The end of the thread pool.**

The destructor sets `ended_`, wakes up the threads that wait, and joins them all.  It does not lock
the queue for that.  A thread that has found the queue empty and `ended_` not set, and has not begun
to wait, is not woken up: it waits after the destructor has called, and is never joined.

Main definitions:

* `Ncfs.ThreadPool.Locks` — whoever is between locking and unlocking holds the lock;
* `Ncfs.ThreadPool.Finished` — a thread returns when there is nothing left to do;
* `Ncfs.PoolAction.OfPool`, `Ncfs.ThreadPool.Stuck` — what the threads do by themselves, and when
  they cannot go on;
* `Ncfs.ThreadPool.work` — the steps that are left.

Main results:

* `Ncfs.ThreadPool.work_step` — a pool that has ended gets nearer to its end;
* `Ncfs.ThreadPool.Stuck.cases` — a thread that cannot go on waits, or has returned;
* `Ncfs.ThreadPool.shutdown_iff` — all threads are joined, exactly if none is between its test and
  its wait.
-/
import FuseMdr.ThreadPool

set_option relaxedAutoImplicit false
set_option autoImplicit false

namespace Ncfs

/-! ### The lock of the queue -/

namespace ThreadPool

variable {n t : ℕ} {s : ThreadPool} {a : PoolAction}

/-- Exactly the thread that is between locking and unlocking holds the lock. -/
structure Locks (n : ℕ) (queueLock : Option ℕ) (pc : ℕ → ThreadPc) : Prop where
  lt : ∀ t, queueLock = some t → t < n
  holds_iff : ∀ t < n, queueLock = some t ↔ (pc t).Holds

section Locks

variable {queueLock : Option ℕ} {pc pc' : ℕ → ThreadPc} {x : ThreadPc}

theorem Locks.congr (h : Locks n queueLock pc) (hpc : ∀ t < n, (pc' t).Holds ↔ (pc t).Holds) :
    Locks n queueLock pc' :=
  ⟨h.lt, fun t ht => (h.holds_iff t ht).trans (hpc t ht).symm⟩

/-- A thread goes on, with or without the lock. -/
theorem Locks.move (h : Locks n queueLock pc) (hx : x.Holds ↔ (pc t).Holds) :
    Locks n queueLock (Function.update pc t x) := by
  refine h.congr fun i _ => ?_
  by_cases hi : i = t
  · subst hi
    rw [Function.update_self, hx]
  · rw [Function.update_of_ne hi]

/-- A thread gets the lock. -/
theorem Locks.acquire (h : Locks n none pc) (ht : t < n) (hx : x.Holds) :
    Locks n (some t) (Function.update pc t x) := by
  refine ⟨fun i hi => Option.some.inj hi ▸ ht, fun i hi => ?_⟩
  by_cases hit : i = t
  · subst hit
    simp [hx]
  · rw [Function.update_of_ne hit, ← h.holds_iff i hi]
    simp [Ne.symm hit]

/-- A thread gives it back. -/
theorem Locks.release (h : Locks n queueLock pc) (ht : t < n) (hpc : (pc t).Holds)
    (hx : ¬ x.Holds) :
    Locks n none (Function.update pc t x) := by
  refine ⟨nofun, fun i hi => ?_⟩
  by_cases hit : i = t
  · subst hit
    simp [hx]
  · have hlock := (h.holds_iff t ht).2 hpc
    rw [Function.update_of_ne hit, ← h.holds_iff i hi, hlock]
    simp [Ne.symm hit]

end Locks

theorem locks_start {job : ℕ → JobItem} (hs : startThreadPool n job = .ok s) :
    Locks n s.queueLock s.pc := by
  obtain ⟨-, rfl⟩ := startThreadPool_eq hs
  exact ⟨nofun, fun t _ => by simp [ThreadPc.Holds]⟩

/-- Every step. -/
theorem Locks.step (h : Locks n s.queueLock s.pc) (ha : s.Enabled n a) :
    Locks n (s.step a).queueLock (s.step a).pc := by
  cases a with
  | lockQueue t =>
      obtain ⟨ht, -, hlock⟩ := ha
      rw [hlock] at h
      refine h.acquire ht ?_
      by_cases hpc : s.pc t = .start <;> simp [hpc, ThreadPc.Holds]
  | test t =>
      refine h.move ?_
      by_cases hqueue : s.jobQueue = [] ∧ s.ended = false <;> simp [hqueue, ha.2, ThreadPc.Holds]
  | wait t => exact h.release ha.1 (by simp [ha.2, ThreadPc.Holds]) (by simp [ThreadPc.Holds])
  | spurious t => exact h.move (by simp [ha.2, ThreadPc.Holds])
  | take t =>
      have hpc : (s.pc t).Holds := by simp [ha.2, ThreadPc.Holds]
      rw [ThreadPool.step]
      cases hqueue : s.jobQueue with
      | nil =>
          cases hended : s.ended with
          | true =>
              rw [takeJob_of_ended hqueue hended]
              exact h.release ha.1 hpc (by simp [ThreadPc.Holds])
          | false =>
              rw [takeJob_of_running hqueue hended]
              exact h.release ha.1 hpc (by simp [ThreadPc.Holds])
      | cons item jobQueue =>
          rw [takeJob_cons hqueue]
          exact h.release ha.1 hpc (by simp [ThreadPc.Holds])
  | process t => exact h.move (by simp [ha.2, ThreadPc.Holds])
  | lockBuffer item => exact h
  | addJob item signalled =>
      refine h.congr fun t _ => ?_
      by_cases ht : signalled = some t
      · subst ht
        simp [ThreadPool.step, ha.2.2.2, ThreadPc.Holds]
      · simp [ThreadPool.step, ht]
  | setEnded => exact h
  | broadcast =>
      refine h.congr fun t _ => ?_
      by_cases ht : s.pc t = .waiting <;> simp [ThreadPool.step, ht, ThreadPc.Holds]

/-! ### Threads that have returned -/

/-- Where a thread has returned, the pool has ended and its queue is empty. -/
def Finished (n : ℕ) (s : ThreadPool) : Prop :=
  ∀ t < n, s.pc t = .returned → s.ended = true ∧ s.jobQueue = []

theorem finished_start {job : ℕ → JobItem} (hs : startThreadPool n job = .ok s) : s.Finished n := by
  obtain ⟨-, rfl⟩ := startThreadPool_eq hs
  exact fun t _ hpc => by simp at hpc

end ThreadPool

/-- No job is added to a pool that has ended. -/
def PoolAction.InTime (s : ThreadPool) : PoolAction → Prop
  | .addJob _ _ => s.ended = false
  | _ => True

namespace ThreadPool

variable {n t : ℕ} {s : ThreadPool} {a : PoolAction}

/-- A thread that goes on has not returned. -/
theorem Finished.of_update (h : s.Finished n) {x : ThreadPc} (hx : x ≠ .returned) {i : ℕ}
    (hi : i < n) (hreturned : Function.update s.pc t x i = .returned) :
    s.ended = true ∧ s.jobQueue = [] := by
  by_cases hit : i = t
  · subst hit
    rw [Function.update_self] at hreturned
    exact absurd hreturned hx
  · rw [Function.update_of_ne hit] at hreturned
    exact h i hi hreturned

/-- Every step. -/
theorem Finished.step (h : s.Finished n) (ha : s.Enabled n a) (htime : a.InTime s) :
    (s.step a).Finished n := by
  cases a with
  | lockQueue t => exact fun i hi hreturned => h.of_update (by split <;> decide) hi hreturned
  | test t => exact fun i hi hreturned => h.of_update (by split <;> decide) hi hreturned
  | wait t => exact fun i hi hreturned => h.of_update (by decide) hi hreturned
  | spurious t => exact fun i hi hreturned => h.of_update (by decide) hi hreturned
  | take t =>
      rw [ThreadPool.step]
      cases hqueue : s.jobQueue with
      | nil =>
          cases hended : s.ended with
          | true =>
              rw [takeJob_of_ended hqueue hended]
              exact fun _ _ _ => ⟨hended, hqueue⟩
          | false =>
              rw [takeJob_of_running hqueue hended]
              exact fun i hi hreturned => h.of_update (by decide) hi hreturned
      | cons item jobQueue =>
          rw [takeJob_cons hqueue]
          intro i hi hreturned
          have hempty := (h.of_update (by decide) hi hreturned).2
          exact absurd (hqueue.symm.trans hempty) (List.cons_ne_nil item jobQueue)
  | process t => exact fun i hi hreturned => h.of_update (by decide) hi hreturned
  | lockBuffer item => exact h
  | addJob item signalled =>
      intro i hi hreturned
      have hreturned : (if signalled = some i then .woken else s.pc i) = ThreadPc.returned :=
        hreturned
      by_cases hit : signalled = some i
      · rw [if_pos hit] at hreturned
        cases hreturned
      · rw [if_neg hit] at hreturned
        exact absurd ((h i hi hreturned).1.symm.trans htime) (by decide)
  | setEnded => exact fun i hi hreturned => ⟨rfl, (h i hi hreturned).2⟩
  | broadcast =>
      intro i hi hreturned
      have hreturned : (if s.pc i = .waiting then .woken else s.pc i) = ThreadPc.returned :=
        hreturned
      by_cases hit : s.pc i = .waiting
      · rw [if_pos hit] at hreturned
        cases hreturned
      · rw [if_neg hit] at hreturned
        exact h i hi hreturned

end ThreadPool

/-! ### The way to the end -/

/-- The steps of a thread until it returns or waits, with `ended_` set and an empty queue. -/
def ThreadPc.work : ThreadPc → ℕ
  | .processing => 4
  | .start => 3
  | .testing | .woken => 2
  | .willWait | .deciding => 1
  | .waiting | .returned => 0

/-- What the threads do by themselves. -/
def PoolAction.OfPool : PoolAction → Prop
  | .lockQueue _ | .test _ | .wait _ | .take _ | .process _ => True
  | _ => False

namespace ThreadPool

variable {n t : ℕ} {s : ThreadPool} {a : PoolAction}

/-- No thread can go on by itself. -/
def Stuck (n : ℕ) (s : ThreadPool) : Prop := ∀ a : PoolAction, a.OfPool → ¬ s.Enabled n a

/-- A thread waits, or is about to. -/
def Asleep (s : ThreadPool) (t : ℕ) : Prop := s.pc t = .willWait ∨ s.pc t = .waiting

/-- A thread that cannot go on waits, or has returned. -/
theorem Stuck.cases (h : s.Stuck n) (hlocks : Locks n s.queueLock s.pc) (ht : t < n) :
    s.pc t = .waiting ∨ s.pc t = .returned := by
  have hholds : ∀ i < n, ¬ (s.pc i).Holds := by
    rintro i hi (hpc | hpc | hpc)
    · exact h (.test i) trivial ⟨hi, hpc⟩
    · exact h (.wait i) trivial ⟨hi, hpc⟩
    · exact h (.take i) trivial ⟨hi, hpc⟩
  have hlock : s.queueLock = none := by
    cases hlock : s.queueLock with
    | none => rfl
    | some i =>
        exact absurd ((hlocks.holds_iff i (hlocks.lt i hlock)).1 hlock)
          (hholds i (hlocks.lt i hlock))
  have hnot := hholds t ht
  cases hpc : s.pc t with
  | start => exact absurd ⟨ht, .inl hpc, hlock⟩ (h (.lockQueue t) trivial)
  | woken => exact absurd ⟨ht, .inr hpc, hlock⟩ (h (.lockQueue t) trivial)
  | processing => exact absurd ⟨ht, hpc⟩ (h (.process t) trivial)
  | waiting => exact .inl rfl
  | returned => exact .inr rfl
  | testing => exact absurd (.inl hpc) hnot
  | willWait => exact absurd (.inr (.inl hpc)) hnot
  | deciding => exact absurd (.inr (.inr hpc)) hnot

/-- In a pool that has ended nobody falls asleep, and nobody wakes up. -/
theorem asleep_step (hended : s.ended = true) (hpool : a.OfPool) (ha : s.Enabled n a) (i : ℕ) :
    (s.step a).Asleep i ↔ s.Asleep i := by
  have hmove : ∀ {x : ThreadPc} {t}, (x = .willWait ∨ x = .waiting ↔ s.Asleep t) →
      (Function.update s.pc t x i = .willWait ∨
        Function.update s.pc t x i = .waiting ↔ s.Asleep i) := by
    intro x t hx
    by_cases hit : i = t
    · subst hit
      rw [Function.update_self]
      exact hx
    · rw [Function.update_of_ne hit]
      rfl
  cases a with
  | lockQueue t =>
      refine hmove ?_
      rcases ha.2.1 with hpc | hpc <;> simp [hpc, Asleep]
  | test t => exact hmove (by simp [hended, ha.2, Asleep])
  | wait t => exact hmove (by simp [ha.2, Asleep])
  | take t =>
      rw [ThreadPool.step]
      cases hqueue : s.jobQueue with
      | nil =>
          rw [takeJob_of_ended hqueue hended]
          exact hmove (by simp [ha.2, Asleep])
      | cons item jobQueue =>
          rw [takeJob_cons hqueue]
          exact hmove (by simp [ha.2, Asleep])
  | process t => exact hmove (by simp [ha.2, Asleep])
  | _ => exact hpool.elim

/-- The steps that are left.  A job takes a thread back by three steps. -/
def work (n : ℕ) (s : ThreadPool) : ℕ := ∑ t ∈ Finset.range n, (s.pc t).work + 4 * s.jobQueue.length

theorem sum_work_update (pc : ℕ → ThreadPc) (ht : t < n) (x : ThreadPc) :
    ∑ i ∈ Finset.range n, (Function.update pc t x i).work + (pc t).work =
      ∑ i ∈ Finset.range n, (pc i).work + x.work := by
  have hmem := Finset.mem_range.2 ht
  have hrest : ∑ i ∈ (Finset.range n).erase t, (Function.update pc t x i).work =
      ∑ i ∈ (Finset.range n).erase t, (pc i).work :=
    Finset.sum_congr rfl fun i hi => by rw [Function.update_of_ne (Finset.ne_of_mem_erase hi)]
  rw [← Finset.add_sum_erase _ _ hmem, ← Finset.add_sum_erase _ (fun i => (pc i).work) hmem, hrest,
    Function.update_self]
  omega

/-- **A pool that has ended gets nearer to its end** with every step of a thread. -/
theorem work_step (hended : s.ended = true) (hpool : a.OfPool) (ha : s.Enabled n a) :
    (s.step a).work n < s.work n := by
  have hmove : ∀ {x : ThreadPc} {t}, t < n → x.work < (s.pc t).work →
      ∑ i ∈ Finset.range n, (Function.update s.pc t x i).work + 4 *
        s.jobQueue.length < s.work n := by
    intro x t ht hx
    have hsum := sum_work_update s.pc ht x
    rw [work]
    omega
  cases a with
  | lockQueue t =>
      refine hmove ha.1 ?_
      rcases ha.2.1 with hpc | hpc <;> simp [hpc, ThreadPc.work]
  | test t => exact hmove ha.1 (by simp [hended, ha.2, ThreadPc.work])
  | wait t => exact hmove ha.1 (by simp [ha.2, ThreadPc.work])
  | take t =>
      rw [ThreadPool.step]
      cases hqueue : s.jobQueue with
      | nil =>
          rw [takeJob_of_ended hqueue hended]
          exact hmove ha.1 (by simp [ha.2, ThreadPc.work])
      | cons item jobQueue =>
          have hsum := sum_work_update s.pc ha.1 .processing
          have hdeciding : (s.pc t).work = 1 := by rw [ha.2, ThreadPc.work]
          rw [takeJob_cons hqueue, work, work, hqueue, List.length_cons]
          dsimp only
          rw [hdeciding] at hsum
          have hprocessing : ThreadPc.processing.work = 4 := rfl
          omega
  | process t => exact hmove ha.1 (by simp [ha.2, ThreadPc.work])
  | _ => exact hpool.elim

/-! ### The destructor -/

/-- What holds at every point of a run. -/
structure Sound (n : ℕ) (s : ThreadPool) : Prop where
  locks : Locks n s.queueLock s.pc
  finished : s.Finished n

theorem Sound.step (h : s.Sound n) (ha : s.Enabled n a) (htime : a.InTime s) : (s.step a).Sound n :=
  ⟨h.locks.step ha, h.finished.step ha htime⟩

/-- The threads cannot add jobs, and do not change `ended_`. -/
theorem ended_step (hpool : a.OfPool) : (s.step a).ended = s.ended ∧ a.InTime s := by
  cases a with
  | take t =>
      refine ⟨?_, trivial⟩
      rw [ThreadPool.step, takeJob]
      split
      · split <;> rfl
      · rfl
  | lockQueue t => exact ⟨rfl, trivial⟩
  | test t => exact ⟨rfl, trivial⟩
  | wait t => exact ⟨rfl, trivial⟩
  | process t => exact ⟨rfl, trivial⟩
  | _ => exact hpool.elim

/-- **The end of a pool.**  For up to four threads, and at least one, in every run in which no job
is added to the pool that has ended: when the destructor has woken up the threads that wait, and
none wakes up by itself, the threads come to a stop, after at most four steps for each thread and
job.  Then they have all returned, so that each join returns, and nothing is left in the queue,
exactly if no thread was between its test of the queue and its wait. -/
theorem shutdown_iff (hn : 0 < n) {job : ℕ → JobItem} {pool : ThreadPool}
    (hpool : startThreadPool n job = .ok pool) {l l' : List PoolAction}
    (hl : Machine.AllSteps step (fun s a => s.Enabled n a ∧ a.InTime s) pool l)
    (hended : (Machine.run step pool l).ended = true) :
    let called := Machine.run step pool l
    let woken := called.step .broadcast
    Machine.AllSteps step (fun s a => a.OfPool ∧ s.Enabled n a) woken l' →
      l'.length ≤ 4 * n + 4 * woken.jobQueue.length ∧
      let stopped := Machine.run step woken l'
      (stopped.Stuck n → (((∀ t < n, stopped.pc t = .returned) ∧ stopped.jobQueue = []) ↔
        ∀ t < n, called.pc t ≠ .willWait)) := by
  intro called woken hl'
  have hcalled : called.Sound n :=
    hl.invariant (fun _ _ h ha => h.step ha.1 ha.2) ⟨locks_start hpool, finished_start hpool⟩
  have hwoken : woken.Sound n := hcalled.step (a := .broadcast) hended trivial
  have hpass : ∀ s a, (s.Sound n ∧ s.ended = true) ∧ (∀ t, s.Asleep t ↔ woken.Asleep t) →
      a.OfPool ∧ s.Enabled n a →
      ((step s a).Sound n ∧ (step s a).ended = true) ∧ ∀ t, (step s a).Asleep t ↔
      woken.Asleep t := by
    rintro s a ⟨⟨h, hend⟩, hasleep⟩ ⟨hpool, ha⟩
    obtain ⟨hsame, htime⟩ : (s.step a).ended = s.ended ∧ a.InTime s := ended_step hpool
    exact ⟨⟨h.step ha htime, hsame.trans hend⟩, fun t => (asleep_step hend hpool ha t).trans
      (hasleep t)⟩
  have hstart : (woken.Sound n ∧ woken.ended = true) ∧ ∀ t, woken.Asleep t ↔ woken.Asleep t :=
    ⟨⟨hwoken, hended⟩, fun _ => Iff.rfl⟩
  refine ⟨?_, fun hstuck => ?_⟩
  · have hlength := hl'.length_le (work n) hpass (fun s a h ha => work_step h.1.2 ha.1 ha.2) hstart
    have hsum : ∑ t ∈ Finset.range n, (woken.pc t).work ≤ ∑ _t ∈ Finset.range n, 4 :=
      Finset.sum_le_sum fun t _ => by cases woken.pc t <;> decide
    rw [Finset.sum_const, Finset.card_range, smul_eq_mul] at hsum
    rw [work] at hlength
    omega
  · obtain ⟨⟨hsound, -⟩, hasleep⟩ := hl'.invariant hpass hstart
    constructor
    · rintro ⟨hreturned, -⟩ t ht hpc
      -- the thread still waits
      have hwill : woken.Asleep t := .inl (by
        change (if called.pc t = .waiting then .woken else called.pc t) = ThreadPc.willWait
        rw [hpc, if_neg (by decide)])
      rcases (hasleep t).2 hwill with hstill | hstill <;> cases (hreturned t ht).symm.trans hstill
    · intro hnone
      have hreturned : ∀ t < n, (Machine.run step woken l').pc t = .returned := by
        intro t ht
        refine (hstuck.cases hsound.locks ht).resolve_left fun hwaiting => ?_
        have hwoken' : woken.Asleep t := (hasleep t).1 (.inr hwaiting)
        by_cases hpc : called.pc t = .waiting
        · have hpc' : woken.pc t = .woken := if_pos hpc
          rcases hwoken' with h | h <;> cases hpc'.symm.trans h
        · have hpc' : woken.pc t = called.pc t := if_neg hpc
          rw [Asleep, hpc'] at hwoken'
          exact hwoken'.elim (hnone t ht) hpc
      exact ⟨hreturned, (hsound.finished 0 hn (hreturned 0 hn)).2⟩

/-- A pool of two threads, of which one waits and the other has tested the queue when the destructor
calls: the second one is never joined. -/
theorem shutdown_iff_two : ∃ pool, startThreadPool 2 (fun _ => ⟨0, .fetch, 0⟩) = .ok pool ∧
    let called := Machine.run step pool [.lockQueue 1, .test 1, .wait 1, .lockQueue 0, .test 0,
      .setEnded]
    let stopped := Machine.run step (called.step .broadcast) [.wait 0, .lockQueue 1, .take 1]
    stopped.Stuck 2 ∧ stopped.pc 1 = .returned ∧
      ¬ ((∀ t < 2, stopped.pc t = .returned) ∧ stopped.jobQueue = []) := by
  refine ⟨_, rfl, ?_⟩
  intro called stopped
  have hzero : stopped.pc 0 = .waiting := by decide
  have hone : stopped.pc 1 = .returned := by decide
  have hpc : ∀ {t}, t < 2 → stopped.pc t = .waiting ∨ stopped.pc t = .returned := by
    intro t ht
    interval_cases t
    · exact .inl hzero
    · exact .inr hone
  have hstuck : stopped.Stuck 2 := by
    intro a hpool ha
    cases a with
    | lockQueue t =>
        rcases hpc ha.1 with h | h <;> rcases ha.2.1 with h' | h' <;> cases h.symm.trans h'
    | test t => rcases hpc ha.1 with h | h <;> cases h.symm.trans ha.2
    | wait t => rcases hpc ha.1 with h | h <;> cases h.symm.trans ha.2
    | take t => rcases hpc ha.1 with h | h <;> cases h.symm.trans ha.2
    | process t => rcases hpc ha.1 with h | h <;> cases h.symm.trans ha.2
    | _ => exact hpool.elim
  refine ⟨hstuck, hone, fun hall => ?_⟩
  have hl : Machine.AllSteps step (fun s a => s.Enabled 2 a ∧ a.InTime s)
      ⟨[], none, false, fun _ => .start, fun _ => ⟨0, .fetch, 0⟩, fun _ => false, 0, 0, [], [], 0⟩
      [.lockQueue 1, .test 1, .wait 1, .lockQueue 0, .test 0, .setEnded] := by
    simp [Machine.AllSteps, Enabled, PoolAction.InTime, step]
  have hl' : Machine.AllSteps step (fun s a => a.OfPool ∧ s.Enabled 2 a) (called.step .broadcast)
      [.wait 0, .lockQueue 1, .take 1] := by
    simp [Machine.AllSteps, Enabled, PoolAction.OfPool, step, called, Machine.run]
  exact (((shutdown_iff (n := 2) (by decide) rfl hl (by decide)) hl').2 hstuck).1 hall 0 (by decide)
    (by decide)

end ThreadPool

end Ncfs
