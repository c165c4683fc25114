/-
**Any interleaving of the workers.**

A pool is used by somebody who schedules tasks, by somebody who waits, by the workers, and in the end by
whoever shuts it down.  What one of them does while the pool is locked is one step, and the steps come in
any order that is possible.  Tasks are begun in the order in which they were scheduled.  The counter is
raised when a task is scheduled and lowered in a later step than the one that takes the task from the
queue, so it counts the tasks that are queued or running; who waits for it to be zero returns only when
every task is finished.  A worker leaves only when nothing is queued and nothing will be any more.

Main definitions:

* `WorkerPool.Action`, `WorkerPool.interleave?` — the events together with those who wait;
* `WorkerPool.Staffed` — workers with a task are there, and have left only after all was taken;
* `WorkerPool.load` — the steps that workers still have to make.

Main results:

* `WorkerPool.accepting_run` — tasks are accepted until shutdown;
* `WorkerPool.queue_run` — **tasks are begun in the order of scheduling, each of them once**;
* `WorkerPool.Staffed.step`, `WorkerPool.Staffed.run` — who is there;
* `WorkerPool.Consistent.exists_work`, `WorkerPool.Consistent.load_run` — workers go on until the pool is
  at rest;
* `WorkerPool.interleavings_exact` — **what holds in every interleaving**.
-/

import UniversalAlgebra.Proofs.WorkerPool

set_option autoImplicit false

namespace UniversalAlgebra.WorkerPool

variable {τ : Type} {p q : WorkerPool τ} {e : Event τ} {events : List (Event τ)}

/-! ### Kinds of steps -/

/-- Whether a task is taken from the queue. -/
def Event.isTake : Event τ → Bool
  | .take _ => true
  | _ => false

/-- Whether a worker goes on with the tasks: it takes one, or reports one as finished. -/
def Event.isWork : Event τ → Bool
  | .take _ | .finish _ => true
  | _ => false

/-! ### The order of the tasks -/

/-- The queue gives up a task from its front when one is taken, and gets one at its end. -/
theorem queue_step (h : p.step? e = some q) : ∃ begun : List τ,
    begun ++ q.queue = p.queue ++ e.scheduled?.toList ∧ begun.length = [e].countP Event.isTake := by
  cases stepped_of_step? h with
  | schedule task => exact ⟨[], rfl, rfl⟩
  | @take w task rest hqueue => exact ⟨[task], by simp [hqueue, Event.scheduled?], rfl⟩
  | finish => exact ⟨[], by simp [Event.scheduled?], rfl⟩
  | shutdown => exact ⟨[], by simp [Event.scheduled?], rfl⟩
  | leave => exact ⟨[], by simp [Event.scheduled?], rfl⟩

/-- **Tasks are begun in the order of scheduling**: each task that is taken is the next one. -/
theorem queue_run (h : p.run? events = some q) : ∃ begun : List τ,
    begun ++ q.queue = p.queue ++ events.filterMap Event.scheduled? ∧
      begun.length = events.countP Event.isTake := by
  induction events generalizing p with
  | nil =>
      cases h
      exact ⟨[], by simp, rfl⟩
  | cons e events ih =>
      obtain ⟨r, hr, h⟩ := run?_cons_eq_some.1 h
      obtain ⟨first, hfirst, hcount⟩ := queue_step hr
      obtain ⟨later, hlater, hcount'⟩ := ih h
      refine ⟨first ++ later, ?_, ?_⟩
      · rw [List.append_assoc, hlater, ← List.append_assoc, hfirst, List.append_assoc,
          List.filterMap_cons]
        cases e.scheduled? <;> rfl
      · rw [List.length_append, hcount, hcount', ← List.countP_append, List.singleton_append]

/-- A task that is finished was counted, so that the counter is never lowered below zero. -/
theorem Consistent.pending_finish (hp : p.Consistent) {w : ℕ} (h : p.step? (.finish w) = some q) :
    q.pending + 1 = p.pending := by
  cases stepped_of_step? h with
  | finish _ hlookup =>
      have hlength := length_filter_add_one hp.nodup hlookup
      have hpending := hp.pending_eq
      change p.pending - 1 + 1 = p.pending
      omega

/-! ### Until shutdown -/

theorem accepting_step (h : p.step? e = some q) :
    q.accepting = true ↔ p.accepting = true ∧ e ≠ .shutdown := by
  cases stepped_of_step? h with
  | shutdown => simp
  | schedule | take | finish | leave => simp

/-- Tasks are accepted until shutdown. -/
theorem accepting_run (h : p.run? events = some q) :
    q.accepting = true ↔ p.accepting = true ∧ .shutdown ∉ events := by
  induction events generalizing p with
  | nil =>
      cases h
      simp
  | cons e events ih =>
      obtain ⟨r, hr, h⟩ := run?_cons_eq_some.1 h
      rw [ih h, accepting_step hr, List.mem_cons, not_or, and_assoc, ne_comm]

theorem exists_schedule_iff (task : τ) :
    (∃ q, p.step? (.schedule task) = some q) ↔ p.accepting = true := by
  rw [step?]
  cases p.accepting <;> simp

/-! ### Who is there -/

/-- A worker that has a task is there, and if one has left then nothing is queued and nothing will be. -/
structure Staffed (p : WorkerPool τ) : Prop where
  present : ∀ r ∈ p.running, r.1 < p.workers ∧ r.1 ∉ p.gone
  closed : p.gone ≠ [] → p.accepting = false ∧ p.queue = []

theorem staffed_start (workers : ℕ) : (start workers : WorkerPool τ).Staffed :=
  ⟨by simp [start], fun h => absurd rfl h⟩

/-- Each step keeps the staff in order. -/
theorem Staffed.step (hp : p.Staffed) (h : p.step? e = some q) : q.Staffed := by
  cases stepped_of_step? h with
  | schedule task haccepting =>
      refine ⟨hp.present, fun hgone => ?_⟩
      have hclosed := (hp.closed hgone).1
      rw [haccepting] at hclosed
      cases hclosed
  | @take w task rest hqueue hfree =>
      obtain ⟨hlt, hgone, -⟩ := isFree_iff.1 hfree
      refine ⟨List.forall_mem_cons.2 ⟨⟨hlt, hgone⟩, hp.present⟩, fun hgone => ?_⟩
      have hempty := (hp.closed hgone).2
      rw [hqueue] at hempty
      cases hempty
  | finish w hlookup => exact ⟨fun r hr => hp.present r (List.mem_filter.1 hr).1, hp.closed⟩
  | shutdown => exact ⟨hp.present, fun hgone => ⟨rfl, (hp.closed hgone).2⟩⟩
  | leave w haccepting hqueue hfree =>
      obtain ⟨-, -, hlookup⟩ := isFree_iff.1 hfree
      refine ⟨fun r hr => ⟨(hp.present r hr).1, ?_⟩, fun _ => ⟨haccepting, hqueue⟩⟩
      rw [List.mem_cons, not_or]
      refine ⟨?_, (hp.present r hr).2⟩
      rintro rfl
      exact notMem_of_lookup_eq_none hlookup (List.mem_map_of_mem hr)

theorem Staffed.run (hp : p.Staffed) (h : p.run? events = some q) : q.Staffed := by
  induction events generalizing p with
  | nil =>
      cases h
      exact hp
  | cons e events ih =>
      obtain ⟨r, hr, h⟩ := run?_cons_eq_some.1 h
      exact ih (hp.step hr) h

/-- When all workers have left nothing is queued or running. -/
theorem Staffed.eq_nil_of_gone (hp : p.Staffed) (hworkers : 0 < p.workers)
    (hgone : ∀ w < p.workers, w ∈ p.gone) :
    p.queue = [] ∧ p.running = [] ∧ p.accepting = false := by
  have hne : p.gone ≠ [] := List.ne_nil_of_mem (hgone 0 hworkers)
  obtain ⟨haccepting, hqueue⟩ := hp.closed hne
  refine ⟨hqueue, List.eq_nil_iff_forall_not_mem.2 fun r hr => ?_, haccepting⟩
  obtain ⟨hlt, hpresent⟩ := hp.present r hr
  exact hpresent (hgone r.1 hlt)

/-! ### Going on -/

/-- The pool is at rest exactly when no task is queued or running. -/
theorem Consistent.isIdle_iff (hp : p.Consistent) :
    p.isIdle = true ↔ p.queue = [] ∧ p.running = [] := by
  refine ⟨hp.eq_nil_of_idle, ?_⟩
  rintro ⟨hqueue, hrunning⟩
  rw [isIdle, hp.pending_eq, hqueue, hrunning]
  rfl

/-- The steps that workers still have to make: two for a task in the queue, one for a running one. -/
def load (p : WorkerPool τ) : ℕ := 2 * p.queue.length + p.running.length

/-- A step of a worker that goes on is one of those it has to make. -/
theorem Consistent.load_step (hp : p.Consistent) (h : p.step? e = some q) (hwork : e.isWork = true) :
    1 + q.load = p.load := by
  cases stepped_of_step? h with
  | schedule => cases hwork
  | @take w task rest hqueue =>
      simp only [load, hqueue, List.length_cons]
      omega
  | finish w hlookup =>
      have hlength := length_filter_add_one hp.nodup hlookup
      simp only [load]
      omega
  | shutdown => cases hwork
  | leave => cases hwork

theorem Consistent.load_run (hp : p.Consistent) (h : p.run? events = some q)
    (hwork : ∀ e ∈ events, e.isWork = true) : events.length + q.load = p.load := by
  induction events generalizing p with
  | nil =>
      cases h
      exact Nat.zero_add _
  | cons e events ih =>
      obtain ⟨he, hevents⟩ := List.forall_mem_cons.1 hwork
      obtain ⟨r, hr, h⟩ := run?_cons_eq_some.1 h
      have hstep := hp.load_step hr he
      have hrest := ih (hp.step hr).1 h hevents
      rw [List.length_cons]
      omega

/-- As long as the pool is not at rest some worker can go on. -/
theorem Consistent.exists_work (hp : p.Consistent) (hstaff : p.Staffed) (hworkers : 0 < p.workers)
    (hbusy : p.isIdle = false) : ∃ e q, p.step? e = some q ∧ e.isWork = true := by
  cases hrunning : p.running with
  | cons r running =>
      have hlookup : p.running.lookup r.1 = some r.2 := by
        rw [hrunning, List.lookup_cons, beq_self_eq_true]
      exact ⟨.finish r.1, _, by rw [step?, hlookup], rfl⟩
  | nil =>
      cases hqueue : p.queue with
      | nil =>
          rw [hp.isIdle_iff.2 ⟨hqueue, hrunning⟩] at hbusy
          cases hbusy
      | cons task rest =>
          -- a worker that had left would have found the queue empty
          have hgone : p.gone = [] := by
            by_contra hne
            have hempty := (hstaff.closed hne).2
            rw [hqueue] at hempty
            cases hempty
          have hfree : p.isFree 0 = true :=
            isFree_iff.2 ⟨hworkers, by simp [hgone], by simp [hrunning]⟩
          exact ⟨.take 0, _, by rw [step?, hqueue]; exact if_pos hfree, rfl⟩

/-! ### Those who wait -/

/-- A step of the pool, or the return of somebody who waits. -/
inductive Action (τ : Type) where
  /-- Something happens to the pool. -/
  | event (e : Event τ)
  /-- Somebody who waits finds that no task is pending, and returns. -/
  | waitReturns
  deriving Repr

/-- What happens to the pool, if anything does. -/
def Action.event? : Action τ → Option (Event τ)
  | .event e => some e
  | .waitReturns => none

/-- The task that is scheduled, if any. -/
def Action.scheduled? (a : Action τ) : Option τ := a.event?.bind Event.scheduled?

/-- The pool after an action, if the action is possible. -/
def act? (p : WorkerPool τ) : Action τ → Option (WorkerPool τ)
  | .event e => p.step? e
  | .waitReturns => if p.isIdle then some p else none

/-- The pool after some actions, if each of them is possible when its turn comes. -/
def interleave? (p : WorkerPool τ) (actions : List (Action τ)) : Option (WorkerPool τ) :=
  actions.foldlM act? p

variable {actions : List (Action τ)}

/-- Those who wait do not change what happens to the pool. -/
theorem run?_of_interleave? (h : p.interleave? actions = some q) :
    p.run? (actions.filterMap Action.event?) = some q := by
  induction actions generalizing p with
  | nil => exact h
  | cons a actions ih =>
      obtain ⟨r, hr, hrest⟩ := Option.bind_eq_some_iff.1 h
      cases a with
      | event e =>
          exact run?_cons_eq_some.2 ⟨r, hr, ih hrest⟩
      | waitReturns =>
          rw [act?] at hr
          split at hr
          · cases hr
            exact ih hrest
          · cases hr

theorem shutdown_mem_iff :
    .shutdown ∈ actions.filterMap Action.event? ↔ .event .shutdown ∈ actions := by
  rw [List.mem_filterMap]
  constructor
  · rintro ⟨a, ha, hevent⟩
    cases a with
    | event e =>
        cases hevent
        exact ha
    | waitReturns => cases hevent
  · exact fun h => ⟨_, h, rfl⟩

theorem filterMap_event? (actions : List (Action τ)) :
    (actions.filterMap Action.event?).filterMap Event.scheduled?
      = actions.filterMap Action.scheduled? := List.filterMap_filterMap ..

/-- A pool that started without tasks and is at rest has finished all of them. -/
theorem finished_perm_scheduled {workers : ℕ} (h : (start workers).interleave? actions = some p)
    (hqueue : p.queue = []) (hrunning : p.running = []) :
    p.finished.toList.Perm (actions.filterMap Action.scheduled?) := by
  obtain ⟨-, -, -, hperm⟩ := (consistent_start workers).run (run?_of_interleave? h)
  rw [filterMap_event?] at hperm
  simpa [tasks, hqueue, hrunning, start] using hperm

/-- Who waits returns only when the pool is at rest. -/
theorem interleave?_waitReturns {before after : List (Action τ)}
    (h : p.interleave? (before ++ .waitReturns :: after) = some q) :
    ∃ r, p.interleave? before = some r ∧ r.isIdle = true := by
  rw [interleave?, List.foldlM_append] at h
  obtain ⟨r, hr, h⟩ := Option.bind_eq_some_iff.1 h
  obtain ⟨r', hr', -⟩ := Option.bind_eq_some_iff.1 h
  refine ⟨r, hr, ?_⟩
  rw [act?] at hr'
  split at hr'
  · next hidle => exact hidle
  · cases hr'

/-- Who waits can return exactly when no task is queued or running. -/
theorem Consistent.act?_waitReturns_iff (hp : p.Consistent) :
    p.act? .waitReturns = some p ↔ p.queue = [] ∧ p.running = [] := by
  rw [← hp.isIdle_iff, act?]
  cases p.isIdle <;> simp

/-- **What holds in every interleaving** of any number of workers with calls that schedule, wait and shut
down.  Tasks can be scheduled until shutdown.  Each task that is taken is the next one in the order of
scheduling, and it is running or finished once, so that none is worked on twice and none is lost.  The
counter is the number of tasks that are queued or running, and finishing a task lowers it by one.  A wait
can return exactly when there are none, and when it returns all tasks scheduled before it are finished.
When all workers have left it was after shutdown, nothing is queued, and all tasks are finished.  And if
workers only go on with the tasks they come to an end after a number of steps known before, and not before
the pool is at rest. -/
theorem interleavings_exact (workers : ℕ) (hworkers : 0 < workers) (actions : List (Action τ))
    (p : WorkerPool τ) (h : (start workers).interleave? actions = some p) :
    (∀ task, (∃ q, p.act? (.event (.schedule task)) = some q) ↔ .event .shutdown ∉ actions) ∧
    (∃ begun : List τ, begun ++ p.queue = actions.filterMap Action.scheduled? ∧
      begun.length = (actions.filterMap Action.event?).countP Event.isTake ∧
      begun.Perm (p.finished.toList ++ p.running.map (·.2))) ∧
    p.pending = p.queue.length + p.running.length ∧
    (∀ w q, p.step? (.finish w) = some q → q.pending + 1 = p.pending) ∧
    (p.act? .waitReturns = some p ↔ p.queue = [] ∧ p.running = []) ∧
    (∀ before after, actions = before ++ .waitReturns :: after →
      ∃ q, (start workers).interleave? before = some q ∧ q.queue = [] ∧ q.running = [] ∧
        q.finished.toList.Perm (before.filterMap Action.scheduled?)) ∧
    ((∀ w < workers, w ∈ p.gone) → .event .shutdown ∈ actions ∧ p.queue = [] ∧ p.running = [] ∧
      p.finished.toList.Perm (actions.filterMap Action.scheduled?)) ∧
    ∀ events q, (∀ e ∈ events, e.isWork = true) → p.run? events = some q →
      events.length + q.load = p.load ∧
      (q.isIdle = true ∨ ∃ e r, q.step? e = some r ∧ e.isWork = true) := by
  have hrun := run?_of_interleave? h
  obtain ⟨hp, hsize, -, hperm⟩ := (consistent_start workers).run hrun
  have hstaff := (staffed_start workers).run hrun
  have haccepting : p.accepting = true ↔ .event .shutdown ∉ actions := by
    rw [accepting_run hrun, shutdown_mem_iff]
    exact and_iff_right rfl
  refine ⟨fun task => (exists_schedule_iff task).trans haccepting, ?_, hp.pending_eq,
    fun w q => hp.pending_finish, hp.act?_waitReturns_iff, ?_, fun hgone => ?_, ?_⟩
  · obtain ⟨begun, hbegun, hcount⟩ := queue_run hrun
    rw [filterMap_event?] at hbegun hperm
    refine ⟨begun, hbegun, hcount, ?_⟩
    -- the queue has the same tasks on both sides
    rw [show (start workers : WorkerPool τ).tasks = [] from rfl, List.nil_append, tasks,
      ← List.append_assoc] at hperm
    rw [show (start workers : WorkerPool τ).queue = [] from rfl, List.nil_append] at hbegun
    exact ((List.perm_append_right_iff _).1 (hbegun ▸ hperm)).symm
  · rintro before after rfl
    obtain ⟨q, hq, hidle⟩ := interleave?_waitReturns h
    have hqueue := ((consistent_start workers).run (run?_of_interleave? hq)).1.eq_nil_of_idle hidle
    exact ⟨q, hq, hqueue.1, hqueue.2, finished_perm_scheduled hq hqueue.1 hqueue.2⟩
  · have hworkers' : 0 < p.workers := hsize ▸ hworkers
    obtain ⟨hqueue, hrunning, hclosed⟩ := hstaff.eq_nil_of_gone hworkers' (hsize ▸ hgone)
    rw [← Bool.not_eq_true, haccepting, not_not] at hclosed
    exact ⟨hclosed, hqueue, hrunning, finished_perm_scheduled h hqueue hrunning⟩
  · intro events q hwork hq
    obtain ⟨hq', hsize', -⟩ := hp.run hq
    refine ⟨hp.load_run hq hwork, ?_⟩
    cases hidle : q.isIdle with
    | true => exact Or.inl rfl
    | false =>
        have hworkers' : 0 < q.workers := (hsize'.trans hsize).symm ▸ hworkers
        exact Or.inr (hq'.exists_work (hstaff.run hq) hworkers' hidle)

/-- Two workers overtake each other, and a task is still queued at shutdown. -/
def overlapping : List (Action ℕ) :=
  [.event (.schedule 5), .event (.schedule 7), .event (.take 1), .event (.take 0),
    .event (.finish 0), .event (.finish 1), .waitReturns, .event (.schedule 9), .event .shutdown,
    .event (.take 1), .event (.leave 0), .event (.finish 1), .event (.leave 1)]

/-- Both workers leave, but only after the task that was queued is with one of them. -/
theorem interleavings_of_two_workers :
    ∃ p, (start 2).interleave? overlapping = some p ∧ p.queue = [] ∧ p.running = [] ∧
      p.finished.toList.Perm [5, 7, 9] := by
  have hrun : (start 2).interleave? overlapping
      = some ⟨2, [], [], #[7, 5, 9], 0, false, [1, 0]⟩ := rfl
  obtain ⟨-, -, -, -, -, -, hgone, -⟩ := interleavings_exact 2 (by decide) overlapping _ hrun
  exact ⟨_, hrun, (hgone (by decide)).2⟩

end UniversalAlgebra.WorkerPool
