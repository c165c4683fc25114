/-
**What a pool of workers guarantees.**

A task that was scheduled is in the queue, with a worker, or finished, and the counter counts those
that are not finished.  So when nobody has to wait any more every scheduled task is finished, in
whatever order the workers took turns.  Tasks that store their results at different places leave the
same results in any order.

Main definitions:

* `WorkerPool.Stepped` — what each event does, and when it is possible;
* `WorkerPool.tasks` — the tasks wherever they are;
* `WorkerPool.Consistent` — the counter is right, no worker has two tasks, and workers leave only
  after shutdown;
* `WorkerPool.Ready` — a pool that can work off tasks.

Main results:

* `WorkerPool.Consistent.step`, `WorkerPool.Consistent.run` — no task is lost or made up;
* `WorkerPool.finished_perm_of_idle` — **a pool at rest has finished what was scheduled**;
* `WorkerPool.gather_eq` — **the results do not depend on the order of the events**;
* `WorkerPool.exists_gather` — there is such an order.
-/

import Mathlib
import UniversalAlgebra.WorkerPool

set_option autoImplicit false

namespace UniversalAlgebra.WorkerPool

variable {τ β : Type} {p q : WorkerPool τ} {e : Event τ} {events : List (Event τ)}

/-! ### Single steps -/

/-- What each event does, and when it is possible. -/
inductive Stepped (p : WorkerPool τ) : Event τ → WorkerPool τ → Prop
  | schedule (task : τ) (haccepting : p.accepting = true) :
      Stepped p (.schedule task) { p with queue := p.queue ++ [task], pending := p.pending + 1 }
  | take (w : ℕ) {task : τ} {rest : List τ} (hqueue : p.queue = task :: rest)
      (hfree : p.isFree w = true) :
      Stepped p (.take w) { p with queue := rest, running := (w, task) :: p.running }
  | finish (w : ℕ) {task : τ} (hlookup : p.running.lookup w = some task) :
      Stepped p (.finish w)
        { p with
          running := p.running.filter fun r => r.1 != w
          finished := p.finished.push task
          pending := p.pending - 1 }
  | shutdown : Stepped p .shutdown { p with accepting := false }
  | leave (w : ℕ) (haccepting : p.accepting = false) (hqueue : p.queue = [])
      (hfree : p.isFree w = true) : Stepped p (.leave w) { p with gone := w :: p.gone }

theorem stepped_of_step? (h : p.step? e = some q) : Stepped p e q := by
  cases e with
  | schedule task =>
      rw [step?] at h
      split at h
      · next haccepting =>
          cases h
          exact .schedule task haccepting
      · cases h
  | take w =>
      rw [step?] at h
      split at h
      · cases h
      · next task rest hqueue =>
          split at h
          · next hfree =>
              cases h
              exact .take w hqueue hfree
          · cases h
  | finish w =>
      rw [step?] at h
      split at h
      · cases h
      · next task hlookup =>
          cases h
          exact .finish w hlookup
  | shutdown =>
      cases h
      exact .shutdown
  | leave w =>
      rw [step?] at h
      split at h
      · next hleave =>
          cases h
          simp only [Bool.and_eq_true, Bool.not_eq_true', List.isEmpty_iff] at hleave
          exact .leave w hleave.1.1 hleave.1.2 hleave.2
      · cases h

theorem isFree_iff {w : ℕ} :
    p.isFree w = true ↔ w < p.workers ∧ w ∉ p.gone ∧ p.running.lookup w = none := by
  simp [isFree, and_assoc]

/-! ### No task is lost -/

/-- The tasks wherever they are. -/
def tasks (p : WorkerPool τ) : List τ := p.finished.toList ++ (p.running.map (·.2) ++ p.queue)

/-- The counter is right, no worker has two tasks, and workers leave only after shutdown. -/
structure Consistent (p : WorkerPool τ) : Prop where
  pending_eq : p.pending = p.queue.length + p.running.length
  nodup : (p.running.map (·.1)).Nodup
  gone_eq : p.accepting = true → p.gone = []

theorem consistent_start (workers : ℕ) : (start workers : WorkerPool τ).Consistent :=
  ⟨rfl, List.nodup_nil, fun _ => rfl⟩

/-- The entry of a worker is the only one that is taken out. -/
theorem perm_cons_filter {running : List (ℕ × τ)} (hnodup : (running.map (·.1)).Nodup) {w : ℕ}
    {task : τ} (h : running.lookup w = some task) :
    running.Perm ((w, task) :: running.filter fun r => r.1 != w) := by
  induction running with
  | nil => cases h
  | cons r running ih =>
      obtain ⟨hfresh, hnodup⟩ := List.nodup_cons.1 hnodup
      rw [List.lookup_cons] at h
      by_cases hw : w = r.1
      · subst hw
        obtain rfl : r.2 = task := by simpa using h
        have hall : running.filter (fun r' => r'.1 != r.1) = running := by
          refine List.filter_eq_self.2 fun r' hr' => ?_
          rw [bne_iff_ne]
          rintro heq
          exact hfresh (List.mem_map.2 ⟨r', hr', heq⟩)
        rw [List.filter_cons_of_neg (by simp), hall]
      · have hbeq : (w == r.1) = false := by simpa using hw
        rw [hbeq] at h
        rw [List.filter_cons_of_pos (by simpa using Ne.symm hw)]
        exact ((ih hnodup h).cons r).trans (List.Perm.swap _ _ _)

theorem length_filter_add_one {running : List (ℕ × τ)} (hnodup : (running.map (·.1)).Nodup) {w : ℕ}
    {task : τ} (h : running.lookup w = some task) :
    (running.filter fun r => r.1 != w).length + 1 = running.length :=
  (perm_cons_filter hnodup h).length_eq.symm

theorem notMem_of_lookup_eq_none {running : List (ℕ × τ)} {w : ℕ} (h : running.lookup w = none) :
    w ∉ running.map (·.1) := by
  intro hmem
  obtain ⟨r, hr, heq⟩ := List.mem_map.1 hmem
  rw [List.lookup_eq_none_iff] at h
  simpa [heq] using h r hr

/-- Taking a task moves it from the queue to the worker. -/
theorem tasks_take (w : ℕ) {task : τ} {rest : List τ} (h : p.queue = task :: rest) :
    ({ p with queue := rest, running := (w, task) :: p.running } : WorkerPool τ).tasks.Perm
      p.tasks := by
  simp only [tasks, h, List.map_cons]
  exact (List.perm_middle.symm).append_left _

/-- Finishing a task moves it from the worker to the finished ones. -/
theorem tasks_finish (hp : p.Consistent) {w : ℕ} {task : τ} (pending : ℕ)
    (h : p.running.lookup w = some task) :
    ({ p with
        running := p.running.filter fun r => r.1 != w
        finished := p.finished.push task
        pending := pending } : WorkerPool τ).tasks.Perm p.tasks := by
  have hperm := (perm_cons_filter hp.nodup h).map (·.2)
  simp only [tasks, Array.toList_push, List.append_assoc, List.singleton_append]
  exact (hperm.symm.append_right _).append_left _

/-- **What a step does**: it keeps the pool consistent, finishes tasks only at the end of the list,
and adds the task that it schedules, if any. -/
theorem Consistent.step (hp : p.Consistent) (h : p.step? e = some q) :
    q.Consistent ∧ q.workers = p.workers ∧ p.finished.toList <+: q.finished.toList ∧
      q.tasks.Perm (p.tasks ++ e.scheduled?.toList) := by
  have hpending := hp.pending_eq
  cases stepped_of_step? h with
  | schedule task =>
      refine ⟨⟨?_, hp.nodup, hp.gone_eq⟩, rfl, List.prefix_rfl, ?_⟩
      · simp only [hpending, List.length_append, List.length_singleton]
        omega
      · simp [tasks, Event.scheduled?]
  | @take w task rest hqueue hfree =>
      have hfresh := notMem_of_lookup_eq_none (isFree_iff.1 hfree).2.2
      refine ⟨⟨?_, List.nodup_cons.2 ⟨hfresh, hp.nodup⟩, hp.gone_eq⟩, rfl, List.prefix_rfl, ?_⟩
      · simp only [hpending, hqueue, List.length_cons]
        omega
      · simpa [Event.scheduled?] using tasks_take w hqueue
  | finish w hlookup =>
      have hlength := length_filter_add_one hp.nodup hlookup
      refine ⟨⟨?_, hp.nodup.sublist (List.filter_sublist.map _), hp.gone_eq⟩, rfl, ?_, ?_⟩
      · simp only [hpending]
        omega
      · simp
      · simpa [Event.scheduled?] using tasks_finish hp _ hlookup
  | shutdown =>
      exact ⟨⟨hpending, hp.nodup, Bool.noConfusion⟩, rfl, List.prefix_rfl,
        by simp [tasks, Event.scheduled?]⟩
  | leave w haccepting =>
      refine ⟨⟨hpending, hp.nodup, ?_⟩, rfl, List.prefix_rfl, by simp [tasks, Event.scheduled?]⟩
      exact fun h => absurd (haccepting.symm.trans h) Bool.false_ne_true

theorem run?_cons_eq_some :
    p.run? (e :: events) = some q ↔ ∃ r, p.step? e = some r ∧ r.run? events = some q :=
  Option.bind_eq_some_iff

/-- The same for a run. -/
theorem Consistent.run (hp : p.Consistent) (h : p.run? events = some q) :
    q.Consistent ∧ q.workers = p.workers ∧ p.finished.toList <+: q.finished.toList ∧
      q.tasks.Perm (p.tasks ++ events.filterMap Event.scheduled?) := by
  induction events generalizing p with
  | nil =>
      cases h
      exact ⟨hp, rfl, List.prefix_rfl, by simp⟩
  | cons e events ih =>
      obtain ⟨r, hr, h⟩ := run?_cons_eq_some.1 h
      obtain ⟨hr', hworkers, hprefix, hperm⟩ := hp.step hr
      obtain ⟨hq, hworkers', hprefix', hperm'⟩ := ih hr' h
      refine ⟨hq, hworkers'.trans hworkers, hprefix.trans hprefix', ?_⟩
      have hsplit : (e :: events).filterMap Event.scheduled?
          = e.scheduled?.toList ++ events.filterMap Event.scheduled? := by
        rw [List.filterMap_cons]
        cases e.scheduled? <;> rfl
      rw [hsplit, ← List.append_assoc]
      exact hperm'.trans (hperm.append_right _)

/-- A pool at rest has no task waiting or running. -/
theorem Consistent.eq_nil_of_idle (hp : p.Consistent) (hidle : p.isIdle = true) :
    p.queue = [] ∧ p.running = [] := by
  have hzero : p.queue.length + p.running.length = 0 := by
    rw [← hp.pending_eq]
    exact eq_of_beq hidle
  exact ⟨List.eq_nil_of_length_eq_zero (by omega), List.eq_nil_of_length_eq_zero (by omega)⟩

theorem Consistent.tasks_eq (hp : p.Consistent) (hidle : p.isIdle = true) :
    p.tasks = p.finished.toList := by
  obtain ⟨hqueue, hrunning⟩ := hp.eq_nil_of_idle hidle
  simp [tasks, hqueue, hrunning]

/-- **A pool that comes to rest again has finished exactly what was scheduled**, in some order. -/
theorem finished_perm_of_idle (hp : p.Consistent) (hidle : p.isIdle = true)
    (h : p.run? events = some q) (hidle' : q.isIdle = true) :
    ∃ done, q.finished.toList = p.finished.toList ++ done ∧
      done.Perm (events.filterMap Event.scheduled?) := by
  obtain ⟨hq, -, ⟨done, hdone⟩, hperm⟩ := hp.run h
  rw [hp.tasks_eq hidle, hq.tasks_eq hidle', ← hdone] at hperm
  exact ⟨done, hdone.symm, (List.perm_append_left_iff _).1 hperm⟩

/-! ### Results at different places -/

theorem getElem?_fill (work : ℕ → β) (ks : List ℕ) (results : Array β) (i : ℕ) :
    (ks.foldl (fun results k => results.setIfInBounds k (work k)) results)[i]?
      = if i ∈ ks ∧ i < results.size then some (work i) else results[i]? := by
  induction ks generalizing results with
  | nil => simp
  | cons k ks ih =>
      rw [List.foldl_cons, ih, Array.size_setIfInBounds, Array.getElem?_setIfInBounds]
      by_cases hk : k = i
      · subst hk
        by_cases hlt : k < results.size <;> simp [hlt]
      · simp [hk, Ne.symm hk]

/-- Results that are stored at each place once are the same in any order. -/
theorem fill_eq (work : ℕ → β) (blank : β) {count : ℕ} {ks : List ℕ}
    (hks : ks.Perm (List.range count)) :
    ks.foldl (fun results k => results.setIfInBounds k (work k)) (Array.replicate count blank)
      = ((List.range count).map work).toArray := by
  refine Array.ext_getElem? fun i => ?_
  have hmem : i ∈ ks ↔ i < count := hks.mem_iff.trans List.mem_range
  rw [getElem?_fill]
  by_cases hi : i < count <;> simp [hmem, hi]

theorem foldl_from {α : Type} (f : β → α → β) (b : β) (xs : Array α) (k : ℕ) :
    xs.foldl f b k = (xs.toList.drop k).foldl f b := by
  rw [Array.foldl_eq_foldl_extract, ← Array.foldl_toList, Array.toList_extract, List.extract,
    List.take_of_length_le (by simp)]

section Gather

variable {p q : WorkerPool ℕ} {events : List (Event ℕ)} {work : ℕ → β} {blank : β} {count : ℕ}
  {results : Array β}

/-- **The results do not depend on the order of the events**, and the pool is at rest again. -/
theorem gather_eq (hp : p.Consistent) (hidle : p.isIdle = true)
    (h : p.gather events work blank count = some (q, results)) :
    q.Consistent ∧ q.isIdle = true ∧ results = ((List.range count).map work).toArray := by
  obtain ⟨r, hr, h⟩ := Option.bind_eq_some_iff.1 h
  split at h
  · next hcond =>
      obtain ⟨hscheduled, hidle'⟩ := hcond
      cases h
      obtain ⟨done, hdone, hperm⟩ := finished_perm_of_idle hp hidle hr hidle'
      rw [hscheduled] at hperm
      refine ⟨(hp.run hr).1, hidle', ?_⟩
      rw [foldl_from, hdone, ← Array.length_toList, List.drop_left, fill_eq work blank hperm]
  · cases h

/-! ### A run that is possible -/

/-- A pool with workers that are all there and have nothing to do. -/
structure Ready (p : WorkerPool τ) : Prop where
  workers_pos : 0 < p.workers
  accepting : p.accepting = true
  gone_eq : p.gone = []
  queue_eq : p.queue = []
  running_eq : p.running = []
  pending_eq : p.pending = 0

/-- A pool at rest that still accepts tasks is one. -/
theorem Consistent.ready {p : WorkerPool τ} (hp : p.Consistent) (hidle : p.isIdle = true)
    (hworkers : 0 < p.workers) (haccepting : p.accepting = true) : p.Ready := by
  obtain ⟨hqueue, hrunning⟩ := hp.eq_nil_of_idle hidle
  exact ⟨hworkers, haccepting, hp.gone_eq haccepting, hqueue, hrunning, eq_of_beq hidle⟩

theorem Ready.isIdle {p : WorkerPool τ} (hp : p.Ready) : p.isIdle = true := by
  simp [WorkerPool.isIdle, hp.pending_eq]

/-- One task after the other can be scheduled, taken and finished. -/
theorem Ready.exists_run {p : WorkerPool τ} (hp : p.Ready) (tasks : List τ) :
    ∃ events q, p.run? events = some q ∧ q.Ready ∧
      events.filterMap Event.scheduled? = tasks := by
  induction tasks generalizing p with
  | nil => exact ⟨[], p, rfl, hp, rfl⟩
  | cons task tasks ih =>
      obtain ⟨hworkers, haccepting, hgone, hqueue, hrunning, hpending⟩ := hp
      have hround : p.run? [.schedule task, .take 0, .finish 0]
          = some { p with finished := p.finished.push task } := by
        obtain ⟨workers, queue, running, finished, pending, accepting, gone⟩ := p
        subst haccepting hgone hqueue hrunning hpending
        simp [run?, step?, isFree, hworkers]
      obtain ⟨events, q, hrun, hq, hscheduled⟩ := ih
        (p := { p with finished := p.finished.push task })
        ⟨hworkers, haccepting, hgone, hqueue, hrunning, hpending⟩
      refine ⟨[.schedule task, .take 0, .finish 0] ++ events, q, ?_, hq, ?_⟩
      · rw [run?, List.foldlM_append]
        change (p.run? [.schedule task, .take 0, .finish 0] >>= fun p => p.run? events) = _
        rw [hround]
        exact hrun
      · rw [List.filterMap_append, hscheduled]
        rfl

/-- Numbered tasks can be worked off. -/
theorem Ready.exists_gather (hp : p.Ready) (work : ℕ → β) (blank : β) (count : ℕ) :
    ∃ events q results, p.gather events work blank count = some (q, results) ∧ q.Ready := by
  obtain ⟨events, q, hrun, hq, hscheduled⟩ := hp.exists_run (List.range count)
  have hgather : p.gather events work blank count
      = some (q, q.finished.foldl (fun results k => results.setIfInBounds k (work k))
        (Array.replicate count blank) p.finished.size) := by
    rw [gather, hrun]
    exact if_pos ⟨hscheduled, hq.isIdle⟩
  exact ⟨events, q, _, hgather, hq⟩

end Gather

end UniversalAlgebra.WorkerPool
