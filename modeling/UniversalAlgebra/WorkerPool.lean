/-
**A pool of workers.**

Tasks wait in a queue.  A worker takes the task at the front, works on it, and then reports that it
is finished; a counter tells how many tasks were scheduled and not yet reported.  After shutdown no
task is accepted any more, and a worker that finds the queue empty leaves.  Each of these is one
step, and the steps of different workers can come in any order.

Main definitions:

* `WorkerPool`, `WorkerPool.start` — workers, queue and counter;
* `WorkerPool.Event`, `WorkerPool.step?`, `WorkerPool.run?` — the steps, and runs of them;
* `WorkerPool.isIdle` — the condition for which one waits;
* `WorkerPool.round` — one way to work off a list of tasks;
* `WorkerPool.gather` — any way to work off numbered tasks.
-/

set_option autoImplicit false

namespace UniversalAlgebra

/-- Workers, and tasks of type `τ` for them. -/
structure WorkerPool (τ : Type) where
  /-- The number of workers. -/
  workers : Nat
  /-- The tasks that no worker has taken, in the order of scheduling. -/
  queue : List τ
  /-- The workers that have taken a task, each with its task. -/
  running : List (Nat × τ)
  /-- The tasks that were worked on to the end, in the order of their reports. -/
  finished : Array τ
  /-- The number of tasks that were scheduled and not reported as finished. -/
  pending : Nat
  /-- Whether tasks are accepted. -/
  accepting : Bool
  /-- The workers that have left. -/
  gone : List Nat
  deriving Repr

namespace WorkerPool

variable {τ : Type}

/-- A pool in which nothing was scheduled. -/
def start (workers : Nat) : WorkerPool τ := ⟨workers, [], [], #[], 0, true, []⟩

/-- What can happen in one step. -/
inductive Event (τ : Type) where
  /-- A task is put at the end of the queue. -/
  | schedule (task : τ)
  /-- A worker takes the task at the front of the queue. -/
  | take (worker : Nat)
  /-- A worker reports its task as finished. -/
  | finish (worker : Nat)
  /-- No task is accepted from now on. -/
  | shutdown
  /-- A worker finds the queue empty after shutdown and leaves. -/
  | leave (worker : Nat)
  deriving Repr

/-- Whether a worker is there and has no task. -/
def isFree (p : WorkerPool τ) (w : Nat) : Bool :=
  decide (w < p.workers) && !p.gone.contains w && (p.running.lookup w).isNone

/-- The pool after an event, if the event is possible. -/
def step? (p : WorkerPool τ) : Event τ → Option (WorkerPool τ)
  | .schedule task =>
      if p.accepting then
        some { p with queue := p.queue ++ [task], pending := p.pending + 1 }
      else none
  | .take w =>
      match p.queue with
      | [] => none
      | task :: rest =>
          if p.isFree w then some { p with queue := rest, running := (w, task) :: p.running }
          else none
  | .finish w =>
      match p.running.lookup w with
      | none => none
      | some task =>
          some
            { p with
              running := p.running.filter fun r => r.1 != w
              finished := p.finished.push task
              pending := p.pending - 1 }
  | .shutdown => some { p with accepting := false }
  | .leave w =>
      if !p.accepting && p.queue.isEmpty && p.isFree w then some { p with gone := w :: p.gone }
      else none

/-- The pool after some events, if each of them is possible when its turn comes. -/
def run? (p : WorkerPool τ) (events : List (Event τ)) : Option (WorkerPool τ) :=
  events.foldlM step? p

/-- Whether nobody has to wait for a task any more. -/
def isIdle (p : WorkerPool τ) : Bool := p.pending == 0

/-- The events of a round: each task is scheduled, taken and finished before the next one, and the
workers take turns. -/
def roundEvents (workers : Nat) (tasks : List τ) : List (Event τ) :=
  tasks.zipIdx.flatMap fun (task, k) =>
    [.schedule task, .take (k % workers), .finish (k % workers)]

/-- Works off one task for each entry of a list.  The task of an entry stores its result at the
position of the entry, and the results are read when all tasks are finished. -/
def round {β : Type} (p : WorkerPool (Nat × τ)) (work : τ → β) (blank : β) (xs : List τ) :
    Option (WorkerPool (Nat × τ) × Array β) := do
  let before := p.finished.size
  let q ← p.run? (roundEvents p.workers (xs.zipIdx.map fun (x, i) => (i, x)))
  let results := q.finished.foldl (fun results (i, x) => results.setIfInBounds i (work x))
    (Array.replicate xs.length blank) before
  if q.isIdle then some (q, results) else none

/-- The task that an event schedules, if it does. -/
def Event.scheduled? : Event τ → Option τ
  | .schedule task => some task
  | _ => none

/-- Works off the tasks with numbers below `count`, which are scheduled in this order.  Apart from
that the events may come in any order that is possible.  Each task stores its result at its number,
and the results are read when all tasks are finished. -/
def gather {β : Type} (p : WorkerPool Nat) (events : List (Event Nat)) (work : Nat → β) (blank : β)
    (count : Nat) : Option (WorkerPool Nat × Array β) := do
  let before := p.finished.size
  let q ← p.run? events
  let results := q.finished.foldl (fun results k => results.setIfInBounds k (work k))
    (Array.replicate count blank) before
  if events.filterMap Event.scheduled? = List.range count ∧ q.isIdle then some (q, results) else none

end WorkerPool

end UniversalAlgebra
