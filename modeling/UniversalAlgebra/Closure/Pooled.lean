/-
**Closing with a pool of workers.**

In each pass one task is scheduled for each operation, in order.  A task computes the images under
its operation into a buffer of its own, and nothing is shown while tasks are running.  When all of
them are finished the buffers are looked at in the order of the operations: the first error in a
buffer is raised, and if there is none the images are shown, buffer by buffer.

In which order workers take and finish the tasks is up to them.  A schedule lists the events of each
pass.

Main definitions:

* `Closure.showBuffers` — raises the first error, or shows all images;
* `Closure.pooledPass`, `Closure.pooledClose` — a pass, and passes until nothing is fresh, for a
  given schedule.
-/

import UniversalAlgebra.Closure.Engine
import UniversalAlgebra.WorkerPool

set_option autoImplicit false

namespace UniversalAlgebra.Closure

variable {σ ι : Type} [Growth σ ι]

open Growth

/-- Raises the first error among the buffers, or else shows what is in them. -/
def showBuffers (cap : Nat) (buffers : List (Except Fault (Array ι))) (s : σ) : Except (Halt σ) σ :=
  match buffers.mapM id with
  | .error fault => .error ⟨.raised fault, s⟩
  | .ok buffers => buffers.foldlM (fun s buffer => buffer.toList.foldlM (absorb cap) s) s

/-- What the task for the operation with a given number leaves in its buffer. -/
def imagesAt (ops : List Operation) (start stop : Nat) (s : σ) (k : Nat) : Except Fault (Array ι) :=
  match ops[k]? with
  | some op => images s start stop op
  | none => .ok #[]

/-- A pass in which the workers of a pool compute the images, if the events of the pass are
possible. -/
def pooledPass (cap : Nat) (ops : List Operation) (start stop : Nat)
    (events : List (WorkerPool.Event Nat)) (p : WorkerPool Nat) (s : σ) :
    Option (WorkerPool Nat × Except (Halt σ) σ) :=
  (p.gather events (imagesAt ops start stop s) (.ok #[]) ops.length).map
    fun (q, buffers) => (q, showBuffers cap buffers.toList s)

/-- Passes until nothing is fresh, if the schedule is possible and long enough. -/
def pooledPasses (cap : Nat) (ops : List Operation) :
    (fuel mark : Nat) → (schedule : List (List (WorkerPool.Event Nat))) → WorkerPool Nat → σ →
      Option (Except (Halt σ) σ)
  | 0, _, _, _, s => some (.ok s)
  | fuel + 1, mark, schedule, p, s =>
      let stop := size s
      if mark < stop then
        match schedule with
        | [] => none
        | events :: schedule =>
            match pooledPass cap ops mark stop events p s with
            | none => none
            | some (q, .ok s') => pooledPasses cap ops fuel stop schedule q s'
            | some (_, .error halt) => some (.error halt)
      else some (.ok s)

/-- Closes under the operations of an algebra with the workers of a pool. -/
def pooledClose (A : Algebra) (p : WorkerPool Nat) (schedule : List (List (WorkerPool.Event Nat)))
    (cap mark : Nat) (s : σ) : Option (Outcome σ) :=
  if A.operations.isEmpty ∨ size s ≤ mark then some (.ofPasses (.ok s))
  else
    (pooledPasses cap A.operations (capacity A.size s + 1) mark schedule p s).map Outcome.ofPasses

end UniversalAlgebra.Closure
