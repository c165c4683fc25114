/-
**Closing a discovered sequence under operations.**

A closure discovers items one after the other: elements, pairs or tuples.  The operations of an
algebra are applied to what was discovered, and each image is shown to the closure, which takes it
in if it is new.  A pass draws the arguments from the items below the present size and only those
with a fresh item, one that was not there before the previous pass.  Passes follow until none adds
anything.

A pass runs in one of two modes.  Sequentially, each image is shown as soon as it is computed.  In
parallel, the images under all operations are computed first, and then shown in the order of the
operations; an error among them is raised before anything is shown.

Main definitions:

* `Growth` — what a kind of closure provides: how items are taken in, how arguments are drawn and
  what their images are;
* `Closure.absorb` — shows one image, and minds the size cap;
* `Closure.sequentialPass`, `Closure.parallelPass` — the two modes of a pass;
* `Closure.close` — passes until nothing is fresh.
-/

import UniversalAlgebra.Algebra

set_option autoImplicit false

namespace UniversalAlgebra

/-- What became of an item that was shown to a closure. -/
inductive Reaction where
  /-- The item was there already. -/
  | known
  /-- The item was taken in. -/
  | added
  /-- The item was taken in, and the closure asks to stop. -/
  | stop
  deriving DecidableEq, Repr

/-- A kind of closure, with states `σ` and items `ι`. -/
class Growth (σ : Type) (ι : outParam Type) where
  /-- The number of items discovered so far. -/
  size : σ → Nat
  /-- More items than this are never discovered over a universe of a given size. -/
  capacity : (universeSize : Nat) → σ → Nat
  /-- Shows an item to the closure. -/
  accept : σ → ι → Except Fault (Reaction × σ)
  /-- The arguments of an operation that use a fresh item, one numbered from `start` on, and
  otherwise items numbered below `stop`. -/
  arguments : σ → Operation → (start stop : Nat) → List Box
  /-- The image of an argument, if it is worth showing. -/
  image : σ → Operation → List Nat → Except Fault (Option ι)

/-- How the arguments of a pass are worked off. -/
inductive Mode where
  /-- Each image is shown when it is computed. -/
  | sequential
  /-- All images are computed before the first is shown. -/
  | parallel
  deriving DecidableEq, Repr

/-- Several threads work in parallel on several operations. -/
def Mode.ofThreads (threads operations : Nat) : Mode :=
  if 1 < threads ∧ 1 < operations then .parallel else .sequential

/-- How closing ended. -/
inductive CloseStatus where
  /-- Nothing is fresh. -/
  | closed
  /-- There are more items than the cap allows. -/
  | capped
  /-- The closure asked to stop. -/
  | stopped
  deriving DecidableEq, Repr

/-- The name of a status. -/
def CloseStatus.text : CloseStatus → String
  | closed => "closed"
  | capped => "capped"
  | stopped => "stopped"

/-- Why a pass ended early. -/
inductive Interruption where
  /-- There are more items than the cap allows. -/
  | capped
  /-- The closure asked to stop. -/
  | stopped
  /-- An operation failed. -/
  | raised (fault : Fault)
  deriving DecidableEq, Repr

/-- The end of a pass that did not get through, with the state it leaves. -/
structure Halt (σ : Type) where
  /-- Why the pass ended. -/
  reason : Interruption
  /-- What was discovered until then. -/
  state : σ

/-- What closing gives: a status or an error, and in any case a state. -/
structure Outcome (σ : Type) where
  /-- How closing ended. -/
  status : Except Fault CloseStatus
  /-- What was discovered. -/
  state : σ

namespace Outcome

variable {σ : Type}

/-- The outcome of a run of passes. -/
def ofPasses : Except (Halt σ) σ → Outcome σ
  | .ok s => ⟨.ok .closed, s⟩
  | .error ⟨.capped, s⟩ => ⟨.ok .capped, s⟩
  | .error ⟨.stopped, s⟩ => ⟨.ok .stopped, s⟩
  | .error ⟨.raised fault, s⟩ => ⟨.error fault, s⟩

/-- The state, unless there was an error. -/
def settled (o : Outcome σ) : Except Fault σ :=
  match o.status with
  | .ok _ => .ok o.state
  | .error fault => .error fault

end Outcome

namespace Closure

variable {σ ι : Type} [Growth σ ι]

open Growth

/-- Shows an image.  After a new item the cap is tested; a cap of zero is none. -/
def absorb (cap : Nat) (s : σ) (x : ι) : Except (Halt σ) σ :=
  match accept s x with
  | .error fault => .error ⟨.raised fault, s⟩
  | .ok (.known, s') => .ok s'
  | .ok (.stop, s') => .error ⟨.stopped, s'⟩
  | .ok (.added, s') => if cap ≠ 0 ∧ cap < size s' then .error ⟨.capped, s'⟩ else .ok s'

/-- Computes one image and shows it. -/
def absorbImage (cap : Nat) (op : Operation) (s : σ) (args : List Nat) : Except (Halt σ) σ :=
  match image s op args with
  | .error fault => .error ⟨.raised fault, s⟩
  | .ok none => .ok s
  | .ok (some x) => absorb cap s x

/-- A pass that shows each image as soon as it is computed. -/
def sequentialPass (cap : Nat) (ops : List Operation) (start stop : Nat) (s : σ) :
    Except (Halt σ) σ :=
  ops.foldlM
    (fun s op => Tuples.foldBoxes (arguments s op start stop) (absorbImage cap op) s) s

/-- The images under one operation that are worth showing, in the order of the arguments. -/
def images (s : σ) (start stop : Nat) (op : Operation) : Except Fault (Array ι) :=
  Tuples.foldBoxes (arguments s op start stop)
    (fun found args =>
      match image s op args with
      | .error fault => .error fault
      | .ok none => .ok found
      | .ok (some x) => .ok (found.push x))
    #[]

/-- A pass that computes the images under all operations before it shows the first. -/
def parallelPass (cap : Nat) (ops : List Operation) (start stop : Nat) (s : σ) :
    Except (Halt σ) σ :=
  match ops.mapM (images s start stop) with
  | .error fault => .error ⟨.raised fault, s⟩
  | .ok buffers => buffers.foldlM (fun s buffer => buffer.toList.foldlM (absorb cap) s) s

/-- A pass in the given mode. -/
def pass (mode : Mode) (cap : Nat) (ops : List Operation) (start stop : Nat) (s : σ) :
    Except (Halt σ) σ :=
  match mode with
  | .sequential => sequentialPass cap ops start stop s
  | .parallel => parallelPass cap ops start stop s

/-- Passes until nothing is fresh: items numbered below `mark` are settled among themselves. -/
def passes (mode : Mode) (cap : Nat) (ops : List Operation) :
    (fuel mark : Nat) → σ → Except (Halt σ) σ
  | 0, _, s => .ok s
  | fuel + 1, mark, s =>
      let stop := size s
      if mark < stop then
        match pass mode cap ops mark stop s with
        | .ok s' => passes mode cap ops fuel stop s'
        | .error halt => .error halt
      else .ok s

/-- Closes under the operations of an algebra.  Each pass but the last adds an item, so the
capacity bounds the number of passes.  Without operations, or if nothing is fresh, there is nothing
to do. -/
def close (A : Algebra) (mode : Mode) (cap mark : Nat) (s : σ) : Outcome σ :=
  if A.operations.isEmpty ∨ size s ≤ mark then .ofPasses (.ok s)
  else .ofPasses (passes mode cap A.operations (capacity A.size s + 1) mark s)

end Closure

end UniversalAlgebra
