/-
**Closures of sets of tuples.**

The items are tuples of one length; an operation is applied to discovered tuples coordinate by
coordinate.  An observer is shown each new tuple and may ask to stop.  It keeps a state of its own
from one tuple to the next, and is not shown the generators.

Main definitions:

* `SubpowerClosure`, `SubpowerClosure.start`, `SubpowerClosure.observed` — the tuples discovered so
  far, without an observer or with one;
* `SubpowerClosure.insert`, `SubpowerClosure.fold` — takes in a generator, or any other tuple.
-/

import UniversalAlgebra.Closure.Engine
import Std.Data.HashSet

set_option autoImplicit false

namespace UniversalAlgebra

/-- A growing set of tuples of length `power`, with an observer whose states are in `τ`. -/
structure SubpowerClosure (τ : Type) where
  /-- The length of the tuples. -/
  power : Nat
  /-- Shown a new tuple, says whether to go on. -/
  observe : τ → List Nat → Bool × τ
  /-- The state of the observer. -/
  observer : τ
  /-- The tuples discovered so far. -/
  members : Std.HashSet (List Nat)
  /-- The same tuples in the order of their discovery. -/
  tuples : Array (List Nat)

namespace SubpowerClosure

variable {τ : Type}

/-- Nothing was discovered, and an observer in a given state looks on. -/
def observed (power : Nat) (observe : τ → List Nat → Bool × τ) (observer : τ) :
    SubpowerClosure τ :=
  ⟨power, observe, observer, ∅, #[]⟩

/-- Nothing was discovered, and nobody looks on. -/
def start (power : Nat) : SubpowerClosure Unit := observed power (fun _ _ => (true, ())) ()

/-- Whether a tuple was discovered. -/
def contains (s : SubpowerClosure τ) (t : List Nat) : Bool := s.members.contains t

/-- Takes in a generator, unless it is there.  The observer is not shown it. -/
def insert (s : SubpowerClosure τ) (t : List Nat) : SubpowerClosure τ :=
  if s.contains t then s else { s with members := s.members.insert t, tuples := s.tuples.push t }

/-- Takes in the generators of a list one after the other. -/
def insertAll (s : SubpowerClosure τ) (ts : List (List Nat)) : SubpowerClosure τ :=
  ts.foldl insert s

/-- Takes in a tuple, unless it is there, and shows it to the observer. -/
def fold (s : SubpowerClosure τ) (t : List Nat) : Reaction × SubpowerClosure τ :=
  if s.contains t then (.known, s)
  else
    let (goOn, observer) := s.observe s.observer t
    let s :=
      { s with observer := observer, members := s.members.insert t, tuples := s.tuples.push t }
    (if goOn then .added else .stop, s)

/-- The values of an operation at the first `power` columns of some rows, after those that were
found before, which are listed from the last to the first. -/
def applyColumns (op : Operation) (found : List Nat) :
    (power : Nat) → (rows : List (List Nat)) → Except Fault (List Nat)
  | 0, _ => .ok found.reverse
  | power + 1, rows => do
      let value ← op.apply (rows.map (·.headD 0))
      applyColumns op (value :: found) power (rows.map List.tail)

/-- The coordinatewise value of an operation at discovered tuples, given by their numbers. -/
def image (s : SubpowerClosure τ) (op : Operation) (indices : List Nat) :
    Except Fault (List Nat) :=
  applyColumns op [] s.power (indices.map fun i => s.tuples[i]?.getD [])

instance : Growth (SubpowerClosure τ) (List Nat) where
  size s := s.tuples.size
  capacity n s := n.pow s.power
  accept s t := .ok (s.fold t)
  arguments _ op start stop := Tuples.freshBoxes op.arity start stop
  image s op indices := some <$> s.image op indices

/-- The constant tuples of a list of elements. -/
def diagonal (power : Nat) (xs : List Nat) : List (List Nat) := xs.map (List.replicate power)

end SubpowerClosure

end UniversalAlgebra
