/-
**The lattice of subuniverses: state, generation and joins.**

A subalgebra lattice belongs to an algebra and keeps what was computed on its behalf.  The table of
generated subuniverses is shared between generation and joins: the join of two sets is kept under
their union.  A join takes the larger operand for closed and only draws arguments with an element of
the other one.

Main definitions:

* `SubalgebraLattice`, `SubalgebraLattice.start`, `SubalgebraLattice.reset` — the lattice and its
  caches;
* `SubalgebraLattice.closeSeed`, `SubalgebraLattice.sg` — generation without caches, up to a cap;
* `SubalgebraLattice.oneGenerated`, `SubalgebraLattice.generatedBy` — the same with caches;
* `SubalgebraLattice.join` — the join of two subuniverses.
-/

import UniversalAlgebra.Closure.Subuniverse
import UniversalAlgebra.Closure.Settings
import UniversalAlgebra.ElementSet
import UniversalAlgebra.Query

set_option autoImplicit false

namespace UniversalAlgebra

/-- The lattice of subuniverses of an algebra, with what was computed so far. -/
structure SubalgebraLattice where
  /-- The algebra. -/
  algebra : Algebra
  /-- The size cap for the list of subuniverses, and the number of threads. -/
  settings : Settings
  /-- The least subuniverse. -/
  bottom : Slot ElementSet
  /-- The subuniverses generated by single elements. -/
  single : Memo Nat ElementSet
  /-- The subuniverses generated by sets. -/
  generated : Memo ElementSet ElementSet
  /-- The subuniverses generated by single elements, as a list. -/
  singles : Slot (List ElementSet)
  /-- The first smallest generating set. -/
  generatingSet : Slot ElementSet
  /-- The subuniverses with exactly one lower cover, each with that cover. -/
  irreducibles : Slot (List (ElementSet × ElementSet))
  /-- The join irreducible subuniverses other than the greatest. -/
  joinIrreducibles : Slot (List ElementSet)
  /-- All subuniverses. -/
  complete : Slot (List ElementSet)
  /-- The meet irreducible subuniverses other than the least. -/
  meetIrreducibles : Slot (List ElementSet)

namespace SubalgebraLattice

/-- The lattice of an algebra before anything was computed. -/
def start (A : Algebra) (settings : Settings) : SubalgebraLattice :=
  ⟨A, settings, .vacant, .vacant, .vacant, .vacant, .vacant, .vacant, .vacant, .vacant, .vacant⟩

/-- Forgets what was computed. -/
def reset (L : SubalgebraLattice) : SubalgebraLattice := start L.algebra L.settings

/-- The greatest subuniverse. -/
def one (L : SubalgebraLattice) : ElementSet := ElementSet.below L.algebra.size

/-- How closures of the lattice run. -/
def mode (L : SubalgebraLattice) : Mode :=
  .ofThreads L.settings.threads L.algebra.operations.length

/-! ### Generation without caches -/

/-- Closes a list of elements, the first `mark` of which are closed among themselves.  If there turn
out to be more elements than the cap allows, the answer is the whole universe, flagged. -/
def closeSeed (L : SubalgebraLattice) (seed : List Nat) (mark cap : Nat) :
    Except Fault (ElementSet × Bool) := do
  let s := (SubuniverseClosure.start L.algebra.size).foldAll seed
  if cap ≠ 0 ∧ cap < s.elements.size then pure (L.one, true)
  else
    let outcome := Closure.close L.algebra L.mode cap mark s
    match ← outcome.status with
    | .capped => pure (L.one, true)
    | _ => pure (ElementSet.ofList outcome.state.elements.toList, false)

/-- Refuses a list with an entry that is no element. -/
def checkElements (L : SubalgebraLattice) (xs : List Nat) : Except Fault Unit :=
  xs.forM L.algebra.validate

/-- The subuniverse generated by elements and the constants, up to a cap. -/
def sg (L : SubalgebraLattice) (generators : List Nat) (cap : Nat) :
    Except Fault (ElementSet × Bool) := do
  L.checkElements generators
  L.closeSeed (generators ++ L.algebra.constants) 0 cap

/-- The subuniverse generated by elements and the constants. -/
def sgExact (L : SubalgebraLattice) (generators : List Nat) : Except Fault ElementSet :=
  return (← L.sg generators 0).1

/-- Whether a set is closed under the operations. -/
def isSubuniverse (L : SubalgebraLattice) (s : ElementSet) : Except Fault Bool :=
  return (← L.sgExact s.elements) == s

/-! ### Generation with caches -/

/-- The least subuniverse. -/
def zero : Query SubalgebraLattice ElementSet :=
  Slot.getOrCompute bottom (fun L slot => { L with bottom := slot }) do (← get).sgExact []

/-- The subuniverse generated by one element. -/
def oneGenerated (x : Nat) : Query SubalgebraLattice ElementSet := do
  (← get).algebra.validate x
  Memo.findOrCompute single (fun L table => { L with single := table }) x do (← get).sgExact [x]

/-- The subuniverse generated by a set. -/
def generatedBy (s : ElementSet) : Query SubalgebraLattice ElementSet := do
  match s.elements with
  | [x] => oneGenerated x
  | xs =>
      (← get).checkElements xs
      Memo.findOrCompute generated (fun L table => { L with generated := table }) s do
        (← get).sgExact xs

/-- The join of two subuniverses.  If neither contains the other, it is kept under their union. -/
def join (s t : ElementSet) : Query SubalgebraLattice ElementSet := do
  if s.subset t then pure t
  else if t.subset s then pure s
  else
    let (big, small) := if s.size < t.size then (t, s) else (s, t)
    Memo.findOrCompute generated (fun L table => { L with generated := table }) (s.union t) do
      let (value, _) ← (← get).closeSeed (big.elements ++ small.elements) big.size 0
      pure value

end SubalgebraLattice

end UniversalAlgebra
