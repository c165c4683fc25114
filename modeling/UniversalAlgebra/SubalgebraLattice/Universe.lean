/-
**Covers and the list of all subuniverses.**

The subuniverses next above a given one are the minimal ones among its joins with irreducible
subuniverses that it does not contain, and all subuniverses are joins of irreducible ones.  The list
of all can be cut off by a cap; what needs the whole list refuses one that was.

Main definitions:

* `SubalgebraLattice.upperCovers` — the covers of a subuniverse;
* `SubalgebraLattice.subuniverses`, `SubalgebraLattice.allSubuniverses` — the list up to a cap, and
  the whole list;
* `SubalgebraLattice.meetIrreducibleList`, `SubalgebraLattice.filter` — selections from the list.
-/

import UniversalAlgebra.SubalgebraLattice.Irreducibles
import UniversalAlgebra.JoinClosure

set_option autoImplicit false

namespace UniversalAlgebra

/-- The members of a list that contain no other member. -/
def ElementSet.minimalAmong (ss : List ElementSet) : List ElementSet :=
  ss.filter fun s => ss.all fun t => t == s || !t.subset s

namespace SubalgebraLattice

/-- The subuniverses next above a subuniverse, in increasing order. -/
def upperCovers (s : ElementSet) : Query SubalgebraLattice (List ElementSet) := do
  if ¬ (← (← get).isSubuniverse s) then throw (.notASubuniverse s.elements)
  let irreducible ← irreducibleList
  let candidates ← (irreducible.filter fun g => !g.subset s).mapM (join s)
  pure (ElementSet.minimalAmong (ElementSet.sortDistinct candidates))

/-- The subuniverses in increasing order, and whether there are more than the cap allows.  Only a
complete list is kept, and it is then given whatever the cap. -/
def subuniverses (cap : Nat) : Query SubalgebraLattice (List ElementSet × Bool) := do
  match (← get).complete.value? with
  | some all => pure (all, false)
  | none =>
      let irreducible ← irreducibleList
      let bottom ← zero
      let bound := Nat.pow 2 (← get).algebra.size
      let (found, capped) ← joinClosure join ElementSet.subset bottom irreducible bound cap
      let sorted := ElementSet.sort found
      if capped then pure (sorted, true)
      else
        let all ← modifyGet fun L =>
          let (all, filled) := L.complete.publish sorted
          (all, { L with complete := filled })
        pure (all, false)

/-- All subuniverses, unless the cap of the lattice cuts the list off. -/
def allSubuniverses (caller : String) : Query SubalgebraLattice (List ElementSet) := do
  let L ← get
  let (all, capped) ← subuniverses L.settings.maxSize
  if capped then throw (.latticeCapped caller L.algebra.name) else pure all

/-- The number of subuniverses. -/
def cardinality : Query SubalgebraLattice Nat :=
  return (← allSubuniverses "cardinality").length

/-- Whether a subuniverse other than the least has exactly one subuniverse next above it. -/
def isMeetIrreducible (s : ElementSet) : Query SubalgebraLattice Bool := do
  if s = (← zero) then pure false else return (← upperCovers s).length == 1

/-- The subuniverses other than the least with exactly one subuniverse next above them. -/
def meetIrreducibleList : Query SubalgebraLattice (List ElementSet) := do
  let all ← allSubuniverses "meet_irreducibles"
  Slot.getOrCompute meetIrreducibles (fun L slot => { L with meetIrreducibles := slot })
    (all.filterM isMeetIrreducible)

/-- The subuniverses that contain a set. -/
def filter (s : ElementSet) : Query SubalgebraLattice (List ElementSet) :=
  return (← allSubuniverses "filter").filter s.subset

end SubalgebraLattice

end UniversalAlgebra
