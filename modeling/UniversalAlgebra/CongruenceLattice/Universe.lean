/-
**All congruences.**

The congruences are the joins of irreducible ones.  The list can be cut off by a cap; what needs
the whole list refuses one that was.

Main definitions:

* `CongruenceLattice.congruences` — the congruences in rank order, up to a cap;
* `CongruenceLattice.allCongruences` — the same, refused if it was capped;
* `CongruenceLattice.meetIrreducibleList`, `CongruenceLattice.irredundantMeetDecomposition`;
* `CongruenceLattice.filter`, `CongruenceLattice.complements` — selections from the list.
-/

import UniversalAlgebra.CongruenceLattice.Covers
import UniversalAlgebra.JoinClosure

set_option autoImplicit false

namespace UniversalAlgebra

/-- The meet of a list of partitions, starting from `top`. -/
def meetAll (top : Partition) (ps : List Partition) : Partition := ps.foldl Partition.inf top

/-- Drops members from the last to the first, each if the meet of the others is `bottom`. -/
def dropRedundant (top bottom : Partition) (ps : List Partition) : List Partition :=
  (List.range ps.length).reverse.foldl
    (fun kept i =>
      if meetAll top (kept.eraseIdx i) = bottom then kept.eraseIdx i else kept)
    ps

namespace CongruenceLattice

/-- The congruences in rank order, and whether there are more than the cap allows.  Only a complete
list is kept, and it is then given whatever the cap. -/
def congruences (cap : Nat) : Query CongruenceLattice (List Partition × Bool) := do
  match (← get).complete.value? with
  | some all => pure (all, false)
  | none =>
      let irreducible ← irreducibleList
      let L ← get
      let n := L.algebra.size
      let (found, capped) : List Partition × Bool :=
        Id.run (joinClosure (fun p q => pure (p.sup q)) Partition.refines L.zero irreducible
          (n.pow n) cap)
      let sorted := Partition.sortByRank found
      if capped then pure (sorted, true)
      else
        let all ← modifyGet fun L =>
          let (all, filled) := L.complete.publish sorted
          (all, { L with complete := filled })
        pure (all, false)

/-- All congruences, unless the cap of the lattice cuts the list off. -/
def allCongruences (caller : String) : Query CongruenceLattice (List Partition) := do
  let L ← get
  let (all, capped) ← congruences L.settings.maxSize
  if capped then throw (.latticeCapped caller L.algebra.name) else pure all

/-- The number of congruences. -/
def cardinality : Query CongruenceLattice Nat :=
  return (← allCongruences "cardinality").length

/-- The congruences other than the least with exactly one congruence next above them. -/
def meetIrreducibleList : Query CongruenceLattice (List Partition) := do
  let all ← allCongruences "meet_irreducibles"
  Slot.getOrCompute meetIrreducibles (fun L slot => { L with meetIrreducibles := slot })
    (all.filterM isMeetIrreducible)

/-- Meet irreducible congruences whose meet is the least one, none of which can be dropped.  If the
least congruence is itself meet irreducible it stands alone; with one element there is none. -/
def irredundantMeetDecomposition : Query CongruenceLattice (List Partition) := do
  let candidates ← meetIrreducibleList
  let L ← get
  if L.zero = L.one then pure candidates
  else if (← upperCovers L.zero).length = 1 then pure [L.zero]
  else pure (dropRedundant L.one L.zero candidates)

/-- The congruences above a partition. -/
def filter (p : Partition) : Query CongruenceLattice (List Partition) := do
  (← get).checkPartition p
  return (← allCongruences "filter").filter p.refines

/-- The congruences whose join with a partition is the greatest and whose meet with it the least. -/
def complements (p : Partition) : Query CongruenceLattice (List Partition) := do
  (← get).checkPartition p
  let all ← allCongruences "complements"
  let L ← get
  pure (all.filter fun q => p.sup q == L.one && p.inf q == L.zero)

end CongruenceLattice

end UniversalAlgebra
