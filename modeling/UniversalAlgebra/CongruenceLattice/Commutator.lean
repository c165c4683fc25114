/-
**Matrices and commutators.**

The matrices of two relations `S` and `T` are the quadruples generated by `(s, s, s', s')` for
`(s, s')` in `S` and `(t, t', t, t')` for `(t, t')` in `T`.  A commutator is the least congruence
modulo which all matrices satisfy one of the three centrality conditions.

Main definitions:

* `CongruenceLattice.matrixTuples`, `CongruenceLattice.centrality` — the matrices, and their check
  against one partition;
* `CongruenceLattice.centralityTable` — the check against every congruence;
* `CongruenceLattice.commutator`, `CongruenceLattice.weakCommutator`,
  `CongruenceLattice.rectangularCommutator` — the least congruences.
-/

import UniversalAlgebra.CongruenceLattice.Universe
import UniversalAlgebra.Centrality

set_option autoImplicit false

namespace UniversalAlgebra.CongruenceLattice

/-- The quadruples that generate the matrices of two relations. -/
def matrixGenerators (S T : Relation) : List (List Nat) :=
  (S.pairs.map fun (x, y) => [x, x, y, y]) ++ T.pairs.map fun (x, y) => [x, y, x, y]

/-- The matrices of two relations, as quadruples in the order of their discovery. -/
def matrixTuples (L : CongruenceLattice) (S T : Relation) : Except Fault (List (List Nat)) := do
  L.checkRelation S
  L.checkRelation T
  let s ← L.generateTuples ((SubpowerClosure.start 4).insertAll (matrixGenerators S T))
  pure s.tuples.toList

/-- The check of quadruples, which adds to what is known. -/
def checkTuples (tuples : List (List Nat)) (data : Centrality) : Except Fault Centrality :=
  match Centrality.check (tuples.map Matrix4.ofList) data with
  | .ok () data => pure data
  | .error fault _ => throw fault

/-- The check of all matrices against one partition. -/
def centrality (L : CongruenceLattice) (S T : Relation) (delta : Partition) :
    Except Fault Centrality := do
  L.checkPartition delta
  let data ← Centrality.start S T delta
  checkTuples (← L.matrixTuples S T) data

/-- The check of all matrices against each congruence, in rank order. -/
def centralityTable (S T : Relation) : Query CongruenceLattice (List Centrality) := do
  let deltas ← allCongruences "calc_centrality"
  let tuples ← (← get).matrixTuples S T
  deltas.mapM fun delta => do checkTuples tuples (← Centrality.start S T delta)

/-- The meet of the congruences against which the check has a given result. -/
def leastDelta (S T : Relation) (holds : Centrality → Bool) :
    Query CongruenceLattice Partition := do
  let table ← centralityTable S T
  pure (meetAll (← get).one ((table.filter holds).map (·.delta)))

/-- The least congruence modulo which related first rows give related second rows. -/
def commutator (S T : Relation) : Query CongruenceLattice Partition :=
  leastDelta S T Centrality.holds

/-- The least congruence modulo which an entry related to its neighbours is related to the entry
across. -/
def weakCommutator (S T : Relation) : Query CongruenceLattice Partition :=
  leastDelta S T Centrality.weaklyHolds

/-- The least congruence modulo which related rows come in pairs, and related columns as well. -/
def rectangularCommutator (S T : Relation) : Query CongruenceLattice Partition :=
  leastDelta S T Centrality.isRectangular

end UniversalAlgebra.CongruenceLattice
