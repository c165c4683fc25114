/-
**The lattice of congruences: state and generation.**

A congruence lattice belongs to an algebra and keeps what was computed on its behalf: the congruences
generated by single pairs and by partitions, and the derived lists.  What is kept is never replaced
until a reset.

Main definitions:

* `CongruenceLattice`, `CongruenceLattice.start`, `CongruenceLattice.reset` — the lattice and its
  caches;
* `CongruenceLattice.generate` — the congruence generated by a closure, without caches;
* `CongruenceLattice.cg`, `CongruenceLattice.generatedBy` — the same with caches;
* `CongruenceLattice.tolerance` — the tolerance generated by a pair.
-/

import UniversalAlgebra.Closure.Congruence
import UniversalAlgebra.Closure.Subpower
import UniversalAlgebra.Closure.Settings
import UniversalAlgebra.Partition.Order
import UniversalAlgebra.Relation
import UniversalAlgebra.Query

set_option autoImplicit false

namespace UniversalAlgebra

/-- The congruences generated by single pairs, other than the least. -/
structure Principals where
  /-- In rank order, each once. -/
  elements : List Partition
  /-- Each with the first pair that generates it. -/
  pairs : Std.HashMap Partition (Nat × Nat)

/-- The lattice of congruences of an algebra, with what was computed so far. -/
structure CongruenceLattice where
  /-- The algebra. -/
  algebra : Algebra
  /-- The size cap for the universe, and the number of threads. -/
  settings : Settings
  /-- The congruences generated by single pairs, the smaller element first. -/
  principal : Memo (Nat × Nat) Partition
  /-- The congruences generated by partitions. -/
  generated : Memo Partition Partition
  /-- The congruences generated by single pairs, as a list. -/
  principals : Slot Principals
  /-- The congruences with exactly one lower cover, each with that cover. -/
  irreducibles : Slot (List (Partition × Partition))
  /-- The join irreducible congruences other than the greatest. -/
  joinIrreducibles : Slot (List Partition)
  /-- The minimal congruences above the least. -/
  atoms : Slot (List Partition)
  /-- All congruences. -/
  complete : Slot (List Partition)
  /-- The meet irreducible congruences other than the least. -/
  meetIrreducibles : Slot (List Partition)

namespace CongruenceLattice

/-- The lattice of an algebra before anything was computed. -/
def start (A : Algebra) (settings : Settings) : CongruenceLattice :=
  ⟨A, settings, .vacant, .vacant, .vacant, .vacant, .vacant, .vacant, .vacant, .vacant⟩

/-- Forgets what was computed. -/
def reset (L : CongruenceLattice) : CongruenceLattice := start L.algebra L.settings

/-- The least congruence. -/
def zero (L : CongruenceLattice) : Partition := Partition.finest L.algebra.size

/-- The greatest congruence. -/
def one (L : CongruenceLattice) : Partition := Partition.coarsest L.algebra.size

/-- How closures of the lattice run. -/
def mode (L : CongruenceLattice) : Mode :=
  .ofThreads L.settings.threads L.algebra.operations.length

/-- Refuses a partition that does not have the size of the algebra. -/
def checkPartition (L : CongruenceLattice) (p : Partition) : Except Fault Unit :=
  if p.size = L.algebra.size then .ok ()
  else .error (.partitionSize p.size L.algebra.name L.algebra.size)

/-- Refuses a relation that does not have the size of the algebra. -/
def checkRelation (L : CongruenceLattice) (r : Relation) : Except Fault Unit :=
  if r.size = L.algebra.size then .ok ()
  else .error (.relationSize r.size L.algebra.name L.algebra.size)

/-! ### Generation without caches -/

/-- The partition to which a closure grows. -/
def generate (L : CongruenceLattice) (s : CongruenceClosure) : Except Fault Partition := do
  let s ← (Closure.close L.algebra L.mode 0 0 s).settled
  pure s.partition

/-- The tuples to which a closure grows. -/
def generateTuples (L : CongruenceLattice) (s : SubpowerClosure Unit) :
    Except Fault (SubpowerClosure Unit) :=
  (Closure.close L.algebra L.mode 0 0 s).settled

/-- The least congruence above a partition. -/
def cgPartition (L : CongruenceLattice) (p : Partition) : Except Fault Partition := do
  L.checkPartition p
  L.generate (.ofPartition p)

/-- Refuses a pair that is not one of elements. -/
def checkPair (L : CongruenceLattice) (p : Nat × Nat) : Except Fault Unit := do
  L.algebra.validate p.1
  L.algebra.validate p.2

/-- The least congruence that contains given pairs.  Each pair is checked when its turn comes. -/
def cgPairs (L : CongruenceLattice) (ps : List (Nat × Nat)) : Except Fault Partition := do
  let s ← ps.foldlM
    (fun s p => do
      L.checkPair p
      pure (s.merge p.1 p.2).2)
    (CongruenceClosure.start L.algebra.size)
  L.generate s

/-- Whether a partition is compatible with the operations. -/
def isCongruence (L : CongruenceLattice) (p : Partition) : Except Fault Bool :=
  return (← L.cgPartition p) == p

/-- The least reflexive, symmetric and compatible relation that contains a pair. -/
def tolerance (L : CongruenceLattice) (a b : Nat) : Except Fault Relation := do
  L.checkPair (a, b)
  let n := L.algebra.size
  let generators := [a, b] :: [b, a] :: SubpowerClosure.diagonal 2 (List.range n)
  let s ← L.generateTuples ((SubpowerClosure.start 2).insertAll generators)
  let pairs := s.tuples.toList.map fun t => (t[0]?.getD 0, t[1]?.getD 0)
  pure (pairs.foldl (fun r p => r.add p.1 p.2) (Relation.empty n))

/-! ### Generation with caches -/

/-- The congruence generated by a pair. -/
def cg (a b : Nat) : Query CongruenceLattice Partition := do
  (← get).checkPair (a, b)
  if a = b then return (← get).zero
  else
    let key := (min a b, max a b)
    Memo.findOrCompute principal (fun L table => { L with principal := table }) key do
      let L ← get
      L.generate ((CongruenceClosure.start L.algebra.size).merge key.1 key.2).2

/-- The partition generated by given pairs.  Each pair is checked when its turn comes. -/
def seed (L : CongruenceLattice) (ps : List (Nat × Nat)) : Except Fault Partition :=
  ps.foldlM
    (fun p q => do
      L.checkPair q
      pure (p.relate q.1 q.2))
    L.zero

/-- The congruence generated by given pairs. -/
def generatedBy (ps : List (Nat × Nat)) : Query CongruenceLattice Partition := do
  match ps with
  | [(a, b)] => cg a b
  | _ =>
      let seed ← (← get).seed ps
      if seed.isFinest then return (← get).zero
      else
        Memo.findOrCompute generated (fun L table => { L with generated := table }) seed do
          (← get).cgPartition seed

end CongruenceLattice

end UniversalAlgebra
