/-
**Covers, primeness and chains of congruences.**

The congruences next above a given one are the minimal ones among its joins with irreducible
congruences that are not below it.

Main definitions:

* `CongruenceLattice.upperCovers`, `CongruenceLattice.findUpperCover` — all covers of a congruence,
  and one of least rank;
* `CongruenceLattice.joinPrime`, `CongruenceLattice.isDistributive` — join primeness, and with it
  distributivity of the lattice;
* `CongruenceLattice.isSimple`, `CongruenceLattice.principalChain` — whether there are only the two
  extreme congruences, and a chain between them.
-/

import UniversalAlgebra.CongruenceLattice.Irreducibles

set_option autoImplicit false

namespace UniversalAlgebra

/-- The joins of `p` with those members of a list that are not below it. -/
def properJoins (p : Partition) (ps : List Partition) : List Partition :=
  (ps.filter fun g => !g.refines p).map p.sup

/-- The minimal joins of `p` with members of a list that are not below it, in rank order. -/
def coversAmong (ps : List Partition) (p : Partition) : List Partition :=
  selectMinimal (dropRepeats (Partition.sortByRank (properJoins p ps)))

/-- The first entry of least rank. -/
def firstOfLeastRank : List Partition → Option Partition
  | [] => none
  | p :: ps => some (ps.foldl (fun best q => if q.rank < best.rank then q else best) p)

/-- Whether the join of those members of a list that are not above `beta`, starting from `joined`,
stays not above `beta`. -/
def staysBelow (beta : Partition) : List Partition → Partition → Bool
  | [], _ => true
  | p :: ps, joined =>
      if beta.refines p then staysBelow beta ps joined
      else
        let joined := joined.sup p
        if beta.refines joined then false else staysBelow beta ps joined

namespace CongruenceLattice

/-- The congruences next above a congruence, in rank order. -/
def upperCovers (p : Partition) : Query CongruenceLattice (List Partition) := do
  if ¬ (← (← get).isCongruence p) then throw (.notACongruence p.blocks)
  return coversAmong (← irreducibleList) p

/-- A congruence of least rank next above a congruence, unless that is the greatest.  A caller who hands
in a place for it keeps `p` elsewhere: what is written there while the joins are made is not `p`. -/
def findUpperCover (p : Partition) : Query CongruenceLattice (Option Partition) := do
  (← get).checkPartition p
  if p = (← get).one then pure none
  else
    match firstOfLeastRank (properJoins p (← irreducibleList)) with
    | some cover => pure (some cover)
    | none => throw (.noIrreducibleAbove p.blocks)

/-- Whether a congruence other than the least has exactly one congruence next above it. -/
def isMeetIrreducible (p : Partition) : Query CongruenceLattice Bool := do
  if p = (← get).zero then pure false
  else return (← upperCovers p).length == 1

/-- Whether the irreducible congruences that are not above `beta` have a join that is not above it
either. -/
def joinPrime (beta : Partition) : Query CongruenceLattice Bool := do
  (← get).checkPartition beta
  let irreducible ← irreducibleList
  pure (staysBelow beta irreducible (← get).zero)

/-- Whether every irreducible congruence is join prime. -/
def isDistributive : Query CongruenceLattice Bool := do
  let irreducible ← irreducibleList
  let zero := (← get).zero
  pure (irreducible.all fun beta => staysBelow beta irreducible zero)

/-- Whether there are at least two elements and no congruences but the two extreme ones. -/
def isSimple : Query CongruenceLattice Bool := do
  if (← get).algebra.size < 2 then pure false
  else
    let ps ← principalList
    let one := (← get).one
    pure (ps.all (· == one))

/-- Continues a chain upwards from `p`: each step adds the congruence generated by the two least
representatives.  Each step lowers the number of blocks, which `fuel` bounds. -/
def chainFrom : (fuel : Nat) → Partition → Query CongruenceLattice (List Partition)
  | 0, p => pure [p]
  | fuel + 1, p => do
      if p = (← get).one then pure [p]
      else
        match p.representatives with
        | r :: s :: _ =>
            let above := p.sup (← cg r s)
            return p :: (← chainFrom fuel above)
        | _ => throw .noSecondBlock

/-- A chain from the least to the greatest congruence, each step joining a principal one. -/
def principalChain : Query CongruenceLattice (List Partition) := do
  let L ← get
  chainFrom L.algebra.size L.zero

end CongruenceLattice

end UniversalAlgebra
