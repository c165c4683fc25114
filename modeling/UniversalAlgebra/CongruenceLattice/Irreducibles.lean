/-
**Principal and irreducible congruences.**

Every congruence is the join of the principal congruences below it, those generated by one pair.  So
a congruence with a unique lower cover is principal, and a principal congruence has a unique lower
cover exactly if the join of the principal congruences strictly below it does not reach it; that
join is then the lower cover.

Main definitions:

* `CongruenceLattice.principalData`, `CongruenceLattice.generatingPair` — principal congruences and
  the pairs that generate them;
* `CongruenceLattice.irreducibleData`, `CongruenceLattice.lowerStar` — congruences with a unique
  lower cover, and that cover;
* `CongruenceLattice.joinIrreducibleList`, `CongruenceLattice.atomList` — the irreducible ones other
  than the greatest, and the minimal ones.
-/

import UniversalAlgebra.CongruenceLattice.Basic

set_option autoImplicit false

namespace UniversalAlgebra

/-! ### Principal congruences -/

/-- The pairs `(a, b)` of elements below `n` with `a < b`, in lexicographic order. -/
def increasingPairs (n : Nat) : List (Nat × Nat) :=
  (List.range n).flatMap fun a => (List.range' (a + 1) (n - (a + 1))).map fun b => (a, b)

namespace Principals

/-- The first pair that each congruence of a list is listed with. -/
def firstPairs (entries : List (Partition × (Nat × Nat))) : Std.HashMap Partition (Nat × Nat) :=
  entries.foldl (fun pairs entry => pairs.insertIfNew entry.1 entry.2) ∅

/-- The distinct congruences of a list, each with the first pair it is listed with.  No pair may be
listed twice. -/
def ofEntries (entries : List (Partition × (Nat × Nat))) : Principals :=
  let pairs := firstPairs entries
  let firsts := entries.filter fun entry => pairs[entry.1]? == some entry.2
  ⟨Partition.sortByRank (firsts.map (·.1)), pairs⟩

end Principals

/-! ### Irreducible congruences -/

/-- The join of those members of a list that lie strictly below `beta`, starting from `zero`.  Once
`beta` is reached the rest cannot change it. -/
def joinBelow (beta : Partition) : List Partition → Partition → Partition
  | [], below => below
  | p :: ps, below =>
      if p.refines beta ∧ p ≠ beta then
        let below := below.sup p
        if below = beta then below else joinBelow beta ps below
      else joinBelow beta ps below

/-- The members of a list that are not the join of those strictly below them, each with that
join. -/
def selectIrreducibles (zero : Partition) (ps : List Partition) : List (Partition × Partition) :=
  ps.filterMap fun beta =>
    let below := joinBelow beta ps zero
    if below ≠ beta then some (beta, below) else none

/-- The members of a list without an earlier kept member below them. -/
def selectMinimal : List Partition → List Partition :=
  List.foldl (fun kept p => if kept.any (·.refines p) then kept else kept ++ [p]) []

namespace CongruenceLattice

/-- The congruences generated by single pairs. -/
def principalData : Query CongruenceLattice Principals :=
  Slot.getOrCompute principals (fun L slot => { L with principals := slot }) do
    let entries ← (increasingPairs (← get).algebra.size).mapM fun (a, b) =>
      return (← cg a b, (a, b))
    pure (Principals.ofEntries entries)

/-- The distinct congruences generated by single pairs, other than the least, in rank order. -/
def principalList : Query CongruenceLattice (List Partition) :=
  return (← principalData).elements

/-- The first pair that generates a given congruence. -/
def generatingPair (beta : Partition) : Query CongruenceLattice (Nat × Nat) := do
  (← get).checkPartition beta
  match (← principalData).pairs[beta]? with
  | some p => pure p
  | none => throw (.notPrincipal beta.blocks)

/-- The congruences with exactly one lower cover, in rank order, each with that cover. -/
def irreducibleData : Query CongruenceLattice (List (Partition × Partition)) :=
  Slot.getOrCompute irreducibles (fun L slot => { L with irreducibles := slot }) do
    let ps ← principalList
    pure (selectIrreducibles (← get).zero ps)

/-- The congruences with exactly one lower cover, in rank order. -/
def irreducibleList : Query CongruenceLattice (List Partition) :=
  return (← irreducibleData).map (·.1)

/-- The congruences with exactly one lower cover, other than the greatest. -/
def joinIrreducibleList : Query CongruenceLattice (List Partition) :=
  Slot.getOrCompute joinIrreducibles (fun L slot => { L with joinIrreducibles := slot }) do
    let irreducible ← irreducibleList
    let one := (← get).one
    pure (irreducible.filter (· != one))

/-- Whether a partition is a congruence with exactly one lower cover and not the greatest. -/
def isJoinIrreducible (beta : Partition) : Query CongruenceLattice Bool := do
  (← get).checkPartition beta
  if beta = (← get).one then pure false
  else return (← irreducibleList).contains beta

/-- The unique lower cover of a partition, if it is a congruence that has one. -/
def lowerStar (beta : Partition) : Query CongruenceLattice (Option Partition) := do
  (← get).checkPartition beta
  return (← irreducibleData).lookup beta

/-- The minimal congruences above the least. -/
def atomList : Query CongruenceLattice (List Partition) :=
  Slot.getOrCompute atoms (fun L slot => { L with atoms := slot }) do
    return selectMinimal (← irreducibleList)

end CongruenceLattice

end UniversalAlgebra
