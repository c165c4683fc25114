/-
**Generating sets and irreducible subuniverses.**

Every subuniverse is the join of the subuniverses generated by its single elements.  So one with a
unique lower cover is generated by one element, and a subuniverse of that kind has a unique lower
cover exactly if the join of those strictly below it does not reach it; that join is then the lower
cover.

Main definitions:

* `ElementSet.findSorted` — a search in an array whose sets increase;
* `SubalgebraLattice.singleList` — the subuniverses generated by single elements;
* `SubalgebraLattice.minimalGeneratingSet` — the first smallest generating set;
* `SubalgebraLattice.irreducibleData`, `SubalgebraLattice.lowerCover` — subuniverses with a unique
  lower cover, and that cover.
-/

import UniversalAlgebra.Below
import UniversalAlgebra.Selection
import UniversalAlgebra.SubalgebraLattice.Basic

set_option autoImplicit false

namespace UniversalAlgebra

/-- The distinct members of a list of sets, in increasing order. -/
def ElementSet.sortDistinct (ss : List ElementSet) : List ElementSet :=
  dropRepeats (ElementSet.sort ss)

/-- What is kept for `s` in an array whose sets increase: the first set that is not before `s` is
searched by halving. -/
def ElementSet.findSorted (entries : Array (ElementSet × ElementSet)) (s : ElementSet) :
    Option ElementSet :=
  let position := Below.lowerBound entries.size fun i => entries[i]?.any fun entry => entry.1.less s
  match entries[position]? with
  | some (t, value) => if t = s then some value else none
  | none => none

namespace SubalgebraLattice

/-- The distinct subuniverses generated by single elements, in increasing order. -/
def singleList : Query SubalgebraLattice (List ElementSet) :=
  Slot.getOrCompute singles (fun L slot => { L with singles := slot }) do
    return ElementSet.sortDistinct (← (List.range (← get).algebra.size).mapM oneGenerated)

/-- The first of some elements that generates the whole universe. -/
def findGenerator : List Nat → Query SubalgebraLattice (Option ElementSet)
  | [] => pure none
  | x :: rest => do
      if (← oneGenerated x) = (← get).one then pure (some ⟨[x]⟩) else findGenerator rest

/-- The first generating set with a size from a list of sizes, going through the sizes in order. -/
def findGeneratingOfSize (L : SubalgebraLattice) : List Nat → Except Fault (Option ElementSet)
  | [] => .ok none
  | k :: ks => do
      let generates (xs : List Nat) : Except Fault Bool := return (← L.sgExact xs) == L.one
      let n := L.algebra.size
      match ← Selection.find n generates (Nat.pow 2 n) (Selection.first k) with
      | some xs => pure (some (ElementSet.ofList xs))
      | none => L.findGeneratingOfSize ks

/-- A smallest generating set, the first in lexicographic order among those of its size. -/
def minimalGeneratingSet : Query SubalgebraLattice ElementSet :=
  Slot.getOrCompute generatingSet (fun L slot => { L with generatingSet := slot }) do
    let L ← get
    let n := L.algebra.size
    if (← zero) = L.one then pure ⟨[]⟩
    else
      match ← findGenerator (List.range n) with
      | some s => pure s
      | none =>
          match ← L.findGeneratingOfSize (List.range' 2 (n - 2)) with
          | some s => pure s
          | none => pure L.one

/-- The join of those members of a list that lie strictly below `s`, starting from `below`. -/
def joinBelow (s : ElementSet) : List ElementSet → ElementSet → Query SubalgebraLattice ElementSet
  | [], below => pure below
  | t :: ts, below => do
      if t ≠ s ∧ t.subset s then joinBelow s ts (← join below t) else joinBelow s ts below

/-- The subuniverses with exactly one lower cover, in increasing order, each with that cover. -/
def irreducibleData : Query SubalgebraLattice (List (ElementSet × ElementSet)) :=
  Slot.getOrCompute irreducibles (fun L slot => { L with irreducibles := slot }) do
    let candidates ← singleList
    let bottom ← zero
    let entries ← (candidates.filter (· != bottom)).mapM fun s =>
      return (s, ← joinBelow s candidates bottom)
    pure (entries.filter fun (s, below) => below != s)

/-- The subuniverses with exactly one lower cover, in increasing order. -/
def irreducibleList : Query SubalgebraLattice (List ElementSet) :=
  return (← irreducibleData).map (·.1)

/-- The subuniverses with exactly one lower cover, other than the greatest. -/
def joinIrreducibleList : Query SubalgebraLattice (List ElementSet) :=
  Slot.getOrCompute joinIrreducibles (fun L slot => { L with joinIrreducibles := slot }) do
    let irreducible ← irreducibleList
    let one := (← get).one
    pure (irreducible.filter (· != one))

/-- The unique lower cover of a subuniverse that has one. -/
def lowerCover (s : ElementSet) : Query SubalgebraLattice ElementSet := do
  match ElementSet.findSorted (← irreducibleData).toArray s with
  | some cover => pure cover
  | none => throw (.notAnIrreducibleSubalgebra s.elements)

end SubalgebraLattice

end UniversalAlgebra
