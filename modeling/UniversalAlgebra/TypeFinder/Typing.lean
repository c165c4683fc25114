/-
**The type of a subtrace.**

A quadruple `(x, y, u, v)` generated from a subtrace is the table of a binary polynomial on it, with
rows `x y` and `u v`, read modulo the lower congruence.  A table with one unrelated pair of
neighbours in a row or column, opposite to a related one, behaves like a join or like a meet;
which of the two and whether the subtrace has an involution decide the type.

Main definitions:

* `Snags`, `Snags.observe`, `Snags.verdict` — the patterns seen so far, and the type they give;
* `TypeFinder.typeSubtrace` — the type of a subtrace;
* `TypeFinder.findType`, `TypeFinder.findTypeOfCover`, `TypeFinder.findTypeSet` — the types of a
  congruence over its lower cover, of a cover, and of all irreducible congruences;
* `TypeFinder.classify` — a typed subtrace with the centrality of its cover.
-/

import UniversalAlgebra.TypeFinder.Search

set_option autoImplicit false

namespace UniversalAlgebra

/-- The patterns seen so far in quadruples. -/
structure Snags where
  /-- A quadruple like a join was seen. -/
  join : Bool
  /-- A quadruple like a meet was seen. -/
  meet : Bool
  /-- A quadruple that no essentially unary polynomial has was seen. -/
  oneSnag : Bool
  /-- The type, if the patterns decided it before everything was seen. -/
  decided : Option TameType
  deriving DecidableEq, Repr

namespace Snags

/-- Nothing was seen. -/
def nothing : Snags := ⟨false, false, false, none⟩

/-- Whether the first row or column is split while the second is not. -/
def isJoinLike (x y u v : Nat) : Bool := (x != y && u == v) || (x != u && y == v)

/-- Whether the second row or column is split while the first is not. -/
def isMeetLike (x y u v : Nat) : Bool := (x == y && u != v) || (x == u && y != v)

/-- Whether one diagonal is not split while a row is. -/
def isOneSnag (x y u v : Nat) : Bool := (x == v || y == u) && (x != y || u != v)

/-- Notes the pattern of a quadruple of representatives.  A quadruple that is both like a join and
like a meet counts as the first of the two that was not seen yet. -/
def note (involution : Bool) (s : Snags) (x y u v : Nat) : Snags :=
  let s :=
    if !s.join && isJoinLike x y u v then
      if involution then { s with decided := some .boolean }
      else if s.meet then { s with decided := some .lattice }
      else { s with join := true, oneSnag := true }
    else if !s.meet && isMeetLike x y u v then
      if involution then { s with decided := some .boolean }
      else if s.join then { s with decided := some .lattice }
      else { s with meet := true, oneSnag := true }
    else s
  if !s.oneSnag && isOneSnag x y u v then { s with oneSnag := true } else s

/-- Notes the pattern of a quadruple modulo `alpha`, and goes on until the type is decided. -/
def observe (alpha : Partition) (involution : Bool) (s : Snags) (t : List Nat) : Bool × Snags :=
  let entry (i : Nat) : Nat := alpha.rep (t[i]?.getD 0)
  let s := s.note involution (entry 0) (entry 1) (entry 2) (entry 3)
  (s.decided.isNone, s)

/-- The type that the patterns give. -/
def verdict (s : Snags) : TameType :=
  match s.decided with
  | some t => t
  | none =>
      if s.join || s.meet then .semilattice
      else if s.oneSnag then .affine
      else .unary

end Snags

namespace TypeFinder

/-- The quadruples that generate the tables of a subtrace: one constant table for each block of the
lower congruence, and the two projections. -/
def tableGenerators (alpha : Partition) (c d : Nat) : List (List Nat) :=
  SubpowerClosure.diagonal 4 alpha.representatives ++ [[c, c, d, d], [c, d, c, d]]

/-- Determines the type of a subtrace relative to the lower congruence. -/
def typeSubtrace (s : Subtrace) : Query TypeFinder Subtrace := do
  let F ← get
  F.checkPair s.pair
  let closure := SubpowerClosure.observed 4 (Snags.observe F.alpha s.hasInvolution) .nothing
  let outcome := Closure.close F.algebra F.lattice.mode 0 0
    (closure.insertAll (tableGenerators F.alpha s.a s.b))
  let explored ← outcome.settled
  pure { s with type := explored.observer.verdict, matrices := explored.tuples.toList }

/-- The type of `beta` over the join of `alpha` with its lower cover. -/
def findTypeOver (beta : Argument) (alpha : Partition) : Query TypeFinder TameType := do
  return (← typeSubtrace (← findSubtraceOver beta alpha)).type

/-- The type of `beta` over its lower cover. -/
def findType (beta : Argument) : Query TypeFinder TameType := do
  findTypeOver beta (← lowerStar (← beta.look))

/-- The type of a cover.  The first irreducible congruence in rank order that lies below `beta` but
not below `alpha` has its lower cover below `alpha`.  Neither argument is looked at after the lower
congruence has changed. -/
def findTypeOfCover (alpha beta : Partition) : Query TypeFinder TameType := do
  if ¬ (← inLattice (CongruenceLattice.upperCovers alpha)).contains beta then
    throw (.notACover beta.blocks alpha.blocks)
  let irreducible ← inLattice CongruenceLattice.irreducibleList
  match irreducible.find? fun g => g.refines beta && !g.refines alpha with
  | some gamma => findTypeOver gamma alpha
  | none => throw (.noIrreducibleBetween beta.blocks alpha.blocks)

/-- The types of all irreducible congruences, by increasing number. -/
def findTypeSet : Query TypeFinder (List TameType) :=
  Slot.getOrCompute types (fun F slot => { F with types := slot }) do
    let found ← (← inLattice CongruenceLattice.irreducibleList).mapM
      fun beta : Partition => findType beta
    pure ((sortedDistinct (found.map TameType.number)).map TameType.ofNumber)

/-- A typed subtrace of `beta` over its lower cover, with the centrality of the cover if that is
asked for. -/
def classify (beta : Argument) (withCentrality : Bool) : Query TypeFinder Subtrace := do
  let s ← typeSubtrace (← findSubtrace beta)
  if withCentrality then
    let F ← get
    let relation := Relation.ofPartition (← beta.look)
    return { s with centrality := some (← F.lattice.centrality relation relation F.alpha) }
  else pure s

end TypeFinder

end UniversalAlgebra
