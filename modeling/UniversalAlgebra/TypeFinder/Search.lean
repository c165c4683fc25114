/-
**The search for subtraces.**

A search runs relative to a congruence `alpha`.  It moves from a pair to an image pair that `alpha`
does not relate and that was not visited before, until there is none; the pair it ends at is a
subtrace.  Which unordered pairs were visited is kept from one step to the next, and is forgotten
when `alpha` changes.

Main definitions:

* `TypeFinder`, `TypeFinder.start`, `TypeFinder.reset` — the state of the search;
* `TypeFinder.setAlpha`, `TypeFinder.setJoinedAlpha` — choosing `alpha`;
* `TypeFinder.Argument` — a congruence that is handed to a search, possibly the search's own `alpha`;
* `TypeFinder.nextPair` — one step;
* `TypeFinder.findSubtraceOfPair`, `TypeFinder.findSubtrace` — the search from a pair, and from a
  generating pair of a congruence;
* `TypeFinder.isSubtrace` — whether a pair lies in what its own search ends at.
-/

import UniversalAlgebra.CongruenceLattice.Commutator
import UniversalAlgebra.TypeFinder.Subtrace

set_option autoImplicit false

namespace UniversalAlgebra

/-- A search for subtraces over a congruence lattice. -/
structure TypeFinder where
  /-- The congruences of the algebra. -/
  lattice : CongruenceLattice
  /-- The congruence whose related pairs count as collapsed. -/
  alpha : Partition
  /-- The pairs visited so far, the smaller element first. -/
  visited : Std.HashSet (Nat × Nat)
  /-- The types of the irreducible congruences, by increasing number. -/
  types : Slot (List TameType)

namespace TypeFinder

/-- The search over a lattice, relative to the least congruence. -/
def start (L : CongruenceLattice) : TypeFinder := ⟨L, L.zero, ∅, .vacant⟩

/-- Forgets what was visited and typed, and goes back to the least congruence. -/
def reset (F : TypeFinder) : TypeFinder := start F.lattice

/-- The algebra. -/
def algebra (F : TypeFinder) : Algebra := F.lattice.algebra

/-- A query to the lattice. -/
def inLattice {α : Type} (query : Query CongruenceLattice α) : Query TypeFinder α := fun F =>
  match query F.lattice with
  | .ok x L => .ok x { F with lattice := L }
  | .error fault L => .error fault { F with lattice := L }

/-! ### Choosing the lower congruence -/

/-- Makes a congruence the lower one; what was visited is forgotten if it is another one. -/
def setAlpha (alpha : Partition) : Query TypeFinder Unit := do
  if ¬ (← (← get).lattice.isCongruence alpha) then throw (.notACongruence alpha.blocks)
  modify fun F => if alpha ≠ F.alpha then { F with alpha := alpha, visited := ∅ } else F

/-- The unique lower cover of a congruence that has one. -/
def lowerStar (beta : Partition) : Query TypeFinder Partition := do
  match ← inLattice (CongruenceLattice.lowerStar beta) with
  | some lower => pure lower
  | none => throw (.notJoinIrreducible beta.blocks)

/-- Makes the join of `alpha` with the lower cover of `beta` the lower congruence.  It must not lie
above `beta`. -/
def setJoinedAlpha (beta alpha : Partition) : Query TypeFinder Unit := do
  let lower ← lowerStar beta
  if alpha.size ≠ beta.size then throw (.alphaSize alpha.size beta.size)
  let joined := alpha.sup lower
  if beta.refines joined then throw (.betaBelowAlpha beta.blocks joined.blocks)
  setAlpha joined

/-! ### Arguments -/

/-- A congruence that is handed to a search: one that the caller holds, or the lower congruence of the
search itself.  The search takes no copy.  The lower congruence is what it was made last when it is
looked at, also if that happens in the middle of the search that it was handed to. -/
inductive Argument where
  | held (p : Partition)
  | alpha

namespace Argument

instance : Coe Partition Argument := ⟨held⟩

/-- The congruence that an argument is while the lower congruence is `current`. -/
def read : Argument → (current : Partition) → Partition
  | held p, _ => p
  | alpha, current => current

/-- Looks at an argument. -/
def look (x : Argument) : Query TypeFinder Partition := do return x.read (← get).alpha

end Argument

/-! ### Steps -/

/-- A pair with the smaller element first. -/
def normalize (p : Nat × Nat) : Nat × Nat := if p.1 < p.2 then p else (p.2, p.1)

/-- What an observer of image pairs keeps. -/
structure Watch where
  /-- The pairs visited so far. -/
  visited : Std.HashSet (Nat × Nat)
  /-- The first pair that was neither collapsed nor visited. -/
  next : Option (Nat × Nat)

/-- Lets a pair pass that is collapsed by `alpha` or was visited, and stops at any other. -/
def Watch.observe (alpha : Partition) (w : Watch) (t : List Nat) : Bool × Watch :=
  let p := (t[0]?.getD 0, t[1]?.getD 0)
  if alpha.related p.1 p.2 then (true, w)
  else if w.visited.contains (normalize p) then (true, w)
  else (false, ⟨w.visited.insert (normalize p), some p⟩)

/-- A pair and the diagonal. -/
def pairGenerators (n : Nat) (p : Nat × Nat) : List (List Nat) :=
  [p.1, p.2] :: SubpowerClosure.diagonal 2 (List.range n)

/-- Refuses a pair that is not one of elements. -/
def checkPair (F : TypeFinder) (p : Nat × Nat) : Except Fault Unit := do
  F.algebra.validate p.1
  F.algebra.validate p.2

/-- Visits a pair and looks for an image pair that is neither collapsed nor visited, which is then
visited as well.  If there is none, the pair is a subtrace. -/
def nextPair (p : Nat × Nat) : Query TypeFinder (Option (Nat × Nat)) := do
  (← get).checkPair p
  modify fun F => { F with visited := F.visited.insert (normalize p) }
  let F ← get
  let closure := SubpowerClosure.observed 2 (Watch.observe F.alpha) ⟨F.visited, none⟩
  let outcome := Closure.close F.algebra F.lattice.mode 0 0
    (closure.insertAll (pairGenerators F.algebra.size p))
  let watch := outcome.state.observer
  set { F with visited := watch.visited }
  let _ ← outcome.status
  pure watch.next

/-! ### Searches -/

/-- Goes on from pair to pair until there is no next one.  Each step visits a new pair, so `fuel`
need not exceed the number of unordered pairs. -/
def lastPair : (fuel : Nat) → Nat × Nat → Query TypeFinder (Nat × Nat)
  | 0, p => pure p
  | fuel + 1, p => do
      match ← nextPair p with
      | some q => lastPair fuel q
      | none => pure p

/-- The subtrace of a pair at which a search ended. -/
def certify (F : TypeFinder) (p : Nat × Nat) : Except Fault Subtrace := do
  let generators := pairGenerators F.algebra.size p
  let s ← F.lattice.generateTuples ((SubpowerClosure.start 2).insertAll generators)
  pure { Subtrace.ofPair p (s.contains [p.2, p.1]) with pairs := s.tuples.toList }

/-- The subtrace at which the search from a pair ends. -/
def findSubtraceOfPair (p : Nat × Nat) : Query TypeFinder Subtrace := do
  let F ← get
  F.checkPair p
  if F.alpha.related p.1 p.2 then throw (.collapsed p F.alpha.blocks)
  set { F with visited := ∅ }
  let q ← lastPair (F.algebra.size * F.algebra.size + 1) p
  (← get).certify q

/-- The subtrace at which the search from a generating pair of `beta` ends, relative to the join of
`alpha` with the lower cover of `beta`.  `beta` is looked at again after the join has become the lower
congruence; `alpha` is not, so that a value stands for it. -/
def findSubtraceOver (beta : Argument) (alpha : Partition) : Query TypeFinder Subtrace := do
  setJoinedAlpha (← beta.look) alpha
  findSubtraceOfPair (← inLattice (CongruenceLattice.generatingPair (← beta.look)))

/-- The subtrace at which the search from a generating pair of `beta` ends, relative to its lower
cover. -/
def findSubtrace (beta : Argument) : Query TypeFinder Subtrace := do
  findSubtraceOver beta (← lowerStar (← beta.look))

/-- Whether a pair is among the pairs of the subtrace at which its search ends, relative to the
join of the present lower congruence with the lower cover of `beta`.  The lower congruence itself lies
below that join, so that it is refused as `beta` before it changes, and a value stands for `beta`. -/
def isSubtrace (p : Nat × Nat) (beta : Partition) : Query TypeFinder Bool := do
  setJoinedAlpha beta (← get).alpha
  let F ← get
  F.checkPair p
  if F.alpha.related p.1 p.2 || !beta.related p.1 p.2 then pure false
  else return (← findSubtraceOfPair p).pairs.contains [p.1, p.2]

end TypeFinder

end UniversalAlgebra
