/-
**All joins of a list of generators.**

In a finite lattice in which every element is a join of generators, the elements are found by
joining what was found with one generator at a time.  The search starts with the least element and
the generators, goes through what was found in the order of discovery, and joins each element with
each generator that is not below it.  A cap ends the search as soon as more elements were found
than it allows.

Main definitions:

* `JoinSearch`, `JoinSearch.add` — the elements found so far;
* `JoinSearch.addAll`, `JoinSearch.extend`, `JoinSearch.scan` — the steps of the search;
* `joinClosure` — the elements found, and whether the cap ended the search.
-/

import Std.Data.HashSet

set_option autoImplicit false

namespace UniversalAlgebra

/-- The elements found so far. -/
structure JoinSearch (α : Type) [BEq α] [Hashable α] where
  /-- The elements in the order of their discovery. -/
  found : Array α
  /-- The same elements. -/
  seen : Std.HashSet α

namespace JoinSearch

variable {α : Type} [BEq α] [Hashable α] {m : Type → Type} [Monad m]

/-- Adds an element, unless it is there. -/
def add (s : JoinSearch α) (x : α) : JoinSearch α :=
  if s.seen.contains x then s else ⟨s.found.push x, s.seen.insert x⟩

/-- Whether there are more elements than the cap allows; a cap of zero is none. -/
def isOver (cap : Nat) (s : JoinSearch α) : Bool := cap != 0 && decide (cap < s.found.size)

/-- Adds the elements of a list until the cap is passed.  The flag says whether it was. -/
def addAll (cap : Nat) : List α → JoinSearch α → JoinSearch α × Bool
  | [], s => (s, false)
  | x :: xs, s =>
      let s := s.add x
      if s.isOver cap then (s, true) else addAll cap xs s

/-- Adds the joins of an element with the generators that are not below it. -/
def extend (join : α → α → m α) (below : α → α → Bool) (cap : Nat) (x : α) :
    List α → JoinSearch α → m (JoinSearch α × Bool)
  | [], s => pure (s, false)
  | g :: gs, s =>
      if below g x then extend join below cap x gs s
      else do
        let s := s.add (← join x g)
        if s.isOver cap then pure (s, true) else extend join below cap x gs s

/-- Extends the elements found, one after the other from number `i` on. -/
def scan (join : α → α → m α) (below : α → α → Bool) (cap : Nat) (generators : List α) :
    (fuel i : Nat) → JoinSearch α → m (JoinSearch α × Bool)
  | 0, _, s => pure (s, false)
  | fuel + 1, i, s =>
      match s.found[i]? with
      | none => pure (s, false)
      | some x => do
          let (s, exceeded) ← extend join below cap x generators s
          if exceeded then pure (s, true) else scan join below cap generators fuel (i + 1) s

end JoinSearch

/-- The joins of the generators, in the order of their discovery, and whether the search was ended
by the cap.  There are at most `bound` of them. -/
def joinClosure {α : Type} [BEq α] [Hashable α] {m : Type → Type} [Monad m]
    (join : α → α → m α) (below : α → α → Bool) (bottom : α) (generators : List α)
    (bound cap : Nat) : m (List α × Bool) := do
  let (s, exceeded) := JoinSearch.addAll cap (bottom :: generators) ⟨#[], ∅⟩
  if exceeded then pure (s.found.toList, true)
  else
    let (s, exceeded) ← JoinSearch.scan join below cap generators (bound + 1) 0 s
    pure (s.found.toList, exceeded)

end UniversalAlgebra
