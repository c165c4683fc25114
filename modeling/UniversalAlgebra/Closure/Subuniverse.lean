/-
**Closures of sets of elements.**

The items are elements; an operation is applied to tuples of discovered elements.

Main definitions:

* `SubuniverseClosure`, `SubuniverseClosure.start` — the elements discovered so far;
* `SubuniverseClosure.fold` — takes in an element.
-/

import UniversalAlgebra.Closure.Engine
import UniversalAlgebra.BitSet

set_option autoImplicit false

namespace UniversalAlgebra

/-- A growing set of elements. -/
structure SubuniverseClosure where
  /-- The elements discovered so far. -/
  members : BitSet
  /-- The same elements in the order of their discovery. -/
  elements : Array Nat
  deriving DecidableEq, Repr

namespace SubuniverseClosure

/-- Nothing was discovered in a universe of `n` elements. -/
def start (n : Nat) : SubuniverseClosure := ⟨BitSet.empty n, #[]⟩

/-- Whether an element was discovered. -/
def contains (s : SubuniverseClosure) (x : Nat) : Bool := s.members.contains x

/-- Takes in an element, unless it is there. -/
def fold (s : SubuniverseClosure) (x : Nat) : Reaction × SubuniverseClosure :=
  if s.contains x then (.known, s) else (.added, ⟨s.members.insert x, s.elements.push x⟩)

/-- Takes in the elements of a list one after the other. -/
def foldAll (s : SubuniverseClosure) (xs : List Nat) : SubuniverseClosure :=
  xs.foldl (fun s x => (s.fold x).2) s

/-- The value of an operation at discovered elements, given by their numbers. -/
def image (s : SubuniverseClosure) (op : Operation) (indices : List Nat) : Except Fault Nat :=
  op.apply (indices.map fun i => s.elements[i]?.getD 0)

instance : Growth SubuniverseClosure Nat where
  size s := s.elements.size
  capacity n _ := n
  accept s x := .ok (s.fold x)
  arguments _ op start stop := Tuples.freshBoxes op.arity start stop
  image s op indices := some <$> s.image op indices

end SubuniverseClosure

end UniversalAlgebra
