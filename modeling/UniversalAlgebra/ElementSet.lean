/-
**Sets of elements as sorted lists.**

A set is a strictly increasing list of naturals.  Sets are compared by size first and then
lexicographically, an order that extends inclusion.

Main definitions:

* `ElementSet`, `ElementSet.ofList`, `ElementSet.below` — sets;
* `ElementSet.contains`, `ElementSet.subset` — membership and inclusion;
* `ElementSet.inter`, `ElementSet.union`, `ElementSet.diff` — by merging two sorted lists;
* `ElementSet.less`, `ElementSet.sort` — the linear order.
-/

import UniversalAlgebra.Algebra
import UniversalAlgebra.Fingerprint

set_option autoImplicit false

namespace UniversalAlgebra

/-- A strictly increasing list of naturals. -/
structure ElementSet where
  /-- The members in increasing order. -/
  elements : List Nat
  deriving DecidableEq, Hashable, Repr

namespace ElementSet

/-- The members of a list. -/
def ofList (xs : List Nat) : ElementSet := ⟨sortedDistinct xs⟩

/-- All naturals below `n`.  Elements are numbers of thirty-two bits, so `n` is meant to be at most
`2 ^ 32`; a loop that counts up to it in such a number ends only if it is less. -/
def below (n : Nat) : ElementSet := ⟨List.range n⟩

/-- The number of members. -/
def size (s : ElementSet) : Nat := s.elements.length

/-- Whether there is no member. -/
def isEmpty (s : ElementSet) : Bool := s.elements.isEmpty

/-- Whether `x` is a member. -/
def contains (s : ElementSet) (x : Nat) : Bool := s.elements.contains x

/-- The members between braces. -/
def text (s : ElementSet) : String := Text.set s.elements

/-- The fingerprint of the list of members. -/
def fingerprint (s : ElementSet) : UInt64 := Fingerprint.ofList s.elements

/-! ### Merging sorted lists

Each of these goes through two increasing lists at once.  What was found is listed from the last to
the first. -/

/-- Whether the second of two increasing lists has every entry of the first. -/
def includes : List Nat → List Nat → Bool
  | [], _ => true
  | _ :: _, [] => false
  | x :: xs, y :: ys =>
      if x < y then false
      else if x = y then includes xs ys
      else includes (x :: xs) ys

/-- The common entries of two increasing lists. -/
def intersectSorted (found : List Nat) : List Nat → List Nat → List Nat
  | [], _ => found.reverse
  | _ :: _, [] => found.reverse
  | x :: xs, y :: ys =>
      if x < y then intersectSorted found xs (y :: ys)
      else if x = y then intersectSorted (x :: found) xs ys
      else intersectSorted found (x :: xs) ys
termination_by xs ys => xs.length + ys.length

/-- The entries of two increasing lists, each once. -/
def mergeSorted (found : List Nat) : List Nat → List Nat → List Nat
  | [], ys => found.reverseAux ys
  | x :: xs, [] => found.reverseAux (x :: xs)
  | x :: xs, y :: ys =>
      if x < y then mergeSorted (x :: found) xs (y :: ys)
      else if x = y then mergeSorted (x :: found) xs ys
      else mergeSorted (y :: found) (x :: xs) ys
termination_by xs ys => xs.length + ys.length

/-- The entries of the first of two increasing lists that the second does not have. -/
def subtractSorted (found : List Nat) : List Nat → List Nat → List Nat
  | [], _ => found.reverse
  | x :: xs, [] => found.reverseAux (x :: xs)
  | x :: xs, y :: ys =>
      if x < y then subtractSorted (x :: found) xs (y :: ys)
      else if x = y then subtractSorted found xs ys
      else subtractSorted found (x :: xs) ys
termination_by xs ys => xs.length + ys.length

/-! ### Operations -/

/-- Inclusion. -/
def subset (s t : ElementSet) : Bool :=
  decide (s.size ≤ t.size) && includes s.elements t.elements

/-- The common members. -/
def inter (s t : ElementSet) : ElementSet := ⟨intersectSorted [] s.elements t.elements⟩

/-- The members of one or the other. -/
def union (s t : ElementSet) : ElementSet := ⟨mergeSorted [] s.elements t.elements⟩

/-- The members of `s` that are not members of `t`. -/
def diff (s t : ElementSet) : ElementSet := ⟨subtractSorted [] s.elements t.elements⟩

/-! ### The linear order -/

/-- Smaller sets come first; sets of one size are in lexicographic order. -/
def less (s t : ElementSet) : Bool :=
  if s.size ≠ t.size then decide (s.size < t.size)
  else s.elements.lex t.elements fun x y => decide (x < y)

/-- A list of sets in increasing order. -/
def sort (ss : List ElementSet) : List ElementSet := ss.mergeSort fun s t => !t.less s

end ElementSet

end UniversalAlgebra
