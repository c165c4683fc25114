/-
**Binary relations on a finite set.**

A relation on `[0, n)` is held as one bit set of right-hand elements for each left-hand element.

Main definitions:

* `Relation`, `Relation.empty`, `Relation.identity`, `Relation.universal` — relations;
* `Relation.ofPairs`, `Relation.ofPartition`, `Relation.toPartition` — from and to other forms;
* `Relation.contains`, `Relation.insert`, `Relation.remove`, `Relation.ensureInserted` — single
  pairs, with the elements checked;
* `Relation.compose`, `Relation.inverse`, `Relation.inter`, `Relation.union`, `Relation.le` — whole
  relations, with the sizes checked;
* `Relation.isReflexive`, `Relation.isSymmetric`, `Relation.isTransitive` — the laws of an
  equivalence relation, by way of the operations.
-/

import UniversalAlgebra.Below
import UniversalAlgebra.BitSet
import UniversalAlgebra.Partition.Basic

set_option autoImplicit false

namespace UniversalAlgebra

/-- A set of ordered pairs over `[0, size)`. -/
structure Relation where
  /-- The number of elements. -/
  size : Nat
  /-- The right-hand elements of each left-hand element. -/
  rows : Array BitSet
  deriving DecidableEq, Repr

namespace Relation

/-! ### Constructions -/

/-- The relation without pairs. -/
def empty (n : Nat) : Relation := ⟨n, Array.replicate n (BitSet.empty n)⟩

/-- The pairs of each element with itself. -/
def identity (n : Nat) : Relation := ⟨n, (Array.range n).map fun i => (BitSet.empty n).insert i⟩

/-- All pairs. -/
def universal (n : Nat) : Relation := ⟨n, Array.replicate n (BitSet.empty n).insertAll⟩

/-- The row of an element; it is empty for what is no element. -/
def row (r : Relation) (i : Nat) : BitSet := r.rows[i]?.getD (BitSet.empty r.size)

/-- Whether the pair `(i, j)` belongs to the relation. -/
def has (r : Relation) (i j : Nat) : Bool := (r.row i).contains j

/-- Adds a pair of elements. -/
def add (r : Relation) (i j : Nat) : Relation := { r with rows := r.rows.modify i (·.insert j) }

/-- The pairs of elements that lie in one block. -/
def ofPartition (p : Partition) : Relation :=
  let blockRows := (List.range p.size).foldl (fun rows i => rows.modify (p.rep i) (·.insert i))
    (Array.replicate p.size (BitSet.empty p.size))
  ⟨p.size, (Array.range p.size).map fun i => blockRows[p.rep i]?.getD (BitSet.empty p.size)⟩

/-! ### Attributes -/

/-- The number of pairs. -/
def count (r : Relation) : Nat := r.rows.foldl (fun n row => n + row.count) 0

/-- The pairs in lexicographic order. -/
def pairs (r : Relation) : List (Nat × Nat) :=
  (List.range r.size).flatMap fun i => (r.row i).toList.map fun j => (i, j)

/-- The pairs in order, as in `[(0, 1), (1, 0)]`. -/
def text (r : Relation) : String := Text.pairs r.pairs

/-! ### Single pairs -/

/-- Refuses what is no element. -/
def checkElement (r : Relation) (i : Nat) : Except Fault Unit :=
  if i < r.size then .ok () else .error (.elementOutOfRange i)

/-- Refuses a pair that is not one of elements; the first component is checked first. -/
def checkPair (r : Relation) (i j : Nat) : Except Fault Unit := do
  r.checkElement i
  r.checkElement j

/-- The right-hand elements of `i` in increasing order. -/
def rightOf (r : Relation) (i : Nat) : Except Fault (List Nat) := do
  r.checkElement i
  pure (r.row i).toList

/-- Whether the pair `(i, j)` belongs to the relation. -/
def contains (r : Relation) (i j : Nat) : Except Fault Bool := do
  r.checkPair i j
  pure (r.has i j)

/-- Adds the pair `(i, j)`. -/
def insert (r : Relation) (i j : Nat) : Except Fault Relation := do
  r.checkPair i j
  pure (r.add i j)

/-- Adds the pair `(i, j)`, and says whether it was missing. -/
def ensureInserted (r : Relation) (i j : Nat) : Except Fault (Bool × Relation) := do
  r.checkPair i j
  pure (!r.has i j, r.add i j)

/-- Removes the pair `(i, j)`. -/
def remove (r : Relation) (i j : Nat) : Except Fault Relation := do
  r.checkPair i j
  pure { r with rows := r.rows.modify i (·.remove j) }

/-- The relation with the given pairs. -/
def ofPairs (n : Nat) (ps : List (Nat × Nat)) : Except Fault Relation :=
  ps.foldlM (fun r p => r.insert p.1 p.2) (empty n)

/-! ### Whole relations -/

/-- Refuses two relations of different sizes. -/
def checkSize (r s : Relation) : Except Fault Unit :=
  if r.size = s.size then .ok () else .error (.sizeMismatch r.size s.size)

/-- The pairs `(i, k)` with `(i, j)` in `r` and `(j, k)` in `s` for some `j`. -/
def comp (r s : Relation) : Relation :=
  { r with
    rows := (Array.range r.size).map fun i =>
      (r.row i).toList.foldl (fun found j => found.union (s.row j)) (BitSet.empty r.size) }

/-- The pairs with their components exchanged. -/
def inverse (r : Relation) : Relation :=
  (List.range r.size).foldl (fun s i => (r.row i).toList.foldl (fun s j => s.add j i) s)
    (empty r.size)

/-- Whether each row is contained in the other relation's row. -/
def subset (r s : Relation) : Bool := Below.all r.size fun i => (r.row i).subset (s.row i)

/-- Relational composition. -/
def compose (r s : Relation) : Except Fault Relation := do
  r.checkSize s
  pure (r.comp s)

/-- The pairs in both. -/
def inter (r s : Relation) : Except Fault Relation := do
  r.checkSize s
  pure { r with rows := Array.zipWith BitSet.inter r.rows s.rows }

/-- The pairs in one or the other. -/
def union (r s : Relation) : Except Fault Relation := do
  r.checkSize s
  pure { r with rows := Array.zipWith BitSet.union r.rows s.rows }

/-- Inclusion. -/
def le (r s : Relation) : Except Fault Bool := do
  r.checkSize s
  pure (r.subset s)

/-! ### Laws -/

/-- Whether each element is paired with itself. -/
def isReflexive (r : Relation) : Bool := Below.all r.size fun i => r.has i i

/-- Whether the relation equals its inverse. -/
def isSymmetric (r : Relation) : Bool := r == r.inverse

/-- Whether the relation composed with itself is contained in it. -/
def isTransitive (r : Relation) : Bool := (r.comp r).subset r

/-- Reflexive, symmetric and transitive. -/
def isEquivalence (r : Relation) : Bool := r.isReflexive && r.isSymmetric && r.isTransitive

/-- Reflexive and symmetric. -/
def isTolerance (r : Relation) : Bool := r.isReflexive && r.isSymmetric

/-- The partition whose blocks are the classes of an equivalence relation. -/
def toPartition (r : Relation) : Except Fault Partition :=
  if r.isEquivalence then
    .ok
      ((List.range r.size).foldl (fun p i => (r.row i).toList.foldl (fun p j => p.relate i j) p)
        (Partition.finest r.size))
  else .error (.notAnEquivalence r.pairs)

end Relation

end UniversalAlgebra
