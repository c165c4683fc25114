/-
**Centrality conditions.**

A matrix is a quadruple `(a, b, c, d)`, read as the rows `a b` and `c d`.  Relative to a partition
`delta` there are three conditions on matrices; a check goes through a list of matrices and keeps
the first failure of each condition.

Main definitions:

* `Matrix4` — matrices;
* `EntryRelations.failsCentrality`, `EntryRelations.failsWeak`,
  `EntryRelations.failsRectangular` — the three conditions;
* `Centrality`, `Centrality.start`, `Centrality.check` — failures found so far, and the search for
  more.
-/

import UniversalAlgebra.Relation
import UniversalAlgebra.Partition.Order

set_option autoImplicit false

namespace UniversalAlgebra

/-- The matrix with rows `a b` and `c d`. -/
structure Matrix4 where
  /-- The first entry of the first row. -/
  a : Nat
  /-- The second entry of the first row. -/
  b : Nat
  /-- The first entry of the second row. -/
  c : Nat
  /-- The second entry of the second row. -/
  d : Nat
  deriving DecidableEq, Repr

/-- Which entries of a matrix are related. -/
structure EntryRelations where
  /-- The first row. -/
  ab : Bool
  /-- The first column. -/
  ac : Bool
  /-- The diagonal. -/
  ad : Bool
  /-- The second column. -/
  bd : Bool
  /-- The second row. -/
  cd : Bool

namespace Matrix4

/-- The matrix of a quadruple; missing entries are zero. -/
def ofList (t : List Nat) : Matrix4 :=
  ⟨t[0]?.getD 0, t[1]?.getD 0, t[2]?.getD 0, t[3]?.getD 0⟩

/-- The entries, row by row. -/
def toList (m : Matrix4) : List Nat := [m.a, m.b, m.c, m.d]

/-- Which entries a partition relates.  Each entry has to be an element. -/
def relations (m : Matrix4) (delta : Partition) : Except Fault EntryRelations := do
  let ab ← delta.isRelated m.a m.b
  let ac ← delta.isRelated m.a m.c
  let ad ← delta.isRelated m.a m.d
  let bd ← delta.isRelated m.b m.d
  let cd ← delta.isRelated m.c m.d
  pure ⟨ab, ac, ad, bd, cd⟩

end Matrix4

/-- The first failures of the three conditions for a pair of relations and a partition. -/
structure Centrality where
  /-- The relation of the columns. -/
  left : Relation
  /-- The relation of the rows. -/
  right : Relation
  /-- The partition modulo which entries are compared. -/
  delta : Partition
  /-- A matrix with `a ~ b` but not `c ~ d`. -/
  centralityFailure : Option Matrix4
  /-- A matrix with `a ~ b` and `a ~ c` but not `a ~ d`. -/
  weakFailure : Option Matrix4
  /-- A matrix with `a ~ b` but not `c ~ d`, or `a ~ c` but not `b ~ d`. -/
  rectangularFailure : Option Matrix4
  deriving DecidableEq, Repr

namespace EntryRelations

/-- The row condition fails: the first row is related and the second is not. -/
def failsCentrality (e : EntryRelations) : Bool := e.ab && !e.cd

/-- The corner condition fails: the first entry is related to its neighbours but not to the
entry across. -/
def failsWeak (e : EntryRelations) : Bool := e.ab && e.ac && !e.ad

/-- The row condition fails for the rows or for the columns. -/
def failsRectangular (e : EntryRelations) : Bool := (e.ab && !e.cd) || (e.ac && !e.bd)

end EntryRelations

namespace Centrality

/-- No failure is known.  The two relations and the partition have to be of one size. -/
def start (left right : Relation) (delta : Partition) : Except Fault Centrality :=
  if left.size = right.size ∧ left.size = delta.size then
    .ok ⟨left, right, delta, none, none, none⟩
  else .error (.centralitySizes left.size right.size delta.size)

/-- Keeps a failure that is known, or else the matrix if it is one. -/
def keepFirst (known : Option Matrix4) (fails : Bool) (m : Matrix4) : Option Matrix4 :=
  if known.isNone && fails then some m else known

/-- Takes in the entry relations of one matrix. -/
def record (s : Centrality) (m : Matrix4) (e : EntryRelations) : Centrality :=
  { s with
    centralityFailure := keepFirst s.centralityFailure e.failsCentrality m
    weakFailure := keepFirst s.weakFailure e.failsWeak m
    rectangularFailure := keepFirst s.rectangularFailure e.failsRectangular m }

/-- Whether each condition has failed. -/
def isDecided (s : Centrality) : Bool :=
  s.centralityFailure.isSome && s.weakFailure.isSome && s.rectangularFailure.isSome

/-- Looks for failures in a list of matrices, until each condition has failed.  An entry that is no
element ends the search with an error and leaves the failures found before it. -/
def search : List Matrix4 → Centrality → Option Fault × Centrality
  | [], s => (none, s)
  | m :: ms, s =>
      match m.relations s.delta with
      | .error fault => (some fault, s)
      | .ok e =>
          let s := s.record m e
          if s.isDecided then (none, s) else search ms s

/-- Looks for failures in a list of matrices; the state keeps what was found. -/
def check (matrices : List Matrix4) : EStateM Fault Centrality Unit := fun s =>
  match search matrices s with
  | (none, s) => .ok () s
  | (some fault, s) => .error fault s

/-- Whether no failure of the row condition is known. -/
def holds (s : Centrality) : Bool := s.centralityFailure.isNone

/-- Whether no failure of the corner condition is known. -/
def weaklyHolds (s : Centrality) : Bool := s.weakFailure.isNone

/-- Whether no failure of the condition on rows and columns is known. -/
def isRectangular (s : Centrality) : Bool := s.rectangularFailure.isNone

/-- The rank order of the partitions. -/
def less (s t : Centrality) : Bool := s.delta.rankLess t.delta

/-- The partition and what is known of the three conditions. -/
def text (s : Centrality) : String :=
  let verdict (b : Bool) : String := if b then "holds" else "fails"
  "delta = " ++ s.delta.text ++ ", centrality " ++ verdict s.holds ++ ", weak centrality "
    ++ verdict s.weaklyHolds ++ ", strong rectangularity " ++ verdict s.isRectangular

end Centrality

end UniversalAlgebra
