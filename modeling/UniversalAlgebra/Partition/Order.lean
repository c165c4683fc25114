/-
**The lattice of partitions.**

Partitions of one set are ordered by refinement.  Besides the lattice operations there are two
linear orders: the lexicographic order of the arrays, and the rank order, which compares the
numbers of blocks first and so extends refinement.

Main definitions:

* `Partition.inf`, `Partition.sup`, `Partition.refines` — for partitions known to be of one size;
* `Partition.meet`, `Partition.join`, `Partition.le` — the same, with the sizes checked;
* `Partition.lexLess`, `Partition.rankLess` — the linear orders;
* `Partition.sortByRank` — a list of partitions in rank order.
-/

import UniversalAlgebra.Below
import UniversalAlgebra.Partition.Basic
import Std.Data.HashMap

set_option autoImplicit false

namespace UniversalAlgebra.Partition

/-! ### Lattice operations -/

/-- The first element with each pair of least elements. -/
def firstWith (p q : Partition) : Std.HashMap (Nat × Nat) Nat :=
  (List.range p.size).foldl (fun first i => first.insertIfNew (p.rep i, q.rep i) i) ∅

/-- The coarsest partition below both: elements are related if both relate them. -/
def inf (p q : Partition) : Partition :=
  let first := firstWith p q
  let reps := (Array.range p.size).map fun i => first.getD (p.rep i, q.rep i) i
  ⟨reps, (List.range p.size).countP fun i => reps[i]? == some i⟩

/-- The finest partition above both: each element is related to its least element in `q` as well
as to that in `p`. -/
def sup (p q : Partition) : Partition :=
  (List.range p.size).foldl (fun s i => s.relate i (q.rep i)) p

/-- Whether every two elements related by `p` are related by `q`: each element is related by `q` to
its least element in `p`. -/
def refines (p q : Partition) : Bool :=
  Below.all p.size fun i => p.rep i == i || q.rep i == q.rep (p.rep i)

/-! ### Checked operations -/

/-- Refuses two partitions of different sizes. -/
def checkSize (p q : Partition) : Except Fault Unit :=
  if p.size = q.size then .ok () else .error (.sizeMismatch p.size q.size)

/-- The meet of two partitions of one size. -/
def meet (p q : Partition) : Except Fault Partition := do
  p.checkSize q
  pure (p.inf q)

/-- The join of two partitions of one size. -/
def join (p q : Partition) : Except Fault Partition := do
  p.checkSize q
  pure (p.sup q)

/-- Whether the first of two partitions of one size refines the second. -/
def le (p q : Partition) : Except Fault Bool := do
  p.checkSize q
  pure (p.refines q)

/-! ### Linear orders -/

/-- The lexicographic order of the arrays of least elements. -/
def lexLess (p q : Partition) : Bool := p.reps.lex q.reps fun x y => decide (x < y)

/-- The order by rank; partitions of one rank are in lexicographic order. -/
def rankLess (p q : Partition) : Bool :=
  if p.rank ≠ q.rank then decide (p.rank < q.rank) else p.lexLess q

/-- A list of partitions in lexicographic order. -/
def sortLex (ps : List Partition) : List Partition := ps.mergeSort fun p q => !q.lexLess p

/-- A list of partitions in rank order. -/
def sortByRank (ps : List Partition) : List Partition := ps.mergeSort fun p q => !q.rankLess p

end UniversalAlgebra.Partition
