/-
**Standard algebras.**

Cyclic and symmetric groups, chains as lattices and as semilattices, lattices given by their
order, the two-element Boolean algebra, and bare sets.

Main definitions:

* `Catalogue.cyclicGroup`, `Catalogue.symmetricGroup`;
* `Catalogue.chainLattice`, `Catalogue.chainSemilattice`;
* `Catalogue.latticeFromOrder` — join and meet read off an order matrix, and with it
  `Catalogue.pentagon` and `Catalogue.diamond`;
* `Catalogue.booleanAlgebra`, `Catalogue.bareSet`.
-/

import UniversalAlgebra.Algebra
import UniversalAlgebra.Below
import Std.Data.HashMap

set_option autoImplicit false

namespace UniversalAlgebra.Catalogue

/-! ### Tables from formulas -/

/-- The table of a binary operation on `[0, n)`. -/
def binaryTable (n : Nat) (f : Nat → Nat → Nat) : Array Nat :=
  (Array.range (n * n)).map fun i => f (i / n) (i % n)

/-- The table of a unary operation on `[0, n)`. -/
def unaryTable (n : Nat) (f : Nat → Nat) : Array Nat := (Array.range n).map f

/-! ### Groups -/

/-- The residues modulo `n` with addition, negation and zero. -/
def cyclicGroup (n : Nat) : Except Fault Algebra := do
  if n < 1 then throw .cyclicOrderZero
  Algebra.build ("Z" ++ toString n) n
    [← Operation.ofTable "+" 2 n (binaryTable n fun x y => (x + y) % n),
     ← Operation.ofTable "-" 1 n (unaryTable n fun x => (n - x) % n),
     ← Operation.ofTable "0" 0 n #[0]]

/-- Each entry of a list together with the list of the others. -/
def selections : List Nat → List (Nat × List Nat)
  | [] => []
  | x :: rest => (x, rest) :: (selections rest).map fun (y, others) => (y, x :: others)

/-- The arrangements of `k` entries of an increasing list, in lexicographic order. -/
def arrangements : (k : Nat) → List Nat → List (List Nat)
  | 0, _ => [[]]
  | k + 1, xs => (selections xs).flatMap fun (x, others) => (arrangements k others).map (x :: ·)

/-- The permutation that undoes `p`. -/
def inversePermutation (p : List Nat) : List Nat :=
  (List.range p.length).map fun i => p.idxOf i

/-- The permutation that applies `q` first and then `p`. -/
def composePermutations (p q : List Nat) : List Nat := q.map fun i => p[i]?.getD 0

/-- The permutations of `degree` letters in lexicographic order, with composition, inversion and
the identity. -/
def symmetricGroup (degree : Nat) : Except Fault Algebra := do
  if degree < 1 ∨ 6 < degree then throw (.symmetricDegree degree)
  let perms := (arrangements degree (List.range degree)).toArray
  let n := perms.size
  let numbers : Std.HashMap (List Nat) Nat := perms.foldl (fun m p => m.insert p m.size) ∅
  let perm (x : Nat) : List Nat := perms[x]?.getD []
  let number (p : List Nat) : Nat := numbers[p]?.getD 0
  Algebra.build ("S" ++ toString degree) n
    [← Operation.ofTable "*" 2 n
        (binaryTable n fun p q => number (composePermutations (perm p) (perm q))),
     ← Operation.ofTable "inv" 1 n (unaryTable n fun p => number (inversePermutation (perm p))),
     ← Operation.ofTable "e" 0 n #[0]]

/-! ### Chains -/

/-- The chain of `n` elements with join and meet. -/
def chainLattice (n : Nat) : Except Fault Algebra := do
  if n < 1 then throw .emptyChain
  Algebra.build ("C" ++ toString n) n
    [← Operation.ofTable "join" 2 n (binaryTable n max),
     ← Operation.ofTable "meet" 2 n (binaryTable n min)]

/-- The chain of `n` elements with meet alone. -/
def chainSemilattice (n : Nat) : Except Fault Algebra := do
  if n < 1 then throw .emptyChain
  Algebra.build ("SL" ++ toString n) n [← Operation.ofTable "meet" 2 n (binaryTable n min)]

/-! ### Lattices from orders -/

/-- The last `z < n` that lies above `x` and `y` and below all that do. -/
def leastUpper? (n : Nat) (le : Nat → Nat → Bool) (x y : Nat) : Option Nat :=
  (List.range n).findRev? fun z =>
    le x z && le y z && Below.all n fun w => !(le x w && le y w) || le z w

/-- The last `z < n` that lies below `x` and `y` and above all that do. -/
def greatestLower? (n : Nat) (le : Nat → Nat → Bool) (x y : Nat) : Option Nat :=
  leastUpper? n (fun a b => le b a) x y

/-- The lattice whose order is given by a matrix, row by row: entry `x * n + y` says whether `x`
lies below `y`.  Positions in the matrix have 64 bits.  Reflexivity is checked first, then the bounds
of each pair of elements. -/
def latticeFromOrder (name : String) (n : Nat) (leq : Array Bool) : Except Fault Algebra := do
  if leq.size ≠ n * n % UInt64.size then throw (.orderMatrixSize name leq.size)
  let le (x y : Nat) : Bool := leq[(x * n + y) % UInt64.size]?.getD false
  match Below.find? n fun x => !le x x with
  | some x => throw (.orderNotReflexive name x)
  | none => pure ()
  let join (x y : Nat) : Option Nat := leastUpper? n le x y
  let meet (x y : Nat) : Option Nat := greatestLower? n le x y
  let unbounded (i : Nat) : Bool :=
    !((join (i / n) (i % n)).isSome && (meet (i / n) (i % n)).isSome)
  match Below.find? (n * n) unbounded with
  | some i => throw (.notALattice name (i / n) (i % n))
  | none => pure ()
  Algebra.build name n
    [← Operation.ofTable "join" 2 n (binaryTable n fun x y => (join x y).getD 0),
     ← Operation.ofTable "meet" 2 n (binaryTable n fun x y => (meet x y).getD 0)]

/-- The order matrix on five elements with least element 0 and greatest element 4, in which of the
other three only the given pairs are comparable. -/
def fiveElementOrder (between : List (Nat × Nat)) : Array Bool :=
  (Array.range 25).map fun i =>
    let x := i / 5
    let y := i % 5
    x == y || x == 0 || y == 4 || between.contains (x, y)

/-- The lattice `0 < 1 < 2 < 4`, `0 < 3 < 4`. -/
def pentagon : Except Fault Algebra := latticeFromOrder "N5" 5 (fiveElementOrder [(1, 2)])

/-- The lattice with three incomparable elements between the bounds. -/
def diamond : Except Fault Algebra := latticeFromOrder "M3" 5 (fiveElementOrder [])

/-! ### Others -/

/-- The two-element Boolean algebra. -/
def booleanAlgebra : Except Fault Algebra := do
  Algebra.build "B2" 2
    [← Operation.ofTable "and" 2 2 #[0, 0, 0, 1],
     ← Operation.ofTable "or" 2 2 #[0, 1, 1, 1],
     ← Operation.ofTable "not" 1 2 #[1, 0]]

/-- A set without operations. -/
def bareSet (n : Nat) : Except Fault Algebra := Algebra.build ("set" ++ toString n) n []

end UniversalAlgebra.Catalogue
