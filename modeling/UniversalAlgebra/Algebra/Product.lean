/-
**Direct products.**

The product of two algebras of one signature has the universe of pairs, numbered row by row: the
pair `(a, b)` is `a * |B| + b`.  Its operations are evaluators that work coordinate by coordinate.

Main definitions:

* `Algebra.product`, `Algebra.productSize` — the product of two algebras, and its number of elements;
* `Operation.product` — the product of two operations of one arity.
-/

import UniversalAlgebra.Algebra

set_option autoImplicit false

namespace UniversalAlgebra

/-- Works on first coordinates by `f` and on second coordinates by `g`, of which there are
`width`.  Element numbers have 32 bits. -/
def Operation.product (f g : Operation) (width : Nat) (args : List Nat) : Except Fault Nat := do
  let a ← f.apply (args.map (· / width))
  let b ← g.apply (args.map (· % width))
  pure ((a * width + b) % UInt32.size)

namespace Algebra

/-- The number of pairs, kept in 64 bits. -/
def productSize (A B : Algebra) : Nat := A.size * B.size % UInt64.size

/-- The coordinatewise operations, whose arities have to match. -/
def productOperations (A B : Algebra) :
    List Operation → List Operation → Except Fault (List Operation)
  | f :: fs, g :: gs => do
      if f.arity ≠ g.arity then throw (.notMultipliable A.text B.text)
      let op ← Operation.ofEvaluator f.name f.arity (productSize A B)
        (some (Operation.product f g B.size))
      return op :: (← productOperations A B fs gs)
  | _, _ => .ok []

/-- The product of two algebras with equally many operations of matching arities. -/
def product (A B : Algebra) : Except Fault Algebra := do
  if A.operations.length ≠ B.operations.length then throw (.notMultipliable A.text B.text)
  let operations ← productOperations A B A.operations B.operations
  build (A.name ++ "x" ++ B.name) (productSize A B) operations

end Algebra

end UniversalAlgebra
