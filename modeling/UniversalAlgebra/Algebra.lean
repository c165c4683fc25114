/-
**Finite algebras.**

An algebra is a universe `[0, size)` with named operations on it.  On construction an evaluator with
few enough argument tuples is replaced by its table, and the values of the nullary operations are
collected as the constants.

Main definitions:

* `Algebra`, `Algebra.build` — algebras and their checked construction;
* `Algebra.validate` — refuses what is no element;
* `Algebra.text` — name, size and signature.
-/

import UniversalAlgebra.Operation

set_option autoImplicit false

namespace UniversalAlgebra

/-- A universe `[0, size)` with operations on it. -/
structure Algebra where
  /-- The name in texts. -/
  name : String
  /-- The number of elements. -/
  size : Nat
  /-- The operations in order. -/
  operations : List Operation
  /-- The values of the nullary operations, increasing and each once. -/
  constants : List Nat

/-- Goes on to drop repeated entries after some others, which are listed from the last to the
first. -/
def dropRepeatsAfter {α : Type} [BEq α] (before : List α) : List α → List α
  | [] => before.reverse
  | [x] => (x :: before).reverse
  | x :: y :: rest => dropRepeatsAfter (if x == y then before else x :: before) (y :: rest)

/-- Drops each entry that equals its predecessor. -/
def dropRepeats {α : Type} [BEq α] (xs : List α) : List α := dropRepeatsAfter [] xs

/-- The members of a list in increasing order, each once. -/
def sortedDistinct (xs : List Nat) : List Nat := dropRepeats (xs.mergeSort)

namespace Algebra

/-- Evaluators with at most this many argument tuples are tabulated. -/
def tabulationLimit : Nat := 4194304

/-- Replaces an evaluator by its table if it has few enough argument tuples. -/
def prepare (op : Operation) : Except Fault Operation := do
  if op.hasTable then pure op
  else if (← Operation.tableSize op.universeSize op.arity) ≤ tabulationLimit then op.tabulate
  else pure op

/-- Checks and prepares the operations one after the other, and collects the values of the nullary
ones. -/
def prepareAll (name : String) (size : Nat) : List Operation → Except Fault (List Operation × List Nat)
  | [] => .ok ([], [])
  | op :: rest => do
      if op.universeSize ≠ size then
        throw (.operationSize op.name name op.universeSize size)
      let op ← prepare op
      let constant ← if op.arity = 0 then (fun c => [c]) <$> op.apply [] else pure []
      let (ops, constants) ← prepareAll name size rest
      pure (op :: ops, constant ++ constants)

/-- The algebra with the given operations, each of which has to be on its universe. -/
def build (name : String) (size : Nat) (operations : List Operation) : Except Fault Algebra := do
  if size < 1 then throw (.emptyUniverse name)
  let (operations, constants) ← prepareAll name size operations
  pure ⟨name, size, operations, sortedDistinct constants⟩

/-- The greatest number of arguments of an operation. -/
def maxArity (A : Algebra) : Nat := A.operations.foldl (fun k op => max k op.arity) 0

/-- Refuses what is no element. -/
def validate (A : Algebra) (x : Nat) : Except Fault Unit :=
  if x < A.size then .ok () else .error (.noSuchElement x A.name A.size)

/-- The value of the operation with a given number. -/
def evaluate (A : Algebra) (k : Nat) (args : List Nat) : Except Fault Nat :=
  match A.operations[k]? with
  | some op => op.apply args
  | none => .ok 0

/-- Name, size and signature, as in `Z3 (size 3; +/2, 0/0)`. -/
def text (A : Algebra) : String :=
  let signature := A.operations.map fun op => op.name ++ "/" ++ toString op.arity
  A.name ++ " (size " ++ toString A.size ++ "; " ++ Text.commaSeparated signature ++ ")"

end Algebra

end UniversalAlgebra
