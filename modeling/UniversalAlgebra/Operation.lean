/-
**Finitary operations.**

An operation on `[0, n)` is given by a table of its values, row by row with the first argument
most significant, or by an evaluator, which may fail and may leave the universe.  Applying an
operation checks what an evaluator returns; a table was checked when it was made.

Main definitions:

* `Operation` — name, arity, universe size and the body that gives the values;
* `Operation.ofTable`, `Operation.ofEvaluator` — checked constructions;
* `Operation.apply` — the value at a tuple of arguments;
* `Operation.values`, `Operation.tabulate` — the value table, and the operation given by it;
* `Operation.isIdempotent`, `Operation.isCommutative`, `Operation.isAssociative` — laws, tested on
  all arguments.
-/

import UniversalAlgebra.Fault
import UniversalAlgebra.Tuples

set_option autoImplicit false

namespace UniversalAlgebra

/-- What gives the values of an operation. -/
inductive OperationBody where
  /-- The values at all argument tuples in lexicographic order. -/
  | table (values : Array Nat)
  /-- A rule, which may fail and need not stay inside the universe. -/
  | evaluator (eval : List Nat → Except Fault Nat)

/-- An operation of some arity on the universe `[0, universeSize)`. -/
structure Operation where
  /-- The name in texts. -/
  name : String
  /-- The number of arguments. -/
  arity : Nat
  /-- The number of elements of the universe. -/
  universeSize : Nat
  /-- The values. -/
  body : OperationBody

namespace Operation

/-! ### Tables -/

/-- The number of argument tuples `universeSize ^ arity`, if it fits into 64 bits.  From the
sixty-fourth factor on, the number no longer changes or no longer fits. -/
def tableSize (universeSize arity : Nat) : Except Fault Nat :=
  let size := universeSize.pow (min arity 64)
  if size < UInt64.size then .ok size else .error (.tableTooLarge universeSize arity)

/-- The position of a tuple of arguments in a table. -/
def tableIndex (universeSize : Nat) (args : List Nat) : Nat :=
  args.foldl (fun index x => index * universeSize + x) 0

/-- The first entry of a table that lies outside the universe, with its position. -/
def firstOutside (universeSize : Nat) (values : Array Nat) : Option (Nat × Nat) :=
  match values.findIdx? (fun v => !decide (v < universeSize)) with
  | some i => some (values[i]?.getD 0, i)
  | none => none

/-- The operation with the given table, whose length and entries are checked. -/
def ofTable (name : String) (arity universeSize : Nat) (table : Array Nat) :
    Except Fault Operation := do
  if universeSize < 1 then throw (.emptyUniverse name)
  let expected ← tableSize universeSize arity
  if table.size ≠ expected then throw (.tableLength name table.size expected)
  match firstOutside universeSize table with
  | some (v, i) => throw (.tableValue name v i)
  | none => pure ⟨name, arity, universeSize, .table table⟩

/-- The operation with the given evaluator; there has to be one. -/
def ofEvaluator (name : String) (arity universeSize : Nat)
    (eval? : Option (List Nat → Except Fault Nat)) : Except Fault Operation := do
  if universeSize < 1 then throw (.emptyUniverse name)
  match eval? with
  | some eval => pure ⟨name, arity, universeSize, .evaluator eval⟩
  | none => throw (.noEvaluator name)

/-- Whether the values are given by a table. -/
def hasTable (op : Operation) : Bool :=
  match op.body with
  | .table _ => true
  | .evaluator _ => false

/-! ### Values -/

/-- The value at a tuple of arguments. -/
def apply (op : Operation) (args : List Nat) : Except Fault Nat :=
  match op.body with
  | .table values => .ok (values[tableIndex op.universeSize args]?.getD 0)
  | .evaluator eval => do
      let value ← eval args
      if value < op.universeSize then pure value else throw (.returnedOutside op.name value)

/-- The value table: the table itself, or what the evaluator gives, unchecked. -/
def values (op : Operation) : Except Fault (Array Nat) :=
  match op.body with
  | .table values => .ok values
  | .evaluator eval => do
      let _ ← tableSize op.universeSize op.arity
      Tuples.foldBox (List.replicate op.arity (0, op.universeSize))
        (fun found args => return found.push (← eval args)) #[]

/-- The same operation given by its table.  All values are computed before the first is checked. -/
def tabulate (op : Operation) : Except Fault Operation :=
  if op.hasTable then .ok op
  else do
    let values ← op.values
    match firstOutside op.universeSize values with
    | some (v, i) => throw (.evaluatesOutside op.name v i)
    | none => pure { op with body := .table values }

/-! ### Laws -/

/-- Whether the value at `x, …, x` is always `x`; never so without arguments. -/
def isIdempotent (op : Operation) : Except Fault Bool :=
  if op.arity = 0 then .ok false
  else
    Tuples.allInBoxes [[(0, op.universeSize)]] fun t =>
      return (← op.apply (List.replicate op.arity (t.headD 0))) == t.headD 0

/-- The lists that arise from `before.reverse ++ args` by exchanging two different neighbours among
the arguments, from the left. -/
def swapsAfter (before : List Nat) : (args : List Nat) → List (List Nat)
  | [] | [_] => []
  | x :: y :: rest =>
      if x = y then swapsAfter (x :: before) (y :: rest)
      else before.reverseAux (y :: x :: rest) :: swapsAfter (x :: before) (y :: rest)

/-- The lists that arise by exchanging two different neighbours, from the left. -/
def adjacentSwaps (args : List Nat) : List (List Nat) := swapsAfter [] args

/-- Whether the operation takes the given value at all of the tuples. -/
def isConstantOn (op : Operation) (value : Nat) : List (List Nat) → Except Fault Bool
  | [] => .ok true
  | args :: rest => do
      if (← op.apply args) == value then op.isConstantOn value rest else pure false

/-- Whether exchanging neighbouring arguments never changes the value. -/
def isCommutative (op : Operation) : Except Fault Bool :=
  Tuples.allInBoxes (Tuples.freshBoxes op.arity 0 op.universeSize) fun args => do
    op.isConstantOn (← op.apply args) (adjacentSwaps args)

/-- Whether a binary operation satisfies `(x y) z = x (y z)`; never so in another arity. -/
def isAssociative (op : Operation) : Except Fault Bool :=
  if op.arity ≠ 2 then .ok false
  else
    Tuples.allInBoxes [List.replicate 3 (0, op.universeSize)] fun t =>
      match t with
      | [x, y, z] => do
          let xy ← op.apply [x, y]
          let yz ← op.apply [y, z]
          let left ← op.apply [xy, z]
          let right ← op.apply [x, yz]
          pure (left == right)
      | _ => pure true

end Operation

end UniversalAlgebra
