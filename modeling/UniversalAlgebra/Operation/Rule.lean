/-
**Rules for operations.**

A rule describes the values of an operation by a short formula.  It is an evaluator: nothing keeps
it inside a universe, and the partial rule has arguments at which it fails.

Main definitions:

* `Rule` — the formulas;
* `Rule.eval` — the value of a formula at a tuple of arguments.
-/

import UniversalAlgebra.Fault

set_option autoImplicit false

namespace UniversalAlgebra

/-- A formula for the values of an operation. -/
inductive Rule where
  /-- A constant plus the arguments weighted by coefficients, reduced by a modulus. -/
  | linear (coefficients : List Nat) (constant modulus : Nat)
  /-- The argument at a position. -/
  | projection (index : Nat)
  /-- One of two constants, depending on whether the argument at a position is `value`. -/
  | switch (index value onEqual otherwise : Nat)
  /-- The argument at a position, which must not be `value`; the failure mentions another one. -/
  | partialProjection (index value mentioned : Nat)
  deriving DecidableEq, Repr

namespace Rule

/-- Adds arguments weighted by coefficients to a sum of 64 bits. -/
def weightedSum : (coefficients args : List Nat) → UInt64 → UInt64
  | c :: cs, x :: xs, sum => weightedSum cs xs (sum + c.toUInt64 * x.toUInt64)
  | _, _, sum => sum

/-- The value of a rule.  Linear rules add up in 64 bits and keep 32 bits of the residue. -/
def eval : Rule → List Nat → Except Fault Nat
  | linear coefficients constant modulus, args =>
      .ok ((weightedSum coefficients args constant.toUInt64).toNat % modulus % UInt32.size)
  | projection index, args => .ok (args[index]?.getD 0)
  | switch index value onEqual otherwise, args =>
      .ok (if args[index]?.getD 0 = value then onEqual else otherwise)
  | partialProjection index value mentioned, args =>
      if args[index]?.getD 0 = value then .error (.undefinedAt (args[mentioned]?.getD 0))
      else .ok (args[index]?.getD 0)

end Rule

end UniversalAlgebra
