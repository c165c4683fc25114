/-
**Queries.**

A query is a computation on a state that may fail.  Whether it fails or not, the changes it made to
the state before that remain.

Main definitions:

* `Query` — computations on a state of type `σ`;
* `Query.ofExcept` — a computation without state as a query.
-/

import UniversalAlgebra.Fault
import UniversalAlgebra.Memo

set_option autoImplicit false

namespace UniversalAlgebra

/-- A computation that may fail and that keeps its effect on the state if it does. -/
abbrev Query (σ α : Type) := EStateM Fault σ α

/-- A computation without state, as a query. -/
def Query.ofExcept {σ α : Type} : Except Fault α → Query σ α
  | .ok x => pure x
  | .error fault => throw fault

instance {σ : Type} : MonadLift (Except Fault) (Query σ) := ⟨Query.ofExcept⟩

end UniversalAlgebra
