/-
**Algebras whose operations give elements.**

An operation may fail at some arguments, but what it gives is an element: the entries of a table
were checked when it was made, and what an evaluator gives is checked each time.  This is true of
every operation that can be made and of every algebra that can be built from such operations, also
where evaluators fail or leave the universe.

Main definitions:

* `Operation.Checked`, `Algebra.Checked` — whatever an operation gives is an element.

Main results:

* `Operation.checked_of_ofTable`, `Operation.checked_of_ofEvaluator` — what could be made is checked;
* `Algebra.checked_of_build` — **every algebra that could be built is checked**.
-/

import UniversalAlgebra.Operation.Rule
import UniversalAlgebra.Proofs.Algebra.Total

set_option autoImplicit false

namespace UniversalAlgebra

open Fallible

namespace Operation

/-- Whatever the operation gives lies in its universe.  It may also fail. -/
def Checked (op : Operation) : Prop :=
  ∀ (args : List ℕ) (v : ℕ), op.apply args = .ok v → v < op.universeSize

theorem checked_of_evaluator {op : Operation} {eval : List ℕ → Except Fault ℕ}
    (h : op.body = .evaluator eval) : op.Checked := by
  intro args v hv
  rw [apply, h] at hv
  obtain ⟨value, -, hv⟩ := bind_eq_ok.1 hv
  split at hv
  · next hlt =>
      cases hv
      exact hlt
  · cases hv

/-- Outside of a table the value is zero, which is an element. -/
theorem checked_of_table {op : Operation} {values : Array ℕ} (h : op.body = .table values)
    (hpos : 0 < op.universeSize) (hvalues : firstOutside op.universeSize values = none) :
    op.Checked := by
  intro args v hv
  rw [apply, h] at hv
  cases hv
  by_cases hindex : tableIndex op.universeSize args < values.size
  · rw [Array.getElem?_eq_getElem hindex]
    exact lt_of_firstOutside_eq_none hvalues hindex
  · rw [Array.getElem?_eq_none (Nat.not_lt.1 hindex)]
    exact hpos

theorem checked_of_ofTable {name : String} {arity u : ℕ} {table : Array ℕ} {op : Operation}
    (h : ofTable name arity u table = .ok op) : op.Checked := by
  obtain ⟨hpos, -, hvalues, rfl⟩ := ofTable_eq_ok h
  exact checked_of_table rfl hpos hvalues

theorem checked_of_ofEvaluator {name : String} {arity u : ℕ}
    {eval? : Option (List ℕ → Except Fault ℕ)} {op : Operation}
    (h : ofEvaluator name arity u eval? = .ok op) : op.Checked := by
  obtain ⟨-, eval, -, rfl⟩ := ofEvaluator_eq_ok h
  exact checked_of_evaluator rfl

end Operation

namespace Algebra

/-- Whatever an operation of the algebra gives is an element. -/
def Checked (A : Algebra) : Prop :=
  ∀ op ∈ A.operations, ∀ (args : List ℕ) (v : ℕ), op.apply args = .ok v → v < A.size

theorem checked_of_prepare {op op' : Operation} (h : prepare op = .ok op')
    (hpos : 0 < op.universeSize) (hop : op.Checked) : op'.Checked := by
  rw [prepare] at h
  by_cases htable : op.hasTable
  · rw [if_pos htable] at h
    cases h
    exact hop
  · rw [if_neg htable] at h
    obtain ⟨size, -, h⟩ := bind_eq_ok.1 h
    split at h
    · rw [Operation.tabulate, if_neg htable] at h
      obtain ⟨values, -, h⟩ := bind_eq_ok.1 h
      split at h
      · cases h
      · next hvalues =>
          cases h
          exact Operation.checked_of_table rfl hpos hvalues
    · cases h
      exact hop

/-- **Every algebra that could be built is checked**, if its operations could be made. -/
theorem checked_of_build {name : String} {size : ℕ} {given : List Operation} {A : Algebra}
    (h : build name size given = .ok A) (hgiven : ∀ op ∈ given, op.Checked) : A.Checked := by
  by_cases hsize : size < 1
  · simp [build, hsize, throw_eq, error_bind] at h
  · simp only [build, hsize, if_false] at h
    obtain ⟨⟨ops, cs⟩, hprepare, h⟩ := bind_eq_ok.1 h
    cases h
    obtain ⟨hops, -⟩ := prepareAll_spec hprepare
    intro op hop args v hv
    obtain ⟨op₀, hop₀, hsize', hop'⟩ := hops op hop
    have hpos : 0 < op₀.universeSize := hsize' ▸ Nat.not_lt.1 hsize
    have hlt := checked_of_prepare hop' hpos (hgiven op₀ hop₀) args v hv
    rwa [universeSize_of_prepare hop', hsize'] at hlt

/-- Three elements with a successor, and with an operation that has too many arguments for a table
and fails where the first of them is one. -/
def partialSuccessor : Algebra :=
  ⟨"partial", 3, [⟨"next", 1, 3, .table #[1, 2, 2]⟩,
    ⟨"partial", 23, 3, .evaluator (Rule.partialProjection 0 1 22).eval⟩], []⟩

theorem build_partialSuccessor :
    build "partial" 3 partialSuccessor.operations = .ok partialSuccessor := by
  have hsize : Operation.tableSize 3 23 = .ok 94143178827 := by rfl
  have hlarge : ¬94143178827 ≤ tabulationLimit := by simp [tabulationLimit]
  simp [build, prepareAll, prepare, partialSuccessor, Operation.hasTable, hsize, hlarge, ok_bind,
    pure_eq, sortedDistinct, dropRepeats, dropRepeatsAfter]

theorem checked_partialSuccessor : partialSuccessor.Checked := by
  refine checked_of_build build_partialSuccessor ?_
  intro op hop
  rcases List.mem_pair.1 hop with rfl | rfl
  · exact Operation.checked_of_table rfl (by decide) (by cbv)
  · exact Operation.checked_of_evaluator rfl

end Algebra

end UniversalAlgebra
