/-
**What was asked before does not matter.**

A caller of a congruence lattice does not see its caches: after any queries, also ones that fail, are
cut off by a cap or reset the lattice, the queries about single congruences and about the principal
and irreducible ones answer what they answer at the start, be it a value or a fault.  Generation by
pairs goes through different caches, one for single pairs and one for seed partitions, and always
agrees with generation without caches.

Main definitions:

* `CongruenceLattice.HistoryFree` — the queries whose answers do not depend on the caches.

Main results:

* `CongruenceLattice.HistoryFree.constant` — these queries have one answer in coherent states;
* `CongruenceLattice.history_invisible` — **they answer what they answer at the start**.
-/

import Mathlib
import UniversalAlgebra.Proofs.CongruenceLattice.Coherent

set_option autoImplicit false

namespace UniversalAlgebra.CongruenceLattice

open Query

variable {A : Algebra} {settings : Settings} {L : CongruenceLattice}

/-- The queries whose answers do not depend on what was asked before. -/
inductive HistoryFree : {α : Type} → Query CongruenceLattice α → Prop
  | cg (a b : ℕ) : HistoryFree (cg a b)
  | generatedBy (ps : List (ℕ × ℕ)) : HistoryFree (generatedBy ps)
  | isCongruence (p : Partition) : HistoryFree (do (← get).isCongruence p)
  | tolerance (a b : ℕ) : HistoryFree (do (← get).tolerance a b)
  | principalList : HistoryFree principalList
  | generatingPair (beta : Partition) : HistoryFree (generatingPair beta)
  | irreducibleList : HistoryFree irreducibleList
  | joinIrreducibleList : HistoryFree joinIrreducibleList
  | lowerStar (beta : Partition) : HistoryFree (lowerStar beta)
  | atomList : HistoryFree atomList
  | upperCovers (p : Partition) : HistoryFree (upperCovers p)
  | findUpperCover (p : Partition) : HistoryFree (findUpperCover p)
  | joinPrime (beta : Partition) : HistoryFree (joinPrime beta)
  | isDistributive : HistoryFree isDistributive
  | isSimple : HistoryFree isSimple
  | principalChain : HistoryFree principalChain

theorem constant_principalData (hA : A.Total) :
    Constant (Coherent A settings) principalData :=
  ((yields_principalData hA).and (detached_derived A).keeps_principalData).constant

theorem constant_irreducibleData (hA : A.Total) :
    Constant (Coherent A settings) irreducibleData :=
  ((yields_irreducibleData hA).and (detached_derived A).keeps_irreducibleData).constant

theorem constant_irreducibleList (hA : A.Total) :
    Constant (Coherent A settings) irreducibleList :=
  (yields_irreducibles hA).constant

theorem constant_chainFrom (hA : A.Total) (fuel : ℕ) (p : Partition) :
    Constant (Coherent A settings) (chainFrom fuel p) := by
  induction fuel generalizing p with
  | zero => exact Constant.pure _
  | succ fuel ih =>
      refine constant_get_bind (fun _ => rfl) (Constant.ite (Constant.pure _) ?_)
      split
      · next r s _ _ =>
          refine Constant.bind (constant_cg hA r s) fun above => ?_
          exact Constant.bind (ih _) fun _ => Constant.pure _
      · exact Constant.throw _

/-- These queries have one answer in coherent states. -/
theorem HistoryFree.constant (hA : A.Total) {α : Type} {q : Query CongruenceLattice α}
    (hq : HistoryFree q) : Constant (Coherent A settings) q := by
  cases hq with
  | cg a b => exact constant_cg hA a b
  | generatedBy ps => exact constant_generatedBy hA ps
  | isCongruence p => exact constant_get_bind (fun _ => rfl) (Constant.lift _)
  | tolerance a b => exact constant_get_bind (fun _ => rfl) (Constant.lift _)
  | principalList => exact Constant.bind (constant_principalData hA) fun _ => Constant.pure _
  | generatingPair beta =>
      refine constant_check (fun _ => rfl) fun _ _ => ?_
      refine Constant.bind (constant_principalData hA) fun data => ?_
      split
      · exact Constant.pure _
      · exact Constant.throw _
  | irreducibleList => exact constant_irreducibleList hA
  | joinIrreducibleList => exact (yields_joinIrreducibleList hA).constant
  | lowerStar beta =>
      refine constant_check (fun _ => rfl) fun _ _ => ?_
      exact Constant.bind (constant_irreducibleData hA) fun _ => Constant.pure _
  | atomList => exact (yields_atomList hA).constant
  | upperCovers p =>
      refine constant_check (fun _ => rfl) fun answer _ => ?_
      refine Constant.guard fun _ => ?_
      exact Constant.bind (constant_irreducibleList hA) fun _ => Constant.pure _
  | findUpperCover p =>
      refine constant_check (fun _ => rfl) fun _ _ => ?_
      refine constant_get_bind (fun _ => rfl) (Constant.ite (Constant.pure _) ?_)
      refine Constant.bind (constant_irreducibleList hA) fun _ => ?_
      split
      · exact Constant.pure _
      · exact Constant.throw _
  | joinPrime beta =>
      refine constant_check (fun _ => rfl) fun _ _ => ?_
      refine Constant.bind (constant_irreducibleList hA) fun _ => ?_
      exact constant_get_bind (fun _ => rfl) (Constant.pure _)
  | isDistributive =>
      refine Constant.bind (constant_irreducibleList hA) fun _ => ?_
      exact constant_get_bind (fun _ => rfl) (Constant.pure _)
  | isSimple =>
      refine constant_get_bind (fun _ => rfl) (Constant.ite (Constant.pure _) ?_)
      refine Constant.bind (Constant.bind (constant_principalData hA) fun _ => Constant.pure _) ?_
      exact fun _ => constant_get_bind (fun _ => rfl) (Constant.pure _)
  | principalChain =>
      exact constant_get_bind (fun _ => rfl) (constant_chainFrom hA _ _)

/-- **What was asked before does not matter.**  After any queries, whether they failed or not, each
of the queries listed answers, with a value or a fault, what it answers on a new lattice.  Generation
by pairs of elements answers with the least congruence that contains them, as it does without
caches. -/
theorem history_invisible (hA : A.Total) (settings : Settings) :
    (∀ {α : Type} {q : Query CongruenceLattice α}, HistoryFree q →
      ∀ L, Reachable A settings L → q.result L = q.result (start A settings)) ∧
    ∀ L, Reachable A settings L → ∀ ps : List (ℕ × ℕ),
      (∀ p ∈ ps, p.1 < A.size ∧ p.2 < A.size) →
      ∃ θ, A.IsLeastCongruence (fun x y => (x, y) ∈ ps) θ ∧
        (generatedBy ps).result L = .ok θ ∧ L.cgPairs ps = .ok θ := by
  refine ⟨?_, ?_⟩
  · intro α q hq L hL
    exact (hq.constant hA).result_eq (hL.coherent hA) (coherent_start A settings)
  · intro L hL ps hps
    obtain ⟨s, -, hs⟩ := CongruenceClosure.close_foldAll hA ps hps .sequential
    have hcoherent := hL.coherent hA
    refine ⟨s.partition, hs, (yields_generatedBy hA hps hs).result_eq hcoherent, ?_⟩
    obtain rfl := hcoherent.1.algebra_eq
    exact cgPairs_eq hA hps hs

/-- In the residues modulo four two pairs generate the parity, also after a list of congruences that
was cut off. -/
theorem parity_after_congruences_residuesModFour :
    (generatedBy [(0, 2), (1, 3)]).result
        ((congruences 1).after (start Algebra.residuesModFour .standard))
      = .ok ⟨#[0, 1, 0, 1], 2⟩ := by
  obtain ⟨hinvisible, hpairs⟩ := history_invisible Algebra.total_residuesModFour .standard
  have hrun : (start Algebra.residuesModFour .standard).cgPairs [(0, 2), (1, 3)]
      = .ok ⟨#[0, 1, 0, 1], 2⟩ := by cbv
  obtain ⟨θ, -, hgenerated, hcgPairs⟩ := hpairs _ .start [(0, 2), (1, 3)] (by decide)
  rw [hinvisible (.generatedBy _) _ (.query (.congruences 1) .start), hgenerated, ← hcgPairs, hrun]

end UniversalAlgebra.CongruenceLattice
