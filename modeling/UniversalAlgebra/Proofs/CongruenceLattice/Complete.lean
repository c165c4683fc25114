/-
**The congruences as joins of irreducible ones.**

A congruence relates a pair exactly if it lies above the congruence generated by the pair, so the
principal congruences determine every congruence.  A principal congruence that is not listed as
irreducible is the join of those strictly below it, and can be left out.  So the search for the joins
of irreducible congruences finds all of them, and there are at most as many as there are maps that
send each element to a least element.

Main definitions:

* `Algebra.congruences` — all congruences in rank order.

Main results:

* `Algebra.Congruence.generates_irreducibles` — the irreducible congruences determine every
  congruence;
* `Algebra.mem_congruences`, `Algebra.pairwise_congruences` — each congruence is listed once, in rank
  order;
* `Algebra.congruences_of_search` — **the search finds them all, or more than the cap allows**.
-/

import Mathlib
import UniversalAlgebra.Proofs.CappedList
import UniversalAlgebra.Proofs.CongruenceLattice.Irreducibles

set_option autoImplicit false

namespace UniversalAlgebra.Algebra

variable {A : Algebra} {p : Partition}

/-! ### Generators -/

/-- The irreducible congruences are the principal ones that are not the join of those strictly below
them. -/
theorem mem_irreducibles : p ∈ A.irreducibles.map (·.1) ↔ p ∈ A.principals.elements ∧
    joinBelow p A.principals.elements (Partition.finest A.size) ≠ p := by
  rw [irreducibles, map_fst_selectIrreducibles, List.mem_filter, bne_iff_ne]

theorem isCongruence_of_mem_irreducibles (hA : A.Total) (hp : p ∈ A.irreducibles.map (·.1)) :
    A.IsCongruence p :=
  isCongruence_of_mem_principals hA (mem_irreducibles.1 hp).1

namespace Congruence

/-- The irreducible congruences determine every congruence. -/
theorem generates_irreducibles (hA : A.Total) :
    Generates {γ : A.Congruence | γ.partition ∈ A.irreducibles.map (·.1)} := by
  refine (generates_principals hA).of_bounded fun γ hγ hnot δ hδ => ?_
  have hjoin : joinBelow γ.partition A.principals.elements (Partition.finest A.size)
      = γ.partition := by
    by_contra hne
    exact hnot (mem_irreducibles.2 ⟨hγ, hne⟩)
  obtain ⟨ε, hε, hlub⟩ := isLUB_joinBelow hA γ
  obtain rfl : ε = γ := Congruence.ext (hε.symm.trans hjoin)
  exact hlub.2 fun g hg => hδ g hg.1 hg.2

/-- A congruence is known by what the rank order compares. -/
theorem rankKey_injective : Function.Injective (Partition.rankKey ∘ partition (A := A)) :=
  fun γ δ h => Congruence.ext (γ.isCongruence.valid.eq_of_rankKey_eq δ.isCongruence.valid h)

theorem card_le (A : Algebra) : Nat.card A.Congruence ≤ A.size.pow A.size := by
  have h := Nat.card_le_card_of_injective repMap (repMap_injective (A := A))
  simpa using h

end Congruence

/-! ### The list of all congruences -/

/-- All congruences in rank order. -/
noncomputable def congruences (A : Algebra) : List Partition :=
  Partition.sortByRank ((everything A.Congruence).map Congruence.partition)

theorem mem_congruences : p ∈ A.congruences ↔ A.IsCongruence p := by
  simp only [congruences, Partition.mem_sortByRank, List.mem_map, mem_everything, true_and]
  constructor
  · rintro ⟨γ, rfl⟩
    exact γ.isCongruence
  · exact fun hp => ⟨⟨p, hp⟩, rfl⟩

theorem pairwise_congruences (A : Algebra) :
    A.congruences.Pairwise fun p q => p.rankLess q = true :=
  Partition.orderedBy_rankLess.pairwise_sort_map Congruence.rankKey_injective (nodup_everything _)

theorem length_congruences (A : Algebra) : A.congruences.length = Nat.card A.Congruence := by
  rw [congruences, Partition.sortByRank, List.length_mergeSort, List.length_map, length_everything]

/-- **The search for joins of irreducible congruences finds them all, or more than the cap
allows.** -/
theorem congruences_of_search (hA : A.Total) (cap : ℕ) :
    ∃ (found : List Partition) (capped : Bool),
      Id.run (joinClosure (fun p q => pure (p.sup q)) Partition.refines (Partition.finest A.size)
        (A.irreducibles.map (·.1)) (A.size.pow A.size) cap) = (found, capped) ∧
      FoundUpTo A.congruences Partition.rankLess cap (Partition.sortByRank found) capped :=
  sorted_joinClosure_spec (fun p q => pure (p.sup q)) answering_id Partition.orderedBy_rankLess
    Congruence.rankKey_injective Congruence.refines_iff (fun _ _ => rfl)
    (fun p hp => ⟨⟨p, isCongruence_of_mem_irreducibles hA hp⟩, rfl⟩)
    (Congruence.generates_irreducibles hA) (Congruence.card_le A) cap

end UniversalAlgebra.Algebra
