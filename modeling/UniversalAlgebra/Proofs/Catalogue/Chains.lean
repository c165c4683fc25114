/-
**Congruences of a chain.**

Every set of elements of a chain is closed under maxima and minima.  A congruence has intervals as
blocks, since between related elements lie maxima and minima of related ones, so that it is known from
the neighbours that it relates; and any neighbours can be related.

Main definitions:

* `Catalogue.linked` — the intervals in which any two neighbours are linked.

Main results:

* `Catalogue.isSubuniverse_lattice_iff` — the closed sets of a chain;
* `Catalogue.compatible_linked`, `Catalogue.eq_linked` — **the congruences of a chain**.
-/

import Mathlib
import UniversalAlgebra.Proofs.Catalogue.Operations

set_option autoImplicit false

namespace UniversalAlgebra.Catalogue

variable {A : Algebra} {n x y z i : ℕ} {S T : Set ℕ} {s : Setoid ℕ}

/-! ### Intervals -/

/-- Elements are related if between them each element is linked to the next one. -/
def linked (T : Set ℕ) : Setoid ℕ where
  r x y := ∀ i, min x y ≤ i → i < max x y → i ∈ T
  iseqv := by
    refine ⟨fun x i => by omega, ?_, ?_⟩
    · intro x y h
      rwa [min_comm, max_comm]
    · intro x y z hxy hyz i hi hi'
      by_cases hle : min x y ≤ i ∧ i < max x y
      · exact hxy i hle.1 hle.2
      · exact hyz i (by omega) (by omega)

theorem linked_succ_iff : linked T i (i + 1) ↔ i ∈ T := by
  constructor
  · exact fun h => h i (by omega) (by omega)
  · intro h j hj hj'
    obtain rfl : j = i := by omega
    exact h

/-- The links are known from the neighbours that are related. -/
theorem linked_injective : Function.Injective linked := by
  intro S T h
  ext i
  rw [← linked_succ_iff, h, linked_succ_iff]

/-- Nothing beyond the last link is related to anything else. -/
theorem within_linked (hT : ∀ i ∈ T, i + 1 < n) : Algebra.Within n (linked T) := by
  intro x y hxy hne
  have hlast := hT _ (hxy (max x y - 1) (by omega) (by omega))
  omega

/-! ### Closed sets and congruences -/

theorem isSubuniverse_lattice_iff (h : A.HasOperations n (latticeOperations n)) :
    A.IsSubuniverse S ↔ ∀ x ∈ S, x < n := by
  rw [h.isSubuniverse_iff]
  refine and_iff_left_of_imp fun hS => ?_
  simp only [latticeOperations, List.forall_mem_cons, List.not_mem_nil, false_imp_iff, implies_true,
    and_true, preserves_binaryOperation hS]
  refine ⟨fun x hx y hy => ?_, fun x hx y hy => ?_⟩
  · rcases max_choice x y with h | h <;> rwa [h]
  · rcases min_choice x y with h | h <;> rwa [h]

theorem compatible_lattice_iff (h : A.HasOperations n (latticeOperations n)) : A.Compatible s ↔
    (∀ x < n, ∀ y < n, ∀ x' < n, ∀ y' < n, s x x' → s y y' → s (max x y) (max x' y')) ∧
      ∀ x < n, ∀ y < n, ∀ x' < n, ∀ y' < n, s x x' → s y y' → s (min x y) (min x' y') := by
  rw [h.compatible_iff]
  simp only [latticeOperations, List.forall_mem_cons, List.not_mem_nil, false_imp_iff, implies_true,
    and_true, respects_binaryOperation]

theorem compatible_linked (h : A.HasOperations n (latticeOperations n)) :
    A.Compatible (linked T) := by
  refine (compatible_lattice_iff h).2 ⟨?_, ?_⟩
  all_goals
    intro x hx y hy x' hx' y' hy' hxx' hyy' i hi hi'
    -- what lies between the values lies between the first or between the second arguments
    by_cases hle : min x x' ≤ i ∧ i < max x x'
    · exact hxx' i hle.1 hle.2
    · exact hyy' i (by omega) (by omega)

/-- What lies between related elements is related to the lower one. -/
theorem related_lower (hmeet : (binaryOperation "meet" n min).Respects s)
    (hxy : x ≤ y) (hyz : y ≤ z) (hz : z < n) (hxz : s x z) : s x y := by
  have hvalues := respects_binaryOperation.1 hmeet x (by omega) y (by omega) z hz y (by omega) hxz
    (s.refl y)
  rwa [min_eq_left hxy, min_eq_right hyz] at hvalues

/-- **A congruence of a chain is known from the neighbours that it relates.** -/
theorem eq_linked (h : A.HasOperations n (latticeOperations n)) (hs : A.Compatible s)
    (hwithin : Algebra.Within n s) : s = linked {i | i + 1 < n ∧ s i (i + 1)} := by
  have hmeet := h.compatible_iff.1 hs _ (List.mem_pair.2 (Or.inr rfl))
  -- from the lower element on, neighbour by neighbour
  have hiff (x y : ℕ) (hle : x ≤ y) : s x y ↔ linked {i | i + 1 < n ∧ s i (i + 1)} x y := by
    constructor
    · intro hxy i hi hi'
      rw [min_eq_left hle] at hi
      rw [max_eq_right hle] at hi'
      have hy : y < n := (hwithin x y hxy (by omega)).2
      have hxi := related_lower hmeet hi (by omega) hy hxy
      have hxi' := related_lower hmeet (y := i + 1) (by omega) (by omega) hy hxy
      exact ⟨by omega, s.trans (s.symm hxi) hxi'⟩
    · intro hlinked
      induction y, hle using Nat.le_induction with
      | base => exact s.refl x
      | succ y hle ih =>
          have hxy := ih fun i hi hi' => hlinked i (by omega) (by omega)
          exact s.trans hxy (hlinked y (by omega) (by omega)).2
  ext x y
  rcases Nat.le_total x y with hle | hle
  · exact hiff x y hle
  · exact s.comm'.trans ((hiff y x hle).trans (linked _).comm')

end UniversalAlgebra.Catalogue
