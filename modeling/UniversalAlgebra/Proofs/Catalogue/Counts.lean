/-
**How many subuniverses and congruences the standard algebras have.**

A lattice without a cap counts all closed sets and all compatible equivalence relations inside the
universe.  For a cyclic group both are the subgroups, for a chain they are the sets of elements and the
sets of links between neighbours, and for a bare set the sets of elements and all equivalence
relations.

Main definitions:

* `Algebra.Counts` — what every reachable lattice without a cap counts.

Main results:

* `SubalgebraLattice.cardinality_eq`, `CongruenceLattice.cardinality_eq` — the lattices count
  everything there is;
* `Catalogue.counts_standard` — **the counts for the standard algebras**.
-/

import Mathlib
import UniversalAlgebra.Proofs.Catalogue.Chains
import UniversalAlgebra.Proofs.Catalogue.Counting
import UniversalAlgebra.Proofs.Catalogue.Cyclic
import UniversalAlgebra.Proofs.CongruenceLattice.Joins
import UniversalAlgebra.Proofs.SubalgebraLattice.Coherent

set_option autoImplicit false

namespace UniversalAlgebra

open Query

variable {A : Algebra} {settings : Settings} {n : ℕ}

/-! ### What the lattices count -/

/-- A lattice of subuniverses without a cap counts all of them. -/
theorem SubalgebraLattice.cardinality_eq (hA : A.Total) (hcap : settings.maxSize = 0)
    {L : SubalgebraLattice} (hL : Reachable A settings L) :
    cardinality.result L = .ok (Nat.card A.Subalgebra) := by
  obtain ⟨L', -, hall⟩ :=
    allSubuniverses_eq hA "cardinality" (hL.coherent hA) (Or.inr (Or.inl hcap))
  rw [cardinality, result, bind_of_ok hall, ← Algebra.length_subalgebras]
  rfl

/-- A lattice of congruences without a cap counts all of them. -/
theorem CongruenceLattice.cardinality_eq (hA : A.Total) (hcap : settings.maxSize = 0)
    {L : CongruenceLattice} (hL : Reachable A settings L) :
    cardinality.result L = .ok (Nat.card A.Congruence) := by
  obtain ⟨L', -, hall⟩ :=
    allCongruences_eq hA "cardinality" (hL.coherent hA) (Or.inr (Or.inl hcap))
  rw [cardinality, result, bind_of_ok hall, ← Algebra.length_congruences]
  rfl

namespace Algebra

/-- Subalgebras are closed sets, listed in increasing order. -/
theorem card_subalgebra (A : Algebra) :
    Nat.card A.Subalgebra = Nat.card {S : Set ℕ // A.IsSubuniverse S} := by
  refine Nat.card_eq_of_bijective
    (fun σ => ⟨{x | x ∈ σ.set.elements}, σ.isSubalgebra.isSubuniverse⟩) ⟨?_, ?_⟩
  · intro σ τ h
    exact Subalgebra.ext_mem (congrArg Subtype.val h)
  · rintro ⟨S, hS⟩
    obtain ⟨s, hincreasing, hmem⟩ := ElementSet.exists_increasing hS.lt_size
    obtain rfl : {x | x ∈ s.elements} = S := Set.ext hmem
    exact ⟨⟨s, hincreasing, hS⟩, rfl⟩

/-- Congruences are compatible equivalence relations inside the universe. -/
theorem card_congruence (A : Algebra) :
    Nat.card A.Congruence = Nat.card {s : Setoid ℕ // A.Compatible s ∧ Within A.size s} := by
  refine Nat.card_eq_of_bijective
    (fun γ => ⟨γ.partition.setoid, γ.isCongruence.compatible, γ.within⟩) ⟨?_, ?_⟩
  · intro γ δ h
    exact Congruence.ext_setoid (congrArg Subtype.val h)
  · rintro ⟨s, hs, hwithin⟩
    obtain ⟨γ, rfl⟩ := exists_isCongruence hs hwithin
    exact ⟨γ, rfl⟩

/-- Every reachable lattice without a cap counts this many subuniverses, and this many congruences. -/
def Counts (A : Algebra) (subuniverses congruences : ℕ) : Prop :=
  ∀ settings : Settings, settings.maxSize = 0 →
    (∀ L, SubalgebraLattice.Reachable A settings L →
      SubalgebraLattice.cardinality.result L = .ok subuniverses) ∧
    ∀ L, CongruenceLattice.Reachable A settings L →
      CongruenceLattice.cardinality.result L = .ok congruences

/-- It is enough to count the closed sets and the compatible relations. -/
theorem Total.counts (hA : A.Total) {k l : ℕ} (hk : Nat.card {S : Set ℕ // A.IsSubuniverse S} = k)
    (hl : Nat.card {s : Setoid ℕ // A.Compatible s ∧ Within A.size s} = l) : A.Counts k l := by
  subst hk hl
  intro settings hcap
  refine ⟨fun L hL => ?_, fun L hL => ?_⟩
  · rw [← A.card_subalgebra]
    exact SubalgebraLattice.cardinality_eq hA hcap hL
  · rw [← A.card_congruence]
    exact CongruenceLattice.cardinality_eq hA hcap hL

end Algebra

namespace Catalogue

open UniversalAlgebra.Algebra

/-! ### Cyclic groups -/

theorem card_subuniverses_cyclic [NeZero n] (h : A.HasOperations n (cyclicOperations n)) :
    Nat.card {S : Set ℕ // A.IsSubuniverse S} = n.divisors.card := by
  rw [← card_addSubgroup_zmod]
  refine (Nat.card_eq_of_bijective (fun H => ⟨residues H, isSubuniverse_residues h H⟩) ⟨?_, ?_⟩).symm
  · intro H K hHK
    exact residues_injective (congrArg Subtype.val hHK)
  · rintro ⟨S, hS⟩
    obtain ⟨H, rfl⟩ := exists_residues h hS
    exact ⟨H, rfl⟩

theorem card_congruences_cyclic [NeZero n] (h : A.HasOperations n (cyclicOperations n)) :
    Nat.card {s : Setoid ℕ // A.Compatible s ∧ Within n s} = n.divisors.card := by
  rw [← card_addSubgroup_zmod]
  refine (Nat.card_eq_of_bijective (fun H => ⟨congruentModulo H, compatible_congruentModulo h H,
    within_congruentModulo H⟩) ⟨?_, ?_⟩).symm
  · intro H K hHK
    exact congruentModulo_injective (congrArg Subtype.val hHK)
  · rintro ⟨s, hs, hwithin⟩
    obtain ⟨H, rfl⟩ := exists_congruentModulo h hs hwithin
    exact ⟨H, rfl⟩

/-! ### Chains and bare sets -/

theorem card_setsBelow (n : ℕ) : Nat.card {S : Set ℕ // ∀ x ∈ S, x < n} = 2 ^ n := by
  have hpowerset : {S : Set ℕ | ∀ x ∈ S, x < n} = 𝒫 (Set.Iio n) := rfl
  calc Nat.card {S : Set ℕ // ∀ x ∈ S, x < n} = (𝒫 (Set.Iio n)).ncard := by
        rw [← hpowerset]
        exact Nat.card_coe_set_eq _
    _ = 2 ^ (Set.Iio n).ncard := Set.ncard_powerset _
    _ = 2 ^ n := by simp [Set.ncard_eq_toFinset_card']

theorem card_congruences_lattice (h : A.HasOperations n (latticeOperations n)) :
    Nat.card {s : Setoid ℕ // A.Compatible s ∧ Within n s} = 2 ^ (n - 1) := by
  rw [← card_setsBelow]
  have hlink (T : {T : Set ℕ // ∀ i ∈ T, i < n - 1}) : ∀ i ∈ T.1, i + 1 < n := by
    intro i hi
    have hlt := T.2 i hi
    omega
  refine (Nat.card_eq_of_bijective (fun T => ⟨linked T.1, compatible_linked h,
    within_linked (hlink T)⟩) ⟨?_, ?_⟩).symm
  · intro S T hST
    exact Subtype.ext (linked_injective (congrArg Subtype.val hST))
  · rintro ⟨s, hs, hwithin⟩
    refine ⟨⟨{i | i + 1 < n ∧ s i (i + 1)}, fun i hi => Nat.lt_sub_of_add_lt hi.1⟩, ?_⟩
    exact Subtype.ext (eq_linked h hs hwithin).symm

/-- Equivalence relations inside `[0, n)` are those on a set with `n` elements. -/
theorem card_setoidsWithin (n : ℕ) : Nat.card {s : Setoid ℕ // Within n s} = Nat.bell n := by
  classical
  have hcard : Nat.card (Setoid (Fin n)) = Nat.bell n := by
    rw [card_setoid, Fintype.card_fin]
  rw [← hcard]
  refine Nat.card_eq_of_bijective (fun s => s.1.comap Fin.val) ⟨?_, ?_⟩
  · rintro ⟨s, hs⟩ ⟨t, ht⟩ h
    exact Subtype.ext (hs.ext ht fun x hx y hy => Setoid.ext_iff.1 h ⟨x, hx⟩ ⟨y, hy⟩)
  · intro r
    -- beyond the universe every number is its own class
    let label (x : ℕ) : Quotient r ⊕ ℕ := if hx : x < n then .inl ⟦⟨x, hx⟩⟧ else .inr x
    refine ⟨⟨Setoid.ker label, ?_⟩, ?_⟩
    · intro x y hxy hne
      rw [Setoid.ker_def] at hxy
      by_cases hx : x < n <;> by_cases hy : y < n <;> simp_all [label]
    · ext x y
      rw [Setoid.comap_rel, Setoid.ker_def]
      simp [label, Quotient.eq]

theorem isSubuniverse_bare_iff (h : A.HasOperations n []) {S : Set ℕ} :
    A.IsSubuniverse S ↔ ∀ x ∈ S, x < n := by
  rw [h.isSubuniverse_iff]
  simp

theorem compatible_bare (h : A.HasOperations n []) (s : Setoid ℕ) : A.Compatible s :=
  h.compatible_iff.2 (by simp)

/-! ### The counts -/

/-- **The counts for the standard algebras**, up to 2³¹ elements: a cyclic group has as many
subuniverses and as many congruences as its order has divisors, in a chain of `n` elements there are
`2 ^ n` subuniverses and `2 ^ (n - 1)` congruences, and a bare set has `2 ^ n` subuniverses and as many
congruences as the Bell number says. -/
theorem counts_standard (hn : 1 ≤ n) (hle : n ≤ 2 ^ 31) :
    (∃ A, cyclicGroup n = .ok A ∧ A.Total ∧ A.Counts n.divisors.card n.divisors.card) ∧
    (∃ A, chainLattice n = .ok A ∧ A.Total ∧ A.Counts (2 ^ n) (2 ^ (n - 1))) ∧
    ∃ A, bareSet n = .ok A ∧ A.Total ∧ A.Counts (2 ^ n) (Nat.bell n) := by
  have : NeZero n := ⟨by omega⟩
  refine ⟨?_, ?_, ?_⟩
  · obtain ⟨A, hA, hops⟩ := exists_cyclicGroup hn hle
    refine ⟨A, hA, hops.total, hops.total.counts (card_subuniverses_cyclic hops) ?_⟩
    rw [hops.size_eq]
    exact card_congruences_cyclic hops
  · obtain ⟨A, hA, hops⟩ := exists_chainLattice hn hle
    refine ⟨A, hA, hops.total, hops.total.counts ?_ ?_⟩
    · simp only [isSubuniverse_lattice_iff hops, card_setsBelow]
    · rw [hops.size_eq]
      exact card_congruences_lattice hops
  · obtain ⟨A, hA, hops⟩ := exists_bareSet hn
    refine ⟨A, hA, hops.total, hops.total.counts ?_ ?_⟩
    · simp only [isSubuniverse_bare_iff hops, card_setsBelow]
    · simp only [hops.size_eq, compatible_bare hops, true_and, card_setoidsWithin]

theorem bell_four : Nat.bell 4 = 15 := by
  have hthree : Nat.bell 3 = 5 := by
    rw [Nat.bell_succ, ← Nat.range_succ_eq_Iic]
    simp [Finset.sum_range_succ, Nat.choose]
  rw [Nat.bell_succ, ← Nat.range_succ_eq_Iic]
  simp [Finset.sum_range_succ, Nat.choose, hthree]

/-- Four elements: three divisors, sixteen sets of elements, eight sets of links, and fifteen equivalence
relations. -/
theorem counts_four :
    (∃ A, cyclicGroup 4 = .ok A ∧
      SubalgebraLattice.cardinality.result (SubalgebraLattice.start A .standard) = .ok 3 ∧
      CongruenceLattice.cardinality.result (CongruenceLattice.start A .standard) = .ok 3) ∧
    (∃ A, chainLattice 4 = .ok A ∧
      SubalgebraLattice.cardinality.result (SubalgebraLattice.start A .standard) = .ok 16 ∧
      CongruenceLattice.cardinality.result (CongruenceLattice.start A .standard) = .ok 8) ∧
    ∃ A, bareSet 4 = .ok A ∧
      SubalgebraLattice.cardinality.result (SubalgebraLattice.start A .standard) = .ok 16 ∧
      CongruenceLattice.cardinality.result (CongruenceLattice.start A .standard) = .ok 15 := by
  obtain ⟨⟨Z, hZ, -, hcyclic⟩, ⟨C, hC, -, hchain⟩, B, hB, -, hbare⟩ :=
    counts_standard (n := 4) (by decide) (by decide)
  have hdivisors : (Nat.divisors 4).card = 3 := by decide
  have hstart {A : Algebra} {k l : ℕ} (h : A.Counts k l) :
      SubalgebraLattice.cardinality.result (SubalgebraLattice.start A .standard) = .ok k ∧
        CongruenceLattice.cardinality.result (CongruenceLattice.start A .standard) = .ok l :=
    ⟨(h .standard rfl).1 _ .start, (h .standard rfl).2 _ .start⟩
  rw [hdivisors] at hcyclic
  rw [bell_four] at hbare
  exact ⟨⟨Z, hZ, hstart hcyclic⟩, ⟨C, hC, hstart hchain⟩, B, hB, hstart hbare⟩

end Catalogue

end UniversalAlgebra
