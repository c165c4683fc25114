/-
**Join primeness and distributivity.**

An element of a finite lattice is join prime if it lies below a join only where it lies below one of the
operands.  Then the elements that are not above it are closed under joins, so that they have a greatest
one, and it is enough to join them all and to look once whether the join is above the element.  If that
holds of generators, meets distribute over joins, since an element is known by the generators below it;
and in a distributive lattice an element with an only lower cover is join prime, since its meets with two
others that are not above it lie below that cover.

Main results:

* `joinPrime_iff_not_le_isLUB` — join primeness is decided by one join;
* `Generates.inf_sup_eq`, `joinPrime_of_covBy_iff` — distributivity is join primeness of generators;
* `CongruenceLattice.isDistributive_exact` — **the tests for distributivity and for join primeness**.
-/

import Mathlib
import UniversalAlgebra.Proofs.CongruenceLattice.Joins
import UniversalAlgebra.Proofs.CongruenceLattice.Covers

set_option autoImplicit false

namespace UniversalAlgebra

/-! ### Join prime elements -/

section Lattice

variable {β : Type} {G : Set β} {p x y z lower : β}

/-- Join primeness of an element is decided by the join of all elements that are not above it. -/
theorem joinPrime_iff_not_le_isLUB [SemilatticeSup β] [OrderBot β] [Finite β]
    (hz : IsLUB {x | ¬ p ≤ x} z) :
    (p = ⊥ ∨ ¬ p ≤ z) ↔ ∀ x y, p ≤ x ⊔ y → p ≤ x ∨ p ≤ y := by
  constructor
  · rintro (rfl | hpz) x y hxy
    · exact Or.inl bot_le
    · by_contra hnot
      obtain ⟨hx, hy⟩ := not_or.1 hnot
      exact hpz (hxy.trans (sup_le (hz.1 hx) (hz.1 hy)))
  · intro hprime
    by_cases hp : p = ⊥
    · exact Or.inl hp
    · -- a maximal element that is not above `p` absorbs all the others, so it is their join
      obtain ⟨m, hm, hmax⟩ := (Set.toFinite {x | ¬ p ≤ x}).exists_maximal
        ⟨⊥, mt le_bot_iff.1 hp⟩
      have hupper : z ≤ m := hz.2 fun x hx => by
        have hsup : ¬ p ≤ m ⊔ x := fun h => (hprime m x h).elim hm hx
        exact le_sup_right.trans (hmax hsup le_sup_left)
      exact Or.inr fun hpz => hm (hpz.trans hupper)

/-- Meets distribute over joins if all generators are join prime. -/
theorem Generates.inf_sup_eq [Lattice β] (hG : Generates G)
    (hprime : ∀ g ∈ G, ∀ x y, g ≤ x ⊔ y → g ≤ x ∨ g ≤ y) :
    x ⊓ (y ⊔ z) = x ⊓ y ⊔ x ⊓ z := by
  refine le_antisymm (hG _ _ fun g hg hle => ?_) le_inf_sup
  obtain ⟨hx, hyz⟩ := le_inf_iff.1 hle
  rcases hprime g hg y z hyz with hy | hz
  · exact (le_inf hx hy).trans le_sup_left
  · exact (le_inf hx hz).trans le_sup_right

/-- If they do, an element with an only lower cover is join prime. -/
theorem joinPrime_of_covBy_iff [Lattice β] [Finite β] (hlower : ∀ w, w ⋖ p ↔ w = lower)
    (hdistrib : ∀ x y z : β, x ⊓ (y ⊔ z) = x ⊓ y ⊔ x ⊓ z) (hle : p ≤ x ⊔ y) :
    p ≤ x ∨ p ≤ y := by
  by_contra hnot
  obtain ⟨hx, hy⟩ := not_or.1 hnot
  have hbelow : p ≤ lower :=
    calc p = p ⊓ (x ⊔ y) := (inf_eq_left.2 hle).symm
      _ = p ⊓ x ⊔ p ⊓ y := hdistrib p x y
      _ ≤ lower := sup_le (le_of_covBy_iff hlower (inf_lt_left.2 hx))
        (le_of_covBy_iff hlower (inf_lt_left.2 hy))
  exact ((hlower lower).2 rfl).lt.not_ge hbelow

end Lattice

/-! ### Join prime congruences -/

namespace Algebra.Congruence

variable {A : Algebra} {beta : A.Congruence} {θ : Partition}

/-- What is joined for a congruence is the join of all congruences that are not above it. -/
theorem exists_isLUB_notAbove (hθ : A.IsLeastCongruence (A.NotAbove beta.partition) θ) :
    ∃ δ : A.Congruence, δ.partition = θ ∧ IsLUB {γ : A.Congruence | ¬ beta ≤ γ} δ := by
  have hrefines (γ : A.Congruence) : beta.partition.refines γ.partition = false ↔ ¬ beta ≤ γ := by
    rw [← Bool.not_eq_true, refines_iff]
  refine ⟨⟨θ, hθ.isCongruence⟩, rfl, fun γ hγ => ?_, fun ε hε => ?_⟩
  · exact le_iff.2 fun {x y} hxy => hθ.rel ⟨γ.partition, γ.isCongruence, (hrefines γ).2 hγ, hxy⟩
  · refine le_iff.2 (hθ.le ε.isCongruence.compatible ?_)
    rintro x y ⟨q, hq, hnot, hxy⟩
    exact le_iff.1 (hε ((hrefines ⟨q, hq⟩).1 hnot)) hxy

/-- The test for join primeness passes exactly the join prime congruences. -/
theorem staysBelow_irreducibles_iff (hA : A.Total) (beta : A.Congruence) :
    staysBelow beta.partition (A.irreducibles.map (·.1)) (Partition.finest A.size) = true ↔
      ∀ x y : A.Congruence, beta ≤ x ⊔ y → beta ≤ x ∨ beta ≤ y := by
  obtain ⟨θ, hθ, hanswer⟩ :=
    staysBelow_irreducibles hA beta.isCongruence.valid beta.isCongruence.size_eq
  obtain ⟨δ, rfl, hδ⟩ := exists_isLUB_notAbove hθ
  rw [hanswer, ← joinPrime_iff_not_le_isLUB hδ, Bool.or_eq_true, beq_iff_eq,
    partition_eq_finest_iff, Bool.not_eq_true', ← Bool.not_eq_true, refines_iff]

/-- All irreducible congruences pass it exactly if the lattice is distributive. -/
theorem all_staysBelow_iff (hA : A.Total) :
    ((A.irreducibles.map (·.1)).all fun beta =>
      staysBelow beta (A.irreducibles.map (·.1)) (Partition.finest A.size)) = true ↔
      ∀ x y z : A.Congruence, x ⊓ (y ⊔ z) = x ⊓ y ⊔ x ⊓ z := by
  rw [List.all_eq_true]
  constructor
  · intro hall x y z
    exact (generates_irreducibles hA).inf_sup_eq fun g hg =>
      (staysBelow_irreducibles_iff hA g).1 (hall g.partition hg)
  · intro hdistrib p hp
    obtain ⟨beta, rfl⟩ : ∃ beta : A.Congruence, beta.partition = p :=
      ⟨⟨p, isCongruence_of_mem_irreducibles hA hp⟩, rfl⟩
    obtain ⟨lower, hlower⟩ := (mem_irreducibles_iff hA).1 hp
    exact (staysBelow_irreducibles_iff hA beta).2 fun x y =>
      joinPrime_of_covBy_iff hlower hdistrib

end Algebra.Congruence

namespace CongruenceLattice

open Query

variable {A : Algebra} {settings : Settings} {L : CongruenceLattice}

theorem yields_isDistributive (hA : A.Total) :
    Yields (Sound A settings) isDistributive (.ok ((A.irreducibles.map (·.1)).all fun beta =>
      staysBelow beta (A.irreducibles.map (·.1)) (Partition.finest A.size))) := by
  refine Yields.bind (yields_irreducibleList hA) (Yields.get_bind fun L hL => ?_)
  rw [hL.zero_eq]
  exact Yields.pure _

/-- **The tests for distributivity and for join primeness.**  In every reachable lattice the test for
distributivity has an answer, which is true exactly if meets of congruences distribute over their joins;
and the test for join primeness of a congruence has one, which is true exactly if the congruence lies
below a join of congruences only where it lies below one of the two. -/
theorem isDistributive_exact (hA : A.Total) (hL : Reachable A settings L) :
    (∃ answer, isDistributive.result L = .ok answer ∧
      (answer = true ↔ ∀ x y z : A.Congruence, x ⊓ (y ⊔ z) = x ⊓ y ⊔ x ⊓ z)) ∧
    ∀ beta : A.Congruence, ∃ answer, (joinPrime beta.partition).result L = .ok answer ∧
      (answer = true ↔ ∀ x y : A.Congruence, beta ≤ x ⊔ y → beta ≤ x ∨ beta ≤ y) := by
  have hsound := hL.sound hA
  constructor
  · exact ⟨_, (yields_isDistributive hA).result_eq hsound,
      Algebra.Congruence.all_staysBelow_iff hA⟩
  · intro beta
    exact ⟨_, (yields_staysBelow hA beta.isCongruence.size_eq).result_eq hsound,
      Algebra.Congruence.staysBelow_irreducibles_iff hA beta⟩

end CongruenceLattice

/-! ### Three points -/

/-- Three points without operations. -/
def Algebra.threePoints : Algebra := ⟨"3", 3, [], []⟩

theorem Algebra.total_threePoints : threePoints.Total := by
  have hbuild : build "3" 3 [] = .ok threePoints := by cbv
  exact total_of_build hbuild fun op hop => absurd hop List.not_mem_nil

namespace CongruenceLattice

/-- On three points each of the three partitions into two blocks lies below the join of the two others
and below neither, so none is join prime and meets do not distribute over joins. -/
theorem isDistributive_threePoints :
    isDistributive.result (start Algebra.threePoints .standard) = .ok false ∧
    (joinPrime ⟨#[0, 0, 2], 2⟩).result (start Algebra.threePoints .standard) = .ok false := by
  have hcongruence {p : Partition} (hp : p.Valid) (hsize : p.size = 3) :
      ∃ γ : Algebra.threePoints.Congruence, γ.partition = p :=
    ⟨⟨p, hp, hsize, fun op hop => absurd hop List.not_mem_nil⟩, rfl⟩
  obtain ⟨x, hx⟩ := hcongruence (p := ⟨#[0, 0, 2], 2⟩) ⟨by decide, by decide, by decide⟩ rfl
  obtain ⟨y, hy⟩ := hcongruence (p := ⟨#[0, 1, 0], 2⟩) ⟨by decide, by decide, by decide⟩ rfl
  obtain ⟨z, hz⟩ := hcongruence (p := ⟨#[0, 1, 1], 2⟩) ⟨by decide, by decide, by decide⟩ rfl
  have hle : x ≤ y ⊔ z := by
    rw [← Algebra.Congruence.refines_iff, Algebra.Congruence.partition_sup, hx, hy, hz]
    cbv
  obtain ⟨⟨distributive, hresult, hdistributive⟩, hprime⟩ :=
    isDistributive_exact Algebra.total_threePoints (@Reachable.start Algebra.threePoints .standard)
  constructor
  · rw [hresult]
    refine congrArg Except.ok (Bool.eq_false_iff.2 fun htrue => ?_)
    have hxy : x ⊓ y = ⊥ := Algebra.Congruence.inf_eq_bot (by rw [hx, hy]; decide)
    have hxz : x ⊓ z = ⊥ := Algebra.Congruence.inf_eq_bot (by rw [hx, hz]; decide)
    have hbot : x = ⊥ :=
      calc x = x ⊓ (y ⊔ z) := (inf_eq_left.2 hle).symm
        _ = x ⊓ y ⊔ x ⊓ z := hdistributive.1 htrue x y z
        _ = ⊥ := by rw [hxy, hxz, sup_idem]
    rw [hbot] at hx
    cases hx
  · obtain ⟨prime, hanswer, hiff⟩ := hprime x
    rw [← hx, hanswer]
    refine congrArg Except.ok (Bool.eq_false_iff.2 fun htrue => ?_)
    have hnone : ¬ (x ≤ y ∨ x ≤ z) := by
      rw [← Algebra.Congruence.refines_iff, ← Algebra.Congruence.refines_iff, hx, hy, hz]
      decide
    exact hnone (hiff.1 htrue y z hle)

end CongruenceLattice

end UniversalAlgebra
