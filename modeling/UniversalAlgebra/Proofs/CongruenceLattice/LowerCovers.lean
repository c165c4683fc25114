/-
**The congruences with one lower cover.**

The search for irreducible congruences looks at principal congruences only, each with those principal
ones that lie strictly below it, and stops joining once the congruence is reached.  That is exact for
the whole lattice: a congruence with exactly one lower cover is principal, since principal congruences
strictly below it lie below that cover, and what the search keeps a congruence with is that cover.

Main results:

* `Algebra.lookup_irreducibles_eq_some_iff` — what is looked up is the only lower cover;
* `CongruenceLattice.irreducibles_exact` — **the congruences with exactly one lower cover are listed,
  each is answered with that cover, and no other partition is answered with any**.
-/

import Mathlib
import UniversalAlgebra.Proofs.CongruenceLattice.Covers

set_option autoImplicit false

namespace UniversalAlgebra

namespace Algebra

variable {A : Algebra} {p q : Partition}

/-- **What is looked up among the irreducible congruences is the only lower cover**, whether the
partition is a congruence or not. -/
theorem lookup_irreducibles_eq_some_iff (hA : A.Total) :
    A.irreducibles.lookup p = some q ↔ OnlyLowerCover (Congruence.partition (A := A)) q p := by
  constructor
  · intro h
    obtain ⟨hp, hq⟩ := isCongruence_of_lookup hA h
    exact ⟨⟨p, hp⟩, ⟨q, hq⟩, rfl, rfl, (Congruence.lookup_irreducibles_iff hA).1 h⟩
  · rintro ⟨beta, lower, rfl, rfl, hlower⟩
    exact Congruence.lookup_irreducibles hA hlower

theorem mem_irreducibles_iff_exists (hA : A.Total) :
    p ∈ A.irreducibles.map (·.1) ↔ ∃ q, OnlyLowerCover (Congruence.partition (A := A)) q p := by
  constructor
  · intro hmem
    obtain ⟨beta, rfl⟩ : ∃ beta : A.Congruence, beta.partition = p :=
      ⟨⟨p, isCongruence_of_mem_irreducibles hA hmem⟩, rfl⟩
    obtain ⟨lower, hlower⟩ := (Congruence.mem_irreducibles_iff hA).1 hmem
    exact ⟨lower.partition, beta, lower, rfl, rfl, hlower⟩
  · rintro ⟨q, beta, lower, rfl, -, hlower⟩
    exact (Congruence.mem_irreducibles_iff hA).2 ⟨lower, hlower⟩

/-- The join of two congruences that do not refine each other has more than one lower cover. -/
theorem not_onlyLowerCover_sup {p' : Partition} (hp : A.IsCongruence p) (hp' : A.IsCongruence p')
    (hnot : p.refines p' = false) (hnot' : p'.refines p = false) :
    ¬ OnlyLowerCover (Congruence.partition (A := A)) q (p.sup p') := by
  rintro ⟨beta, lower, hbeta, -, hlower⟩
  obtain ⟨γ, rfl⟩ : ∃ γ : A.Congruence, γ.partition = p := ⟨⟨p, hp⟩, rfl⟩
  obtain ⟨δ, rfl⟩ : ∃ δ : A.Congruence, δ.partition = p' := ⟨⟨p', hp'⟩, rfl⟩
  rw [← Bool.not_eq_true, Congruence.refines_iff] at hnot hnot'
  obtain rfl : beta = γ ⊔ δ := Congruence.ext hbeta
  have hle : γ ⊔ δ ≤ lower := sup_le (le_of_covBy_iff hlower (left_lt_sup.2 hnot'))
    (le_of_covBy_iff hlower (right_lt_sup.2 hnot))
  exact hle.not_gt ((hlower lower).2 rfl).lt

end Algebra

namespace CongruenceLattice

open Query

variable {A : Algebra} {settings : Settings} {L : CongruenceLattice}

/-- The test for irreducibility agrees with the list that has all but the greatest congruence. -/
theorem yields_isJoinIrreducible (hA : A.Total) {p : Partition} (hsize : p.size = A.size) :
    Yields (Sound A settings) (isJoinIrreducible p) (.ok (A.joinIrreducibles.contains p)) := by
  refine Yields.get_bind fun L hL => ?_
  rw [checkPartition, hL.algebra_eq, if_pos hsize]
  refine Yields.bind (Yields.lift (.ok ())) (Yields.get_bind fun L hL => ?_)
  rw [one, hL.algebra_eq]
  have hcontains : A.joinIrreducibles.contains p
      = (p != Partition.coarsest A.size && (A.irreducibles.map (·.1)).contains p) := by
    rw [Bool.eq_iff_iff]
    simp [Algebra.joinIrreducibles, and_comm]
  rw [hcontains]
  split
  · next hone =>
      rw [hone, bne_self_eq_false, Bool.false_and]
      exact Yields.pure false
  · next hone =>
      rw [bne_iff_ne.2 hone, Bool.true_and]
      exact Yields.bind (yields_irreducibleList hA) (Yields.pure _)

/-- **The congruences with exactly one lower cover.**  In every reachable lattice they are listed,
strictly in rank order.  A partition of the size of the algebra has an answer for a lower cover exactly
if it is listed, and the answer is then the only congruence that it covers.  The list of join
irreducible congruences and the test for them leave out the greatest congruence, and nothing else. -/
theorem irreducibles_exact (hA : A.Total) (hL : Reachable A settings L) :
    ∃ irreducible, irreducibleList.result L = .ok irreducible ∧
      (irreducible.Pairwise fun p q => p.rankLess q = true) ∧
      (∀ p, p ∈ irreducible ↔
        ∃ beta : A.Congruence, beta.partition = p ∧ ∃! γ : A.Congruence, γ ⋖ beta) ∧
      (∀ p : Partition, p.size = A.size → ∃ answer, (lowerStar p).result L = .ok answer ∧
        (answer.isSome = true ↔ p ∈ irreducible) ∧
        ∀ q, answer = some q ↔ OnlyLowerCover (Algebra.Congruence.partition (A := A)) q p) ∧
      joinIrreducibleList.result L = .ok (irreducible.filter (· != Partition.coarsest A.size)) ∧
      ∀ p : Partition, p.size = A.size → (isJoinIrreducible p).result L
        = .ok ((irreducible.filter (· != Partition.coarsest A.size)).contains p) := by
  have hcoherent := hL.coherent hA
  have hsound := hL.sound hA
  refine ⟨_, (yields_irreducibleList hA).result_eq hsound,
    Algebra.Congruence.pairwise_irreducibles hA, fun p => ?_, fun p hsize => ?_,
    (yields_joinIrreducibleList hA).result_eq hcoherent, fun p hsize => ?_⟩
  · rw [Algebra.mem_irreducibles_iff_exists hA, exists_onlyLowerCover_iff]
  · have hanswer := (yields_lowerStar hA p).result_eq hsound
    rw [if_pos hsize] at hanswer
    refine ⟨_, hanswer, ?_, fun q => Algebra.lookup_irreducibles_eq_some_iff hA⟩
    rw [Algebra.mem_irreducibles_iff_exists hA, Option.isSome_iff_exists]
    simp only [Algebra.lookup_irreducibles_eq_some_iff hA]
  · exact (yields_isJoinIrreducible hA hsize).result_eq hsound

/-- In the pairs of bits the congruence that forgets one bit covers the least congruence only.  The
greatest one is the join of two smaller ones, and has no answer though a single pair generates it. -/
theorem lowerStar_bitPairs :
    (lowerStar ⟨#[0, 0, 2, 2], 2⟩).result
        ((congruences 1).after (start Algebra.bitPairs .standard))
      = .ok (some (Partition.finest 4)) ∧
      (lowerStar (Partition.coarsest 4)).result
          ((congruences 1).after (start Algebra.bitPairs .standard)) = .ok none := by
  have h0 : 0 < Algebra.bitPairs.size := by decide
  have h1 : 1 < Algebra.bitPairs.size := by decide
  have h2 : 2 < Algebra.bitPairs.size := by decide
  obtain ⟨_, -, -, -, hstar, -⟩ :=
    irreducibles_exact Algebra.total_bitPairs (.query (.congruences 1) .start)
  constructor
  · obtain ⟨answer, hanswer, -, hiff⟩ := hstar ⟨#[0, 0, 2, 2], 2⟩ rfl
    rw [hanswer, (hiff (Partition.finest 4)).2 ⟨Algebra.Congruence.cg Algebra.total_bitPairs h0 h1, ⊥,
      Algebra.Congruence.cg_bitPairs.1, rfl, Algebra.Congruence.covBy_iff_bitPairs h0 h1⟩]
  · obtain ⟨answer, hanswer, -, hiff⟩ := hstar (Partition.coarsest 4) rfl
    cases answer with
    | none => exact hanswer
    | some q =>
        obtain ⟨hfirst, -, hsecond⟩ := Algebra.Congruence.cg_bitPairs
        have hjoin : (⟨#[0, 0, 2, 2], 2⟩ : Partition).sup ⟨#[0, 1, 0, 1], 2⟩
            = Partition.coarsest 4 := by decide
        refine absurd ((hiff q).1 rfl) (hjoin ▸ Algebra.not_onlyLowerCover_sup ?_ ?_ ?_ ?_)
        · exact hfirst ▸ Algebra.isCongruence_cg Algebra.total_bitPairs h0 h1
        · exact hsecond ▸ Algebra.isCongruence_cg Algebra.total_bitPairs h0 h2
        · decide
        · decide

end CongruenceLattice

end UniversalAlgebra
