/-
**Symmetry and monotonicity of the commutators.**

The quadruples of the pairs of two relations have rows and columns exchanged if the relations are
exchanged, and exchanging rows and columns commutes with the operations, so that the matrices of the
exchanged relations are those of the relations with rows and columns exchanged.  The condition on
corners and the one on rows and columns do not notice the exchange, in contrast to the one on rows.
Larger relations have more matrices, and more matrices admit fewer congruences, so that the least one
grows.

In both cases two searches are compared that find the matrices in different orders, and two meets over
different lists.  What connects them is that a commutator is the least congruence with its condition on
the generated quadruples, whatever lattice was asked.

Main results:

* `CongruenceLattice.matrices_comm` — the matrices of the exchanged relations;
* `CongruenceLattice.leastDelta_isLeast` — what every lattice answers;
* `CongruenceLattice.commutators_symmetric` — **the weak commutator and the commutator for strong
  rectangularity are symmetric**;
* `CongruenceLattice.commutators_monotone` — **all three commutators are monotone**.
-/

import Mathlib
import UniversalAlgebra.Proofs.CongruenceLattice.Commutators

set_option autoImplicit false

namespace UniversalAlgebra

theorem CornerCondition.comm {s : Setoid ℕ} {a b c d : ℕ} (h : CornerCondition s a b c d) :
    CornerCondition s a c b d :=
  fun hac hab => h hab hac

theorem RectangularCondition.comm {s : Setoid ℕ} {a b c d : ℕ}
    (h : RectangularCondition s a b c d) : RectangularCondition s a c b d :=
  ⟨h.2, h.1⟩

namespace CongruenceLattice

open Query

variable {A : Algebra} {settings settings' : Settings} {L L' : CongruenceLattice}
  {S S' T T' : Relation} {a b c d : ℕ} {P : Setoid ℕ → ℕ → ℕ → ℕ → ℕ → Prop}
  {verdict : Centrality → Bool}

/-! ### Matrices of exchanged and of larger relations -/

/-- Exchanging the relations exchanges rows and columns. -/
theorem matrices_of_matrices (hA : A.Total) (hS : S.IsOver A.size) (hT : T.IsOver A.size)
    (h : [a, b, c, d] ∈ A.columnClosure 4 (matrixSeed S T)) :
    [a, c, b, d] ∈ A.columnClosure 4 (matrixSeed T S) := by
  have hsub := matrixSeed_subset hS hT
  obtain ⟨⟨-, hclosed, hseed⟩, -⟩ := hA.isLeast_columnClosure (matrixSeed_subset hT hS)
  have hexchanged := hclosed.select hA 4 [0, 2, 1, 3] rfl (by simp)
  have hin : matrixSeed S T ⊆ {t | t ∈ A.tuples 4 ∧
      ([0, 2, 1, 3].map fun j => t.getD j 0) ∈ A.columnClosure 4 (matrixSeed T S)} := by
    intro t ht
    refine ⟨hsub ht, hseed ?_⟩
    rcases ht with ⟨p, hp, rfl⟩ | ⟨p, hp, rfl⟩
    · exact Or.inr ⟨p, hp, rfl⟩
    · exact Or.inl ⟨p, hp, rfl⟩
  exact ((hA.isLeast_columnClosure hsub).2 ⟨fun t ht => ht.1, hexchanged, hin⟩ h).2

theorem matrices_comm (hA : A.Total) (hS : S.IsOver A.size) (hT : T.IsOver A.size) :
    [a, b, c, d] ∈ A.columnClosure 4 (matrixSeed T S) ↔
      [a, c, b, d] ∈ A.columnClosure 4 (matrixSeed S T) :=
  ⟨matrices_of_matrices hA hT hS, matrices_of_matrices hA hS hT⟩

/-- More pairs have more quadruples. -/
theorem matrixSeed_mono (hS : ∀ p ∈ S.pairs, p ∈ S'.pairs) (hT : ∀ p ∈ T.pairs, p ∈ T'.pairs) :
    matrixSeed S T ⊆ matrixSeed S' T' := by
  rintro t (⟨p, hp, rfl⟩ | ⟨p, hp, rfl⟩)
  · exact Or.inl ⟨p, hS p hp, rfl⟩
  · exact Or.inr ⟨p, hT p hp, rfl⟩

/-! ### What every lattice answers -/

/-- Every reachable lattice finds the matrices. -/
theorem exists_matrixTuples (hA : A.Total) (hL : Reachable A settings L) (hS : S.IsOver A.size)
    (hT : T.IsOver A.size) :
    ∃ tuples, L.matrixTuples S T = .ok tuples ∧
      ∀ t, t ∈ tuples ↔ t ∈ A.columnClosure 4 (matrixSeed S T) := by
  obtain rfl := (hL.sound hA).algebra_eq
  obtain ⟨tuples, heq, -, hmem⟩ := matrixTuples_eq hA hS hT
  exact ⟨tuples, heq, hmem⟩

/-- What a check admits on a reachable lattice whose list of congruences is not cut off has a least
congruence with the condition on all generated quadruples as its meet. -/
theorem leastDelta_isLeast (hA : A.Total) (hL : Reachable A settings L)
    (hwhole : ∃ all M, congruences settings.maxSize L = .ok (all, false) M)
    (hS : S.IsOver A.size) (hT : T.IsOver A.size) (hverdict : Centrality.Decides verdict P)
    (hP : PassesToMeets P) :
    ∃ δ : A.Congruence, (leastDelta S T verdict).result L = .ok δ.partition ∧
      IsLeast {γ : A.Congruence | ∀ a b c d, [a, b, c, d] ∈ A.columnClosure 4 (matrixSeed S T) →
        P γ.partition.setoid a b c d} δ := by
  have hcoherent := hL.coherent hA
  obtain ⟨tuples, heq, hmem⟩ := exists_matrixTuples hA (@Reachable.start A settings) hS hT
  obtain ⟨δ, hδ, M, hrun⟩ := leastDelta_spec hA hcoherent
    (available_of_whole hA hcoherent hwhole) hS hT heq hverdict hP
  refine ⟨δ, by rw [result, hrun], ?_⟩
  simpa only [CommutatorOf, hmem] using hδ

variable (hA : A.Total) (hL : Reachable A settings L) (hL' : Reachable A settings' L')
  (hwhole : ∃ all M, congruences settings.maxSize L = .ok (all, false) M)
  (hwhole' : ∃ all M, congruences settings'.maxSize L' = .ok (all, false) M)

include hA hL hL' hwhole hwhole'

/-- A condition that does not notice the exchange of rows and columns has one least congruence for
the relations in both orders. -/
theorem leastDelta_comm (hS : S.IsOver A.size) (hT : T.IsOver A.size)
    (hverdict : Centrality.Decides verdict P) (hP : PassesToMeets P)
    (hcomm : ∀ {s : Setoid ℕ} {a b c d : ℕ}, P s a b c d → P s a c b d) :
    ∃ δ, (leastDelta S T verdict).result L = .ok δ ∧ (leastDelta T S verdict).result L' = .ok δ := by
  obtain ⟨δ, hrun, hδ⟩ := leastDelta_isLeast hA hL hwhole hS hT hverdict hP
  obtain ⟨δ', hrun', hδ'⟩ := leastDelta_isLeast hA hL' hwhole' hT hS hverdict hP
  have heq : δ = δ' := by
    refine le_antisymm (hδ.2 fun a b c d hmem => ?_) (hδ'.2 fun a b c d hmem => ?_)
    · exact hcomm (hδ'.1 a c b d ((matrices_comm hA hS hT).2 hmem))
    · exact hcomm (hδ.1 a c b d ((matrices_comm hA hS hT).1 hmem))
  exact ⟨δ.partition, hrun, heq ▸ hrun'⟩

/-- More pairs have a larger least congruence. -/
theorem leastDelta_mono (hS : S.IsOver A.size) (hT : T.IsOver A.size) (hS' : S'.IsOver A.size)
    (hT' : T'.IsOver A.size) (hsub : matrixSeed S T ⊆ matrixSeed S' T')
    (hverdict : Centrality.Decides verdict P) (hP : PassesToMeets P) :
    ∃ δ δ' : Partition, (leastDelta S T verdict).result L = .ok δ ∧
      (leastDelta S' T' verdict).result L' = .ok δ' ∧ δ.le δ' = .ok true := by
  obtain ⟨δ, hrun, hδ⟩ := leastDelta_isLeast hA hL hwhole hS hT hverdict hP
  obtain ⟨δ', hrun', hδ'⟩ := leastDelta_isLeast hA hL' hwhole' hS' hT' hverdict hP
  have hle : δ ≤ δ' :=
    hδ.2 fun a b c d hmem => hδ'.1 a b c d (Algebra.columnClosure_mono hsub hmem)
  exact ⟨δ.partition, δ'.partition, hrun, hrun', Algebra.Congruence.le_eq_true hle⟩

/-! ### Symmetry -/

/-- **The weak commutator and the commutator for strong rectangularity are symmetric.**  Two reachable
lattices of one algebra whose lists of all congruences are not cut off, or one lattice twice, are asked
about two relations on the universe, the second one with the relations exchanged.  The matrices found
are the same with rows and columns exchanged, and the two commutators are the same. -/
theorem commutators_symmetric (hS : S.IsOver A.size) (hT : T.IsOver A.size) :
    (∃ tuples tuples', L.matrixTuples S T = .ok tuples ∧ L'.matrixTuples T S = .ok tuples' ∧
      {t | t ∈ tuples'} = {t | ∃ a b c d, [a, b, c, d] ∈ tuples ∧ t = [a, c, b, d]}) ∧
    (∃ δ, (weakCommutator S T).result L = .ok δ ∧ (weakCommutator T S).result L' = .ok δ) ∧
    ∃ δ, (rectangularCommutator S T).result L = .ok δ ∧
      (rectangularCommutator T S).result L' = .ok δ := by
  obtain ⟨tuples, heq, hmem⟩ := exists_matrixTuples hA hL hS hT
  obtain ⟨tuples', heq', hmem'⟩ := exists_matrixTuples hA hL' hT hS
  refine ⟨⟨tuples, tuples', heq, heq', ?_⟩, ?_, ?_⟩
  · have hsub := (hA.isLeast_columnClosure (matrixSeed_subset hT hS)).1.1
    ext t
    constructor
    · intro ht
      have hgenerated := (hmem' t).1 ht
      obtain ⟨a, c, b, d, rfl⟩ := Centrality.exists_quadruple (hsub hgenerated).1
      exact ⟨a, b, c, d, (hmem _).2 ((matrices_comm hA hS hT).1 hgenerated), rfl⟩
    · rintro ⟨a, b, c, d, ht, rfl⟩
      exact (hmem' _).2 ((matrices_comm hA hS hT).2 ((hmem _).1 ht))
  · exact leastDelta_comm hA hL hL' hwhole hwhole' hS hT Centrality.decides_weaklyHolds
      passesToMeets_cornerCondition CornerCondition.comm
  · exact leastDelta_comm hA hL hL' hwhole hwhole' hS hT Centrality.decides_isRectangular
      passesToMeets_rectangularCondition RectangularCondition.comm

omit hA hL hL' hwhole hwhole'

/-- In the bits with conjunction and zero, the pair of zero and one on the left and that of one with
itself on the right lead to two matrices.  With the relations exchanged, rows and columns are. -/
theorem commutators_symmetric_bits :
    (start Algebra.bits .standard).matrixTuples ((Relation.empty 2).add 0 1)
        ((Relation.empty 2).add 1 1) = .ok [[0, 0, 1, 1], [1, 1, 1, 1]] ∧
      (∃ tuples, (start Algebra.bits .standard).matrixTuples ((Relation.empty 2).add 1 1)
          ((Relation.empty 2).add 0 1) = .ok tuples ∧
        {t | t ∈ tuples} = {t | ∃ a b c d, [a, b, c, d] ∈ [[0, 0, 1, 1], [1, 1, 1, 1]] ∧
          t = [a, c, b, d]}) ∧
      ∃ δ, (weakCommutator ((Relation.empty 2).add 0 1) ((Relation.empty 2).add 1 1)).result
          (start Algebra.bits .standard) = .ok δ ∧
        (weakCommutator ((Relation.empty 2).add 1 1) ((Relation.empty 2).add 0 1)).result
          (start Algebra.bits .standard) = .ok δ := by
  have hvalid := Relation.valid_empty 2
  have hwhole := exists_whole_start Algebra.total_bits
  have hrun : (start Algebra.bits .standard).matrixTuples ((Relation.empty 2).add 0 1)
      ((Relation.empty 2).add 1 1) = .ok [[0, 0, 1, 1], [1, 1, 1, 1]] := by cbv
  obtain ⟨⟨tuples, tuples', heq, heq', hset⟩, hweak, -⟩ :=
    commutators_symmetric Algebra.total_bits .start .start hwhole hwhole
      ((hvalid.add (i := 0) (j := 1) (by decide) (by decide)).isOver rfl)
      ((hvalid.add (i := 1) (j := 1) (by decide) (by decide)).isOver rfl)
  obtain rfl : tuples = [[0, 0, 1, 1], [1, 1, 1, 1]] := Except.ok.inj (heq.symm.trans hrun)
  exact ⟨hrun, ⟨tuples', heq', hset⟩, hweak⟩

include hA hL hL' hwhole hwhole'

/-! ### Monotonicity -/

/-- **All three commutators are monotone.**  Two reachable lattices of one algebra whose lists of all
congruences are not cut off, or one lattice twice, are asked about two relations on the universe, and
about two that lie above them.  The first matrices are found among the second ones, and the first
commutators lie below the second ones. -/
theorem commutators_monotone (hS : S.Valid) (hS' : S'.Valid) (hT : T.Valid) (hT' : T'.Valid)
    (hSsize : S.size = A.size) (hTsize : T.size = A.size) (hSS' : S.le S' = .ok true)
    (hTT' : T.le T' = .ok true) :
    (∃ tuples tuples', L.matrixTuples S T = .ok tuples ∧ L'.matrixTuples S' T' = .ok tuples' ∧
      ∀ t ∈ tuples, t ∈ tuples') ∧
    (∃ δ δ' : Partition, (commutator S T).result L = .ok δ ∧ (commutator S' T').result L' = .ok δ' ∧
      δ.le δ' = .ok true) ∧
    (∃ δ δ' : Partition, (weakCommutator S T).result L = .ok δ ∧
      (weakCommutator S' T').result L' = .ok δ' ∧ δ.le δ' = .ok true) ∧
    ∃ δ δ' : Partition, (rectangularCommutator S T).result L = .ok δ ∧
      (rectangularCommutator S' T').result L' = .ok δ' ∧ δ.le δ' = .ok true := by
  obtain ⟨hSsize', hSpairs⟩ := (hS.le_iff hS').1 hSS'
  obtain ⟨hTsize', hTpairs⟩ := (hT.le_iff hT').1 hTT'
  have hSover := hS.isOver hSsize
  have hTover := hT.isOver hTsize
  have hSover' := hS'.isOver (hSsize'.symm.trans hSsize)
  have hTover' := hT'.isOver (hTsize'.symm.trans hTsize)
  have hsub := matrixSeed_mono hSpairs hTpairs
  obtain ⟨tuples, heq, hmem⟩ := exists_matrixTuples hA hL hSover hTover
  obtain ⟨tuples', heq', hmem'⟩ := exists_matrixTuples hA hL' hSover' hTover'
  have hmono {verdict : Centrality → Bool} {P : Setoid ℕ → ℕ → ℕ → ℕ → ℕ → Prop}
      (hverdict : Centrality.Decides verdict P) (hP : PassesToMeets P) :=
    leastDelta_mono hA hL hL' hwhole hwhole' hSover hTover hSover' hTover' hsub hverdict hP
  refine ⟨⟨tuples, tuples', heq, heq', fun t ht => ?_⟩, ?_, ?_, ?_⟩
  · exact (hmem' t).2 (Algebra.columnClosure_mono hsub ((hmem t).1 ht))
  · exact hmono Centrality.decides_holds passesToMeets_rowCondition
  · exact hmono Centrality.decides_weaklyHolds passesToMeets_cornerCondition
  · exact hmono Centrality.decides_isRectangular passesToMeets_rectangularCondition

omit hA hL hL' hwhole hwhole'

/-- In the bits with conjunction and zero, one matrix becomes several when the pair of zero and one
joins that of one with itself. -/
theorem commutators_monotone_bits :
    ((Relation.empty 2).add 1 1).le (((Relation.empty 2).add 1 1).add 0 1) = .ok true ∧
      (∃ tuples, (start Algebra.bits .standard).matrixTuples (((Relation.empty 2).add 1 1).add 0 1)
          (((Relation.empty 2).add 1 1).add 0 1) = .ok tuples ∧ [1, 1, 1, 1] ∈ tuples) ∧
      ∃ δ δ' : Partition,
        (commutator ((Relation.empty 2).add 1 1) ((Relation.empty 2).add 1 1)).result
            (start Algebra.bits .standard) = .ok δ ∧
          (commutator (((Relation.empty 2).add 1 1).add 0 1)
            (((Relation.empty 2).add 1 1).add 0 1)).result (start Algebra.bits .standard) = .ok δ' ∧
          δ.le δ' = .ok true := by
  have hvalid : ((Relation.empty 2).add 1 1).Valid :=
    (Relation.valid_empty 2).add (by decide) (by decide)
  have hvalid' : (((Relation.empty 2).add 1 1).add 0 1).Valid :=
    hvalid.add (by decide) (by decide)
  have hwhole := exists_whole_start Algebra.total_bits
  have hle : ((Relation.empty 2).add 1 1).le (((Relation.empty 2).add 1 1).add 0 1) = .ok true := by
    cbv
  obtain ⟨⟨tuples, tuples', heq, heq', hsub⟩, hcommutator, -⟩ :=
    commutators_monotone Algebra.total_bits .start .start hwhole hwhole hvalid hvalid' hvalid hvalid'
      rfl rfl hle hle
  obtain rfl : tuples = [[1, 1, 1, 1]] := Except.ok.inj (heq.symm.trans matrixTuples_one_bits)
  exact ⟨hle, ⟨tuples', heq', hsub _ List.mem_cons_self⟩, hcommutator⟩

end CongruenceLattice

end UniversalAlgebra
