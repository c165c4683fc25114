/-
**The type and the centrality of a cover.**

The type of a congruence over its only lower cover is read off the tables of one subtrace, and the
centrality of the cover is read off all matrices of the congruence.  The two agree: the rows of the
matrices are related together exactly if no table looks like a join or like a meet, which is what the
unary and the affine type mean.  A table is a matrix, and so is one with its rows exchanged, which
gives one direction; the other one is the term condition of the polynomials on the blocks.

Main definitions:

* `Algebra.matrices` — the matrices of a congruence.

Main results:

* `Algebra.columnClosure_eq_matrices` — nullary operations add no matrices;
* `Algebra.IsSubtrace.rowCondition_iff` — **the rows of the matrices are related together exactly if no
  table looks like a join or like a meet**;
* `TypeFinder.findSubtrace_isSubtrace`, `TypeFinder.typeSubtrace_abelian_iff` — the subtrace that is found,
  and when its type is unary or affine;
* `TypeFinder.classify_centrality` — **the centrality of a cover goes with its type**.
-/

import UniversalAlgebra.Proofs.CongruenceLattice.Commutators
import UniversalAlgebra.Proofs.Polynomial.Blocks
import UniversalAlgebra.Proofs.TypeFinder.Perspective

set_option autoImplicit false

namespace UniversalAlgebra

/-! ### Matrices of one congruence -/

namespace Algebra

variable {A : Algebra} {alpha beta : Partition} {c d x y u v : ℕ}

/-- The matrices of a congruence and itself. -/
def matrices (A : Algebra) (beta : Partition) : Set (List ℕ) :=
  A.subpower 4 (CongruenceLattice.matrixSeed (.ofPartition beta) (.ofPartition beta))

theorem isLeast_matrices (hA : A.Total) (hbeta : A.IsCongruence beta) :
    IsLeast {U | A.IsSubpower 4 U ∧
      CongruenceLattice.matrixSeed (.ofPartition beta) (.ofPartition beta) ⊆ U} (A.matrices beta) :=
  hA.isLeast_subpower (CongruenceLattice.matrixSeed_subset hbeta.isOver hbeta.isOver)

/-- A congruence pairs each constant with itself, so that nullary operations add no matrices. -/
theorem columnClosure_eq_matrices (hA : A.Total) (hbeta : A.IsCongruence beta) :
    A.columnClosure 4 (CongruenceLattice.matrixSeed (.ofPartition beta) (.ofPartition beta))
      = A.matrices beta := by
  have hsub := CongruenceLattice.matrixSeed_subset hbeta.isOver hbeta.isOver
  refine columnClosure_eq_subpower hA hsub ((isSubpower_columnClosure_iff hA hsub).2 ?_)
  intro c hc
  obtain ⟨op, hop, harity, happly⟩ := (hA.mem_constants c).1 hc
  have hlt : c < beta.size := by
    rw [hbeta.size_eq, ← Operation.value_eq_of_apply happly]
    exact hA.value_lt hop harity.symm (by simp)
  exact CongruenceLattice.replicate_mem_columnClosure hA hbeta.isOver hbeta.isOver
    (Or.inl ((Relation.mem_pairs_ofPartition hbeta.valid).2 ⟨hlt, hlt, rfl⟩))

/-- The tables of a related pair are matrices. -/
theorem tables_subset_matrices (hA : A.Total) (hbeta : A.IsCongruence beta) (hp : A.IsPair (c, d))
    (hrel : beta.setoid c d) : A.tables c d ⊆ A.matrices beta := by
  obtain ⟨⟨hclosed, hseed⟩, -⟩ := isLeast_matrices hA hbeta
  have hpair {x y : ℕ} (hx : x < A.size) (hy : y < A.size) (hxy : beta.setoid x y) :
      (x, y) ∈ (Relation.ofPartition beta).pairs :=
    (Relation.mem_pairs_ofPartition hbeta.valid).2 ⟨hbeta.size_eq ▸ hx, hbeta.size_eq ▸ hy, hxy⟩
  refine (hA.isLeast_tables hp).2 ⟨hclosed, ?_⟩
  rintro t (⟨x, hx, rfl⟩ | rfl | rfl)
  · exact hseed (Or.inl ⟨(x, x), hpair hx hx rfl, rfl⟩)
  · exact hseed (Or.inl ⟨(c, d), hpair hp.1 hp.2 hrel, rfl⟩)
  · exact hseed (Or.inr ⟨(c, d), hpair hp.1 hp.2 hrel, rfl⟩)

/-- Exchanging the rows of a matrix gives a matrix. -/
theorem exchange_mem_matrices (hA : A.Total) (hbeta : A.IsCongruence beta)
    (hmem : [x, y, u, v] ∈ A.matrices beta) : [u, v, x, y] ∈ A.matrices beta := by
  obtain ⟨⟨hclosed, hseed⟩, hleast⟩ := isLeast_matrices hA hbeta
  have hexchanged := hclosed.select hA 4 [2, 3, 0, 1] rfl (by simp)
  refine (hleast ⟨hexchanged, fun t ht => ⟨hclosed.subset_tuples (hseed ht), hseed ?_⟩⟩ hmem).2
  rcases ht with ⟨p, hp, rfl⟩ | ⟨p, hp, rfl⟩
  · obtain ⟨h₁, h₂, hrel⟩ := (Relation.mem_pairs_ofPartition hbeta.valid).1 hp
    exact Or.inl ⟨p.swap, (Relation.mem_pairs_ofPartition hbeta.valid).2
      ⟨h₂, h₁, beta.setoid.symm hrel⟩, rfl⟩
  · exact Or.inr ⟨p, hp, rfl⟩

/-- **The rows of the matrices are related together exactly if no table looks like a join or like a
meet.** -/
theorem IsSubtrace.rowCondition_iff (h : A.IsSubtrace alpha beta c d) (hA : A.Total) :
    (∀ x y u v, [x, y, u, v] ∈ A.matrices beta → RowCondition alpha.setoid x y u v) ↔
      ¬ A.HasTable c d (JoinLike alpha.setoid) ∧ ¬ A.HasTable c d (MeetLike alpha.setoid) := by
  have hbeta := h.upper
  constructor
  · intro hrows
    have hmem {x y u v : ℕ} (ht : [x, y, u, v] ∈ A.tables c d) : [x, y, u, v] ∈ A.matrices beta :=
      tables_subset_matrices hA hbeta h.isPair h.rel ht
    constructor
    · rintro ⟨x, y, u, v, ht, ⟨hxy, huv⟩ | ⟨hxu, hyv⟩⟩
      · exact hxy (hrows u v x y (exchange_mem_matrices hA hbeta (hmem ht)) huv)
      · have htranspose := hA.transpose_mem_tables h.isPair ht
        exact hxu (hrows y v x u (exchange_mem_matrices hA hbeta (hmem htranspose)) hyv)
    · rintro ⟨x, y, u, v, ht, ⟨hxy, huv⟩ | ⟨hxu, hyv⟩⟩
      · exact huv (hrows x y u v (hmem ht) hxy)
      · exact hyv (hrows x u y v (hmem (hA.transpose_mem_tables h.isPair ht)) hxu)
  · rintro ⟨hjoin, hmeet⟩ x y u v hmem hrow
    have hpairs : ∀ p ∈ (Relation.ofPartition beta).pairs, beta.setoid p.1 p.2 :=
      fun p hp => ((Relation.mem_pairs_ofPartition hbeta.valid).1 hp).2.2
    exact h.rows_related hA hjoin hmeet hbeta.isOver hbeta.isOver hpairs hpairs hmem hrow

end Algebra

/-- The unary and the affine type are those without joins and meets. -/
theorem TameType.ofPatterns_abelian_iff (involution join meet snag : Bool) :
    (ofPatterns involution join meet snag = .unary ∨ ofPatterns involution join meet snag = .affine) ↔
      join = false ∧ meet = false := by
  cases involution <;> cases join <;> cases meet <;> cases snag <;> decide

namespace TypeFinder

open UniversalAlgebra.Algebra Query

variable {A : Algebra} {settings : Settings} {F : TypeFinder} {beta lower : A.Congruence}

/-- The subtrace that is found for a congruence with exactly one lower cover. -/
theorem findSubtrace_isSubtrace (hA : A.Total) (hF : Sound A settings F)
    (hlower : ∀ γ : A.Congruence, γ ⋖ beta ↔ γ = lower) :
    ∃ s G, findSubtrace beta.partition F = .ok s G ∧ Sound A settings G ∧
      G.alpha = lower.partition ∧ A.IsSubtrace lower.partition beta.partition s.a s.b := by
  have hcover : lower ⋖ beta := (hlower lower).2 rfl
  have hbelow : ¬ beta ≤ lower ⊔ lower := by
    rw [sup_idem]
    exact not_le_of_gt hcover.lt
  obtain ⟨L, hF', hlowerStar⟩ := lowerStar_eq hA hF (Congruence.lookup_irreducibles hA hlower)
  obtain ⟨p, hp, hbeta, hnot, hpair⟩ := exists_generatingPair hA hlower
  obtain ⟨G, hG, halpha, hfind⟩ := findSubtraceOver_eq hA hF' hlower hbelow (hpair settings)
  rw [sup_idem] at halpha
  obtain rfl := hG.algebra_eq
  obtain ⟨q, hq, hqnot, hminimal, visited, hsearch, -⟩ :=
    findSubtraceOfPair_eq hA hp (halpha ▸ hnot)
  obtain ⟨s, hcertify, rfl, -⟩ := certify_eq hA (hA.isPair_of_mem_sgPair hp hq)
  rw [halpha] at hqnot hminimal
  refine ⟨s, { G with visited := visited }, ?_, ⟨hG.lattice_sound, hG.isCongruence_alpha⟩, halpha, ?_⟩
  · rw [findSubtrace_of_ok (x := beta.partition) hlowerStar]
    exact hfind.trans (hsearch.trans (congrArg (fun r => answer r _) hcertify))
  · exact {
      lower := lower.isCongruence
      upper := beta.isCongruence
      le := hcover.le
      isPair := hA.isPair_of_mem_sgPair hp hq
      rel := beta.isCongruence.compatible.of_mem_sgPair hA hp hbeta hq
      not_rel := hqnot
      minimal := hminimal
      generates := fun a ha b hb hab hnotab => by
        have hcg := congrArg Congruence.partition
          (Congruence.cg_eq_of_not_lower hA hlower ha hb hab hnotab)
        exact hcg ▸ hA.isLeastCongruence_cg ha hb }

/-- Typing records the unary or the affine type if there are no tables like a join or like a meet. -/
theorem typeSubtrace_abelian_iff {s : Subtrace} (hA : F.algebra.Total)
    (halpha : F.algebra.IsCongruence F.alpha) (hs : F.algebra.IsPair s.pair) :
    ∃ s', typeSubtrace s F = .ok s' F ∧
      ((s'.type = .unary ∨ s'.type = .affine) ↔ ¬ F.Shows s JoinLike ∧ ¬ F.Shows s MeetLike) := by
  classical
  obtain ⟨matrices, htype⟩ := typeSubtrace_eq hA halpha hs
    (decide_eq_true_iff (p := F.Shows s JoinLike)) (decide_eq_true_iff (p := F.Shows s MeetLike))
    (decide_eq_true_iff (p := F.Shows s SnagLike))
  refine ⟨_, htype, (TameType.ofPatterns_abelian_iff _ _ _ _).trans ?_⟩
  simp only [decide_eq_false_iff_not]

/-- **The centrality of a cover goes with its type.**  Let a congruence of a total algebra have exactly
one lower cover.  In every reachable state it is classified without a fault, and the subtrace that is
answered carries the check of the congruence with itself modulo the lower cover.  This check says that
centrality holds, which is the case exactly if in every matrix of the congruence the second row is
related when the first one is, if and only if the recorded type is unary or affine. -/
theorem classify_centrality (hA : A.Total) (hF : Reachable A settings F)
    (hlower : ∀ γ : A.Congruence, γ ⋖ beta ↔ γ = lower) :
    ∃ s F' data, classify beta.partition true F = .ok s F' ∧ s.centrality = some data ∧
      data.delta = lower.partition ∧ data.left = .ofPartition beta.partition ∧
      data.right = .ofPartition beta.partition ∧
      (data.holds = true ↔ s.type = .unary ∨ s.type = .affine) ∧
      (data.holds = true ↔ ∀ x y u v, [x, y, u, v] ∈ A.matrices beta.partition →
        RowCondition lower.partition.setoid x y u v) := by
  obtain ⟨s₀, G, hfind, hG, halpha, hsubtrace⟩ := findSubtrace_isSubtrace hA (hF.sound hA) hlower
  obtain rfl : G.algebra = A := hG.algebra_eq
  obtain ⟨s, htyped, htype⟩ :=
    typeSubtrace_abelian_iff hA hG.isCongruence_alpha (s := s₀) hsubtrace.isPair
  have hbeta := beta.isCongruence
  obtain ⟨data, hrun, hleft, hright, hdelta, hholds⟩ := CongruenceLattice.centrality_eq
    (L := G.lattice) hA hbeta.isOver hbeta.isOver hG.isCongruence_alpha.size_eq
  refine ⟨{ s with centrality := some data }, G, data, classify_of_ok hfind htyped hrun true, rfl,
    hdelta.trans halpha, hleft, hright, ?_⟩
  · change data.holds = true ↔ ∀ x y u v, [x, y, u, v] ∈ G.algebra.columnClosure 4 _ → _ at hholds
    rw [columnClosure_eq_matrices hA hbeta, halpha] at hholds
    refine ⟨?_, hholds⟩
    rw [hholds, hsubtrace.rowCondition_iff hA, ← halpha]
    exact htype.symm

/-- The bits with conjunction and zero are simple: zero and one generate the universal congruence, which
covers the least one only. -/
theorem universal_covBy_iff_bits (h0 : 0 < bits.size) (h1 : 1 < bits.size) (γ : bits.Congruence) :
    γ ⋖ Congruence.cg total_bits h0 h1 ↔ γ = ⊥ := by
  refine Congruence.covBy_iff_eq_bot total_bits ?_ ?_ γ
  · intro h
    have hrel : (Congruence.cg total_bits h0 h1).partition.setoid 0 1 :=
      (total_bits.isLeastCongruence_cg h0 h1).rel ⟨rfl, rfl⟩
    rw [h] at hrel
    have hbot : ¬ (Partition.finest 2).setoid 0 1 := by simp [Partition.setoid_iff]
    exact hbot hrel
  · intro a b ha hb hab _
    have ha' : a < 2 := ha
    have hb' : b < 2 := hb
    obtain ⟨rfl, rfl⟩ | ⟨rfl, rfl⟩ : a = 0 ∧ b = 1 ∨ a = 1 ∧ b = 0 := by omega
    · exact le_rfl
    · exact le_of_eq (Congruence.ext (total_bits.cg_comm h0 h1))

/-- The table of conjunction is a matrix of the universal congruence. -/
theorem and_mem_matrices_bits (huniversal : bits.IsCongruence ⟨#[0, 0], 1⟩) :
    [0, 0, 0, 1] ∈ bits.matrices ⟨#[0, 0], 1⟩ := by
  obtain ⟨hclosed, hseed⟩ := (isLeast_matrices total_bits huniversal).1
  have hpairs : (Relation.ofPartition ⟨#[0, 0], 1⟩).pairs = [(0, 0), (0, 1), (1, 0), (1, 1)] := by
    cbv
  have hpair : (0, 1) ∈ (Relation.ofPartition ⟨#[0, 0], 1⟩).pairs := by simp [hpairs]
  refine hclosed.columns_mem ⟨"and", 2, 2, .table #[0, 0, 0, 1]⟩ (by simp [bits])
    [[0, 0, 1, 1], [0, 1, 0, 1]] rfl ?_
  intro row hrow
  obtain rfl | rfl := List.mem_pair.1 hrow
  · exact hseed (Or.inl ⟨_, hpair, rfl⟩)
  · exact hseed (Or.inr ⟨_, hpair, rfl⟩)

/-- In the bits with conjunction and zero, centrality fails for the universal congruence, and its type is
neither unary nor affine. -/
theorem classify_universal_bits :
    ∃ s F data, classify (⟨#[0, 0], 1⟩ : Partition) true (start (.start bits .standard)) = .ok s F ∧
      s.centrality = some data ∧ data.delta = .finest 2 ∧ data.holds = false ∧
      s.type ≠ .unary ∧ s.type ≠ .affine := by
  have h0 : 0 < bits.size := by decide
  have h1 : 1 < bits.size := by decide
  have hstart : Reachable bits .standard (start (.start bits .standard)) := .start .start
  have huniversal : (Congruence.cg total_bits h0 h1).partition = ⟨#[0, 0], 1⟩ := by
    change bits.cg 0 1 = _
    rw [Algebra.cg]
    cbv
  obtain ⟨s, F, data, hclassify, hcentrality, hdelta, -, -, htype, hrows⟩ :=
    classify_centrality total_bits hstart (universal_covBy_iff_bits h0 h1)
  rw [huniversal] at hclassify hrows
  have hholds : data.holds ≠ true := by
    intro hholds
    have hand := and_mem_matrices_bits (huniversal ▸ (Congruence.cg total_bits h0 h1).isCongruence)
    have hrel : (Partition.finest 2).setoid 0 1 := hrows.1 hholds 0 0 0 1 hand (Setoid.refl' _ 0)
    exact absurd hrel (by simp [Partition.setoid_iff])
  refine ⟨s, F, data, hclassify, hcentrality, hdelta, Bool.eq_false_iff.2 hholds, ?_, ?_⟩
  · exact fun hunary => hholds (htype.2 (.inl hunary))
  · exact fun haffine => hholds (htype.2 (.inr haffine))

end TypeFinder

end UniversalAlgebra
