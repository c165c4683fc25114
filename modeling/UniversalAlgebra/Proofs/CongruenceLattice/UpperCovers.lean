/-
**The covers of a congruence.**

The covers are sought among the joins with irreducible congruences only, and such a join is kept unless
one that was kept before lies below it.  That is exact, since rank grows along strict inclusion: what
lies below a join comes before it in rank order, and a join of least rank has nothing below it.  So the
search for one cover can go by rank alone.

Main results:

* `firstOfLeastRank_spec` — the search for an entry of least rank;
* `Algebra.Congruence.pairwise_upperCovers` — the covers are listed strictly in rank order;
* `Algebra.Congruence.covBy_of_least_rank` — a proper join of least rank is a cover;
* `Algebra.Congruence.listsMeetIrreducibles` — the congruences with one upper cover;
* `CongruenceLattice.upperCovers_exact` — **the covers are listed, and one of least rank is found**.
-/

import Mathlib
import UniversalAlgebra.Proofs.CongruenceLattice.Covers

set_option autoImplicit false

namespace UniversalAlgebra

/-! ### Entries of least rank -/

theorem foldl_least_rank_spec (ps : List Partition) (p : Partition) :
    ∃ best, ps.foldl (fun best q => if q.rank < best.rank then q else best) p = best ∧
      best ∈ p :: ps ∧ ∀ q ∈ p :: ps, best.rank ≤ q.rank := by
  induction ps generalizing p with
  | nil => exact ⟨p, rfl, by simp, by simp⟩
  | cons q ps ih =>
      rw [List.foldl_cons]
      split
      · next hlt =>
          obtain ⟨best, hbest, hmem, hleast⟩ := ih q
          refine ⟨best, hbest, List.mem_cons_of_mem p hmem, List.forall_mem_cons.2 ⟨?_, hleast⟩⟩
          exact (hleast q List.mem_cons_self).trans hlt.le
      · next hnot =>
          obtain ⟨best, hbest, hmem, hleast⟩ := ih p
          obtain ⟨hp, hrest⟩ := List.forall_mem_cons.1 hleast
          refine ⟨best, hbest, ?_, ?_⟩
          · simp only [List.mem_cons] at hmem ⊢
            exact hmem.imp_right Or.inr
          · exact List.forall_mem_cons.2 ⟨hp, List.forall_mem_cons.2
              ⟨hp.trans (Nat.not_lt.1 hnot), hrest⟩⟩

/-- In a list that is not empty an entry of least rank is found. -/
theorem firstOfLeastRank_spec {ps : List Partition} (hne : ps ≠ []) :
    ∃ best ∈ ps, firstOfLeastRank ps = some best ∧ ∀ q ∈ ps, best.rank ≤ q.rank := by
  cases ps with
  | nil => exact absurd rfl hne
  | cons p ps =>
      obtain ⟨best, hbest, hmem, hleast⟩ := foldl_least_rank_spec ps p
      exact ⟨best, hmem, congrArg some hbest, hleast⟩

namespace Algebra.Congruence

variable {A : Algebra} {alpha γ : A.Congruence}

/-! ### Proper joins -/

/-- The covers are listed strictly in rank order. -/
theorem pairwise_upperCovers (hA : A.Total) (alpha : A.Congruence) :
    (A.upperCovers alpha.partition).Pairwise fun p q => p.rankLess q = true :=
  (pairwise_dropRepeats_sortByRank (isCongruence_of_mem_properJoins hA alpha)).sublist
    (sublist_selectMinimal _)

/-- A cover is a proper join. -/
theorem mem_properJoins_of_covBy (hA : A.Total) (hcover : alpha ⋖ γ) :
    γ.partition ∈ properJoins alpha.partition (A.irreducibles.map (·.1)) :=
  (mem_properJoins hA).2 ((minimal_sup_iff hA).2 hcover).prop

/-- A proper join of least rank is a cover. -/
theorem covBy_of_least_rank (hA : A.Total)
    (hmem : γ.partition ∈ properJoins alpha.partition (A.irreducibles.map (·.1)))
    (hleast : ∀ q ∈ properJoins alpha.partition (A.irreducibles.map (·.1)),
      γ.partition.rank ≤ q.rank) : alpha ⋖ γ := by
  refine (minimal_sup_iff hA).1 ⟨(mem_properJoins hA).1 hmem, fun δ hδ hle => ?_⟩
  by_contra hnot
  have hlt : δ.partition.rank < γ.partition.rank := rank_lt (lt_of_le_not_ge hle hnot)
  exact hlt.not_ge (hleast δ.partition ((mem_properJoins hA).2 hδ))

/-- Every congruence lies below the greatest one, -/
theorem le_coarsest (hA : A.Total) (γ : A.Congruence) :
    γ ≤ ⟨Partition.coarsest A.size, isCongruence_coarsest hA⟩ := by
  rw [le_iff, γ.isCongruence.valid.setoid_le_iff]
  intro i hi
  have hrep := γ.isCongruence.valid.rep_lt hi
  rw [γ.isCongruence.size_eq] at hi hrep
  exact Partition.setoid_coarsest hi hrep

/-- and has a proper join if it is another. -/
theorem properJoins_ne_nil (hA : A.Total) (hne : alpha.partition ≠ Partition.coarsest A.size) :
    properJoins alpha.partition (A.irreducibles.map (·.1)) ≠ [] := by
  have hnot : ¬ ⟨Partition.coarsest A.size, isCongruence_coarsest hA⟩ ≤ alpha := fun hle =>
    hne (congrArg partition (le_antisymm (le_coarsest hA alpha) hle))
  obtain ⟨g, hg, -, hgα⟩ := exists_irreducible_of_not_le hA hnot
  exact List.ne_nil_of_mem ((mem_properJoins hA).2 ⟨g, hg, hgα, rfl⟩)

theorem mem_upperCovers_iff (hA : A.Total) {p : Partition} :
    p ∈ A.upperCovers alpha.partition ↔ ∃ δ : A.Congruence, δ.partition = p ∧ alpha ⋖ δ := by
  constructor
  · intro hp
    obtain ⟨g, hg, rfl⟩ := exists_of_mem_coversAmong hp
    obtain ⟨δ, rfl⟩ : ∃ δ : A.Congruence, δ.partition = g :=
      ⟨⟨g, isCongruence_of_mem_irreducibles hA hg⟩, rfl⟩
    exact ⟨alpha ⊔ δ, rfl, (mem_upperCovers hA).1 hp⟩
  · rintro ⟨δ, rfl, hδ⟩
    exact (mem_upperCovers hA).2 hδ

/-! ### Congruences with one upper cover -/

/-- A congruence has one cover exactly if one is listed. -/
theorem length_upperCovers_eq_one_iff (hA : A.Total) (alpha : A.Congruence) :
    (A.upperCovers alpha.partition).length = 1 ↔ ∃! δ : A.Congruence, alpha ⋖ δ :=
  length_eq_one_iff_existsUnique partition_injective
    (Partition.orderedBy_rankLess.nodup (pairwise_upperCovers hA alpha))
    fun _ => mem_upperCovers_iff hA

theorem isMeetIrreducible_iff (hA : A.Total) (alpha : A.Congruence) :
    A.isMeetIrreducible alpha.partition = true ↔
      ¬ IsBot alpha ∧ ∃! δ : A.Congruence, alpha ⋖ δ := by
  rw [Algebra.isMeetIrreducible, Bool.and_eq_true, bne_iff_ne, ne_eq, partition_eq_finest_iff,
    beq_iff_eq, length_upperCovers_eq_one_iff hA, isBot_iff_eq_bot]

/-- The list of meet irreducible congruences. -/
theorem listsMeetIrreducibles (hA : A.Total) :
    ListsMeetIrreducibles (partition (A := A)) Partition.rankLess A.meetIrreducibles := by
  refine .of_filter A.pairwise_congruences (fun p => ?_) (isMeetIrreducible_iff hA)
  rw [mem_congruences]
  constructor
  · exact fun hp => ⟨⟨p, hp⟩, rfl⟩
  · rintro ⟨γ, rfl⟩
    exact γ.isCongruence

end Algebra.Congruence

namespace CongruenceLattice

open Query

variable {A : Algebra} {settings : Settings} {L : CongruenceLattice}

/-- Below the greatest congruence the search for one cover finds one of least rank. -/
theorem yields_findUpperCover (hA : A.Total) {alpha : A.Congruence}
    (hne : alpha.partition ≠ Partition.coarsest A.size) :
    ∃ cover ∈ A.upperCovers alpha.partition, (∀ q ∈ A.upperCovers alpha.partition,
      cover.rank ≤ q.rank) ∧
      Yields (Sound A settings) (findUpperCover alpha.partition) (.ok (some cover)) := by
  obtain ⟨cover, hmem, hfirst, hleast⟩ :=
    firstOfLeastRank_spec (Algebra.Congruence.properJoins_ne_nil hA hne)
  obtain ⟨γ, rfl⟩ : ∃ γ : A.Congruence, γ.partition = cover :=
    ⟨⟨cover, Algebra.Congruence.isCongruence_of_mem_properJoins hA alpha cover hmem⟩, rfl⟩
  have hcover : alpha ⋖ γ := Algebra.Congruence.covBy_of_least_rank hA hmem hleast
  refine ⟨γ.partition, (Algebra.Congruence.mem_upperCovers hA).2 hcover, fun q hq => ?_,
    Yields.get_bind fun L hL => ?_⟩
  · obtain ⟨δ, rfl, hδ⟩ := (Algebra.Congruence.mem_upperCovers_iff hA).1 hq
    exact hleast δ.partition (Algebra.Congruence.mem_properJoins_of_covBy hA hδ)
  · rw [checkPartition, hL.algebra_eq, if_pos alpha.isCongruence.size_eq]
    refine Yields.bind (Yields.lift (.ok ())) (Yields.get_bind fun L hL => ?_)
    rw [one, hL.algebra_eq, if_neg hne]
    refine Yields.bind (yields_irreducibleList hA) ?_
    rw [hfirst]
    exact Yields.pure _

/-- **The covers are listed, and one of least rank is found.**  In every reachable lattice the answer
for a congruence are its covers, strictly in rank order.  The search for one cover has an answer for
every congruence but the greatest: a cover of least rank.  A partition that is no congruence is refused
as invalid input. -/
theorem upperCovers_exact (hA : A.Total) (hL : Reachable A settings L) :
    (∀ alpha : A.Congruence, ∃ covers, (upperCovers alpha.partition).result L = .ok covers ∧
      (covers.Pairwise fun p q => p.rankLess q = true) ∧
      (∀ p, p ∈ covers ↔ ∃ δ : A.Congruence, δ.partition = p ∧ alpha ⋖ δ) ∧
      (alpha.partition ≠ Partition.coarsest A.size →
        ∃ cover ∈ covers, (findUpperCover alpha.partition).result L = .ok (some cover) ∧
          ∀ p ∈ covers, cover.rank ≤ p.rank)) ∧
    ∀ p : Partition, p.Valid → ¬ A.IsCongruence p →
      ∃ fault : Fault, fault.kind = .invalidInput ∧ (upperCovers p).result L = .error fault := by
  have hcoherent := hL.coherent hA
  have hsound := hL.sound hA
  constructor
  · intro alpha
    refine ⟨_, (yields_upperCovers hA alpha.isCongruence).result_eq hcoherent,
      Algebra.Congruence.pairwise_upperCovers hA alpha,
      fun p => Algebra.Congruence.mem_upperCovers_iff hA, fun hne => ?_⟩
    obtain ⟨cover, hmem, hleast, hyields⟩ := yields_findUpperCover hA hne
    exact ⟨cover, hmem, hyields.result_eq hsound, hleast⟩
  · intro p hp hnot
    obtain ⟨fault, hkind, hyields⟩ := exists_fault_upperCovers hA hp hnot
    exact ⟨fault, hkind, (hyields settings).result_eq hsound⟩

/-- In the pairs of bits the congruence that forgets one bit is a cover of the least one, so what is
found for that has at most its rank.  A block of three elements only is no congruence. -/
theorem upperCovers_bitPairs :
    (∃ covers, (upperCovers (Partition.finest 4)).result (start Algebra.bitPairs .standard)
        = .ok covers ∧ ⟨#[0, 0, 2, 2], 2⟩ ∈ covers ∧
      ∃ cover ∈ covers, (findUpperCover (Partition.finest 4)).result
        (start Algebra.bitPairs .standard) = .ok (some cover) ∧ cover.rank ≤ 2) ∧
    ∃ fault : Fault, fault.kind = .invalidInput ∧
      (upperCovers ⟨#[0, 0, 0, 3], 2⟩).result (start Algebra.bitPairs .standard)
        = .error fault := by
  obtain ⟨hcovers, hrefused⟩ := upperCovers_exact Algebra.total_bitPairs
    (@Reachable.start Algebra.bitPairs .standard)
  constructor
  · have h0 : 0 < Algebra.bitPairs.size := by decide
    have h1 : 1 < Algebra.bitPairs.size := by decide
    have hcover := (Algebra.Congruence.covBy_iff_bitPairs h0 h1 ⊥).2 rfl
    have hne : (⊥ : Algebra.bitPairs.Congruence).partition ≠ Partition.coarsest 4 := by
      change Partition.finest 4 ≠ Partition.coarsest 4
      decide
    obtain ⟨covers, hresult, -, hmem, hfind⟩ := hcovers ⊥
    have hforgets : ⟨#[0, 0, 2, 2], 2⟩ ∈ covers :=
      (hmem _).2 ⟨_, Algebra.Congruence.cg_bitPairs.1, hcover⟩
    obtain ⟨cover, hlisted, hfound, hleast⟩ := hfind hne
    exact ⟨covers, hresult, hforgets, cover, hlisted, hfound, hleast _ hforgets⟩
  · have hvalid : Partition.Valid ⟨#[0, 0, 0, 3], 2⟩ :=
      ⟨by decide, by decide, by decide⟩
    refine hrefused _ hvalid fun hcongruence => ?_
    have hcheck : (start Algebra.bitPairs .standard).isCongruence ⟨#[0, 0, 0, 3], 2⟩
        = .ok false := by cbv
    rw [(cgPartition_of_isCongruence Algebra.total_bitPairs hcongruence rfl).2] at hcheck
    cases hcheck

end CongruenceLattice

end UniversalAlgebra
