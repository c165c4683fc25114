/-
**The types of covers.**

A cover is typed through the first irreducible congruence that lies below its upper but not below its
lower end.  The lower cover of that congruence lies below the lower end of the cover, so that the
search runs relative to the lower end itself, is never refused, and finds what the search relative to
the lower cover finds.

Main definitions:

* `Algebra.HasType` — the type that the tables of two elements give modulo a relation.

Main results:

* `TypeFinder.findTypeOver_hasType` — typing relative to a joined congruence;
* `TypeFinder.exists_type` — the type of an irreducible congruence, the same in every state and
  relative to every congruence joined;
* `TypeFinder.findTypeOfCover_of_covBy` — **covers are typed**.
-/

import Mathlib
import UniversalAlgebra.Proofs.CongruenceLattice.Covers
import UniversalAlgebra.Proofs.TypeFinder.Perspective

set_option autoImplicit false

namespace UniversalAlgebra

/-- The type that the tables of two elements give modulo a relation, and whether a unary polynomial
exchanges the two. -/
def Algebra.HasType (A : Algebra) (s : Setoid ℕ) (c d : ℕ) (t : TameType) : Prop :=
  ∃ involution join meet snag : Bool, (involution = true ↔ (d, c) ∈ A.sgPair (c, d)) ∧
    (join = true ↔ A.HasTable c d (JoinLike s)) ∧ (meet = true ↔ A.HasTable c d (MeetLike s)) ∧
    (snag = true ↔ A.HasTable c d (SnagLike s)) ∧ t = .ofPatterns involution join meet snag

open Classical in
/-- The type is known once it is known what the tables look like. -/
theorem Algebra.HasType.eq {A : Algebra} {s : Setoid ℕ} {c d : ℕ} {t : TameType}
    (h : A.HasType s c d t) :
    t = .ofPatterns (decide ((d, c) ∈ A.sgPair (c, d))) (decide (A.HasTable c d (JoinLike s)))
      (decide (A.HasTable c d (MeetLike s))) (decide (A.HasTable c d (SnagLike s))) := by
  obtain ⟨involution, join, meet, snag, hinvolution, hjoin, hmeet, hsnag, rfl⟩ := h
  simp only [← hinvolution, ← hjoin, ← hmeet, ← hsnag, Bool.decide_eq_true]

namespace TypeFinder

open UniversalAlgebra.Algebra Query

variable {A : Algebra} {settings : Settings} {F : TypeFinder} {alpha beta lower : A.Congruence}

/-! ### The type of an irreducible congruence -/

/-- Typing a congruence with exactly one lower cover relative to a joined congruence goes through, and
makes the join the lower congruence.  The type is that of some pair that `beta` relates and the join
does not. -/
theorem findTypeOver_hasType (hA : A.Total) (hF : Sound A settings F)
    (hlower : ∀ γ : A.Congruence, γ ⋖ beta ↔ γ = lower) (hbelow : ¬ beta ≤ alpha ⊔ lower) :
    ∃ c d t H, A.IsPair (c, d) ∧ beta.partition.setoid c d ∧
      ¬ (alpha ⊔ lower).partition.setoid c d ∧
      A.HasType (alpha ⊔ lower).partition.setoid c d t ∧
      findTypeOver beta.partition alpha.partition F = .ok t H ∧
      H.alpha = (alpha ⊔ lower).partition ∧ Sound A settings H := by
  classical
  obtain ⟨p, hp, hbeta, hnot, hpair⟩ := exists_generatingPair hA hlower
  obtain ⟨G, hG, halpha, hfind⟩ := findSubtraceOver_eq hA hF hlower hbelow (hpair settings)
  have hcollapsed : ¬ G.alpha.setoid p.1 p.2 := by
    rwa [halpha, Congruence.setoid_iff_lower hA hlower le_sup_right hbelow hp.1 hp.2 hbeta]
  obtain rfl := hG.algebra_eq
  obtain ⟨q, hq, hqcollapsed, -, visited, hsearch, -⟩ := findSubtraceOfPair_eq hA hp hcollapsed
  have hqpair := hA.isPair_of_mem_sgPair hp hq
  obtain ⟨s, hcertify, rfl, -, -, hinvolution⟩ := certify_eq hA hqpair
  rw [hcertify] at hsearch
  obtain ⟨matrices, htype⟩ := typeSubtrace_eq (F := { G with visited := visited }) (s := s) hA
    hG.isCongruence_alpha hqpair decide_eq_true_iff decide_eq_true_iff decide_eq_true_iff
  refine ⟨s.a, s.b, _, _, hqpair, beta.isCongruence.compatible.of_mem_sgPair hA hp hbeta hq,
    halpha ▸ hqcollapsed, ⟨_, _, _, _, hinvolution, ?_, ?_, ?_, rfl⟩,
    findTypeOver_eq (hfind.trans hsearch) htype, halpha, ⟨hG.lattice_sound, hG.isCongruence_alpha⟩⟩
  all_goals
    rw [← halpha]
    exact decide_eq_true_iff

/-- **The type of an irreducible congruence** is the same in every state, and relative to every
congruence whose join with the lower cover is not above it. -/
theorem exists_type (hA : A.Total) (hlower : ∀ γ : A.Congruence, γ ⋖ beta ↔ γ = lower) :
    ∃ c d t, A.IsPair (c, d) ∧ beta.partition.setoid c d ∧ ¬ lower.partition.setoid c d ∧
      A.HasType lower.partition.setoid c d t ∧
      (∀ settings, Yields (Sound A settings) (findType beta.partition) (.ok t)) ∧
      ∀ settings F (alpha : A.Congruence), Sound A settings F → ¬ beta ≤ alpha ⊔ lower →
        ∃ H, findTypeOver beta.partition alpha.partition F = .ok t H ∧
          H.alpha = (alpha ⊔ lower).partition ∧ Sound A settings H := by
  have hcover : lower ⋖ beta := (hlower lower).2 rfl
  have hself : ¬ beta ≤ lower ⊔ lower := by
    rw [sup_idem]
    exact not_le_of_gt hcover.lt
  -- the type is that found by a new search relative to the lower cover
  have hstart : Sound A .standard (start (.start A .standard)) :=
    sound_start (CongruenceLattice.sound_start A .standard)
  obtain ⟨c, d, t, H₀, hpair, hbeta, hnot, htype, hrun₀, -⟩ :=
    findTypeOver_hasType hA hstart hlower hself
  rw [sup_idem] at hnot htype
  have hover (settings : Settings) (F : TypeFinder) (alpha : A.Congruence)
      (hF : Sound A settings F) (hbelow : ¬ beta ≤ alpha ⊔ lower) :
      ∃ H, findTypeOver beta.partition alpha.partition F = .ok t H ∧
        H.alpha = (alpha ⊔ lower).partition ∧ Sound A settings H := by
    obtain ⟨-, -, t', H, -, -, -, -, hrun, halpha, hH⟩ := findTypeOver_hasType hA hF hlower hbelow
    obtain ⟨-, -, -, -, -, t'', H', H₀', hrun', hrun₀'⟩ :=
      findSubtraceOver_congr hA hF hstart hlower hbelow hself
    rw [hrun₀] at hrun₀'
    rw [hrun] at hrun'
    cases hrun₀'
    cases hrun'
    exact ⟨H, hrun, halpha, hH⟩
  refine ⟨c, d, t, hpair, hbeta, hnot, htype, fun settings => ?_, hover⟩
  intro F hF
  obtain ⟨L, hL, hlowerStar⟩ := lowerStar_eq hA hF (Congruence.lookup_irreducibles hA hlower)
  obtain ⟨H, hrun, -, hH⟩ := hover settings _ lower hL hself
  exact ⟨H, hH, (findType_of_ok (x := beta.partition) hlowerStar).trans hrun⟩

/-! ### The type of a cover -/

/-- A cover is typed as its first irreducible congruence. -/
theorem findTypeOfCover_of_covBy (hA : A.Total) (hcover : alpha ⋖ beta) {γ : A.Congruence}
    (hγ : Congruence.IsFirstBetween alpha beta γ) :
    ∃ t, ∀ settings F, Sound A settings F →
      (∃ F', findTypeOfCover alpha.partition beta.partition F = .ok t F' ∧
        F'.alpha = alpha.partition) ∧ (findType γ.partition).result F = .ok t := by
  obtain ⟨lower, hlower, hle, -, -⟩ := hγ.perspective hA hcover
  obtain ⟨-, -, t, -, -, -, -, htype, hover⟩ := exists_type hA hlower
  refine ⟨t, fun settings F hF => ⟨?_, (htype settings).result_eq hF⟩⟩
  have hlisted : (A.upperCovers alpha.partition).contains beta.partition = true :=
    List.contains_iff_mem.2 ((Congruence.mem_upperCovers hA).2 hcover)
  obtain ⟨F₁, hF₁, hcovers⟩ :=
    yields_inLattice (CongruenceLattice.yields_covers hA alpha.isCongruence) F hF
  obtain ⟨F₂, hF₂, hirreducible⟩ :=
    yields_inLattice (CongruenceLattice.yields_irreducibleList hA) F₁ hF₁
  have hjoin : alpha ⊔ lower = alpha := sup_eq_left.2 hle
  obtain ⟨F', hrun, halpha, -⟩ := hover settings F₂ alpha hF₂ (hjoin.symm ▸ hγ.not_le)
  refine ⟨F', ?_, halpha.trans (congrArg Congruence.partition hjoin)⟩
  rw [findTypeOfCover, bind_of_ok hcovers, if_neg (not_not_intro hlisted)]
  refine (bind_of_ok hirreducible).trans ?_
  rw [hγ.found]
  exact hrun

/-- What does not cover a congruence is refused for a reason of structure. -/
theorem findTypeOfCover_of_not_covBy (hA : A.Total) {p : Partition}
    (hnot : ∀ δ : A.Congruence, alpha ⋖ δ → δ.partition ≠ p) :
    Yields (Sound A settings) (findTypeOfCover alpha.partition p)
      (.error (.notACover p.blocks alpha.partition.blocks)) := by
  have hlisted : ¬ (A.upperCovers alpha.partition).contains p = true := by
    rw [List.contains_iff_mem]
    intro hmem
    obtain ⟨g, hg, rfl⟩ := exists_of_mem_coversAmong hmem
    have hcongruence := isCongruence_of_mem_irreducibles hA hg
    exact hnot (alpha ⊔ ⟨g, hcongruence⟩) ((Congruence.mem_upperCovers hA).1 hmem) rfl
  refine Yields.bind (yields_inLattice (CongruenceLattice.yields_covers hA alpha.isCongruence)) ?_
  rw [if_pos hlisted]
  exact Yields.bind_error (Yields.throw _)

/-- Covers of what is no congruence are refused as invalid input. -/
theorem findTypeOfCover_of_not_isCongruence (hA : A.Total) {p q : Partition} (hp : p.Valid)
    (hnot : ¬ A.IsCongruence p) :
    ∃ fault : Fault, fault.kind = .invalidInput ∧
      ∀ settings, Yields (Sound A settings) (findTypeOfCover p q) (.error fault) := by
  obtain ⟨fault, hkind, hyields⟩ := CongruenceLattice.exists_fault_upperCovers hA hp hnot
  exact ⟨fault, hkind, fun settings => Yields.bind_error (yields_inLattice (hyields settings))⟩

/-- **Covers are typed, and nothing else is.**

* For a cover of congruences there is a first irreducible congruence `γ` in rank order that lies below
  the upper but not below the lower end.  It has exactly one lower cover, which lies below the lower
  end and is the meet with it, and its join with the lower end is the upper end.  In every reachable
  state the cover is answered with one and the same type, which is that of `γ`, and the lower end is
  the lower congruence afterwards.
* A partition that does not cover a congruence is refused with a structural fault.
* A lower end that is no congruence is refused as invalid input. -/
theorem covers_typed (hA : A.Total) :
    (∀ alpha beta : A.Congruence, alpha ⋖ beta → ∃ γ lower : A.Congruence,
      Congruence.IsFirstBetween alpha beta γ ∧ (∀ δ : A.Congruence, δ ⋖ γ ↔ δ = lower) ∧
        lower ≤ alpha ∧ γ ⊓ alpha = lower ∧ γ ⊔ alpha = beta ∧
        ∃ t, ∀ settings F, Reachable A settings F →
          (∃ F', findTypeOfCover alpha.partition beta.partition F = .ok t F' ∧
            F'.alpha = alpha.partition) ∧ (findType γ.partition).result F = .ok t) ∧
    (∀ (alpha : A.Congruence) (p : Partition), (∀ δ : A.Congruence, alpha ⋖ δ → δ.partition ≠ p) →
      ∃ fault : Fault, fault.kind = .structural ∧ ∀ settings F, Reachable A settings F →
        (findTypeOfCover alpha.partition p).result F = .error fault) ∧
    ∀ p q : Partition, p.Valid → ¬ A.IsCongruence p →
      ∃ fault : Fault, fault.kind = .invalidInput ∧ ∀ settings F, Reachable A settings F →
        (findTypeOfCover p q).result F = .error fault := by
  refine ⟨?_, ?_, ?_⟩
  · intro alpha beta hcover
    obtain ⟨γ, hγ⟩ := Congruence.exists_isFirstBetween hA hcover.lt.not_ge
    obtain ⟨lower, hlower, hle, hmeet, hjoin⟩ := hγ.perspective hA hcover
    obtain ⟨t, ht⟩ := findTypeOfCover_of_covBy hA hcover hγ
    exact ⟨γ, lower, hγ, hlower, hle, hmeet, hjoin, t, fun settings F hF =>
      ht settings F (hF.sound hA)⟩
  · intro alpha p hnot
    refine ⟨.notACover p.blocks alpha.partition.blocks, rfl, fun settings F hF => ?_⟩
    exact (findTypeOfCover_of_not_covBy hA hnot).result_eq (hF.sound hA)
  · intro p q hp hnot
    obtain ⟨fault, hkind, hyields⟩ := findTypeOfCover_of_not_isCongruence (q := q) hA hp hnot
    exact ⟨fault, hkind, fun settings F hF => (hyields settings).result_eq (hF.sound hA)⟩

/-- In the pairs of bits, also after all types were asked for: forgetting the first bit covers the least
congruence and is typed; forgetting both does not and is refused; and so is a partition that the
disjunction does not respect. -/
theorem covers_typed_bitPairs :
    (∃ t F', findTypeOfCover (Partition.finest 4) ⟨#[0, 0, 2, 2], 2⟩
        (findTypeSet.after (start (.start bitPairs .standard))) = .ok t F' ∧
      F'.alpha = Partition.finest 4) ∧
    (∃ fault, (findTypeOfCover (Partition.finest 4) (Partition.coarsest 4)).result
        (findTypeSet.after (start (.start bitPairs .standard))) = .error fault ∧
      fault.kind = .structural) ∧
    ∃ fault, (findTypeOfCover ⟨#[0, 0, 2, 3], 3⟩ (Partition.coarsest 4)).result
        (findTypeSet.after (start (.start bitPairs .standard))) = .error fault ∧
      fault.kind = .invalidInput := by
  have h0 : 0 < bitPairs.size := by decide
  have h1 : 1 < bitPairs.size := by decide
  have hfirst : (Congruence.cg total_bitPairs h0 h1).partition = ⟨#[0, 0, 2, 2], 2⟩ :=
    Congruence.cg_bitPairs.1
  have hcover : ⊥ ⋖ Congruence.cg total_bitPairs h0 h1 := (Congruence.covBy_iff_bitPairs h0 h1 ⊥).2 rfl
  have hreachable : Reachable bitPairs .standard (findTypeSet.after (start (.start bitPairs .standard))) :=
    .query .findTypeSet (.start .start)
  obtain ⟨hcovers, hothers, hinvalid⟩ := covers_typed total_bitPairs
  refine ⟨?_, ?_, ?_⟩
  · obtain ⟨_, _, -, -, -, -, -, t, ht⟩ := hcovers _ _ hcover
    obtain ⟨⟨F', hrun, halpha⟩, -⟩ := ht .standard _ hreachable
    rw [hfirst] at hrun
    exact ⟨t, F', hrun, halpha⟩
  · have hnot : ∀ δ : bitPairs.Congruence, ⊥ ⋖ δ → δ.partition ≠ Partition.coarsest 4 := by
      intro δ hδ heq
      have hle : Congruence.cg total_bitPairs h0 h1 ≤ δ := by
        refine Congruence.cg_le total_bitPairs h0 h1 ?_
        rw [heq]
        exact Partition.setoid_coarsest (by decide) (by decide)
      refine hδ.2 hcover.lt (lt_of_le_of_ne hle fun hsame => ?_)
      rw [← hsame, hfirst] at heq
      cases heq
    obtain ⟨fault, hkind, hrun⟩ := hothers ⊥ (Partition.coarsest 4) hnot
    exact ⟨fault, hrun .standard _ hreachable, hkind⟩
  · have hnot : ¬ bitPairs.IsCongruence ⟨#[0, 0, 2, 3], 3⟩ := by
      intro h
      have hrel := h.compatible _ (List.mem_cons_of_mem _ List.mem_cons_self) [0, 2] [1, 2] rfl
        (by decide) (by decide) (.cons rfl (.cons rfl .nil))
      cases hrel
    obtain ⟨fault, hkind, hrun⟩ := hinvalid ⟨#[0, 0, 2, 3], 3⟩ (Partition.coarsest 4)
      ⟨by decide, by decide, by decide⟩ hnot
    exact ⟨fault, hrun .standard _ hreachable, hkind⟩

end TypeFinder

end UniversalAlgebra
