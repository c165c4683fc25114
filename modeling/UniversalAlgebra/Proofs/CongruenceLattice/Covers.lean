/-
**Covers in the lattice of congruences.**

A congruence is listed as irreducible with the join of everything strictly below it, so that join is
its only lower cover.  The rank of a partition grows along strict refinement: a list in rank order has
no member before a smaller one, and the members that are kept because none before them is below them
are the minimal ones.  The minimal joins of a congruence with irreducible ones are the covers of it.

A cover is matched by the first irreducible congruence that lies below the upper but not below the
lower end of it: an irreducible congruence below its lower cover has smaller rank, and so is below the
lower end.

Main definitions:

* `Algebra.Congruence.IsFirstBetween` — the first irreducible congruence below one congruence but not
  below another.

Main results:

* `Algebra.Congruence.mem_irreducibles_iff` — what is listed has exactly one lower cover;
* `Algebra.Congruence.rank_lt`, `Algebra.Congruence.rankKey_lt` — rank grows along strict inclusion;
* `Algebra.Congruence.mem_selectMinimal` — the minimal members of a list in rank order;
* `Algebra.Congruence.mem_upperCovers` — **the covers are found**;
* `Algebra.Congruence.IsFirstBetween.perspective` — **the first irreducible congruence between the
  ends of a cover is perspective to the cover**.
-/

import Mathlib
import UniversalAlgebra.Proofs.CongruenceLattice.Joins
import UniversalAlgebra.Proofs.UpperCovers

set_option autoImplicit false

namespace UniversalAlgebra

namespace Algebra.Congruence

variable {A : Algebra} {alpha beta lower γ δ : A.Congruence}

/-- Rank grows along strict inclusion. -/
theorem rank_lt (hlt : γ < δ) : γ.partition.rank < δ.partition.rank :=
  γ.isCongruence.valid.rank_lt δ.isCongruence.valid
    (γ.isCongruence.size_eq.trans δ.isCongruence.size_eq.symm) hlt

/-- So a congruence comes before those above it. -/
theorem rankKey_lt (hlt : γ < δ) : γ.partition.rankKey < δ.partition.rankKey :=
  Partition.rankKey_lt_of_rank_lt (rank_lt hlt)

/-! ### Irreducible congruences -/

/-- The irreducible congruences are those with an only lower cover. -/
theorem mem_irreducibles_iff (hA : A.Total) : beta.partition ∈ A.irreducibles.map (·.1) ↔
    ∃ lower : A.Congruence, ∀ γ : A.Congruence, γ ⋖ beta ↔ γ = lower := by
  obtain ⟨δ, hδ, hlub⟩ := isLUB_joinBelow hA beta
  simp only [(generates_principals hA).covBy_iff_iff hlub]
  rw [mem_irreducibles, hδ]
  simp [Congruence.ext_iff]

/-- A congruence that is not below another one is above an irreducible one that is not either. -/
theorem exists_irreducible_of_not_le (hA : A.Total) (h : ¬ γ ≤ δ) :
    ∃ g : A.Congruence, g.partition ∈ A.irreducibles.map (·.1) ∧ g ≤ γ ∧ ¬ g ≤ δ :=
  (generates_irreducibles hA).exists_of_not_le h

/-- The irreducible congruences are listed strictly in rank order. -/
theorem pairwise_irreducibles (hA : A.Total) :
    (A.irreducibles.map (·.1)).Pairwise fun p q => p.rankLess q = true := by
  rw [irreducibles, map_fst_selectIrreducibles]
  exact (pairwise_principals hA).filter _

/-! ### Minimal members of a list -/

/-- A last member that is not below an earlier one does not affect which of those are minimal. -/
theorem minimal_mem_concat {γs : List A.Congruence} (hlast : ∀ ε ∈ γs, ¬ δ < ε) :
    Minimal (· ∈ γs ++ [δ]) γ ↔ Minimal (· ∈ γs) γ ∨ γ = δ ∧ ¬ ∃ ε ∈ γs, ε ≤ δ := by
  simp only [Minimal, List.mem_append, List.mem_singleton]
  constructor
  · rintro ⟨hγ, hmin⟩
    by_cases hmem : γ ∈ γs
    · exact Or.inl ⟨hmem, fun y hy => hmin (Or.inl hy)⟩
    · obtain rfl := hγ.resolve_left hmem
      refine Or.inr ⟨rfl, ?_⟩
      rintro ⟨ε, hε, hle⟩
      exact hmem (le_antisymm (hmin (Or.inl hε) hle) hle ▸ hε)
  · rintro (⟨hγ, hmin⟩ | ⟨rfl, hnone⟩)
    · refine ⟨Or.inl hγ, ?_⟩
      rintro y (hy | rfl) hyγ
      · exact hmin hy hyγ
      · exact (eq_of_le_of_not_lt hyγ (hlast γ hγ)).ge
    · refine ⟨Or.inr rfl, ?_⟩
      rintro y (hy | rfl) hyγ
      · exact absurd ⟨y, hy, hyγ⟩ hnone
      · exact le_refl y

/-- In a list in rank order the members that are kept because none before them is below them are the
minimal ones. -/
theorem mem_selectMinimal {γs : List A.Congruence} (hγs : γs.Pairwise fun γ δ => ¬ δ < γ) :
    γ.partition ∈ selectMinimal (γs.map partition) ↔ Minimal (· ∈ γs) γ := by
  induction γs using List.reverseRecOn generalizing γ with
  | nil => simp [selectMinimal, Minimal]
  | append_singleton γs δ ih =>
      rw [List.pairwise_append] at hγs
      obtain ⟨hγs, -, hlast⟩ := hγs
      have hkept (ε : A.Congruence) : ε.partition ∈ selectMinimal (γs.map partition) ↔
          Minimal (· ∈ γs) ε := ih hγs
      -- what lies below the last member lies above a minimal one
      have hany : (selectMinimal (γs.map partition)).any (·.refines δ.partition) = true ↔
          ∃ ε ∈ γs, ε ≤ δ := by
        rw [List.any_eq_true]
        constructor
        · rintro ⟨p, hp, hrefines⟩
          obtain ⟨ε, hε, rfl⟩ := List.mem_map.1 ((sublist_selectMinimal _).mem hp)
          exact ⟨ε, hε, (refines_iff ε δ).1 hrefines⟩
        · rintro ⟨ε, hε, hle⟩
          obtain ⟨μ, hμε, hμ⟩ := (List.finite_toSet γs).exists_le_minimal hε
          exact ⟨μ.partition, (hkept μ).2 hμ, (refines_iff μ δ).2 (hμε.trans hle)⟩
      rw [List.map_append, List.map_singleton, selectMinimal_concat,
        minimal_mem_concat fun ε hε => hlast ε hε δ (List.mem_singleton.2 rfl)]
      by_cases hbelow : ∃ ε ∈ γs, ε ≤ δ
      · rw [if_pos (hany.2 hbelow), hkept]
        simp [hbelow]
      · rw [if_neg (mt hany.1 hbelow), List.mem_append, hkept, List.mem_singleton,
          ← Congruence.ext_iff]
        simp [hbelow]

/-! ### Covers -/

/-- A proper join is a join with an irreducible congruence that is not below. -/
theorem mem_properJoins (hA : A.Total) :
    γ.partition ∈ properJoins alpha.partition (A.irreducibles.map (·.1)) ↔
      ∃ g : A.Congruence, g.partition ∈ A.irreducibles.map (·.1) ∧ ¬ g ≤ alpha ∧ alpha ⊔ g = γ := by
  rw [properJoins, List.mem_map]
  constructor
  · rintro ⟨p, hp, hjoin⟩
    obtain ⟨hmem, hnot⟩ := List.mem_filter.1 hp
    refine ⟨⟨p, isCongruence_of_mem_irreducibles hA hmem⟩, hmem, ?_, Congruence.ext hjoin⟩
    rw [← refines_iff, Bool.not_eq_true]
    simpa using hnot
  · rintro ⟨g, hg, hnot, rfl⟩
    refine ⟨g.partition, List.mem_filter.2 ⟨hg, ?_⟩, rfl⟩
    rw [← refines_iff, Bool.not_eq_true] at hnot
    simpa using hnot

theorem isCongruence_of_mem_properJoins (hA : A.Total) (alpha : A.Congruence) :
    ∀ p ∈ properJoins alpha.partition (A.irreducibles.map (·.1)), A.IsCongruence p := by
  intro p hp
  obtain ⟨g, hg, rfl⟩ := List.mem_map.1 hp
  exact alpha.isCongruence.sup (isCongruence_of_mem_irreducibles hA (List.mem_filter.1 hg).1)

/-- Congruences are put strictly in rank order once repetitions are dropped. -/
theorem pairwise_dropRepeats_sortByRank {ps : List Partition} (hps : ∀ p ∈ ps, A.IsCongruence p) :
    (dropRepeats (Partition.sortByRank ps)).Pairwise fun p q => p.rankLess q = true :=
  Partition.orderedBy_rankLess.pairwise_dropRepeats_mergeSort fun p hp q hq h =>
    (hps p hp).valid.eq_of_rankKey_eq (hps q hq).valid h

theorem exists_map_partition {ps : List Partition} (hps : ∀ p ∈ ps, A.IsCongruence p) :
    ∃ γs : List A.Congruence, γs.map partition = ps := by
  have hrange : ps ∈ Set.range (List.map (partition (A := A))) := by
    rw [Set.range_list_map]
    exact fun p hp => ⟨⟨p, hps p hp⟩, rfl⟩
  exact hrange

/-- The minimal proper joins are the covers. -/
theorem minimal_sup_iff (hA : A.Total) :
    Minimal (fun γ => ∃ g : A.Congruence, g.partition ∈ A.irreducibles.map (·.1) ∧ ¬ g ≤ alpha ∧
      alpha ⊔ g = γ) γ ↔ alpha ⋖ γ :=
  (generates_irreducibles hA).minimal_sup_iff

/-- **The covers are found**: what is listed for a congruence are its covers. -/
theorem mem_upperCovers (hA : A.Total) :
    γ.partition ∈ A.upperCovers alpha.partition ↔ alpha ⋖ γ := by
  have hcongruence := isCongruence_of_mem_properJoins hA alpha
  have hmem (p : Partition) : p ∈ dropRepeats (Partition.sortByRank
      (properJoins alpha.partition (A.irreducibles.map (·.1)))) ↔
        p ∈ properJoins alpha.partition (A.irreducibles.map (·.1)) := by
    simp
  obtain ⟨γs, hγs⟩ := exists_map_partition fun p hp => hcongruence p ((hmem p).1 hp)
  have hmem' (ε : A.Congruence) : ε ∈ γs ↔ ∃ g : A.Congruence,
      g.partition ∈ A.irreducibles.map (·.1) ∧ ¬ g ≤ alpha ∧ alpha ⊔ g = ε := by
    rw [← mem_properJoins hA, ← hmem, ← hγs,
      List.mem_map_of_injective fun _ _ h => Congruence.ext h]
  have hsorted : γs.Pairwise fun γ δ => ¬ δ < γ := by
    have hlt := pairwise_dropRepeats_sortByRank hcongruence
    rw [← hγs, List.pairwise_map] at hlt
    exact hlt.imp fun hγδ hδγ => lt_asymm ((Partition.orderedBy_rankLess _ _).1 hγδ) (rankKey_lt hδγ)
  rw [Algebra.upperCovers, coversAmong, ← hγs, mem_selectMinimal hsorted, ← minimal_sup_iff hA]
  simp only [hmem']

/-! ### Perspective covers -/

/-- The first irreducible congruence that lies below `beta` but not below `alpha`. -/
structure IsFirstBetween (alpha beta γ : A.Congruence) : Prop where
  found : (A.irreducibles.map (·.1)).find? (fun g =>
    g.refines beta.partition && !g.refines alpha.partition) = some γ.partition
  mem : γ.partition ∈ A.irreducibles.map (·.1)
  le : γ ≤ beta
  not_le : ¬ γ ≤ alpha
  first : ∀ δ : A.Congruence, δ.partition ∈ A.irreducibles.map (·.1) → δ ≤ beta → ¬ δ ≤ alpha →
    δ ≠ γ → γ.partition.rankLess δ.partition = true

theorem exists_isFirstBetween (hA : A.Total) (h : ¬ beta ≤ alpha) :
    ∃ γ : A.Congruence, IsFirstBetween alpha beta γ := by
  obtain ⟨between, hbetween⟩ : ∃ between : Partition → Bool, between = fun g =>
      g.refines beta.partition && !g.refines alpha.partition := ⟨_, rfl⟩
  have hiff (δ : A.Congruence) : between δ.partition = true ↔ δ ≤ beta ∧ ¬ δ ≤ alpha := by
    rw [hbetween, Bool.and_eq_true, Bool.not_eq_true', ← Bool.not_eq_true, refines_iff, refines_iff]
  obtain ⟨g, hg, hgβ, hgα⟩ := exists_irreducible_of_not_le hA h
  obtain ⟨p, hp⟩ : ∃ p, (A.irreducibles.map (·.1)).find? between = some p :=
    Option.isSome_iff_exists.1 (List.find?_isSome.2 ⟨_, hg, (hiff g).2 ⟨hgβ, hgα⟩⟩)
  have hmem := List.mem_of_find?_eq_some hp
  obtain ⟨γ, rfl⟩ : ∃ γ : A.Congruence, γ.partition = p :=
    ⟨⟨p, isCongruence_of_mem_irreducibles hA hmem⟩, rfl⟩
  obtain ⟨hle, hnot⟩ := (hiff γ).1 (List.find?_some hp)
  refine ⟨γ, hbetween ▸ hp, hmem, hle, hnot, fun δ hδ hδβ hδα hne => ?_⟩
  refine (eq_or_rel_of_find? (pairwise_irreducibles hA) hp hδ ((hiff δ).2 ⟨hδβ, hδα⟩)).resolve_left ?_
  exact fun heq => hne (Congruence.ext heq)

/-- **The first irreducible congruence between the ends of a cover is perspective to the cover**: its
lower cover lies below the lower end, is the meet with it, and its join with the lower end is the
upper one. -/
theorem IsFirstBetween.perspective (hA : A.Total) (h : IsFirstBetween alpha beta γ)
    (hcover : alpha ⋖ beta) :
    ∃ lower : A.Congruence, (∀ δ : A.Congruence, δ ⋖ γ ↔ δ = lower) ∧ lower ≤ alpha ∧
      γ ⊓ alpha = lower ∧
      γ ⊔ alpha = beta := by
  obtain ⟨lower, hlower⟩ := (mem_irreducibles_iff hA).1 h.mem
  have hlt : lower < γ := ((hlower lower).2 rfl).lt
  have hle : lower ≤ alpha := by
    by_contra hnot
    -- an irreducible congruence below the lower cover would come earlier
    obtain ⟨δ, hδ, hδlower, hδα⟩ := exists_irreducible_of_not_le hA hnot
    have hδγ : δ < γ := lt_of_le_of_lt hδlower hlt
    have hlater := h.first δ hδ (hδγ.le.trans h.le) hδα hδγ.ne
    exact lt_asymm ((Partition.orderedBy_rankLess _ _).1 hlater) (rankKey_lt hδγ)
  refine ⟨lower, hlower, hle, le_antisymm (le_of_covBy_iff hlower ?_) (le_inf hlt.le hle), ?_⟩
  · exact lt_of_le_of_ne inf_le_left fun heq => h.not_le (inf_eq_left.1 heq)
  · rw [sup_comm]
    exact (hcover.eq_or_eq le_sup_left (sup_le hcover.le h.le)).resolve_left
      (left_lt_sup.2 h.not_le).ne'

end Algebra.Congruence

namespace CongruenceLattice

open Query

variable {A : Algebra} {settings : Settings}

/-- The covers of a partition that is no congruence are refused for that reason, -/
theorem upperCovers_of_not_isCongruence (hA : A.Total) {p : Partition} (hp : p.Valid)
    (hsize : p.size = A.size) (hnot : ¬ A.IsCongruence p) :
    Yields (Sound A settings) (upperCovers p) (.error (.notACongruence p.blocks)) := by
  refine Yields.get_bind fun L hL => ?_
  obtain rfl := hL.algebra_eq
  rw [isCongruence_eq_false hA hp hsize hnot]
  exact Yields.bind (Yields.lift (.ok false)) (Yields.bind_error (Yields.throw _))

/-- and those of a partition of other elements for its size. -/
theorem upperCovers_of_size_ne {p : Partition} (hsize : p.size ≠ A.size) :
    Yields (Sound A settings) (upperCovers p) (.error (.partitionSize p.size A.name A.size)) := by
  refine Yields.get_bind fun L hL => ?_
  obtain rfl := hL.algebra_eq
  rw [isCongruence_eq_error hsize]
  exact Yields.bind_error (Yields.lift _)

/-- In both cases this is invalid input. -/
theorem exists_fault_upperCovers (hA : A.Total) {p : Partition} (hp : p.Valid)
    (hnot : ¬ A.IsCongruence p) :
    ∃ fault : Fault, fault.kind = .invalidInput ∧
      ∀ settings, Yields (Sound A settings) (upperCovers p) (.error fault) := by
  by_cases hsize : p.size = A.size
  · exact ⟨.notACongruence p.blocks, rfl, fun _ => upperCovers_of_not_isCongruence hA hp hsize hnot⟩
  · exact ⟨.partitionSize p.size A.name A.size, rfl, fun _ => upperCovers_of_size_ne hsize⟩

end CongruenceLattice

end UniversalAlgebra
