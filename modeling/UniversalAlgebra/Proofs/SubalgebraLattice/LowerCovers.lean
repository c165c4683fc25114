/-
**The subalgebras with one lower cover.**

Only subalgebras generated by single elements are tried, other than the least, each with the join of
those strictly below it.  A subalgebra with exactly one lower cover is among them, and that join is the
cover.  The list stays in increasing order when the others are filtered out of it, so that a search by
halving finds what is in it.

Main results:

* `ElementSet.findSorted_eq_some_iff` — **a search by halving finds what is there**;
* `Algebra.mem_irreducibleSubalgebras_iff` — what is kept as irreducible, and with which cover;
* `SubalgebraLattice.lowerCover_exact` — **the only lower cover is the answer, and everything else is
  refused**.
-/

import Mathlib
import UniversalAlgebra.Proofs.SubalgebraLattice.Coherent

set_option autoImplicit false

namespace UniversalAlgebra

/-! ### Searching by halving -/

/-- **A search by halving finds what is there**, if the sets increase. -/
theorem ElementSet.findSorted_eq_some_iff {entries : List (ElementSet × ElementSet)}
    {s value : ElementSet} (hentries : entries.Pairwise fun e e' => e.1.less e'.1 = true) :
    findSorted entries.toArray s = some value ↔ (s, value) ∈ entries := by
  simp only [findSorted, List.size_toArray, List.getElem?_toArray]
  constructor
  · intro h
    split at h
    · next t v hposition =>
        split at h
        · next heq =>
            obtain rfl := Option.some_inj.1 h
            exact heq ▸ List.mem_of_getElem? hposition
        · cases h
    · cases h
  · intro hmem
    obtain ⟨k, hk, hentry⟩ := List.mem_iff_getElem.1 hmem
    have hkey (i : ℕ) (hi : i < entries.length) : entries[i].1.less s = true ↔ i < k := by
      have hless := List.pairwise_iff_getElem.1 hentries
      rcases lt_trichotomy i k with hik | rfl | hki
      · have h := hless i k hi hk hik
        rw [hentry] at h
        exact iff_of_true h hik
      · rw [hentry]
        exact iff_of_false (fun h => lt_irrefl _ ((orderedBy_less s s).1 h)) (lt_irrefl i)
      · have h := hless k i hk hi hki
        rw [hentry] at h
        have hnot := lt_asymm ((orderedBy_less _ _).1 h)
        exact iff_of_false (fun h' => hnot ((orderedBy_less _ _).1 h')) hki.not_gt
    rw [Below.lowerBound_eq hk.le fun i hi => by simpa [hi] using hkey i hi]
    simp [hk, hentry]

namespace Algebra

variable {A : Algebra} {s lower : ElementSet}

/-! ### The list of irreducible subalgebras -/

/-- The list is in increasing order. -/
theorem pairwise_irreducibleSubalgebras (A : Algebra) :
    A.irreducibleSubalgebras.Pairwise fun e e' => e.1.less e'.1 = true := by
  rw [irreducibleSubalgebras]
  exact (List.pairwise_map.2 ((ElementSet.pairwise_sortDistinct _).filter _)).filter _

/-- A subalgebra generated by a single element is kept with the join of those strictly below it, unless
it is the least one or that join. -/
theorem pair_mem_irreducibleSubalgebras : (s, lower) ∈ A.irreducibleSubalgebras ↔ s ∈ A.singles ∧
    s ≠ A.generated [] ∧ A.lowerJoin s A.singles (A.generated []) = lower ∧ lower ≠ s := by
  simp [irreducibleSubalgebras, and_assoc]

/-- **The subalgebras with an only lower cover** are the ones that are kept, each with that cover. -/
theorem mem_irreducibleSubalgebras_iff (hA : A.Total) : (s, lower) ∈ A.irreducibleSubalgebras ↔
    OnlyLowerCover (Subalgebra.set (A := A)) lower s := by
  let _ := hA.subalgebraBot
  have hgenerates := Subalgebra.generates_singles hA
  rw [pair_mem_irreducibleSubalgebras]
  constructor
  · rintro ⟨hs, -, hjoin, hne⟩
    obtain ⟨σ, rfl⟩ : ∃ σ : A.Subalgebra, σ.set = s := ⟨⟨s, isSubalgebra_of_mem_singles hA hs⟩, rfl⟩
    obtain ⟨δ, hδ, hlub⟩ := Subalgebra.isLUB_lowerJoin hA σ
    obtain rfl : δ.set = lower := hδ.symm.trans hjoin
    exact ⟨σ, δ, rfl, rfl, hgenerates.covBy_iff hlub fun h => hne (congrArg Subalgebra.set h)⟩
  · rintro ⟨σ, τ, rfl, rfl, hτ⟩
    obtain ⟨δ, hδ, hlub⟩ := Subalgebra.isLUB_lowerJoin hA σ
    obtain ⟨hσ, hne, rfl⟩ := (hgenerates.covBy_iff_iff hlub).1 hτ
    refine ⟨hσ, fun hbottom => ?_, hδ, fun h => hne (Subalgebra.ext h)⟩
    -- the least subalgebra covers nothing
    obtain rfl : σ = ⊥ := Subalgebra.ext hbottom
    exact not_lt_bot ((hτ δ).2 rfl).lt

end Algebra

namespace SubalgebraLattice

open Query

variable {A : Algebra} {settings : Settings} {L : SubalgebraLattice} {s lower : ElementSet}

/-- The only lower cover of a subalgebra is found, -/
theorem yields_lowerCover (hA : A.Total)
    (h : OnlyLowerCover (Algebra.Subalgebra.set (A := A)) lower s) :
    Yields (Coherent A settings) (lowerCover s) (.ok lower) := by
  refine Yields.bind (yields_irreducibleData hA) ?_
  have hfind := (ElementSet.findSorted_eq_some_iff A.pairwise_irreducibleSubalgebras).2
    ((Algebra.mem_irreducibleSubalgebras_iff hA).2 h)
  rw [hfind]
  exact Yields.pure lower

/-- and what has none is refused. -/
theorem yields_lowerCover_error (hA : A.Total)
    (h : ¬ ∃ lower, OnlyLowerCover (Algebra.Subalgebra.set (A := A)) lower s) :
    Yields (Coherent A settings) (lowerCover s)
      (.error (.notAnIrreducibleSubalgebra s.elements)) := by
  refine Yields.bind (yields_irreducibleData hA) ?_
  have hfind : ElementSet.findSorted A.irreducibleSubalgebras.toArray s = none := by
    rw [Option.eq_none_iff_forall_ne_some]
    intro lower hlower
    rw [ElementSet.findSorted_eq_some_iff A.pairwise_irreducibleSubalgebras] at hlower
    exact h ⟨lower, (Algebra.mem_irreducibleSubalgebras_iff hA).1 hlower⟩
  rw [hfind]
  exact Yields.throw _

/-- **The only lower cover is the answer, and everything else is refused.**  In every reachable lattice,
in which callers joined subuniverses only, a subuniverse with exactly one lower cover is answered with
it, the greatest one included, and any other set is a structural error.  The subuniverses of that kind
other than the greatest are listed in increasing order. -/
theorem lowerCover_exact (hA : A.Total) (hL : Reachable A settings L) :
    (∀ s lower, OnlyLowerCover (Algebra.Subalgebra.set (A := A)) lower s →
      (lowerCover s).result L = .ok lower) ∧
    (∀ s, (¬ ∃ lower, OnlyLowerCover (Algebra.Subalgebra.set (A := A)) lower s) →
      ∃ fault : Fault, fault.kind = .structural ∧ (lowerCover s).result L = .error fault) ∧
    ∃ irreducible, joinIrreducibleList.result L = .ok irreducible ∧
      (irreducible.Pairwise fun s t => s.less t = true) ∧
      ∀ s, s ∈ irreducible ↔ s ≠ ElementSet.below A.size ∧
        ∃ σ : A.Subalgebra, σ.set = s ∧ ∃! τ : A.Subalgebra, τ ⋖ σ := by
  have hcoherent := hL.coherent hA
  refine ⟨fun s lower h => (yields_lowerCover hA h).result_eq hcoherent, fun s h => ?_, _,
    (yields_joinIrreducibleList hA).result_eq hcoherent, ?_, fun s => ?_⟩
  · exact ⟨_, rfl, (yields_lowerCover_error hA h).result_eq hcoherent⟩
  · exact (List.pairwise_map.2 A.pairwise_irreducibleSubalgebras).filter _
  · rw [Algebra.joinIrreducibleSubalgebras, List.mem_filter, bne_iff_ne, and_comm,
      ← exists_onlyLowerCover_iff]
    simp [Algebra.mem_irreducibleSubalgebras_iff hA]

/-- In the residues modulo four zero is all that the even ones cover, and these are all that the whole
universe covers: nothing else could be the answer. -/
theorem lowerCover_residuesModFour :
    OnlyLowerCover (Algebra.Subalgebra.set (A := Algebra.residuesModFour)) ⟨[0]⟩ ⟨[0, 2]⟩ ∧
      OnlyLowerCover (Algebra.Subalgebra.set (A := Algebra.residuesModFour)) ⟨[0, 2]⟩
        ⟨[0, 1, 2, 3]⟩ := by
  obtain ⟨hanswer, hrefused, -⟩ := lowerCover_exact Algebra.total_residuesModFour
    (@Reachable.start Algebra.residuesModFour .standard)
  have hcover (s lower : ElementSet)
      (hrun : (lowerCover s).result (start Algebra.residuesModFour .standard) = .ok lower) :
      OnlyLowerCover (Algebra.Subalgebra.set (A := Algebra.residuesModFour)) lower s := by
    by_cases h : ∃ t, OnlyLowerCover (Algebra.Subalgebra.set (A := Algebra.residuesModFour)) t s
    · obtain ⟨t, ht⟩ := h
      obtain rfl : lower = t := Except.ok.inj (hrun.symm.trans (hanswer s t ht))
      exact ht
    · obtain ⟨fault, -, hfault⟩ := hrefused s h
      rw [hrun] at hfault
      cases hfault
  exact ⟨hcover _ _ (by cbv), hcover _ _ (by cbv)⟩

end SubalgebraLattice

end UniversalAlgebra
