/-
**The list of all subalgebras.**

A list within its cap is whole and kept, and from then on no cap matters; a list over its cap has one
subalgebra more than the cap allows, and nothing is kept.

Main results:

* `SubalgebraLattice.subuniverses_complete_or_cut_off` — **the list of all subalgebras**.
-/

import Mathlib
import UniversalAlgebra.Proofs.SubalgebraLattice.Coherent

set_option autoImplicit false

namespace UniversalAlgebra.SubalgebraLattice

open Query

variable {A : Algebra}

/-- **The list of all subalgebras.**  There is a list of exactly the subalgebras of a total algebra, in
strictly increasing order, with the empty set in it exactly if there are no constants, such that in
every reachable lattice, whatever was asked before, joins of subalgebras included:

* if the whole list is kept, or there is no cap, or the cap is not below its length, the list up to
  the cap is the whole list, not flagged, and it is kept afterwards;
* otherwise the list up to the cap is flagged and has one subalgebra more than the cap allows,
  distinct ones in increasing order, and nothing is kept. -/
theorem subuniverses_complete_or_cut_off (hA : A.Total) :
    ∃ all : List ElementSet, (∀ s, s ∈ all ↔ A.IsSubalgebra s) ∧ all.Nodup ∧
      all.Pairwise (fun s t => s.less t = true) ∧ (⟨[]⟩ ∈ all ↔ A.constants = []) ∧
      ∀ settings L, Reachable A settings L →
        (∀ cap, L.complete.isReady = true ∨ cap = 0 ∨ all.length ≤ cap →
          ∃ L', subuniverses cap L = .ok (all, false) L' ∧ L'.complete.value? = some all) ∧
        ∀ cap, ¬ (L.complete.isReady = true ∨ cap = 0 ∨ all.length ≤ cap) →
          ∃ found L', subuniverses cap L = .ok (found, true) L' ∧ L'.complete.isReady = false ∧
            (∀ s ∈ found, A.IsSubalgebra s) ∧ found.length = cap + 1 ∧ found.Nodup ∧
            found.Pairwise fun s t => s.less t = true := by
  refine ⟨A.subalgebras, fun s => Algebra.mem_subalgebras,
    ElementSet.orderedBy_less.nodup A.pairwise_subalgebras, A.pairwise_subalgebras,
    Algebra.mem_subalgebras.trans hA.isSubalgebra_empty_iff, ?_⟩
  intro settings L hL
  have hcoherent := hL.coherent hA
  refine ⟨?_, ?_⟩
  · intro cap havailable
    obtain ⟨L', hrun, -, hkept⟩ := (lists_subuniverses hA cap).whole hcoherent havailable
    exact ⟨L', hrun, hkept⟩
  · intro cap hnot
    obtain ⟨found, L', hrun, -, hvacant, hmem, hlength, hpairwise⟩ :=
      (lists_subuniverses hA cap).cutOff hcoherent hnot
    exact ⟨found, L', hrun, hvacant, fun s hs => Algebra.mem_subalgebras.1 (hmem s hs), hlength,
      ElementSet.orderedBy_less.nodup hpairwise, hpairwise⟩

/-- The residues modulo four have the even ones and the whole universe as subalgebras, and not the
empty set: under a cap of one the list is cut off after two, unless the whole list was asked for
before. -/
theorem subuniverses_one_residuesModFour :
    (∃ found L', subuniverses 1 (start Algebra.residuesModFour .standard) = .ok (found, true) L' ∧
      found.length = 2) ∧
    ∃ all L' L'', subuniverses 0 (start Algebra.residuesModFour .standard) = .ok (all, false) L' ∧
      subuniverses 1 L' = .ok (all, false) L'' ∧ ⟨[0, 2]⟩ ∈ all ∧ ⟨[]⟩ ∉ all := by
  obtain ⟨all, hmem, -, -, hempty, hall⟩ :=
    subuniverses_complete_or_cut_off Algebra.total_residuesModFour
  have hsubalgebra (s : ElementSet)
      (h : (start Algebra.residuesModFour .standard).isSubuniverse s = .ok true) : s ∈ all :=
    (hmem s).2 (isSubalgebra_of_isSubuniverse Algebra.total_residuesModFour h)
  have heven : ⟨[0, 2]⟩ ∈ all := hsubalgebra _ (by cbv)
  have hfull : ⟨[0, 1, 2, 3]⟩ ∈ all := hsubalgebra _ (by cbv)
  have hlength : 1 < all.length := by
    have hsub : [⟨[0, 2]⟩, ⟨[0, 1, 2, 3]⟩] ⊆ all := by simp [heven, hfull]
    exact (List.subperm_of_subset (by decide) hsub).length_le
  obtain ⟨hcomplete, hcut⟩ := hall .standard _ .start
  obtain ⟨found, L', hrun, -, -, hfound, -⟩ := hcut 1 (by
    rintro (h | h | h)
    · cases h
    · cases h
    · omega)
  obtain ⟨L₀, hrun₀, hkept⟩ := hcomplete 0 (Or.inr (Or.inl rfl))
  have hreachable : Reachable Algebra.residuesModFour .standard L₀ := by
    have h := Reachable.query (.subuniverses 0) (@Reachable.start Algebra.residuesModFour .standard)
    rwa [after, hrun₀] at h
  obtain ⟨L₁, hrun₁, -⟩ :=
    (hall .standard L₀ hreachable).1 1 (Or.inl (Slot.isReady_of_eq_some hkept))
  refine ⟨⟨found, L', hrun, hfound⟩, all, L₀, L₁, hrun₀, hrun₁, heven, ?_⟩
  rw [hempty]
  decide

end UniversalAlgebra.SubalgebraLattice
