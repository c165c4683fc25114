/-
**Elements with one upper cover, in both lattices.**

The lattice of congruences and the lattice of subuniverses select, from the list of all elements, those
other than the least for which one cover is found.  The list of all is exact unless a cap cuts it off, and
the covers of each of its members are, whatever was asked before.  So the selection is the list of all
elements of that kind, and every element but the least is the meet of those above it.

Main results:

* `meetIrreducibles_exact` — **the elements with one upper cover are listed, and the others are meets of
  them**.
-/

import Mathlib
import UniversalAlgebra.Proofs.CongruenceLattice.UpperCovers
import UniversalAlgebra.Proofs.SubalgebraLattice.UpperCovers

set_option autoImplicit false

namespace UniversalAlgebra

open Query

/-- **The elements with one upper cover are listed, and the others are meets of them.**  In every
reachable lattice of congruences, and in every reachable lattice of subuniverses in which callers joined
subuniverses only, unless the list of all elements is cut off, the answer has, strictly in order, those
elements other than the least that have exactly one upper cover.  Every element other than the least is
the meet of those in the answer that lie above it, where the empty meet is the greatest element. -/
theorem meetIrreducibles_exact {A : Algebra} (hA : A.Total) (settings : Settings) :
    (∀ L, CongruenceLattice.Reachable A settings L →
      (L.complete.isReady = true ∨ settings.maxSize = 0 ∨
        Nat.card A.Congruence ≤ settings.maxSize) →
      ∃ list, CongruenceLattice.meetIrreducibleList.result L = .ok list ∧
        ListsMeetIrreducibles (Algebra.Congruence.partition (A := A)) Partition.rankLess list) ∧
    ∀ L, SubalgebraLattice.Reachable A settings L →
      (L.complete.isReady = true ∨ settings.maxSize = 0 ∨
        Nat.card A.Subalgebra ≤ settings.maxSize) →
      ∃ list, SubalgebraLattice.meetIrreducibleList.result L = .ok list ∧
        ListsMeetIrreducibles (Algebra.Subalgebra.set (A := A)) ElementSet.less list := by
  constructor
  · intro L hL havailable
    obtain ⟨L', -, hrun⟩ :=
      CongruenceLattice.meetIrreducibleList_eq hA (hL.coherent hA) havailable
    exact ⟨_, by rw [result, hrun], Algebra.Congruence.listsMeetIrreducibles hA⟩
  · intro L hL havailable
    obtain ⟨L', -, hrun⟩ :=
      SubalgebraLattice.meetIrreducibleList_eq hA (hL.coherent hA) havailable
    exact ⟨_, by rw [result, hrun], Algebra.Subalgebra.listsMeetIrreducibles hA⟩

/-- In the residues modulo four some congruence that relates zero and two is listed, and the even
residues are the only subuniverse other than the least with exactly one upper cover. -/
theorem meetIrreducibles_residuesModFour :
    (∃ list, CongruenceLattice.meetIrreducibleList.result (.start Algebra.residuesModFour .standard)
      = .ok list ∧ ∃ p ∈ list, p.setoid 0 2) ∧
    ∀ σ : Algebra.residuesModFour.Subalgebra,
      (¬ IsBot σ ∧ ∃! τ : Algebra.residuesModFour.Subalgebra, σ ⋖ τ) ↔ σ.set = ⟨[0, 2]⟩ := by
  obtain ⟨hcongruences, hsubalgebras⟩ :=
    meetIrreducibles_exact Algebra.total_residuesModFour .standard
  constructor
  · obtain ⟨list, hresult, hlists⟩ := hcongruences _ .start (Or.inr (Or.inl rfl))
    obtain ⟨parity, hparity⟩ : ∃ parity : Algebra.residuesModFour.Congruence,
        parity.partition = ⟨#[0, 1, 0, 1], 2⟩ :=
      ⟨.cg Algebra.total_residuesModFour (by decide) (by decide),
        Algebra.Congruence.cg_zero_two_residuesModFour⟩
    have hbot : ¬ IsBot parity := by
      rw [isBot_iff_eq_bot]
      rintro rfl
      cases hparity
    have htop : ¬ IsTop parity := fun htop => by
      have hle := Algebra.Congruence.le_iff.1
        (htop ⟨_, Algebra.isCongruence_coarsest Algebra.total_residuesModFour⟩)
      have hrel : parity.partition.setoid 0 1 :=
        hle (Partition.setoid_coarsest (by decide) (by decide))
      rw [hparity, Partition.setoid_iff] at hrel
      exact absurd hrel (by decide)
    obtain ⟨m, hm, hle⟩ := hlists.exists_le hbot htop
    refine ⟨list, hresult, m.partition, hm, Algebra.Congruence.le_iff.1 hle ?_⟩
    rw [hparity, Partition.setoid_iff]
    decide
  · intro σ
    obtain ⟨list, hresult, hlists⟩ := hsubalgebras _ .start (Or.inr (Or.inl rfl))
    have hrun : SubalgebraLattice.meetIrreducibleList.result
        (.start Algebra.residuesModFour .standard) = .ok [⟨[0, 2]⟩] := by cbv
    obtain rfl : list = [⟨[0, 2]⟩] := Except.ok.inj (hresult.symm.trans hrun)
    rw [← List.mem_singleton, hlists.mem_iff]
    constructor
    · exact fun h => ⟨σ, rfl, h⟩
    · rintro ⟨υ, hυ, h⟩
      rwa [← Algebra.Subalgebra.ext hυ]

end UniversalAlgebra
