/-
**What is wrong with the arguments of a search.**

A call of a search goes through several stages.  It may look up a lower cover, replace the lower
congruence, look up a generating pair, move from pair to pair and read tables, and each stage has
checks of its own.  The arguments are described here by what the first failing check finds, and the
checks up to the one after which the lower congruence is replaced are run.

Main definitions:

* `Algebra.PairFault`, `Algebra.StartFault`, `Algebra.CongruenceFault`, `Algebra.IrreducibleFault`,
  `Algebra.JoinFault`, `Algebra.CoverFault` — what is wrong with arguments, in the order of the checks.

Main results:

* `Algebra.exists_join_of_not_joinFault` — what the arguments are if nothing is wrong with them;
* `TypeFinder.setJoinedAlpha_error`, `TypeFinder.setJoinedAlpha_eq_join` — choosing a joined congruence
  fails before the lower one is replaced, or is choosing a congruence;
* `TypeFinder.isSubtrace_alpha` — the test of a pair never overwrites what it was handed.
-/

import UniversalAlgebra.Proofs.CongruenceLattice.LowerCovers
import UniversalAlgebra.Proofs.TypeFinder.Reachable
import UniversalAlgebra.Proofs.TypeFinder.Search

set_option autoImplicit false

namespace UniversalAlgebra

/-! ### Bad arguments -/

namespace Algebra

variable {A : Algebra} {p : ℕ × ℕ} {alpha beta : Partition} {fault : Fault}

/-- One of two numbers is no element. -/
inductive PairFault (A : Algebra) (p : ℕ × ℕ) : Fault → Prop
  | first (h : A.size ≤ p.1) : PairFault A p (.noSuchElement p.1 A.name A.size)
  | second (hfirst : p.1 < A.size) (h : A.size ≤ p.2) :
      PairFault A p (.noSuchElement p.2 A.name A.size)

/-- A pair to start from is not one of elements, or is related already. -/
inductive StartFault (A : Algebra) (alpha : Partition) (p : ℕ × ℕ) : Fault → Prop
  | pair {fault : Fault} (h : A.PairFault p fault) : StartFault A alpha p fault
  | collapsed (hp : A.IsPair p) (h : alpha.setoid p.1 p.2) :
      StartFault A alpha p (.collapsed p alpha.blocks)

/-- A partition does not have the size of the algebra, or is no congruence. -/
inductive CongruenceFault (A : Algebra) (alpha : Partition) : Fault → Prop
  | size (h : alpha.size ≠ A.size) : CongruenceFault A alpha (.partitionSize alpha.size A.name A.size)
  | compatible (hsize : alpha.size = A.size) (h : ¬ A.IsCongruence alpha) :
      CongruenceFault A alpha (.notACongruence alpha.blocks)

/-- A partition does not have the size of the algebra, or is no congruence with exactly one lower
cover. -/
inductive IrreducibleFault (A : Algebra) (beta : Partition) : Fault → Prop
  | size (h : beta.size ≠ A.size) : IrreducibleFault A beta (.partitionSize beta.size A.name A.size)
  | irreducible (hsize : beta.size = A.size)
      (h : ∀ lower, ¬ OnlyLowerCover (Congruence.partition (A := A)) lower beta) :
      IrreducibleFault A beta (.notJoinIrreducible beta.blocks)

/-- The upper partition has no only lower cover, the lower one has another size, its join with that
cover lies above the upper one, or the join is no congruence. -/
inductive JoinFault (A : Algebra) (beta alpha : Partition) : Fault → Prop
  | irreducible {fault : Fault} (h : A.IrreducibleFault beta fault) : JoinFault A beta alpha fault
  | size {lower : Partition} (hlower : OnlyLowerCover (Congruence.partition (A := A)) lower beta)
      (h : alpha.size ≠ beta.size) : JoinFault A beta alpha (.alphaSize alpha.size beta.size)
  | below {lower : Partition} (hlower : OnlyLowerCover (Congruence.partition (A := A)) lower beta)
      (hsize : alpha.size = beta.size) (h : beta.setoid ≤ (alpha.sup lower).setoid) :
      JoinFault A beta alpha (.betaBelowAlpha beta.blocks (alpha.sup lower).blocks)
  | compatible {lower : Partition} (hlower : OnlyLowerCover (Congruence.partition (A := A)) lower beta)
      (hsize : alpha.size = beta.size) (hbelow : ¬ beta.setoid ≤ (alpha.sup lower).setoid)
      (h : ¬ A.IsCongruence (alpha.sup lower)) :
      JoinFault A beta alpha (.notACongruence (alpha.sup lower).blocks)

/-- The lower partition is no congruence, or the upper one does not cover it. -/
inductive CoverFault (A : Algebra) (alpha beta : Partition) : Fault → Prop
  | lower {fault : Fault} (h : A.CongruenceFault alpha fault) : CoverFault A alpha beta fault
  | cover (halpha : A.IsCongruence alpha)
      (h : ∀ δ : A.Congruence, ⟨alpha, halpha⟩ ⋖ δ → δ.partition ≠ beta) :
      CoverFault A alpha beta (.notACover beta.blocks alpha.blocks)

theorem PairFault.kind_eq (h : A.PairFault p fault) : fault.kind = .invalidInput := by
  cases h <;> rfl

theorem StartFault.kind_eq (h : A.StartFault alpha p fault) :
    fault.kind = .invalidInput ∨ fault.kind = .structural := by
  cases h with
  | pair h => exact Or.inl h.kind_eq
  | collapsed => exact Or.inr rfl

theorem CongruenceFault.kind_eq (h : A.CongruenceFault alpha fault) : fault.kind = .invalidInput := by
  cases h <;> rfl

theorem IrreducibleFault.kind_eq (h : A.IrreducibleFault beta fault) :
    fault.kind = .invalidInput ∨ fault.kind = .structural := by
  cases h with
  | size => exact Or.inl rfl
  | irreducible => exact Or.inr rfl

theorem JoinFault.kind_eq (h : A.JoinFault beta alpha fault) :
    fault.kind = .invalidInput ∨ fault.kind = .structural := by
  cases h with
  | irreducible h => exact h.kind_eq
  | size => exact Or.inl rfl
  | below => exact Or.inr rfl
  | compatible => exact Or.inl rfl

theorem CoverFault.kind_eq (h : A.CoverFault alpha beta fault) :
    fault.kind = .invalidInput ∨ fault.kind = .structural := by
  cases h with
  | lower h => exact Or.inl h.kind_eq
  | cover => exact Or.inr rfl

/-- or one with exactly one lower cover. -/
theorem exists_lower_of_not_irreducibleFault (h : ∀ fault, ¬ A.IrreducibleFault beta fault) :
    ∃ γ lower : A.Congruence, γ.partition = beta ∧ ∀ δ : A.Congruence, δ ⋖ γ ↔ δ = lower := by
  have hsize : beta.size = A.size := by
    by_contra hne
    exact h _ (.size hne)
  by_contra hnot
  refine h _ (.irreducible hsize ?_)
  rintro _ ⟨γ, lower, hγ, -, hlower⟩
  exact hnot ⟨γ, lower, hγ, hlower⟩

/-- If nothing is wrong with two partitions, the join of the lower one with the lower cover of the
upper one is a congruence that does not lie above the upper one. -/
theorem exists_join_of_not_joinFault (halpha : alpha.Valid)
    (h : ∀ fault, ¬ A.JoinFault beta alpha fault) :
    ∃ γ lower join : A.Congruence, γ.partition = beta ∧ (∀ δ : A.Congruence, δ ⋖ γ ↔ δ = lower) ∧
      alpha.size = γ.partition.size ∧ join.partition = alpha.sup lower.partition ∧ lower ≤ join ∧
      ¬ γ ≤ join := by
  obtain ⟨γ, lower, rfl, hlower⟩ :=
    exists_lower_of_not_irreducibleFault fun fault hfault => h fault (.irreducible hfault)
  have honly : OnlyLowerCover (Congruence.partition (A := A)) lower.partition γ.partition :=
    ⟨γ, lower, rfl, rfl, hlower⟩
  have hsize : alpha.size = γ.partition.size := by
    by_contra hne
    exact h _ (.size honly hne)
  have hbelow : ¬ γ.partition.setoid ≤ (alpha.sup lower.partition).setoid :=
    fun hle => h _ (.below honly hsize hle)
  have hcongruence : A.IsCongruence (alpha.sup lower.partition) := by
    by_contra hnot
    exact h _ (.compatible honly hsize hbelow hnot)
  have hsup : (alpha.sup lower.partition).setoid = alpha.setoid ⊔ lower.partition.setoid :=
    halpha.setoid_sup lower.isCongruence.valid
      (hsize.trans (γ.isCongruence.size_eq.trans lower.isCongruence.size_eq.symm))
  have hle : lower.partition.setoid ≤ (alpha.sup lower.partition).setoid := by
    rw [hsup]
    exact le_sup_right
  exact ⟨γ, lower, ⟨_, hcongruence⟩, rfl, hlower, hsize, rfl, hle, hbelow⟩

end Algebra

namespace TypeFinder

open UniversalAlgebra.Algebra Query

variable {A : Algebra} {settings : Settings} {F : TypeFinder} {p : ℕ × ℕ} {alpha beta : Partition}
  {fault : Fault}

/-! ### The checks -/

theorem setAlpha_error (hA : F.algebra.Total) (halpha : alpha.Valid)
    (h : F.algebra.CongruenceFault alpha fault) : setAlpha alpha F = .error fault F := by
  change (liftM (F.lattice.isCongruence alpha) >>= _ : Query TypeFinder Unit) F = _
  cases h with
  | size h =>
      rw [CongruenceLattice.isCongruence_eq_error h]
      rfl
  | compatible hsize h =>
      rw [CongruenceLattice.isCongruence_eq_false hA halpha hsize h]
      rfl

/-- The lower cover is found, and nothing but the lattice changes. -/
theorem lowerStar_ok (hA : A.Total) (hF : Sound A settings F) {lower : Partition}
    (hlower : OnlyLowerCover (Congruence.partition (A := A)) lower beta) :
    ∃ L, Sound A settings { F with lattice := L } ∧
      lowerStar beta F = .ok lower { F with lattice := L } :=
  lowerStar_eq hA hF ((lookup_irreducibles_eq_some_iff hA).2 hlower)

theorem lowerStar_error (hA : A.Total) (hF : Sound A settings F) (h : A.IrreducibleFault beta fault) :
    ∃ L, lowerStar beta F = .error fault { F with lattice := L } := by
  obtain ⟨L, -, ⟨lower, hsize, hlower, -⟩ | ⟨hsize, -, hrun⟩ | ⟨hsize, hrun⟩⟩ :=
    lowerStar_cases hA hF beta
  · cases h with
    | size h => exact absurd hsize h
    | irreducible _ h => exact absurd ((lookup_irreducibles_eq_some_iff hA).1 hlower) (h lower)
  · cases h with
    | size h => exact absurd hsize h
    | irreducible => exact ⟨L, hrun⟩
  · cases h with
    | size => exact ⟨L, hrun⟩
    | irreducible h => exact absurd h hsize

/-! ### Choosing a joined congruence -/

/-- **Choosing a joined congruence fails before the lower one is replaced.** -/
theorem setJoinedAlpha_error (hA : A.Total) (hF : Sound A settings F) (halpha : alpha.Valid)
    (h : A.JoinFault beta alpha fault) :
    ∃ L, setJoinedAlpha beta alpha F = .error fault { F with lattice := L } := by
  cases h with
  | irreducible h =>
      obtain ⟨L, hrun⟩ := lowerStar_error hA hF h
      exact ⟨L, bind_of_error hrun⟩
  | size hlower h =>
      obtain ⟨L, -, hrun⟩ := lowerStar_ok hA hF hlower
      refine ⟨L, (bind_of_ok hrun).trans ?_⟩
      rw [if_pos h]
      rfl
  | below hlower hsize h =>
      obtain ⟨L, -, hrun⟩ := lowerStar_ok hA hF hlower
      obtain ⟨γ, δ, rfl, rfl, -⟩ := hlower
      refine ⟨L, (bind_of_ok hrun).trans ?_⟩
      rw [if_neg (not_not_intro hsize), if_pos (γ.isCongruence.valid.refines_iff.2 h)]
      rfl
  | compatible hlower hsize hbelow h =>
      obtain ⟨L, hL, hrun⟩ := lowerStar_ok hA hF hlower
      obtain ⟨γ, δ, rfl, rfl, -⟩ := hlower
      have hsizes : alpha.size = δ.partition.size :=
        hsize.trans (γ.isCongruence.size_eq.trans δ.isCongruence.size_eq.symm)
      have hfault : A.CongruenceFault (alpha.sup δ.partition)
          (.notACongruence (alpha.sup δ.partition).blocks) :=
        .compatible ((halpha.size_sup δ.isCongruence.valid hsizes).trans
          (hsizes.trans δ.isCongruence.size_eq)) h
      refine ⟨L, (bind_of_ok hrun).trans ?_⟩
      rw [if_neg (not_not_intro hsize), if_neg (mt γ.isCongruence.valid.refines_iff.1 hbelow)]
      obtain rfl := hL.algebra_eq
      exact setAlpha_error hA (halpha.sup δ.isCongruence.valid hsizes) hfault

/-- The test of a pair refuses the lower congruence itself, before it changes, since its join with any
congruence lies above it. -/
theorem isSubtrace_alpha (hA : A.Total) (hF : Sound A settings F) (p : ℕ × ℕ) :
    ∃ fault L, isSubtrace p F.alpha F = .error fault { F with lattice := L } := by
  have hvalid := hF.isCongruence_alpha.valid
  obtain ⟨fault, hfault⟩ : ∃ fault, A.JoinFault F.alpha F.alpha fault := by
    by_contra hnone
    obtain ⟨γ, lower, join, hγ, -, -, hjoin, -, hbelow⟩ :=
      exists_join_of_not_joinFault hvalid fun fault hfault => hnone ⟨fault, hfault⟩
    obtain rfl : join = γ ⊔ lower :=
      Congruence.partition_injective (by rw [hjoin, Congruence.partition_sup, hγ])
    exact hbelow le_sup_left
  obtain ⟨L, hrun⟩ := setJoinedAlpha_error hA hF hvalid hfault
  refine ⟨fault, L, ?_⟩
  rw [isSubtrace, get_bind_apply, bind_of_error hrun]

end TypeFinder

end UniversalAlgebra
