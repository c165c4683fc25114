/-
**Subtraces are the minimal pairs.**

Whether a pair is a subtrace is decided by a search: it is one if the pair at which its search ends
generates it.  The search picks one of many ways, but the answer does not depend on the way.  An end
that generates the first pair makes that pair as minimal as itself, and a pair that is minimal to
begin with is generated by every uncollapsed pair that it generates, the end among them.  If only
the exchanged pair were generated, exchanging the components once more would lead back.

Main results:

* `Algebra.IsMinimal.mem_sgPair`, `Algebra.IsMinimal.of_mem` — minimal pairs are generated by what
  they generate, and what generates each other is minimal together;
* `Algebra.IsMinimal.mem_sgPair_iff` — which minimal pair a search ends at does not matter;
* `Algebra.isMinimal_swap` — the order of the two elements does not matter;
* `TypeFinder.contains_findSubtraceOfPair` — what a search finds out about its first pair;
* `TypeFinder.isSubtrace_iff_minimal` — **the subtraces are the minimal pairs**.
-/

import UniversalAlgebra.Proofs.TypeFinder.Reachable
import UniversalAlgebra.Proofs.TypeFinder.Search

set_option autoImplicit false

namespace UniversalAlgebra

/-! ### Minimal pairs -/

namespace Algebra

variable {A : Algebra} {alpha : Partition} {p q : ℕ × ℕ}

/-- A minimal pair is generated by each uncollapsed pair that it generates, in the order in which it
is given. -/
theorem IsMinimal.mem_sgPair (hA : A.Total) (hp : A.IsPair p) (hminimal : A.IsMinimal alpha p)
    (hq : q ∈ A.sgPair p) (hcollapsed : ¬ alpha.setoid q.1 q.2) : p ∈ A.sgPair q := by
  have hpair : A.IsPair q := hA.isPair_of_mem_sgPair hp hq
  rcases hminimal q hq hcollapsed with h | h
  · exact h
  · -- the exchanged pair generates `q`, and so `q` generates its own exchange
    have hback : p ∈ A.sgPair q.swap := (hA.mem_sgPair_swap hpair).2 h
    have hforth : q ∈ A.sgPair q.swap := hA.sgPair_subset hpair.swap hback hq
    have hqswap : q.swap ∈ A.sgPair q := (hA.mem_sgPair_swap hpair).1 hforth
    exact hA.sgPair_subset hpair hqswap hback

/-- A pair that generates a minimal pair and is generated by it is minimal. -/
theorem IsMinimal.of_mem (hA : A.Total) (hp : A.IsPair p) (hq : q ∈ A.sgPair p)
    (hminimal : A.IsMinimal alpha q) (hback : p ∈ A.sgPair q) : A.IsMinimal alpha p := by
  have hqpair : A.IsPair q := hA.isPair_of_mem_sgPair hp hq
  intro r hr hcollapsed
  have hrpair : A.IsPair r := hA.isPair_of_mem_sgPair hp hr
  rcases hminimal r (hA.sgPair_subset hqpair hback hr) hcollapsed with h | h
  · exact Or.inl (hA.sgPair_subset hrpair h hback)
  · refine Or.inr (hA.sgPair_subset hrpair h ?_)
    exact hA.swap_mem_sgPair hqpair hback

/-- Whichever minimal pair a search ends at, that pair generates the first one exactly if the first
one is minimal. -/
theorem IsMinimal.mem_sgPair_iff (hA : A.Total) (hp : A.IsPair p) (hq : q ∈ A.sgPair p)
    (hcollapsed : ¬ alpha.setoid q.1 q.2) (hminimal : A.IsMinimal alpha q) :
    p ∈ A.sgPair q ↔ A.IsMinimal alpha p := by
  constructor
  · exact hminimal.of_mem hA hp hq
  · intro hpminimal
    exact hpminimal.mem_sgPair hA hp hq hcollapsed

theorem IsMinimal.swap (hA : A.Total) (hp : A.IsPair p) (hminimal : A.IsMinimal alpha p) :
    A.IsMinimal alpha p.swap := by
  intro q hq hcollapsed
  have hqpair : A.IsPair q := hA.isPair_of_mem_sgPair hp.swap hq
  have hcollapsed' : ¬ alpha.setoid q.swap.1 q.swap.2 := by
    intro h
    exact hcollapsed (Setoid.symm' _ h)
  rcases hminimal q.swap ((hA.mem_sgPair_swap hp).1 hq) hcollapsed' with h | h
  · exact Or.inl ((hA.mem_sgPair_swap hqpair).1 h)
  · exact Or.inr ((hA.mem_sgPair_swap hqpair).1 h)

/-- The order of the two elements does not matter. -/
theorem isMinimal_swap (hA : A.Total) (hp : A.IsPair p) :
    A.IsMinimal alpha p.swap ↔ A.IsMinimal alpha p := by
  constructor
  · intro h
    have hswap := h.swap hA hp.swap
    rwa [Prod.swap_swap] at hswap
  · exact IsMinimal.swap hA hp

end Algebra

namespace TypeFinder

open UniversalAlgebra.Algebra Query

variable {F : TypeFinder} {A : Algebra} {settings : Settings} {p : ℕ × ℕ}

/-! ### What a search tells about its first pair -/

/-- A search lists its first pair exactly if that pair is minimal. -/
theorem contains_findSubtraceOfPair (hA : F.algebra.Total) (hp : F.algebra.IsPair p)
    (hcollapsed : ¬ F.alpha.setoid p.1 p.2) :
    ∃ s F', findSubtraceOfPair p F = .ok s F' ∧
      (s.pairs.contains [p.1, p.2] = true ↔ F.algebra.IsMinimal F.alpha p) := by
  obtain ⟨q, hq, hqcollapsed, hminimal, visited, hfind, -⟩ := findSubtraceOfPair_eq hA hp hcollapsed
  obtain ⟨s, hcertify, -, -, hpairs, -⟩ := certify_eq hA (hA.isPair_of_mem_sgPair hp hq)
  rw [hcertify] at hfind
  refine ⟨s, _, hfind, ?_⟩
  have hlisted : s.pairs.contains [p.1, p.2] = true ↔ p ∈ F.algebra.sgPair q := by
    rw [List.contains_iff_mem, hpairs, exists_pair_eq_iff]
  rw [hlisted]
  exact hminimal.mem_sgPair_iff hA hp hq hqcollapsed

/-- In a sound state the test of a pair answers whether it is minimal. -/
theorem isSubtrace_eq (hA : A.Total) (hF : Sound A settings F) {alpha beta lower : A.Congruence}
    (halpha : alpha.partition = F.alpha) (hlower : ∀ γ : A.Congruence, γ ⋖ beta ↔ γ = lower)
    (hbelow : ¬ beta ≤ alpha ⊔ lower) (hp : A.IsPair p) :
    ∃ answer F', isSubtrace p beta.partition F = .ok answer F' ∧
      (answer = true ↔ beta.partition.setoid p.1 p.2 ∧
        ¬ (alpha ⊔ lower).partition.setoid p.1 p.2 ∧
        A.IsMinimal (alpha ⊔ lower).partition p) := by
  obtain ⟨F', hset, hF', hjoined, -⟩ :=
    setJoinedAlpha_eq hA hF (Congruence.lookup_irreducibles hA hlower) hbelow
  obtain rfl := hF'.algebra_eq
  have hunfold : isSubtrace p beta.partition F
      = (if F'.alpha.related p.1 p.2 || !beta.partition.related p.1 p.2 then pure false
          else return (← findSubtraceOfPair p).pairs.contains [p.1, p.2] :
          Query TypeFinder Bool) F' := by
    change (setJoinedAlpha beta.partition F.alpha >>= _ : Query TypeFinder Bool) F = _
    rw [← halpha, bind_apply, hset]
    change (liftM (F'.checkPair p) >>= _ : Query TypeFinder Bool) F' = _
    rw [checkPair_eq hA hp]
    rfl
  rw [hunfold, ← hjoined, ← Partition.related_iff, ← Partition.related_iff]
  by_cases hcollapsed : F'.alpha.related p.1 p.2 = true
  · refine ⟨false, F', by simp [hcollapsed]; rfl, ?_⟩
    simp [hcollapsed]
  · by_cases hbeta : beta.partition.related p.1 p.2 = true
    · have hnot : ¬ F'.alpha.setoid p.1 p.2 := fun h => hcollapsed (Partition.related_iff.2 h)
      obtain ⟨s, F'', hfind, hiff⟩ := contains_findSubtraceOfPair hA hp hnot
      refine ⟨s.pairs.contains [p.1, p.2], F'', ?_, ?_⟩
      · rw [if_neg (by simp [hcollapsed, hbeta]), bind_apply, hfind]
        rfl
      · rw [hiff]
        simp [hcollapsed, hbeta]
    · refine ⟨false, F', by simp [hbeta]; rfl, ?_⟩
      simp [hbeta]

/-- **The subtraces are the minimal pairs.**  In every reachable state the lower congruence is a
congruence `alpha`.  For a congruence `beta` with exactly one lower cover, whose join with `alpha`
is not above `beta`, the test of a pair of elements succeeds, and it answers that the pair is a
subtrace exactly if `beta` relates the two elements, the join does not, and each pair that is
generated and that the join does not relate generates the pair in turn, up to the order of the two
elements.  The test of the exchanged pair has the same answer, and any minimal pair at which a
search might end would give this answer. -/
theorem isSubtrace_iff_minimal (hA : A.Total) (hF : Reachable A settings F) :
    ∃ alpha : A.Congruence, alpha.partition = F.alpha ∧
      ∀ beta lower : A.Congruence, (∀ γ : A.Congruence, γ ⋖ beta ↔ γ = lower) →
        ¬ beta ≤ alpha ⊔ lower →
        ∀ p, A.IsPair p → ∃ answer, (∃ F', isSubtrace p beta.partition F = .ok answer F') ∧
          (∃ F', isSubtrace p.swap beta.partition F = .ok answer F') ∧
          (answer = true ↔ beta.partition.setoid p.1 p.2 ∧
            ¬ (alpha ⊔ lower).partition.setoid p.1 p.2 ∧
            ∀ q ∈ A.sgPair p, ¬ (alpha ⊔ lower).partition.setoid q.1 q.2 →
              p ∈ A.sgPair q ∨ p.swap ∈ A.sgPair q) ∧
          ∀ q ∈ A.sgPair p, ¬ (alpha ⊔ lower).partition.setoid q.1 q.2 →
            A.IsMinimal (alpha ⊔ lower).partition q →
            (answer = true ↔ beta.partition.setoid p.1 p.2 ∧
              ¬ (alpha ⊔ lower).partition.setoid p.1 p.2 ∧ p ∈ A.sgPair q) := by
  have hsound := hF.sound hA
  refine ⟨⟨F.alpha, hsound.isCongruence_alpha⟩, rfl, ?_⟩
  intro beta lower hlower hbelow p hp
  obtain ⟨answer, F', hanswer, hiff⟩ := isSubtrace_eq hA hsound rfl hlower hbelow hp
  obtain ⟨answer', F'', hanswer', hiff'⟩ := isSubtrace_eq hA hsound rfl hlower hbelow hp.swap
  have hsymm (s : Setoid ℕ) : s p.swap.1 p.swap.2 ↔ s p.1 p.2 :=
    ⟨fun h => Setoid.symm' s h, fun h => Setoid.symm' s h⟩
  have hsame : answer' = answer := by
    rw [Bool.eq_iff_iff, hiff, hiff', isMinimal_swap hA hp, hsymm, hsymm]
  refine ⟨answer, ⟨F', hanswer⟩, ⟨F'', hsame ▸ hanswer'⟩, hiff, ?_⟩
  intro q hq hcollapsed hminimal
  rw [hiff, hminimal.mem_sgPair_iff hA hp hq hcollapsed]

/-- In the residues modulo four, zero and two form a subtrace of the parity over the least
congruence. -/
theorem isSubtrace_zero_two_residuesModFour :
    (∃ F, isSubtrace (0, 2) ⟨#[0, 1, 0, 1], 2⟩ (start (.start residuesModFour .standard))
      = .ok true F) ∧
      ∀ q ∈ residuesModFour.sgPair (0, 2), q.1 ≠ q.2 →
        (0, 2) ∈ residuesModFour.sgPair q ∨ (2, 0) ∈ residuesModFour.sgPair q := by
  have hA := total_residuesModFour
  have h0 : 0 < residuesModFour.size := by decide
  have h2 : 2 < residuesModFour.size := by decide
  have hlower := Congruence.parity_covBy_iff_residuesModFour h0 h2
  have hbelow : ¬ Congruence.cg hA h0 h2 ≤ ⊥ ⊔ ⊥ := by
    rw [sup_idem]
    exact not_le_of_gt ((hlower ⊥).2 rfl).lt
  have hpair : residuesModFour.IsPair (0, 2) := ⟨h0, h2⟩
  have hcollapsed : ¬ (Partition.finest residuesModFour.size).setoid 0 2 := by
    simp [Partition.setoid_iff]
  -- the search lists its first pair, which is therefore minimal
  obtain ⟨s, F, hfind, hcontains⟩ := contains_findSubtraceOfPair
    (F := start (.start residuesModFour .standard)) hA hpair hcollapsed
  have hrun : ((findSubtraceOfPair (0, 2)).value? (start (.start residuesModFour .standard))).map
      (fun s => s.pairs.contains [0, 2]) = some true := by cbv
  rw [value?_eq_some.2 ⟨F, hfind⟩] at hrun
  have hminimal := hcontains.1 (Option.some_inj.1 hrun)
  have hstart : Reachable residuesModFour .standard (start (.start residuesModFour .standard)) :=
    .start .start
  obtain ⟨alpha, halpha, hsubtrace⟩ := isSubtrace_iff_minimal hA hstart
  obtain rfl : alpha = ⊥ := Congruence.ext halpha
  obtain ⟨answer, hanswer, -, hiff, -⟩ := hsubtrace _ ⊥ hlower hbelow (0, 2) hpair
  rw [sup_idem] at hiff
  have htrue : answer = true := by
    refine hiff.2 ⟨?_, hcollapsed, hminimal⟩
    exact (hA.isLeastCongruence_cg h0 h2).rel ⟨rfl, rfl⟩
  have hparity : (Congruence.cg hA h0 h2).partition = ⟨#[0, 1, 0, 1], 2⟩ :=
    Congruence.cg_zero_two_residuesModFour
  rw [htrue, hparity] at hanswer
  refine ⟨hanswer, ?_⟩
  intro q hq hne
  refine hminimal q hq ?_
  change ¬ (Partition.finest residuesModFour.size).setoid q.1 q.2
  rw [Partition.setoid_finest]
  exact hne

end TypeFinder

end UniversalAlgebra
