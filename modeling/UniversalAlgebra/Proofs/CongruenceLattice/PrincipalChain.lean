/-
**A chain of principal joins.**

A congruence other than the greatest has two blocks, so that it has two least representatives.  They are
not related, and joining what they generate gives a larger congruence, with fewer blocks.  So the chain
that starts at the least congruence ends at the greatest one, before as many steps are made as there
are elements.

Main definitions:

* `Algebra.Congruence.PrincipalStep` — one step of the chain;
* `Algebra.Congruence.IsPrincipalChain` — a chain of such steps up to the greatest congruence.

Main results:

* `Algebra.Congruence.lt_of_principalStep` — each step leads strictly upwards;
* `CongruenceLattice.chainFrom_spec` — from every congruence on there is one chain, for any fuel that
  is enough;
* `CongruenceLattice.principalChain_exact` — **the chain from the least to the greatest congruence**.
-/

import Mathlib
import UniversalAlgebra.Proofs.CongruenceLattice.Coherent
import UniversalAlgebra.Proofs.CongruenceLattice.UpperCovers

set_option autoImplicit false

namespace UniversalAlgebra

namespace Algebra.Congruence

variable {A : Algebra} {γ δ : A.Congruence} {chain : List A.Congruence}

/-! ### Steps -/

/-- The second congruence is the join of the first one with the congruence that its two least
representatives generate. -/
def PrincipalStep (γ δ : A.Congruence) : Prop :=
  ∃ r s rest beta, γ.partition.representatives = r :: s :: rest ∧
    A.IsLeastCongruence (fun x y => x = r ∧ y = s) beta ∧ δ.partition = γ.partition.sup beta

/-- Two least representatives are not related. -/
theorem not_setoid_of_representatives {r s : ℕ} {rest : List ℕ}
    (hreps : γ.partition.representatives = r :: s :: rest) : ¬ γ.partition.setoid r s := by
  have hr : r ∈ γ.partition.representatives := by simp [hreps]
  have hs : s ∈ γ.partition.representatives := by simp [hreps]
  have hnodup := Partition.nodup_representatives (p := γ.partition)
  rw [hreps, List.nodup_cons] at hnodup
  intro h
  have heq : r = s := calc
    r = γ.partition.rep r := (Partition.mem_representatives.1 hr).2.symm
    _ = γ.partition.rep s := h
    _ = s := (Partition.mem_representatives.1 hs).2
  exact hnodup.1 (heq ▸ List.mem_cons_self)

/-- Each step leads strictly upwards. -/
theorem lt_of_principalStep (h : PrincipalStep γ δ) : γ < δ := by
  obtain ⟨r, s, rest, beta, hreps, hbeta, hjoin⟩ := h
  obtain rfl : δ = γ ⊔ ⟨beta, hbeta.isCongruence⟩ := Congruence.ext hjoin
  refine left_lt_sup.2 fun hle => not_setoid_of_representatives hreps ?_
  exact le_iff.1 hle (hbeta.rel ⟨rfl, rfl⟩)

/-- So there are fewer blocks. -/
theorem blockCount_lt (h : γ < δ) : δ.partition.blockCount < γ.partition.blockCount :=
  γ.isCongruence.valid.blockCount_lt δ.isCongruence.valid
    (γ.isCongruence.size_eq.trans δ.isCongruence.size_eq.symm) h

/-- Below the greatest congruence there is a step. -/
theorem exists_principalStep (hA : A.Total) (hne : γ.partition ≠ Partition.coarsest A.size) :
    ∃ r s rest, ∃ (hr : r < A.size) (hs : s < A.size),
      γ.partition.representatives = r :: s :: rest ∧ PrincipalStep γ (γ ⊔ cg hA hr hs) := by
  obtain ⟨r, s, rest, hreps, hr, hs⟩ := exists_representatives hA hne
  exact ⟨r, s, rest, hr, hs, hreps, r, s, rest, A.cg r s, hreps, hA.isLeastCongruence_cg hr hs, rfl⟩

/-! ### Chains -/

/-- A chain of steps from a congruence to the greatest one, with at most as many members as the
congruence has blocks. -/
structure IsPrincipalChain (γ : A.Congruence) (chain : List A.Congruence) : Prop where
  head_eq : chain.head? = some γ
  last_eq : chain.getLast?.map partition = some (Partition.coarsest A.size)
  steps : chain.IsChain PrincipalStep
  length_le : chain.length ≤ γ.partition.blockCount

/-- The chain of the greatest congruence. -/
theorem isPrincipalChain_singleton (hA : A.Total) (h : γ.partition = Partition.coarsest A.size) :
    IsPrincipalChain γ [γ] := by
  refine ⟨rfl, congrArg some h, List.isChain_singleton γ, ?_⟩
  rw [h, Partition.coarsest, if_neg hA.size_pos.ne', List.length_singleton]

/-- A step in front of a chain. -/
theorem IsPrincipalChain.cons (h : PrincipalStep γ δ) (hchain : IsPrincipalChain δ chain) :
    IsPrincipalChain γ (γ :: chain) := by
  obtain ⟨hhead, hlast, hsteps, hlength⟩ := hchain
  have hlt := blockCount_lt (lt_of_principalStep h)
  cases chain with
  | nil => cases hhead
  | cons ε chain =>
      obtain rfl : ε = δ := Option.some.inj hhead
      refine ⟨rfl, ?_, List.isChain_cons_cons.2 ⟨h, hsteps⟩, ?_⟩
      · rwa [List.getLast?_cons_cons]
      · rw [List.length_cons]
        omega

theorem IsPrincipalChain.blockCount_pos (h : IsPrincipalChain γ chain) :
    0 < γ.partition.blockCount := by
  have hne : chain ≠ [] := by
    rintro rfl
    cases h.head_eq
  exact (List.length_pos_iff.2 hne).trans_le h.length_le

/-- The chain increases strictly. -/
theorem IsPrincipalChain.pairwise_lt (h : IsPrincipalChain γ chain) : chain.Pairwise (· < ·) :=
  List.isChain_iff_pairwise.1 (h.steps.imp fun _ _ => lt_of_principalStep)

end Algebra.Congruence

namespace CongruenceLattice

open Query Algebra.Congruence

variable {A : Algebra} {settings : Settings} {L : CongruenceLattice}

/-- From every congruence on there is one chain, for any fuel that is enough for its blocks. -/
theorem chainFrom_spec (hA : A.Total) (settings : Settings) (γ : A.Congruence) :
    ∃ chain : List A.Congruence, IsPrincipalChain γ chain ∧
      ∀ fuel, γ.partition.blockCount ≤ fuel + 1 →
        Yields (Sound A settings) (chainFrom fuel γ.partition)
          (.ok (chain.map Algebra.Congruence.partition)) := by
  -- from the greatest congruence down
  induction γ using WellFoundedGT.induction with
  | ind γ ih =>
      by_cases hone : γ.partition = Partition.coarsest A.size
      · refine ⟨[γ], isPrincipalChain_singleton hA hone, fun fuel _ => ?_⟩
        cases fuel with
        | zero => exact Yields.pure _
        | succ fuel =>
            refine Yields.get_bind fun L hL => ?_
            rw [one, hL.algebra_eq, if_pos hone]
            exact Yields.pure _
      · obtain ⟨r, s, rest, hr, hs, hreps, hstep⟩ := exists_principalStep hA hone
        obtain ⟨chain, hchain, hyields⟩ := ih _ (lt_of_principalStep hstep)
        have hblocks := blockCount_lt (lt_of_principalStep hstep)
        refine ⟨γ :: chain, hchain.cons hstep, fun fuel hfuel => ?_⟩
        cases fuel with
        | zero => exact absurd hchain.blockCount_pos (by omega)
        | succ fuel =>
            refine Yields.get_bind fun L hL => ?_
            rw [one, hL.algebra_eq, if_neg hone, hreps]
            refine Yields.bind (yields_cg hA hr hs) (Yields.bind (hyields fuel ?_) (Yields.pure _))
            omega

/-- **The chain from the least to the greatest congruence.**  In every reachable lattice it is answered,
so that no step misses a second representative.  It has at most as many members as there are elements,
increases strictly, and each member after the first is the join of the one before with the congruence
generated by the two least representatives of that.  The bound on the number of steps does not cut it
off. -/
theorem principalChain_exact (hA : A.Total) (hL : Reachable A settings L) :
    ∃ chain : List A.Congruence,
      principalChain.result L = .ok (chain.map Algebra.Congruence.partition) ∧
      chain.length ≤ A.size ∧ chain.Pairwise (· < ·) ∧ chain.head? = some ⊥ ∧
      chain.getLast?.map Algebra.Congruence.partition = some (Partition.coarsest A.size) ∧
      chain.IsChain PrincipalStep ∧
      ∀ fuel, A.size ≤ fuel →
        (chainFrom fuel (Partition.finest A.size)).result L = principalChain.result L := by
  have hsound := hL.sound hA
  obtain ⟨chain, hchain, hyields⟩ := chainFrom_spec hA settings (⊥ : A.Congruence)
  have hblocks : (⊥ : A.Congruence).partition.blockCount = A.size := rfl
  have hrun : Yields (Sound A settings) principalChain
      (.ok (chain.map Algebra.Congruence.partition)) := by
    refine Yields.get_bind fun L hL => ?_
    rw [hL.zero_eq, hL.algebra_eq]
    exact hyields A.size (by omega)
  refine ⟨chain, hrun.result_eq hsound, hblocks ▸ hchain.length_le, hchain.pairwise_lt,
    hchain.head_eq, hchain.last_eq, hchain.steps, fun fuel hfuel => ?_⟩
  rw [hrun.result_eq hsound]
  exact (hyields fuel (by omega)).result_eq hsound

/-- In the pairs of bits the chain forgets one bit before it forgets both, and its members form a chain of
steps. -/
theorem principalChain_bitPairs :
    principalChain.result (start Algebra.bitPairs .standard)
        = .ok [Partition.finest 4, ⟨#[0, 0, 2, 2], 2⟩, Partition.coarsest 4] ∧
      ∃ chain : List Algebra.bitPairs.Congruence, chain.map Algebra.Congruence.partition
        = [Partition.finest 4, ⟨#[0, 0, 2, 2], 2⟩, Partition.coarsest 4] ∧
        chain.Pairwise (· < ·) ∧ chain.IsChain PrincipalStep := by
  have hrun : principalChain.result (start Algebra.bitPairs .standard)
      = .ok [Partition.finest 4, ⟨#[0, 0, 2, 2], 2⟩, Partition.coarsest 4] := by cbv
  obtain ⟨chain, hchain, -, hlt, -, -, hsteps, -⟩ :=
    principalChain_exact Algebra.total_bitPairs (@Reachable.start Algebra.bitPairs .standard)
  exact ⟨hrun, chain, Except.ok.inj (hchain.symm.trans hrun), hlt, hsteps⟩

end CongruenceLattice

end UniversalAlgebra
