/-
**Irredundant meet decompositions.**

The congruences with one upper cover, the least one left out, meet in the least one unless that has one
upper cover itself.  They are gone through from the last to the first, and each is dropped if the others
that are still there have the same meet.  A member that was kept could not be dropped at its turn, and
all the less later, when there are fewer others: since a part of a list meets in the least congruence only
if the whole list does, nothing that was kept becomes redundant.

Main definitions:

* `Pruned` — what a list has become when the members from a position on were gone through;
* `Algebra.IrredundantMeet` — a list of congruences with one upper cover that meet in the least one, none
  of which can be left out;
* `Algebra.meetDecomposition` — what is answered for an algebra.

Main results:

* `Pruned.step`, `pruned_dropRedundant` — what one turn keeps, and **what is left at the end**;
* `Algebra.Congruence.meetAll_eq_finest_iff` — meets of lists are meets in the lattice;
* `CongruenceLattice.irredundantMeetDecomposition_exact` — **the decomposition is irredundant**.
-/

import Mathlib
import UniversalAlgebra.Proofs.CongruenceLattice.UpperCovers

set_option autoImplicit false

namespace UniversalAlgebra

/-! ### Dropping members -/

/-- Leaving out two members leaves less than leaving out the later one. -/
theorem eraseIdx_eraseIdx_sublist {α : Type} (xs : List α) {i j : ℕ} (hij : i ≤ j) :
    ((xs.eraseIdx i).eraseIdx j).Sublist (xs.eraseIdx (j + 1)) := by
  induction xs generalizing i j with
  | nil => exact List.Sublist.slnil
  | cons x xs ih =>
      cases i with
      | zero => exact List.sublist_cons_self x _
      | succ i =>
          obtain ⟨j, rfl⟩ : ∃ k, j = k + 1 := ⟨j - 1, by omega⟩
          exact (ih (Nat.le_of_succ_le_succ hij)).cons_cons x

section Drop

variable {top bottom : Partition} {ps kept : List Partition} {i : ℕ}

/-- Some members of a list were dropped when those from a position on were gone through: what is left
still meets in `bottom`, and of the members from that position on none can be left out. -/
structure Pruned (top bottom : Partition) (ps : List Partition) (i : ℕ) (kept : List Partition) :
    Prop where
  sublist : kept.Sublist ps
  meet_eq : meetAll top kept = bottom
  needed : ∀ j, i ≤ j → j < kept.length → meetAll top (kept.eraseIdx j) ≠ bottom

-- a part of the list meets in `bottom` only if the whole does
variable (hmono : ∀ xs ys : List Partition, xs.Sublist ys → ys.Sublist ps →
  meetAll top xs = bottom → meetAll top ys = bottom)

include hmono

/-- **One turn.**  If the member is dropped, what is needed among the members after it stays needed. -/
theorem Pruned.step (h : Pruned top bottom ps (i + 1) kept) :
    Pruned top bottom ps i (if meetAll top (kept.eraseIdx i) = bottom then kept.eraseIdx i
      else kept) := by
  split
  · next hdrop =>
      refine ⟨(List.eraseIdx_sublist kept i).trans h.sublist, hdrop, fun j hij hj hmeet => ?_⟩
      have hlater : j + 1 < kept.length := by
        rw [List.length_eraseIdx] at hj
        split at hj <;> omega
      -- what could be left out now could have been left out before, when there were more
      exact h.needed (j + 1) (Nat.succ_le_succ hij) hlater
        (hmono _ _ (eraseIdx_eraseIdx_sublist kept hij)
          ((List.eraseIdx_sublist kept (j + 1)).trans h.sublist) hmeet)
  · next hkeep =>
      refine ⟨h.sublist, h.meet_eq, fun j hij hj => ?_⟩
      rcases hij.eq_or_lt with rfl | hlt
      · exact hkeep
      · exact h.needed j hlt hj

/-- All turns that are left. -/
theorem Pruned.foldl (h : Pruned top bottom ps i kept) :
    Pruned top bottom ps 0 ((List.range i).reverse.foldl
      (fun kept i => if meetAll top (kept.eraseIdx i) = bottom then kept.eraseIdx i else kept)
      kept) := by
  induction i generalizing kept with
  | zero => exact h
  | succ i ih =>
      rw [List.range_succ, List.reverse_append, List.reverse_singleton, List.singleton_append,
        List.foldl_cons]
      exact ih (h.step hmono)

/-- **What is left at the end** meets in `bottom`, and no member can be left out. -/
theorem pruned_dropRedundant (hmeet : meetAll top ps = bottom) :
    Pruned top bottom ps 0 (dropRedundant top bottom ps) :=
  Pruned.foldl hmono ⟨List.Sublist.refl ps, hmeet, fun _ hj hlt => absurd hlt hj.not_gt⟩

end Drop

namespace Algebra

variable {A : Algebra} {p : Partition} {ps : List Partition}

/-! ### Meets over lists -/

namespace Congruence

/-- The meet over a list of congruences is their meet in the lattice. -/
theorem exists_isGLB_meetAll (τ : A.Congruence) (hps : ∀ p ∈ ps, A.IsCongruence p) :
    ∃ δ : A.Congruence, δ.partition = meetAll τ.partition ps ∧
      IsGLB (insert τ {γ : A.Congruence | γ.partition ∈ ps}) δ := by
  induction ps generalizing τ with
  | nil => exact ⟨τ, rfl, by simp⟩
  | cons p ps ih =>
      obtain ⟨hp, hrest⟩ := List.forall_mem_cons.1 hps
      obtain ⟨γ, rfl⟩ : ∃ γ : A.Congruence, γ.partition = p := ⟨⟨p, hp⟩, rfl⟩
      obtain ⟨δ, hδ, hglb⟩ := ih (τ ⊓ γ) hrest
      have hlisted : {ε : A.Congruence | ε.partition ∈ γ.partition :: ps} =
          insert γ {ε : A.Congruence | ε.partition ∈ ps} := by
        ext ε
        simp [Congruence.ext_iff]
      refine ⟨δ, hδ, (isGLB_congr ?_).1 hglb⟩
      rw [hlisted, lowerBounds_insert, lowerBounds_insert, lowerBounds_insert, ← Set.inter_assoc,
        Set.Iic_inter_Iic]

/-- A list of congruences meets in the least one exactly if that is their meet in the lattice. -/
theorem meetAll_eq_finest_iff (hA : A.Total) (hps : ∀ p ∈ ps, A.IsCongruence p) :
    meetAll (Partition.coarsest A.size) ps = Partition.finest A.size ↔
      IsGLB {γ : A.Congruence | γ.partition ∈ ps} ⊥ := by
  obtain ⟨δ, hδ, hglb⟩ := exists_isGLB_meetAll ⟨_, isCongruence_coarsest hA⟩ hps
  have hglb' : IsGLB {γ : A.Congruence | γ.partition ∈ ps} δ := by
    refine (isGLB_congr ?_).1 hglb
    rw [lowerBounds_insert, Set.inter_eq_right]
    exact fun γ _ => le_coarsest hA γ
  rw [← hδ, partition_eq_finest_iff]
  constructor
  · rintro rfl
    exact hglb'
  · exact fun h => hglb'.unique h

/-- The more members, the smaller the meet. -/
theorem meetAll_eq_finest_mono (hA : A.Total) {qs : List Partition}
    (hqs : ∀ q ∈ qs, A.IsCongruence q) (hsub : ps ⊆ qs)
    (h : meetAll (Partition.coarsest A.size) ps = Partition.finest A.size) :
    meetAll (Partition.coarsest A.size) qs = Partition.finest A.size := by
  rw [meetAll_eq_finest_iff hA fun p hp => hqs p (hsub hp)] at h
  rw [meetAll_eq_finest_iff hA hqs]
  exact ⟨fun _ _ => bot_le, fun _ hγ => h.2 fun _ hδ => hγ (hsub hδ)⟩

theorem isCongruence_of_mem_meetIrreducibles (hp : p ∈ A.meetIrreducibles) : A.IsCongruence p :=
  mem_congruences.1 (List.mem_filter.1 hp).1

/-- The meet irreducible congruences meet in the least one, unless that has one upper cover itself. -/
theorem meetAll_meetIrreducibles (hA : A.Total) (hbot : ¬ ∃! δ : A.Congruence, ⊥ ⋖ δ) :
    meetAll (Partition.coarsest A.size) A.meetIrreducibles = Partition.finest A.size := by
  have hlisted (γ : A.Congruence) : γ.partition ∈ A.meetIrreducibles ↔ ∃! δ, γ ⋖ δ := by
    rw [(listsMeetIrreducibles hA).mem_iff]
    constructor
    · rintro ⟨ε, hε, -, hcover⟩
      rwa [← Congruence.ext hε]
    · refine fun hcover => ⟨γ, rfl, fun h => hbot ?_, hcover⟩
      rwa [← isBot_iff_eq_bot.1 h]
  rw [meetAll_eq_finest_iff hA fun p => isCongruence_of_mem_meetIrreducibles]
  simpa only [hlisted, bot_le, and_true] using isGLB_existsUnique_covBy (⊥ : A.Congruence)

/-- There are none if there is one element only. -/
theorem meetIrreducibles_eq_nil (hA : A.Total)
    (h : Partition.finest A.size = Partition.coarsest A.size) : A.meetIrreducibles = [] := by
  refine List.eq_nil_iff_forall_not_mem.2 fun p hp => ?_
  obtain ⟨γ, -, hbot, -⟩ := ((listsMeetIrreducibles hA).mem_iff p).1 hp
  have hle : γ ≤ ⊥ := by
    have hcoarsest := le_coarsest hA γ
    simp only [← h] at hcoarsest
    exact hcoarsest
  exact hbot fun δ => hle.trans bot_le

end Congruence

theorem finest_eq_coarsest_iff (hA : A.Total) :
    Partition.finest A.size = Partition.coarsest A.size ↔ A.size = 1 := by
  constructor
  · intro h
    by_contra hne
    have hrel : (Partition.coarsest A.size).setoid 0 1 :=
      Partition.setoid_coarsest hA.size_pos (by have := hA.size_pos; omega)
    rw [← h, Partition.setoid_finest] at hrel
    exact absurd hrel Nat.zero_ne_one
  · intro h
    rw [h]
    rfl

/-! ### Irredundant decompositions -/

/-- The list has different congruences with exactly one upper cover each.  Their meet is the least
congruence, and is another one as soon as any of them is left out. -/
structure IrredundantMeet (A : Algebra) (members : List Partition) : Prop where
  nodup : members.Nodup
  one_cover : ∀ p ∈ members, ∃ γ : A.Congruence, γ.partition = p ∧ ∃! δ : A.Congruence, γ ⋖ δ
  meet_eq : meetAll (Partition.coarsest A.size) members = Partition.finest A.size
  needed : ∀ i < members.length,
    meetAll (Partition.coarsest A.size) (members.eraseIdx i) ≠ Partition.finest A.size

/-- What is answered for the algebra. -/
noncomputable def meetDecomposition (A : Algebra) : List Partition :=
  if Partition.finest A.size = Partition.coarsest A.size then A.meetIrreducibles
  else if (A.upperCovers (Partition.finest A.size)).length = 1 then [Partition.finest A.size]
  else dropRedundant (Partition.coarsest A.size) (Partition.finest A.size) A.meetIrreducibles

/-- If the least congruence has one upper cover, it stands alone. -/
theorem irredundantMeet_singleton (hA : A.Total) (hcover : ∃! δ : A.Congruence, ⊥ ⋖ δ)
    (hne : Partition.finest A.size ≠ Partition.coarsest A.size) :
    A.IrredundantMeet [Partition.finest A.size] := by
  refine ⟨List.nodup_singleton _, fun p hp => ⟨⊥, (List.mem_singleton.1 hp).symm, hcover⟩, ?_, ?_⟩
  · have hcongruence : ∀ p ∈ [Partition.finest A.size], A.IsCongruence p := fun p hp =>
      List.mem_singleton.1 hp ▸ isCongruence_finest A
    rw [Congruence.meetAll_eq_finest_iff hA hcongruence]
    exact ⟨fun _ _ => bot_le, fun γ hγ => hγ (List.mem_singleton.2 rfl)⟩
  · intro i hi
    obtain rfl : i = 0 := Nat.lt_one_iff.1 hi
    exact hne.symm

/-- A congruence that stands alone is the least one, so that has one upper cover. -/
theorem IrredundantMeet.existsUnique_bot_covBy (hA : A.Total) (h : A.IrredundantMeet [p]) :
    ∃! δ : A.Congruence, ⊥ ⋖ δ := by
  obtain ⟨γ, rfl, hcover⟩ := h.one_cover p (List.mem_singleton.2 rfl)
  have hglb := (Congruence.meetAll_eq_finest_iff hA fun q hq =>
    List.mem_singleton.1 hq ▸ γ.isCongruence).1 h.meet_eq
  have hle : γ ≤ ⊥ := hglb.2 fun δ hδ => (Congruence.ext (List.mem_singleton.1 hδ)).ge
  rwa [le_bot_iff.1 hle] at hcover

/-- If the least congruence has no or several upper covers, the meet irreducible ones are enough, and
those that can be dropped are. -/
theorem irredundantMeet_dropRedundant (hA : A.Total) (hbot : ¬ ∃! δ : A.Congruence, ⊥ ⋖ δ) :
    A.IrredundantMeet
      (dropRedundant (Partition.coarsest A.size) (Partition.finest A.size) A.meetIrreducibles) := by
  have hlists := Congruence.listsMeetIrreducibles hA
  obtain ⟨hsublist, hmeet, hneeded⟩ := pruned_dropRedundant
    (fun xs ys hxy hys => Congruence.meetAll_eq_finest_mono hA
      (fun q hq => Congruence.isCongruence_of_mem_meetIrreducibles (hys.mem hq)) hxy.subset)
    (Congruence.meetAll_meetIrreducibles hA hbot)
  refine ⟨(Partition.orderedBy_rankLess.nodup hlists.pairwise).sublist hsublist, fun p hp => ?_,
    hmeet, fun i => hneeded i i.zero_le⟩
  obtain ⟨γ, hγ, -, hcover⟩ := (hlists.mem_iff p).1 (hsublist.mem hp)
  exact ⟨γ, hγ, hcover⟩

theorem irredundantMeet_meetDecomposition (hA : A.Total) : A.IrredundantMeet A.meetDecomposition := by
  rw [meetDecomposition]
  split
  · next hone =>
      rw [Congruence.meetIrreducibles_eq_nil hA hone]
      exact ⟨List.nodup_nil, by simp, hone.symm, by simp⟩
  · next hne =>
      have hcover := Congruence.length_upperCovers_eq_one_iff hA (⊥ : A.Congruence)
      split
      · next hlength => exact irredundantMeet_singleton hA (hcover.1 hlength) hne
      · next hlength => exact irredundantMeet_dropRedundant hA (mt hcover.2 hlength)

/-- No congruence is needed exactly if there is one element only. -/
theorem meetDecomposition_eq_nil_iff (hA : A.Total) : A.meetDecomposition = [] ↔ A.size = 1 := by
  rw [← finest_eq_coarsest_iff hA]
  constructor
  · intro h
    have hmeet := (irredundantMeet_meetDecomposition hA).meet_eq
    rw [h] at hmeet
    exact hmeet.symm
  · intro h
    rw [meetDecomposition, if_pos h, Congruence.meetIrreducibles_eq_nil hA h]

end Algebra

namespace CongruenceLattice

open Query

variable {A : Algebra} {settings : Settings} {L : CongruenceLattice}

theorem irredundantMeetDecomposition_eq (hA : A.Total) (hL : Coherent A settings L)
    (havailable : L.complete.isReady = true ∨ settings.maxSize = 0 ∨
      Nat.card A.Congruence ≤ settings.maxSize) :
    ∃ L', Coherent A settings L' ∧ irredundantMeetDecomposition L = .ok A.meetDecomposition L' := by
  obtain ⟨L', hL', hrun⟩ := meetIrreducibleList_eq hA hL havailable
  refine Yields.bind_of_ok (Yields.get_bind fun L hL => ?_) hL' hrun
  rw [hL.1.zero_eq, one, hL.1.algebra_eq, Algebra.meetDecomposition]
  split
  · exact Yields.pure _
  · refine Yields.bind (yields_upperCovers hA (Algebra.isCongruence_finest A)) ?_
    split
    · exact Yields.pure _
    · exact Yields.pure _

/-- **The decomposition is irredundant.**  In every reachable lattice, unless the list of all congruences
is cut off, the answer is a list of different congruences with exactly one upper cover each, whose meet,
taken from the greatest congruence on, is the least one.  The meet is another one as soon as any of them
is left out.  The list is empty exactly if the algebra has one element. -/
theorem irredundantMeetDecomposition_exact (hA : A.Total) (hL : Reachable A settings L)
    (havailable : L.complete.isReady = true ∨ settings.maxSize = 0 ∨
      Nat.card A.Congruence ≤ settings.maxSize) :
    ∃ members, irredundantMeetDecomposition.result L = .ok members ∧ A.IrredundantMeet members ∧
      (members = [] ↔ A.size = 1) := by
  obtain ⟨L', -, hrun⟩ := irredundantMeetDecomposition_eq hA (hL.coherent hA) havailable
  exact ⟨A.meetDecomposition, by rw [result, hrun], Algebra.irredundantMeet_meetDecomposition hA,
    Algebra.meetDecomposition_eq_nil_iff hA⟩

/-- In the pairs of bits at least two congruences are listed: those that forget one of the bits meet in
the least one, so that it has two upper covers and does not stand alone. -/
theorem irredundantMeetDecomposition_bitPairs : ∃ members,
    irredundantMeetDecomposition.result (start Algebra.bitPairs .standard) = .ok members ∧
      2 ≤ members.length := by
  obtain ⟨members, hresult, hmeet, hnil⟩ := irredundantMeetDecomposition_exact Algebra.total_bitPairs
    (@Reachable.start Algebra.bitPairs .standard) (Or.inr (Or.inl rfl))
  refine ⟨members, hresult, ?_⟩
  obtain ⟨first, hfirst⟩ : ∃ first : Algebra.bitPairs.Congruence,
      first.partition = ⟨#[0, 0, 2, 2], 2⟩ :=
    ⟨.cg Algebra.total_bitPairs (by decide) (by decide), Algebra.Congruence.cg_bitPairs.1⟩
  obtain ⟨second, hsecond⟩ : ∃ second : Algebra.bitPairs.Congruence,
      second.partition = ⟨#[0, 1, 0, 1], 2⟩ :=
    ⟨.cg Algebra.total_bitPairs (by decide) (by decide), Algebra.Congruence.cg_bitPairs.2.2⟩
  have hinf : first ⊓ second = ⊥ :=
    Algebra.Congruence.inf_eq_bot (by rw [hfirst, hsecond]; decide)
  have hmany : ¬ ∃! δ : Algebra.bitPairs.Congruence, ⊥ ⋖ δ := by
    refine not_existsUnique_bot_covBy hinf ?_ ?_
    · rintro rfl
      cases hfirst
    · rintro rfl
      cases hsecond
  have hpos := List.length_pos_iff.2 fun h => absurd (hnil.1 h) (by decide)
  by_contra hshort
  obtain ⟨p, rfl⟩ := List.length_eq_one_iff.1 (by omega : members.length = 1)
  exact hmany (hmeet.existsUnique_bot_covBy Algebra.total_bitPairs)

end CongruenceLattice

end UniversalAlgebra
