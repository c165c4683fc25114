/-
**Subgroups and congruences of a cyclic group.**

The residues modulo `n` stand for the elements of `ZMod n`.  What is closed under the operations is the
set of residues of a subgroup, and a congruence relates the residues whose difference lies in a
subgroup, that of the residues related to zero.

Main definitions:

* `Catalogue.residues` — the residues of the elements of a subgroup;
* `Catalogue.congruentModulo` — congruence modulo a subgroup.

Main results:

* `Catalogue.isSubuniverse_residues`, `Catalogue.exists_residues` — the closed sets of a cyclic group;
* `Catalogue.compatible_congruentModulo`, `Catalogue.exists_congruentModulo` — **its congruences**.
-/

import Mathlib
import UniversalAlgebra.Proofs.Catalogue.Operations

set_option autoImplicit false

namespace UniversalAlgebra.Catalogue

variable {A : Algebra} {n x y : ℕ} {H K : AddSubgroup (ZMod n)} {S : Set ℕ} {s : Setoid ℕ}

/-! ### Residues -/

theorem cast_add_mod (x y : ℕ) : (((x + y) % n : ℕ) : ZMod n) = x + y := by
  rw [ZMod.natCast_mod, Nat.cast_add]

theorem cast_neg_mod (hx : x < n) : (((n - x) % n : ℕ) : ZMod n) = -x := by
  rw [ZMod.natCast_mod, Nat.cast_sub hx.le, ZMod.natCast_self, zero_sub]

/-- The residues of the elements of a subgroup. -/
def residues (H : AddSubgroup (ZMod n)) : Set ℕ := {x | x < n ∧ (x : ZMod n) ∈ H}

/-- Distinct residues are related if their difference lies in the subgroup. -/
def congruentModulo (H : AddSubgroup (ZMod n)) : Setoid ℕ where
  r x y := x = y ∨ (x < n ∧ y < n) ∧ (x - y : ZMod n) ∈ H
  iseqv := by
    refine ⟨fun x => Or.inl rfl, ?_, ?_⟩
    · rintro x y (rfl | ⟨hlt, hxy⟩)
      · exact Or.inl rfl
      · exact Or.inr ⟨hlt.symm, by simpa using H.neg_mem hxy⟩
    · rintro x y z (rfl | ⟨hlt, hxy⟩) (rfl | ⟨hlt', hyz⟩)
      · exact Or.inl rfl
      · exact Or.inr ⟨hlt', hyz⟩
      · exact Or.inr ⟨hlt, hxy⟩
      · exact Or.inr ⟨⟨hlt.1, hlt'.2⟩, by simpa using H.add_mem hxy hyz⟩

/-- Among residues it is the difference that matters. -/
theorem congruentModulo_iff (hx : x < n) (hy : y < n) :
    congruentModulo H x y ↔ (x - y : ZMod n) ∈ H := by
  constructor
  · rintro (rfl | ⟨-, h⟩)
    · simp
    · exact h
  · exact fun h => Or.inr ⟨⟨hx, hy⟩, h⟩

theorem within_congruentModulo (H : AddSubgroup (ZMod n)) :
    Algebra.Within n (congruentModulo H) := by
  rintro x y (rfl | ⟨hlt, -⟩) hne
  · exact absurd rfl hne
  · exact hlt

/-! ### The operations -/

theorem isSubuniverse_cyclic_iff (h : A.HasOperations n (cyclicOperations n)) :
    A.IsSubuniverse S ↔ (∀ x ∈ S, x < n) ∧
      (∀ x ∈ S, ∀ y ∈ S, (x + y) % n ∈ S) ∧ (∀ x ∈ S, (n - x) % n ∈ S) ∧ 0 ∈ S := by
  rw [h.isSubuniverse_iff]
  refine and_congr_right fun hS => ?_
  simp only [cyclicOperations, List.forall_mem_cons, List.not_mem_nil, false_imp_iff, implies_true,
    and_true, preserves_binaryOperation hS, preserves_unaryOperation hS, preserves_zeroOperation]

theorem compatible_cyclic_iff (h : A.HasOperations n (cyclicOperations n)) : A.Compatible s ↔
    (∀ x < n, ∀ y < n, ∀ x' < n, ∀ y' < n, s x x' → s y y' → s ((x + y) % n) ((x' + y') % n)) ∧
      ∀ x < n, ∀ x' < n, s x x' → s ((n - x) % n) ((n - x') % n) := by
  rw [h.compatible_iff]
  simp only [cyclicOperations, List.forall_mem_cons, List.not_mem_nil, false_imp_iff, implies_true,
    and_true, respects_binaryOperation, respects_unaryOperation, respects_zeroOperation]

/-! ### Subgroups -/

variable [NeZero n]

theorem mem_iff_val_mem_residues (z : ZMod n) : z ∈ H ↔ z.val ∈ residues H := by
  simp [residues, ZMod.val_lt]

/-- A subgroup is known from the residues of its elements. -/
theorem residues_injective : Function.Injective (residues (n := n)) := by
  intro H K h
  ext z
  rw [mem_iff_val_mem_residues, h, ← mem_iff_val_mem_residues]

theorem mem_iff_congruentModulo (z : ZMod n) : z ∈ H ↔ congruentModulo H z.val 0 := by
  rw [congruentModulo_iff (ZMod.val_lt z) (NeZero.pos n)]
  simp

/-- It is also known from the congruence. -/
theorem congruentModulo_injective : Function.Injective (congruentModulo (n := n)) := by
  intro H K h
  ext z
  rw [mem_iff_congruentModulo, h, ← mem_iff_congruentModulo]

/-! ### What is closed under the operations, and what is compatible with them -/

section Operations

variable (h : A.HasOperations n (cyclicOperations n))

include h

theorem isSubuniverse_residues (H : AddSubgroup (ZMod n)) : A.IsSubuniverse (residues H) := by
  have hpos : 0 < n := NeZero.pos n
  refine (isSubuniverse_cyclic_iff h).2 ⟨fun x hx => hx.1, ?_, ?_, hpos, by simp⟩
  · rintro x ⟨-, hx⟩ y ⟨-, hy⟩
    refine ⟨Nat.mod_lt _ hpos, ?_⟩
    rw [cast_add_mod]
    exact H.add_mem hx hy
  · rintro x ⟨hlt, hx⟩
    refine ⟨Nat.mod_lt _ hpos, ?_⟩
    rw [cast_neg_mod hlt]
    exact H.neg_mem hx

/-- Every closed set consists of the residues of a subgroup. -/
theorem exists_residues (hS : A.IsSubuniverse S) :
    ∃ H : AddSubgroup (ZMod n), residues H = S := by
  obtain ⟨hlt, hadd, hneg, hzero⟩ := (isSubuniverse_cyclic_iff h).1 hS
  have hsum (z w : ZMod n) (hz : z.val ∈ S) (hw : w.val ∈ S) : (z + w).val ∈ S := by
    rw [ZMod.val_add]
    exact hadd z.val hz w.val hw
  have hnegated (z : ZMod n) (hz : z.val ∈ S) : (-z).val ∈ S := by
    rw [ZMod.neg_val']
    exact hneg z.val hz
  let H : AddSubgroup (ZMod n) :=
    { carrier := {z | z.val ∈ S}, zero_mem' := by simpa using hzero,
      add_mem' := fun {z w} hz hw => hsum z w hz hw, neg_mem' := fun {z} hz => hnegated z hz }
  have hH (x : ℕ) (hx : x < n) : (x : ZMod n) ∈ H ↔ x ∈ S := by
    have hmem : (x : ZMod n) ∈ H ↔ (x : ZMod n).val ∈ S := Iff.rfl
    rw [hmem, ZMod.val_cast_of_lt hx]
  refine ⟨H, Set.ext fun x => ⟨fun hx => (hH x hx.1).1 hx.2, fun hx => ?_⟩⟩
  exact ⟨hlt x hx, (hH x (hlt x hx)).2 hx⟩

theorem compatible_congruentModulo (H : AddSubgroup (ZMod n)) :
    A.Compatible (congruentModulo H) := by
  have hmod (x : ℕ) : x % n < n := Nat.mod_lt x (NeZero.pos n)
  refine (compatible_cyclic_iff h).2 ⟨?_, ?_⟩
  · intro x hx y hy x' hx' y' hy' hxx' hyy'
    rw [congruentModulo_iff hx hx'] at hxx'
    rw [congruentModulo_iff hy hy'] at hyy'
    rw [congruentModulo_iff (hmod _) (hmod _), cast_add_mod, cast_add_mod, add_sub_add_comm]
    exact H.add_mem hxx' hyy'
  · intro x hx x' hx' hxx'
    rw [congruentModulo_iff hx hx'] at hxx'
    rw [congruentModulo_iff (hmod _) (hmod _), cast_neg_mod hx, cast_neg_mod hx', neg_sub_neg,
      ← neg_sub]
    exact H.neg_mem hxx'

/-- The residues related to zero are those of a subgroup. -/
theorem exists_addSubgroup (hs : A.Compatible s) :
    ∃ H : AddSubgroup (ZMod n), ∀ z : ZMod n, z ∈ H ↔ s z.val 0 := by
  obtain ⟨hadd, hneg⟩ := (compatible_cyclic_iff h).1 hs
  have hpos : 0 < n := NeZero.pos n
  have hsum (z w : ZMod n) (hz : s z.val 0) (hw : s w.val 0) : s (z + w).val 0 := by
    have hzw := hadd z.val z.val_lt w.val w.val_lt 0 hpos 0 hpos hz hw
    rwa [← ZMod.val_add, Nat.add_zero, Nat.zero_mod] at hzw
  have hnegated (z : ZMod n) (hz : s z.val 0) : s (-z).val 0 := by
    have hz' := hneg z.val z.val_lt 0 hpos hz
    rwa [← ZMod.neg_val', Nat.sub_zero, Nat.mod_self] at hz'
  exact ⟨{ carrier := {z | s z.val 0}, zero_mem' := by simp,
           add_mem' := fun {z w} hz hw => hsum z w hz hw,
           neg_mem' := fun {z} hz => hnegated z hz }, fun z => Iff.rfl⟩

/-- **Every congruence is congruence modulo a subgroup.** -/
theorem exists_congruentModulo (hs : A.Compatible s) (hwithin : Algebra.Within n s) :
    ∃ H : AddSubgroup (ZMod n), congruentModulo H = s := by
  obtain ⟨H, hH⟩ := exists_addSubgroup h hs
  have hadd := ((compatible_cyclic_iff h).1 hs).1
  have hpos : 0 < n := NeZero.pos n
  refine ⟨H, (within_congruentModulo H).ext hwithin fun x hx y hy => ?_⟩
  -- adding `y` to the difference and to zero gives `x` and `y`
  have hcancel (z : ℕ) (hz : z < n) : (((z : ZMod n) - (y : ZMod n)).val + y) % n = z := by
    have hsum := ZMod.val_add ((z : ZMod n) - (y : ZMod n)) y
    rwa [sub_add_cancel, ZMod.val_cast_of_lt hz, ZMod.val_cast_of_lt hy, eq_comm] at hsum
  have hsub (z : ℕ) (hz : z < n) :
      (z + (-(y : ZMod n)).val) % n = ((z : ZMod n) - (y : ZMod n)).val := by
    rw [sub_eq_add_neg, ZMod.val_add, ZMod.val_cast_of_lt hz]
  rw [congruentModulo_iff hx hy, hH]
  constructor
  · intro hdifference
    have hsum := hadd _ (ZMod.val_lt _) y hy 0 hpos y hy hdifference (s.refl y)
    rwa [hcancel x hx, Nat.zero_add, Nat.mod_eq_of_lt hy] at hsum
  · intro hxy
    have hdifference := hadd x hx _ (ZMod.val_lt (-(y : ZMod n))) y hy _ (ZMod.val_lt _) hxy
      (s.refl _)
    rwa [hsub x hx, hsub y hy, sub_self, ZMod.val_zero] at hdifference

end Operations

end UniversalAlgebra.Catalogue
