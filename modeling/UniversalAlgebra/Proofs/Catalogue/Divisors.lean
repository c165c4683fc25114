/-
**What elements generate in a cyclic group.**

A subgroup of the residues modulo `n` consists of the multiples of a divisor of `n`.  It contains some
residues exactly if the divisor divides all of them, that is, if it divides their greatest common
divisor with `n`.  So the multiples of the latter are the least subgroup that contains the residues,
and the closures of subuniverses and of congruences, which know nothing of divisors, both end with it.

Main results:

* `exists_dvd_iff`, `mem_zmultiples_iff_dvd` — subgroups and divisors;
* `Catalogue.sg_cyclic`, `Catalogue.setoid_cg_cyclic` — the least closed set and the least congruence;
* `Catalogue.generation_cyclic` — **what the lattices of a cyclic group answer**.
-/

import Mathlib
import UniversalAlgebra.Proofs.Catalogue.Counting
import UniversalAlgebra.Proofs.Catalogue.Cyclic
import UniversalAlgebra.Proofs.CongruenceLattice.Reachable
import UniversalAlgebra.Proofs.Partition.Constructed
import UniversalAlgebra.Proofs.SubalgebraLattice.Subalgebras

set_option autoImplicit false

namespace UniversalAlgebra

/-! ### Subgroups and divisors -/

variable {n d x y : ℕ} {gens : List ℕ}

/-- What divides the greatest common divisor of a number and a list. -/
theorem dvd_foldl_gcd_iff : d ∣ gens.foldl Nat.gcd n ↔ d ∣ n ∧ ∀ g ∈ gens, d ∣ g := by
  induction gens generalizing n with
  | nil => simp
  | cons g gens ih => rw [List.foldl_cons, ih, Nat.dvd_gcd_iff, List.forall_mem_cons, and_assoc]

/-- Every subgroup of the residues consists of the multiples of a divisor. -/
theorem exists_dvd_iff [NeZero n] (H : AddSubgroup (ZMod n)) :
    ∃ d, d ∣ n ∧ ∀ x : ℕ, (x : ZMod n) ∈ H ↔ d ∣ x := by
  have hcard : Nat.card H ∣ n := by simpa using H.card_addSubgroup_dvd_card
  obtain ⟨d, hd⟩ := hcard
  refine ⟨d, Dvd.intro_left _ hd.symm, fun x => ?_⟩
  calc (x : ZMod n) ∈ H ↔ Nat.card H • (x : ZMod n) = 0 := mem_addSubgroup_zmod_iff H x
    _ ↔ ((Nat.card H * x : ℕ) : ZMod n) = 0 := by rw [nsmul_eq_mul, Nat.cast_mul]
    _ ↔ n ∣ Nat.card H * x := ZMod.natCast_eq_zero_iff _ _
    _ ↔ Nat.card H * d ∣ Nat.card H * x := by rw [← hd]
    _ ↔ d ∣ x := Nat.mul_dvd_mul_iff_left Nat.card_pos

/-- The multiples of a divisor form a subgroup. -/
theorem mem_zmultiples_iff_dvd (hd : d ∣ n) :
    (x : ZMod n) ∈ AddSubgroup.zmultiples (d : ZMod n) ↔ d ∣ x := by
  constructor
  · intro h
    obtain ⟨k, hk⟩ := AddSubgroup.mem_zmultiples_iff.1 h
    -- modulo the divisor all its multiples vanish
    have hcast := congrArg (ZMod.castHom hd (ZMod d)) hk
    rw [map_zsmul, map_natCast, map_natCast, ZMod.natCast_self, smul_zero] at hcast
    exact (ZMod.natCast_eq_zero_iff x d).1 hcast.symm
  · rintro ⟨k, rfl⟩
    refine AddSubgroup.mem_zmultiples_iff.2 ⟨k, ?_⟩
    rw [natCast_zsmul, nsmul_eq_mul, Nat.cast_mul, mul_comm]

/-- A difference of residues lies in a subgroup if its absolute value does. -/
theorem sub_mem_iff_natAbs_mem (H : AddSubgroup (ZMod n)) (x y : ℕ) :
    (x - y : ZMod n) ∈ H ↔ ((((x : ℤ) - y).natAbs : ℕ) : ZMod n) ∈ H := by
  have hcast : (x - y : ZMod n) = (((x : ℤ) - y : ℤ) : ZMod n) := by push_cast; rfl
  rw [hcast]
  obtain ⟨k, hk | hk⟩ := Int.eq_nat_or_neg ((x : ℤ) - y)
  · rw [hk, Int.natAbs_natCast, Int.cast_natCast]
  · rw [hk, Int.natAbs_neg, Int.natAbs_natCast, Int.cast_neg, Int.cast_natCast, neg_mem_iff]

namespace Catalogue

variable {A : Algebra} [NeZero n]

/-! ### Least closed sets and least congruences -/

section Operations

variable (h : A.HasOperations n (cyclicOperations n))

include h

/-- Residues generate the multiples of their greatest common divisor with the order. -/
theorem sg_cyclic (hgens : ∀ g ∈ gens, g < n) :
    A.sg {x | x ∈ gens} = {x | x < n ∧ gens.foldl Nat.gcd n ∣ x} := by
  obtain ⟨hn, hdvd⟩ := dvd_foldl_gcd_iff.1 (dvd_refl (gens.foldl Nat.gcd n))
  have hresidues : residues (AddSubgroup.zmultiples ((gens.foldl Nat.gcd n : ℕ) : ZMod n))
      = {x | x < n ∧ gens.foldl Nat.gcd n ∣ x} :=
    Set.ext fun x => and_congr_right fun _ => mem_zmultiples_iff_dvd hn
  have hlt : ∀ g ∈ {x | x ∈ gens}, g < A.size := by
    rw [h.size_eq]
    exact hgens
  refine (h.total.isLeast_sg hlt).unique ⟨⟨?_, fun g hg => ⟨hgens g hg, hdvd g hg⟩⟩, ?_⟩
  · rw [← hresidues]
    exact isSubuniverse_residues h _
  · rintro S ⟨hS, hmem⟩ x ⟨hx, hdvdx⟩
    obtain ⟨H, rfl⟩ := exists_residues h hS
    obtain ⟨d, hd, hH⟩ := exists_dvd_iff H
    have hcommon : d ∣ gens.foldl Nat.gcd n :=
      dvd_foldl_gcd_iff.2 ⟨hd, fun g hg => (hH g).1 (hmem hg).2⟩
    exact ⟨hx, (hH x).2 (hcommon.trans hdvdx)⟩

/-- Two residues generate congruence modulo the greatest common divisor of their difference and the
order. -/
theorem setoid_cg_cyclic {a b : ℕ} (ha : a < n) (hb : b < n) (hx : x < n) (hy : y < n) :
    (A.cg a b).setoid x y ↔ n.gcd ((a : ℤ) - b).natAbs ∣ ((x : ℤ) - y).natAbs := by
  have hleast := h.total.isLeastCongruence_cg (h.size_eq.symm ▸ ha) (h.size_eq.symm ▸ hb)
  have hn : n.gcd ((a : ℤ) - b).natAbs ∣ n := Nat.gcd_dvd_left _ _
  constructor
  · intro hxy
    have hrel : ∀ x' y', x' = a ∧ y' = b → congruentModulo
        (AddSubgroup.zmultiples ((n.gcd ((a : ℤ) - b).natAbs : ℕ) : ZMod n)) x' y' := by
      rintro x' y' ⟨rfl, rfl⟩
      rw [congruentModulo_iff ha hb, sub_mem_iff_natAbs_mem, mem_zmultiples_iff_dvd hn]
      exact Nat.gcd_dvd_right _ _
    have hmod := hleast.le (compatible_congruentModulo h _) hrel hxy
    rwa [congruentModulo_iff hx hy, sub_mem_iff_natAbs_mem, mem_zmultiples_iff_dvd hn] at hmod
  · intro hdvd
    obtain ⟨H, hH⟩ := exists_congruentModulo h hleast.isCongruence.compatible
      (h.size_eq ▸ Algebra.within_setoid hleast.valid hleast.size_eq)
    obtain ⟨d, hd, hmem⟩ := exists_dvd_iff H
    have hab : (A.cg a b).setoid a b := hleast.rel ⟨rfl, rfl⟩
    rw [← hH, congruentModulo_iff ha hb, sub_mem_iff_natAbs_mem, hmem] at hab
    rw [← hH, congruentModulo_iff hx hy, sub_mem_iff_natAbs_mem, hmem]
    exact (Nat.dvd_gcd hd hab).trans hdvd

end Operations

/-! ### What the lattices answer -/

omit [NeZero n]

/-- **What the lattices of a cyclic group answer**, up to order 2³¹.  Every lattice of subuniverses
answers, for residues, with the multiples of their greatest common divisor with the order, in
increasing order.  Every reachable lattice of congruences answers, for two residues, with a partition
that relates the residues whose distance is a multiple of the greatest common divisor of the order and
the distance of the two. -/
theorem generation_cyclic (hn : 1 ≤ n) (hle : n ≤ 2 ^ 31) :
    ∃ A, cyclicGroup n = .ok A ∧ A.Total ∧
      (∀ L : SubalgebraLattice, L.algebra = A → ∀ gens : List ℕ, (∀ g ∈ gens, g < n) →
        L.sg gens 0 = .ok (⟨(List.range n).filter fun x => gens.foldl Nat.gcd n ∣ x⟩, false)) ∧
      ∀ settings L, CongruenceLattice.Reachable A settings L → ∀ a < n, ∀ b < n,
        ∃ θ, (CongruenceLattice.cg a b).result L = .ok θ ∧ ∀ x < n, ∀ y < n,
          θ.isRelated x y
            = .ok (decide (n.gcd ((a : ℤ) - b).natAbs ∣ ((x : ℤ) - y).natAbs)) := by
  have : NeZero n := ⟨by omega⟩
  obtain ⟨A, hA, hops⟩ := exists_cyclicGroup hn hle
  refine ⟨A, hA, hops.total, ?_, ?_⟩
  · rintro L rfl gens hgens
    have hlt : ∀ g ∈ gens, g < L.algebra.size := hops.size_eq.symm ▸ hgens
    rw [SubalgebraLattice.sg_eq hops.total hlt]
    have hset : L.algebra.generated gens
        = ⟨(List.range n).filter fun x => gens.foldl Nat.gcd n ∣ x⟩ := by
      refine (hops.total.isSubalgebra_generated hlt).increasing.ext
        (List.pairwise_lt_range.filter _) fun x => ?_
      rw [hops.total.mem_generated hlt, sg_cyclic hops hgens]
      simp
    rw [hset]
  · intro settings L hL a ha b hb
    have ha' : a < A.size := hops.size_eq.symm ▸ ha
    have hb' : b < A.size := hops.size_eq.symm ▸ hb
    have hleast := hops.total.isLeastCongruence_cg ha' hb'
    have hsize : (A.cg a b).size = n := hleast.size_eq.trans hops.size_eq
    refine ⟨A.cg a b, (CongruenceLattice.yields_cg hops.total ha' hb').result_eq
      (hL.sound hops.total), fun x hx y hy => ?_⟩
    rw [Partition.isRelated_eq (hsize.symm ▸ hx) (hsize.symm ▸ hy)]
    refine congrArg Except.ok (Bool.eq_iff_iff.2 ?_)
    rw [Partition.related_iff, setoid_cg_cyclic hops ha hb hx hy, decide_eq_true_iff]

/-- Twelve residues: eight and six generate the even ones, and a distance of eight gives congruence
modulo four. -/
theorem generation_cyclic_twelve :
    ∃ A, cyclicGroup 12 = .ok A ∧
      (SubalgebraLattice.start A .standard).sg [8, 6] 0 = .ok (⟨[0, 2, 4, 6, 8, 10]⟩, false) ∧
      ∃ θ, (CongruenceLattice.cg 1 9).result (CongruenceLattice.start A .standard) = .ok θ ∧
        θ.isRelated 2 10 = .ok true ∧ θ.isRelated 2 4 = .ok false := by
  obtain ⟨A, hA, -, hsg, hcg⟩ := generation_cyclic (n := 12) (by decide) (by decide)
  obtain ⟨θ, hθ, hrelated⟩ := hcg .standard _ .start 1 (by decide) 9 (by decide)
  refine ⟨A, hA, hsg _ rfl [8, 6] (by decide), θ, hθ, ?_, ?_⟩
  · exact hrelated 2 (by decide) 10 (by decide)
  · exact hrelated 2 (by decide) 4 (by decide)

end Catalogue

end UniversalAlgebra
