/-
**Chains of pairs of a tolerance.**

A tolerance need not be transitive.  The ends of a chain of its pairs are related by any equivalence
relation that contains it, and being linked by a chain is an equivalence relation itself, so the least
one.  Whichever argument of an operation is varied, a pair is moved to a pair, hence being linked is
compatible with the operations.  So closing a pair under all operations in the square of the algebra
and following chains leads to the congruence that comes of merging blocks and varying one argument at
a time.

Main definitions:

* `Algebra.IsTolerance.linked` — the equivalence relation of being linked by a chain.

Main results:

* `Algebra.IsTolerance.isLeast_linked` — it is the least equivalence relation around the tolerance;
* `Algebra.IsTolerance.compatible_linked` — it is compatible with the operations;
* `Algebra.Total.setoid_eq_linked` — what the least tolerance around a pair links is what the least
  congruence around the pair relates;
* `CongruenceLattice.tolerance_generates_cg` — **the congruence of a pair is the least equivalence
  relation around its tolerance**.
-/

import Mathlib
import UniversalAlgebra.Proofs.CongruenceLattice.Coherent
import UniversalAlgebra.Proofs.CongruenceLattice.Tolerance

set_option autoImplicit false

namespace UniversalAlgebra

namespace Algebra

variable {A : Algebra} {R : ℕ → ℕ → Prop} {s : Setoid ℕ} {θ : Partition} {a b : ℕ}

namespace IsTolerance

/-! ### Chains of pairs -/

theorem reflTransGen_symm (hR : A.IsTolerance R) {x y : ℕ} (h : Relation.ReflTransGen R x y) :
    Relation.ReflTransGen R y x := by
  have : Std.Symm R := ⟨hR.symm⟩
  exact Std.Symm.symm x y h

/-- Elements are equivalent if a chain of pairs of the tolerance leads from one to the other. -/
def linked (hR : A.IsTolerance R) : Setoid ℕ where
  r := Relation.ReflTransGen R
  iseqv := ⟨fun _ => .refl, hR.reflTransGen_symm, .trans⟩

theorem linked_iff (hR : A.IsTolerance R) {x y : ℕ} :
    hR.linked x y ↔ Relation.ReflTransGen R x y := Iff.rfl

/-- An equivalence relation that contains the tolerance relates the ends of every chain. -/
theorem isLeast_linked (hR : A.IsTolerance R) :
    IsLeast {t : Setoid ℕ | ∀ x y, R x y → t x y} hR.linked := by
  refine ⟨fun x y hxy => .single hxy, ?_⟩
  intro t ht x y hxy
  rw [hR.linked_iff] at hxy
  induction hxy with
  | refl => exact t.refl x
  | tail _ hpair ih => exact t.trans ih (ht _ _ hpair)

/-- Whichever argument is varied, a pair is moved to a pair. -/
theorem translate (hR : A.IsTolerance R) {op : Operation} (hop : op ∈ A.operations)
    {before after : List ℕ} {x y : ℕ} (hlen : (before ++ x :: after).length = op.arity)
    (hlt : ∀ z ∈ before ++ x :: after, z < A.size) (hxy : R x y) :
    R (op.value (before ++ x :: after)) (op.value (before ++ y :: after)) := by
  have hbefore : List.Forall₂ R before before :=
    List.forall₂_same.2 fun z hz => hR.refl z (hlt z (List.mem_append_left _ hz))
  have hafter : List.Forall₂ R after after :=
    List.forall₂_same.2 fun z hz => hR.refl z (hlt z (by simp [hz]))
  exact hR.compatible op hop _ _ hlen (List.rel_append hbefore (.cons hxy hafter))

/-- **Being linked is compatible with the operations.** -/
theorem compatible_linked (hR : A.IsTolerance R) : A.Compatible hR.linked := by
  refine compatible_of_translations hR.lt hR.isLeast_linked ?_
  intro op hop before after x y hxy hlen hlt
  exact .single (hR.translate hop hlen hlt hxy)

end IsTolerance

/-! ### Congruences as tolerances -/

/-- A compatible equivalence relation, restricted to the universe, is a tolerance. -/
theorem Compatible.isTolerance (hA : A.Total) (hs : A.Compatible s) :
    A.IsTolerance fun x y => x < A.size ∧ y < A.size ∧ s x y := by
  refine ⟨fun x y h => ⟨h.1, h.2.1⟩, fun x hx => ⟨hx, hx, s.refl x⟩,
    fun x y h => ⟨h.2.1, h.1, s.symm h.2.2⟩, ?_⟩
  intro op hop xs ys hlen hrel
  obtain ⟨hxs, hrest⟩ := (List.forall₂_and_left xs ys).1 hrel
  obtain ⟨hys, hflip⟩ := (List.forall₂_and_left ys xs).1 hrest.flip
  have hlen' : ys.length = op.arity := hrel.length_eq.symm.trans hlen
  exact ⟨hA.value_lt hop hlen hxs, hA.value_lt hop hlen' hys,
    hs op hop xs ys hlen hxs hys hflip.flip⟩

/-- What the least tolerance around a pair links is what the least congruence around it relates. -/
theorem Total.setoid_eq_linked (hA : A.Total) (ha : a < A.size) (hb : b < A.size)
    (hR : IsLeast {R | A.IsTolerance R ∧ R a b} R)
    (hθ : A.IsLeastCongruence (fun x y => x = a ∧ y = b) θ) : θ.setoid = hR.1.1.linked := by
  refine le_antisymm (hθ.le hR.1.1.compatible_linked ?_) (hR.1.1.isLeast_linked.2 ?_)
  · rintro x y ⟨rfl, rfl⟩
    exact .single hR.1.2
  · intro x y hxy
    have hcontained := hR.2 ⟨hθ.isCongruence.compatible.isTolerance hA, ha, hb, hθ.rel ⟨rfl, rfl⟩⟩
    exact (hcontained x y hxy).2.2

/-- The chain of three elements with meets. -/
def meetsOfThree : Algebra :=
  ⟨"SL3", 3, [⟨"meet", 2, 3, .table #[0, 0, 0, 0, 1, 1, 0, 1, 2]⟩], []⟩

theorem total_meetsOfThree : meetsOfThree.Total := by
  have hbuild : build "SL3" 3 meetsOfThree.operations = .ok meetsOfThree := by cbv
  refine total_of_build hbuild ?_
  intro op hop
  obtain rfl := List.mem_singleton.1 hop
  have hmeet : Operation.ofTable "meet" 2 3 #[0, 0, 0, 0, 1, 1, 0, 1, 2] =
      .ok ⟨"meet", 2, 3, .table #[0, 0, 0, 0, 1, 1, 0, 1, 2]⟩ := by cbv
  exact Operation.total_of_ofTable hmeet

end Algebra

/-! ### The congruence and the tolerance of a pair -/

namespace CongruenceLattice

open Query

variable {A : Algebra} {settings : Settings} {L : CongruenceLattice} {a b : ℕ}

/-- Merging the pairs of a relation on the universe one after the other leads to the partition of the
least equivalence relation that contains them. -/
theorem seed_pairs_eq (hA : L.algebra.Total) {r : Relation} (hsize : r.size = L.algebra.size)
    (hlt : ∀ x y, r.has x y = true → x < r.size ∧ y < r.size) {θ : Partition} (hθ : θ.Valid)
    (hθsize : θ.size = L.algebra.size)
    (hleast : IsLeast {t : Setoid ℕ | ∀ x y, r.has x y = true → t x y} θ.setoid) :
    L.seed r.pairs = .ok θ := by
  have hpairs (x y : ℕ) : (x, y) ∈ r.pairs ↔ r.has x y = true := by
    rw [Relation.mem_pairs]
    exact ⟨And.right, fun h => ⟨(hlt x y h).1, h⟩⟩
  have hrange : ∀ p ∈ r.pairs, p.1 < L.algebra.size ∧ p.2 < L.algebra.size := fun p hp =>
    hsize ▸ hlt p.1 p.2 ((hpairs p.1 p.2).1 hp)
  obtain ⟨seed, heq, hvalid, hseed, hseedleast⟩ := seed_eq hA hrange
  simp only [hpairs] at hseedleast
  rw [heq, hvalid.ext hθ (hseed.trans hθsize.symm) (hseedleast.unique hleast)]

/-- **The congruence of a pair is the least equivalence relation around its tolerance.**  Elements are in
one block of it exactly if a chain of pairs of the tolerance leads from one to the other, and merging
all pairs of the tolerance gives this very partition.  Both are found in every reachable lattice,
whatever was asked before. -/
theorem tolerance_generates_cg (hA : A.Total) (hL : Reachable A settings L) (ha : a < A.size)
    (hb : b < A.size) :
    ∃ r θ, L.tolerance a b = .ok r ∧ (cg a b).result L = .ok θ ∧
      IsLeast {t : Setoid ℕ | ∀ x y, r.has x y = true → t x y} θ.setoid ∧
      (∀ x y, θ.related x y = true ↔ Relation.ReflTransGen (fun x y => r.has x y = true) x y) ∧
      L.seed r.pairs = .ok θ := by
  have hcoherent := hL.coherent hA
  have hcg := (yields_cg_coherent hA ha hb).result_eq hcoherent
  obtain rfl := hcoherent.1.algebra_eq
  obtain ⟨r, hr, -, hsize, hhas⟩ := tolerance_eq hA ha hb
  have hleast := hA.isLeast_isTolerance ha hb
  simp only [← hhas] at hleast
  have hθ := hA.isLeastCongruence_cg ha hb
  have hlinked := hA.setoid_eq_linked ha hb hleast hθ
  have hθleast : IsLeast {t : Setoid ℕ | ∀ x y, r.has x y = true → t x y}
      (L.algebra.cg a b).setoid := hlinked ▸ hleast.1.1.isLeast_linked
  refine ⟨r, L.algebra.cg a b, hr, hcg, hθleast, ?_, ?_⟩
  · intro x y
    rw [Partition.related_iff, hlinked, hleast.1.1.linked_iff]
  · exact seed_pairs_eq hA hsize (hsize ▸ hleast.1.1.lt) hθ.valid hθ.size_eq hθleast

/-- In the chain of three elements with meets the tolerance of the two ends does not have the pair of
the middle one and the last, which a chain through the first one links: the congruence of the two ends
is the greatest. -/
theorem ends_generate_meetsOfThree :
    ((start Algebra.meetsOfThree .standard).tolerance 0 2).map Relation.pairs
        = .ok [(0, 0), (0, 1), (0, 2), (1, 0), (1, 1), (2, 0), (2, 2)] ∧
      (cg 0 2).result (start Algebra.meetsOfThree .standard) = .ok (Partition.coarsest 3) := by
  obtain ⟨r, θ, hr, hcg, -, -, hseed⟩ := tolerance_generates_cg Algebra.total_meetsOfThree
    (@Reachable.start Algebra.meetsOfThree .standard) (a := 0) (b := 2) (by decide) (by decide)
  have hpairs : ((start Algebra.meetsOfThree .standard).tolerance 0 2).map Relation.pairs
      = .ok [(0, 0), (0, 1), (0, 2), (1, 0), (1, 1), (2, 0), (2, 2)] := by cbv
  have hr' : r.pairs = [(0, 0), (0, 1), (0, 2), (1, 0), (1, 1), (2, 0), (2, 2)] := by
    rw [hr] at hpairs
    exact Except.ok.inj hpairs
  have hrun : (start Algebra.meetsOfThree .standard).seed
      [(0, 0), (0, 1), (0, 2), (1, 0), (1, 1), (2, 0), (2, 2)] = .ok (Partition.coarsest 3) := by cbv
  rw [hr', hrun] at hseed
  obtain rfl := Except.ok.inj hseed
  exact ⟨hpairs, hcg⟩

end CongruenceLattice

end UniversalAlgebra
