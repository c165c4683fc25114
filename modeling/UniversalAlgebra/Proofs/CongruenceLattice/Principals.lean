/-
**Principal congruences, their first pairs, and the atoms.**

The pairs of elements are gone through in lexicographic order, and a congruence is kept with the first
pair that generates it.  The atoms are selected from the irreducible congruences, each compared with
those before it only.  That is enough, since rank grows along strict inclusion; and the irreducible
congruences determine every congruence, so that those among them that are minimal are minimal among all
congruences other than the least.

Main definitions:

* `Algebra.IsFirstPair` — the first pair that generates a congruence.

Main results:

* `Algebra.isFirstPair_of_getElem?` — the pair that is kept for a congruence is the first one;
* `Algebra.Congruence.mem_atoms` — the minimal irreducible congruences are the atoms;
* `CongruenceLattice.principals_exact` — **the principal congruences, their first pairs and the atoms**.
-/

import Mathlib
import UniversalAlgebra.Proofs.CongruenceLattice.Coherent
import UniversalAlgebra.Proofs.CongruenceLattice.Covers

set_option autoImplicit false

namespace UniversalAlgebra

/-! ### First pairs -/

/-- The first pair under which a list of pairs, each listed with its value, has a given value. -/
theorem Principals.lookup_map_eq_find? (value : ℕ × ℕ → Partition) (pairs : List (ℕ × ℕ))
    (p : Partition) :
    (pairs.map fun pair => (value pair, pair)).lookup p = pairs.find? fun pair => p == value pair := by
  induction pairs with
  | nil => rfl
  | cons pair pairs ih => rw [List.map_cons, List.lookup_cons, List.find?_cons, ih]

namespace Algebra

variable {A : Algebra} {p : Partition} {pair : ℕ × ℕ}

/-- The first pair of elements, the smaller one first, that generates a congruence. -/
structure IsFirstPair (A : Algebra) (p : Partition) (pair : ℕ × ℕ) : Prop where
  lt : pair.1 < pair.2
  lt_size : pair.2 < A.size
  generates : A.IsLeastCongruence (fun x y => x = pair.1 ∧ y = pair.2) p
  first : ∀ a b, a < b → b < A.size → A.IsLeastCongruence (fun x y => x = a ∧ y = b) p →
    toLex pair ≤ toLex (a, b)

/-- A pair of elements generates one congruence. -/
theorem Total.isLeastCongruence_iff (hA : A.Total) {a b : ℕ} (ha : a < A.size) (hb : b < A.size) :
    A.IsLeastCongruence (fun x y => x = a ∧ y = b) p ↔ p = A.cg a b := by
  constructor
  · exact fun h => h.eq (hA.isLeastCongruence_cg ha hb)
  · rintro rfl
    exact hA.isLeastCongruence_cg ha hb

theorem getElem?_pairs (A : Algebra) (p : Partition) :
    A.principals.pairs[p]? = (increasingPairs A.size).find? fun pair => p == A.cg pair.1 pair.2 :=
  (Principals.getElem?_firstPairs A.principalEntries p).trans
    (Principals.lookup_map_eq_find? (fun pair => A.cg pair.1 pair.2) _ p)

/-- **The pair that is kept for a congruence is the first one.** -/
theorem isFirstPair_of_getElem? (hA : A.Total) (h : A.principals.pairs[p]? = some pair) :
    A.IsFirstPair p pair := by
  rw [getElem?_pairs] at h
  obtain ⟨hlt, hsize⟩ := mem_increasingPairs.1 (List.mem_of_find?_eq_some h)
  obtain ⟨hpair, -⟩ := List.find?_eq_some_iff_append.1 h
  have hgenerates := (hA.isLeastCongruence_iff (hlt.trans hsize) hsize).2 (eq_of_beq hpair)
  refine ⟨hlt, hsize, hgenerates, fun a b hab hb hcg => ?_⟩
  have hmem : (a, b) ∈ increasingPairs A.size := mem_increasingPairs.2 ⟨hab, hb⟩
  have heq : (p == A.cg a b) = true :=
    beq_iff_eq.2 ((hA.isLeastCongruence_iff (hab.trans hb) hb).1 hcg)
  rcases eq_or_rel_of_find? (pairwise_increasingPairs A.size) h hmem heq with heq | hlater
  · exact heq ▸ le_refl _
  · exact hlater.le

/-- For what is not generated by two distinct elements no pair is kept. -/
theorem getElem?_pairs_eq_none (hA : A.Total) (hp : p ∉ A.principals.elements) :
    A.principals.pairs[p]? = none := by
  cases hpair : A.principals.pairs[p]? with
  | none => rfl
  | some pair =>
      have h := isFirstPair_of_getElem? hA hpair
      have ha : pair.1 < A.size := h.lt.trans h.lt_size
      exact absurd ((mem_principals hA).2 ⟨pair.1, pair.2, ha, h.lt_size, h.lt.ne,
        (hA.isLeastCongruence_iff ha h.lt_size).1 h.generates⟩) hp

/-! ### Atoms -/

namespace Congruence

variable {γ : A.Congruence}

/-- **The minimal irreducible congruences are the atoms.** -/
theorem mem_atoms (hA : A.Total) : γ.partition ∈ A.atoms ↔ IsAtom γ := by
  obtain ⟨γs, hγs⟩ := exists_map_partition fun p hp => isCongruence_of_mem_irreducibles hA hp
  have hmem (δ : A.Congruence) : δ ∈ γs ↔ δ.partition ∈ A.irreducibles.map (·.1) := by
    rw [← hγs, List.mem_map_of_injective partition_injective]
  have hsorted : γs.Pairwise fun γ δ => ¬ δ < γ := by
    have hlt := pairwise_irreducibles hA
    rw [← hγs, List.pairwise_map] at hlt
    exact hlt.imp fun hγδ hδγ => lt_asymm ((Partition.orderedBy_rankLess _ _).1 hγδ) (rankKey_lt hδγ)
  have hbot : (⊥ : A.Congruence) ∉ {δ : A.Congruence | δ.partition ∈ A.irreducibles.map (·.1)} := by
    intro h
    obtain ⟨lower, hlower⟩ := (mem_irreducibles_iff hA).1 h
    exact not_lt_bot ((hlower lower).2 rfl).lt
  rw [atoms, ← hγs, mem_selectMinimal hsorted, ← (generates_irreducibles hA).minimal_iff_isAtom hbot]
  simp only [hmem, Set.mem_ofPred_eq]

end Congruence

/-- The atoms are listed strictly in rank order. -/
theorem pairwise_atoms (hA : A.Total) : A.atoms.Pairwise fun p q => p.rankLess q = true :=
  (Congruence.pairwise_irreducibles hA).sublist (sublist_selectMinimal _)

end Algebra

namespace CongruenceLattice

open Query

variable {A : Algebra} {settings : Settings} {L : CongruenceLattice}

/-- Other partitions of the right size are refused. -/
theorem yields_generatingPair_error (hA : A.Total) {p : Partition} (hsize : p.size = A.size)
    (hp : p ∉ A.principals.elements) :
    Yields (Sound A settings) (generatingPair p) (.error (.notPrincipal p.blocks)) := by
  refine Yields.get_bind fun L hL => ?_
  rw [checkPartition, hL.algebra_eq, if_pos hsize]
  refine Yields.bind (Yields.lift (.ok ())) (Yields.bind (yields_principalData hA) ?_)
  rw [Algebra.getElem?_pairs_eq_none hA hp]
  exact Yields.throw _

/-- **The principal congruences, their first pairs and the atoms.**  In every reachable lattice the
congruences generated by two distinct elements are listed, strictly in rank order.  Each of them has an
answer for a generating pair, the first one in lexicographic order, and every other partition of the
size of the algebra is refused with a structural fault.  The atoms are listed, strictly in rank order
as well. -/
theorem principals_exact (hA : A.Total) (hL : Reachable A settings L) :
    ∃ principal atoms, principalList.result L = .ok principal ∧ atomList.result L = .ok atoms ∧
      (principal.Pairwise fun p q => p.rankLess q = true) ∧
      (∀ p, p ∈ principal ↔ ∃ a b, a < A.size ∧ b < A.size ∧ a ≠ b ∧
        A.IsLeastCongruence (fun x y => x = a ∧ y = b) p) ∧
      (∀ p ∈ principal, ∃ pair, (generatingPair p).result L = .ok pair ∧ A.IsFirstPair p pair) ∧
      (∀ p : Partition, p.size = A.size → p ∉ principal →
        ∃ fault : Fault, fault.kind = .structural ∧ (generatingPair p).result L = .error fault) ∧
      (atoms.Pairwise fun p q => p.rankLess q = true) ∧
      ∀ p, p ∈ atoms ↔ ∃ γ : A.Congruence, γ.partition = p ∧ IsAtom γ := by
  have hsound := hL.sound hA
  refine ⟨_, _, (yields_principalList hA).result_eq hsound, (yields_atomList hA).result_eq
    (hL.coherent hA), Algebra.pairwise_principals hA, fun p => ?_, fun p hp => ?_,
    fun p hsize hp => ?_, Algebra.pairwise_atoms hA, fun p => ?_⟩
  · rw [Algebra.mem_principals hA]
    constructor
    · rintro ⟨a, b, ha, hb, hne, rfl⟩
      exact ⟨a, b, ha, hb, hne, hA.isLeastCongruence_cg ha hb⟩
    · rintro ⟨a, b, ha, hb, hne, hp⟩
      exact ⟨a, b, ha, hb, hne, (hA.isLeastCongruence_iff ha hb).1 hp⟩
  · obtain ⟨a, b, -, -, hpair, -⟩ := Algebra.exists_principalPair hp
    have hsize := (Algebra.isCongruence_of_mem_principals hA hp).size_eq
    exact ⟨(a, b), (yields_generatingPair hA hsize hpair).result_eq hsound,
      Algebra.isFirstPair_of_getElem? hA hpair⟩
  · exact ⟨.notPrincipal p.blocks, rfl, (yields_generatingPair_error hA hsize hp).result_eq hsound⟩
  · constructor
    · intro hp
      have hmem := (sublist_selectMinimal _).mem hp
      obtain ⟨γ, rfl⟩ : ∃ γ : A.Congruence, γ.partition = p :=
        ⟨⟨p, Algebra.isCongruence_of_mem_irreducibles hA hmem⟩, rfl⟩
      exact ⟨γ, rfl, (Algebra.Congruence.mem_atoms hA).1 hp⟩
    · rintro ⟨γ, rfl, hγ⟩
      exact (Algebra.Congruence.mem_atoms hA).2 hγ

/-- In the residues modulo four zero and two are the first pair that generates the parity, which is an
atom.  The least congruence is not generated by two distinct elements, and refused as such. -/
theorem generatingPair_residuesModFour :
    (generatingPair ⟨#[0, 1, 0, 1], 2⟩).result
        ((congruences 1).after (start Algebra.residuesModFour .standard)) = .ok (0, 2) ∧
      (∃ fault : Fault, fault.kind = .structural ∧ (generatingPair (Partition.finest 4)).result
        ((congruences 1).after (start Algebra.residuesModFour .standard)) = .error fault) ∧
      ∃ atoms, atomList.result ((congruences 1).after (start Algebra.residuesModFour .standard))
        = .ok atoms ∧ ⟨#[0, 1, 0, 1], 2⟩ ∈ atoms := by
  have h0 : 0 < Algebra.residuesModFour.size := by decide
  have h1 : 1 < Algebra.residuesModFour.size := by decide
  have h2 : 2 < Algebra.residuesModFour.size := by decide
  have hparity := Algebra.Congruence.cg_zero_two_residuesModFour
  have hleast : Algebra.residuesModFour.IsLeastCongruence (fun x y => x = 0 ∧ y = 2)
      ⟨#[0, 1, 0, 1], 2⟩ := hparity ▸ Algebra.total_residuesModFour.isLeastCongruence_cg h0 h2
  obtain ⟨principal, atoms, -, hatoms, -, hmem, hpairs, hother, -, hatom⟩ :=
    principals_exact Algebra.total_residuesModFour (.query (.congruences 1) .start)
  refine ⟨?_, hother _ rfl fun hfinest => ?_, atoms, hatoms, ?_⟩
  · obtain ⟨⟨a, b⟩, hpair, hfirst⟩ := hpairs _ ((hmem _).2 ⟨0, 2, h0, h2, by decide, hleast⟩)
    have hab : a < b := hfirst.lt
    obtain ⟨rfl, hb⟩ : a = 0 ∧ b ≤ 2 := by
      rcases Prod.Lex.toLex_le_toLex.1 (hfirst.first 0 2 (by decide) h2 hleast) with h | h
      · exact absurd h (Nat.not_lt_zero a)
      · exact h
    have hne : b ≠ 1 := by
      rintro rfl
      have hone : Algebra.residuesModFour.cg 0 1 = Partition.coarsest 4 := by
        rw [Algebra.cg]
        cbv
      have heq := (Algebra.total_residuesModFour.isLeastCongruence_iff h0 h1).1 hfirst.generates
      rw [hone] at heq
      cases heq
    obtain rfl : b = 2 := by omega
    exact hpair
  · obtain ⟨a, b, -, -, hne, hleast⟩ := (hmem _).1 hfinest
    have hrel := hleast.rel ⟨rfl, rfl⟩
    rw [Partition.setoid_finest] at hrel
    exact hne hrel
  · have hcovers := Algebra.Congruence.parity_covBy_iff_residuesModFour h0 h2
    exact (hatom _).2 ⟨_, hparity, bot_covBy_iff.1 ((hcovers ⊥).2 rfl)⟩

end CongruenceLattice

end UniversalAlgebra
