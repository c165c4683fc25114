/-
**Equivalence relations and partitions.**

The relation of a partition holds the pairs of related elements, and an equivalence relation is turned
into a partition by merging along its pairs.  The test for an equivalence relation is made on rows of
bits: the relation is compared with its converse, and its composition with itself is compared with it.
The two ways of holding an equivalence relation describe the same objects: each way round leads back to
the start, and one partition refines another exactly if its relation is contained in that of the other.

Main definitions:

* `Relation.IsEquivalenceOn` — the pairs of an equivalence relation on `[0, n)`.

Main results:

* `Relation.ValidOn.isEquivalence_iff` — what the test says;
* `Relation.ValidOn.exists_toPartition` — **the partition of an equivalence relation**;
* `Relation.isEquivalenceOn_ofPartition`, `Relation.le_ofPartition` — the relation of a partition;
* `Relation.partitions_exact` — **partitions and equivalence relations are the same**.
-/

import UniversalAlgebra.Proofs.Partition.Lattice
import UniversalAlgebra.Proofs.Relation.Operations

set_option autoImplicit false

namespace UniversalAlgebra.Relation

open Fallible

variable {r : Relation} {p q : Partition} {n m i j : ℕ}

/-! ### The test -/

/-- The pairs of an equivalence relation on `[0, n)`. -/
structure IsEquivalenceOn (n : ℕ) (R : SetRel ℕ ℕ) : Prop where
  refl : ∀ i < n, (i, i) ∈ R
  symm : ∀ i j, (i, j) ∈ R → (j, i) ∈ R
  trans : ∀ i j k, (i, j) ∈ R → (j, k) ∈ R → (i, k) ∈ R

/-- A relation is found to be transitive if it contains its composition with itself. -/
theorem ValidOn.isTransitive_iff (hr : r.ValidOn n) : r.isTransitive = true ↔
    ∀ i j k, (i, j) ∈ r.members → (j, k) ∈ r.members → (i, k) ∈ r.members := by
  obtain ⟨hcomp, hmembers⟩ := hr.comp hr
  have hsubset : r.isTransitive = true ↔ (r.comp r).le r = .ok true := by
    rw [le_eq (hcomp.size_eq_size hr), Except.ok.injEq, isTransitive]
  rw [hsubset, hcomp.le_iff_subset hr, hmembers]
  constructor
  · exact fun h i j k hij hjk => h ⟨j, hij, hjk⟩
  · rintro h ⟨i, k⟩ ⟨j, hij, hjk⟩
    exact h i j k hij hjk

/-- **The test for an equivalence relation.** -/
theorem ValidOn.isEquivalence_iff (hr : r.ValidOn n) :
    r.isEquivalence = true ↔ IsEquivalenceOn n r.members := by
  have htolerance : (r.isReflexive && r.isSymmetric) = true ↔ (∀ i < n, (i, i) ∈ r.members) ∧
      ∀ i j, (i, j) ∈ r.members → (j, i) ∈ r.members := by
    simp only [hr.1.mem_members]
    exact hr.2 ▸ hr.1.isTolerance_iff
  rw [isEquivalence, Bool.and_eq_true, htolerance, hr.isTransitive_iff]
  exact ⟨fun h => ⟨h.1.1, h.1.2, h.2⟩, fun h => ⟨⟨h.refl, h.symm⟩, h.trans⟩⟩

/-! ### From relations to partitions -/

/-- Merging along a list of pairs of elements makes a partition. -/
theorem constructed_foldl_relate {ps : List (ℕ × ℕ)} (hp : Partition.Constructed n p)
    (hps : ∀ q ∈ ps, q.1 < n ∧ q.2 < n) :
    Partition.Constructed n (ps.foldl (fun p q => p.relate q.1 q.2) p) := by
  induction ps generalizing p with
  | nil => exact hp
  | cons q ps ih =>
      obtain ⟨⟨hi, hj⟩, hps⟩ := List.forall_mem_cons.1 hps
      have hvalid := hp.validOn
      have hrelate : (Partition.ensureRelatedInPlace q.1 q.2).after p = p.relate q.1 q.2 := by
        rw [Partition.ensureRelatedInPlace_eq, Query.after, Query.atOnce_of_ok
          (hvalid.1.ensureRelated_eq (hvalid.2.symm ▸ hi) (hvalid.2.symm ▸ hj))]
      have hq : Partition.Constructed n (p.relate q.1 q.2) := hrelate ▸ .ensureRelated q.1 q.2 hp
      exact ih hq hps

theorem toPartition_eq (h : r.isEquivalence = true) : r.toPartition
    = .ok (r.pairs.foldl (fun p q => p.relate q.1 q.2) (Partition.finest r.size)) := by
  rw [toPartition, if_pos h, pairs, List.foldl_flatMap]
  simp only [List.foldl_map]

/-- An equivalence relation on `[0, n)`, in which everything else is related to itself only. -/
def IsEquivalenceOn.setoid {R : SetRel ℕ ℕ} (h : IsEquivalenceOn n R) : Setoid ℕ where
  r i j := i = j ∨ (i, j) ∈ R
  iseqv := by
    refine ⟨fun i => Or.inl rfl, ?_, ?_⟩
    · rintro i j (rfl | hij)
      · exact Or.inl rfl
      · exact Or.inr (h.symm i j hij)
    · rintro i j k (rfl | hij) (rfl | hjk)
      · exact Or.inl rfl
      · exact Or.inr hjk
      · exact Or.inr hij
      · exact Or.inr (h.trans i j k hij hjk)

/-- **The partition of an equivalence relation** relates the pairs of the relation and no others. -/
theorem ValidOn.exists_toPartition (hr : r.ValidOn n) (h : IsEquivalenceOn n r.members) :
    ∃ p, r.toPartition = .ok p ∧ Partition.Constructed n p ∧ p.setoid = h.setoid := by
  have hlt : ∀ q ∈ r.pairs, q.1 < n ∧ q.2 < n := fun q hq =>
    hr.lt_of_mem (hr.1.mem_members.2 (mem_pairs.1 hq).2)
  have hlt' : ∀ q ∈ r.pairs, q.1 < (Partition.finest n).size ∧ q.2 < (Partition.finest n).size := by
    rwa [Partition.size_finest]
  obtain ⟨⟨-, hrelated⟩, hleast⟩ := (Partition.valid_finest n).isLeast_foldl_relate hlt'
  refine ⟨_, toPartition_eq (hr.isEquivalence_iff.2 h), hr.2.symm ▸
    constructed_foldl_relate (.finest (n := n)) hlt, le_antisymm ?_ ?_⟩
  · rw [hr.2]
    refine hleast ⟨?_, fun q hq => ?_⟩
    · rw [Partition.setoid_finest]
      exact bot_le
    · exact Or.inr (hr.1.mem_members.2 (mem_pairs.1 hq).2)
  · rintro i j (rfl | hij)
    · exact Setoid.refl' _ i
    · rw [hr.2]
      refine hrelated (i, j) (mem_pairs.2 ?_)
      rw [hr.1.mem_members] at hij
      exact ⟨hr.1.left_lt hij, hij⟩

/-! ### From partitions to relations -/

theorem mem_members_ofPartition (hp : p.ValidOn n) :
    (i, j) ∈ (ofPartition p).members ↔ i < n ∧ j < n ∧ p.setoid i j := by
  obtain ⟨hp, rfl⟩ := hp
  rw [members_ofPartition ⟨hp, rfl⟩, Set.mem_ofPred_eq, Partition.isRelated_eq_ok_true]
  rfl

theorem isEquivalenceOn_ofPartition (hp : p.ValidOn n) :
    IsEquivalenceOn n (ofPartition p).members := by
  refine ⟨fun i hi => ?_, fun i j hij => ?_, fun i j k hij hjk => ?_⟩
  · exact (mem_members_ofPartition hp).2 ⟨hi, hi, p.setoid.refl i⟩
  · obtain ⟨hi, hj, hij⟩ := (mem_members_ofPartition hp).1 hij
    exact (mem_members_ofPartition hp).2 ⟨hj, hi, p.setoid.symm hij⟩
  · obtain ⟨hi, -, hij⟩ := (mem_members_ofPartition hp).1 hij
    obtain ⟨-, hk, hjk⟩ := (mem_members_ofPartition hp).1 hjk
    exact (mem_members_ofPartition hp).2 ⟨hi, hk, p.setoid.trans hij hjk⟩

/-- The relation of the partition of a relation. -/
theorem ValidOn.ofPartition_eq (hr : r.ValidOn n) (h : IsEquivalenceOn n r.members)
    (hp : p.ValidOn n) (hsetoid : p.setoid = h.setoid) : ofPartition p = r := by
  refine (validOn_ofPartition hp).ext hr ?_
  ext ⟨i, j⟩
  rw [mem_members_ofPartition hp, hsetoid]
  constructor
  · rintro ⟨hi, -, rfl | hij⟩
    · exact h.refl i hi
    · exact hij
  · exact fun hij => ⟨(hr.lt_of_mem hij).1, (hr.lt_of_mem hij).2, Or.inr hij⟩

/-- The partition of the relation of a partition. -/
theorem toPartition_ofPartition (hp : p.ValidOn n) : (ofPartition p).toPartition = .ok p := by
  have hequiv := isEquivalenceOn_ofPartition hp
  obtain ⟨q, hq, hmade, hsetoid⟩ := (validOn_ofPartition hp).exists_toPartition hequiv
  have hsize : q.size = p.size := hmade.validOn.2.trans hp.2.symm
  have heq : q = p := by
    refine hmade.validOn.1.ext hp.1 hsize ?_
    ext i j
    rw [hsetoid]
    constructor
    · rintro (rfl | hij)
      · exact p.setoid.refl i
      · exact ((mem_members_ofPartition hp).1 hij).2.2
    · intro hij
      by_cases hne : i = j
      · exact Or.inl hne
      · have hi := hp.1.lt_of_setoid hij hne
        have hj := hp.1.setoid_lt hij hi
        exact Or.inr ((mem_members_ofPartition hp).2 ⟨hp.2 ▸ hi, hp.2 ▸ hj, hij⟩)
  rw [hq, heq]

/-- **Refinement of partitions is inclusion of their relations**, also in what it refuses. -/
theorem le_ofPartition (hp : Partition.Constructed n p) (hq : Partition.Constructed m q) :
    (ofPartition p).le (ofPartition q) = p.le q := by
  by_cases hsize : p.size = q.size
  · obtain rfl : n = m := by rw [← hp.validOn.2, hsize, hq.validOn.2]
    have hle : p.le q = .ok (p.refines q) := Partition.On.le_eq ⟨p, hp⟩ ⟨q, hq⟩
    have hle' : (ofPartition p).le (ofPartition q) = .ok ((ofPartition p).subset (ofPartition q)) :=
      le_eq hsize
    have hiff : (ofPartition p).le (ofPartition q) = .ok true ↔ p.le q = .ok true := by
      rw [(validOn_ofPartition hp.validOn).le_iff_subset (validOn_ofPartition hq.validOn),
        members_ofPartition hp.validOn, members_ofPartition hq.validOn, Set.ofPred_subset_ofPred,
        Prod.forall]
      exact ((Partition.On.le_eq_ok_true ⟨p, hp⟩ ⟨q, hq⟩).trans
        (Partition.On.le_iff_isRelated ⟨p, hp⟩ ⟨q, hq⟩)).symm
    rw [hle, hle', Except.ok.injEq, Except.ok.injEq] at hiff
    rw [hle, hle', Bool.eq_iff_iff.2 hiff]
  · rw [(Partition.operations_of_size_ne hsize).1,
      (operations_of_size_ne (r := ofPartition p) (s := ofPartition q) hsize).2.2.2]
    rfl

/-- **Partitions and equivalence relations are the same.**  A relation on `[0, n)` that was made in any way
has a partition exactly if its pairs are those of an equivalence relation, and is refused for its
structure otherwise.  The relation of this partition is the relation itself; the partition of the relation
of a partition is the partition itself; and partitions are compared as their relations are. -/
theorem partitions_exact (n : ℕ) :
    (∀ r, Constructed n r →
      ((∃ fault, fault.kind = .structural ∧ r.toPartition = .error fault) ↔
        ¬ IsEquivalenceOn n r.members) ∧
      (IsEquivalenceOn n r.members →
        ∃ p, r.toPartition = .ok p ∧ Partition.Constructed n p ∧ ofPartition p = r)) ∧
    (∀ p, Partition.Constructed n p → (ofPartition p).toPartition = .ok p) ∧
    ∀ p q m, Partition.Constructed n p → Partition.Constructed m q →
      (ofPartition p).le (ofPartition q) = p.le q := by
  refine ⟨fun r hr => ?_, fun p hp => toPartition_ofPartition hp.validOn,
    fun p q m hp hq => le_ofPartition hp hq⟩
  have hr := hr.validOn
  have hmade (h : IsEquivalenceOn n r.members) :
      ∃ p, r.toPartition = .ok p ∧ Partition.Constructed n p ∧ ofPartition p = r := by
    obtain ⟨p, hp, hmade, hsetoid⟩ := hr.exists_toPartition h
    exact ⟨p, hp, hmade, hr.ofPartition_eq h hmade.validOn hsetoid⟩
  refine ⟨⟨?_, fun h => ⟨.notAnEquivalence r.pairs, rfl, ?_⟩⟩, hmade⟩
  · rintro ⟨fault, -, hfault⟩ h
    obtain ⟨p, hp, -⟩ := hmade h
    rw [hp] at hfault
    cases hfault
  · rw [toPartition, if_neg (fun hr' => h (hr.isEquivalence_iff.1 hr'))]

/-- On 65 elements, whose rows take two words: the relation with all pairs is the one of a partition, that
of the partition in which 0 and 64 are merged leads back to it, and the relation without pairs is refused
because it is not reflexive. -/
theorem toPartition_of_two_words :
    (∃ p, (universal 65).toPartition = .ok p ∧ ofPartition p = universal 65) ∧
    (∃ p, (Partition.finest 65).ensureRelated 0 64 = .ok (true, p) ∧
      (ofPartition p).toPartition = .ok p ∧
      (ofPartition p).le (ofPartition (Partition.finest 65)) = p.le (Partition.finest 65)) ∧
    ∃ fault, fault.kind = .structural ∧ (empty 65).toPartition = .error fault := by
  obtain ⟨hrelations, hpartitions, hle⟩ := partitions_exact 65
  obtain ⟨-, huniversal⟩ := hrelations _ .universal
  obtain ⟨hempty, -⟩ := hrelations _ .empty
  have hall : IsEquivalenceOn 65 (universal 65).members := by
    rw [members_universal]
    exact ⟨fun i hi => ⟨hi, hi⟩, fun i j h => ⟨h.2, h.1⟩, fun i j k h h' => ⟨h.1, h'.2⟩⟩
  have hnone : ¬ IsEquivalenceOn 65 (empty 65).members := by
    rw [members_empty]
    exact fun h => h.refl 0 (by decide)
  have hmerged := (Partition.valid_finest 65).ensureRelated_eq (i := 0) (j := 64) (by simp) (by simp)
  have hpair : ∀ q ∈ [(0, 64)], q.1 < 65 ∧ q.2 < 65 := by decide
  have hp : Partition.Constructed 65 ((Partition.finest 65).relate 0 64) :=
    constructed_foldl_relate .finest hpair
  obtain ⟨p, hp', -, hback⟩ := huniversal hall
  refine ⟨⟨p, hp', hback⟩, ⟨_, hmerged, hpartitions _ hp, hle _ _ 65 hp .finest⟩, hempty.2 hnone⟩

end UniversalAlgebra.Relation
