/-
**Generating congruences.**

However the pairs are given, as a list, as a partition or one by one, the closure starts from the
least equivalence relation that has them, and ends with the least congruence.  A partition is a
congruence exactly if it is the one that it generates.

Main definitions:

* `Algebra.cg` — the congruence generated by a pair.

Main results:

* `CongruenceClosure.close_foldAll`, `CongruenceClosure.close_ofPartition` — closing a list of
  pairs, and closing a partition;
* `Algebra.Total.isLeastCongruence_cg` — the congruence generated by a pair is the least one;
* `CongruenceLattice.cgPairs_eq`, `CongruenceLattice.cgPartition_eq` — generation without caches;
* `CongruenceLattice.isCongruence_iff` — **the test for congruences**;
* `CongruenceLattice.isCongruence_eq_true`, `CongruenceLattice.isCongruence_eq_false`,
  `CongruenceLattice.isCongruence_eq_error` — its three outcomes.
-/

import UniversalAlgebra.CongruenceLattice.Basic
import UniversalAlgebra.Proofs.Closure.Congruence
import UniversalAlgebra.Proofs.Query

set_option autoImplicit false

namespace UniversalAlgebra

variable {A : Algebra} {R : ℕ → ℕ → Prop} {p q : Partition}

/-- What is above the least relation that has some pairs is what has these pairs. -/
theorem Algebra.IsLeastCongruence.of_isLeast {base : Setoid ℕ}
    (hbase : IsLeast {t : Setoid ℕ | ∀ x y, R x y → t x y} base)
    (hp : A.IsLeastCongruence base p) : A.IsLeastCongruence R p := by
  refine ⟨hp.valid, hp.size_eq, ⟨hp.isLeast.1.1, fun x y h => hp.rel (hbase.1 x y h)⟩, ?_⟩
  rintro t ⟨ht, hR⟩
  exact hp.le ht fun x y h => hbase.2 hR h

/-- A congruence is the least one above itself. -/
theorem Algebra.IsCongruence.isLeastCongruence (hp : A.IsCongruence p) :
    A.IsLeastCongruence p.setoid p :=
  ⟨hp.valid, hp.size_eq, ⟨hp.compatible, fun _ _ h => h⟩, fun _ ht {_ _} h => ht.2 _ _ h⟩

/-! ### Closing -/

namespace CongruenceClosure

open Closure

/-- Closing a list of pairs. -/
theorem close_foldAll (hA : A.Total) (ps : List (ℕ × ℕ))
    (hps : ∀ p ∈ ps, p.1 < A.size ∧ p.2 < A.size) (mode : Mode) :
    ∃ s, close A mode 0 0 ((start A.size).foldAll ps) = ⟨.ok .closed, s⟩ ∧
      A.IsLeastCongruence (fun x y => (x, y) ∈ ps) s.partition := by
  obtain ⟨s, hs, hleast⟩ := close_isLeastCongruence hA ((faithful_start A.size).foldAll hps) mode
    (settledBelow_zero _ _)
  refine ⟨s, hs, .of_isLeast ?_ hleast⟩
  obtain ⟨hrel, hmin⟩ := isLeast_foldAll_start hps
  exact ⟨fun x y h => hrel (x, y) h, fun t ht => hmin fun p hp => ht p.1 p.2 hp⟩

/-- The pairs that relate each element of a partition to the least one of its block. -/
def blockPairs (p : Partition) : List (ℕ × ℕ) :=
  ((List.range p.size).filter fun i => p.rep i != i).map fun i => (p.rep i, i)

theorem ofPartition_eq (p : Partition) : ofPartition p = (start p.size).foldAll (blockPairs p) := rfl

theorem mem_blockPairs {x y : ℕ} :
    (x, y) ∈ blockPairs p ↔ y < p.size ∧ p.rep y ≠ y ∧ p.rep y = x := by
  simp only [blockPairs, List.mem_map, List.mem_filter, List.mem_range, bne_iff_ne, Prod.mk.injEq]
  constructor
  · rintro ⟨i, ⟨hi, hne⟩, rfl, rfl⟩
    exact ⟨hi, hne, rfl⟩
  · rintro ⟨hy, hne, rfl⟩
    exact ⟨y, ⟨hy, hne⟩, rfl, rfl⟩

theorem blockPairs_lt (hp : p.Valid) : ∀ q ∈ blockPairs p, q.1 < p.size ∧ q.2 < p.size := by
  rintro ⟨x, y⟩ hxy
  obtain ⟨hy, -, rfl⟩ := mem_blockPairs.1 hxy
  exact ⟨hp.rep_lt hy, hy⟩

/-- These pairs generate the relation of the partition. -/
theorem isLeast_blockPairs (hp : p.Valid) :
    IsLeast {t : Setoid ℕ | ∀ x y, (x, y) ∈ blockPairs p → t x y} p.setoid := by
  refine ⟨?_, fun t ht => hp.setoid_le_iff.2 ?_⟩
  · intro x y hxy
    obtain ⟨-, -, rfl⟩ := mem_blockPairs.1 hxy
    exact hp.rep_rep_eq y
  · intro i hi
    by_cases hne : p.rep i = i
    · rw [hne]
    · exact t.symm (ht _ i (mem_blockPairs.2 ⟨hi, hne, rfl⟩))

/-- Closing a partition. -/
theorem close_ofPartition (hA : A.Total) (hp : p.Valid) (hsize : p.size = A.size) (mode : Mode) :
    ∃ s, close A mode 0 0 (ofPartition p) = ⟨.ok .closed, s⟩ ∧
      A.IsLeastCongruence p.setoid s.partition := by
  rw [ofPartition_eq, hsize]
  obtain ⟨s, hs, hleast⟩ := close_foldAll hA _ (hsize ▸ blockPairs_lt hp) mode
  refine ⟨s, hs, hleast.valid, hleast.size_eq, ⟨hleast.isLeast.1.1, ?_⟩, ?_⟩
  · intro x y hxy
    exact (isLeast_blockPairs hp).2 hleast.isLeast.1.2 hxy
  · rintro t ⟨ht, hpt⟩
    exact hleast.le ht fun x y hxy => hpt x y ((isLeast_blockPairs hp).1 x y hxy)

end CongruenceClosure

/-! ### Principal congruences -/

/-- The congruence generated by a pair. -/
@[irreducible] def Algebra.cg (A : Algebra) (a b : ℕ) : Partition :=
  (Closure.close A .sequential 0 0
    ((CongruenceClosure.start A.size).foldAll [(a, b)])).state.partition

/-- The congruence generated by a pair is the least one that relates the two elements. -/
theorem Algebra.Total.isLeastCongruence_cg (hA : A.Total) {a b : ℕ} (ha : a < A.size)
    (hb : b < A.size) : A.IsLeastCongruence (fun x y => x = a ∧ y = b) (A.cg a b) := by
  obtain ⟨s, hs, hleast⟩ := CongruenceClosure.close_foldAll hA [(a, b)]
    (by simp [ha, hb]) .sequential
  rw [cg, hs]
  simpa using hleast

/-- A pair may be given in any order. -/
theorem Algebra.Total.cg_comm (hA : A.Total) {a b : ℕ} (ha : a < A.size) (hb : b < A.size) :
    A.cg a b = A.cg b a := by
  have hab := hA.isLeastCongruence_cg ha hb
  have hba := hA.isLeastCongruence_cg hb ha
  refine hab.isCongruence.ext hba.isCongruence (le_antisymm ?_ ?_)
  · refine hab.le hba.isCongruence.compatible ?_
    rintro x y ⟨rfl, rfl⟩
    exact Setoid.symm' _ (hba.rel ⟨rfl, rfl⟩)
  · refine hba.le hab.isCongruence.compatible ?_
    rintro x y ⟨rfl, rfl⟩
    exact Setoid.symm' _ (hab.rel ⟨rfl, rfl⟩)

/-- Equal elements generate the least congruence. -/
theorem Algebra.Total.cg_self (hA : A.Total) {a : ℕ} (ha : a < A.size) :
    A.cg a a = Partition.finest A.size := by
  have haa := hA.isLeastCongruence_cg ha ha
  have hfinest := A.isCongruence_finest
  refine haa.isCongruence.ext hfinest (le_antisymm ?_ ?_)
  · refine haa.le hfinest.compatible ?_
    rintro x y ⟨rfl, rfl⟩
    exact Setoid.refl' _ _
  · rw [Partition.setoid_finest]
    exact bot_le

/-! ### Generation without caches -/

namespace CongruenceLattice

open Fallible

variable {L : CongruenceLattice}

theorem generate_eq {s s' : CongruenceClosure}
    (h : Closure.close L.algebra L.mode 0 0 s = ⟨.ok .closed, s'⟩) :
    L.generate s = .ok s'.partition := by
  rw [generate, h]
  rfl

theorem generateTuples_eq {s s' : SubpowerClosure Unit}
    (h : Closure.close L.algebra L.mode 0 0 s = ⟨.ok .closed, s'⟩) :
    L.generateTuples s = .ok s' := by
  rw [generateTuples, h]
  rfl

theorem checkPartition_eq (h : p.size = L.algebra.size) : L.checkPartition p = .ok () := by
  rw [checkPartition, if_pos h]

theorem checkPair_eq (hA : L.algebra.Total) {a b : ℕ} (ha : a < L.algebra.size)
    (hb : b < L.algebra.size) : L.checkPair (a, b) = .ok () := by
  rw [checkPair, hA.validate_eq ha, hA.validate_eq hb]
  rfl

/-- Pairs of elements pass the check when their turn comes. -/
theorem foldlM_check_eq {τ : Type} (hA : L.algebra.Total) (step : τ → ℕ × ℕ → τ)
    {ps : List (ℕ × ℕ)} (hps : ∀ p ∈ ps, p.1 < L.algebra.size ∧ p.2 < L.algebra.size) (t : τ) :
    ps.foldlM (fun t p => do L.checkPair p; pure (step t p)) t
      = Except.ok (ε := Fault) (ps.foldl step t) := by
  induction ps generalizing t with
  | nil => rfl
  | cons p ps ih =>
      have hp := hps p List.mem_cons_self
      rw [List.foldlM_cons, checkPair_eq hA hp.1 hp.2]
      exact ih (fun q hq => hps q (List.mem_cons_of_mem p hq)) _

/-- Only pairs of elements pass it. -/
theorem lt_of_checkPair_eq_ok {p : ℕ × ℕ} (h : L.checkPair p = .ok ()) :
    p.1 < L.algebra.size ∧ p.2 < L.algebra.size := by
  obtain ⟨_, hfirst, hsecond⟩ := bind_eq_ok.1 h
  have hvalidate (x : ℕ) (hx : L.algebra.validate x = .ok ()) : x < L.algebra.size := by
    by_contra hlt
    simp [Algebra.validate, hlt] at hx
  exact ⟨hvalidate p.1 hfirst, hvalidate p.2 hsecond⟩

theorem lt_of_foldlM_check_eq_ok {τ : Type} {step : τ → ℕ × ℕ → τ} {ps : List (ℕ × ℕ)} {t t' : τ}
    (h : ps.foldlM (fun t p => do L.checkPair p; pure (step t p)) t = Except.ok (ε := Fault) t') :
    ∀ p ∈ ps, p.1 < L.algebra.size ∧ p.2 < L.algebra.size := by
  induction ps generalizing t with
  | nil => simp
  | cons p ps ih =>
      rw [List.foldlM_cons] at h
      obtain ⟨_, hstep, hrest⟩ := bind_eq_ok.1 h
      obtain ⟨_, hcheck, -⟩ := bind_eq_ok.1 hstep
      intro q hq
      rcases List.mem_cons.1 hq with rfl | hq
      · exact lt_of_checkPair_eq_ok hcheck
      · exact ih hrest q hq

/-- The congruence generated by a list of pairs. -/
theorem cgPairs_eq (hA : L.algebra.Total) {ps : List (ℕ × ℕ)}
    (hps : ∀ p ∈ ps, p.1 < L.algebra.size ∧ p.2 < L.algebra.size) {θ : Partition}
    (hθ : L.algebra.IsLeastCongruence (fun x y => (x, y) ∈ ps) θ) : L.cgPairs ps = .ok θ := by
  obtain ⟨s, hclose, hs⟩ := CongruenceClosure.close_foldAll hA ps hps L.mode
  rw [cgPairs, foldlM_check_eq hA (fun (s : CongruenceClosure) p => (s.merge p.1 p.2).2) hps, ok_bind,
    ← hs.eq hθ]
  exact generate_eq hclose

/-- The congruence generated by a partition. -/
theorem cgPartition_eq (hA : L.algebra.Total) (hp : p.Valid) (hsize : p.size = L.algebra.size)
    {θ : Partition} (hθ : L.algebra.IsLeastCongruence p.setoid θ) : L.cgPartition p = .ok θ := by
  obtain ⟨s, hclose, hs⟩ := CongruenceClosure.close_ofPartition hA hp hsize L.mode
  rw [cgPartition, checkPartition_eq hsize, ok_bind, generate_eq hclose, hs.eq hθ]

/-- **A partition is found to be a congruence exactly if it is compatible with the operations.** -/
theorem isCongruence_iff (hA : L.algebra.Total) (hp : p.Valid) (hsize : p.size = L.algebra.size) :
    ∃ answer, L.isCongruence p = .ok answer ∧
      (answer = true ↔ L.algebra.Compatible p.setoid) := by
  obtain ⟨s, -, hs⟩ := CongruenceClosure.close_ofPartition hA hp hsize L.mode
  refine ⟨s.partition == p, ?_, ?_⟩
  · rw [isCongruence, cgPartition_eq hA hp hsize hs]
    rfl
  · rw [beq_iff_eq]
    constructor
    · rintro rfl
      exact hs.isCongruence.compatible
    · intro hcompatible
      exact hs.eq (Algebra.IsCongruence.isLeastCongruence ⟨hp, hsize, hcompatible⟩)

/-- So a congruence is found to be one, -/
theorem isCongruence_eq_true (hA : L.algebra.Total) (hp : L.algebra.IsCongruence p) :
    L.isCongruence p = .ok true := by
  obtain ⟨answer, hanswer, hiff⟩ := isCongruence_iff hA hp.valid hp.size_eq
  rw [hanswer, hiff.2 hp.compatible]

/-- another partition of the same elements is not, -/
theorem isCongruence_eq_false (hA : L.algebra.Total) (hp : p.Valid) (hsize : p.size = L.algebra.size)
    (hnot : ¬ L.algebra.IsCongruence p) : L.isCongruence p = .ok false := by
  obtain ⟨answer, hanswer, hiff⟩ := isCongruence_iff hA hp hsize
  have hfalse : answer = false := by
    rw [← Bool.not_eq_true, hiff]
    exact fun hcompatible => hnot ⟨hp, hsize, hcompatible⟩
  rw [hanswer, hfalse]

/-- and a partition of other elements is refused. -/
theorem isCongruence_eq_error (hsize : p.size ≠ L.algebra.size) :
    L.isCongruence p = .error (.partitionSize p.size L.algebra.name L.algebra.size) := by
  rw [isCongruence, cgPartition, checkPartition, if_neg hsize]
  rfl

end CongruenceLattice

end UniversalAlgebra
