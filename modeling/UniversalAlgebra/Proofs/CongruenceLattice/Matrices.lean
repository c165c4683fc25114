/-
**Matrices of two relations.**

The quadruples that generate the matrices of two relations on the universe consist of elements, and
so do the matrices.  Closing applies the operations of positive arity only, so that the matrices are
closed under the nullary ones exactly if these add nothing.  A check of such matrices against a
partition of the universe goes through.

Main definitions:

* `Relation.IsOver` — the relation is one of elements;
* `CongruenceLattice.matrixSeed` — the quadruples of the pairs of two relations.

Main results:

* `SubpowerClosure.close_start_insertAll` — closing finds what the operations of positive arity
  generate;
* `CongruenceLattice.matrixTuples_eq` — the matrices are found;
* `CongruenceLattice.matrixTuples_isLeast` — **which set the matrices are**;
* `CongruenceLattice.checkTuples_eq`, `CongruenceLattice.centrality_eq` — their check against a
  partition of the universe goes through, and what it says.
-/

import Mathlib
import UniversalAlgebra.CongruenceLattice.Commutator
import UniversalAlgebra.Proofs.Centrality
import UniversalAlgebra.Proofs.Closure.Subpower
import UniversalAlgebra.Proofs.CongruenceLattice.Generation
import UniversalAlgebra.Proofs.Relation

set_option autoImplicit false

namespace UniversalAlgebra

/-- The relation is one of elements below `n`. -/
structure Relation.IsOver (r : Relation) (n : ℕ) : Prop where
  size_eq : r.size = n
  lt : ∀ p ∈ r.pairs, p.1 < n ∧ p.2 < n

theorem Relation.Valid.isOver {r : Relation} {n : ℕ} (hr : r.Valid) (hsize : r.size = n) :
    r.IsOver n := by
  refine ⟨hsize, fun p hp => ?_⟩
  obtain ⟨hlt, hhas⟩ := Relation.mem_pairs.1 hp
  exact ⟨hsize ▸ hlt, hsize ▸ hr.lt _ _ hhas⟩

theorem Relation.isOver_ofPartition {p : Partition} (hp : p.Valid) :
    (Relation.ofPartition p).IsOver p.size := by
  refine ⟨rfl, fun pair hpair => ?_⟩
  obtain ⟨h₁, h₂, -⟩ := Relation.mem_pairs_ofPartition hp |>.1 hpair
  exact ⟨h₁, h₂⟩

theorem Algebra.IsCongruence.isOver {A : Algebra} {p : Partition} (hp : A.IsCongruence p) :
    (Relation.ofPartition p).IsOver A.size :=
  hp.size_eq ▸ Relation.isOver_ofPartition hp.valid

/-! ### Closing with nobody looking on -/

namespace SubpowerClosure

open Closure

variable {A : Algebra} {k : ℕ}

/-- Nobody asks to stop. -/
theorem watched_start (T : Set (List ℕ)) :
    Watched (fun (_ : Unit) _ => (true, ())) T (fun _ _ => True) (fun _ _ => False) :=
  ⟨fun _ _ _ _ _ _ => trivial, fun _ _ _ _ _ h => absurd h (by simp)⟩

/-- Closing tuples of elements ends closed with what the operations of positive arity generate from
them. -/
theorem close_start_insertAll (hA : A.Total) (mode : Mode) {ts : List (List ℕ)}
    (hts : ∀ t ∈ ts, t ∈ A.tuples k) :
    ∃ s', close A mode 0 0 ((start k).insertAll ts) = ⟨.ok .closed, s'⟩ ∧ s'.Faithful A k ∧
      ∀ t, t ∈ s'.tuples ↔ t ∈ A.columnClosure k {t | t ∈ ts} := by
  obtain ⟨⟨-, hclosed, hgenerators⟩, hleast⟩ := hA.isLeast_columnClosure (G := {t | t ∈ ts}) hts
  obtain ⟨hs, hobserve, -, hmem⟩ :=
    (faithful_observed A k (fun (_ : Unit) _ => (true, ())) ()).insertAll hts
  have hinitial : ∀ t, t ∈ ((start k).insertAll ts).tuples ↔ t ∈ ts := by
    intro t
    rw [start, hmem]
    simp [observed]
  obtain ⟨s', ⟨hclose, hs', hkept, hclosed'⟩ | ⟨-, hs'⟩⟩ :=
    close_spec hA mode hclosed (watched_start (A.columnClosure k {t | t ∈ ts}))
      ⟨hs, hobserve, fun t ht => hgenerators ((hinitial t).1 ht), trivial⟩ (settledBelow_zero _ _)
  · refine ⟨s', hclose, hs'.faithful, fun t => ⟨hs'.subset t, fun ht => ?_⟩⟩
    exact hleast ⟨hs'.faithful.mem_tuples, hclosed', fun t ht => hkept t ((hinitial t).2 ht)⟩ ht
  · exact hs'.watch.elim

end SubpowerClosure

namespace CongruenceLattice

open Fallible

variable {A : Algebra} {L : CongruenceLattice} {S T : Relation}

theorem checkRelation_eq (h : S.size = L.algebra.size) : L.checkRelation S = .ok () := by
  rw [checkRelation, if_pos h]

/-- The matrices of relations on the universe generate from tuples of elements. -/
theorem matrixGenerators_mem (hS : S.IsOver A.size) (hT : T.IsOver A.size) :
    ∀ t ∈ matrixGenerators S T, t ∈ A.tuples 4 := by
  intro t ht
  rcases List.mem_append.1 ht with ht | ht
  · obtain ⟨⟨x, y⟩, hxy, rfl⟩ := List.mem_map.1 ht
    have := hS.lt _ hxy
    exact ⟨rfl, by simp_all⟩
  · obtain ⟨⟨x, y⟩, hxy, rfl⟩ := List.mem_map.1 ht
    have := hT.lt _ hxy
    exact ⟨rfl, by simp_all⟩

/-! ### The set of matrices -/

/-- The quadruples of the pairs of two relations. -/
def matrixSeed (S T : Relation) : Set (List ℕ) :=
  {t | (∃ p ∈ S.pairs, t = [p.1, p.1, p.2, p.2]) ∨ ∃ p ∈ T.pairs, t = [p.1, p.2, p.1, p.2]}

theorem mem_matrixGenerators {t : List ℕ} : t ∈ matrixGenerators S T ↔ t ∈ matrixSeed S T := by
  simp only [matrixGenerators, matrixSeed, List.mem_append, List.mem_map, Set.mem_ofPred_eq,
    eq_comm (a := t)]

theorem matrixSeed_subset (hS : S.IsOver A.size) (hT : T.IsOver A.size) :
    matrixSeed S T ⊆ A.tuples 4 :=
  fun t ht => matrixGenerators_mem hS hT t (mem_matrixGenerators.2 ht)

/-- The matrices are found, each once: they are what the operations of positive arity generate. -/
theorem matrixTuples_eq (hA : L.algebra.Total) (hS : S.IsOver L.algebra.size)
    (hT : T.IsOver L.algebra.size) :
    ∃ tuples, L.matrixTuples S T = .ok tuples ∧ tuples.Nodup ∧
      ∀ t, t ∈ tuples ↔ t ∈ L.algebra.columnClosure 4 (matrixSeed S T) := by
  obtain ⟨s, hclose, hs, hmem⟩ :=
    SubpowerClosure.close_start_insertAll hA L.mode (matrixGenerators_mem hS hT)
  have hseed : {t | t ∈ matrixGenerators S T} = matrixSeed S T :=
    Set.ext fun _ => mem_matrixGenerators
  rw [hseed] at hmem
  refine ⟨s.tuples.toList, ?_, hs.nodup, fun t => by rw [Array.mem_toList_iff, hmem]⟩
  rw [matrixTuples, checkRelation_eq hS.size_eq, checkRelation_eq hT.size_eq, ok_bind, ok_bind,
    generateTuples_eq hclose]
  rfl

/-- What is found are the quadruples that are generated. -/
theorem mem_matrixTuples (hA : L.algebra.Total) (hS : S.IsOver L.algebra.size)
    (hT : T.IsOver L.algebra.size) {tuples : List (List ℕ)} (heq : L.matrixTuples S T = .ok tuples)
    (t : List ℕ) : t ∈ tuples ↔ t ∈ L.algebra.columnClosure 4 (matrixSeed S T) := by
  obtain ⟨found, hfound, -, hmem⟩ := matrixTuples_eq hA hS hT
  obtain rfl : found = tuples := Except.ok.inj (hfound.symm.trans heq)
  exact hmem t

theorem matrixTuples_subset (hA : L.algebra.Total) (hS : S.IsOver L.algebra.size)
    (hT : T.IsOver L.algebra.size) {tuples : List (List ℕ)} (heq : L.matrixTuples S T = .ok tuples) :
    ∀ t ∈ tuples, t ∈ L.algebra.tuples 4 := by
  intro t ht
  exact (hA.isLeast_columnClosure (matrixSeed_subset hS hT)).1.1
    ((mem_matrixTuples hA hS hT heq t).1 ht)

/-- The constant quadruple of a nullary operation is generated if a relation pairs the constant with
itself. -/
theorem replicate_mem_columnClosure (hA : A.Total) (hS : S.IsOver A.size) (hT : T.IsOver A.size)
    {c : ℕ} (hc : (c, c) ∈ S.pairs ∨ (c, c) ∈ T.pairs) :
    List.replicate 4 c ∈ A.columnClosure 4 (matrixSeed S T) := by
  have hseed := (hA.isLeast_columnClosure (matrixSeed_subset hS hT)).1.2.2
  rcases hc with h | h
  · exact hseed (Or.inl ⟨(c, c), h, rfl⟩)
  · exact hseed (Or.inr ⟨(c, c), h, rfl⟩)

/-- **Which set the matrices are.**  The matrices of two relations on the universe of a total algebra
are listed without repetition, and are the least set of quadruples that contains those of the pairs
of the relations and is closed under the operations of positive arity, applied coordinate by
coordinate.  They are the least such set that is closed under the nullary operations as well exactly
if every constant quadruple of a nullary operation is among them, and so in particular if one of the
relations pairs each constant with itself. -/
theorem matrixTuples_isLeast (hA : L.algebra.Total) (hS : S.IsOver L.algebra.size)
    (hT : T.IsOver L.algebra.size) :
    ∃ tuples, L.matrixTuples S T = .ok tuples ∧ tuples.Nodup ∧
      IsLeast {U | U ⊆ L.algebra.tuples 4 ∧ L.algebra.ClosedUnderColumns 4 U ∧ matrixSeed S T ⊆ U}
        {t | t ∈ tuples} ∧
      (IsLeast {U | L.algebra.IsSubpower 4 U ∧ matrixSeed S T ⊆ U} {t | t ∈ tuples} ↔
        ∀ c ∈ L.algebra.constants, [c, c, c, c] ∈ tuples) ∧
      ((∀ c ∈ L.algebra.constants, (c, c) ∈ S.pairs ∨ (c, c) ∈ T.pairs) →
        IsLeast {U | L.algebra.IsSubpower 4 U ∧ matrixSeed S T ⊆ U} {t | t ∈ tuples}) := by
  have hseed := matrixSeed_subset hS hT
  have hleast := hA.isLeast_columnClosure hseed
  obtain ⟨tuples, heq, hnodup, hmem⟩ := matrixTuples_eq hA hS hT
  have hset : {t | t ∈ tuples} = L.algebra.columnClosure 4 (matrixSeed S T) := Set.ext hmem
  have hconstant (c : ℕ) : [c, c, c, c] ∈ tuples ↔
      List.replicate 4 c ∈ L.algebra.columnClosure 4 (matrixSeed S T) := hmem _
  have hiff : IsLeast {U | L.algebra.IsSubpower 4 U ∧ matrixSeed S T ⊆ U} {t | t ∈ tuples} ↔
      ∀ c ∈ L.algebra.constants, [c, c, c, c] ∈ tuples := by
    simp only [hset, hconstant, ← Algebra.isSubpower_columnClosure_iff hA hseed]
    refine ⟨fun h => h.1.1, fun h => ?_⟩
    rw [Algebra.columnClosure_eq_subpower hA hseed h]
    exact hA.isLeast_subpower hseed
  refine ⟨tuples, heq, hnodup, hset ▸ hleast, hiff, fun hdiagonal => hiff.2 fun c hc => ?_⟩
  exact (hconstant c).2 (replicate_mem_columnClosure hA hS hT (hdiagonal c hc))

/-- In the bits with conjunction and zero the pair of one with itself leads to one matrix only. -/
theorem matrixTuples_one_bits :
    (start Algebra.bits .standard).matrixTuples ((Relation.empty 2).add 1 1)
      ((Relation.empty 2).add 1 1) = .ok [[1, 1, 1, 1]] := by
  cbv

/-- It is the least set closed under conjunction. -/
theorem matrices_of_one_bits :
    (start Algebra.bits .standard).matrixTuples ((Relation.empty 2).add 1 1)
        ((Relation.empty 2).add 1 1) = .ok [[1, 1, 1, 1]] ∧
      IsLeast {U | U ⊆ Algebra.bits.tuples 4 ∧ Algebra.bits.ClosedUnderColumns 4 U ∧
        matrixSeed ((Relation.empty 2).add 1 1) ((Relation.empty 2).add 1 1) ⊆ U}
        {t | t ∈ [[1, 1, 1, 1]]} := by
  have hpairs : ((Relation.empty 2).add 1 1).pairs = [(1, 1)] := by cbv
  have hover : ((Relation.empty 2).add 1 1).IsOver Algebra.bits.size := by
    refine ⟨rfl, ?_⟩
    rw [hpairs]
    decide
  obtain ⟨tuples, heq, -, hleast, -⟩ := matrixTuples_isLeast (L := start Algebra.bits .standard)
    (S := (Relation.empty 2).add 1 1) (T := (Relation.empty 2).add 1 1) Algebra.total_bits hover hover
  obtain rfl : tuples = [[1, 1, 1, 1]] := by
    rw [matrixTuples_one_bits] at heq
    cases heq
    rfl
  exact ⟨heq, hleast⟩

/-- But zero is missing, so that it is not what conjunction and zero generate. -/
theorem matrices_without_zero_bits :
    (start Algebra.bits .standard).matrixTuples ((Relation.empty 2).add 1 1)
        ((Relation.empty 2).add 1 1) = .ok [[1, 1, 1, 1]] ∧
      ¬ IsLeast {U | Algebra.bits.IsSubpower 4 U ∧
        matrixSeed ((Relation.empty 2).add 1 1) ((Relation.empty 2).add 1 1) ⊆ U}
        {t | t ∈ [[1, 1, 1, 1]]} := by
  refine ⟨matrixTuples_one_bits, fun hleast => ?_⟩
  have hzero := hleast.1.1.columns_mem ⟨"0", 0, 2, .table #[0]⟩ (by simp [Algebra.bits]) [] rfl
    (by simp)
  rw [Operation.columns_nil, Operation.value_eq_of_apply (v := 0) rfl] at hzero
  simp at hzero

/-! ### The check of the matrices -/

theorem lt_of_mem_ofList {t : List ℕ} (ht : t ∈ A.tuples 4) :
    ∀ x ∈ (Matrix4.ofList t).toList, x < A.size := by
  have hentry (j : ℕ) (hj : j < 4) : t[j]?.getD 0 < A.size := by
    rw [← List.getD_eq_getElem?_getD]
    exact Algebra.getD_lt_of_mem_tuples ht hj
  simp [Matrix4.ofList, Matrix4.toList, hentry]

/-- The check of matrices of elements against a partition of the universe goes through. -/
theorem checkTuples_eq {tuples : List (List ℕ)} (htuples : ∀ t ∈ tuples, t ∈ A.tuples 4)
    {data : Centrality} (hdelta : data.delta.size = A.size) :
    checkTuples tuples data = .ok (Centrality.search (tuples.map Matrix4.ofList) data).2 := by
  have hnone : (Centrality.search (tuples.map Matrix4.ofList) data).1 = none := by
    refine Centrality.search_fst_eq_none fun m hm => ?_
    obtain ⟨t, ht, rfl⟩ := List.mem_map.1 hm
    rw [hdelta]
    exact lt_of_mem_ofList (htuples t ht)
  generalize hsearch : Centrality.search (tuples.map Matrix4.ofList) data = found at hnone ⊢
  obtain ⟨fault, s⟩ := found
  obtain rfl : fault = none := hnone
  simp only [checkTuples, Centrality.check, hsearch]
  rfl

/-- The check of the matrices against one partition of the universe says whether their rows are
related together. -/
theorem centrality_eq (hA : L.algebra.Total) (hS : S.IsOver L.algebra.size)
    (hT : T.IsOver L.algebra.size) {delta : Partition} (hdelta : delta.size = L.algebra.size) :
    ∃ data, L.centrality S T delta = .ok data ∧ data.left = S ∧ data.right = T ∧
      data.delta = delta ∧ (data.holds = true ↔ ∀ a b c d,
        [a, b, c, d] ∈ L.algebra.columnClosure 4 (matrixSeed S T) →
          RowCondition delta.setoid a b c d) := by
  obtain ⟨tuples, heq, -, hmem⟩ := matrixTuples_eq hA hS hT
  have htuples := matrixTuples_subset hA hS hT heq
  have hstart : Centrality.start S T delta = .ok ⟨S, T, delta, none, none, none⟩ := by
    rw [Centrality.start, if_pos ⟨hS.size_eq.trans hT.size_eq.symm, hS.size_eq.trans hdelta.symm⟩]
  obtain ⟨hleft, hright, hsame⟩ := Centrality.search_data (tuples.map Matrix4.ofList)
    ⟨S, T, delta, none, none, none⟩
  refine ⟨_, ?_, hleft, hright, hsame, ?_⟩
  · rw [centrality, checkPartition_eq hdelta, hstart, heq, ok_bind, ok_bind, ok_bind]
    exact checkTuples_eq htuples hdelta
  · simp only [← hmem]
    refine Centrality.decides_holds S T delta tuples ?_
    rw [hdelta]
    exact htuples

end CongruenceLattice

end UniversalAlgebra
