/-
**The commutators are least congruences.**

A commutator is computed as the meet of all congruences modulo which every matrix satisfies a
condition.  Each of the three conditions passes on to meets, so that the meet satisfies it as well
and is the least congruence that does.  A stronger condition has a larger least congruence, which
orders the three commutators.  Every matrix of two congruences has rows that one relates and columns
that the other relates, so that their meet satisfies the strongest condition.

Main definitions:

* `PassesToMeets` — a condition on matrices that passes on to meets;
* `CongruenceLattice.CommutatorOf` — the least congruence modulo which all matrices satisfy a
  condition.

Main results:

* `Algebra.meetAll_spec` — meets of congruences;
* `CongruenceLattice.leastDelta_spec` — the meet of what a check admits is least;
* `CongruenceLattice.commutators_isLeast` — **the commutators are the least congruences with their
  conditions**;
* `CongruenceLattice.commutators_le_meet` — **the commutators of two congruences lie in a chain below
  their meet**.
-/

import Mathlib
import UniversalAlgebra.Proofs.CongruenceLattice.Universe
import UniversalAlgebra.Proofs.TypeFinder.Tables

set_option autoImplicit false

namespace UniversalAlgebra

/-! ### Conditions and meets -/

/-- The condition holds of a matrix modulo a meet if it holds modulo both relations, and if all
entries are related. -/
structure PassesToMeets (P : Setoid ℕ → ℕ → ℕ → ℕ → ℕ → Prop) : Prop where
  of_related : ∀ {s : Setoid ℕ} {a b c d : ℕ},
    (∀ x ∈ [a, b, c, d], ∀ y ∈ [a, b, c, d], s x y) → P s a b c d
  inf : ∀ {s t : Setoid ℕ} {a b c d : ℕ}, P s a b c d → P t a b c d → P (s ⊓ t) a b c d

theorem passesToMeets_rowCondition : PassesToMeets RowCondition where
  of_related h _ := h _ (by simp) _ (by simp)
  inf hs ht hab := ⟨hs hab.1, ht hab.2⟩

theorem passesToMeets_cornerCondition : PassesToMeets CornerCondition where
  of_related h _ _ := h _ (by simp) _ (by simp)
  inf hs ht hab hac := ⟨hs hab.1 hac.1, ht hab.2 hac.2⟩

theorem passesToMeets_rectangularCondition : PassesToMeets RectangularCondition where
  of_related h := ⟨fun _ => h _ (by simp) _ (by simp), fun _ => h _ (by simp) _ (by simp)⟩
  inf hs ht :=
    ⟨fun hab => ⟨hs.1 hab.1, ht.1 hab.2⟩, fun hac => ⟨hs.2 hac.1, ht.2 hac.2⟩⟩

namespace Algebra

variable {A : Algebra} {s : Setoid ℕ}

/-- The meet of congruences is a congruence below each of them, and has every property that passes
on to meets. -/
theorem meetAll_spec {Q : Setoid ℕ → Prop} (hQ : ∀ s t, Q s → Q t → Q (s ⊓ t)) {top : Partition}
    (htop : A.IsCongruence top) (hQtop : Q top.setoid) {ps : List Partition}
    (hps : ∀ p ∈ ps, A.IsCongruence p ∧ Q p.setoid) :
    A.IsCongruence (meetAll top ps) ∧ Q (meetAll top ps).setoid ∧
      (meetAll top ps).setoid ≤ top.setoid ∧ ∀ p ∈ ps, (meetAll top ps).setoid ≤ p.setoid := by
  induction ps generalizing top with
  | nil => exact ⟨htop, hQtop, le_refl _, by simp⟩
  | cons p ps ih =>
      obtain ⟨hp, hQp⟩ := hps p List.mem_cons_self
      have hinf : (top.inf p).setoid = top.setoid ⊓ p.setoid := htop.valid.setoid_inf
      obtain ⟨hcongruence, hmeet, hle, hall⟩ := ih (htop.inf hp) (hinf ▸ hQ _ _ hQtop hQp)
        fun q hq => hps q (List.mem_cons_of_mem p hq)
      rw [hinf] at hle
      refine ⟨hcongruence, hmeet, hle.trans inf_le_left, ?_⟩
      intro q hq
      rcases List.mem_cons.1 hq with rfl | hq
      · exact hle.trans inf_le_right
      · exact hall q hq

/-- The partitions of congruences are compared in the order of the congruences. -/
theorem Congruence.le_eq_true {γ δ : A.Congruence} (h : γ ≤ δ) :
    γ.partition.le δ.partition = .ok true := by
  rw [Partition.le, Partition.checkSize,
    if_pos (γ.isCongruence.size_eq.trans δ.isCongruence.size_eq.symm)]
  exact congrArg Except.ok ((refines_iff γ δ).2 h)

theorem Congruence.meet_eq (γ δ : A.Congruence) :
    γ.partition.meet δ.partition = .ok (γ.partition.inf δ.partition) := by
  rw [Partition.meet, Partition.checkSize,
    if_pos (γ.isCongruence.size_eq.trans δ.isCongruence.size_eq.symm)]
  rfl

end Algebra

namespace CongruenceLattice

open Query

variable {A : Algebra} {settings : Settings} {L : CongruenceLattice} {S T : Relation}
  {tuples : List (List ℕ)} {P P' : Setoid ℕ → ℕ → ℕ → ℕ → ℕ → Prop}

/-! ### The table of checks -/

/-- The check of all matrices against one congruence. -/
def checked (tuples : List (List ℕ)) (S T : Relation) (delta : Partition) : Centrality :=
  (Centrality.search (tuples.map Matrix4.ofList) ⟨S, T, delta, none, none, none⟩).2

/-- If the whole list of congruences is available, the matrices are checked against each of them. -/
theorem centralityTable_eq (hA : A.Total) (hL : Coherent A settings L)
    (havailable : Available complete A.congruences settings.maxSize L) (hS : S.IsOver A.size)
    (hT : T.IsOver A.size) (heq : (start A settings).matrixTuples S T = .ok tuples) :
    ∃ L', Coherent A settings L' ∧
      centralityTable S T L = .ok (A.congruences.map (checked tuples S T)) L' := by
  obtain ⟨L', hL', hrun⟩ := allCongruences_eq hA "calc_centrality" hL havailable
  refine Yields.bind_of_ok ?_ hL' hrun
  exact yields_centralityTable hA settings hS hT heq

/-- The least congruence modulo which all matrices satisfy a condition. -/
def CommutatorOf (A : Algebra) (tuples : List (List ℕ)) (P : Setoid ℕ → ℕ → ℕ → ℕ → ℕ → Prop)
    (δ : A.Congruence) : Prop :=
  IsLeast {γ : A.Congruence | ∀ a b c d, [a, b, c, d] ∈ tuples → P γ.partition.setoid a b c d} δ

/-- What a check admits are the congruences modulo which all matrices satisfy the condition. -/
theorem mem_admitted {verdict : Centrality → Bool} (hverdict : Centrality.Decides verdict P)
    (htuples : ∀ t ∈ tuples, t ∈ A.tuples 4) {p : Partition} :
    p ∈ ((A.congruences.map (checked tuples S T)).filter verdict).map (·.delta) ↔
      A.IsCongruence p ∧ ∀ a b c d, [a, b, c, d] ∈ tuples → P p.setoid a b c d := by
  have hdelta (q : Partition) : (checked tuples S T q).delta = q :=
    (Centrality.search_data _ ⟨S, T, q, none, none, none⟩).2.2
  have hiff : p ∈ ((A.congruences.map (checked tuples S T)).filter verdict).map (·.delta) ↔
      A.IsCongruence p ∧ verdict (checked tuples S T p) = true := by
    simp only [List.mem_map, List.mem_filter, Algebra.mem_congruences]
    constructor
    · rintro ⟨data, ⟨⟨q, hq, rfl⟩, hdata⟩, rfl⟩
      rw [hdelta]
      exact ⟨hq, hdata⟩
    · rintro ⟨hp, hdata⟩
      exact ⟨_, ⟨⟨p, hp, rfl⟩, hdata⟩, hdelta p⟩
  rw [hiff]
  refine and_congr_right fun hp => hverdict S T p tuples ?_
  rw [hp.size_eq]
  exact htuples

/-- **The meet of what a check admits is least.** -/
theorem leastDelta_spec (hA : A.Total) (hL : Coherent A settings L)
    (havailable : Available complete A.congruences settings.maxSize L) (hS : S.IsOver A.size)
    (hT : T.IsOver A.size) (heq : (start A settings).matrixTuples S T = .ok tuples)
    {verdict : Centrality → Bool} (hverdict : Centrality.Decides verdict P)
    (hP : PassesToMeets P) :
    ∃ δ : A.Congruence, CommutatorOf A tuples P δ ∧
      ∃ L', leastDelta S T verdict L = .ok δ.partition L' := by
  have htuples := matrixTuples_subset (L := start A settings) hA hS hT heq
  obtain ⟨L', hL', htable⟩ := centralityTable_eq hA hL havailable hS hT heq
  obtain ⟨hcongruence, hmeet, -, hbelow⟩ := Algebra.meetAll_spec
    (Q := fun s => ∀ a b c d, [a, b, c, d] ∈ tuples → P s a b c d)
    (fun s t hs ht a b c d hmem => hP.inf (hs a b c d hmem) (ht a b c d hmem))
    (Algebra.isCongruence_coarsest hA) (fun a b c d hmem => hP.of_related fun x hx y hy =>
      Partition.setoid_coarsest ((htuples _ hmem).2 x hx) ((htuples _ hmem).2 y hy))
    fun p hp => (mem_admitted (S := S) (T := T) hverdict htuples).1 hp
  refine ⟨⟨_, hcongruence⟩, ⟨hmeet, ?_⟩, L', ?_⟩
  · intro γ hγ
    exact hbelow γ.partition ((mem_admitted hverdict htuples).2 ⟨γ.isCongruence, hγ⟩)
  · rw [leastDelta, bind_of_ok htable, get_bind_apply, one, hL'.1.algebra_eq]
    rfl

/-- A list that was not cut off is available. -/
theorem available_of_whole (hA : A.Total) (hL : Coherent A settings L)
    (hwhole : ∃ all L', congruences settings.maxSize L = .ok (all, false) L') :
    Available complete A.congruences settings.maxSize L := by
  obtain ⟨all, L', hrun⟩ := hwhole
  by_contra hnot
  obtain ⟨found, L'', hrun', -⟩ := (lists_congruences hA settings.maxSize).cutOff hL hnot
  rw [hrun] at hrun'
  cases hrun'

/-! ### The three commutators -/

/-- **The commutators are the least congruences with their conditions.**  In a reachable lattice whose
list of all congruences is not cut off, the matrices of any two relations on the universe are found,
and each of the three commutators is answered with a congruence modulo which every matrix satisfies
the condition of that commutator, and which lies below every congruence with this property. -/
theorem commutators_isLeast (hA : A.Total) (hL : Reachable A settings L)
    (hwhole : ∃ all L', congruences settings.maxSize L = .ok (all, false) L')
    (hS : S.IsOver A.size) (hT : T.IsOver A.size) :
    ∃ tuples, L.matrixTuples S T = .ok tuples ∧ (∀ t ∈ tuples, t ∈ A.tuples 4) ∧
      (∃ δ : A.Congruence, (∃ L', commutator S T L = .ok δ.partition L') ∧
        IsLeast {γ : A.Congruence | ∀ a b c d, [a, b, c, d] ∈ tuples →
          RowCondition γ.partition.setoid a b c d} δ) ∧
      (∃ δ : A.Congruence, (∃ L', weakCommutator S T L = .ok δ.partition L') ∧
        IsLeast {γ : A.Congruence | ∀ a b c d, [a, b, c, d] ∈ tuples →
          CornerCondition γ.partition.setoid a b c d} δ) ∧
      ∃ δ : A.Congruence, (∃ L', rectangularCommutator S T L = .ok δ.partition L') ∧
        IsLeast {γ : A.Congruence | ∀ a b c d, [a, b, c, d] ∈ tuples →
          RectangularCondition γ.partition.setoid a b c d} δ := by
  have hcoherent := hL.coherent hA
  have havailable := available_of_whole hA hcoherent hwhole
  obtain ⟨tuples, heq, -⟩ := matrixTuples_eq (L := start A settings) hA hS hT
  have hsame : L.matrixTuples S T = .ok tuples :=
    (hcoherent.congr (fun L => L.matrixTuples S T) fun _ => rfl).trans heq
  obtain ⟨δ, hδ, hrun⟩ := leastDelta_spec hA hcoherent havailable hS hT heq
    Centrality.decides_holds passesToMeets_rowCondition
  obtain ⟨δ', hδ', hrun'⟩ := leastDelta_spec hA hcoherent havailable hS hT heq
    Centrality.decides_weaklyHolds passesToMeets_cornerCondition
  obtain ⟨δ'', hδ'', hrun''⟩ := leastDelta_spec hA hcoherent havailable hS hT heq
    Centrality.decides_isRectangular passesToMeets_rectangularCondition
  exact ⟨tuples, hsame, matrixTuples_subset (L := start A settings) hA hS hT heq,
    ⟨δ, hrun, hδ⟩, ⟨δ', hrun', hδ'⟩, δ'', hrun'', hδ''⟩

/-- Without a cap the list of all congruences is not cut off. -/
theorem exists_whole_start (hA : A.Total) :
    ∃ all L', congruences 0 (start A .standard) = .ok (all, false) L' := by
  obtain ⟨L', hrun, -⟩ := (lists_congruences hA 0).whole (coherent_start A .standard)
    (Or.inr (Or.inl rfl))
  exact ⟨A.congruences, L', hrun⟩

/-- In the bits with conjunction and zero, the commutator and the weak commutator of the universal
relation with itself relate zero and one: conjunction has a table with a single one. -/
theorem commutators_universal_bits :
    (∃ δ : Algebra.bits.Congruence,
      (∃ L', commutator (.universal 2) (.universal 2) (start Algebra.bits .standard)
        = .ok δ.partition L') ∧ δ.partition.setoid 0 1) ∧
    ∃ δ : Algebra.bits.Congruence,
      (∃ L', weakCommutator (.universal 2) (.universal 2) (start Algebra.bits .standard)
        = .ok δ.partition L') ∧ δ.partition.setoid 0 1 := by
  have hpairs : (Relation.universal 2).pairs = [(0, 0), (0, 1), (1, 0), (1, 1)] := by cbv
  have hover : (Relation.universal 2).IsOver Algebra.bits.size := by
    refine ⟨rfl, ?_⟩
    rw [hpairs]
    decide
  obtain ⟨tuples, heq, -, ⟨δ, hδ, hleast⟩, ⟨δ', hδ', hleast'⟩, -⟩ :=
    commutators_isLeast Algebra.total_bits .start (exists_whole_start Algebra.total_bits) hover hover
  have hrun : ((start Algebra.bits .standard).matrixTuples (.universal 2) (.universal 2)).toOption.any
      (·.contains [0, 0, 0, 1]) = true := by cbv
  have hmem : [0, 0, 0, 1] ∈ tuples := by
    rw [heq] at hrun
    simpa [Except.toOption] using hrun
  refine ⟨⟨δ, hδ, ?_⟩, δ', hδ', ?_⟩
  · exact hleast.1 0 0 0 1 hmem (Setoid.refl' _ 0)
  · exact hleast'.1 0 0 0 1 hmem (Setoid.refl' _ 0) (Setoid.refl' _ 0)

/-! ### The order of the commutators -/

/-- A condition that follows from another one has a smaller least congruence. -/
theorem CommutatorOf.mono {δ δ' : A.Congruence} (hδ : CommutatorOf A tuples P δ)
    (hδ' : CommutatorOf A tuples P' δ')
    (h : ∀ {s : Setoid ℕ} {a b c d : ℕ}, P' s a b c d → P s a b c d) : δ ≤ δ' :=
  hδ.2 fun a b c d hmem => h (hδ'.1 a b c d hmem)

/-- Two entries that are related in all generating quadruples are related in all matrices. -/
theorem related_of_mem_columnClosure (hA : A.Total) {s : Setoid ℕ} (hs : A.Compatible s)
    (hS : S.IsOver A.size) (hT : T.IsOver A.size) {i j : ℕ} (hi : i < 4) (hj : j < 4)
    (hseed : ∀ t ∈ matrixSeed S T, s (t.getD i 0) (t.getD j 0)) {t : List ℕ}
    (ht : t ∈ A.columnClosure 4 (matrixSeed S T)) : s (t.getD i 0) (t.getD j 0) := by
  have hsub := matrixSeed_subset hS hT
  have hclosed := (hs.isSubpower_blockTuples hA 2).select hA 4 [i, j] rfl (by simp [hi, hj])
  have hin : matrixSeed S T ⊆ {t | t ∈ A.tuples 4 ∧
      ([i, j].map fun j => t.getD j 0) ∈ A.blockTuples 2 s} := by
    intro u hu
    have hui := Algebra.getD_lt_of_mem_tuples (hsub hu) hi
    have huj := Algebra.getD_lt_of_mem_tuples (hsub hu) hj
    refine ⟨hsub hu, Algebra.mem_blockTuples (c := u.getD i 0) ⟨rfl, ?_⟩ ?_⟩
    · intro x hx
      rcases List.mem_pair.1 hx with rfl | rfl
      · exact hui
      · exact huj
    · intro x hx
      rcases List.mem_pair.1 hx with rfl | rfl
      · exact s.refl _
      · exact hseed u hu
  exact ((hA.isLeast_columnClosure hsub).2
    ⟨hclosed.subset_tuples, hclosed.closedUnderColumns, hin⟩ ht).2.2 _ (by simp) _ (by simp)

/-- The matrices of two congruences have rows that the second relates, and columns that the first
relates. -/
theorem rows_and_columns_related (hA : A.Total) (s t : A.Congruence) {a b c d : ℕ}
    (hmem : [a, b, c, d] ∈ A.columnClosure 4
      (matrixSeed (Relation.ofPartition s.partition) (Relation.ofPartition t.partition))) :
    (t.partition.setoid a b ∧ t.partition.setoid c d) ∧
      s.partition.setoid a c ∧ s.partition.setoid b d := by
  have hs := s.isCongruence
  have ht := t.isCongruence
  have hS := hs.isOver
  have hT := ht.isOver
  -- what is in a seed, with the relations of its pair
  have hseed : ∀ u ∈ matrixSeed (Relation.ofPartition s.partition) (Relation.ofPartition t.partition),
      (t.partition.setoid (u.getD 0 0) (u.getD 1 0) ∧
        t.partition.setoid (u.getD 2 0) (u.getD 3 0)) ∧
      s.partition.setoid (u.getD 0 0) (u.getD 2 0) ∧
        s.partition.setoid (u.getD 1 0) (u.getD 3 0) := by
    rintro u (⟨p, hp, rfl⟩ | ⟨p, hp, rfl⟩)
    · obtain ⟨-, -, hrel⟩ := (Relation.mem_pairs_ofPartition hs.valid).1 hp
      exact ⟨⟨Setoid.refl' _ _, Setoid.refl' _ _⟩, hrel, hrel⟩
    · obtain ⟨-, -, hrel⟩ := (Relation.mem_pairs_ofPartition ht.valid).1 hp
      exact ⟨⟨hrel, hrel⟩, Setoid.refl' _ _, Setoid.refl' _ _⟩
  refine ⟨⟨?_, ?_⟩, ?_, ?_⟩
  · exact related_of_mem_columnClosure hA ht.compatible hS hT (i := 0) (j := 1) (by omega) (by omega)
      (fun u hu => (hseed u hu).1.1) hmem
  · exact related_of_mem_columnClosure hA ht.compatible hS hT (i := 2) (j := 3) (by omega) (by omega)
      (fun u hu => (hseed u hu).1.2) hmem
  · exact related_of_mem_columnClosure hA hs.compatible hS hT (i := 0) (j := 2) (by omega) (by omega)
      (fun u hu => (hseed u hu).2.1) hmem
  · exact related_of_mem_columnClosure hA hs.compatible hS hT (i := 1) (j := 3) (by omega) (by omega)
      (fun u hu => (hseed u hu).2.2) hmem

/-- So modulo the meet of the two congruences related rows and columns come in pairs. -/
theorem rectangularCondition_meet (hA : A.Total) (s t : A.Congruence) {a b c d : ℕ}
    (hmem : [a, b, c, d] ∈ A.columnClosure 4
      (matrixSeed (Relation.ofPartition s.partition) (Relation.ofPartition t.partition))) :
    RectangularCondition (s.partition.inf t.partition).setoid a b c d := by
  obtain ⟨⟨hab, hcd⟩, hac, hbd⟩ := rows_and_columns_related hA s t hmem
  rw [s.isCongruence.valid.setoid_inf]
  refine ⟨fun h => ⟨?_, hcd⟩, fun h => ⟨hbd, ?_⟩⟩
  · exact s.partition.setoid.trans (s.partition.setoid.symm hac)
      (s.partition.setoid.trans h.1 hbd)
  · exact t.partition.setoid.trans (t.partition.setoid.symm hab)
      (t.partition.setoid.trans h.2 hcd)

/-- **The commutators of two congruences lie in a chain below their meet.**  In a reachable lattice
whose list of all congruences is not cut off, the weak commutator refines the commutator, which
refines the commutator for strong rectangularity, which refines the meet. -/
theorem commutators_le_meet (hA : A.Total) (hL : Reachable A settings L)
    (hwhole : ∃ all L', congruences settings.maxSize L = .ok (all, false) L') (s t : A.Congruence) :
    ∃ weak central rectangular meet : Partition,
      (∃ L', weakCommutator (Relation.ofPartition s.partition) (Relation.ofPartition t.partition) L
        = .ok weak L') ∧
      (∃ L', commutator (Relation.ofPartition s.partition) (Relation.ofPartition t.partition) L
        = .ok central L') ∧
      (∃ L', rectangularCommutator (Relation.ofPartition s.partition)
        (Relation.ofPartition t.partition) L = .ok rectangular L') ∧
      s.partition.meet t.partition = .ok meet ∧
      weak.le central = .ok true ∧ central.le rectangular = .ok true ∧
      rectangular.le meet = .ok true := by
  have hs := s.isCongruence
  have ht := t.isCongruence
  have hS := hs.isOver
  have hT := ht.isOver
  have hcoherent := hL.coherent hA
  have havailable := available_of_whole hA hcoherent hwhole
  obtain ⟨tuples, heq, -⟩ := matrixTuples_eq (L := start A settings) hA hS hT
  obtain ⟨weak, hweak, hrunweak⟩ := leastDelta_spec hA hcoherent havailable hS hT heq
    Centrality.decides_weaklyHolds passesToMeets_cornerCondition
  obtain ⟨central, hcentral, hruncentral⟩ := leastDelta_spec hA hcoherent havailable hS hT heq
    Centrality.decides_holds passesToMeets_rowCondition
  obtain ⟨rectangular, hrectangular, hrunrectangular⟩ :=
    leastDelta_spec hA hcoherent havailable hS hT heq Centrality.decides_isRectangular
      passesToMeets_rectangularCondition
  let meet : A.Congruence := ⟨_, hs.inf ht⟩
  have hmeet : rectangular ≤ meet := hrectangular.2 fun a b c d hmem =>
    rectangularCondition_meet hA s t
      ((mem_matrixTuples (L := start A settings) hA hS hT heq _).1 hmem)
  exact ⟨weak.partition, central.partition, rectangular.partition, meet.partition, hrunweak,
    hruncentral, hrunrectangular, Algebra.Congruence.meet_eq s t,
    Algebra.Congruence.le_eq_true (hweak.mono hcentral RowCondition.corner),
    Algebra.Congruence.le_eq_true (hcentral.mono hrectangular RectangularCondition.row),
    Algebra.Congruence.le_eq_true hmeet⟩

/-- In the residues modulo four the commutators of the parity with itself refine each other in turn, and
the last of them refines the parity. -/
theorem commutators_parity_residuesModFour :
    ∃ weak central rectangular : Partition,
      (∃ L', weakCommutator (.ofPartition ⟨#[0, 1, 0, 1], 2⟩) (.ofPartition ⟨#[0, 1, 0, 1], 2⟩)
        (start Algebra.residuesModFour .standard) = .ok weak L') ∧
      (∃ L', commutator (.ofPartition ⟨#[0, 1, 0, 1], 2⟩) (.ofPartition ⟨#[0, 1, 0, 1], 2⟩)
        (start Algebra.residuesModFour .standard) = .ok central L') ∧
      (∃ L', rectangularCommutator (.ofPartition ⟨#[0, 1, 0, 1], 2⟩)
        (.ofPartition ⟨#[0, 1, 0, 1], 2⟩) (start Algebra.residuesModFour .standard)
          = .ok rectangular L') ∧
      weak.le central = .ok true ∧ central.le rectangular = .ok true ∧
      rectangular.le ⟨#[0, 1, 0, 1], 2⟩ = .ok true := by
  have h0 : 0 < Algebra.residuesModFour.size := by decide
  have h2 : 2 < Algebra.residuesModFour.size := by decide
  let parity : Algebra.residuesModFour.Congruence :=
    Algebra.Congruence.cg Algebra.total_residuesModFour h0 h2
  obtain ⟨weak, central, rectangular, meet, hweak, hcentral, hrectangular, hmeet, hle, hle', hle''⟩ :=
    commutators_le_meet Algebra.total_residuesModFour .start
      (exists_whole_start Algebra.total_residuesModFour) parity parity
  have hself : parity.partition.meet parity.partition = .ok parity.partition := by
    have hparity := parity.isCongruence
    rw [Algebra.Congruence.meet_eq]
    refine congrArg Except.ok ((hparity.inf hparity).ext hparity ?_)
    rw [hparity.valid.setoid_inf, inf_idem]
  obtain rfl : parity.partition = meet := Except.ok.inj (hself.symm.trans hmeet)
  have heq : parity.partition = ⟨#[0, 1, 0, 1], 2⟩ :=
    Algebra.Congruence.cg_zero_two_residuesModFour
  rw [heq] at hweak hcentral hrectangular hle''
  exact ⟨weak, central, rectangular, hweak, hcentral, hrectangular, hle, hle', hle''⟩

end CongruenceLattice

end UniversalAlgebra
