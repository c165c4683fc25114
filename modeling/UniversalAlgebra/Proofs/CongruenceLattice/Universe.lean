/-
**The list of all congruences.**

A list within its cap is whole and kept, and from then on no cap matters; a list over its cap has one
congruence more than the cap allows, and nothing is kept.  The queries that need the whole list are
refused exactly if it is not kept and the cap of the lattice cuts it off, since nothing else in them
can fail: a congruence passes the test for congruences, and the matrices of relations on the universe
are checked without an error.

Main definitions:

* `CongruenceLattice.NeedsAll` — the queries that need the whole list;
* `CongruenceLattice.Demanding` — a query that is refused exactly if the list is cut off.

Main results:

* `CongruenceLattice.NeedsAll.demanding` — the queries that need the whole list are refused exactly
  then;
* `CongruenceLattice.congruences_complete_or_cut_off` — **the list of all congruences**.
-/

import Mathlib
import UniversalAlgebra.Proofs.CongruenceLattice.Coherent
import UniversalAlgebra.Proofs.CongruenceLattice.Matrices

set_option autoImplicit false

namespace UniversalAlgebra.CongruenceLattice

open Query Fallible

variable {A : Algebra} {settings : Settings} {L : CongruenceLattice}

/-- The queries that need the whole list of congruences, with arguments on the universe. -/
inductive NeedsAll (A : Algebra) : {α : Type} → Query CongruenceLattice α → Prop
  | cardinality : NeedsAll A cardinality
  | meetIrreducibleList : NeedsAll A meetIrreducibleList
  | filter {p : Partition} (hp : p.size = A.size) : NeedsAll A (filter p)
  | complements {p : Partition} (hp : p.size = A.size) : NeedsAll A (complements p)
  | centralityTable {S T : Relation} (hS : S.IsOver A.size) (hT : T.IsOver A.size) :
      NeedsAll A (centralityTable S T)

/-! ### Refusals -/

/-- The query answers if the whole list is available, and is refused because of the cap if not. -/
def Demanding {α : Type} (A : Algebra) (settings : Settings) (q : Query CongruenceLattice α) : Prop :=
  ∀ L, Coherent A settings L →
    (Available complete A.congruences settings.maxSize L → ∃ x, q.result L = .ok x) ∧
    (¬ Available complete A.congruences settings.maxSize L →
      ∃ caller, q.result L = .error (.latticeCapped caller A.name))

/-- What asks for the whole list first, and has an answer once it is known. -/
theorem Demanding.of_bind (hA : A.Total) {α : Type} {caller : String}
    {f : List Partition → Query CongruenceLattice α} {y : α}
    (hf : Yields (Coherent A settings) (f A.congruences) (.ok y)) :
    Demanding A settings (allCongruences caller >>= f) := by
  intro L hL
  obtain ⟨L', hL', ⟨havailable, hrun⟩ | ⟨hnot, hrun⟩⟩ := allCongruences_spec hA caller hL
  · refine ⟨fun _ => ⟨y, ?_⟩, fun h => absurd havailable h⟩
    rw [result, bind_of_ok hrun]
    exact hf.result_eq hL'
  · refine ⟨fun h => absurd h hnot, fun _ => ⟨caller, ?_⟩⟩
    rw [result, bind_of_error hrun]

/-- A check that goes through does not matter. -/
theorem Demanding.check {α β : Type} {check : CongruenceLattice → Except Fault β} {b : β}
    {f : β → Query CongruenceLattice α} (hcheck : ∀ L, L.algebra = A → check L = .ok b)
    (hf : Demanding A settings (f b)) :
    Demanding A settings (get >>= fun L => liftM (check L) >>= f) := by
  intro L hL
  have hrun : (get >>= fun L => liftM (check L) >>= f : Query CongruenceLattice α) L = f b L := by
    rw [get_bind_apply, hcheck L hL.1.algebra_eq]
    rfl
  rw [result, hrun]
  exact hf L hL

/-- Once the list is known, the matrices are checked against each of its members. -/
theorem yields_centralityTable (hA : A.Total) (settings : Settings) {S T : Relation} (hS : S.IsOver A.size)
    (hT : T.IsOver A.size) {tuples : List (List ℕ)}
    (heq : (start A settings).matrixTuples S T = .ok tuples) :
    Yields (Coherent A settings)
      (do
        let tuples ← (← get).matrixTuples S T
        A.congruences.mapM fun delta => do checkTuples tuples (← Centrality.start S T delta))
      (.ok (A.congruences.map fun delta => (Centrality.search (tuples.map Matrix4.ofList)
        ⟨S, T, delta, none, none, none⟩).2)) := by
  have htuples := matrixTuples_subset (L := start A settings) hA hS hT heq
  refine Yields.get_bind fun L hL => ?_
  have hsame : L.matrixTuples S T = .ok tuples :=
    (hL.congr (fun L => L.matrixTuples S T) fun _ => rfl).trans heq
  rw [hsame]
  refine Yields.bind (Yields.lift (.ok tuples)) (Yields.mapM fun delta hdelta => ?_)
  have hsize : delta.size = A.size := (Algebra.mem_congruences.1 hdelta).size_eq
  have hstart : Centrality.start S T delta = .ok ⟨S, T, delta, none, none, none⟩ := by
    rw [Centrality.start, if_pos ⟨hS.size_eq.trans hT.size_eq.symm, hS.size_eq.trans hsize.symm⟩]
  rw [hstart]
  refine Yields.bind (Yields.lift (.ok _)) ?_
  rw [checkTuples_eq htuples hsize]
  exact Yields.lift _

/-- The queries that need the whole list are refused exactly if it is cut off. -/
theorem NeedsAll.demanding (hA : A.Total) {α : Type} {q : Query CongruenceLattice α}
    (hq : NeedsAll A q) : Demanding A settings q := by
  cases hq with
  | cardinality => exact .of_bind hA (Yields.pure _)
  | meetIrreducibleList => exact .of_bind hA (yields_meetIrreducibles hA)
  | filter hp =>
      refine .check (fun L hL => checkPartition_eq (hp.trans (congrArg Algebra.size hL.symm))) ?_
      exact .of_bind hA (Yields.pure _)
  | @complements p hp =>
      refine .check (fun L hL => checkPartition_eq (hp.trans (congrArg Algebra.size hL.symm))) ?_
      refine .of_bind hA (y := A.congruences.filter fun q => p.sup q == Partition.coarsest A.size &&
        p.inf q == Partition.finest A.size) (Yields.get_bind fun L hL => ?_)
      rw [one, hL.1.zero_eq, hL.1.algebra_eq]
      exact Yields.pure _
  | centralityTable hS hT =>
      obtain ⟨tuples, heq, -⟩ := matrixTuples_eq (L := start A settings) hA hS hT
      exact .of_bind hA (yields_centralityTable hA settings hS hT heq)

/-- **The list of all congruences.**  There is a list of exactly the congruences of a total algebra, in
strictly increasing rank order, such that in every reachable lattice, whatever was asked before:

* if the whole list is kept, or there is no cap, or the cap is not below its length, the list up to
  the cap is the whole list, not flagged, and it is kept afterwards;
* otherwise the list up to the cap is flagged and has one congruence more than the cap allows,
  distinct ones in rank order, and nothing is kept;
* what needs the whole list, with arguments of the size of the algebra, is refused with a structural
  fault exactly if it is not kept and the lattice has a cap below its length, and answers
  otherwise. -/
theorem congruences_complete_or_cut_off (hA : A.Total) :
    ∃ all : List Partition, (∀ p, p ∈ all ↔ A.IsCongruence p) ∧ all.Nodup ∧
      all.Pairwise (fun p q => p.rankLess q = true) ∧
      ∀ settings L, Reachable A settings L →
        (∀ cap, L.complete.isReady = true ∨ cap = 0 ∨ all.length ≤ cap →
          ∃ L', congruences cap L = .ok (all, false) L' ∧ L'.complete.isReady = true) ∧
        (∀ cap, ¬ (L.complete.isReady = true ∨ cap = 0 ∨ all.length ≤ cap) →
          ∃ found L', congruences cap L = .ok (found, true) L' ∧ L'.complete.isReady = false ∧
            (∀ p ∈ found, A.IsCongruence p) ∧ found.length = cap + 1 ∧ found.Nodup ∧
            found.Pairwise fun p q => p.rankLess q = true) ∧
        ∀ {α : Type} {q : Query CongruenceLattice α}, NeedsAll A q →
          ((∃ fault, q.result L = .error fault ∧ fault.kind = .structural) ↔
            L.complete.isReady = false ∧ 0 < settings.maxSize ∧ settings.maxSize < all.length) ∧
          ((∃ x, q.result L = .ok x) ↔
            ¬ (L.complete.isReady = false ∧ 0 < settings.maxSize ∧
              settings.maxSize < all.length)) := by
  refine ⟨A.congruences, fun p => Algebra.mem_congruences,
    Partition.orderedBy_rankLess.nodup A.pairwise_congruences, A.pairwise_congruences, ?_⟩
  intro settings L hL
  have hcoherent := hL.coherent hA
  refine ⟨?_, ?_, ?_⟩
  · intro cap havailable
    obtain ⟨L', hrun, -, hkept⟩ := (lists_congruences hA cap).whole hcoherent havailable
    exact ⟨L', hrun, Slot.isReady_of_eq_some hkept⟩
  · intro cap hnot
    obtain ⟨found, L', hrun, -, hvacant, hmem, hlength, hpairwise⟩ :=
      (lists_congruences hA cap).cutOff hcoherent hnot
    exact ⟨found, L', hrun, hvacant, fun p hp => Algebra.mem_congruences.1 (hmem p hp), hlength,
      Partition.orderedBy_rankLess.nodup hpairwise, hpairwise⟩
  · intro α q hq
    obtain ⟨hanswers, hrefuses⟩ := hq.demanding hA L hcoherent
    have hiff : (L.complete.isReady = false ∧ 0 < settings.maxSize ∧
        settings.maxSize < A.congruences.length) ↔
          ¬ Available complete A.congruences settings.maxSize L := by
      rw [Available, not_or, Bool.not_eq_true, not_or, Nat.pos_iff_ne_zero, not_le]
    rw [hiff, not_not]
    by_cases havailable : Available complete A.congruences settings.maxSize L
    · obtain ⟨x, hx⟩ := hanswers havailable
      simp [hx, havailable]
    · obtain ⟨caller, hcaller⟩ := hrefuses havailable
      simp [hcaller, havailable, Fault.kind]

/-- The residues modulo four have more than one congruence: under a cap of one the list is cut off
after two, unless the whole list was asked for before, and the number of congruences is refused to a
lattice with that cap. -/
theorem congruences_one_residuesModFour :
    (∃ found L', congruences 1 (start Algebra.residuesModFour .standard) = .ok (found, true) L' ∧
      found.length = 2) ∧
    (∃ all L' L'', congruences 0 (start Algebra.residuesModFour .standard) = .ok (all, false) L' ∧
      congruences 1 L' = .ok (all, false) L'') ∧
    ∃ fault, cardinality.result (start Algebra.residuesModFour ⟨1, 1⟩)
      = .error fault ∧ fault.kind = .structural := by
  obtain ⟨all, hmem, -, -, hall⟩ := congruences_complete_or_cut_off Algebra.total_residuesModFour
  have hfinest : Partition.finest 4 ∈ all :=
    (hmem _).2 (Algebra.isCongruence_finest Algebra.residuesModFour)
  have hparity : ⟨#[0, 1, 0, 1], 2⟩ ∈ all := by
    rw [hmem, ← Algebra.Congruence.cg_zero_two_residuesModFour]
    exact Algebra.isCongruence_cg Algebra.total_residuesModFour (by decide) (by decide)
  have hlength : 1 < all.length := by
    have hsub : [Partition.finest 4, ⟨#[0, 1, 0, 1], 2⟩] ⊆ all := by
      simp [hfinest, hparity]
    exact (List.subperm_of_subset (by decide) hsub).length_le
  obtain ⟨hcomplete, hcut, -⟩ := hall .standard _ .start
  obtain ⟨found, L', hrun, -, -, hfound, -⟩ := hcut 1 (by
    rintro (h | h | h)
    · cases h
    · cases h
    · omega)
  obtain ⟨L₀, hrun₀, hready⟩ := hcomplete 0 (Or.inr (Or.inl rfl))
  have hreachable : Reachable Algebra.residuesModFour .standard L₀ := by
    have h := Reachable.query (.congruences 0) (@Reachable.start Algebra.residuesModFour .standard)
    rwa [after, hrun₀] at h
  obtain ⟨L₁, hrun₁, -⟩ := (hall .standard L₀ hreachable).1 1 (Or.inl hready)
  refine ⟨⟨found, L', hrun, hfound⟩, ⟨all, L₀, L₁, hrun₀, hrun₁⟩, ?_⟩
  exact ((hall _ _ .start).2.2 .cardinality).1.2 ⟨rfl, by decide, hlength⟩

end UniversalAlgebra.CongruenceLattice
