/-
**What a congruence lattice keeps.**

A congruence lattice starts with nothing computed, and callers ask it in any order, also in ways
that fail.  Whatever they ask, what is kept for principal congruences, their list and the
irreducible ones is what the algebra determines, so that the answers do not depend on what was asked
before.

Main definitions:

* `CongruenceLattice.Public` — the queries that a caller can make;
* `CongruenceLattice.Reachable` — the states in which a lattice can be;
* `Algebra.principals`, `Algebra.irreducibles` — the lists that the algebra determines;
* `CongruenceLattice.Sound` — what is kept is what the algebra determines;
* `CongruenceLattice.Stable` — an invariant that survives whatever is put into a cache.

Main results:

* `CongruenceLattice.Stable.keeps` — every query keeps a stable invariant;
* `CongruenceLattice.Reachable.sound` — **every reachable lattice is sound**;
* `CongruenceLattice.yields_cg`, `CongruenceLattice.yields_principalData`,
  `CongruenceLattice.yields_irreducibleData` — the answers that do not depend on the state;
* `CongruenceLattice.least_congruence_generated` — **generation yields the least congruence**.
-/

import UniversalAlgebra.CongruenceLattice.Commutator
import UniversalAlgebra.Proofs.CongruenceLattice.Generation

set_option autoImplicit false

namespace UniversalAlgebra

/-! ### Lists that the algebra determines -/

namespace Algebra

/-- The congruences generated by single pairs, each with its pair. -/
def principalEntries (A : Algebra) : List (Partition × (ℕ × ℕ)) :=
  (increasingPairs A.size).map fun p => (A.cg p.1 p.2, p)

/-- The distinct congruences generated by single pairs. -/
def principals (A : Algebra) : Principals := .ofEntries A.principalEntries

/-- The congruences that are not the join of those principal ones strictly below them, each with
that join. -/
def irreducibles (A : Algebra) : List (Partition × Partition) :=
  selectIrreducibles (Partition.finest A.size) A.principals.elements

end Algebra

theorem mem_increasingPairs {n : ℕ} {p : ℕ × ℕ} :
    p ∈ increasingPairs n ↔ p.1 < p.2 ∧ p.2 < n := by
  obtain ⟨a, b⟩ := p
  simp only [increasingPairs, List.mem_flatMap, List.mem_range, List.mem_map, List.mem_range'_1,
    Prod.mk.injEq]
  constructor
  · rintro ⟨a', ha, b', hb, rfl, rfl⟩
    omega
  · rintro ⟨hab, hb⟩
    exact ⟨a, by omega, b, by omega, rfl, rfl⟩

/-- The pairs are listed in lexicographic order. -/
theorem pairwise_increasingPairs (n : ℕ) :
    (increasingPairs n).Pairwise fun p q => toLex p < toLex q := by
  rw [increasingPairs, List.pairwise_flatMap]
  refine ⟨fun a _ => ?_, List.pairwise_lt_range.imp fun hlt p hp q hq => ?_⟩
  · rw [List.pairwise_map]
    refine (List.pairwise_lt_range' 1).imp fun hlt => ?_
    exact Prod.Lex.toLex_lt_toLex.2 (Or.inr ⟨rfl, hlt⟩)
  · obtain ⟨_, -, rfl⟩ := List.mem_map.1 hp
    obtain ⟨_, -, rfl⟩ := List.mem_map.1 hq
    exact Prod.Lex.toLex_lt_toLex.2 (Or.inl hlt)

theorem nodup_increasingPairs (n : ℕ) : (increasingPairs n).Nodup := by
  refine (pairwise_increasingPairs n).imp fun hlt heq => ?_
  exact hlt.ne (congrArg toLex heq)

namespace CongruenceLattice

open Query Fallible

variable {A : Algebra} {settings : Settings} {L : CongruenceLattice}

/-! ### Reachable states -/

/-- The queries that a caller can make of a lattice and that may change it. -/
inductive Public : {α : Type} → Query CongruenceLattice α → Prop
  | cg (a b : ℕ) : Public (cg a b)
  | generatedBy (ps : List (ℕ × ℕ)) : Public (generatedBy ps)
  | principalList : Public principalList
  | generatingPair (beta : Partition) : Public (generatingPair beta)
  | irreducibleList : Public irreducibleList
  | joinIrreducibleList : Public joinIrreducibleList
  | isJoinIrreducible (beta : Partition) : Public (isJoinIrreducible beta)
  | lowerStar (beta : Partition) : Public (lowerStar beta)
  | atomList : Public atomList
  | upperCovers (p : Partition) : Public (upperCovers p)
  | findUpperCover (p : Partition) : Public (findUpperCover p)
  | isMeetIrreducible (p : Partition) : Public (isMeetIrreducible p)
  | joinPrime (beta : Partition) : Public (joinPrime beta)
  | isDistributive : Public isDistributive
  | isSimple : Public isSimple
  | principalChain : Public principalChain
  | congruences (cap : ℕ) : Public (congruences cap)
  | cardinality : Public cardinality
  | meetIrreducibleList : Public meetIrreducibleList
  | irredundantMeetDecomposition : Public irredundantMeetDecomposition
  | filter (p : Partition) : Public (filter p)
  | complements (p : Partition) : Public (complements p)
  | centralityTable (S T : Relation) : Public (centralityTable S T)
  | commutator (S T : Relation) : Public (commutator S T)
  | weakCommutator (S T : Relation) : Public (weakCommutator S T)
  | rectangularCommutator (S T : Relation) : Public (rectangularCommutator S T)
  | reset : Public (modify reset)

/-- The states in which a lattice can be: at the start nothing was computed, and each query leaves a
state, whether it fails or not. -/
inductive Reachable (A : Algebra) (settings : Settings) : CongruenceLattice → Prop
  | start : Reachable A settings (start A settings)
  | query {α : Type} {q : Query CongruenceLattice α} {L : CongruenceLattice} (hq : Public q)
      (hL : Reachable A settings L) : Reachable A settings (q.after L)

/-- What is kept is what the algebra determines. -/
structure Sound (A : Algebra) (settings : Settings) (L : CongruenceLattice) : Prop where
  algebra_eq : L.algebra = A
  settings_eq : L.settings = settings
  principal_eq : ∀ k θ, L.principal.find? k = some θ → θ = A.cg k.1 k.2
  principals_eq : ∀ data, L.principals.value? = some data → data = A.principals
  irreducibles_eq : ∀ list, L.irreducibles.value? = some list → list = A.irreducibles

theorem sound_start (A : Algebra) (settings : Settings) : Sound A settings (start A settings) where
  algebra_eq := rfl
  settings_eq := rfl
  principal_eq _ _ h := by simp [start] at h
  principals_eq _ h := by simp [start, Slot.vacant] at h
  irreducibles_eq _ h := by simp [start, Slot.vacant] at h

theorem Sound.zero_eq (hL : Sound A settings L) : L.zero = Partition.finest A.size := by
  rw [zero, hL.algebra_eq]

/-! ### Answers that do not depend on the state -/

theorem Sound.generate_eq (hA : A.Total) (hL : Sound A settings L) {a b : ℕ} (ha : a < A.size)
    (hb : b < A.size) :
    L.generate ((CongruenceClosure.start L.algebra.size).merge a b).2 = .ok (A.cg a b) := by
  obtain rfl := hL.algebra_eq
  obtain ⟨s, hclose, hs⟩ :=
    CongruenceClosure.close_foldAll hA [(a, b)] (by simp [ha, hb]) L.mode
  have hcg := hA.isLeastCongruence_cg ha hb
  have hleast : L.algebra.IsLeastCongruence (fun x y => x = a ∧ y = b) s.partition := by
    simpa using hs
  rw [← hleast.eq hcg]
  exact CongruenceLattice.generate_eq hclose

/-- The congruence generated by a pair of elements is the same in every state. -/
theorem yields_cg (hA : A.Total) {a b : ℕ} (ha : a < A.size) (hb : b < A.size) :
    Yields (Sound A settings) (cg a b) (.ok (A.cg a b)) := by
  refine Yields.get_bind fun L hL => ?_
  have hcheck : L.checkPair (a, b) = .ok () := by
    obtain rfl := hL.algebra_eq
    exact checkPair_eq hA ha hb
  rw [hcheck]
  refine Yields.bind (Yields.lift _) ?_
  split
  · next hab =>
      subst hab
      refine Yields.get_bind fun L hL => ?_
      rw [hL.zero_eq, ← hA.cg_self ha]
      exact Yields.pure _
  · next hab =>
      -- the smaller element comes first in the table
      have hkey : A.cg (min a b) (max a b) = A.cg a b := by
        rcases Nat.le_total a b with h | h
        · rw [Nat.min_eq_left h, Nat.max_eq_right h]
        · rw [Nat.min_eq_right h, Nat.max_eq_left h, hA.cg_comm hb ha]
      have hmin : min a b < A.size := by omega
      have hmax : max a b < A.size := by omega
      rw [← hkey]
      refine Yields.findOrCompute (fun L hL w => hL.principal_eq (min a b, max a b) w) ?_ ?_
      · refine Yields.get_bind fun L hL => ?_
        rw [hL.generate_eq hA hmin hmax]
        exact Yields.lift _
      · exact fun L _ hL =>
          { hL with principal_eq := Memo.forall_find?_publish hL.principal_eq rfl }

/-- The list of principal congruences is the same in every state. -/
theorem yields_principalData (hA : A.Total) :
    Yields (Sound A settings) principalData (.ok A.principals) := by
  refine Yields.getOrCompute (fun L hL w hw => hL.principals_eq w hw) ?_
    fun L hL => { hL with principals_eq := fun data h => by cases h; rfl }
  refine Yields.get_bind fun L hL => ?_
  have hentries : Yields (Sound A settings)
      ((increasingPairs L.algebra.size).mapM fun p => return (← cg p.1 p.2, p))
      (.ok A.principalEntries) := by
    rw [hL.algebra_eq, Algebra.principalEntries]
    refine Yields.mapM fun p hp => ?_
    obtain ⟨hlt, hp⟩ := mem_increasingPairs.1 hp
    exact Yields.bind (yields_cg hA (hlt.trans hp) hp) (Yields.pure (A.cg p.1 p.2, p))
  exact Yields.bind hentries (Yields.pure A.principals)

theorem yields_principalList (hA : A.Total) :
    Yields (Sound A settings) principalList (.ok A.principals.elements) :=
  Yields.bind (yields_principalData hA) (Yields.pure _)

/-- The list of irreducible congruences is the same in every state. -/
theorem yields_irreducibleData (hA : A.Total) :
    Yields (Sound A settings) irreducibleData (.ok A.irreducibles) := by
  refine Yields.getOrCompute (fun L hL w hw => hL.irreducibles_eq w hw) ?_
    fun L hL => { hL with irreducibles_eq := fun list h => by cases h; rfl }
  refine Yields.bind (yields_principalList hA) (Yields.get_bind fun L hL => ?_)
  rw [hL.zero_eq]
  exact Yields.pure _

theorem yields_irreducibleList (hA : A.Total) :
    Yields (Sound A settings) irreducibleList (.ok (A.irreducibles.map (·.1))) :=
  Yields.bind (yields_irreducibleData hA) (Yields.pure _)

/-! ### Stable invariants

A query changes the lattice by what it puts into the caches, so that an invariant which survives
that survives every query. -/

/-- An invariant that survives whatever is put into a cache, and a reset. -/
structure Stable (I : CongruenceLattice → Prop) : Prop where
  cg (a b : ℕ) : Keeps I (cg a b)
  generatedBy (ps : List (ℕ × ℕ)) : Keeps I (generatedBy ps)
  principalData : Keeps I principalData
  irreducibleData : Keeps I irreducibleData
  joinIrreducibleList : Keeps I joinIrreducibleList
  atomList : Keeps I atomList
  congruences (cap : ℕ) : Keeps I (congruences cap)
  meetIrreducibleList : Keeps I meetIrreducibleList
  reset : Keeps I (modify reset)

section

variable {I : CongruenceLattice → Prop}

theorem keeps_irreducibleList (h : Keeps I irreducibleData) : Keeps I irreducibleList :=
  Keeps.bind h fun _ => Keeps.pure _

theorem keeps_upperCovers (h : Keeps I irreducibleData) (p : Partition) :
    Keeps I (upperCovers p) := by
  refine Keeps.get_bind fun L _ => Keeps.bind (Keeps.lift _) fun answer => Keeps.guard fun _ => ?_
  exact Keeps.bind (keeps_irreducibleList h) fun _ => Keeps.pure _

theorem keeps_isMeetIrreducible (h : Keeps I irreducibleData) (p : Partition) :
    Keeps I (isMeetIrreducible p) := by
  refine Keeps.get_bind fun L _ => Keeps.ite (Keeps.pure _) ?_
  exact Keeps.bind (keeps_upperCovers h p) fun _ => Keeps.pure _

theorem keeps_findUpperCover (h : Keeps I irreducibleData) (p : Partition) :
    Keeps I (findUpperCover p) := by
  refine Keeps.get_bind fun L _ => Keeps.bind (Keeps.lift _) fun _ => ?_
  refine Keeps.get_bind fun L _ => Keeps.ite (Keeps.pure _) ?_
  refine Keeps.bind (keeps_irreducibleList h) fun _ => ?_
  split
  · exact Keeps.pure _
  · exact Keeps.throw _

theorem keeps_chainFrom (h : ∀ a b, Keeps I (cg a b)) (fuel : ℕ) (p : Partition) :
    Keeps I (chainFrom fuel p) := by
  induction fuel generalizing p with
  | zero => exact Keeps.pure _
  | succ fuel ih =>
      refine Keeps.get_bind fun L _ => Keeps.ite (Keeps.pure _) ?_
      split
      · next r s _ _ =>
          exact Keeps.bind (h r s) fun above => Keeps.bind (ih _) fun _ => Keeps.pure _
      · exact Keeps.throw _

theorem keeps_allCongruences (h : ∀ cap, Keeps I (congruences cap)) (caller : String) :
    Keeps I (allCongruences caller) := by
  refine Keeps.get_bind fun L _ => Keeps.bind (h _) fun found => ?_
  exact Keeps.ite (Keeps.throw _) (Keeps.pure _)

theorem keeps_centralityTable (h : ∀ cap, Keeps I (congruences cap)) (S T : Relation) :
    Keeps I (centralityTable S T) := by
  refine Keeps.bind (keeps_allCongruences h _) fun deltas => Keeps.get_bind fun L _ => ?_
  refine Keeps.bind (Keeps.lift _) fun tuples => Keeps.mapM (fun delta => ?_) deltas
  exact Keeps.bind (Keeps.lift _) fun _ => Keeps.lift _

theorem keeps_leastDelta (h : ∀ cap, Keeps I (congruences cap)) (S T : Relation)
    (holds : Centrality → Bool) : Keeps I (leastDelta S T holds) :=
  Keeps.bind (keeps_centralityTable h S T) fun _ => Keeps.get_bind fun _ _ => Keeps.pure _

/-- Whatever a caller asks, a stable invariant is kept. -/
theorem Stable.keeps (h : Stable I) {α : Type} {q : Query CongruenceLattice α} (hq : Public q) :
    Keeps I q := by
  cases hq with
  | cg a b => exact h.cg a b
  | generatedBy ps => exact h.generatedBy ps
  | principalList => exact Keeps.bind h.principalData fun _ => Keeps.pure _
  | generatingPair beta =>
      refine Keeps.get_bind fun L _ => Keeps.bind (Keeps.lift _) fun _ => ?_
      refine Keeps.bind h.principalData fun data => ?_
      split
      · exact Keeps.pure _
      · exact Keeps.throw _
  | irreducibleList => exact keeps_irreducibleList h.irreducibleData
  | joinIrreducibleList => exact h.joinIrreducibleList
  | isJoinIrreducible beta =>
      refine Keeps.get_bind fun L _ => Keeps.bind (Keeps.lift _) fun _ => ?_
      refine Keeps.get_bind fun L _ => Keeps.ite (Keeps.pure _) ?_
      exact Keeps.bind (keeps_irreducibleList h.irreducibleData) fun _ => Keeps.pure _
  | lowerStar beta =>
      refine Keeps.get_bind fun L _ => Keeps.bind (Keeps.lift _) fun _ => ?_
      exact Keeps.bind h.irreducibleData fun _ => Keeps.pure _
  | atomList => exact h.atomList
  | upperCovers p => exact keeps_upperCovers h.irreducibleData p
  | findUpperCover p => exact keeps_findUpperCover h.irreducibleData p
  | isMeetIrreducible p => exact keeps_isMeetIrreducible h.irreducibleData p
  | joinPrime beta =>
      refine Keeps.get_bind fun L _ => Keeps.bind (Keeps.lift _) fun _ => ?_
      refine Keeps.bind (keeps_irreducibleList h.irreducibleData) fun _ => ?_
      exact Keeps.get_bind fun L _ => Keeps.pure _
  | isDistributive =>
      refine Keeps.bind (keeps_irreducibleList h.irreducibleData) fun _ => ?_
      exact Keeps.get_bind fun L _ => Keeps.pure _
  | isSimple =>
      refine Keeps.get_bind fun L _ => Keeps.ite (Keeps.pure _) ?_
      refine Keeps.bind (Keeps.bind h.principalData fun _ => Keeps.pure _) fun _ => ?_
      exact Keeps.get_bind fun L _ => Keeps.pure _
  | principalChain => exact Keeps.get_bind fun L _ => keeps_chainFrom h.cg _ _
  | congruences cap => exact h.congruences cap
  | cardinality => exact Keeps.bind (keeps_allCongruences h.congruences _) fun _ => Keeps.pure _
  | meetIrreducibleList => exact h.meetIrreducibleList
  | irredundantMeetDecomposition =>
      refine Keeps.bind h.meetIrreducibleList fun candidates => ?_
      refine Keeps.get_bind fun L _ => Keeps.ite (Keeps.pure _) ?_
      refine Keeps.bind (keeps_upperCovers h.irreducibleData _) fun _ => ?_
      exact Keeps.ite (Keeps.pure _) (Keeps.pure _)
  | filter p =>
      refine Keeps.get_bind fun L _ => Keeps.bind (Keeps.lift _) fun _ => ?_
      exact Keeps.bind (keeps_allCongruences h.congruences _) fun _ => Keeps.pure _
  | complements p =>
      refine Keeps.get_bind fun L _ => Keeps.bind (Keeps.lift _) fun _ => ?_
      refine Keeps.bind (keeps_allCongruences h.congruences _) fun _ => ?_
      exact Keeps.get_bind fun L _ => Keeps.pure _
  | centralityTable S T => exact keeps_centralityTable h.congruences S T
  | commutator S T => exact keeps_leastDelta h.congruences S T _
  | weakCommutator S T => exact keeps_leastDelta h.congruences S T _
  | rectangularCommutator S T => exact keeps_leastDelta h.congruences S T _
  | reset => exact h.reset

/-- A stable invariant that holds at the start holds of every reachable lattice. -/
theorem Stable.of_reachable (h : Stable I) (hstart : I (CongruenceLattice.start A settings))
    (hL : Reachable A settings L) : I L := by
  induction hL with
  | start => exact hstart
  | query hq _ ih => exact h.keeps hq _ ih

end

/-! ### Soundness is stable -/

theorem keeps_cg (hA : A.Total) (a b : ℕ) : Keeps (Sound A settings) (cg a b) := by
  by_cases hab : a < A.size ∧ b < A.size
  · exact (yields_cg hA hab.1 hab.2).keeps
  · refine Keeps.get_bind fun L hL => ?_
    obtain rfl := hL.algebra_eq
    cases hcheck : L.checkPair (a, b) with
    | ok u => exact absurd (lt_of_checkPair_eq_ok hcheck) hab
    | error fault => exact Keeps.throw fault

theorem keeps_congruences (hA : A.Total) (cap : ℕ) :
    Keeps (Sound A settings) (congruences cap) := by
  refine Keeps.get_bind fun L _ => ?_
  split
  · exact Keeps.pure _
  · refine Keeps.bind ((yields_irreducibleList hA).keeps) fun _ => Keeps.get_bind fun L _ => ?_
    dsimp only
    split
    · exact Keeps.pure _
    · refine Keeps.bind (fun L hL => ?_) fun _ => Keeps.pure _
      exact (show Sound A settings _ from { hL with })

theorem stable_sound (hA : A.Total) : Stable (Sound A settings) where
  cg := keeps_cg hA
  generatedBy ps := by
    unfold generatedBy
    split
    · next a b => exact keeps_cg hA a b
    · refine Keeps.get_bind fun L _ => Keeps.bind (Keeps.lift _) fun seed => ?_
      split
      · exact Keeps.get_bind fun L _ => Keeps.pure _
      · refine Keeps.findOrCompute ?_ fun L _ _ hL => { hL with }
        exact Keeps.get_bind fun L _ => Keeps.lift _
  principalData := (yields_principalData hA).keeps
  irreducibleData := (yields_irreducibleData hA).keeps
  joinIrreducibleList := by
    refine Keeps.getOrCompute ?_ fun L _ hL => { hL with }
    exact Keeps.bind (yields_irreducibleList hA).keeps fun _ => Keeps.get_bind fun L _ => Keeps.pure _
  atomList := by
    refine Keeps.getOrCompute ?_ fun L _ hL => { hL with }
    exact Keeps.bind (yields_irreducibleList hA).keeps fun _ => Keeps.pure _
  congruences := keeps_congruences hA
  meetIrreducibleList := by
    refine Keeps.bind (keeps_allCongruences (keeps_congruences hA) _) fun all => ?_
    refine Keeps.getOrCompute (Keeps.filterM (fun p => ?_) all) fun L _ hL => { hL with }
    exact keeps_isMeetIrreducible (yields_irreducibleData hA).keeps p
  reset := by
    refine Keeps.modify fun L hL => ?_
    rw [CongruenceLattice.reset, hL.algebra_eq, hL.settings_eq]
    exact sound_start A settings

/-- Whatever a caller asks, the lattice stays sound. -/
theorem Public.keeps (hA : A.Total) {α : Type} {q : Query CongruenceLattice α} (hq : Public q) :
    Keeps (Sound A settings) q :=
  (stable_sound hA).keeps hq

/-- **Every reachable lattice is sound.** -/
theorem Reachable.sound (hA : A.Total) (hL : Reachable A settings L) : Sound A settings L :=
  (stable_sound hA).of_reachable (sound_start A settings) hL

/-! ### Least congruences -/

/-- **Generation yields the least congruence.**  For pairs of elements, for a partition of the
universe and for one pair of elements there is a least congruence.  Closing the pairs or the
partition without a cap, in either mode, ends closed with it; so every lattice of the algebra
answers with it, and so does every reachable one for a single pair, whatever was asked before.  A
partition is found to be a congruence exactly if it is compatible with the operations. -/
theorem least_congruence_generated (hA : A.Total) :
    (∀ ps : List (ℕ × ℕ), (∀ p ∈ ps, p.1 < A.size ∧ p.2 < A.size) →
      ∃ θ, A.IsLeastCongruence (fun x y => (x, y) ∈ ps) θ ∧
        (∀ mode, ∃ s, Closure.close A mode 0 0 ((CongruenceClosure.start A.size).foldAll ps)
          = ⟨.ok .closed, s⟩ ∧ s.partition = θ) ∧
        ∀ L : CongruenceLattice, L.algebra = A → L.cgPairs ps = .ok θ) ∧
    (∀ p : Partition, p.Valid → p.size = A.size →
      ∃ θ, A.IsLeastCongruence p.setoid θ ∧
        (∀ mode, ∃ s, Closure.close A mode 0 0 (CongruenceClosure.ofPartition p)
          = ⟨.ok .closed, s⟩ ∧ s.partition = θ) ∧
        ∀ L : CongruenceLattice, L.algebra = A → L.cgPartition p = .ok θ ∧
          ∃ answer, L.isCongruence p = .ok answer ∧ (answer = true ↔ A.Compatible p.setoid)) ∧
    ∀ a b : ℕ, a < A.size → b < A.size →
      ∃ θ, A.IsLeastCongruence (fun x y => x = a ∧ y = b) θ ∧
        ∀ settings L, Reachable A settings L → ∃ L', cg a b L = .ok θ L' := by
  refine ⟨?_, ?_, ?_⟩
  · intro ps hps
    obtain ⟨s, -, hs⟩ := CongruenceClosure.close_foldAll hA ps hps .sequential
    refine ⟨s.partition, hs, ?_, ?_⟩
    · intro mode
      obtain ⟨s', hclose, hs'⟩ := CongruenceClosure.close_foldAll hA ps hps mode
      exact ⟨s', hclose, hs'.eq hs⟩
    · rintro L rfl
      exact cgPairs_eq hA hps hs
  · intro p hp hsize
    obtain ⟨s, -, hs⟩ := CongruenceClosure.close_ofPartition hA hp hsize .sequential
    refine ⟨s.partition, hs, ?_, ?_⟩
    · intro mode
      obtain ⟨s', hclose, hs'⟩ := CongruenceClosure.close_ofPartition hA hp hsize mode
      exact ⟨s', hclose, hs'.eq hs⟩
    · rintro L rfl
      exact ⟨cgPartition_eq hA hp hsize hs, isCongruence_iff hA hp hsize⟩
  · intro a b ha hb
    refine ⟨A.cg a b, hA.isLeastCongruence_cg ha hb, ?_⟩
    intro settings L hL
    obtain ⟨L', -, h⟩ := yields_cg hA ha hb L (hL.sound hA)
    exact ⟨L', h⟩

/-- In the residues modulo four, zero and two generate the parity, as pairs, as a partition and as
one pair. -/
theorem parity_generated_residuesModFour :
    Algebra.residuesModFour.IsLeastCongruence (fun x y => (x, y) ∈ [(0, 2)]) ⟨#[0, 1, 0, 1], 2⟩ ∧
      (start Algebra.residuesModFour .standard).cgPairs [(0, 2)] = .ok ⟨#[0, 1, 0, 1], 2⟩ ∧
      (start Algebra.residuesModFour .standard).isCongruence (Partition.finest 4) = .ok true ∧
      ∃ L', cg 0 2 (start Algebra.residuesModFour .standard) = .ok ⟨#[0, 1, 0, 1], 2⟩ L' := by
  obtain ⟨hpairs, hpartition, hpair⟩ := least_congruence_generated Algebra.total_residuesModFour
  have hrun : (start Algebra.residuesModFour .standard).cgPairs [(0, 2)]
      = .ok ⟨#[0, 1, 0, 1], 2⟩ := by cbv
  obtain ⟨θ, hθ, -, hcgPairs⟩ := hpairs [(0, 2)] (by decide)
  obtain rfl : θ = ⟨#[0, 1, 0, 1], 2⟩ := Except.ok.inj ((hcgPairs _ rfl).symm.trans hrun)
  obtain ⟨_, -, -, hfinest⟩ := hpartition (Partition.finest 4) (Partition.valid_finest 4) (by decide)
  obtain ⟨answer, hanswer, hiff⟩ := (hfinest (start Algebra.residuesModFour .standard) rfl).2
  have htrue : answer = true := hiff.2 (Algebra.isCongruence_finest Algebra.residuesModFour).compatible
  obtain ⟨ψ, hψ, hcg⟩ := hpair 0 2 (by decide) (by decide)
  have hsame : ψ = ⟨#[0, 1, 0, 1], 2⟩ := hψ.eq (by simpa using hθ)
  exact ⟨hθ, hrun, htrue ▸ hanswer, hsame ▸ hcg .standard _ .start⟩

end CongruenceLattice

end UniversalAlgebra
