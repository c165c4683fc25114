/-
**The search for a smallest generating set, whatever was joined before.**

A join that takes an open set for closed spoils the table of generated sets.  The search for a smallest
generating set does not look there: it uses the subuniverse without generators, those with one
generator, which have a table of their own, and generation without caches.  What is kept of these is
right in every state in which a lattice can be, and so is the answer.

Main definitions:

* `SubalgebraLattice.Visited` — the states of a lattice whose caller may join any sets;
* `SubalgebraLattice.Grounded` — what is kept of generation by at most one element is right.

Main results:

* `SubalgebraLattice.Visited.grounded` — every visited lattice is grounded;
* `SubalgebraLattice.Grounded.yields_minimalGeneratingSet` — the search finds the first candidate;
* `SubalgebraLattice.minimalGeneratingSet_least` — **the answer is the first smallest generating set**.
-/

import Mathlib
import UniversalAlgebra.Proofs.CappedList
import UniversalAlgebra.Proofs.SubalgebraLattice.GeneratingSets
import UniversalAlgebra.Proofs.SubalgebraLattice.Reachable

set_option autoImplicit false

namespace UniversalAlgebra.SubalgebraLattice

open Query Fallible

variable {A : Algebra} {settings : Settings} {L : SubalgebraLattice}

/-! ### States after any joins -/

/-- The states of a lattice whose caller may also join sets that are not closed. -/
inductive Visited (A : Algebra) (settings : Settings) : SubalgebraLattice → Prop
  | start : Visited A settings (start A settings)
  | query {α : Type} {q : Query SubalgebraLattice α} {L : SubalgebraLattice} (hq : Public A q)
      (hL : Visited A settings L) : Visited A settings (q.after L)
  | join (s t : ElementSet) {L : SubalgebraLattice} (hL : Visited A settings L) :
      Visited A settings ((join s t).after L)

/-- What is kept from generation by no element and by single elements, and the smallest generating
set, are what the algebra determines.  Nothing is said about the table into which joins write. -/
structure Grounded (A : Algebra) (L : SubalgebraLattice) : Prop where
  algebra_eq : L.algebra = A
  bottom_eq : ∀ s, L.bottom.value? = some s → s = A.generated []
  single_eq : ∀ x s, L.single.find? x = some s → s = A.generated [x]
  generatingSet_eq : ∀ s, L.generatingSet.value? = some s → s = A.firstGeneratingSet

theorem grounded_start (A : Algebra) (settings : Settings) : Grounded A (start A settings) := by
  refine ⟨rfl, ?_, ?_, ?_⟩
  all_goals
    intros
    simp_all [start, Slot.vacant]

theorem rooted_grounded : Rooted A (Grounded A) where
  algebra_eq _ hL := hL.algebra_eq
  bottom_eq _ hL := hL.bottom_eq
  single_eq _ hL := hL.single_eq
  keep_bottom _ hL := { hL with bottom_eq := fun _ h => by cases h; rfl }
  keep_single _ _ hL := { hL with single_eq := Memo.forall_find?_publish hL.single_eq rfl }

theorem detached_grounded : Detached (Grounded A) := fun _ _ _ _ hL => { hL with }

namespace Grounded

/-! ### The search for a smallest generating set -/

theorem yields_findGenerator (hA : A.Total) {xs : List ℕ} (hxs : ∀ x ∈ xs, x < A.size) :
    Yields (Grounded A) (findGenerator xs)
      (.ok (((xs.map fun x => [x]).find? A.spans).map ElementSet.mk)) := by
  induction xs with
  | nil => exact Yields.pure none
  | cons x xs ih =>
      refine Yields.bind (rooted_grounded.yields_oneGenerated hA (hxs x List.mem_cons_self)) ?_
      refine Yields.get_bind fun L hL => ?_
      rw [one, hL.algebra_eq, List.map_cons, List.find?_cons, Algebra.spans]
      split
      · next heq =>
          rw [heq, beq_self_eq_true]
          exact Yields.pure _
      · next hne =>
          rw [beq_eq_false_iff_ne.2 hne]
          exact ih fun y hy => hxs y (List.mem_cons_of_mem x hy)

/-- The selections of given sizes are tested in turn. -/
theorem findGeneratingOfSize_eq (hA : A.Total) (hL : Grounded A L) {ks : List ℕ}
    (hks : ∀ k ∈ ks, k ≤ A.size) :
    L.findGeneratingOfSize ks = .ok
      (((ks.flatMap fun k => Selection.all k (List.range A.size)).find? A.spans).map
        ElementSet.mk) := by
  obtain rfl := hL.algebra_eq
  induction ks with
  | nil => rfl
  | cons k ks ih =>
      have htest (xs : List ℕ) (hxs : xs ∈ Selection.all k (List.range L.algebra.size)) :
          (do return (← L.sgExact xs) == L.one : Except Fault Bool)
            = .ok (L.algebra.spans xs) := by
        rw [rooted_grounded.sgExact_eq hA hL (Selection.mem_all_range.1 hxs).2.1]
        rfl
      have hfind := (Selection.find_first (hks k List.mem_cons_self)
        (fun xs => (do return (← L.sgExact xs) == L.one : Except Fault Bool))
        (Nat.choose_le_two_pow L.algebra.size k)).trans (findM?_eq_ok htest)
      simp only [findGeneratingOfSize, Nat.pow_eq, hfind, ok_bind]
      rw [List.flatMap_cons, List.find?_append]
      cases hfound : (Selection.all k (List.range L.algebra.size)).find? L.algebra.spans with
      | some xs =>
          have hxs := (Selection.mem_all_range.1 (List.mem_of_find?_eq_some hfound)).1
          rw [Option.some_or, Option.map_some, ← ElementSet.ofList_of_pairwise hxs]
          rfl
      | none => exact ih fun j hj => hks j (List.mem_cons_of_mem k hj)

/-- **The smallest generating set** is the first candidate that generates everything. -/
theorem yields_minimalGeneratingSet (hA : A.Total) :
    Yields (Grounded A) minimalGeneratingSet (.ok A.firstGeneratingSet) := by
  refine Yields.getOrCompute (fun L hL w hw => hL.generatingSet_eq w hw) ?_
    fun L hL => { hL with generatingSet_eq := fun s h => by cases h; rfl }
  refine Yields.get_bind fun L hL => Yields.bind (rooted_grounded.yields_zero hA) ?_
  have hone : L.one = ElementSet.below A.size := by rw [one, hL.algebra_eq]
  rw [hone, hL.algebra_eq, Algebra.firstGeneratingSet, Algebra.candidates_eq, List.find?_cons,
    Algebra.spans]
  split
  · next heq =>
      rw [heq, beq_self_eq_true]
      exact Yields.pure _
  · next hne =>
      rw [beq_eq_false_iff_ne.2 hne, List.find?_append]
      refine Yields.bind (yields_findGenerator hA fun x hx => List.mem_range.1 hx) ?_
      cases ((List.range A.size).map fun x => [x]).find? A.spans with
      | some xs => exact Yields.pure _
      | none =>
          have hsizes : ∀ k ∈ List.range' 2 (A.size - 2), k ≤ A.size := by
            intro k hk
            have := List.mem_range'_1.1 hk
            omega
          have hlarger := hL.findGeneratingOfSize_eq hA hsizes
          rw [Option.none_or, Option.map_none]
          simp only [hlarger]
          refine Yields.bind (Yields.lift _) ?_
          cases ((List.range' 2 (A.size - 2)).flatMap fun k =>
            Selection.all k (List.range A.size)).find? A.spans with
          | some xs => exact Yields.pure _
          | none => exact Yields.pure _

/-! ### What queries keep -/

theorem keeps_generatedBy (hA : A.Total) (s : ElementSet) : Keeps (Grounded A) (generatedBy s) := by
  unfold generatedBy
  split
  · next x _ => exact rooted_grounded.keeps_oneGenerated hA x
  · refine Keeps.get_bind fun L _ => Keeps.bind (Keeps.lift _) fun _ => ?_
    exact Keeps.findOrCompute (Keeps.get_bind fun _ _ => Keeps.lift _) fun L _ _ hL => { hL with }

theorem keeps_irreducibleData (hA : A.Total) : Keeps (Grounded A) irreducibleData :=
  detached_grounded.keeps_irreducibleData (rooted_grounded.yields_zero hA).keeps
    (rooted_grounded.keeps_oneGenerated hA)

theorem keeps_irreducibleList (hA : A.Total) : Keeps (Grounded A) irreducibleList :=
  Keeps.bind (keeps_irreducibleData hA) fun _ => Keeps.pure _

theorem keeps_upperCovers (hA : A.Total) (s : ElementSet) : Keeps (Grounded A) (upperCovers s) := by
  refine Keeps.get_bind fun L _ => Keeps.bind (Keeps.lift _) fun closed => ?_
  refine Keeps.guard fun _ => Keeps.bind (keeps_irreducibleList hA) fun irreducible => ?_
  exact Keeps.bind (Keeps.mapM (detached_grounded.keeps_join s) _) fun _ => Keeps.pure _

theorem keeps_subuniverses (hA : A.Total) (cap : ℕ) : Keeps (Grounded A) (subuniverses cap) := by
  refine Keeps.get_bind fun L _ => ?_
  split
  · exact Keeps.pure _
  · refine Keeps.bind (keeps_irreducibleList hA) fun irreducible => ?_
    refine Keeps.bind (rooted_grounded.yields_zero hA).keeps fun bottom => Keeps.get_bind fun L _ => ?_
    refine Keeps.bind (Keeps.joinClosure detached_grounded.keeps_join _ _ _ _ _) fun found => ?_
    refine Keeps.ite (Keeps.pure _) (Keeps.bind ?_ fun _ => Keeps.pure _)
    exact fun L hL => { hL with }

theorem keeps_allSubuniverses (hA : A.Total) (caller : String) :
    Keeps (Grounded A) (allSubuniverses caller) := by
  refine Keeps.get_bind fun L _ => Keeps.bind (keeps_subuniverses hA _) fun found => ?_
  exact Keeps.ite (Keeps.throw _) (Keeps.pure _)

theorem keeps_meetIrreducibleList (hA : A.Total) : Keeps (Grounded A) meetIrreducibleList := by
  refine Keeps.bind (keeps_allSubuniverses hA _) fun all => ?_
  refine Keeps.getOrCompute (Keeps.filterM (fun s => ?_) all) fun L _ hL => { hL with }
  refine Keeps.bind (rooted_grounded.yields_zero hA).keeps fun bottom => Keeps.ite (Keeps.pure _) ?_
  exact Keeps.bind (keeps_upperCovers hA s) fun _ => Keeps.pure _

end Grounded

/-- Whatever a caller asks, the lattice stays grounded. -/
theorem Public.keeps_grounded (hA : A.Total) {α : Type} {q : Query SubalgebraLattice α}
    (hq : Public A q) : Keeps (Grounded A) q := by
  cases hq with
  | zero => exact (rooted_grounded.yields_zero hA).keeps
  | oneGenerated x => exact rooted_grounded.keeps_oneGenerated hA x
  | generatedBy s => exact Grounded.keeps_generatedBy hA s
  | join _ => exact detached_grounded.keeps_join _ _
  | singleList =>
      exact detached_grounded.keeps_singleList (rooted_grounded.keeps_oneGenerated hA)
  | minimalGeneratingSet => exact (Grounded.yields_minimalGeneratingSet hA).keeps
  | joinIrreducibleList =>
      refine Keeps.getOrCompute ?_ fun L _ hL => { hL with }
      refine Keeps.bind (Grounded.keeps_irreducibleList hA) fun _ => ?_
      exact Keeps.get_bind fun _ _ => Keeps.pure _
  | lowerCover s =>
      refine Keeps.bind (Grounded.keeps_irreducibleData hA) fun data => ?_
      split
      · exact Keeps.pure _
      · exact Keeps.throw _
  | upperCovers s => exact Grounded.keeps_upperCovers hA s
  | subuniverses cap => exact Grounded.keeps_subuniverses hA cap
  | cardinality => exact Keeps.bind (Grounded.keeps_allSubuniverses hA _) fun _ => Keeps.pure _
  | meetIrreducibleList => exact Grounded.keeps_meetIrreducibleList hA
  | filter s => exact Keeps.bind (Grounded.keeps_allSubuniverses hA _) fun _ => Keeps.pure _
  | reset =>
      refine Keeps.modify fun L hL => ?_
      rw [SubalgebraLattice.reset, hL.algebra_eq]
      exact grounded_start A L.settings

/-- **Every visited lattice is grounded.** -/
theorem Visited.grounded (hA : A.Total) (hL : Visited A settings L) : Grounded A L := by
  induction hL with
  | start => exact grounded_start A settings
  | query hq _ ih => exact hq.keeps_grounded hA _ ih
  | join s t _ ih => exact detached_grounded.keeps_join s t _ ih

/-! ### Smallest generating sets -/

/-- **The smallest generating set.**  Whatever was asked before, joins of open sets included, the answer
generates the whole universe, no set with fewer elements does so, and it comes first in lexicographic
order among those with as many.  The search behind it goes, for each size, through all increasing
sequences of that size in lexicographic order, tests each of them once until one passes, and ends. -/
theorem minimalGeneratingSet_least (hA : A.Total) (hL : Visited A settings L) :
    (∃ G : ElementSet, minimalGeneratingSet.result L = .ok G ∧ A.IsFirstSmallest G) ∧
    ∀ n k : ℕ, k ≤ n → ∃ all : List (List ℕ), all.Pairwise (· < ·) ∧
      (∀ ys, ys ∈ all ↔ ys.Pairwise (· < ·) ∧ (∀ x ∈ ys, x < n) ∧ ys.length = k) ∧
      ∀ (m : Type → Type) [Monad m] (test : List ℕ → m Bool) (fuel : ℕ), Nat.pow 2 n ≤ fuel →
        Selection.find n test fuel (Selection.first k) = all.findM? test := by
  refine ⟨⟨A.firstGeneratingSet, ?_, hA.isFirstSmallest_firstGeneratingSet⟩, ?_⟩
  · exact (Grounded.yields_minimalGeneratingSet hA).result_eq (hL.grounded hA)
  · intro n k hk
    refine ⟨Selection.all k (List.range n), Selection.pairwise_all List.pairwise_lt_range k,
      fun ys => Selection.mem_all_range, fun m _ test fuel hfuel => ?_⟩
    exact Selection.find_first hk test ((Nat.choose_le_two_pow n k).trans hfuel)

/-- The pairs of bits need two generators, also after a join that took an open set for closed. -/
theorem minimalGeneratingSet_bitPairs :
    minimalGeneratingSet.result ((join ⟨[1, 2]⟩ ⟨[0]⟩).after (start Algebra.bitPairs .standard))
        = .ok ⟨[1, 2]⟩ ∧ Algebra.bitPairs.IsFirstSmallest ⟨[1, 2]⟩ := by
  have hvisited : Visited Algebra.bitPairs .standard
      ((join ⟨[1, 2]⟩ ⟨[0]⟩).after (start Algebra.bitPairs .standard)) := .join _ _ .start
  have hrun : minimalGeneratingSet.result
      ((join ⟨[1, 2]⟩ ⟨[0]⟩).after (start Algebra.bitPairs .standard)) = .ok ⟨[1, 2]⟩ := by cbv
  obtain ⟨⟨G, hG, hsmallest⟩, -⟩ := minimalGeneratingSet_least Algebra.total_bitPairs hvisited
  obtain rfl : G = ⟨[1, 2]⟩ := Except.ok.inj (hG.symm.trans hrun)
  exact ⟨hrun, hsmallest⟩

end UniversalAlgebra.SubalgebraLattice
