/-
**Smallest generating sets.**

The sets of elements are ordered by size first and lexicographically next, so there is a least one among
those that generate the whole universe.  The candidates in front of the universe itself are the
selections of each smaller size, one size after the other, and listed like that they increase.  So the
least generating set is the first candidate that generates everything, or the universe if none does.

Main definitions:

* `Algebra.IsGeneratingSet`, `Algebra.IsFirstSmallest` — generating sets, and the first of the smallest;
* `Algebra.candidates`, `Algebra.firstGeneratingSet` — the candidates, and the one that is found.

Main results:

* `Algebra.Total.isLeast_firstGeneratingSet` — it is the least generating set;
* `Algebra.Total.isFirstSmallest_firstGeneratingSet` — **no smaller set generates everything, and it comes
  first among those of its size**.
-/

import Mathlib
import UniversalAlgebra.Proofs.Selection
import UniversalAlgebra.Proofs.SubalgebraLattice.Subalgebras

set_option autoImplicit false

namespace UniversalAlgebra.Algebra

variable {A : Algebra} {xs : List ℕ}

/-! ### Generating sets -/

/-- A set of elements that generates the whole universe. -/
structure IsGeneratingSet (A : Algebra) (s : ElementSet) : Prop where
  increasing : s.Increasing
  lt : ∀ x ∈ s.elements, x < A.size
  generated_eq : A.generated s.elements = ElementSet.below A.size

theorem Total.isSubalgebra_below (hA : A.Total) : A.IsSubalgebra (ElementSet.below A.size) := by
  have hset : {x | x ∈ (ElementSet.below A.size).elements} = {x | x < A.size} :=
    Set.ext fun x => List.mem_range
  refine ⟨List.pairwise_lt_range, ?_⟩
  rw [hset]
  exact hA.isSubuniverse_univ

theorem Total.isGeneratingSet_below (hA : A.Total) :
    A.IsGeneratingSet (ElementSet.below A.size) :=
  ⟨hA.isSubalgebra_below.increasing, hA.isSubalgebra_below.lt,
    hA.generated_eq_self hA.isSubalgebra_below⟩

/-- In terms of generated sets. -/
theorem Total.generated_eq_below_iff (hA : A.Total) (hxs : ∀ x ∈ xs, x < A.size) :
    A.generated xs = ElementSet.below A.size ↔ A.sg {x | x ∈ xs} = {x | x < A.size} := by
  have hbelow : {x | x ∈ (ElementSet.below A.size).elements} = {x | x < A.size} :=
    Set.ext fun x => List.mem_range
  rw [← hA.setOf_generated hxs, ← hbelow]
  constructor
  · intro h
    rw [h]
  · intro h
    exact (hA.isSubalgebra_generated hxs).increasing.ext hA.isSubalgebra_below.increasing
      (Set.ext_iff.1 h)

/-! ### Candidates -/

/-- The candidates for a smallest generating set, by increasing size: the whole universe is not among
them, except if it has a single element. -/
def candidates (A : Algebra) : List (List ℕ) :=
  (List.range (2 + (A.size - 2))).flatMap fun k => Selection.all k (List.range A.size)

/-- Whether elements generate the whole universe. -/
def spans (A : Algebra) (xs : List ℕ) : Bool := A.generated xs == ElementSet.below A.size

/-- The first of the candidates that generates the whole universe, and otherwise the universe. -/
def firstGeneratingSet (A : Algebra) : ElementSet :=
  ⟨(A.candidates.find? A.spans).getD (List.range A.size)⟩

theorem mem_candidates :
    xs ∈ A.candidates ↔
      xs.Pairwise (· < ·) ∧ (∀ x ∈ xs, x < A.size) ∧ xs.length < 2 + (A.size - 2) := by
  simp only [candidates, List.mem_flatMap, List.mem_range, Selection.mem_all_range]
  constructor
  · rintro ⟨k, hk, hxs, hlt, rfl⟩
    exact ⟨hxs, hlt, hk⟩
  · rintro ⟨hxs, hlt, hk⟩
    exact ⟨xs.length, hk, hxs, hlt, rfl⟩

/-- The empty set comes first, and then the single elements. -/
theorem candidates_eq (A : Algebra) :
    A.candidates = [] :: ((List.range A.size).map (fun x => [x]) ++
      (List.range' 2 (A.size - 2)).flatMap fun k => Selection.all k (List.range A.size)) := by
  have hsizes : List.range (2 + (A.size - 2)) = 0 :: 1 :: List.range' 2 (A.size - 2) := by
    rw [List.range_eq_range', Nat.add_comm, List.range'_succ, List.range'_succ]
  rw [candidates, hsizes, List.flatMap_cons, List.flatMap_cons, Selection.all_zero,
    Selection.all_one, List.singleton_append]

/-- The candidates are listed in the order of sets. -/
theorem pairwise_candidates (A : Algebra) :
    A.candidates.Pairwise fun xs ys => ElementSet.orderKey ⟨xs⟩ < ElementSet.orderKey ⟨ys⟩ := by
  refine List.pairwise_flatMap.2 ⟨fun k _ => ?_, List.pairwise_lt_range.imp fun hlt xs hxs ys hys => ?_⟩
  · refine (Selection.pairwise_all List.pairwise_lt_range k).imp_of_mem fun hxs hys hlt => ?_
    rw [ElementSet.orderKey, ElementSet.orderKey, Prod.Lex.toLex_lt_toLex]
    exact Or.inr ⟨(Selection.mem_all.1 hxs).2.trans (Selection.mem_all.1 hys).2.symm, hlt⟩
  · rw [ElementSet.orderKey, ElementSet.orderKey, Prod.Lex.toLex_lt_toLex]
    refine Or.inl ?_
    rwa [ElementSet.size, ElementSet.size, (Selection.mem_all.1 hxs).2, (Selection.mem_all.1 hys).2]

/-! ### The first smallest generating set -/

/-- It is the least generating set. -/
theorem Total.isLeast_firstGeneratingSet (hA : A.Total) :
    A.IsGeneratingSet A.firstGeneratingSet ∧
      ∀ t, A.IsGeneratingSet t → A.firstGeneratingSet.orderKey ≤ t.orderKey := by
  have hspans {t : ElementSet} (ht : A.IsGeneratingSet t) : A.spans t.elements = true :=
    beq_iff_eq.2 ht.generated_eq
  rw [firstGeneratingSet]
  cases hfind : A.candidates.find? A.spans with
  | some xs =>
      have hxs : A.spans xs = true := List.find?_some hfind
      obtain ⟨hincreasing, hlt, hshort⟩ := mem_candidates.1 (List.mem_of_find?_eq_some hfind)
      refine ⟨⟨hincreasing, hlt, beq_iff_eq.1 hxs⟩, fun t ht => ?_⟩
      by_cases hmem : t.elements ∈ A.candidates
      · rcases eq_or_rel_of_find? A.pairwise_candidates hfind hmem (hspans ht) with heq | hlt
        · exact le_of_eq (congrArg ElementSet.orderKey (congrArg ElementSet.mk heq.symm))
        · exact hlt.le
      · -- what is no candidate is larger
        have hlong : 2 + (A.size - 2) ≤ t.size := by
          by_contra hlong
          exact hmem (mem_candidates.2 ⟨ht.increasing, ht.lt, not_le.1 hlong⟩)
        exact (Prod.Lex.toLex_lt_toLex.2 (Or.inl (hshort.trans_le hlong))).le
  | none =>
      refine ⟨hA.isGeneratingSet_below, fun t ht => ?_⟩
      have hmem : t.elements ∉ A.candidates := fun hmem =>
        absurd (hspans ht) (List.find?_eq_none.1 hfind _ hmem)
      have hlong : A.size ≤ t.size := by
        by_contra hlong
        exact hmem (mem_candidates.2 ⟨ht.increasing, ht.lt, by rw [ElementSet.size] at hlong; omega⟩)
      have hsub := (Selection.mem_all.1 (Selection.mem_all_range.2 ⟨ht.increasing, ht.lt, rfl⟩)).1
      have hall : t.elements = List.range A.size := by
        refine hsub.eq_of_length_le ?_
        rwa [List.length_range]
      exact le_of_eq (congrArg ElementSet.orderKey (congrArg ElementSet.mk hall.symm))

/-- A set of elements that generates the whole universe, while no set with fewer elements does, and that
comes first in lexicographic order among those with as many. -/
structure IsFirstSmallest (A : Algebra) (G : ElementSet) : Prop where
  increasing : G.Increasing
  lt : ∀ x ∈ G.elements, x < A.size
  sg_eq : A.sg {x | x ∈ G.elements} = {x | x < A.size}
  size_le : ∀ H : Finset ℕ, (∀ x ∈ H, x < A.size) → A.sg H = {x | x < A.size} → G.size ≤ H.card
  elements_le : ∀ ys : List ℕ, ys.Pairwise (· < ·) → (∀ x ∈ ys, x < A.size) → ys.length = G.size →
    A.sg {x | x ∈ ys} = {x | x < A.size} → G.elements ≤ ys

/-- **The first smallest generating set.** -/
theorem Total.isFirstSmallest_firstGeneratingSet (hA : A.Total) :
    A.IsFirstSmallest A.firstGeneratingSet := by
  obtain ⟨hG, hleast⟩ := hA.isLeast_firstGeneratingSet
  have hgenerating (ys : List ℕ) (hys : ys.Pairwise (· < ·)) (hlt : ∀ x ∈ ys, x < A.size)
      (hspan : A.sg {x | x ∈ ys} = {x | x < A.size}) : A.IsGeneratingSet ⟨ys⟩ :=
    ⟨hys, hlt, (hA.generated_eq_below_iff hlt).2 hspan⟩
  refine ⟨hG.increasing, hG.lt, (hA.generated_eq_below_iff hG.lt).1 hG.generated_eq, ?_, ?_⟩
  · intro H hlt hspan
    have hmem (x : ℕ) : x ∈ H.sort (· ≤ ·) ↔ x ∈ H := Finset.mem_sort _
    have hset : {x | x ∈ H.sort (· ≤ ·)} = (H : Set ℕ) := Set.ext hmem
    have hH := hgenerating (H.sort (· ≤ ·)) (Finset.sortedLT_sort H).pairwise
      (fun x hx => hlt x ((hmem x).1 hx)) (hset.symm ▸ hspan)
    have hsize : (⟨H.sort (· ≤ ·)⟩ : ElementSet).size = H.card := Finset.length_sort _
    rw [← hsize]
    exact ElementSet.size_le_of_orderKey_le (hleast _ hH)
  · intro ys hys hlt hlength hspan
    rcases Prod.Lex.toLex_le_toLex.1 (hleast ⟨ys⟩ (hgenerating ys hys hlt hspan)) with hlt | ⟨-, hle⟩
    · exact absurd hlength hlt.ne'
    · exact hle

end UniversalAlgebra.Algebra
