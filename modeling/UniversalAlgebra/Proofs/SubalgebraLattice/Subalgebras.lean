/-
**The subalgebras of an algebra.**

A subuniverse, listed in increasing order, is called a subalgebra here.  Elements generate the least
subalgebra around them, which has the constants in any case and depends only on which elements are
given.  The subalgebras are ordered by inclusion; two of them generate their join.  A closure that
starts from a subalgebra and some further elements may take the subalgebra for closed.

Main definitions:

* `Algebra.IsSubalgebra`, `Algebra.generated` — subalgebras, and the one generated by elements;
* `Algebra.Subalgebra` — the subalgebras, ordered by inclusion;
* `Algebra.subalgebras` — all subalgebras in increasing order.

Main results:

* `Algebra.Total.mem_generated` — what elements generate;
* `Algebra.Total.subalgebraSup`, `Algebra.Total.subalgebraBot` — joins, and the least subalgebra;
* `Algebra.Total.isSubalgebra_empty_iff` — the empty set is one exactly if there are no constants;
* `SubalgebraLattice.sg_eq` — generation without caches;
* `SubalgebraLattice.closeSeed_of_isSubalgebra` — **closing from a subalgebra on**.
-/

import Mathlib
import UniversalAlgebra.Proofs.SubalgebraLattice.Generation

set_option autoImplicit false

namespace UniversalAlgebra

namespace Algebra

variable {A : Algebra} {s t : ElementSet} {xs ys : List ℕ}

/-! ### Generated subalgebras -/

/-- A set of elements in increasing order that is closed under all operations. -/
structure IsSubalgebra (A : Algebra) (s : ElementSet) : Prop where
  increasing : s.Increasing
  isSubuniverse : A.IsSubuniverse {x | x ∈ s.elements}

theorem IsSubalgebra.lt (hs : A.IsSubalgebra s) : ∀ x ∈ s.elements, x < A.size :=
  hs.isSubuniverse.lt_size

/-- The subalgebra generated by elements and the constants. -/
@[irreducible] def generated (A : Algebra) (xs : List ℕ) : ElementSet :=
  .ofList (Closure.close A .sequential 0 0
    ((SubuniverseClosure.start A.size).foldAll (xs ++ A.constants))).state.elements.toList

namespace Total

theorem append_constants_lt (hA : A.Total) (hxs : ∀ x ∈ xs, x < A.size) :
    ∀ x ∈ xs ++ A.constants, x < A.size :=
  List.forall_mem_append.2 ⟨hxs, fun _ hc => hA.isSubuniverse_univ.constants_mem hA hc⟩

/-- Subuniverses have the constants, so that these generate nothing more. -/
theorem sg_append_constants (hA : A.Total) (xs : List ℕ) :
    A.sg {x | x ∈ xs ++ A.constants} = A.sg {x | x ∈ xs} := by
  have hiff (S : Set ℕ) (hS : A.IsSubuniverse S) :
      {x | x ∈ xs ++ A.constants} ⊆ S ↔ {x | x ∈ xs} ⊆ S := by
    constructor
    · exact fun h x hx => h (List.mem_append_left _ hx)
    · exact fun h => List.forall_mem_append.2 ⟨fun _ hx => h hx, fun _ hc => hS.constants_mem hA hc⟩
  rw [sg, sg]
  congr 1
  ext S
  exact and_congr_right fun hS => hiff S hS

/-- **What elements generate.** -/
theorem mem_generated (hA : A.Total) (hxs : ∀ x ∈ xs, x < A.size) (x : ℕ) :
    x ∈ (A.generated xs).elements ↔ x ∈ A.sg {x | x ∈ xs} := by
  obtain ⟨s, -, ⟨hclose, hmem, -⟩ | ⟨-, -, hcap, -⟩⟩ :=
    SubuniverseClosure.close_foldAll hA (hA.append_constants_lt hxs)
      (fun c hc => List.mem_append_right _ hc) (Closure.settledBelow_zero _ _) .sequential 0
  · rw [generated, hclose, ElementSet.mem_ofList, Array.mem_toList_iff, hmem,
      hA.sg_append_constants]
  · exact absurd rfl hcap

theorem setOf_generated (hA : A.Total) (hxs : ∀ x ∈ xs, x < A.size) :
    {x | x ∈ (A.generated xs).elements} = A.sg {x | x ∈ xs} :=
  Set.ext (hA.mem_generated hxs)

theorem isSubalgebra_generated (hA : A.Total) (hxs : ∀ x ∈ xs, x < A.size) :
    A.IsSubalgebra (A.generated xs) := by
  refine ⟨?_, ?_⟩
  · rw [generated]
    exact ElementSet.increasing_ofList _
  · rw [hA.setOf_generated hxs]
    exact (hA.isLeast_sg (G := {x | x ∈ xs}) hxs).1.1

theorem subset_generated (hA : A.Total) (hxs : ∀ x ∈ xs, x < A.size) :
    ∀ x ∈ xs, x ∈ (A.generated xs).elements :=
  fun x hx => (hA.mem_generated hxs x).2 ((hA.isLeast_sg (G := {x | x ∈ xs}) hxs).1.2 hx)

/-- What is generated lies in every subalgebra that has the generators. -/
theorem generated_subset (hA : A.Total) (ht : A.IsSubalgebra t) (hxs : ∀ x ∈ xs, x ∈ t.elements) :
    ∀ x ∈ (A.generated xs).elements, x ∈ t.elements := by
  intro x hx
  have hlt : ∀ y ∈ xs, y < A.size := fun y hy => ht.lt y (hxs y hy)
  exact (hA.isLeast_sg (G := {x | x ∈ xs}) hlt).2 ⟨ht.isSubuniverse, hxs⟩
    ((hA.mem_generated hlt x).1 hx)

/-- It is the least subuniverse that has the elements and the constants. -/
theorem isLeast_generated (hA : A.Total) (hxs : ∀ x ∈ xs, x < A.size) :
    IsLeast {T : Set ℕ | A.IsSubuniverse T ∧ (∀ x ∈ xs, x ∈ T) ∧ ∀ c ∈ A.constants, c ∈ T}
      {x | x ∈ (A.generated xs).elements} := by
  obtain ⟨⟨hsub, hmem⟩, hleast⟩ := hA.isLeast_sg (G := {x | x ∈ xs}) hxs
  rw [hA.setOf_generated hxs]
  refine ⟨⟨hsub, hmem, fun c hc => hsub.constants_mem hA hc⟩, ?_⟩
  rintro T ⟨hT, hgens, -⟩
  exact hleast ⟨hT, hgens⟩

/-- Only the members of the list matter. -/
theorem generated_congr (hA : A.Total) (hxs : ∀ x ∈ xs, x < A.size) (h : ∀ x, x ∈ xs ↔ x ∈ ys) :
    A.generated xs = A.generated ys := by
  have hys : ∀ y ∈ ys, y < A.size := fun y hy => hxs y ((h y).2 hy)
  have hset : {x | x ∈ xs} = {x | x ∈ ys} := Set.ext h
  refine (hA.isSubalgebra_generated hxs).increasing.ext (hA.isSubalgebra_generated hys).increasing ?_
  intro x
  rw [hA.mem_generated hxs, hA.mem_generated hys, hset]

theorem generated_eq_self (hA : A.Total) (hs : A.IsSubalgebra s) : A.generated s.elements = s := by
  refine (hA.isSubalgebra_generated hs.lt).increasing.ext hs.increasing fun x => ?_
  exact ⟨hA.generated_subset hs (fun y hy => hy) x, hA.subset_generated hs.lt x⟩

end Total

/-! ### The subalgebras as an order -/

/-- The subalgebras of an algebra. -/
@[ext] structure Subalgebra (A : Algebra) where
  /-- The elements of the subalgebra. -/
  set : ElementSet
  isSubalgebra : A.IsSubalgebra set

namespace Subalgebra

theorem ext_mem {σ τ : A.Subalgebra} (h : {x | x ∈ σ.set.elements} = {x | x ∈ τ.set.elements}) :
    σ = τ :=
  Subalgebra.ext (σ.isSubalgebra.increasing.ext τ.isSubalgebra.increasing (Set.ext_iff.1 h))

/-- One subalgebra lies below another if the other has its elements. -/
instance : PartialOrder A.Subalgebra :=
  PartialOrder.lift (fun σ => {x | x ∈ σ.set.elements}) fun _ _ => ext_mem

theorem subset_iff (σ τ : A.Subalgebra) : σ.set.subset τ.set = true ↔ σ ≤ τ :=
  σ.isSubalgebra.increasing.subset_iff τ.isSubalgebra.increasing

theorem set_injective : Function.Injective (set (A := A)) := fun _ _ => Subalgebra.ext

theorem orderKey_injective : Function.Injective (ElementSet.orderKey ∘ set (A := A)) :=
  ElementSet.orderKey_injective.comp set_injective

/-- The elements, as a set of elements of the universe. -/
def members (σ : A.Subalgebra) : Set (Fin A.size) := {x | (x : ℕ) ∈ σ.set.elements}

theorem members_injective : Function.Injective (members (A := A)) := by
  intro σ τ h
  refine ext_mem (Set.ext fun x => ?_)
  constructor
  · intro hx
    exact (Set.ext_iff.1 h ⟨x, σ.isSubalgebra.lt x hx⟩).1 hx
  · intro hx
    exact (Set.ext_iff.1 h ⟨x, τ.isSubalgebra.lt x hx⟩).2 hx

instance : Finite A.Subalgebra := Finite.of_injective members members_injective

theorem card_le (A : Algebra) : Nat.card A.Subalgebra ≤ Nat.pow 2 A.size := by
  have h := Nat.card_le_card_of_injective members (members_injective (A := A))
  simpa using h

end Subalgebra

/-- The join of two subalgebras is what they generate together. -/
@[reducible] def Total.subalgebraSup (hA : A.Total) : SemilatticeSup A.Subalgebra :=
  have hlt (σ τ : A.Subalgebra) : ∀ x ∈ σ.set.elements ++ τ.set.elements, x < A.size :=
    List.forall_mem_append.2 ⟨σ.isSubalgebra.lt, τ.isSubalgebra.lt⟩
  { sup := fun σ τ =>
      ⟨A.generated (σ.set.elements ++ τ.set.elements), hA.isSubalgebra_generated (hlt σ τ)⟩
    le_sup_left := fun σ τ x hx =>
      hA.subset_generated (hlt σ τ) x (List.mem_append_left _ hx)
    le_sup_right := fun σ τ x hx =>
      hA.subset_generated (hlt σ τ) x (List.mem_append_right _ hx)
    sup_le := fun _ _ υ hσ hτ =>
      hA.generated_subset υ.isSubalgebra (List.forall_mem_append.2 ⟨hσ, hτ⟩) }

/-- The least subalgebra is generated by the constants. -/
@[reducible] def Total.subalgebraBot (hA : A.Total) : OrderBot A.Subalgebra where
  bot := ⟨A.generated [], hA.isSubalgebra_generated (by simp)⟩
  bot_le σ := hA.generated_subset σ.isSubalgebra (by simp)

/-! ### The list of all subalgebras -/

/-- All subalgebras in increasing order. -/
noncomputable def subalgebras (A : Algebra) : List ElementSet :=
  ElementSet.sort ((everything A.Subalgebra).map Subalgebra.set)

theorem mem_subalgebras : s ∈ A.subalgebras ↔ A.IsSubalgebra s := by
  simp only [subalgebras, ElementSet.mem_sort, List.mem_map, mem_everything, true_and]
  constructor
  · rintro ⟨σ, rfl⟩
    exact σ.isSubalgebra
  · exact fun hs => ⟨⟨s, hs⟩, rfl⟩

theorem pairwise_subalgebras (A : Algebra) : A.subalgebras.Pairwise fun s t => s.less t = true :=
  ElementSet.orderedBy_less.pairwise_sort_map Subalgebra.orderKey_injective (nodup_everything _)

theorem length_subalgebras (A : Algebra) : A.subalgebras.length = Nat.card A.Subalgebra := by
  rw [subalgebras, ElementSet.sort, List.length_mergeSort, List.length_map, length_everything]

/-- The empty set is closed exactly if there are no constants. -/
theorem Total.isSubalgebra_empty_iff (hA : A.Total) :
    A.IsSubalgebra ⟨[]⟩ ↔ A.constants = [] := by
  constructor
  · intro h
    refine List.eq_nil_iff_forall_not_mem.2 fun c hc => ?_
    simpa using h.isSubuniverse.constants_mem hA hc
  · intro h
    refine ⟨List.Pairwise.nil, by simp, ?_⟩
    intro op hop args hlen hargs
    -- without elements to draw from only nullary operations could have a value
    have hargs' : args = [] :=
      List.eq_nil_iff_forall_not_mem.2 fun x hx => by simpa using hargs x hx
    subst hargs'
    have hconstant : op.value [] ∈ A.constants :=
      (hA.mem_constants _).2 ⟨op, hop, hlen.symm, hA.apply_eq hop hlen (by simp)⟩
    rw [h] at hconstant
    cases hconstant

end Algebra

/-! ### Closing -/

namespace SubuniverseClosure

open Closure

variable {A : Algebra} {s : ElementSet}

/-- Once a subalgebra was taken in, it is settled, whatever is taken in besides. -/
theorem settledBelow_of_isSubalgebra (hA : A.Total) (hs : A.IsSubalgebra s) {xs : List ℕ} :
    SettledBelow A.operations ((start A.size).foldAll (s.elements ++ xs)) s.size := by
  obtain ⟨hfaithful, hmem⟩ := foldAll_start hs.lt
  have hclosed : A.ClosedUnder {x | x ∈ ((start A.size).foldAll s.elements).elements} := by
    have hset : {x | x ∈ ((start A.size).foldAll s.elements).elements} = {x | x ∈ s.elements} :=
      Set.ext hmem
    rw [hset]
    exact hs.isSubuniverse.closedUnder
  have hsize : ((start A.size).foldAll s.elements).elements.size = s.size := by
    rw [← Array.length_toList]
    refine ((List.perm_ext_iff_of_nodup hfaithful.nodup hs.increasing.nodup).2 fun x => ?_).length_eq
    rw [Array.mem_toList_iff, hmem]
  have happend : (start A.size).foldAll (s.elements ++ xs)
      = ((start A.size).foldAll s.elements).foldAll xs := List.foldl_append
  rw [happend]
  refine (extends_foldAll _ xs).settledBelow (le_of_eq hsize.symm) ?_
  rw [← hsize]
  exact settledBelow_of_closedUnder hA hfaithful hclosed

end SubuniverseClosure

namespace SubalgebraLattice

open Fallible

variable {L : SubalgebraLattice} {s : ElementSet} {xs : List ℕ}

/-- Generation without caches and without a cap. -/
theorem sg_eq (hA : L.algebra.Total) (hxs : ∀ x ∈ xs, x < L.algebra.size) :
    L.sg xs 0 = .ok (L.algebra.generated xs, false) := by
  have hclose := closeSeed_eq hA (hA.append_constants_lt hxs)
    (fun c hc => List.mem_append_right _ hc) (Closure.settledBelow_zero _ _)
    (hA.isSubalgebra_generated hxs).increasing
    (fun x => by rw [hA.mem_generated hxs, hA.sg_append_constants]) 0
  rw [if_pos (Or.inl rfl)] at hclose
  rw [sg, checkElements_eq hA hxs, ok_bind, hclose]

theorem sgExact_eq (hA : L.algebra.Total) (hxs : ∀ x ∈ xs, x < L.algebra.size) :
    L.sgExact xs = .ok (L.algebra.generated xs) := by
  rw [sgExact, sg_eq hA hxs]
  rfl

/-- **Closing from a subalgebra on** may leave out what stays inside it. -/
theorem closeSeed_of_isSubalgebra (hA : L.algebra.Total) (hs : L.algebra.IsSubalgebra s)
    (hxs : ∀ x ∈ xs, x < L.algebra.size) :
    L.closeSeed (s.elements ++ xs) s.size 0
      = .ok (L.algebra.generated (s.elements ++ xs), false) := by
  have hseed : ∀ x ∈ s.elements ++ xs, x < L.algebra.size :=
    List.forall_mem_append.2 ⟨hs.lt, hxs⟩
  have hclose := closeSeed_eq hA hseed
    (fun c hc => List.mem_append_left _ (hs.isSubuniverse.constants_mem hA hc))
    (SubuniverseClosure.settledBelow_of_isSubalgebra hA hs)
    (hA.isSubalgebra_generated hseed).increasing (hA.mem_generated hseed) 0
  rwa [if_pos (Or.inl rfl)] at hclose

end SubalgebraLattice

end UniversalAlgebra
