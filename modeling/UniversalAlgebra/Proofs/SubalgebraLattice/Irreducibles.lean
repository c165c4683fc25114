/-
**The subalgebras as joins of irreducible ones.**

A subalgebra has an element exactly if it lies above what the element generates, so the subalgebras
generated by single elements determine every subalgebra.  One of these that is the least, or that is
the join of those strictly below it, can be left out.

Main definitions:

* `Algebra.singles` — the subalgebras generated by single elements;
* `Algebra.lowerJoin` — the join of those strictly below;
* `Algebra.irreducibleSubalgebras` — the ones that differ from that join, each with it.

Main results:

* `Algebra.Subalgebra.generates_irreducibles` — **the irreducible subalgebras determine every
  subalgebra**.
-/

import Mathlib
import UniversalAlgebra.Proofs.LowerCovers
import UniversalAlgebra.Proofs.SubalgebraLattice.Subalgebras

set_option autoImplicit false

namespace UniversalAlgebra.Algebra

variable {A : Algebra} {s t below : ElementSet} {ts : List ElementSet}

/-! ### Lists that the algebra determines -/

/-- The distinct subalgebras generated by single elements, in increasing order. -/
def singles (A : Algebra) : List ElementSet :=
  ElementSet.sortDistinct ((List.range A.size).map fun x => A.generated [x])

/-- The join of those members of a list that lie strictly below `s`, starting from `below`. -/
def lowerJoin (A : Algebra) (s : ElementSet) : List ElementSet → ElementSet → ElementSet
  | [], below => below
  | t :: ts, below =>
      if t ≠ s ∧ t.subset s then A.lowerJoin s ts (A.generated (below.elements ++ t.elements))
      else A.lowerJoin s ts below

/-- The subalgebras generated by single elements, other than the least, that are not the join of those
strictly below them, each with that join. -/
def irreducibleSubalgebras (A : Algebra) : List (ElementSet × ElementSet) :=
  ((A.singles.filter (· != A.generated [])).map
    fun s => (s, A.lowerJoin s A.singles (A.generated []))).filter fun entry => entry.2 != entry.1

theorem mem_singles : s ∈ A.singles ↔ ∃ x < A.size, A.generated [x] = s := by
  simp [singles]

theorem isSubalgebra_of_mem_singles (hA : A.Total) (hs : s ∈ A.singles) : A.IsSubalgebra s := by
  obtain ⟨x, hx, rfl⟩ := mem_singles.1 hs
  exact hA.isSubalgebra_generated (by simpa using hx)

theorem mem_irreducibleSubalgebras : s ∈ A.irreducibleSubalgebras.map (·.1) ↔
    s ∈ A.singles ∧ s ≠ A.generated [] ∧ A.lowerJoin s A.singles (A.generated []) ≠ s := by
  simp [irreducibleSubalgebras, and_assoc]

theorem isSubalgebra_of_mem_irreducibles (hA : A.Total)
    (hs : s ∈ A.irreducibleSubalgebras.map (·.1)) : A.IsSubalgebra s :=
  isSubalgebra_of_mem_singles hA (mem_irreducibleSubalgebras.1 hs).1

theorem Total.isSubalgebra_bottom (hA : A.Total) : A.IsSubalgebra (A.generated []) :=
  hA.isSubalgebra_generated (by simp)

/-- Two subalgebras generate a subalgebra. -/
theorem IsSubalgebra.join (hA : A.Total) (hs : A.IsSubalgebra s) (ht : A.IsSubalgebra t) :
    A.IsSubalgebra (A.generated (s.elements ++ t.elements)) :=
  hA.isSubalgebra_generated (List.forall_mem_append.2 ⟨hs.lt, ht.lt⟩)

namespace Subalgebra

/-- What the search for lower covers takes for strictly below is strictly below. -/
theorem ne_and_subset_iff (σ τ : A.Subalgebra) :
    (σ.set ≠ τ.set ∧ σ.set.subset τ.set = true) ↔ σ < τ := by
  rw [subset_iff, lt_iff_le_and_ne, ne_eq, ne_eq, Subalgebra.ext_iff, and_comm]

/-- The join of what a list has strictly below `σ`. -/
theorem isLeast_lowerJoin (hA : A.Total) (σ : A.Subalgebra) (hts : ∀ t ∈ ts, A.IsSubalgebra t)
    (below : A.Subalgebra) :
    ∃ δ : A.Subalgebra, A.lowerJoin σ.set ts below.set = δ.set ∧
      IsLeast (AboveListed set (· < σ) ts below) δ := by
  let _ := hA.subalgebraSup
  induction ts generalizing below with
  | nil => exact ⟨below, rfl, isLeast_aboveListed_nil⟩
  | cons t ts ih =>
      obtain ⟨τ, rfl⟩ : ∃ τ : A.Subalgebra, τ.set = t := ⟨⟨t, hts t List.mem_cons_self⟩, rfl⟩
      have hrest : ∀ r ∈ ts, A.IsSubalgebra r := fun r hr => hts r (List.mem_cons_of_mem _ hr)
      rw [lowerJoin]
      by_cases hτ : τ < σ
      · rw [if_pos ((ne_and_subset_iff τ σ).2 hτ),
          aboveListed_cons_of_pos (P := (· < σ)) set_injective hτ]
        exact ih hrest (below ⊔ τ)
      · rw [if_neg (mt (ne_and_subset_iff τ σ).1 hτ),
          aboveListed_cons_of_neg (P := (· < σ)) set_injective hτ]
        exact ih hrest below

/-- The list of irreducible subalgebras is made with the join of those generated by single elements
that lie strictly below. -/
theorem isLUB_lowerJoin (hA : A.Total) (σ : A.Subalgebra) :
    ∃ δ : A.Subalgebra, A.lowerJoin σ.set A.singles (A.generated []) = δ.set ∧
      IsLUB {τ : A.Subalgebra | τ.set ∈ A.singles ∧ τ < σ} δ := by
  let _ := hA.subalgebraBot
  obtain ⟨δ, hδ, hleast⟩ := isLeast_lowerJoin hA σ (fun t => isSubalgebra_of_mem_singles hA) ⊥
  exact ⟨δ, hδ, isLUB_of_isLeast_aboveListed hleast⟩

/-- The subalgebras generated by single elements determine every subalgebra. -/
theorem generates_singles (hA : A.Total) : Generates {σ : A.Subalgebra | σ.set ∈ A.singles} := by
  intro σ τ h x hx
  have hlt : ∀ y ∈ [x], y < A.size := by simpa using σ.isSubalgebra.lt x hx
  have hle := h ⟨A.generated [x], hA.isSubalgebra_generated hlt⟩
    (mem_singles.2 ⟨x, σ.isSubalgebra.lt x hx, rfl⟩)
    (hA.generated_subset σ.isSubalgebra (by simpa using hx))
  exact hle (hA.subset_generated hlt x List.mem_cons_self)

/-- **So do the irreducible ones.** -/
theorem generates_irreducibles (hA : A.Total) :
    Generates {σ : A.Subalgebra | σ.set ∈ A.irreducibleSubalgebras.map (·.1)} := by
  let _ := hA.subalgebraBot
  refine (generates_singles hA).of_bounded fun σ hσ hnot τ hτ => ?_
  obtain ⟨δ, hδ, hlub⟩ := isLUB_lowerJoin hA σ
  by_cases hbottom : σ = ⊥
  · exact hbottom ▸ bot_le
  · have hjoin : δ = σ := by
      by_contra hne
      refine hnot (mem_irreducibleSubalgebras.2 ⟨hσ, fun h => hbottom (Subalgebra.ext h), ?_⟩)
      rw [hδ]
      exact fun h => hne (Subalgebra.ext h)
    exact hjoin ▸ hlub.2 fun g hg => hτ g hg.1 hg.2

end Subalgebra

end UniversalAlgebra.Algebra
