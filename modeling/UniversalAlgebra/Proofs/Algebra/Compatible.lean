/-
**Equivalence relations compatible with the operations.**

An equivalence relation is compatible with the operations of an algebra if arguments that are
related at every position have related values.  By transitivity it is enough to replace one argument
at a time, and if the relation is generated by some pairs it is enough to replace one component of
such a pair by the other: the relation that compares the values of a translation is an equivalence
relation too.

Main definitions:

* `Algebra.Compatible` — compatible with all operations;
* `Algebra.IsCongruence`, `Algebra.IsLeastCongruence` — partitions with a compatible relation, and
  the least of them above a relation.

Main results:

* `Algebra.compatible_of_translations` — **it is enough to move generating pairs through one
  argument at a time**;
* `Algebra.Compatible.sup`, `Algebra.Compatible.inf` — joins and meets of compatible relations are
  compatible;
* `Algebra.IsLeastCongruence.eq` — there is at most one least congruence.
-/

import Mathlib
import UniversalAlgebra.Proofs.Algebra.Total
import UniversalAlgebra.Proofs.Partition.Meet

set_option autoImplicit false

namespace UniversalAlgebra.Algebra

variable {A : Algebra} {s t : Setoid ℕ} {R : ℕ → ℕ → Prop} {p q : Partition}

/-! ### Compatible relations -/

/-- Arguments that are related at every position have related values. -/
def Compatible (A : Algebra) (s : Setoid ℕ) : Prop :=
  ∀ op ∈ A.operations, ∀ xs ys : List ℕ, xs.length = op.arity → (∀ x ∈ xs, x < A.size) →
    (∀ y ∈ ys, y < A.size) → List.Forall₂ s xs ys → s (op.value xs) (op.value ys)

/-- Distinct elements are related only inside the universe. -/
def Within (n : ℕ) (s : Setoid ℕ) : Prop := ∀ x y, s x y → x ≠ y → x < n ∧ y < n

/-- What is related inside the universe only is known from there. -/
theorem Within.ext {n : ℕ} (hs : Within n s) (ht : Within n t)
    (h : ∀ x < n, ∀ y < n, s x y ↔ t x y) : s = t := by
  ext x y
  by_cases hne : x = y
  · subst hne
    exact iff_of_true (s.refl x) (t.refl x)
  · constructor
    · intro hxy
      obtain ⟨hx, hy⟩ := hs x y hxy hne
      exact (h x hx y hy).1 hxy
    · intro hxy
      obtain ⟨hx, hy⟩ := ht x y hxy hne
      exact (h x hx y hy).2 hxy

theorem compatible_top (A : Algebra) : A.Compatible ⊤ := fun _ _ _ _ _ _ _ _ => trivial

/-- In a compatible relation one argument can be replaced by a related one. -/
theorem Compatible.translate (hs : A.Compatible s) {op : Operation} (hop : op ∈ A.operations)
    {before after : List ℕ} {x y : ℕ} (hlen : (before ++ x :: after).length = op.arity)
    (hlt : ∀ z ∈ before ++ x :: after, z < A.size) (hy : y < A.size) (hxy : s x y) :
    s (op.value (before ++ x :: after)) (op.value (before ++ y :: after)) := by
  refine hs op hop _ _ hlen hlt ?_ ?_
  · intro z hz
    rcases List.mem_append.1 hz with hz | hz
    · exact hlt z (List.mem_append_left _ hz)
    · rcases List.mem_cons.1 hz with rfl | hz
      · exact hy
      · exact hlt z (List.mem_append_right _ (List.mem_cons_of_mem x hz))
  · exact List.rel_append (List.forall₂_refl before) (.cons hxy (List.forall₂_refl after))

/-- It is enough to replace one argument at a time. -/
theorem compatible_of_translate
    (h : ∀ op ∈ A.operations, ∀ (before after : List ℕ) (x y : ℕ),
      (before ++ x :: after).length = op.arity → (∀ z ∈ before ++ x :: after, z < A.size) →
      y < A.size → s x y → s (op.value (before ++ x :: after)) (op.value (before ++ y :: after))) :
    A.Compatible s := by
  intro op hop xs ys hlen hxs hys hrel
  -- the arguments before the ones in question have been replaced already
  have go {xs ys : List ℕ} (hrel : List.Forall₂ s xs ys) (before : List ℕ)
      (hlen : (before ++ xs).length = op.arity) (hxs : ∀ z ∈ before ++ xs, z < A.size)
      (hys : ∀ z ∈ before ++ ys, z < A.size) :
      s (op.value (before ++ xs)) (op.value (before ++ ys)) := by
    induction hrel generalizing before with
    | nil => exact s.refl _
    | @cons x y xs ys hxy hrel ih =>
        have hfirst := h op hop before xs x y hlen hxs (hys y (by simp)) hxy
        have hrest := ih (before ++ [y]) (by simpa [Nat.add_assoc, Nat.add_comm 1] using hlen)
          (fun z hz => ?_) (by simpa using hys)
        · rw [List.append_assoc, List.append_assoc] at hrest
          exact s.trans hfirst hrest
        · simp only [List.append_assoc, List.mem_append, List.singleton_append, List.mem_cons] at hz
          rcases hz with hz | rfl | hz
          · exact hxs z (by simp [hz])
          · exact hys z (by simp)
          · exact hxs z (by simp [hz])
  exact go hrel [] hlen hxs hys

/-- **It is enough to move generating pairs through one argument at a time.** -/
theorem compatible_of_translations (hR : ∀ x y, R x y → x < A.size ∧ y < A.size)
    (hs : IsLeast {t : Setoid ℕ | ∀ x y, R x y → t x y} s)
    (h : ∀ op ∈ A.operations, ∀ (before after : List ℕ) (x y : ℕ), R x y →
      (before ++ x :: after).length = op.arity → (∀ z ∈ before ++ x :: after, z < A.size) →
      s (op.value (before ++ x :: after)) (op.value (before ++ y :: after))) :
    A.Compatible s := by
  refine compatible_of_translate ?_
  intro op hop before after x y hlen hlt _ hxy
  have hle : s ≤ Setoid.comap (fun z => op.value (before ++ z :: after)) s := by
    refine hs.2 ?_
    intro z w hzw
    refine h op hop before after z w hzw (by simpa using hlen) ?_
    intro v hv
    rcases List.mem_append.1 hv with hv | hv
    · exact hlt v (List.mem_append_left _ hv)
    · rcases List.mem_cons.1 hv with rfl | hv
      · exact (hR v w hzw).1
      · exact hlt v (List.mem_append_right _ (List.mem_cons_of_mem x hv))
  exact hle hxy

/-- Joins of compatible relations are compatible. -/
theorem Compatible.sup (hs : A.Compatible s) (ht : A.Compatible t) (hsw : Within A.size s)
    (htw : Within A.size t) : A.Compatible (s ⊔ t) := by
  refine compatible_of_translations
    (R := fun x y => (s x y ∨ t x y) ∧ x < A.size ∧ y < A.size) (fun _ _ h => h.2) ⟨?_, ?_⟩ ?_
  · rintro x y ⟨h | h, -⟩
    · exact (le_sup_left : s ≤ s ⊔ t) h
    · exact (le_sup_right : t ≤ s ⊔ t) h
  · intro u hu
    refine sup_le ?_ ?_
    · intro x y hxy
      by_cases hne : x = y
      · exact hne ▸ u.refl x
      · exact hu x y ⟨Or.inl hxy, hsw x y hxy hne⟩
    · intro x y hxy
      by_cases hne : x = y
      · exact hne ▸ u.refl x
      · exact hu x y ⟨Or.inr hxy, htw x y hxy hne⟩
  · rintro op hop before after x y ⟨h | h, -, hy⟩ hlen hlt
    · exact (le_sup_left : s ≤ s ⊔ t) (hs.translate hop hlen hlt hy h)
    · exact (le_sup_right : t ≤ s ⊔ t) (ht.translate hop hlen hlt hy h)

/-- Meets of compatible relations are compatible. -/
theorem Compatible.inf (hs : A.Compatible s) (ht : A.Compatible t) : A.Compatible (s ⊓ t) := by
  intro op hop xs ys hlen hxs hys hrel
  exact ⟨hs op hop xs ys hlen hxs hys (hrel.imp fun _ _ h => h.1),
    ht op hop xs ys hlen hxs hys (hrel.imp fun _ _ h => h.2)⟩

/-! ### Congruences -/

/-- A partition of the universe with a compatible relation. -/
structure IsCongruence (A : Algebra) (p : Partition) : Prop where
  valid : p.Valid
  size_eq : p.size = A.size
  compatible : A.Compatible p.setoid

/-- The partition is the least congruence that relates what `R` relates. -/
structure IsLeastCongruence (A : Algebra) (R : ℕ → ℕ → Prop) (p : Partition) : Prop where
  valid : p.Valid
  size_eq : p.size = A.size
  isLeast : IsLeast {s : Setoid ℕ | A.Compatible s ∧ ∀ x y, R x y → s x y} p.setoid

theorem within_setoid (hp : p.Valid) (hsize : p.size = A.size) : Within A.size p.setoid := by
  intro x y hxy hne
  have hx := hp.lt_of_setoid hxy hne
  exact ⟨hsize ▸ hx, hsize ▸ hp.setoid_lt hxy hx⟩

theorem isCongruence_finest (A : Algebra) : A.IsCongruence (Partition.finest A.size) := by
  refine ⟨Partition.valid_finest _, Partition.size_finest _, ?_⟩
  rw [Partition.setoid_finest]
  intro op _ xs ys _ _ _ hrel
  obtain rfl : xs = ys := List.forall₂_eq_eq_eq ▸ hrel
  exact rfl

/-- The join of two congruences is a congruence. -/
theorem IsCongruence.sup (hp : A.IsCongruence p) (hq : A.IsCongruence q) :
    A.IsCongruence (p.sup q) := by
  have hsize : p.size = q.size := hp.size_eq.trans hq.size_eq.symm
  refine ⟨hp.valid.sup hq.valid hsize, (hp.valid.size_sup hq.valid hsize).trans hp.size_eq, ?_⟩
  rw [hp.valid.setoid_sup hq.valid hsize]
  exact hp.compatible.sup hq.compatible (within_setoid hp.valid hp.size_eq)
    (within_setoid hq.valid hq.size_eq)

/-- The meet of two congruences is a congruence. -/
theorem IsCongruence.inf (hp : A.IsCongruence p) (hq : A.IsCongruence q) :
    A.IsCongruence (p.inf q) := by
  refine ⟨Partition.Valid.inf p q, (Partition.size_inf p q).trans hp.size_eq, ?_⟩
  rw [hp.valid.setoid_inf]
  exact hp.compatible.inf hq.compatible

theorem isCongruence_coarsest (hA : A.Total) : A.IsCongruence (Partition.coarsest A.size) := by
  refine ⟨Partition.valid_coarsest _, Partition.size_coarsest _, ?_⟩
  intro op hop xs ys hlen hxs hys hrel
  exact Partition.setoid_coarsest (hA.value_lt hop hlen hxs)
    (hA.value_lt hop (hrel.length_eq.symm.trans hlen) hys)

theorem IsCongruence.ext (hp : A.IsCongruence p) (hq : A.IsCongruence q)
    (h : p.setoid = q.setoid) : p = q :=
  hp.valid.ext hq.valid (hp.size_eq.trans hq.size_eq.symm) h

namespace IsLeastCongruence

theorem isCongruence (hp : A.IsLeastCongruence R p) : A.IsCongruence p :=
  ⟨hp.valid, hp.size_eq, hp.isLeast.1.1⟩

theorem rel (hp : A.IsLeastCongruence R p) {x y : ℕ} (h : R x y) : p.setoid x y :=
  hp.isLeast.1.2 x y h

theorem le (hp : A.IsLeastCongruence R p) (hs : A.Compatible s) (hR : ∀ x y, R x y → s x y) :
    p.setoid ≤ s :=
  hp.isLeast.2 ⟨hs, hR⟩

/-- There is at most one least congruence. -/
theorem eq (hp : A.IsLeastCongruence R p) (hq : A.IsLeastCongruence R q) : p = q :=
  hp.isCongruence.ext hq.isCongruence (hp.isLeast.unique hq.isLeast)

end IsLeastCongruence

end UniversalAlgebra.Algebra
