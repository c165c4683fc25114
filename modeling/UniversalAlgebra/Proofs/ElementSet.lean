/-
**Sets of elements and their members.**

A set of elements is listed in increasing order, so that it is known by its members.  Inclusion and
union go through two such lists at once, and do what they say; sets are compared by size first and
by their lists next.

Main definitions:

* `ElementSet.Increasing` — the members are listed in increasing order;
* `ElementSet.orderKey` — what the linear order compares.

Main results:

* `ElementSet.Increasing.ext` — a set is known by its members;
* `ElementSet.exists_increasing` — every bounded set of naturals is listed;
* `ElementSet.Increasing.subset_iff`, `ElementSet.mem_union` — inclusion and union;
* `ElementSet.orderedBy_less`, `ElementSet.orderKey_injective` — the linear order.
-/

import Mathlib
import UniversalAlgebra.ElementSet
import UniversalAlgebra.SubalgebraLattice.Irreducibles
import UniversalAlgebra.Proofs.Algebra.Total
import UniversalAlgebra.Proofs.Sorting

set_option autoImplicit false

namespace UniversalAlgebra

namespace ElementSet

variable {s t : ElementSet}

/-- The members are listed in increasing order. -/
def Increasing (s : ElementSet) : Prop := s.elements.Pairwise (· < ·)

theorem Increasing.nodup (hs : s.Increasing) : s.elements.Nodup := List.Pairwise.imp Nat.ne_of_lt hs

/-- A set is known by its members. -/
theorem Increasing.ext (hs : s.Increasing) (ht : t.Increasing)
    (h : ∀ x, x ∈ s.elements ↔ x ∈ t.elements) : s = t := by
  have hperm : s.elements.Perm t.elements := (List.perm_ext_iff_of_nodup hs.nodup ht.nodup).2 h
  have heq : s.elements = t.elements :=
    hperm.eq_of_pairwise (fun x y _ _ hxy hyx => absurd hxy (Nat.lt_asymm hyx)) hs ht
  cases s
  cases t
  rw [ElementSet.mk.injEq]
  exact heq

/-- More members are found in a larger set. -/
theorem length_le_size {xs : List ℕ} (hxs : xs.Nodup) (h : ∀ x ∈ xs, x ∈ s.elements) :
    xs.length ≤ s.size :=
  (List.subperm_of_subset hxs h).length_le

theorem increasing_ofList (xs : List ℕ) : (ofList xs).Increasing := pairwise_sortedDistinct xs

@[simp] theorem mem_ofList {xs : List ℕ} {x : ℕ} : x ∈ (ofList xs).elements ↔ x ∈ xs :=
  mem_sortedDistinct

/-- A list without repetitions has as many entries as its set has members. -/
theorem size_ofList {xs : List ℕ} (hxs : xs.Nodup) : (ofList xs).size = xs.length := by
  have hperm : (ofList xs).elements.Perm xs :=
    (List.perm_ext_iff_of_nodup (increasing_ofList xs).nodup hxs).2 fun _ => mem_ofList
  exact hperm.length_eq

/-- What increases is not sorted again. -/
theorem ofList_of_pairwise {xs : List ℕ} (hxs : xs.Pairwise (· < ·)) : ofList xs = ⟨xs⟩ :=
  (increasing_ofList xs).ext hxs fun _ => mem_ofList

/-- Every bounded set of naturals is listed. -/
theorem exists_increasing {S : Set ℕ} {n : ℕ} (hS : ∀ x ∈ S, x < n) :
    ∃ s : ElementSet, s.Increasing ∧ ∀ x, x ∈ s.elements ↔ x ∈ S := by
  classical
  refine ⟨⟨(List.range n).filter (· ∈ S)⟩, List.pairwise_lt_range.filter _, ?_⟩
  intro x
  simp only [List.mem_filter, List.mem_range, decide_eq_true_eq, and_iff_right_iff_imp]
  exact hS x

/-! ### Inclusion and union -/

/-- What is below the head of an increasing list is below each entry of it. -/
theorem lt_of_lt_head {x y z : ℕ} {xs : List ℕ} (hxs : (x :: xs).Pairwise (· < ·)) (hyx : y < x)
    (hz : z ∈ x :: xs) : y < z := by
  rcases List.mem_cons.1 hz with rfl | hz
  · exact hyx
  · exact hyx.trans (List.rel_of_pairwise_cons hxs hz)

/-- Whether one increasing list has every entry of another one is found by going through both. -/
theorem includes_iff {xs ys : List ℕ} (hxs : xs.Pairwise (· < ·)) (hys : ys.Pairwise (· < ·)) :
    includes xs ys = true ↔ ∀ x ∈ xs, x ∈ ys := by
  fun_induction includes xs ys with
  | case1 ys => simp
  | case2 x xs => exact iff_of_false Bool.false_ne_true fun h => by simpa using h x
  | case3 x xs y ys hlt =>
      refine iff_of_false Bool.false_ne_true fun h => ?_
      exact (lt_of_lt_head hys hlt (h x List.mem_cons_self)).false
  | case4 xs y ys hlt ih =>
      rw [List.pairwise_cons] at hxs hys
      rw [ih hxs.2 hys.2]
      simp only [List.mem_cons, forall_eq_or_imp, true_or, true_and]
      constructor
      · exact fun h x hx => Or.inr (h x hx)
      · intro h x hx
        exact (h x hx).resolve_left (hxs.1 x hx).ne'
  | case5 x xs y ys hlt hne ih =>
      rw [ih hxs (List.pairwise_cons.1 hys).2]
      constructor
      · exact fun h z hz => List.mem_cons_of_mem y (h z hz)
      · intro h z hz
        have hyz : y < z := lt_of_lt_head hxs (by omega) hz
        exact (List.mem_cons.1 (h z hz)).resolve_left hyz.ne'

theorem Increasing.subset_iff (hs : s.Increasing) (ht : t.Increasing) :
    s.subset t = true ↔ ∀ x ∈ s.elements, x ∈ t.elements := by
  rw [subset, Bool.and_eq_true, decide_eq_true_eq, includes_iff hs ht, and_iff_right_iff_imp]
  exact length_le_size hs.nodup

theorem mem_mergeSorted {found xs ys : List ℕ} {x : ℕ} :
    x ∈ mergeSorted found xs ys ↔ x ∈ found ∨ x ∈ xs ∨ x ∈ ys := by
  fun_induction mergeSorted found xs ys with
  | case1 found ys => simp
  | case2 found y ys => simp
  | case3 found y ys z zs hlt ih =>
      rw [ih]
      simp only [List.mem_cons]
      tauto
  | case4 found ys z zs hlt ih =>
      rw [ih]
      simp only [List.mem_cons]
      tauto
  | case5 found y ys z zs hlt hne ih =>
      rw [ih]
      simp only [List.mem_cons]
      tauto

@[simp] theorem mem_union {x : ℕ} :
    x ∈ (s.union t).elements ↔ x ∈ s.elements ∨ x ∈ t.elements := by
  simp [union, mem_mergeSorted]

/-! ### The linear order -/

/-- What the linear order compares: the number of members, and then the members. -/
def orderKey (s : ElementSet) : ℕ ×ₗ List ℕ := toLex (s.size, s.elements)

theorem orderedBy_less : OrderedBy less orderKey := by
  intro s t
  rw [orderKey, orderKey, Prod.Lex.toLex_lt_toLex, less]
  split
  · next hne =>
      rw [decide_eq_true_eq]
      exact ⟨Or.inl, fun h => h.elim id fun h => absurd h.1 hne⟩
  · next heq =>
      rw [not_not] at heq
      rw [List.lex_eq_true_iff_lt]
      exact ⟨fun h => Or.inr ⟨heq, h⟩, fun h => h.elim (fun h => absurd heq h.ne) And.right⟩

theorem orderKey_injective : Function.Injective orderKey := by
  intro s t h
  cases s
  cases t
  rw [ElementSet.mk.injEq]
  exact congrArg Prod.snd h

theorem size_le_of_orderKey_le (h : s.orderKey ≤ t.orderKey) : s.size ≤ t.size := by
  rcases Prod.Lex.toLex_le_toLex.1 h with hlt | ⟨heq, -⟩
  · exact hlt.le
  · exact heq.le

@[simp] theorem mem_sort {ss : List ElementSet} : s ∈ sort ss ↔ s ∈ ss := List.mem_mergeSort

@[simp] theorem mem_sortDistinct {ss : List ElementSet} : s ∈ sortDistinct ss ↔ s ∈ ss := by
  simp [sortDistinct]

theorem pairwise_sortDistinct (ss : List ElementSet) :
    (sortDistinct ss).Pairwise fun s t => s.less t = true :=
  orderedBy_less.pairwise_dropRepeats_mergeSort fun _ _ _ _ h => orderKey_injective h

end ElementSet

end UniversalAlgebra
