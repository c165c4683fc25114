/-
**Arguments drawn by number.**

Elements and tuples are drawn in the same way: an argument is a list of numbers of discovered items,
at least one of them fresh.  What holds of such lists is said here once for both.

Main definitions:

* `Closure.entriesAt` — the items with given numbers.

Main results:

* `Closure.mem_drawn_of_fresh`, `Closure.lawfulGrowth_of_fresh` — the arguments are drawn as
  promised;
* `Closure.exists_entriesAt` — every list of discovered items is drawn.
-/

import UniversalAlgebra.Proofs.Closure.Engine
import UniversalAlgebra.Proofs.Tuples

set_option autoImplicit false

namespace UniversalAlgebra.Closure

section Fresh

variable {σ ι : Type} [Growth σ ι]

theorem mem_drawn_of_fresh {s : σ} {op : Operation} {start stop : ℕ}
    (h : Growth.arguments s op start stop = Tuples.freshBoxes op.arity start stop) {args : List ℕ} :
    args ∈ drawn s op start stop ↔
      args.length = op.arity ∧ (∀ i ∈ args, i < stop) ∧ ∃ i ∈ args, start ≤ i := by
  rw [drawn, h]
  exact Tuples.mem_fresh

/-- Fresh arguments are drawn as promised. -/
theorem lawfulGrowth_of_fresh
    (h : ∀ (s : σ) op start stop,
      Growth.arguments s op start stop = Tuples.freshBoxes op.arity start stop) :
    LawfulGrowth σ where
  drawn_zero {s op args} hargs := by
    obtain ⟨-, hlt, i, hi, -⟩ := (mem_drawn_of_fresh (h s op 0 0)).1 hargs
    exact Nat.not_lt_zero i (hlt i hi)
  drawn_mono {s op start stop stop' args} hle hargs := by
    obtain ⟨hlen, hlt, i, hi, -⟩ := (mem_drawn_of_fresh (h s op start stop)).1 hargs
    refine (mem_drawn_of_fresh (h s op 0 stop')).2 ⟨hlen, ?_, i, hi, Nat.zero_le i⟩
    intro j hj
    have := hlt j hj
    omega
  drawn_split {s op start stop args} hargs := by
    obtain ⟨hlen, hlt, i, hi, -⟩ := (mem_drawn_of_fresh (h s op 0 stop)).1 hargs
    by_cases hfresh : ∃ j ∈ args, start ≤ j
    · exact Or.inr ((mem_drawn_of_fresh (h s op start stop)).2 ⟨hlen, hlt, hfresh⟩)
    · refine Or.inl ((mem_drawn_of_fresh (h s op 0 start)).2 ⟨hlen, ?_, i, hi, Nat.zero_le i⟩)
      intro j hj
      by_contra hle
      exact hfresh ⟨j, hj, Nat.not_lt.1 hle⟩

end Fresh

section Entries

variable {α : Type} {xs : Array α} {d x : α} {indices : List ℕ}

/-- The items with given numbers. -/
def entriesAt (xs : Array α) (d : α) (indices : List ℕ) : List α := indices.map fun i => xs[i]?.getD d

@[simp] theorem length_entriesAt : (entriesAt xs d indices).length = indices.length := by
  simp [entriesAt]

theorem mem_of_mem_entriesAt (hlt : ∀ i ∈ indices, i < xs.size) (hx : x ∈ entriesAt xs d indices) :
    x ∈ xs := by
  obtain ⟨i, hi, rfl⟩ := List.mem_map.1 hx
  rw [Array.getElem?_eq_getElem (hlt i hi), Option.getD_some]
  exact Array.getElem_mem (hlt i hi)

/-- Every list of discovered items is drawn. -/
theorem exists_entriesAt (d : α) {args : List α} (hargs : ∀ x ∈ args, x ∈ xs) :
    ∃ indices : List ℕ, (∀ i ∈ indices, i < xs.size) ∧ entriesAt xs d indices = args := by
  induction args with
  | nil => exact ⟨[], by simp, rfl⟩
  | cons x args ih =>
      obtain ⟨indices, hlt, heq⟩ := ih fun y hy => hargs y (List.mem_cons_of_mem x hy)
      obtain ⟨i, hi, hx⟩ := Array.mem_iff_getElem.1 (hargs x List.mem_cons_self)
      refine ⟨i :: indices, by simpa [hi] using hlt, ?_⟩
      rw [entriesAt] at heq ⊢
      rw [List.map_cons, heq, Array.getElem?_eq_getElem hi, hx, Option.getD_some]

/-- A further item leaves the numbers of the others alone. -/
theorem entriesAt_push (hlt : ∀ i ∈ indices, i < xs.size) :
    entriesAt (xs.push x) d indices = entriesAt xs d indices := by
  refine List.map_congr_left ?_
  intro i hi
  rw [Array.getElem?_push_lt (hlt i hi), Array.getElem?_eq_getElem (hlt i hi)]

end Entries

end UniversalAlgebra.Closure
