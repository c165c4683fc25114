/-
**Which tuples a box and the fresh boxes hold.**

A box holds the tuples with each coordinate in its range.  The fresh boxes together hold the tuples
over `[0, stop)` with a coordinate of at least `start`: the pivot of such a tuple is the position of
its first coordinate of that size.

Main results:

* `Tuples.mem_inBox`, `Tuples.mem_inBox_replicate` — the tuples of a box;
* `Tuples.mem_pivotBox` — the tuples with a given pivot;
* `Tuples.mem_fresh` — the fresh tuples.
-/

import Mathlib
import UniversalAlgebra.Tuples

set_option autoImplicit false

namespace UniversalAlgebra.Tuples

/-! ### The tuples of a box -/

theorem mem_inBox {box : Box} {t : List ℕ} :
    t ∈ inBox box ↔ List.Forall₂ (fun x range => range.1 ≤ x ∧ x < range.2) t box := by
  induction box generalizing t with
  | nil => simp [inBox]
  | cons range rest ih =>
      obtain ⟨lo, hi⟩ := range
      have hrange (i : ℕ) : i ∈ List.range' lo (hi - lo) ↔ lo ≤ i ∧ i < hi := by
        rw [List.mem_range'_1]
        omega
      cases t with
      | nil => simp [inBox]
      | cons x xs => simp [inBox, hrange, ih]

/-- The tuples over `[0, n)` of a given length. -/
theorem mem_inBox_replicate {k n : ℕ} {t : List ℕ} :
    t ∈ inBox (List.replicate k (0, n)) ↔ t.length = k ∧ ∀ x ∈ t, x < n := by
  induction k generalizing t with
  | zero =>
      simp only [List.replicate_zero, inBox, List.mem_singleton, List.length_eq_zero_iff]
      exact ⟨fun h => ⟨h, by simp [h]⟩, fun h => h.1⟩
  | succ k ih =>
      cases t with
      | nil => simp [mem_inBox]
      | cons x xs =>
          have h := ih (t := xs)
          rw [mem_inBox] at h
          rw [mem_inBox, List.replicate_succ, List.forall₂_cons, h]
          simp only [Nat.zero_le, true_and, List.length_cons, Nat.add_right_cancel_iff,
            List.mem_cons, forall_eq_or_imp]
          exact and_left_comm

theorem volume_replicate (k n : ℕ) : volume (List.replicate k (0, n)) = n ^ k := by
  induction k with
  | zero => rfl
  | succ k ih => rw [List.replicate_succ, volume_cons, ih, Nat.sub_zero, Nat.pow_succ, Nat.mul_comm]

/-! ### Fresh tuples -/

/-- The tuples with a given pivot: below `start` before it, at least `start` at it. -/
theorem mem_pivotBox {arity start stop pivot : ℕ} {t : List ℕ} :
    t ∈ inBox (pivotBox arity start stop pivot) ↔
      t.length = arity ∧ ∀ i (h : i < t.length),
        (i < pivot → t[i] < start) ∧ (i = pivot → start ≤ t[i] ∧ t[i] < stop) ∧
          (pivot < i → t[i] < stop) := by
  rw [mem_inBox, List.forall₂_iff_get]
  simp only [pivotBox, List.length_map, List.length_range, List.get_eq_getElem, List.getElem_map,
    List.getElem_range]
  refine and_congr_right ?_
  intro hlen
  have hcoord (i x : ℕ) :
      ((if i < pivot then (0, start) else if i = pivot then (start, stop) else (0, stop)).1 ≤ x ∧
        x < (if i < pivot then (0, start) else if i = pivot then (start, stop)
          else (0, stop)).2) ↔
      (i < pivot → x < start) ∧ (i = pivot → start ≤ x ∧ x < stop) ∧ (pivot < i → x < stop) := by
    rcases Nat.lt_trichotomy i pivot with h | h | h
    · simp [h, Nat.ne_of_lt h, Nat.lt_asymm h]
    · simp [h]
    · simp [h, Nat.ne_of_gt h, Nat.lt_asymm h]
  constructor
  · intro h i hi
    exact (hcoord i t[i]).1 (h i hi (hlen ▸ hi))
  · intro h i hi _
    exact (hcoord i t[i]).2 (h i hi)

/-- Only the foremost position can be a pivot if everything is fresh. -/
theorem mem_pivots_iff {arity start stop pivot : ℕ} :
    pivot ∈ pivots arity start stop ↔
      start < stop ∧ pivot < arity ∧ (start = 0 → pivot = 0) := by
  rw [pivots]
  split
  · simp
    omega
  · split <;> simp <;> omega

/-- **The fresh tuples are those over `[0, stop)` with a coordinate of at least `start`.** -/
theorem mem_fresh {arity start stop : ℕ} {t : List ℕ} :
    t ∈ fresh arity start stop ↔
      t.length = arity ∧ (∀ x ∈ t, x < stop) ∧ ∃ x ∈ t, start ≤ x := by
  simp only [fresh, freshBoxes, List.mem_flatMap, List.mem_map, exists_exists_and_eq_and,
    mem_pivots_iff, mem_pivotBox]
  constructor
  · rintro ⟨pivot, ⟨hstart, hpivot, -⟩, hlen, h⟩
    have hp : pivot < t.length := hlen ▸ hpivot
    refine ⟨hlen, ?_, t[pivot], List.getElem_mem hp, ((h pivot hp).2.1 rfl).1⟩
    intro x hx
    obtain ⟨i, hi, rfl⟩ := List.getElem_of_mem hx
    have := h i hi
    omega
  · rintro ⟨hlen, hstop, hstart⟩
    -- the pivot is the first position at which the tuple reaches `start`
    let pivot := t.findIdx (start ≤ ·)
    have hp : pivot < t.length := List.findIdx_lt_length.2 (by simpa using hstart)
    have hat : start ≤ t[pivot] := by simpa using List.findIdx_getElem (w := hp)
    have hbefore (i : ℕ) (hi : i < pivot) : t[i] < start := by
      simpa using List.not_of_lt_findIdx hi
    have hbelow (i : ℕ) (hi : i < t.length) : t[i] < stop := hstop _ (List.getElem_mem hi)
    refine ⟨pivot, ⟨Nat.lt_of_le_of_lt hat (hbelow pivot hp), hlen ▸ hp, ?_⟩, hlen,
      fun i hi => ⟨fun h => hbefore i h, ?_, fun _ => hbelow i hi⟩⟩
    · intro hzero
      by_contra hne
      have := hbefore 0 (Nat.pos_of_ne_zero hne)
      omega
    · intro h
      subst h
      exact ⟨hat, hbelow _ hi⟩

end UniversalAlgebra.Tuples
