/-
**Walks of an iterator.**

An iterator is asked whether it stands on an item, then for the item, and is then moved on, until it
stands on none.  What it yields on the way is a list, which is finite exactly if the walk ends.

Main definitions:

* `Iterator` — the three questions to an iterator;
* `Iterator.Visits` — the walk from a state on ends, and these are the items it has met;
* `Iterator.Passes` — a stretch of a walk, with the items met on it.

Main results:

* `Iterator.Visits.unique` — a walk meets no other items;
* `Iterator.Visits.iff_eq` — so what one walk meets is all there is to say;
* `Iterator.Passes.visits` — a stretch and the walk after it.
-/

import Mathlib

set_option autoImplicit false

namespace UniversalAlgebra

/-- An iterator over the states `σ`: whether it stands on an item, on which one, and where it stands
after that. -/
structure Iterator (σ α : Type) where
  /-- Whether there is an item. -/
  ok : σ → Bool
  /-- The item, where there is one. -/
  item : σ → α
  /-- The state after the item. -/
  next : σ → σ

namespace Iterator

variable {σ α : Type} {it : Iterator σ α} {s : σ} {xs ys : List α}

/-- From the state on the iterator yields the items of the list, one after the other, and then ends. -/
inductive Visits (it : Iterator σ α) : σ → List α → Prop
  | ended {s : σ} (h : it.ok s = false) : it.Visits s []
  | item {s : σ} {xs : List α} (h : it.ok s = true) (rest : it.Visits (it.next s) xs) :
      it.Visits s (it.item s :: xs)

theorem Visits.unique (h : it.Visits s xs) (h' : it.Visits s ys) : xs = ys := by
  induction h generalizing ys with
  | ended hok =>
      cases h' with
      | ended => rfl
      | item hok' => exact absurd (hok.symm.trans hok') Bool.false_ne_true
  | item hok _ ih =>
      cases h' with
      | ended hok' => exact absurd (hok'.symm.trans hok) Bool.false_ne_true
      | item _ rest => rw [ih rest]

/-- One walk decides what is met on any. -/
theorem Visits.iff_eq (h : it.Visits s xs) (ys : List α) : it.Visits s ys ↔ ys = xs :=
  ⟨fun h' => h'.unique h, fun heq => heq ▸ h⟩

/-- On the way from one state to another the iterator yields the items of the list. -/
inductive Passes (it : Iterator σ α) : σ → List α → σ → Prop
  | here (s : σ) : it.Passes s [] s
  | item {s s' : σ} {xs : List α} (h : it.ok s = true) (rest : it.Passes (it.next s) xs s') :
      it.Passes s (it.item s :: xs) s'

theorem Passes.append {s' s'' : σ} (h : it.Passes s xs s') (h' : it.Passes s' ys s'') :
    it.Passes s (xs ++ ys) s'' := by
  induction h with
  | here => exact h'
  | item hok _ ih => exact .item hok (ih h')

theorem Passes.visits {s' : σ} (h : it.Passes s xs s') (h' : it.Visits s' ys) :
    it.Visits s (xs ++ ys) := by
  induction h with
  | here => exact h'
  | item hok _ ih => exact .item hok (ih h')

end Iterator

end UniversalAlgebra
