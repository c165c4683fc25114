/-
**Closing sets of elements.**

The bit set of a growing set and the list of what was discovered agree.  Closing it ends with the
least set that contains what was there at first and is closed under the operations of positive
arity; a nullary operation has no arguments with a fresh item, so its value counts only if it is put
in at the start.  What was discovered first may be marked as closed already, and is then left out.

Main definitions:

* `SubuniverseClosure.Faithful` — the two views of the elements agree;
* `Algebra.ClosedUnder` — a set of elements is closed under the operations of positive arity.

Main results:

* `SubuniverseClosure.Faithful.foldAll` — taking in a list;
* `SubuniverseClosure.close_spec` — what closing up to a cap ends with.
-/

import Mathlib
import UniversalAlgebra.Closure.Subuniverse
import UniversalAlgebra.Proofs.Algebra.Closed
import UniversalAlgebra.Proofs.BitSet
import UniversalAlgebra.Proofs.Closure.Fresh

set_option autoImplicit false

namespace UniversalAlgebra

/-- A set of elements that is closed under the operations of positive arity. -/
def Algebra.ClosedUnder (A : Algebra) (S : Set ℕ) : Prop :=
  ∀ op ∈ A.operations, 0 < op.arity → ∀ args : List ℕ, args.length = op.arity →
    (∀ x ∈ args, x ∈ S) → op.value args ∈ S

namespace SubuniverseClosure

open Closure Growth

variable {A : Algebra} {n : ℕ} {s : SubuniverseClosure}

/-! ### The elements discovered so far -/

/-- The discovered elements, each once, are those marked in the bit set. -/
structure Faithful (n : ℕ) (s : SubuniverseClosure) : Prop where
  fits : s.members.Fits n
  contains_iff : ∀ x, s.contains x = true ↔ x ∈ s.elements
  lt : ∀ x ∈ s.elements, x < n
  nodup : s.elements.toList.Nodup

theorem faithful_start (n : ℕ) : (start n).Faithful n :=
  ⟨BitSet.fits_empty n, by simp [start, contains], by simp [start], by simp [start]⟩

namespace Faithful

theorem size_le (hs : s.Faithful n) : s.elements.size ≤ n := by
  have hsub : s.elements.toList ⊆ List.range n := fun x hx => by
    simpa using hs.lt x (by simpa using hx)
  simpa using (List.subperm_of_subset hs.nodup hsub).length_le

/-- The elements after one was taken in. -/
theorem mem_fold (hs : s.Faithful n) {x y : ℕ} :
    y ∈ (s.fold x).2.elements ↔ y ∈ s.elements ∨ y = x := by
  rw [SubuniverseClosure.fold]
  by_cases hx : s.contains x = true
  · rw [if_pos hx]
    refine ⟨Or.inl, ?_⟩
    rintro (hy | rfl)
    · exact hy
    · exact (hs.contains_iff y).1 hx
  · rw [if_neg hx]
    simp

theorem fold (hs : s.Faithful n) {x : ℕ} (hx : x < n) : (s.fold x).2.Faithful n := by
  rw [SubuniverseClosure.fold]
  by_cases hmem : s.contains x = true
  · rw [if_pos hmem]
    exact hs
  · rw [if_neg hmem]
    refine ⟨hs.fits.insert x, ?_, ?_, ?_⟩
    · intro y
      have h := hs.contains_iff y
      simp only [contains] at h ⊢
      simp [hs.fits.contains_insert hx, h, or_comm]
    · intro y hy
      rcases Array.mem_push.1 hy with hy | rfl
      · exact hs.lt y hy
      · exact hx
    · have hnew : x ∉ s.elements := fun h => hmem ((hs.contains_iff x).2 h)
      rw [Array.toList_push, List.nodup_append]
      refine ⟨hs.nodup, List.nodup_singleton x, fun y hy z hz hyz => hnew ?_⟩
      rw [List.mem_singleton] at hz
      simpa [← hz, ← hyz] using hy

/-- Taking in a list of elements. -/
theorem foldAll (hs : s.Faithful n) {xs : List ℕ} (hxs : ∀ x ∈ xs, x < n) :
    (s.foldAll xs).Faithful n ∧
      ∀ y, y ∈ (s.foldAll xs).elements ↔ y ∈ s.elements ∨ y ∈ xs := by
  induction xs generalizing s with
  | nil => exact ⟨hs, by simp [SubuniverseClosure.foldAll]⟩
  | cons x xs ih =>
      have hx := hs.fold (hxs x List.mem_cons_self)
      obtain ⟨hfaithful, hmem⟩ := ih hx fun y hy => hxs y (List.mem_cons_of_mem x hy)
      refine ⟨hfaithful, fun y => (hmem y).trans ?_⟩
      rw [hs.mem_fold, List.mem_cons, or_assoc]

end Faithful

/-! ### Arguments and images -/

instance : LawfulGrowth SubuniverseClosure := lawfulGrowth_of_fresh fun _ _ _ _ => rfl

theorem mem_drawn {op : Operation} {start stop : ℕ} {args : List ℕ} :
    args ∈ drawn s op start stop ↔
      args.length = op.arity ∧ (∀ i ∈ args, i < stop) ∧ ∃ i ∈ args, start ≤ i :=
  mem_drawn_of_fresh rfl

theorem knows_iff {x : ℕ} : Knows s x ↔ s.contains x = true := by
  change Except.ok (s.fold x) = Except.ok (Reaction.known, s) ↔ _
  rw [SubuniverseClosure.fold]
  by_cases h : s.contains x = true
  · simp [h]
  · simp [h]

/-- The discovered elements with given numbers. -/
def elementsAt (s : SubuniverseClosure) (indices : List ℕ) : List ℕ := entriesAt s.elements 0 indices

theorem image_eq (hA : A.Total) (hs : s.Faithful A.size) {op : Operation}
    (hop : op ∈ A.operations) {indices : List ℕ} (hargs : indices ∈ drawn s op 0 s.elements.size) :
    Growth.image s op indices = .ok (some (op.value (s.elementsAt indices))) := by
  obtain ⟨hlen, hlt, -⟩ := mem_drawn.1 hargs
  have happly : op.apply (s.elementsAt indices) = .ok (op.value (s.elementsAt indices)) :=
    hA.apply_eq hop (length_entriesAt.trans hlen)
      fun x hx => hs.lt x (mem_of_mem_entriesAt hlt hx)
  change some <$> op.apply (s.elementsAt indices) = _
  rw [happly]
  rfl

/-- Taking in an element leaves the numbers of the others alone. -/
theorem extends_fold (s : SubuniverseClosure) (x : ℕ) : Extends s (s.fold x).2 := by
  cases hnew : s.contains x with
  | true =>
      have hfold : (s.fold x).2 = s := by simp [SubuniverseClosure.fold, hnew]
      rw [hfold]
      exact .refl s
  | false =>
      have hfold : (s.fold x).2 = ⟨s.members.insert x, s.elements.push x⟩ := by
        simp [SubuniverseClosure.fold, hnew]
      rw [hfold]
      refine ⟨?_, fun _ => rfl, fun _ _ _ => rfl, ?_, ?_⟩
      · exact Nat.le_of_lt (by simp [size])
      · intro op indices hargs
        have hlt : ∀ i ∈ indices, i < s.elements.size := (mem_drawn.1 hargs).2.1
        change some <$> op.apply (entriesAt (s.elements.push x) 0 indices)
          = some <$> op.apply (s.elementsAt indices)
        rw [elementsAt, entriesAt_push hlt]
      · intro y hy
        rw [knows_iff] at hy ⊢
        exact BitSet.contains_insert_of_contains hy x

/-! ### Closing -/

/-- The images of discovered elements lie in every closed set that has these. -/
theorem mem_of_isImage (hA : A.Total) (hs : s.Faithful A.size) {T : Set ℕ} (hT : A.ClosedUnder T)
    (hsub : ∀ x ∈ s.elements, x ∈ T) {x : ℕ} (hx : IsImage A.operations s x) :
    x < A.size ∧ x ∈ T := by
  obtain ⟨op, hop, indices, hargs, himage⟩ := hx
  rw [image_eq hA hs hop hargs] at himage
  obtain rfl : op.value (s.elementsAt indices) = x := by simpa using himage
  obtain ⟨hlen, hlt, i, hi, -⟩ := mem_drawn.1 hargs
  have hlen' : (s.elementsAt indices).length = op.arity := length_entriesAt.trans hlen
  have hpositive : 0 < op.arity := hlen ▸ List.length_pos_of_mem hi
  have hmem : ∀ y ∈ s.elementsAt indices, y ∈ s.elements := fun y => mem_of_mem_entriesAt hlt
  constructor
  · exact hA.value_lt hop hlen' fun y hy => hs.lt y (hmem y hy)
  · exact hT op hop hpositive _ hlen' fun y hy => hsub y (hmem y hy)

/-- What is discovered stays inside every closed set that has what was there at first. -/
theorem sustains (hA : A.Total) {T : Set ℕ} (hT : A.ClosedUnder T) :
    Sustains A.operations A.size
      (fun s : SubuniverseClosure => s.Faithful A.size ∧ ∀ x ∈ s.elements, x ∈ T)
      (fun _ => False) where
  image_ok := by
    rintro s ⟨hs, -⟩ op hop indices hargs
    exact ⟨_, image_eq hA hs hop hargs⟩
  size_le := by
    rintro s ⟨hs, -⟩
    exact hs.size_le
  accept_ok := by
    rintro s ⟨hs, hsub⟩ x himage
    obtain ⟨hx, hxT⟩ := mem_of_isImage hA hs hT hsub himage
    cases hnew : s.contains x with
    | true => exact .known (knows_iff.2 hnew)
    | false =>
        refine .added (s.fold x).2 ?_ ⟨hs.fold hx, ?_⟩ (extends_fold s x) ?_
        · change Except.ok (s.fold x) = _
          simp [SubuniverseClosure.fold, hnew]
        · intro y hy
          rcases hs.mem_fold.1 hy with hy | rfl
          · exact hsub y hy
          · exact hxT
        · rw [knows_iff, (hs.fold hx).contains_iff, hs.mem_fold]
          exact Or.inr rfl

/-- The discovered elements of a settled closure are closed under the operations of positive
arity. -/
theorem closedUnder_of_settled (hA : A.Total) (hs : s.Faithful A.size)
    (hsettled : SettledBelow A.operations s (size s)) : A.ClosedUnder {x | x ∈ s.elements} := by
  intro op hop harity args hlen hargs
  obtain ⟨indices, hlt, rfl⟩ := exists_entriesAt 0 hargs
  have hlen' : indices.length = op.arity := length_entriesAt.symm.trans hlen
  have hdrawn : indices ∈ drawn s op 0 s.elements.size := by
    obtain ⟨i, hi⟩ := List.exists_mem_of_length_pos (hlen' ▸ harity)
    exact mem_drawn.2 ⟨hlen', hlt, i, hi, Nat.zero_le i⟩
  have hknows := hsettled op hop indices hdrawn _ (image_eq hA hs hop hdrawn)
  exact (hs.contains_iff _).1 (knows_iff.1 hknows)

/-- If the discovered elements are closed, all their images are known. -/
theorem settledBelow_of_closedUnder (hA : A.Total) (hs : s.Faithful A.size)
    (hclosed : A.ClosedUnder {x | x ∈ s.elements}) : SettledBelow A.operations s (size s) := by
  intro op hop indices hargs x hx
  rw [image_eq hA hs hop hargs] at hx
  obtain rfl : op.value (s.elementsAt indices) = x := by simpa using hx
  obtain ⟨hlen, hlt, i, hi, -⟩ := mem_drawn.1 hargs
  have hpositive : 0 < op.arity := hlen ▸ List.length_pos_of_mem hi
  have hmem : ∀ y ∈ s.elementsAt indices, y ∈ s.elements := fun y => mem_of_mem_entriesAt hlt
  rw [knows_iff, hs.contains_iff]
  exact hclosed op hop hpositive _ (length_entriesAt.trans hlen) hmem

theorem extends_foldAll (s : SubuniverseClosure) (xs : List ℕ) : Extends s (s.foldAll xs) := by
  induction xs generalizing s with
  | nil => exact .refl s
  | cons x xs ih => exact (extends_fold s x).trans (ih (s.fold x).2)

/-- **Closing up to a cap** ends closed with a set that is closed under the operations of positive
arity, or capped with more elements than the cap allows.  In both cases the elements lie in every
such set that has what was there at first. -/
theorem close_spec (hA : A.Total) (mode : Mode) (cap : ℕ) {mark : ℕ} (hs : s.Faithful A.size)
    (hsettled : SettledBelow A.operations s mark) {T : Set ℕ} (hT : A.ClosedUnder T)
    (hsub : ∀ x ∈ s.elements, x ∈ T) :
    ∃ s' : SubuniverseClosure, s'.Faithful A.size ∧ (∀ x ∈ s'.elements, x ∈ T) ∧
      ((close A mode cap mark s = ⟨.ok .closed, s'⟩ ∧ (∀ x ∈ s.elements, x ∈ s'.elements) ∧
          A.ClosedUnder {x | x ∈ s'.elements} ∧ (cap ≠ 0 → s.elements.size ≤ cap →
            s'.elements.size ≤ cap)) ∨
        (close A mode cap mark s = ⟨.ok .capped, s'⟩ ∧ cap ≠ 0 ∧ cap < s'.elements.size)) := by
  obtain ⟨s', ⟨h, hreach, hsettled⟩ | ⟨h, ⟨hs', hsub'⟩, hcap⟩ | ⟨-, hfalse⟩⟩ :=
    Closure.close_spec cap (sustains hA hT) mode ⟨hs, hsub⟩ hsettled
  · obtain ⟨hs', hsub'⟩ := hreach.inv
    refine ⟨s', hs', hsub', Or.inl ⟨h, ?_, closedUnder_of_settled hA hs' hsettled,
      fun h0 hle => hreach.within (fun _ => hle) h0⟩⟩
    intro x hx
    have hknows : Knows s x := knows_iff.2 ((hs.contains_iff x).2 hx)
    exact (hs'.contains_iff x).1 (knows_iff.1 (hreach.extended.knows x hknows))
  · exact ⟨s', hs', hsub', Or.inr ⟨h, hcap⟩⟩
  · exact hfalse.elim

end SubuniverseClosure

end UniversalAlgebra
