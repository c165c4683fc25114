/-
**What a search for failures finds.**

A search keeps the first failure of each of the three conditions and may stop before the last matrix,
but only once each condition has failed.  So a condition without a failure at the end holds of every
matrix.

Main definitions:

* `RowCondition`, `CornerCondition`, `RectangularCondition` — the three conditions on a matrix;
* `Centrality.Tracks` — which failure of a search belongs to which condition;
* `Centrality.Decides` — a verdict that is right about a condition on all matrices.

Main results:

* `Matrix4.failsCentrality_iff`, `Matrix4.failsWeak_iff`, `Matrix4.failsRectangular_iff` — each test
  fails where its condition does;
* `Centrality.search_fst_eq_none` — a search among elements does not end with an error;
* `Centrality.Tracks.search_eq` — **what is known at the end is the first failure**;
* `Centrality.Tracks.isNone_search` — when there is no failure at the end;
* `Centrality.decides_holds`, `Centrality.decides_weaklyHolds`, `Centrality.decides_isRectangular` —
  **each verdict is right about its condition**.
-/

import UniversalAlgebra.Centrality
import UniversalAlgebra.Proofs.Partition.Basic

set_option autoImplicit false

namespace UniversalAlgebra

/-! ### The conditions -/

section Conditions

variable (s : Setoid ℕ) (a b c d : ℕ)

/-- If the first row is related, so is the second. -/
def RowCondition : Prop := s a b → s c d

/-- If the first entry is related to its neighbours, it is related to the entry across. -/
def CornerCondition : Prop := s a b → s a c → s a d

/-- If the first row is related, so is the second, and if the first column is related, so is the
second. -/
def RectangularCondition : Prop := (s a b → s c d) ∧ (s a c → s b d)

variable {s a b c d}

theorem RectangularCondition.row (h : RectangularCondition s a b c d) : RowCondition s a b c d := h.1

theorem RowCondition.corner (h : RowCondition s a b c d) : CornerCondition s a b c d :=
  fun hab hac => s.trans hac (h hab)

end Conditions

/-! ### The search -/

namespace Matrix4

/-- Which entries a partition relates. -/
def entries (m : Matrix4) (delta : Partition) : EntryRelations :=
  ⟨delta.related m.a m.b, delta.related m.a m.c, delta.related m.a m.d, delta.related m.b m.d,
    delta.related m.c m.d⟩

theorem failsCentrality_iff (delta : Partition) (m : Matrix4) :
    (m.entries delta).failsCentrality = true ↔ ¬RowCondition delta.setoid m.a m.b m.c m.d := by
  simp [EntryRelations.failsCentrality, entries, RowCondition, ← Partition.related_iff]

theorem failsWeak_iff (delta : Partition) (m : Matrix4) :
    (m.entries delta).failsWeak = true ↔ ¬CornerCondition delta.setoid m.a m.b m.c m.d := by
  simp [EntryRelations.failsWeak, entries, CornerCondition, ← Partition.related_iff,
    and_assoc]

theorem failsRectangular_iff (delta : Partition) (m : Matrix4) :
    (m.entries delta).failsRectangular = true ↔
      ¬RectangularCondition delta.setoid m.a m.b m.c m.d := by
  rw [RectangularCondition, not_and_or]
  simp [EntryRelations.failsRectangular, entries, ← Partition.related_iff]

end Matrix4

namespace Centrality

variable {ms : List Matrix4} {s : Centrality}

/-- Entries that are elements are compared without an error. -/
theorem relations_eq {m : Matrix4} {delta : Partition} (hm : ∀ x ∈ m.toList, x < delta.size) :
    m.relations delta = .ok (m.entries delta) := by
  have ha := hm m.a (by simp [Matrix4.toList])
  have hb := hm m.b (by simp [Matrix4.toList])
  have hc := hm m.c (by simp [Matrix4.toList])
  have hd := hm m.d (by simp [Matrix4.toList])
  simp only [Matrix4.relations, Partition.isRelated, Partition.representative, ha, hb, hc, hd,
    if_true]
  rfl

/-- So the search for failures does not end with an error. -/
theorem search_fst_eq_none (hms : ∀ m ∈ ms, ∀ x ∈ m.toList, x < s.delta.size) :
    (search ms s).1 = none := by
  induction ms generalizing s with
  | nil => rfl
  | cons m ms ih =>
      simp only [search, relations_eq (hms m List.mem_cons_self)]
      split
      · rfl
      · exact ih fun m' hm' => hms m' (List.mem_cons_of_mem m hm')

/-- The search does not change what is compared. -/
theorem search_data (ms : List Matrix4) (s : Centrality) : (search ms s).2.left = s.left ∧
    (search ms s).2.right = s.right ∧ (search ms s).2.delta = s.delta := by
  induction ms generalizing s with
  | nil => exact ⟨rfl, rfl, rfl⟩
  | cons m ms ih =>
      rw [search]
      split
      · exact ⟨rfl, rfl, rfl⟩
      · dsimp only
        split
        · exact ⟨rfl, rfl, rfl⟩
        · exact ih _

/-- A failure that is recorded when a condition fails, and is there once everything has failed. -/
structure Tracks (failure : Centrality → Option Matrix4) (fails : EntryRelations → Bool) : Prop where
  record : ∀ s m e, failure (s.record m e) = keepFirst (failure s) (fails e) m
  isNone : ∀ s, s.isDecided = true → (failure s).isNone = false

theorem tracks_centrality : Tracks centralityFailure EntryRelations.failsCentrality := by
  refine ⟨fun _ _ _ => rfl, fun s hs => ?_⟩
  simp only [isDecided, Bool.and_eq_true] at hs
  exact Option.isNone_eq_false_iff.2 hs.1.1

theorem tracks_weak : Tracks weakFailure EntryRelations.failsWeak := by
  refine ⟨fun _ _ _ => rfl, fun s hs => ?_⟩
  simp only [isDecided, Bool.and_eq_true] at hs
  exact Option.isNone_eq_false_iff.2 hs.1.2

theorem tracks_rectangular : Tracks rectangularFailure EntryRelations.failsRectangular := by
  refine ⟨fun _ _ _ => rfl, fun s hs => ?_⟩
  simp only [isDecided, Bool.and_eq_true] at hs
  exact Option.isNone_eq_false_iff.2 hs.2

variable {failure : Centrality → Option Matrix4} {fails : EntryRelations → Bool}

/-- What is known is kept, and otherwise the matrix is taken if it fails. -/
theorem keepFirst_eq (known : Option Matrix4) (b : Bool) (m : Matrix4) :
    keepFirst known b m = known.or (if b then some m else none) := by
  cases known <;> cases b <;> rfl

/-- **What is known at the end** is what was known at first, and otherwise the first failure in the
list. -/
theorem Tracks.search_eq (h : Tracks failure fails)
    (hms : ∀ m ∈ ms, ∀ x ∈ m.toList, x < s.delta.size) :
    failure (search ms s).2 = (failure s).or (ms.find? fun m => fails (m.entries s.delta)) := by
  induction ms generalizing s with
  | nil => simp [search]
  | cons m ms ih =>
      have hrest : ∀ m' ∈ ms, ∀ x ∈ m'.toList, x < s.delta.size :=
        fun m' hm' => hms m' (List.mem_cons_of_mem m hm')
      have hstep : failure (s.record m (m.entries s.delta))
          = (failure s).or (if fails (m.entries s.delta) then some m else none) := by
        rw [h.record, keepFirst_eq]
      have hfind : (m :: ms).find? (fun m => fails (m.entries s.delta))
          = (if fails (m.entries s.delta) then some m else none).or
            (ms.find? fun m => fails (m.entries s.delta)) := by
        rw [List.find?_cons]
        cases fails (m.entries s.delta) <;> rfl
      rw [hfind, ← Option.or_assoc, ← hstep]
      simp only [search, relations_eq (hms m List.mem_cons_self)]
      split
      · next hdecided =>
          -- everything has failed, so that the matrices that are left do not matter
          obtain ⟨w, hw⟩ := Option.isSome_iff_exists.1
            (Option.isNone_eq_false_iff.1 (h.isNone _ hdecided))
          rw [hw, Option.some_or]
      · exact ih (s := s.record m (m.entries s.delta)) hrest

/-- There is no failure at the end exactly if there was none at first and no matrix is one. -/
theorem Tracks.isNone_search (h : Tracks failure fails)
    (hms : ∀ m ∈ ms, ∀ x ∈ m.toList, x < s.delta.size) :
    (failure (search ms s).2).isNone = true ↔
      (failure s).isNone = true ∧ ∀ m ∈ ms, fails (m.entries s.delta) = false := by
  rw [h.search_eq hms]
  simp

/-! ### The verdicts -/

/-- After a search from scratch the verdict says whether the condition holds of all matrices. -/
def Decides (verdict : Centrality → Bool) (P : Setoid ℕ → ℕ → ℕ → ℕ → ℕ → Prop) : Prop :=
  ∀ (S T : Relation) (delta : Partition) (ts : List (List ℕ)),
    (∀ t ∈ ts, t.length = 4 ∧ ∀ x ∈ t, x < delta.size) →
      (verdict (search (ts.map Matrix4.ofList) ⟨S, T, delta, none, none, none⟩).2 = true ↔
        ∀ a b c d, [a, b, c, d] ∈ ts → P delta.setoid a b c d)

theorem exists_quadruple {t : List ℕ} (ht : t.length = 4) : ∃ a b c d, t = [a, b, c, d] := by
  obtain ⟨a, t', rfl⟩ := List.exists_of_length_succ t ht
  obtain ⟨b, c, d, rfl⟩ := List.length_eq_three.1 (Nat.succ.inj ht)
  exact ⟨a, b, c, d, rfl⟩

theorem Tracks.decides (h : Tracks failure fails)
    (hstart : ∀ S T delta, failure ⟨S, T, delta, none, none, none⟩ = none)
    {P : Setoid ℕ → ℕ → ℕ → ℕ → ℕ → Prop} (hP : ∀ (delta : Partition) (m : Matrix4),
      fails (m.entries delta) = true ↔ ¬P delta.setoid m.a m.b m.c m.d) :
    Decides (fun s => (failure s).isNone) P := by
  intro S T delta ts hts
  rw [h.isNone_search, hstart]
  · simp only [← Bool.not_eq_true, hP, not_not]
    constructor
    · rintro ⟨-, hall⟩ a b c d hmem
      exact hall _ (List.mem_map_of_mem hmem)
    · refine fun hall => ⟨rfl, fun m hm => ?_⟩
      obtain ⟨t, ht, rfl⟩ := List.mem_map.1 hm
      obtain ⟨a, b, c, d, rfl⟩ := exists_quadruple (hts t ht).1
      exact hall a b c d ht
  · intro m hm
    obtain ⟨t, ht, rfl⟩ := List.mem_map.1 hm
    obtain ⟨a, b, c, d, rfl⟩ := exists_quadruple (hts t ht).1
    exact (hts _ ht).2

/-- **The verdict on centrality is right about the rows.** -/
theorem decides_holds : Decides holds RowCondition :=
  tracks_centrality.decides (fun _ _ _ => rfl) Matrix4.failsCentrality_iff

/-- **The verdict on weak centrality is right about the corners.** -/
theorem decides_weaklyHolds : Decides weaklyHolds CornerCondition :=
  tracks_weak.decides (fun _ _ _ => rfl) Matrix4.failsWeak_iff

/-- **The verdict on strong rectangularity is right about rows and columns.** -/
theorem decides_isRectangular : Decides isRectangular RectangularCondition :=
  tracks_rectangular.decides (fun _ _ _ => rfl) Matrix4.failsRectangular_iff

end Centrality

end UniversalAlgebra
