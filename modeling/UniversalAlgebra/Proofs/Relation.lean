/-
**The pairs of a relation.**

The list of pairs reads off the rows, and so has exactly the pairs of the relation.  A relation that is
built by adding pairs of elements is determined by its pairs, and so equals its converse exactly if it
is symmetric.  The relation of a partition is built block by block: each element is put into the row of
the least element of its block, and then each element gets the row of its least element.

Main definitions:

* `Relation.RowsHold` — which elements each of some rows has;
* `Relation.Valid` — there is a row for each element, and the rows have elements only.

Main results:

* `Relation.mem_pairs` — the pairs of a relation;
* `Relation.Valid.ext`, `Relation.Valid.foldl_add`, `Relation.Valid.inverse` — the pairs determine the
  relation; those after adding some, and those of the converse;
* `Relation.Valid.le_iff` — what the comparison says;
* `Relation.Valid.isTolerance_iff` — what the test for a tolerance says;
* `Relation.mem_pairs_ofPartition` — **the pairs of a partition are the pairs of related elements**.
-/

import UniversalAlgebra.Proofs.BitSet
import UniversalAlgebra.Proofs.Partition.Basic
import UniversalAlgebra.Relation

set_option autoImplicit false

namespace UniversalAlgebra.Relation

variable {n i j : ℕ} {rows : Array BitSet} {P : ℕ → ℕ → Prop} {p : Partition}

theorem mem_pairs {r : Relation} : (i, j) ∈ r.pairs ↔ i < r.size ∧ r.has i j = true := by
  simp [pairs, has, BitSet.mem_toList]

/-! ### Rows -/

/-- There is a row for each element, and the row of `r` has the elements with `P r`. -/
def RowsHold (n : ℕ) (rows : Array BitSet) (P : ℕ → ℕ → Prop) : Prop :=
  rows.size = n ∧ ∀ r < n, ∃ row, rows[r]? = some row ∧ row.Fits n ∧
    ∀ j, row.contains j = true ↔ P r j

theorem rowsHold_replicate (n : ℕ) :
    RowsHold n (Array.replicate n (BitSet.empty n)) fun _ _ => False := by
  refine ⟨by simp, fun r hr => ⟨BitSet.empty n, ?_, BitSet.fits_empty n, by simp⟩⟩
  rw [Array.getElem?_replicate, if_pos hr]

theorem RowsHold.congr {Q : ℕ → ℕ → Prop} (h : RowsHold n rows P) (hPQ : ∀ r j, P r j ↔ Q r j) :
    RowsHold n rows Q := by
  obtain rfl : P = Q := funext₂ fun r j => propext (hPQ r j)
  exact h

/-- An element is put into one row. -/
theorem RowsHold.modify (h : RowsHold n rows P) (r : ℕ) (hi : i < n) :
    RowsHold n (rows.modify r (·.insert i)) fun r' j => P r' j ∨ j = i ∧ r = r' := by
  obtain ⟨hsize, hrows⟩ := h
  refine ⟨by rw [Array.size_modify, hsize], fun r' hr' => ?_⟩
  obtain ⟨row, hrow, hfits, hmem⟩ := hrows r' hr'
  rw [Array.getElem?_modify, hrow]
  by_cases heq : r = r'
  · refine ⟨row.insert i, by simp [heq], hfits.insert i, fun j => ?_⟩
    rw [hfits.contains_insert hi, Bool.or_eq_true, decide_eq_true_eq, hmem]
    simp [heq, or_comm]
  · exact ⟨row, by simp [heq], hfits, fun j => by simp [hmem, heq]⟩

/-- Each element of a list is put into a row of its own. -/
theorem RowsHold.foldl (h : RowsHold n rows P) (f : ℕ → ℕ) {xs : List ℕ} (hxs : ∀ i ∈ xs, i < n) :
    RowsHold n (xs.foldl (fun rows i => rows.modify (f i) (·.insert i)) rows)
      fun r j => P r j ∨ j ∈ xs ∧ f j = r := by
  induction xs generalizing rows P with
  | nil => simpa using h
  | cons x xs ih =>
      refine (ih (h.modify (f x) (hxs x List.mem_cons_self))
        fun i hi => hxs i (List.mem_cons_of_mem x hi)).congr fun r j => ?_
      rw [List.mem_cons, or_assoc, or_and_right]
      refine or_congr_right (or_congr_left (and_congr_right ?_))
      rintro rfl
      rfl

/-! ### Relations that are built pair by pair -/

/-- There is a row for each element, and the rows have elements only. -/
structure Valid (r : Relation) : Prop where
  rows_size : r.rows.size = r.size
  dim_eq : ∀ row ∈ r.rows, row.dim = r.size
  fits : ∀ row ∈ r.rows, row.Fits r.size
  lt : ∀ i j, r.has i j = true → j < r.size

variable {r s : Relation}

theorem row_eq (hi : i < r.rows.size) : r.row i = r.rows[i] := by
  rw [row, Array.getElem?_eq_getElem hi, Option.getD_some]

/-- The row of an element is a bit set for all elements. -/
theorem Valid.fits_row (hr : r.Valid) (hi : i < r.size) : (r.row i).Fits r.size := by
  have hi' : i < r.rows.size := by rwa [hr.rows_size]
  rw [row_eq hi']
  exact hr.fits _ (Array.getElem_mem hi')

/-- Elements only have something on their right. -/
theorem Valid.left_lt (hr : r.Valid) (h : r.has i j = true) : i < r.size := by
  by_contra hge
  have hnone : r.rows[i]? = none := Array.getElem?_eq_none (by rw [hr.rows_size]; omega)
  simp [has, row, hnone] at h

/-- The pairs determine the rows. -/
theorem Valid.ext (hr : r.Valid) (hs : s.Valid) (hsize : r.size = s.size)
    (h : ∀ i j, r.has i j = true ↔ s.has i j = true) : r = s := by
  have hrows : r.rows = s.rows := by
    refine Array.ext (by rw [hr.rows_size, hs.rows_size, hsize]) fun i hi hi' => ?_
    have hmem := Array.getElem_mem hi
    have hmem' := Array.getElem_mem hi'
    refine (hr.fits _ hmem).ext (hsize ▸ hs.fits _ hmem')
      ((hr.dim_eq _ hmem).trans (hsize.trans (hs.dim_eq _ hmem').symm)) fun j => ?_
    rw [← row_eq hi, ← row_eq hi', Bool.eq_iff_iff]
    exact h i j
  cases r
  cases s
  cases hsize
  cases hrows
  rfl

/-- Relations are compared by their pairs. -/
theorem Valid.le_iff (hr : r.Valid) (hs : s.Valid) :
    r.le s = .ok true ↔ r.size = s.size ∧ ∀ p ∈ r.pairs, p ∈ s.pairs := by
  by_cases hsize : r.size = s.size
  · have hle : r.le s = .ok (r.subset s) := by
      rw [le, checkSize, if_pos hsize]
      rfl
    have hrow (i : ℕ) (hi : i < r.size) : (r.row i).subset (s.row i) = true ↔
        ∀ j, r.has i j = true → s.has i j = true :=
      (hr.fits_row hi).subset_iff (hsize ▸ hs.fits_row (hsize ▸ hi))
    rw [hle, Except.ok.injEq, subset, Below.all_eq, List.all_eq_true]
    simp only [List.mem_range, Prod.forall, mem_pairs, ← hsize, true_and]
    constructor
    · exact fun h i j hij => ⟨hij.1, (hrow i hij.1).1 (h i hij.1) j hij.2⟩
    · exact fun h i hi => (hrow i hi).2 fun j hj => (h i j ⟨hi, hj⟩).2
  · rw [le, checkSize, if_neg hsize]
    refine iff_of_false (fun h => ?_) fun h => hsize h.1
    cases h

@[simp] theorem has_empty (n i j : ℕ) : (empty n).has i j = false := by
  rw [has, row, empty, Array.getElem?_replicate]
  split <;> simp

theorem valid_empty (n : ℕ) : (empty n).Valid := by
  have hrow : ∀ row ∈ (empty n).rows, row = BitSet.empty n := fun row hrow =>
    Array.eq_of_mem_replicate hrow
  refine ⟨by simp [empty], fun row h => hrow row h ▸ rfl, fun row h => hrow row h ▸ BitSet.fits_empty n,
    by simp⟩

/-- A pair of elements is added, and nothing else. -/
theorem Valid.has_add (hr : r.Valid) (hi : i < r.size) (hj : j < r.size) (i' j' : ℕ) :
    (r.add i j).has i' j' = true ↔ r.has i' j' = true ∨ (i', j') = (i, j) := by
  have hi' : i < r.rows.size := by rwa [hr.rows_size]
  rw [has, has, row, Relation.add, Array.getElem?_modify, Prod.mk.injEq]
  by_cases heq : i = i'
  · obtain rfl := heq
    have hfits := hr.fits_row hi
    have hmodified : ((if i = i then r.rows[i]?.map (·.insert j) else r.rows[i]?).getD
        (BitSet.empty r.size)) = (r.row i).insert j := by
      rw [if_pos rfl, row_eq hi', Array.getElem?_eq_getElem hi']
      rfl
    rw [hmodified, hfits.contains_insert hj, Bool.or_eq_true, decide_eq_true_eq, or_comm]
    simp
  · rw [if_neg heq]
    simp [Ne.symm heq, row]

theorem Valid.add (hr : r.Valid) (hi : i < r.size) (hj : j < r.size) : (r.add i j).Valid := by
  have hrows : ∀ row ∈ (r.add i j).rows, ∃ row' ∈ r.rows, row = row' ∨ row = row'.insert j := by
    intro row hrow
    obtain ⟨q, hq, rfl⟩ := Array.mem_iff_getElem.1 hrow
    have hq' : q < r.rows.size := by simpa [Relation.add] using hq
    refine ⟨r.rows[q], Array.getElem_mem hq', ?_⟩
    simp only [Relation.add, Array.getElem_modify]
    split
    · exact Or.inr rfl
    · exact Or.inl rfl
  refine ⟨by simp [Relation.add, hr.rows_size], ?_, ?_, ?_⟩
  · intro row hrow
    obtain ⟨row', hrow', rfl | rfl⟩ := hrows row hrow
    · exact hr.dim_eq _ hrow'
    · exact hr.dim_eq row' hrow'
  · intro row hrow
    obtain ⟨row', hrow', rfl | rfl⟩ := hrows row hrow
    · exact hr.fits _ hrow'
    · exact (hr.fits row' hrow').insert j
  · intro i' j' h
    rcases (hr.has_add hi hj i' j').1 h with h | h
    · exact hr.lt i' j' h
    · cases h
      exact hj

/-- The pairs of a list are added one after the other. -/
theorem Valid.foldl_add (hr : r.Valid) {ps : List (ℕ × ℕ)}
    (hps : ∀ p ∈ ps, p.1 < r.size ∧ p.2 < r.size) :
    (ps.foldl (fun r p => r.add p.1 p.2) r).Valid ∧
      (ps.foldl (fun r p => r.add p.1 p.2) r).size = r.size ∧
      ∀ i j, (ps.foldl (fun r p => r.add p.1 p.2) r).has i j = true ↔
        r.has i j = true ∨ (i, j) ∈ ps := by
  induction ps generalizing r with
  | nil => exact ⟨hr, rfl, by simp⟩
  | cons p ps ih =>
      obtain ⟨h₁, h₂⟩ := hps p List.mem_cons_self
      obtain ⟨hvalid, hsize, hhas⟩ :=
        ih (hr.add h₁ h₂) fun q hq => hps q (List.mem_cons_of_mem p hq)
      refine ⟨hvalid, hsize, fun i j => ?_⟩
      rw [List.foldl_cons, hhas, hr.has_add h₁ h₂, List.mem_cons, or_assoc]

/-! The converse. -/

theorem inverse_eq (r : Relation) :
    r.inverse = (r.pairs.map Prod.swap).foldl (fun s p => s.add p.1 p.2) (empty r.size) := by
  rw [inverse, pairs, List.foldl_map, List.foldl_flatMap]
  simp only [List.foldl_map, Prod.fst_swap, Prod.snd_swap]

/-- The converse has the pairs with their components exchanged. -/
theorem Valid.inverse (hr : r.Valid) :
    r.inverse.Valid ∧ r.inverse.size = r.size ∧
      ∀ i j, r.inverse.has i j = true ↔ r.has j i = true := by
  have hswapped (i j : ℕ) : (i, j) ∈ r.pairs.map Prod.swap ↔ r.has j i = true := by
    rw [List.mem_map]
    constructor
    · rintro ⟨p, hp, h⟩
      obtain rfl : p = (j, i) := by rw [← Prod.swap_swap p, h]; rfl
      exact (mem_pairs.1 hp).2
    · exact fun h => ⟨(j, i), mem_pairs.2 ⟨hr.left_lt h, h⟩, rfl⟩
  have hlt : ∀ p ∈ r.pairs.map Prod.swap, p.1 < (empty r.size).size ∧ p.2 < (empty r.size).size := by
    intro p hp
    have h := (hswapped p.1 p.2).1 hp
    exact ⟨hr.lt _ _ h, hr.left_lt h⟩
  obtain ⟨hvalid, hsize, hhas⟩ := (valid_empty r.size).foldl_add hlt
  rw [inverse_eq]
  refine ⟨hvalid, hsize, fun i j => ?_⟩
  rw [hhas, has_empty, hswapped]
  simp

/-- The test for a tolerance says whether the relation is reflexive and symmetric. -/
theorem Valid.isTolerance_iff (hr : r.Valid) :
    r.isTolerance = true ↔
      (∀ i < r.size, r.has i i = true) ∧ ∀ i j, r.has i j = true → r.has j i = true := by
  obtain ⟨hinverse, hsize, hhas⟩ := hr.inverse
  rw [isTolerance, Bool.and_eq_true, isReflexive, Below.all_eq, List.all_eq_true, isSymmetric,
    beq_iff_eq]
  refine and_congr (by simp) ⟨fun h i j hij => ?_, fun h => ?_⟩
  · rw [h, hhas] at hij
    exact hij
  · exact hr.ext hinverse hsize.symm fun i j => by
      rw [hhas]
      exact ⟨h i j, h j i⟩

/-! ### The relation of a partition -/

theorem has_ofPartition (hp : p.Valid) (hi : i < p.size) :
    (ofPartition p).has i j = true ↔ j < p.size ∧ p.setoid i j := by
  have hindices : ∀ i ∈ List.range p.size, i < p.size := fun i hi => List.mem_range.1 hi
  have hrows := (rowsHold_replicate p.size).foldl p.rep hindices
  obtain ⟨row, hrow, -, hmem⟩ := hrows.2 (p.rep i) (hp.rep_lt hi)
  have hrowi : (ofPartition p).row i = row := by
    simp [ofPartition, Relation.row, hi, hrow]
  simp only [false_or] at hmem
  rw [has, hrowi, hmem, List.mem_range, Partition.setoid_iff, eq_comm (a := p.rep j)]

/-- **The pairs of a partition are the pairs of related elements.** -/
theorem mem_pairs_ofPartition (hp : p.Valid) :
    (i, j) ∈ (ofPartition p).pairs ↔ i < p.size ∧ j < p.size ∧ p.setoid i j := by
  rw [mem_pairs]
  exact and_congr_right fun hi => has_ofPartition hp hi

end UniversalAlgebra.Relation
