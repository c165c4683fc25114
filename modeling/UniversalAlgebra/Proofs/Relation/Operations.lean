/-
**Relations as sets of pairs.**

A relation is made from nothing, from pairs or from a partition, changed pair by pair and combined with
others, and each of these works on rows of bits.  What comes out always has a row for each element, and
no bit beyond the elements is set; so a relation is known by the set of its pairs, and the operations on
rows are the operations on sets of pairs.

A pair is changed in place: both elements are checked, and then one row is written to.  A change that is
refused leaves the relation as it is.

Main definitions:

* `Relation.changeRow` — a change of one row, with the elements checked first;
* `Relation.members` — the set of the pairs of a relation;
* `Relation.Constructed` — the relations on `[0, n)` that can be made.

Main results:

* `Relation.changeRow_eq` — **a change in place is refused or made at once**;
* `Relation.ValidOn.ext` — a relation is known by its pairs;
* `Relation.ValidOn.comp`, `Relation.ValidOn.converse`, `Relation.ValidOn.inter`,
  `Relation.ValidOn.union` — the pairs after each operation;
* `Relation.Constructed.validOn` — what is made is valid.
-/

import UniversalAlgebra.Proofs.BitSet.Operations
import UniversalAlgebra.Proofs.Partition.Constructed
import UniversalAlgebra.Proofs.Relation

set_option autoImplicit false

namespace UniversalAlgebra.Relation

open Query Fallible

variable {r s : Relation} {p : Partition} {n i j : ℕ}

/-! ### Rows -/

/-- The row of an element is a bit set for the elements. -/
theorem Valid.over_row (hr : r.Valid) (hi : i < r.size) : (r.row i).Over r.size := by
  have hi' : i < r.rows.size := by rwa [hr.rows_size]
  refine ⟨?_, hr.fits_row hi, fun j hj => hr.lt i j hj⟩
  rw [row_eq hi']
  exact hr.dim_eq _ (Array.getElem_mem hi')

/-- A valid relation on `[0, n)`. -/
def ValidOn (n : ℕ) (r : Relation) : Prop := r.Valid ∧ r.size = n

/-- A relation is valid if each of its rows is a bit set for the elements. -/
theorem validOn_of_rows (hsize : r.size = n) (hrows : r.rows.size = n)
    (h : ∀ i < n, (r.row i).Over n) : r.ValidOn n := by
  have hrow : ∀ row ∈ r.rows, row.Over n := by
    intro row hrow
    obtain ⟨i, hi, rfl⟩ := Array.mem_iff_getElem.1 hrow
    rw [← row_eq hi]
    exact h i (hrows ▸ hi)
  subst hsize
  refine ⟨⟨hrows, fun row hmem => (hrow row hmem).dim_eq, fun row hmem => (hrow row hmem).fits, ?_⟩, rfl⟩
  intro i j hij
  rcases Nat.lt_or_ge i r.size with hi | hi
  · exact (h i hi).lt j hij
  · have hnone : r.rows[i]? = none := Array.getElem?_eq_none (by omega)
    simp [has, row, hnone] at hij

/-- A relation that is given row by row. -/
theorem row_map_range {f : ℕ → BitSet} (hi : i < n) :
    Relation.row ⟨n, (Array.range n).map f⟩ i = f i := by
  simp [row, hi]

/-- One row is changed. -/
theorem Valid.row_modify (hr : r.Valid) (hi : i < r.size) (f : BitSet → BitSet) (i' : ℕ) :
    ({ r with rows := r.rows.modify i f } : Relation).row i'
      = if i = i' then f (r.row i') else r.row i' := by
  have hi' : i < r.rows.size := by rwa [hr.rows_size]
  rw [row, row, Array.getElem?_modify]
  split
  · next h =>
      obtain rfl := h
      rw [Array.getElem?_eq_getElem hi', Option.map_some, Option.getD_some, Option.getD_some]
  · rfl

/-! ### The set of pairs -/

/-- The pairs of a relation. -/
def members (r : Relation) : SetRel ℕ ℕ := {p | r.contains p.1 p.2 = .ok true}

theorem checkPair_eq (r : Relation) (i j : ℕ) : r.checkPair i j
    = if i < r.size ∧ j < r.size then .ok ()
      else .error (.elementOutOfRange (if i < r.size then j else i)) := by
  rw [checkPair, checkElement, checkElement]
  by_cases hi : i < r.size <;> by_cases hj : j < r.size <;> simp [hi, hj, ok_bind, error_bind]

theorem checkPair_of_lt (hi : i < r.size) (hj : j < r.size) : r.checkPair i j = .ok () := by
  rw [checkPair_eq, if_pos ⟨hi, hj⟩]

theorem contains_eq (hi : i < r.size) (hj : j < r.size) : r.contains i j = .ok (r.has i j) := by
  rw [contains, checkPair_of_lt hi hj]
  rfl

theorem Valid.mem_members (hr : r.Valid) : (i, j) ∈ r.members ↔ r.has i j = true := by
  change r.contains i j = .ok true ↔ _
  constructor
  · intro h
    obtain ⟨u, -, h⟩ := bind_eq_ok.1 h
    simpa [pure_eq] using h
  · intro h
    rw [contains_eq (hr.left_lt h) (hr.lt i j h), h]

theorem ValidOn.lt_of_mem (hr : r.ValidOn n) (h : (i, j) ∈ r.members) : i < n ∧ j < n := by
  obtain ⟨hr, rfl⟩ := hr
  rw [hr.mem_members] at h
  exact ⟨hr.left_lt h, hr.lt i j h⟩

/-- A relation is known by its pairs. -/
theorem ValidOn.ext (hr : r.ValidOn n) (hs : s.ValidOn n) (h : r.members = s.members) : r = s := by
  refine hr.1.ext hs.1 (hr.2.trans hs.2.symm) fun i j => ?_
  rw [← hr.1.mem_members, ← hs.1.mem_members, h]

/-- Equality of relations is equality of their sets of pairs. -/
theorem ValidOn.beq_iff (hr : r.ValidOn n) (hs : s.ValidOn n) :
    (r == s) = true ↔ r.members = s.members := by
  rw [beq_iff_eq]
  exact ⟨congrArg members, hr.ext hs⟩

/-! ### Relations that are made from nothing -/

theorem validOn_empty (n : ℕ) : (empty n).ValidOn n := ⟨valid_empty n, rfl⟩

theorem members_empty (n : ℕ) : (empty n).members = ∅ := by
  ext ⟨i, j⟩
  simp [(valid_empty n).mem_members]

theorem validOn_identity (n : ℕ) : (identity n).ValidOn n := by
  refine validOn_of_rows rfl (by simp [identity]) fun i hi => ?_
  rw [identity, row_map_range hi]
  exact (BitSet.over_empty n).insert hi

theorem members_identity (n : ℕ) : (identity n).members = {p | p.1 < n ∧ p.1 = p.2} := by
  ext ⟨i, j⟩
  rw [(validOn_identity n).1.mem_members, Set.mem_ofPred_eq]
  rcases Nat.lt_or_ge i n with hi | hi
  · rw [has, identity, row_map_range hi, (BitSet.fits_empty n).contains_insert hi]
    simp [hi, eq_comm]
  · refine iff_of_false (fun h => ?_) fun h => absurd h.1 (by omega)
    exact absurd ((validOn_identity n).1.left_lt h) (Nat.not_lt.2 hi)

theorem row_universal (hi : i < n) : (universal n).row i = (BitSet.empty n).insertAll := by
  rw [row, universal, Array.getElem?_replicate, if_pos hi, Option.getD_some]

theorem validOn_universal (n : ℕ) : (universal n).ValidOn n := by
  refine validOn_of_rows rfl (by simp [universal]) fun i hi => ?_
  rw [row_universal hi]
  exact (BitSet.over_empty n).insertAll

theorem members_universal (n : ℕ) : (universal n).members = Set.Iio n ×ˢ Set.Iio n := by
  ext ⟨i, j⟩
  rw [(validOn_universal n).1.mem_members, Set.mem_prod, Set.mem_Iio, Set.mem_Iio]
  rcases Nat.lt_or_ge i n with hi | hi
  · rw [has, row_universal hi, (BitSet.over_empty n).contains_insertAll, decide_eq_true_eq,
      and_iff_right hi]
  · refine iff_of_false (fun h => ?_) fun h => absurd h.1 (by omega)
    exact absurd ((validOn_universal n).1.left_lt h) (Nat.not_lt.2 hi)

/-- Putting elements into rows leaves the dimensions alone. -/
theorem dim_of_mem_foldl_modify (f : ℕ → ℕ) {xs : List ℕ} {rows : Array BitSet}
    (h : ∀ row ∈ rows, row.dim = n) :
    ∀ row ∈ xs.foldl (fun rows i => rows.modify (f i) (·.insert i)) rows, row.dim = n := by
  induction xs generalizing rows with
  | nil => exact h
  | cons x xs ih =>
      refine ih fun row hrow => ?_
      obtain ⟨q, hq, rfl⟩ := Array.mem_iff_getElem.1 hrow
      rw [Array.size_modify] at hq
      rw [Array.getElem_modify]
      split
      · exact h (rows[q]) (Array.getElem_mem hq)
      · exact h (rows[q]) (Array.getElem_mem hq)

theorem validOn_ofPartition (hp : p.ValidOn n) : (ofPartition p).ValidOn n := by
  obtain ⟨hp, rfl⟩ := hp
  refine validOn_of_rows rfl (by simp [ofPartition]) fun i hi => ?_
  have hindices : ∀ i ∈ List.range p.size, i < p.size := fun i hi => List.mem_range.1 hi
  obtain ⟨row, hrow, hfits, -⟩ :=
    ((rowsHold_replicate p.size).foldl p.rep hindices).2 (p.rep i) (hp.rep_lt hi)
  have hdim : row.dim = p.size := by
    refine dim_of_mem_foldl_modify p.rep (fun row h => ?_) row (Array.mem_of_getElem? hrow)
    rw [Array.eq_of_mem_replicate h]
    rfl
  have hrowi : (ofPartition p).row i = row := by
    rw [ofPartition, row_map_range hi, hrow, Option.getD_some]
  refine ⟨hrowi ▸ hdim, hrowi ▸ hfits, fun j hj => ?_⟩
  exact ((has_ofPartition hp hi).1 hj).1

/-- The pairs of a partition are those of related elements. -/
theorem members_ofPartition (hp : p.ValidOn n) :
    (ofPartition p).members = {q | p.isRelated q.1 q.2 = .ok true} := by
  ext ⟨i, j⟩
  rw [(validOn_ofPartition hp).1.mem_members, Set.mem_ofPred_eq, Partition.isRelated_eq_ok_true]
  rcases Nat.lt_or_ge i p.size with hi | hi
  · rw [has_ofPartition hp.1 hi, and_iff_right hi]
    rfl
  · refine iff_of_false (fun h => ?_) fun h => absurd h.1 (Nat.not_lt.2 hi)
    have hlt : i < p.size := (validOn_ofPartition hp).1.left_lt h
    exact absurd hlt (Nat.not_lt.2 hi)

/-! ### Changes of one pair -/

/-- A change of the row of `i`, after a check of `i` and of `j`. -/
def changeRow {α : Type} (i j : ℕ) (change : BitSet → α × BitSet) : Query Relation α := do
  (← get).checkPair i j
  modifyGet fun r =>
    ((change (r.row i)).1, { r with rows := r.rows.modify i fun row => (change row).2 })

/-- Adds a pair in place. -/
def insertInPlace (i j : ℕ) : Query Relation Unit := changeRow i j fun row => ((), row.insert j)

/-- Adds a pair in place, and says whether it was missing. -/
def ensureInsertedInPlace (i j : ℕ) : Query Relation Bool := changeRow i j (·.tryInsert j)

/-- Removes a pair in place. -/
def removeInPlace (i j : ℕ) : Query Relation Unit := changeRow i j fun row => ((), row.remove j)

/-- **A change in place is refused or made at once.** -/
theorem changeRow_eq {α : Type} (i j : ℕ) (change : BitSet → α × BitSet) :
    changeRow i j change = atOnce fun r => (r.checkPair i j).map fun _ =>
      ((change (r.row i)).1, { r with rows := r.rows.modify i fun row => (change row).2 }) := by
  funext r
  rw [changeRow, get_bind_apply, atOnce]
  cases r.checkPair i j <;> rfl

theorem insertInPlace_eq (i j : ℕ) :
    insertInPlace i j = atOnce fun r => (r.insert i j).map fun s => ((), s) := by
  rw [insertInPlace, changeRow_eq]
  refine congrArg atOnce (funext fun r => ?_)
  rw [Relation.insert]
  cases r.checkPair i j <;> rfl

theorem ensureInsertedInPlace_eq (i j : ℕ) :
    ensureInsertedInPlace i j = atOnce fun r => r.ensureInserted i j := by
  rw [ensureInsertedInPlace, changeRow_eq]
  refine congrArg atOnce (funext fun r => ?_)
  rw [ensureInserted]
  cases r.checkPair i j <;> rfl

theorem removeInPlace_eq (i j : ℕ) :
    removeInPlace i j = atOnce fun r => (r.remove i j).map fun s => ((), s) := by
  rw [removeInPlace, changeRow_eq]
  refine congrArg atOnce (funext fun r => ?_)
  rw [Relation.remove]
  cases r.checkPair i j <;> rfl

section

variable {α : Type} {change : BitSet → α × BitSet}

/-- A change of a pair of elements is made. -/
theorem changeRow_of_lt (hi : i < r.size) (hj : j < r.size) : changeRow i j change r
    = .ok (change (r.row i)).1 { r with rows := r.rows.modify i fun row => (change row).2 } := by
  rw [changeRow_eq]
  refine atOnce_of_ok ?_
  rw [checkPair_of_lt hi hj]
  rfl

/-- A change of what is no pair of elements is refused, and nothing is changed. -/
theorem changeRow_of_not_lt (h : ¬ (i < r.size ∧ j < r.size)) : changeRow i j change r
    = .error (.elementOutOfRange (if i < r.size then j else i)) r := by
  rw [changeRow_eq]
  refine atOnce_of_error ?_
  rw [checkPair_eq, if_neg h]
  rfl

theorem Valid.modify_row (hr : r.Valid) (hi : i < r.size) {f : BitSet → BitSet}
    (hf : (f (r.row i)).Over r.size) :
    ({ r with rows := r.rows.modify i f } : Relation).ValidOn r.size := by
  refine validOn_of_rows rfl ((Array.size_modify ..).trans hr.rows_size) fun i' hi' => ?_
  rw [hr.row_modify hi]
  split
  · next h => exact h ▸ hf
  · exact hr.over_row hi'

/-- A change that keeps rows in range keeps relations valid. -/
theorem keeps_changeRow (i j : ℕ)
    (h : ∀ row : BitSet, row.Over n → j < n → (change row).2.Over n) :
    Keeps (ValidOn n) (changeRow i j change) := by
  rintro r ⟨hr, rfl⟩
  rw [after]
  by_cases hij : i < r.size ∧ j < r.size
  · rw [changeRow_of_lt hij.1 hij.2]
    exact hr.modify_row hij.1 (h _ (hr.over_row hij.1) hij.2)
  · rw [changeRow_of_not_lt hij]
    exact ⟨hr, rfl⟩

end

theorem keeps_insertInPlace (i j : ℕ) : Keeps (ValidOn n) (insertInPlace i j) :=
  keeps_changeRow i j fun _ hrow hj => hrow.insert hj

theorem keeps_ensureInsertedInPlace (i j : ℕ) : Keeps (ValidOn n) (ensureInsertedInPlace i j) :=
  keeps_changeRow i j fun _ hrow hj => hrow.insert hj

theorem keeps_removeInPlace (i j : ℕ) : Keeps (ValidOn n) (removeInPlace i j) :=
  keeps_changeRow i j fun _ hrow _ => hrow.remove j

/-- The pairs after a pair was added. -/
theorem ValidOn.members_add (hr : r.ValidOn n) (hi : i < n) (hj : j < n) :
    (r.add i j).members = Set.insert (i, j) r.members := by
  obtain ⟨hr, rfl⟩ := hr
  ext ⟨i', j'⟩
  rw [(hr.add hi hj).mem_members, hr.has_add hi hj, or_comm, ← hr.mem_members]
  rfl

/-- The pairs after a pair was removed. -/
theorem ValidOn.members_remove (hr : r.ValidOn n) (hi : i < n) (j : ℕ) :
    ({ r with rows := r.rows.modify i (·.remove j) } : Relation).members
      = r.members \ {(i, j)} := by
  obtain ⟨hr, rfl⟩ := hr
  obtain ⟨hvalid, -⟩ := hr.modify_row (f := (·.remove j)) hi ((hr.over_row hi).remove j)
  ext ⟨i', j'⟩
  rw [hvalid.mem_members, has, hr.row_modify hi, Set.mem_sdiff, hr.mem_members, has,
    Set.mem_singleton_iff, Prod.mk.injEq]
  by_cases h : i = i'
  · obtain rfl := h
    simp [BitSet.contains_remove, and_comm]
  · simp [h, Ne.symm h]

/-- The relation with the pairs of a list, if they are pairs of elements. -/
theorem ofPairs_eq {ps : List (ℕ × ℕ)} (hps : ∀ p ∈ ps, p.1 < n ∧ p.2 < n) :
    ofPairs n ps = .ok (ps.foldl (fun r p => r.add p.1 p.2) (empty n)) := by
  have go (r : Relation) (hr : r.size = n) : ps.foldlM (fun r p => r.insert p.1 p.2) r
      = .ok (ps.foldl (fun r p => r.add p.1 p.2) r) := by
    induction ps generalizing r with
    | nil => rfl
    | cons p ps ih =>
        obtain ⟨hp, hps⟩ := List.forall_mem_cons.1 hps
        have hinsert : r.insert p.1 p.2 = .ok (r.add p.1 p.2) := by
          rw [Relation.insert, checkPair_of_lt (hr.symm ▸ hp.1) (hr.symm ▸ hp.2)]
          rfl
        rw [List.foldlM_cons, hinsert, ok_bind, List.foldl_cons]
        exact ih hps _ hr
  exact go (empty n) rfl

/-- All of them have to be pairs of elements. -/
theorem lt_of_foldlM_insert {ps : List (ℕ × ℕ)}
    (h : ps.foldlM (fun r p => r.insert p.1 p.2) s = .ok r) :
    ∀ p ∈ ps, p.1 < s.size ∧ p.2 < s.size := by
  induction ps generalizing s with
  | nil => simp
  | cons p ps ih =>
      rw [List.foldlM_cons] at h
      obtain ⟨s', hs', h⟩ := bind_eq_ok.1 h
      obtain ⟨u, hcheck, hs'⟩ := bind_eq_ok.1 hs'
      cases hs'
      rw [checkPair_eq] at hcheck
      split at hcheck
      · next hp =>
          have hps := ih h
          exact List.forall_mem_cons.2 ⟨hp, hps⟩
      · cases hcheck

theorem validOn_ofPairs {ps : List (ℕ × ℕ)} (h : ofPairs n ps = .ok r) :
    r.ValidOn n ∧ r.members = {p | p ∈ ps} := by
  have hps : ∀ p ∈ ps, p.1 < n ∧ p.2 < n := lt_of_foldlM_insert h
  rw [ofPairs_eq hps] at h
  cases h
  obtain ⟨hvalid, hsize, hhas⟩ := (valid_empty n).foldl_add hps
  refine ⟨⟨hvalid, hsize⟩, ?_⟩
  ext ⟨i, j⟩
  rw [hvalid.mem_members, hhas, has_empty]
  simp

/-! ### Operations on whole relations -/

/-- Composition joins the rows of what a row has. -/
theorem ValidOn.comp (hr : r.ValidOn n) (hs : s.ValidOn n) :
    (r.comp s).ValidOn n ∧ (r.comp s).members = r.members.comp s.members := by
  obtain ⟨hr, rfl⟩ := hr
  obtain ⟨hs, hsize⟩ := hs
  have hrows (i j : ℕ) (hj : j ∈ (r.row i).toList) : (s.row j).Over r.size := by
    rw [BitSet.mem_toList] at hj
    exact hsize ▸ hs.over_row (hsize ▸ hr.lt i j hj)
  have hjoined (i : ℕ) := (BitSet.over_empty r.size).foldl_union (hrows i)
  have hvalid : (r.comp s).ValidOn r.size := by
    refine validOn_of_rows rfl (by simp [Relation.comp]) fun i hi => ?_
    rw [Relation.comp, row_map_range hi]
    exact (hjoined i).1
  refine ⟨hvalid, ?_⟩
  ext ⟨i, k⟩
  rw [hvalid.1.mem_members, SetRel.mem_comp]
  simp only [hr.mem_members, hs.mem_members]
  rcases Nat.lt_or_ge i r.size with hi | hi
  · rw [has, Relation.comp, row_map_range hi, (hjoined i).2]
    simp [BitSet.mem_toList, has]
  · have hge : ¬ i < r.size := Nat.not_lt.2 hi
    refine iff_of_false (fun h => hge (hvalid.1.left_lt h)) ?_
    rintro ⟨j, hj, -⟩
    exact hge (hr.left_lt hj)

theorem ValidOn.converse (hr : r.ValidOn n) :
    r.inverse.ValidOn n ∧ r.inverse.members = r.members.inv := by
  obtain ⟨hr, rfl⟩ := hr
  obtain ⟨hvalid, hsize, hhas⟩ := hr.inverse
  refine ⟨⟨hvalid, hsize⟩, ?_⟩
  ext ⟨i, j⟩
  rw [hvalid.mem_members, hhas, SetRel.mem_inv, hr.mem_members]

/-- Rows are combined one by one. -/
theorem row_zipWith {f : BitSet → BitSet → BitSet} (hr : r.ValidOn n) (hs : s.ValidOn n)
    (hi : i < n) : Relation.row ⟨n, Array.zipWith f r.rows s.rows⟩ i = f (r.row i) (s.row i) := by
  have hir : i < r.rows.size := by rwa [hr.1.rows_size, hr.2]
  have his : i < s.rows.size := by rwa [hs.1.rows_size, hs.2]
  simp [row, hir, his]

/-- What is made by combining rows of bits is the relation in which the pairs are so combined. -/
theorem ValidOn.zipWith {f : BitSet → BitSet → BitSet} {g : Bool → Bool → Bool} (hr : r.ValidOn n)
    (hs : s.ValidOn n) (hg : g false false = false)
    (hf : ∀ v w : BitSet, v.Over n → w.Over n → (f v w).Over n ∧
      ∀ j, (f v w).contains j = g (v.contains j) (w.contains j)) :
    (⟨n, Array.zipWith f r.rows s.rows⟩ : Relation).ValidOn n ∧
      ∀ i j, Relation.has ⟨n, Array.zipWith f r.rows s.rows⟩ i j = g (r.has i j) (s.has i j) := by
  have hover {r : Relation} (hr : r.ValidOn n) {i : ℕ} (hi : i < n) : (r.row i).Over n :=
    hr.2 ▸ hr.1.over_row (hr.2.symm ▸ hi)
  have hrows (i : ℕ) (hi : i < n) := hf _ _ (hover hr hi) (hover hs hi)
  have hvalid : (⟨n, Array.zipWith f r.rows s.rows⟩ : Relation).ValidOn n := by
    refine validOn_of_rows rfl ?_ fun i hi => ?_
    · simp [hr.1.rows_size, hs.1.rows_size, hr.2, hs.2]
    · rw [row_zipWith hr hs hi]
      exact (hrows i hi).1
  refine ⟨hvalid, fun i j => ?_⟩
  rcases Nat.lt_or_ge i n with hi | hi
  · rw [has, row_zipWith hr hs hi, (hrows i hi).2]
    rfl
  · have hfalse {r : Relation} (hr : r.ValidOn n) : r.has i j = false := by
      by_contra h
      exact absurd (hr.2 ▸ hr.1.left_lt (Bool.not_eq_false _ ▸ h)) (Nat.not_lt.2 hi)
    rw [hfalse hvalid, hfalse hr, hfalse hs, hg]

theorem checkSize_eq (h : r.size = s.size) : r.checkSize s = .ok () := if_pos h

theorem compose_eq (h : r.size = s.size) : r.compose s = .ok (r.comp s) := by
  rw [compose, checkSize_eq h]
  rfl

theorem le_eq (h : r.size = s.size) : r.le s = .ok (r.subset s) := by
  rw [le, checkSize_eq h]
  rfl

theorem ValidOn.size_eq_size (hr : r.ValidOn n) (hs : s.ValidOn n) : r.size = s.size :=
  hr.2.trans hs.2.symm

/-- The same once the sizes are checked, in terms of the sets of pairs. -/
theorem ValidOn.combine {f : BitSet → BitSet → BitSet} {g : Bool → Bool → Bool}
    {pairs : Set (ℕ × ℕ)} (hr : r.ValidOn n) (hs : s.ValidOn n) (hg : g false false = false)
    (hf : ∀ v w : BitSet, v.Over n → w.Over n → (f v w).Over n ∧
      ∀ j, (f v w).contains j = g (v.contains j) (w.contains j))
    (hpairs : ∀ i j, (i, j) ∈ pairs ↔ g (r.has i j) (s.has i j) = true) :
    ∃ t, (do
        r.checkSize s
        pure { r with rows := Array.zipWith f r.rows s.rows } : Except Fault Relation) = .ok t ∧
      t.ValidOn n ∧ t.members = pairs := by
  obtain ⟨hvalid, hhas⟩ := hr.zipWith hs hg hf
  refine ⟨⟨n, Array.zipWith f r.rows s.rows⟩, ?_, hvalid, ?_⟩
  · rw [checkSize_eq (hr.size_eq_size hs), ← hr.2]
    rfl
  · ext ⟨i, j⟩
    rw [hvalid.1.mem_members, hhas, hpairs]

theorem ValidOn.inter (hr : r.ValidOn n) (hs : s.ValidOn n) :
    ∃ t, r.inter s = .ok t ∧ t.ValidOn n ∧ t.members = r.members ∩ s.members := by
  refine hr.combine hs (f := BitSet.inter) (g := and) rfl (fun v w hv hw => ?_) fun i j => ?_
  · exact ⟨hv.inter hw, hv.fits.contains_inter hw.fits⟩
  · rw [Set.mem_inter_iff, hr.1.mem_members, hs.1.mem_members, Bool.and_eq_true]

theorem ValidOn.union (hr : r.ValidOn n) (hs : s.ValidOn n) :
    ∃ t, r.union s = .ok t ∧ t.ValidOn n ∧ t.members = r.members ∪ s.members := by
  refine hr.combine hs (f := BitSet.union) (g := or) rfl (fun v w hv hw => ?_) fun i j => ?_
  · exact ⟨hv.union hw, hv.fits.contains_union hw.fits⟩
  · rw [Set.mem_union, hr.1.mem_members, hs.1.mem_members, Bool.or_eq_true]

/-- Comparison is inclusion of the sets of pairs. -/
theorem ValidOn.le_iff_subset (hr : r.ValidOn n) (hs : s.ValidOn n) :
    r.le s = .ok true ↔ r.members ⊆ s.members := by
  rw [hr.1.le_iff hs.1, and_iff_right (hr.size_eq_size hs)]
  constructor
  · rintro h ⟨i, j⟩ hij
    rw [hr.1.mem_members] at hij
    rw [hs.1.mem_members]
    exact (mem_pairs.1 (h (i, j) (mem_pairs.2 ⟨hr.1.left_lt hij, hij⟩))).2
  · rintro h ⟨i, j⟩ hij
    have hmem := h (hr.1.mem_members.2 (mem_pairs.1 hij).2)
    rw [hs.1.mem_members] at hmem
    exact mem_pairs.2 ⟨hs.1.left_lt hmem, hmem⟩

/-- Relations of different sizes are refused by each operation that checks the sizes. -/
theorem operations_of_size_ne (h : r.size ≠ s.size) :
    r.compose s = .error (.sizeMismatch r.size s.size) ∧
    r.inter s = .error (.sizeMismatch r.size s.size) ∧
    r.union s = .error (.sizeMismatch r.size s.size) ∧
    r.le s = .error (.sizeMismatch r.size s.size) := by
  have hcheck : r.checkSize s = .error (.sizeMismatch r.size s.size) := if_neg h
  rw [compose, Relation.inter, Relation.union, le, hcheck]
  exact ⟨rfl, rfl, rfl, rfl⟩

/-- Equality checks nothing, and tells relations of different sizes apart. -/
theorem beq_of_size_ne (h : r.size ≠ s.size) : (r == s) = false := by
  refine beq_eq_false_iff_ne.2 fun heq => h ?_
  rw [heq]

/-! ### Relations that can be made -/

/-- The relations on `[0, n)` that can be made, by any calls in any order.  A change in place leaves a
relation, whether it is refused or not. -/
inductive Constructed (n : ℕ) : Relation → Prop
  | empty : Constructed n (empty n)
  | identity : Constructed n (identity n)
  | universal : Constructed n (universal n)
  | ofPartition {p : Partition} (hp : Partition.Constructed n p) : Constructed n (ofPartition p)
  | ofPairs {ps : List (ℕ × ℕ)} {r : Relation} (h : ofPairs n ps = .ok r) : Constructed n r
  | insert {r : Relation} (i j : ℕ) (hr : Constructed n r) :
      Constructed n ((insertInPlace i j).after r)
  | ensureInserted {r : Relation} (i j : ℕ) (hr : Constructed n r) :
      Constructed n ((ensureInsertedInPlace i j).after r)
  | remove {r : Relation} (i j : ℕ) (hr : Constructed n r) :
      Constructed n ((removeInPlace i j).after r)
  | compose {r s t : Relation} (hr : Constructed n r) (hs : Constructed n s)
      (h : r.compose s = .ok t) : Constructed n t
  | inverse {r : Relation} (hr : Constructed n r) : Constructed n r.inverse
  | inter {r s t : Relation} (hr : Constructed n r) (hs : Constructed n s) (h : r.inter s = .ok t) :
      Constructed n t
  | union {r s t : Relation} (hr : Constructed n r) (hs : Constructed n s) (h : r.union s = .ok t) :
      Constructed n t

/-- What is made is valid. -/
theorem Constructed.validOn (hr : Constructed n r) : r.ValidOn n := by
  induction hr with
  | empty => exact validOn_empty n
  | identity => exact validOn_identity n
  | universal => exact validOn_universal n
  | ofPartition hp => exact validOn_ofPartition hp.validOn
  | ofPairs h => exact (validOn_ofPairs h).1
  | insert i j _ ih => exact keeps_insertInPlace i j _ ih
  | ensureInserted i j _ ih => exact keeps_ensureInsertedInPlace i j _ ih
  | remove i j _ ih => exact keeps_removeInPlace i j _ ih
  | compose _ _ h ihr ihs =>
      rw [compose_eq (ihr.size_eq_size ihs)] at h
      cases h
      exact (ihr.comp ihs).1
  | inverse _ ih => exact ih.converse.1
  | inter _ _ h ihr ihs =>
      obtain ⟨m, hm, hvalid, -⟩ := ihr.inter ihs
      cases hm.symm.trans h
      exact hvalid
  | union _ _ h ihr ihs =>
      obtain ⟨m, hm, hvalid, -⟩ := ihr.union ihs
      cases hm.symm.trans h
      exact hvalid

end UniversalAlgebra.Relation
