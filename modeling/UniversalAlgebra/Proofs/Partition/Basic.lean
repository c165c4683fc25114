/-
**Partitions as equivalence relations.**

The array of a valid partition sends each element to the least element of its block.  Two elements
are then related exactly if their entries agree, and the partition is determined by its size and
this relation.  Merging two blocks gives the least equivalence relation above the partition that
also relates the two.

Main definitions:

* `Partition.Valid` — the array holds least elements, and the blocks are counted;
* `Partition.setoid` — the equivalence relation of a partition; an element outside of the universe
  is related to itself only.

Main results:

* `Partition.Valid.ext` — a valid partition is determined by its relation;
* `Partition.Valid.relate` — merging keeps validity;
* `Partition.Valid.isLeast_relate` — merging adds one pair and what follows from it;
* `Partition.Valid.isLeast_foldl_relate` — merging along a list adds its pairs.
-/

import Mathlib
import UniversalAlgebra.Partition.Basic

set_option autoImplicit false

namespace UniversalAlgebra.Partition

variable {p q : Partition} {n i j : ℕ}

/-! ### Least elements -/

theorem rep_eq_getElem (hi : i < p.size) : p.rep i = p.reps[i] := by
  rw [rep, Array.getElem?_eq_getElem hi, Option.getD_some]

theorem rep_of_size_le (hi : p.size ≤ i) : p.rep i = i := by
  rw [size] at hi
  simp [rep, hi]

theorem mem_representatives {r : ℕ} : r ∈ p.representatives ↔ r < p.size ∧ p.rep r = r := by
  simp [representatives]

theorem nodup_representatives : p.representatives.Nodup :=
  List.nodup_range.filter _

/-- The array sends each element to the least element of its block, and the blocks are counted. -/
structure Valid (p : Partition) : Prop where
  rep_le : ∀ i < p.size, p.rep i ≤ i
  rep_rep : ∀ i < p.size, p.rep (p.rep i) = p.rep i
  blockCount_eq : p.blockCount = p.representatives.length

namespace Valid

theorem le (hp : p.Valid) (i : ℕ) : p.rep i ≤ i := by
  rcases Nat.lt_or_ge i p.size with hi | hi
  · exact hp.rep_le i hi
  · exact Nat.le_of_eq (rep_of_size_le hi)

@[simp] theorem rep_rep_eq (hp : p.Valid) (i : ℕ) : p.rep (p.rep i) = p.rep i := by
  rcases Nat.lt_or_ge i p.size with hi | hi
  · exact hp.rep_rep i hi
  · rw [rep_of_size_le hi, rep_of_size_le hi]

theorem rep_lt (hp : p.Valid) (hi : i < p.size) : p.rep i < p.size :=
  Nat.lt_of_le_of_lt (hp.le i) hi

/-- The representative of an element is the least element of its block. -/
theorem rep_le_of_rep_eq (hp : p.Valid) (h : p.rep j = p.rep i) : p.rep i ≤ j :=
  h ▸ hp.le j

end Valid

/-! ### The relation -/

/-- The equivalence relation of a partition. -/
def setoid (p : Partition) : Setoid ℕ := Setoid.ker p.rep

theorem setoid_iff : p.setoid i j ↔ p.rep i = p.rep j := Iff.rfl

theorem related_iff : p.related i j = true ↔ p.setoid i j := by
  simp [related, setoid_iff]

/-- Elements that differ are related only inside the universe. -/
theorem Valid.lt_of_setoid (hp : p.Valid) (h : p.setoid i j) (hne : i ≠ j) : i < p.size := by
  by_contra hi
  rw [setoid_iff, rep_of_size_le (Nat.not_lt.1 hi)] at h
  have hj : p.size ≤ j := Nat.le_trans (Nat.not_lt.1 hi) (h ▸ hp.le j)
  rw [rep_of_size_le hj] at h
  exact hne h

theorem Valid.setoid_lt (hp : p.Valid) (h : p.setoid i j) (hi : i < p.size) : j < p.size := by
  by_cases hne : j = i
  · exact hne ▸ hi
  · exact hp.lt_of_setoid (p.setoid.symm h) hne

/-- A valid partition is determined by its size and its relation. -/
theorem Valid.ext (hp : p.Valid) (hq : q.Valid) (hsize : p.size = q.size)
    (h : p.setoid = q.setoid) : p = q := by
  have hrep (i : ℕ) : p.rep i = q.rep i := by
    have hpq : p.rep (q.rep i) = p.rep i := by
      rw [← setoid_iff, h]
      exact hq.rep_rep_eq i
    have hqp : q.rep (p.rep i) = q.rep i := by
      rw [← setoid_iff, ← h]
      exact hp.rep_rep_eq i
    exact Nat.le_antisymm (hp.rep_le_of_rep_eq hpq) (hq.rep_le_of_rep_eq hqp)
  have hreps : p.reps = q.reps := by
    refine Array.ext hsize ?_
    intro i hi hj
    rw [← rep_eq_getElem hi, ← rep_eq_getElem hj, hrep i]
  have hcount : p.blockCount = q.blockCount := by
    rw [hp.blockCount_eq, hq.blockCount_eq, representatives, representatives, hsize]
    simp only [hrep]
  cases p
  cases q
  simp_all

/-! ### The finest partition -/

@[simp] theorem size_finest (n : ℕ) : (finest n).size = n := by simp [size, finest]

@[simp] theorem rep_finest (n i : ℕ) : (finest n).rep i = i := by
  rcases Nat.lt_or_ge i n with hi | hi
  · simp [rep, finest, hi]
  · exact rep_of_size_le (by simpa using hi)

theorem valid_finest (n : ℕ) : (finest n).Valid where
  rep_le := by simp
  rep_rep := by simp
  blockCount_eq := by
    have h : (finest n).representatives = List.range n := by
      rw [representatives, size_finest]
      exact List.filter_eq_self.2 fun i _ => by simp
    rw [h, List.length_range]
    rfl

theorem setoid_finest (n : ℕ) : (finest n).setoid = ⊥ := by
  ext i j
  simp [setoid_iff]

/-- With as many blocks as elements each element is a block. -/
theorem Valid.eq_finest (hp : p.Valid) (h : p.isFinest = true) : p = finest p.size := by
  have hlength : ((List.range p.size).filter fun i => p.rep i == i).length
      = (List.range p.size).length := by
    rw [isFinest, beq_iff_eq, hp.blockCount_eq, representatives] at h
    rw [h, List.length_range]
  have hrep : ∀ i < p.size, p.rep i = i := by
    simpa using List.length_filter_eq_length_iff.1 hlength
  refine hp.ext (valid_finest p.size) (size_finest p.size).symm ?_
  ext i j
  rw [setoid_iff, setoid_iff, rep_finest, rep_finest]
  have hall (i : ℕ) : p.rep i = i := by
    rcases Nat.lt_or_ge i p.size with hi | hi
    · exact hrep i hi
    · exact rep_of_size_le hi
  rw [hall, hall]

/-! ### Merging -/

@[simp] theorem size_merge (p : Partition) (r s : ℕ) : (p.merge r s).size = p.size := by
  simp [size, merge]

@[simp] theorem size_relate (p : Partition) (i j : ℕ) : (p.relate i j).size = p.size := by
  rw [relate]
  split <;> simp

/-- Merging replaces the greater of two least elements by the other one. -/
theorem Valid.rep_merge (hp : p.Valid) {r s : ℕ} (hr : r < p.size) (hs : s < p.size) (i : ℕ) :
    (p.merge r s).rep i = if p.rep i = max r s then min r s else p.rep i := by
  have hmax : max r s < p.size := Nat.max_lt.2 ⟨hr, hs⟩
  rcases Nat.lt_or_ge i p.size with hi | hi
  · have hget : p.reps[i]? = some (p.rep i) := by
      rw [rep_eq_getElem hi]
      exact Array.getElem?_eq_getElem hi
    have hle := hp.le i
    change (replaceFrom (max r s) (min r s) (max r s) (p.size - max r s) p.reps)[i]?.getD i = _
    rw [getElem?_replaceFrom, hget]
    by_cases h : p.rep i = max r s
    · rw [if_pos h, if_pos ⟨h ▸ hle, by omega, congrArg some h⟩, Option.getD_some]
    · rw [if_neg h, if_neg fun hand => h (Option.some_inj.1 hand.2.2), Option.getD_some]
  · have hne : i ≠ max r s := by omega
    rw [rep_of_size_le (by simpa using hi), rep_of_size_le hi, if_neg hne]

/-- The same for two elements, whether their blocks differ or not. -/
theorem Valid.rep_relate (hp : p.Valid) (hi : i < p.size) (hj : j < p.size) (k : ℕ) :
    (p.relate i j).rep k
      = if p.rep k = max (p.rep i) (p.rep j) then min (p.rep i) (p.rep j) else p.rep k := by
  rw [Partition.relate]
  split
  · next h =>
      split
      · next hk => rw [hk, h, max_self, min_self]
      · rfl
  · exact hp.rep_merge (hp.rep_lt hi) (hp.rep_lt hj) k

/-- Merging keeps validity. -/
theorem Valid.relate (hp : p.Valid) (hi : i < p.size) (hj : j < p.size) : (p.relate i j).Valid := by
  have hrep := hp.rep_relate hi hj
  have hmin : p.rep (min (p.rep i) (p.rep j)) = min (p.rep i) (p.rep j) := by
    rcases Nat.le_total (p.rep i) (p.rep j) with h | h <;> simp [h, hp]
  have hmax : p.rep (max (p.rep i) (p.rep j)) = max (p.rep i) (p.rep j) := by
    rcases Nat.le_total (p.rep i) (p.rep j) with h | h <;> simp [h, hp]
  refine ⟨?_, ?_, ?_⟩
  · intro k _
    have := hp.le k
    rw [hrep]
    split <;> omega
  · intro k _
    rw [hrep k]
    split
    · rw [hrep, hmin]
      split <;> rfl
    · next h => rw [hrep, hp.rep_rep_eq, if_neg h]
  · by_cases h : p.rep i = p.rep j
    · rw [Partition.relate, if_pos h, hp.blockCount_eq]
    · -- the greater of the two least elements is the only one that is lost
      have hlost (k : ℕ) : ((p.relate i j).rep k == k)
          = (p.rep k == k && k != max (p.rep i) (p.rep j)) := by
        rw [hrep, Bool.eq_iff_iff]
        simp only [beq_iff_eq, Bool.and_eq_true, bne_iff_ne]
        constructor
        · intro hk
          split at hk
          · next hk' =>
              rw [← hk, hmin] at hk'
              omega
          · next hk' => exact ⟨hk, fun heq => hk' (hk.trans heq)⟩
        · rintro ⟨hk, hne⟩
          rw [hk, if_neg hne]
      have hmem : max (p.rep i) (p.rep j) ∈ p.representatives := by
        have h₁ := hp.rep_lt hi
        have h₂ := hp.rep_lt hj
        exact mem_representatives.2 ⟨by omega, hmax⟩
      have hreps : (p.relate i j).representatives
          = p.representatives.erase (max (p.rep i) (p.rep j)) := by
        rw [nodup_representatives.erase_eq_filter, representatives, representatives,
          List.filter_filter, size_relate]
        exact List.filter_congr fun k _ => by rw [hlost, Bool.and_comm]
      have hcount : (p.relate i j).blockCount = p.blockCount - 1 := by
        simp [Partition.relate, h, merge]
      rw [hreps, hcount, List.length_erase_of_mem hmem, hp.blockCount_eq]

/-- **Merging adds one pair and what follows from it.** -/
theorem Valid.isLeast_relate (hp : p.Valid) (hi : i < p.size) (hj : j < p.size) :
    IsLeast {s : Setoid ℕ | p.setoid ≤ s ∧ s i j} (p.relate i j).setoid := by
  have hrep := hp.rep_relate hi hj
  refine ⟨⟨?_, ?_⟩, ?_⟩
  · intro k l h
    rw [setoid_iff] at h ⊢
    rw [hrep, hrep, h]
  · rw [setoid_iff, hrep, hrep]
    rcases Nat.le_total (p.rep i) (p.rep j) with h | h <;> simp only [h, max_eq_right,
      max_eq_left, min_eq_left, min_eq_right, if_true] <;> split <;> simp_all
  · rintro s ⟨hps, hij⟩ k l h
    -- both ends are related to the entries before, and the two that became one are related
    have hself (m : ℕ) : s m (p.rep m) := hps (setoid_iff.2 (hp.rep_rep_eq m).symm)
    have hreps : s (p.rep i) (p.rep j) := s.trans (s.symm (hself i)) (s.trans hij (hself j))
    have hends : s (max (p.rep i) (p.rep j)) (min (p.rep i) (p.rep j)) := by
      rcases Nat.le_total (p.rep i) (p.rep j) with h | h
      · simpa [h] using s.symm hreps
      · simpa [h] using hreps
    have hnew (m : ℕ) : s m ((p.relate i j).rep m) := by
      rw [hrep]
      split
      · next hm => exact s.trans (hself m) (hm ▸ hends)
      · exact hself m
    rw [setoid_iff] at h
    exact s.trans (hnew k) (h ▸ s.symm (hnew l))

/-- Merging along a list keeps validity. -/
theorem Valid.foldl_relate {α : Type} {f g : α → ℕ} {xs : List α} (hp : p.Valid)
    (hxs : ∀ x ∈ xs, f x < p.size ∧ g x < p.size) :
    (xs.foldl (fun q x => q.relate (f x) (g x)) p).Valid ∧
      (xs.foldl (fun q x => q.relate (f x) (g x)) p).size = p.size := by
  induction xs generalizing p with
  | nil => exact ⟨hp, rfl⟩
  | cons x xs ih =>
      have hx := hxs x List.mem_cons_self
      have h := ih (hp.relate hx.1 hx.2) (by simpa using fun y hy => hxs y (List.mem_cons_of_mem x hy))
      rwa [size_relate] at h

/-- **Merging along a list adds the pairs of the list and what follows from them.** -/
theorem Valid.isLeast_foldl_relate {α : Type} {f g : α → ℕ} {xs : List α} (hp : p.Valid)
    (hxs : ∀ x ∈ xs, f x < p.size ∧ g x < p.size) :
    IsLeast {s : Setoid ℕ | p.setoid ≤ s ∧ ∀ x ∈ xs, s (f x) (g x)}
      (xs.foldl (fun q x => q.relate (f x) (g x)) p).setoid := by
  induction xs generalizing p with
  | nil => exact ⟨⟨le_refl _, by simp⟩, fun s hs => hs.1⟩
  | cons x xs ih =>
      have hx := hxs x List.mem_cons_self
      obtain ⟨⟨hle, hrel⟩, hleast⟩ := hp.isLeast_relate hx.1 hx.2
      obtain ⟨⟨hle', hrel'⟩, hleast'⟩ := ih (hp.relate hx.1 hx.2)
        (by simpa using fun y hy => hxs y (List.mem_cons_of_mem x hy))
      refine ⟨⟨hle.trans hle', ?_⟩, ?_⟩
      · intro y hy
        rcases List.mem_cons.1 hy with rfl | hy
        · exact hle' hrel
        · exact hrel' y hy
      · rintro s ⟨hps, hs⟩
        exact hleast' ⟨hleast ⟨hps, hs x List.mem_cons_self⟩,
          fun y hy => hs y (List.mem_cons_of_mem x hy)⟩

end UniversalAlgebra.Partition
