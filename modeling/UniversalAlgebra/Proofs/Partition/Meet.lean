/-
**Meets of partitions.**

The meet of two partitions is found in one pass that keeps, for each pair of least elements, the
first element with this pair.  So an element is sent to the first one that both partitions relate to
it, and the relation of the meet is the intersection of the two relations.

Main results:

* `Partition.getElem?_firstWith` — the first element with a pair of least elements;
* `Partition.rep_inf_eq_iff` — when two elements have the same least element in the meet;
* `Partition.Valid.inf`, `Partition.Valid.setoid_inf` — **the relation of the meet is the meet of the
  relations**;
* `Partition.valid_coarsest`, `Partition.setoid_coarsest` — the coarsest partition.
-/

import UniversalAlgebra.Proofs.Partition.Order

set_option autoImplicit false

namespace UniversalAlgebra.Partition

variable {p q : Partition} {n i j : ℕ}

/-! ### The first element with a pair of least elements -/

/-- The table has the first element of the universe with each pair of least elements. -/
theorem getElem?_firstWith (p q : Partition) (key : ℕ × ℕ) :
    (firstWith p q)[key]? = (List.range p.size).find? fun i => (p.rep i, q.rep i) == key := by
  have go (xs : List ℕ) (known : Std.HashMap (ℕ × ℕ) ℕ) :
      (xs.foldl (fun first i => first.insertIfNew (p.rep i, q.rep i) i) known)[key]?
        = known[key]?.or (xs.find? fun i => (p.rep i, q.rep i) == key) := by
    induction xs generalizing known with
    | nil => simp
    | cons x xs ih =>
        rw [List.foldl_cons, ih, Std.HashMap.getElem?_insertIfNew, List.find?_cons]
        by_cases hkey : (p.rep x, q.rep x) = key
        · subst hkey
          by_cases hknown : (p.rep x, q.rep x) ∈ known
          · simp [hknown]
          · rw [if_pos ⟨BEq.rfl, hknown⟩, Std.HashMap.getElem?_eq_none hknown]
            simp
        · have hkey' : ((p.rep x, q.rep x) == key) = false := beq_eq_false_iff_ne.2 hkey
          rw [if_neg fun h => hkey (eq_of_beq h.1), hkey']
  have h := go (List.range p.size) ∅
  rwa [Std.HashMap.getElem?_empty, Option.none_or] at h

@[simp] theorem size_inf (p q : Partition) : (p.inf q).size = p.size := by simp [size, inf]

theorem getElem?_inf (hi : i < p.size) :
    (p.inf q).reps[i]? = some ((firstWith p q).getD (p.rep i, q.rep i) i) := by
  simp [inf, hi]

/-- The least element in the meet is the first one with the same least elements. -/
theorem rep_inf_spec (hi : i < p.size) : (p.inf q).rep i ≤ i ∧
    p.rep ((p.inf q).rep i) = p.rep i ∧ q.rep ((p.inf q).rep i) = q.rep i ∧
    ∀ j < p.size, p.rep j = p.rep i → q.rep j = q.rep i → (p.inf q).rep i ≤ j := by
  have hrep : (p.inf q).rep i
      = ((List.range p.size).find? fun j => (p.rep j, q.rep j) == (p.rep i, q.rep i)).getD i := by
    rw [rep, getElem?_inf hi, Option.getD_some, Std.HashMap.getD_eq_getD_getElem?,
      getElem?_firstWith]
  cases hfind : (List.range p.size).find? fun j => (p.rep j, q.rep j) == (p.rep i, q.rep i) with
  | none =>
      rw [List.find?_eq_none] at hfind
      simpa using hfind i (List.mem_range.2 hi)
  | some first =>
      rw [hfind, Option.getD_some] at hrep
      obtain ⟨hkey, -, hleast⟩ := List.find?_range_eq_some.1 hfind
      have hle (j : ℕ) (hp : p.rep j = p.rep i) (hq : q.rep j = q.rep i) : first ≤ j := by
        by_contra hlt
        simpa [hp, hq] using hleast j (Nat.not_le.1 hlt)
      have hkeys : p.rep first = p.rep i ∧ q.rep first = q.rep i := by simpa using hkey
      rw [hrep]
      exact ⟨hle i rfl rfl, hkeys.1, hkeys.2, fun j _ => hle j⟩

/-- Two elements have the same least element in the meet exactly if they do in both partitions. -/
theorem rep_inf_eq_iff (hi : i < p.size) (hj : j < p.size) :
    (p.inf q).rep i = (p.inf q).rep j ↔ p.rep i = p.rep j ∧ q.rep i = q.rep j := by
  obtain ⟨hlei, hpi, hqi, hleasti⟩ := rep_inf_spec (q := q) hi
  obtain ⟨hlej, hpj, hqj, hleastj⟩ := rep_inf_spec (q := q) hj
  constructor
  · intro h
    rw [← hpi, ← hqi, ← hpj, ← hqj, h]
    exact ⟨rfl, rfl⟩
  · rintro ⟨hp, hq⟩
    refine Nat.le_antisymm (hleasti _ (Nat.lt_of_le_of_lt hlej hj) (hpj.trans hp.symm)
      (hqj.trans hq.symm)) ?_
    exact hleastj _ (Nat.lt_of_le_of_lt hlei hi) (hpi.trans hp) (hqi.trans hq)

namespace Valid

/-- The meet of two partitions sends each element to the least element of its block. -/
theorem inf (p q : Partition) : (p.inf q).Valid where
  rep_le i hi := (rep_inf_spec (size_inf p q ▸ hi)).1
  rep_rep i hi := by
    rw [size_inf] at hi
    obtain ⟨hle, hp, hq, -⟩ := rep_inf_spec (q := q) hi
    exact (rep_inf_eq_iff (Nat.lt_of_le_of_lt hle hi) hi).2 ⟨hp, hq⟩
  blockCount_eq := by
    have hcount : (p.inf q).blockCount
        = (List.range p.size).countP fun i => (p.inf q).reps[i]? == some i := rfl
    rw [hcount, List.countP_eq_length_filter, representatives, size_inf]
    refine congrArg List.length (List.filter_congr fun i hi => ?_)
    rw [List.mem_range] at hi
    rw [rep, getElem?_inf hi, Option.getD_some]
    rfl

/-- **The relation of the meet is the meet of the relations.** -/
theorem setoid_inf (hp : p.Valid) : (p.inf q).setoid = p.setoid ⊓ q.setoid := by
  have hinf := Valid.inf p q
  ext i j
  rw [Setoid.inf_def]
  by_cases hi : i < p.size
  · by_cases hj : j < p.size
    · exact rep_inf_eq_iff hi hj
    · -- an element is not related to what is no element
      have hnot : ¬ p.setoid i j := fun h => hj (hp.setoid_lt h hi)
      have hnot' : ¬ (p.inf q).setoid i j := fun h => hj <| by
        simpa using hinf.setoid_lt h (by simpa using hi)
      exact iff_of_false hnot' fun h => hnot h.1
  · have hrep : p.rep i = i := rep_of_size_le (Nat.not_lt.1 hi)
    have hrep' : (p.inf q).rep i = i := rep_of_size_le (by simpa using hi)
    constructor
    · intro h
      by_cases hij : i = j
      · exact hij ▸ ⟨Setoid.refl' _ i, Setoid.refl' _ i⟩
      · exact absurd (by simpa using hinf.lt_of_setoid h hij) hi
    · intro h
      by_cases hij : i = j
      · exact hij ▸ Setoid.refl' _ i
      · exact absurd (hp.lt_of_setoid h.1 hij) hi

end Valid

/-! ### The coarsest partition -/

@[simp] theorem size_coarsest (n : ℕ) : (coarsest n).size = n := by simp [size, coarsest]

theorem rep_coarsest (hi : i < n) : (coarsest n).rep i = 0 := by simp [rep, coarsest, hi]

theorem valid_coarsest (n : ℕ) : (coarsest n).Valid where
  rep_le i hi := by
    rw [rep_coarsest (by simpa using hi)]
    exact Nat.zero_le i
  rep_rep i hi := by
    have hi' : i < n := by simpa using hi
    rw [rep_coarsest hi', rep_coarsest (Nat.lt_of_le_of_lt (Nat.zero_le i) hi')]
  blockCount_eq := by
    rw [representatives, size_coarsest]
    cases n with
    | zero => rfl
    | succ n =>
        have hfilter : (List.range (n + 1)).filter (fun i => (coarsest (n + 1)).rep i == i) = [0] := by
          rw [List.range_succ_eq_map, List.filter_cons_of_pos, List.filter_eq_nil_iff.2]
          · intro i hi
            obtain ⟨j, hj, rfl⟩ := List.mem_map.1 hi
            rw [rep_coarsest (Nat.succ_lt_succ (List.mem_range.1 hj))]
            simp
          · simp [rep_coarsest]
        rw [hfilter]
        rfl

/-- All elements are related. -/
theorem setoid_coarsest (hi : i < n) (hj : j < n) : (coarsest n).setoid i j := by
  rw [setoid_iff, rep_coarsest hi, rep_coarsest hj]

end UniversalAlgebra.Partition
