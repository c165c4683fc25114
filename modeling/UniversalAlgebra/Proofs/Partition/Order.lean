/-
**Joins and refinement of partitions.**

The join of two partitions of one size is the join of their equivalence relations, and one partition
refines another exactly if its relation is included in that of the other.  The least elements of a
coarser partition are among those of a finer one, and all of them only if the two are the same, so that
rank grows along strict refinement.  The rank order compares ranks first and lists of least elements
next.

Main definitions:

* `Partition.rankKey` — what the rank order compares.

Main results:

* `Partition.Valid.sup`, `Partition.Valid.setoid_sup` — the join;
* `Partition.Valid.refines_iff` — refinement;
* `Partition.Valid.blockCount_lt`, `Partition.Valid.rank_lt` — **rank grows along strict refinement**;
* `Partition.orderedBy_rankLess`, `Partition.Valid.eq_of_rankKey_eq` — the rank order.
-/

import UniversalAlgebra.Partition.Order
import UniversalAlgebra.Proofs.Partition.Basic
import UniversalAlgebra.Proofs.Sorting

set_option autoImplicit false

namespace UniversalAlgebra.Partition

variable {p q : Partition}

namespace Valid

/-- A relation contains that of a valid partition if it relates each element to its least one. -/
theorem setoid_le_iff (hp : p.Valid) {s : Setoid ℕ} :
    p.setoid ≤ s ↔ ∀ i < p.size, s i (p.rep i) := by
  constructor
  · intro h i _
    exact h (setoid_iff.2 (hp.rep_rep_eq i).symm)
  · intro h i j hij
    by_cases hne : i = j
    · exact hne ▸ s.refl i
    · have hi := hp.lt_of_setoid hij hne
      have hj := hp.setoid_lt hij hi
      rw [setoid_iff] at hij
      exact s.trans (h i hi) (hij ▸ s.symm (h j hj))

/-- The entries of one partition are elements of another one of the same size. -/
theorem rep_lt_of_size_eq (hq : q.Valid) (hsize : p.size = q.size) :
    ∀ i ∈ List.range p.size, i < p.size ∧ q.rep i < p.size := by
  intro i hi
  have hlt : i < p.size := List.mem_range.1 hi
  exact ⟨hlt, hsize ▸ hq.rep_lt (hsize ▸ hlt)⟩

theorem sup (hp : p.Valid) (hq : q.Valid) (hsize : p.size = q.size) : (p.sup q).Valid :=
  (hp.foldl_relate (hq.rep_lt_of_size_eq hsize)).1

theorem size_sup (hp : p.Valid) (hq : q.Valid) (hsize : p.size = q.size) :
    (p.sup q).size = p.size :=
  (hp.foldl_relate (hq.rep_lt_of_size_eq hsize)).2

/-- **The relation of the join is the join of the relations.** -/
theorem setoid_sup (hp : p.Valid) (hq : q.Valid) (hsize : p.size = q.size) :
    (p.sup q).setoid = p.setoid ⊔ q.setoid := by
  obtain ⟨⟨hle, hrel⟩, hleast⟩ := hp.isLeast_foldl_relate (hq.rep_lt_of_size_eq hsize)
  refine le_antisymm (hleast ⟨le_sup_left, ?_⟩) (sup_le hle ?_)
  · intro i _
    exact (le_sup_right : q.setoid ≤ p.setoid ⊔ q.setoid) (setoid_iff.2 (hq.rep_rep_eq i).symm)
  · rw [hq.setoid_le_iff, ← hsize]
    exact fun i hi => hrel i (List.mem_range.2 hi)

/-- **Refinement is inclusion of the relations.** -/
theorem refines_iff (hp : p.Valid) : p.refines q = true ↔ p.setoid ≤ q.setoid := by
  rw [hp.setoid_le_iff, refines, Below.all_eq]
  simp only [List.all_eq_true, List.mem_range, Bool.or_eq_true, beq_iff_eq, setoid_iff]
  constructor
  · intro h i hi
    rcases h i hi with heq | heq
    · rw [heq]
    · exact heq
  · exact fun h i hi => Or.inr (h i hi)

/-! ### Rank and refinement -/

/-- A least element of a block of the coarser partition is one of the finer partition too. -/
theorem rep_eq_of_le (hp : p.Valid) (hq : q.Valid) (hle : p.setoid ≤ q.setoid) {r : ℕ}
    (hr : q.rep r = r) : p.rep r = r := by
  refine Nat.le_antisymm (hp.le r) ?_
  have hrel : q.setoid (p.rep r) r := hle (hp.rep_rep_eq r)
  calc r = q.rep (p.rep r) := hr.symm.trans hrel.symm
    _ ≤ p.rep r := hq.le _

/-- A strictly coarser partition has fewer blocks. -/
theorem blockCount_lt (hp : p.Valid) (hq : q.Valid) (hsize : p.size = q.size)
    (hlt : p.setoid < q.setoid) : q.blockCount < p.blockCount := by
  have hsub : q.representatives ⊆ p.representatives := by
    intro r hr
    rw [mem_representatives] at hr ⊢
    exact ⟨hsize ▸ hr.1, hp.rep_eq_of_le hq hlt.le hr.2⟩
  have hsubperm := List.subperm_of_subset (nodup_representatives (p := q)) hsub
  rw [hp.blockCount_eq, hq.blockCount_eq]
  refine lt_of_le_of_ne hsubperm.length_le fun hlength => ?_
  -- with as many least elements the coarser partition sends each element where the finer one does
  have hperm := hsubperm.perm_of_length_le hlength.ge
  refine hlt.not_ge (hq.setoid_le_iff.2 fun x hx => ?_)
  have hmem : p.rep x ∈ q.representatives := hperm.mem_iff.2
    (mem_representatives.2 ⟨hp.rep_lt (hsize ▸ hx), hp.rep_rep_eq x⟩)
  have hrel : q.rep (p.rep x) = q.rep x := hlt.le (hp.rep_rep_eq x)
  rw [← hrel, (mem_representatives.1 hmem).2]
  exact (hp.rep_rep_eq x).symm

/-- There are at most as many blocks as elements. -/
theorem blockCount_le (hp : p.Valid) : p.blockCount ≤ p.size := by
  rw [hp.blockCount_eq, representatives]
  exact (List.length_filter_le _ _).trans_eq List.length_range

/-- So the rank and the number of blocks add up to the number of elements. -/
theorem rank_add_blockCount (hp : p.Valid) : p.rank + p.blockCount = p.size :=
  Nat.sub_add_cancel hp.blockCount_le

/-- A strictly coarser partition has a greater rank. -/
theorem rank_lt (hp : p.Valid) (hq : q.Valid) (hsize : p.size = q.size)
    (hlt : p.setoid < q.setoid) : p.rank < q.rank := by
  have hcount := hp.blockCount_lt hq hsize hlt
  have hp := hp.rank_add_blockCount
  have hq := hq.rank_add_blockCount
  omega

end Valid

/-! ### The rank order -/

/-- What the rank order compares: the rank, and then the least elements of the blocks. -/
def rankKey (p : Partition) : ℕ ×ₗ List ℕ := toLex (p.rank, p.reps.toList)

theorem orderedBy_rankLess : OrderedBy rankLess rankKey := by
  intro p q
  have hlex : p.lexLess q = true ↔ p.reps.toList < q.reps.toList := by
    rw [lexLess, ← Array.lex_toList, List.lex_eq_true_iff_lt]
  rw [rankKey, rankKey, Prod.Lex.toLex_lt_toLex, rankLess]
  split
  · next hne =>
      rw [decide_eq_true_eq]
      exact ⟨Or.inl, fun h => h.elim id fun h => absurd h.1 hne⟩
  · next heq =>
      rw [not_not] at heq
      rw [hlex]
      exact ⟨fun h => Or.inr ⟨heq, h⟩, fun h => h.elim (fun h => absurd heq h.ne) And.right⟩

/-- A smaller rank comes first. -/
theorem rankKey_lt_of_rank_lt (h : p.rank < q.rank) : p.rankKey < q.rankKey :=
  Prod.Lex.toLex_lt_toLex.2 (Or.inl h)

/-- A valid partition is known by its array. -/
theorem Valid.eq_of_reps_eq (hp : p.Valid) (hq : q.Valid) (h : p.reps = q.reps) : p = q := by
  have hrep (i : ℕ) : p.rep i = q.rep i := by rw [rep, rep, h]
  refine hp.ext hq (congrArg Array.size h) ?_
  ext i j
  rw [setoid_iff, setoid_iff, hrep, hrep]

/-- A valid partition is known by what the rank order compares. -/
theorem Valid.eq_of_rankKey_eq (hp : p.Valid) (hq : q.Valid) (h : p.rankKey = q.rankKey) :
    p = q :=
  hp.eq_of_reps_eq hq (Array.toList_inj.1 (congrArg Prod.snd h))

@[simp] theorem mem_sortByRank {ps : List Partition} : p ∈ sortByRank ps ↔ p ∈ ps :=
  List.mem_mergeSort

end UniversalAlgebra.Partition
