/-
**The rank order of partitions.**

Partitions are listed by rank, and those of one rank by their arrays.  The rank is worked out from a
count of blocks that is kept while blocks are merged, and the arrays hold least elements, so that both
belong to the equivalence relation and not to the way in which the partition was made.  A partition that
strictly refines another one has a least element more, and comes first.

Main results:

* `Partition.On.rank_lt` — rank grows along strict refinement;
* `Partition.rankOrder_exact` — **the rank order is linear and extends strict refinement**.
-/

import UniversalAlgebra.Proofs.Partition.Lattice

set_option autoImplicit false

namespace UniversalAlgebra.Partition

variable {p : Partition} {n : ℕ}

/-- Rank grows along strict refinement. -/
theorem On.rank_lt {p q : On n} (hlt : p < q) : p.1.rank < q.1.rank :=
  p.valid.rank_lt q.valid (p.size_eq_size q) (setoid_lt_iff.2 hlt)

/-- The rank counts the elements that are not least in their blocks. -/
theorem ValidOn.rank_add_card (hp : p.ValidOn n) :
    p.rank + ((Finset.range n).filter fun i => p.reps[i]? = some i).card = n := by
  rw [← hp.blockCount_eq_card, hp.1.rank_add_blockCount, hp.2]

/-- **The rank order is linear and extends strict refinement.**  On partitions of `[0, n)` that were made
in any way the rank is the number of elements that are not the least of their block.  A partition that
refines another one and is not the same has a smaller rank, and comes before it.  Of two partitions
either one comes first, or they are the same, and they are the same if their arrays are. -/
theorem rankOrder_exact (n : ℕ) :
    (∀ p, Constructed n p →
      p.rank + ((Finset.range n).filter fun i => p.reps[i]? = some i).card = n) ∧
    (∀ p q, Constructed n p → Constructed n q → p.le q = .ok true → p ≠ q →
      p.rank < q.rank ∧ p.rankLess q = true) ∧
    LinearlyOrders rankLess (Constructed n) ∧
    ∀ p q, Constructed n p → Constructed n q → (p = q ↔ p.reps = q.reps) := by
  refine ⟨fun p hp => hp.validOn.rank_add_card, ?_, ?_, ?_⟩
  · intro p q hp hq hle hne
    obtain ⟨p, rfl⟩ : ∃ p' : On n, p'.1 = p := ⟨⟨p, hp⟩, rfl⟩
    obtain ⟨q, rfl⟩ : ∃ q' : On n, q'.1 = q := ⟨⟨q, hq⟩, rfl⟩
    have hlt : p < q :=
      lt_of_le_of_ne ((p.le_eq_ok_true q).1 hle) fun heq => hne (congrArg Subtype.val heq)
    have hrank := On.rank_lt hlt
    exact ⟨hrank, (orderedBy_rankLess _ _).2 (rankKey_lt_of_rank_lt hrank)⟩
  · exact orderedBy_rankLess.linearlyOrders fun p q hp hq =>
      hp.validOn.1.eq_of_rankKey_eq hq.validOn.1
  · exact fun p q hp hq => ⟨congrArg reps, hp.validOn.1.eq_of_reps_eq hq.validOn.1⟩

/-- Three elements in one block are two ranks above four single ones, and one above two of them in one
block.  Another block of three has the same rank and comes after it. -/
theorem rankOrder_of_four : ∃ p q r, ofBlocks 4 [[0, 1], [2], [3]] = .ok p ∧
    ofBlocks 4 [[3], [0, 1, 2]] = .ok q ∧ ofBlocks 4 [[0], [3, 2, 1]] = .ok r ∧
    q.rank = 2 ∧ p.rank < q.rank ∧ p.rankLess q = true ∧ q.rankLess r = true ∧
    ¬r.rankLess q = true ∧ p.rankLess r = true := by
  have hp : ofBlocks 4 [[0, 1], [2], [3]] = .ok ⟨#[0, 0, 2, 3], 3⟩ := by cbv
  have hq : ofBlocks 4 [[3], [0, 1, 2]] = .ok ⟨#[0, 0, 0, 3], 2⟩ := by cbv
  have hr : ofBlocks 4 [[0], [3, 2, 1]] = .ok ⟨#[0, 1, 1, 1], 2⟩ := by cbv
  have hle : (⟨#[0, 0, 2, 3], 3⟩ : Partition).le ⟨#[0, 0, 0, 3], 2⟩ = .ok true := by cbv
  have htie : (⟨#[0, 0, 0, 3], 2⟩ : Partition).rankLess ⟨#[0, 1, 1, 1], 2⟩ = true := by cbv
  obtain ⟨-, hrefined, hlinear, -⟩ := rankOrder_exact 4
  obtain ⟨hlt, hless⟩ := hrefined _ _ (.ofBlocks hp) (.ofBlocks hq) hle (by decide)
  have hafter : ¬(⟨#[0, 1, 1, 1], 2⟩ : Partition).rankLess ⟨#[0, 0, 0, 3], 2⟩ = true := by
    rcases hlinear.exactly_one _ _ (.ofBlocks hq) (.ofBlocks hr) with h | h | h
    · exact h.2.2
    · exact absurd htie h.1
    · exact absurd htie h.1
  exact ⟨_, _, _, hp, hq, hr, rfl, hlt, hless, htie, hafter,
    hlinear.trans _ _ _ (.ofBlocks hp) (.ofBlocks hq) (.ofBlocks hr) hless htie⟩

end UniversalAlgebra.Partition
