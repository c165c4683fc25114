/-
**Closing from a mark on.**

A caller who knows that the first items of a closure are closed among themselves may say so, and the
passes leave out what can be drawn from these alone.  Nothing is lost: what is left out is known, and
from then on a pass treats as fresh exactly what the pass before it added.  So the mark has no influence
on what is found in the end, which is the least closed set around what was there at first.

Closed means closed under the operations of positive arity, since a nullary operation has no argument
that could be drawn.  Where its value is among the items, as it is if the first items are closed under
the nullary operations as well, the two notions agree.

Main definitions:

* `CongruenceClosure.RelatesTranslates` — the partition relates what the translations make of a pair.

Main results:

* `SubuniverseClosure.close_isLeast`, `SubpowerClosure.close_isLeast` — closing elements and tuples from a
  mark on;
* `Closure.mark_irrelevant` — **the mark has no influence on what is found**.
-/

import UniversalAlgebra.Proofs.Closure.Faults
import UniversalAlgebra.Proofs.SubalgebraLattice.Generation

set_option autoImplicit false

namespace UniversalAlgebra

open Growth UniversalAlgebra.Algebra

/-! ### Items with small numbers -/

/-- The items with numbers below `m` are the first `m`. -/
theorem Closure.entriesAt_mem_take {α : Type} {xs : Array α} {d : α} {m : ℕ} {indices : List ℕ}
    (hm : m ≤ xs.size) (hlt : ∀ i ∈ indices, i < m) {x : α} (hx : x ∈ entriesAt xs d indices) :
    x ∈ xs.toList.take m := by
  obtain ⟨i, hi, rfl⟩ := List.mem_map.1 hx
  have him := hlt i hi
  have hget : (xs.toList.take m)[i]? = some (xs[i]?.getD d) := by
    rw [List.getElem?_take_of_lt him, Array.getElem?_toList, Array.getElem?_eq_getElem (by omega),
      Option.getD_some]
  exact List.mem_of_getElem? hget

namespace SubuniverseClosure

open Closure

variable {A : Algebra} {s : SubuniverseClosure} {m : ℕ}

/-- If the first elements are closed among themselves, their images are known. -/
theorem settledBelow_of_closedUnder_take (hA : A.Total) (hs : s.Faithful A.size)
    (hm : m ≤ s.elements.size) (hclosed : A.ClosedUnder {x | x ∈ s.elements.toList.take m}) :
    SettledBelow A.operations s m := by
  intro op hop indices hargs x hx
  rw [image_eq hA hs hop (LawfulGrowth.drawn_mono hm hargs)] at hx
  obtain rfl : op.value (s.elementsAt indices) = x := by simpa using hx
  obtain ⟨hlen, hlt, i, hi, -⟩ := mem_drawn.1 hargs
  have hpositive : 0 < op.arity := hlen ▸ List.length_pos_of_mem hi
  have hmem := hclosed op hop hpositive (s.elementsAt indices) (length_entriesAt.trans hlen)
    fun y hy => entriesAt_mem_take hm hlt hy
  rw [knows_iff, hs.contains_iff, ← Array.mem_toList_iff]
  exact List.mem_of_mem_take hmem

/-- From a mark on below which everything is settled, closing ends with the least closed set. -/
theorem close_isLeast (hA : A.Total) (mode : Mode) (hs : s.Faithful A.size)
    (hsettled : SettledBelow A.operations s m) :
    ∃ s', close A mode 0 m s = ⟨.ok .closed, s'⟩ ∧ s'.Faithful A.size ∧
      IsLeast {T | A.ClosedUnder T ∧ {x | x ∈ s.elements} ⊆ T} {x | x ∈ s'.elements} := by
  have hspec (T : Set ℕ) (hT : A.ClosedUnder T) (hsub : {x | x ∈ s.elements} ⊆ T) :=
    close_spec hA mode 0 hs hsettled hT hsub
  obtain ⟨s', hs', -, ⟨hclose, hkept, hclosed, -⟩ | ⟨-, hcap, -⟩⟩ :=
    hspec Set.univ (fun _ _ _ _ _ _ => trivial) fun _ _ => trivial
  · refine ⟨s', hclose, hs', ⟨hclosed, hkept⟩, ?_⟩
    rintro T ⟨hT, hsub⟩
    obtain ⟨s'', -, hsubT, ⟨hclose', -⟩ | ⟨-, hcap, -⟩⟩ := hspec T hT hsub
    · obtain rfl : s' = s'' := congrArg Outcome.state (hclose.symm.trans hclose')
      exact hsubT
    · exact absurd rfl hcap
  · exact absurd rfl hcap

end SubuniverseClosure

namespace CongruenceClosure

open Closure

variable {A : Algebra} {s : CongruenceClosure} {m : ℕ}

/-- The partition relates what each translation makes of a pair. -/
def RelatesTranslates (A : Algebra) (s : CongruenceClosure) (p : ℕ × ℕ) : Prop :=
  ∀ op ∈ A.operations, ∀ before after : List ℕ, before.length + 1 + after.length = op.arity →
    (∀ z ∈ before ++ after, z < A.size) →
    s.partition.setoid (op.value (before ++ p.1 :: after)) (op.value (before ++ p.2 :: after))

/-- If it does so for the first pairs, their images are known. -/
theorem settledBelow_of_relatesTranslates (hA : A.Total) (hs : s.Faithful A.size)
    (hm : m ≤ s.pairs.size) (hrelates : ∀ p ∈ s.pairs.toList.take m, RelatesTranslates A s p) :
    SettledBelow A.operations s m := by
  intro op hop args hargs p hp
  obtain ⟨index, before, after, rfl, ⟨-, hindex⟩, hlen, hlt⟩ := mem_drawn.1 hargs
  have hindex' : index < s.pairs.size := by omega
  rw [image_eq hA hs hop hindex' hlen hlt] at hp
  split at hp
  · cases hp
  · obtain rfl := Option.some_inj.1 (Except.ok.inj hp)
    have hpair := hs.lt _ (pairAt_mem hindex')
    have hlen' (z : ℕ) : (before ++ z :: after).length = op.arity := by
      rw [List.length_append, List.length_cons]
      omega
    have hvalue (z : ℕ) (hz : z < A.size) : op.value (before ++ z :: after) < A.size :=
      hA.value_lt hop (hlen' z) (translate_lt hs hlt hz)
    rw [knows_iff hs (hvalue _ hpair.1) (hvalue _ hpair.2)]
    have hdrawn : s.pairAt index ∈ entriesAt s.pairs (0, 0) [index] := List.mem_cons_self
    exact hrelates _ (entriesAt_mem_take hm (by simpa using hindex) hdrawn) op hop before after hlen
      (hs.size_eq ▸ hlt)

end CongruenceClosure

namespace SubpowerClosure

open Closure

variable {τ : Type} {A : Algebra} {k m : ℕ} {s : SubpowerClosure τ}

/-- If the first tuples are closed among themselves, their images are known. -/
theorem settledBelow_of_closedUnderColumns_take (hA : A.Total) (hs : s.Faithful A k)
    (hm : m ≤ s.tuples.size) (hclosed : A.ClosedUnderColumns k {t | t ∈ s.tuples.toList.take m}) :
    SettledBelow A.operations s m := by
  intro op hop indices hargs t ht
  rw [image_eq hA hs hop (LawfulGrowth.drawn_mono hm hargs)] at ht
  obtain rfl : op.columns k (s.tuplesAt indices) = t := by simpa using ht
  obtain ⟨hlen, hlt, i, hi, -⟩ := mem_drawn.1 hargs
  have hpositive : 0 < op.arity := hlen ▸ List.length_pos_of_mem hi
  have hmem := hclosed op hop hpositive (s.tuplesAt indices) (length_entriesAt.trans hlen)
    fun row hrow => entriesAt_mem_take hm hlt hrow
  rw [knows_iff, hs.contains_iff, ← Array.mem_toList_iff]
  exact List.mem_of_mem_take hmem

/-- An observer that never asks to stop is watched for nothing. -/
theorem watched_of_goOn {observe : τ → List ℕ → Bool × τ} (h : ∀ w t, (observe w t).1 = true)
    (T : Set (List ℕ)) : Watched observe T (fun _ _ => True) (fun _ _ => False) where
  goOn _ _ _ _ _ _ := trivial
  halt w _ t _ _ hstop := by
    rw [h] at hstop
    cases hstop

/-- From a mark on below which everything is settled, closing ends with the least closed set. -/
theorem close_isLeast (hA : A.Total) (mode : Mode) (hs : s.Faithful A k)
    (hgoOn : ∀ w t, (s.observe w t).1 = true) (hsettled : SettledBelow A.operations s m) :
    ∃ s', close A mode 0 m s = ⟨.ok .closed, s'⟩ ∧ s'.Faithful A k ∧
      IsLeast {T | A.ClosedUnderColumns k T ∧ {t | t ∈ s.tuples} ⊆ T} {t | t ∈ s'.tuples} := by
  have hspec (T : Set (List ℕ)) (hT : A.ClosedUnderColumns k T) (hsub : {t | t ∈ s.tuples} ⊆ T) :=
    close_spec hA mode hT (watched_of_goOn hgoOn T) ⟨hs, rfl, hsub, trivial⟩ hsettled
  obtain ⟨s', ⟨hclose, hs', hkept, hclosed⟩ | ⟨-, hs'⟩⟩ :=
    hspec Set.univ (fun _ _ _ _ _ _ => trivial) fun _ _ => trivial
  · refine ⟨s', hclose, hs'.faithful, ⟨hclosed, hkept⟩, ?_⟩
    rintro T ⟨hT, hsub⟩
    obtain ⟨s'', ⟨hclose', hs'', -⟩ | ⟨-, hs''⟩⟩ := hspec T hT hsub
    · obtain rfl : s' = s'' := congrArg Outcome.state (hclose.symm.trans hclose')
      exact hs''.subset
    · exact hs''.watch.elim
  · exact hs'.watch.elim

end SubpowerClosure

/-! ### Where nullary operations add nothing -/

/-- If the constants are there, the least closed set is the least subuniverse. -/
theorem Algebra.ClosedUnder.isLeast_isSubuniverse {A : Algebra} (hA : A.Total) {G S : Set ℕ}
    (hS : IsLeast {T | A.ClosedUnder T ∧ G ⊆ T} S) (hlt : ∀ x ∈ S, x < A.size)
    (hconstants : ∀ c ∈ A.constants, c ∈ G) : IsLeast {T | A.IsSubuniverse T ∧ G ⊆ T} S := by
  obtain ⟨⟨hclosed, hsub⟩, hleast⟩ := hS
  refine ⟨⟨hclosed.isSubuniverse hA hlt fun c hc => hsub (hconstants c hc), hsub⟩, ?_⟩
  rintro T ⟨hT, hG⟩
  exact hleast ⟨hT.closedUnder, hG⟩

/-- The same for tuples. -/
theorem Algebra.ClosedUnderColumns.isLeast_isSubpower {A : Algebra} (hA : A.Total) {k : ℕ}
    {G S : Set (List ℕ)} (hS : IsLeast {T | A.ClosedUnderColumns k T ∧ G ⊆ T} S)
    (hsub : S ⊆ A.tuples k) (hconstants : ∀ c ∈ A.constants, List.replicate k c ∈ G) :
    IsLeast {T | A.IsSubpower k T ∧ G ⊆ T} S := by
  obtain ⟨⟨hclosed, hG⟩, hleast⟩ := hS
  refine ⟨⟨⟨hsub, ?_⟩, hG⟩, ?_⟩
  · intro op hop rows hlen hrows
    rcases Nat.eq_zero_or_pos op.arity with harity | hpositive
    · obtain rfl : rows = [] := List.eq_nil_of_length_eq_zero (hlen.trans harity)
      rw [Operation.columns_nil]
      refine hG (hconstants _ ((hA.mem_constants _).2 ⟨op, hop, harity, ?_⟩))
      exact hA.apply_eq hop hlen (by simp)
    · exact hclosed op hop hpositive rows hlen hrows
  · rintro T ⟨hT, hGT⟩
    exact hleast ⟨hT.closedUnderColumns, hGT⟩

/-- **The mark has no influence on what is found.**  Let the first `m` items of a closure be closed among
themselves; for a growing partition, let the translations of the first `m` pairs be related.  Without a
cap and an observer who asks to stop, closing from `m` on and closing from the start, each in any mode,
both end closed, with the same items or the same partition.  This is the least closed set around the
items that were there, or the least congruence above the partition.  If the values of the nullary
operations were there as well, in particular if they are among the first `m` items, it is the least set
closed under all operations. -/
theorem Closure.mark_irrelevant {A : Algebra} (hA : A.Total) (mode mode' : Mode) :
    (∀ (s : SubuniverseClosure) (m : ℕ), s.Faithful A.size → m ≤ s.elements.size →
      A.ClosedUnder {x | x ∈ s.elements.toList.take m} →
      ∃ s₁ s₂, close A mode 0 m s = ⟨.ok .closed, s₁⟩ ∧ close A mode' 0 0 s = ⟨.ok .closed, s₂⟩ ∧
        {x | x ∈ s₁.elements} = {x | x ∈ s₂.elements} ∧
        IsLeast {T | A.ClosedUnder T ∧ {x | x ∈ s.elements} ⊆ T} {x | x ∈ s₁.elements} ∧
        ((∀ c ∈ A.constants, c ∈ s.elements) →
          IsLeast {T | A.IsSubuniverse T ∧ {x | x ∈ s.elements} ⊆ T} {x | x ∈ s₁.elements})) ∧
    (∀ (s : CongruenceClosure) (m : ℕ), s.Faithful A.size → m ≤ s.pairs.size →
      (∀ p ∈ s.pairs.toList.take m, CongruenceClosure.RelatesTranslates A s p) →
      ∃ s₁ s₂, close A mode 0 m s = ⟨.ok .closed, s₁⟩ ∧ close A mode' 0 0 s = ⟨.ok .closed, s₂⟩ ∧
        s₁.partition = s₂.partition ∧ A.IsLeastCongruence s.partition.setoid s₁.partition) ∧
    ∀ (τ : Type) (k : ℕ) (s : SubpowerClosure τ) (m : ℕ), s.Faithful A k →
      (∀ w t, (s.observe w t).1 = true) → m ≤ s.tuples.size →
      A.ClosedUnderColumns k {t | t ∈ s.tuples.toList.take m} →
      ∃ s₁ s₂, close A mode 0 m s = ⟨.ok .closed, s₁⟩ ∧ close A mode' 0 0 s = ⟨.ok .closed, s₂⟩ ∧
        {t | t ∈ s₁.tuples} = {t | t ∈ s₂.tuples} ∧
        IsLeast {T | A.ClosedUnderColumns k T ∧ {t | t ∈ s.tuples} ⊆ T} {t | t ∈ s₁.tuples} ∧
        ((∀ c ∈ A.constants, List.replicate k c ∈ s.tuples) →
          IsLeast {T | A.IsSubpower k T ∧ {t | t ∈ s.tuples} ⊆ T} {t | t ∈ s₁.tuples}) := by
  refine ⟨?_, ?_, ?_⟩
  · intro s m hs hm hclosed
    obtain ⟨s₁, hclose₁, hs₁, hleast₁⟩ := SubuniverseClosure.close_isLeast hA mode hs
      (SubuniverseClosure.settledBelow_of_closedUnder_take hA hs hm hclosed)
    obtain ⟨s₂, hclose₂, -, hleast₂⟩ :=
      SubuniverseClosure.close_isLeast hA mode' hs (settledBelow_zero _ _)
    exact ⟨s₁, s₂, hclose₁, hclose₂, hleast₁.unique hleast₂, hleast₁,
      Algebra.ClosedUnder.isLeast_isSubuniverse hA hleast₁ hs₁.lt⟩
  · intro s m hs hm hrelates
    obtain ⟨s₁, hclose₁, hleast₁⟩ := CongruenceClosure.close_isLeastCongruence hA hs mode
      (CongruenceClosure.settledBelow_of_relatesTranslates hA hs hm hrelates)
    obtain ⟨s₂, hclose₂, hleast₂⟩ :=
      CongruenceClosure.close_isLeastCongruence hA hs mode' (settledBelow_zero _ _)
    exact ⟨s₁, s₂, hclose₁, hclose₂, hleast₁.eq hleast₂, hleast₁⟩
  · intro τ k s m hs hgoOn hm hclosed
    obtain ⟨s₁, hclose₁, hs₁, hleast₁⟩ := SubpowerClosure.close_isLeast hA mode hs hgoOn
      (SubpowerClosure.settledBelow_of_closedUnderColumns_take hA hs hm hclosed)
    obtain ⟨s₂, hclose₂, -, hleast₂⟩ :=
      SubpowerClosure.close_isLeast hA mode' hs hgoOn (settledBelow_zero _ _)
    exact ⟨s₁, s₂, hclose₁, hclose₂, hleast₁.unique hleast₂, hleast₁,
      Algebra.ClosedUnderColumns.isLeast_isSubpower hA hleast₁ hs₁.mem_tuples⟩

/-- In the residues modulo four: the even elements are closed, and what they generate with one is
everything, whether they are marked or not; the pair of zero and two is settled once the pair of one and
three was merged; and so is a zero of the square. -/
theorem Closure.marked_even_residuesModFour :
    (∃ s₁ s₂, close residuesModFour .sequential 0 2 ((SubuniverseClosure.start 4).foldAll [0, 2, 1])
          = ⟨.ok .closed, s₁⟩ ∧
        close residuesModFour .parallel 0 0 ((SubuniverseClosure.start 4).foldAll [0, 2, 1])
          = ⟨.ok .closed, s₂⟩ ∧
        {x | x ∈ s₁.elements} = {x | x ∈ s₂.elements} ∧
        IsLeast {T | residuesModFour.IsSubuniverse T ∧ {x | x ∈ #[0, 2, 1]} ⊆ T}
          {x | x ∈ s₁.elements}) ∧
    (∃ s₁ s₂, close residuesModFour .sequential 0 1
          ((CongruenceClosure.start 4).foldAll [(0, 2), (1, 3)]) = ⟨.ok .closed, s₁⟩ ∧
        close residuesModFour .parallel 0 0
          ((CongruenceClosure.start 4).foldAll [(0, 2), (1, 3)]) = ⟨.ok .closed, s₂⟩ ∧
        s₁.partition = s₂.partition) ∧
    ∃ s₁ s₂, close residuesModFour .sequential 0 1
          ((SubpowerClosure.start 2).insertAll [[0, 0], [1, 3]]) = ⟨.ok .closed, s₁⟩ ∧
        close residuesModFour .parallel 0 0
          ((SubpowerClosure.start 2).insertAll [[0, 0], [1, 3]]) = ⟨.ok .closed, s₂⟩ ∧
        {t | t ∈ s₁.tuples} = {t | t ∈ s₂.tuples} := by
  obtain ⟨hsets, hpairs, htuples⟩ := mark_irrelevant total_residuesModFour .sequential .parallel
  refine ⟨?_, ?_, ?_⟩
  · have helements : ((SubuniverseClosure.start 4).foldAll [0, 2, 1]).elements = #[0, 2, 1] := by cbv
    have hlt : ∀ x ∈ [0, 2, 1], x < 4 := by decide
    obtain ⟨hs, -⟩ := (SubuniverseClosure.faithful_start 4).foldAll hlt
    have heven : residuesModFour.ClosedUnder {x | x ∈ [0, 2]} := by
      intro op hop hpositive args hlen hargs
      rcases List.mem_pair.1 hop with rfl | rfl
      · obtain ⟨x, y, rfl⟩ := List.length_eq_two.1 hlen
        obtain ⟨hx, hy⟩ : x ∈ [0, 2] ∧ y ∈ [0, 2] := by simpa using hargs
        rcases List.mem_pair.1 hx with rfl | rfl <;> rcases List.mem_pair.1 hy with rfl | rfl <;> decide
      · cases hpositive
    obtain ⟨s₁, s₂, hclose₁, hclose₂, hsame, -, hleast⟩ :=
      hsets _ 2 hs (by rw [helements]; decide) (by rw [helements]; exact heven)
    rw [helements] at hleast
    exact ⟨s₁, s₂, hclose₁, hclose₂, hsame, hleast (by simp [residuesModFour])⟩
  · have hpairs' : ((CongruenceClosure.start 4).foldAll [(0, 2), (1, 3)]).pairs = #[(0, 2), (1, 3)] := by
      cbv
    have hpartition : ((CongruenceClosure.start 4).foldAll [(0, 2), (1, 3)]).partition
        = ⟨#[0, 1, 0, 1], 2⟩ := by cbv
    have hlt : ∀ p ∈ [(0, 2), (1, 3)], p.1 < 4 ∧ p.2 < 4 := by decide
    have hs := (CongruenceClosure.faithful_start 4).foldAll hlt
    have hrelates : CongruenceClosure.RelatesTranslates residuesModFour
        ((CongruenceClosure.start 4).foldAll [(0, 2), (1, 3)]) (0, 2) := by
      intro op hop before after hlen hlt
      rw [hpartition]
      rcases List.mem_pair.1 hop with rfl | rfl
      · change before.length + 1 + after.length = 2 at hlen
        -- the one other argument stands before or after
        rcases before with _ | ⟨z, before⟩
        · rw [List.length_nil] at hlen
          obtain ⟨z, rfl⟩ := List.length_eq_one_iff.1 (show after.length = 1 by omega)
          have hz : z < 4 := hlt z List.mem_cons_self
          interval_cases z <;> rfl
        · obtain ⟨rfl, rfl⟩ : before = [] ∧ after = [] := by
            rw [List.length_cons] at hlen
            exact ⟨List.eq_nil_of_length_eq_zero (by omega), List.eq_nil_of_length_eq_zero (by omega)⟩
          have hz : z < 4 := hlt z List.mem_cons_self
          interval_cases z <;> rfl
      · change before.length + 1 + after.length = 0 at hlen
        omega
    obtain ⟨s₁, s₂, hclose₁, hclose₂, hsame, -⟩ := hpairs _ 1 hs (by rw [hpairs']; decide)
      (by rw [hpairs']; simpa using hrelates)
    exact ⟨s₁, s₂, hclose₁, hclose₂, hsame⟩
  · have htuples' : ((SubpowerClosure.start 2).insertAll [[0, 0], [1, 3]]).tuples
        = #[[0, 0], [1, 3]] := by cbv
    have hlt : ∀ t ∈ [[0, 0], [1, 3]], t ∈ residuesModFour.tuples 2 := by
      simp [Algebra.tuples, residuesModFour]
    obtain ⟨hs, hobserve, -⟩ := (SubpowerClosure.faithful_observed residuesModFour 2
      (fun (_ : Unit) _ => (true, ())) ()).insertAll hlt
    have hzero : residuesModFour.ClosedUnderColumns 2 {t | t ∈ [[0, 0]]} := by
      intro op hop hpositive rows hlen hrows
      rcases List.mem_pair.1 hop with rfl | rfl
      · obtain ⟨x, y, rfl⟩ := List.length_eq_two.1 hlen
        obtain ⟨rfl, rfl⟩ : x = [0, 0] ∧ y = [0, 0] := by simpa using hrows
        exact List.mem_singleton.2 (by decide)
      · cases hpositive
    obtain ⟨s₁, s₂, hclose₁, hclose₂, hsame, -⟩ := htuples Unit 2 _ 1 hs
      (by rw [hobserve]; exact fun _ _ => rfl) (by rw [← SubpowerClosure.start, htuples']; decide)
      (by rw [← SubpowerClosure.start, htuples']; exact hzero)
    exact ⟨s₁, s₂, hclose₁, hclose₂, hsame⟩

/-! ### What is left out is not looked at -/

namespace Closure

section Congr

variable {σ ι : Type} [Growth σ ι] {ops ops' : List Operation} {n cap mark : ℕ} {J K : σ → Prop}

/-- What showing an item keeps in any case may be added to an invariant. -/
theorem Sustains.and (hJ : Sustains ops n J K) {P : σ → Prop}
    (hP : ∀ s x r s', accept s x = .ok (r, s') → P s → P s') :
    Sustains ops n (fun s => J s ∧ P s) K where
  image_ok hs := hJ.image_ok hs.1
  size_le hs := hJ.size_le hs.1
  accept_ok {s} hs x hx := by
    cases hJ.accept_ok hs.1 hx with
    | known h => exact .known h
    | added s' h inv extended knows =>
        exact .added s' h ⟨inv, hP s x .added s' h hs.2⟩ extended knows
    | stop s' h inv => exact .stop s' h inv

variable [LawfulGrowth σ]

/-- A pass depends on the operations only through what comes of its arguments. -/
theorem pass_congr (hops : Steady ops fun _ : σ => True) (hops' : Steady ops' fun _ : σ => True)
    (mode : Mode) {start stop : ℕ} {s : σ} (hstop : stop ≤ size s)
    (h : outcomes ops' start stop s = outcomes ops start stop s) :
    pass mode cap ops' start stop s = pass mode cap ops start stop s := by
  cases mode with
  | sequential =>
      change sequentialPass cap ops' start stop s = sequentialPass cap ops start stop s
      rw [sequentialPass_eq hops' trivial hstop, sequentialPass_eq hops trivial hstop, h]
  | parallel =>
      change parallelPass cap ops' start stop s = parallelPass cap ops start stop s
      rw [parallelPass_eq, parallelPass_eq, h]

/-- The passes from a mark on depend on the operations only through what comes of arguments with an item
numbered from the mark on. -/
theorem passes_congr (hJ : Sustains ops n J K) (hops : Steady ops fun _ : σ => True)
    (hops' : Steady ops' fun _ : σ => True) (mode : Mode)
    (h : ∀ s, J s → ∀ start, mark ≤ start →
      outcomes ops' start (size s) s = outcomes ops start (size s) s)
    (fuel : ℕ) {start : ℕ} (hstart : mark ≤ start) {s : σ} (hs : J s) :
    passes mode cap ops' fuel start s = passes mode cap ops fuel start s := by
  induction fuel generalizing start s with
  | zero => rfl
  | succ fuel ih =>
      rw [passes, passes, pass_congr hops hops' mode (Nat.le_refl _) (h s hs start hstart)]
      by_cases hlt : start < size s
      · rw [if_pos hlt, if_pos hlt]
        have hends := foldlM_absorb_ends cap hJ hs
          fun x (hx : x ∈ passImages ops start (size s) s) =>
            isImage_of_mem_passImages (Nat.le_refl _) hx
        rw [← pass_eq hJ hs (Nat.le_refl _) mode] at hends
        cases hpass : pass mode cap ops start (size s) s with
        | error halt => rfl
        | ok s' =>
            rw [hpass] at hends
            exact ih (hstart.trans hlt.le) hends.1.inv
      · rw [if_neg hlt, if_neg hlt]

end Congr

end Closure

/-- The algebra `A'` has the operations of `A`, except that on arguments inside of `S` they may do
anything. -/
structure Algebra.AgreesOutside (A A' : Algebra) (S : Set ℕ) : Prop where
  size_eq : A'.size = A.size
  operations : List.Forall₂ (fun op op' => op'.arity = op.arity ∧ ∀ args : List ℕ,
    args.length = op.arity → (∀ x ∈ args, x < A.size) → (∃ x ∈ args, x ∉ S) →
    op'.apply args = op.apply args) A.operations A'.operations

namespace SubuniverseClosure

open Closure

variable {A A' : Algebra} {s : SubuniverseClosure} {base : List ℕ}

/-- An element numbered after some first ones is none of them. -/
theorem notMem_of_first (hs : s.Faithful A.size) (hfirst : base <+: s.elements.toList) {i : ℕ}
    (hbase : base.length ≤ i) (hi : i < s.elements.size) : s.elements[i] ∉ base := by
  obtain ⟨rest, hrest⟩ := hfirst
  have hnodup := hs.nodup
  rw [← hrest, List.nodup_append] at hnodup
  have hmem : s.elements[i] ∈ rest := by
    have hget : s.elements.toList[i]? = some s.elements[i] := by simp [hi]
    rw [← hrest, List.getElem?_append_right hbase] at hget
    exact List.mem_of_getElem? hget
  exact fun h => hnodup.2.2 _ h _ hmem rfl

/-- What comes of arguments with an item after some first ones does not depend on what the operations do
among these. -/
theorem outcomes_congr (h : A.AgreesOutside A' {x | x ∈ base}) (hs : s.Faithful A.size)
    (hfirst : base <+: s.elements.toList) {start : ℕ} (hstart : base.length ≤ start) :
    outcomes A'.operations start (size s) s = outcomes A.operations start (size s) s := by
  obtain ⟨-, hoperations⟩ := h
  generalize A.operations = ops, A'.operations = ops' at hoperations ⊢
  rw [outcomes, outcomes]
  induction hoperations with
  | nil => rfl
  | @cons op op' ops ops' hop _ ih =>
      obtain ⟨harity, hagree⟩ := hop
      have hdrawn : drawn s op' start (size s) = drawn s op start (size s) := by
        change (Tuples.freshBoxes op'.arity start (size s)).flatMap Tuples.inBox
          = (Tuples.freshBoxes op.arity start (size s)).flatMap Tuples.inBox
        rw [harity]
      have himage : ∀ indices ∈ drawn s op start (size s),
          Growth.image s op' indices = Growth.image s op indices := by
        intro indices hindices
        obtain ⟨hlen, hlt, i, hi, hfresh⟩ := mem_drawn.1 hindices
        have hisize : i < s.elements.size := hlt i hi
        refine congrArg (some <$> ·) (hagree (s.elementsAt indices) (length_entriesAt.trans hlen)
          (fun x hx => hs.lt x (mem_of_mem_entriesAt hlt hx)) ⟨s.elements[i], ?_, ?_⟩)
        · refine List.mem_map.2 ⟨i, hi, ?_⟩
          rw [Array.getElem?_eq_getElem hisize, Option.getD_some]
        · exact notMem_of_first hs hfirst (hstart.trans hfresh) hisize
      rw [List.flatMap_cons, List.flatMap_cons, ih, hdrawn, List.map_congr_left himage]

/-- **Closing from a mark on does not look at what the operations do below the mark.** -/
theorem close_congr (hA : A.Total) (h : A.AgreesOutside A' {x | x ∈ base}) (mode : Mode) (cap : ℕ)
    (hs : s.Faithful A.size) (hfirst : base <+: s.elements.toList) :
    close A' mode cap base.length s = close A mode cap base.length s := by
  have hJ := (sustains hA (T := Set.univ) fun _ _ _ _ _ _ => trivial).and
    (P := fun s => base <+: s.elements.toList)
    fun t x r t' haccept hbase => hbase.trans (appends t x r t' haccept)
  have hempty : A'.operations.isEmpty = A.operations.isEmpty := by
    rw [Bool.eq_iff_iff, List.isEmpty_iff_length_eq_zero, List.isEmpty_iff_length_eq_zero,
      h.operations.length_eq]
  rw [close, close, hempty, h.size_eq]
  by_cases hidle : A.operations.isEmpty ∨ size s ≤ base.length
  · rw [if_pos hidle, if_pos hidle]
  · rw [if_neg hidle, if_neg hidle]
    refine congrArg _ (passes_congr hJ (steady fun _ _ _ _ => trivial)
      (steady fun _ _ _ _ => trivial) mode ?_ _ (Nat.le_refl _) ⟨⟨hs, fun _ _ => trivial⟩, hfirst⟩)
    rintro t ⟨⟨ht, -⟩, hbase⟩ start hstart
    exact outcomes_congr h ht hbase hstart

end SubuniverseClosure

end UniversalAlgebra
