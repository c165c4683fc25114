/-
**Partitions that are made and changed step by step.**

A partition is read from an array or from its blocks, and after that it is merged, met and joined with
others.  The array is kept fully resolved all along: there is no search for a least element, so merging
has to write to all entries of the block that loses its own, and the blocks are counted on the side.
What is made in this way, in any order, is a valid partition, and so it is known by its relation.

Merging in place writes entry by entry.  All checks come before the first of these writes, so that it is
the same as making the new partition first and then replacing the old one by it, and a call that is
refused changes nothing.

Main definitions:

* `Partition.joinBlocksInPlace`, `Partition.ensureRelatedInPlace` — merging, write by write;
* `Partition.Constructed` — the partitions of `[0, n)` that can be made.

Main results:

* `Partition.joinBlocksInPlace_eq`, `Partition.ensureRelatedInPlace_eq` — **merging in place is merging at
  once**;
* `Partition.Valid.ensureRelated_eq` — merging by two elements in range is never refused;
* `Partition.Constructed.validOn` — what is made is valid;
* `Partition.constructed_normalized` — **it holds least elements and counts its blocks, it is known by its
  relation, and a refused change leaves it as it is**.
-/

import UniversalAlgebra.Proofs.Partition.Meet
import UniversalAlgebra.Proofs.Query.Changes

set_option autoImplicit false

namespace UniversalAlgebra

namespace Partition

open Query Fallible

variable {p q : Partition} {n r s i j : ℕ}

/-! ### Merging in place -/

/-- Replaces the entry at one position, if it is the old one. -/
def replaceAt (old new i : ℕ) : Query Partition Unit :=
  modify fun p => if p.reps[i]? = some old then { p with reps := p.reps.setIfInBounds i new } else p

/-- Joins two distinct blocks, each given by its least element: the entries of one block are replaced
one by one, and then the blocks are counted down. -/
def joinBlocksInPlace (r s : ℕ) : Query Partition Unit := do
  let p ← get
  if ¬ (r < p.size ∧ s < p.size) then throw (.elementsOutOfRange r s)
  if p.rep r ≠ r then throw (.notARepresentative r)
  if p.rep s ≠ s then throw (.notARepresentative s)
  if r = s then throw (.sameBlock r)
  forM (List.range' (max r s) (p.size - max r s)) (replaceAt (max r s) (min r s))
  modify fun p => { p with blockCount := p.blockCount - 1 }

/-- Joins the blocks of two elements, and says whether there were two. -/
def ensureRelatedInPlace (i j : ℕ) : Query Partition Bool := do
  let r ← (← get).representative i
  let s ← (← get).representative j
  if r = s then pure false
  else
    joinBlocksInPlace r s
    pure true

/-- The writes one after the other. -/
theorem forM_replaceAt (old new i count : ℕ) (h : i + count ≤ p.size) :
    (forM (List.range' i count) (replaceAt old new) : Query Partition PUnit) p
      = .ok () { p with reps := replaceFrom old new i count p.reps } := by
  induction count generalizing i p with
  | zero => rfl
  | succ count ih =>
      rw [size] at h
      have hi : i < p.reps.size := by omega
      have hwrite : replaceAt old new i p
          = .ok () { p with reps := if p.reps[i] = old then p.reps.set i new hi else p.reps } := by
        change EStateM.Result.ok () (if p.reps[i]? = some old then _ else p) = _
        by_cases hold : p.reps[i] = old <;> simp [hi, hold, Array.setIfInBounds]
      have hsize : (if p.reps[i] = old then p.reps.set i new hi else p.reps).size = p.reps.size := by
        split <;> simp
      rw [List.range'_succ, List.forM_cons, bind_of_ok hwrite, ih, replaceFrom, dif_pos hi]
      change i + 1 + count ≤ Array.size _
      rw [hsize]
      omega

/-- All writes of a merge. -/
theorem writes_eq (r s : ℕ) (h : max r s ≤ p.size) :
    (do
      forM (List.range' (max r s) (p.size - max r s)) (replaceAt (max r s) (min r s))
      modify fun p => { p with blockCount := p.blockCount - 1 } : Query Partition PUnit) p
      = .ok () (p.merge r s) := by
  rw [bind_of_ok (forM_replaceAt _ _ _ _ (by omega))]
  rfl

/-- **Joining two blocks in place is the same as doing it at once**: nothing is written before the last
of the checks. -/
theorem joinBlocksInPlace_eq (r s : ℕ) :
    joinBlocksInPlace r s = atOnce fun p => (p.joinBlocks r s).map fun q => ((), q) := by
  funext p
  rw [joinBlocksInPlace, get_bind_apply, atOnce, joinBlocks]
  by_cases hrange : r < p.size ∧ s < p.size
  · rw [if_neg (not_not_intro hrange), if_neg (not_not_intro hrange)]
    by_cases hr : p.rep r = r
    · rw [if_neg (not_not_intro hr), if_neg (not_not_intro hr)]
      by_cases hs : p.rep s = s
      · rw [if_neg (not_not_intro hs), if_neg (not_not_intro hs)]
        by_cases heq : r = s
        · rw [if_pos heq, if_pos heq]
          rfl
        · rw [if_neg heq, if_neg heq]
          exact writes_eq r s (by omega)
      · rw [if_pos hs, if_pos hs]
        rfl
    · rw [if_pos hr, if_pos hr]
      rfl
  · rw [if_pos hrange, if_pos hrange]
    rfl

/-- The same for the blocks of two elements. -/
theorem ensureRelatedInPlace_eq (i j : ℕ) :
    ensureRelatedInPlace i j = atOnce fun p => p.ensureRelated i j := by
  funext p
  rw [ensureRelatedInPlace, get_bind_apply, atOnce, ensureRelated]
  cases p.representative i with
  | error fault => rfl
  | ok r =>
      change (liftM (p.representative j) >>= fun s => if r = s then pure false else _ :
        Query Partition Bool) p = _
      rw [ok_bind]
      cases p.representative j with
      | error fault => rfl
      | ok s =>
          change (if r = s then pure false else joinBlocksInPlace r s >>= fun _ => pure true :
            Query Partition Bool) p = _
          rw [ok_bind, joinBlocksInPlace_eq]
          by_cases heq : r = s
          · rw [if_pos heq, if_pos heq]
            rfl
          · rw [if_neg heq, if_neg heq, bind_apply, atOnce]
            cases p.joinBlocks r s <;> rfl

/-! ### Refused changes -/

theorem representative_eq_ok : p.representative i = .ok r ↔ i < p.size ∧ p.rep i = r := by
  rw [representative]
  split <;> simp_all

theorem refusesOnly_representative (p : Partition) (i : ℕ) : RefusesOnly (p.representative i) := by
  rw [representative]
  split
  · exact .ok _
  · exact .error rfl

/-- Blocks are joined exactly if both are given by their least elements, and they are distinct. -/
theorem joinBlocks_eq_ok : p.joinBlocks r s = .ok q ↔
    (r < p.size ∧ s < p.size) ∧ p.rep r = r ∧ p.rep s = s ∧ r ≠ s ∧ p.merge r s = q := by
  rw [joinBlocks]
  by_cases hrange : r < p.size ∧ s < p.size <;> by_cases hr : p.rep r = r <;>
    by_cases hs : p.rep s = s <;> by_cases heq : r = s <;>
    simp_all [throw_eq, pure_eq, error_bind]

theorem refusesOnly_joinBlocks (p : Partition) (r s : ℕ) : RefusesOnly (p.joinBlocks r s) :=
  .guard rfl fun _ => .guard rfl fun _ => .guard rfl fun _ => .guard rfl fun _ => .ok _

theorem refusesOnly_ensureRelated (p : Partition) (i j : ℕ) : RefusesOnly (p.ensureRelated i j) := by
  refine .bind (refusesOnly_representative p i) fun r => ?_
  refine .bind (refusesOnly_representative p j) fun s => ?_
  split
  · exact .ok _
  · exact .bind (refusesOnly_joinBlocks p r s) fun _ => .ok _

/-- Merging by two elements never meets the checks for least elements. -/
theorem Valid.ensureRelated_eq (hp : p.Valid) (hi : i < p.size) (hj : j < p.size) :
    p.ensureRelated i j = .ok (!p.related i j, p.relate i j) := by
  have hjoin (hne : p.rep i ≠ p.rep j) :
      p.joinBlocks (p.rep i) (p.rep j) = .ok (p.merge (p.rep i) (p.rep j)) :=
    joinBlocks_eq_ok.2 ⟨⟨hp.rep_lt hi, hp.rep_lt hj⟩, hp.rep_rep_eq i, hp.rep_rep_eq j, hne, rfl⟩
  rw [ensureRelated, representative_eq_ok.2 ⟨hi, rfl⟩, representative_eq_ok.2 ⟨hj, rfl⟩, ok_bind,
    ok_bind, Partition.relate, related]
  by_cases heq : p.rep i = p.rep j
  · simp [heq, pure_eq]
  · rw [if_neg heq, if_neg heq, hjoin heq, beq_eq_false_iff_ne.2 heq]
    rfl

/-! ### What is made is valid -/

/-- A valid partition of `[0, n)`. -/
def ValidOn (n : ℕ) (p : Partition) : Prop := p.Valid ∧ p.size = n

theorem ValidOn.relate (hp : p.ValidOn n) (hi : i < n) (hj : j < n) : (p.relate i j).ValidOn n := by
  obtain ⟨hp, rfl⟩ := hp
  exact ⟨hp.relate hi hj, size_relate p i j⟩

theorem ValidOn.joinBlocks (hp : p.ValidOn n) (h : p.joinBlocks r s = .ok q) : q.ValidOn n := by
  obtain ⟨hp, rfl⟩ := hp
  obtain ⟨⟨hr, hs⟩, hrep, hrep', hne, rfl⟩ := joinBlocks_eq_ok.1 h
  have hmerge : p.merge r s = p.relate r s := by
    rw [Partition.relate, hrep, hrep', if_neg hne]
  rw [hmerge]
  exact ⟨hp.relate hr hs, size_relate p r s⟩

theorem ValidOn.ensureRelated {answer : Bool} (hp : p.ValidOn n)
    (h : p.ensureRelated i j = .ok (answer, q)) : q.ValidOn n := by
  obtain ⟨r, hr, h⟩ := bind_eq_ok.1 h
  obtain ⟨s, hs, h⟩ := bind_eq_ok.1 h
  obtain ⟨hi, -⟩ := representative_eq_ok.1 hr
  obtain ⟨hj, -⟩ := representative_eq_ok.1 hs
  split at h
  · cases h
    exact hp
  · obtain ⟨q', hq', h⟩ := bind_eq_ok.1 h
    cases h
    exact hp.joinBlocks hq'

theorem keeps_joinBlocksInPlace (r s : ℕ) : Keeps (ValidOn n) (joinBlocksInPlace r s) := by
  rw [joinBlocksInPlace_eq]
  refine Keeps.atOnce fun p u q hp h => ?_
  cases hjoin : p.joinBlocks r s with
  | ok q' =>
      rw [hjoin] at h
      cases h
      exact hp.joinBlocks hjoin
  | error fault =>
      rw [hjoin] at h
      cases h

theorem keeps_ensureRelatedInPlace (i j : ℕ) : Keeps (ValidOn n) (ensureRelatedInPlace i j) := by
  rw [ensureRelatedInPlace_eq]
  exact Keeps.atOnce fun p u q hp h => hp.ensureRelated h

/-- What is read from an array is valid. -/
theorem validOn_ofArray {entries : List ℕ} (h : ofArray entries = .ok p) :
    p.ValidOn entries.length := by
  refine foldlM_keeps ?_ ⟨valid_finest _, size_finest _⟩ h
  rintro ⟨r, i⟩ hx q q' hq hstep
  have hi : i < entries.length := by
    have h := (List.mem_zipIdx hx).2.1
    omega
  change (if r < entries.length then Except.ok (q.relate i r) else _) = _ at hstep
  split at hstep
  · next hr =>
      cases hstep
      exact hq.relate hi hr
  · cases hstep

/-- An array is read if its entries are in range. -/
theorem exists_ofArray {entries : List ℕ} (h : ∀ r ∈ entries, r < entries.length) :
    ∃ p, ofArray entries = .ok p := by
  refine exists_foldlM_eq_ok ?_ _
  rintro ⟨r, i⟩ hx q
  have hr : r < entries.length := h r (List.fst_mem_of_mem_zipIdx hx)
  exact ⟨q.relate i r, if_pos hr⟩

namespace Partial

/-- What is known while the blocks of a partition of `[0, n)` are read. -/
structure Fits (n : ℕ) (known : Partial) : Prop where
  size_seen : known.seen.size = n
  validOn : known.partition.ValidOn n

variable {known known' : Partial} {head x : ℕ}

/-- An element is placed if it is one and did not occur before. -/
theorem place_eq_ok_iff : known.place head x = .ok known' ↔ known.seen[x]? = some false ∧
    ⟨known.seen.setIfInBounds x true, known.partition.relate head x⟩ = known' := by
  rw [place]
  cases hx : known.seen[x]? with
  | none => simp
  | some marked => cases marked <;> simp

theorem Fits.lt_of_place (hknown : known.Fits n) (h : known.place head x = .ok known') : x < n := by
  obtain ⟨hlt, -⟩ := Array.getElem?_eq_some_iff.1 (place_eq_ok_iff.1 h).1
  exact hknown.size_seen ▸ hlt

theorem Fits.place (hknown : known.Fits n) (hhead : head < n) (h : known.place head x = .ok known') :
    known'.Fits n := by
  have hx := hknown.lt_of_place h
  obtain ⟨-, rfl⟩ := place_eq_ok_iff.1 h
  refine ⟨?_, hknown.validOn.relate hhead hx⟩
  rw [Array.size_setIfInBounds, hknown.size_seen]

theorem Fits.placeBlock {xs : List ℕ} (hknown : known.Fits n)
    (h : known.placeBlock xs = .ok known') : known'.Fits n := by
  cases xs with
  | nil => cases h
  | cons head rest =>
      -- the head is an element because it is placed first
      rw [Partial.placeBlock, List.foldlM_cons] at h
      obtain ⟨first, hfirst, h⟩ := bind_eq_ok.1 h
      have hhead : head < n := hknown.lt_of_place hfirst
      exact foldlM_keeps (fun x _ _ _ hfits => hfits.place hhead) (hknown.place hhead hfirst) h

end Partial

/-- What is read from blocks is valid. -/
theorem validOn_ofBlocks {blocks : List (List ℕ)} (h : ofBlocks n blocks = .ok p) : p.ValidOn n := by
  obtain ⟨known, hknown, h⟩ := bind_eq_ok.1 h
  have hfits : known.Fits n := by
    refine foldlM_keeps (fun xs _ _ _ hfits => hfits.placeBlock) ?_ hknown
    exact ⟨Array.size_replicate, valid_finest n, size_finest n⟩
  split at h
  · cases h
  · cases h
    exact hfits.validOn

theorem meet_eq (hsize : p.size = q.size) : p.meet q = .ok (p.inf q) := by
  rw [meet, checkSize, if_pos hsize]
  rfl

theorem join_eq (hsize : p.size = q.size) : p.join q = .ok (p.sup q) := by
  rw [join, checkSize, if_pos hsize]
  rfl

/-! ### Partitions that can be made -/

/-- The partitions of `[0, n)` that can be made, by any calls in any order. A change in place leaves a
partition, whether it is refused or not. -/
inductive Constructed (n : ℕ) : Partition → Prop
  | finest : Constructed n (finest n)
  | coarsest : Constructed n (coarsest n)
  | ofArray {entries : List ℕ} {p : Partition} (hlength : entries.length = n)
      (h : ofArray entries = .ok p) : Constructed n p
  | ofBlocks {blocks : List (List ℕ)} {p : Partition} (h : ofBlocks n blocks = .ok p) :
      Constructed n p
  | joinBlocks {p : Partition} (r s : ℕ) (hp : Constructed n p) :
      Constructed n ((joinBlocksInPlace r s).after p)
  | ensureRelated {p : Partition} (i j : ℕ) (hp : Constructed n p) :
      Constructed n ((ensureRelatedInPlace i j).after p)
  | meet {p q m : Partition} (hp : Constructed n p) (hq : Constructed n q) (h : p.meet q = .ok m) :
      Constructed n m
  | join {p q m : Partition} (hp : Constructed n p) (hq : Constructed n q) (h : p.join q = .ok m) :
      Constructed n m

/-- What is made is valid. -/
theorem Constructed.validOn (hp : Constructed n p) : p.ValidOn n := by
  induction hp with
  | finest => exact ⟨valid_finest n, size_finest n⟩
  | coarsest => exact ⟨valid_coarsest n, size_coarsest n⟩
  | ofArray hlength h => exact hlength ▸ validOn_ofArray h
  | ofBlocks h => exact validOn_ofBlocks h
  | joinBlocks r s _ ih => exact keeps_joinBlocksInPlace r s _ ih
  | ensureRelated i j _ ih => exact keeps_ensureRelatedInPlace i j _ ih
  | @meet p q _ _ _ h ihp ihq =>
      rw [meet_eq (ihp.2.trans ihq.2.symm)] at h
      cases h
      exact ⟨Valid.inf p q, (size_inf p q).trans ihp.2⟩
  | join _ _ h ihp ihq =>
      have hsize := ihp.2.trans ihq.2.symm
      rw [join_eq hsize] at h
      cases h
      exact ⟨ihp.1.sup ihq.1 hsize, (ihp.1.size_sup ihq.1 hsize).trans ihp.2⟩

theorem isRelated_eq_ok_true :
    p.isRelated j i = .ok true ↔ j < p.size ∧ i < p.size ∧ p.rep j = p.rep i := by
  rw [isRelated, representative, representative]
  by_cases hj : j < p.size <;> by_cases hi : i < p.size <;>
    simp [hj, hi, ok_bind, error_bind, pure_eq]

theorem isRelated_eq (hi : i < p.size) (hj : j < p.size) :
    p.isRelated i j = .ok (p.related i j) := by
  rw [isRelated, representative_eq_ok.2 ⟨hi, rfl⟩, representative_eq_ok.2 ⟨hj, rfl⟩]
  rfl

/-- The first element is looked at first. -/
theorem isRelated_of_left (hi : ¬i < p.size) : p.isRelated i j = .error (.elementOutOfRange i) := by
  rw [isRelated, representative, if_neg hi, error_bind]

theorem isRelated_of_right (hi : i < p.size) (hj : ¬j < p.size) :
    p.isRelated i j = .error (.elementOutOfRange j) := by
  rw [isRelated, representative, if_pos hi, representative, if_neg hj, ok_bind, error_bind]

/-- The entry of an element is the least element of its block. -/
theorem ValidOn.isLeast_block (hp : p.ValidOn n) (hi : i < p.reps.size) :
    IsLeast {j | p.isRelated j i = .ok true} p.reps[i] := by
  obtain ⟨hp, -⟩ := hp
  rw [← rep_eq_getElem hi]
  refine ⟨isRelated_eq_ok_true.2 ⟨hp.rep_lt hi, hi, hp.rep_rep_eq i⟩, ?_⟩
  intro j hj
  exact hp.rep_le_of_rep_eq (isRelated_eq_ok_true.1 hj).2.2

/-- The blocks are counted by their least elements. -/
theorem ValidOn.blockCount_eq_card (hp : p.ValidOn n) :
    p.blockCount = ((Finset.range n).filter fun i => p.reps[i]? = some i).card := by
  obtain ⟨hp, rfl⟩ := hp
  have hfilter : p.representatives = (List.range p.size).filter fun i => p.reps[i]? = some i := by
    refine List.filter_congr fun i hi => ?_
    have hi : i < p.reps.size := List.mem_range.1 hi
    rw [rep_eq_getElem hi, Array.getElem?_eq_getElem hi]
    simp [Bool.beq_eq_decide_eq]
  rw [hp.blockCount_eq, hfilter]
  rfl

/-- Two of them are the same if they relate the same elements. -/
theorem ValidOn.eq_of_isRelated_eq (hp : p.ValidOn n) (hq : q.ValidOn n)
    (h : ∀ i < n, ∀ j < n, p.isRelated i j = q.isRelated i j) : p = q := by
  obtain ⟨hp, rfl⟩ := hp
  obtain ⟨hq, hsize⟩ := hq
  have hiff (i : ℕ) (hi : i < p.size) (j : ℕ) (hj : j < p.size) :
      p.rep i = p.rep j ↔ q.rep i = q.rep j := by
    have hij := h i hi j hj
    rw [isRelated_eq hi hj, isRelated_eq (hsize ▸ hi) (hsize ▸ hj), Except.ok.injEq] at hij
    rw [← setoid_iff, ← setoid_iff, ← related_iff, ← related_iff, hij]
  refine hp.ext hq hsize.symm (le_antisymm ?_ ?_)
  · rw [hp.setoid_le_iff]
    intro i hi
    exact (hiff i hi _ (hp.rep_lt hi)).1 (hp.rep_rep_eq i).symm
  · rw [hq.setoid_le_iff, hsize]
    intro i hi
    exact (hiff i hi _ (hsize ▸ hq.rep_lt (hsize ▸ hi))).2 (hq.rep_rep_eq i).symm

/-- **Partitions are normalized.**  A partition that was made in any way, by any calls in any order,
sends each element to the least element of its block, and counts the elements that are sent to
themselves.  So two such partitions of one set are the same exactly if their arrays are, and exactly if
they relate the same elements.  Meets, joins and arrays with entries in range are never refused; and a
change in place that is refused is so for its arguments, and leaves the partition as it is. -/
theorem constructed_normalized (n : ℕ) :
    (∀ p, Constructed n p → p.size = n ∧
      (∀ i (hi : i < p.reps.size), IsLeast {j | p.isRelated j i = .ok true} p.reps[i]) ∧
      p.blockCount = ((Finset.range n).filter fun i => p.reps[i]? = some i).card) ∧
    (∀ p q, Constructed n p → Constructed n q →
      (p = q ↔ p.reps = q.reps) ∧
      (p.reps = q.reps ↔ ∀ i < n, ∀ j < n, p.isRelated i j = q.isRelated i j) ∧
      (∃ m, p.meet q = .ok m) ∧ ∃ m, p.join q = .ok m) ∧
    (∀ entries : List ℕ, entries.length = n → (∀ r ∈ entries, r < n) →
      ∃ p, ofArray entries = .ok p) ∧
    ∀ p fault p',
      (∀ r s, joinBlocksInPlace r s p = .error fault p' → fault.kind = .invalidInput ∧ p' = p) ∧
      ∀ i j, ensureRelatedInPlace i j p = .error fault p' → fault.kind = .invalidInput ∧ p' = p := by
  refine ⟨?_, ?_, ?_, ?_⟩
  · intro p hp
    have hvalid := hp.validOn
    exact ⟨hvalid.2, fun i hi => hvalid.isLeast_block hi, hvalid.blockCount_eq_card⟩
  · intro p q hp hq
    have hsize : p.size = q.size := hp.validOn.2.trans hq.validOn.2.symm
    have hsame := hp.validOn.eq_of_isRelated_eq hq.validOn
    have hrelated (h : p.reps = q.reps) (i j : ℕ) : p.isRelated i j = q.isRelated i j := by
      have hrep (i : ℕ) : p.representative i = q.representative i := by
        rw [representative, representative, rep, rep, size, size, h]
      rw [isRelated, isRelated, hrep, hrep]
    refine ⟨⟨congrArg reps, fun h => hsame fun i _ j _ => hrelated h i j⟩,
      ⟨fun h i _ j _ => hrelated h i j, fun h => congrArg reps (hsame h)⟩,
      ⟨_, meet_eq hsize⟩, ⟨_, join_eq hsize⟩⟩
  · rintro entries rfl hrange
    exact exists_ofArray hrange
  · intro p fault p'
    refine ⟨?_, ?_⟩
    · intro r s h
      rw [joinBlocksInPlace_eq, atOnce_eq_error] at h
      refine ⟨?_, h.2⟩
      exact RefusesOnly.bind (refusesOnly_joinBlocks p r s) (fun _ => .ok _) fault h.1
    · intro i j h
      rw [ensureRelatedInPlace_eq, atOnce_eq_error] at h
      exact ⟨refusesOnly_ensureRelated p i j fault h.1, h.2⟩

/-- An array that sends three elements in a circle gives a partition that can be written down as blocks
in another order, and whose arrays agree with those of two merges in place.  An element that does not
represent its block cannot be joined with another one, and nothing changes. -/
theorem circle_merged_four : ∃ p, ofArray [1, 2, 0, 3] = .ok p ∧ ofBlocks 4 [[3], [2, 0, 1]] = .ok p ∧
    (ensureRelatedInPlace 2 1).after ((joinBlocksInPlace 0 2).after (finest 4)) = p ∧
    IsLeast {j | p.isRelated j 2 = .ok true} 0 ∧
    ∃ fault, joinBlocksInPlace 0 2 p = .error fault p ∧ fault.kind = .invalidInput := by
  obtain ⟨hmade, hsame, -, hrefused⟩ := constructed_normalized 4
  have hcircle : ofArray [1, 2, 0, 3] = .ok ⟨#[0, 0, 0, 3], 2⟩ := by cbv
  have hblocks : ofBlocks 4 [[3], [2, 0, 1]] = .ok ⟨#[0, 0, 0, 3], 2⟩ := by cbv
  have hreps : ((ensureRelatedInPlace 2 1).after ((joinBlocksInPlace 0 2).after (finest 4))).reps
      = #[0, 0, 0, 3] := by cbv
  have hjoin : joinBlocksInPlace 0 2 ⟨#[0, 0, 0, 3], 2⟩
      = .error (.notARepresentative 2) ⟨#[0, 0, 0, 3], 2⟩ := by cbv
  have hp : Constructed 4 ⟨#[0, 0, 0, 3], 2⟩ := .ofArray rfl hcircle
  have hmerged := Constructed.ensureRelated 2 1 (.joinBlocks 0 2 (.finest (n := 4)))
  obtain ⟨-, hleast, -⟩ := hmade _ hp
  exact ⟨_, hcircle, hblocks, (hsame _ _ hmerged hp).1.2 hreps, hleast 2 (by decide),
    _, hjoin, ((hrefused _ _ _).1 0 2 hjoin).1⟩

end Partition

end UniversalAlgebra
