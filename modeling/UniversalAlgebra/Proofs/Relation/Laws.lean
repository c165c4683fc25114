/-
**The laws of relations.**

A relation is listed pair by pair in lexicographic order, and its pairs are counted row by row.  Since a
relation that was made in any way is known by the set of its pairs, the laws of sets of pairs hold for
relations: composition is associative, the identity is its unit, and the converse of a composition is the
composition of the converses in the other order.

Main definitions:

* `Relation.IsListed` — the pairs are listed once, in order, and counted;
* `Relation.IsChanged` — a pair can be looked up, added and removed;
* `Relation.IsRefused` — each call with a pair is refused, and none changes anything;
* `Relation.IsCombined` — what two relations give together.

Main results:

* `Relation.ValidOn.isListed`, `Relation.ValidOn.isChanged`, `Relation.ValidOn.isCombined` — all this
  holds of valid relations;
* `Relation.ValidOn.comp_assoc`, `Relation.ValidOn.inverse_comp` — the laws of composition;
* `Relation.relations_exact` — **relations are sets of pairs**.
-/

import UniversalAlgebra.Proofs.Relation.Operations

set_option autoImplicit false

namespace UniversalAlgebra.Relation

open Query Fallible

variable {r s t : Relation} {n i j : ℕ}

/-! ### The list of the pairs -/

/-- The pairs of a relation are listed once, in lexicographic order, and counted; and so are the elements
on the right of an element. -/
structure IsListed (r : Relation) : Prop where
  pairwise : r.pairs.Pairwise (Prod.Lex (· < ·) (· < ·))
  mem_iff : ∀ p, p ∈ r.pairs ↔ p ∈ r.members
  count_eq : r.count = r.members.ncard
  rightOf : ∀ i < r.size, ∃ js, r.rightOf i = .ok js ∧ js.Pairwise (· < ·) ∧
    ∀ j, j ∈ js ↔ (i, j) ∈ r.members

theorem pairwise_pairs (r : Relation) : r.pairs.Pairwise (Prod.Lex (· < ·) (· < ·)) := by
  refine List.pairwise_flatMap.2 ⟨fun i _ => ?_, List.pairwise_lt_range.imp fun {i i'} hlt p hp q hq => ?_⟩
  · refine List.pairwise_map.2 ((r.row i).pairwise_toList.imp fun hlt => ?_)
    exact Prod.Lex.right i hlt
  · obtain ⟨j, -, rfl⟩ := List.mem_map.1 hp
    obtain ⟨j', -, rfl⟩ := List.mem_map.1 hq
    exact Prod.Lex.left j j' hlt

/-- No pair is listed twice. -/
theorem nodup_pairs (r : Relation) : r.pairs.Nodup := by
  refine r.pairwise_pairs.imp fun {p q} hlt heq => ?_
  subst heq
  cases hlt with
  | left _ _ h => exact absurd h (lt_irrefl _)
  | right _ h => exact absurd h (lt_irrefl _)

/-- The pairs are counted row by row. -/
theorem Valid.count_eq_length (hr : r.Valid) : r.count = r.pairs.length := by
  have hrows : r.rows.toList = (List.range r.size).map r.row := by
    refine List.ext_getElem (by simp [hr.rows_size]) fun i hi hi' => ?_
    rw [Array.length_toList] at hi
    rw [List.getElem_map, List.getElem_range, row_eq hi, Array.getElem_toList]
  rw [count, ← Array.foldl_toList, hrows, List.foldl_map, pairs, List.length_flatMap,
    List.sum_eq_foldl, List.foldl_map]
  simp only [BitSet.count_eq_length, List.length_map]

theorem ValidOn.isListed (hr : r.ValidOn n) : r.IsListed := by
  have hmem (p : ℕ × ℕ) : p ∈ r.pairs ↔ p ∈ r.members := by
    obtain ⟨i, j⟩ := p
    rw [mem_pairs, hr.1.mem_members]
    exact and_iff_right_of_imp fun h => hr.1.left_lt h
  have hmembers : r.members = ↑r.pairs.toFinset := by
    ext p
    rw [List.coe_toFinset, Set.mem_ofPred_eq, hmem]
  refine ⟨r.pairwise_pairs, hmem, ?_, fun i hi => ⟨(r.row i).toList, ?_, (r.row i).pairwise_toList, ?_⟩⟩
  · rw [hmembers, Set.ncard_coe_finset, List.toFinset_card_of_nodup r.nodup_pairs,
      hr.1.count_eq_length]
  · rw [rightOf, checkElement, if_pos hi]
    rfl
  · intro j
    rw [BitSet.mem_toList, hr.1.mem_members, has]

/-! ### Changes -/

/-- A pair can be looked up, added and removed, and adding it tells whether it was missing. -/
structure IsChanged (r : Relation) (i j : ℕ) : Prop where
  contains : ∃ answer, r.contains i j = .ok answer ∧ (answer = true ↔ (i, j) ∈ r.members)
  insert : ∃ s, insertInPlace i j r = .ok () s ∧ s.members = Set.insert (i, j) r.members
  ensureInserted : ∃ answer s, ensureInsertedInPlace i j r = .ok answer s ∧
    (answer = true ↔ (i, j) ∉ r.members) ∧ s.members = Set.insert (i, j) r.members
  remove : ∃ s, removeInPlace i j r = .ok () s ∧ s.members = r.members \ {(i, j)}

/-- Each call with the pair `(i, j)` is refused for this argument, and the relation stays as it is. -/
def IsRefused (r : Relation) (i j : ℕ) : Prop :=
  ∃ fault, fault.kind = .invalidInput ∧ r.contains i j = .error fault ∧
    insertInPlace i j r = .error fault r ∧ ensureInsertedInPlace i j r = .error fault r ∧
    removeInPlace i j r = .error fault r

theorem ValidOn.isChanged (hr : r.ValidOn n) (hi : i < n) (hj : j < n) : r.IsChanged i j := by
  have hi' : i < r.size := hr.2.symm ▸ hi
  have hj' : j < r.size := hr.2.symm ▸ hj
  have hadd := hr.members_add hi hj
  refine ⟨⟨_, contains_eq hi' hj', hr.1.mem_members.symm⟩, ⟨_, changeRow_of_lt hi' hj', hadd⟩,
    ⟨_, _, changeRow_of_lt hi' hj', ?_, hadd⟩, ⟨_, changeRow_of_lt hi' hj', hr.members_remove hi j⟩⟩
  rw [hr.1.mem_members, has, BitSet.tryInsert, Bool.not_eq_true', Bool.not_eq_true]

theorem isRefused_of_not_lt (h : ¬ (i < r.size ∧ j < r.size)) : r.IsRefused i j := by
  have hcontains : r.contains i j = .error (.elementOutOfRange (if i < r.size then j else i)) := by
    rw [contains, checkPair_eq, if_neg h]
    rfl
  exact ⟨_, rfl, hcontains, changeRow_of_not_lt h, changeRow_of_not_lt h, changeRow_of_not_lt h⟩

theorem rightOf_of_not_lt (h : ¬ i < r.size) : r.rightOf i = .error (.elementOutOfRange i) := by
  rw [rightOf, checkElement, if_neg h]
  rfl

theorem refusesOnly_checkPair (r : Relation) (i j : ℕ) : RefusesOnly (r.checkPair i j) := by
  rw [checkPair_eq]
  split
  · exact .ok ()
  · exact .error rfl

/-- A list in which something is no pair of elements is refused. -/
theorem ofPairs_of_not_lt {ps : List (ℕ × ℕ)} (h : ¬ ∀ p ∈ ps, p.1 < n ∧ p.2 < n) :
    ∃ fault, fault.kind = .invalidInput ∧ ofPairs n ps = .error fault := by
  have hinsert (r : Relation) (p : ℕ × ℕ) : RefusesOnly (r.insert p.1 p.2) :=
    .bind (refusesOnly_checkPair r p.1 p.2) fun _ => .ok _
  have hrefuses : RefusesOnly (ofPairs n ps) := .foldlM hinsert ps (empty n)
  cases hps : ofPairs n ps with
  | ok r => exact absurd (lt_of_foldlM_insert hps) h
  | error fault => exact ⟨fault, hrefuses fault hps, rfl⟩

/-! ### Two relations -/

/-- What two relations give together, in terms of their pairs. -/
structure IsCombined (r s : Relation) : Prop where
  compose : ∃ t, r.compose s = .ok t ∧ t.members = r.members.comp s.members
  inter : ∃ t, r.inter s = .ok t ∧ t.members = r.members ∩ s.members
  union : ∃ t, r.union s = .ok t ∧ t.members = r.members ∪ s.members
  le : ∃ answer, r.le s = .ok answer ∧ (answer = true ↔ r.members ⊆ s.members)
  beq : (r == s) = true ↔ r.members = s.members

theorem ValidOn.isCombined (hr : r.ValidOn n) (hs : s.ValidOn n) : r.IsCombined s := by
  have hsize := hr.size_eq_size hs
  obtain ⟨m, hm, -, hinter⟩ := hr.inter hs
  obtain ⟨u, hu, -, hunion⟩ := hr.union hs
  refine ⟨⟨_, compose_eq hsize, (hr.comp hs).2⟩, ⟨m, hm, hinter⟩, ⟨u, hu, hunion⟩,
    ⟨_, le_eq hsize, ?_⟩, hr.beq_iff hs⟩
  rw [← hr.le_iff_subset hs, le_eq hsize, Except.ok.injEq]

theorem ValidOn.comp_identity (hr : r.ValidOn n) : r.comp (identity n) = r := by
  obtain ⟨hvalid, hmembers⟩ := hr.comp (validOn_identity n)
  refine hvalid.ext hr ?_
  rw [hmembers, members_identity]
  ext ⟨i, j⟩
  constructor
  · rintro ⟨k, hik, -, heq⟩
    obtain rfl : k = j := heq
    exact hik
  · exact fun h => ⟨j, h, (hr.lt_of_mem h).2, rfl⟩

theorem ValidOn.identity_comp (hr : r.ValidOn n) : (identity n).comp r = r := by
  obtain ⟨hvalid, hmembers⟩ := (validOn_identity n).comp hr
  refine hvalid.ext hr ?_
  rw [hmembers, members_identity]
  ext ⟨i, j⟩
  constructor
  · rintro ⟨k, ⟨-, heq⟩, hkj⟩
    obtain rfl : i = k := heq
    exact hkj
  · exact fun h => ⟨i, ⟨(hr.lt_of_mem h).1, rfl⟩, h⟩

/-- **Composition is associative.** -/
theorem ValidOn.comp_assoc (hr : r.ValidOn n) (hs : s.ValidOn n) (ht : t.ValidOn n) :
    (r.comp s).comp t = r.comp (s.comp t) := by
  obtain ⟨hrs, hmembers⟩ := hr.comp hs
  obtain ⟨hst, hmembers'⟩ := hs.comp ht
  refine (hrs.comp ht).1.ext (hr.comp hst).1 ?_
  rw [(hrs.comp ht).2, (hr.comp hst).2, hmembers, hmembers', SetRel.comp_assoc]

/-- **The converse of a composition.** -/
theorem ValidOn.inverse_comp (hr : r.ValidOn n) (hs : s.ValidOn n) :
    (r.comp s).inverse = s.inverse.comp r.inverse := by
  obtain ⟨hrs, hmembers⟩ := hr.comp hs
  obtain ⟨hr', hinverse⟩ := hr.converse
  obtain ⟨hs', hinverse'⟩ := hs.converse
  refine hrs.converse.1.ext (hs'.comp hr').1 ?_
  rw [hrs.converse.2, (hs'.comp hr').2, hmembers, hinverse, hinverse', SetRel.inv_comp]

/-- **Relations are sets of pairs.**  Take relations on `[0, n)` that were made in any way, by any calls in
any order.  The pairs are listed once, in lexicographic order, and counted.  A pair of elements can be
looked up, added and removed; any other pair is refused by each call, and nothing changes.  Composition,
converse, intersection, union, comparison and equality are those of the sets of pairs; composition is
associative, the identity is its unit, and the converse of a composition is the composition of the
converses in the other order.  Composition, intersection, union and comparison refuse relations of
different sizes.  Equality refuses nothing: relations of different sizes are not equal. -/
theorem relations_exact (n : ℕ) :
    ((empty n).members = ∅ ∧ (identity n).members = {p | p.1 < n ∧ p.1 = p.2} ∧
      (universal n).members = Set.Iio n ×ˢ Set.Iio n ∧
      (∀ p, Partition.Constructed n p →
        (ofPartition p).members = {q | p.isRelated q.1 q.2 = .ok true}) ∧
      ∀ ps : List (ℕ × ℕ),
        ((∀ p ∈ ps, p.1 < n ∧ p.2 < n) → ∃ r, ofPairs n ps = .ok r ∧ r.members = {p | p ∈ ps}) ∧
        (¬ (∀ p ∈ ps, p.1 < n ∧ p.2 < n) →
          ∃ fault, fault.kind = .invalidInput ∧ ofPairs n ps = .error fault)) ∧
    (∀ r, Constructed n r → r.IsListed ∧
      (∀ i j, i < n ∧ j < n → r.IsChanged i j) ∧ (∀ i j, ¬ (i < n ∧ j < n) → r.IsRefused i j) ∧
      (∀ i, ¬ i < n → ∃ fault, fault.kind = .invalidInput ∧ r.rightOf i = .error fault) ∧
      r.inverse.members = r.members.inv ∧
      r.compose (identity n) = .ok r ∧ (identity n).compose r = .ok r) ∧
    (∀ r s, Constructed n r → Constructed n s → r.IsCombined s ∧
      inverse <$> r.compose s = s.inverse.compose r.inverse ∧
      ∀ t, Constructed n t →
        (do (← r.compose s).compose t) = (do r.compose (← s.compose t))) ∧
    ∀ r s : Relation, r.size ≠ s.size → (r == s) = false ∧ ∃ fault, fault.kind = .invalidInput ∧
      r.compose s = .error fault ∧ r.inter s = .error fault ∧ r.union s = .error fault ∧
      r.le s = .error fault := by
  refine ⟨⟨members_empty n, members_identity n, members_universal n,
    fun p hp => members_ofPartition hp.validOn, fun ps => ⟨fun hps => ?_, ofPairs_of_not_lt⟩⟩,
    fun r hr => ?_, fun r s hr hs => ?_,
    fun r s h => ⟨beq_of_size_ne h, _, rfl, operations_of_size_ne h⟩⟩
  · exact ⟨_, ofPairs_eq hps, (validOn_ofPairs (ofPairs_eq hps)).2⟩
  · have hr := hr.validOn
    have hid := validOn_identity n
    refine ⟨hr.isListed, fun i j h => hr.isChanged h.1 h.2, fun i j h => ?_, fun i h => ?_,
      hr.converse.2, ?_, ?_⟩
    · exact isRefused_of_not_lt (hr.2.symm ▸ h)
    · exact ⟨_, rfl, rightOf_of_not_lt (hr.2.symm ▸ h)⟩
    · rw [compose_eq (hr.size_eq_size hid), hr.comp_identity]
    · rw [compose_eq (hid.size_eq_size hr), hr.identity_comp]
  · have hr := hr.validOn
    have hs := hs.validOn
    have hrs := compose_eq (hr.size_eq_size hs)
    refine ⟨hr.isCombined hs, ?_, fun t ht => ?_⟩
    · rw [hrs, compose_eq (hs.converse.1.size_eq_size hr.converse.1), ← hr.inverse_comp hs]
      rfl
    · have ht := ht.validOn
      rw [hrs, compose_eq (hs.size_eq_size ht), ok_bind, ok_bind,
        compose_eq ((hr.comp hs).1.size_eq_size ht), compose_eq (hr.size_eq_size (hs.comp ht).1),
        hr.comp_assoc hs ht]

/-- Two pairs that meet in the element 64, which is in the second word of a row, are composed to one pair,
and this pair can be removed again.  The element 65 is refused, and so is composition with a relation on
64 elements, which is merely another relation to equality. -/
theorem composed_in_second_word : ∃ r s t u, ofPairs 65 [(0, 64)] = .ok r ∧ ofPairs 65 [(64, 1)] = .ok s ∧
    r.compose s = .ok t ∧ (0, 1) ∈ t.pairs ∧ removeInPlace 0 1 t = .ok () u ∧ (0, 1) ∉ u.members ∧
    t.IsRefused 0 65 ∧ (∃ fault, fault.kind = .invalidInput ∧ r.rightOf 65 = .error fault) ∧
    (∃ fault, fault.kind = .invalidInput ∧ ofPairs 65 [(65, 0)] = .error fault) ∧
    (ofPartition (Partition.finest 65)).members
      = {q | (Partition.finest 65).isRelated q.1 q.2 = .ok true} ∧
    (r == empty 64) = false ∧
    ∃ fault, fault.kind = .invalidInput ∧ r.compose (empty 64) = .error fault := by
  obtain ⟨⟨-, -, -, hpartition, hpairs⟩, hone, htwo, hsizes⟩ := relations_exact 65
  obtain ⟨r, hr, hmr⟩ := (hpairs [(0, 64)]).1 (by decide)
  obtain ⟨s, hs, hms⟩ := (hpairs [(64, 1)]).1 (by decide)
  obtain ⟨⟨⟨t, ht, hmt⟩, -, -, -, -⟩, -, -⟩ := htwo r s (.ofPairs hr) (.ofPairs hs)
  obtain ⟨hlisted, hchanged, hrefused, -⟩ := hone t (.compose (.ofPairs hr) (.ofPairs hs) ht)
  obtain ⟨u, hu, hmu⟩ := (hchanged 0 1 (by decide)).remove
  obtain ⟨-, -, -, hright, -⟩ := hone r (.ofPairs hr)
  have hsize : r.size ≠ (empty 64).size := by
    rw [(validOn_ofPairs hr).1.2]
    decide
  obtain ⟨hbeq, fault, hkind, hfault, -⟩ := hsizes r (empty 64) hsize
  refine ⟨r, s, t, u, hr, hs, ht, (hlisted.mem_iff _).2 ?_, hu, ?_, hrefused 0 65 (by decide),
    hright 65 (by decide), (hpairs [(65, 0)]).2 (by decide), hpartition _ .finest,
    hbeq, fault, hkind, hfault⟩
  · rw [hmt]
    exact ⟨64, hmr ▸ List.mem_singleton_self _, hms ▸ List.mem_singleton_self _⟩
  · rw [hmu]
    exact fun h => h.2 rfl

/-- Equality does not refuse relations of different sizes: that of the relations without pairs on two
and on three elements is answered, while their comparison is refused. -/
theorem empty_two_beq_empty_three : (empty 2).size ≠ (empty 3).size ∧
    (empty 2 == empty 3) = false ∧ (empty 2).le (empty 3) = .error (.sizeMismatch 2 3) := by
  decide

end UniversalAlgebra.Relation
