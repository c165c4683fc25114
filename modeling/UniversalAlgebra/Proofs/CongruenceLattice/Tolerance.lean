/-
**The tolerance of a pair.**

A tolerance of an algebra is a reflexive and symmetric relation that is compatible with the operations,
or a set of pairs that is closed under these, with the diagonal and with each pair also the exchanged
one.  The closure starts from a pair, the exchanged one and the diagonal, and applies the operations of
positive arity only.  The diagonal has what the others would add, and what comes of pairs that were
exchanged is exchanged, so that nothing is missing.

Main definitions:

* `Algebra.IsTolerance` — reflexive, symmetric and compatible relations on the universe;
* `Algebra.toleranceSeed` — a pair, the exchanged one and the diagonal, as tuples.

Main results:

* `Algebra.Total.isTolerance_subpower` — what is generated by exchanged pairs and the diagonal is a
  tolerance;
* `Algebra.Total.isLeast_isTolerance` — the least tolerance that contains a pair is generated by the
  seed;
* `CongruenceLattice.tolerance_eq` — this is what the closure finds;
* `CongruenceLattice.tolerance_isLeast` — **it is the least tolerance that contains the pair**.
-/

import UniversalAlgebra.Proofs.CongruenceLattice.Matrices

set_option autoImplicit false

namespace UniversalAlgebra

theorem Operation.columns_two (op : Operation) (rows : List (List ℕ)) :
    op.columns 2 rows = [op.value (rows.map fun row => row.getD 0 0),
      op.value (rows.map fun row => row.getD 1 0)] := rfl

namespace Algebra

variable {A : Algebra} {R : ℕ → ℕ → Prop} {a b : ℕ}

/-! ### Tolerances -/

/-- A reflexive and symmetric relation on the universe that is compatible with all operations, the
nullary ones included. -/
structure IsTolerance (A : Algebra) (R : ℕ → ℕ → Prop) : Prop where
  lt : ∀ x y, R x y → x < A.size ∧ y < A.size
  refl : ∀ x < A.size, R x x
  symm : ∀ x y, R x y → R y x
  compatible : ∀ op ∈ A.operations, ∀ xs ys : List ℕ, xs.length = op.arity →
    List.Forall₂ R xs ys → R (op.value xs) (op.value ys)

/-- The pairs of a tolerance are closed under the operations. -/
theorem IsTolerance.isSubpower (hR : A.IsTolerance R) :
    A.IsSubpower 2 {t | ∃ x y, R x y ∧ t = [x, y]} := by
  refine ⟨?_, ?_⟩
  · rintro t ⟨x, y, hxy, rfl⟩
    exact mem_tuples_two.2 ⟨(x, y), hR.lt x y hxy, rfl⟩
  · intro op hop rows hlen hrows
    refine ⟨_, _, hR.compatible op hop _ _ (by simpa using hlen) ?_, op.columns_two rows⟩
    rw [List.forall₂_map_left_iff, List.forall₂_map_right_iff, List.forall₂_same]
    intro row hrow
    obtain ⟨x, y, hxy, rfl⟩ := hrows row hrow
    exact hxy

/-- Related lists are the columns of a list of pairs. -/
theorem exists_rows {S : Set (List ℕ)} {xs ys : List ℕ}
    (hrel : List.Forall₂ (fun x y => [x, y] ∈ S) xs ys) :
    ∃ rows : List (List ℕ), (∀ row ∈ rows, row ∈ S) ∧ rows.map (fun row => row.getD 0 0) = xs ∧
      rows.map (fun row => row.getD 1 0) = ys := by
  induction hrel with
  | nil => exact ⟨[], by simp⟩
  | @cons x y xs ys hxy _ ih =>
      obtain ⟨rows, hrows, rfl, rfl⟩ := ih
      exact ⟨[x, y] :: rows, List.forall_mem_cons.2 ⟨hxy, hrows⟩, rfl, rfl⟩

/-- A closed set of pairs is compatible with the operations. -/
theorem IsSubpower.compatible {S : Set (List ℕ)} (hS : A.IsSubpower 2 S) {op : Operation}
    (hop : op ∈ A.operations) {xs ys : List ℕ} (hlen : xs.length = op.arity)
    (hrel : List.Forall₂ (fun x y => [x, y] ∈ S) xs ys) : [op.value xs, op.value ys] ∈ S := by
  obtain ⟨rows, hrows, rfl, rfl⟩ := exists_rows hrel
  rw [← op.columns_two]
  exact hS.columns_mem op hop rows (by simpa using hlen) hrows

/-- What is generated by exchanged pairs is exchanged. -/
theorem Total.swap_mem_subpower (hA : A.Total) {G : Set (List ℕ)} (hG : G ⊆ A.tuples 2)
    (hswap : ∀ x y, [x, y] ∈ G → [y, x] ∈ G) {x y : ℕ} (h : [x, y] ∈ A.subpower 2 G) :
    [y, x] ∈ A.subpower 2 G := by
  obtain ⟨⟨hclosed, hgenerators⟩, hleast⟩ := hA.isLeast_subpower hG
  have hexchanged := hclosed.select hA 2 [1, 0] rfl (by simp)
  have hsub : G ⊆ {t | t ∈ A.tuples 2 ∧ ([1, 0].map fun j => t.getD j 0) ∈ A.subpower 2 G} := by
    intro t ht
    refine ⟨hG ht, ?_⟩
    obtain ⟨p, -, rfl⟩ := mem_tuples_two.1 (hG ht)
    exact hgenerators (hswap p.1 p.2 ht)
  exact (hleast ⟨hexchanged, hsub⟩ h).2

/-- What is generated by exchanged pairs and the diagonal is a tolerance. -/
theorem Total.isTolerance_subpower (hA : A.Total) {G : Set (List ℕ)} (hG : G ⊆ A.tuples 2)
    (hdiagonal : ∀ x < A.size, [x, x] ∈ G) (hswap : ∀ x y, [x, y] ∈ G → [y, x] ∈ G) :
    A.IsTolerance fun x y => [x, y] ∈ A.subpower 2 G := by
  obtain ⟨⟨hclosed, hgenerators⟩, -⟩ := hA.isLeast_subpower hG
  refine ⟨fun x y hxy => ?_, fun x hx => hgenerators (hdiagonal x hx), fun x y => ?_, ?_⟩
  · obtain ⟨-, hlt⟩ := hclosed.subset_tuples hxy
    exact ⟨hlt x (by simp), hlt y (by simp)⟩
  · exact hA.swap_mem_subpower hG hswap
  · exact fun op hop xs ys hlen hrel => hclosed.compatible hop hlen hrel

/-! ### The tolerance of a pair -/

/-- A pair, the exchanged one and the diagonal, as tuples. -/
def toleranceSeed (A : Algebra) (a b : ℕ) : Set (List ℕ) :=
  {t | t = [a, b] ∨ t = [b, a] ∨ ∃ x < A.size, t = [x, x]}

theorem toleranceSeed_subset (ha : a < A.size) (hb : b < A.size) :
    A.toleranceSeed a b ⊆ A.tuples 2 := by
  rintro t (rfl | rfl | ⟨x, hx, rfl⟩)
  · exact mem_tuples_two.2 ⟨(a, b), ⟨ha, hb⟩, rfl⟩
  · exact mem_tuples_two.2 ⟨(b, a), ⟨hb, ha⟩, rfl⟩
  · exact mem_tuples_two.2 ⟨(x, x), ⟨hx, hx⟩, rfl⟩

theorem diagonal_mem_toleranceSeed {x : ℕ} (hx : x < A.size) : [x, x] ∈ A.toleranceSeed a b :=
  Or.inr (Or.inr ⟨x, hx, rfl⟩)

theorem swap_mem_toleranceSeed {x y : ℕ} (h : [x, y] ∈ A.toleranceSeed a b) :
    [y, x] ∈ A.toleranceSeed a b := by
  rcases h with h | h | ⟨z, hz, h⟩
  · cases h
    exact Or.inr (Or.inl rfl)
  · cases h
    exact Or.inl rfl
  · cases h
    exact diagonal_mem_toleranceSeed hz

/-- The least tolerance that contains a pair is what the seed generates. -/
theorem Total.isLeast_isTolerance (hA : A.Total) (ha : a < A.size) (hb : b < A.size) :
    IsLeast {R | A.IsTolerance R ∧ R a b} fun x y => [x, y] ∈ A.subpower 2 (A.toleranceSeed a b) := by
  have hseed := toleranceSeed_subset ha hb
  obtain ⟨⟨-, hgenerators⟩, hleast⟩ := hA.isLeast_subpower hseed
  refine ⟨⟨hA.isTolerance_subpower hseed (fun x hx => diagonal_mem_toleranceSeed hx)
    fun x y => swap_mem_toleranceSeed, hgenerators (Or.inl rfl)⟩, ?_⟩
  rintro R ⟨hR, hab⟩ x y hxy
  have hsub : A.toleranceSeed a b ⊆ {t | ∃ x y, R x y ∧ t = [x, y]} := by
    rintro t (rfl | rfl | ⟨x, hx, rfl⟩)
    · exact ⟨a, b, hab, rfl⟩
    · exact ⟨b, a, hR.symm a b hab, rfl⟩
    · exact ⟨x, x, hR.refl x hx, rfl⟩
  obtain ⟨x', y', hxy', h⟩ := hleast ⟨hR.isSubpower, hsub⟩ hxy
  cases h
  exact hxy'

end Algebra

/-! ### What the closure finds -/

namespace CongruenceLattice

open Fallible

variable {L : CongruenceLattice} {a b : ℕ}

theorem mem_toleranceGenerators {A : Algebra} {t : List ℕ} :
    t ∈ [a, b] :: [b, a] :: SubpowerClosure.diagonal 2 (List.range A.size) ↔
      t ∈ A.toleranceSeed a b := by
  simp only [SubpowerClosure.diagonal, Algebra.toleranceSeed, List.mem_cons, List.mem_map,
    List.mem_range, Set.mem_ofPred_eq, eq_comm (a := t)]
  rfl

/-- The discovered tuples of length two, read as pairs. -/
theorem mem_map_pair {A : Algebra} {s : SubpowerClosure Unit} (hs : s.Faithful A 2) {x y : ℕ} :
    (x, y) ∈ s.tuples.toList.map (fun t => (t[0]?.getD 0, t[1]?.getD 0)) ↔ [x, y] ∈ s.tuples := by
  rw [← Array.mem_toList_iff, List.mem_map]
  constructor
  · rintro ⟨t, ht, h⟩
    obtain ⟨p, -, rfl⟩ := Algebra.mem_tuples_two.1 (hs.mem_tuples t (Array.mem_toList_iff.1 ht))
    cases h
    exact ht
  · exact fun h => ⟨[x, y], h, rfl⟩

/-- The relation has the pairs that the seed generates. -/
theorem tolerance_eq (hA : L.algebra.Total) (ha : a < L.algebra.size) (hb : b < L.algebra.size) :
    ∃ r, L.tolerance a b = .ok r ∧ r.Valid ∧ r.size = L.algebra.size ∧
      ∀ x y, r.has x y = true ↔ [x, y] ∈ L.algebra.subpower 2 (L.algebra.toleranceSeed a b) := by
  have hseed := Algebra.toleranceSeed_subset ha hb
  have hgenerators : {t | t ∈ [a, b] :: [b, a] :: SubpowerClosure.diagonal 2
      (List.range L.algebra.size)} = L.algebra.toleranceSeed a b :=
    Set.ext fun _ => mem_toleranceGenerators
  -- the closure does not apply the nullary operations, but the diagonal has their values
  obtain ⟨s, hs, ⟨hclose, hmem, -⟩ | ⟨-, -, hfalse⟩⟩ :=
    SubpowerClosure.close_insertAll hA L.mode (fun t ht => hseed (mem_toleranceGenerators.1 ht))
      (fun x hx => mem_toleranceGenerators.2 (Algebra.diagonal_mem_toleranceSeed hx))
      (SubpowerClosure.watched_start _) () fun _ _ => trivial
  · rw [hgenerators] at hmem
    have hlt : ∀ p ∈ s.tuples.toList.map (fun t => (t[0]?.getD 0, t[1]?.getD 0)),
        p.1 < L.algebra.size ∧ p.2 < L.algebra.size := by
      intro p hp
      obtain ⟨-, hlt⟩ := hs.mem_tuples _ ((mem_map_pair hs).1 hp)
      exact ⟨hlt p.1 (by simp), hlt p.2 (by simp)⟩
    obtain ⟨hvalid, hsize, hhas⟩ := (Relation.valid_empty L.algebra.size).foldl_add hlt
    refine ⟨_, ?_, hvalid, hsize, fun x y => ?_⟩
    · have hgenerate : L.generateTuples ((SubpowerClosure.start 2).insertAll
          ([a, b] :: [b, a] :: SubpowerClosure.diagonal 2 (List.range L.algebra.size))) = .ok s :=
        generateTuples_eq hclose
      rw [tolerance, checkPair_eq hA ha hb, ok_bind]
      change L.generateTuples _ >>= _ = _
      rw [hgenerate]
      rfl
    · rw [hhas, Relation.has_empty, mem_map_pair hs, hmem]
      simp
  · exact hfalse.elim

/-- **The tolerance of a pair is the least tolerance that contains it.**  It is found, it passes the test
for a tolerance, and among the reflexive and symmetric relations on the universe that contain the pair
and are compatible with all operations, the nullary ones included, it is the least. -/
theorem tolerance_isLeast (hA : L.algebra.Total) (ha : a < L.algebra.size)
    (hb : b < L.algebra.size) :
    ∃ r, L.tolerance a b = .ok r ∧ r.size = L.algebra.size ∧ r.isTolerance = true ∧
      IsLeast {R | L.algebra.IsTolerance R ∧ R a b} fun x y => r.has x y = true := by
  obtain ⟨r, hr, hvalid, hsize, hhas⟩ := tolerance_eq hA ha hb
  have hleast := hA.isLeast_isTolerance ha hb
  simp only [← hhas] at hleast
  refine ⟨r, hr, hsize, hvalid.isTolerance_iff.2 ⟨fun i hi => ?_, hleast.1.1.symm⟩, hleast⟩
  exact hleast.1.1.refl i (hsize ▸ hi)

/-- In the bits with conjunction and zero every tolerance that contains the pair of zero and one has all
pairs. -/
theorem tolerance_zero_one_bits :
    (start Algebra.bits .standard).tolerance 0 1 = .ok (Relation.universal 2) ∧
      IsLeast {R | Algebra.bits.IsTolerance R ∧ R 0 1} fun x y =>
        (Relation.universal 2).has x y = true := by
  obtain ⟨r, hr, -, -, hleast⟩ := tolerance_isLeast (L := start Algebra.bits .standard)
    Algebra.total_bits (a := 0) (b := 1) (by decide) (by decide)
  obtain rfl : r = Relation.universal 2 := by
    have h : (start Algebra.bits .standard).tolerance 0 1 = .ok (Relation.universal 2) := by cbv
    rw [h] at hr
    cases hr
    rfl
  exact ⟨hr, hleast⟩

end CongruenceLattice

end UniversalAlgebra
