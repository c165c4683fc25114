/-
**The tables of the binary polynomials on a pair.**

Two elements `c` and `d` and the constants generate quadruples `(x, y, u, v)`, which are the tables
of binary polynomials on `c` and `d`, with rows `x y` and `u v`.  What a table looks like is judged
modulo an equivalence relation.  For a congruence it is enough to have, of each table, a related
one: a set of quadruples that is closed under the operations, but only has constants up to the
congruence, already shows all there is to see.

Main definitions:

* `Algebra.tables` — the tables of a pair;
* `JoinLike`, `MeetLike`, `SnagLike` — what a table can look like;
* `Algebra.HasTable` — some table of a pair looks like this.

Main results:

* `Algebra.Total.isLeast_tables` — the tables are the least closed set of quadruples with the
  constants and the two projections;
* `Algebra.Total.transpose_mem_tables` — the transpose of a table is a table;
* `Algebra.Compatible.of_mem_sgPair`, `Algebra.Compatible.of_mem_tables` — what a related pair
  generates is related;
* `Algebra.exists_related` — **closed sets with generators up to a congruence have everything up to
  the congruence**.
-/

import UniversalAlgebra.Proofs.Algebra.Compatible
import UniversalAlgebra.Proofs.Closure.Subpower

set_option autoImplicit false

namespace UniversalAlgebra

/-! ### What tables look like -/

section Patterns

variable (s : Setoid ℕ) (x y u v : ℕ)

/-- The first row or column is split while the second is not. -/
def JoinLike : Prop := ¬ s x y ∧ s u v ∨ ¬ s x u ∧ s y v

/-- The second row or column is split while the first is not. -/
def MeetLike : Prop := s x y ∧ ¬ s u v ∨ s x u ∧ ¬ s y v

/-- One diagonal is not split while a row is. -/
def SnagLike : Prop := (s x v ∨ s y u) ∧ (¬ s x y ∨ ¬ s u v)

variable {s x y u v} {s' : Setoid ℕ}

/-- What a table looks like depends on which of its entries are related. -/
theorem joinLike_congr (h : ∀ a ∈ [x, y, u, v], ∀ b ∈ [x, y, u, v], s' a b ↔ s a b) :
    JoinLike s' x y u v ↔ JoinLike s x y u v := by
  simp [JoinLike, h]

theorem meetLike_congr (h : ∀ a ∈ [x, y, u, v], ∀ b ∈ [x, y, u, v], s' a b ↔ s a b) :
    MeetLike s' x y u v ↔ MeetLike s x y u v := by
  simp [MeetLike, h]

theorem snagLike_congr (h : ∀ a ∈ [x, y, u, v], ∀ b ∈ [x, y, u, v], s' a b ↔ s a b) :
    SnagLike s' x y u v ↔ SnagLike s x y u v := by
  simp [SnagLike, h]

end Patterns

namespace Algebra

variable {A : Algebra} {alpha : Partition} {s : Setoid ℕ} {c d k : ℕ}

/-- The constant tables and the two projections. -/
def tableSeed (A : Algebra) (c d : ℕ) : Set (List ℕ) :=
  {t | (∃ x < A.size, t = [x, x, x, x]) ∨ t = [c, c, d, d] ∨ t = [c, d, c, d]}

/-- The tables of `c` and `d`. -/
def tables (A : Algebra) (c d : ℕ) : Set (List ℕ) := A.subpower 4 (A.tableSeed c d)

/-- Some table of `c` and `d` looks like this. -/
def HasTable (A : Algebra) (c d : ℕ) (P : ℕ → ℕ → ℕ → ℕ → Prop) : Prop :=
  ∃ x y u v, [x, y, u, v] ∈ A.tables c d ∧ P x y u v

/-! ### Tables of elements -/

theorem mem_tuples_four {t : List ℕ} :
    t ∈ A.tuples 4 ↔ ∃ x y u v, t = [x, y, u, v] ∧ (x < A.size ∧ y < A.size) ∧
      u < A.size ∧ v < A.size := by
  constructor
  · rintro ⟨hlen, hlt⟩
    match t, hlen with
    | [x, y, u, v], _ => exact ⟨x, y, u, v, rfl, by simpa [and_assoc] using hlt⟩
  · rintro ⟨x, y, u, v, rfl, ⟨hx, hy⟩, hu, hv⟩
    exact ⟨rfl, by simp [hx, hy, hu, hv]⟩

theorem tableSeed_subset (hp : A.IsPair (c, d)) : A.tableSeed c d ⊆ A.tuples 4 := by
  obtain ⟨hc, hd⟩ := hp
  rintro t (⟨x, hx, rfl⟩ | rfl | rfl)
  · exact mem_tuples_four.2 ⟨x, x, x, x, rfl, ⟨hx, hx⟩, hx, hx⟩
  · exact mem_tuples_four.2 ⟨c, c, d, d, rfl, ⟨hc, hc⟩, hd, hd⟩
  · exact mem_tuples_four.2 ⟨c, d, c, d, rfl, ⟨hc, hd⟩, hc, hd⟩

/-- The tables are the least closed set with the constants and the two projections. -/
theorem Total.isLeast_tables (hA : A.Total) (hp : A.IsPair (c, d)) :
    IsLeast {S | A.IsSubpower 4 S ∧ A.tableSeed c d ⊆ S} (A.tables c d) :=
  hA.isLeast_subpower (tableSeed_subset hp)

theorem Total.exists_of_mem_tables (hA : A.Total) (hp : A.IsPair (c, d)) {t : List ℕ}
    (ht : t ∈ A.tables c d) : ∃ x y u v, t = [x, y, u, v] := by
  obtain ⟨x, y, u, v, rfl, -⟩ := mem_tuples_four.1 ((hA.isLeast_tables hp).1.1.subset_tuples ht)
  exact ⟨x, y, u, v, rfl⟩

/-- The transpose of a table is a table: transposing exchanges the two projections. -/
theorem Total.transpose_mem_tables (hA : A.Total) (hp : A.IsPair (c, d)) {x y u v : ℕ}
    (ht : [x, y, u, v] ∈ A.tables c d) : [x, u, y, v] ∈ A.tables c d := by
  obtain ⟨⟨hclosed, hseed⟩, hleast⟩ := hA.isLeast_tables hp
  have htransposed := hclosed.select hA 4 [0, 2, 1, 3] rfl (by simp)
  refine (hleast ⟨htransposed, ?_⟩ ht).2
  intro t ht
  refine ⟨tableSeed_subset hp ht, hseed ?_⟩
  rcases ht with ⟨z, hz, rfl⟩ | rfl | rfl
  · exact Or.inl ⟨z, hz, rfl⟩
  · exact Or.inr (Or.inr rfl)
  · exact Or.inr (Or.inl rfl)

/-! ### Related tuples -/

theorem related_getD {xs ys : List ℕ} (h : List.Forall₂ s xs ys) (j : ℕ) :
    s (xs.getD j 0) (ys.getD j 0) := by
  induction h generalizing j with
  | nil => exact s.refl _
  | cons hxy _ ih =>
      cases j with
      | zero => exact hxy
      | succ j => exact ih j

/-- Related rows have related columns. -/
theorem Compatible.columns (hs : A.Compatible s) {op : Operation} (hop : op ∈ A.operations)
    {rows rows' : List (List ℕ)} (hlen : rows.length = op.arity)
    (hrows : ∀ row ∈ rows, row ∈ A.tuples k) (hrows' : ∀ row ∈ rows', row ∈ A.tuples k)
    (hrel : List.Forall₂ (List.Forall₂ s) rows rows') :
    List.Forall₂ s (op.columns k rows) (op.columns k rows') := by
  rw [Operation.columns, Operation.columns, List.forall₂_map_left_iff, List.forall₂_map_right_iff,
    List.forall₂_same]
  intro j hj
  rw [List.mem_range] at hj
  refine hs op hop _ _ (by simpa using hlen) (column_lt hrows hj) (column_lt hrows' hj) ?_
  rw [List.forall₂_map_left_iff, List.forall₂_map_right_iff]
  exact hrel.imp fun _ _ h => related_getD h j

/-- The tuples whose entries are all related to each other. -/
def blockTuples (A : Algebra) (k : ℕ) (s : Setoid ℕ) : Set (List ℕ) :=
  {t | t ∈ A.tuples k ∧ ∀ x ∈ t, ∀ y ∈ t, s x y}

theorem mem_blockTuples {t : List ℕ} (ht : t ∈ A.tuples k) (hc : ∀ x ∈ t, s c x) :
    t ∈ A.blockTuples k s :=
  ⟨ht, fun x hx y hy => s.trans (s.symm (hc x hx)) (hc y hy)⟩

theorem Compatible.isSubpower_blockTuples (hA : A.Total) (hs : A.Compatible s) (k : ℕ) :
    A.IsSubpower k (A.blockTuples k s) := by
  refine ⟨fun t ht => ht.1, ?_⟩
  intro op hop rows hlen hrows
  have htuples : ∀ row ∈ rows, row ∈ A.tuples k := fun row hrow => (hrows row hrow).1
  refine ⟨hA.columns_mem_tuples hop hlen htuples, ?_⟩
  have hentry : ∀ row ∈ rows, ∀ j < k, row.getD j 0 ∈ row := by
    intro row hrow j hj
    have hlength : j < row.length := (htuples row hrow).1 ▸ hj
    rw [List.getD_eq_getElem _ _ hlength]
    exact List.getElem_mem hlength
  intro x hx y hy
  obtain ⟨i, hi, rfl⟩ := List.mem_map.1 hx
  obtain ⟨j, hj, rfl⟩ := List.mem_map.1 hy
  rw [List.mem_range] at hi hj
  refine hs op hop _ _ (by simpa using hlen) (column_lt htuples hi) (column_lt htuples hj) ?_
  rw [List.forall₂_map_left_iff, List.forall₂_map_right_iff, List.forall₂_same]
  exact fun row hrow => (hrows row hrow).2 _ (hentry row hrow i hi) _ (hentry row hrow j hj)

/-- What a related pair generates is related. -/
theorem Compatible.of_mem_sgPair (hA : A.Total) (hs : A.Compatible s) {p q : ℕ × ℕ}
    (hp : A.IsPair p) (hrel : s p.1 p.2) (hq : q ∈ A.sgPair p) : s q.1 q.2 := by
  have hsub : A.pairSeed p ⊆ A.blockTuples 2 s := by
    intro t ht
    have htuple := pairSeed_subset hp ht
    rcases ht with rfl | ⟨x, hx, rfl⟩
    · exact mem_blockTuples (c := p.1) htuple (by simp [hrel])
    · exact mem_blockTuples (c := x) htuple (by simp)
  have hblock := (hA.isLeast_subpower_pairSeed hp).2 ⟨hs.isSubpower_blockTuples hA 2, hsub⟩ hq
  exact hblock.2 q.1 (by simp) q.2 (by simp)

/-- The entries of a table of a related pair are related. -/
theorem Compatible.of_mem_tables (hA : A.Total) (hs : A.Compatible s) (hp : A.IsPair (c, d))
    (hrel : s c d) {t : List ℕ} (ht : t ∈ A.tables c d) : ∀ x ∈ t, ∀ y ∈ t, s x y := by
  have hsub : A.tableSeed c d ⊆ A.blockTuples 4 s := by
    intro t ht
    have htuple := tableSeed_subset hp ht
    rcases ht with ⟨x, hx, rfl⟩ | rfl | rfl
    · exact mem_blockTuples (c := x) htuple (by simp)
    · exact mem_blockTuples (c := c) htuple (by simp [hrel])
    · exact mem_blockTuples (c := c) htuple (by simp [hrel])
  exact ((hA.isLeast_tables hp).2 ⟨hs.isSubpower_blockTuples hA 4, hsub⟩ ht).2

/-- The tuples that are related to one in a closed set are closed as well. -/
theorem ClosedUnderColumns.saturate (hA : A.Total) (hs : A.Compatible s) {S : Set (List ℕ)}
    (hS : A.ClosedUnderColumns k S) (hsub : S ⊆ A.tuples k) :
    A.ClosedUnderColumns k {t | t ∈ A.tuples k ∧ ∃ t' ∈ S, List.Forall₂ s t t'} := by
  intro op hop hpositive rows hlen hrows
  have htuples : ∀ row ∈ rows, row ∈ A.tuples k := fun row hrow => (hrows row hrow).1
  have hchoice : ∀ row, row ∈ rows → ∃ row' ∈ S, List.Forall₂ s row row' :=
    fun row hrow => (hrows row hrow).2
  choose! f hf using hchoice
  have hmem : ∀ row' ∈ rows.map f, row' ∈ S := by
    intro row' hrow'
    obtain ⟨row, hrow, rfl⟩ := List.mem_map.1 hrow'
    exact (hf row hrow).1
  refine ⟨hA.columns_mem_tuples hop hlen htuples, op.columns k (rows.map f), ?_, ?_⟩
  · exact hS op hop hpositive _ (by simpa using hlen) hmem
  · refine hs.columns hop hlen htuples (fun row h => hsub (hmem row h)) ?_
    rw [List.forall₂_map_right_iff, List.forall₂_same]
    exact fun row hrow => (hf row hrow).2

/-- **Closed sets with generators and constants up to a compatible relation have everything up to
the relation.** -/
theorem exists_related (hA : A.Total) (hs : A.Compatible s) {S G : Set (List ℕ)}
    (hS : A.ClosedUnderColumns k S) (hsub : S ⊆ A.tuples k) (hGsub : G ⊆ A.tuples k)
    (hG : ∀ t ∈ G, ∃ t' ∈ S, List.Forall₂ s t t')
    (hdiagonal : ∀ x < A.size, ∃ t' ∈ S, List.Forall₂ s (List.replicate k x) t') {t : List ℕ}
    (ht : t ∈ A.subpower k G) : ∃ t' ∈ S, List.Forall₂ s t t' := by
  have hclosed := (hS.saturate hA hs hsub).isSubpower hA (fun t ht => ht.1) fun x hx =>
    ⟨⟨List.length_replicate, fun y hy => List.eq_of_mem_replicate hy ▸ hx⟩, hdiagonal x hx⟩
  exact (Set.mem_sInter.1 ht _ ⟨hclosed, fun u hu => ⟨hGsub hu, hG u hu⟩⟩).2

end Algebra

end UniversalAlgebra
