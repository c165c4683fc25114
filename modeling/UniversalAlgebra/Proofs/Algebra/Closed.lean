/-
**Sets closed under the operations.**

A subuniverse is a set of elements that is closed under all operations, the nullary ones included.
A set of tuples of one length is closed if it is closed under the operations applied coordinate by
coordinate.  What is generated is the least closed set, the intersection of all of them.

Main definitions:

* `Algebra.IsSubuniverse`, `Algebra.sg` — closed sets of elements, and the one generated by a set;
* `Tuples.columns`, `Operation.columns` — the columns of some rows, and an operation applied to them
  coordinate by coordinate;
* `Algebra.IsSubpower`, `Algebra.subpower` — closed sets of tuples, and the one generated by a set;
* `Algebra.sgPair` — the set of pairs generated by one pair and the diagonal.

Main results:

* `Algebra.Total.isLeast_sg`, `Algebra.Total.isLeast_subpower` — what is generated is the least
  closed set;
* `Algebra.Total.sgPair_subset`, `Algebra.Total.swap_mem_sgPair` — the set generated by a pair is
  transitive and respects the exchange of the two coordinates.
-/

import Mathlib
import UniversalAlgebra.Proofs.Algebra.Total

set_option autoImplicit false

namespace UniversalAlgebra

/-! ### Sets of elements -/

namespace Algebra

variable {A : Algebra}

/-- A set of elements that is closed under all operations. -/
structure IsSubuniverse (A : Algebra) (S : Set ℕ) : Prop where
  lt_size : ∀ x ∈ S, x < A.size
  value_mem : ∀ op ∈ A.operations, ∀ args : List ℕ, args.length = op.arity →
    (∀ x ∈ args, x ∈ S) → op.value args ∈ S

/-- The set of elements generated by a set. -/
def sg (A : Algebra) (G : Set ℕ) : Set ℕ := ⋂₀ {S | A.IsSubuniverse S ∧ G ⊆ S}

/-- The whole universe is closed. -/
theorem Total.isSubuniverse_univ (hA : A.Total) : A.IsSubuniverse {x | x < A.size} :=
  ⟨fun _ hx => hx, fun _ hop _ hlen hargs => hA.value_lt hop hlen hargs⟩

/-- What a set of elements generates is the least subuniverse that contains it. -/
theorem Total.isLeast_sg (hA : A.Total) {G : Set ℕ} (hG : ∀ x ∈ G, x < A.size) :
    IsLeast {S | A.IsSubuniverse S ∧ G ⊆ S} (A.sg G) := by
  refine ⟨⟨⟨?_, ?_⟩, fun x hx S hS => hS.2 hx⟩,
    fun S hS x hx => hx S hS⟩
  · intro x hx
    exact hx _ ⟨hA.isSubuniverse_univ, hG⟩
  · intro op hop args hlen hargs S hS
    exact hS.1.value_mem op hop args hlen fun x hx => hargs x hx S hS

/-- A subuniverse has the constants. -/
theorem IsSubuniverse.constants_mem (hA : A.Total) {S : Set ℕ} (hS : A.IsSubuniverse S) {c : ℕ}
    (hc : c ∈ A.constants) : c ∈ S := by
  obtain ⟨op, hop, harity, happly⟩ := (hA.mem_constants c).1 hc
  rw [← Operation.value_eq_of_apply happly]
  exact hS.value_mem op hop [] harity.symm (by simp)

end Algebra

/-! ### Sets of tuples -/

/-- The first `k` columns of some rows. -/
def Tuples.columns (k : ℕ) (rows : List (List ℕ)) : List (List ℕ) :=
  (List.range k).map fun j => rows.map fun row => row.getD j 0

/-- The first column, and then the others. -/
theorem Tuples.columns_succ (k : ℕ) (rows : List (List ℕ)) :
    columns (k + 1) rows = rows.map (·.headD 0) :: columns k (rows.map List.tail) := by
  have hhead : (fun row : List ℕ => row.getD 0 0) = fun row => row.headD 0 := by
    funext row
    cases row <;> rfl
  have htail (j : ℕ) : ((fun row : List ℕ => row.getD j 0) ∘ List.tail)
      = fun row => row.getD (j + 1) 0 := by
    funext row
    cases row <;> simp
  simp only [columns, List.range_succ_eq_map, List.map_cons, List.map_map, hhead, htail]
  rfl

namespace Operation

/-- The values of an operation at the first `k` columns of some rows. -/
def columns (op : Operation) (k : ℕ) (rows : List (List ℕ)) : List ℕ :=
  (List.range k).map fun j => op.value (rows.map fun row => row.getD j 0)

@[simp] theorem length_columns (op : Operation) (k : ℕ) (rows : List (List ℕ)) :
    (op.columns k rows).length = k := by simp [columns]

theorem columns_zero (op : Operation) (rows : List (List ℕ)) : op.columns 0 rows = [] := rfl

theorem columns_nil (op : Operation) (k : ℕ) : op.columns k [] = List.replicate k (op.value []) := by
  simp [columns, List.map_const']

theorem getD_columns (op : Operation) (rows : List (List ℕ)) {j k : ℕ} (hj : j < k) :
    (op.columns k rows).getD j 0 = op.value (rows.map fun row => row.getD j 0) := by
  rw [List.getD_eq_getElem _ _ (by simpa using hj)]
  simp [columns]

/-- Coordinates of the values are values at these coordinates. -/
theorem map_getD_columns (op : Operation) (rows : List (List ℕ)) {js : List ℕ} {k : ℕ}
    (hjs : ∀ j ∈ js, j < k) :
    (js.map fun j => (op.columns k rows).getD j 0)
      = op.columns js.length (rows.map fun row => js.map fun j => row.getD j 0) := by
  refine List.ext_getElem (by simp) ?_
  intro i hi hi'
  have hlt : i < js.length := by simpa using hi
  have hmap (row : List ℕ) : (js.map fun j => row.getD j 0).getD i 0 = row.getD js[i] 0 := by
    rw [List.getD_eq_getElem _ _ (by simpa using hlt), List.getElem_map]
  rw [List.getElem_map, op.getD_columns rows (hjs _ (List.getElem_mem hlt)),
    ← List.getD_eq_getElem _ 0 hi', op.getD_columns _ hlt, List.map_map]
  simp only [Function.comp_def, hmap]

theorem columns_eq_map (op : Operation) (k : ℕ) (rows : List (List ℕ)) :
    op.columns k rows = (Tuples.columns k rows).map op.value := by
  rw [columns, Tuples.columns, List.map_map]
  rfl

/-- The value at the first column, and then those at the others. -/
theorem columns_succ (op : Operation) (k : ℕ) (rows : List (List ℕ)) :
    op.columns (k + 1) rows
      = op.value (rows.map (·.headD 0)) :: op.columns k (rows.map List.tail) := by
  rw [columns_eq_map, columns_eq_map, Tuples.columns_succ, List.map_cons]

end Operation

namespace Algebra

variable {A : Algebra} {k : ℕ}

/-- The tuples of length `k` of elements. -/
def tuples (A : Algebra) (k : ℕ) : Set (List ℕ) := {t | t.length = k ∧ ∀ x ∈ t, x < A.size}

/-- A set of tuples of length `k` that is closed under all operations, which are applied coordinate
by coordinate. -/
structure IsSubpower (A : Algebra) (k : ℕ) (S : Set (List ℕ)) : Prop where
  subset_tuples : S ⊆ A.tuples k
  columns_mem : ∀ op ∈ A.operations, ∀ rows : List (List ℕ), rows.length = op.arity →
    (∀ row ∈ rows, row ∈ S) → op.columns k rows ∈ S

/-- The set of tuples generated by a set. -/
def subpower (A : Algebra) (k : ℕ) (G : Set (List ℕ)) : Set (List ℕ) :=
  ⋂₀ {S | A.IsSubpower k S ∧ G ⊆ S}

theorem getD_lt_of_mem_tuples {t : List ℕ} (ht : t ∈ A.tuples k) {j : ℕ} (hj : j < k) :
    t.getD j 0 < A.size := by
  have hlength : j < t.length := ht.1 ▸ hj
  rw [List.getD_eq_getElem _ _ hlength]
  exact ht.2 _ (List.getElem_mem hlength)

/-- The columns of tuples of elements have elements as entries. -/
theorem column_lt {rows : List (List ℕ)} (hrows : ∀ row ∈ rows, row ∈ A.tuples k) {j : ℕ}
    (hj : j < k) : ∀ x ∈ rows.map (fun row => row.getD j 0), x < A.size := by
  intro x hx
  obtain ⟨row, hrow, rfl⟩ := List.mem_map.1 hx
  exact getD_lt_of_mem_tuples (hrows row hrow) hj

/-- The values at the columns of tuples of elements are elements. -/
theorem Total.columns_mem_tuples (hA : A.Total) {op : Operation} (hop : op ∈ A.operations)
    {rows : List (List ℕ)} (hlen : rows.length = op.arity)
    (hrows : ∀ row ∈ rows, row ∈ A.tuples k) : op.columns k rows ∈ A.tuples k := by
  refine ⟨op.length_columns k rows, ?_⟩
  intro x hx
  obtain ⟨j, hj, rfl⟩ := List.mem_map.1 hx
  exact hA.value_lt hop (by simpa using hlen) (column_lt hrows (List.mem_range.1 hj))

theorem Total.isSubpower_tuples (hA : A.Total) (k : ℕ) : A.IsSubpower k (A.tuples k) :=
  ⟨fun _ h => h, fun _ hop _ hlen hrows => hA.columns_mem_tuples hop hlen hrows⟩

/-- What a set of tuples generates is the least closed set that contains it. -/
theorem Total.isLeast_subpower (hA : A.Total) {G : Set (List ℕ)} (hG : G ⊆ A.tuples k) :
    IsLeast {S | A.IsSubpower k S ∧ G ⊆ S} (A.subpower k G) := by
  refine ⟨⟨⟨?_, ?_⟩, fun t ht S hS => hS.2 ht⟩,
    fun S hS t ht => ht S hS⟩
  · intro t ht
    exact ht _ ⟨hA.isSubpower_tuples k, hG⟩
  · intro op hop rows hlen hrows S hS
    exact hS.1.columns_mem op hop rows hlen fun row hrow => hrows row hrow S hS

/-- The tuples whose selected coordinates form a tuple of a closed set are closed as well. -/
theorem IsSubpower.select (hA : A.Total) {m : ℕ} {S : Set (List ℕ)} (hS : A.IsSubpower m S)
    (k : ℕ) (js : List ℕ) (hlen : js.length = m) (hlt : ∀ j ∈ js, j < k) :
    A.IsSubpower k {t | t ∈ A.tuples k ∧ (js.map fun j => t.getD j 0) ∈ S} := by
  refine ⟨fun t ht => ht.1, ?_⟩
  intro op hop rows hrowslen hrows
  refine ⟨hA.columns_mem_tuples hop hrowslen fun row hrow => (hrows row hrow).1, ?_⟩
  have hselected := hS.columns_mem op hop (rows.map fun row => js.map fun j => row.getD j 0)
    (by simpa using hrowslen) fun selected hselected => by
      obtain ⟨row, hrow, rfl⟩ := List.mem_map.1 hselected
      exact (hrows row hrow).2
  rw [op.map_getD_columns rows hlt, hlen]
  exact hselected

/-! ### Sets of pairs -/

/-- The pair `p` and the diagonal, as tuples. -/
def pairSeed (A : Algebra) (p : ℕ × ℕ) : Set (List ℕ) :=
  {t | t = [p.1, p.2] ∨ ∃ x < A.size, t = [x, x]}

/-- The set of pairs generated by `p` and the diagonal. -/
def sgPair (A : Algebra) (p : ℕ × ℕ) : Set (ℕ × ℕ) :=
  {q | [q.1, q.2] ∈ A.subpower 2 (A.pairSeed p)}

/-- Both components are elements. -/
def IsPair (A : Algebra) (p : ℕ × ℕ) : Prop := p.1 < A.size ∧ p.2 < A.size

theorem mem_tuples_two {t : List ℕ} :
    t ∈ A.tuples 2 ↔ ∃ p : ℕ × ℕ, A.IsPair p ∧ t = [p.1, p.2] := by
  constructor
  · rintro ⟨hlen, hlt⟩
    obtain ⟨x, y, rfl⟩ := List.length_eq_two.1 hlen
    exact ⟨(x, y), ⟨hlt x (by simp), hlt y (by simp)⟩, rfl⟩
  · rintro ⟨p, ⟨h₁, h₂⟩, rfl⟩
    exact ⟨rfl, by simp [h₁, h₂]⟩

theorem pairSeed_subset {p : ℕ × ℕ} (hp : A.IsPair p) : A.pairSeed p ⊆ A.tuples 2 := by
  rintro t (rfl | ⟨x, hx, rfl⟩)
  · exact mem_tuples_two.2 ⟨p, hp, rfl⟩
  · exact mem_tuples_two.2 ⟨(x, x), ⟨hx, hx⟩, rfl⟩

namespace Total

variable {p q : ℕ × ℕ}

theorem isLeast_subpower_pairSeed (hA : A.Total) (hp : A.IsPair p) :
    IsLeast {S | A.IsSubpower 2 S ∧ A.pairSeed p ⊆ S} (A.subpower 2 (A.pairSeed p)) :=
  hA.isLeast_subpower (pairSeed_subset hp)

theorem self_mem_sgPair (hA : A.Total) (hp : A.IsPair p) : p ∈ A.sgPair p :=
  (hA.isLeast_subpower_pairSeed hp).1.2 (Or.inl rfl)

theorem isPair_of_mem_sgPair (hA : A.Total) (hp : A.IsPair p) (hq : q ∈ A.sgPair p) :
    A.IsPair q := by
  obtain ⟨hlen, hlt⟩ := (hA.isLeast_subpower_pairSeed hp).1.1.subset_tuples hq
  exact ⟨hlt q.1 (by simp), hlt q.2 (by simp)⟩

/-- A pair that is generated generates nothing else. -/
theorem sgPair_subset (hA : A.Total) (hp : A.IsPair p) (hq : q ∈ A.sgPair p) :
    A.sgPair q ⊆ A.sgPair p := by
  obtain ⟨⟨hclosed, hseed⟩, -⟩ := hA.isLeast_subpower_pairSeed hp
  have hsub : A.pairSeed q ⊆ A.subpower 2 (A.pairSeed p) := by
    rintro t (rfl | hdiagonal)
    · exact hq
    · exact hseed (Or.inr hdiagonal)
  exact fun r hr => (hA.isLeast_subpower_pairSeed (hA.isPair_of_mem_sgPair hp hq)).2
    ⟨hclosed, hsub⟩ hr

/-- Exchanging the two coordinates of the generating pair exchanges those of what it generates. -/
theorem swap_mem_sgPair (hA : A.Total) (hp : A.IsPair p) (hq : q ∈ A.sgPair p) :
    q.swap ∈ A.sgPair p.swap := by
  obtain ⟨⟨hclosed, hseed⟩, -⟩ := hA.isLeast_subpower_pairSeed (p := p.swap) ⟨hp.2, hp.1⟩
  have hexchanged := hclosed.select hA 2 [1, 0] rfl (by simp)
  have hsub : A.pairSeed p ⊆ {t | t ∈ A.tuples 2 ∧
      ([1, 0].map fun j => t.getD j 0) ∈ A.subpower 2 (A.pairSeed p.swap)} := by
    intro t ht
    refine ⟨pairSeed_subset hp ht, ?_⟩
    rcases ht with rfl | ⟨x, hx, rfl⟩
    · exact hseed (Or.inl rfl)
    · exact hseed (Or.inr ⟨x, hx, rfl⟩)
  exact ((hA.isLeast_subpower_pairSeed hp).2 ⟨hexchanged, hsub⟩ hq).2

theorem mem_sgPair_swap (hA : A.Total) (hp : A.IsPair p) :
    q ∈ A.sgPair p.swap ↔ q.swap ∈ A.sgPair p := by
  constructor
  · intro hq
    exact hA.swap_mem_sgPair (p := p.swap) ⟨hp.2, hp.1⟩ hq
  · intro hq
    exact hA.swap_mem_sgPair hp hq

end Total

end Algebra

end UniversalAlgebra
