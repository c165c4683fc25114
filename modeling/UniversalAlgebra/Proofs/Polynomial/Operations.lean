/-
**The polynomial operations of an algebra.**

A polynomial operation is composed of variables, constants and operations of the algebra.  What some
tuples generate together with all constant tuples are the values of the polynomials at them, taken
coordinate by coordinate.  So the pairs that a pair generates are its images under the unary
polynomials, and these images generate, as an equivalence relation, the congruence that the pair
generates.

Main definitions:

* `Algebra.IsPolynomial` — polynomial operations;
* `Algebra.valueTuple` — the values of an operation at the coordinates of some tuples.

Main results:

* `Algebra.IsPolynomial.rel` — related arguments have related values;
* `Algebra.exists_polynomial_of_mem_subpower`, `Algebra.IsPolynomial.valueTuple_mem` — what tuples
  and the constant tuples generate;
* `Algebra.mem_sgPair_iff_exists`, `Algebra.IsPolynomial.table_mem` — the pairs and the tables of a pair;
* `Algebra.IsLeastCongruence.le_of_images` — **a congruence generated by a pair is generated by the
  images of the pair, as an equivalence relation**.
-/

import UniversalAlgebra.Proofs.TypeFinder.Tables

set_option autoImplicit false

namespace UniversalAlgebra.Algebra

variable {A : Algebra} {ι κ : Type} {k : ℕ}

/-- The operation is composed of variables, constants and operations of the algebra. -/
inductive IsPolynomial (A : Algebra) (ι : Type) : ((ι → ℕ) → ℕ) → Prop
  | const (x : ℕ) (hx : x < A.size) : IsPolynomial A ι fun _ => x
  | var (i : ι) : IsPolynomial A ι fun v => v i
  | apply (op : Operation) (hop : op ∈ A.operations) (fs : List ((ι → ℕ) → ℕ))
      (hlen : fs.length = op.arity) (hfs : ∀ f ∈ fs, IsPolynomial A ι f) :
      IsPolynomial A ι fun v => op.value (fs.map fun f => f v)

namespace IsPolynomial

variable {f : (ι → ℕ) → ℕ} {u v : ι → ℕ}

/-- The values at elements are elements. -/
theorem value_lt (hA : A.Total) (hf : A.IsPolynomial ι f) (hv : ∀ i, v i < A.size) :
    f v < A.size := by
  induction hf with
  | const x hx => exact hx
  | var i => exact hv i
  | apply op hop fs hlen _ ih =>
      refine hA.value_lt hop (by simpa using hlen) ?_
      intro x hx
      obtain ⟨g, hg, rfl⟩ := List.mem_map.1 hx
      exact ih g hg

/-- Related arguments have related values. -/
theorem rel (hA : A.Total) {s : Setoid ℕ} (hs : A.Compatible s) (hf : A.IsPolynomial ι f)
    (hu : ∀ i, u i < A.size) (hv : ∀ i, v i < A.size) (huv : ∀ i, s (u i) (v i)) :
    s (f u) (f v) := by
  induction hf with
  | const x _ => exact s.refl x
  | var i => exact huv i
  | apply op hop fs hlen hfs ih =>
      have hlt {w : ι → ℕ} (hw : ∀ i, w i < A.size) : ∀ x ∈ fs.map (fun g => g w), x < A.size := by
        intro x hx
        obtain ⟨g, hg, rfl⟩ := List.mem_map.1 hx
        exact (hfs g hg).value_lt hA hw
      refine hs op hop _ _ (by simpa using hlen) (hlt hu) (hlt hv) ?_
      rw [List.forall₂_map_left_iff, List.forall₂_map_right_iff, List.forall₂_same]
      exact ih

/-- Polynomials can be composed. -/
theorem comp {g : ι → (κ → ℕ) → ℕ} (hf : A.IsPolynomial ι f)
    (hg : ∀ i, A.IsPolynomial κ (g i)) : A.IsPolynomial κ fun v => f fun i => g i v := by
  induction hf with
  | const x hx => exact .const x hx
  | var i => exact hg i
  | apply op hop fs hlen _ ih =>
      have h := IsPolynomial.apply op hop (fs.map fun h v => h fun i => g i v) (by simpa using hlen)
        (by simpa using ih)
      simpa only [List.map_map, Function.comp_def] using h

end IsPolynomial

/-! ### Values of tuples -/

/-- The values of an operation at the first `k` coordinates of some tuples. -/
def valueTuple (k : ℕ) (f : (ι → ℕ) → ℕ) (r : ι → List ℕ) : List ℕ :=
  (List.range k).map fun j => f fun i => (r i).getD j 0

theorem valueTuple_const (x : ℕ) (r : ι → List ℕ) :
    valueTuple k (fun _ => x) r = List.replicate k x := by
  simp [valueTuple, List.map_const']

theorem valueTuple_var {r : ι → List ℕ} {i : ι} (hlen : (r i).length = k) :
    valueTuple k (fun v => v i) r = r i := by
  refine List.ext_getElem (by simp [valueTuple, hlen]) ?_
  intro j hj hj'
  simp [valueTuple, List.getElem?_eq_getElem hj']

/-- Operations of values are taken column by column. -/
theorem valueTuple_apply (op : Operation) (fs : List ((ι → ℕ) → ℕ)) (r : ι → List ℕ) :
    valueTuple k (fun v => op.value (fs.map fun f => f v)) r
      = op.columns k (fs.map fun f => valueTuple k f r) := by
  rw [valueTuple, Operation.columns]
  refine List.map_congr_left fun j hj => ?_
  rw [List.mem_range] at hj
  rw [List.map_map]
  refine congrArg op.value (List.map_congr_left fun f _ => ?_)
  simp [valueTuple, hj]

/-- A closed set with all constant tuples has the values of polynomials at its tuples. -/
theorem IsPolynomial.valueTuple_mem {S : Set (List ℕ)} {f : (ι → ℕ) → ℕ} {r : ι → List ℕ}
    (hf : A.IsPolynomial ι f) (hS : A.IsSubpower k S)
    (hdiagonal : ∀ x < A.size, List.replicate k x ∈ S) (hr : ∀ i, r i ∈ S) :
    valueTuple k f r ∈ S := by
  induction hf with
  | const x hx =>
      rw [valueTuple_const]
      exact hdiagonal x hx
  | var i =>
      rw [valueTuple_var (hS.subset_tuples (hr i)).1]
      exact hr i
  | apply op hop fs hlen _ ih =>
      rw [valueTuple_apply]
      refine hS.columns_mem op hop _ (by simpa using hlen) ?_
      intro row hrow
      obtain ⟨g, hg, rfl⟩ := List.mem_map.1 hrow
      exact ih g hg

/-- What tuples generate together with constant tuples are values of polynomials at the tuples. -/
theorem exists_polynomial_of_mem_subpower (hA : A.Total) {G : Set (List ℕ)} {r : ι → List ℕ}
    (hr : ∀ i, r i ∈ A.tuples k)
    (hG : ∀ t ∈ G, (∃ i, t = r i) ∨ ∃ x < A.size, t = List.replicate k x) {t : List ℕ}
    (ht : t ∈ A.subpower k G) : ∃ f, A.IsPolynomial ι f ∧ t = valueTuple k f r := by
  have hclosed : A.IsSubpower k {t | ∃ f, A.IsPolynomial ι f ∧ t = valueTuple k f r} := by
    constructor
    · rintro t ⟨f, hf, rfl⟩
      refine hf.valueTuple_mem (hA.isSubpower_tuples k) ?_ hr
      intro x hx
      exact ⟨List.length_replicate, fun y hy => List.eq_of_mem_replicate hy ▸ hx⟩
    · intro op hop rows hlen hrows
      choose! f hf hrow using hrows
      refine ⟨_, .apply op hop (rows.map f) (by simpa using hlen) (by simpa using hf), ?_⟩
      rw [valueTuple_apply, List.map_map]
      exact congrArg (op.columns k) ((List.map_id rows).symm.trans (List.map_congr_left hrow))
  refine Set.mem_sInter.1 ht _ ⟨hclosed, ?_⟩
  intro t ht
  rcases hG t ht with ⟨i, rfl⟩ | ⟨x, hx, rfl⟩
  · exact ⟨_, .var i, (valueTuple_var (hr i).1).symm⟩
  · exact ⟨_, .const x hx, (valueTuple_const x r).symm⟩

/-! ### Images and tables of a pair -/

/-- The pairs that a pair generates are its images under the unary polynomials. -/
theorem mem_sgPair_iff_exists (hA : A.Total) {p q : ℕ × ℕ} (hp : A.IsPair p) :
    q ∈ A.sgPair p ↔
      ∃ f, A.IsPolynomial Unit f ∧ (f fun _ => p.1) = q.1 ∧ (f fun _ => p.2) = q.2 := by
  obtain ⟨⟨hclosed, hseed⟩, -⟩ := hA.isLeast_subpower_pairSeed hp
  have htuple (f : (Unit → ℕ) → ℕ) :
      valueTuple 2 f (fun _ => [p.1, p.2]) = [f fun _ => p.1, f fun _ => p.2] := rfl
  constructor
  · intro hq
    obtain ⟨f, hf, heq⟩ := exists_polynomial_of_mem_subpower hA (r := fun _ : Unit => [p.1, p.2])
      (fun _ => pairSeed_subset hp (Or.inl rfl)) (fun t ht => ht.imp (fun h => ⟨(), h⟩) id) hq
    rw [htuple] at heq
    obtain ⟨h₁, h₂⟩ : q.1 = _ ∧ q.2 = _ := by simpa using heq
    exact ⟨f, hf, h₁.symm, h₂.symm⟩
  · rintro ⟨f, hf, h₁, h₂⟩
    have hmem := hf.valueTuple_mem (r := fun _ : Unit => [p.1, p.2]) hclosed
      (fun x hx => hseed (Or.inr ⟨x, hx, rfl⟩)) fun _ => hseed (Or.inl rfl)
    rw [htuple, h₁, h₂] at hmem
    exact hmem

/-- The table of a binary polynomial on a pair. -/
theorem IsPolynomial.table_mem (hA : A.Total) {c d : ℕ} (hp : A.IsPair (c, d))
    {f : (Bool → ℕ) → ℕ} (hf : A.IsPolynomial Bool f) :
    [f fun b => bif b then c else c, f fun b => bif b then d else c, f fun b => bif b then c else d,
      f fun b => bif b then d else d] ∈ A.tables c d := by
  obtain ⟨⟨hclosed, hseed⟩, -⟩ := hA.isLeast_tables hp
  have hmem := hf.valueTuple_mem (r := fun b : Bool => bif b then [c, d, c, d] else [c, c, d, d])
    hclosed (fun x hx => hseed (Or.inl ⟨x, hx, rfl⟩)) ?_
  · have hentry (j : ℕ) : (fun b : Bool => (bif b then [c, d, c, d] else [c, c, d, d]).getD j 0)
        = fun b => bif b then [c, d, c, d].getD j 0 else [c, c, d, d].getD j 0 := by
      funext b
      cases b <;> rfl
    simp only [valueTuple, hentry] at hmem
    exact hmem
  · intro b
    cases b with
    | false => exact hseed (Or.inr (Or.inl rfl))
    | true => exact hseed (Or.inr (Or.inr rfl))

/-! ### The congruence that a pair generates -/

/-- **A congruence generated by a pair is generated by the images of the pair, as an equivalence
relation.**  Moving an image through one argument of an operation leads to an image. -/
theorem IsLeastCongruence.le_of_images {c d : ℕ} {p : Partition} (hA : A.Total)
    (hp : A.IsLeastCongruence (fun x y => x = c ∧ y = d) p) (hc : c < A.size) (hd : d < A.size)
    {s : Setoid ℕ} (hs : ∀ f, A.IsPolynomial Unit f → s (f fun _ => c) (f fun _ => d)) :
    p.setoid ≤ s := by
  let R (x y : ℕ) : Prop := ∃ f, A.IsPolynomial Unit f ∧ (f fun _ => c) = x ∧ (f fun _ => d) = y
  have hleast : IsLeast {t : Setoid ℕ | ∀ x y, R x y → t x y}
      (sInf {t : Setoid ℕ | ∀ x y, R x y → t x y}) := by
    refine ⟨fun x y hxy t ht => ht x y hxy, fun t ht => sInf_le ht⟩
  have hlt (x y : ℕ) (hxy : R x y) : x < A.size ∧ y < A.size := by
    obtain ⟨f, hf, rfl, rfl⟩ := hxy
    exact ⟨hf.value_lt hA fun _ => hc, hf.value_lt hA fun _ => hd⟩
  have hcompatible : A.Compatible (sInf {t : Setoid ℕ | ∀ x y, R x y → t x y}) := by
    refine compatible_of_translations hlt hleast ?_
    rintro op hop before after x y ⟨f, hf, rfl, rfl⟩ hlen hargs
    refine hleast.1 _ _ ⟨_, .apply op hop (before.map (fun z _ => z) ++ f :: after.map fun z _ => z)
      (by simpa using hlen) ?_, ?_, ?_⟩
    · intro g hg
      simp only [List.mem_append, List.mem_cons, List.mem_map] at hg
      rcases hg with ⟨z, hz, rfl⟩ | rfl | ⟨z, hz, rfl⟩
      · exact .const z (hargs z (by simp [hz]))
      · exact hf
      · exact .const z (hargs z (by simp [hz]))
    · simp [Function.comp_def]
    · simp [Function.comp_def]
  refine (hp.le hcompatible ?_).trans (hleast.2 ?_)
  · rintro x y ⟨rfl, rfl⟩
    exact hleast.1 _ _ ⟨_, .var (), rfl, rfl⟩
  · rintro x y ⟨f, hf, rfl, rfl⟩
    exact hs f hf

end UniversalAlgebra.Algebra
