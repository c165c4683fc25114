/-
**Polynomials on the blocks of a congruence.**

A polynomial of an algebra acts on the blocks of a congruence, each of which is held as its least
element.  A subtrace of a congruence over its lower cover is a minimal pair of this clone.  A matrix
is a polynomial at four choices of its arguments, so that the term condition of the clone is about
matrices: if no table of the subtrace looks like a join or like a meet, the second row of a matrix is
related if the first one is.

Main definitions:

* `Algebra.Block`, `Algebra.IsCongruence.block` — the blocks, and the block of an element;
* `Algebra.IsCongruence.blockClone` — the polynomials on the blocks;
* `Algebra.IsSubtrace` — subtraces of a congruence over a lower one.

Main results:

* `Algebra.IsSubtrace.minimalPair` — subtraces are minimal pairs of blocks;
* `Algebra.IsSubtrace.termCondition` — **without joins and meets polynomials satisfy the term
  condition**;
* `Algebra.exists_polynomial_of_mem_matrices` — a matrix is a polynomial at four choices of its
  arguments;
* `Algebra.IsSubtrace.rows_related` — **without joins and meets the rows of a matrix are related
  together**.
-/

import UniversalAlgebra.Proofs.CongruenceLattice.Matrices
import UniversalAlgebra.Proofs.Polynomial.Minimal
import UniversalAlgebra.Proofs.Polynomial.Operations
import UniversalAlgebra.Proofs.TypeFinder.Subtraces

set_option autoImplicit false

namespace UniversalAlgebra.Algebra

variable {A : Algebra} {alpha beta : Partition} {ι : Type} {c d x y : ℕ}

/-! ### Blocks -/

/-- The least elements of the blocks. -/
def Block (alpha : Partition) : Type := {r // r ∈ alpha.representatives}

instance : Finite (Block alpha) := inferInstanceAs (Finite {r // r ∈ alpha.representatives})

namespace IsCongruence

/-- The block of an element. -/
def block (halpha : A.IsCongruence alpha) (hA : A.Total) (x : ℕ) : Block alpha :=
  ⟨alpha.rep (x % A.size), by
    have hlt : x % A.size < alpha.size := by
      rw [halpha.size_eq]
      exact Nat.mod_lt x hA.size_pos
    exact Partition.mem_representatives.2 ⟨halpha.valid.rep_lt hlt, halpha.valid.rep_rep_eq _⟩⟩

variable (halpha : A.IsCongruence alpha) (hA : A.Total)

theorem val_block (hx : x < A.size) : (halpha.block hA x).val = alpha.rep x :=
  congrArg alpha.rep (Nat.mod_eq_of_lt hx)

theorem rel_val_block (hx : x < A.size) : alpha.setoid (halpha.block hA x).val x := by
  rw [halpha.val_block hA hx]
  exact halpha.valid.rep_rep_eq x

include halpha in
theorem val_lt (b : Block alpha) : b.val < A.size :=
  halpha.size_eq ▸ (Partition.mem_representatives.1 b.2).1

theorem block_val (b : Block alpha) : halpha.block hA b.val = b := by
  refine Subtype.ext ?_
  rw [halpha.val_block hA (halpha.val_lt b)]
  exact (Partition.mem_representatives.1 b.2).2

theorem block_eq_iff (hx : x < A.size) (hy : y < A.size) :
    halpha.block hA x = halpha.block hA y ↔ alpha.setoid x y := by
  have hval : halpha.block hA x = halpha.block hA y ↔
      (halpha.block hA x).val = (halpha.block hA y).val := Subtype.ext_iff
  rw [hval, halpha.val_block hA hx, halpha.val_block hA hy, Partition.setoid_iff]

/-- Replacing arguments by the least elements of their blocks does not change the block of the
value. -/
theorem block_polynomial {f : (ι → ℕ) → ℕ} (hf : A.IsPolynomial ι f) {v : ι → ℕ}
    (hv : ∀ i, v i < A.size) :
    halpha.block hA (f fun i => (halpha.block hA (v i)).val) = halpha.block hA (f v) := by
  have hlt (i : ι) : (halpha.block hA (v i)).val < A.size := halpha.val_lt _
  rw [halpha.block_eq_iff hA (hf.value_lt hA hlt) (hf.value_lt hA hv)]
  exact hf.rel hA halpha.compatible hlt hv fun i => halpha.rel_val_block hA (hv i)

/-- The polynomials of the algebra on the blocks. -/
def blockClone : PolynomialClone (Block alpha) where
  mem f := ∃ g, A.IsPolynomial _ g ∧ ∀ v, f v = halpha.block hA (g fun i => (v i).val)
  const _ b := ⟨_, .const b.val (halpha.val_lt b), fun _ => (halpha.block_val hA b).symm⟩
  proj i := ⟨_, .var i, fun v => (halpha.block_val hA (v i)).symm⟩
  comp := by
    rintro ι κ f g ⟨f', hf', hf⟩ hg
    choose g' hg' hg using hg
    refine ⟨_, hf'.comp hg', fun v => ?_⟩
    simp only [hf, hg]
    exact halpha.block_polynomial hA hf' fun i => (hg' i).value_lt hA fun j => halpha.val_lt (v j)

theorem mem_blockClone {f : (ι → ℕ) → ℕ} (hf : A.IsPolynomial ι f) :
    (halpha.blockClone hA).mem fun v : ι → Block alpha => halpha.block hA (f fun i => (v i).val) :=
  ⟨f, hf, fun _ => rfl⟩

theorem unary_blockClone {f : (Unit → ℕ) → ℕ} (hf : A.IsPolynomial Unit f) :
    (halpha.blockClone hA).Unary fun b => halpha.block hA (f fun _ => b.val) :=
  halpha.mem_blockClone hA hf

/-- A unary polynomial on the blocks comes from one on the elements. -/
theorem exists_of_unary {f : Block alpha → Block alpha} (hf : (halpha.blockClone hA).Unary f) :
    ∃ g, A.IsPolynomial Unit g ∧
      ∀ x < A.size, f (halpha.block hA x) = halpha.block hA (g fun _ => x) := by
  obtain ⟨g, hg, hfg⟩ := hf
  refine ⟨g, hg, fun x hx => ?_⟩
  exact (hfg fun _ => halpha.block hA x).trans (halpha.block_polynomial hA hg fun _ => hx)

/-- So does a binary one. -/
theorem exists_of_binary {p : Block alpha → Block alpha → Block alpha}
    (hp : (halpha.blockClone hA).Binary p) :
    ∃ g, A.IsPolynomial Bool g ∧ ∀ x < A.size, ∀ y < A.size,
      p (halpha.block hA x) (halpha.block hA y) = halpha.block hA (g fun b => bif b then y else x) := by
  obtain ⟨g, hg, hpg⟩ := hp
  refine ⟨g, hg, fun x hx y hy => ?_⟩
  have hlt (b : Bool) : (bif b then y else x) < A.size := by
    cases b <;> assumption
  rw [← halpha.block_polynomial hA hg hlt]
  refine (hpg fun b => bif b then halpha.block hA y else halpha.block hA x).trans ?_
  refine congrArg (fun v => halpha.block hA (g v)) (funext fun b => ?_)
  cases b <;> rfl

/-- The block of a value at two groups of arguments. -/
theorem block_sum_elim {I J : Type} {f : (I ⊕ J → ℕ) → ℕ} (hf : A.IsPolynomial _ f) {a : I → ℕ}
    {u : J → ℕ} (ha : ∀ i, a i < A.size) (hu : ∀ j, u j < A.size) :
    halpha.block hA (f fun k => (Sum.elim (fun i => halpha.block hA (a i))
      (fun j => halpha.block hA (u j)) k).val) = halpha.block hA (f (Sum.elim a u)) := by
  rw [← halpha.block_polynomial hA hf (v := Sum.elim a u) (Sum.forall.2 ⟨ha, hu⟩)]
  refine congrArg (fun v => halpha.block hA (f v)) (funext fun k => ?_)
  cases k <;> rfl

/-- Without tables like joins or meets, no table of blocks has just one constant row. -/
theorem plain_blockClone (hp : A.IsPair (c, d)) (hjoin : ¬ A.HasTable c d (JoinLike alpha.setoid))
    (hmeet : ¬ A.HasTable c d (MeetLike alpha.setoid)) :
    (halpha.blockClone hA).Plain (halpha.block hA c) (halpha.block hA d) := by
  intro p hbinary
  obtain ⟨f, hf, hpf⟩ := halpha.exists_of_binary hA hbinary
  obtain ⟨hc, hd⟩ := hp
  have hlt {x y : ℕ} (hx : x < A.size) (hy : y < A.size) : (f fun b => bif b then y else x) < A.size :=
    hf.value_lt hA fun b => by cases b <;> assumption
  have htable := hf.table_mem hA (c := c) (d := d) ⟨hc, hd⟩
  rw [hpf c hc c hc, hpf c hc d hd, hpf d hd c hc, hpf d hd d hd,
    halpha.block_eq_iff hA (hlt hc hc) (hlt hc hd), halpha.block_eq_iff hA (hlt hd hc) (hlt hd hd)]
  constructor
  · intro hfirst
    by_contra hsecond
    exact hmeet ⟨_, _, _, _, htable, Or.inl ⟨hfirst, hsecond⟩⟩
  · intro hsecond
    by_contra hfirst
    exact hjoin ⟨_, _, _, _, htable, Or.inl ⟨hfirst, hsecond⟩⟩

end IsCongruence

/-! ### Subtraces -/

/-- A subtrace of `beta` over `alpha`: a pair that is minimal over `alpha` and related by `beta` only,
where `beta` is generated by each pair that it relates and `alpha` does not. -/
structure IsSubtrace (A : Algebra) (alpha beta : Partition) (c d : ℕ) : Prop where
  lower : A.IsCongruence alpha
  upper : A.IsCongruence beta
  le : alpha.setoid ≤ beta.setoid
  isPair : A.IsPair (c, d)
  rel : beta.setoid c d
  not_rel : ¬ alpha.setoid c d
  minimal : A.IsMinimal alpha (c, d)
  generates : ∀ a < A.size, ∀ b < A.size, beta.setoid a b → ¬ alpha.setoid a b →
    A.IsLeastCongruence (fun x y => x = a ∧ y = b) beta

namespace IsSubtrace

variable (h : A.IsSubtrace alpha beta c d) (hA : A.Total)

include h hA

/-- The upper congruence relates the least elements of the blocks of related elements. -/
theorem rel_blocks (hx : x < A.size) (hy : y < A.size) (hxy : beta.setoid x y) :
    beta.setoid (h.lower.block hA x).val (h.lower.block hA y).val :=
  beta.setoid.trans (h.le (h.lower.rel_val_block hA hx))
    (beta.setoid.trans hxy (beta.setoid.symm (h.le (h.lower.rel_val_block hA hy))))

/-- Polynomials on the blocks send related blocks to related ones. -/
theorem rel_of_unary {f : Block alpha → Block alpha} (hf : (h.lower.blockClone hA).Unary f)
    {a b : Block alpha} (hab : beta.setoid a.val b.val) : beta.setoid (f a).val (f b).val := by
  obtain ⟨g, hg, hfg⟩ := h.lower.exists_of_unary hA hf
  have ha := h.lower.val_lt a
  have hb := h.lower.val_lt b
  rw [← h.lower.block_val hA a, ← h.lower.block_val hA b, hfg _ ha, hfg _ hb]
  exact h.rel_blocks hA (hg.value_lt hA fun _ => ha) (hg.value_lt hA fun _ => hb)
    (hg.rel hA h.upper.compatible (fun _ => ha) (fun _ => hb) fun _ => hab)

/-- A polynomial that keeps the blocks of the pair apart can be undone on them: the image of the pair
generates the pair. -/
theorem exists_undo {f : Block alpha → Block alpha} (hf : (h.lower.blockClone hA).Unary f)
    (hne : f (h.lower.block hA c) ≠ f (h.lower.block hA d)) :
    ∃ g, (h.lower.blockClone hA).Unary g ∧ g (f (h.lower.block hA c)) = h.lower.block hA c ∧
      g (f (h.lower.block hA d)) = h.lower.block hA d := by
  obtain ⟨hc, hd⟩ := h.isPair
  obtain ⟨g, hg, hfg⟩ := h.lower.exists_of_unary hA hf
  have hgc : (g fun _ => c) < A.size := hg.value_lt hA fun _ => hc
  have hgd : (g fun _ => d) < A.size := hg.value_lt hA fun _ => hd
  rw [hfg c hc, hfg d hd] at hne ⊢
  rw [Ne, h.lower.block_eq_iff hA hgc hgd] at hne
  have himage : (g fun _ => c, g fun _ => d) ∈ A.sgPair (c, d) :=
    (mem_sgPair_iff_exists hA h.isPair).2 ⟨g, hg, rfl, rfl⟩
  obtain ⟨f', hf', hback, hback'⟩ := (mem_sgPair_iff_exists hA ⟨hgc, hgd⟩).1
    (h.minimal.mem_sgPair hA h.isPair himage hne)
  refine ⟨_, h.lower.unary_blockClone hA hf', ?_, ?_⟩
  · exact (h.lower.block_polynomial hA hf' fun _ => hgc).trans (congrArg (h.lower.block hA) hback)
  · exact (h.lower.block_polynomial hA hf' fun _ => hgd).trans (congrArg (h.lower.block hA) hback')

/-- An equivalence relation that relates all images of two related blocks relates all related
blocks. -/
theorem rel_of_images {a b : Block alpha} (hab : beta.setoid a.val b.val) (hne : a ≠ b)
    {s : Setoid (Block alpha)} (hs : ∀ f, (h.lower.blockClone hA).Unary f → s (f a) (f b))
    {a' b' : Block alpha} (hab' : beta.setoid a'.val b'.val) : s a' b' := by
  have ha := h.lower.val_lt a
  have hb := h.lower.val_lt b
  have hnot : ¬ alpha.setoid a.val b.val := by
    rwa [← h.lower.block_eq_iff hA ha hb, h.lower.block_val, h.lower.block_val]
  have hle := (h.generates _ ha _ hb hab hnot).le_of_images hA ha hb
    (s := s.comap (h.lower.block hA)) fun f hf => hs _ (h.lower.unary_blockClone hA hf)
  have hrelated : s (h.lower.block hA a'.val) (h.lower.block hA b'.val) := hle hab'
  rwa [h.lower.block_val, h.lower.block_val] at hrelated

/-- A subtrace is a minimal pair of blocks. -/
theorem minimalPair : (h.lower.blockClone hA).MinimalPair (beta.setoid.comap Subtype.val)
    (h.lower.block hA c) (h.lower.block hA d) where
  rel := h.rel_blocks hA h.isPair.1 h.isPair.2 h.rel
  ne := by
    rw [Ne, h.lower.block_eq_iff hA h.isPair.1 h.isPair.2]
    exact h.not_rel
  preserves hf _ _ hxy := h.rel_of_unary hA hf hxy
  returns hf hne := h.exists_undo hA hf hne
  generates hxy hne _ hs _ _ hab := h.rel_of_images hA hxy hne hs hab

/-- **Without tables like joins and meets, polynomials satisfy the term condition.**  If a polynomial
has related values at two rows of arguments, it has so as well after the other arguments have been
exchanged. -/
theorem termCondition (hjoin : ¬ A.HasTable c d (JoinLike alpha.setoid))
    (hmeet : ¬ A.HasTable c d (MeetLike alpha.setoid)) {I J : Type} [Finite I] [Finite J]
    {f : (I ⊕ J → ℕ) → ℕ} (hf : A.IsPolynomial _ f) {a b : I → ℕ} {u v : J → ℕ}
    (ha : ∀ i, a i < A.size) (hb : ∀ i, b i < A.size) (hu : ∀ j, u j < A.size)
    (hv : ∀ j, v j < A.size) (hab : ∀ i, beta.setoid (a i) (b i))
    (huv : ∀ j, beta.setoid (u j) (v j))
    (heq : alpha.setoid (f (Sum.elim a u)) (f (Sum.elim a v))) :
    alpha.setoid (f (Sum.elim b u)) (f (Sum.elim b v)) := by
  have hlt {a : I → ℕ} {u : J → ℕ} (ha : ∀ i, a i < A.size) (hu : ∀ j, u j < A.size) :
      f (Sum.elim a u) < A.size := hf.value_lt hA (Sum.forall.2 ⟨ha, hu⟩)
  rw [← h.lower.block_eq_iff hA (hlt ha hu) (hlt ha hv), ← h.lower.block_sum_elim hA hf ha hu,
    ← h.lower.block_sum_elim hA hf ha hv] at heq
  rw [← h.lower.block_eq_iff hA (hlt hb hu) (hlt hb hv), ← h.lower.block_sum_elim hA hf hb hu,
    ← h.lower.block_sum_elim hA hf hb hv]
  exact (h.minimalPair hA).central (h.lower.plain_blockClone hA h.isPair hjoin hmeet)
    (h.lower.mem_blockClone hA hf) (fun i => h.rel_blocks hA (ha i) (hb i) (hab i))
    (fun j => h.rel_blocks hA (hu j) (hv j) (huv j)) heq

end IsSubtrace

/-! ### Matrices -/

section Matrices

variable {S T : Relation}

/-- A matrix is a polynomial, with one variable for each pair of the two relations, at four choices
of one component of each pair. -/
theorem exists_polynomial_of_mem_matrices (hA : A.Total) (hS : S.IsOver A.size)
    (hT : T.IsOver A.size) {u v : ℕ}
    (hmem : [x, y, u, v] ∈ A.subpower 4 (CongruenceLattice.matrixSeed S T)) :
    ∃ f : ({p // p ∈ S.pairs} ⊕ {p // p ∈ T.pairs} → ℕ) → ℕ, A.IsPolynomial _ f ∧
      x = f (Sum.elim (fun i => i.1.1) fun j => j.1.1) ∧
      y = f (Sum.elim (fun i => i.1.1) fun j => j.1.2) ∧
      u = f (Sum.elim (fun i => i.1.2) fun j => j.1.1) ∧
      v = f (Sum.elim (fun i => i.1.2) fun j => j.1.2) := by
  let row (k : {p // p ∈ S.pairs} ⊕ {p // p ∈ T.pairs}) : List ℕ :=
    k.elim (fun i => [i.1.1, i.1.1, i.1.2, i.1.2]) fun j => [j.1.1, j.1.2, j.1.1, j.1.2]
  have hrow (k : {p // p ∈ S.pairs} ⊕ {p // p ∈ T.pairs}) : row k ∈ A.tuples 4 := by
    refine CongruenceLattice.matrixSeed_subset hS hT ?_
    cases k with
    | inl i => exact Or.inl ⟨i.1, i.2, rfl⟩
    | inr j => exact Or.inr ⟨j.1, j.2, rfl⟩
  have hgenerator : ∀ t ∈ CongruenceLattice.matrixSeed S T, ∃ k, t = row k := by
    rintro t (⟨p, hp, rfl⟩ | ⟨p, hp, rfl⟩)
    · exact ⟨.inl ⟨p, hp⟩, rfl⟩
    · exact ⟨.inr ⟨p, hp⟩, rfl⟩
  obtain ⟨f, hf, heq⟩ := exists_polynomial_of_mem_subpower hA hrow
    (fun t ht => Or.inl (hgenerator t ht)) hmem
  have hentry (n : ℕ) (q q' : ℕ × ℕ → ℕ) (hleft : ∀ i, (row (.inl i)).getD n 0 = q i.1)
      (hright : ∀ j, (row (.inr j)).getD n 0 = q' j.1) :
      (f fun k => (row k).getD n 0) = f (Sum.elim (fun i => q i.1) fun j => q' j.1) := by
    refine congrArg f (funext fun k => ?_)
    cases k with
    | inl i => exact hleft i
    | inr j => exact hright j
  obtain ⟨rfl, rfl, rfl, rfl⟩ : x = (f fun k => (row k).getD 0 0) ∧
      y = (f fun k => (row k).getD 1 0) ∧ u = (f fun k => (row k).getD 2 0) ∧
      v = (f fun k => (row k).getD 3 0) := by
    simpa [valueTuple, List.range_succ] using heq
  exact ⟨f, hf, hentry 0 Prod.fst Prod.fst (fun _ => rfl) fun _ => rfl,
    hentry 1 Prod.fst Prod.snd (fun _ => rfl) fun _ => rfl,
    hentry 2 Prod.snd Prod.fst (fun _ => rfl) fun _ => rfl,
    hentry 3 Prod.snd Prod.snd (fun _ => rfl) fun _ => rfl⟩

/-- **Without tables like joins and meets the rows of a matrix are related together.** -/
theorem IsSubtrace.rows_related (h : A.IsSubtrace alpha beta c d) (hA : A.Total)
    (hjoin : ¬ A.HasTable c d (JoinLike alpha.setoid))
    (hmeet : ¬ A.HasTable c d (MeetLike alpha.setoid)) (hS : S.IsOver A.size)
    (hT : T.IsOver A.size) (hSbeta : ∀ p ∈ S.pairs, beta.setoid p.1 p.2)
    (hTbeta : ∀ p ∈ T.pairs, beta.setoid p.1 p.2) {u v : ℕ}
    (hmem : [x, y, u, v] ∈ A.subpower 4 (CongruenceLattice.matrixSeed S T))
    (hrow : alpha.setoid x y) : alpha.setoid u v := by
  obtain ⟨f, hf, rfl, rfl, rfl, rfl⟩ := exists_polynomial_of_mem_matrices hA hS hT hmem
  exact h.termCondition hA hjoin hmeet hf (fun i => (hS.lt i.1 i.2).1) (fun i => (hS.lt i.1 i.2).2)
    (fun j => (hT.lt j.1 j.2).1) (fun j => (hT.lt j.1 j.2).2) (fun i => hSbeta i.1 i.2)
    (fun j => hTbeta j.1 j.2) hrow

end Matrices

end UniversalAlgebra.Algebra
