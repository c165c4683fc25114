/-
**Direct products.**

The elements of a product are the pairs of elements, each numbered once, row by row.  Its operations take
the number of each argument apart, apply the factors and put the two values together again; in the
numbers that occur nothing overflows.  So both coordinates commute with the operations, and they do so
after the operations were tabulated.  The product of total algebras is total again, so that all of this
holds for products of products.

Main definitions:

* `Algebra.SameArities` — the algebras that have a product;
* `Operation.SameValues` — operations of one arity that give the same at all elements;
* `Operation.Commutes`, `Algebra.IsHomOnto` — maps of elements that commute with operations.

Main results:

* `Algebra.bijOn_pairs` — the pairs of elements are numbered once each;
* `Algebra.apply_onPairs` — an operation of a product works coordinate by coordinate;
* `Algebra.sameArities_of_productOperations` — factors of other arities are refused;
* `Algebra.product_exact` — **the product has its universe of pairs, and both coordinates are
  homomorphisms onto the factors**.
-/

import UniversalAlgebra.Algebra.Product
import UniversalAlgebra.Proofs.Operation.Tables

set_option autoImplicit false

namespace UniversalAlgebra

open Fallible

/-! ### Operations with the same values -/

namespace Operation

variable {op op' op'' : Operation}

/-- The operations have one arity and one universe, and give the same at all elements. -/
structure SameValues (op op' : Operation) : Prop where
  arity_eq : op'.arity = op.arity
  universeSize_eq : op'.universeSize = op.universeSize
  apply_eq : ∀ args : List ℕ, args.length = op.arity → (∀ x ∈ args, x < op.universeSize) →
    op'.apply args = op.apply args

theorem SameValues.refl (op : Operation) : op.SameValues op := ⟨rfl, rfl, fun _ _ _ => rfl⟩

theorem SameValues.trans (h : op.SameValues op') (h' : op'.SameValues op'') : op.SameValues op'' where
  arity_eq := h'.arity_eq.trans h.arity_eq
  universeSize_eq := h'.universeSize_eq.trans h.universeSize_eq
  apply_eq := fun args hlen hargs =>
    (h'.apply_eq args (hlen.trans h.arity_eq.symm) fun x hx => h.universeSize_eq ▸ hargs x hx).trans
      (h.apply_eq args hlen hargs)

theorem SameValues.trans_all {ops ops' ops'' : List Operation} (h : List.Forall₂ SameValues ops ops')
    (h' : List.Forall₂ SameValues ops' ops'') : List.Forall₂ SameValues ops ops'' := by
  induction h generalizing ops'' with
  | nil =>
      cases h'
      exact .nil
  | cons hop _ ih =>
      cases h' with
      | cons hop' hrest => exact .cons (hop.trans hop') (ih hrest)

theorem sameValues_of_tabulate (h : op.tabulate = .ok op') : op.SameValues op' := by
  obtain ⟨-, harity, hsize⟩ := signature_of_tabulate h
  exact ⟨harity, hsize, fun _ => apply_tabulate h⟩

theorem sameValues_of_prepare (h : Algebra.prepare op = .ok op') : op.SameValues op' := by
  obtain ⟨-, harity, hsize⟩ := Algebra.signature_of_prepare h
  exact ⟨harity, hsize, fun _ => Algebra.apply_of_prepare h⟩

/-- At all tuples over `[0, n)` the map takes the value of the first operation to that of the second
one. -/
def Commutes (n : ℕ) (φ : ℕ → ℕ) (f g : Operation) : Prop :=
  f.arity = g.arity ∧ ∀ args : List ℕ, args.length = f.arity → (∀ x ∈ args, x < n) →
    ∃ v, f.apply args = .ok v ∧ g.apply (args.map φ) = .ok (φ v)

end Operation

namespace Algebra

/-- The map takes the elements of the one algebra to all elements of the other one and commutes with
the operations, which stand in one order. -/
structure IsHomOnto (A B : Algebra) (φ : ℕ → ℕ) : Prop where
  image_eq : φ '' Set.Iio A.size = Set.Iio B.size
  commutes : List.Forall₂ (Operation.Commutes A.size φ) A.operations B.operations

/-- The algebras have equally many operations, of the same arities. -/
def SameArities (A B : Algebra) : Prop :=
  List.Forall₂ (fun f g : Operation => f.arity = g.arity) A.operations B.operations

/-- The algebra is another one of whose operations some were tabulated. -/
def TabulatedFrom (P' P : Algebra) : Prop :=
  P'.size = P.size ∧
    List.Forall₂ (fun op op' => op' = op ∨ op.tabulate = .ok op') P.operations P'.operations

theorem TabulatedFrom.refl (P : Algebra) : P.TabulatedFrom P :=
  ⟨rfl, List.forall₂_same.2 fun _ _ => Or.inl rfl⟩

theorem IsHomOnto.sameArities {A B : Algebra} {φ : ℕ → ℕ} (h : A.IsHomOnto B φ) : A.SameArities B :=
  h.commutes.imp fun _ _ hfg => hfg.1

theorem SameArities.exists_arity {A B : Algebra} (h : A.SameArities B) {f : Operation}
    (hf : f ∈ A.operations) : ∃ g ∈ B.operations, f.arity = g.arity := by
  obtain ⟨hlength, hget⟩ := List.forall₂_iff_get.1 h
  obtain ⟨i, hi, rfl⟩ := List.getElem_of_mem hf
  have hi' := hlength ▸ hi
  exact ⟨_, List.getElem_mem hi', hget i hi hi'⟩

/-! ### Numbers of pairs -/

/-- A pair can be read off its number. -/
theorem invOn_pairs (m n : ℕ) : Set.InvOn (fun x => (x / n, x % n))
    (fun p : ℕ × ℕ => p.1 * n + p.2) (Set.Iio m ×ˢ Set.Iio n) (Set.Iio (m * n)) := by
  constructor
  · rintro ⟨a, b⟩ ⟨-, hb : b < n⟩
    have hn : 0 < n := Nat.zero_lt_of_lt hb
    simp only [Prod.mk.injEq]
    constructor
    · rw [Nat.add_comm, Nat.add_mul_div_right b a hn, Nat.div_eq_of_lt hb, Nat.zero_add]
    · rw [Nat.add_comm, Nat.add_mul_mod_self_right, Nat.mod_eq_of_lt hb]
  · intro x _
    exact Nat.div_add_mod' x n

/-- The number of a pair of elements is below the number of pairs. -/
theorem pair_lt {m n a b : ℕ} (ha : a < m) (hb : b < n) : a * n + b < m * n :=
  calc a * n + b < (a + 1) * n := by rw [Nat.succ_mul]; exact Nat.add_lt_add_left hb _
    _ ≤ m * n := Nat.mul_le_mul_right n ha

/-- The coordinates of an element of a product are elements. -/
theorem coordinates_lt {m n x : ℕ} (hx : x < m * n) : x / n < m ∧ x % n < n := by
  have hn : 0 < n := Nat.pos_of_mul_pos_left (Nat.zero_lt_of_lt hx)
  exact ⟨(Nat.div_lt_iff_lt_mul hn).2 hx, Nat.mod_lt x hn⟩

/-- The pairs of elements are numbered once each. -/
theorem bijOn_pairs (m n : ℕ) : Set.BijOn (fun p : ℕ × ℕ => p.1 * n + p.2)
    (Set.Iio m ×ˢ Set.Iio n) (Set.Iio (m * n)) :=
  (invOn_pairs m n).bijOn (fun _ hp => pair_lt hp.1 hp.2) fun _ hx => coordinates_lt hx

variable {A B P P' : Algebra} {f g : Operation} {fs gs ops : List Operation} {args : List ℕ}

/-! ### The operations of a product -/

/-- The number of pairs fits into 64 bits if it fits into 32. -/
theorem productSize_eq (h : A.size * B.size < 2 ^ 32) : productSize A B = A.size * B.size :=
  Nat.mod_eq_of_lt (h.trans (by decide))

/-- The product of two operations, before it is prepared. -/
def onPairs (A B : Algebra) (f g : Operation) : Operation :=
  ⟨f.name, f.arity, productSize A B, .evaluator (Operation.product f g B.size)⟩

/-- Operations that match in their arities have products, if there are elements to work on. -/
theorem productOperations_eq_ok (h : List.Forall₂ (fun f g : Operation => f.arity = g.arity) fs gs)
    (hpos : 0 < productSize A B) :
    productOperations A B fs gs = .ok (List.zipWith (onPairs A B) fs gs) := by
  induction h with
  | nil => rfl
  | @cons f g fs gs harity _ ih =>
      have hmade : Operation.ofEvaluator f.name f.arity (productSize A B)
          (some (Operation.product f g B.size)) = .ok (onPairs A B f g) := by
        rw [Operation.ofEvaluator.eq_def, if_neg (by omega)]
        rfl
      rw [productOperations, if_neg (not_not_intro harity), hmade, ok_bind, ih]
      rfl

/-- Operations that do not match are refused. -/
theorem sameArities_of_productOperations (hlen : fs.length = gs.length)
    (h : productOperations A B fs gs = .ok ops) :
    List.Forall₂ (fun f g : Operation => f.arity = g.arity) fs gs := by
  induction fs generalizing gs ops with
  | nil =>
      rw [List.length_nil, eq_comm, List.length_eq_zero_iff] at hlen
      subst hlen
      exact .nil
  | cons f fs ih =>
      cases gs with
      | nil => cases hlen
      | cons g gs =>
          rw [productOperations] at h
          by_cases harity : f.arity = g.arity
          · rw [if_neg (not_not_intro harity)] at h
            obtain ⟨op, -, h⟩ := bind_eq_ok.1 h
            obtain ⟨rest, hrest, -⟩ := bind_eq_ok.1 h
            exact .cons harity (ih (Nat.succ.inj hlen) hrest)
          · rw [if_pos harity] at h
            cases h

theorem refusesOnly_ofEvaluator (name : String) (k n : ℕ)
    (eval? : Option (List ℕ → Except Fault ℕ)) :
    RefusesOnly (Operation.ofEvaluator name k n eval?) := by
  rw [Operation.ofEvaluator.eq_def]
  refine .guard rfl fun _ => ?_
  cases eval? with
  | none => exact .error rfl
  | some eval => exact .ok _

theorem refusesOnly_productOperations (A B : Algebra) (fs gs : List Operation) :
    RefusesOnly (productOperations A B fs gs) := by
  induction fs generalizing gs with
  | nil => exact .ok []
  | cons f fs ih =>
      cases gs with
      | nil => exact .ok []
      | cons g gs =>
          rw [productOperations]
          refine .guard rfl fun _ => ?_
          exact .bind (refusesOnly_ofEvaluator _ _ _ _) fun op => .bind (ih gs) fun ops => .ok _

/-- The product of two total operations works coordinate by coordinate. -/
theorem apply_onPairs (hA : A.Total) (hB : B.Total) (hsize : A.size * B.size < 2 ^ 32)
    (hf : f ∈ A.operations) (hg : g ∈ B.operations) (harity : f.arity = g.arity)
    (hlen : args.length = f.arity) (hargs : ∀ x ∈ args, x < A.size * B.size) :
    ∃ a b, a < A.size ∧ b < B.size ∧ f.apply (args.map (· / B.size)) = .ok a ∧
      g.apply (args.map (· % B.size)) = .ok b ∧ (onPairs A B f g).apply args = .ok (a * B.size + b) := by
  have hfirst : ∀ x ∈ args.map (· / B.size), x < A.size := by
    simpa using fun x hx => (coordinates_lt (hargs x hx)).1
  have hsecond : ∀ x ∈ args.map (· % B.size), x < B.size := by
    simpa using fun x hx => (coordinates_lt (hargs x hx)).2
  have hlength (φ : ℕ → ℕ) : (args.map φ).length = f.arity := (args.length_map φ).trans hlen
  have ha := hA.apply_eq hf (hlength (· / B.size)) hfirst
  have hb := hB.apply_eq hg ((hlength (· % B.size)).trans harity) hsecond
  have hlta := hA.value_lt hf (hlength (· / B.size)) hfirst
  have hltb := hB.value_lt hg ((hlength (· % B.size)).trans harity) hsecond
  refine ⟨_, _, hlta, hltb, ha, hb, ?_⟩
  have hlt := pair_lt hlta hltb
  have hword : ∀ x, x < A.size * B.size → x % UInt32.size = x :=
    fun x hx => Nat.mod_eq_of_lt (hx.trans hsize)
  have hlong := productSize_eq hsize
  rw [Operation.apply, onPairs]
  dsimp only
  rw [Operation.product, ha, ok_bind, hb, ok_bind, pure_eq, ok_bind, hword _ hlt, hlong, if_pos hlt]
  rfl

/-- What has the values of the products of operations commutes with both coordinates. -/
theorem commutes_of_sameValues (hA : A.Total) (hB : B.Total) (hsize : A.size * B.size < 2 ^ 32)
    (hsame : List.Forall₂ (fun f g : Operation => f.arity = g.arity) fs gs)
    (hfs : ∀ f ∈ fs, f ∈ A.operations) (hgs : ∀ g ∈ gs, g ∈ B.operations)
    (hvalues : List.Forall₂ Operation.SameValues (List.zipWith (onPairs A B) fs gs) ops) :
    List.Forall₂ (Operation.Commutes (A.size * B.size) (· / B.size)) ops fs ∧
      List.Forall₂ (Operation.Commutes (A.size * B.size) (· % B.size)) ops gs := by
  have hlong := productSize_eq hsize
  induction hsame generalizing ops with
  | nil =>
      cases hvalues
      exact ⟨.nil, .nil⟩
  | @cons f g fs gs harity _ ih =>
      obtain ⟨hf, hfs⟩ := List.forall_mem_cons.1 hfs
      obtain ⟨hg, hgs⟩ := List.forall_mem_cons.1 hgs
      obtain ⟨op, ops, hop, hrest, rfl⟩ := List.forall₂_cons_left_iff.1 hvalues
      obtain ⟨hfirst, hsecond⟩ := ih hfs hgs hrest
      have happly (args : List ℕ) (hlen : args.length = op.arity)
          (hargs : ∀ x ∈ args, x < A.size * B.size) :
          ∃ a b, b < B.size ∧ op.apply args = .ok (a * B.size + b) ∧
            f.apply (args.map (· / B.size)) = .ok a ∧ g.apply (args.map (· % B.size)) = .ok b := by
        have hlen' : args.length = f.arity := hlen.trans hop.arity_eq
        obtain ⟨a, b, -, hb, hfa, hgb, hab⟩ :=
          apply_onPairs hA hB hsize hf hg harity hlen' hargs
        exact ⟨a, b, hb, (hop.apply_eq args hlen' (by rwa [onPairs, hlong])).trans hab, hfa, hgb⟩
      refine ⟨.cons ⟨hop.arity_eq, fun args hlen hargs => ?_⟩ hfirst,
        .cons ⟨hop.arity_eq.trans harity, fun args hlen hargs => ?_⟩ hsecond⟩
      all_goals
        obtain ⟨a, b, hb, hab, hfa, hgb⟩ := happly args hlen hargs
        have hpair := (invOn_pairs (a + 1) B.size).1 (Set.mk_mem_prod (Nat.lt_succ_self a) hb)
      · exact ⟨_, hab, hfa.trans (congrArg _ (congrArg Prod.fst hpair).symm)⟩
      · exact ⟨_, hab, hgb.trans (congrArg _ (congrArg Prod.snd hpair).symm)⟩

/-- The product of total operations is total. -/
theorem total_onPairs (hA : A.Total) (hB : B.Total) (hsize : A.size * B.size < 2 ^ 32)
    (hf : f ∈ A.operations) (hg : g ∈ B.operations) (harity : f.arity = g.arity) :
    (onPairs A B f g).Total := by
  have hlong := productSize_eq hsize
  intro args hlen hargs
  rw [onPairs, hlong] at hargs
  obtain ⟨a, b, ha, hb, -, -, hab⟩ := apply_onPairs hA hB hsize hf hg harity hlen hargs
  refine ⟨_, ?_, hab⟩
  rw [onPairs, hlong]
  exact pair_lt ha hb

/-- Both coordinates are onto. -/
theorem image_coordinates {m n : ℕ} (hm : 0 < m) (hn : 0 < n) :
    (· / n) '' Set.Iio (m * n) = Set.Iio m ∧ (· % n) '' Set.Iio (m * n) = Set.Iio n := by
  refine ⟨Set.Subset.antisymm ?_ ?_, Set.Subset.antisymm ?_ ?_⟩
  · rintro _ ⟨x, hx, rfl⟩
    exact (coordinates_lt hx).1
  · intro a ha
    exact ⟨a * n + 0, pair_lt ha hn, congrArg Prod.fst ((invOn_pairs m n).1 (Set.mk_mem_prod ha hn))⟩
  · rintro _ ⟨x, hx, rfl⟩
    exact (coordinates_lt hx).2
  · intro b hb
    exact ⟨0 * n + b, pair_lt hm hb, congrArg Prod.snd ((invOn_pairs m n).1 (Set.mk_mem_prod hm hb))⟩

/-! ### Products -/

theorem TabulatedFrom.sameValues (h : P'.TabulatedFrom P) :
    List.Forall₂ Operation.SameValues P.operations P'.operations := by
  refine h.2.imp ?_
  rintro op _ (rfl | h)
  · exact .refl _
  · exact Operation.sameValues_of_tabulate h

/-- Total algebras have a product, and it is total. -/
theorem exists_product (hA : A.Total) (hB : B.Total) (hsame : A.SameArities B)
    (hsize : A.size * B.size < 2 ^ 32)
    (hfits : ∀ f ∈ A.operations, (A.size * B.size) ^ f.arity < 2 ^ 64) :
    ∃ P, A.product B = .ok P ∧ P.Total ∧ P.size = A.size * B.size ∧
      List.Forall₂ Operation.SameValues (List.zipWith (onPairs A B) A.operations B.operations)
        P.operations := by
  have hlong := productSize_eq hsize
  have hpos : 0 < A.size * B.size := Nat.mul_pos hA.size_pos hB.size_pos
  have hgiven : ∀ op ∈ List.zipWith (onPairs A B) A.operations B.operations,
      op.universeSize = A.size * B.size ∧ (A.size * B.size) ^ op.arity < 2 ^ 64 ∧ op.Total := by
    intro op hop
    obtain ⟨i, hi, rfl⟩ := List.getElem_of_mem hop
    obtain ⟨hlength, hget⟩ := List.forall₂_iff_get.1 hsame
    have hi' : i < A.operations.length ∧ i < B.operations.length := by simpa using hi
    have harity := hget i hi'.1 hi'.2
    rw [List.getElem_zipWith]
    exact ⟨hlong, hfits A.operations[i] (List.getElem_mem hi'.1),
      total_onPairs hA hB hsize (List.getElem_mem hi'.1) (List.getElem_mem hi'.2) harity⟩
  obtain ⟨P, hP⟩ := exists_build (A.name ++ "x" ++ B.name) hpos hgiven
  obtain ⟨-, hPsize, hprepared⟩ := build_eq_ok hP
  refine ⟨P, ?_, ?_, hPsize, hprepared.imp fun _ _ h => Operation.sameValues_of_prepare h.2⟩
  · rw [product, if_neg (not_not_intro hsame.length_eq),
      productOperations_eq_ok hsame (hlong.symm ▸ hpos), hlong]
    exact hP
  · refine total_of_build hP fun op hop => ?_
    obtain ⟨hlength, hget⟩ := List.forall₂_iff_get.1 hprepared
    obtain ⟨i, hi, rfl⟩ := List.getElem_of_mem hop
    have hi' := hlength.symm ▸ hi
    exact total_of_prepare (hget i hi' hi).2 (hgiven _ (List.getElem_mem hi')).2.2

/-- What was tabulated from a product has both coordinates. -/
theorem isHomOnto_of_sameValues (hA : A.Total) (hB : B.Total) (hsame : A.SameArities B)
    (hsize : A.size * B.size < 2 ^ 32) (hPsize : P.size = A.size * B.size)
    (hP : List.Forall₂ Operation.SameValues (List.zipWith (onPairs A B) A.operations B.operations)
      P.operations) : P.IsHomOnto A (· / B.size) ∧ P.IsHomOnto B (· % B.size) := by
  obtain ⟨hfirst, hsecond⟩ :=
    commutes_of_sameValues hA hB hsize hsame (fun _ h => h) (fun _ h => h) hP
  obtain ⟨hfirst', hsecond'⟩ := image_coordinates hA.size_pos hB.size_pos
  rw [← hPsize] at hfirst hsecond hfirst' hsecond'
  exact ⟨⟨hfirst', hfirst⟩, ⟨hsecond', hsecond⟩⟩

/-- Algebras whose operations do not match have no product. -/
theorem product_eq_error (h : ¬A.SameArities B) :
    ∃ fault, A.product B = .error fault ∧ fault.kind = .invalidInput := by
  by_cases hlen : A.operations.length = B.operations.length
  · cases hops : productOperations A B A.operations B.operations with
    | ok ops => exact absurd (sameArities_of_productOperations hlen hops) h
    | error fault =>
        refine ⟨fault, ?_, refusesOnly_productOperations A B _ _ fault hops⟩
        rw [product, if_neg (not_not_intro hlen), hops]
        rfl
  · refine ⟨.notMultipliable A.text B.text, ?_, rfl⟩
    rw [product, if_pos hlen]
    rfl

/-- **Direct products.**  If the operations of two total algebras match, and the pairs of elements and
the tables fit into their words, the algebras have a product.  It has as many elements as there are
pairs, numbered once each; from the number of a pair both members can be read off, and this commutes with
the operations, tabulated or not.  The product is total, so that it may be a factor again.  If the
operations do not match it is refused. -/
theorem product_exact (A B : Algebra) :
    (A.Total → B.Total → A.SameArities B → A.size * B.size < 2 ^ 32 →
      (∀ f ∈ A.operations, (A.size * B.size) ^ f.arity < 2 ^ 64) →
      ∃ P, A.product B = .ok P ∧ P.Total ∧ P.size = A.size * B.size ∧
        Set.BijOn (fun p : ℕ × ℕ => p.1 * B.size + p.2) (Set.Iio A.size ×ˢ Set.Iio B.size)
          (Set.Iio P.size) ∧
        Set.InvOn (fun x => (x / B.size, x % B.size)) (fun p : ℕ × ℕ => p.1 * B.size + p.2)
          (Set.Iio A.size ×ˢ Set.Iio B.size) (Set.Iio P.size) ∧
        ∀ P' : Algebra, P'.TabulatedFrom P →
          P'.IsHomOnto A (· / B.size) ∧ P'.IsHomOnto B (· % B.size)) ∧
    (¬A.SameArities B → ∃ fault, A.product B = .error fault ∧ fault.kind = .invalidInput) := by
  refine ⟨fun hA hB hsame hsize hfits => ?_, product_eq_error⟩
  obtain ⟨P, hP, htotal, hPsize, hvalues⟩ := exists_product hA hB hsame hsize hfits
  refine ⟨P, hP, htotal, hPsize, hPsize.symm ▸ bijOn_pairs A.size B.size,
    hPsize.symm ▸ invOn_pairs A.size B.size, fun P' hP' => ?_⟩
  exact isHomOnto_of_sameValues hA hB hsame hsize (hP'.1.trans hPsize)
    (Operation.SameValues.trans_all hvalues hP'.sameValues)

/-- The bits have a product with themselves, and this one has a product with the bits, of eight elements.
The pairs of bits have another signature than the bits, so that these two are not multiplied. -/
theorem product_of_bits :
    (∃ P, bits.product bits = .ok P ∧ P.IsHomOnto bits (· / 2) ∧ ∃ Q, P.product bits = .ok Q ∧
      Q.size = 8 ∧ Q.IsHomOnto P (· / 2) ∧ Q.IsHomOnto bits (· % 2)) ∧
    ∃ fault, bits.product bitPairs = .error fault ∧ fault.kind = .invalidInput := by
  have hbits : ∀ f ∈ bits.operations, f.arity ≤ 2 := by simp [bits]
  have hfits {n k : ℕ} (hn : n ≤ 8) (hk : k ≤ 2) : n ^ k < 2 ^ 64 :=
    calc n ^ k ≤ 8 ^ k := Nat.pow_le_pow_left hn k
      _ ≤ 8 ^ 2 := Nat.pow_le_pow_right (by decide) hk
      _ < 2 ^ 64 := by decide
  constructor
  · have hsame : bits.SameArities bits := List.forall₂_same.2 fun _ _ => rfl
    obtain ⟨P, hP, htotal, hsize, -, -, hmaps⟩ := (product_exact bits bits).1 total_bits total_bits
      hsame (by decide) fun f hf => hfits (by decide) (hbits f hf)
    obtain ⟨hfirst, -⟩ := hmaps P (.refl P)
    have hsame' : P.SameArities bits := hfirst.sameArities
    have hPsize : P.size = 4 := hsize
    have harities : ∀ f ∈ P.operations, f.arity ≤ 2 := by
      intro f hf
      obtain ⟨g, hg, hfg⟩ := hsame'.exists_arity hf
      exact hfg ▸ hbits g hg
    have hproduct : P.size * bits.size = 8 := by rw [hPsize]; rfl
    obtain ⟨Q, hQ, -, hQsize, -, -, hmaps'⟩ := (product_exact P bits).1 htotal total_bits hsame'
      (by rw [hproduct]; decide) fun f hf => hfits hproduct.le (harities f hf)
    exact ⟨P, hP, hfirst, Q, hQ, hQsize.trans hproduct, hmaps' Q (.refl Q)⟩
  · refine (product_exact bits bitPairs).2 fun h => ?_
    have harity := (List.forall₂_iff_get.1 h).2 1 (by decide) (by decide)
    exact absurd harity (by decide)

end Algebra

end UniversalAlgebra
