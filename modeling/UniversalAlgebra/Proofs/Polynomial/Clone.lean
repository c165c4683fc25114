/-
**Clones with constants.**

The polynomial operations of an algebra are closed under composition and have the projections and all
constants; what follows uses nothing else about them.  On a finite set a permutation that is a
polynomial has an inverse that is one, an iterate of it.  So if the rows and the columns of a binary
polynomial are permutations of some set, one can divide by polynomials, and there is a ternary
polynomial `m` with `m x y y = x` and `m y y x = x` on this set.

Main definitions:

* `PolynomialClone` — operations closed under composition, with projections and constants;
* `PolynomialClone.Unary`, `PolynomialClone.Binary` — those of one and of two variables;
* `PolynomialClone.Difference` — operations `m` with `m x y y = x` and `m y y x = x` on a set.

Main results:

* `PolynomialClone.exists_iterate_apply_eq` — one number of iterations inverts every permutation;
* `PolynomialClone.Binary.exists_difference` — **binary operations with permutations as rows and
  columns lead to a difference operation**.
-/

import Mathlib

set_option autoImplicit false

namespace UniversalAlgebra

/-- Operations of any number of variables on a set that are closed under composition, with the
projections and all constants. -/
structure PolynomialClone (X : Type) where
  /-- The operations, in the variables `ι`. -/
  mem : {ι : Type} → ((ι → X) → X) → Prop
  const : ∀ (ι : Type) (x : X), mem fun _ : ι → X => x
  proj : ∀ {ι : Type} (i : ι), mem fun v : ι → X => v i
  comp : ∀ {ι κ : Type} {f : (ι → X) → X} {g : ι → (κ → X) → X}, mem f → (∀ i, mem (g i)) →
    mem fun v => f fun i => g i v

namespace PolynomialClone

variable {X ι : Type} {C : PolynomialClone X} {f g : X → X} {p q : X → X → X}

/-! ### Operations of one and of two variables -/

/-- An operation of one variable. -/
def Unary (C : PolynomialClone X) (f : X → X) : Prop := C.mem fun v : Unit → X => f (v ())

/-- An operation of two variables. -/
def Binary (C : PolynomialClone X) (p : X → X → X) : Prop :=
  C.mem fun v : Bool → X => p (v false) (v true)

theorem Unary.apply (hf : C.Unary f) {s : (ι → X) → X} (hs : C.mem s) :
    C.mem fun v => f (s v) :=
  C.comp hf fun _ => hs

theorem Binary.apply (hp : C.Binary p) {s t : (ι → X) → X} (hs : C.mem s) (ht : C.mem t) :
    C.mem fun v => p (s v) (t v) := by
  refine C.comp (g := fun b => bif b then t else s) hp ?_
  intro b
  cases b with
  | false => exact hs
  | true => exact ht

theorem unary_id : C.Unary fun x => x := C.proj ()

theorem Unary.comp (hf : C.Unary f) (hg : C.Unary g) : C.Unary fun x => f (g x) := hf.apply hg

theorem Unary.iterate (hf : C.Unary f) (k : ℕ) : C.Unary f^[k] := by
  induction k with
  | zero => exact unary_id
  | succ k ih => exact ih.comp hf

theorem Unary.binary_left (hf : C.Unary f) : C.Binary fun x _ => f x := hf.apply (C.proj false)

theorem Unary.binary (hf : C.Unary f) (hp : C.Binary p) : C.Binary fun x y => f (p x y) :=
  hf.apply hp

theorem Binary.swap (hp : C.Binary p) : C.Binary fun x y => p y x :=
  hp.apply (C.proj true) (C.proj false)

theorem Binary.right (hp : C.Binary p) (x : X) : C.Unary (p x) :=
  hp.apply (C.const Unit x) (C.proj ())

theorem Binary.left (hp : C.Binary p) (y : X) : C.Unary fun x => p x y := hp.swap.right y

theorem Binary.comp_right (hp : C.Binary p) (hf : C.Unary f) : C.Binary fun x y => p x (f y) :=
  hp.apply (C.proj false) (hf.apply (C.proj true))

/-- Iterating one of the rows that another operation selects. -/
theorem Binary.iterate (hp : C.Binary p) (k : ℕ) {s t : (ι → X) → X} (hs : C.mem s) (ht : C.mem t) :
    C.mem fun v => (p (s v))^[k] (t v) := by
  induction k with
  | zero => exact ht
  | succ k ih =>
      simp only [Function.iterate_succ_apply']
      exact hp.apply hs ih

/-! ### Permutations of a finite set -/

variable {U : Set X}

/-- On a finite set one number of iterations inverts every permutation of a subset. -/
theorem exists_iterate_apply_eq (X : Type) [Finite X] : ∃ k, ∀ (U : Set X) (f : X → X),
    Set.MapsTo f U U → Set.InjOn f U → ∀ x ∈ U, f^[k] (f x) = x := by
  classical
  -- the order of a permutation of a subset divides the product of all such orders
  let orders (U : Set X) : ℕ := Nat.card (Equiv.Perm U)
  have : Fintype (Set X) := Fintype.ofFinite _
  have hpos : 0 < ∏ U, orders U := Finset.prod_pos fun U _ => Nat.card_pos
  refine ⟨∏ U, orders U - 1, ?_⟩
  intro U f hmaps hinj x hx
  have hbijective : Function.Bijective (hmaps.restrict f U U) :=
    Finite.injective_iff_bijective.1 ((Set.MapsTo.restrict_inj hmaps).2 hinj)
  have hpow : Equiv.ofBijective _ hbijective ^ ∏ U, orders U = 1 := by
    obtain ⟨n, hn⟩ := Finset.dvd_prod_of_mem orders (Finset.mem_univ U)
    rw [hn, pow_mul, pow_card_eq_one', one_pow]
  have hiterate : (hmaps.restrict f U U)^[∏ U, orders U] ⟨x, hx⟩ = ⟨x, hx⟩ := by
    have h := congrArg (fun σ : Equiv.Perm U => σ ⟨x, hx⟩) hpow
    rwa [← Equiv.Perm.iterate_eq_pow] at h
  rw [hmaps.iterate_restrict] at hiterate
  rw [← Function.iterate_succ_apply, Nat.succ_eq_add_one, Nat.sub_add_cancel hpos]
  exact congrArg Subtype.val hiterate

/-- A permutation of a subset has an inverse among the operations, which is a permutation of the
subset as well. -/
theorem Unary.exists_inverse [Finite X] (hf : C.Unary f) (hmaps : Set.MapsTo f U U)
    (hinj : Set.InjOn f U) :
    ∃ g, C.Unary g ∧ Set.MapsTo g U U ∧ Set.InjOn g U ∧ ∀ x ∈ U, g (f x) = x := by
  obtain ⟨k, hk⟩ := exists_iterate_apply_eq X
  exact ⟨f^[k], hf.iterate k, hmaps.iterate k, hinj.iterate hmaps k, hk U f hmaps hinj⟩

/-! ### Difference operations -/

/-- Composing with the operation stays among the operations, and on the set it takes differences. -/
structure Difference (C : PolynomialClone X) (U : Set X) (m : X → X → X → X) : Prop where
  apply : ∀ {ι : Type} {r s t : (ι → X) → X}, C.mem r → C.mem s → C.mem t →
    C.mem fun v => m (r v) (s v) (t v)
  right : ∀ x ∈ U, ∀ y ∈ U, m x y y = x
  left : ∀ x ∈ U, ∀ y ∈ U, m y y x = x

/-- **Binary operations with permutations as rows and columns lead to a difference operation.** -/
theorem Binary.exists_difference [Finite X] (hp : C.Binary p)
    (hmaps : ∀ x ∈ U, ∀ y ∈ U, p x y ∈ U) (hrow : ∀ x ∈ U, Set.InjOn (p x) U)
    (hcolumn : ∀ y ∈ U, Set.InjOn (fun x => p x y) U) : ∃ m, C.Difference U m := by
  obtain ⟨k, hk⟩ := exists_iterate_apply_eq X
  -- dividing by `y` from the left and from the right is iterating a row or a column
  let divideLeft (y x : X) : X := (p y)^[k] x
  let divideRight (y x : X) : X := (fun z => p z y)^[k] x
  have hrowmaps (y : X) (hy : y ∈ U) : Set.MapsTo (p y) U U := fun x hx => hmaps y hy x hx
  have hcolumnmaps (y : X) (hy : y ∈ U) : Set.MapsTo (fun x => p x y) U U :=
    fun x hx => hmaps x hx y hy
  have hleft (y : X) (hy : y ∈ U) (x : X) (hx : x ∈ U) :
      divideLeft y x ∈ U ∧ p y (divideLeft y x) = x := by
    refine ⟨(hrowmaps y hy).iterate k hx, ?_⟩
    have h := hk U _ (hrowmaps y hy) (hrow y hy) x hx
    rwa [← Function.iterate_succ_apply, Function.iterate_succ_apply'] at h
  have hright (y : X) (hy : y ∈ U) (x : X) (hx : x ∈ U) :
      p (divideRight y x) y = x ∧ divideRight y (p x y) = x := by
    have h := hk U _ (hcolumnmaps y hy) (hcolumn y hy) x hx
    refine ⟨?_, h⟩
    rwa [← Function.iterate_succ_apply, Function.iterate_succ_apply'] at h
  refine ⟨fun x y z => p (divideRight (divideLeft y y) x) (divideLeft y z), ?_, ?_, ?_⟩
  · intro ι r s t hr hs ht
    exact hp.apply (hp.swap.iterate k (hp.iterate k hs hs) hr) (hp.iterate k hs ht)
  · intro x hx y hy
    exact (hright _ (hleft y hy y hy).1 x hx).1
  · intro x hx y hy
    obtain ⟨hmem, hunit⟩ := hleft y hy y hy
    have hself := (hright _ hmem y hy).2
    rw [hunit] at hself
    change p (divideRight (divideLeft y y) y) (divideLeft y x) = x
    rw [hself]
    exact (hleft y hy x hx).2

end PolynomialClone

end UniversalAlgebra
