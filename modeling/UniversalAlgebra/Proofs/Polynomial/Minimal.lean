/-
**Centrality above a minimal pair.**

A pair is minimal below an equivalence relation if every unary polynomial that keeps its two
elements apart can be undone on them, and if it is obtained, step by step, from any two related
elements.  Suppose that on the pair no table of a binary polynomial has one constant row and one
that is not.  Then the relation centralizes itself: if a polynomial of many variables takes one
value on two rows of arguments, then exchanging further arguments for related ones leads to two
equal values again.

The arguments are exchanged one after the other, so that what has to be shown are properties of
equivalence relations on rows of arguments.  The polynomial may be assumed to have its values in
the range of a polynomial on which all unary polynomials that keep the pair apart are one-to-one.
If binary polynomials with values in this range depend on one variable only, there is nothing to
exchange.  Otherwise one of them has rows and columns that are permutations of the elements related
to the pair.  This gives a difference operation, which makes "the columns of one table" an
equivalence relation on columns.

Main definitions:

* `PolynomialClone.MinimalPair` — minimal pairs below an equivalence relation;
* `PolynomialClone.Plain` — no table on a pair has just one constant row;
* `PolynomialClone.Linked` — two columns of one table.

Main results:

* `PolynomialClone.MinimalPair.coordinatewise` — exchanging one argument after the other;
* `PolynomialClone.MinimalPair.exists_retraction` — a range on which what keeps the pair apart is
  one-to-one;
* `PolynomialClone.MinimalPair.exists_difference` — a difference operation on the related elements;
* `PolynomialClone.MinimalPair.central` — **without a table of this kind, related elements satisfy
  the term condition**.
-/

import UniversalAlgebra.Proofs.Polynomial.Clone

set_option autoImplicit false

namespace UniversalAlgebra.PolynomialClone

variable {X ι J : Type} {C : PolynomialClone X} {β : Setoid X} {c d : X}

/-! ### Minimal pairs -/

/-- A pair of related elements, of which every operation that keeps them apart can be undone, and
which any two related elements lead to. -/
structure MinimalPair (C : PolynomialClone X) (β : Setoid X) (c d : X) : Prop where
  rel : β c d
  ne : c ≠ d
  preserves : ∀ {f}, C.Unary f → ∀ {x y}, β x y → β (f x) (f y)
  returns : ∀ {f}, C.Unary f → f c ≠ f d → ∃ g, C.Unary g ∧ g (f c) = c ∧ g (f d) = d
  generates : ∀ {x y}, β x y → x ≠ y → ∀ s : Setoid X, (∀ f, C.Unary f → s (f x) (f y)) →
    ∀ {a b}, β a b → s a b

/-- No table of the pair has one constant row and one that is not. -/
def Plain (C : PolynomialClone X) (c d : X) : Prop :=
  ∀ p, C.Binary p → (p c c = p c d ↔ p d c = p d d)

/-- The same holds of the columns of a table. -/
theorem Plain.columns (hC : C.Plain c d) {p : X → X → X} (hp : C.Binary p) :
    p c c = p d c ↔ p c d = p d d :=
  hC _ hp.swap

/-- Exchanging one of some constants for the value of an operation. -/
theorem mem_update [DecidableEq J] {r : (ι → X) → X} (hr : C.mem r) (w : J → X) (j i : J) :
    C.mem fun v => Function.update w j (r v) i := by
  by_cases hi : i = j
  · subst hi
    simpa using hr
  · simpa [Function.update_of_ne hi] using C.const ι (w i)

/-- An operation of one more variable, which is fed with one of the others kept fixed. -/
def Family (C : PolynomialClone X) (s : X → (J → X) → X) : Prop :=
  C.mem fun v : Option J → X => s (v none) fun j => v (some j)

namespace Family

variable {s : X → (J → X) → X} {f : X → X}

theorem comp (hs : C.Family s) (hf : C.Unary f) : C.Family fun x w => f (s x w) := hf.apply hs

theorem apply (hs : C.Family s) {r : (ι → X) → X} {g : J → (ι → X) → X} (hr : C.mem r)
    (hg : ∀ j, C.mem (g j)) : C.mem fun v => s (r v) fun j => g j v := by
  refine C.comp (g := fun o => o.elim r g) hs ?_
  intro o
  cases o with
  | none => exact hr
  | some j => exact hg j

/-- With all other variables fixed it is unary. -/
theorem unary (hs : C.Family s) (w : J → X) : C.Unary fun x => s x w :=
  hs.apply (C.proj ()) fun j => C.const Unit (w j)

/-- With all other variables but one fixed it is binary. -/
theorem binary [DecidableEq J] (hs : C.Family s) (hf : C.Unary f) (w : J → X) (j : J) :
    C.Binary fun x y => s x (Function.update w j (f y)) :=
  hs.apply (C.proj false) (mem_update (hf.apply (C.proj true)) w j)

end Family

namespace MinimalPair

variable (h : C.MinimalPair β c d) {f : X → X} {p : X → X → X} {s : X → (J → X) → X}

include h

/-- An equivalence relation on rows of arguments relates rows with related entries if it does so
whenever one entry runs through an image of the pair. -/
theorem coordinatewise [Finite J] [DecidableEq J] (r : Setoid (J → X))
    (hr : ∀ (w : J → X) (j : J) (f : X → X), C.Unary f →
      r (Function.update w j (f c)) (Function.update w j (f d)))
    {u v : J → X} (huv : ∀ j, β (u j) (v j)) : r u v := by
  have hone (w : J → X) (j : J) {x y : X} (hxy : β x y) :
      r (Function.update w j x) (Function.update w j y) :=
    h.generates h.rel h.ne (r.comap (Function.update w j)) (fun f hf => hr w j f hf) hxy
  have : Fintype J := Fintype.ofFinite J
  have hpiecewise (S : Finset J) : r u (S.piecewise v u) := by
    induction S using Finset.induction_on with
    | empty => simp
    | insert j S _ ih =>
        refine r.trans ih ?_
        rw [Finset.piecewise_insert]
        have hstep := hone (S.piecewise v u) j (x := S.piecewise v u j) (y := v j) ?_
        · rwa [Function.update_eq_self] at hstep
        · by_cases hj : j ∈ S
          · simp [hj]
          · simpa [hj] using huv j
  simpa using hpiecewise Finset.univ

/-- Related arguments have related values. -/
theorem rel_of_mem [Finite J] {t : (J → X) → X} (ht : C.mem t) {u v : J → X}
    (huv : ∀ j, β (u j) (v j)) : β (t u) (t v) := by
  classical
  refine h.coordinatewise (β.comap t) ?_ huv
  intro w j f hf
  have hunary : C.Unary fun x => t (Function.update w j (f x)) :=
    C.comp ht (mem_update (hf.apply (C.proj ())) w j)
  exact h.preserves hunary h.rel

/-! ### A range on which nothing collapses -/

/-- There is an operation that fixes the pair, and on whose range every operation that keeps the
pair apart is one-to-one: one with the smallest range of all that fix the pair. -/
theorem exists_retraction [Finite X] : ∃ e, C.Unary e ∧ e c = c ∧ e d = d ∧
    ∀ f, C.Unary f → f c ≠ f d → Set.InjOn f (Set.range e) := by
  have hfinite : {e : X → X | C.Unary e ∧ e c = c ∧ e d = d}.Finite := Set.toFinite _
  obtain ⟨e, ⟨he, hec, hed⟩, hmin⟩ := Set.exists_min_image _ (fun e => (Set.range e).ncard) hfinite
    ⟨id, unary_id, rfl, rfl⟩
  refine ⟨e, he, hec, hed, ?_⟩
  intro f hf hne
  obtain ⟨g, hg, hgc, hgd⟩ := h.returns hf hne
  have hcard := hmin (fun x => e (g (f (e x))))
    ⟨he.comp (hg.comp (hf.comp he)), by simp only [hec, hgc], by simp only [hed, hgd]⟩
  -- going from the range of `e` back into it loses no element
  have himage : (Set.range fun x => e (g (f (e x)))) = (fun x => e (g (f x))) '' Set.range e := by
    rw [← Set.range_comp]
    rfl
  rw [himage] at hcard
  have hinj : Set.InjOn (fun x => e (g (f x))) (Set.range e) :=
    Set.injOn_of_ncard_image_eq (le_antisymm (Set.ncard_image_le (Set.toFinite _)) hcard)
      (Set.toFinite _)
  intro x hx y hy hxy
  exact hinj hx hy (congrArg (fun z => e (g z)) hxy)

/-! ### Differences -/

/-- Whether the first variable matters is the same for related second arguments. -/
theorem split_iff (hC : C.Plain c d) (hp : C.Binary p) {y y' : X} (hy : β y y') :
    p c y = p d y ↔ p c y' = p d y' := by
  let s : Setoid X := ⟨fun y y' => p c y = p d y ↔ p c y' = p d y', fun _ => Iff.rfl, Iff.symm,
    Iff.trans⟩
  exact h.generates h.rel h.ne s (fun f hf => hC.columns (hp.comp_right hf)) hy

/-- If a binary operation depends on both variables, there is a difference operation on the
elements of the range that are related to the pair. -/
theorem exists_difference [Finite X] (hC : C.Plain c d) {U : Set X} (hc : c ∈ U)
    (hinj : ∀ f, C.Unary f → f c ≠ f d → Set.InjOn f U) (hp : C.Binary p)
    (hvalues : ∀ x y, p x y ∈ U) (hrow : p c c ≠ p c d) (hcolumn : p c c ≠ p d c) :
    ∃ m, C.Difference {x | x ∈ U ∧ β c x} m := by
  -- dividing by the first column makes it the identity
  obtain ⟨g, hg, hgmaps, hginj, hinverse⟩ := (hp.left c).exists_inverse
    (fun x _ => hvalues x c) (hinj _ (hp.left c) hcolumn)
  let q (x y : X) : X := g (p x y)
  have hq : C.Binary q := hg.binary hp
  have hqrow : q c c ≠ q c d := fun heq => hrow (hginj (hvalues c c) (hvalues c d) heq)
  have hqcolumn : q c c ≠ q d c := fun heq => hcolumn (hginj (hvalues c c) (hvalues d c) heq)
  refine hq.exists_difference ?_ ?_ ?_
  · rintro x ⟨-, hx⟩ y ⟨-, hy⟩
    refine ⟨hgmaps (hvalues x y), ?_⟩
    have hxy := β.trans (h.preserves (hq.left c) hx) (h.preserves (hq.right x) hy)
    rwa [show q c c = c from hinverse c hc] at hxy
  · rintro x ⟨-, hx⟩
    refine (hinj _ (hq.right x) ?_).mono fun y hy => hy.1
    exact (h.split_iff hC hq.swap hx).not.1 hqrow
  · rintro y ⟨-, hy⟩
    refine (hinj _ (hq.left y) ?_).mono fun x hx => hx.1
    exact (h.split_iff hC hq hy).not.1 hqcolumn

end MinimalPair

/-! ### Columns of one table -/

/-- The two columns, read at the elements of the pair, are those of one table. -/
def Linked (C : PolynomialClone X) (c d : X) (P Q : X × X) : Prop :=
  ∃ p, C.Binary p ∧ (p c c, p d c) = P ∧ (p c d, p d d) = Q

namespace Linked

variable {N : Set X} {m : X → X → X → X} {P Q R : X × X}

theorem refl {f : X → X} (hf : C.Unary f) : C.Linked c d (f c, f d) (f c, f d) :=
  ⟨fun x _ => f x, hf.binary_left, rfl, rfl⟩

theorem symm (hm : C.Difference N m) (hP : P ∈ N ×ˢ N) (hQ : Q ∈ N ×ˢ N)
    (hPQ : C.Linked c d P Q) : C.Linked c d Q P := by
  obtain ⟨p, hp, rfl, rfl⟩ := hPQ
  obtain ⟨hcc, hdc⟩ := hP
  obtain ⟨hcd, hdd⟩ := hQ
  refine ⟨fun x y => m (p x c) (p x y) (p x d), ?_, ?_, ?_⟩
  · exact hm.apply (hp.left c).binary_left hp (hp.left d).binary_left
  · exact Prod.ext (hm.left _ hcd _ hcc) (hm.left _ hdd _ hdc)
  · exact Prod.ext (hm.right _ hcc _ hcd) (hm.right _ hdc _ hdd)

theorem trans (hm : C.Difference N m) (hP : P ∈ N ×ˢ N) (hQ : Q ∈ N ×ˢ N) (hR : R ∈ N ×ˢ N)
    (hPQ : C.Linked c d P Q) (hQR : C.Linked c d Q R) : C.Linked c d P R := by
  obtain ⟨p, hp, rfl, rfl⟩ := hPQ
  obtain ⟨q, hq, hmiddle, rfl⟩ := hQR
  obtain ⟨hcmiddle, hdmiddle⟩ := Prod.mk.injEq _ _ _ _ ▸ hmiddle
  obtain ⟨hcc, hdc⟩ := hP
  obtain ⟨hcd, hdd⟩ := hQ
  obtain ⟨hcend, hdend⟩ := hR
  refine ⟨fun x y => m (p x y) (p x d) (q x y), ?_, ?_, ?_⟩
  · exact hm.apply hp (hp.left d).binary_left hq
  · refine Prod.ext ?_ ?_
    · simpa only [hcmiddle] using hm.right _ hcc _ hcd
    · simpa only [hdmiddle] using hm.right _ hdc _ hdd
  · exact Prod.ext (hm.left _ hcend _ hcd) (hm.left _ hdend _ hdd)

end Linked

/-! ### The term condition -/

namespace MinimalPair

variable (h : C.MinimalPair β c d) {s : X → (J → X) → X}

include h

/-- If binary operations with values in the range depend on one variable only, then a family that
depends on its first variable depends on no other. -/
theorem eq_of_unsplit [Finite J] [DecidableEq J] (hC : C.Plain c d) {U : Set X}
    (hflat : ∀ p, C.Binary p → (∀ x y, p x y ∈ U) → p c c = p c d ∨ p c c = p d c)
    (hs : C.Family s) (hvalues : ∀ x w, s x w ∈ U) {u v : J → X} (huv : ∀ j, β (u j) (v j))
    (hsplit : s c u ≠ s d u) : s c u = s c v ∧ s d u = s d v := by
  let r : Setoid (J → X) :=
    { r := fun w w' => (s c w = s d w ↔ s c w' = s d w') ∧
        (s c w ≠ s d w → s c w = s c w' ∧ s d w = s d w')
      iseqv :=
        { refl := fun w => ⟨Iff.rfl, fun _ => ⟨rfl, rfl⟩⟩
          symm := by
            rintro w w' ⟨hiff, heq⟩
            refine ⟨hiff.symm, fun hw' => ?_⟩
            obtain ⟨hc, hd⟩ := heq (hiff.not.2 hw')
            exact ⟨hc.symm, hd.symm⟩
          trans := by
            rintro w w' w'' ⟨hiff, heq⟩ ⟨hiff', heq'⟩
            refine ⟨hiff.trans hiff', fun hw => ?_⟩
            obtain ⟨hc, hd⟩ := heq hw
            obtain ⟨hc', hd'⟩ := heq' (hiff.not.1 hw)
            exact ⟨hc.trans hc', hd.trans hd'⟩ } }
  have hr : r u v := by
    refine h.coordinatewise r ?_ huv
    intro w j f hf
    have hp := hs.binary hf w j
    refine ⟨hC.columns hp, fun hne => ?_⟩
    have hrow := (hflat _ hp fun _ _ => hvalues _ _).resolve_right hne
    exact ⟨hrow, (hC _ hp).1 hrow⟩
  exact hr.2 hsplit

/-- With a difference operation on the elements that are related to the pair, the columns of a
family are linked if its values are such elements. -/
theorem linked_of_difference [Finite J] [DecidableEq J] {U : Set X} {m : X → X → X → X}
    (hm : C.Difference {x | x ∈ U ∧ β c x} m) (hs : C.Family s) (hvalues : ∀ x w, s x w ∈ U)
    {u v : J → X} (huv : ∀ j, β (u j) (v j)) (hc : β c (s c u)) (hd : β c (s d u)) :
    C.Linked c d (s c u, s d u) (s c v, s d v) := by
  let N : Set X := {x | x ∈ U ∧ β c x}
  let column (w : J → X) : X × X := (s c w, s d w)
  let r : Setoid (J → X) :=
    { r := fun w w' => (column w ∈ N ×ˢ N ↔ column w' ∈ N ×ˢ N) ∧
        (column w ∈ N ×ˢ N → C.Linked c d (column w) (column w'))
      iseqv :=
        { refl := fun w => ⟨Iff.rfl, fun _ => Linked.refl (hs.unary w)⟩
          symm := by
            rintro w w' ⟨hiff, hlinked⟩
            exact ⟨hiff.symm, fun hw' => (hlinked (hiff.2 hw')).symm hm (hiff.2 hw') hw'⟩
          trans := by
            rintro w w' w'' ⟨hiff, hlinked⟩ ⟨hiff', hlinked'⟩
            refine ⟨hiff.trans hiff', fun hw => ?_⟩
            exact (hlinked hw).trans hm hw (hiff.1 hw) (hiff'.1 (hiff.1 hw)) (hlinked' (hiff.1 hw)) } }
  have hr : r u v := by
    refine h.coordinatewise r ?_ huv
    intro w j f hf
    have hp := hs.binary hf w j
    have hmem (x : X) : s x (Function.update w j (f c)) ∈ N ↔ s x (Function.update w j (f d)) ∈ N := by
      have hrel := h.preserves (hp.right x) h.rel
      exact ⟨fun hx => ⟨hvalues _ _, β.trans hx.2 hrel⟩,
        fun hx => ⟨hvalues _ _, β.trans hx.2 (β.symm hrel)⟩⟩
    exact ⟨and_congr (hmem c) (hmem d), fun _ => ⟨_, hp, rfl, rfl⟩⟩
  exact hr.2 ⟨⟨hvalues _ _, hc⟩, ⟨hvalues _ _, hd⟩⟩

/-- Exchanging the other arguments of a family for related ones changes its values at both elements
of the pair, or at neither. -/
theorem eq_iff_eq [Finite X] [Finite J] [DecidableEq J] (hC : C.Plain c d) {U : Set X} (hc : c ∈ U)
    (hd : d ∈ U) (hinj : ∀ f, C.Unary f → f c ≠ f d → Set.InjOn f U) (hs : C.Family s)
    (hvalues : ∀ x w, s x w ∈ U) {u v : J → X} (huv : ∀ j, β (u j) (v j)) :
    s c u = s c v ↔ s d u = s d v := by
  by_cases hsplit : s c u = s d u
  · have hsplit' : s c v = s d v := by
      let r : Setoid (J → X) := ⟨fun w w' => s c w = s d w ↔ s c w' = s d w', fun _ => Iff.rfl,
        Iff.symm, Iff.trans⟩
      exact (h.coordinatewise r (fun w j f hf => hC.columns (hs.binary hf w j)) huv).1 hsplit
    rw [hsplit, hsplit']
  · by_cases hflat : ∀ p, C.Binary p → (∀ x y, p x y ∈ U) → p c c = p c d ∨ p c c = p d c
    · obtain ⟨hceq, hdeq⟩ := h.eq_of_unsplit hC hflat hs hvalues huv hsplit
      exact iff_of_true hceq hdeq
    · push Not at hflat
      obtain ⟨p, hp, hpvalues, hrow, hcolumn⟩ := hflat
      obtain ⟨m, hm⟩ := h.exists_difference hC hc hinj hp hpvalues hrow hcolumn
      -- dividing by the column at `u` makes it the pair itself
      obtain ⟨g, hg, hgmaps, hginj, hinverse⟩ := (hs.unary u).exists_inverse
        (fun x _ => hvalues x u) (hinj _ (hs.unary u) hsplit)
      have hlinked := h.linked_of_difference hm (hs.comp hg) (fun x w => hgmaps (hvalues x w)) huv
        (by rw [hinverse c hc]) (by rw [hinverse d hd]; exact h.rel)
      obtain ⟨q, hq, hfirst, hsecond⟩ := hlinked
      obtain ⟨hcc, hdc⟩ := Prod.mk.injEq _ _ _ _ ▸ hfirst
      obtain ⟨hcd, hdd⟩ := Prod.mk.injEq _ _ _ _ ▸ hsecond
      have hiff := hC q hq
      rw [hcc, hcd, hdc, hdd] at hiff
      rwa [hginj.eq_iff (hvalues c u) (hvalues c v), hginj.eq_iff (hvalues d u) (hvalues d v)] at hiff

/-- **Without a table that has just one constant row, related elements satisfy the term
condition.** -/
theorem central {I : Type} [Finite X] [Finite I] [Finite J] (hC : C.Plain c d)
    {t : (I ⊕ J → X) → X} (ht : C.mem t) {a b : I → X} {u v : J → X} (hab : ∀ i, β (a i) (b i))
    (huv : ∀ j, β (u j) (v j)) (heq : t (Sum.elim a u) = t (Sum.elim a v)) :
    t (Sum.elim b u) = t (Sum.elim b v) := by
  classical
  by_contra hne
  obtain ⟨e, he, hec, hed, hinj⟩ := h.exists_retraction
  -- some polynomial keeps the two values apart and has its own values in the range
  obtain ⟨f, hf, hfne⟩ : ∃ f, C.Unary f ∧
      e (f (t (Sum.elim b u))) ≠ e (f (t (Sum.elim b v))) := by
    by_contra hnone
    push Not at hnone
    have hrel : β (t (Sum.elim b u)) (t (Sum.elim b v)) := by
      refine h.rel_of_mem ht ?_
      rintro (i | j)
      · exact β.refl _
      · exact huv j
    have hcollapsed : e c = e d := h.generates hrel hne (Setoid.ker e) hnone h.rel
    rw [hec, hed] at hcollapsed
    exact h.ne hcollapsed
  let value (a : I → X) (u : J → X) : X := e (f (t (Sum.elim a u)))
  let r : Setoid (I → X) := ⟨fun a b => value a u = value a v ↔ value b u = value b v,
    fun _ => Iff.rfl, Iff.symm, Iff.trans⟩
  have hr : r a b := by
    refine h.coordinatewise r ?_ hab
    intro w i g hg
    have hs : C.Family fun x z => value (Function.update w i (g x)) z := by
      refine (he.comp hf).apply (C.comp ht (g := fun k v => Sum.elim
        (Function.update w i (g (v none))) (fun j => v (some j)) k) ?_)
      rintro (i' | j)
      · exact mem_update (hg.apply (C.proj none)) w i i'
      · exact C.proj (some j)
    exact h.eq_iff_eq (U := Set.range e) hC ⟨c, hec⟩ ⟨d, hed⟩ hinj hs (fun _ _ => ⟨_, rfl⟩) huv
  exact hfne (hr.1 (congrArg (fun x => e (f x)) heq))

end MinimalPair

end UniversalAlgebra.PolynomialClone
