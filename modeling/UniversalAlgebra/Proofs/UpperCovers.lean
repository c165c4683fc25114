/-
**Covers, and elements with one upper cover.**

If generators determine every element of a lattice, what covers an element are its minimal joins with
generators that do not lie below it.  In a finite lattice the elements with exactly one upper cover
determine every element from above: an element whose covers all lie above something that the element
itself is not above has one cover only, the first step towards the join with it.  So every element is
the meet of the elements of that kind above it.

Main definitions:

* `ListsMeetIrreducibles` — a list of the elements with one upper cover, without the least element, and
  with every other element as a meet of them.

Main results:

* `Generates.minimal_sup_iff` — **the covers of an element**, from generators;
* `Generates.minimal_iff_isAtom` — the atoms are the minimal generators;
* `le_of_forall_existsUnique_covBy` — **the elements with one upper cover determine every element** from
  above;
* `ListsMeetIrreducibles.of_filter` — such a list, filtered out of the list of all elements.
-/

import Mathlib
import UniversalAlgebra.Proofs.JoinClosure

set_option autoImplicit false

namespace UniversalAlgebra

variable {β : Type} {G : Set β} {x y : β}

/-! ### Covers and generators -/

/-- An element that is not below another one is above a generator that is not either. -/
theorem Generates.exists_of_not_le [LE β] (hG : Generates G) (h : ¬ x ≤ y) :
    ∃ g ∈ G, g ≤ x ∧ ¬ g ≤ y := by
  by_contra hnot
  refine h (hG x y fun g hg hgx => ?_)
  by_contra hgy
  exact hnot ⟨g, hg, hgx, hgy⟩

/-- **The covers of an element** are its minimal joins with generators that are not below it. -/
theorem Generates.minimal_sup_iff [SemilatticeSup β] (hG : Generates G) :
    Minimal (fun z => ∃ g ∈ G, ¬ g ≤ x ∧ x ⊔ g = z) y ↔ x ⋖ y := by
  constructor
  · rintro ⟨⟨g, -, hgx, rfl⟩, hmin⟩
    refine ⟨left_lt_sup.2 hgx, fun z hxz hz => ?_⟩
    obtain ⟨g', hg', hg'z, hg'x⟩ := hG.exists_of_not_le hxz.not_ge
    have hle : x ⊔ g' ≤ z := sup_le hxz.le hg'z
    exact hz.not_ge ((hmin ⟨g', hg', hg'x, rfl⟩ (hle.trans hz.le)).trans hle)
  · intro hcover
    have heq (g : β) (hgx : ¬ g ≤ x) (hle : x ⊔ g ≤ y) : x ⊔ g = y :=
      (hcover.eq_or_eq le_sup_left hle).resolve_left (left_lt_sup.2 hgx).ne'
    obtain ⟨g, hg, hgy, hgx⟩ := hG.exists_of_not_le hcover.lt.not_ge
    refine ⟨⟨g, hg, hgx, heq g hgx (sup_le hcover.le hgy)⟩, ?_⟩
    rintro _ ⟨g', -, hg'x, rfl⟩ hle
    exact (heq g' hg'x hle).ge

/-- If generators determine every element, those among them that are minimal are the atoms. -/
theorem Generates.minimal_iff_isAtom [SemilatticeSup β] [OrderBot β] (hG : Generates G)
    (hbot : ⊥ ∉ G) : Minimal (· ∈ G) x ↔ IsAtom x := by
  have hmem (y : β) : (∃ g ∈ G, ¬ g ≤ ⊥ ∧ ⊥ ⊔ g = y) ↔ y ∈ G := by
    constructor
    · rintro ⟨g, hg, -, rfl⟩
      rwa [bot_sup_eq]
    · intro hy
      exact ⟨y, hy, fun hle => hbot (le_bot_iff.1 hle ▸ hy), bot_sup_eq y⟩
  rw [← bot_covBy_iff, ← hG.minimal_sup_iff]
  simp only [hmem]

/-! ### Elements with one upper cover -/

/-- **The elements with one upper cover determine every element from above.** -/
theorem le_of_forall_existsUnique_covBy [SemilatticeSup β] [Finite β]
    (h : ∀ m, (∃! z, m ⋖ z) → y ≤ m → x ≤ m) : x ≤ y := by
  -- from the greatest element down
  induction y using WellFoundedGT.induction with
  | ind y ih =>
      by_contra hnot
      obtain ⟨z, hyz, hz⟩ := exists_covBy_le_of_lt (left_lt_sup.2 hnot)
      refine hnot (h y ⟨z, hyz, fun z' hyz' => ?_⟩ (le_refl y))
      -- what lies above `y` and has one upper cover is above `x`, and so is the other cover
      have hxz' : x ≤ z' := ih z' hyz'.lt fun m hm hle => h m hm (hyz'.le.trans hle)
      have hle : z ≤ z' := hz.trans (sup_le hyz'.le hxz')
      exact ((hyz'.eq_or_eq hyz.le hle).resolve_left hyz.lt.ne').symm

/-- So every element is the meet of those above it. -/
theorem isGLB_existsUnique_covBy [SemilatticeSup β] [Finite β] (x : β) :
    IsGLB {m | (∃! z, m ⋖ z) ∧ x ≤ m} x :=
  ⟨fun _ hm => hm.2, fun _ hy => le_of_forall_existsUnique_covBy fun _ hm hle => hy ⟨hm, hle⟩⟩

/-- Two elements that meet in the least one lie above different covers of it. -/
theorem not_existsUnique_bot_covBy [Lattice β] [OrderBot β] [Finite β] (hinf : x ⊓ y = ⊥)
    (hx : x ≠ ⊥) (hy : y ≠ ⊥) : ¬ ∃! z : β, ⊥ ⋖ z := by
  rintro ⟨z, hz, hunique⟩
  obtain ⟨u, hu, hux⟩ := exists_covBy_le_of_lt (bot_lt_iff_ne_bot.2 hx)
  obtain ⟨v, hv, hvy⟩ := exists_covBy_le_of_lt (bot_lt_iff_ne_bot.2 hy)
  rw [hunique u hu] at hux
  rw [hunique v hv] at hvy
  exact hz.lt.not_ge (hinf ▸ le_inf hux hvy)

/-! ### Lists of values -/

section Values

variable {α : Type} {value : β → α} {ps : List α}

/-- A list without repetitions that has the values of the elements with a property has length one
exactly if there is one such element. -/
theorem length_eq_one_iff_existsUnique {P : β → Prop} (hvalue : Function.Injective value)
    (hps : ps.Nodup) (hmem : ∀ p, p ∈ ps ↔ ∃ x, value x = p ∧ P x) :
    ps.length = 1 ↔ ∃! x, P x := by
  constructor
  · intro hlength
    obtain ⟨p, rfl⟩ := List.length_eq_one_iff.1 hlength
    obtain ⟨x, hx, hPx⟩ := (hmem p).1 (List.mem_singleton.2 rfl)
    refine ⟨x, hPx, fun y hPy => hvalue ?_⟩
    exact (List.mem_singleton.1 ((hmem (value y)).2 ⟨y, rfl, hPy⟩)).trans hx.symm
  · rintro ⟨x, hPx, hunique⟩
    have hperm : ps.Perm [value x] := by
      refine (List.perm_ext_iff_of_nodup hps (List.nodup_singleton _)).2 fun p => ?_
      rw [hmem, List.mem_singleton]
      constructor
      · rintro ⟨y, rfl, hPy⟩
        rw [hunique y hPy]
      · rintro rfl
        exact ⟨x, rfl, hPx⟩
    exact hperm.length_eq

/-- A list has, strictly in order, the values of those elements with exactly one upper cover that are
not the least; and every element other than the least is the meet of those of them that lie above it,
the greatest one if there are none. -/
structure ListsMeetIrreducibles [PartialOrder β] (value : β → α) (less : α → α → Bool)
    (ps : List α) : Prop where
  pairwise : ps.Pairwise fun p q => less p q = true
  mem_iff : ∀ p, p ∈ ps ↔ ∃ x : β, value x = p ∧ ¬ IsBot x ∧ ∃! y, x ⋖ y
  isGLB : ∀ x : β, ¬ IsBot x → IsGLB {m : β | value m ∈ ps ∧ x ≤ m} x

/-- Such a list is filtered out of the list of all elements. -/
theorem ListsMeetIrreducibles.of_filter [SemilatticeSup β] [Finite β] {less : α → α → Bool}
    {all : List α} {test : α → Bool}
    (hpairwise : all.Pairwise fun p q => less p q = true) (hall : ∀ p, p ∈ all ↔ ∃ x, value x = p)
    (htest : ∀ x, test (value x) = true ↔ ¬ IsBot x ∧ ∃! y, x ⋖ y) :
    ListsMeetIrreducibles value less (all.filter test) := by
  have hmem (m : β) : value m ∈ all.filter test ↔ ¬ IsBot m ∧ ∃! y, m ⋖ y := by
    rw [List.mem_filter, htest, and_iff_right ((hall _).2 ⟨m, rfl⟩)]
  refine ⟨hpairwise.filter _, fun p => ?_, fun x hx => ?_⟩
  · constructor
    · intro hp
      obtain ⟨x, rfl⟩ := (hall p).1 (List.mem_filter.1 hp).1
      exact ⟨x, rfl, (hmem x).1 hp⟩
    · rintro ⟨x, rfl, hx⟩
      exact (hmem x).2 hx
  · refine ⟨fun m hm => hm.2, fun y hy => ?_⟩
    -- nothing above `x` is the least element
    refine (isGLB_existsUnique_covBy x).2 fun m hm => hy ⟨(hmem m).2 ⟨fun hbot => ?_, hm.1⟩, hm.2⟩
    exact hx fun z => hm.2.trans (hbot z)

/-- What is neither the least nor the greatest element lies below a listed one. -/
theorem ListsMeetIrreducibles.exists_le [PartialOrder β] {less : α → α → Bool}
    (h : ListsMeetIrreducibles value less ps) (hbot : ¬ IsBot x) (htop : ¬ IsTop x) :
    ∃ m, value m ∈ ps ∧ x ≤ m := by
  by_contra hnone
  have hempty : {m | value m ∈ ps ∧ x ≤ m} = ∅ :=
    Set.eq_empty_of_forall_notMem fun m hm => hnone ⟨m, hm⟩
  have hglb := h.isGLB x hbot
  rw [hempty, isGLB_empty_iff] at hglb
  exact htop hglb

end Values

end UniversalAlgebra
