/-
**Elements with one lower cover.**

In a finite order an element that covers exactly one other lies strictly above nothing but what that
one is above.  So if generators determine every element, it is a generator itself, and what it covers
is the join of the generators strictly below it.  A search through the generators, each with that join,
therefore finds these elements and their covers.

Main definitions:

* `OnlyLowerCover` — one value is that of an element which covers nothing but the element with the
  other value;
* `AboveListed` — what lies above the elements with a property whose values are listed.

Main results:

* `le_of_covBy_iff` — what lies strictly below lies below the only lower cover;
* `Generates.covBy_iff_iff` — **the elements with an only lower cover**, among the generators.
-/

import Mathlib
import UniversalAlgebra.Proofs.JoinClosure

set_option autoImplicit false

namespace UniversalAlgebra

variable {β : Type} [PartialOrder β] {G : Set β} {x y z lower : β}

/-! ### Values of elements -/

section Values

variable {α : Type} {value : β → α} {p q : α}

/-- The element with value `p` covers the element with value `q`, and no other. -/
def OnlyLowerCover (value : β → α) (q p : α) : Prop :=
  ∃ x y : β, value x = p ∧ value y = q ∧ ∀ z, z ⋖ x ↔ z = y

theorem exists_onlyLowerCover_iff :
    (∃ q, OnlyLowerCover value q p) ↔ ∃ x : β, value x = p ∧ ∃! y, y ⋖ x := by
  constructor
  · rintro ⟨q, x, y, hx, -, hy⟩
    exact ⟨x, hx, y, (hy y).2 rfl, fun z => (hy z).1⟩
  · rintro ⟨x, hx, y, hcover, hunique⟩
    refine ⟨value y, x, y, hx, rfl, fun z => ⟨hunique z, ?_⟩⟩
    rintro rfl
    exact hcover

end Values

/-! ### Generators -/

/-- What lies strictly below lies below the only lower cover. -/
theorem le_of_covBy_iff [Finite β] (h : ∀ w, w ⋖ x ↔ w = y) (hz : z < x) : z ≤ y := by
  obtain ⟨w, hzw, hw⟩ := exists_le_covBy_of_lt hz
  rwa [(h w).1 hw] at hzw

/-- What lies strictly below lies below everything above the generators strictly below. -/
theorem Generates.le_of_lt (hG : Generates G) (hy : y ∈ upperBounds {g | g ∈ G ∧ g < x})
    (hz : z < x) : z ≤ y :=
  hG z y fun _ hg hgz => hy ⟨hg, lt_of_le_of_lt hgz hz⟩

/-- The join of the generators strictly below an element is its only lower cover, unless it is the
element itself. -/
theorem Generates.covBy_iff (hG : Generates G) (hy : IsLUB {g | g ∈ G ∧ g < x} y) (hne : y ≠ x)
    (z : β) : z ⋖ x ↔ z = y := by
  have hlt : y < x := lt_of_le_of_ne (hy.2 fun _ hg => hg.2.le) hne
  constructor
  · intro hcover
    have hle : z ≤ y := hG.le_of_lt hy.1 hcover.lt
    exact ((hcover.eq_or_eq hle hlt.le).resolve_right hlt.ne).symm
  · rintro rfl
    exact ⟨hlt, fun w hzw hwx => hzw.not_ge (hG.le_of_lt hy.1 hwx)⟩

/-- An element with an only lower cover is a generator. -/
theorem Generates.mem_of_covBy_iff [Finite β] (hG : Generates G) (h : ∀ z, z ⋖ x ↔ z = lower) :
    x ∈ G := by
  have hcover : lower ⋖ x := (h lower).2 rfl
  by_contra hx
  refine hcover.lt.not_ge (hG x lower fun g hg hgx => ?_)
  refine le_of_covBy_iff h (lt_of_le_of_ne hgx ?_)
  rintro rfl
  exact hx hg

/-- The only lower cover is the join of the generators strictly below. -/
theorem Generates.isLUB_of_covBy_iff [Finite β] (hG : Generates G) (h : ∀ z, z ⋖ x ↔ z = lower) :
    IsLUB {g | g ∈ G ∧ g < x} lower := by
  refine ⟨fun g hg => le_of_covBy_iff h hg.2, fun z hz => ?_⟩
  exact hG lower z fun g hg hgl => hz ⟨hg, lt_of_le_of_lt hgl ((h lower).2 rfl).lt⟩

/-- **The elements with an only lower cover** are the generators that differ from the join of those
strictly below them, and that join is the cover. -/
theorem Generates.covBy_iff_iff [Finite β] (hG : Generates G) (hy : IsLUB {g | g ∈ G ∧ g < x} y) :
    (∀ z, z ⋖ x ↔ z = lower) ↔ x ∈ G ∧ y ≠ x ∧ y = lower := by
  constructor
  · intro h
    obtain rfl := hy.unique (hG.isLUB_of_covBy_iff h)
    exact ⟨hG.mem_of_covBy_iff h, ((h y).2 rfl).lt.ne, rfl⟩
  · rintro ⟨-, hne, rfl⟩
    exact hG.covBy_iff hy hne

/-! ### Joins over a list

A search that joins the elements with a property one after the other passes from what lies above all of
a list to what lies above the rest of it. -/

section Lists

variable {α : Type} {value : β → α} {P : β → Prop} {ps : List α} {below : β}

/-- What lies above `below` and above the elements with a property whose values are listed. -/
def AboveListed (value : β → α) (P : β → Prop) (ps : List α) (below : β) : Set β :=
  {z | below ≤ z ∧ ∀ y, value y ∈ ps → P y → y ≤ z}

theorem isLeast_aboveListed_nil : IsLeast (AboveListed value P [] below) below :=
  ⟨⟨le_refl below, by simp⟩, fun _ hz => hz.1⟩

/-- With the property the first element is joined, -/
theorem aboveListed_cons_of_pos {β : Type} [SemilatticeSup β] {value : β → α} {P : β → Prop}
    {y below : β} (hvalue : Function.Injective value) (hy : P y) :
    AboveListed value P (value y :: ps) below = AboveListed value P ps (below ⊔ y) := by
  ext z
  constructor
  · rintro ⟨hbelow, hall⟩
    refine ⟨sup_le hbelow (hall y List.mem_cons_self hy), fun w hw => ?_⟩
    exact hall w (List.mem_cons_of_mem _ hw)
  · rintro ⟨hsup, hall⟩
    refine ⟨le_sup_left.trans hsup, fun w hw hPw => ?_⟩
    rcases List.mem_cons.1 hw with heq | hw
    · exact hvalue heq ▸ le_sup_right.trans hsup
    · exact hall w hw hPw

/-- and without it is left out. -/
theorem aboveListed_cons_of_neg (hvalue : Function.Injective value) (hy : ¬ P y) :
    AboveListed value P (value y :: ps) below = AboveListed value P ps below := by
  ext z
  refine and_congr_right fun _ => forall_congr' fun w => ?_
  rw [List.mem_cons]
  constructor
  · exact fun h hw => h (Or.inr hw)
  · rintro h (heq | hw) hPw
    · exact absurd (hvalue heq ▸ hPw) hy
    · exact h hw hPw

/-- From the least element on the search gives the join. -/
theorem isLUB_of_isLeast_aboveListed [OrderBot β] (h : IsLeast (AboveListed value P ps ⊥) x) :
    IsLUB {y | value y ∈ ps ∧ P y} x :=
  ⟨fun y hy => h.1.2 y hy.1 hy.2, fun _ hz => h.2 ⟨bot_le, fun _ hy hPy => hz ⟨hy, hPy⟩⟩⟩

end Lists

end UniversalAlgebra
