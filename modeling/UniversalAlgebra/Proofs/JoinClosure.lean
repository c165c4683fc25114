/-
**All joins are found.**

The search for joins goes through what it found in the order of discovery, so that the numbers it
has passed form an initial segment: what stands there is joined with every generator.  Each element
is found once, so in a finite lattice the search passes all of them before its fuel is spent, and
what it has then found is closed under joins with generators.  If the generators determine every
element, that is everything.  A cap is tested after each new element, so a search that is ended by
it has found one element more than the cap allows.

The same search runs with and without a state.  What a computation gives is therefore a parameter
here, of which only that it goes along with sequences is used.

Main definitions:

* `Generates` — an element of the lattice is known by the generators below it;
* `Answering` — what a computation gives, one step after the other;
* `JoinSearch.Holds`, `JoinSearch.Ends` — what the search has found, and how a part of it ends.

Main results:

* `Generates.of_bounded` — generators that others make superfluous can be left out;
* `JoinSearch.scan_spec` — the search through everything found;
* `joinClosure_spec` — **within the cap every element is found once, otherwise one more than the cap
  allows**.
-/

import Mathlib
import UniversalAlgebra.JoinClosure

set_option autoImplicit false

namespace UniversalAlgebra

/-! ### Generators -/

section Generators

variable {β : Type}

/-- An element is known by the generators below it. -/
def Generates [LE β] (G : Set β) : Prop := ∀ x y : β, (∀ g ∈ G, g ≤ x → g ≤ y) → x ≤ y

/-- A generator that lies below everything above the generators strictly below it is superfluous. -/
theorem Generates.of_bounded [PartialOrder β] [WellFoundedLT β] {P G : Set β} (hP : Generates P)
    (h : ∀ p ∈ P, p ∉ G → ∀ y, (∀ q ∈ P, q < p → q ≤ y) → p ≤ y) : Generates G := by
  intro x y hy
  refine hP x y fun p hp hpx => ?_
  induction p using WellFoundedLT.induction with
  | ind p ih =>
      by_cases hpG : p ∈ G
      · exact hy p hpG hpx
      · exact h p hp hpG y fun q hq hqp => ih q hqp hq (hqp.le.trans hpx)

/-- A finite part of a lattice that has the least element and the joins of its elements with the
generators is the whole lattice. -/
theorem Generates.mem_of_closed [SemilatticeSup β] [OrderBot β] [Finite β] {G S : Set β}
    (hG : Generates G) (hbot : ⊥ ∈ S) (hS : ∀ x ∈ S, ∀ g ∈ G, x ⊔ g ∈ S) (x : β) : x ∈ S := by
  -- a maximal element of the part below `x` absorbs the generators below `x`
  obtain ⟨y, ⟨hy, hyx⟩, hmax⟩ := Set.Finite.exists_maximal (Set.toFinite {y | y ∈ S ∧ y ≤ x})
    ⟨⊥, hbot, bot_le⟩
  have hxy : x ≤ y := by
    refine hG x y fun g hg hgx => ?_
    exact le_sup_right.trans (hmax ⟨hS y hy g hg, sup_le hyx hgx⟩ le_sup_left)
  rwa [le_antisymm hxy hyx]

end Generators

/-! ### Computations and what they give -/

/-- A relation between computations and values that goes along with sequences. -/
structure Answering (m : Type → Type) [Monad m] (gives : (γ : Type) → m γ → γ → Prop) : Prop where
  pure {γ : Type} (x : γ) : gives γ (pure x) x
  bind {γ δ : Type} {c : m γ} {f : γ → m δ} {x : γ} {y : δ} :
    gives γ c x → gives δ (f x) y → gives δ (c >>= f) y

/-- Without a state a computation is its value. -/
theorem answering_id : Answering Id fun _ c x => Id.run c = x where
  pure _ := rfl
  bind := by
    rintro γ δ c f _ _ rfl rfl
    rfl

namespace JoinSearch

variable {α β : Type} [BEq α] [Hashable α] {value : β → α} {s : JoinSearch α} {xs : List β}
  {cap : ℕ}

/-! ### What was found -/

/-- The search has found the values of some elements, each once. -/
structure Holds (value : β → α) (s : JoinSearch α) (xs : List β) : Prop where
  found_eq : s.found.toList = xs.map value
  seen_iff : ∀ x, s.seen.contains (value x) = true ↔ x ∈ xs
  nodup : xs.Nodup

/-- The number of elements does not exceed the cap; a cap of zero is none. -/
def Within (cap : ℕ) (xs : List β) : Prop := cap = 0 ∨ xs.length ≤ cap

theorem holds_empty [LawfulBEq α] (value : β → α) : Holds value ⟨#[], ∅⟩ [] := ⟨rfl, by simp, List.nodup_nil⟩

theorem Holds.size_eq (hs : Holds value s xs) : s.found.size = xs.length := by
  rw [← Array.length_toList, hs.found_eq, List.length_map]

theorem Holds.isOver_iff (hs : Holds value s xs) : s.isOver cap = true ↔ ¬ Within cap xs := by
  simp only [isOver, hs.size_eq, Within, Bool.and_eq_true, bne_iff_ne, decide_eq_true_eq]
  omega

theorem Holds.getElem?_found (hs : Holds value s xs) (i : ℕ) :
    s.found[i]? = xs[i]?.map value := by
  rw [← Array.getElem?_toList, hs.found_eq, List.getElem?_map]

/-- Adding the value of an element. -/
theorem Holds.add [LawfulBEq α] (hvalue : Function.Injective value) (hs : Holds value s xs) (x : β) :
    ∃ ys, Holds value (s.add (value x)) ys ∧ xs <+: ys ∧ (∀ y, y ∈ ys ↔ y ∈ xs ∨ y = x) ∧
      ys.length ≤ xs.length + 1 := by
  rw [JoinSearch.add]
  by_cases hx : x ∈ xs
  · rw [if_pos ((hs.seen_iff x).2 hx)]
    refine ⟨xs, hs, List.prefix_refl xs, fun y => ?_, Nat.le_succ _⟩
    exact ⟨Or.inl, fun h => h.elim id fun h => h ▸ hx⟩
  · rw [if_neg (mt (hs.seen_iff x).1 hx)]
    refine ⟨xs ++ [x], ⟨?_, fun y => ?_, ?_⟩, List.prefix_append xs [x], fun y => by simp, by simp⟩
    · simp [hs.found_eq]
    · have h := hs.seen_iff y
      simp only [Std.HashSet.contains_insert, Bool.or_eq_true, beq_iff_eq, hvalue.eq_iff, h,
        List.mem_append, List.mem_singleton]
      rw [or_comm, eq_comm]
    · rw [List.nodup_append]
      refine ⟨hs.nodup, List.nodup_singleton x, fun y hy z hz => ?_⟩
      rw [List.mem_singleton] at hz
      rintro rfl
      exact hx (hz ▸ hy)

/-- How a part of the search ends: within the cap and with a property of what was found, or with one
element more than the cap allows. -/
inductive Ends (value : β → α) (cap : ℕ) (P : List β → Prop) : JoinSearch α × Bool → Prop
  | through {s : JoinSearch α} {ys : List β} (hs : Holds value s ys) (hcap : Within cap ys)
      (hys : P ys) : Ends value cap P (s, false)
  | exceeded {s : JoinSearch α} {ys : List β} (hs : Holds value s ys) (hcap : cap ≠ 0)
      (hlength : ys.length = cap + 1) : Ends value cap P (s, true)

theorem Ends.imp {P Q : List β → Prop} {r : JoinSearch α × Bool} (h : Ends value cap P r)
    (hPQ : ∀ ys, P ys → Q ys) : Ends value cap Q r := by
  cases h with
  | through hs hcap hys => exact .through hs hcap (hPQ _ hys)
  | exceeded hs hcap hlength => exact .exceeded hs hcap hlength

/-! ### The steps of the search -/

/-- Without repetitions there is no more in a list than in the type. -/
theorem length_le_card [Finite β] (hxs : xs.Nodup) : xs.length ≤ Nat.card β := by
  have := Fintype.ofFinite β
  rw [Nat.card_eq_fintype_card]
  exact hxs.length_le_card

/-- A list without repetitions that has everything is as long as the type. -/
theorem length_eq_card [Finite β] (hxs : xs.Nodup) (hall : ∀ x, x ∈ xs) :
    xs.length = Nat.card β := by
  classical
  have := Fintype.ofFinite β
  have huniv : xs.toFinset = Finset.univ := by
    ext x
    simp [hall x]
  rw [Nat.card_eq_fintype_card, ← Finset.card_univ, ← huniv, List.toFinset_card_of_nodup hxs]

theorem take_succ_of_initial {ys : List β} {i : ℕ} {x : β} (h : xs <+: ys) (hx : xs[i]? = some x) :
    ys.take (i + 1) = xs.take i ++ [x] := by
  obtain ⟨zs, rfl⟩ := h
  have hlt : i < xs.length := (List.getElem?_eq_some_iff.1 hx).1
  rw [List.take_append_of_le_length hlt, List.take_add_one, hx, Option.toList_some]

variable [LawfulBEq α]

theorem addAll_spec (hvalue : Function.Injective value) (gs : List β) (hs : Holds value s xs)
    (hcap : Within cap xs) :
    Ends value cap (fun ys => xs <+: ys ∧ ∀ g ∈ gs, g ∈ ys) (addAll cap (gs.map value) s) := by
  induction gs generalizing s xs with
  | nil => exact .through hs hcap ⟨List.prefix_refl xs, by simp⟩
  | cons g gs ih =>
      obtain ⟨ys, hys, hinitial, hmem, hlength⟩ := hs.add hvalue g
      rw [List.map_cons, addAll]
      by_cases hover : Within cap ys
      · rw [if_neg (mt hys.isOver_iff.1 (not_not.2 hover))]
        refine (ih hys hover).imp fun zs hzs => ⟨hinitial.trans hzs.1, fun h hh => ?_⟩
        rcases List.mem_cons.1 hh with rfl | hh
        · exact hzs.1.subset ((hmem h).2 (Or.inr rfl))
        · exact hzs.2 h hh
      · rw [if_pos (hys.isOver_iff.2 hover)]
        simp only [Within] at hcap hover
        exact .exceeded hys (by omega) (by omega)

variable {m : Type → Type} [Monad m] {gives : (γ : Type) → m γ → γ → Prop} [SemilatticeSup β]
  {join : α → α → m α} {below : α → α → Bool}

/-- One element is joined with all generators. -/
theorem extend_spec (hm : Answering m gives) (hvalue : Function.Injective value)
    (hbelow : ∀ x y, below (value x) (value y) = true ↔ x ≤ y)
    (hjoin : ∀ x y, gives α (join (value x) (value y)) (value (x ⊔ y))) {x : β} (gs : List β)
    (hs : Holds value s xs) (hcap : Within cap xs) (hx : x ∈ xs) :
    ∃ r, gives _ (extend join below cap (value x) (gs.map value) s) r ∧
      Ends value cap (fun ys => xs <+: ys ∧ ∀ g ∈ gs, x ⊔ g ∈ ys) r := by
  induction gs generalizing s xs with
  | nil => exact ⟨_, hm.pure _, .through hs hcap ⟨List.prefix_refl xs, by simp⟩⟩
  | cons g gs ih =>
      rw [List.map_cons, extend]
      by_cases hgx : g ≤ x
      · rw [if_pos ((hbelow g x).2 hgx)]
        obtain ⟨r, hr, hends⟩ := ih hs hcap hx
        refine ⟨r, hr, hends.imp fun ys hys => ⟨hys.1, fun h hh => ?_⟩⟩
        rcases List.mem_cons.1 hh with rfl | hh
        · rw [sup_eq_left.2 hgx]
          exact hys.1.subset hx
        · exact hys.2 h hh
      · rw [if_neg (mt (hbelow g x).1 hgx)]
        obtain ⟨ys, hys, hinitial, hmem, hlength⟩ := hs.add hvalue (x ⊔ g)
        by_cases hover : Within cap ys
        · obtain ⟨r, hr, hends⟩ := ih hys hover (hinitial.subset hx)
          refine ⟨r, hm.bind (hjoin x g) ?_, hends.imp fun zs hzs => ⟨hinitial.trans hzs.1,
            fun h hh => ?_⟩⟩
          · rw [if_neg (mt hys.isOver_iff.1 (not_not.2 hover))]
            exact hr
          · rcases List.mem_cons.1 hh with rfl | hh
            · exact hzs.1.subset ((hmem _).2 (Or.inr rfl))
            · exact hzs.2 h hh
        · refine ⟨_, hm.bind (hjoin x g) ?_, .exceeded hys ?_ ?_⟩
          · rw [if_pos (hys.isOver_iff.2 hover)]
            exact hm.pure _
          · exact fun h => hover (Or.inl h)
          · simp only [Within] at hcap hover
            omega

/-- **The search through everything found.**  What stands before number `i` has its joins already;
afterwards everything has. -/
theorem scan_spec [Finite β] (hm : Answering m gives) (hvalue : Function.Injective value)
    (hbelow : ∀ x y, below (value x) (value y) = true ↔ x ≤ y)
    (hjoin : ∀ x y, gives α (join (value x) (value y)) (value (x ⊔ y))) (gs : List β)
    {fuel i : ℕ} (hfuel : Nat.card β < i + fuel) (hs : Holds value s xs) (hcap : Within cap xs)
    (hdone : ∀ x ∈ xs.take i, ∀ g ∈ gs, x ⊔ g ∈ xs) :
    ∃ r, gives _ (scan join below cap (gs.map value) fuel i s) r ∧
      Ends value cap (fun ys => xs <+: ys ∧ ∀ x ∈ ys, ∀ g ∈ gs, x ⊔ g ∈ ys) r := by
  induction fuel generalizing i s xs with
  | zero =>
      have hlength := length_le_card hs.nodup
      rw [List.take_of_length_le (by omega)] at hdone
      exact ⟨_, hm.pure _, .through hs hcap ⟨List.prefix_refl xs, hdone⟩⟩
  | succ fuel ih =>
      rw [scan, hs.getElem?_found]
      cases hx : xs[i]? with
      | none =>
          rw [List.take_of_length_le (List.getElem?_eq_none_iff.1 hx)] at hdone
          exact ⟨_, hm.pure _, .through hs hcap ⟨List.prefix_refl xs, hdone⟩⟩
      | some x =>
          obtain ⟨r, hr, hends⟩ :=
            extend_spec hm hvalue hbelow hjoin gs hs hcap (List.mem_of_getElem? hx)
          cases hends with
          | exceeded hs' hcap' hlength => exact ⟨_, hm.bind hr (hm.pure _), .exceeded hs' hcap' hlength⟩
          | @through s' ys hs' hcap' hys =>
              obtain ⟨hinitial, hjoins⟩ := hys
              have hdone' : ∀ y ∈ ys.take (i + 1), ∀ g ∈ gs, y ⊔ g ∈ ys := by
                intro y hy g hg
                rw [take_succ_of_initial hinitial hx, List.mem_append, List.mem_singleton] at hy
                rcases hy with hy | rfl
                · exact hinitial.subset (hdone y hy g hg)
                · exact hjoins g hg
              obtain ⟨r', hr', hends⟩ := ih (by omega) hs' hcap' hdone'
              exact ⟨r', hm.bind hr hr', hends.imp fun zs hzs => ⟨hinitial.trans hzs.1, hzs.2⟩⟩

end JoinSearch

/-! ### The whole search -/

section

open JoinSearch

variable {α β : Type} [BEq α] [Hashable α] [LawfulBEq α] [SemilatticeSup β] [OrderBot β] [Finite β]
  {m : Type → Type} [Monad m] {gives : (γ : Type) → m γ → γ → Prop} {value : β → α}
  (join : α → α → m α) {below : α → α → Bool}

/-- **Within the cap every element is found once, otherwise one more than the cap allows.** -/
theorem joinClosure_spec (hm : Answering m gives) (hvalue : Function.Injective value)
    (hbelow : ∀ x y, below (value x) (value y) = true ↔ x ≤ y)
    (hjoin : ∀ x y, gives α (join (value x) (value y)) (value (x ⊔ y))) {gs : List β}
    (hgenerates : Generates {g | g ∈ gs}) {bound : ℕ} (hbound : Nat.card β ≤ bound) (cap : ℕ) :
    ∃ (xs : List β) (capped : Bool), xs.Nodup ∧
      gives _ (joinClosure join below (value ⊥) (gs.map value) bound cap)
        (xs.map value, capped) ∧
      ((capped = false ∧ (cap = 0 ∨ Nat.card β ≤ cap) ∧ ∀ x, x ∈ xs) ∨
        (capped = true ∧ ¬ (cap = 0 ∨ Nat.card β ≤ cap) ∧ xs.length = cap + 1)) := by
  -- what is over the cap refutes that the cap suffices
  have hexceeded (s : JoinSearch α) (ys : List β) (hs : Holds value s ys) (hcap : cap ≠ 0)
      (hlength : ys.length = cap + 1) : ¬ (cap = 0 ∨ Nat.card β ≤ cap) := by
    have := length_le_card hs.nodup
    omega
  have hempty : Within cap ([] : List β) := Or.inr (Nat.zero_le cap)
  have hstart := addAll_spec hvalue (⊥ :: gs) (holds_empty value) hempty
  rw [List.map_cons] at hstart
  rw [joinClosure]
  generalize addAll cap (value ⊥ :: gs.map value) ⟨#[], ∅⟩ = start at hstart ⊢
  cases hstart with
  | @exceeded s ys hs hcap hlength =>
      refine ⟨ys, true, hs.nodup, ?_, Or.inr ⟨rfl, hexceeded s ys hs hcap hlength, hlength⟩⟩
      rw [← hs.found_eq]
      exact hm.pure _
  | @through s ys hs hcap hys =>
      have hfuel : Nat.card β < 0 + (bound + 1) := by omega
      obtain ⟨r, hr, hends⟩ := scan_spec hm hvalue hbelow hjoin gs hfuel hs hcap (by simp)
      cases hends with
      | @exceeded s' zs hs' hcap' hlength =>
          refine ⟨zs, true, hs'.nodup, hm.bind hr ?_,
            Or.inr ⟨rfl, hexceeded s' zs hs' hcap' hlength, hlength⟩⟩
          rw [← hs'.found_eq]
          exact hm.pure _
      | @through s' zs hs' hcap' hzs =>
          have hall := hgenerates.mem_of_closed (S := {x | x ∈ zs})
            (hzs.1.subset (hys.2 ⊥ List.mem_cons_self)) hzs.2
          refine ⟨zs, false, hs'.nodup, hm.bind hr ?_, Or.inl ⟨rfl, ?_, hall⟩⟩
          · rw [← hs'.found_eq]
            exact hm.pure _
          · rw [← length_eq_card hs'.nodup hall]
            exact hcap'

end

end UniversalAlgebra
