/-
**How many subgroups and how many equivalence relations there are.**

A subgroup of a cyclic group has as many elements as the group has solutions of an equation, and is
known from their number, which may be any divisor of the order.  An equivalence relation on a set with
one more element consists of the class of that element and of an equivalence relation on what is left,
which gives the recursion of the Bell numbers.

Main results:

* `card_addSubgroup_zmod` — the subgroups of a cyclic group are as many as the divisors of its order;
* `card_setoid` — **the equivalence relations on a finite set are counted by the Bell numbers**.
-/

import Mathlib

set_option autoImplicit false

namespace UniversalAlgebra

/-! ### Subgroups of a cyclic group -/

section Subgroups

variable {n : ℕ} [NeZero n]

/-- A subgroup of a cyclic group consists of the solutions of an equation, which are not more. -/
theorem mem_addSubgroup_zmod_iff (H : AddSubgroup (ZMod n)) (z : ZMod n) :
    z ∈ H ↔ Nat.card H • z = 0 := by
  classical
  let solutions : Finset (ZMod n) := {z | Nat.card H • z = 0}
  have hsub : (Finset.univ.filter (· ∈ H)) ⊆ solutions := by
    intro z hz
    have hmem : z ∈ H := by simpa using hz
    have horder : Nat.card H • (⟨z, hmem⟩ : H) = 0 := card_nsmul_eq_zero'
    exact Finset.mem_filter.2 ⟨Finset.mem_univ z, congrArg Subtype.val horder⟩
  have hcard : (Finset.univ.filter (· ∈ H)).card = Nat.card H := by
    rw [← Fintype.card_subtype, Nat.card_eq_fintype_card]
  have hle : solutions.card ≤ (Finset.univ.filter (· ∈ H)).card := by
    rw [hcard]
    exact IsAddCyclic.card_nsmul_eq_zero_le Nat.card_pos
  have heq := Finset.eq_of_subset_of_card_le hsub hle
  calc z ∈ H ↔ z ∈ Finset.univ.filter (· ∈ H) := by simp
    _ ↔ z ∈ solutions := by rw [heq]
    _ ↔ Nat.card H • z = 0 := by simp [solutions]

/-- The subgroups of a cyclic group are as many as the divisors of its order. -/
theorem card_addSubgroup_zmod (n : ℕ) [NeZero n] :
    Nat.card (AddSubgroup (ZMod n)) = n.divisors.card := by
  have hdvd (H : AddSubgroup (ZMod n)) : Nat.card H ∈ n.divisors := by
    rw [Nat.mem_divisors]
    exact ⟨by simpa using H.card_addSubgroup_dvd_card, NeZero.ne n⟩
  have hbijective : Function.Bijective
      fun H : AddSubgroup (ZMod n) => (⟨Nat.card H, hdvd H⟩ : n.divisors) := by
    constructor
    · intro H K hHK
      have hcard : Nat.card H = Nat.card K := congrArg Subtype.val hHK
      ext z
      rw [mem_addSubgroup_zmod_iff, mem_addSubgroup_zmod_iff, hcard]
    · rintro ⟨d, hd⟩
      obtain ⟨⟨m, rfl⟩, -⟩ := Nat.mem_divisors.1 hd
      have hpos : 0 < d * m := Nat.pos_of_ne_zero (NeZero.ne (d * m))
      refine ⟨AddSubgroup.zmultiples (m : ZMod (d * m)), Subtype.ext ?_⟩
      calc Nat.card (AddSubgroup.zmultiples (m : ZMod (d * m)))
          = addOrderOf (m : ZMod (d * m)) := Nat.card_zmultiples _
        _ = d * m / Nat.gcd (d * m) m := ZMod.addOrderOf_coe m (NeZero.ne (d * m))
        _ = d := by
            rw [Nat.gcd_eq_right (Dvd.intro_left d rfl),
              Nat.mul_div_cancel d (Nat.pos_of_mul_pos_left hpos)]
  rw [Nat.card_eq_of_bijective _ hbijective, Nat.card_eq_fintype_card, Fintype.card_coe]

end Subgroups

/-! ### Equivalence relations -/

section EquivalenceRelations

variable {α : Type} {S : Finset α}

/-- The elements of `α` that are related to the additional one. -/
def AddedClass (S : Finset α) (s : Setoid (Option α)) : Prop := ∀ x, s none (some x) ↔ x ∈ S

/-- The relation among the elements that are not related to the additional one. -/
def outsideClass (S : Finset α) (s : Setoid (Option α)) : Setoid {x // x ∉ S} := s.comap fun x => some x.1

open Classical in
/-- Relates a class with the additional element, and the others as given. -/
noncomputable def addClass (S : Finset α) (r : Setoid {x // x ∉ S}) : Setoid (Option α) :=
  Setoid.ker fun
    | none => none
    | some x => if h : x ∈ S then none else some (Quotient.mk r ⟨x, h⟩)

theorem addedClass_addClass (r : Setoid {x // x ∉ S}) : AddedClass S (addClass S r) := by
  intro x
  rw [addClass, Setoid.ker_def]
  by_cases h : x ∈ S <;> simp [h]

theorem outsideClass_addClass (r : Setoid {x // x ∉ S}) : outsideClass S (addClass S r) = r := by
  ext x y
  obtain ⟨x, hx⟩ := x
  obtain ⟨y, hy⟩ := y
  rw [outsideClass, Setoid.comap_rel, addClass, Setoid.ker_def]
  simp [hx, hy, Quotient.eq]

/-- An equivalence relation is known from the class of the additional element and from the rest. -/
theorem AddedClass.ext {s t : Setoid (Option α)} (hs : AddedClass S s) (ht : AddedClass S t)
    (h : outsideClass S s = outsideClass S t) : s = t := by
  have hclass (a : Option α) : s none a ↔ t none a := by
    cases a with
    | none => exact iff_of_true (s.refl _) (t.refl _)
    | some x => exact (hs x).trans (ht x).symm
  have htransfer {s t : Setoid (Option α)} (hclass : ∀ a, s none a → t none a) {a b : Option α}
      (ha : s none a) (hab : s a b) : t a b :=
    t.trans (t.symm (hclass a ha)) (hclass b (s.trans ha hab))
  ext a b
  by_cases ha : s none a
  · exact ⟨htransfer (fun a => (hclass a).1) ha, htransfer (fun a => (hclass a).2) ((hclass a).1 ha)⟩
  by_cases hb : s none b
  · have hsymm : s b a ↔ t b a :=
      ⟨htransfer (fun a => (hclass a).1) hb, htransfer (fun a => (hclass a).2) ((hclass b).1 hb)⟩
    exact s.comm'.trans (hsymm.trans t.comm')
  cases a with
  | none => exact absurd (s.refl _) ha
  | some x =>
      cases b with
      | none => exact absurd (s.refl _) hb
      | some y =>
          have hx : x ∉ S := fun hx => ha ((hs x).2 hx)
          have hy : y ∉ S := fun hy => hb ((hs y).2 hy)
          exact Setoid.ext_iff.1 h ⟨x, hx⟩ ⟨y, hy⟩

theorem card_addedClass (S : Finset α) :
    Nat.card {s : Setoid (Option α) // AddedClass S s} = Nat.card (Setoid {x // x ∉ S}) := by
  refine Nat.card_eq_of_bijective (fun s => outsideClass S s.1) ⟨?_, ?_⟩
  · intro s t h
    exact Subtype.ext (s.2.ext t.2 h)
  · intro r
    exact ⟨⟨addClass S r, addedClass_addClass r⟩, outsideClass_addClass r⟩

/-- An equivalence relation on a finite set is one of finitely many relations. -/
instance finite_setoid [Finite α] : Finite (Setoid α) :=
  Finite.of_injective (fun (s : Setoid α) a b => s a b) fun _ _ h =>
    Setoid.ext fun a b => Iff.of_eq (congrFun (congrFun h a) b)

/-- The class of the additional element may be anything, and so may the rest. -/
theorem card_setoid_option [Fintype α] :
    Nat.card (Setoid (Option α)) = ∑ S : Finset α, Nat.card (Setoid {x // x ∉ S}) := by
  classical
  let classOf (s : Setoid (Option α)) : Finset α := {x | s none (some x)}
  have hclass (S : Finset α) (s : Setoid (Option α)) : classOf s = S ↔ AddedClass S s := by
    simp [classOf, AddedClass, Finset.ext_iff]
  calc Nat.card (Setoid (Option α))
      = Nat.card (Σ S, {s // classOf s = S}) := Nat.card_congr (Equiv.sigmaFiberEquiv classOf).symm
    _ = ∑ S : Finset α, Nat.card {s // classOf s = S} := Nat.card_sigma
    _ = ∑ S : Finset α, Nat.card (Setoid {x // x ∉ S}) :=
        Finset.sum_congr rfl fun S _ => by
          rw [← card_addedClass S]
          exact Nat.card_congr (Equiv.subtypeEquivRight (hclass S))

/-- The number of equivalence relations depends only on the number of elements. -/
theorem card_setoid_congr {β : Type} (e : α ≃ β) : Nat.card (Setoid α) = Nat.card (Setoid β) :=
  (Nat.card_eq_of_bijective (Setoid.comap e)
    ⟨Setoid.comap_injective e e.surjective, Setoid.comap_surjective e e.injective⟩).symm

/-- **The equivalence relations on a finite set are counted by the Bell numbers.** -/
theorem card_setoid (α : Type) [Fintype α] : Nat.card (Setoid α) = Nat.bell (Fintype.card α) := by
  -- the induction is on the number of elements, for all sets at once
  induction hn : Fintype.card α using Nat.strong_induction_on generalizing α with
  | _ n ih =>
    cases n with
    | zero =>
        have := Fintype.card_eq_zero_iff.1 hn
        have : Subsingleton (Setoid α) := ⟨fun s t => Setoid.ext fun a => isEmptyElim a⟩
        rw [Nat.bell_zero, Nat.card_unique]
    | succ n =>
        classical
        have hoption : Fintype.card α = Fintype.card (Option (Fin n)) := by simp [hn]
        have hrest (S : Finset (Fin n)) : Nat.card (Setoid {x // x ∉ S}) = Nat.bell (n - S.card) := by
          refine ih (n - S.card) (by omega) {x // x ∉ S} ?_
          simp [Fintype.card_subtype_compl]
        calc Nat.card (Setoid α)
            = Nat.card (Setoid (Option (Fin n))) := card_setoid_congr (Fintype.equivOfCardEq hoption)
          _ = ∑ S : Finset (Fin n), Nat.bell (n - S.card) := by simp only [card_setoid_option, hrest]
          _ = ∑ k ∈ Finset.range (n + 1), n.choose k * Nat.bell (n - k) := by
              have h : ∑ S ∈ (Finset.univ : Finset (Fin n)).powerset, Nat.bell (n - S.card) = _ :=
                Finset.sum_powerset_apply_card fun k => Nat.bell (n - k)
              simpa using h
          _ = Nat.bell (n + 1) := by rw [Nat.bell_succ, Nat.range_succ_eq_Iic]

end EquivalenceRelations

end UniversalAlgebra
