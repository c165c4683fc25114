/-
**Sorting by a key.**

The linear orders of partitions and of sets of elements compare sizes first and lists of naturals
next, so each is the order of a key in a linear order.  Sorting by such an order gives an increasing
list, strictly increasing if no two entries have the same key, and a strictly increasing list is
known by its entries.

Main definitions:

* `OrderedBy` — a comparison is that of a key;
* `LinearlyOrders` — a comparison is a strict linear order of the values with a property;
* `everything` — the elements of a finite type.

Main results:

* `OrderedBy.linearlyOrders` — the order of a key is linear where the key tells values apart;
* `OrderedBy.pairwise_mergeSort` — sorting a list without repetitions;
* `OrderedBy.eq_of_pairwise` — **a strictly increasing list is known by its entries**;
* `OrderedBy.sort_map_eq` — sorted values do not depend on the order in which they are given;
* `OrderedBy.pairwise_dropRepeats_mergeSort` — sorting a list and dropping its repetitions;
* `eq_or_rel_of_find?` — a search in an ordered list finds the first entry of its kind.
-/

import Mathlib
import UniversalAlgebra.Algebra

set_option autoImplicit false

namespace UniversalAlgebra

variable {α κ : Type} [LinearOrder κ] {less : α → α → Bool} {key : α → κ} {xs ys : List α}

/-- A comparison is that of a key. -/
def OrderedBy (less : α → α → Bool) (key : α → κ) : Prop :=
  ∀ x y, less x y = true ↔ key x < key y

/-- A comparison is a strict linear order of the values with a property: of two such values either the
first comes before the second, or they are the same, or the second comes before the first, and only one
of these. -/
structure LinearlyOrders (less : α → α → Bool) (P : α → Prop) : Prop where
  irrefl : ∀ x, P x → ¬less x x = true
  trans : ∀ x y z, P x → P y → P z → less x y = true → less y z = true → less x z = true
  exactly_one : ∀ x y, P x → P y →
    (less x y = true ∧ x ≠ y ∧ ¬less y x = true) ∨ (¬less x y = true ∧ x = y ∧ ¬less y x = true) ∨
      (¬less x y = true ∧ x ≠ y ∧ less y x = true)

namespace OrderedBy

/-- The order of a key is linear where the key tells values apart. -/
theorem linearlyOrders (h : OrderedBy less key) {P : α → Prop}
    (hkey : ∀ x y, P x → P y → key x = key y → x = y) : LinearlyOrders less P where
  irrefl x _ hxx := lt_irrefl _ ((h x x).1 hxx)
  trans x y z _ _ _ hxy hyz := (h x z).2 (((h x y).1 hxy).trans ((h y z).1 hyz))
  exactly_one x y hx hy := by
    rw [h x y, h y x]
    rcases lt_trichotomy (key x) (key y) with hlt | heq | hlt
    · exact Or.inl ⟨hlt, fun hxy => hlt.ne (congrArg key hxy), hlt.asymm⟩
    · exact Or.inr (Or.inl ⟨heq.not_lt, hkey x y hx hy heq, heq.not_gt⟩)
    · exact Or.inr (Or.inr ⟨hlt.asymm, fun hxy => hlt.ne' (congrArg key hxy), hlt⟩)

theorem not_less_iff (h : OrderedBy less key) (x y : α) : (!less y x) = true ↔ key x ≤ key y := by
  rw [Bool.not_eq_true', ← Bool.not_eq_true, h y x, not_lt]

/-- Sorting gives an increasing list. -/
theorem pairwise_le_mergeSort (h : OrderedBy less key) (xs : List α) :
    (xs.mergeSort fun x y => !less y x).Pairwise fun x y => key x ≤ key y := by
  have hsorted : (xs.mergeSort fun x y => !less y x).Pairwise fun x y => (!less y x) = true := by
    refine List.pairwise_mergeSort (fun x y z => ?_) (fun x y => ?_) xs
    · rw [h.not_less_iff, h.not_less_iff, h.not_less_iff]
      exact le_trans
    · rw [Bool.or_eq_true, h.not_less_iff, h.not_less_iff]
      exact le_total _ _
  exact hsorted.imp fun hxy => (h.not_less_iff _ _).1 hxy

/-- Without repeated keys the list is strictly increasing. -/
theorem pairwise_mergeSort (h : OrderedBy less key) (hxs : xs.Nodup)
    (hkey : ∀ x ∈ xs, ∀ y ∈ xs, key x = key y → x = y) :
    (xs.mergeSort fun x y => !less y x).Pairwise fun x y => less x y = true := by
  have hnodup : (xs.mergeSort fun x y => !less y x).Nodup :=
    (List.mergeSort_perm xs _).nodup_iff.2 hxs
  have hle := h.pairwise_le_mergeSort xs
  refine (hle.and hnodup).imp_of_mem ?_
  rintro x y hx hy ⟨hxy, hne⟩
  rw [List.mem_mergeSort] at hx hy
  exact (h x y).2 (lt_of_le_of_ne hxy fun heq => hne (hkey x hx y hy heq))

/-- A strictly increasing list has no repetitions. -/
theorem nodup (h : OrderedBy less key) (hxs : xs.Pairwise fun x y => less x y = true) :
    xs.Nodup := by
  refine hxs.imp ?_
  rintro x _ hxx rfl
  exact lt_irrefl _ ((h x x).1 hxx)

/-- **A strictly increasing list is known by its entries.** -/
theorem eq_of_pairwise (h : OrderedBy less key) (hxs : xs.Pairwise fun x y => less x y = true)
    (hys : ys.Pairwise fun x y => less x y = true) (hmem : ∀ x, x ∈ xs ↔ x ∈ ys) : xs = ys := by
  have hperm : xs.Perm ys := (List.perm_ext_iff_of_nodup (h.nodup hxs) (h.nodup hys)).2 hmem
  refine hperm.eq_of_pairwise (fun x y _ _ hxy hyx => ?_) hxs hys
  exact absurd ((h x y).1 hxy) (lt_asymm ((h y x).1 hyx))

/-! ### Lists of values -/

section Values

variable {β : Type} {value : β → α} {us vs : List β}

/-- The values of distinct elements with distinct keys are put in strictly increasing order. -/
theorem pairwise_sort_map (h : OrderedBy less key) (hkey : Function.Injective (key ∘ value))
    (hus : us.Nodup) :
    ((us.map value).mergeSort fun x y => !less y x).Pairwise fun x y => less x y = true := by
  have hvalue : Function.Injective value := hkey.of_comp
  refine h.pairwise_mergeSort (hus.map hvalue) fun x hx y hy hxy => ?_
  obtain ⟨u, -, rfl⟩ := List.mem_map.1 hx
  obtain ⟨v, -, rfl⟩ := List.mem_map.1 hy
  exact congrArg value (hkey hxy)

/-- The order in which the elements are listed does not matter. -/
theorem sort_map_eq (h : OrderedBy less key) (hkey : Function.Injective (key ∘ value))
    (hus : us.Nodup) (hvs : vs.Nodup) (hmem : ∀ u, u ∈ us ↔ u ∈ vs) :
    ((us.map value).mergeSort fun x y => !less y x)
      = (vs.map value).mergeSort fun x y => !less y x := by
  refine h.eq_of_pairwise (h.pairwise_sort_map hkey hus) (h.pairwise_sort_map hkey hvs) fun x => ?_
  simp only [List.mem_mergeSort, List.mem_map, hmem]

end Values

end OrderedBy

/-! ### Dropping repeated entries -/

section DropRepeats

variable [BEq α] [LawfulBEq α] {before : List α}

theorem mem_dropRepeatsAfter {a : α} : a ∈ dropRepeatsAfter before xs ↔ a ∈ before ∨ a ∈ xs := by
  fun_induction dropRepeatsAfter before xs with
  | case1 before => simp
  | case2 before x => simp [or_comm]
  | case3 before x y rest ih =>
      rw [ih]
      by_cases h : x = y
      · simp [h]
      · simp only [beq_iff_eq, h, if_false, List.mem_cons]
        grind

@[simp] theorem mem_dropRepeats {a : α} : a ∈ dropRepeats xs ↔ a ∈ xs := by
  simp [dropRepeats, mem_dropRepeatsAfter]

theorem pairwise_dropRepeatsAfter (hkey : ∀ x ∈ xs, ∀ y ∈ xs, key x = key y → x = y)
    (hbefore : before.reverse.Pairwise fun x y => key x < key y)
    (hlt : ∀ b ∈ before, ∀ x ∈ xs, key b < key x) (hxs : xs.Pairwise fun x y => key x ≤ key y) :
    (dropRepeatsAfter before xs).Pairwise fun x y => key x < key y := by
  fun_induction dropRepeatsAfter before xs with
  | case1 before => exact hbefore
  | case2 before x =>
      rw [List.reverse_cons, List.pairwise_append]
      exact ⟨hbefore, List.pairwise_singleton _ x, by simpa using hlt⟩
  | case3 before x y rest ih =>
      rw [List.pairwise_cons] at hxs
      have hrest : ∀ z ∈ y :: rest, ∀ w ∈ y :: rest, key z = key w → z = w := fun z hz w hw =>
        hkey z (List.mem_cons_of_mem x hz) w (List.mem_cons_of_mem x hw)
      by_cases h : x = y
      · simp only [beq_iff_eq, h, if_true] at ih ⊢
        exact ih hrest hbefore (fun b hb z hz => hlt b hb z (List.mem_cons_of_mem x hz)) hxs.2
      · simp only [beq_iff_eq, h, if_false] at ih ⊢
        have hxy : key x < key y := lt_of_le_of_ne (hxs.1 y List.mem_cons_self) fun heq =>
          h (hkey x List.mem_cons_self y (by simp) heq)
        have hx (z : α) (hz : z ∈ y :: rest) : key x < key z := by
          rcases List.mem_cons.1 hz with rfl | hz
          · exact hxy
          · exact lt_of_lt_of_le hxy ((List.pairwise_cons.1 hxs.2).1 z hz)
        refine ih hrest ?_ ?_ hxs.2
        · rw [List.reverse_cons, List.pairwise_append]
          exact ⟨hbefore, List.pairwise_singleton _ x, by simpa using fun b hb => hlt b hb x (by simp)⟩
        · intro b hb z hz
          rcases List.mem_cons.1 hb with rfl | hb
          · exact hx z hz
          · exact hlt b hb z (List.mem_cons_of_mem x hz)

/-- Without its repetitions an increasing list is strictly increasing. -/
theorem pairwise_dropRepeats (hkey : ∀ x ∈ xs, ∀ y ∈ xs, key x = key y → x = y)
    (hxs : xs.Pairwise fun x y => key x ≤ key y) :
    (dropRepeats xs).Pairwise fun x y => key x < key y :=
  pairwise_dropRepeatsAfter hkey List.Pairwise.nil (by simp) hxs

/-- **Sorting a list and dropping its repetitions** gives a strictly increasing list. -/
theorem OrderedBy.pairwise_dropRepeats_mergeSort (h : OrderedBy less key)
    (hkey : ∀ x ∈ xs, ∀ y ∈ xs, key x = key y → x = y) :
    (dropRepeats (xs.mergeSort fun x y => !less y x)).Pairwise fun x y => less x y = true := by
  refine (pairwise_dropRepeats (fun x hx y hy => ?_) (h.pairwise_le_mergeSort xs)).imp (h _ _).2
  exact hkey x (List.mem_mergeSort.1 hx) y (List.mem_mergeSort.1 hy)

end DropRepeats

/-! ### The first entry that passes a test -/

/-- What else is found in an ordered list comes after the first. -/
theorem eq_or_rel_of_find? {α : Type} {R : α → α → Prop} {xs : List α} {P : α → Bool} {x y : α}
    (hxs : xs.Pairwise R) (hx : xs.find? P = some x) (hy : y ∈ xs) (hPy : P y = true) :
    y = x ∨ R x y := by
  obtain ⟨-, before, after, rfl, hbefore⟩ := List.find?_eq_some_iff_append.1 hx
  rw [List.mem_append, List.mem_cons] at hy
  rcases hy with hy | rfl | hy
  · have hnot := hbefore y hy
    rw [hPy] at hnot
    cases hnot
  · exact Or.inl rfl
  · rw [List.pairwise_append, List.pairwise_cons] at hxs
    exact Or.inr (hxs.2.1.1 y hy)

/-! ### All elements of a finite type -/

section Everything

/-- The elements of a finite type in some order. -/
noncomputable def everything (β : Type) [Finite β] : List β :=
  (Set.toFinite (Set.univ : Set β)).toFinset.toList

variable {β : Type} [Finite β]

@[simp] theorem mem_everything (x : β) : x ∈ everything β := by simp [everything]

theorem nodup_everything (β : Type) [Finite β] : (everything β).Nodup := Finset.nodup_toList _

theorem length_everything (β : Type) [Finite β] : (everything β).length = Nat.card β := by
  rw [everything, Finset.length_toList, ← Set.ncard_eq_toFinset_card, Set.ncard_univ]

end Everything

end UniversalAlgebra
