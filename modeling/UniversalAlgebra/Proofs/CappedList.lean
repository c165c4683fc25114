/-
**Lists that a cap can cut off.**

The list of all elements of a finite lattice is found by a search for joins, up to a cap.  The query
for it keeps the list only if it is whole, and a list that is kept is given whatever the cap.  So the
answer depends on the cap, on the number of elements and on whether the list is kept, and on nothing
else.

Main definitions:

* `FoundUpTo` — the whole list, or one member more than the cap allows;
* `Query.Available` — the whole list is kept, or a cap lets it through;
* `Query.Lists` — a query lists up to a cap, and keeps the list if it is whole.

Main results:

* `sorted_joinClosure_spec` — the search for joins, sorted;
* `Query.Lists.whole`, `Query.Lists.cutOff` — **what such a query answers**;
* `Query.Lists.orRefuse` — the whole list, or a refusal.
-/

import Mathlib
import UniversalAlgebra.Proofs.JoinClosure
import UniversalAlgebra.Proofs.Query
import UniversalAlgebra.Proofs.Sorting

set_option autoImplicit false

namespace UniversalAlgebra

variable {α : Type} {less : α → α → Bool} {all found : List α} {capped : Bool} {cap : ℕ}

/-- What is found up to a cap, and whether it was cut off: the whole list, or one member more than the
cap allows, in order. -/
inductive FoundUpTo (all : List α) (less : α → α → Bool) (cap : ℕ) : List α → Bool → Prop
  | whole (hcap : cap = 0 ∨ all.length ≤ cap) : FoundUpTo all less cap all false
  | cutOff {found : List α} (hcap : ¬ (cap = 0 ∨ all.length ≤ cap)) (hmem : ∀ x ∈ found, x ∈ all)
      (hlength : found.length = cap + 1) (hpairwise : found.Pairwise fun x y => less x y = true) :
      FoundUpTo all less cap found true

/-! ### The search for joins -/

section

variable {β κ : Type} [LinearOrder κ] {key : α → κ} [BEq α] [Hashable α] [LawfulBEq α]
  [SemilatticeSup β] [OrderBot β] [Finite β] {m : Type → Type} [Monad m]
  {gives : (γ : Type) → m γ → γ → Prop} {value : β → α} (join : α → α → m α)
  {below : α → α → Bool}

/-- **The search for joins, sorted**, gives the values of all elements in order, or one more than the
cap allows. -/
theorem sorted_joinClosure_spec (hm : Answering m gives) (horder : OrderedBy less key)
    (hkey : Function.Injective (key ∘ value))
    (hbelow : ∀ x y, below (value x) (value y) = true ↔ x ≤ y)
    (hjoin : ∀ x y, gives α (join (value x) (value y)) (value (x ⊔ y))) {gs : List α}
    (hgs : ∀ g ∈ gs, ∃ x, value x = g) (hgenerates : Generates {x | value x ∈ gs}) {bound : ℕ}
    (hbound : Nat.card β ≤ bound) (cap : ℕ) :
    ∃ (found : List α) (capped : Bool),
      gives _ (joinClosure join below (value ⊥) gs bound cap) (found, capped) ∧
      FoundUpTo (((everything β).map value).mergeSort fun x y => !less y x) less cap
        (found.mergeSort fun x y => !less y x) capped := by
  have hvalue : Function.Injective value := hkey.of_comp
  obtain ⟨us, rfl⟩ : ∃ us : List β, us.map value = gs := by
    have hrange : gs ∈ Set.range (List.map value) := by
      rw [Set.range_list_map]
      exact hgs
    exact hrange
  have hgenerates' : Generates {u | u ∈ us} := by
    simpa only [List.mem_map_of_injective hvalue] using hgenerates
  obtain ⟨xs, capped, hnodup, hsearch, hfound⟩ :=
    joinClosure_spec join hm hvalue hbelow hjoin hgenerates' hbound cap
  refine ⟨xs.map value, capped, hsearch, ?_⟩
  have hlength : (((everything β).map value).mergeSort fun x y => !less y x).length = Nat.card β := by
    rw [List.length_mergeSort, List.length_map, length_everything]
  rw [← hlength] at hfound
  rcases hfound with ⟨rfl, hcap, hall⟩ | ⟨rfl, hcap, hxs⟩
  · rw [horder.sort_map_eq hkey hnodup (nodup_everything β) fun x => by simp [hall x]]
    exact .whole hcap
  · refine .cutOff hcap ?_ ?_ (horder.pairwise_sort_map hkey hnodup)
    · intro x hx
      simp only [List.mem_mergeSort, List.mem_map] at hx ⊢
      obtain ⟨u, -, rfl⟩ := hx
      exact ⟨u, mem_everything u, rfl⟩
    · rw [List.length_mergeSort, List.length_map, hxs]

end

/-! ### Queries for such a list -/

namespace Query

variable {σ : Type} {I : σ → Prop} {slot : σ → Slot (List α)} {s s' : σ}
  {q : Query σ (List α × Bool)}

/-- What a query with a fixed answer gives, one step after the other. -/
theorem answering_yields (I : σ → Prop) : Answering (Query σ) fun _ q x => Yields I q (.ok x) where
  pure := Yields.pure
  bind := Yields.bind

/-- The search for joins keeps what each join keeps. -/
theorem Keeps.joinClosure [BEq α] [Hashable α] {join : α → α → Query σ α} (hjoin : ∀ x y, Keeps I (join x y))
    (below : α → α → Bool) (bottom : α) (generators : List α) (bound cap : ℕ) :
    Keeps I (joinClosure join below bottom generators bound cap) := by
  have hextend (x : α) (gs : List α) (s : JoinSearch α) :
      Keeps I (JoinSearch.extend join below cap x gs s) := by
    induction gs generalizing s with
    | nil => exact Keeps.pure _
    | cons g gs ih =>
        refine Keeps.ite (ih s) (Keeps.bind (hjoin x g) fun y => ?_)
        exact Keeps.ite (Keeps.pure _) (ih _)
  have hscan (fuel i : ℕ) (s : JoinSearch α) :
      Keeps I (JoinSearch.scan join below cap generators fuel i s) := by
    induction fuel generalizing i s with
    | zero => exact Keeps.pure _
    | succ fuel ih =>
        rw [JoinSearch.scan]
        cases s.found[i]? with
        | none => exact Keeps.pure _
        | some x =>
            refine Keeps.bind (hextend x generators s) fun found => ?_
            exact Keeps.ite (Keeps.pure _) (ih _ _)
  unfold UniversalAlgebra.joinClosure
  exact Keeps.ite (Keeps.pure _) (Keeps.bind (hscan _ _ _) fun _ => Keeps.pure _)

/-- Whether the whole list is to be had: it is kept, or there is no cap, or it is within the cap. -/
def Available (slot : σ → Slot (List α)) (all : List α) (cap : ℕ) (s : σ) : Prop :=
  (slot s).isReady = true ∨ cap = 0 ∨ all.length ≤ cap

/-- What is answered from one state, and in which state that leaves the slot. -/
inductive Listed (slot : σ → Slot (List α)) (all : List α) (less : α → α → Bool) (cap : ℕ)
    (s s' : σ) : List α → Bool → Prop
  | whole (havailable : Available slot all cap s) (hkept : (slot s').value? = some all) :
      Listed slot all less cap s s' all false
  | cutOff {found : List α} (hnot : ¬ Available slot all cap s) (hvacant : (slot s').isReady = false)
      (hmem : ∀ x ∈ found, x ∈ all) (hlength : found.length = cap + 1)
      (hpairwise : found.Pairwise fun x y => less x y = true) :
      Listed slot all less cap s s' found true

/-- The query lists up to a cap, and keeps the list if it is whole. -/
def Lists (I : σ → Prop) (slot : σ → Slot (List α)) (all : List α) (less : α → α → Bool) (cap : ℕ)
    (q : Query σ (List α × Bool)) : Prop :=
  ∀ s, I s → ∃ found capped s', q s = .ok (found, capped) s' ∧ I s' ∧
    Listed slot all less cap s s' found capped

/-- A list that is kept is given whatever the cap. -/
theorem listed_of_kept (h : (slot s).value? = some all) : Listed slot all less cap s s all false :=
  .whole (Or.inl (Slot.isReady_of_eq_some h)) h

/-- A list that was searched for is kept if it is whole. -/
theorem listed_of_found (hfound : FoundUpTo all less cap found capped) {s₀ : σ} (hs : I s)
    (hvacant₀ : (slot s₀).value? = none) (hvacant : (slot s).value? = none)
    {keep : Query σ (List α)} (hkeep : found = all → keep s = .ok all s') (hs' : I s')
    (hslot : (slot s').value? = some all) :
    ∃ found' capped' s'', (if capped = true then pure (found, true)
        else keep >>= fun all => pure (all, false) : Query σ (List α × Bool)) s
      = .ok (found', capped') s'' ∧ I s'' ∧ Listed slot all less cap s₀ s'' found' capped' := by
  cases hfound with
  | whole hcap =>
      refine ⟨all, false, s', ?_, hs', .whole (Or.inr hcap) hslot⟩
      rw [if_neg Bool.false_ne_true, bind_of_ok (hkeep rfl)]
      rfl
  | cutOff hcap hmem hlength hpairwise =>
      refine ⟨found, true, s, rfl, hs, .cutOff ?_ ?_ hmem hlength hpairwise⟩
      · rintro (h | h)
        · rw [Slot.isReady, hvacant₀, Option.isSome_none] at h
          cases h
        · exact hcap h
      · rw [Slot.isReady, hvacant, Option.isSome_none]

namespace Lists

theorem keeps (hq : Lists I slot all less cap q) : Keeps I q := by
  intro s hs
  obtain ⟨found, capped, s', hrun, hs', -⟩ := hq s hs
  rwa [after, hrun]

/-- **The whole list, kept from then on.** -/
theorem whole (hq : Lists I slot all less cap q) (hs : I s) (havailable : Available slot all cap s) :
    ∃ s', q s = .ok (all, false) s' ∧ I s' ∧ (slot s').value? = some all := by
  obtain ⟨found, capped, s', hrun, hs', hlisted⟩ := hq s hs
  cases hlisted with
  | whole _ hkept => exact ⟨s', hrun, hs', hkept⟩
  | cutOff hnot => exact absurd havailable hnot

/-- **One member more than the cap allows, and nothing kept.** -/
theorem cutOff (hq : Lists I slot all less cap q) (hs : I s) (hnot : ¬ Available slot all cap s) :
    ∃ found s', q s = .ok (found, true) s' ∧ I s' ∧ (slot s').isReady = false ∧
      (∀ x ∈ found, x ∈ all) ∧ found.length = cap + 1 ∧
      found.Pairwise fun x y => less x y = true := by
  obtain ⟨found, capped, s', hrun, hs', hlisted⟩ := hq s hs
  cases hlisted with
  | whole havailable => exact absurd havailable hnot
  | cutOff _ hvacant hmem hlength hpairwise =>
      exact ⟨found, s', hrun, hs', hvacant, hmem, hlength, hpairwise⟩

/-- What passes on the whole list and refuses one that was cut off. -/
theorem orRefuse (hq : Lists I slot all less cap q) {fault : Fault}
    {f : List α × Bool → Query σ (List α)} (hwhole : f (all, false) = pure all)
    (hrefuse : ∀ found, f (found, true) = throw fault) (hs : I s) :
    ∃ s', I s' ∧ ((Available slot all cap s ∧ (q >>= f) s = .ok all s') ∨
      (¬ Available slot all cap s ∧ (q >>= f) s = .error fault s')) := by
  by_cases havailable : Available slot all cap s
  · obtain ⟨s', hrun, hs', -⟩ := hq.whole hs havailable
    refine ⟨s', hs', Or.inl ⟨havailable, ?_⟩⟩
    rw [bind_of_ok hrun, hwhole]
    rfl
  · obtain ⟨found, s', hrun, hs', -⟩ := hq.cutOff hs havailable
    refine ⟨s', hs', Or.inr ⟨havailable, ?_⟩⟩
    rw [bind_of_ok hrun, hrefuse]
    rfl

theorem ensures (hq : Lists I slot all less cap q) {fault : Fault}
    {f : List α × Bool → Query σ (List α)} (hwhole : f (all, false) = pure all)
    (hrefuse : ∀ found, f (found, true) = throw fault) : Ensures I (q >>= f) (· = all) := by
  intro s hs
  obtain ⟨s', hs', ⟨-, hrun⟩ | ⟨-, hrun⟩⟩ := hq.orRefuse hwhole hrefuse hs
  · rw [after, value?, hrun]
    exact ⟨hs', fun x hx => (Option.some_inj.1 hx).symm⟩
  · rw [after, value?, hrun]
    exact ⟨hs', fun x hx => by cases hx⟩

end Lists

end Query

end UniversalAlgebra
