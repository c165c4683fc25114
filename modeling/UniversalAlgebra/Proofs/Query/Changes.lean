/-
**Changes that are refused or made at once.**

A call that changes what it is called on checks its arguments before it writes anything.  It is then the
same as a computation that works out the changed value, which either is refused or replaces the old one.

Main definitions:

* `Fallible.RefusesOnly` — a computation that fails for its arguments only;
* `Query.atOnce` — a change that is worked out first and then made at once.

Main results:

* `Fallible.foldlM_keeps`, `Fallible.exists_foldlM_eq_ok` — what the steps of a fold keep, and that it
  does not fail if they do not;
* `Fallible.mapM_eq_ok` — when a list of computations gives a list of values;
* `Query.atOnce_eq_error` — a change that is refused changes nothing.
-/

import UniversalAlgebra.Proofs.Query

set_option autoImplicit false

namespace UniversalAlgebra

/-! ### Lists of computations that may fail -/

namespace Fallible

variable {α β : Type} {f : β → α → Except Fault β} {xs : List α} {b b' : β}

/-- What each step keeps is kept by the fold, if it does not fail. -/
theorem foldlM_keeps {ε : Type} {f : β → α → Except ε β} {P : β → Prop}
    (hf : ∀ x ∈ xs, ∀ b b', P b → f b x = .ok b' → P b') (hb : P b) (h : xs.foldlM f b = .ok b') :
    P b' := by
  induction xs generalizing b with
  | nil =>
      cases h
      exact hb
  | cons x xs ih =>
      rw [List.foldlM_cons] at h
      cases hc : f b x with
      | error e =>
          rw [hc] at h
          cases h
      | ok c =>
          rw [hc] at h
          exact ih (fun y hy => hf y (List.mem_cons_of_mem x hy)) (hf x List.mem_cons_self b c hb hc) h

/-- If no step fails the fold does not. -/
theorem exists_foldlM_eq_ok (hf : ∀ x ∈ xs, ∀ b, ∃ b', f b x = .ok b') (b : β) :
    ∃ b', xs.foldlM f b = .ok b' := by
  induction xs generalizing b with
  | nil => exact ⟨b, rfl⟩
  | cons x xs ih =>
      obtain ⟨c, hc⟩ := hf x List.mem_cons_self b
      rw [List.foldlM_cons, hc, ok_bind]
      exact ih (fun y hy => hf y (List.mem_cons_of_mem x hy)) c

theorem map_eq_ok {f : α → β} {x : Except Fault α} {b : β} :
    f <$> x = .ok b ↔ ∃ a, x = .ok a ∧ f a = b := by
  cases x with
  | error fault => simp
  | ok a => simp

/-- A list of computations gives a list of values if each of them gives the value in its place. -/
theorem mapM_eq_ok {f : α → Except Fault β} {ys : List β} :
    xs.mapM f = .ok ys ↔ List.Forall₂ (fun x y => f x = .ok y) xs ys := by
  induction xs generalizing ys with
  | nil => simp [pure_eq, eq_comm]
  | cons x xs ih =>
      rw [List.mapM_cons, bind_eq_ok, List.forall₂_cons_left_iff]
      constructor
      · rintro ⟨y, hy, h⟩
        obtain ⟨ys, hys, h⟩ := bind_eq_ok.1 h
        cases h
        exact ⟨y, ys, hy, ih.1 hys, rfl⟩
      · rintro ⟨y, ys, hy, hys, rfl⟩
        exact ⟨y, hy, bind_eq_ok.2 ⟨ys, ih.2 hys, rfl⟩⟩

/-- If each of them gives a value there is a list of values. -/
theorem exists_mapM_eq_ok {f : α → Except Fault β} (hf : ∀ x ∈ xs, ∃ y, f x = .ok y) :
    ∃ ys, xs.mapM f = .ok ys := by
  induction xs with
  | nil => exact ⟨[], rfl⟩
  | cons x xs ih =>
      obtain ⟨⟨y, hy⟩, hrest⟩ := List.forall_mem_cons.1 hf
      obtain ⟨ys, hys⟩ := ih hrest
      exact ⟨y :: ys, by rw [List.mapM_cons, hy, hys]; rfl⟩

/-- Only arguments that the call does not accept make it fail. -/
def RefusesOnly (x : Except Fault α) : Prop := ∀ fault, x = .error fault → fault.kind = .invalidInput

theorem RefusesOnly.ok (x : α) : RefusesOnly (.ok x) := by
  intro fault h
  cases h

theorem RefusesOnly.error {fault : Fault} (h : fault.kind = .invalidInput) :
    RefusesOnly (.error fault : Except Fault α) := by
  rintro _ ⟨⟩
  exact h

theorem RefusesOnly.bind {x : Except Fault α} {f : α → Except Fault β} (hx : RefusesOnly x)
    (hf : ∀ a, RefusesOnly (f a)) : RefusesOnly (x >>= f) := by
  cases x with
  | error fault => exact .error (hx fault rfl)
  | ok a => exact hf a

theorem RefusesOnly.foldlM (hf : ∀ b x, RefusesOnly (f b x)) (xs : List α) (b : β) :
    RefusesOnly (xs.foldlM f b) := by
  induction xs generalizing b with
  | nil => exact .ok b
  | cons x xs ih =>
      rw [List.foldlM_cons]
      exact .bind (hf b x) ih

/-- A check, before something else. -/
theorem RefusesOnly.guard {c : Prop} [Decidable c] {fault : Fault} {f : PUnit → Except Fault α}
    (hfault : fault.kind = .invalidInput) (hf : ∀ u, RefusesOnly (f u)) :
    RefusesOnly (if c then throw fault >>= f else f ⟨⟩) := by
  split
  · exact .bind (.error hfault) hf
  · exact hf ⟨⟩

end Fallible

/-! ### Changes that are made at once -/

namespace Query

variable {σ α : Type} {I : σ → Prop}

/-- A change that is worked out first and then made at once; if it is refused nothing changes. -/
def atOnce (f : σ → Except Fault (α × σ)) : Query σ α := fun s =>
  match f s with
  | .ok change => .ok change.1 change.2
  | .error fault => .error fault s

theorem atOnce_of_ok {f : σ → Except Fault (α × σ)} {s s' : σ} {x : α} (h : f s = .ok (x, s')) :
    atOnce f s = .ok x s' := by
  rw [atOnce, h]

theorem atOnce_of_error {f : σ → Except Fault (α × σ)} {s : σ} {fault : Fault}
    (h : f s = .error fault) : atOnce f s = .error fault s := by
  rw [atOnce, h]

/-- Only a change that was refused fails, and it changes nothing. -/
theorem atOnce_eq_error {f : σ → Except Fault (α × σ)} {s s' : σ} {fault : Fault} :
    atOnce f s = .error fault s' ↔ f s = .error fault ∧ s' = s := by
  rw [atOnce]
  cases f s with
  | ok change => simp
  | error refused => simp [eq_comm]

theorem Keeps.atOnce {f : σ → Except Fault (α × σ)}
    (hf : ∀ s x s', I s → f s = .ok (x, s') → I s') : Keeps I (Query.atOnce f) := by
  intro s hs
  rw [after]
  cases h : f s with
  | ok change =>
      rw [atOnce_of_ok h]
      exact hf s change.1 change.2 hs h
  | error fault =>
      rw [atOnce_of_error h]
      exact hs

end Query

end UniversalAlgebra
