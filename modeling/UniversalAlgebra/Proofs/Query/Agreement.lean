/-
**Two runs of a query.**

Whether a query lets through what states keep of earlier queries is a matter of two runs.  They start
in two states that are related, and they agree if both fail with the same fault, or both answer with
the same value and leave related states again.  The relation before and the one after need not be the
same: a query that sets a part of the state anew relates more afterwards than was related before.
After a fault nothing is asked of the states, since nothing follows in the run.

Main definitions:

* `Query.SameEnd` — the ends of two runs that agree;
* `Query.Agrees` — runs from related states agree, and leave states that are related in another way.

Main results:

* `Query.Agrees.bind` — queries one after the other;
* `Query.Agrees.check` — a check that comes out alike in related states;
* `Query.Agrees.result_eq` — the answers are the same.
-/

import UniversalAlgebra.Proofs.Query

set_option autoImplicit false

namespace UniversalAlgebra.Query

variable {σ α β : Type} {R S T : σ → σ → Prop}

/-- The ends of two runs that agree: the same fault, or the same value and related states. -/
inductive SameEnd (S : σ → σ → Prop) :
    EStateM.Result Fault σ α → EStateM.Result Fault σ α → Prop
  | ok (x : α) {s t : σ} (h : S s t) : SameEnd S (.ok x s) (.ok x t)
  | error (fault : Fault) {s t : σ} : SameEnd S (.error fault s) (.error fault t)

/-- Runs from states related by `R` agree, and if they do not fail they leave states related by
`S`. -/
def Agrees (R : σ → σ → Prop) (q : Query σ α) (S : σ → σ → Prop) : Prop :=
  ∀ s t, R s t → SameEnd S (q s) (q t)

namespace Agrees

theorem pure (x : α) : Agrees R (pure x : Query σ α) R := fun _ _ h => .ok x h

theorem throw (fault : Fault) : Agrees R (throw fault : Query σ α) S := fun _ _ _ => .error fault

theorem lift (x : Except Fault α) : Agrees R (liftM x : Query σ α) R := by
  intro s t h
  cases x with
  | ok x => exact .ok x h
  | error fault => exact .error fault

theorem modify {f : σ → σ} (h : ∀ s t, R s t → S (f s) (f t)) :
    Agrees R (modify f : Query σ PUnit) S := by
  intro s t hst
  exact SameEnd.ok PUnit.unit (h s t hst)

theorem bind {q : Query σ α} {f : α → Query σ β} (hq : Agrees R q S)
    (hf : ∀ x, Agrees S (f x) T) : Agrees R (q >>= f) T := by
  intro s t hst
  have h := hq s t hst
  rw [bind_apply, bind_apply]
  generalize q s = r, q t = r' at h ⊢
  cases h with
  | ok x h => exact hf x _ _ h
  | error fault => exact .error fault

/-- Less may be asked of the states that are left. -/
theorem mono {q : Query σ α} (hq : Agrees R q S) (h : ∀ s t, S s t → T s t) : Agrees R q T := by
  intro s t hst
  have hend := hq s t hst
  generalize q s = r, q t = r' at hend ⊢
  cases hend with
  | ok x hend => exact .ok x (h _ _ hend)
  | error fault => exact .error fault

/-- What follows a look at the state is run in the state that was seen. -/
theorem get_bind {f : σ → Query σ β} (h : ∀ s t, R s t → SameEnd S (f s s) (f t t)) :
    Agrees R (get >>= f) S := h

/-- A check that comes out alike in related states. -/
theorem check {check : σ → Except Fault α} {f : α → Query σ β}
    (hcheck : ∀ s t, R s t → check s = check t) (hf : ∀ x, Agrees R (f x) S) :
    Agrees R (get >>= fun s => liftM (check s) >>= f) S := by
  refine get_bind fun s t hst => ?_
  rw [hcheck s t hst]
  exact Agrees.bind (Agrees.lift (check t)) hf s t hst

theorem ite {p : Prop} [Decidable p] {q r : Query σ α} (hq : Agrees R q S) (hr : Agrees R r S) :
    Agrees R (if p then q else r) S := by
  split
  · exact hq
  · exact hr

/-- A check that may fail, before something that agrees. -/
theorem guard {p : Prop} [Decidable p] {fault : Fault} {q : PUnit → Query σ α}
    (hq : ∀ u, Agrees R (q u) S) :
    Agrees R (if p then MonadExcept.throw fault >>= q else q ⟨⟩) S :=
  ite (bind (throw fault) hq) (hq ⟨⟩)

/-- The answers, values or faults, are the same. -/
theorem result_eq {q : Query σ α} (h : Agrees R q S) {s t : σ} (hst : R s t) :
    q.result s = q.result t := by
  have hend := h s t hst
  rw [result, result]
  generalize q s = r, q t = r' at hend ⊢
  cases hend with
  | ok x _ => rfl
  | error fault => rfl

end Agrees

end UniversalAlgebra.Query
