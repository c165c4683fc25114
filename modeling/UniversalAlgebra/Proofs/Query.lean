/-
**Reasoning about computations that may fail.**

A computation without state is opened one bind at a time.  For a query two properties relative to an
invariant of the state matter: that it keeps the invariant, whether it fails or not, and that its
answer, a value or a fault, is the same from every state with the invariant.  Both are closed under
the ways in which queries are put together, and a value that is computed once can be read off the
slot or the table in which it is kept.

Main definitions:

* `Query.after`, `Query.value?` — the state that a query leaves, and its answer;
* `Query.Keeps` — the query keeps an invariant;
* `Query.Ensures` — the query keeps an invariant, and its answer has a property;
* `Query.Yields`, `Query.Constant` — the query keeps an invariant and has one answer under it.

Main results:

* `Fallible.bind_eq_ok` — a bind succeeds exactly if both parts do;
* `Query.Keeps.bind`, `Query.Yields.bind` — queries one after the other;
* `Query.Yields.getOrCompute`, `Query.Yields.findOrCompute` — values that are computed once.
-/

import Mathlib
import UniversalAlgebra.Query

set_option autoImplicit false

namespace UniversalAlgebra

/-! ### Computations without state -/

namespace Fallible

variable {α β : Type}

theorem ok_bind (x : α) (f : α → Except Fault β) : (Except.ok x >>= f) = f x := rfl

theorem error_bind (fault : Fault) (f : α → Except Fault β) :
    ((Except.error fault : Except Fault α) >>= f) = .error fault := rfl

theorem throw_eq (fault : Fault) : (throw fault : Except Fault α) = .error fault := rfl

theorem pure_eq (x : α) : (pure x : Except Fault α) = .ok x := rfl

/-- A bind succeeds exactly if both of its parts do. -/
theorem bind_eq_ok {x : Except Fault α} {f : α → Except Fault β} {b : β} :
    x >>= f = .ok b ↔ ∃ a, x = .ok a ∧ f a = .ok b := by
  cases x with
  | error fault => simp [error_bind]
  | ok a => simp [ok_bind]

/-- A search whose tests do not fail. -/
theorem findM?_eq_ok {test : α → Except Fault Bool} {p : α → Bool} {xs : List α}
    (h : ∀ x ∈ xs, test x = .ok (p x)) : xs.findM? test = .ok (xs.find? p) := by
  induction xs with
  | nil => rfl
  | cons x xs ih =>
      rw [List.findM?, h x List.mem_cons_self, ok_bind, List.find?_cons]
      cases p x with
      | true => rfl
      | false => exact ih fun y hy => h y (List.mem_cons_of_mem x hy)

end Fallible

/-! ### Slots and tables -/

namespace Slot

variable {ν : Type}

theorem isReady_of_eq_some {s : Slot ν} {v : ν} (h : s.value? = some v) : s.isReady = true := by
  rw [isReady, h, Option.isSome_some]

theorem publish_eq (s : Slot ν) (v : ν) :
    s.publish v = (s.value?.getD v, ⟨some (s.value?.getD v)⟩) := by
  obtain ⟨w⟩ := s
  cases w <;> rfl

end Slot

namespace Memo

variable {κ ν : Type} [BEq κ] [Hashable κ]

@[simp] theorem find?_vacant (k : κ) : (vacant : Memo κ ν).find? k = none := by
  simp [vacant, find?]

theorem publish_fst (m : Memo κ ν) (k : κ) (v : ν) : (m.publish k v).1 = (m.find? k).getD v := by
  rw [publish]
  cases m.find? k <;> rfl

/-- Publishing under a key leaves the other keys alone. -/
theorem find?_publish [LawfulBEq κ] (m : Memo κ ν) (k j : κ) (v : ν) :
    (m.publish k v).2.find? j = if k == j then some ((m.find? k).getD v) else m.find? j := by
  rw [publish]
  split
  · next w hw =>
      split
      · next h => simp [← eq_of_beq h, hw]
      · rfl
  · next hw =>
      simp only [find?] at hw
      simp only [find?, Std.HashMap.getElem?_insert, hw, Option.getD_none]

/-- What holds of every entry and of a new one holds of every entry once that is published. -/
theorem forall_find?_publish [LawfulBEq κ] {P : κ → ν → Prop} {m : Memo κ ν}
    (hm : ∀ j w, m.find? j = some w → P j w) {k : κ} {v : ν} (hv : P k v) :
    ∀ j w, (m.publish k v).2.find? j = some w → P j w := by
  intro j w hj
  rw [find?_publish] at hj
  split at hj
  · next heq =>
      obtain rfl := eq_of_beq heq
      cases hfound : m.find? k with
      | none =>
          rw [hfound, Option.getD_none, Option.some_inj] at hj
          exact hj ▸ hv
      | some u =>
          rw [hfound, Option.getD_some, Option.some_inj] at hj
          exact hj ▸ hm k u hfound
  · exact hm j w hj

end Memo

/-! ### What a query keeps -/

namespace Query

variable {σ α β : Type} {I : σ → Prop}

/-- The state that a query leaves, whether it fails or not. -/
def after (q : Query σ α) (s : σ) : σ :=
  match q s with
  | .ok _ s' => s'
  | .error _ s' => s'

/-- The answer of a query, unless it fails. -/
def value? (q : Query σ α) (s : σ) : Option α :=
  match q s with
  | .ok x _ => some x
  | .error _ _ => none

theorem value?_eq_some {q : Query σ α} {s : σ} {x : α} :
    q.value? s = some x ↔ ∃ s', q s = .ok x s' := by
  rw [value?]
  cases q s with
  | ok y s' =>
      constructor
      · rintro ⟨⟩
        exact ⟨s', rfl⟩
      · rintro ⟨_, ⟨⟩⟩
        rfl
  | error fault s' =>
      constructor
      · rintro ⟨⟩
      · rintro ⟨_, ⟨⟩⟩

/-- The first of two queries runs first, and only if it does not fail the other one follows. -/
theorem bind_apply (q : Query σ α) (f : α → Query σ β) (s : σ) :
    (q >>= f) s
      = match q s with
        | .ok x s' => f x s'
        | .error fault s' => .error fault s' := by
  change EStateM.bind q f s = _
  rw [EStateM.bind]
  cases q s <;> rfl

theorem bind_of_ok {q : Query σ α} {f : α → Query σ β} {s s' : σ} {x : α} (h : q s = .ok x s') :
    (q >>= f) s = f x s' := by
  rw [bind_apply, h]

theorem bind_of_error {q : Query σ α} {f : α → Query σ β} {s s' : σ} {fault : Fault}
    (h : q s = .error fault s') : (q >>= f) s = .error fault s' := by
  rw [bind_apply, h]

theorem get_bind_apply (f : σ → Query σ β) (s : σ) : (get >>= f) s = f s s := rfl

/-- What a query answers, a value or a fault. -/
def result (q : Query σ α) (s : σ) : Except Fault α :=
  match q s with
  | .ok x _ => .ok x
  | .error fault _ => .error fault

/-- The query keeps an invariant, whether it fails or not. -/
def Keeps (I : σ → Prop) (q : Query σ α) : Prop := ∀ s, I s → I (q.after s)

theorem Keeps.pure (x : α) : Keeps I (pure x : Query σ α) := fun _ hs => hs

theorem Keeps.throw (fault : Fault) : Keeps I (throw fault : Query σ α) := fun _ hs => hs

theorem Keeps.lift (x : Except Fault α) : Keeps I (liftM x : Query σ α) := by
  intro s hs
  cases x with
  | ok x => exact hs
  | error fault => exact hs

theorem Keeps.modify {f : σ → σ} (h : ∀ s, I s → I (f s)) :
    Keeps I (modify f : Query σ PUnit) := fun s hs => h s hs

theorem Keeps.set {s : σ} (h : I s) : Keeps I (set s : Query σ PUnit) := fun _ _ => h

theorem Keeps.bind {q : Query σ α} {f : α → Query σ β} (hq : Keeps I q)
    (hf : ∀ x, Keeps I (f x)) : Keeps I (q >>= f) := by
  intro s hs
  have h := hq s hs
  rw [after] at h ⊢
  rw [bind_apply]
  cases hqs : q s with
  | ok x s' =>
      rw [hqs] at h
      exact hf x s' h
  | error fault s' =>
      rw [hqs] at h
      exact h

/-- What follows a look at the state may use that the invariant holds of what was seen. -/
theorem Keeps.get_bind {f : σ → Query σ β} (hf : ∀ s, I s → Keeps I (f s)) :
    Keeps I (get >>= f) := fun s hs => hf s hs s hs

theorem Keeps.ite {p : Prop} [Decidable p] {q r : Query σ α} (hq : Keeps I q) (hr : Keeps I r) :
    Keeps I (if p then q else r) := by
  split
  · exact hq
  · exact hr

/-- A check that may fail, before something that keeps the invariant. -/
theorem Keeps.guard {p : Prop} [Decidable p] {fault : Fault} {q : PUnit → Query σ α}
    (hq : ∀ u, Keeps I (q u)) : Keeps I (if p then MonadExcept.throw fault >>= q else q ⟨⟩) :=
  Keeps.ite (Keeps.bind (Keeps.throw fault) hq) (hq ⟨⟩)

theorem Keeps.mapM {f : α → Query σ β} (hf : ∀ x, Keeps I (f x)) (xs : List α) :
    Keeps I (xs.mapM f) := by
  induction xs with
  | nil => exact Keeps.pure []
  | cons x xs ih =>
      rw [List.mapM_cons]
      exact Keeps.bind (hf x) fun _ => Keeps.bind ih fun _ => Keeps.pure _

theorem Keeps.filterM {f : α → Query σ Bool} (hf : ∀ x, Keeps I (f x)) (xs : List α) :
    Keeps I (xs.filterM f) := by
  have go (xs kept : List α) : Keeps I (xs.filterAuxM f kept) := by
    induction xs generalizing kept with
    | nil => exact Keeps.pure kept
    | cons x xs ih => exact Keeps.bind (hf x) fun _ => ih _
  exact Keeps.bind (go xs []) fun _ => Keeps.pure _

variable {ν κ : Type} [BEq κ] [Hashable κ]

theorem Keeps.getOrCompute {slot : σ → Slot ν} {store : σ → Slot ν → σ} {compute : Query σ ν}
    (hcompute : Keeps I compute) (hstore : ∀ s x, I s → I (store s x)) :
    Keeps I (Slot.getOrCompute slot store compute) := by
  refine Keeps.get_bind fun s _ => ?_
  cases (slot s).value? with
  | some v => exact Keeps.pure v
  | none => exact Keeps.bind hcompute fun v s hs => hstore s _ hs

theorem Keeps.findOrCompute {table : σ → Memo κ ν} {store : σ → Memo κ ν → σ} {key : κ}
    {compute : Query σ ν} (hcompute : Keeps I compute)
    (hstore : ∀ s x y, I s → I (store (store s x) y)) :
    Keeps I (Memo.findOrCompute table store key compute) := by
  refine Keeps.get_bind fun s _ => ?_
  cases (table s).find? key with
  | some v => exact Keeps.pure v
  | none => exact Keeps.bind hcompute fun v s hs => hstore s _ _ hs

/-- Two invariants that are kept are kept together. -/
theorem Keeps.and {J : σ → Prop} {q : Query σ α} (hI : Keeps I q) (hJ : Keeps J q) :
    Keeps (fun s => I s ∧ J s) q := fun s hs => ⟨hI s hs.1, hJ s hs.2⟩

/-- The query keeps an invariant, and what it answers, if it does not fail, has a property. -/
def Ensures (I : σ → Prop) (q : Query σ α) (P : α → Prop) : Prop :=
  ∀ s, I s → I (q.after s) ∧ ∀ x, q.value? s = some x → P x

theorem Ensures.keeps {q : Query σ α} {P : α → Prop} (h : Ensures I q P) : Keeps I q :=
  fun s hs => (h s hs).1

theorem Ensures.get_bind {P : β → Prop} {f : σ → Query σ β} (hf : ∀ s, I s → Ensures I (f s) P) :
    Ensures I (get >>= f) P := fun s hs => hf s hs s hs

/-- What follows a query may use what is known of its answer. -/
theorem Ensures.bind_keeps {q : Query σ α} {P : α → Prop} {f : α → Query σ β}
    (hq : Ensures I q P) (hf : ∀ x, P x → Keeps I (f x)) : Keeps I (q >>= f) := by
  intro s hs
  obtain ⟨hafter, hvalue⟩ := hq s hs
  rw [after] at hafter ⊢
  rw [bind_apply]
  cases hqs : q s with
  | ok x s' =>
      rw [hqs] at hafter
      exact hf x (hvalue x (value?_eq_some.2 ⟨s', hqs⟩)) s' hafter
  | error fault s' =>
      rw [hqs] at hafter
      exact hafter

/-! ### What a query yields -/

/-- An answer, with the state in which it is given. -/
def answer : Except Fault α → σ → EStateM.Result Fault σ α
  | .ok x, s => .ok x s
  | .error fault, s => .error fault s

/-- From every state with the invariant the query gives the same answer, and keeps the invariant. -/
def Yields (I : σ → Prop) (q : Query σ α) (r : Except Fault α) : Prop :=
  ∀ s, I s → ∃ s', I s' ∧ q s = answer r s'

theorem Yields.keeps {q : Query σ α} {r : Except Fault α} (h : Yields I q r) : Keeps I q := by
  intro s hs
  obtain ⟨s', hs', h'⟩ := h s hs
  rw [after, h']
  cases r <;> exact hs'

/-- An invariant that the query keeps goes along. -/
theorem Yields.and {J : σ → Prop} {q : Query σ α} {r : Except Fault α} (h : Yields I q r)
    (hJ : Keeps J q) : Yields (fun s => I s ∧ J s) q r := by
  intro s hs
  obtain ⟨s', hs', heq⟩ := h s hs.1
  have hafter := hJ s hs.2
  rw [after, heq] at hafter
  refine ⟨s', ⟨hs', ?_⟩, heq⟩
  cases r <;> exact hafter

theorem Yields.pure (x : α) : Yields I (pure x : Query σ α) (.ok x) := fun s hs => ⟨s, hs, rfl⟩

theorem Yields.throw (fault : Fault) : Yields I (throw fault : Query σ α) (.error fault) :=
  fun s hs => ⟨s, hs, rfl⟩

theorem Yields.lift (x : Except Fault α) : Yields I (liftM x : Query σ α) x := by
  intro s hs
  refine ⟨s, hs, ?_⟩
  cases x <;> rfl

theorem Yields.bind {q : Query σ α} {f : α → Query σ β} {x : α} {r : Except Fault β}
    (hq : Yields I q (.ok x)) (hf : Yields I (f x) r) : Yields I (q >>= f) r := by
  intro s hs
  obtain ⟨s', hs', h⟩ := hq s hs
  obtain ⟨s'', hs'', h'⟩ := hf s' hs'
  refine ⟨s'', hs'', ?_⟩
  rw [bind_apply, h]
  exact h'

/-- What follows a query that goes through. -/
theorem Yields.bind_of_ok {q : Query σ α} {f : α → Query σ β} {x : α} {y : β} {s s₁ : σ}
    (hf : Yields I (f x) (.ok y)) (hs₁ : I s₁) (hrun : q s = .ok x s₁) :
    ∃ s', I s' ∧ (q >>= f) s = .ok y s' := by
  obtain ⟨s', hs', h⟩ := hf s₁ hs₁
  exact ⟨s', hs', (Query.bind_of_ok hrun).trans h⟩

/-- A query that fails is not followed by anything. -/
theorem Yields.bind_error {q : Query σ α} {f : α → Query σ β} {fault : Fault}
    (hq : Yields I q (.error fault)) : Yields I (q >>= f) (.error fault) := by
  intro s hs
  obtain ⟨s', hs', h⟩ := hq s hs
  refine ⟨s', hs', ?_⟩
  rw [bind_apply, h]
  rfl

theorem Yields.get_bind {f : σ → Query σ β} {r : Except Fault β}
    (hf : ∀ s, I s → Yields I (f s) r) : Yields I (get >>= f) r := fun s hs => hf s hs s hs

theorem Yields.mapM {f : α → Query σ β} {g : α → β} {xs : List α}
    (hf : ∀ x ∈ xs, Yields I (f x) (.ok (g x))) : Yields I (xs.mapM f) (.ok (xs.map g)) := by
  induction xs with
  | nil => exact Yields.pure []
  | cons x xs ih =>
      rw [List.mapM_cons]
      have hrest := ih fun y hy => hf y (List.mem_cons_of_mem x hy)
      exact Yields.bind (hf x List.mem_cons_self) (Yields.bind hrest (Yields.pure _))

theorem Yields.filterM {f : α → Query σ Bool} {g : α → Bool} {xs : List α}
    (hf : ∀ x ∈ xs, Yields I (f x) (.ok (g x))) : Yields I (xs.filterM f) (.ok (xs.filter g)) := by
  have go (xs kept : List α) (hf : ∀ x ∈ xs, Yields I (f x) (.ok (g x))) :
      Yields I (xs.filterAuxM f kept) (.ok ((xs.filter g).reverse ++ kept)) := by
    induction xs generalizing kept with
    | nil => exact Yields.pure kept
    | cons x xs ih =>
        have hrest := ih (cond (g x) (x :: kept) kept) fun y hy => hf y (List.mem_cons_of_mem x hy)
        refine Yields.bind (hf x List.mem_cons_self) ?_
        rw [List.filter_cons]
        cases hgx : g x with
        | true => simpa [hgx] using hrest
        | false => simpa [hgx] using hrest
  refine Yields.bind (go xs [] hf) ?_
  rw [List.append_nil, List.reverse_reverse]
  exact Yields.pure _

/-- A value that is computed once: if what the slot holds is the value that the computation gives,
that is the answer, whether it was there before or not. -/
theorem Yields.getOrCompute {slot : σ → Slot ν} {store : σ → Slot ν → σ} {compute : Query σ ν}
    {v : ν} (hslot : ∀ s, I s → ∀ w, (slot s).value? = some w → w = v)
    (hcompute : Yields I compute (.ok v)) (hstore : ∀ s, I s → I (store s ⟨some v⟩)) :
    Yields I (Slot.getOrCompute slot store compute) (.ok v) := by
  refine Yields.get_bind fun s hs => ?_
  cases hw : (slot s).value? with
  | some w =>
      rw [hslot s hs w hw]
      exact Yields.pure v
  | none =>
      refine Yields.bind hcompute fun s hs => ⟨store s ⟨some v⟩, hstore s hs, ?_⟩
      have h : (slot s).value?.getD v = v := by
        cases hw : (slot s).value? with
        | some w => exact hslot s hs w hw
        | none => rfl
      simp [modifyGet, MonadStateOf.modifyGet, EStateM.modifyGet, answer, Slot.publish_eq, h]

/-- The same for a value under a key. -/
theorem Yields.findOrCompute {table : σ → Memo κ ν} {store : σ → Memo κ ν → σ} {key : κ}
    {compute : Query σ ν} {v : ν} (htable : ∀ s, I s → ∀ w, (table s).find? key = some w → w = v)
    (hcompute : Yields I compute (.ok v))
    (hstore : ∀ s x, I s → I (store (store s x) ((table s).publish key v).2)) :
    Yields I (Memo.findOrCompute table store key compute) (.ok v) := by
  refine Yields.get_bind fun s hs => ?_
  cases hw : (table s).find? key with
  | some w =>
      rw [htable s hs w hw]
      exact Yields.pure v
  | none =>
      refine Yields.bind hcompute fun s hs =>
        ⟨store (store s .vacant) ((table s).publish key v).2, hstore s _ hs, ?_⟩
      have h : ((table s).publish key v).1 = v := by
        rw [Memo.publish_fst]
        cases hw : (table s).find? key with
        | some w => exact htable s hs w hw
        | none => rfl
      simp [modifyGet, MonadStateOf.modifyGet, EStateM.modifyGet, answer, Memo.exchange, h]

/-! ### Queries with one answer -/

/-- The query keeps an invariant, and its answer, a value or a fault, is the same from every state
with the invariant. -/
def Constant (I : σ → Prop) (q : Query σ α) : Prop := ∃ r, Yields I q r

theorem Yields.result_eq {q : Query σ α} {r : Except Fault α} (h : Yields I q r) {s : σ}
    (hs : I s) : q.result s = r := by
  obtain ⟨s', -, heq⟩ := h s hs
  rw [result, heq]
  cases r <;> rfl

theorem Yields.constant {q : Query σ α} {r : Except Fault α} (h : Yields I q r) : Constant I q :=
  ⟨r, h⟩

theorem Constant.keeps {q : Query σ α} (h : Constant I q) : Keeps I q := by
  obtain ⟨r, h⟩ := h
  exact h.keeps

theorem Constant.result_eq {q : Query σ α} (h : Constant I q) {s t : σ} (hs : I s) (ht : I t) :
    q.result s = q.result t := by
  obtain ⟨r, h⟩ := h
  rw [h.result_eq hs, h.result_eq ht]

theorem Constant.pure (x : α) : Constant I (pure x : Query σ α) := (Yields.pure x).constant

theorem Constant.throw (fault : Fault) : Constant I (throw fault : Query σ α) :=
  (Yields.throw fault).constant

theorem Constant.lift (x : Except Fault α) : Constant I (liftM x : Query σ α) :=
  (Yields.lift x).constant

theorem Constant.bind {q : Query σ α} {f : α → Query σ β} (hq : Constant I q)
    (hf : ∀ x, Constant I (f x)) : Constant I (q >>= f) := by
  obtain ⟨r, hr⟩ := hq
  cases r with
  | error fault => exact (Yields.bind_error hr).constant
  | ok x =>
      obtain ⟨r', hr'⟩ := hf x
      exact (Yields.bind hr hr').constant

/-- What follows a look at the state has one answer if all states with the invariant lead to the same
continuation. -/
theorem Constant.get_bind {f : σ → Query σ β} {q : Query σ β} (hf : ∀ s, I s → f s = q)
    (hq : Constant I q) : Constant I (get >>= f) := by
  obtain ⟨r, hr⟩ := hq
  exact ⟨r, Yields.get_bind fun s hs => hf s hs ▸ hr⟩

/-- A check with the same outcome in all states with the invariant, before something with one
answer. -/
theorem Constant.check {check : σ → Except Fault α} {x : Except Fault α} {f : α → Query σ β}
    (hcheck : ∀ s, I s → check s = x) (hf : ∀ a, x = .ok a → Constant I (f a)) :
    Constant I (get >>= fun s => liftM (check s) >>= f) := by
  have hsame (s : σ) (hs : I s) :
      (liftM (check s) >>= f : Query σ β) = liftM x >>= f := by rw [hcheck s hs]
  refine Constant.get_bind hsame ?_
  cases x with
  | error fault => exact (Yields.bind_error (Yields.lift (.error fault))).constant
  | ok a =>
      obtain ⟨r, hr⟩ := hf a rfl
      exact (Yields.bind (Yields.lift (.ok a)) hr).constant

theorem Constant.ite {p : Prop} [Decidable p] {q r : Query σ α} (hq : Constant I q)
    (hr : Constant I r) : Constant I (if p then q else r) := by
  split
  · exact hq
  · exact hr

theorem Constant.guard {p : Prop} [Decidable p] {fault : Fault} {q : PUnit → Query σ α}
    (hq : ∀ u, Constant I (q u)) :
    Constant I (if p then MonadExcept.throw fault >>= q else q ⟨⟩) :=
  Constant.ite (Constant.bind (Constant.throw fault) hq) (hq ⟨⟩)

end Query

end UniversalAlgebra
