/-
**What is computed and shown while closing.**

A pass computes images and shows them to the closure.  Sequentially each image is shown before the next
one is computed, in a state that has moved on by then; in parallel each operation has a task of its own,
which computes images in the state with which the pass started until one of them fails.  The calls of a
pass are listed here in both modes, each with the state in which it is made, so that one can say what is
true of all of them.

A call whose image fails ends closing in the state in which it was made: nothing is shown after it, and in
parallel nothing of its pass at all.

Main definitions:

* `Fallible.steps`, `Fallible.tried` — the steps of a fold, and of a list of computations, up to the
  first that fails;
* `Closure.Call`, `Closure.calls` — the images that a pass computes;
* `Closure.shown` — what a pass shows to the closure;
* `Closure.Computes`, `Closure.Shows` — the calls of all passes.

Main results:

* `Closure.state_pass_eq` — a pass leaves what showing its items one after the other leaves;
* `Closure.mem_calls`, `Closure.mem_shown` — calls are made in states with the invariant, with arguments
  that are drawn there;
* `Closure.pass_of_failing_call` — a pass ends with a call that fails;
* `Closure.close_of_failing_call` — **closing ends with a call that fails, in its state**.
-/

import UniversalAlgebra.Proofs.Closure.Faults
import UniversalAlgebra.Proofs.Query.Changes

set_option autoImplicit false

namespace UniversalAlgebra

open Growth

/-! ### The steps of a computation that may fail -/

namespace Fallible

variable {α β ε : Type}

/-- The states that a fold goes through, each with the entry it meets there. -/
def steps (f : β → α → Except ε β) : List α → β → List (β × α)
  | [], _ => []
  | x :: xs, b =>
      (b, x) ::
        match f b x with
        | .ok b' => steps f xs b'
        | .error _ => []

/-- The entries of a list at which a computation is tried, one after the other until it fails. -/
def tried (f : α → Except ε β) : List α → List α
  | [] => []
  | x :: xs =>
      x ::
        match f x with
        | .ok _ => tried f xs
        | .error _ => []

/-- What each step keeps holds at each step. -/
theorem steps_keeps {f : β → α → Except ε β} {P : β → Prop} {xs : List α} {b : β}
    (hf : ∀ x ∈ xs, ∀ b b', P b → f b x = .ok b' → P b') (hb : P b) :
    ∀ c ∈ steps f xs b, P c.1 ∧ c.2 ∈ xs := by
  induction xs generalizing b with
  | nil => exact fun c hc => absurd hc List.not_mem_nil
  | cons x xs ih =>
      rw [steps, List.forall_mem_cons]
      refine ⟨⟨hb, List.mem_cons_self⟩, ?_⟩
      cases hx : f b x with
      | error e => exact fun c hc => absurd hc List.not_mem_nil
      | ok b' =>
          intro c hc
          obtain ⟨hP, hmem⟩ := ih (fun y hy => hf y (List.mem_cons_of_mem x hy))
            (hf x List.mem_cons_self b b' hb hx) c hc
          exact ⟨hP, List.mem_cons_of_mem x hmem⟩

/-- A fold ends with a step that fails. -/
theorem foldlM_of_failing_step {f : β → α → Except ε β} {xs : List α} {b : β} {c : β × α} {e : ε}
    (hc : c ∈ steps f xs b) (h : f c.1 c.2 = .error e) : xs.foldlM f b = .error e := by
  induction xs generalizing b with
  | nil => cases hc
  | cons x xs ih =>
      rw [List.foldlM_cons]
      rw [steps] at hc
      rcases List.mem_cons.1 hc with rfl | hc
      · rw [h]
        rfl
      · cases hx : f b x with
        | error e' =>
            rw [hx] at hc
            cases hc
        | ok b' =>
            rw [hx] at hc
            exact ih hc

theorem mem_of_mem_tried {f : α → Except ε β} {xs : List α} {x : α} (h : x ∈ tried f xs) :
    x ∈ xs := by
  induction xs with
  | nil => exact h
  | cons y xs ih =>
      rw [tried] at h
      rcases List.mem_cons.1 h with rfl | h
      · exact List.mem_cons_self
      · split at h
        · exact List.mem_cons_of_mem y (ih h)
        · cases h

/-- A list of computations ends with the one that fails. -/
theorem mapM_of_failing_try {f : α → Except ε β} {xs : List α} {x : α} {e : ε} (hx : x ∈ tried f xs)
    (h : f x = .error e) : xs.mapM f = .error e := by
  induction xs with
  | nil => cases hx
  | cons y xs ih =>
      rw [List.mapM_cons]
      rw [tried] at hx
      rcases List.mem_cons.1 hx with rfl | hx
      · rw [h]
        rfl
      · cases hy : f y with
        | error e' =>
            rw [hy] at hx
            cases hx
        | ok v =>
            rw [hy] at hx
            rw [ih hx]
            rfl

/-- A list of computations fails only if one of them does. -/
theorem exists_of_mapM_eq_error {f : α → Except ε β} {xs : List α} {e : ε}
    (h : xs.mapM f = .error e) : ∃ x ∈ xs, f x = .error e := by
  induction xs with
  | nil => cases h
  | cons x xs ih =>
      rw [List.mapM_cons] at h
      cases hx : f x with
      | error e' =>
          rw [hx] at h
          cases h
          exact ⟨x, List.mem_cons_self, hx⟩
      | ok v =>
          rw [hx] at h
          cases hrest : xs.mapM f with
          | ok vs =>
              rw [hrest] at h
              cases h
          | error e' =>
              rw [hrest] at h
              cases h
              obtain ⟨y, hy, hfault⟩ := ih hrest
              exact ⟨y, List.mem_cons_of_mem x hy, hfault⟩

end Fallible

open Fallible

namespace Closure

variable {σ ι : Type}

/-- The image of some arguments under an operation is computed in a state. -/
structure Call (σ : Type) where
  /-- The state of the closure. -/
  state : σ
  /-- The operation. -/
  op : Operation
  /-- The arguments, by the numbers of items and positions. -/
  args : List ℕ

variable [Growth σ ι]

/-! ### The calls of a pass -/

/-- What the call finds, if it is worth showing. -/
def Call.found (c : Call σ) : Option ι := imageAt c.state c.op c.args

/-- What the call finds, with the state in which it is made. -/
def Call.emitted (c : Call σ) : List (σ × ι) := c.found.toList.map fun x => (c.state, x)

/-- The images under one operation that a sequential pass computes.  Each is shown before the next one is
computed. -/
def operationCalls (cap start stop : ℕ) (s : σ) (op : Operation) : List (Call σ) :=
  (steps (absorbImage cap op) (drawn s op start stop) s).map fun step => ⟨step.1, op, step.2⟩

/-- The images that a sequential pass computes. -/
def sequentialCalls (cap : ℕ) (ops : List Operation) (start stop : ℕ) (s : σ) : List (Call σ) :=
  (steps (fun s op => Tuples.foldBoxes (arguments s op start stop) (absorbImage cap op) s) ops s).flatMap
    fun begun => operationCalls cap start stop begun.1 begun.2

/-- The images that the tasks of a parallel pass compute. -/
def parallelCalls (ops : List Operation) (start stop : ℕ) (s : σ) : List (Call σ) :=
  ops.flatMap fun op => (tried (image s op) (drawn s op start stop)).map fun args => ⟨s, op, args⟩

/-- The images that a pass computes. -/
def calls (mode : Mode) (cap : ℕ) (ops : List Operation) (start stop : ℕ) (s : σ) : List (Call σ) :=
  match mode with
  | .sequential => sequentialCalls cap ops start stop s
  | .parallel => parallelCalls ops start stop s

/-- What a pass shows to the closure, each item with the state in which it is shown. -/
def shown (mode : Mode) (cap : ℕ) (ops : List Operation) (start stop : ℕ) (s : σ) : List (σ × ι) :=
  match mode with
  | .sequential => (sequentialCalls cap ops start stop s).flatMap Call.emitted
  | .parallel =>
      match collect (outcomes ops start stop s) with
      | .ok xs => steps (absorb cap) xs s
      | .error _ => []

/-- In some pass the image is computed. -/
def Computes (A : Algebra) (mode : Mode) (cap mark : ℕ) (s : σ) (c : Call σ) : Prop :=
  ∃ number start t, passStart? mode cap A.operations number mark s = some (start, t) ∧
    c ∈ calls mode cap A.operations start (size t) t

/-- In some pass the item is shown to the closure in a given state. -/
def Shows (A : Algebra) (mode : Mode) (cap mark : ℕ) (s t : σ) (x : ι) : Prop :=
  ∃ number start t', passStart? mode cap A.operations number mark s = some (start, t') ∧
    (t, x) ∈ shown mode cap A.operations start (size t') t'

/-- What closing in a mode may come to.  In parallel, workers may take turns in any way. -/
def ComesTo (A : Algebra) (mode : Mode) (cap mark : ℕ) (s : σ) (o : Outcome σ) : Prop :=
  match mode with
  | .sequential => o = close A .sequential cap mark s
  | .parallel => ParallelOutcome A cap mark s o

theorem ComesTo.eq_close {A : Algebra} {mode : Mode} {cap mark : ℕ} {s : σ} {o : Outcome σ}
    (h : ComesTo A mode cap mark s o) : o = close A mode cap mark s := by
  cases mode with
  | sequential => exact h
  | parallel => exact ParallelOutcome.eq_close h

variable {ops : List Operation} {J : σ → Prop} {s : σ} {cap start stop : ℕ} {mode : Mode}

/-! ### Outcomes that are collected -/

theorem mem_of_collect {os : List (Except Fault (Option ι))} {xs : List ι} {x : ι}
    (h : collect os = .ok xs) (hx : x ∈ xs) : .ok (some x) ∈ os := by
  induction os generalizing xs with
  | nil =>
      cases h
      cases hx
  | cons o os ih =>
      match o with
      | .error fault => cases h
      | .ok none => exact List.mem_cons_of_mem _ (ih h hx)
      | .ok (some y) =>
          obtain ⟨ys, hys, rfl⟩ := map_eq_ok.1 h
          rcases List.mem_cons.1 hx with rfl | hx
          · exact List.mem_cons_self
          · exact List.mem_cons_of_mem _ (ih hys hx)

/-- If something fails, what is collected is one of the failures. -/
theorem exists_collect_eq_error {os : List (Except Fault (Option ι))}
    (h : ∃ fault, .error fault ∈ os) : ∃ fault, collect os = .error fault ∧ .error fault ∈ os := by
  induction os with
  | nil => simp at h
  | cons o os ih =>
      match o with
      | .error fault => exact ⟨fault, rfl, List.mem_cons_self⟩
      | .ok none =>
          obtain ⟨fault, hcollect, hmem⟩ := ih (by simpa using h)
          exact ⟨fault, hcollect, List.mem_cons_of_mem _ hmem⟩
      | .ok (some x) =>
          obtain ⟨fault, hcollect, hmem⟩ := ih (by simpa using h)
          exact ⟨fault, by rw [collect, hcollect]; rfl, List.mem_cons_of_mem _ hmem⟩

/-! ### What a pass leaves -/

/-- The state after an item is shown, also if closing ends there. -/
def afterShowing (cap : ℕ) (t : σ) (e : σ × ι) : σ := (Outcome.ofPasses (absorb cap t e.2)).state

omit [Growth σ ι] in
/-- What a fold leaves, if what each of its steps leaves is known. -/
theorem state_foldlM_eq {α β : Type} {f : σ → α → Except (Halt σ) σ} (leaves : σ → β → σ)
    (events : σ × α → List β)
    (hf : ∀ s x, (Outcome.ofPasses (f s x)).state = (events (s, x)).foldl leaves s)
    (xs : List α) (s : σ) :
    (Outcome.ofPasses (xs.foldlM f s)).state = ((steps f xs s).flatMap events).foldl leaves s := by
  induction xs generalizing s with
  | nil => rfl
  | cons x xs ih =>
      have hx := hf s x
      rw [List.foldlM_cons, steps, List.flatMap_cons, List.foldl_append, ← hx]
      cases f s x with
      | error halt => rw [List.flatMap_nil]; rfl
      | ok s' => exact ih s'

/-- **A pass leaves what showing its items one after the other leaves.** -/
theorem state_pass_eq (mode : Mode) (cap : ℕ) (ops : List Operation) (start stop : ℕ) (s : σ) :
    (Outcome.ofPasses (pass mode cap ops start stop s)).state
      = (shown mode cap ops start stop s).foldl (afterShowing cap) s := by
  cases mode with
  | sequential =>
      have himage (op : Operation) (t : σ) (args : List ℕ) :
          (Outcome.ofPasses (absorbImage cap op t args)).state
            = (Call.emitted ⟨t, op, args⟩).foldl (afterShowing cap) t := by
        rw [absorbImage_eq, Call.emitted, Call.found, imageAt]
        cases image t op args with
        | error fault => rfl
        | ok found => cases found <;> rfl
      have hop (t : σ) (op : Operation) : (Outcome.ofPasses
          (Tuples.foldBoxes (arguments t op start stop) (absorbImage cap op) t)).state
            = ((operationCalls cap start stop t op).flatMap Call.emitted).foldl (afterShowing cap) t := by
        rw [Tuples.foldBoxes_eq_foldlM, operationCalls, List.flatMap_map]
        exact state_foldlM_eq _ (fun step => Call.emitted ⟨step.1, op, step.2⟩) (himage op) _ t
      rw [shown, sequentialCalls, List.flatMap_assoc]
      exact state_foldlM_eq _
        (fun begun => (operationCalls cap start stop begun.1 begun.2).flatMap Call.emitted) hop ops s
  | parallel =>
      have hpass : pass .parallel cap ops start stop s = _ := parallelPass_eq cap ops start stop s
      rw [hpass, shown]
      cases collect (outcomes ops start stop s) with
      | error fault => rfl
      | ok xs => simpa using state_foldlM_eq (afterShowing cap) (fun step => [step]) (fun _ _ => rfl) xs s

/-! ### What holds of the calls -/

variable [LawfulGrowth σ]

/-- Showing an image of what was there at the start keeps the invariant. -/
theorem absorbOutcome_keeps (hJ : Steady ops J) {t t' : σ} {o : Except Fault (Option ι)}
    (ht : J t ∧ Extends s t) (ho : ∀ x, o = .ok (some x) → IsImage ops s x)
    (h : absorbOutcome cap t o = .ok t') : J t' ∧ Extends s t' := by
  have habsorbed := absorbOutcome_absorbed cap hJ ht.1 ht.2 ho
  rw [h] at habsorbed
  obtain ⟨inv, extended, -⟩ := habsorbed
  exact ⟨inv, extended⟩

theorem absorbImage_keeps (hJ : Steady ops J) {op : Operation} (hop : op ∈ ops) {args : List ℕ}
    (hargs : args ∈ drawn s op 0 (size s)) {t t' : σ} (ht : J t ∧ Extends s t)
    (h : absorbImage cap op t args = .ok t') : J t' ∧ Extends s t' := by
  rw [absorbImage_eq, ht.2.image_eq op args hargs] at h
  exact absorbOutcome_keeps hJ ht (fun x hx => ⟨op, hop, args, hargs, hx⟩) h

/-- A call is made in a state with the invariant, with arguments that are drawn there. -/
theorem mem_calls (hJ : Steady ops J) (hs : J s) (hstop : stop ≤ size s) {c : Call σ}
    (hc : c ∈ calls mode cap ops start stop s) :
    c.op ∈ ops ∧ J c.state ∧ c.args ∈ drawn c.state c.op 0 (size c.state) := by
  cases mode with
  | parallel =>
      obtain ⟨op, hop, hc⟩ := List.mem_flatMap.1 hc
      obtain ⟨args, hargs, rfl⟩ := List.mem_map.1 hc
      exact ⟨hop, hs, LawfulGrowth.drawn_mono hstop (mem_of_mem_tried hargs)⟩
  | sequential =>
      have hdrawn {t : σ} (ht : Extends s t) {op : Operation} {args : List ℕ}
          (hargs : args ∈ drawn t op start stop) : args ∈ drawn s op 0 (size s) :=
        LawfulGrowth.drawn_mono hstop (ht.drawn_eq op start stop ▸ hargs)
      obtain ⟨⟨t, op⟩, hbegun, hc⟩ := List.mem_flatMap.1 hc
      obtain ⟨⟨u, args⟩, hstep, rfl⟩ := List.mem_map.1 hc
      -- the invariant is kept from one operation to the next, and from one call to the next
      have hop : (J t ∧ Extends s t) ∧ op ∈ ops := by
        refine steps_keeps (P := fun t => J t ∧ Extends s t) ?_ ⟨hs, .refl s⟩ _ hbegun
        intro op hop t t' ht h
        rw [Tuples.foldBoxes_eq_foldlM] at h
        exact foldlM_keeps (P := fun t => J t ∧ Extends s t)
          (fun args hargs u u' hu => absorbImage_keeps hJ hop (hdrawn ht.2 hargs) hu) ht h
      have hargs : (J u ∧ Extends s u) ∧ args ∈ drawn t op start stop := by
        refine steps_keeps (P := fun t => J t ∧ Extends s t) ?_ hop.1 _ hstep
        exact fun args hargs u u' hu => absorbImage_keeps hJ hop.2 (hdrawn hop.1.2 hargs) hu
      exact ⟨hop.2, hargs.1.1, hargs.1.2.mem_drawn (hdrawn hop.1.2 hargs.2)⟩

omit [LawfulGrowth σ] in
theorem isImage_of_found {c : Call σ} {x : ι} (hop : c.op ∈ ops)
    (hargs : c.args ∈ drawn c.state c.op 0 (size c.state)) (h : c.found = some x) :
    IsImage ops c.state x :=
  ⟨c.op, hop, c.args, hargs, image_of_imageAt h⟩

/-- What is shown is an image, and it is shown in a state with the invariant. -/
theorem mem_shown (hJ : Steady ops J) (hs : J s) (hstop : stop ≤ size s) {t : σ} {x : ι}
    (h : (t, x) ∈ shown mode cap ops start stop s) : J t ∧ IsImage ops t x := by
  cases mode with
  | sequential =>
      obtain ⟨c, hc, hx⟩ := List.mem_flatMap.1 h
      obtain ⟨y, hfound, hy⟩ := List.mem_map.1 hx
      rw [Option.mem_toList] at hfound
      cases hy
      have hc : c ∈ calls .sequential cap ops start stop s := hc
      obtain ⟨hop, hinv, hargs⟩ := mem_calls hJ hs hstop hc
      exact ⟨hinv, isImage_of_found hop hargs hfound⟩
  | parallel =>
      rw [shown] at h
      split at h
      · next xs hcollect =>
          have himage : ∀ y ∈ xs, IsImage ops s y :=
            fun y hy => isImage_of_mem_outcomes hstop (mem_of_collect hcollect hy)
          have hstep : (J t ∧ Extends s t) ∧ x ∈ xs := by
            refine steps_keeps (P := fun t => J t ∧ Extends s t) ?_ ⟨hs, .refl s⟩ _ h
            intro y hy u u' hu habsorb
            exact absorbOutcome_keeps (o := .ok (some y)) hJ hu
              (fun z hz => by cases hz; exact himage y hy) habsorb
          exact ⟨hstep.1.1, hstep.1.2.isImage (himage x hstep.2)⟩
      · cases h

omit [LawfulGrowth σ] in
/-- **A pass ends with a call that fails**, in the state in which it was made: sequentially with the
fault of this call, and in parallel with that of some call of the pass. -/
theorem pass_of_failing_call {c : Call σ} (hc : c ∈ calls mode cap ops start stop s) {fault : Fault}
    (h : image c.state c.op c.args = .error fault) :
    ∃ fault', pass mode cap ops start stop s = .error ⟨.raised fault', c.state⟩ ∧
      (mode = .sequential → fault' = fault) ∧
      ∃ op ∈ ops, ∃ args, image c.state op args = .error fault' := by
  cases mode with
  | sequential =>
      obtain ⟨⟨t, op⟩, hbegun, hc⟩ := List.mem_flatMap.1 hc
      obtain ⟨⟨u, args⟩, hstep, rfl⟩ := List.mem_map.1 hc
      have hop : op ∈ ops := (steps_keeps (P := fun _ => True) (by simp) trivial _ hbegun).2
      have hlast : absorbImage cap op u args = .error ⟨.raised fault, u⟩ := by
        rw [absorbImage_eq, h]
        rfl
      refine ⟨fault, foldlM_of_failing_step hbegun ?_, fun _ => rfl, op, hop, args, h⟩
      rw [Tuples.foldBoxes_eq_foldlM]
      exact foldlM_of_failing_step hstep hlast
  | parallel =>
      obtain ⟨op, hop, hc⟩ := List.mem_flatMap.1 hc
      obtain ⟨args, hargs, rfl⟩ := List.mem_map.1 hc
      have hmem : .error fault ∈ outcomes ops start stop s :=
        List.mem_flatMap.2 ⟨op, hop, List.mem_map.2 ⟨args, mem_of_mem_tried hargs, h⟩⟩
      obtain ⟨fault', hcollect, hmem'⟩ := exists_collect_eq_error ⟨fault, hmem⟩
      obtain ⟨op', hop', hmem'⟩ := List.mem_flatMap.1 hmem'
      obtain ⟨args', -, himage⟩ := List.mem_map.1 hmem'
      refine ⟨fault', (parallelPass_eq cap ops start stop s).trans ?_, nofun, op', hop', args',
        himage⟩
      rw [hcollect]

/-! ### All passes -/

/-- Each pass starts with the invariant. -/
theorem passStart?_keeps (hJ : Steady ops J) (hs : J s) {number mark : ℕ} {t : σ}
    (h : passStart? mode cap ops number mark s = some (start, t)) : J t := by
  induction number generalizing mark s with
  | zero =>
      rw [passStart?] at h
      split at h
      · cases h
        exact hs
      · cases h
  | succ number ih =>
      rw [passStart?] at h
      split at h
      · split at h
        · next s' hpass => exact ih (pass_through hJ hs (Nat.le_refl _) hpass).1 h
        · cases h
      · cases h

omit [LawfulGrowth σ] in
/-- With enough fuel, passes end with the one that does not get through. -/
theorem passes_of_passStart? {number fuel mark : ℕ} {t : σ} {halt : Halt σ} (hfuel : number < fuel)
    (h : passStart? mode cap ops number mark s = some (start, t))
    (hpass : pass mode cap ops start (size t) t = .error halt) :
    passes mode cap ops fuel mark s = .error halt := by
  induction number generalizing mark s fuel with
  | zero =>
      obtain ⟨fuel, rfl⟩ := Nat.exists_eq_succ_of_ne_zero (Nat.ne_of_gt hfuel)
      rw [passStart?] at h
      split at h
      · next hmark =>
          cases h
          simp only [passes, if_pos hmark, hpass]
      · cases h
  | succ number ih =>
      obtain ⟨fuel, rfl⟩ := Nat.exists_eq_succ_of_ne_zero (Nat.ne_of_gt (Nat.zero_lt_of_lt hfuel))
      rw [passStart?] at h
      split at h
      · next hmark =>
          split at h
          · next s' hs' =>
              simp only [passes, if_pos hmark, hs']
              exact ih (Nat.lt_of_succ_lt_succ hfuel) h
          · cases h
      · cases h

/-- **Closing ends with a call that fails, in its state**: sequentially with the fault of this call, and
in parallel with that of some call of the same pass. -/
theorem close_of_failing_call {A : Algebra} {mark : ℕ} (hJ : Steady A.operations J)
    (hbound : ∀ s, J s → size s ≤ capacity A.size s) (hs : J s) {c : Call σ}
    (hc : Computes A mode cap mark s c) {fault : Fault}
    (h : image c.state c.op c.args = .error fault) :
    ∃ fault', close A mode cap mark s = ⟨.error fault', c.state⟩ ∧
      (mode = .sequential → fault' = fault) ∧
      ∃ op ∈ A.operations, ∃ args, image c.state op args = .error fault' := by
  obtain ⟨number, start, t, hstart, hc⟩ := hc
  obtain ⟨fault', hpass, hraised⟩ := pass_of_failing_call hc h
  refine ⟨fault', ?_, hraised⟩
  rw [close_eq_passes hJ hbound hs mode cap mark number,
    passes_of_passStart? (by omega) hstart hpass]
  rfl

end Closure

end UniversalAlgebra
