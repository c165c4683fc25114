/-
**Programs that share a slot and a table.**

A function that is handed over to a slot or a table may itself use them, under the same key or under
other ones, and it may fail.  So what such a function does is a program in the same sense as what its
caller does.  A program goes on with the answers it gets; a fault of a function that it handed over is
one of these answers, which it may pass on or deal with.  What a function takes from elsewhere, as a
clock or a counter, is part of the program: what is proved of all programs holds whatever it takes.  A
program comes to an end whatever it gets, but there is no bound on its steps, so that a run can follow a
function that does not end as far as one likes.

Main definitions:

* `Callers.Place`, `Callers.Shared` — a slot and the entries of a table, as places for one value;
* `Callers.Place.settle` — what becomes of the outcome of a function;
* `Callers.Program` — programs that use slot and table;
* `Callers.Program.eval` — what a program does when nothing comes in between.

Main results:

* `Callers.Shared.find?_publish` — **a place that is taken keeps its value**;
* `Callers.Place.getOrCompute_of_found`, `Callers.Place.getOrCompute_of_vacant` — **look-up, computation
  and publication are three steps**.
-/

import UniversalAlgebra.Proofs.Query

set_option autoImplicit false

namespace UniversalAlgebra.Callers

variable {κ ν ε σ α : Type}

/-! ### Places -/

/-- A place for one value: the slot, or the entry of the table under a key. -/
inductive Place (κ : Type) where
  | slot
  | entry (key : κ)
  deriving BEq, ReflBEq, LawfulBEq, Repr

variable [BEq κ] [Hashable κ]

/-- A slot and a table, which all callers use. -/
structure Shared (κ ν : Type) [BEq κ] [Hashable κ] where
  slot : Slot ν
  table : Memo κ ν

namespace Shared

/-- Nothing was published. -/
def vacant : Shared κ ν := ⟨.vacant, .vacant⟩

/-- The value at a place, if any. -/
def find? (s : Shared κ ν) : Place κ → Option ν
  | .slot => s.slot.value?
  | .entry key => s.table.find? key

/-- Publishes a value at a place and gives the one that is there from then on. -/
def publish (s : Shared κ ν) (v : ν) : Place κ → ν × Shared κ ν
  | .slot => ((s.slot.publish v).1, { s with slot := (s.slot.publish v).2 })
  | .entry key => ((s.table.publish key v).1, { s with table := (s.table.publish key v).2 })

@[simp] theorem find?_vacant (place : Place κ) : (vacant : Shared κ ν).find? place = none := by
  cases place with
  | slot => rfl
  | entry key => exact Memo.find?_vacant key

/-- The answer is the value that is there, or the new one. -/
theorem publish_fst (s : Shared κ ν) (v : ν) (place : Place κ) :
    (s.publish v place).1 = (s.find? place).getD v := by
  cases place with
  | slot => rw [publish, Slot.publish_eq, find?]
  | entry key => exact Memo.publish_fst s.table key v

/-- **A place that is taken keeps its value**, and publishing at a place leaves the others alone. -/
theorem find?_publish [LawfulBEq κ] (s : Shared κ ν) (v : ν) (place other : Place κ) :
    (s.publish v place).2.find? other
      = (s.find? other).or (if place == other then some v else none) := by
  cases place with
  | slot =>
      rw [publish, Slot.publish_eq]
      cases other with
      | slot => cases hfound : s.slot.value? <;> simp [find?, hfound]
      | entry key => exact (Option.or_none).symm
  | entry key =>
      cases other with
      | slot => exact (Option.or_none).symm
      | entry key' =>
          change (s.table.publish key v).2.find? key' = _
          rw [Memo.find?_publish]
          change _ = (s.table.find? key').or (if key == key' then some v else none)
          by_cases hkey : key = key'
          · subst hkey
            cases s.table.find? key <;> simp
          · simp [hkey]

/-- Who publishes gets what is there afterwards. -/
theorem find?_publish_self [LawfulBEq κ] (s : Shared κ ν) (v : ν) (place : Place κ) :
    (s.publish v place).2.find? place = some (s.publish v place).1 := by
  rw [find?_publish, publish_fst, beq_self_eq_true, if_pos rfl]
  cases s.find? place <;> rfl

end Shared

/-- The value at a place, which is computed and published if there is none. -/
def Place.getOrCompute (place : Place κ) (compute : EStateM ε (Shared κ ν) ν) :
    EStateM ε (Shared κ ν) ν :=
  match place with
  | .slot => Slot.getOrCompute Shared.slot (fun s slot => { s with slot := slot }) compute
  | .entry key =>
      Memo.findOrCompute Shared.table (fun s table => { s with table := table }) key compute

/-- An outcome, with the state in which it came about. -/
def ending : Except ε α → σ → EStateM.Result ε σ α
  | .ok x, s => .ok x s
  | .error fault, s => .error fault s

/-- What becomes of the outcome of a function: a value is published and replaced by the one that the
place keeps, and a fault is handed on. -/
def Place.settle (place : Place κ) : Except ε ν → Shared κ ν → Except ε ν × Shared κ ν
  | .ok v, s => (.ok (s.publish v place).1, (s.publish v place).2)
  | .error fault, s => (.error fault, s)

/-- The function is not called when there is a value. -/
theorem Place.getOrCompute_of_found {place : Place κ} {s : Shared κ ν} {v : ν}
    (h : s.find? place = some v) (compute : EStateM ε (Shared κ ν) ν) :
    place.getOrCompute compute s = ending (.ok v) s := by
  cases place with
  | slot =>
      have hvalue : s.slot.value? = some v := h
      simp only [getOrCompute, Slot.getOrCompute, bind, EStateM.bind, get, getThe, MonadStateOf.get,
        EStateM.get, hvalue]
      rfl
  | entry key =>
      have hvalue : s.table.find? key = some v := h
      simp only [getOrCompute, Memo.findOrCompute, bind, EStateM.bind, get, getThe, MonadStateOf.get,
        EStateM.get, hvalue]
      rfl

/-- **Look-up, computation and publication are three steps**: if there is no value the function is
called, and its outcome is settled in the state that it leaves. -/
theorem Place.getOrCompute_of_vacant {place : Place κ} {s t : Shared κ ν}
    (h : s.find? place = none) {compute : EStateM ε (Shared κ ν) ν} {outcome : Except ε ν}
    (hcompute : compute s = ending outcome t) :
    place.getOrCompute compute s = ending (place.settle outcome t).1 (place.settle outcome t).2 := by
  cases place with
  | slot =>
      have hvalue : s.slot.value? = none := h
      simp only [getOrCompute, Slot.getOrCompute, bind, EStateM.bind, get, getThe, MonadStateOf.get,
        EStateM.get, hvalue, hcompute]
      cases outcome <;> rfl
  | entry key =>
      have hvalue : s.table.find? key = none := h
      simp only [getOrCompute, Memo.findOrCompute, bind, EStateM.bind, get, getThe, MonadStateOf.get,
        EStateM.get, hvalue, hcompute]
      cases outcome <;> rfl

/-! ### Programs -/

/-- What somebody does who uses the slot and the table. -/
inductive Program (κ ν ε : Type) where
  /-- Ends with a value, or with a fault. -/
  | done (result : Except ε ν)
  /-- Looks what there is at a place. -/
  | look (place : Place κ) (next : Option ν → Program κ ν ε)
  /-- Publishes a value in the slot. -/
  | publish (v : ν) (next : ν → Program κ ν ε)
  /-- Asks for the value at a place, with a function that computes it if there is none. -/
  | call (place : Place κ) (function : Program κ ν ε) (next : Except ε ν → Program κ ν ε)

/-- The outcome of a computation as a value, whether it fails or not. -/
def attempt (q : EStateM ε σ α) : EStateM ε σ (Except ε α) :=
  tryCatch (Except.ok <$> q) fun fault => pure (.error fault)

/-- What a program does when nothing comes in between. -/
def Program.eval : Program κ ν ε → EStateM ε (Shared κ ν) ν
  | .done (.ok v) => pure v
  | .done (.error fault) => throw fault
  | .look place next => do
      let s ← get
      (next (s.find? place)).eval
  | .publish v next => do
      let kept ← modifyGet fun s => s.publish v .slot
      (next kept).eval
  | .call place function next => do
      let result ← attempt (place.getOrCompute function.eval)
      (next result).eval

theorem attempt_apply {q : EStateM ε σ α} {s t : σ} {result : Except ε α}
    (h : q s = ending result t) : attempt q s = .ok result t := by
  change EStateM.tryCatch (EStateM.map Except.ok q) _ s = _
  rw [EStateM.tryCatch, EStateM.map, h]
  cases result <;> rfl

/-- A call goes on with the outcome of looking up, computing and publishing. -/
theorem Program.eval_call {place : Place κ} {function : Program κ ν ε}
    {next : Except ε ν → Program κ ν ε} {s t : Shared κ ν} {result : Except ε ν}
    (h : place.getOrCompute function.eval s = ending result t) :
    (call place function next).eval s = (next result).eval t := by
  change EStateM.bind (attempt (place.getOrCompute function.eval)) _ s = _
  rw [EStateM.bind, attempt_apply h]

end UniversalAlgebra.Callers
