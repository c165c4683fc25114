/-
**Values that are computed once.**

A slot holds at most one value, and a memo table at most one value for each key.  The value that is
published first stays: a later publication for the same place is dropped and answered with the
value that is already there.  A computation may itself use the slot or the table, so a rival
publication can come between the look-up and the end of the computation; and a computation that
fails publishes nothing.  Slots and tables are used as parts of a larger state, given by a reader and
a writer.

Main definitions:

* `Slot`, `Slot.publish`, `Slot.getOrCompute` — a place for one value;
* `Memo`, `Memo.find?`, `Memo.publish`, `Memo.findOrCompute` — a place for each key.
-/

import Std.Data.HashMap

set_option autoImplicit false

namespace UniversalAlgebra

variable {ε σ κ ν : Type}

/-! ### Slots -/

/-- A place for one value. -/
structure Slot (ν : Type) where
  /-- The value that was published first, if any. -/
  value? : Option ν
  deriving DecidableEq, Repr

namespace Slot

/-- The slot in which nothing was published. -/
def vacant : Slot ν := ⟨none⟩

/-- Whether something was published. -/
def isReady (s : Slot ν) : Bool := s.value?.isSome

/-- Publishes a value and gives the one that the slot holds from then on. -/
def publish (s : Slot ν) (v : ν) : ν × Slot ν :=
  match s.value? with
  | some w => (w, s)
  | none => (v, ⟨some v⟩)

/-- The value of a slot of a state, which is computed and published if there is none. -/
def getOrCompute (slot : σ → Slot ν) (store : σ → Slot ν → σ) (compute : EStateM ε σ ν) :
    EStateM ε σ ν := do
  match (slot (← get)).value? with
  | some v => pure v
  | none =>
      let v ← compute
      modifyGet fun s =>
        let (v, filled) := (slot s).publish v
        (v, store s filled)

end Slot

/-! ### Memo tables -/

/-- A place for one value under each key. -/
structure Memo (κ ν : Type) [BEq κ] [Hashable κ] where
  /-- The values published so far. -/
  entries : Std.HashMap κ ν

namespace Memo

variable [BEq κ] [Hashable κ]

/-- The table in which nothing was published. -/
def vacant : Memo κ ν := ⟨∅⟩

/-- The number of keys with a value. -/
def size (m : Memo κ ν) : Nat := m.entries.size

/-- The value under a key, if any. -/
def find? (m : Memo κ ν) (k : κ) : Option ν := m.entries[k]?

/-- Publishes a value under a key and gives the one that the table holds from then on. -/
def publish (m : Memo κ ν) (k : κ) (v : ν) : ν × Memo κ ν :=
  match m.find? k with
  | some w => (w, m)
  | none => (v, ⟨m.entries.insert k v⟩)

/-- What a state holds at a place, and the state that holds something else there. -/
@[noinline] def exchange {α : Type} (read : σ → α) (write : σ → α → σ) (s : σ) (x : α) : α × σ :=
  (read s, write s x)

/-- The value under a key of a table of a state, which is computed and published if there is
none.  While the table is changed the state holds another one, so that it can be changed in place. -/
def findOrCompute (table : σ → Memo κ ν) (store : σ → Memo κ ν → σ) (key : κ)
    (compute : EStateM ε σ ν) : EStateM ε σ ν := do
  match (table (← get)).find? key with
  | some v => pure v
  | none =>
      let v ← compute
      modifyGet fun s =>
        let (known, s) := exchange table store s vacant
        let (v, filled) := known.publish key v
        (v, store s filled)

end Memo

end UniversalAlgebra
