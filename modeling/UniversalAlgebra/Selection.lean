/-
**Selections, one after the other.**

The `k` element subsets of `[0, n)` are gone through in lexicographic order, each as the array of its
members in increasing order, which is changed in place.  An entry cannot grow if it and those after it
are the last naturals below `n`.  The last entry that can grow does so by one, and those after it
become its successors.

Main definitions:

* `Selection.first` — the least naturals;
* `Selection.next` — the selection after a given one;
* `Selection.find` — the first selection that passes a test.
-/

set_option autoImplicit false

namespace UniversalAlgebra.Selection

/-- The `k` least naturals. -/
def first (k : Nat) : Array Nat := Array.range k

/-- How many of the first `i` entries are left without those at the end that cannot grow below `n`. -/
def pivot (n : Nat) (chosen : Array Nat) : (i : Nat) → Nat
  | 0 => 0
  | i + 1 => if chosen[i]? = some (n - chosen.size + i) then pivot n chosen i else i + 1

/-- Makes each of `count` entries from number `i` on the successor of the one before it. -/
def refill : (count i : Nat) → (chosen : Array Nat) → Array Nat
  | 0, _, chosen => chosen
  | count + 1, i, chosen =>
      refill count (i + 1) (chosen.setIfInBounds i (chosen.getD (i - 1) 0 + 1))

/-- The selection after a given one, among those below `n`. -/
def next (n : Nat) (chosen : Array Nat) : Option (Array Nat) :=
  match pivot n chosen chosen.size with
  | 0 => none
  | i + 1 => some (refill (chosen.size - (i + 1)) (i + 1) (chosen.modify i (· + 1)))

/-- The first selection that passes a test, among at most `fuel` of them from a given one on. -/
@[specialize] def find {m : Type → Type} [Monad m] (n : Nat) (test : List Nat → m Bool) :
    (fuel : Nat) → (chosen : Array Nat) → m (Option (List Nat))
  | 0, _ => pure none
  | fuel + 1, chosen => do
      if ← test chosen.toList then pure (some chosen.toList)
      else
        match next n chosen with
        | some later => find n test fuel later
        | none => pure none

end UniversalAlgebra.Selection
