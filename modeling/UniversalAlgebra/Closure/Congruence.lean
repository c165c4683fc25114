/-
**Closures of sets of pairs into congruences.**

The items are pairs of least elements of blocks, recorded when the two blocks are merged.  Each
recorded pair is pushed through each operation at each of its positions: one argument runs through
the pair while the others are fixed.  Together with transitivity, which the partition provides, this
gives the congruence generated by the pairs.

Main definitions:

* `CongruenceClosure`, `CongruenceClosure.start`, `CongruenceClosure.ofPartition` — a partition and
  the pairs that were merged to obtain it;
* `CongruenceClosure.fold` — merges the blocks of a pair;
* `CongruenceClosure.pushThrough` — a pair pushed through an operation at one position.
-/

import UniversalAlgebra.Closure.Engine
import UniversalAlgebra.Partition.Basic

set_option autoImplicit false

namespace UniversalAlgebra

/-- A growing partition. -/
structure CongruenceClosure where
  /-- The partition so far. -/
  partition : Partition
  /-- The pairs of least elements whose blocks were merged, in order. -/
  pairs : Array (Nat × Nat)
  deriving DecidableEq, Repr

namespace CongruenceClosure

/-- Nothing was merged in a universe of `n` elements. -/
def start (n : Nat) : CongruenceClosure := ⟨Partition.finest n, #[]⟩

/-- Merges the blocks of two elements and records their least elements. -/
def merge (s : CongruenceClosure) (a b : Nat) : Reaction × CongruenceClosure :=
  if s.partition.rep a = s.partition.rep b then (.known, s)
  else
    (.added, ⟨s.partition.relate a b, s.pairs.push (s.partition.rep a, s.partition.rep b)⟩)

/-- Takes in a pair of elements; the first is checked first. -/
def fold (s : CongruenceClosure) (p : Nat × Nat) : Except Fault (Reaction × CongruenceClosure) := do
  let _ ← s.partition.representative p.1
  let _ ← s.partition.representative p.2
  pure (s.merge p.1 p.2)

/-- Takes in the pairs of a list one after the other. -/
def foldAll (s : CongruenceClosure) (ps : List (Nat × Nat)) : CongruenceClosure :=
  ps.foldl (fun s p => (s.merge p.1 p.2).2) s

/-- Each element of a partition is merged with the least element of its block. -/
def ofPartition (p : Partition) : CongruenceClosure :=
  let members := (List.range p.size).filter fun i => p.rep i != i
  (start p.size).foldAll (members.map fun i => (p.rep i, i))

/-- The values of an operation at both components of a pair, put in at a position of a list of
other arguments. -/
def pushThrough (op : Operation) (position : Nat) (others : List Nat) (p : Nat × Nat) :
    Except Fault (Nat × Nat) := do
  let x ← op.apply (others.insertIdx position p.1)
  let y ← op.apply (others.insertIdx position p.2)
  pure (x, y)

/-- The image of the recorded pair with a given number, unless both components agree.  An argument
is the number, the position, and then the other arguments. -/
def image (s : CongruenceClosure) (op : Operation) : List Nat → Except Fault (Option (Nat × Nat))
  | index :: position :: others => do
      let (x, y) ← pushThrough op position others (s.pairs[index]?.getD (0, 0))
      pure (if x = y then none else some (x, y))
  | _ => .ok none

instance : Growth CongruenceClosure (Nat × Nat) where
  size s := s.pairs.size
  capacity n _ := n
  accept s p := s.fold p
  arguments s op start stop :=
    [(start, stop) :: (0, op.arity) :: List.replicate (op.arity - 1) (0, s.partition.size)]
  image s op args := s.image op args

end CongruenceClosure

end UniversalAlgebra
