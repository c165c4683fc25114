/-
**Partitions of a finite set.**

A partition of `[0, n)` is held as the array that sends each element to the least element of its
block, together with the number of blocks.  The array is kept fully resolved: merging two blocks
replaces every entry of the one that loses its representative, so that two elements are related
exactly if their entries agree.

Main definitions:

* `Partition`, `Partition.finest`, `Partition.coarsest` — partitions and the two extreme ones;
* `Partition.rep`, `Partition.related` — the least element of a block, and being in one block;
* `Partition.merge`, `Partition.relate` — joining two blocks;
* `Partition.ofArray`, `Partition.ofBlocks` — checked constructions;
* `Partition.representative`, `Partition.isRelated`, `Partition.joinBlocks`,
  `Partition.ensureRelated` — the same for callers who may go wrong;
* `Partition.blocks`, `Partition.blockIndex` — the blocks in order of their least elements.
-/

import UniversalAlgebra.Fault
import UniversalAlgebra.Fingerprint

set_option autoImplicit false

namespace UniversalAlgebra

/-- A partition of `[0, n)`. -/
structure Partition where
  /-- The least element of the block of each element. -/
  reps : Array Nat
  /-- The number of blocks. -/
  blockCount : Nat
  deriving DecidableEq, Hashable, Repr

namespace Partition

/-! ### Extreme partitions and attributes -/

/-- The partition into single elements.  Elements are numbers of thirty-two bits, so `n` is meant to
be at most `2 ^ 32`. -/
def finest (n : Nat) : Partition := ⟨Array.range n, n⟩

/-- The partition with at most one block. -/
def coarsest (n : Nat) : Partition := ⟨Array.replicate n 0, if n = 0 then 0 else 1⟩

/-- The number of elements. -/
def size (p : Partition) : Nat := p.reps.size

/-- The number of elements that do not represent their block. -/
def rank (p : Partition) : Nat := p.size - p.blockCount

/-- Whether there are as many blocks as elements. -/
def isFinest (p : Partition) : Bool := p.blockCount == p.size

/-- Whether there is exactly one block. -/
def isCoarsest (p : Partition) : Bool := p.blockCount == 1

/-- The least element of the block of `i`. -/
def rep (p : Partition) (i : Nat) : Nat := p.reps[i]?.getD i

/-- Whether two elements are in one block. -/
def related (p : Partition) (i j : Nat) : Bool := p.rep i == p.rep j

/-- The least elements of the blocks, in increasing order. -/
def representatives (p : Partition) : List Nat :=
  (List.range p.size).filter fun i => p.rep i == i

/-- The elements of the block with a given least element, in increasing order. -/
def block (p : Partition) (r : Nat) : List Nat :=
  (List.range p.size).filter fun i => p.rep i == r

/-- The elements of each block, in increasing order, at the position of its least element. -/
def members (p : Partition) : Array (List Nat) :=
  (List.range p.size).foldr (fun i found => found.modify (p.rep i) (i :: ·))
    (Array.replicate p.size [])

/-- The blocks in order of their least elements. -/
def blocks (p : Partition) : List (List Nat) :=
  let members := p.members
  p.representatives.map fun r => members[r]?.getD []

theorem getElem?_members_foldr (p : Partition) (xs : List Nat) {r : Nat} (h : r < p.size) :
    (xs.foldr (fun i found => found.modify (p.rep i) (i :: ·)) (Array.replicate p.size []))[r]?
      = some (xs.filter fun i => p.rep i == r) := by
  induction xs with
  | nil => simp [h]
  | cons x xs ih =>
      rw [List.foldr_cons, Array.getElem?_modify, ih, List.filter_cons]
      by_cases hx : p.rep x = r <;> simp [hx]

/-- Each block can also be found on its own. -/
theorem blocks_eq_map_block (p : Partition) : p.blocks = p.representatives.map p.block := by
  refine List.map_congr_left fun r hr => ?_
  have h : r < p.size := by
    rw [representatives, List.mem_filter, List.mem_range] at hr
    exact hr.1
  rw [members, getElem?_members_foldr p _ h, Option.getD_some, block]

/-- Block notation. -/
def text (p : Partition) : String := Text.blocks p.blocks

/-- The fingerprint of the array of least elements. -/
def fingerprint (p : Partition) : UInt64 := Fingerprint.ofList p.reps.toList

/-! ### Merging -/

/-- Replaces the entry `old` by `new` at `count` positions from `i` on. -/
def replaceFrom (old new : Nat) : (i count : Nat) → Array Nat → Array Nat
  | _, 0, xs => xs
  | i, count + 1, xs =>
      if h : i < xs.size then
        replaceFrom old new (i + 1) count (if xs[i] = old then xs.set i new h else xs)
      else xs

@[simp] theorem size_replaceFrom (old new i count : Nat) (xs : Array Nat) :
    (replaceFrom old new i count xs).size = xs.size := by
  induction count generalizing i xs with
  | zero => rfl
  | succ count ih =>
      rw [replaceFrom]
      split
      · rw [ih]
        split <;> simp
      · rfl

theorem getElem?_replaceFrom (old new i count : Nat) (xs : Array Nat) (j : Nat) :
    (replaceFrom old new i count xs)[j]?
      = if i ≤ j ∧ j < i + count ∧ xs[j]? = some old then some new else xs[j]? := by
  induction count generalizing i xs with
  | zero =>
      rw [replaceFrom, if_neg]
      rintro ⟨hle, hlt, -⟩
      omega
  | succ count ih =>
      rw [replaceFrom]
      by_cases h : i < xs.size
      · rw [dif_pos h, ih]
        by_cases hij : i = j
        · -- the entry at the first position is replaced now, and left alone afterwards
          subst hij
          by_cases hold : xs[i] = old <;> simp [h, hold]
        · have hkeep : (if xs[i] = old then xs.set i new h else xs)[j]? = xs[j]? := by
            split
            · exact Array.getElem?_set_ne h hij
            · rfl
          have hle : i + 1 ≤ j ↔ i ≤ j := by omega
          have hlt : j < i + 1 + count ↔ j < i + (count + 1) := by omega
          simp only [hkeep, hle, hlt]
      · rw [dif_neg h, if_neg]
        rintro ⟨hle, -, hold⟩
        rw [Array.getElem?_eq_none (by omega)] at hold
        cases hold

/-- Joins the blocks with the distinct least elements `r` and `s`.  Only the elements from the
greater one on can have it as their least element. -/
def merge (p : Partition) (r s : Nat) : Partition :=
  ⟨replaceFrom (max r s) (min r s) (max r s) (p.size - max r s) p.reps, p.blockCount - 1⟩

/-- Joins the blocks of `i` and `j`, unless they are in one already. -/
def relate (p : Partition) (i j : Nat) : Partition :=
  if p.rep i = p.rep j then p else p.merge (p.rep i) (p.rep j)

/-! ### Checked access -/

/-- The least element of the block of `i`, which has to be an element. -/
def representative (p : Partition) (i : Nat) : Except Fault Nat :=
  if i < p.size then .ok (p.rep i) else .error (.elementOutOfRange i)

/-- Whether `i` is the least element of its block. -/
def isRepresentative (p : Partition) (i : Nat) : Except Fault Bool :=
  return (← p.representative i) == i

/-- Whether `i` and `j` are in one block; `i` is checked first. -/
def isRelated (p : Partition) (i j : Nat) : Except Fault Bool := do
  let r ← p.representative i
  let s ← p.representative j
  pure (r == s)

/-- The number of blocks whose least element is below that of the block of `i`. -/
def blockIndex (p : Partition) (i : Nat) : Except Fault Nat := do
  let r ← p.representative i
  pure ((List.range r).countP fun j => p.rep j == j)

/-- Joins two distinct blocks, each given by its least element. -/
def joinBlocks (p : Partition) (r s : Nat) : Except Fault Partition := do
  if ¬ (r < p.size ∧ s < p.size) then throw (.elementsOutOfRange r s)
  if p.rep r ≠ r then throw (.notARepresentative r)
  if p.rep s ≠ s then throw (.notARepresentative s)
  if r = s then throw (.sameBlock r)
  pure (p.merge r s)

/-- Joins the blocks of two elements, and says whether there were two. -/
def ensureRelated (p : Partition) (i j : Nat) : Except Fault (Bool × Partition) := do
  let r ← p.representative i
  let s ← p.representative j
  if r = s then pure (false, p)
  else return (true, ← p.joinBlocks r s)

/-! ### Constructions -/

/-- Relates each position to its entry.  Each entry is checked when its turn comes. -/
def ofArray (entries : List Nat) : Except Fault Partition :=
  entries.zipIdx.foldlM
    (fun p (r, i) =>
      if r < entries.length then .ok (p.relate i r) else .error (.representativeOutOfRange r))
    (finest entries.length)

/-- What is known while a list of blocks is read: which elements occurred, and the partition so
far. -/
structure Partial where
  /-- The elements that occurred, marked. -/
  seen : Array Bool
  /-- Each element that occurred is related to the head of its block. -/
  partition : Partition

/-- Puts `x` into the block that starts with `head`. -/
def Partial.place (head : Nat) (s : Partial) (x : Nat) : Except Fault Partial :=
  match s.seen[x]? with
  | none => .error (.elementOutOfRange x)
  | some true => .error (.inTwoBlocks x)
  | some false => .ok ⟨s.seen.setIfInBounds x true, s.partition.relate head x⟩

/-- Reads one block, which must not be empty. -/
def Partial.placeBlock (s : Partial) : List Nat → Except Fault Partial
  | [] => .error .emptyBlock
  | head :: rest => (head :: rest).foldlM (place head) s

/-- The partition of `[0, n)` with the given blocks, in any order, each in any order. -/
def ofBlocks (n : Nat) (blocks : List (List Nat)) : Except Fault Partition := do
  let s ← blocks.foldlM Partial.placeBlock ⟨Array.replicate n false, finest n⟩
  match s.seen.findIdx? (· == false) with
  | some i => throw (.inNoBlock i)
  | none => pure s.partition

end Partition

end UniversalAlgebra
