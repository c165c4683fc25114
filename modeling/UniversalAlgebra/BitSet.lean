/-
**Sets of naturals as arrays of words.**

A bit set holds naturals below its dimension, sixty-four to a word.  Bits beyond the dimension are
kept at zero, so that comparing, counting and combining can go word by word.

Main definitions:

* `BitSet.empty` — the set without members;
* `BitSet.contains`, `BitSet.insert`, `BitSet.remove`, `BitSet.tryInsert` — single elements;
* `BitSet.subset`, `BitSet.disjoint`, `BitSet.union`, `BitSet.inter`, `BitSet.diff` — word by word;
* `BitSet.toList` — the members in increasing order, read off by stripping the lowest bit of a
  word until none is left.
-/

set_option autoImplicit false

namespace UniversalAlgebra

/-- A set of naturals below `dim`. -/
structure BitSet where
  /-- The naturals below this bound can be members. -/
  dim : Nat
  /-- The members, sixty-four candidates to a word. -/
  words : Array UInt64
  deriving DecidableEq, Repr

namespace BitSet

/-! ### Words -/

/-- The number of words that hold `dim` bits.  Counted in sixty-four bits this is so as long as
`dim + 63 < 2 ^ 64`; larger dimensions are not meant. -/
def wordCount (dim : Nat) : Nat := (dim + 63) / 64

/-- The word whose only bit is the one for `i`. -/
def mask (i : Nat) : UInt64 := 1 <<< (i % 64).toUInt64

/-- Clears the lowest bit that is set. -/
def stripLowest (w : UInt64) : UInt64 := w &&& (w - 1)

theorem stripLowest_lt {w : UInt64} (h : w ≠ 0) : (stripLowest w).toNat < w.toNat := by
  have hpos : 0 < w.toNat := by
    rcases Nat.eq_zero_or_pos w.toNat with h0 | h0
    · exact absurd (UInt64.toNat_inj.1 (by simpa using h0)) h
    · exact h0
  have hsub : (w - 1).toNat = w.toNat - 1 :=
    UInt64.toNat_sub_of_le w 1 (by rw [UInt64.le_iff_toNat_le]; exact hpos)
  have hle : (stripLowest w).toNat ≤ (w - 1).toNat := by
    rw [stripLowest, UInt64.toNat_and]
    exact Nat.and_le_right
  omega

/-- The positions of the bits of a word, in increasing order, each raised by `base`. -/
def bitsOfWord (base : Nat) (w : UInt64) : List Nat :=
  if _h : w = 0 then []
  else (base + (w ^^^ stripLowest w).log2.toNat) :: bitsOfWord base (stripLowest w)
termination_by w.toNat
decreasing_by exact stripLowest_lt ‹_›

/-- The number of bits of a word. -/
def bitCount (w : UInt64) : Nat :=
  if _h : w = 0 then 0 else bitCount (stripLowest w) + 1
termination_by w.toNat
decreasing_by exact stripLowest_lt ‹_›

/-! ### Sets -/

/-- The set without members. -/
def empty (dim : Nat) : BitSet := ⟨dim, Array.replicate (wordCount dim) 0⟩

/-- Clears the bits beyond the dimension; only the last word can have any. -/
def trimPadding (s : BitSet) : BitSet :=
  if s.dim % 64 = 0 then s
  else
    { s with
      words := s.words.modify (s.words.size - 1)
        (· &&& ((0xffffffffffffffff : UInt64) >>> (64 - s.dim % 64).toUInt64)) }

/-- Whether no bit is set. -/
def isEmpty (s : BitSet) : Bool := s.words.all (· == 0)

/-- The number of members. -/
def count (s : BitSet) : Nat := s.words.foldl (fun n w => n + bitCount w) 0

/-- Whether `i` is a member. -/
def contains (s : BitSet) (i : Nat) : Bool :=
  ((s.words[i / 64]?.getD 0) >>> (i % 64).toUInt64) &&& 1 == 1

/-- Makes `i` a member. -/
def insert (s : BitSet) (i : Nat) : BitSet :=
  { s with words := s.words.modify (i / 64) (· ||| mask i) }

/-- Makes `i` a member, and says whether it was none before. -/
def tryInsert (s : BitSet) (i : Nat) : Bool × BitSet := (!s.contains i, s.insert i)

/-- Makes `i` no member. -/
def remove (s : BitSet) (i : Nat) : BitSet :=
  { s with words := s.words.modify (i / 64) (· &&& ~~~(mask i)) }

/-- Makes everything below the dimension a member. -/
def insertAll (s : BitSet) : BitSet :=
  trimPadding { s with words := s.words.map fun _ => 0xffffffffffffffff }

/-- Removes all members. -/
def clear (s : BitSet) : BitSet := { s with words := s.words.map fun _ => 0 }

/-- Clears the set and then inserts every natural below the dimension, or none. -/
def fill (s : BitSet) (everything : Bool) : BitSet :=
  if everything then (List.range s.dim).foldl insert s.clear else s.clear

/-- Whether the words agree. -/
def sameWords (s t : BitSet) : Bool := s.words == t.words

/-- Whether every member of `s` is a member of `t`. -/
def subset (s t : BitSet) : Bool :=
  (s.words.zip t.words).all fun (v, w) => v &&& ~~~w == 0

/-- Whether `s` and `t` have no member in common. -/
def disjoint (s t : BitSet) : Bool :=
  (s.words.zip t.words).all fun (v, w) => v &&& w == 0

/-- The members of `s` or of `t`. -/
def union (s t : BitSet) : BitSet := { s with words := Array.zipWith (· ||| ·) s.words t.words }

/-- The members of both `s` and `t`. -/
def inter (s t : BitSet) : BitSet := { s with words := Array.zipWith (· &&& ·) s.words t.words }

/-- The members of `s` that are not members of `t`. -/
def diff (s t : BitSet) : BitSet :=
  { s with words := Array.zipWith (fun v w => v &&& ~~~w) s.words t.words }

/-- The members in increasing order. -/
def toList (s : BitSet) : List Nat :=
  s.words.toList.zipIdx.flatMap fun (w, q) => bitsOfWord (64 * q) w

end BitSet

end UniversalAlgebra
