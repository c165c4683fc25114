/-
**The iterator over a bit set.**

The iterator keeps the number of a word and the bits of the word that it has not met yet.  It moves on by
stripping the lowest of these bits, and when no bit is left it takes the next word that has one.  It ends
past the last word.

Main definitions:

* `BitSet.Cursor` — where the iterator stands;
* `BitSet.Cursor.start`, `BitSet.iterator` — its walk over the words of a set.

Main results:

* `BitSet.visits_settle` — from any state it meets the bits left, then those of the later words;
* `BitSet.visits_start` — so it meets the members, in increasing order, and ends.
-/

import UniversalAlgebra.Proofs.BitSet.Operations
import UniversalAlgebra.Proofs.Traversal

set_option autoImplicit false

namespace UniversalAlgebra.BitSet

/-- The position of the lowest bit of a word that has one. -/
def lowestBit (w : UInt64) : ℕ := (w ^^^ stripLowest w).log2.toNat

/-- Where the iterator stands. -/
structure Cursor where
  /-- The number of the word. -/
  quot : ℕ
  /-- The member it stands on. -/
  item : ℕ
  /-- The bits of the word from this member on. -/
  word : UInt64

/-- Goes to the lowest bit that is left, past all words that have none. -/
def Cursor.settle (words : Array UInt64) (c : Cursor) : Cursor :=
  if c.word = 0 then
    if h : c.quot + 1 < words.size then
      settle words { c with quot := c.quot + 1, word := words[c.quot + 1] }
    else { c with quot := c.quot + 1 }
  else { c with item := 64 * c.quot + lowestBit c.word }
termination_by words.size - c.quot

/-- The iterator over the bits of an array of words. -/
def iterator (words : Array UInt64) : Iterator Cursor ℕ where
  ok c := c.quot < words.size
  item c := c.item
  next c := Cursor.settle words { c with word := stripLowest c.word }

/-- The state in which the iterator begins. -/
def Cursor.start (words : Array UInt64) : Cursor := Cursor.settle words ⟨0, 0, words[0]?.getD 0⟩

/-- The positions of all bits of the words from number `q` on. -/
def bitsFrom (words : Array UInt64) (q : ℕ) : List ℕ :=
  (words.toList.zipIdx.drop q).flatMap fun p => bitsOfWord (64 * p.2) p.1

variable {words : Array UInt64} {q : ℕ}

theorem bitsFrom_of_le (h : words.size ≤ q) : bitsFrom words q = [] := by
  rw [bitsFrom, List.drop_eq_nil_of_le (by simpa using h), List.flatMap_nil]

theorem bitsFrom_of_lt (h : q < words.size) :
    bitsFrom words q = bitsOfWord (64 * q) words[q] ++ bitsFrom words (q + 1) := by
  rw [bitsFrom, List.drop_eq_getElem_cons (by simpa using h), List.flatMap_cons, bitsFrom]
  simp

/-- The iterator meets the bits that are left of the word where it stands, and then those of the words
after it. -/
theorem visits_settle (words : Array UInt64) (c : Cursor) (h : c.word = 0 ∨ c.quot < words.size) :
    (iterator words).Visits (c.settle words)
      (bitsOfWord (64 * c.quot) c.word ++ bitsFrom words (c.quot + 1)) := by
  rw [Cursor.settle, bitsOfWord]
  by_cases hword : c.word = 0
  · rw [if_pos hword, dif_pos hword, List.nil_append]
    by_cases hquot : c.quot + 1 < words.size
    · -- the next word is taken
      rw [dif_pos hquot, bitsFrom_of_lt hquot]
      exact visits_settle words { c with quot := c.quot + 1, word := words[c.quot + 1] } (.inr hquot)
    · rw [dif_neg hquot, bitsFrom_of_le (Nat.not_lt.1 hquot)]
      exact .ended (by simpa [iterator] using hquot)
  · have hquot : c.quot < words.size := h.resolve_left hword
    rw [if_neg hword, dif_neg hword, List.cons_append]
    have hless : (stripLowest c.word).toNat < c.word.toNat := stripLowest_lt hword
    refine .item (by simpa [iterator] using hquot) ?_
    exact visits_settle words ⟨c.quot, 64 * c.quot + lowestBit c.word, stripLowest c.word⟩ (.inr hquot)
termination_by (words.size - c.quot, c.word.toNat)

/-- The iterator meets the members in increasing order, and ends. -/
theorem visits_start (s : BitSet) : (iterator s.words).Visits (Cursor.start s.words) s.toList := by
  have hall : s.toList = bitsOfWord (64 * 0) (s.words[0]?.getD 0) ++ bitsFrom s.words (0 + 1) := by
    change bitsFrom s.words 0 = _
    rcases Nat.eq_zero_or_pos s.words.size with hsize | hsize
    · rw [bitsFrom_of_le (by omega), bitsFrom_of_le (by omega)]
      simp [hsize, bitsOfWord]
    · rw [bitsFrom_of_lt hsize, Array.getElem?_eq_getElem hsize, Option.getD_some]
  rw [hall]
  refine visits_settle s.words ⟨0, 0, s.words[0]?.getD 0⟩ ?_
  rcases Nat.eq_zero_or_pos s.words.size with hsize | hsize
  · exact .inl (by simp [hsize])
  · exact .inr hsize

end UniversalAlgebra.BitSet
