/-
**Bracketed text.**

The written forms of the library's values: sequences in square brackets, pairs in parentheses,
sets in braces, and set partitions in block notation.

Main definitions:

* `Text.list`, `Text.set` — items between brackets, separated by a comma and a blank;
* `Text.pair`, `Text.pairs` — an ordered pair, and a list of them;
* `Text.numerals`, `Text.blocks` — block notation: each block is closed by a bar, and one more bar
  stands in front;
* `Text.untilNul` — a text up to its first NUL.
-/

set_option autoImplicit false

namespace UniversalAlgebra.Text

/-- Items separated by a comma and a blank. -/
def commaSeparated (items : List String) : String := ", ".intercalate items

/-- A sequence, as in `[1, 2]`. -/
def list (items : List Nat) : String := "[" ++ commaSeparated (items.map toString) ++ "]"

/-- A set, as in `{1, 2}`. -/
def set (items : List Nat) : String := "\x7b" ++ commaSeparated (items.map toString) ++ "\x7d"

/-- An ordered pair, as in `(1, 2)`. -/
def pair (p : Nat × Nat) : String := "(" ++ toString p.1 ++ ", " ++ toString p.2 ++ ")"

/-- A sequence of ordered pairs, as in `[(1, 2), (3, 4)]`. -/
def pairs (ps : List (Nat × Nat)) : String := "[" ++ commaSeparated (ps.map pair) ++ "]"

/-- The elements of one block in decimal, separated by blanks. -/
def numerals (block : List Nat) : String := " ".intercalate (block.map toString)

/-- Block notation, as in `|0 1|2|`; the text of no blocks is a single bar. -/
def blocks (bs : List (List Nat)) : String := bs.foldl (fun text b => text ++ numerals b ++ "|") "|"

/-- The part of a text before its first NUL, where the text of a message ends. -/
def untilNul (text : String) : String := String.ofList (text.toList.takeWhile (· != '\x00'))

end UniversalAlgebra.Text
