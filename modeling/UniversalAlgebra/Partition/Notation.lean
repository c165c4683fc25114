/-
**Reading block notation.**

A partition is written as its blocks between bars, as in `|0 1|2|`.  A text is read in three steps:
the blanks around it are dropped and the two outer bars are required, the inside is cut into
numerals and bars from left to right, and the blocks that result have to form a partition.  Inside,
commas and white space separate numerals and are otherwise ignored.

Main definitions:

* `Partition.parse` — the partition written in a text;
* `Partition.Scan` — what is known while the inside of a text is read.
-/

import UniversalAlgebra.Partition.Basic

set_option autoImplicit false

namespace UniversalAlgebra.Partition

/-- The blanks that may surround a text. -/
def isOuterBlank (c : Char) : Bool := c == ' ' || c == '\t' || c == '\n'

/-- The characters that may stand between numerals: the comma and the six white-space characters
of ASCII. -/
def isSeparator (c : Char) : Bool :=
  c == ',' || c == ' ' || (0x09 ≤ c.toNat && c.toNat ≤ 0x0d)

/-- The text without surrounding blanks. -/
def trimBlanks (cs : List Char) : List Char :=
  ((cs.dropWhile isOuterBlank).reverse.dropWhile isOuterBlank).reverse

/-- What is known while the inside of a text is read from left to right. -/
structure Scan where
  /-- The blocks that were closed by a bar, the latest first. -/
  closed : List (List Nat)
  /-- The numerals of the open block, the latest first. -/
  current : List Nat
  /-- The value of the numeral whose digits are being read, if any. -/
  numeral? : Option Nat

namespace Scan

/-- Nothing was read. -/
def start : Scan := ⟨[], [], none⟩

/-- Ends the numeral that is being read, if any. -/
def endNumeral (s : Scan) : Scan :=
  match s.numeral? with
  | some x => ⟨s.closed, x :: s.current, none⟩
  | none => s

/-- Takes in a digit.  Numerals count modulo `2 ^ 32`. -/
def digit (s : Scan) (d : Nat) : Scan :=
  { s with numeral? := some ((10 * s.numeral?.getD 0 + d) % UInt32.size) }

/-- Takes in one character of a text. -/
def read (text : String) (s : Scan) (c : Char) : Except Fault Scan :=
  if c.isDigit then .ok (s.digit (c.toNat - '0'.toNat))
  else
    let s := s.endNumeral
    if c = '|' then
      if s.current.isEmpty then .error (.emptyBlockIn text)
      else .ok ⟨s.current.reverse :: s.closed, [], none⟩
    else if isSeparator c then .ok s
    else .error (.unexpectedCharacter c text)

/-- The blocks that were closed, in the order of the text. -/
def blocks (s : Scan) : List (List Nat) := s.closed.reverse

end Scan

/-- The partition written in a text in block notation. -/
def parse (text : String) : Except Fault Partition := do
  match trimBlanks text.toList with
  | '|' :: inside =>
      if inside.getLast? ≠ some '|' then throw (.notBlockNotation text)
      let s ← inside.foldlM (Scan.read text) .start
      ofBlocks s.blocks.flatten.length s.blocks
  | _ => throw (.notBlockNotation text)

end UniversalAlgebra.Partition
