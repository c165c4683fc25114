/-
**Settings of a closure.**

A size cap and a number of threads.  Both can be given as texts, which are read leniently: white
space and a sign may come first, reading ends at the first character that is no digit, and a text
without digits is zero.  The number is clamped to 64 bits and then its low 32 bits are kept.

Main definitions:

* `Settings` — size cap and number of threads;
* `Settings.leadingInt` — the lenient reading of a number;
* `Settings.ofTexts` — settings from optional texts.
-/

import UniversalAlgebra.Fault

set_option autoImplicit false

namespace UniversalAlgebra

/-- A size cap, where zero is none, and a number of threads. -/
structure Settings where
  /-- The greatest number of items, or zero. -/
  maxSize : Nat
  /-- The number of threads; one is sequential. -/
  threads : Nat
  deriving DecidableEq, Repr

namespace Settings

/-- No cap and one thread. -/
def standard : Settings := ⟨0, 1⟩

/-- The white space that may stand before a number. -/
def isLeadingBlank (c : Char) : Bool := c == ' ' || (0x09 ≤ c.toNat && c.toNat ≤ 0x0d)

/-- The number of negative integers of 64 bits. -/
def halfRange : Nat := UInt64.size / 2

/-- The number written by the digits at the front of a text, up to `2 ^ 63`. -/
def leadingNat (cs : List Char) : Nat :=
  (cs.takeWhile Char.isDigit).foldl
    (fun n c => min (10 * n + (c.toNat - '0'.toNat)) halfRange) 0

/-- The nearest integer of 64 bits. -/
def clamp (x : Int) : Int := max (-(halfRange : Int)) (min x (halfRange - 1))

/-- The integer of 32 bits with the same low bits. -/
def low32 (x : Int) : Int := x.bmod UInt32.size

/-- The integer at the front of a text. -/
def leadingInt (text : String) : Int :=
  match text.toList.dropWhile isLeadingBlank with
  | '-' :: cs => low32 (clamp (-(leadingNat cs : Int)))
  | '+' :: cs => low32 (clamp (leadingNat cs))
  | cs => low32 (clamp (leadingNat cs))

/-- The value of a setting that must not be negative, with a default for a missing text. -/
def readNat (name : String) (default : Nat) (text? : Option String) : Except Fault Nat :=
  let value := (text?.map leadingInt).getD default
  if value < 0 then .error (.negativeSetting name value) else .ok value.toNat

/-- Settings from texts, each of which may be missing.  At least one thread is used. -/
def ofTexts (maxSize? threads? : Option String) : Except Fault Settings := do
  let maxSize ← readNat "FINALG_MAX_SIZE" 0 maxSize?
  let threads ← readNat "FINALG_THREADS" 1 threads?
  pure ⟨maxSize, max 1 threads⟩

end Settings

end UniversalAlgebra
