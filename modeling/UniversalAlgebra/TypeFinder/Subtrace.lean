/-
**Subtraces and their types.**

A subtrace is a pair of elements inside a trace of a cover of congruences.  The five types of minimal
algebras are numbered as in tame congruence theory.

Main definitions:

* `TameType`, `TameType.number`, `TameType.text` — the types, and the mark of an untyped pair;
* `Subtrace`, `Subtrace.ofPair`, `Subtrace.text` — a pair with what a search learned about it;
* `Subtrace.same` — equality of what identifies a subtrace.
-/

import UniversalAlgebra.Centrality

set_option autoImplicit false

namespace UniversalAlgebra

/-- The types of minimal algebras, and the mark of a pair that was not typed. -/
inductive TameType where
  /-- Not typed. -/
  | unset
  /-- A set with permutations. -/
  | unary
  /-- A vector space. -/
  | affine
  /-- A two-element Boolean algebra. -/
  | boolean
  /-- A two-element lattice. -/
  | lattice
  /-- A two-element semilattice. -/
  | semilattice
  deriving DecidableEq, Repr

namespace TameType

/-- The number of a type. -/
def number : TameType → Nat
  | unset => 0
  | unary => 1
  | affine => 2
  | boolean => 3
  | lattice => 4
  | semilattice => 5

/-- The type with a number; numbers beyond five are not used. -/
def ofNumber : Nat → TameType
  | 1 => unary
  | 2 => affine
  | 3 => boolean
  | 4 => lattice
  | 5 => semilattice
  | _ => unset

/-- The name of a type. -/
def name : TameType → String
  | unset => "unset"
  | unary => "unary"
  | affine => "affine"
  | boolean => "boolean"
  | lattice => "lattice"
  | semilattice => "semilattice"

/-- Number and name, as in `4 (lattice)`. -/
def text (t : TameType) : String := toString t.number ++ " (" ++ t.name ++ ")"

end TameType

/-- A pair of elements inside a trace, with what a search learned about it. -/
structure Subtrace where
  /-- The first element. -/
  a : Nat
  /-- The second element. -/
  b : Nat
  /-- Whether a unary polynomial exchanges the two elements. -/
  hasInvolution : Bool
  /-- The type, once it was determined. -/
  type : TameType
  /-- The pairs generated by the pair and the diagonal. -/
  pairs : List (List Nat)
  /-- The quadruples explored while typing. -/
  matrices : List (List Nat)
  /-- The centrality of the cover, if it was asked for. -/
  centrality : Option Centrality
  deriving DecidableEq, Repr

namespace Subtrace

/-- A pair about which only the involution is known. -/
def ofPair (p : Nat × Nat) (hasInvolution : Bool) : Subtrace :=
  ⟨p.1, p.2, hasInvolution, .unset, [], [], none⟩

/-- The pair of elements. -/
def pair (s : Subtrace) : Nat × Nat := (s.a, s.b)

/-- Whether pair, involution and type agree. -/
def same (s t : Subtrace) : Bool :=
  s.a == t.a && s.b == t.b && s.hasInvolution == t.hasInvolution && s.type == t.type

/-- The pair, followed by what is known about it. -/
def text (s : Subtrace) : String :=
  Text.list [s.a, s.b]
    ++ (if s.hasInvolution then " with involution" else "")
    ++ (if s.type = .unset then "" else ", type " ++ s.type.text)
    ++ (match s.centrality with
        | some data => ", " ++ data.text
        | none => "")

end Subtrace

end UniversalAlgebra
