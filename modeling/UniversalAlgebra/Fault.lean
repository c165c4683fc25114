/-
**What can go wrong.**

A fault records the cause of a failed call together with the values that its text mentions.  It
is of one of three kinds: the caller handed in an argument that no call accepts, the argument is
fine but the structure at hand does not have what was asked for, or the library broke one of its
own promises.  No call is expected to end in the third kind.

Main definitions:

* `Fault` — the causes;
* `Fault.kind` — which of the three kinds a cause belongs to;
* `Fault.description`, `Fault.message` — the cause in words, and the text of the message.
-/

import UniversalAlgebra.Text.Brackets

set_option autoImplicit false

namespace UniversalAlgebra

/-- The three kinds of fault. -/
inductive FaultKind where
  /-- An argument that the call does not accept. -/
  | invalidInput
  /-- The structure does not have what was asked for. -/
  | structural
  /-- A promise of the library itself does not hold. -/
  | defect
  deriving DecidableEq, Repr

/-- The cause of a failed call.  A partition occurs as its list of blocks. -/
inductive Fault where
  -- operations
  /-- A universe without elements. -/
  | emptyUniverse (name : String)
  /-- The number of argument tuples does not fit into a word. -/
  | tableTooLarge (universeSize arity : Nat)
  /-- A table whose length is not the number of argument tuples. -/
  | tableLength (name : String) (length expected : Nat)
  /-- A table entry outside the universe. -/
  | tableValue (name : String) (value index : Nat)
  /-- An operation given by nothing at all. -/
  | noEvaluator (name : String)
  /-- An evaluator left the universe. -/
  | returnedOutside (name : String) (value : Nat)
  /-- An evaluator left the universe while its table was being filled. -/
  | evaluatesOutside (name : String) (value index : Nat)
  /-- A partial rule has no value here. -/
  | undefinedAt (x : Nat)
  -- algebras
  /-- An operation on a universe of another size than its algebra. -/
  | operationSize (operation algebra : String) (size expected : Nat)
  /-- An element that the algebra does not have. -/
  | noSuchElement (x : Nat) (algebra : String) (size : Nat)
  /-- A cyclic group of order zero. -/
  | cyclicOrderZero
  /-- A symmetric group whose degree is not supported. -/
  | symmetricDegree (degree : Nat)
  /-- A chain without elements. -/
  | emptyChain
  /-- An order matrix whose length is not the square of the number of elements. -/
  | orderMatrixSize (name : String) (size : Nat)
  /-- An order in which `x` is not below itself. -/
  | orderNotReflexive (name : String) (x : Nat)
  /-- Two elements without a least upper or a greatest lower bound. -/
  | notALattice (name : String) (x y : Nat)
  /-- Two algebras of different signature, given by their texts. -/
  | notMultipliable (lhs rhs : String)
  -- partitions and relations
  /-- An array entry that is no element. -/
  | representativeOutOfRange (r : Nat)
  /-- An element outside the universe. -/
  | elementOutOfRange (x : Nat)
  /-- One of two elements lies outside the universe. -/
  | elementsOutOfRange (x y : Nat)
  /-- An element that does not represent its block. -/
  | notARepresentative (x : Nat)
  /-- A block was to be merged with itself. -/
  | sameBlock (x : Nat)
  /-- A block without elements. -/
  | emptyBlock
  /-- An element that is listed twice. -/
  | inTwoBlocks (x : Nat)
  /-- An element that is not listed. -/
  | inNoBlock (x : Nat)
  /-- A text that is not enclosed in bars. -/
  | notBlockNotation (text : String)
  /-- Two bars of a text without a numeral between them. -/
  | emptyBlockIn (text : String)
  /-- A character that block notation does not have. -/
  | unexpectedCharacter (c : Char) (text : String)
  /-- Two universes that should have one size. -/
  | sizeMismatch (lhs rhs : Nat)
  /-- A relation that is no equivalence. -/
  | notAnEquivalence (pairs : List (Nat × Nat))
  /-- The two relations and the partition of a centrality condition differ in size. -/
  | centralitySizes (left right delta : Nat)
  -- closures and lattices
  /-- A setting that must not be negative. -/
  | negativeSetting (name : String) (value : Int)
  /-- A partition of another size than the algebra. -/
  | partitionSize (size : Nat) (algebra : String) (expected : Nat)
  /-- A relation of another size than the algebra. -/
  | relationSize (size : Nat) (algebra : String) (expected : Nat)
  /-- A partition that is not compatible with the operations. -/
  | notACongruence (blocks : List (List Nat))
  /-- A partition that no single pair generates. -/
  | notPrincipal (blocks : List (List Nat))
  /-- The lattice was cut off before it was complete. -/
  | latticeCapped (caller algebra : String)
  /-- A set that is not closed under the operations. -/
  | notASubuniverse (elements : List Nat)
  /-- A set that is not a subuniverse with a unique lower cover. -/
  | notAnIrreducibleSubalgebra (elements : List Nat)
  -- subtraces and types
  /-- A partition that is not a congruence with a unique lower cover. -/
  | notJoinIrreducible (blocks : List (List Nat))
  /-- Two partitions of a cover differ in size. -/
  | alphaSize (alpha beta : Nat)
  /-- The upper congruence already lies below the lower one. -/
  | betaBelowAlpha (beta alpha : List (List Nat))
  /-- The two elements of a pair are already related. -/
  | collapsed (pair : Nat × Nat) (alpha : List (List Nat))
  /-- One congruence does not cover the other. -/
  | notACover (beta alpha : List (List Nat))
  -- promises of the library
  /-- No irreducible congruence leads out of a congruence other than the greatest. -/
  | noIrreducibleAbove (blocks : List (List Nat))
  /-- No irreducible congruence separates the two ends of a cover. -/
  | noIrreducibleBetween (beta alpha : List (List Nat))
  /-- A congruence other than the greatest has fewer than two blocks. -/
  | noSecondBlock
  deriving DecidableEq, Repr

namespace Fault

/-- The kind of a cause. -/
def kind : Fault → FaultKind
  | notAnEquivalence _ | notPrincipal _ | latticeCapped _ _ | notAnIrreducibleSubalgebra _
  | notJoinIrreducible _ | betaBelowAlpha _ _ | collapsed _ _ | notACover _ _ => .structural
  | noIrreducibleAbove _ | noIrreducibleBetween _ _ | noSecondBlock => .defect
  | _ => .invalidInput

/-- The cause in words. -/
def description : Fault → String
  | emptyUniverse name => s!"{name} has empty universe"
  | tableTooLarge u a => s!"operation table too large: {u}^{a}"
  | tableLength name l e => s!"{name} has table of length {l}, expected {e}"
  | tableValue name v i => s!"{name} has out of range value {v} at table index {i}"
  | noEvaluator name => s!"{name} has no evaluator"
  | returnedOutside name v => s!"{name} returned out of range value {v}"
  | evaluatesOutside name v i => s!"{name} evaluates to out of range value {v} at table index {i}"
  | undefinedAt x => s!"undefined at {x}"
  | operationSize op name u n =>
      s!"operation {op} of {name} has universe size {u}, expected {n}"
  | noSuchElement x name n => s!"element {x} out of range for {name} of size {n}"
  | cyclicOrderZero => "cyclic group of order 0"
  | symmetricDegree d => s!"unsupported symmetric group degree {d}"
  | emptyChain => "chain of length 0"
  | orderMatrixSize name l => s!"{name} has order matrix of size {l}"
  | orderNotReflexive name x => s!"{name} order is not reflexive at {x}"
  | notALattice name x y => s!"{name} is not a lattice at {x}, {y}"
  | notMultipliable lhs rhs => s!"cannot multiply {lhs} by {rhs}"
  | representativeOutOfRange r => s!"representative out of range: {r}"
  | elementOutOfRange x => s!"element out of range: {x}"
  | elementsOutOfRange x y => s!"element out of range: {x}, {y}"
  | notARepresentative x => s!"{x} is not a representative"
  | sameBlock x => s!"tried to join block {x} with itself"
  | emptyBlock => "empty block"
  | inTwoBlocks x => s!"element {x} in two blocks"
  | inNoBlock x => s!"element {x} is in no block"
  | notBlockNotation t => s!"expected block notation like |0 1|2|, got: {t}"
  | emptyBlockIn t => s!"empty block in: {t}"
  | unexpectedCharacter c t => s!"unexpected character '{c}' in: {t}"
  | sizeMismatch m n => s!"universe size mismatch: {m} vs {n}"
  | notAnEquivalence ps => "relation is not an equivalence: " ++ Text.pairs ps
  | centralitySizes s t d => s!"universe sizes differ: S = {s}, T = {t}, delta = {d}"
  | negativeSetting name v => s!"negative {name}: {v}"
  | partitionSize m name n => s!"partition of size {m} does not fit {name} of size {n}"
  | relationSize m name n => s!"relation of size {m} does not fit {name} of size {n}"
  | notACongruence bs => "not a congruence: " ++ Text.blocks bs
  | notPrincipal bs => "not a principal congruence: " ++ Text.blocks bs
  | latticeCapped caller name => s!"{caller} needs the whole lattice of {name}, which was capped"
  | notASubuniverse xs => "not a subuniverse: " ++ Text.set xs
  | notAnIrreducibleSubalgebra xs => "not a join irreducible subalgebra: " ++ Text.set xs
  | notJoinIrreducible bs => "not join irreducible: " ++ Text.blocks bs
  | alphaSize m n => s!"alpha of size {m} does not fit beta of size {n}"
  | betaBelowAlpha b a => "beta = " ++ Text.blocks b ++ " lies below alpha = " ++ Text.blocks a
  | collapsed p a => "pair " ++ Text.pair p ++ " is collapsed by " ++ Text.blocks a
  | notACover b a => Text.blocks b ++ " does not cover " ++ Text.blocks a
  | noIrreducibleAbove bs => "no join irreducible above " ++ Text.blocks bs
  | noIrreducibleBetween b a =>
      "no join irreducible below " ++ Text.blocks b ++ " and not below " ++ Text.blocks a
  | noSecondBlock => "a partition other than the coarsest has one block"

/-- The text of a message, which ends at the first NUL of the description. -/
def message (fault : Fault) : String := Text.untilNul fault.description

end Fault

end UniversalAlgebra
