/-
**Fingerprints of words.**

A 64-bit hash of a sequence of 64-bit words: each of the eight bytes of a word, the least
significant first, is combined with the state by exclusive or, and the state is then multiplied by
a fixed prime.

Main definitions:

* `Fingerprint.absorb` — takes in one word;
* `Fingerprint.ofWords` — takes in the words of a list, from the initial state;
* `Fingerprint.ofList`, `Fingerprint.ofPairs` — of a list, preceded by its length.
-/

set_option autoImplicit false

namespace UniversalAlgebra.Fingerprint

/-- The state before any word was taken in. -/
def initial : UInt64 := 0xcbf29ce484222325

/-- The factor that follows each byte. -/
def prime : UInt64 := 0x100000001b3

/-- Takes in one byte. -/
def absorbByte (state byte : UInt64) : UInt64 := (state ^^^ byte) * prime

/-- Takes in the eight bytes of a word, the least significant first. -/
def absorb (state word : UInt64) : UInt64 :=
  ([0, 8, 16, 24, 32, 40, 48, 56] : List UInt64).foldl
    (fun state shift => absorbByte state ((word >>> shift) &&& 0xff)) state

/-- The state after the words of a list. -/
def ofWords (words : List UInt64) : UInt64 := words.foldl absorb initial

/-- The fingerprint of a list of words: its length goes first. -/
def ofWordList (words : List UInt64) : UInt64 := ofWords (words.length.toUInt64 :: words)

/-- The fingerprint of a list of elements. -/
def ofList (xs : List Nat) : UInt64 := ofWordList (xs.map Nat.toUInt64)

/-- The fingerprint of a single pair: its two components, without a length. -/
def ofPair (p : Nat × Nat) : UInt64 := ofWords [p.1.toUInt64, p.2.toUInt64]

/-- The fingerprint of a list of pairs: the number of pairs goes first. -/
def ofPairs (ps : List (Nat × Nat)) : UInt64 :=
  ofWords (ps.length.toUInt64 :: ps.flatMap fun p => [p.1.toUInt64, p.2.toUInt64])

end UniversalAlgebra.Fingerprint
