/-
**Lattices read off an order matrix.**

The construction looks for a least upper and a greatest lower bound of each pair of elements, and takes
the last that it finds.  Besides this it checks that every element lies below itself, but neither that
the matrix is antisymmetric nor that it is transitive.  So some matrices are accepted that are no order:
one in which two elements lie below each other, where a bound is not unique, or one that goes round in
a circle, where joins are not associative.  What is missing is just this.  The operations satisfy the
laws of a lattice whose order is the matrix if and only if the matrix is a partial order.

Main definitions:

* `Catalogue.below` — the relation that a matrix describes;
* `Catalogue.IsLeastUpper`, `Catalogue.HasBounds` — bounds, and what the construction asks for;
* `Catalogue.IsOrder`, `Catalogue.LatticeLaws` — a partial order, and the laws of its bounds;
* `Catalogue.JoinsAndMeets`, `Catalogue.OrderOutcome` — what is built, and all that can come of a matrix.

Main results:

* `Catalogue.leastUpper?_eq_some_iff` — the search ends with the last least upper bound;
* `Catalogue.JoinsAndMeets.isOrder_iff` — **the laws hold if and only if the matrix is an order**;
* `Catalogue.latticeFromOrder_outcome` — the outcomes of the construction;
* `Catalogue.latticeFromOrder_exact` — **which matrices are accepted, and what is made of them**.
-/

import Mathlib
import UniversalAlgebra.Proofs.Catalogue.Operations

set_option autoImplicit false

namespace UniversalAlgebra.Catalogue

variable {n x y z u v w : ℕ} {le le' : ℕ → ℕ → Bool} {join meet f : ℕ → ℕ → ℕ}

/-! ### Bounds -/

/-- An element above `x` and `y` that lies below every such element.  With `flip le` it is one below
both that lies above every such element. -/
structure IsLeastUpper (n : ℕ) (le : ℕ → ℕ → Bool) (x y z : ℕ) : Prop where
  lt : z < n
  left : le x z = true
  right : le y z = true
  least : ∀ w < n, le x w = true → le y w = true → le z w = true

/-- Two elements with bounds on both sides. -/
def IsBounded (n : ℕ) (le : ℕ → ℕ → Bool) (x y : ℕ) : Prop :=
  (∃ z, IsLeastUpper n le x y z) ∧ ∃ z, IsLeastUpper n (flip le) x y z

/-- What the construction asks for. -/
structure HasBounds (n : ℕ) (le : ℕ → ℕ → Bool) : Prop where
  refl : ∀ x < n, le x x = true
  bounded : ∀ x < n, ∀ y < n, IsBounded n le x y

/-- A partial order on `[0, n)`. -/
structure IsOrder (n : ℕ) (le : ℕ → ℕ → Bool) : Prop where
  refl : ∀ x < n, le x x = true
  antisymm : ∀ x < n, ∀ y < n, le x y = true → le y x = true → x = y
  trans : ∀ x < n, ∀ y < n, ∀ z < n, le x y = true → le y z = true → le x z = true

theorem IsOrder.reverse (h : IsOrder n le) : IsOrder n (flip le) where
  refl := h.refl
  antisymm x hx y hy hyx hxy := h.antisymm x hx y hy hxy hyx
  trans x hx y hy z hz hyx hzy := h.trans z hz y hy x hx hzy hyx

namespace IsLeastUpper

theorem comm (h : IsLeastUpper n le x y z) : IsLeastUpper n le y x z :=
  ⟨h.lt, h.right, h.left, fun w hw hy hx => h.least w hw hx hy⟩

/-- The greater of two elements. -/
theorem of_le (hy : y < n) (hrefl : le y y = true) (hle : le x y = true) : IsLeastUpper n le x y y :=
  ⟨hy, hle, hrefl, fun _ _ _ hyw => hyw⟩

theorem unique (horder : IsOrder n le) (hz : IsLeastUpper n le x y z) (hw : IsLeastUpper n le x y w) :
    z = w :=
  horder.antisymm z hz.lt w hw.lt (hz.least w hw.lt hw.left hw.right)
    (hw.least z hz.lt hz.left hz.right)

/-- Three elements are bounded together from the left or from the right. -/
theorem assoc (horder : IsOrder n le) (hx : x < n) (hy : y < n) (hz : z < n)
    (hxy : IsLeastUpper n le x y u) (hyz : IsLeastUpper n le y z v)
    (hw : IsLeastUpper n le u z w) : IsLeastUpper n le x v w where
  lt := hw.lt
  left := horder.trans x hx u hxy.lt w hw.lt hxy.left hw.left
  right := hyz.least w hw.lt (horder.trans y hy u hxy.lt w hw.lt hxy.right hw.left) hw.right
  least t ht hxt hvt := by
    have hyt : le y t = true := horder.trans y hy v hyz.lt t ht hyz.left hvt
    have hzt : le z t = true := horder.trans z hz v hyz.lt t ht hyz.right hvt
    exact hw.least t ht (hxy.least t ht hxt hyt) hzt

/-- Only what the relation says of elements matters. -/
theorem congr (hle : ∀ a < n, ∀ b < n, le a b = le' a b) (hx : x < n) (hy : y < n) :
    IsLeastUpper n le x y z ↔ IsLeastUpper n le' x y z := by
  have hmono {le le' : ℕ → ℕ → Bool} (hle : ∀ a < n, ∀ b < n, le a b = le' a b)
      (h : IsLeastUpper n le x y z) : IsLeastUpper n le' x y z := by
    refine ⟨h.lt, ?_, ?_, fun w hw hxw hyw => ?_⟩
    · rw [← hle x hx z h.lt]
      exact h.left
    · rw [← hle y hy z h.lt]
      exact h.right
    · rw [← hle x hx w hw] at hxw
      rw [← hle y hy w hw] at hyw
      rw [← hle z h.lt w hw]
      exact h.least w hw hxw hyw
  exact ⟨hmono hle, hmono fun a ha b hb => (hle a ha b hb).symm⟩

end IsLeastUpper

theorem IsBounded.congr (hle : ∀ a < n, ∀ b < n, le a b = le' a b) (hx : x < n) (hy : y < n) :
    IsBounded n le x y ↔ IsBounded n le' x y :=
  and_congr (exists_congr fun _ => IsLeastUpper.congr hle hx hy)
    (exists_congr fun _ => IsLeastUpper.congr (fun a ha b hb => hle b hb a ha) hx hy)

/-! ### The search for a bound -/

/-- A search from the end finds the greatest number that passes. -/
theorem findRev?_range_eq_some_iff {test : ℕ → Bool} :
    (List.range n).findRev? test = some z ↔ IsGreatest {z | z < n ∧ test z = true} z := by
  rw [List.findRev?_eq_find?_reverse]
  induction n with
  | zero => simp [IsGreatest]
  | succ n ih =>
      rw [List.range_succ, List.reverse_append, List.reverse_singleton, List.singleton_append,
        List.find?_cons]
      cases htest : test n with
      | true =>
          have hgreatest : IsGreatest {z | z < n + 1 ∧ test z = true} n :=
            ⟨⟨n.lt_succ_self, htest⟩, fun z hz => Nat.le_of_lt_succ hz.1⟩
          rw [Option.some_inj]
          exact ⟨fun h => h ▸ hgreatest, hgreatest.unique⟩
      | false =>
          have hset : {z | z < n + 1 ∧ test z = true} = {z | z < n ∧ test z = true} := by
            ext z
            refine and_congr_left fun hz => ?_
            have hne : z ≠ n := by
              rintro rfl
              simp [hz] at htest
            omega
          rw [hset]
          exact ih

/-- What the search for a bound looks for. -/
theorem isLeastUpper_iff : IsLeastUpper n le x y z ↔ z < n ∧
    (le x z && le y z && Below.all n fun w => !(le x w && le y w) || le z w) = true := by
  have hleast : (Below.all n fun w => !(le x w && le y w) || le z w) = true ↔
      ∀ w < n, le x w = true → le y w = true → le z w = true := by
    rw [Below.all_eq, List.all_eq_true]
    refine forall_congr' fun w => ?_
    rw [List.mem_range]
    cases le x w <;> cases le y w <;> simp
  rw [Bool.and_eq_true, Bool.and_eq_true, hleast]
  exact ⟨fun h => ⟨h.lt, ⟨h.left, h.right⟩, h.least⟩, fun h => ⟨h.1, h.2.1.1, h.2.1.2, h.2.2⟩⟩

/-- **The search ends with the last least upper bound.** -/
theorem leastUpper?_eq_some_iff :
    leastUpper? n le x y = some z ↔ IsGreatest {z | IsLeastUpper n le x y z} z := by
  rw [leastUpper?, findRev?_range_eq_some_iff]
  simp only [isLeastUpper_iff]

/-- It fails where there is none. -/
theorem isSome_leastUpper?_iff : (leastUpper? n le x y).isSome = true ↔ ∃ z, IsLeastUpper n le x y z := by
  rw [leastUpper?, List.findRev?_eq_find?_reverse, List.find?_isSome]
  simp only [isLeastUpper_iff, List.mem_reverse, List.mem_range]

theorem isBounded_iff : IsBounded n le x y ↔
    ((leastUpper? n le x y).isSome && (greatestLower? n le x y).isSome) = true := by
  have hlower : greatestLower? n le x y = leastUpper? n (flip le) x y := rfl
  rw [hlower, Bool.and_eq_true, isSome_leastUpper?_iff, isSome_leastUpper?_iff, IsBounded]

/-- The value stored where there is a bound. -/
theorem isGreatest_leastUpper (h : ∃ z, IsLeastUpper n le x y z) :
    IsGreatest {z | IsLeastUpper n le x y z} ((leastUpper? n le x y).getD 0) := by
  obtain ⟨z, hz⟩ := Option.isSome_iff_exists.1 (isSome_leastUpper?_iff.2 h)
  rw [hz, Option.getD_some]
  exact leastUpper?_eq_some_iff.1 hz

/-! ### Laws -/

/-- The laws of an operation whose values are the bounds of an order. -/
structure SemilatticeLaws (n : ℕ) (le : ℕ → ℕ → Bool) (f : ℕ → ℕ → ℕ) : Prop where
  idem : ∀ x < n, f x x = x
  comm : ∀ x < n, ∀ y < n, f x y = f y x
  assoc : ∀ x < n, ∀ y < n, ∀ z < n, f (f x y) z = f x (f y z)
  le_iff : ∀ x < n, ∀ y < n, le x y = true ↔ f x y = y

/-- The laws of a lattice with a given order. -/
structure LatticeLaws (n : ℕ) (le : ℕ → ℕ → Bool) (join meet : ℕ → ℕ → ℕ) : Prop where
  joins : SemilatticeLaws n le join
  meets : SemilatticeLaws n (flip le) meet
  join_meet : ∀ x < n, ∀ y < n, join x (meet x y) = x
  meet_join : ∀ x < n, ∀ y < n, meet x (join x y) = x

/-- In an order each pair has but one bound, so that the laws hold of any choice of bounds. -/
theorem IsOrder.semilatticeLaws (h : IsOrder n le)
    (hf : ∀ x < n, ∀ y < n, IsLeastUpper n le x y (f x y)) : SemilatticeLaws n le f where
  idem x hx := (hf x hx x hx).unique h (.of_le hx (h.refl x hx) (h.refl x hx))
  comm x hx y hy := (hf x hx y hy).unique h (hf y hy x hx).comm
  assoc x hx y hy z hz := by
    have hxy := hf x hx y hy
    have hyz := hf y hy z hz
    exact (hxy.assoc h hx hy hz hyz (hf _ hxy.lt z hz)).unique h (hf x hx _ hyz.lt)
  le_iff x hx y hy :=
    ⟨fun hle => (hf x hx y hy).unique h (.of_le hy (h.refl y hy) hle),
      fun heq => heq ▸ (hf x hx y hy).left⟩

/-- An element absorbs what it bounds. -/
theorem IsOrder.absorb (h : IsOrder n le) (hf : ∀ x < n, ∀ y < n, IsLeastUpper n le x y (f x y))
    (hx : x < n) (hz : IsLeastUpper n (flip le) x y z) : f x z = x :=
  (hf x hx z hz.lt).unique h (IsLeastUpper.of_le hx (h.refl x hx) hz.left).comm

/-- Conversely, the laws of a semilattice make its relation an order. -/
theorem SemilatticeLaws.isOrder (h : SemilatticeLaws n le f) : IsOrder n le where
  refl x hx := (h.le_iff x hx x hx).2 (h.idem x hx)
  antisymm x hx y hy hxy hyx := by
    calc x = f y x := ((h.le_iff y hy x hx).1 hyx).symm
      _ = f x y := h.comm y hy x hx
      _ = y := (h.le_iff x hx y hy).1 hxy
  trans x hx y hy z hz hxy hyz := by
    have hxy := (h.le_iff x hx y hy).1 hxy
    have hyz := (h.le_iff y hy z hz).1 hyz
    refine (h.le_iff x hx z hz).2 ?_
    calc f x z = f x (f y z) := by rw [hyz]
      _ = f (f x y) z := (h.assoc x hx y hy z hz).symm
      _ = z := by rw [hxy, hyz]

/-! ### What is built -/

/-- An algebra whose operations are the last bounds of each two elements. -/
structure JoinsAndMeets (n : ℕ) (le : ℕ → ℕ → Bool) (A : Algebra) (join meet : ℕ → ℕ → ℕ) : Prop where
  operations : A.HasOperations n [binaryOperation "join" n join, binaryOperation "meet" n meet]
  join : ∀ x < n, ∀ y < n, IsGreatest {z | IsLeastUpper n le x y z} (join x y)
  meet : ∀ x < n, ∀ y < n, IsGreatest {z | IsLeastUpper n (flip le) x y z} (meet x y)

/-- **The laws of a lattice hold if and only if the relation is a partial order.** -/
theorem JoinsAndMeets.isOrder_iff {A : Algebra} (h : JoinsAndMeets n le A join meet) :
    IsOrder n le ↔ LatticeLaws n le join meet := by
  have hjoin (x : ℕ) (hx : x < n) (y : ℕ) (hy : y < n) := (h.join x hx y hy).1
  have hmeet (x : ℕ) (hx : x < n) (y : ℕ) (hy : y < n) := (h.meet x hx y hy).1
  constructor
  · intro horder
    exact ⟨horder.semilatticeLaws hjoin, horder.reverse.semilatticeLaws hmeet,
      fun x hx y hy => horder.absorb hjoin hx (hmeet x hx y hy),
      fun x hx y hy => horder.reverse.absorb hmeet hx (hjoin x hx y hy)⟩
  · exact fun hlaws => hlaws.joins.isOrder

/-- The relation that an order matrix describes, row by row. -/
def below (n : ℕ) (leq : Array Bool) (x y : ℕ) : Bool := leq[x * n + y]?.getD false

/-- All that can come of an order matrix.  A fault names the element, or the pair of elements, at which
the matrix fails. -/
inductive OrderOutcome (name : String) (n : ℕ) (le : ℕ → ℕ → Bool) : Except Fault Algebra → Prop
  | notReflexive (x : ℕ) (hx : x < n) (hle : le x x = false) :
      OrderOutcome name n le (.error (.orderNotReflexive name x))
  | unbounded (x y : ℕ) (hx : x < n) (hy : y < n)
      (hbounds : ¬ IsBounded n le x y) :
      OrderOutcome name n le (.error (.notALattice name x y))
  | empty (hn : n = 0) : OrderOutcome name n le (.error (.emptyUniverse "join"))
  | built (A : Algebra) (join meet : ℕ → ℕ → ℕ) (hn : 1 ≤ n) (hbounds : HasBounds n le)
      (hA : JoinsAndMeets n le A join meet) : OrderOutcome name n le (.ok A)

namespace OrderOutcome

variable {name : String} {r : Except Fault Algebra}

/-- An algebra comes of a matrix exactly if it is what the construction asks for. -/
theorem exists_ok_iff (h : OrderOutcome name n le r) : (∃ A, r = .ok A) ↔ 1 ≤ n ∧ HasBounds n le := by
  cases h with
  | notReflexive x hx hle =>
      refine iff_of_false (by simp) fun h => ?_
      simp [h.2.refl x hx] at hle
  | unbounded x y hx hy hbounds =>
      exact iff_of_false (by simp) fun h => hbounds (h.2.bounded x hx y hy)
  | empty hn => exact iff_of_false (by simp) fun h => by omega
  | built A join meet hn hbounds hA => exact iff_of_true ⟨A, rfl⟩ ⟨hn, hbounds⟩

theorem fault_kind {fault : Fault} (h : OrderOutcome name n le (.error fault)) :
    fault.kind = .invalidInput := by
  cases h <;> rfl

theorem exists_joinsAndMeets {A : Algebra} (h : OrderOutcome name n le (.ok A)) :
    ∃ join meet, JoinsAndMeets n le A join meet := by
  cases h with
  | built A join meet hn hbounds hA => exact ⟨join, meet, hA⟩

/-- Only what the relation says of elements matters. -/
theorem congr (hle : ∀ a < n, ∀ b < n, le a b = le' a b) (h : OrderOutcome name n le r) :
    OrderOutcome name n le' r := by
  have hge : ∀ a < n, ∀ b < n, flip le a b = flip le' a b := fun a ha b hb => hle b hb a ha
  cases h with
  | notReflexive x hx hrefl => exact .notReflexive x hx (by rwa [← hle x hx x hx])
  | unbounded x y hx hy hbounds =>
      exact .unbounded x y hx hy (by rwa [← IsBounded.congr hle hx hy])
  | empty hn => exact .empty hn
  | built A join meet hn hbounds hA =>
      refine .built A join meet hn ⟨fun x hx => ?_, fun x hx y hy => ?_⟩
        ⟨hA.operations, fun x hx y hy => ?_, fun x hx y hy => ?_⟩
      · rw [← hle x hx x hx]
        exact hbounds.refl x hx
      · rw [← IsBounded.congr hle hx hy]
        exact hbounds.bounded x hx y hy
      · simp only [← IsLeastUpper.congr hle hx hy]
        exact hA.join x hx y hy
      · simp only [← IsLeastUpper.congr hge hx hy]
        exact hA.meet x hx y hy

end OrderOutcome

/-- The search for a pair of elements without bounds, row by row. -/
theorem find?_unbounded_eq_none_iff :
    (Below.find? (n * n) fun i =>
      !((leastUpper? n le (i / n) (i % n)).isSome && (greatestLower? n le (i / n) (i % n)).isSome)) = none
      ↔ ∀ x < n, ∀ y < n, IsBounded n le x y := by
  rw [Below.find?_eq, List.find?_eq_none]
  simp only [Bool.not_eq_true', Bool.not_eq_false, ← isBounded_iff, List.mem_range]
  constructor
  · intro h x hx y hy
    obtain ⟨hindex, hdiv, hmod⟩ := pairIndex_spec hx hy
    have hxy := h (x * n + y) hindex
    rwa [hdiv, hmod] at hxy
  · intro h i hi
    exact h _ (Nat.div_lt_of_lt_mul hi) _
      (Nat.mod_lt i (Nat.pos_of_mul_pos_left (Nat.zero_lt_of_lt hi)))

/-- **The outcomes of the construction.** -/
theorem latticeFromOrder_outcome (name : String) {leq : Array Bool} (hn : n < 2 ^ 32)
    (hsize : leq.size = n * n) :
    OrderOutcome name n (below n leq) (latticeFromOrder name n leq) := by
  have hsquare : n * n < UInt64.size := by
    calc n * n < 2 ^ 32 * 2 ^ 32 := Nat.mul_lt_mul_of_lt_of_lt hn hn
      _ = UInt64.size := by decide
  have hle : ∀ x < n, ∀ y < n,
      (fun x y => leq[(x * n + y) % UInt64.size]?.getD false) x y = below n leq x y := by
    intro x hx y hy
    have hindex : (x * n + y) % UInt64.size = x * n + y :=
      Nat.mod_eq_of_lt ((pairIndex_spec hx hy).1.trans hsquare)
    simp only [hindex, below]
  rw [latticeFromOrder, if_neg (not_not_intro (hsize.trans (Nat.mod_eq_of_lt hsquare).symm))]
  generalize (fun x y => leq[(x * n + y) % UInt64.size]?.getD false) = le at hle ⊢
  refine OrderOutcome.congr hle ?_
  dsimp only
  cases hreflexive : Below.find? n fun x => !le x x with
  | some x =>
      rw [Below.find?_eq, List.find?_range_eq_some] at hreflexive
      exact .notReflexive x (by simpa using hreflexive.2.1) (by simpa using hreflexive.1)
  | none =>
      dsimp only
      cases hbounded : Below.find? (n * n) fun i => !((leastUpper? n le (i / n) (i % n)).isSome &&
          (greatestLower? n le (i / n) (i % n)).isSome) with
      | some i =>
          rw [Below.find?_eq, List.find?_range_eq_some] at hbounded
          obtain ⟨hunbounded, hi, -⟩ := hbounded
          have hi : i < n * n := List.mem_range.1 hi
          refine .unbounded (i / n) (i % n) (Nat.div_lt_of_lt_mul hi)
            (Nat.mod_lt i (Nat.pos_of_mul_pos_left (Nat.zero_lt_of_lt hi))) ?_
          rwa [isBounded_iff, Bool.not_eq_true, ← Bool.not_eq_true']
      | none =>
          rcases n.eq_zero_or_pos with rfl | hpos
          · exact .empty rfl
          rw [find?_unbounded_eq_none_iff] at hbounded
          have hjoin (x : ℕ) (hx : x < n) (y : ℕ) (hy : y < n) :=
            isGreatest_leastUpper (hbounded x hx y hy).1
          have hmeet (x : ℕ) (hx : x < n) (y : ℕ) (hy : y < n) :=
            isGreatest_leastUpper (hbounded x hx y hy).2
          have hrefl : ∀ x < n, le x x = true := fun x hx => by
            rw [Below.find?_eq, List.find?_eq_none] at hreflexive
            simpa using hreflexive x (List.mem_range.2 hx)
          obtain ⟨A, hA, hops⟩ := exists_joinMeet name hpos hn
            (fun x hx y hy => (hjoin x hx y hy).1.lt) fun x hx y hy => (hmeet x hx y hy).1.lt
          have hbuilt : OrderOutcome name n le (.ok A) :=
            .built A _ _ hpos ⟨hrefl, hbounded⟩ ⟨hops, hjoin, hmeet⟩
          rw [← hA] at hbuilt
          exact hbuilt

/-! ### Which matrices are accepted -/

/-- **Which matrices are accepted, and what is made of them**, below 2³² elements.  An algebra is built
exactly if there are elements, each lies below itself, and every two have a least upper and a greatest
lower bound; the fault is one of the input otherwise.  The operations are the last of these bounds, and
the laws of a lattice whose order is the matrix hold exactly if the matrix is a partial order. -/
theorem latticeFromOrder_exact (name : String) {leq : Array Bool} (hn : n < 2 ^ 32)
    (hsize : leq.size = n * n) :
    ((∃ A, latticeFromOrder name n leq = .ok A) ↔ 1 ≤ n ∧ HasBounds n (below n leq)) ∧
      (∀ fault, latticeFromOrder name n leq = .error fault → fault.kind = .invalidInput) ∧
      ∀ A, latticeFromOrder name n leq = .ok A → ∃ join meet,
        JoinsAndMeets n (below n leq) A join meet ∧
          (IsOrder n (below n leq) ↔ LatticeLaws n (below n leq) join meet) := by
  have houtcome := latticeFromOrder_outcome name hn hsize
  refine ⟨houtcome.exists_ok_iff, fun fault hfault => ?_, fun A hA => ?_⟩
  · rw [hfault] at houtcome
    exact houtcome.fault_kind
  · rw [hA] at houtcome
    obtain ⟨join, meet, hjoins⟩ := houtcome.exists_joinsAndMeets
    exact ⟨join, meet, hjoins, hjoins.isOrder_iff⟩

/-- The pentagon is accepted, and its operations satisfy the laws of a lattice. -/
theorem latticeLaws_pentagon : ∃ A join meet, pentagon = .ok A ∧
    JoinsAndMeets 5 (below 5 (fiveElementOrder [(1, 2)])) A join meet ∧
      LatticeLaws 5 (below 5 (fiveElementOrder [(1, 2)])) join meet := by
  have hsize : (fiveElementOrder [(1, 2)]).size = 5 * 5 := by cbv
  obtain ⟨-, -, hbuilt⟩ := latticeFromOrder_exact "N5" (by decide) hsize
  have hok : pentagon.isOk = true := by decide +kernel
  obtain ⟨A, hA⟩ : ∃ A, pentagon = .ok A := by
    cases hpentagon : pentagon with
    | error fault => simp [hpentagon, Except.isOk, Except.toBool] at hok
    | ok A => exact ⟨A, rfl⟩
  obtain ⟨join, meet, hbounds, horder⟩ := hbuilt A hA
  have hpentagon : IsOrder 5 (below 5 (fiveElementOrder [(1, 2)])) :=
    ⟨by decide +kernel, by decide +kernel, by decide +kernel⟩
  exact ⟨A, join, meet, hA, hbounds, horder.1 hpentagon⟩

/-- Two matrices that are no order, but accepted.  If two elements lie below each other, the join and
the meet of the first with itself are the second.  If of three elements each lies below the next, round
in a circle, joins depend on how they are bracketed. -/
theorem latticeFromOrder_without_order :
    (¬ IsOrder 2 (below 2 #[true, true, true, true]) ∧
      (latticeFromOrder "Pre" 2 #[true, true, true, true]).toOption.map
        (fun A => A.operations.map fun op => op.value [0, 0]) = some [1, 1]) ∧
    ¬ IsOrder 3 (below 3 #[true, true, false, false, true, true, true, false, true]) ∧
      (latticeFromOrder "circle" 3 #[true, true, false, false, true, true, true, false, true]).toOption.map
        (fun A => A.operations.map fun op =>
          (op.value [op.value [0, 1], 2], op.value [0, op.value [1, 2]])) = some [(2, 0), (2, 0)] := by
  refine ⟨⟨fun h => ?_, by cbv⟩, fun h => ?_, by cbv⟩
  · exact absurd (h.antisymm 0 (by decide) 1 (by decide) rfl rfl) (by decide)
  · exact absurd (h.trans 0 (by decide) 1 (by decide) 2 (by decide) rfl rfl) (by decide)

end UniversalAlgebra.Catalogue
