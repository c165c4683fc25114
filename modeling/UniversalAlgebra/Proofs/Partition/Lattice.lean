/-
**The lattice of partitions.**

Refinement, meets and joins take one pass each: an element is compared with the least element of its
block only, the pairs of least elements are grouped, and each element is merged with the least element
of its block in the other partition.  On partitions that were made in any way these passes compute the
order, the meets and the joins of the equivalence relations.  So the partitions of a set form a lattice,
and its laws hold for the operations.

Main definitions:

* `Partition.On` — the partitions of `[0, n)` that can be made, with their lattice;
* `Partition.IsMeet`, `Partition.IsJoin` — what a meet and a join are, by elements and by refinement.

Main results:

* `Partition.On.setoid_injective` — the lattice is one of equivalence relations;
* `Partition.On.isRelated_sup_iff` — **the join relates the ends of a chain**;
* `Partition.On.isMeet`, `Partition.On.isJoin` — the meet and the join;
* `Partition.operations_exact` — **refinement, meets and joins are those of a lattice**.
-/

import UniversalAlgebra.Proofs.Partition.Constructed

set_option autoImplicit false

namespace UniversalAlgebra.Partition

open Fallible

variable {p q r : Partition} {n i j : ℕ}

/-! ### The lattice -/

/-- The partitions of `[0, n)` that can be made. -/
def On (n : ℕ) : Type := {p : Partition // Constructed n p}

namespace On

variable (p q : On n)

/-- The equivalence relation of a partition. -/
def setoid : Setoid ℕ := p.1.setoid

theorem valid : p.1.Valid := p.2.validOn.1

theorem size_eq : p.1.size = n := p.2.validOn.2

theorem size_eq_size : p.1.size = q.1.size := p.size_eq.trans q.size_eq.symm

instance : Min (On n) :=
  ⟨fun p q => ⟨p.1.inf q.1, .meet p.2 q.2 (meet_eq (p.size_eq_size q))⟩⟩

instance : Max (On n) :=
  ⟨fun p q => ⟨p.1.sup q.1, .join p.2 q.2 (join_eq (p.size_eq_size q))⟩⟩

instance : LE (On n) := ⟨fun p q => p.1.refines q.1 = true⟩

instance : LT (On n) := ⟨fun p q => p ≤ q ∧ ¬ q ≤ p⟩

/-- A partition is known by its relation. -/
theorem setoid_injective : Function.Injective (setoid (n := n)) := by
  intro p q h
  exact Subtype.ext (p.valid.ext q.valid (p.size_eq_size q) h)

theorem setoid_le_iff {p q : On n} : p.setoid ≤ q.setoid ↔ p ≤ q := p.valid.refines_iff.symm

theorem setoid_lt_iff {p q : On n} : p.setoid < q.setoid ↔ p < q := by
  rw [lt_iff_le_not_ge, setoid_le_iff, setoid_le_iff]
  rfl

theorem setoid_inf : (p ⊓ q).setoid = p.setoid ⊓ q.setoid := p.valid.setoid_inf

theorem setoid_sup : (p ⊔ q).setoid = p.setoid ⊔ q.setoid :=
  p.valid.setoid_sup q.valid (p.size_eq_size q)

/-- The laws are those of equivalence relations. -/
instance : Lattice (On n) :=
  setoid_injective.lattice setoid setoid_le_iff setoid_lt_iff setoid_sup setoid_inf

/-! ### The operations -/

theorem meet_eq_inf : p.1.meet q.1 = .ok (p ⊓ q).1 := meet_eq (p.size_eq_size q)

theorem join_eq_sup : p.1.join q.1 = .ok (p ⊔ q).1 := join_eq (p.size_eq_size q)

theorem le_eq : p.1.le q.1 = .ok (p.1.refines q.1) := by
  rw [Partition.le, checkSize, if_pos (p.size_eq_size q)]
  rfl

theorem le_eq_ok_true : p.1.le q.1 = .ok true ↔ p ≤ q := by
  rw [le_eq, Except.ok.injEq]
  rfl

theorem isRelated_iff : p.1.isRelated i j = .ok true ↔ i < n ∧ j < n ∧ p.setoid i j := by
  rw [isRelated_eq_ok_true, p.size_eq]
  rfl

/-- What relates elements that differ relates elements of `[0, n)`. -/
theorem isRelated_iff_setoid (hi : i < n) : p.1.isRelated i j = .ok true ↔ p.setoid i j := by
  rw [isRelated_iff, and_iff_right hi, and_iff_right_iff_imp]
  intro h
  have hj := p.valid.setoid_lt h (p.size_eq.symm ▸ hi)
  exact p.size_eq ▸ hj

/-- **Refinement by elements.** -/
theorem le_iff_isRelated :
    p ≤ q ↔ ∀ i j, p.1.isRelated i j = .ok true → q.1.isRelated i j = .ok true := by
  rw [← setoid_le_iff]
  constructor
  · intro h i j hij
    obtain ⟨hi, hj, hij⟩ := p.isRelated_iff.1 hij
    exact q.isRelated_iff.2 ⟨hi, hj, h hij⟩
  · intro h
    refine p.valid.setoid_le_iff.2 fun i hi => ?_
    rw [p.size_eq] at hi
    have hrep := (p.isRelated_iff_setoid hi).2 (setoid_iff.2 (p.valid.rep_rep_eq i).symm)
    exact (q.isRelated_iff_setoid hi).1 (h i _ hrep)

/-- A step of a chain: one of two partitions relates its ends. -/
def Step (x y : ℕ) : Prop := p.1.isRelated x y = .ok true ∨ q.1.isRelated x y = .ok true

theorem step_symm (x y : ℕ) (h : Step p q x y) : Step p q y x := by
  have hsymm (p : On n) (h : p.1.isRelated x y = .ok true) : p.1.isRelated y x = .ok true := by
    obtain ⟨hx, hy, hxy⟩ := p.isRelated_iff.1 h
    exact p.isRelated_iff.2 ⟨hy, hx, p.setoid.symm hxy⟩
  exact h.imp (hsymm p) (hsymm q)

/-- The relation of the join is generated by steps. -/
theorem setoid_sup_eq_eqvGen : (p ⊔ q).setoid = Relation.EqvGen.setoid (Step p q) := by
  have hself (p : On n) (i : ℕ) (hi : i < p.1.size) : p.1.isRelated i (p.1.rep i) = .ok true :=
    isRelated_eq_ok_true.2 ⟨hi, p.valid.rep_lt hi, (p.valid.rep_rep_eq i).symm⟩
  refine le_antisymm ?_ (Setoid.eqvGen_le ?_)
  · rw [setoid_sup]
    refine sup_le (p.valid.setoid_le_iff.2 fun i hi => ?_) (q.valid.setoid_le_iff.2 fun i hi => ?_)
    · exact .rel _ _ (Or.inl (hself p i hi))
    · exact .rel _ _ (Or.inr (hself q i hi))
  · rintro x y (h | h)
    · exact setoid_le_iff.2 (le_sup_left : p ≤ p ⊔ q) (p.isRelated_iff.1 h).2.2
    · exact setoid_le_iff.2 (le_sup_right : q ≤ p ⊔ q) (q.isRelated_iff.1 h).2.2

/-- **The join relates the ends of a chain.** -/
theorem isRelated_sup_iff (hi : i < n) :
    (p ⊔ q).1.isRelated i j = .ok true ↔ Relation.ReflTransGen (Step p q) i j := by
  have : Std.Symm (Step p q) := ⟨step_symm p q⟩
  rw [isRelated_iff_setoid _ hi, setoid_sup_eq_eqvGen, ← Relation.EqvGen.eqvGen_eq_reflTransGen]
  rfl

theorem isRelated_inf_iff : (p ⊓ q).1.isRelated i j = .ok true ↔
    p.1.isRelated i j = .ok true ∧ q.1.isRelated i j = .ok true := by
  rw [isRelated_iff, isRelated_iff, isRelated_iff, setoid_inf]
  change i < n ∧ j < n ∧ (p.setoid i j ∧ q.setoid i j) ↔ _
  tauto

end On

/-! ### Meets and joins -/

/-- The meet of two partitions of `[0, n)`: it relates what both relate, and it is the greatest one below
both. -/
structure IsMeet (n : ℕ) (p q m : Partition) : Prop where
  constructed : Constructed n m
  isRelated_iff : ∀ i j, m.isRelated i j = .ok true ↔
    p.isRelated i j = .ok true ∧ q.isRelated i j = .ok true
  le_left : m.le p = .ok true
  le_right : m.le q = .ok true
  greatest : ∀ r, Constructed n r → r.le p = .ok true → r.le q = .ok true → r.le m = .ok true

/-- The join of two partitions of `[0, n)`: it relates the ends of each chain of pairs that one of them
relates, and it is the least one above both. -/
structure IsJoin (n : ℕ) (p q s : Partition) : Prop where
  constructed : Constructed n s
  isRelated_iff : ∀ i < n, ∀ j, s.isRelated i j = .ok true ↔ Relation.ReflTransGen
    (fun x y => p.isRelated x y = .ok true ∨ q.isRelated x y = .ok true) i j
  left_le : p.le s = .ok true
  right_le : q.le s = .ok true
  least : ∀ r, Constructed n r → p.le r = .ok true → q.le r = .ok true → s.le r = .ok true

theorem On.isMeet (p q : On n) : IsMeet n p.1 q.1 (p ⊓ q).1 where
  constructed := (p ⊓ q).2
  isRelated_iff _ _ := isRelated_inf_iff p q
  le_left := (le_eq_ok_true _ _).2 inf_le_left
  le_right := (le_eq_ok_true _ _).2 inf_le_right
  greatest r hr hp hq :=
    (le_eq_ok_true ⟨r, hr⟩ _).2 (le_inf ((le_eq_ok_true ⟨r, hr⟩ p).1 hp) ((le_eq_ok_true ⟨r, hr⟩ q).1 hq))

theorem On.isJoin (p q : On n) : IsJoin n p.1 q.1 (p ⊔ q).1 where
  constructed := (p ⊔ q).2
  isRelated_iff _ hi _ := isRelated_sup_iff p q hi
  left_le := (le_eq_ok_true _ _).2 le_sup_left
  right_le := (le_eq_ok_true _ _).2 le_sup_right
  least r hr hp hq :=
    (le_eq_ok_true _ ⟨r, hr⟩).2 (sup_le ((le_eq_ok_true p ⟨r, hr⟩).1 hp) ((le_eq_ok_true q ⟨r, hr⟩).1 hq))

/-- Partitions of different sizes are refused by each operation. -/
theorem operations_of_size_ne (h : p.size ≠ q.size) :
    p.le q = .error (.sizeMismatch p.size q.size) ∧
    p.meet q = .error (.sizeMismatch p.size q.size) ∧
    p.join q = .error (.sizeMismatch p.size q.size) := by
  have hcheck : p.checkSize q = .error (.sizeMismatch p.size q.size) := if_neg h
  rw [Partition.le, meet, join, hcheck]
  exact ⟨rfl, rfl, rfl⟩

/-- **The partitions of a set are a lattice.**  On partitions of `[0, n)` that were made in any way,
refinement, meets and joins are never refused.  Refinement is a partial order, and it holds if every pair
related by the first partition is related by the second.  The meet relates what both relate and is the
greatest lower bound; the join relates the ends of chains and is the least upper bound.  Both operations
are commutative, associative and idempotent, and they absorb each other.  Partitions of different sizes
are refused. -/
theorem operations_exact (n : ℕ) :
    (∀ p q, Constructed n p → Constructed n q →
      (∃ answer, p.le q = .ok answer) ∧
      (p.le q = .ok true ↔ ∀ i j, p.isRelated i j = .ok true → q.isRelated i j = .ok true) ∧
      p.le p = .ok true ∧ (p.le q = .ok true → q.le p = .ok true → p = q) ∧
      (∃ m, p.meet q = .ok m ∧ IsMeet n p q m) ∧ (∃ s, p.join q = .ok s ∧ IsJoin n p q s) ∧
      p.meet q = q.meet p ∧ p.join q = q.join p ∧ p.meet p = .ok p ∧ p.join p = .ok p ∧
      (do p.meet (← p.join q)) = .ok p ∧ (do p.join (← p.meet q)) = .ok p ∧
      ∀ r, Constructed n r →
        (p.le q = .ok true → q.le r = .ok true → p.le r = .ok true) ∧
        (do (← p.meet q).meet r) = (do p.meet (← q.meet r)) ∧
        (do (← p.join q).join r) = (do p.join (← q.join r))) ∧
    ∀ p q : Partition, p.size ≠ q.size → ∃ fault, fault.kind = .invalidInput ∧
      p.le q = .error fault ∧ p.meet q = .error fault ∧ p.join q = .error fault := by
  refine ⟨fun p q hp hq => ?_, fun p q h => ⟨_, rfl, operations_of_size_ne h⟩⟩
  obtain ⟨p, rfl⟩ : ∃ p' : On n, p'.1 = p := ⟨⟨p, hp⟩, rfl⟩
  obtain ⟨q, rfl⟩ : ∃ q' : On n, q'.1 = q := ⟨⟨q, hq⟩, rfl⟩
  -- each law is one of the lattice
  have hlaw {a b : On n} (h : a = b) : (a.1 : Partition) = b.1 := congrArg Subtype.val h
  simp only [On.meet_eq_inf, On.join_eq_sup, ok_bind, On.le_eq_ok_true, Except.ok.injEq]
  refine ⟨⟨_, p.le_eq q⟩, On.le_iff_isRelated p q, le_refl p, fun h h' => hlaw (le_antisymm h h'),
    ⟨_, rfl, On.isMeet p q⟩, ⟨_, rfl, On.isJoin p q⟩, hlaw (inf_comm p q), hlaw (sup_comm p q),
    hlaw (inf_idem p), hlaw (sup_idem p), hlaw inf_sup_self, hlaw sup_inf_self, fun r hr => ?_⟩
  obtain ⟨r, rfl⟩ : ∃ r' : On n, r'.1 = r := ⟨⟨r, hr⟩, rfl⟩
  simp only [On.meet_eq_inf, On.join_eq_sup, ok_bind, On.le_eq_ok_true, Except.ok.injEq]
  exact ⟨le_trans, hlaw (inf_assoc p q r), hlaw (sup_assoc p q r)⟩

/-- Two blocks that overlap in the element 1 are linked through it in the join, and the meet separates
them.  A partition of three elements is refused. -/
theorem operations_of_overlapping_blocks : ∃ p q m s, ofBlocks 4 [[0, 1], [2], [3]] = .ok p ∧
    ofBlocks 4 [[0], [1, 2], [3]] = .ok q ∧ p.meet q = .ok m ∧ m.isRelated 0 1 ≠ .ok true ∧
    p.join q = .ok s ∧ s.isRelated 0 2 = .ok true ∧ s.meet p = .ok p ∧
    ∃ fault, fault.kind = .invalidInput ∧ s.join (finest 3) = .error fault := by
  have hp : ofBlocks 4 [[0, 1], [2], [3]] = .ok ⟨#[0, 0, 2, 3], 3⟩ := by cbv
  have hq : ofBlocks 4 [[0], [1, 2], [3]] = .ok ⟨#[0, 1, 1, 3], 3⟩ := by cbv
  have hfirst : (⟨#[0, 0, 2, 3], 3⟩ : Partition).isRelated 0 1 = .ok true := by cbv
  have hsecond : (⟨#[0, 1, 1, 3], 3⟩ : Partition).isRelated 1 2 = .ok true := by cbv
  have hneither : (⟨#[0, 1, 1, 3], 3⟩ : Partition).isRelated 0 1 ≠ .ok true := by decide
  generalize (⟨#[0, 0, 2, 3], 3⟩ : Partition) = p at *
  generalize (⟨#[0, 1, 1, 3], 3⟩ : Partition) = q at *
  obtain ⟨hlaws, hsizes⟩ := operations_exact 4
  obtain ⟨-, -, -, -, ⟨m, hm, hmeet⟩, ⟨s, hs, hjoin⟩, -, -, -, -, habsorb, -⟩ :=
    hlaws p q (.ofBlocks hp) (.ofBlocks hq)
  obtain ⟨-, -, -, -, -, -, hcomm, -⟩ := hlaws s p hjoin.constructed (.ofBlocks hp)
  obtain ⟨fault, hkind, -, -, hfault⟩ := hsizes s (finest 3) (by simp [hjoin.constructed.validOn.2])
  rw [hs, ok_bind, ← hcomm] at habsorb
  refine ⟨p, q, m, s, hp, hq, hm, fun h => hneither ((hmeet.isRelated_iff 0 1).1 h).2, hs,
    (hjoin.isRelated_iff 0 (by decide) 2).2 ?_, habsorb, fault, hkind, hfault⟩
  exact .head (Or.inl hfirst) (.single (Or.inr hsecond))

end UniversalAlgebra.Partition
