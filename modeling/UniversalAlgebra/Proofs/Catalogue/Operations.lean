/-
**The standard algebras are built from their formulas.**

An operation given by a formula is stored as a table; below 2³² elements the table of a binary
operation is small enough, so that the construction goes through and the stored operation takes the
values of the formula.  Whether a set is closed under such an operation, a relation compatible with
it, or a set of tuples closed coordinate by coordinate can then be read off the formula.

Main definitions:

* `Operation.Preserves`, `Operation.Respects`, `Operation.PreservesTuples` — what a single operation
  has to do with a set of elements, a relation, and a set of tuples;
* `Algebra.HasOperations` — a total algebra with given operations;
* `Catalogue.binaryOperation`, `Catalogue.unaryOperation` — operations given by formulas.

Main results:

* `Catalogue.ofTable_binaryTable`, `Catalogue.ofTable_unaryTable` — their tables are accepted;
* `Catalogue.exists_cyclicGroup`, `Catalogue.exists_chainLattice`, `Catalogue.exists_chainSemilattice`,
  `Catalogue.exists_bareSet` — **the standard algebras are built**.
-/

import Mathlib
import UniversalAlgebra.Algebra.Catalogue
import UniversalAlgebra.Proofs.Algebra.Closed
import UniversalAlgebra.Proofs.Algebra.Compatible

set_option autoImplicit false

namespace UniversalAlgebra

open Fallible

namespace Operation

/-! ### What a single operation preserves -/

/-- The values at members of the set are members. -/
def Preserves (op : Operation) (S : Set ℕ) : Prop :=
  ∀ args : List ℕ, args.length = op.arity → (∀ x ∈ args, x ∈ S) → op.value args ∈ S

/-- Arguments that are related at every position have related values. -/
def Respects (op : Operation) (s : Setoid ℕ) : Prop :=
  ∀ xs ys : List ℕ, xs.length = op.arity → (∀ x ∈ xs, x < op.universeSize) →
    (∀ y ∈ ys, y < op.universeSize) → List.Forall₂ s xs ys → s (op.value xs) (op.value ys)

/-- The values at the columns of members of the set form a member. -/
def PreservesTuples (op : Operation) (k : ℕ) (S : Set (List ℕ)) : Prop :=
  ∀ rows : List (List ℕ), rows.length = op.arity → (∀ row ∈ rows, row ∈ S) → op.columns k rows ∈ S

end Operation

/-- A total algebra on `[0, n)` with the given operations. -/
structure Algebra.HasOperations (A : Algebra) (n : ℕ) (ops : List Operation) : Prop where
  total : A.Total
  size_eq : A.size = n
  operations_eq : A.operations = ops

namespace Algebra.HasOperations

variable {A : Algebra} {n k : ℕ} {ops : List Operation}

theorem isSubuniverse_iff (h : A.HasOperations n ops) {S : Set ℕ} :
    A.IsSubuniverse S ↔ (∀ x ∈ S, x < n) ∧ ∀ op ∈ ops, op.Preserves S := by
  rw [← h.size_eq, ← h.operations_eq]
  exact ⟨fun hS => ⟨hS.lt_size, hS.value_mem⟩, fun hS => ⟨hS.1, hS.2⟩⟩

theorem compatible_iff (h : A.HasOperations n ops) {s : Setoid ℕ} :
    A.Compatible s ↔ ∀ op ∈ ops, op.Respects s := by
  rw [← h.operations_eq]
  refine forall₂_congr fun op hop => ?_
  rw [Operation.Respects, h.total.universeSize_eq op hop]

theorem mem_tuples (h : A.HasOperations n ops) {t : List ℕ} :
    t ∈ A.tuples k ↔ t.length = k ∧ ∀ x ∈ t, x < n := by
  rw [← h.size_eq]
  exact Iff.rfl

theorem isSubpower_iff (h : A.HasOperations n ops) {S : Set (List ℕ)} : A.IsSubpower k S ↔
    (∀ t ∈ S, t.length = k ∧ ∀ x ∈ t, x < n) ∧ ∀ op ∈ ops, op.PreservesTuples k S := by
  rw [← h.size_eq, ← h.operations_eq]
  exact ⟨fun hS => ⟨hS.subset_tuples, hS.columns_mem⟩, fun hS => ⟨hS.1, hS.2⟩⟩

end Algebra.HasOperations

namespace Catalogue

variable {n x y k : ℕ} {name : String} {f : ℕ → ℕ → ℕ} {g : ℕ → ℕ} {s : Setoid ℕ}

/-! ### Operations given by formulas -/

/-- The binary operation with the table of a formula. -/
def binaryOperation (name : String) (n : ℕ) (f : ℕ → ℕ → ℕ) : Operation :=
  ⟨name, 2, n, .table (binaryTable n f)⟩

/-- The unary operation with the table of a formula. -/
def unaryOperation (name : String) (n : ℕ) (f : ℕ → ℕ) : Operation :=
  ⟨name, 1, n, .table (unaryTable n f)⟩

/-- The constant zero. -/
def zeroOperation (n : ℕ) : Operation := ⟨"0", 0, n, .table #[0]⟩

/-- The position of a pair in a table, row by row. -/
theorem pairIndex_spec (hx : x < n) (hy : y < n) :
    x * n + y < n * n ∧ (x * n + y) / n = x ∧ (x * n + y) % n = y := by
  refine ⟨?_, ?_, ?_⟩
  · calc x * n + y < x * n + n := by omega
      _ = (x + 1) * n := by rw [Nat.succ_mul]
      _ ≤ n * n := Nat.mul_le_mul_right n hx
  · rw [Nat.mul_comm, Nat.mul_add_div (Nat.zero_lt_of_lt hy), Nat.div_eq_of_lt hy, Nat.add_zero]
  · rw [Nat.mul_comm, Nat.mul_add_mod, Nat.mod_eq_of_lt hy]

theorem value_binaryOperation (hx : x < n) (hy : y < n) :
    (binaryOperation name n f).value [x, y] = f x y := by
  obtain ⟨hindex, hdiv, hmod⟩ := pairIndex_spec hx hy
  refine Operation.value_eq_of_apply ?_
  simp [binaryOperation, Operation.apply, Operation.tableIndex, binaryTable, hindex, hdiv, hmod]

theorem value_unaryOperation (hx : x < n) : (unaryOperation name n g).value [x] = g x := by
  refine Operation.value_eq_of_apply ?_
  simp [unaryOperation, Operation.apply, Operation.tableIndex, unaryTable, hx]

theorem value_zeroOperation (n : ℕ) : (zeroOperation n).value [] = 0 := rfl

/-! ### What they preserve -/

theorem preserves_binaryOperation {S : Set ℕ} (hS : ∀ x ∈ S, x < n) :
    (binaryOperation name n f).Preserves S ↔ ∀ x ∈ S, ∀ y ∈ S, f x y ∈ S := by
  constructor
  · intro h x hx y hy
    have hvalue : (binaryOperation name n f).value [x, y] = f x y :=
      value_binaryOperation (hS x hx) (hS y hy)
    rw [← hvalue]
    exact h [x, y] rfl (by simp [hx, hy])
  · intro h args hlen hargs
    obtain ⟨x, y, rfl⟩ := List.length_eq_two.1 hlen
    have hx : x ∈ S := hargs x (by simp)
    have hy : y ∈ S := hargs y (by simp)
    rw [value_binaryOperation (hS x hx) (hS y hy)]
    exact h x hx y hy

theorem preserves_unaryOperation {S : Set ℕ} (hS : ∀ x ∈ S, x < n) :
    (unaryOperation name n g).Preserves S ↔ ∀ x ∈ S, g x ∈ S := by
  constructor
  · intro h x hx
    have hvalue : (unaryOperation name n g).value [x] = g x := value_unaryOperation (hS x hx)
    rw [← hvalue]
    exact h [x] rfl (by simp [hx])
  · intro h args hlen hargs
    obtain ⟨x, rfl⟩ := List.length_eq_one_iff.1 hlen
    have hx : x ∈ S := hargs x (by simp)
    rw [value_unaryOperation (hS x hx)]
    exact h x hx

theorem preserves_zeroOperation {S : Set ℕ} : (zeroOperation n).Preserves S ↔ 0 ∈ S := by
  constructor
  · exact fun h => h [] rfl (by simp)
  · intro h args hlen _
    obtain rfl := List.length_eq_zero_iff.1 hlen
    exact h

theorem respects_binaryOperation : (binaryOperation name n f).Respects s ↔
    ∀ x < n, ∀ y < n, ∀ x' < n, ∀ y' < n, s x x' → s y y' → s (f x y) (f x' y') := by
  constructor
  · intro h x hx y hy x' hx' y' hy' hxx' hyy'
    have hvalue {x y : ℕ} (hx : x < n) (hy : y < n) : f x y = (binaryOperation name n f).value [x, y] :=
      (value_binaryOperation hx hy).symm
    rw [hvalue hx hy, hvalue hx' hy']
    exact h [x, y] [x', y'] rfl (List.forall_mem_cons.2 ⟨hx, List.forall_mem_singleton.2 hy⟩)
      (List.forall_mem_cons.2 ⟨hx', List.forall_mem_singleton.2 hy'⟩) (.cons hxx' (.cons hyy' .nil))
  · intro h xs ys hlen hxs hys hrel
    obtain ⟨x, y, rfl⟩ := List.length_eq_two.1 hlen
    obtain ⟨x', y', rfl⟩ := List.length_eq_two.1 (hrel.length_eq.symm.trans hlen)
    simp only [List.forall₂_cons, List.Forall₂.nil, and_true] at hrel
    have hx : x < n := hxs x (by simp)
    have hy : y < n := hxs y (by simp)
    have hx' : x' < n := hys x' (by simp)
    have hy' : y' < n := hys y' (by simp)
    rw [value_binaryOperation hx hy, value_binaryOperation hx' hy']
    exact h x hx y hy x' hx' y' hy' hrel.1 hrel.2

theorem respects_unaryOperation : (unaryOperation name n g).Respects s ↔
    ∀ x < n, ∀ x' < n, s x x' → s (g x) (g x') := by
  constructor
  · intro h x hx x' hx' hxx'
    have hvalue {x : ℕ} (hx : x < n) : g x = (unaryOperation name n g).value [x] :=
      (value_unaryOperation hx).symm
    rw [hvalue hx, hvalue hx']
    exact h [x] [x'] rfl (List.forall_mem_singleton.2 hx) (List.forall_mem_singleton.2 hx')
      (.cons hxx' .nil)
  · intro h xs ys hlen hxs hys hrel
    obtain ⟨x, rfl⟩ := List.length_eq_one_iff.1 hlen
    obtain ⟨x', rfl⟩ := List.length_eq_one_iff.1 (hrel.length_eq.symm.trans hlen)
    have hx : x < n := hxs x (by simp)
    have hx' : x' < n := hys x' (by simp)
    rw [value_unaryOperation hx, value_unaryOperation hx']
    exact h x hx x' hx' (List.forall₂_cons.1 hrel).1

theorem respects_zeroOperation : (zeroOperation n).Respects s := by
  intro xs ys hlen _ _ hrel
  obtain rfl := List.length_eq_zero_iff.1 hlen
  obtain rfl := List.forall₂_nil_left_iff.1 hrel
  exact s.refl _

theorem preservesTuples_binaryOperation {S : Set (List ℕ)}
    (hS : ∀ t ∈ S, t.length = k ∧ ∀ x ∈ t, x < n) :
    (binaryOperation name n f).PreservesTuples k S ↔
      ∀ t ∈ S, ∀ u ∈ S, List.zipWith f t u ∈ S := by
  have hcolumns (t u : List ℕ) (ht : t ∈ S) (hu : u ∈ S) :
      (binaryOperation name n f).columns k [t, u] = List.zipWith f t u := by
    obtain ⟨htlen, htlt⟩ := hS t ht
    obtain ⟨hulen, hult⟩ := hS u hu
    refine List.ext_getElem (by simp [htlen, hulen]) fun j hj hj' => ?_
    have hjt : j < t.length := by simpa [htlen] using hj
    have hju : j < u.length := by simpa [hulen] using hj
    rw [← List.getD_eq_getElem _ 0 hj, Operation.getD_columns _ _ (by simpa using hj)]
    simp [hjt, hju, value_binaryOperation (htlt _ (List.getElem_mem hjt))
      (hult _ (List.getElem_mem hju))]
  constructor
  · intro h t ht u hu
    rw [← hcolumns t u ht hu]
    exact h [t, u] rfl (by simp [ht, hu])
  · intro h rows hlen hrows
    obtain ⟨t, u, rfl⟩ := List.length_eq_two.1 hlen
    have ht : t ∈ S := hrows t (by simp)
    have hu : u ∈ S := hrows u (by simp)
    rw [hcolumns t u ht hu]
    exact h t ht u hu

theorem preservesTuples_unaryOperation {S : Set (List ℕ)}
    (hS : ∀ t ∈ S, t.length = k ∧ ∀ x ∈ t, x < n) :
    (unaryOperation name n g).PreservesTuples k S ↔ ∀ t ∈ S, t.map g ∈ S := by
  have hcolumns (t : List ℕ) (ht : t ∈ S) :
      (unaryOperation name n g).columns k [t] = t.map g := by
    obtain ⟨htlen, htlt⟩ := hS t ht
    refine List.ext_getElem (by simp [htlen]) fun j hj hj' => ?_
    have hjt : j < t.length := by simpa [htlen] using hj
    rw [← List.getD_eq_getElem _ 0 hj, Operation.getD_columns _ _ (by simpa using hj)]
    simp [hjt, value_unaryOperation (htlt _ (List.getElem_mem hjt))]
  constructor
  · intro h t ht
    rw [← hcolumns t ht]
    exact h [t] rfl (by simp [ht])
  · intro h rows hlen hrows
    obtain ⟨t, rfl⟩ := List.length_eq_one_iff.1 hlen
    have ht : t ∈ S := hrows t (by simp)
    rw [hcolumns t ht]
    exact h t ht

theorem preservesTuples_zeroOperation {S : Set (List ℕ)} :
    (zeroOperation n).PreservesTuples k S ↔ List.replicate k 0 ∈ S := by
  constructor
  · intro h
    simpa [Operation.columns_nil, value_zeroOperation] using h [] rfl (by simp)
  · intro h rows hlen _
    obtain rfl := List.length_eq_zero_iff.1 hlen
    simpa [Operation.columns_nil, value_zeroOperation] using h

/-! ### Accepted tables -/

/-- The table of a binary operation is accepted, as long as the universe is not too large. -/
theorem ofTable_binaryTable (hn : 0 < n) (hlt : n < 2 ^ 32)
    (hf : ∀ x < n, ∀ y < n, f x y < n) :
    Operation.ofTable name 2 n (binaryTable n f) = .ok (binaryOperation name n f) := by
  have hsquare : n ^ 2 < UInt64.size := by
    calc n ^ 2 < (2 ^ 32) ^ 2 := Nat.pow_lt_pow_left hlt (by decide)
      _ = UInt64.size := by decide
  refine Operation.ofTable_eq hn ?_ ?_
  · exact Operation.tableSize_eq_ok_iff.2 ⟨hsquare, by simp [binaryTable, Nat.pow_two]⟩
  · intro v hv
    simp only [binaryTable, Array.mem_map, Array.mem_range] at hv
    obtain ⟨i, hi, rfl⟩ := hv
    exact hf _ (Nat.div_lt_of_lt_mul hi) _ (Nat.mod_lt i hn)

/-- So is the table of a unary operation. -/
theorem ofTable_unaryTable (hn : 0 < n) (hle : n ≤ 2 ^ 31) (hg : ∀ x < n, g x < n) :
    Operation.ofTable name 1 n (unaryTable n g) = .ok (unaryOperation name n g) := by
  have hsize : n ^ 1 < UInt64.size := by
    calc n ^ 1 ≤ 2 ^ 31 := by rwa [Nat.pow_one]
      _ < UInt64.size := by decide
  refine Operation.ofTable_eq hn ?_ ?_
  · exact Operation.tableSize_eq_ok_iff.2 ⟨hsize, by simp [unaryTable]⟩
  · intro v hv
    simp only [unaryTable, Array.mem_map, Array.mem_range] at hv
    obtain ⟨i, hi, rfl⟩ := hv
    exact hg i hi

theorem ofTable_zero (hn : 0 < n) : Operation.ofTable "0" 0 n #[0] = .ok (zeroOperation n) := by
  refine Operation.ofTable_eq hn ?_ (by simpa using hn)
  exact Operation.tableSize_eq_ok_iff.2 ⟨by simp, by simp⟩

/-! ### Built algebras -/

/-- Operations given by accepted tables on one universe make a total algebra. -/
theorem exists_build (title : String) (ops : List Operation) (hn : 0 < n)
    (hops : ∀ op ∈ ops, op.hasTable = true ∧ op.universeSize = n ∧ op.Total) :
    ∃ A, Algebra.build title n ops = .ok A ∧ A.HasOperations n ops := by
  have hprepare : ∃ cs, Algebra.prepareAll title n ops = .ok (ops, cs) := by
    induction ops with
    | nil => exact ⟨[], rfl⟩
    | cons op ops ih =>
        obtain ⟨⟨htable, hsize, -⟩, hrest⟩ := List.forall_mem_cons.1 hops
        obtain ⟨cs, hcs⟩ := ih hrest
        have happly : ∃ c, op.apply [] = .ok c := by
          cases hbody : op.body with
          | table values => exact ⟨_, by rw [Operation.apply, hbody]⟩
          | evaluator eval =>
              rw [Operation.hasTable, hbody] at htable
              cases htable
        obtain ⟨c, hc⟩ := happly
        rw [Algebra.prepareAll, if_neg (not_not_intro hsize)]
        by_cases harity : op.arity = 0
        · exact ⟨c :: cs, by simp [Algebra.prepare, htable, harity, hc, hcs, ok_bind, pure_eq]⟩
        · exact ⟨cs, by simp [Algebra.prepare, htable, harity, hcs, ok_bind, pure_eq]⟩
  obtain ⟨cs, hcs⟩ := hprepare
  have hbuild : Algebra.build title n ops = .ok ⟨title, n, ops, sortedDistinct cs⟩ := by
    rw [Algebra.build, if_neg (Nat.not_lt.2 hn), hcs]
    rfl
  exact ⟨_, hbuild, Algebra.total_of_build hbuild fun op hop => (hops op hop).2.2, rfl, rfl⟩

/-- Two binary operations, a join and a meet, make an algebra. -/
theorem exists_joinMeet (title : String) {join meet : ℕ → ℕ → ℕ} (hn : 0 < n) (hlt : n < 2 ^ 32)
    (hjoin : ∀ x < n, ∀ y < n, join x y < n) (hmeet : ∀ x < n, ∀ y < n, meet x y < n) :
    ∃ A, (do
        Algebra.build title n
          [← Operation.ofTable "join" 2 n (binaryTable n join),
           ← Operation.ofTable "meet" 2 n (binaryTable n meet)]) = .ok A ∧
      A.HasOperations n [binaryOperation "join" n join, binaryOperation "meet" n meet] := by
  have hjoin : Operation.ofTable "join" 2 n (binaryTable n join) = .ok _ :=
    ofTable_binaryTable hn hlt hjoin
  have hmeet : Operation.ofTable "meet" 2 n (binaryTable n meet) = .ok _ :=
    ofTable_binaryTable hn hlt hmeet
  obtain ⟨A, hA, hops⟩ := exists_build title
    [binaryOperation "join" n join, binaryOperation "meet" n meet] hn
    (List.forall_mem_cons.2 ⟨⟨rfl, rfl, Operation.total_of_ofTable hjoin⟩,
      List.forall_mem_singleton.2 ⟨rfl, rfl, Operation.total_of_ofTable hmeet⟩⟩)
  refine ⟨A, ?_, hops⟩
  rw [hjoin, hmeet]
  exact hA

/-- The operations of a cyclic group. -/
def cyclicOperations (n : ℕ) : List Operation :=
  [binaryOperation "+" n fun x y => (x + y) % n, unaryOperation "-" n fun x => (n - x) % n,
    zeroOperation n]

/-- The operations of a chain as a lattice. -/
def latticeOperations (n : ℕ) : List Operation :=
  [binaryOperation "join" n max, binaryOperation "meet" n min]

/-- The operation of a chain as a semilattice. -/
def semilatticeOperations (n : ℕ) : List Operation := [binaryOperation "meet" n min]

variable (hn : 1 ≤ n) (hle : n ≤ 2 ^ 31)

include hn hle

theorem exists_cyclicGroup :
    ∃ A, cyclicGroup n = .ok A ∧ A.HasOperations n (cyclicOperations n) := by
  have hadd : Operation.ofTable "+" 2 n (binaryTable n fun x y => (x + y) % n) = .ok _ :=
    ofTable_binaryTable hn (by omega) fun x _ y _ => Nat.mod_lt _ hn
  have hneg : Operation.ofTable "-" 1 n (unaryTable n fun x => (n - x) % n) = .ok _ :=
    ofTable_unaryTable hn hle fun x _ => Nat.mod_lt _ hn
  have hzero := ofTable_zero hn
  obtain ⟨A, hA, hops⟩ := exists_build ("Z" ++ toString n) (cyclicOperations n) hn
    (List.forall_mem_cons.2 ⟨⟨rfl, rfl, Operation.total_of_ofTable hadd⟩,
      List.forall_mem_cons.2 ⟨⟨rfl, rfl, Operation.total_of_ofTable hneg⟩,
        List.forall_mem_singleton.2 ⟨rfl, rfl, Operation.total_of_ofTable hzero⟩⟩⟩)
  refine ⟨A, ?_, hops⟩
  rw [cyclicGroup, if_neg (Nat.not_lt.2 hn), hadd, hneg, hzero]
  exact hA

theorem exists_chainLattice :
    ∃ A, chainLattice n = .ok A ∧ A.HasOperations n (latticeOperations n) := by
  rw [chainLattice, if_neg (Nat.not_lt.2 hn)]
  exact exists_joinMeet ("C" ++ toString n) hn (by omega) (fun x hx y hy => by omega)
    fun x hx y hy => by omega

theorem exists_chainSemilattice :
    ∃ A, chainSemilattice n = .ok A ∧ A.HasOperations n (semilatticeOperations n) := by
  have hmeet : Operation.ofTable "meet" 2 n (binaryTable n min) = .ok _ :=
    ofTable_binaryTable hn (by omega) fun x hx y hy => by omega
  obtain ⟨A, hA, hops⟩ := exists_build ("SL" ++ toString n) (semilatticeOperations n) hn
    (List.forall_mem_singleton.2 ⟨rfl, rfl, Operation.total_of_ofTable hmeet⟩)
  refine ⟨A, ?_, hops⟩
  rw [chainSemilattice, if_neg (Nat.not_lt.2 hn), hmeet]
  exact hA

omit hle

theorem exists_bareSet : ∃ A, bareSet n = .ok A ∧ A.HasOperations n [] :=
  exists_build ("set" ++ toString n) [] hn (by simp)

end Catalogue

end UniversalAlgebra
