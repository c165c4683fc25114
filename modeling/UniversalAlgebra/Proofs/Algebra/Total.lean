/-
**Algebras with total operations.**

An operation is total if at every tuple of elements it gives an element.  An operation given by a
table always is; one given by an evaluator may fail or leave the universe.  What is proved about
algebras assumes total operations together with what the construction of an algebra checks and
collects.

Main definitions:

* `Operation.value` — the value of an operation, where it has one;
* `Operation.Total`, `Algebra.Total` — total operations, and algebras of them.

Main results:

* `Operation.Total.apply_eq` — a total operation gives its value;
* `Operation.tableSize_eq_ok_iff` — when the number of argument tuples fits into a word;
* `Operation.ofTable_eq_ok`, `Operation.ofEvaluator_eq_ok` — what was checked when an operation was made;
* `Operation.total_of_ofTable` — an operation given by a table is total;
* `Algebra.total_of_build` — an algebra that could be built from total operations is total.
-/

import Mathlib
import UniversalAlgebra.Proofs.Query
import UniversalAlgebra.Proofs.Sorting

set_option autoImplicit false

namespace UniversalAlgebra

open Fallible

namespace Operation

/-! ### Values -/

/-- The value of an operation at a tuple, and zero if it has none. -/
def value (op : Operation) (args : List ℕ) : ℕ :=
  match op.apply args with
  | .ok v => v
  | .error _ => 0

/-- At every tuple of elements the operation gives an element. -/
def Total (op : Operation) : Prop :=
  ∀ args : List ℕ, args.length = op.arity → (∀ x ∈ args, x < op.universeSize) →
    ∃ v, v < op.universeSize ∧ op.apply args = .ok v

theorem value_eq_of_apply {op : Operation} {args : List ℕ} {v : ℕ} (h : op.apply args = .ok v) :
    op.value args = v := by
  rw [value, h]

namespace Total

variable {op : Operation} {args : List ℕ}

/-- A total operation gives its value. -/
theorem apply_eq (h : op.Total) (hlen : args.length = op.arity)
    (hargs : ∀ x ∈ args, x < op.universeSize) : op.apply args = .ok (op.value args) := by
  obtain ⟨v, -, hv⟩ := h args hlen hargs
  rw [hv, value_eq_of_apply hv]

theorem value_lt (h : op.Total) (hlen : args.length = op.arity)
    (hargs : ∀ x ∈ args, x < op.universeSize) : op.value args < op.universeSize := by
  obtain ⟨v, hlt, hv⟩ := h args hlen hargs
  rwa [value_eq_of_apply hv]

end Total

/-! ### Tables -/

theorem foldl_tableIndex_lt (u : ℕ) (args : List ℕ) (index bound : ℕ)
    (hargs : ∀ x ∈ args, x < u) (hindex : index < bound) :
    args.foldl (fun index x => index * u + x) index < bound * u ^ args.length := by
  induction args generalizing index bound with
  | nil => simpa using hindex
  | cons x args ih =>
      have hx : x < u := hargs x List.mem_cons_self
      have hstep : index * u + x < bound * u := by
        calc index * u + x < index * u + u := by omega
          _ = (index + 1) * u := by rw [Nat.succ_mul]
          _ ≤ bound * u := Nat.mul_le_mul_right u hindex
      have h := ih (index * u + x) (bound * u) (fun y hy => hargs y (List.mem_cons_of_mem x hy)) hstep
      rwa [Nat.mul_assoc, ← Nat.pow_succ'] at h

/-- The position of a tuple of elements lies inside the table. -/
theorem tableIndex_lt {u : ℕ} {args : List ℕ} (hargs : ∀ x ∈ args, x < u) :
    tableIndex u args < u ^ args.length := by
  simpa [tableIndex] using foldl_tableIndex_lt u args 0 1 hargs Nat.one_pos

/-- As long as the number of tuples fits, only the first sixty-four factors can change it. -/
theorem pow_min_eq {u arity : ℕ} (h : u ^ min arity 64 < 2 ^ 64 ∨ u ^ arity < 2 ^ 64) :
    u ^ min arity 64 = u ^ arity := by
  rcases Nat.le_total arity 64 with hle | hle
  · rw [Nat.min_eq_left hle]
  · rw [Nat.min_eq_right hle] at h ⊢
    have hu : u < 2 := by
      by_contra hu
      have hlarge : 2 ^ 64 ≤ u ^ 64 := Nat.pow_le_pow_left (Nat.not_lt.1 hu) 64
      have hgrows : u ^ 64 ≤ u ^ arity := Nat.pow_le_pow_right (by omega) hle
      omega
    rcases Nat.le_one_iff_eq_zero_or_eq_one.1 (Nat.le_of_lt_succ hu) with rfl | rfl
    · rw [Nat.zero_pow (by omega), Nat.zero_pow (by omega)]
    · simp

/-- There is a table exactly if the number of argument tuples fits into 64 bits. -/
theorem tableSize_eq_ok_iff {u arity size : ℕ} :
    tableSize u arity = .ok size ↔ u ^ arity < 2 ^ 64 ∧ size = u ^ arity := by
  rw [tableSize]
  change (if u ^ min arity 64 < 2 ^ 64 then Except.ok (u ^ min arity 64) else _) = _ ↔ _
  constructor
  · intro h
    split at h
    · next hlt =>
        have hpow := pow_min_eq (Or.inl hlt)
        cases h
        exact ⟨hpow ▸ hlt, hpow⟩
    · cases h
  · rintro ⟨hlt, rfl⟩
    rw [pow_min_eq (Or.inr hlt), if_pos hlt]

theorem tableSize_eq_of_ok {u arity size : ℕ} (h : tableSize u arity = .ok size) :
    size = u ^ arity :=
  (tableSize_eq_ok_iff.1 h).2

theorem lt_of_firstOutside_eq_none {u : ℕ} {values : Array ℕ} (h : firstOutside u values = none)
    {i : ℕ} (hi : i < values.size) : values[i] < u := by
  rw [firstOutside] at h
  split at h
  · simp at h
  · next hnone =>
      have := Array.findIdx?_eq_none_iff.1 hnone values[i] (Array.getElem_mem hi)
      simpa using this

theorem firstOutside_eq_none_iff {u : ℕ} {table : Array ℕ} :
    firstOutside u table = none ↔ ∀ v ∈ table, v < u := by
  constructor
  · intro h v hv
    obtain ⟨i, hi, rfl⟩ := Array.mem_iff_getElem.1 hv
    exact lt_of_firstOutside_eq_none h hi
  · intro h
    have hnone : table.findIdx? (fun v => !decide (v < u)) = none := by
      rw [Array.findIdx?_eq_none_iff]
      intro v hv
      simpa using h v hv
    rw [firstOutside, hnone]

/-- What was checked when an operation was given by a table. -/
theorem ofTable_eq_ok {name : String} {arity u : ℕ} {table : Array ℕ} {op : Operation}
    (h : ofTable name arity u table = .ok op) :
    0 < u ∧ tableSize u arity = .ok table.size ∧ firstOutside u table = none ∧
      op = ⟨name, arity, u, .table table⟩ := by
  by_cases hu : u < 1
  · simp [ofTable, hu, throw_eq, error_bind] at h
  cases hsize : tableSize u arity with
  | error fault => simp [ofTable, hu, hsize, error_bind] at h
  | ok expected =>
      by_cases hlen : table.size = expected
      · cases hout : firstOutside u table with
        | some entry =>
            simp [ofTable, hu, hsize, hlen, hout, ok_bind, throw_eq] at h
        | none =>
            have hop : (⟨name, arity, u, .table table⟩ : Operation) = op := by
              simpa [ofTable, hu, hsize, hlen, hout, ok_bind, pure_eq] using h
            exact ⟨Nat.not_lt.1 hu, by rw [hlen], rfl, hop.symm⟩
      · simp [ofTable, hu, hsize, hlen, ok_bind, error_bind, throw_eq] at h

/-- A table of the right length with entries in the universe is accepted. -/
theorem ofTable_eq {name : String} {arity u : ℕ} {table : Array ℕ} (hu : 0 < u)
    (hsize : tableSize u arity = .ok table.size) (hlt : ∀ v ∈ table, v < u) :
    ofTable name arity u table = .ok ⟨name, arity, u, .table table⟩ := by
  rw [ofTable, if_neg (Nat.not_lt.2 hu), hsize]
  simp [firstOutside_eq_none_iff.2 hlt, ok_bind, pure_eq]

/-- What was checked when an operation was given by an evaluator. -/
theorem ofEvaluator_eq_ok {name : String} {arity u : ℕ} {op : Operation}
    {eval? : Option (List ℕ → Except Fault ℕ)} (h : ofEvaluator name arity u eval? = .ok op) :
    0 < u ∧ ∃ eval, eval? = some eval ∧ op = ⟨name, arity, u, .evaluator eval⟩ := by
  by_cases hu : u < 1
  · simp [ofEvaluator, hu, throw_eq, error_bind] at h
  · cases eval? with
    | none => simp [ofEvaluator, hu, throw_eq] at h
    | some eval =>
        refine ⟨Nat.not_lt.1 hu, eval, rfl, ?_⟩
        simpa [ofEvaluator, hu, pure_eq, eq_comm] using h

/-- An operation given by a table is total: length and entries of the table were checked. -/
theorem total_of_ofTable {name : String} {arity u : ℕ} {table : Array ℕ} {op : Operation}
    (h : ofTable name arity u table = .ok op) : op.Total := by
  obtain ⟨-, hsize, hout, rfl⟩ := ofTable_eq_ok h
  intro args (hargs : args.length = arity) hrange
  have hindex : tableIndex u args < table.size := by
    rw [tableSize_eq_of_ok hsize, ← hargs]
    exact tableIndex_lt hrange
  refine ⟨table[tableIndex u args], lt_of_firstOutside_eq_none hout hindex, ?_⟩
  simp [apply, hindex]

end Operation

/-! ### The members of a list in increasing order -/

@[simp] theorem mem_sortedDistinct {xs : List ℕ} {a : ℕ} : a ∈ sortedDistinct xs ↔ a ∈ xs := by
  simp [sortedDistinct]

theorem pairwise_sortedDistinct (xs : List ℕ) : (sortedDistinct xs).Pairwise (· < ·) := by
  refine pairwise_dropRepeats (fun _ _ _ _ h => h) ?_
  have h : (xs.mergeSort fun a b => decide (a ≤ b)).Pairwise fun a b => decide (a ≤ b) = true :=
    List.pairwise_mergeSort (fun a b c => by simpa using Nat.le_trans)
      (fun a b => by simpa using Nat.le_total a b) xs
  simpa using h

/-! ### Algebras -/

namespace Algebra

/-- The operations are total on a universe with an element, and the constants are the values of
the nullary operations. -/
structure Total (A : Algebra) : Prop where
  size_pos : 0 < A.size
  universeSize_eq : ∀ op ∈ A.operations, op.universeSize = A.size
  total : ∀ op ∈ A.operations, op.Total
  mem_constants : ∀ c, c ∈ A.constants ↔ ∃ op ∈ A.operations, op.arity = 0 ∧ op.apply [] = .ok c

namespace Total

variable {A : Algebra} {op : Operation} {args : List ℕ}

theorem apply_eq (hA : A.Total) (hop : op ∈ A.operations) (hlen : args.length = op.arity)
    (hargs : ∀ x ∈ args, x < A.size) : op.apply args = .ok (op.value args) :=
  (hA.total op hop).apply_eq hlen ((hA.universeSize_eq op hop).symm ▸ hargs)

theorem value_lt (hA : A.Total) (hop : op ∈ A.operations) (hlen : args.length = op.arity)
    (hargs : ∀ x ∈ args, x < A.size) : op.value args < A.size := by
  have h := (hA.total op hop).value_lt hlen ((hA.universeSize_eq op hop).symm ▸ hargs)
  rwa [hA.universeSize_eq op hop] at h

theorem validate_eq (_ : A.Total) {x : ℕ} (hx : x < A.size) : A.validate x = .ok () := by
  simp [validate, hx]

end Total

theorem universeSize_of_prepare {op op' : Operation} (h : prepare op = .ok op') :
    op'.universeSize = op.universeSize := by
  rw [prepare] at h
  by_cases htable : op.hasTable
  · simp only [htable, if_true, pure_eq, Except.ok.injEq] at h
    rw [h]
  · simp only [htable, Bool.false_eq_true, if_false] at h
    obtain ⟨size, -, h⟩ := bind_eq_ok.1 h
    split at h
    · simp only [Operation.tabulate, htable, Bool.false_eq_true, if_false] at h
      obtain ⟨values, -, h⟩ := bind_eq_ok.1 h
      split at h
      · cases h
      · cases h
        rfl
    · cases h
      rfl

theorem prepareAll_spec {name : String} {size : ℕ} {given ops : List Operation} {cs : List ℕ}
    (h : prepareAll name size given = .ok (ops, cs)) :
    (∀ op ∈ ops, ∃ op₀ ∈ given, op₀.universeSize = size ∧ prepare op₀ = .ok op) ∧
      ∀ c, c ∈ cs ↔ ∃ op ∈ ops, op.arity = 0 ∧ op.apply [] = .ok c := by
  induction given generalizing ops cs with
  | nil =>
      cases h
      simp
  | cons op rest ih =>
      rw [prepareAll] at h
      by_cases hsize : op.universeSize = size
      · simp only [hsize, ne_eq, not_true, if_false] at h
        obtain ⟨op', hop', h⟩ := bind_eq_ok.1 h
        -- the constants of the first operation, and what is left to do
        have hparts : ∃ constants, (∀ c, c ∈ constants ↔ op'.arity = 0 ∧ op'.apply [] = .ok c) ∧
            (prepareAll name size rest >>= fun r => pure (op' :: r.1, constants ++ r.2))
              = Except.ok (ε := Fault) (ops, cs) := by
          split at h
          · next harity =>
              obtain ⟨constant, hconstant, h⟩ := bind_eq_ok.1 h
              refine ⟨constant, ?_, h⟩
              intro c
              cases hv : op'.apply [] with
              | error fault => rw [hv] at hconstant; cases hconstant
              | ok v =>
                  rw [hv] at hconstant
                  cases hconstant
                  simp [harity, eq_comm]
          · next harity => exact ⟨[], by simp [harity], h⟩
        obtain ⟨constants, hc, h⟩ := hparts
        obtain ⟨⟨ops', cs'⟩, hrest, h⟩ := bind_eq_ok.1 h
        obtain ⟨hops, hcs⟩ := ih hrest
        cases h
        refine ⟨?_, fun c => by simp [hc, hcs]⟩
        intro op₁ hop₁
        rcases List.mem_cons.1 hop₁ with rfl | hop₁
        · exact ⟨op, List.mem_cons_self, hsize, hop'⟩
        · obtain ⟨op₀, hop₀, h⟩ := hops op₁ hop₁
          exact ⟨op₀, List.mem_cons_of_mem op hop₀, h⟩
      · simp [hsize, throw_eq, error_bind] at h

/-- An algebra that could be built is total if its operations are. -/
theorem total_of_build {name : String} {size : ℕ} {given : List Operation} {A : Algebra}
    (h : build name size given = .ok A) (htotal : ∀ op ∈ A.operations, op.Total) : A.Total := by
  by_cases hsize : size < 1
  · simp [build, hsize, throw_eq, error_bind] at h
  · simp only [build, hsize, if_false] at h
    obtain ⟨⟨ops, cs⟩, hprepare, h⟩ := bind_eq_ok.1 h
    cases h
    obtain ⟨hops, hcs⟩ := prepareAll_spec hprepare
    refine ⟨Nat.not_lt.1 hsize, ?_, htotal, fun c => mem_sortedDistinct.trans (hcs c)⟩
    intro op hop
    obtain ⟨op₀, -, hsize', hop'⟩ := hops op hop
    exact (universeSize_of_prepare hop').trans hsize'

/-- The residues modulo four with addition and zero, a small algebra to try statements on. -/
def residuesModFour : Algebra :=
  ⟨"Z4", 4, [⟨"+", 2, 4, .table #[0, 1, 2, 3, 1, 2, 3, 0, 2, 3, 0, 1, 3, 0, 1, 2]⟩,
    ⟨"0", 0, 4, .table #[0]⟩], [0]⟩

theorem total_residuesModFour : residuesModFour.Total := by
  have hbuild : build "Z4" 4 residuesModFour.operations = .ok residuesModFour := by cbv
  refine total_of_build hbuild ?_
  intro op hop
  rcases List.mem_pair.1 hop with rfl | rfl
  · have hadd : Operation.ofTable "+" 2 4 #[0, 1, 2, 3, 1, 2, 3, 0, 2, 3, 0, 1, 3, 0, 1, 2] =
        .ok ⟨"+", 2, 4, .table #[0, 1, 2, 3, 1, 2, 3, 0, 2, 3, 0, 1, 3, 0, 1, 2]⟩ := by cbv
    exact Operation.total_of_ofTable hadd
  · have hzero : Operation.ofTable "0" 0 4 #[0] = .ok ⟨"0", 0, 4, .table #[0]⟩ := by cbv
    exact Operation.total_of_ofTable hzero

/-- The pairs of bits with conjunction and disjunction. -/
def bitPairs : Algebra :=
  ⟨"2^2", 4, [⟨"and", 2, 4, .table #[0, 0, 0, 0, 0, 1, 0, 1, 0, 0, 2, 2, 0, 1, 2, 3]⟩,
    ⟨"or", 2, 4, .table #[0, 1, 2, 3, 1, 1, 3, 3, 2, 3, 2, 3, 3, 3, 3, 3]⟩], []⟩

theorem total_bitPairs : bitPairs.Total := by
  have hbuild : build "2^2" 4 bitPairs.operations = .ok bitPairs := by cbv
  refine total_of_build hbuild ?_
  intro op hop
  rcases List.mem_pair.1 hop with rfl | rfl
  · have hand : Operation.ofTable "and" 2 4 #[0, 0, 0, 0, 0, 1, 0, 1, 0, 0, 2, 2, 0, 1, 2, 3] =
        .ok ⟨"and", 2, 4, .table #[0, 0, 0, 0, 0, 1, 0, 1, 0, 0, 2, 2, 0, 1, 2, 3]⟩ := by cbv
    exact Operation.total_of_ofTable hand
  · have hor : Operation.ofTable "or" 2 4 #[0, 1, 2, 3, 1, 1, 3, 3, 2, 3, 2, 3, 3, 3, 3, 3] =
        .ok ⟨"or", 2, 4, .table #[0, 1, 2, 3, 1, 1, 3, 3, 2, 3, 2, 3, 3, 3, 3, 3]⟩ := by cbv
    exact Operation.total_of_ofTable hor

/-- The bits with conjunction and zero. -/
def bits : Algebra :=
  ⟨"2", 2, [⟨"and", 2, 2, .table #[0, 0, 0, 1]⟩, ⟨"0", 0, 2, .table #[0]⟩], [0]⟩

theorem total_bits : bits.Total := by
  have hbuild : build "2" 2 bits.operations = .ok bits := by cbv
  refine total_of_build hbuild ?_
  intro op hop
  rcases List.mem_pair.1 hop with rfl | rfl
  · have hand : Operation.ofTable "and" 2 2 #[0, 0, 0, 1] =
        .ok ⟨"and", 2, 2, .table #[0, 0, 0, 1]⟩ := by cbv
    exact Operation.total_of_ofTable hand
  · have hzero : Operation.ofTable "0" 0 2 #[0] = .ok ⟨"0", 0, 2, .table #[0]⟩ := by cbv
    exact Operation.total_of_ofTable hzero

end Algebra

end UniversalAlgebra
