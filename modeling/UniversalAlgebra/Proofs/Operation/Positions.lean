/-
**Positions in words of 64 bits.**

The number of argument tuples is multiplied up factor by factor, and before each factor a division tells
whether the product still fits into a word.  The position of a tuple in a table is worked out by Horner's
rule, without any such test: what bounds it is that there is a table.  So the size of a table is exact or
refused, and a position never leaves the table on the way to it.

Main definitions:

* `Operation.multiplyUp`, `Operation.tableSizeByFactors` — the number of tuples, factor by factor;
* `Operation.wordIndex` — the position of a tuple, in words;
* `Operation.argumentTuples` — the tuples of elements at which an operation has a value.

Main results:

* `Operation.multiplyUp_eq`, `Operation.tableSizeByFactors_eq` — **a product is refused exactly if it
  does not fit**;
* `Operation.tableIndex_prefix_lt`, `Operation.toNat_wordIndex` — no step of Horner's rule wraps around;
* `Operation.bijOn_tableIndex` — the tuples are numbered without gaps and without repetitions;
* `Operation.positions_exact` — **sizes are exact at the limit, and positions number the entries**.
-/

import UniversalAlgebra.Proofs.Operation.Tables

set_option autoImplicit false

namespace UniversalAlgebra.Operation

open Fallible

variable {n k i : ℕ} {args before after : List ℕ} {fault : Fault}

/-! ### The number of tuples -/

/-- Multiplies by a factor a number of times, and refuses a product that does not fit into a word. -/
def multiplyUp (fault : Fault) (u : UInt64) : (count : ℕ) → UInt64 → Except Fault UInt64
  | 0, size => .ok size
  | count + 1, size =>
      if u ≠ 0 ∧ UInt64.ofNat (2 ^ 64 - 1) / u < size then .error fault
      else multiplyUp fault u count (size * u)

/-- The number of argument tuples, multiplied up from one. -/
def tableSizeByFactors (u k : UInt64) : Except Fault UInt64 :=
  multiplyUp (.tableTooLarge u.toNat k.toNat) u k.toNat 1

/-- The division tells whether the product fits. -/
theorem limit_div_lt_iff (u size : UInt64) :
    (u ≠ 0 ∧ UInt64.ofNat (2 ^ 64 - 1) / u < size) ↔ 2 ^ 64 ≤ size.toNat * u.toNat := by
  have hzero : u = 0 ↔ u.toNat = 0 := UInt64.toNat_inj.symm
  have hlimit : (UInt64.ofNat (2 ^ 64 - 1)).toNat = 2 ^ 64 - 1 := rfl
  rw [UInt64.lt_iff_toNat_lt, UInt64.toNat_div, hlimit, ne_eq, hzero]
  rcases Nat.eq_zero_or_pos u.toNat with hu | hu
  · simp [hu]
  · rw [Nat.div_lt_iff_lt_mul hu, and_iff_right hu.ne']
    omega

/-- **A product is refused exactly if it does not fit.** -/
theorem multiplyUp_eq (u : UInt64) (count : ℕ) (size : UInt64) : multiplyUp fault u count size
    = if size.toNat * u.toNat ^ count < 2 ^ 64
      then .ok (UInt64.ofNat (size.toNat * u.toNat ^ count)) else .error fault := by
  induction count generalizing size with
  | zero =>
      rw [Nat.pow_zero, Nat.mul_one, if_pos size.toNat_lt, UInt64.ofNat_toNat, multiplyUp]
  | succ count ih =>
      have hpow : size.toNat * u.toNat * u.toNat ^ count = size.toNat * u.toNat ^ (count + 1) := by
        rw [Nat.mul_assoc, ← Nat.pow_succ']
      rw [multiplyUp, ← hpow]
      by_cases hlarge : 2 ^ 64 ≤ size.toNat * u.toNat
      · have hu : 0 < u.toNat := by
          rcases Nat.eq_zero_or_pos u.toNat with hu | hu
          · simp [hu] at hlarge
          · exact hu
        have hgrows : size.toNat * u.toNat ≤ size.toNat * u.toNat * u.toNat ^ count :=
          Nat.le_mul_of_pos_right _ (Nat.pow_pos hu)
        rw [if_pos ((limit_div_lt_iff u size).2 hlarge), if_neg (by omega)]
      · have hproduct : (size * u).toNat = size.toNat * u.toNat := by
          rw [UInt64.toNat_mul, Nat.mod_eq_of_lt (Nat.not_le.1 hlarge)]
        rw [if_neg fun h => hlarge ((limit_div_lt_iff u size).1 h), ih, hproduct]

theorem tableSize_eq_error (h : ¬n ^ k < 2 ^ 64) :
    tableSize n k = .error (.tableTooLarge n k) := by
  have hmin : ¬n ^ min k 64 < 2 ^ 64 := fun hlt => h (pow_min_eq (Or.inl hlt) ▸ hlt)
  rw [tableSize]
  exact if_neg hmin

/-- Multiplying up gives the number of tuples, or the same refusal. -/
theorem tableSizeByFactors_eq (u k : UInt64) :
    UInt64.toNat <$> tableSizeByFactors u k = tableSize u.toNat k.toNat := by
  rw [tableSizeByFactors, multiplyUp_eq, UInt64.toNat_one, Nat.one_mul]
  by_cases hfits : u.toNat ^ k.toNat < 2 ^ 64
  · rw [if_pos hfits, tableSize_eq_ok_iff.2 ⟨hfits, rfl⟩]
    exact congrArg Except.ok (Nat.mod_eq_of_lt hfits)
  · rw [if_neg hfits, tableSize_eq_error hfits]
    rfl

/-! ### Horner's rule -/

/-- The position of a tuple in a table, in words. -/
def wordIndex (u : UInt64) (args : List UInt64) : UInt64 :=
  args.foldl (fun index x => index * u + x) 0

theorem tableIndex_append_singleton (n x : ℕ) (args : List ℕ) :
    tableIndex n (args ++ [x]) = tableIndex n args * n + x := by
  rw [tableIndex, List.foldl_append]
  rfl

/-- What is worked out on the way to a position is not above the number of tuples. -/
theorem tableIndex_prefix_lt {x : ℕ} (hargs : ∀ y ∈ before ++ x :: after, y < n) :
    tableIndex n before * n + x < n ^ (before ++ x :: after).length := by
  have hbegin : ∀ y ∈ before ++ [x], y < n := fun y hy => hargs y (by
    rw [List.append_cons]
    exact List.mem_append_left after hy)
  have hpos : 0 < n := Nat.zero_lt_of_lt (hbegin x (by simp))
  calc tableIndex n before * n + x = tableIndex n (before ++ [x]) :=
        (tableIndex_append_singleton n x before).symm
    _ < n ^ (before ++ [x]).length := tableIndex_lt hbegin
    _ ≤ n ^ (before ++ x :: after).length := Nat.pow_le_pow_right hpos (by simp)

/-- **No step wraps around**, if there is a table. -/
theorem toNat_wordIndex (hargs : ∀ x ∈ args, x < n) (hfits : n ^ args.length < 2 ^ 64) :
    (wordIndex (.ofNat n) (args.map .ofNat)).toNat = tableIndex n args := by
  -- the induction is on the arguments from the last to the first, as each step multiplies what is before
  induction args using List.reverseRecOn with
  | nil => rfl
  | append_singleton args x ih =>
      have hpos : 0 < n := Nat.zero_lt_of_lt (hargs x (by simp))
      have hstep : tableIndex n args * n + x < 2 ^ 64 :=
        (tableIndex_prefix_lt hargs).trans hfits
      have hrest : n ^ args.length < 2 ^ 64 :=
        (Nat.pow_le_pow_right hpos (by simp)).trans_lt hfits
      have hx : x < 2 ^ 64 := (Nat.le_add_left x _).trans_lt hstep
      have hn : n < 2 ^ 64 := (Nat.le_self_pow (by simp) n).trans_lt hfits
      have ih := ih (fun y hy => hargs y (List.mem_append_left [x] hy)) hrest
      have hword : wordIndex (.ofNat n) ((args ++ [x]).map .ofNat)
          = wordIndex (.ofNat n) (args.map .ofNat) * .ofNat n + .ofNat x := by
        rw [wordIndex, List.map_append, List.foldl_append]
        rfl
      rw [hword, UInt64.toNat_add, UInt64.toNat_mul, ih, UInt64.toNat_ofNat_of_lt' hn,
        UInt64.toNat_ofNat_of_lt' hx, Nat.mod_add_mod, Nat.mod_eq_of_lt hstep,
        tableIndex_append_singleton]

/-! ### Tuples and their positions -/

/-- The tuples of elements at which an operation has a value. -/
def argumentTuples (k n : ℕ) : Set (List ℕ) := {args | args.length = k ∧ ∀ x ∈ args, x < n}

theorem injOn_tableIndex (k n : ℕ) : Set.InjOn (tableIndex n) (argumentTuples k n) := by
  rintro args ⟨hlen, hargs⟩ args' ⟨hlen', hargs'⟩ heq
  have hat := getElem?_inBox_tableIndex hlen hargs
  rw [heq, getElem?_inBox_tableIndex hlen' hargs'] at hat
  exact (Option.some.inj hat).symm

/-- Every number below the number of tuples has digits, the first one most significant. -/
theorem exists_tableIndex_eq (hi : i < n ^ k) : ∃ args ∈ argumentTuples k n, tableIndex n args = i := by
  induction k generalizing i with
  | zero => exact ⟨[], ⟨rfl, by simp⟩, (Nat.lt_one_iff.1 hi).symm⟩
  | succ k ih =>
      have hpos : 0 < n ^ k := by
        rw [Nat.pow_succ] at hi
        exact Nat.pos_of_ne_zero fun h => by simp [h] at hi
      obtain ⟨args, ⟨hlen, hargs⟩, hindex⟩ := ih (Nat.mod_lt i hpos)
      have hhead : i / n ^ k < n := by
        rw [Nat.div_lt_iff_lt_mul hpos, ← Nat.pow_succ']
        exact hi
      refine ⟨i / n ^ k :: args, ⟨by rw [List.length_cons, hlen], ?_⟩, ?_⟩
      · exact List.forall_mem_cons.2 ⟨hhead, hargs⟩
      · rw [tableIndex_cons, hlen, hindex, Nat.mul_comm]
        exact Nat.div_add_mod i (n ^ k)

/-- The tuples are numbered without gaps and without repetitions. -/
theorem bijOn_tableIndex (k n : ℕ) :
    Set.BijOn (tableIndex n) (argumentTuples k n) (Set.Iio (n ^ k)) := by
  refine ⟨?_, injOn_tableIndex k n, fun i hi => exists_tableIndex_eq hi⟩
  rintro args ⟨rfl, hargs⟩
  exact tableIndex_lt hargs

/-- **Sizes are exact at the limit, and positions number the entries.**  The number of argument tuples,
multiplied up in words, is returned exactly if it is at most the largest word, and otherwise an invalid
input is reported; this is what the size of a table is.  If an operation has a table, no step on the way
to a position wraps around, so that the position in words is the position, and it lies in the table; the
value there is that of the operation.  The positions of the argument tuples are all positions of the
table, each of them once. -/
theorem positions_exact :
    (∀ u k : UInt64,
      ((∃ size, tableSizeByFactors u k = .ok size ∧ size.toNat = u.toNat ^ k.toNat) ↔
        u.toNat ^ k.toNat ≤ 2 ^ 64 - 1) ∧
      (¬u.toNat ^ k.toNat ≤ 2 ^ 64 - 1 →
        ∃ fault, tableSizeByFactors u k = .error fault ∧ fault.kind = .invalidInput) ∧
      UInt64.toNat <$> tableSizeByFactors u k = tableSize u.toNat k.toNat) ∧
    ∀ (op : Operation) (table : Array ℕ), op.Made → op.body = .table table →
      (∀ args ∈ argumentTuples op.arity op.universeSize,
        (∀ before x after, args = before ++ x :: after →
          tableIndex op.universeSize before * op.universeSize + x < 2 ^ 64 ∧
          tableIndex op.universeSize (before ++ [x])
            = tableIndex op.universeSize before * op.universeSize + x) ∧
        (wordIndex (.ofNat op.universeSize) (args.map .ofNat)).toNat
          = tableIndex op.universeSize args ∧
        ∃ hindex : tableIndex op.universeSize args < table.size,
          op.apply args = .ok table[tableIndex op.universeSize args]) ∧
      Set.BijOn (tableIndex op.universeSize) (argumentTuples op.arity op.universeSize)
        (Set.Iio table.size) := by
  refine ⟨fun u k => ⟨?_, ?_, tableSizeByFactors_eq u k⟩, ?_⟩
  · rw [tableSizeByFactors, multiplyUp_eq, UInt64.toNat_one, Nat.one_mul]
    constructor
    · rintro ⟨size, -, hsize⟩
      have hlt := size.toNat_lt
      omega
    · intro hfits
      have hlt : u.toNat ^ k.toNat < 2 ^ 64 := by omega
      exact ⟨_, if_pos hlt, Nat.mod_eq_of_lt hlt⟩
  · intro hlarge
    have hnot : ¬u.toNat ^ k.toNat < 2 ^ 64 := by omega
    rw [tableSizeByFactors, multiplyUp_eq, UInt64.toNat_one, Nat.one_mul, if_neg hnot]
    exact ⟨_, rfl, rfl⟩
  · intro op table hop hbody
    obtain ⟨hfits, hsize⟩ := tableSize_eq_ok_iff.1 (hop.tableSize_eq hbody)
    refine ⟨?_, hsize ▸ bijOn_tableIndex op.arity op.universeSize⟩
    rintro args ⟨hlen, hargs⟩
    rw [← hlen] at hfits hsize
    have hindex : tableIndex op.universeSize args < table.size := hsize ▸ tableIndex_lt hargs
    refine ⟨?_, toNat_wordIndex hargs hfits, hindex, ?_⟩
    · rintro before x after rfl
      exact ⟨(tableIndex_prefix_lt hargs).trans hfits, tableIndex_append_singleton _ x before⟩
    · rw [apply, hbody]
      simp [hindex]

/-- The largest number of thirty-two bits has a square that fits, and the next number has none.  In the
table of subtraction modulo three the value at two and one stands at position seven. -/
theorem positions_modulo_three :
    (∃ size, tableSizeByFactors 4294967295 2 = .ok size ∧ size.toNat = 4294967295 ^ 2) ∧
    (∃ fault, tableSizeByFactors 4294967296 2 = .error fault ∧ fault.kind = .invalidInput) ∧
    (wordIndex 3 [2, 1]).toNat = 7 ∧
    (⟨"-", 2, 3, .table #[0, 2, 1, 1, 0, 2, 2, 1, 0]⟩ : Operation).apply [2, 1] = .ok 1 ∧
    Set.BijOn (tableIndex 3) (argumentTuples 2 3) (Set.Iio 9) := by
  obtain ⟨hsizes, htables⟩ := positions_exact
  obtain ⟨hentries, hpositions⟩ := htables ⟨"-", 2, 3, .table #[0, 2, 1, 1, 0, 2, 2, 1, 0]⟩ _
    (.ofTable (ofTable_eq (by decide) (by rfl) (by decide))) rfl
  obtain ⟨-, hword, hindex, hvalue⟩ := hentries [2, 1] ⟨rfl, by decide⟩
  exact ⟨(hsizes 4294967295 2).1.2 (by decide), (hsizes 4294967296 2).2.1 (by decide), hword, hvalue,
    hpositions⟩

end UniversalAlgebra.Operation
