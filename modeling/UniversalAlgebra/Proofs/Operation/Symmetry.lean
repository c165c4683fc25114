/-
**Operations that do not depend on the order of their arguments.**

Whether an operation is commutative is tested by exchanging neighbours only, at every tuple of elements.
Exchanges of neighbours lead from a list to any other one with the same members, so that this is enough:
the operation then has the same value however its arguments are arranged.  The test is one of the table
and does not fail where the operation is total.

Main results:

* `Operation.mem_adjacentSwaps` — the lists that arise by exchanging two different neighbours;
* `Tuples.allInBoxes_eq_ok` — a test of all tuples that does not fail;
* `Operation.Total.isCommutative_eq` — what the test finds;
* `Operation.eq_of_perm` — exchanges of neighbours are enough;
* `Operation.isCommutative_iff_symmetric` — **the test succeeds exactly for the symmetric operations**.
-/

import UniversalAlgebra.Proofs.Algebra.Total
import UniversalAlgebra.Proofs.Tuples

set_option autoImplicit false

namespace UniversalAlgebra

open Fallible

/-! ### Tests of all tuples -/

/-- If no test fails, all tuples are tested until one does not pass. -/
theorem Tuples.allInBoxes_eq_ok {boxes : List Box} {test : List ℕ → Except Fault Bool}
    {p : List ℕ → Bool} (h : ∀ t ∈ boxes.flatMap inBox, test t = .ok (p t)) :
    allInBoxes boxes test = .ok ((boxes.flatMap inBox).all p) := by
  simp only [allInBoxes, foldBoxes_eq_foldlM]
  generalize boxes.flatMap inBox = tuples at h ⊢
  induction tuples with
  | nil => rfl
  | cons t tuples ih =>
      obtain ⟨ht, hrest⟩ := List.forall_mem_cons.1 h
      rw [List.foldlM_cons, List.all_cons, ht]
      cases p t with
      | true => exact ih hrest
      | false => rfl

namespace Operation

variable {op : Operation} {args : List ℕ}

/-! ### Exchanges of neighbours -/

theorem mem_swapsAfter {before : List ℕ} {t : List ℕ} : t ∈ swapsAfter before args ↔
    ∃ (l : List ℕ) (x y : ℕ) (r : List ℕ),
      args = l ++ x :: y :: r ∧ x ≠ y ∧ t = before.reverse ++ (l ++ y :: x :: r) := by
  -- two neighbours stand at the front, or both of them behind the first argument
  have hsplit (a b : ℕ) (rest : List ℕ) (P : List ℕ → ℕ → ℕ → List ℕ → Prop) :
      (∃ (l : List ℕ) (x y : ℕ) (r : List ℕ), a :: b :: rest = l ++ x :: y :: r ∧ P l x y r) ↔
        P [] a b rest ∨ ∃ (l : List ℕ) (x y : ℕ) (r : List ℕ),
          b :: rest = l ++ x :: y :: r ∧ P (a :: l) x y r := by
    constructor
    · rintro ⟨l, x, y, r, heq, h⟩
      cases l with
      | nil =>
          cases heq
          exact Or.inl h
      | cons c l =>
          obtain ⟨rfl, hrest⟩ := List.cons.inj heq
          exact Or.inr ⟨l, x, y, r, hrest, h⟩
    · rintro (h | ⟨l, x, y, r, heq, h⟩)
      · exact ⟨[], a, b, rest, rfl, h⟩
      · exact ⟨a :: l, x, y, r, by rw [heq, List.cons_append], h⟩
  fun_induction swapsAfter before args with
  | case1 => simp
  | case2 before a =>
      constructor
      · simp
      · rintro ⟨l, x, y, r, heq, -⟩
        have := congrArg List.length heq
        simp at this
        omega
  | case3 before a rest ih =>
      refine ih.trans ?_
      rw [hsplit]
      simp
  | case4 before a b rest hne ih =>
      rw [List.mem_cons, hsplit, List.reverseAux_eq]
      refine (or_congr_right ih).trans ?_
      simp [hne]

/-- The lists that arise by exchanging two different neighbours. -/
theorem mem_adjacentSwaps {t : List ℕ} : t ∈ adjacentSwaps args ↔
    ∃ (l : List ℕ) (x y : ℕ) (r : List ℕ), args = l ++ x :: y :: r ∧ x ≠ y ∧ t = l ++ y :: x :: r := by
  simp [adjacentSwaps, mem_swapsAfter]

/-- What may be tested of the exchanges at one tuple. -/
theorem isConstantOn_eq {value : ℕ} {argss : List (List ℕ)}
    (h : ∀ args ∈ argss, op.apply args = .ok (op.value args)) :
    op.isConstantOn value argss = .ok (argss.all fun args => op.value args == value) := by
  induction argss with
  | nil => rfl
  | cons args argss ih =>
      obtain ⟨hargs, hrest⟩ := List.forall_mem_cons.1 h
      rw [isConstantOn, hargs, ok_bind, List.all_cons]
      cases op.value args == value with
      | true => exact ih hrest
      | false => rfl

/-- At no tuple of elements an exchange of neighbours changes the value. -/
def KeepsSwaps (op : Operation) : Prop :=
  ∀ (l : List ℕ) (x y : ℕ) (r : List ℕ), (l ++ x :: y :: r).length = op.arity →
    (∀ z ∈ l ++ x :: y :: r, z < op.universeSize) →
      op.value (l ++ y :: x :: r) = op.value (l ++ x :: y :: r)

/-- The test does not fail where the operation is total, and finds whether neighbours can be
exchanged. -/
theorem Total.isCommutative_eq (h : op.Total) :
    ∃ b, op.isCommutative = .ok b ∧ (b = true ↔ op.KeepsSwaps) := by
  have htest : ∀ args ∈ Tuples.fresh op.arity 0 op.universeSize,
      (do op.isConstantOn (← op.apply args) (adjacentSwaps args))
        = .ok ((adjacentSwaps args).all fun swapped => op.value swapped == op.value args) := by
    intro args hargs
    obtain ⟨hlen, hlt, -⟩ := Tuples.mem_fresh.1 hargs
    rw [h.apply_eq hlen hlt, ok_bind]
    refine isConstantOn_eq fun swapped hswapped => ?_
    obtain ⟨l, x, y, r, rfl, -, rfl⟩ := mem_adjacentSwaps.1 hswapped
    have hperm : (l ++ y :: x :: r).Perm (l ++ x :: y :: r) := (List.Perm.swap x y r).append_left l
    exact h.apply_eq (hperm.length_eq.trans hlen) fun z hz => hlt z (hperm.mem_iff.1 hz)
  refine ⟨_, Tuples.allInBoxes_eq_ok htest, ?_⟩
  rw [List.all_eq_true]
  constructor
  · intro hall l x y r hlen hlt
    rcases eq_or_ne x y with rfl | hne
    · rfl
    · have hmem : l ++ x :: y :: r ∈ Tuples.fresh op.arity 0 op.universeSize :=
        Tuples.mem_fresh.2 ⟨hlen, hlt, x, by simp, Nat.zero_le x⟩
      have hswaps := List.all_eq_true.1 (hall _ hmem)
      simpa using hswaps _ (mem_adjacentSwaps.2 ⟨l, x, y, r, rfl, hne, rfl⟩)
  · intro hkeeps args hargs
    obtain ⟨hlen, hlt, -⟩ := Tuples.mem_fresh.1 hargs
    rw [List.all_eq_true]
    intro swapped hswapped
    obtain ⟨l, x, y, r, rfl, -, rfl⟩ := mem_adjacentSwaps.1 hswapped
    simpa using hkeeps l x y r hlen hlt

/-! ### Symmetry -/

/-- Exchanges of neighbours lead to every arrangement of the arguments. -/
theorem eq_of_perm (h : op.KeepsSwaps) {xs ys : List ℕ} (hperm : xs.Perm ys)
    (hlen : xs.length = op.arity) (hxs : ∀ x ∈ xs, x < op.universeSize) :
    op.value ys = op.value xs := by
  -- the same with other arguments in front
  have hbehind : ∀ front : List ℕ, (front ++ xs).length = op.arity →
      (∀ x ∈ front ++ xs, x < op.universeSize) →
        op.value (front ++ ys) = op.value (front ++ xs) := by
    clear hlen hxs
    induction hperm with
    | nil => exact fun _ _ _ => rfl
    | @cons x xs ys _ ih =>
        intro front hlen hxs
        have happend (zs : List ℕ) : front ++ x :: zs = (front ++ [x]) ++ zs := by simp
        rw [happend] at hlen hxs
        rw [happend xs, happend ys]
        exact ih (front ++ [x]) hlen hxs
    | swap x y r => exact fun front hlen hxs => h front y x r hlen hxs
    | @trans xs ys zs hxy _ ih₁ ih₂ =>
        intro front hlen hxs
        have hmoved : (front ++ xs).Perm (front ++ ys) := hxy.append_left front
        calc op.value (front ++ zs)
            = op.value (front ++ ys) :=
              ih₂ front (hmoved.length_eq ▸ hlen) fun z hz => hxs z (hmoved.mem_iff.2 hz)
          _ = op.value (front ++ xs) := ih₁ front hlen hxs
  exact hbehind [] hlen hxs

/-- Two neighbours are exchanged by a permutation of the positions. -/
theorem exists_perm_swap (l : List ℕ) (x y : ℕ) (r : List ℕ) {k : ℕ}
    (hlen : (l ++ x :: y :: r).length = k) :
    ∃ (a : Fin k → ℕ) (σ : Equiv.Perm (Fin k)), List.ofFn a = l ++ x :: y :: r ∧
      (List.ofFn fun i => a (σ i)) = l ++ y :: x :: r := by
  subst hlen
  have hx : l.length < (l ++ x :: y :: r).length := by simp
  have hy : l.length + 1 < (l ++ x :: y :: r).length := by
    rw [List.length_append]
    simp
  refine ⟨(l ++ x :: y :: r).get, Equiv.swap ⟨l.length, hx⟩ ⟨l.length + 1, hy⟩, List.ofFn_get _, ?_⟩
  have hlength : (l ++ x :: y :: r).length = (l ++ y :: x :: r).length := by
    simp only [List.length_append, List.length_cons]
  refine List.ext_getElem (List.length_ofFn.trans hlength) fun i hi hi' => ?_
  rw [List.getElem_ofFn, Equiv.swap_apply_def]
  simp only [Fin.ext_iff]
  split
  · next h => simp [h]
  · split
    · next h => simp [h]
    · -- the other positions keep their entries
      simp only [List.get_eq_getElem, List.getElem_append, List.getElem_cons]
      grind

/-- **An operation that is total passes the test exactly if it is symmetric**: at no tuple of elements
its value changes when the arguments are arranged differently. -/
theorem isCommutative_iff_symmetric {op : Operation} (h : op.Total) :
    ∃ b, op.isCommutative = .ok b ∧
      (b = true ↔ ∀ a : Fin op.arity → ℕ, (∀ i, a i < op.universeSize) →
        ∀ σ : Equiv.Perm (Fin op.arity),
          op.apply (List.ofFn fun i => a (σ i)) = op.apply (List.ofFn a)) := by
  obtain ⟨b, hb, hswaps⟩ := h.isCommutative_eq
  refine ⟨b, hb, hswaps.trans ⟨?_, ?_⟩⟩
  · intro hkeeps a ha σ
    have hperm : (List.ofFn a).Perm (List.ofFn fun i => a (σ i)) :=
      (Equiv.Perm.ofFn_comp_perm σ a).symm
    have hlt : ∀ x ∈ List.ofFn a, x < op.universeSize := by simpa using ha
    have hlt' : ∀ x ∈ List.ofFn fun i => a (σ i), x < op.universeSize := by
      simpa using fun i => ha (σ i)
    rw [h.apply_eq List.length_ofFn hlt, h.apply_eq List.length_ofFn hlt',
      eq_of_perm hkeeps hperm List.length_ofFn hlt]
  · intro hsymm l x y r hlen hlt
    obtain ⟨a, σ, ha, hσ⟩ := exists_perm_swap l x y r hlen
    have ha' : ∀ i, a i < op.universeSize := fun i => hlt (a i) (ha ▸ List.mem_ofFn.2 ⟨i, rfl⟩)
    have heq := hsymm a ha' σ
    rw [ha, hσ] at heq
    rw [value, value, heq]

/-- The sum of three bits modulo two does not depend on the order of the bits.  Implication does:
exchanging zero and one changes its value. -/
theorem symmetric_sum_of_bits :
    (∃ op, ofTable "+" 3 2 #[0, 1, 1, 0, 1, 0, 0, 1] = .ok op ∧
      ∀ a : Fin 3 → ℕ, (∀ i, a i < 2) → ∀ σ : Equiv.Perm (Fin 3),
        op.apply (List.ofFn fun i => a (σ i)) = op.apply (List.ofFn a)) ∧
    ∃ op, ofTable "->" 2 2 #[1, 1, 0, 1] = .ok op ∧ op.isCommutative = .ok false := by
  constructor
  · have hmade : ofTable "+" 3 2 #[0, 1, 1, 0, 1, 0, 0, 1]
        = .ok ⟨"+", 3, 2, .table #[0, 1, 1, 0, 1, 0, 0, 1]⟩ := by cbv
    have htrue : isCommutative ⟨"+", 3, 2, .table #[0, 1, 1, 0, 1, 0, 0, 1]⟩ = .ok true := by cbv
    obtain ⟨b, hb, hiff⟩ := isCommutative_iff_symmetric (total_of_ofTable hmade)
    cases htrue.symm.trans hb
    exact ⟨_, hmade, hiff.1 rfl⟩
  · have hmade : ofTable "->" 2 2 #[1, 1, 0, 1] = .ok ⟨"->", 2, 2, .table #[1, 1, 0, 1]⟩ := by cbv
    obtain ⟨b, hb, hiff⟩ := isCommutative_iff_symmetric (total_of_ofTable hmade)
    cases b with
    | false => exact ⟨_, hmade, hb⟩
    | true =>
        have hzero : apply ⟨"->", 2, 2, .table #[1, 1, 0, 1]⟩ [1, 0] = .ok 0 := by cbv
        have hone : apply ⟨"->", 2, 2, .table #[1, 1, 0, 1]⟩ [0, 1] = .ok 1 := by cbv
        cases hzero.symm.trans ((hiff.1 rfl ![0, 1] (by decide) (Equiv.swap 0 1)).trans hone)

end Operation

end UniversalAlgebra
