/-
**Programs over bit sets.**

Several bit sets for the naturals below one bound are changed by one operation after the other, each of
which may read another of the sets.  The words stand for finite sets on which the same operations are
carried out: no operation sets a bit beyond the bound, and as long as none is set, every question that is
answered word by word is answered as for the finite sets.

Main definitions:

* `BitSet.Operation`, `BitSet.Operation.on` — the operations on one of the sets;
* `BitSet.Operation.change` — what they do to finite sets;
* `BitSet.setsAfter`, `BitSet.membersAfter` — the sets after a program, and their members;
* `BitSet.Holds` — a bit set has exactly these members.

Main results:

* `BitSet.holds_step` — one operation;
* `BitSet.holds_setsAfter` — a whole program;
* `BitSet.programs_exact` — what the sets answer after a program.
-/

import UniversalAlgebra.Proofs.BitSet.Iteration

set_option autoImplicit false

namespace UniversalAlgebra.BitSet

variable {s t : BitSet} {n i : ℕ} {M N : Finset ℕ} {sets : ℕ → BitSet} {members : ℕ → Finset ℕ}

/-! ### Whole sets -/

theorem Fits.contains_diff (hs : s.Fits n) (ht : t.Fits n) (i : ℕ) :
    (s.diff t).contains i = (s.contains i && !t.contains i) := by
  rw [contains_iff, contains_iff, contains_iff, BitSet.diff,
    getD_zipWith (f := fun v w => v &&& ~~~w) rfl (hs.size_eq ht), UInt64.toNat_and, Nat.testBit_and,
    testBit_complement _ (Nat.mod_lt i (by decide))]

theorem Over.diff (hs : s.Over n) (ht : t.Over n) : (s.diff t).Over n := by
  refine ⟨hs.dim_eq, ?_, fun i hi => ?_⟩
  · rw [Fits, BitSet.diff, Array.size_zipWith, hs.fits, ht.fits, Nat.min_self]
  · rw [hs.fits.contains_diff ht.fits, Bool.and_eq_true] at hi
    exact hs.lt i hi.1

@[simp] theorem contains_clear (s : BitSet) (i : ℕ) : s.clear.contains i = false := by
  rw [contains_iff, clear, Array.getElem?_map]
  cases s.words[i / 64]? <;> simp

theorem Over.clear (hs : s.Over n) : s.clear.Over n := by
  refine ⟨hs.dim_eq, ?_, by simp⟩
  rw [Fits, BitSet.clear, Array.size_map, hs.fits]

/-- Naturals below the bound that are made members, one after the other. -/
theorem Over.foldl_insert {xs : List ℕ} (hs : s.Over n) (hxs : ∀ i ∈ xs, i < n) :
    (xs.foldl BitSet.insert s).Over n ∧
      ∀ i, (xs.foldl BitSet.insert s).contains i = true ↔ s.contains i = true ∨ i ∈ xs := by
  induction xs generalizing s with
  | nil => exact ⟨hs, by simp⟩
  | cons x xs ih =>
      obtain ⟨hx, hxs⟩ := List.forall_mem_cons.1 hxs
      obtain ⟨hover, hmem⟩ := ih (hs.insert hx) hxs
      refine ⟨hover, fun i => ?_⟩
      rw [List.foldl_cons, hmem, hs.fits.contains_insert hx, Bool.or_eq_true, decide_eq_true_eq,
        List.mem_cons]
      tauto

/-- A set without a bit in any word is a set without members. -/
theorem isEmpty_iff (s : BitSet) : s.isEmpty = true ↔ ∀ i, s.contains i = false := by
  rw [isEmpty, Array.all_eq_true]
  constructor
  · intro h i
    rw [contains_iff]
    rcases Nat.lt_or_ge (i / 64) s.words.size with hq | hq
    · have hzero : s.words[i / 64] = 0 := by simpa using h _ hq
      simp [hq, hzero]
    · simp [hq]
  · intro h q hq
    rw [beq_iff_eq, ← UInt64.toNat_inj]
    refine Nat.eq_of_testBit_eq fun j => ?_
    rcases Nat.lt_or_ge j 64 with hj | hj
    · have hbit := h (64 * q + j)
      rw [contains_mul_add s q hj, Array.getElem?_eq_getElem hq, Option.getD_some] at hbit
      simpa using hbit
    · rw [testBit_eq_false_of_le _ hj, testBit_eq_false_of_le _ hj]

/-- The test for a common member, word by word, is the test whether the intersection is empty. -/
theorem disjoint_eq (s t : BitSet) : s.disjoint t = (s.inter t).isEmpty := by
  rw [Bool.eq_iff_iff, disjoint, isEmpty, inter, Array.all_eq_true, Array.all_eq_true]
  simp

theorem Fits.disjoint_iff (hs : s.Fits n) (ht : t.Fits n) :
    s.disjoint t = true ↔ ∀ i, s.contains i = true → t.contains i = true → False := by
  rw [disjoint_eq, isEmpty_iff]
  refine forall_congr' fun i => ?_
  rw [hs.contains_inter ht]
  cases s.contains i <;> simp

/-! ### Finite sets -/

/-- A bit set for the naturals below `n` that has exactly the members `M`. -/
structure Holds (n : ℕ) (s : BitSet) (M : Finset ℕ) : Prop where
  isOver : s.Over n
  contains_iff_mem : ∀ i, s.contains i = true ↔ i ∈ M

namespace Holds

theorem fits (h : Holds n s M) : s.Fits n := h.isOver.fits

theorem lt (h : Holds n s M) (hi : i ∈ M) : i < n := h.isOver.lt i ((h.contains_iff_mem i).2 hi)

theorem contains_eq (h : Holds n s M) (i : ℕ) : s.contains i = decide (i ∈ M) := by
  rw [Bool.eq_iff_iff, h.contains_iff_mem, decide_eq_true_eq]

theorem toList_eq (h : Holds n s M) : s.toList = M.sort (· ≤ ·) := by
  have hperm : s.toList.Perm (M.sort (· ≤ ·)) := by
    have hnodup : s.toList.Nodup := s.pairwise_toList.imp fun h => h.ne
    refine (List.perm_ext_iff_of_nodup hnodup (M.sort_nodup _)).2 fun i => ?_
    rw [mem_toList, h.contains_iff_mem, Finset.mem_sort]
  exact hperm.eq_of_pairwise' (s.pairwise_toList.imp fun h => h.le) (M.pairwise_sort _)

theorem count_eq (h : Holds n s M) : s.count = M.card := by
  rw [count_eq_length, h.toList_eq, Finset.length_sort]

theorem isEmpty_iff (h : Holds n s M) : s.isEmpty = true ↔ M = ∅ := by
  rw [BitSet.isEmpty_iff, Finset.eq_empty_iff_forall_notMem]
  exact forall_congr' fun i => by rw [h.contains_eq, decide_eq_false_iff_not]

theorem sameWords_iff (hs : Holds n s M) (ht : Holds n t N) : s.sameWords t = true ↔ M = N := by
  rw [sameWords, beq_iff_eq]
  constructor
  · intro hwords
    ext i
    rw [← hs.contains_iff_mem, ← ht.contains_iff_mem, BitSet.contains_iff, BitSet.contains_iff, hwords]
  · rintro rfl
    have hdim : s.dim = t.dim := hs.isOver.dim_eq.trans ht.isOver.dim_eq.symm
    rw [hs.fits.ext ht.fits hdim fun i => by rw [hs.contains_eq, ht.contains_eq]]

theorem subset_iff (hs : Holds n s M) (ht : Holds n t N) : s.subset t = true ↔ M ⊆ N := by
  rw [hs.fits.subset_iff ht.fits, Finset.subset_iff]
  exact forall_congr' fun i => by rw [hs.contains_iff_mem, ht.contains_iff_mem]

theorem disjoint_iff (hs : Holds n s M) (ht : Holds n t N) : s.disjoint t = true ↔ Disjoint M N := by
  rw [hs.fits.disjoint_iff ht.fits, Finset.disjoint_left]
  exact forall_congr' fun i => by rw [hs.contains_iff_mem, ht.contains_iff_mem]

/-- The iterator meets exactly the members. -/
theorem visits_iff (h : Holds n s M) (xs : List ℕ) :
    (iterator s.words).Visits (Cursor.start s.words) xs ↔ xs = M.sort (· ≤ ·) := by
  rw [(visits_start s).iff_eq, h.toList_eq]

end Holds

theorem holds_empty (n : ℕ) : Holds n (empty n) ∅ := ⟨over_empty n, by simp⟩

/-! ### Programs -/

/-- An operation on one of several sets for the naturals below `n`, which are told apart by numbers. -/
inductive Operation (n : ℕ) where
  | insert (i : Fin n)
  | tryInsert (i : Fin n)
  | remove (i : Fin n)
  | insertAll
  | clear
  | fill (everything : Bool)
  | union (q : ℕ)
  | inter (q : ℕ)
  | diff (q : ℕ)
  | copy (q : ℕ)

namespace Operation

/-- What becomes of the bit set `s`, which is one of the sets. -/
def on (sets : ℕ → BitSet) (s : BitSet) : Operation n → BitSet
  | insert i => s.insert i
  | tryInsert i => (s.tryInsert i).2
  | remove i => s.remove i
  | insertAll => s.insertAll
  | clear => s.clear
  | fill everything => s.fill everything
  | union q => s.union (sets q)
  | inter q => s.inter (sets q)
  | diff q => s.diff (sets q)
  | copy q => sets q

/-- What becomes of the members `M`. -/
def change (members : ℕ → Finset ℕ) (M : Finset ℕ) : Operation n → Finset ℕ
  | insert i => Insert.insert i.1 M
  | tryInsert i => Insert.insert i.1 M
  | remove i => M.erase i
  | insertAll => Finset.range n
  | clear => ∅
  | fill everything => if everything then Finset.range n else ∅
  | union q => M ∪ members q
  | inter q => M ∩ members q
  | diff q => M \ members q
  | copy q => members q

end Operation

/-- The sets after an operation on one of them. -/
def step (sets : ℕ → BitSet) (o : ℕ × Operation n) : ℕ → BitSet :=
  Function.update sets o.1 (o.2.on sets (sets o.1))

/-- The members after the same operation. -/
def memberStep (members : ℕ → Finset ℕ) (o : ℕ × Operation n) : ℕ → Finset ℕ :=
  Function.update members o.1 (o.2.change members (members o.1))

/-- The sets after a program that begins with empty ones. -/
def setsAfter (n : ℕ) (program : List (ℕ × Operation n)) : ℕ → BitSet :=
  program.foldl step fun _ => empty n

/-- The members after the same program on finite sets. -/
def membersAfter (n : ℕ) (program : List (ℕ × Operation n)) : ℕ → Finset ℕ :=
  program.foldl memberStep fun _ => ∅

/-- What an operation makes of one set. -/
theorem Holds.apply (hall : ∀ q, Holds n (sets q) (members q))
    (h : Holds n s M) (operation : Operation n) :
    Holds n (operation.on sets s) (operation.change members M) := by
  have hinsert (i : Fin n) : Holds n (s.insert i) (Insert.insert i.1 M) := by
    refine ⟨h.isOver.insert i.2, fun j => ?_⟩
    rw [h.fits.contains_insert i.2, h.contains_eq, Finset.mem_insert]
    simp
  have hclear : Holds n s.clear ∅ := ⟨h.isOver.clear, by simp⟩
  cases operation with
  | insert i => exact hinsert i
  | tryInsert i => exact hinsert i
  | remove i =>
      refine ⟨h.isOver.remove i, fun j => ?_⟩
      simp [Operation.on, Operation.change, contains_remove, h.contains_eq]
  | insertAll =>
      refine ⟨h.isOver.insertAll, fun j => ?_⟩
      simp [Operation.on, Operation.change, h.isOver.contains_insertAll]
  | clear => exact hclear
  | fill everything =>
      cases everything with
      | false => exact hclear
      | true =>
          have hrange : ∀ i ∈ List.range s.dim, i < n := fun i hi => by simpa [h.isOver.dim_eq] using hi
          obtain ⟨hover, hmem⟩ := hclear.isOver.foldl_insert hrange
          refine ⟨hover, fun j => (hmem j).trans ?_⟩
          simp [Operation.change, h.isOver.dim_eq]
  | union q =>
      refine ⟨h.isOver.union (hall q).isOver, fun j => ?_⟩
      simp [Operation.on, Operation.change, h.fits.contains_union (hall q).fits, h.contains_eq,
        (hall q).contains_eq]
  | inter q =>
      refine ⟨h.isOver.inter (hall q).isOver, fun j => ?_⟩
      simp [Operation.on, Operation.change, h.fits.contains_inter (hall q).fits, h.contains_eq,
        (hall q).contains_eq]
  | diff q =>
      refine ⟨h.isOver.diff (hall q).isOver, fun j => ?_⟩
      simp [Operation.on, Operation.change, h.fits.contains_diff (hall q).fits, h.contains_eq,
        (hall q).contains_eq]
  | copy q => exact hall q

/-- One operation. -/
theorem holds_step (hall : ∀ q, Holds n (sets q) (members q)) (o : ℕ × Operation n) (r : ℕ) :
    Holds n (step sets o r) (memberStep members o r) := by
  rw [step, memberStep]
  by_cases hr : r = o.1
  · rw [hr, Function.update_self, Function.update_self]
    exact (hall o.1).apply hall o.2
  · rw [Function.update_of_ne hr, Function.update_of_ne hr]
    exact hall r

theorem holds_foldl (hall : ∀ q, Holds n (sets q) (members q)) (program : List (ℕ × Operation n))
    (r : ℕ) : Holds n (program.foldl step sets r) (program.foldl memberStep members r) := by
  induction program generalizing sets members with
  | nil => exact hall r
  | cons o program ih => exact ih (holds_step hall o)

/-- A whole program. -/
theorem holds_setsAfter (n : ℕ) (program : List (ℕ × Operation n)) (r : ℕ) :
    Holds n (setsAfter n program r) (membersAfter n program r) :=
  holds_foldl (fun _ => holds_empty n) program r

/-- **After every program** over sets for the naturals below `n`, no bit beyond `n` is set in any of
them.  Membership, the number of members, the tests for emptiness, equality, inclusion and a common
member are those of the finite sets on which the same operations are carried out, and so are the union,
the intersection and the difference.  An attempt to insert says whether the item was absent.  The
iterator meets the members in increasing order, each once and nothing else, and ends. -/
theorem programs_exact (n : ℕ) (program : List (ℕ × Operation n)) (r : ℕ) :
    (setsAfter n program r).words.size = wordCount n ∧
    (∀ i, n ≤ i → ((setsAfter n program r).words[i / 64]?.getD 0).toNat.testBit (i % 64) = false) ∧
    (∀ i, (setsAfter n program r).contains i = decide (i ∈ membersAfter n program r)) ∧
    (∀ i < n, ((setsAfter n program r).tryInsert i).1 = decide (i ∉ membersAfter n program r)) ∧
    (setsAfter n program r).count = (membersAfter n program r).card ∧
    ((setsAfter n program r).isEmpty = true ↔ membersAfter n program r = ∅) ∧
    (∀ xs, (iterator (setsAfter n program r).words).Visits
        (Cursor.start (setsAfter n program r).words) xs ↔
      xs = (membersAfter n program r).sort (· ≤ ·)) ∧
    ∀ q,
      ((setsAfter n program r).sameWords (setsAfter n program q) = true ↔
        membersAfter n program r = membersAfter n program q) ∧
      ((setsAfter n program r).subset (setsAfter n program q) = true ↔
        membersAfter n program r ⊆ membersAfter n program q) ∧
      ((setsAfter n program r).disjoint (setsAfter n program q) = true ↔
        Disjoint (membersAfter n program r) (membersAfter n program q)) ∧
      Holds n ((setsAfter n program r).union (setsAfter n program q))
        (membersAfter n program r ∪ membersAfter n program q) ∧
      Holds n ((setsAfter n program r).inter (setsAfter n program q))
        (membersAfter n program r ∩ membersAfter n program q) ∧
      Holds n ((setsAfter n program r).diff (setsAfter n program q))
        (membersAfter n program r \ membersAfter n program q) := by
  have hall := holds_setsAfter n program
  have h := hall r
  refine ⟨h.isOver.fits, fun i hi => ?_, h.contains_eq, fun i _ => ?_, h.count_eq, h.isEmpty_iff,
    h.visits_iff, fun q => ⟨h.sameWords_iff (hall q), h.subset_iff (hall q), h.disjoint_iff (hall q),
      h.apply hall (.union q), h.apply hall (.inter q), h.apply hall (.diff q)⟩⟩
  · rw [← contains_iff, h.contains_eq, decide_eq_false_iff_not]
    exact fun hmem => Nat.not_lt.2 hi (h.lt hmem)
  · rw [tryInsert, h.contains_eq, decide_not]

/-- Everything below seventy without three and sixty-six, which takes a word and six bits of a second. -/
theorem programs_of_seventy :
    (setsAfter 70 [(0, .insertAll), (1, .insert 3), (1, .tryInsert 66), (0, .diff 1)] 0).count = 68 ∧
    (setsAfter 70 [(0, .insertAll), (1, .insert 3), (1, .tryInsert 66), (0, .diff 1)] 0).disjoint
      (setsAfter 70 [(0, .insertAll), (1, .insert 3), (1, .tryInsert 66), (0, .diff 1)] 1) = true ∧
    ((setsAfter 70 [(0, .insertAll), (1, .insert 3), (1, .tryInsert 66), (0, .diff 1)] 0).tryInsert 66).1
      = true := by
  obtain ⟨-, -, -, hinsert, hcount, -, -, htwo⟩ :=
    programs_exact 70 [(0, .insertAll), (1, .insert 3), (1, .tryInsert 66), (0, .diff 1)] 0
  obtain ⟨-, -, hdisjoint, -⟩ := htwo 1
  exact ⟨hcount.trans (by decide), hdisjoint.2 (by decide), (hinsert 66 (by decide)).trans (by decide)⟩

end UniversalAlgebra.BitSet
