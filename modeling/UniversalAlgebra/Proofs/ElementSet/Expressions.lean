/-
**Expressions over sets of elements.**

A set of elements is made from an array in any order and with repetitions, or it has all elements below
a bound; after that sets are intersected, united and subtracted, each time by going through two lists at
once.  From increasing lists each of these passes makes an increasing list again, and so every set that
is ever made is listed as the finite set of its members is.  This is what the tests rest on: an element
is searched by halving, inclusion goes through two lists at once, and equality compares them.

Main definitions:

* `ElementSet.containsByHalving` — membership, by halving;
* `ElementSet.Lists` — a finite set is listed in increasing order;
* `ElementSet.Expression` — how a set is made, with the set and with its members.

Main results:

* `ElementSet.intersectSorted_eq`, `ElementSet.subtractSorted_eq`, `ElementSet.pairwise_mergeSorted` —
  what the three passes make of increasing lists;
* `ElementSet.containsByHalving_eq` — **a search by halving finds what is there**;
* `ElementSet.Lists.less_of_ssubset` — a proper subset comes first;
* `ElementSet.Expression.lists` — an expression lists its members;
* `ElementSet.expressions_exact` — **what is made by any expression behaves as the set of its members,
  and these sets are linearly ordered**.
-/

import UniversalAlgebra.Proofs.ElementSet

set_option autoImplicit false

namespace UniversalAlgebra.ElementSet

variable {s t : ElementSet} {M N : Finset ℕ} {found xs ys : List ℕ} {x y : ℕ}

/-! ### Going through two lists at once -/

/-- The common entries of two increasing lists are those of the first that are in the second. -/
theorem intersectSorted_eq (hxs : xs.Pairwise (· < ·)) (hys : ys.Pairwise (· < ·)) :
    intersectSorted found xs ys = found.reverse ++ xs.filter (· ∈ ys) := by
  fun_induction intersectSorted found xs ys with
  | case1 found ys => simp
  | case2 found x xs => simp
  | case3 found x xs y ys hlt ih =>
      have hx : x ∉ y :: ys := fun hx => (lt_of_lt_head hys hlt hx).false
      rw [ih (List.pairwise_cons.1 hxs).2 hys, List.filter_cons_of_neg (by simpa using hx)]
  | case4 found xs y ys hlt ih =>
      rw [List.pairwise_cons] at hxs hys
      have hrest : xs.filter (· ∈ y :: ys) = xs.filter (· ∈ ys) := by
        refine List.filter_congr fun z hz => ?_
        simp [(hxs.1 z hz).ne']
      rw [ih hxs.2 hys.2, List.filter_cons_of_pos (by simp), hrest]
      simp
  | case5 found x xs y ys hlt hne ih =>
      rw [ih hxs (List.pairwise_cons.1 hys).2]
      congr 1
      refine List.filter_congr fun z hz => ?_
      have hyz : y < z := lt_of_lt_head hxs (by omega) hz
      simp [hyz.ne']

/-- The difference of two increasing lists has the entries of the first that are not in the second. -/
theorem subtractSorted_eq (hxs : xs.Pairwise (· < ·)) (hys : ys.Pairwise (· < ·)) :
    subtractSorted found xs ys = found.reverse ++ xs.filter (· ∉ ys) := by
  fun_induction subtractSorted found xs ys with
  | case1 found ys => simp
  | case2 found x xs => simp
  | case3 found x xs y ys hlt ih =>
      have hx : x ∉ y :: ys := fun hx => (lt_of_lt_head hys hlt hx).false
      rw [ih (List.pairwise_cons.1 hxs).2 hys, List.filter_cons_of_pos (by simpa using hx)]
      simp
  | case4 found xs y ys hlt ih =>
      rw [List.pairwise_cons] at hxs hys
      rw [ih hxs.2 hys.2, List.filter_cons_of_neg (by simp)]
      congr 1
      refine List.filter_congr fun z hz => ?_
      simp [(hxs.1 z hz).ne']
  | case5 found x xs y ys hlt hne ih =>
      rw [ih hxs (List.pairwise_cons.1 hys).2]
      congr 1
      refine List.filter_congr fun z hz => ?_
      have hyz : y < z := lt_of_lt_head hxs (by omega) hz
      simp [hyz.ne']

/-- Of two increasing lists that go on from one beginning, the smaller head can be added to it. -/
theorem pairwise_reverse_append_cons (hxs : (found.reverse ++ x :: xs).Pairwise (· < ·))
    (hys : (found.reverse ++ y :: ys).Pairwise (· < ·)) (hlt : x < y) :
    ((x :: found).reverse ++ y :: ys).Pairwise (· < ·) := by
  rw [List.pairwise_append] at hxs hys
  rw [List.reverse_cons, List.append_assoc, List.singleton_append, List.pairwise_append,
    List.pairwise_cons]
  refine ⟨hys.1, ⟨fun z hz => lt_of_lt_head hys.2.1 hlt hz, hys.2.1⟩, ?_⟩
  intro b hb z hz
  rcases List.mem_cons.1 hz with rfl | hz
  · exact hxs.2.2 b hb z List.mem_cons_self
  · exact hys.2.2 b hb z hz

/-- The union of two increasing lists is increasing. -/
theorem pairwise_mergeSorted (hxs : (found.reverse ++ xs).Pairwise (· < ·))
    (hys : (found.reverse ++ ys).Pairwise (· < ·)) :
    (mergeSorted found xs ys).Pairwise (· < ·) := by
  -- what was found and what is left of either list stays increasing
  fun_induction mergeSorted found xs ys with
  | case1 found ys => simpa [List.reverseAux_eq] using hys
  | case2 found x xs => simpa [List.reverseAux_eq] using hxs
  | case3 found x xs y ys hlt ih =>
      exact ih (by simpa using hxs) (pairwise_reverse_append_cons hxs hys hlt)
  | case4 found xs y ys hlt ih => exact ih (by simpa using hxs) (by simpa using hys)
  | case5 found x xs y ys hlt hne ih =>
      exact ih (pairwise_reverse_append_cons hys hxs (by omega)) (by simpa using hys)

/-! ### Searching by halving -/

/-- Whether `x` is a member: the first member that is not below `x` is searched by halving. -/
def containsByHalving (s : ElementSet) (x : ℕ) : Bool :=
  let members := s.elements.toArray
  match members[Below.lowerBound members.size fun i => members[i]?.any (· < x)]? with
  | some y => !decide (x < y)
  | none => false

/-- In an increasing list the entries below a bound come before the others. -/
theorem exists_split (hxs : xs.Pairwise (· < ·)) (x : ℕ) : ∃ before after, xs = before ++ after ∧
    (∀ y ∈ before, y < x) ∧ ∀ y ∈ after, x ≤ y := by
  refine ⟨xs.takeWhile (· < x), xs.dropWhile (· < x), List.takeWhile_append_dropWhile.symm,
    fun y hy => by simpa using List.mem_takeWhile_imp hy, ?_⟩
  have hafter : (xs.dropWhile (· < x)).Pairwise (· < ·) := hxs.sublist (List.dropWhile_sublist _)
  cases hdrop : xs.dropWhile (· < x) with
  | nil => simp
  | cons z zs =>
      have hz : x ≤ z := by
        have hhead := List.head_dropWhile_not (p := (· < x)) (l := xs) (by simp [hdrop])
        simpa [hdrop] using hhead
      rw [hdrop] at hafter
      intro y hy
      rcases List.mem_cons.1 hy with rfl | hy
      · exact hz
      · exact hz.trans (List.rel_of_pairwise_cons hafter hy).le

/-- **A search by halving finds what is there**, if the members increase. -/
theorem containsByHalving_eq (hs : s.Increasing) (x : ℕ) : s.containsByHalving x = s.contains x := by
  obtain ⟨before, after, hsplit, hbefore, hafter⟩ := exists_split hs x
  have hbound : Below.lowerBound s.elements.length (fun i => s.elements[i]?.any (· < x))
      = before.length := by
    refine Below.lowerBound_eq (by simp [hsplit]) fun i hi => ?_
    rw [hsplit] at hi ⊢
    rcases Nat.lt_or_ge i before.length with hlt | hge
    · have hmem := hbefore _ (List.getElem_mem hlt)
      simp [List.getElem?_append_left hlt, hlt, hmem]
    · rw [List.length_append] at hi
      have hi' : i - before.length < after.length := by omega
      have hmem := hafter _ (List.getElem_mem hi')
      simp only [List.getElem?_append_right hge, List.getElem?_eq_getElem hi', Option.any_some,
        decide_eq_true_eq]
      exact iff_of_false hmem.not_gt hge.not_gt
  have hnot : x ∉ before := fun hx => (hbefore x hx).false
  rw [containsByHalving]
  simp only [List.size_toArray, List.getElem?_toArray]
  rw [hbound, contains, hsplit, List.getElem?_append_right le_rfl, Nat.sub_self]
  have hincreasing : after.Pairwise (· < ·) := by
    rw [Increasing, hsplit, List.pairwise_append] at hs
    exact hs.2.1
  cases after with
  | nil => simpa using hnot
  | cons y rest =>
      have hxy : x ≤ y := hafter y List.mem_cons_self
      have hrest : x ∉ rest := fun hx =>
        (hxy.trans_lt (List.rel_of_pairwise_cons hincreasing hx)).false
      have heq : ¬x < y ↔ x = y := ⟨fun h => hxy.antisymm (Nat.not_lt.1 h), fun h => h.not_lt⟩
      rw [Bool.eq_iff_iff]
      simp [hnot, hrest, heq]

/-! ### Finite sets -/

/-- A finite set is listed in increasing order. -/
structure Lists (s : ElementSet) (M : Finset ℕ) : Prop where
  increasing : s.Increasing
  mem_iff : ∀ x, x ∈ s.elements ↔ x ∈ M

namespace Lists

theorem contains_eq (h : s.Lists M) (x : ℕ) : s.contains x = decide (x ∈ M) := by
  rw [Bool.eq_iff_iff, contains, List.contains_iff_mem, h.mem_iff, decide_eq_true_eq]

theorem size_eq (h : s.Lists M) : s.size = M.card := by
  have hM : s.elements.toFinset = M := by
    ext x
    rw [List.mem_toFinset, h.mem_iff]
  rw [← hM, List.toFinset_card_of_nodup h.increasing.nodup, size]

theorem subset_iff (hs : s.Lists M) (ht : t.Lists N) : s.subset t = true ↔ M ⊆ N := by
  rw [hs.increasing.subset_iff ht.increasing]
  simp only [hs.mem_iff, ht.mem_iff]
  rfl

theorem eq_iff (hs : s.Lists M) (ht : t.Lists N) : s = t ↔ M = N := by
  constructor
  · rintro rfl
    ext x
    rw [← hs.mem_iff, ht.mem_iff]
  · rintro rfl
    exact hs.increasing.ext ht.increasing fun x => by rw [hs.mem_iff, ht.mem_iff]

/-- A proper subset comes first. -/
theorem less_of_ssubset (hs : s.Lists M) (ht : t.Lists N) (h : M ⊂ N) : s.less t = true := by
  have hsize : s.size < t.size := by
    rw [hs.size_eq, ht.size_eq]
    exact Finset.card_lt_card h
  rw [less, if_pos hsize.ne, decide_eq_true_eq]
  exact hsize

theorem inter (hs : s.Lists M) (ht : t.Lists N) : (s.inter t).Lists (M ∩ N) := by
  have helements : (s.inter t).elements = s.elements.filter (· ∈ t.elements) :=
    intersectSorted_eq hs.increasing ht.increasing
  refine ⟨?_, fun x => ?_⟩
  · rw [Increasing, helements]
    exact hs.increasing.filter _
  · rw [helements, List.mem_filter, decide_eq_true_eq, hs.mem_iff, ht.mem_iff, Finset.mem_inter]

theorem diff (hs : s.Lists M) (ht : t.Lists N) : (s.diff t).Lists (M \ N) := by
  have helements : (s.diff t).elements = s.elements.filter (· ∉ t.elements) :=
    subtractSorted_eq hs.increasing ht.increasing
  refine ⟨?_, fun x => ?_⟩
  · rw [Increasing, helements]
    exact hs.increasing.filter _
  · rw [helements, List.mem_filter, decide_eq_true_eq, hs.mem_iff, ht.mem_iff, Finset.mem_sdiff]

theorem union (hs : s.Lists M) (ht : t.Lists N) : (s.union t).Lists (M ∪ N) where
  increasing := pairwise_mergeSorted hs.increasing ht.increasing
  mem_iff x := by rw [mem_union, hs.mem_iff, ht.mem_iff, Finset.mem_union]

end Lists

theorem lists_ofList (xs : List ℕ) : (ofList xs).Lists xs.toFinset :=
  ⟨increasing_ofList xs, fun x => by rw [mem_ofList, List.mem_toFinset]⟩

theorem lists_below (n : ℕ) : (below n).Lists (Finset.range n) :=
  ⟨List.pairwise_lt_range, fun x => by rw [below, List.mem_range, Finset.mem_range]⟩

/-! ### Expressions -/

/-- How a set of elements is made. -/
inductive Expression where
  | ofList (xs : List ℕ)
  | segment (n : ℕ)
  | inter (e f : Expression)
  | union (e f : Expression)
  | diff (e f : Expression)

namespace Expression

/-- The set that is made. -/
def value : Expression → ElementSet
  | ofList xs => ElementSet.ofList xs
  | segment n => ElementSet.below n
  | inter e f => e.value.inter f.value
  | union e f => e.value.union f.value
  | diff e f => e.value.diff f.value

/-- The members of the set. -/
def members : Expression → Finset ℕ
  | ofList xs => xs.toFinset
  | segment n => Finset.range n
  | inter e f => e.members ∩ f.members
  | union e f => e.members ∪ f.members
  | diff e f => e.members \ f.members

/-- **An expression lists its members.** -/
theorem lists (e : Expression) : e.value.Lists e.members := by
  induction e with
  | ofList xs => exact lists_ofList xs
  | segment n => exact lists_below n
  | inter e f he hf => exact he.inter hf
  | union e f he hf => exact he.union hf
  | diff e f he hf => exact he.diff hf

end Expression

/-- **Sets of elements behave as the sets of their members.**  What is made by any expression from
arrays and initial segments is listed in strictly increasing order, by its members.  Membership, which is
also found by halving, inclusion and equality are those of the members, and so are the intersection, the
union and the difference.  The order of these sets is linear, and a proper subset comes before the set. -/
theorem expressions_exact :
    (∀ e : Expression, e.value.elements.Pairwise (· < ·) ∧
      (∀ x, x ∈ e.value.elements ↔ x ∈ e.members) ∧ ∀ x,
        e.value.contains x = decide (x ∈ e.members) ∧
        e.value.containsByHalving x = decide (x ∈ e.members)) ∧
    (∀ e f : Expression,
      (e.value.subset f.value = true ↔ e.members ⊆ f.members) ∧
      (e.value = f.value ↔ e.members = f.members) ∧
      (e.value.inter f.value).Lists (e.members ∩ f.members) ∧
      (e.value.union f.value).Lists (e.members ∪ f.members) ∧
      (e.value.diff f.value).Lists (e.members \ f.members) ∧
      (e.members ⊂ f.members → e.value.less f.value = true)) ∧
    LinearlyOrders less (fun s => ∃ e : Expression, e.value = s) := by
  refine ⟨fun e => ?_, fun e f => ?_, ?_⟩
  · have he := e.lists
    refine ⟨he.increasing, he.mem_iff, fun x => ⟨he.contains_eq x, ?_⟩⟩
    rw [containsByHalving_eq he.increasing, he.contains_eq]
  · have he := e.lists
    have hf := f.lists
    exact ⟨he.subset_iff hf, he.eq_iff hf, he.inter hf, he.union hf, he.diff hf, he.less_of_ssubset hf⟩
  · exact orderedBy_less.linearlyOrders fun s t _ _ h => orderKey_injective h

/-- An array that names three twice is a proper part of what is below five without zero, and so it comes
first; three is found in it by halving, and cutting a larger array down to that part gives it again. -/
theorem expressions_below_five :
    (Expression.ofList [3, 1, 3]).members ⊂ (Expression.diff (.segment 5) (.ofList [0])).members ∧
    (Expression.ofList [3, 1, 3]).value.less (Expression.diff (.segment 5) (.ofList [0])).value = true ∧
    (Expression.ofList [3, 1, 3]).value.containsByHalving 3 = true ∧
    (Expression.ofList [3, 1, 3]).value
      = (Expression.inter (.ofList [7, 3, 1]) (.diff (.segment 5) (.ofList [0]))).value := by
  obtain ⟨hone, htwo, -⟩ := expressions_exact
  obtain ⟨-, -, hcontains⟩ := hone (.ofList [3, 1, 3])
  obtain ⟨-, -, -, -, -, hless⟩ := htwo (.ofList [3, 1, 3]) (.diff (.segment 5) (.ofList [0]))
  obtain ⟨-, heq, -⟩ :=
    htwo (.ofList [3, 1, 3]) (.inter (.ofList [7, 3, 1]) (.diff (.segment 5) (.ofList [0])))
  have hpart : (Expression.ofList [3, 1, 3]).members
      ⊂ (Expression.diff (.segment 5) (.ofList [0])).members := by decide
  exact ⟨hpart, hless hpart, (hcontains 3).2.trans (by decide), heq.2 (by decide)⟩

end UniversalAlgebra.ElementSet
