/-
**Every selection is visited once.**

The selections of `k` naturals below `n` are listed by recursion on the naturals: those with the least
one come before those without it.  The step in place finds its pivot from the right, so that it is
understood from the right as well: a selection whose rest can still grow keeps its first entry, and
otherwise the first entry grows and all entries follow it.  In this form the step takes each entry of
the list to the one after it, and the last one to nothing.

Main definitions:

* `Selection.all` — the sublists with `k` entries, in lexicographic order;
* `Selection.successor` — the step by recursion on the list.

Main results:

* `Selection.mem_all_range`, `Selection.pairwise_all` — what is listed, and in which order;
* `Selection.next_toArray` — the step in place is the step by recursion;
* `Selection.isChain_all`, `Selection.successor_range'` — it goes through the list and ends after it;
* `Selection.find_first` — **the search tests every selection once, in lexicographic order**.
-/

import Mathlib
import UniversalAlgebra.Selection

set_option autoImplicit false

namespace UniversalAlgebra.Selection

/-! ### The list of selections -/

/-- The sublists of a list that have `k` entries, in lexicographic order. -/
def all : (k : ℕ) → (xs : List ℕ) → List (List ℕ)
  | 0, _ => [[]]
  | _ + 1, [] => []
  | k + 1, x :: xs => (all k xs).map (x :: ·) ++ all (k + 1) xs

theorem mem_all {k : ℕ} {xs ys : List ℕ} : ys ∈ all k xs ↔ ys.Sublist xs ∧ ys.length = k := by
  induction xs generalizing k ys with
  | nil =>
      cases k with
      | zero => simp [all]
      | succ k =>
          simp only [all, List.not_mem_nil, List.sublist_nil, false_iff, not_and]
          rintro rfl
          simp
  | cons x xs ih =>
      cases k with
      | zero =>
          simp only [all, List.mem_singleton, List.length_eq_zero_iff]
          constructor
          · rintro rfl
            exact ⟨List.nil_sublist _, rfl⟩
          · exact And.right
      | succ k =>
          rw [all, List.mem_append, List.mem_map, ih, List.sublist_cons_iff, or_and_right, or_comm]
          refine or_congr_right ?_
          constructor
          · rintro ⟨zs, hzs, rfl⟩
            obtain ⟨hsub, hlen⟩ := ih.1 hzs
            exact ⟨⟨zs, rfl, hsub⟩, by rw [List.length_cons, hlen]⟩
          · rintro ⟨⟨zs, rfl, hsub⟩, hlen⟩
            exact ⟨zs, ih.2 ⟨hsub, Nat.succ.inj hlen⟩, rfl⟩

/-- The selections below `n` are the sets of naturals below `n`. -/
theorem mem_all_range {n k : ℕ} {xs : List ℕ} :
    xs ∈ all k (List.range n) ↔ xs.Pairwise (· < ·) ∧ (∀ x ∈ xs, x < n) ∧ xs.length = k := by
  rw [mem_all, ← and_assoc]
  refine and_congr_left fun _ => ?_
  constructor
  · intro h
    exact ⟨List.pairwise_lt_range.sublist h, fun x hx => List.mem_range.1 (h.subset hx)⟩
  · rintro ⟨hxs, hlt⟩
    have hsub : xs.Subperm (List.range n) :=
      List.subperm_of_subset (hxs.imp Nat.ne_of_lt) fun x hx => List.mem_range.2 (hlt x hx)
    exact List.sublist_of_subperm_of_pairwise hsub hxs List.pairwise_lt_range

theorem all_zero (xs : List ℕ) : all 0 xs = [[]] := by cases xs <;> rfl

theorem all_one (xs : List ℕ) : all 1 xs = xs.map fun x => [x] := by
  induction xs with
  | nil => rfl
  | cons x xs ih => rw [all, all_zero, ih, List.map_singleton, List.map_cons, List.singleton_append]

theorem length_all (k : ℕ) (xs : List ℕ) : (all k xs).length = xs.length.choose k := by
  induction xs generalizing k with
  | nil => cases k <;> rfl
  | cons x xs ih =>
      cases k with
      | zero => simp [all]
      | succ k => rw [all, List.length_append, List.length_map, ih, ih, List.length_cons,
          Nat.choose_succ_succ]

theorem all_eq_nil {k : ℕ} {xs : List ℕ} (h : xs.length < k) : all k xs = [] := by
  rw [← List.length_eq_zero_iff, length_all, Nat.choose_eq_zero_of_lt h]

theorem le_of_mem_all {k lo len : ℕ} {ys : List ℕ} (h : ys ∈ all k (List.range' lo len)) :
    k ≤ len := by
  obtain ⟨hsub, rfl⟩ := mem_all.1 h
  exact hsub.length_le.trans_eq List.length_range'

/-- They increase, and so each occurs once. -/
theorem pairwise_all {xs : List ℕ} (hxs : xs.Pairwise (· < ·)) (k : ℕ) :
    (all k xs).Pairwise (· < ·) := by
  induction xs generalizing k with
  | nil => cases k <;> simp [all]
  | cons x xs ih =>
      obtain ⟨hx, hxs⟩ := List.pairwise_cons.1 hxs
      cases k with
      | zero => simp [all]
      | succ k =>
          rw [all, List.pairwise_append, List.pairwise_map]
          refine ⟨(ih hxs k).imp fun h => List.cons_lt_cons_self.2 h, ih hxs (k + 1), ?_⟩
          intro ys hys zs hzs
          obtain ⟨ys', -, rfl⟩ := List.mem_map.1 hys
          obtain ⟨hsub, hlen⟩ := mem_all.1 hzs
          cases zs with
          | nil => cases hlen
          | cons z zs => exact List.cons_lt_cons_iff.2 (Or.inl (hx z (hsub.subset List.mem_cons_self)))

/-! ### The step in place -/

/-- The list after a given one: the last entry that can grow does so, and those after it follow. -/
def successor (n : ℕ) : List ℕ → Option (List ℕ)
  | [] => none
  | x :: xs =>
      match successor n xs with
      | some ys => some (x :: ys)
      | none => if x + xs.length + 1 = n then none else some (List.range' (x + 1) (xs.length + 1))

theorem successor_cons_of_some {n x : ℕ} {xs ys : List ℕ} (h : successor n xs = some ys) :
    successor n (x :: xs) = some (x :: ys) := by
  rw [successor, h]

theorem successor_cons_of_none {n x : ℕ} {xs : List ℕ} (h : successor n xs = none) :
    successor n (x :: xs) = if x + xs.length + 1 = n then none
      else some (List.range' (x + 1) (xs.length + 1)) := by
  rw [successor, h]

theorem pivot_succ (n : ℕ) (chosen : Array ℕ) (i : ℕ) :
    pivot n chosen (i + 1)
      = if chosen[i]? = some (n - chosen.size + i) then pivot n chosen i else i + 1 := rfl

/-- The pivot of a list with one more entry in front. -/
theorem pivot_cons {n : ℕ} (x : ℕ) {xs : List ℕ} (hxs : xs.length < n) (i : ℕ) :
    pivot n (x :: xs).toArray (i + 1)
      = if pivot n xs.toArray i = 0 then (if x + xs.length + 1 = n then 0 else 1)
        else pivot n xs.toArray i + 1 := by
  induction i with
  | zero =>
      have hiff : x = n - (xs.length + 1) ↔ x + xs.length + 1 = n := by omega
      simp [pivot, hiff]
  | succ i ih =>
      have hbound : n - (x :: xs).toArray.size + (i + 1) = n - xs.toArray.size + i := by
        simp only [List.size_toArray, List.length_cons]
        omega
      rw [pivot_succ n (x :: xs).toArray, pivot_succ n xs.toArray, ih, hbound,
        List.getElem?_toArray, List.getElem?_toArray, List.getElem?_cons_succ]
      split
      · rfl
      · rw [if_neg (Nat.succ_ne_zero i)]

theorem refill_cons (x count i : ℕ) (xs : List ℕ) :
    refill count (i + 2) (x :: xs).toArray
      = (x :: (refill count (i + 1) xs.toArray).toList).toArray := by
  induction count generalizing i xs with
  | zero => simp [refill]
  | succ count ih =>
      have hset : (x :: xs).toArray.setIfInBounds (i + 2)
            ((x :: xs).toArray.getD (i + 2 - 1) 0 + 1)
          = (x :: xs.set (i + 1) (xs.toArray.getD (i + 1 - 1) 0 + 1)).toArray := by
        simp [Array.getD_eq_getD_getElem?]
      rw [refill, hset, ih, refill]
      simp

/-- The entries after the first one become its successors. -/
theorem refill_one (x : ℕ) (xs : List ℕ) :
    refill xs.length 1 (x :: xs).toArray = (List.range' x (xs.length + 1)).toArray := by
  induction xs generalizing x with
  | nil => rfl
  | cons y ys ih =>
      have hset : (x :: y :: ys).toArray.setIfInBounds 1 ((x :: y :: ys).toArray.getD (1 - 1) 0 + 1)
          = (x :: (x + 1) :: ys).toArray := by
        simp [Array.getD_eq_getD_getElem?]
      rw [List.length_cons, refill, hset, refill_cons, ih, ← List.range'_succ]

/-- **The step in place** takes a list to the one after it. -/
theorem next_toArray {n : ℕ} {xs : List ℕ} (hxs : xs.length ≤ n) :
    next n xs.toArray = (successor n xs).map List.toArray := by
  induction xs with
  | nil => rfl
  | cons x xs ih =>
      have hpivot := pivot_cons x hxs xs.length
      have hrest := ih (Nat.le_of_succ_le hxs)
      rw [next, List.size_toArray] at hrest ⊢
      rw [List.length_cons, hpivot]
      cases hp : pivot n xs.toArray xs.length with
      | zero =>
          rw [hp] at hrest
          rw [successor_cons_of_none (Option.map_eq_none_iff.1 hrest.symm), if_pos rfl]
          by_cases hx : x + xs.length + 1 = n
          · rw [if_pos hx, if_pos hx]
            rfl
          · rw [if_neg hx, if_neg hx]
            have hmodify : (x :: xs).toArray.modify 0 (· + 1) = ((x + 1) :: xs).toArray := by simp
            simp only [hmodify, Nat.zero_add, Nat.add_sub_cancel, refill_one, Option.map_some]
      | succ i =>
          rw [hp] at hrest
          obtain ⟨ys, hys, hfill⟩ := Option.map_eq_some_iff.1 hrest.symm
          have hmodify : (x :: xs).toArray.modify (i + 1) (· + 1)
              = (x :: (xs.modify i (· + 1))).toArray := by simp
          have hfill' : refill (xs.length - (i + 1)) (i + 1) (xs.modify i (· + 1)).toArray
              = ys.toArray := by rw [hfill]; simp
          rw [successor_cons_of_some hys, if_neg (Nat.succ_ne_zero i)]
          simp only [hmodify, Nat.add_sub_add_right, refill_cons, hfill', Option.map_some]

/-! ### The walk -/

theorem head?_all {k len : ℕ} (lo : ℕ) (hk : k ≤ len) :
    (all k (List.range' lo len)).head? = some (List.range' lo k) := by
  induction len generalizing k lo with
  | zero =>
      obtain rfl := Nat.le_zero.1 hk
      rfl
  | succ len ih =>
      cases k with
      | zero => simp [all]
      | succ k =>
          rw [List.range'_succ, all, List.head?_append, List.head?_map,
            ih (lo + 1) (Nat.le_of_succ_le_succ hk), List.range'_succ]
          rfl

theorem getLast?_all {k len : ℕ} (lo : ℕ) (hk : k ≤ len) :
    (all k (List.range' lo len)).getLast? = some (List.range' (lo + len - k) k) := by
  induction len generalizing k lo with
  | zero =>
      obtain rfl := Nat.le_zero.1 hk
      rfl
  | succ len ih =>
      cases k with
      | zero => simp [all]
      | succ k =>
          rw [List.range'_succ, all, List.getLast?_append]
          rcases hk.eq_or_lt with heq | hlt
          · obtain rfl := Nat.succ.inj heq
            rw [all_eq_nil (by simp), List.getLast?_map, ih (lo + 1) le_rfl]
            simp [List.range'_succ]
          · rw [ih (lo + 1) (Nat.le_of_lt_succ hlt), Option.some_or]
            congr 2
            omega

/-- The last naturals below `n` are followed by nothing. -/
theorem successor_range' {n lo k : ℕ} (hn : lo + k = n) : successor n (List.range' lo k) = none := by
  induction k generalizing lo with
  | zero => rfl
  | succ k ih =>
      rw [List.range'_succ, successor_cons_of_none (ih (by omega)), List.length_range', if_pos (by omega)]

/-- The step goes through the selections in order. -/
theorem isChain_all {n lo len : ℕ} (hn : lo + len = n) (k : ℕ) :
    (all k (List.range' lo len)).IsChain fun xs ys => successor n xs = some ys := by
  induction len generalizing k lo with
  | zero => cases k <;> simp [all]
  | succ len ih =>
      cases k with
      | zero => simp [all]
      | succ k =>
          rw [List.range'_succ, all]
          refine List.IsChain.append ?_ (ih (by omega) (k + 1)) ?_
          · exact (List.isChain_map _).2 ((ih (by omega) k).imp fun _ _ h => successor_cons_of_some h)
          · -- after the last selection with `lo` comes the first one without
            intro xs hxs ys hys
            have hlt : k + 1 ≤ len := le_of_mem_all (List.mem_of_head? hys)
            rw [List.getLast?_map, getLast?_all (lo + 1) (by omega)] at hxs
            rw [head?_all (lo + 1) hlt] at hys
            obtain rfl := Option.some.inj hxs
            obtain rfl := Option.some.inj hys
            rw [successor_cons_of_none (successor_range' (by omega)), List.length_range',
              if_neg (by omega)]

variable {m : Type → Type} [Monad m]

/-- One round of the search: what does not pass is followed by the selection after it, if any. -/
theorem find_succ {n : ℕ} {xs : List ℕ} (hxs : xs.length ≤ n) (test : List ℕ → m Bool) (fuel : ℕ) :
    find n test (fuel + 1) xs.toArray
      = test xs >>= fun passed => if passed = true then pure (some xs)
          else Option.elim (successor n xs) (pure none) fun ys => find n test fuel ys.toArray := by
  rw [find, next_toArray hxs]
  cases successor n xs <;> rfl

/-- A search along a list whose entries follow each other tests them one after the other. -/
theorem find_walk {n k : ℕ} (hk : k ≤ n) (test : List ℕ → m Bool) {xs : List ℕ}
    {rest : List (List ℕ)} (hlen : ∀ ys ∈ xs :: rest, ys.length = k)
    (hchain : (xs :: rest).IsChain fun xs ys => successor n xs = some ys)
    (hlast : ∀ ys ∈ (xs :: rest).getLast?, successor n ys = none) {fuel : ℕ}
    (hfuel : rest.length < fuel) :
    find n test fuel xs.toArray = (xs :: rest).findM? test := by
  induction rest generalizing xs fuel with
  | nil =>
      obtain ⟨fuel, rfl⟩ := Nat.exists_eq_add_one_of_ne_zero (Nat.ne_zero_of_lt hfuel)
      rw [find_succ ((hlen xs List.mem_cons_self).trans_le hk), hlast xs rfl, List.findM?]
      refine bind_congr fun passed => ?_
      cases passed <;> rfl
  | cons ys rest ih =>
      obtain ⟨fuel, rfl⟩ := Nat.exists_eq_add_one_of_ne_zero (Nat.ne_zero_of_lt hfuel)
      obtain ⟨hstep, hchain⟩ := List.isChain_cons_cons.1 hchain
      have hrest := ih (fun zs hzs => hlen zs (List.mem_cons_of_mem xs hzs)) hchain
        (fun zs hzs => hlast zs (by rwa [List.getLast?_cons_cons])) (Nat.lt_of_succ_lt_succ hfuel)
      rw [find_succ ((hlen xs List.mem_cons_self).trans_le hk), hstep, List.findM?]
      refine bind_congr fun passed => ?_
      cases passed with
      | false => exact hrest
      | true => rfl

/-- **The search from the first selection on** tests all of them in lexicographic order, each once,
until one passes. -/
theorem find_first {n k : ℕ} (hk : k ≤ n) (test : List ℕ → m Bool) {fuel : ℕ}
    (hfuel : n.choose k ≤ fuel) :
    find n test fuel (first k) = (all k (List.range n)).findM? test := by
  have hchain := isChain_all (Nat.zero_add n) k
  have hhead := head?_all 0 hk
  have hlast := getLast?_all 0 hk
  have hlength := length_all k (List.range' 0 n)
  have hlen (ys : List ℕ) (hys : ys ∈ all k (List.range' 0 n)) : ys.length = k := (mem_all.1 hys).2
  rw [List.range_eq_range']
  cases hall : all k (List.range' 0 n) with
  | nil =>
      rw [hall] at hhead
      cases hhead
  | cons xs rest =>
      rw [hall] at hchain hlast hhead hlength hlen
      have hfirst : first k = xs.toArray := by
        obtain rfl : xs = List.range' 0 k := Option.some.inj hhead
        rw [first, Array.range_eq_range', ← List.toArray_range']
      rw [List.length_cons, List.length_range'] at hlength
      rw [hfirst]
      refine find_walk hk test hlen hchain ?_ (by omega)
      intro ys hys
      rw [hlast] at hys
      obtain rfl := Option.some.inj hys
      exact successor_range' (by omega)

end UniversalAlgebra.Selection
