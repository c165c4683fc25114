/-
**Bit sets, word by word.**

Unions, intersections and the set of all naturals below the dimension are made word by word, and a list
of the members is read off bit by bit.  On bit sets for the same naturals all this is right as long as no
bit beyond the dimension is set, and no operation sets one.

Main definitions:

* `BitSet.Over` — a bit set for the naturals below a bound.

Main results:

* `BitSet.Fits.contains_remove`, `BitSet.Fits.contains_union`, `BitSet.Fits.contains_inter`,
  `BitSet.Over.contains_insertAll` — the members after each operation;
* `BitSet.pairwise_toList` — the members are listed once, in increasing order;
* `BitSet.count_eq_length` — and counted.
-/

import UniversalAlgebra.Proofs.BitSet

set_option autoImplicit false

namespace UniversalAlgebra.BitSet

variable {s t : BitSet} {n i j : ℕ}

/-- A bit set for the naturals below `n`: it has the words for them, and no bit beyond is set. -/
structure Over (n : ℕ) (s : BitSet) : Prop where
  dim_eq : s.dim = n
  fits : s.Fits n
  lt : ∀ i, s.contains i = true → i < n

theorem over_empty (n : ℕ) : (empty n).Over n := ⟨rfl, fits_empty n, by simp⟩

/-! ### Single members -/

theorem Over.insert (hs : s.Over n) (hi : i < n) : (s.insert i).Over n := by
  refine ⟨hs.dim_eq, hs.fits.insert i, fun j hj => ?_⟩
  rw [hs.fits.contains_insert hi, Bool.or_eq_true, decide_eq_true_eq] at hj
  rcases hj with rfl | hj
  · exact hi
  · exact hs.lt j hj

/-- Removing a natural leaves the others alone. -/
theorem contains_remove (s : BitSet) (i j : ℕ) :
    (s.remove i).contains j = (!decide (j = i) && s.contains j) := by
  rw [contains_iff, contains_iff, BitSet.remove, Array.getElem?_modify]
  by_cases hquot : i / 64 = j / 64
  · rw [if_pos hquot]
    cases s.words[j / 64]? with
    | none => simp
    | some w =>
        have hj : j % 64 < 64 := Nat.mod_lt j (by decide)
        have hposition : i % 64 = j % 64 ↔ j = i := by omega
        rw [Option.map_some, Option.getD_some, Option.getD_some, UInt64.toNat_and, Nat.testBit_and,
          testBit_complement _ hj, toNat_mask, Nat.testBit_two_pow, decide_eq_decide.2 hposition,
          Bool.and_comm]
  · have hne : j ≠ i := fun hji => hquot (by rw [hji])
    rw [if_neg hquot, decide_eq_false hne, Bool.not_false, Bool.true_and]

theorem Over.remove (hs : s.Over n) (i : ℕ) : (s.remove i).Over n := by
  refine ⟨hs.dim_eq, ?_, fun j hj => ?_⟩
  · rw [Fits, BitSet.remove, Array.size_modify, hs.fits]
  · rw [contains_remove, Bool.and_eq_true] at hj
    exact hs.lt j hj.2

/-! ### Two sets -/

/-- Words are combined in their places, and there is nothing beyond. -/
theorem getD_zipWith {f : UInt64 → UInt64 → UInt64} (hf : f 0 0 = 0) {v w : Array UInt64}
    (h : v.size = w.size) (q : ℕ) :
    (Array.zipWith f v w)[q]?.getD 0 = f (v[q]?.getD 0) (w[q]?.getD 0) := by
  rcases Nat.lt_or_ge q v.size with hq | hq
  · simp [hq, h ▸ hq]
  · have hq' : w.size ≤ q := h ▸ hq
    simp [hq, hq', hf]

theorem Fits.size_eq (hs : s.Fits n) (ht : t.Fits n) : s.words.size = t.words.size := hs.trans ht.symm

theorem Fits.contains_union (hs : s.Fits n) (ht : t.Fits n) (i : ℕ) :
    (s.union t).contains i = (s.contains i || t.contains i) := by
  rw [contains_iff, contains_iff, contains_iff, BitSet.union, getD_zipWith rfl (hs.size_eq ht),
    UInt64.toNat_or, Nat.testBit_or]

theorem Fits.contains_inter (hs : s.Fits n) (ht : t.Fits n) (i : ℕ) :
    (s.inter t).contains i = (s.contains i && t.contains i) := by
  rw [contains_iff, contains_iff, contains_iff, BitSet.inter, getD_zipWith rfl (hs.size_eq ht),
    UInt64.toNat_and, Nat.testBit_and]

theorem Over.union (hs : s.Over n) (ht : t.Over n) : (s.union t).Over n := by
  refine ⟨hs.dim_eq, ?_, fun i hi => ?_⟩
  · rw [Fits, BitSet.union, Array.size_zipWith, hs.fits, ht.fits, Nat.min_self]
  · rw [hs.fits.contains_union ht.fits, Bool.or_eq_true] at hi
    exact hi.elim (hs.lt i) (ht.lt i)

theorem Over.inter (hs : s.Over n) (ht : t.Over n) : (s.inter t).Over n := by
  refine ⟨hs.dim_eq, ?_, fun i hi => ?_⟩
  · rw [Fits, BitSet.inter, Array.size_zipWith, hs.fits, ht.fits, Nat.min_self]
  · rw [hs.fits.contains_inter ht.fits, Bool.and_eq_true] at hi
    exact hs.lt i hi.1

/-- The union of a set with others, one after the other. -/
theorem Over.foldl_union {α : Type} {f : α → BitSet} {xs : List α} (hs : s.Over n)
    (hf : ∀ x ∈ xs, (f x).Over n) : (xs.foldl (fun s x => s.union (f x)) s).Over n ∧
      ∀ i, (xs.foldl (fun s x => s.union (f x)) s).contains i = true ↔
        s.contains i = true ∨ ∃ x ∈ xs, (f x).contains i = true := by
  induction xs generalizing s with
  | nil => exact ⟨hs, by simp⟩
  | cons x xs ih =>
      obtain ⟨hx, hxs⟩ := List.forall_mem_cons.1 hf
      obtain ⟨hover, hmem⟩ := ih (hs.union hx) hxs
      refine ⟨hover, fun i => ?_⟩
      rw [List.foldl_cons, hmem, hs.fits.contains_union hx.fits, Bool.or_eq_true, or_assoc]
      simp

/-! ### All naturals below the dimension -/

/-- The bits of a word whose bits from position `k` on are cut off. -/
theorem testBit_lowBits {k : ℕ} (hk : 0 < k) (hk' : k < 64) (j : ℕ) :
    ((0xffffffffffffffff : UInt64) >>> (64 - k).toUInt64).toNat.testBit j = decide (j < k) := by
  have hfull : (0xffffffffffffffff : UInt64).toNat = 2 ^ 64 - 1 := rfl
  rw [UInt64.toNat_shiftRight, toNat_position (by omega), Nat.testBit_shiftRight, hfull,
    Nat.testBit_two_pow_sub_one, decide_eq_decide]
  omega

/-- The set of everything below the dimension has nothing else: the last word is trimmed. -/
theorem Over.contains_insertAll (hs : s.Over n) (i : ℕ) : s.insertAll.contains i = decide (i < n) := by
  have hsize : s.words.size = (n + 63) / 64 := hs.fits
  have hi : i % 64 < 64 := Nat.mod_lt i (by decide)
  have hfull : (0xffffffffffffffff : UInt64).toNat.testBit (i % 64) = true := by
    have h : (0xffffffffffffffff : UInt64).toNat = 2 ^ 64 - 1 := rfl
    rw [h, Nat.testBit_two_pow_sub_one, decide_eq_true hi]
  rw [contains_iff, insertAll, trimPadding, hs.dim_eq]
  rcases Nat.lt_or_ge (i / 64) s.words.size with hq | hq
  · split
    · -- all words are full
      rw [Array.getElem?_map, Array.getElem?_eq_getElem hq, Option.map_some, Option.getD_some, hfull,
        decide_eq_true (by omega)]
    · next hrem =>
        rw [Array.getElem?_modify, Array.getElem?_map, Array.getElem?_eq_getElem hq, Array.size_map]
        split
        · next hlast =>
            rw [Option.map_some, Option.map_some, Option.getD_some, UInt64.toNat_and, Nat.testBit_and,
              hfull, testBit_lowBits (by omega) (by omega), Bool.true_and, decide_eq_decide]
            omega
        · rw [Option.map_some, Option.getD_some, hfull, decide_eq_true (by omega)]
  · have hnone : s.words[i / 64]? = none := Array.getElem?_eq_none hq
    have hge : ¬ i < n := by omega
    split <;> simp [Array.getElem?_modify, hnone, hge]

theorem Over.insertAll (hs : s.Over n) : s.insertAll.Over n := by
  refine ⟨?_, ?_, fun i hi => ?_⟩
  · rw [BitSet.insertAll, trimPadding]
    split <;> exact hs.dim_eq
  · rw [Fits, BitSet.insertAll, trimPadding]
    have hsize : s.words.size = wordCount n := hs.fits
    split <;> simpa using hsize
  · rwa [hs.contains_insertAll, decide_eq_true_eq] at hi

/-! ### The list of the members -/

/-- The bits of a word are listed from the lowest one on. -/
theorem pairwise_bitsOfWord (base : ℕ) (w : UInt64) : (bitsOfWord base w).Pairwise (· < ·) := by
  fun_induction bitsOfWord base w with
  | case1 => exact .nil
  | case2 w hw ih =>
      obtain ⟨-, hbelow, hstrip⟩ := testBit_stripLowest hw
      refine List.pairwise_cons.2 ⟨fun i hi => ?_, ih⟩
      obtain ⟨j, hj, rfl⟩ := mem_bitsOfWord.1 hi
      rw [hstrip, Bool.and_eq_true, Bool.not_eq_true', decide_eq_false_iff_not] at hj
      have hge : ¬ j < (w ^^^ stripLowest w).log2.toNat := fun hlt => by simp [hbelow j hlt] at hj
      omega

/-- The members are listed once, in increasing order. -/
theorem pairwise_toList (s : BitSet) : s.toList.Pairwise (· < ·) := by
  refine List.pairwise_flatMap.2 ⟨fun p _ => pairwise_bitsOfWord _ _, ?_⟩
  have hpositions : (s.words.toList.zipIdx.map Prod.snd).Pairwise (· < ·) := by
    rw [List.zipIdx_map_snd]
    exact List.pairwise_lt_range'
  refine (List.pairwise_map.1 hpositions).imp fun {p q} hpq i hi j hj => ?_
  obtain ⟨i, hbit, rfl⟩ := mem_bitsOfWord.1 hi
  obtain ⟨j, -, rfl⟩ := mem_bitsOfWord.1 hj
  have hi := lt_of_testBit hbit
  omega

theorem length_bitsOfWord (base : ℕ) (w : UInt64) : (bitsOfWord base w).length = bitCount w := by
  fun_induction bitsOfWord base w with
  | case1 => simp [bitCount]
  | case2 w hw ih => rw [List.length_cons, ih, bitCount.eq_1 w, dif_neg hw]

/-- The members are counted word by word. -/
theorem count_eq_length (s : BitSet) : s.count = s.toList.length := by
  have hwords : s.words.toList.zipIdx.map (fun p => (bitsOfWord (64 * p.2) p.1).length)
      = s.words.toList.map bitCount := by
    simp only [length_bitsOfWord]
    rw [← List.zipIdx_map_fst 0 s.words.toList, List.map_map, List.zipIdx_map_fst]
    rfl
  rw [toList, List.length_flatMap, hwords, count, ← Array.foldl_toList, List.sum_eq_foldl,
    List.foldl_map]

end UniversalAlgebra.BitSet
