/-
**The members of a bit set.**

A natural below the dimension is a member exactly if its bit is set, and making it a member leaves
the others alone.  The list of the members strips the lowest bit of a word until none is left.

Main results:

* `BitSet.contains_iff` — membership is a bit of a word;
* `BitSet.contains_empty`, `BitSet.Fits.contains_insert` — the members after each step;
* `BitSet.Fits.ext` — the members determine the words;
* `BitSet.Fits.subset_iff` — inclusion, tested word by word;
* `BitSet.mem_toList` — the list of the members.
-/

import Mathlib
import UniversalAlgebra.BitSet

set_option autoImplicit false

namespace UniversalAlgebra.BitSet

variable {s : BitSet} {n i j : ℕ}

/-! ### Bits of a word -/

theorem toNat_position {k : ℕ} (hk : k < 64) : k.toUInt64.toNat % 64 = k := by
  have h : k.toUInt64.toNat = k := Nat.mod_eq_of_lt (by omega)
  rw [h, Nat.mod_eq_of_lt hk]

theorem shiftRight_and_one_iff {w : UInt64} {k : ℕ} (hk : k < 64) :
    ((w >>> k.toUInt64) &&& 1 == 1) = w.toNat.testBit k := by
  rw [Bool.eq_iff_iff, beq_iff_eq, ← UInt64.toNat_inj, UInt64.toNat_and, UInt64.toNat_shiftRight,
    toNat_position hk]
  change w.toNat >>> k &&& 1 = 1 ↔ _
  rw [Nat.testBit, Nat.and_comm, bne_iff_ne, Nat.one_and_eq_mod_two]
  omega

theorem toNat_mask (i : ℕ) : (mask i).toNat = 2 ^ (i % 64) := by
  have hi : i % 64 < 64 := Nat.mod_lt i (by decide)
  rw [mask, UInt64.toNat_shiftLeft, toNat_position hi, Nat.shiftLeft_eq]
  change 1 * 2 ^ (i % 64) % 2 ^ 64 = _
  rw [Nat.one_mul, Nat.mod_eq_of_lt (Nat.pow_lt_pow_right (by decide) hi)]

/-! ### Members -/

/-- Membership is a bit of a word. -/
theorem contains_iff (s : BitSet) (i : ℕ) :
    s.contains i = (s.words[i / 64]?.getD 0).toNat.testBit (i % 64) :=
  shiftRight_and_one_iff (Nat.mod_lt i (by decide))

@[simp] theorem contains_empty (n i : ℕ) : (empty n).contains i = false := by
  rw [contains_iff, empty, Array.getElem?_replicate]
  split <;> simp

/-- There are enough words for the dimension. -/
def Fits (n : ℕ) (s : BitSet) : Prop := s.words.size = wordCount n

theorem fits_empty (n : ℕ) : (empty n).Fits n := by simp [Fits, empty]

theorem Fits.insert (h : s.Fits n) (i : ℕ) : (s.insert i).Fits n := by
  simpa [Fits, BitSet.insert] using h

/-- Making a natural a member leaves the others alone. -/
theorem Fits.contains_insert (h : s.Fits n) (hi : i < n) (j : ℕ) :
    (s.insert i).contains j = (decide (j = i) || s.contains j) := by
  have hword : i / 64 < s.words.size := by
    rw [h, wordCount]
    omega
  rw [contains_iff, contains_iff, BitSet.insert, Array.getElem?_modify]
  by_cases hquot : i / 64 = j / 64
  · have hget : s.words[j / 64]? = some s.words[j / 64] := Array.getElem?_eq_getElem (hquot ▸ hword)
    rw [if_pos hquot, hget, Option.map_some, Option.getD_some, Option.getD_some, UInt64.toNat_or,
      Nat.testBit_or, toNat_mask, Nat.testBit_two_pow, Bool.or_comm]
    congr 2
    rw [eq_iff_iff]
    constructor <;> intro h <;> omega
  · have hne : j ≠ i := fun hji => hquot (by rw [hji])
    rw [if_neg hquot, decide_eq_false hne, Bool.false_or]

/-- What is a member stays one. -/
theorem contains_insert_of_contains (h : s.contains j = true) (i : ℕ) :
    (s.insert i).contains j = true := by
  rw [contains_iff] at h ⊢
  rw [BitSet.insert, Array.getElem?_modify]
  split
  · cases hword : s.words[j / 64]? with
    | none =>
        rw [hword] at h
        simp at h
    | some w =>
        rw [hword, Option.getD_some] at h
        rw [Option.map_some, Option.getD_some, UInt64.toNat_or, Nat.testBit_or, h, Bool.true_or]
  · exact h

/-- A word has sixty-four bits. -/
theorem testBit_eq_false_of_le (w : UInt64) {j : ℕ} (hj : 64 ≤ j) : w.toNat.testBit j = false :=
  Nat.testBit_lt_two_pow (w.toNat_lt.trans_le (Nat.pow_le_pow_right (by decide) hj))

theorem lt_of_testBit {w : UInt64} (h : w.toNat.testBit j = true) : j < 64 := by
  by_contra hge
  rw [testBit_eq_false_of_le w (Nat.not_lt.1 hge)] at h
  cases h

/-- The complement of a word has the bits that the word does not have. -/
theorem testBit_complement (w : UInt64) (hj : j < 64) :
    (~~~w).toNat.testBit j = !w.toNat.testBit j := by
  have hnot : (~~~w).toNat = 2 ^ 64 - (w.toNat + 1) := by
    rw [UInt64.toNat_not, UInt64.size]
    omega
  rw [hnot, Nat.testBit_two_pow_sub_succ w.toNat_lt, decide_eq_true hj, Bool.true_and]

/-- The naturals that a word holds. -/
theorem contains_mul_add (s : BitSet) (q : ℕ) (hj : j < 64) :
    s.contains (64 * q + j) = (s.words[q]?.getD 0).toNat.testBit j := by
  have hquot : (64 * q + j) / 64 = q := by omega
  have hrem : (64 * q + j) % 64 = j := by omega
  rw [contains_iff, hquot, hrem]

/-- Two bit sets for the same naturals that have the same members are equal. -/
theorem Fits.ext {t : BitSet} (hs : s.Fits n) (ht : t.Fits n) (hdim : s.dim = t.dim)
    (h : ∀ i, s.contains i = t.contains i) : s = t := by
  have hsize : s.words.size = t.words.size := hs.trans ht.symm
  have hwords : s.words = t.words := by
    refine Array.ext hsize fun q hq hq' => UInt64.toNat_inj.1 (Nat.eq_of_testBit_eq fun j => ?_)
    rcases Nat.lt_or_ge j 64 with hj | hj
    · have hbit := h (64 * q + j)
      rwa [s.contains_mul_add q hj, t.contains_mul_add q hj, Array.getElem?_eq_getElem hq,
        Array.getElem?_eq_getElem hq', Option.getD_some, Option.getD_some] at hbit
    · rw [testBit_eq_false_of_le _ hj, testBit_eq_false_of_le _ hj]
  cases s
  cases t
  cases hdim
  cases hwords
  rfl

/-! ### Inclusion -/

/-- A word lies within another one if each of its bits is a bit of the other. -/
theorem and_complement_eq_zero_iff (v w : UInt64) :
    v &&& ~~~w = 0 ↔ ∀ j, v.toNat.testBit j = true → w.toNat.testBit j = true := by
  rw [← UInt64.toNat_inj, UInt64.toNat_and]
  constructor
  · intro h j hv
    have hbit : (v.toNat &&& (~~~w).toNat).testBit j = false := by
      rw [h]
      exact Nat.zero_testBit j
    rw [Nat.testBit_and, hv, testBit_complement w (lt_of_testBit hv), Bool.true_and] at hbit
    simpa using hbit
  · intro h
    refine Nat.eq_of_testBit_eq fun j => ?_
    rcases Nat.lt_or_ge j 64 with hj | hj
    · rw [Nat.testBit_and, testBit_complement w hj]
      cases hv : v.toNat.testBit j with
      | false => simp
      | true => simp [h j hv]
    · simp [Nat.testBit_and, testBit_eq_false_of_le v hj]

/-- The test for inclusion, word by word, says whether every member is a member of the other set. -/
theorem Fits.subset_iff {t : BitSet} (hs : s.Fits n) (ht : t.Fits n) :
    s.subset t = true ↔ ∀ i, s.contains i = true → t.contains i = true := by
  have hsize : s.words.size = t.words.size := hs.trans ht.symm
  have hwords : s.subset t = true ↔
      ∀ q (h : q < s.words.size), s.words[q] &&& ~~~t.words[q] = 0 := by
    rw [subset, Array.all_eq_true]
    simp [hsize]
  rw [hwords]
  simp only [and_complement_eq_zero_iff]
  constructor
  · intro h i hi
    rw [contains_iff] at hi ⊢
    have hq : i / 64 < s.words.size := by
      by_contra hge
      simp [Array.getElem?_eq_none (Nat.not_lt.1 hge)] at hi
    rw [Array.getElem?_eq_getElem hq] at hi
    rw [Array.getElem?_eq_getElem (hsize ▸ hq)]
    exact h _ hq _ hi
  · intro h q hq j hj
    have hmem := h (64 * q + j)
    rw [s.contains_mul_add q (lt_of_testBit hj), t.contains_mul_add q (lt_of_testBit hj),
      Array.getElem?_eq_getElem hq, Array.getElem?_eq_getElem (hsize ▸ hq)] at hmem
    exact hmem hj

/-! ### The list of the members -/

/-- A number with a bit has a lowest one, which is what clearing the bits of the number before it
changes. -/
theorem exists_lowest {n : ℕ} (hn : n ≠ 0) : ∃ k, n.testBit k = true ∧
    (∀ j < k, n.testBit j = false) ∧
    ∀ j, (n &&& (n - 1)).testBit j = (n.testBit j && !decide (j = k)) := by
  obtain ⟨k, m, ⟨l, rfl⟩, rfl⟩ := Nat.exists_eq_two_pow_mul_odd hn
  have hpos : 0 < 2 ^ k := Nat.two_pow_pos k
  have hpred : 2 ^ k * (2 * l + 1) - 1 = 2 ^ k * (2 * l) + (2 ^ k - 1) := by
    rw [Nat.mul_succ]
    omega
  refine ⟨k, by simp [Nat.testBit_two_pow_mul], fun j hj => ?_, fun j => ?_⟩
  · simp [Nat.testBit_two_pow_mul, Nat.not_le.2 hj]
  rw [Nat.testBit_and, hpred, Nat.testBit_two_pow_mul_add _ (by omega), Nat.testBit_two_pow_mul]
  rcases Nat.lt_trichotomy j k with hlt | rfl | hlt
  · simp [Nat.not_le.2 hlt]
  · simp
  · -- above the lowest bit the two numbers agree
    obtain ⟨i, rfl⟩ := Nat.exists_eq_add_of_lt hlt
    have hsub : k + i + 1 - k = i + 1 := by omega
    have hne : k + i + 1 ≠ k := by omega
    have hhalf : (2 * l + 1) / 2 = l := by omega
    simp [hsub, hne, hhalf, Nat.not_lt.2 hlt.le, hlt.le, Nat.testBit_succ]

/-- Stripping a word removes the bit at whose position it differs from before, which is the lowest. -/
theorem testBit_stripLowest {w : UInt64} (hw : w ≠ 0) :
    w.toNat.testBit (w ^^^ stripLowest w).log2.toNat = true ∧
      (∀ j < (w ^^^ stripLowest w).log2.toNat, w.toNat.testBit j = false) ∧
      ∀ j, (stripLowest w).toNat.testBit j
        = (w.toNat.testBit j && !decide (j = (w ^^^ stripLowest w).log2.toNat)) := by
  have hne : w.toNat ≠ 0 := fun h => hw (UInt64.toNat_inj.1 (by simpa using h))
  have hstrip : (stripLowest w).toNat = w.toNat &&& (w.toNat - 1) := by
    have hsub : (w - 1).toNat = w.toNat - 1 :=
      UInt64.toNat_sub_of_le w 1 (by rw [UInt64.le_iff_toNat_le]; exact Nat.pos_of_ne_zero hne)
    rw [stripLowest, UInt64.toNat_and, hsub]
  obtain ⟨k, hk, hbelow, hlowest⟩ := exists_lowest hne
  have hxor : w.toNat ^^^ (stripLowest w).toNat = 2 ^ k := by
    refine Nat.eq_of_testBit_eq fun j => ?_
    rw [hstrip, Nat.testBit_xor, hlowest, Nat.testBit_two_pow]
    by_cases hj : j = k
    · subst hj
      simp [hk]
    · simp [hj, Ne.symm hj]
  have hlog : (w ^^^ stripLowest w).log2.toNat = k := by
    change (w ^^^ stripLowest w).toNat.log2 = k
    rw [UInt64.toNat_xor, hxor, Nat.log2_two_pow]
  rw [hlog, hstrip]
  exact ⟨hk, hbelow, hlowest⟩

/-- The positions of the bits of a word, raised by a base. -/
theorem mem_bitsOfWord {base : ℕ} {w : UInt64} :
    i ∈ bitsOfWord base w ↔ ∃ j, w.toNat.testBit j = true ∧ i = base + j := by
  fun_induction bitsOfWord base w with
  | case1 => simp
  | case2 w hw ih =>
      obtain ⟨hbit, -, hstrip⟩ := testBit_stripLowest hw
      rw [List.mem_cons, ih]
      constructor
      · rintro (rfl | ⟨j, hj, rfl⟩)
        · exact ⟨_, hbit, rfl⟩
        · rw [hstrip, Bool.and_eq_true] at hj
          exact ⟨j, hj.1, rfl⟩
      · rintro ⟨j, hj, rfl⟩
        by_cases hlowest : j = (w ^^^ stripLowest w).log2.toNat
        · exact Or.inl (by rw [hlowest])
        · exact Or.inr ⟨j, by simp [hstrip, hj, hlowest], rfl⟩

/-- The list of the members has what is a member. -/
theorem mem_toList (s : BitSet) (i : ℕ) : i ∈ s.toList ↔ s.contains i = true := by
  simp only [toList, List.mem_flatMap, Prod.exists, List.mem_zipIdx_iff_getElem?,
    Array.getElem?_toList, mem_bitsOfWord, contains_iff]
  constructor
  · rintro ⟨w, q, hword, j, hj, rfl⟩
    rw [← contains_iff, s.contains_mul_add q (lt_of_testBit hj), hword]
    exact hj
  · intro hbit
    cases hword : s.words[i / 64]? with
    | none => simp [hword] at hbit
    | some w =>
        rw [hword] at hbit
        exact ⟨w, i / 64, hword, i % 64, hbit, by omega⟩

end UniversalAlgebra.BitSet
