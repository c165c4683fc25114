/-
**Initial segments of the naturals.**

Searches through the naturals below a bound that do not list them, so that a search can end early
below a bound far too large to count to.

Main definitions:

* `Below.find?` — the first natural below a bound that passes a test;
* `Below.all` — whether each natural below a bound passes a test;
* `Below.lowerBound` — where a test that only the first naturals pass begins to fail, by halving.

Main results:

* `Below.find?_eq`, `Below.all_eq` — both agree with the search through a list;
* `Below.lowerBound_eq` — the bound is the number of naturals that pass the test.
-/

set_option autoImplicit false

namespace UniversalAlgebra.Below

/-- The first of `count` consecutive naturals from `lo` on that passes a test. -/
@[specialize] def findFrom (test : Nat → Bool) : (lo count : Nat) → Option Nat
  | _, 0 => none
  | lo, count + 1 => if test lo then some lo else findFrom test (lo + 1) count

/-- The first natural below `n` that passes a test. -/
@[inline] def find? (n : Nat) (test : Nat → Bool) : Option Nat := findFrom test 0 n

/-- Whether each natural below `n` passes a test. -/
@[inline] def all (n : Nat) (test : Nat → Bool) : Bool := (find? n fun i => !test i).isNone

theorem findFrom_eq (test : Nat → Bool) (lo count : Nat) :
    findFrom test lo count = (List.range' lo count).find? test := by
  induction count generalizing lo with
  | zero => rfl
  | succ count ih =>
      rw [findFrom, List.range'_succ, List.find?_cons, ih]
      cases test lo <;> rfl

theorem find?_eq (n : Nat) (test : Nat → Bool) : find? n test = (List.range n).find? test := by
  rw [find?, findFrom_eq, List.range_eq_range']

theorem all_eq (n : Nat) (test : Nat → Bool) : all n test = (List.range n).all test := by
  rw [all, find?_eq, Bool.eq_iff_iff]
  simp

/-! ### Halving -/

/-- Where among `count` consecutive naturals from `lo` on a test that only the first of them pass begins
to fail.  The one in the middle is tested, and one half is left. -/
@[specialize] def boundFrom (test : Nat → Bool) (lo count : Nat) : Nat :=
  if count = 0 then lo
  else
    let half := count / 2
    if test (lo + half) then boundFrom test (lo + half + 1) (count - half - 1)
    else boundFrom test lo half
termination_by count

/-- Where a test begins to fail, among the naturals below `n`. -/
@[inline] def lowerBound (n : Nat) (test : Nat → Bool) : Nat := boundFrom test 0 n

theorem boundFrom_eq {test : Nat → Bool} {lo count k : Nat} (hlo : lo ≤ k) (hk : k ≤ lo + count)
    (htest : ∀ i, lo ≤ i → i < lo + count → (test i = true ↔ i < k)) :
    boundFrom test lo count = k := by
  fun_induction boundFrom test lo count with
  | case1 lo => omega
  | case2 lo count hcount half hmiddle ih =>
      have hlt : lo + half < k := (htest (lo + half) (by omega) (by omega)).1 hmiddle
      exact ih (by omega) (by omega) fun i hi hi' => htest i (by omega) (by omega)
  | case3 lo count hcount half hmiddle ih =>
      have hge : ¬ lo + half < k := fun h =>
        hmiddle ((htest (lo + half) (by omega) (by omega)).2 h)
      exact ih hlo (by omega) fun i hi hi' => htest i hi (by omega)

/-- **If just the first `k` naturals below `n` pass a test, its bound is `k`.** -/
theorem lowerBound_eq {n k : Nat} {test : Nat → Bool} (hk : k ≤ n)
    (htest : ∀ i < n, test i = true ↔ i < k) : lowerBound n test = k :=
  boundFrom_eq (Nat.zero_le k) (by omega) fun i _ hi => htest i (by omega)

end UniversalAlgebra.Below
