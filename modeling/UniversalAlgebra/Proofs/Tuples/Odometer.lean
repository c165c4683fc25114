/-
**The odometer over the fresh tuples.**

The fresh tuples are met one by one by counting up their last coordinate, with a carry to the one
before it.  The coordinates before the pivot run below `start`, the pivot itself from `start` on, and
those after it over everything below `stop`.  When the carry leaves the first coordinate the block of
this pivot is over and that of the next one begins, unless it is empty.

Main definitions:

* `Tuples.Odometer` — where the odometer stands;
* `Tuples.Odometer.advance`, `Tuples.Odometer.startBlock` — counting up, and a block that begins;
* `Tuples.odometer`, `Tuples.Odometer.start` — the walk, and the state in which it begins.

Main results:

* `Tuples.Odometer.passes_values`, `Tuples.Odometer.passes_box` — one coordinate, and all later ones, run
  through their values before one carries over;
* `Tuples.Odometer.visits_start` — the walk meets the fresh tuples and ends;
* `Tuples.odometer_exact` — which tuples these are, and in which order.
-/

import UniversalAlgebra.Proofs.Traversal
import UniversalAlgebra.Proofs.Tuples

set_option autoImplicit false

namespace UniversalAlgebra.Tuples

/-! ### The odometer -/

/-- Where the odometer stands. -/
structure Odometer where
  /-- The position of the first coordinate of at least `start`. -/
  pivot : ℕ
  /-- The coordinates. -/
  tuple : List ℕ

namespace Odometer

/-- The least value of a coordinate. -/
def lower (start pivot i : ℕ) : ℕ := if i = pivot then start else 0

/-- The bound of a coordinate. -/
def upper (start stop pivot i : ℕ) : ℕ := if i < pivot then start else stop

/-- Begins the block of a pivot with its least tuple.  Past the last block the pivot is `arity`. -/
def startBlock (arity start stop : ℕ) (o : Odometer) : Odometer :=
  if stop ≤ start then { o with pivot := arity }
  else if start = 0 ∧ 0 < o.pivot then { o with pivot := arity }
  else if o.pivot < arity then { o with tuple := (List.range arity).map (lower start o.pivot) }
  else o

/-- Counts up the last of the first `k` coordinates.  One that reaches its bound goes back to its least
value and the one before it is counted up; whether one was found is said beside the tuple. -/
def advance (start stop pivot : ℕ) : (k : ℕ) → List ℕ → Bool × List ℕ
  | 0, t => (false, t)
  | k + 1, t =>
      if t.getD k 0 + 1 < upper start stop pivot k then (true, t.set k (t.getD k 0 + 1))
      else advance start stop pivot k (t.set k (lower start pivot k))

/-- What follows once the coordinates are counted up: the next block if none was left to count. -/
def settle (arity start stop pivot : ℕ) (counted : Bool × List ℕ) : Odometer :=
  if counted.1 then ⟨pivot, counted.2⟩ else startBlock arity start stop ⟨pivot + 1, counted.2⟩

/-- The state in which the odometer begins. -/
def start (arity start stop : ℕ) : Odometer := startBlock arity start stop ⟨0, List.replicate arity 0⟩

end Odometer

/-- The odometer as an iterator. -/
def odometer (arity start stop : ℕ) : Iterator Odometer (List ℕ) where
  ok o := o.pivot < arity
  item o := o.tuple
  next o := Odometer.settle arity start stop o.pivot (Odometer.advance start stop o.pivot arity o.tuple)

namespace Odometer

variable {arity start stop pivot : ℕ}

/-! ### One block -/

/-- The ranges of the coordinates from `k` on, of which there are `m`. -/
def rangesFrom (start stop pivot k m : ℕ) : Box :=
  (List.range' k m).map fun i => (lower start pivot i, upper start stop pivot i)

/-- The least values of these coordinates. -/
def leastFrom (start pivot k m : ℕ) : List ℕ := (List.range' k m).map (lower start pivot)

theorem rangesFrom_zero : rangesFrom start stop pivot 0 arity = pivotBox arity start stop pivot := by
  rw [rangesFrom, pivotBox, List.range_eq_range']
  refine List.map_congr_left fun i _ => ?_
  rcases Nat.lt_trichotomy i pivot with h | h | h
  · simp [lower, upper, h, h.ne]
  · simp [lower, upper, h]
  · simp [lower, upper, h.ne', h.not_gt]

theorem advance_of_lt {k x : ℕ} {before after : List ℕ} (hk : before.length = k)
    (h : x + 1 < upper start stop pivot k) :
    advance start stop pivot (k + 1) (before ++ x :: after) = (true, before ++ (x + 1) :: after) := by
  subst hk
  simp [advance, h]

theorem advance_of_not_lt {k x : ℕ} {before after : List ℕ} (hk : before.length = k)
    (h : ¬ x + 1 < upper start stop pivot k) :
    advance start stop pivot (k + 1) (before ++ x :: after)
      = advance start stop pivot k (before ++ lower start pivot k :: after) := by
  subst hk
  simp [advance, h]

/-- If the later coordinates run through a box for every value of coordinate `k`, this coordinate runs
from any value up to its bound, and then the one before it is counted up. -/
theorem passes_values {k : ℕ} {before later : List ℕ} {box : Box} (hbefore : before.length = k)
    (hlater : ∀ x, (odometer arity start stop).Passes ⟨pivot, before ++ x :: later⟩
      ((inBox box).map fun t => before ++ x :: t)
      (settle arity start stop pivot (advance start stop pivot (k + 1) (before ++ x :: later))))
    (count x : ℕ) (hx : x + (count + 1) = upper start stop pivot k) :
    (odometer arity start stop).Passes ⟨pivot, before ++ x :: later⟩
      (((List.range' x (count + 1)).flatMap fun x => (inBox box).map (x :: ·)).map (before ++ ·))
      (settle arity start stop pivot
        (advance start stop pivot k (before ++ lower start pivot k :: later))) := by
  induction count generalizing x with
  | zero =>
      have hlast : ¬ x + 1 < upper start stop pivot k := by omega
      have hpass := hlater x
      rw [advance_of_not_lt hbefore hlast] at hpass
      simpa [List.map_map, Function.comp_def] using hpass
  | succ count ih =>
      have hnext : x + 1 < upper start stop pivot k := by omega
      have hpass := hlater x
      rw [advance_of_lt hbefore hnext] at hpass
      rw [List.range'_succ, List.flatMap_cons, List.map_append, List.map_map]
      exact hpass.append (ih (x + 1) (by omega))

/-- The coordinates from `k` on run through their box, and then the one before them is counted up. -/
theorem passes_box (hpivot : pivot < arity)
    (hrange : ∀ i < arity, lower start pivot i < upper start stop pivot i) (m k : ℕ) (hk : k + m = arity)
    (before : List ℕ) (hbefore : before.length = k) :
    (odometer arity start stop).Passes ⟨pivot, before ++ leastFrom start pivot k m⟩
      ((inBox (rangesFrom start stop pivot k m)).map (before ++ ·))
      (settle arity start stop pivot
        (advance start stop pivot k (before ++ leastFrom start pivot k m))) := by
  induction m generalizing k before with
  | zero =>
      obtain rfl : k = arity := hk
      exact .item (by simpa [odometer] using hpivot) (.here _)
  | succ m ih =>
      have hsplit : inBox (rangesFrom start stop pivot k (m + 1))
          = (List.range' (lower start pivot k) (upper start stop pivot k - lower start pivot k)).flatMap
            fun x => (inBox (rangesFrom start stop pivot (k + 1) m)).map (x :: ·) := by
        rw [rangesFrom, List.range'_succ, List.map_cons, inBox, rangesFrom]
      have hleast : leastFrom start pivot k (m + 1)
          = lower start pivot k :: leastFrom start pivot (k + 1) m := by
        rw [leastFrom, List.range'_succ, List.map_cons, leastFrom]
      have hlater (x : ℕ) := ih (k + 1) (by omega) (before ++ [x]) (by simp [hbefore])
      simp only [List.append_assoc, List.singleton_append] at hlater
      obtain ⟨count, hcount⟩ := Nat.exists_eq_add_of_lt (hrange k (by omega))
      have hwidth : upper start stop pivot k - lower start pivot k = count + 1 := by omega
      rw [hsplit, hwidth, hleast]
      exact passes_values hbefore hlater count (lower start pivot k) (by omega)

/-- The block of a pivot holds the tuples with this pivot, and the block of the next one follows. -/
theorem passes_block (hpivot : pivot < arity) (hstop : start < stop) (hzero : start = 0 → pivot = 0)
    (t : List ℕ) : ∃ t', (odometer arity start stop).Passes (startBlock arity start stop ⟨pivot, t⟩)
      (inBox (pivotBox arity start stop pivot)) (startBlock arity start stop ⟨pivot + 1, t'⟩) := by
  have hbegin : startBlock arity start stop ⟨pivot, t⟩ = ⟨pivot, leastFrom start pivot 0 arity⟩ := by
    have hempty : ¬ (start = 0 ∧ 0 < pivot) := by omega
    rw [startBlock, if_neg (Nat.not_le.2 hstop), if_neg hempty, if_pos hpivot, leastFrom,
      List.range_eq_range']
  have hrange (i : ℕ) (_ : i < arity) : lower start pivot i < upper start stop pivot i := by
    rw [lower, upper]
    split <;> split <;> omega
  have hpass := passes_box hpivot hrange arity 0 (Nat.zero_add arity) [] rfl
  rw [rangesFrom_zero] at hpass
  rw [hbegin]
  exact ⟨leastFrom start pivot 0 arity, by simpa [settle, advance] using hpass⟩

/-- With something settled, the blocks of all pivots from one on are met. -/
theorem visits_blocks (hstart : 0 < start) (hstop : start < stop) (m : ℕ) (hm : pivot + m = arity)
    (t : List ℕ) : (odometer arity start stop).Visits (startBlock arity start stop ⟨pivot, t⟩)
      ((List.range' pivot m).flatMap fun p => inBox (pivotBox arity start stop p)) := by
  induction m generalizing pivot t with
  | zero =>
      refine .ended ?_
      have hempty : ¬ (start = 0 ∧ 0 < pivot) := by omega
      have hpivot : ¬ pivot < arity := by omega
      rw [startBlock, if_neg (Nat.not_le.2 hstop), if_neg hempty, if_neg hpivot]
      simpa [odometer] using hpivot
  | succ m ih =>
      have hpivot : pivot < arity := by omega
      obtain ⟨t', hpass⟩ := passes_block hpivot hstop (by omega) t
      rw [List.range'_succ, List.flatMap_cons]
      exact hpass.visits (ih (by omega) t')

/-- The walk meets the fresh tuples and ends. -/
theorem visits_start (arity start stop : ℕ) :
    (odometer arity start stop).Visits (Odometer.start arity start stop) (fresh arity start stop) := by
  rw [fresh, freshBoxes, List.flatMap_map, pivots, Odometer.start]
  split
  · next hstop =>
      refine .ended ?_
      rw [startBlock, if_pos hstop]
      simp [odometer]
  · next hstop =>
      have hstop : start < stop := Nat.not_le.1 hstop
      split
      · next hzero =>
          subst hzero
          rcases Nat.eq_zero_or_pos arity with rfl | harity
          · exact .ended (by simp [odometer, startBlock, hstop.ne'])
          · -- the second block would be empty
            obtain ⟨t', hpass⟩ := passes_block harity hstop (fun _ => rfl) (List.replicate arity 0)
            have hended : (odometer arity 0 stop).Visits (startBlock arity 0 stop ⟨0 + 1, t'⟩) [] :=
              .ended (by simp [odometer, startBlock, hstop.ne'])
            have hone : min arity 1 = 1 := by omega
            rw [hone]
            simpa using hpass.visits hended
      · next hzero =>
          rw [List.range_eq_range']
          exact visits_blocks (Nat.pos_of_ne_zero hzero) hstop arity (Nat.zero_add arity) _

end Odometer

/-! ### The order of the fresh tuples -/

/-- The tuples of a box stand in lexicographic order. -/
theorem pairwise_inBox (box : Box) : (inBox box).Pairwise (· < ·) := by
  induction box with
  | nil => simp [inBox]
  | cons range rest ih =>
      have hcons (x : ℕ) : ((inBox rest).map (x :: ·)).Pairwise (· < ·) := by
        refine List.pairwise_map.2 (ih.imp fun {t u} htu => ?_)
        exact List.cons_lt_cons_iff.2 (.inr ⟨rfl, htu⟩)
      refine List.pairwise_flatMap.2 ⟨fun x _ => hcons x, ?_⟩
      refine List.Pairwise.imp (fun {x y} hxy t ht u hu => ?_) List.pairwise_lt_range'
      obtain ⟨t, -, rfl⟩ := List.mem_map.1 ht
      obtain ⟨u, -, rfl⟩ := List.mem_map.1 hu
      exact List.cons_lt_cons_iff.2 (.inl hxy)

/-- The pivot of a tuple is the position of its first coordinate of at least `start`. -/
theorem findIdx_of_mem_pivotBox {arity start stop pivot : ℕ} {t : List ℕ} (hpivot : pivot < arity)
    (ht : t ∈ inBox (pivotBox arity start stop pivot)) : t.findIdx (start ≤ ·) = pivot := by
  obtain ⟨hlen, h⟩ := mem_pivotBox.1 ht
  have hp : pivot < t.length := hlen ▸ hpivot
  refine (List.findIdx_eq hp).2 ⟨?_, fun i hi => ?_⟩
  · simpa using ((h pivot hp).2.1 rfl).1
  · simpa using (h i (hi.trans hp)).1 hi

/-- The fresh tuples are grouped by their pivots, and stand in lexicographic order within a group. -/
theorem pairwise_fresh (arity start stop : ℕ) : (fresh arity start stop).Pairwise fun t u =>
    t.findIdx (start ≤ ·) < u.findIdx (start ≤ ·) ∨
      t.findIdx (start ≤ ·) = u.findIdx (start ≤ ·) ∧ t < u := by
  have hpivots : (pivots arity start stop).Pairwise (· < ·) := by
    rw [pivots]
    split
    · exact .nil
    · split <;> exact List.pairwise_lt_range
  have hpivot {pivot : ℕ} {t : List ℕ} (hp : pivot ∈ pivots arity start stop)
      (ht : t ∈ inBox (pivotBox arity start stop pivot)) : t.findIdx (start ≤ ·) = pivot :=
    findIdx_of_mem_pivotBox (mem_pivots_iff.1 hp).2.1 ht
  rw [fresh, freshBoxes, List.flatMap_map]
  refine List.pairwise_flatMap.2 ⟨fun p hp => ?_, hpivots.imp_of_mem fun {p q} hp hq hpq t ht u hu => ?_⟩
  · refine (pairwise_inBox _).imp_of_mem fun {t u} ht hu htu => .inr ⟨?_, htu⟩
    rw [hpivot hp ht, hpivot hp hu]
  · left
    rwa [hpivot hp ht, hpivot hq hu]

/-- There is a fresh tuple as soon as there are a coordinate and a fresh value for it. -/
theorem fresh_eq_nil_iff {arity start stop : ℕ} :
    fresh arity start stop = [] ↔ arity = 0 ∨ stop ≤ start := by
  rw [List.eq_nil_iff_forall_not_mem]
  constructor
  · intro h
    by_contra hne
    obtain ⟨harity, hstop⟩ := not_or.1 hne
    refine h (List.replicate arity start) (mem_fresh.2 ⟨by simp, fun x hx => ?_, start, ?_, le_rfl⟩)
    · rw [List.eq_of_mem_replicate hx]
      exact Nat.not_le.1 hstop
    · exact List.mem_replicate.2 ⟨harity, rfl⟩
  · rintro h t ht
    obtain ⟨hlen, hlt, x, hx, hle⟩ := mem_fresh.1 ht
    have hpos : 0 < t.length := List.length_pos_of_mem hx
    have := hlt x hx
    omega

/-- **The odometer ends after it has met the fresh tuples**, which are the tuples over `[0, stop)` of the
given length with a coordinate of at least `start`, each once.  They are grouped by the position of the
first such coordinate and stand in lexicographic order within each group, and altogether in lexicographic
order if `start` is zero.  There are none exactly if there is no coordinate or nothing fresh. -/
theorem odometer_exact (arity start stop : ℕ) :
    (∀ ts, (odometer arity start stop).Visits (Odometer.start arity start stop) ts ↔
      ts = fresh arity start stop) ∧
    (∀ t, t ∈ fresh arity start stop ↔ t.length = arity ∧ (∀ x ∈ t, x < stop) ∧ ∃ x ∈ t, start ≤ x) ∧
    (fresh arity start stop).Nodup ∧
    ((fresh arity start stop).Pairwise fun t u =>
      t.findIdx (start ≤ ·) < u.findIdx (start ≤ ·) ∨
        t.findIdx (start ≤ ·) = u.findIdx (start ≤ ·) ∧ t < u) ∧
    (start = 0 → (fresh arity start stop).Pairwise (· < ·)) ∧
    (fresh arity start stop = [] ↔ arity = 0 ∨ stop ≤ start) := by
  refine ⟨(Odometer.visits_start arity start stop).iff_eq, fun t => mem_fresh, ?_,
    pairwise_fresh arity start stop, fun hzero => ?_, fresh_eq_nil_iff⟩
  · refine (pairwise_fresh arity start stop).imp fun {t u} h => ?_
    rintro rfl
    rcases h with h | h
    · exact h.false
    · exact lt_irrefl t h.2
  · subst hzero
    refine (pairwise_fresh arity 0 stop).imp_of_mem fun {t u} ht hu h => ?_
    have hzero (t : List ℕ) (ht : t ∈ fresh arity 0 stop) : t.findIdx (0 ≤ ·) = 0 := by
      obtain ⟨-, -, x, hx, -⟩ := mem_fresh.1 ht
      obtain ⟨y, t, rfl⟩ := List.exists_cons_of_ne_nil (List.ne_nil_of_mem hx)
      simp [List.findIdx_cons]
    rw [hzero t ht, hzero u hu] at h
    exact (h.resolve_left (Nat.lt_irrefl 0)).2

/-- With one fresh value below two, the pairs with pivot zero come before the one with pivot one; with
everything fresh the order is lexicographic. -/
theorem odometer_of_pairs :
    (odometer 2 1 2).Visits (Odometer.start 2 1 2) [[1, 0], [1, 1], [0, 1]] ∧
      (odometer 2 0 2).Visits (Odometer.start 2 0 2) [[0, 0], [0, 1], [1, 0], [1, 1]] ∧
      (fresh 2 0 2).Pairwise (· < ·) :=
  ⟨((odometer_exact 2 1 2).1 _).2 (by decide), ((odometer_exact 2 0 2).1 _).2 (by decide),
    (odometer_exact 2 0 2).2.2.2.2.1 rfl⟩

end UniversalAlgebra.Tuples
