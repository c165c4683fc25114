/-
**Tuples in a box, in lexicographic order.**

A box is a list of half-open ranges, one for each coordinate.  Its tuples are listed in
lexicographic order, and a fold walks through them in that order without building the list, so
that it can end early in a box far too large to list.

The tuples over `[0, stop)` with a coordinate of at least `start` are the arguments that a closure
still owes once everything below `start` is settled.  They fall into one box for each position of
the first such coordinate, the pivot.

Main definitions:

* `Tuples.inBox`, `Tuples.volume`, `Tuples.foldBox` — the tuples of a box, their number, and the
  fold over them;
* `Tuples.freshBoxes`, `Tuples.fresh` — the tuples with a coordinate in the fresh range, pivot by
  pivot;
* `Tuples.firstTuples` — the first tuples of some boxes.

Main results:

* `Tuples.foldBox_eq_foldlM`, `Tuples.foldBoxes_eq_foldlM` — folding over boxes is folding over the
  lists of their tuples;
* `Tuples.length_inBox` — the number of tuples of a box is found without listing them.
-/

set_option autoImplicit false

namespace UniversalAlgebra

/-- A half-open range of naturals for each coordinate. -/
abbrev Box := List (Nat × Nat)

namespace Tuples

variable {τ ε : Type}

/-! ### The tuples of a box -/

/-- The tuples of a box in lexicographic order. -/
def inBox : Box → List (List Nat)
  | [] => [[]]
  | (lo, hi) :: rest => (List.range' lo (hi - lo)).flatMap fun i => (inBox rest).map (i :: ·)

/-- Whether a coordinate has no value, so that the box has no tuples. -/
def isVoid (box : Box) : Bool := box.any fun range => decide (range.2 ≤ range.1)

/-- The number of tuples of a box. -/
def volume (box : Box) : Nat := box.foldl (fun n range => n * (range.2 - range.1)) 1

theorem foldl_volume (box : Box) (n : Nat) :
    box.foldl (fun n range => n * (range.2 - range.1)) n = n * volume box := by
  induction box generalizing n with
  | nil => simp [volume]
  | cons range rest ih =>
      obtain ⟨lo, hi⟩ := range
      rw [volume, List.foldl_cons, List.foldl_cons, ih, ih (1 * (hi - lo)), Nat.one_mul,
        Nat.mul_assoc]

theorem volume_cons (lo hi : Nat) (rest : Box) :
    volume ((lo, hi) :: rest) = (hi - lo) * volume rest := by
  rw [volume, List.foldl_cons, foldl_volume, Nat.one_mul]

theorem length_inBox (box : Box) : (inBox box).length = volume box := by
  induction box with
  | nil => rfl
  | cons range rest ih =>
      obtain ⟨lo, hi⟩ := range
      simp [inBox, volume_cons, List.length_flatMap, ih, List.map_const']

theorem inBox_eq_nil_of_isVoid {box : Box} (h : isVoid box = true) : inBox box = [] := by
  induction box with
  | nil => simp [isVoid] at h
  | cons range rest ih =>
      obtain ⟨lo, hi⟩ := range
      simp only [isVoid, List.any_cons, Bool.or_eq_true, decide_eq_true_eq] at h
      rcases h with h | h
      · simp [inBox, Nat.sub_eq_zero_of_le h]
      · simp [inBox, ih h]

/-! ### Folding over a box -/

/-- Folds over `count` consecutive naturals from `lo` on, ending at the first error. -/
@[specialize] def foldRange (f : τ → Nat → Except ε τ) : (lo count : Nat) → τ → Except ε τ
  | _, 0, t => .ok t
  | lo, count + 1, t =>
      match f t lo with
      | .ok t' => foldRange f (lo + 1) count t'
      | .error e => .error e

/-- Folds over the tuples that begin with given coordinates, listed from the last to the first, and
go on inside a box.  A coordinate with a single value needs no loop. -/
@[specialize] def foldBelow (f : τ → List Nat → Except ε τ) :
    (box : Box) → (before : List Nat) → τ → Except ε τ
  | [], before, t => f t before.reverse
  | (lo, hi) :: rest, before, t =>
      if hi = lo + 1 then foldBelow f rest (lo :: before) t
      else foldRange (fun t i => foldBelow f rest (i :: before) t) lo (hi - lo) t

/-- Folds over the tuples of a box in lexicographic order, ending at the first error. -/
@[specialize] def foldBox (box : Box) (f : τ → List Nat → Except ε τ) (t : τ) : Except ε τ :=
  if isVoid box then .ok t else foldBelow f box [] t

/-- Folds over the tuples of several boxes, one box after the other. -/
@[specialize] def foldBoxes (boxes : List Box) (f : τ → List Nat → Except ε τ) (t : τ) :
    Except ε τ :=
  boxes.foldlM (fun t box => foldBox box f t) t

theorem foldRange_eq_foldlM (f : τ → Nat → Except ε τ) (lo count : Nat) (t : τ) :
    foldRange f lo count t = (List.range' lo count).foldlM f t := by
  induction count generalizing lo t with
  | zero => rfl
  | succ count ih =>
      rw [List.range'_succ, List.foldlM_cons, foldRange]
      cases f t lo with
      | ok t' => exact ih (lo + 1) t'
      | error e => rfl

/-- Folding over a concatenation is folding over its parts in turn. -/
theorem foldlM_flatMap_eq {α β : Type} (g : α → List β) (f : τ → β → Except ε τ) (xs : List α)
    (t : τ) :
    (xs.flatMap g).foldlM f t = xs.foldlM (fun t x => (g x).foldlM f t) t := by
  induction xs generalizing t with
  | nil => rfl
  | cons x xs ih =>
      rw [List.flatMap_cons, List.foldlM_append, List.foldlM_cons]
      congr 1
      funext t
      exact ih t

theorem foldBelow_eq_foldlM (f : τ → List Nat → Except ε τ) (box : Box) (before : List Nat)
    (t : τ) :
    foldBelow f box before t
      = (inBox box).foldlM (fun t xs => f t (before.reverse ++ xs)) t := by
  induction box generalizing before t with
  | nil => simp [foldBelow, inBox]
  | cons range rest ih =>
      obtain ⟨lo, hi⟩ := range
      have inner (i : Nat) (t : τ) :
          foldBelow f rest (i :: before) t
            = ((inBox rest).map (i :: ·)).foldlM (fun t xs => f t (before.reverse ++ xs)) t := by
        rw [ih, List.foldlM_map]
        simp
      rw [foldBelow, inBox, foldlM_flatMap_eq]
      split
      · next h => simp [h, inner]
      · rw [foldRange_eq_foldlM]
        congr 1
        funext t i
        exact inner i t

/-- Walking through a box is walking through the list of its tuples. -/
theorem foldBox_eq_foldlM (box : Box) (f : τ → List Nat → Except ε τ) (t : τ) :
    foldBox box f t = (inBox box).foldlM f t := by
  rw [foldBox]
  split
  · next h => rw [inBox_eq_nil_of_isVoid h]; rfl
  · rw [foldBelow_eq_foldlM]; rfl

theorem foldBoxes_eq_foldlM (boxes : List Box) (f : τ → List Nat → Except ε τ) (t : τ) :
    foldBoxes boxes f t = (boxes.flatMap inBox).foldlM f t := by
  rw [foldBoxes, foldlM_flatMap_eq]
  congr 1
  funext t box
  exact foldBox_eq_foldlM box f t

/-! ### Fresh tuples -/

/-- The box of the tuples whose first coordinate in `[start, stop)` is at position `pivot`; all
coordinates lie below `stop`. -/
def pivotBox (arity start stop pivot : Nat) : Box :=
  (List.range arity).map fun i =>
    if i < pivot then (0, start) else if i = pivot then (start, stop) else (0, stop)

/-- The positions at which the first coordinate in `[start, stop)` can be: none if the range is
empty, only the foremost if it holds everything below `stop`, and otherwise any. -/
def pivots (arity start stop : Nat) : List Nat :=
  if stop ≤ start then [] else if start = 0 then List.range (min arity 1) else List.range arity

/-- The boxes of the fresh tuples, by increasing pivot. -/
def freshBoxes (arity start stop : Nat) : List Box :=
  (pivots arity start stop).map (pivotBox arity start stop)

/-- The tuples over `[0, stop)` with a coordinate of at least `start`, grouped by the position of
the first such coordinate and in lexicographic order within each group. -/
def fresh (arity start stop : Nat) : List (List Nat) :=
  (freshBoxes arity start stop).flatMap inBox

/-- The number of fresh tuples. -/
def freshCount (arity start stop : Nat) : Nat :=
  (freshBoxes arity start stop).foldr (fun box count => volume box + count) 0

/-- The first `limit` tuples of some boxes. -/
def firstTuples (limit : Nat) (boxes : List Box) : List (List Nat) :=
  let visit (seen : Array (List Nat)) (t : List Nat) :
      Except (Array (List Nat)) (Array (List Nat)) :=
    if seen.size + 1 < limit then .ok (seen.push t) else .error (seen.push t)
  if limit = 0 then []
  else
    match foldBoxes boxes visit #[] with
    | .ok seen => seen.toList
    | .error seen => seen.toList

/-! ### Tests over all tuples -/

/-- Whether every tuple of the boxes passes the test.  Ends at the first tuple that fails it or
makes it raise an error. -/
@[specialize] def allInBoxes (boxes : List Box) (test : List Nat → Except ε Bool) :
    Except ε Bool :=
  let visit (_ : Unit) (t : List Nat) : Except (Option ε) Unit :=
    match test t with
    | .ok true => .ok ()
    | .ok false => .error none
    | .error e => .error (some e)
  match foldBoxes boxes visit () with
  | .ok () => .ok true
  | .error none => .ok false
  | .error (some e) => .error e

end Tuples

end UniversalAlgebra
