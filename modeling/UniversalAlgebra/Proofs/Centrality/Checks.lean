/-
**Checks that go on from one another.**

The state of a centrality condition keeps the first failure of each of three conditions.  A check starts
from what is known, and it stops early only when nothing more can be recorded.  So it does not matter
whether matrices are handed in at once or in several calls: what is known afterwards are the first
failures in the whole list.  An entry that is no element ends a check with an error, unless the check has
stopped before; what was found in the matrices before it stays.

Main definitions:

* `IsFirst` — the first entry of a list with a property;
* `Matrix4.Within` — all entries of a matrix are elements;
* `Centrality.Records` — the first failures in a list are what is known.

Main results:

* `Matrix4.relations_of_isFirst` — the first entry that is no element is named;
* `Centrality.search_append`, `Centrality.Records.search` — what a search adds to what is known;
* `Centrality.check_eq_error_iff` — **when a check fails, and what is known then**;
* `Centrality.checks_exact` — **calls one after the other are one call, and record first failures**.
-/

import UniversalAlgebra.Proofs.Centrality
import UniversalAlgebra.Proofs.Partition.Constructed

set_option autoImplicit false

namespace UniversalAlgebra

open Fallible

/-! ### First entries -/

section First

variable {α : Type} {P : α → Prop} {xs : List α}

/-- The first entry of a list with a property, if there is one. -/
def IsFirst (P : α → Prop) (xs : List α) : Option α → Prop
  | none => ∀ x ∈ xs, ¬P x
  | some x => ∃ before after, xs = before ++ x :: after ∧ P x ∧ ∀ y ∈ before, ¬P y

/-- A search finds the first entry that passes its test. -/
theorem isFirst_iff {test : α → Bool} {r : Option α} (h : ∀ x, test x = true ↔ P x) :
    IsFirst P xs r ↔ xs.find? test = r := by
  cases r with
  | none => simp only [IsFirst, List.find?_eq_none, h]
  | some x =>
      simp only [IsFirst, List.find?_eq_some_iff_append, h, Bool.not_eq_true', ← Bool.not_eq_true]
      constructor
      · rintro ⟨before, after, hxs, hx, hbefore⟩
        exact ⟨hx, before, after, hxs, hbefore⟩
      · rintro ⟨hx, before, after, hxs, hbefore⟩
        exact ⟨before, after, hxs, hx, hbefore⟩

/-- If not all entries lack a property, there is a first one with it. -/
theorem exists_isFirst (h : ¬∀ x ∈ xs, ¬P x) : ∃ x, IsFirst P xs (some x) := by
  classical
  cases hfind : xs.find? (P ·) with
  | none => exact absurd ((isFirst_iff fun x => decide_eq_true_iff).2 hfind) h
  | some x => exact ⟨x, (isFirst_iff fun x => decide_eq_true_iff).2 hfind⟩

end First

/-! ### Entries that are no elements -/

namespace Matrix4

variable {m : Matrix4} {delta : Partition} {n x : ℕ}

/-- All entries are elements. -/
def Within (n : ℕ) (m : Matrix4) : Prop := ∀ x ∈ m.toList, x < n

/-- The entries are looked at in the order in which they are listed, and the first that is no element is
named. -/
theorem relations_of_isFirst (h : IsFirst (¬· < delta.size) m.toList (some x)) :
    m.relations delta = .error (.elementOutOfRange x) := by
  obtain ⟨before, after, hlist, hx, hbefore⟩ := h
  simp only [not_not] at hbefore
  rw [toList] at hlist
  rcases before with _ | ⟨a, _ | ⟨b, _ | ⟨c, _ | ⟨d, before⟩⟩⟩⟩
  · obtain ⟨rfl, -⟩ := List.cons_eq_cons.1 hlist
    rw [relations, Partition.isRelated_of_left hx, error_bind]
  · simp only [List.cons_append, List.nil_append, List.cons.injEq] at hlist
    obtain ⟨rfl, rfl, -⟩ := hlist
    rw [relations, Partition.isRelated_of_right (hbefore _ (by simp)) hx, error_bind]
  · simp only [List.cons_append, List.nil_append, List.cons.injEq] at hlist
    obtain ⟨rfl, rfl, rfl, -⟩ := hlist
    rw [relations, Partition.isRelated_eq (hbefore _ (by simp)) (hbefore _ (by simp)), ok_bind,
      Partition.isRelated_of_right (hbefore _ (by simp)) hx, error_bind]
  · simp only [List.cons_append, List.nil_append, List.cons.injEq] at hlist
    obtain ⟨rfl, rfl, rfl, rfl, -⟩ := hlist
    rw [relations, Partition.isRelated_eq (hbefore _ (by simp)) (hbefore _ (by simp)), ok_bind,
      Partition.isRelated_eq (hbefore _ (by simp)) (hbefore _ (by simp)), ok_bind,
      Partition.isRelated_of_right (hbefore _ (by simp)) hx, error_bind]
  · simp at hlist

theorem exists_isFirst_of_not_within (h : ¬m.Within n) :
    ∃ x, IsFirst (¬· < n) m.toList (some x) :=
  exists_isFirst fun hall => h fun x hx => not_not.1 (hall x hx)

theorem not_within_of_isFirst (h : IsFirst (¬· < n) m.toList (some x)) : ¬m.Within n := by
  obtain ⟨before, after, hlist, hx, -⟩ := h
  exact fun hm => hx (hm x (hlist ▸ List.mem_append_right before List.mem_cons_self))

end Matrix4

namespace Centrality

variable {s s' : Centrality} {m : Matrix4} {xs ys ms before after known : List Matrix4}
  {fault : Fault} {failure : Centrality → Option Matrix4} {fails : EntryRelations → Bool}

/-! ### Searches in parts -/

theorem check_eq_ok_iff : check ms s = .ok () s' ↔ search ms s = (none, s') := by
  rw [check]
  cases search ms s with
  | mk r t => cases r <;> simp

theorem check_eq_error_iff_search :
    check ms s = .error fault s' ↔ search ms s = (some fault, s') := by
  rw [check]
  cases search ms s with
  | mk r t => cases r <;> simp

/-- A check among elements does not fail. -/
theorem check_eq_ok (hms : ∀ m ∈ ms, m.Within s.delta.size) :
    check ms s = .ok () (search ms s).2 :=
  check_eq_ok_iff.2 (Prod.ext (search_fst_eq_none hms) rfl)

theorem delta_search (ms : List Matrix4) (s : Centrality) : (search ms s).2.delta = s.delta :=
  (search_data ms s).2.2

theorem search_cons (hm : m.Within s.delta.size) :
    search (m :: ms) s
      = if (s.record m (m.entries s.delta)).isDecided then (none, s.record m (m.entries s.delta))
        else search ms (s.record m (m.entries s.delta)) := by
  simp only [search, relations_eq hm]

/-- Once everything has failed, nothing is recorded any more. -/
theorem record_of_isDecided (hs : s.isDecided = true) (m : Matrix4) (e : EntryRelations) :
    s.record m e = s := by
  simp only [isDecided, Bool.and_eq_true] at hs
  obtain ⟨⟨hcentrality, hweak⟩, hrectangular⟩ := hs
  simp [record, keepFirst_eq, Option.or_of_isSome, hcentrality, hweak, hrectangular]

theorem search_of_isDecided (hs : s.isDecided = true) (hms : ∀ m ∈ ms, m.Within s.delta.size) :
    (search ms s).2 = s := by
  cases ms with
  | nil => rfl
  | cons m ms => rw [search_cons (hms m List.mem_cons_self), record_of_isDecided hs, if_pos hs]

/-- **Two searches one after the other** are one. -/
theorem search_append (hxs : ∀ m ∈ xs, m.Within s.delta.size)
    (hys : ∀ m ∈ ys, m.Within s.delta.size) :
    (search (xs ++ ys) s).2 = (search ys (search xs s).2).2 := by
  induction xs generalizing s with
  | nil => rfl
  | cons m xs ih =>
      have hm := hxs m List.mem_cons_self
      rw [List.cons_append, search_cons hm, search_cons hm]
      by_cases hdecided : (s.record m (m.entries s.delta)).isDecided = true
      · -- the first search stops early, and the second one finds nothing to record
        rw [if_pos hdecided, if_pos hdecided, search_of_isDecided hdecided hys]
      · rw [if_neg hdecided, if_neg hdecided]
        exact ih (fun m' hm' => hxs m' (List.mem_cons_of_mem m hm')) hys

/-- A matrix that is not among the elements ends the search, unless it has ended before. -/
theorem search_append_cons (hbefore : ∀ m ∈ before, m.Within s.delta.size)
    (hm : m.relations s.delta = .error fault) :
    search (before ++ m :: after) s
      = if before = [] ∨ (search before s).2.isDecided = false
        then (some fault, (search before s).2) else (none, (search before s).2) := by
  induction before generalizing s with
  | nil => simp [search, hm]
  | cons m' before ih =>
      have hm' := hbefore m' List.mem_cons_self
      have hrest : ∀ m ∈ before, m.Within s.delta.size :=
        fun m hm => hbefore m (List.mem_cons_of_mem m' hm)
      rw [List.cons_append, search_cons hm', search_cons hm']
      by_cases hdecided : (s.record m' (m'.entries s.delta)).isDecided = true
      · simp [hdecided]
      · rw [Bool.not_eq_true] at hdecided
        have ih := ih (s := s.record m' (m'.entries s.delta)) hrest hm
        have hor : (before = [] ∨
            (search before (s.record m' (m'.entries s.delta))).2.isDecided = false) ↔
            (search before (s.record m' (m'.entries s.delta))).2.isDecided = false := by
          refine or_iff_right_of_imp ?_
          rintro rfl
          exact hdecided
        simp only [hor] at ih
        simp [hdecided, ih]

/-- **When a check fails**: a matrix has an entry that is no element, the matrices before it have none,
and the check has not stopped there.  The entry is named, and what is known then is what a check of the
matrices before leaves. -/
theorem check_eq_error_iff : check ms s = .error fault s' ↔
    ∃ before m after x, ms = before ++ m :: after ∧ (∀ m' ∈ before, m'.Within s.delta.size) ∧
      IsFirst (¬· < s.delta.size) m.toList (some x) ∧ fault = .elementOutOfRange x ∧
      check before s = .ok () s' ∧ (before = [] ∨ s'.isDecided = false) := by
  rw [check_eq_error_iff_search]
  constructor
  · intro h
    have hnot : ¬∀ m ∈ ms, ¬¬m.Within s.delta.size := by
      intro hms
      rw [Prod.ext_iff, search_fst_eq_none fun m hm => not_not.1 (hms m hm)] at h
      cases h.1
    obtain ⟨m, before, after, rfl, hm, hbefore⟩ := exists_isFirst hnot
    simp only [not_not] at hbefore
    obtain ⟨x, hx⟩ := Matrix4.exists_isFirst_of_not_within hm
    rw [search_append_cons hbefore (Matrix4.relations_of_isFirst hx)] at h
    split at h
    · next hopen =>
        cases h
        exact ⟨before, m, after, x, rfl, hbefore, hx, rfl, check_eq_ok hbefore, hopen⟩
    · cases h
  · rintro ⟨before, m, after, x, rfl, hbefore, hx, rfl, hcheck, hopen⟩
    rw [check_eq_ok hbefore] at hcheck
    cases hcheck
    rw [search_append_cons hbefore (Matrix4.relations_of_isFirst hx), if_pos hopen]

/-! ### What is known -/

/-- The first matrix that violates a condition, if there is one. -/
def FirstFailure (P : Setoid ℕ → ℕ → ℕ → ℕ → ℕ → Prop) (delta : Partition) (ms : List Matrix4) :
    Option Matrix4 → Prop :=
  IsFirst (fun m => ¬P delta.setoid m.a m.b m.c m.d) ms

/-- What is known of each condition is the first matrix in a list that violates it. -/
structure Records (s : Centrality) (ms : List Matrix4) : Prop where
  centrality : FirstFailure RowCondition s.delta ms s.centralityFailure
  weak : FirstFailure CornerCondition s.delta ms s.weakFailure
  rectangular : FirstFailure RectangularCondition s.delta ms s.rectangularFailure

/-- If the first failure among some matrices is known, a search takes the first failure among them and
the new ones. -/
theorem Tracks.firstFailure_search (h : Tracks failure fails)
    {P : Setoid ℕ → ℕ → ℕ → ℕ → ℕ → Prop}
    (hP : ∀ (delta : Partition) (m : Matrix4),
      fails (m.entries delta) = true ↔ ¬P delta.setoid m.a m.b m.c m.d)
    (hms : ∀ m ∈ ms, m.Within s.delta.size) (hs : FirstFailure P s.delta known (failure s)) :
    FirstFailure P (search ms s).2.delta (known ++ ms) (failure (search ms s).2) := by
  rw [FirstFailure, isFirst_iff (hP s.delta)] at hs
  rw [delta_search, FirstFailure, isFirst_iff (hP s.delta), h.search_eq hms, ← hs, List.find?_append]

theorem Records.search (h : s.Records known) (hms : ∀ m ∈ ms, m.Within s.delta.size) :
    (search ms s).2.Records (known ++ ms) where
  centrality := tracks_centrality.firstFailure_search Matrix4.failsCentrality_iff hms h.centrality
  weak := tracks_weak.firstFailure_search Matrix4.failsWeak_iff hms h.weak
  rectangular := tracks_rectangular.firstFailure_search Matrix4.failsRectangular_iff hms h.rectangular

theorem start_eq_ok {left right : Relation} {delta : Partition}
    (h : start left right delta = .ok s) : s = ⟨left, right, delta, none, none, none⟩ := by
  rw [start] at h
  split at h
  · cases h
    rfl
  · cases h

/-- At the start nothing is known, as no matrix was looked at. -/
theorem records_start {left right : Relation} {delta : Partition}
    (h : start left right delta = .ok s) : s.Records [] := by
  rw [start_eq_ok h]
  exact ⟨by simp [FirstFailure, IsFirst], by simp [FirstFailure, IsFirst],
    by simp [FirstFailure, IsFirst]⟩

/-! ### Calls one after the other -/

theorem bind_check (hxs : ∀ m ∈ xs, m.Within s.delta.size) (hys : ∀ m ∈ ys, m.Within s.delta.size) :
    (check xs >>= fun _ => check ys) s = check (xs ++ ys) s := by
  have hrest : ∀ m ∈ ys, m.Within (search xs s).2.delta.size := by
    rw [delta_search]
    exact hys
  rw [Query.bind_of_ok (check_eq_ok hxs), check_eq_ok hrest,
    check_eq_ok (List.forall_mem_append.2 ⟨hxs, hys⟩), search_append hxs hys]

theorem within_flatten {calls : List (List Matrix4)} {n : ℕ}
    (hcalls : ∀ ms ∈ calls, ∀ m ∈ ms, m.Within n) : ∀ m ∈ calls.flatten, m.Within n := by
  intro m hm
  obtain ⟨ms, hms, hm⟩ := List.mem_flatten.1 hm
  exact hcalls ms hms m hm

/-- Any number of calls are one. -/
theorem forM_check {calls : List (List Matrix4)}
    (hcalls : ∀ ms ∈ calls, ∀ m ∈ ms, m.Within s.delta.size) :
    forM calls check s = .ok ⟨⟩ (search calls.flatten s).2 := by
  induction calls generalizing s with
  | nil => rfl
  | cons ms calls ih =>
      have hms := hcalls ms List.mem_cons_self
      have hrest : ∀ ms ∈ calls, ∀ m ∈ ms, m.Within s.delta.size :=
        fun ms' hms' => hcalls ms' (List.mem_cons_of_mem ms hms')
      rw [List.flatten_cons, search_append hms (within_flatten hrest)]
      exact (Query.bind_of_ok (check_eq_ok hms)).trans (ih (by rwa [delta_search]))

/-- **Calls one after the other are one call, and record first failures.**  Among elements two checks one
after the other have the effect of one check of both lists.  From a fresh state any number of calls go
through and change neither the relations nor the partition, and what is known after them is, for each
condition, the first matrix of the whole list that violates it.  A check fails exactly if a matrix has
an entry that is no element and everything before it is among the elements and did not make the check
stop; this is an invalid input, and what is known then are the first failures among the matrices before
that one. -/
theorem checks_exact :
    (∀ (s : Centrality) (xs ys : List Matrix4), (∀ m ∈ xs, m.Within s.delta.size) →
      (∀ m ∈ ys, m.Within s.delta.size) →
        (do check xs; check ys) s = check (xs ++ ys) s ∧ ∃ s', check (xs ++ ys) s = .ok () s') ∧
    (∀ (left right : Relation) (delta : Partition) (s : Centrality) (calls : List (List Matrix4)),
      start left right delta = .ok s → (∀ ms ∈ calls, ∀ m ∈ ms, m.Within delta.size) →
        ∃ s', forM calls check s = .ok ⟨⟩ s' ∧ s'.left = left ∧ s'.right = right ∧
          s'.delta = delta ∧ s'.Records calls.flatten ∧
          ∀ ms fault s'', check ms s' = .error fault s'' → fault.kind = .invalidInput ∧
            ∃ before m after, ms = before ++ m :: after ∧
              (∀ m' ∈ before, m'.Within delta.size) ∧ ¬m.Within delta.size ∧
              s''.Records (calls.flatten ++ before)) ∧
    ∀ (s : Centrality) (ms : List Matrix4) (fault : Fault) (s' : Centrality),
      check ms s = .error fault s' ↔
        ∃ before m after x, ms = before ++ m :: after ∧ (∀ m' ∈ before, m'.Within s.delta.size) ∧
          IsFirst (¬· < s.delta.size) m.toList (some x) ∧ fault = .elementOutOfRange x ∧
          check before s = .ok () s' ∧ (before = [] ∨ s'.isDecided = false) := by
  refine ⟨fun s xs ys hxs hys => ?_, ?_, fun s ms fault s' => check_eq_error_iff⟩
  · exact ⟨bind_check hxs hys, _, check_eq_ok (List.forall_mem_append.2 ⟨hxs, hys⟩)⟩
  · intro left right delta s calls hstart hcalls
    have hrecords := records_start hstart
    obtain rfl := start_eq_ok hstart
    obtain ⟨hleft, hright, hdelta⟩ :=
      search_data calls.flatten ⟨left, right, delta, none, none, none⟩
    have hrecords := hrecords.search (within_flatten hcalls)
    refine ⟨_, forM_check hcalls, hleft, hright, hdelta, hrecords, ?_⟩
    intro ms fault s'' hcheck
    obtain ⟨before, m, after, x, rfl, hbefore, hx, rfl, hrun, -⟩ := check_eq_error_iff.1 hcheck
    have hknown := hrecords.search hbefore
    rw [check_eq_ok hbefore] at hrun
    cases hrun
    rw [hdelta] at hbefore hx
    exact ⟨rfl, before, m, after, rfl, hbefore, Matrix4.not_within_of_isFirst hx, hknown⟩

/-- Modulo `|0 1|2|` a first call finds a matrix that fails for its columns only.  The next call finds
one that fails for its rows, and keeps the first one for rows and columns; then it comes to a matrix with
two entries that are no elements, and the first of them is named. -/
theorem checks_modulo_two_blocks : ∃ s s' s'' : Centrality,
    start (.identity 3) (.identity 3) ⟨#[0, 0, 2], 2⟩ = .ok s ∧
    forM [[⟨0, 2, 1, 0⟩], []] check s = .ok ⟨⟩ s' ∧
    (do check [⟨0, 2, 1, 0⟩]; check [⟨0, 1, 2, 0⟩]) s = check [⟨0, 2, 1, 0⟩, ⟨0, 1, 2, 0⟩] s ∧
    check [⟨0, 1, 2, 0⟩, ⟨0, 1, 7, 8⟩] s' = .error (.elementOutOfRange 7) s'' ∧
    s''.Records [⟨0, 2, 1, 0⟩, ⟨0, 1, 2, 0⟩] ∧
    s''.centralityFailure = some ⟨0, 1, 2, 0⟩ ∧ s''.weakFailure = none ∧
    s''.rectangularFailure = some ⟨0, 2, 1, 0⟩ := by
  obtain ⟨happend, hfresh, herror⟩ := checks_exact
  have hstart : start (.identity 3) (.identity 3) ⟨#[0, 0, 2], 2⟩
      = .ok ⟨.identity 3, .identity 3, ⟨#[0, 0, 2], 2⟩, none, none, none⟩ := rfl
  have hcolumns : ∀ m ∈ ([⟨0, 2, 1, 0⟩] : List Matrix4), m.Within 3 := by
    simp [Matrix4.Within, Matrix4.toList]
  have hrows : ∀ m ∈ ([⟨0, 1, 2, 0⟩] : List Matrix4), m.Within 3 := by
    simp [Matrix4.Within, Matrix4.toList]
  obtain ⟨s', hrun, -, -, -, -, hfault⟩ :=
    hfresh _ _ _ _ [[⟨0, 2, 1, 0⟩], []] hstart (by simpa [Partition.size] using hcolumns)
  obtain rfl := (EStateM.Result.ok.inj hrun).2
  have hcheck := (herror
    ⟨.identity 3, .identity 3, ⟨#[0, 0, 2], 2⟩, none, none, some ⟨0, 2, 1, 0⟩⟩
    [⟨0, 1, 2, 0⟩, ⟨0, 1, 7, 8⟩] (.elementOutOfRange 7)
    ⟨.identity 3, .identity 3, ⟨#[0, 0, 2], 2⟩, some ⟨0, 1, 2, 0⟩, none, some ⟨0, 2, 1, 0⟩⟩).2
      ⟨[⟨0, 1, 2, 0⟩], ⟨0, 1, 7, 8⟩, [], 7, rfl, hrows,
        ⟨[0, 1], [8], rfl, by simp [Partition.size], by simp [Partition.size]⟩, rfl, rfl, Or.inr rfl⟩
  obtain ⟨-, before, m, after, hsplit, -, hm, hknown⟩ := hfault _ _ _ hcheck
  refine ⟨_, _, _, hstart, hrun, (happend _ [_] [_] hcolumns hrows).1, hcheck, ?_, rfl, rfl, rfl⟩
  -- the matrix with the fault is the second one, as the entries of the first one are elements
  rcases before with _ | ⟨m', _ | ⟨m'', before⟩⟩
  · cases hsplit
    exact absurd (hrows _ (by simp)) hm
  · cases hsplit
    exact hknown
  · simp at hsplit

end Centrality

end UniversalAlgebra
