/-
**Closing sets of tuples.**

The hash set of a growing set of tuples and the list of what was discovered agree.  An observer is
described by what holds of its state and the tuples while it lets them pass, and by what holds when
it asks to stop; whatever it is, the tuples stay inside every closed set that has the generators,
and if nothing is fresh any more they are closed under the operations of positive arity.

Main definitions:

* `SubpowerClosure.Faithful` — the two views of the tuples agree;
* `Algebra.ClosedUnderColumns`, `Algebra.columnClosure` — closed under the operations of positive
  arity, column by column, and what they generate;
* `SubpowerClosure.Watched` — what an observer keeps to.

Main results:

* `SubpowerClosure.applyColumns_eq` — an operation is applied column by column;
* `SubpowerClosure.Faithful.insertAll` — taking in generators;
* `Algebra.isSubpower_columnClosure_iff` — when the nullary operations add nothing;
* `SubpowerClosure.close_spec` — what closing ends with;
* `SubpowerClosure.close_insertAll` — **closing generators yields exactly what they generate**,
  unless the observer asks to stop.
-/

import Mathlib
import UniversalAlgebra.Closure.Subpower
import UniversalAlgebra.Proofs.Algebra.Closed
import UniversalAlgebra.Proofs.Closure.Fresh

set_option autoImplicit false

namespace UniversalAlgebra

/-- A set of tuples that is closed under the operations of positive arity, applied column by column.
-/
def Algebra.ClosedUnderColumns (A : Algebra) (k : ℕ) (S : Set (List ℕ)) : Prop :=
  ∀ op ∈ A.operations, 0 < op.arity → ∀ rows : List (List ℕ), rows.length = op.arity →
    (∀ row ∈ rows, row ∈ S) → op.columns k rows ∈ S

theorem Algebra.IsSubpower.closedUnderColumns {A : Algebra} {k : ℕ} {S : Set (List ℕ)}
    (hS : A.IsSubpower k S) : A.ClosedUnderColumns k S := by
  intro op hop _ rows hlen hrows
  exact hS.columns_mem op hop rows hlen hrows

/-- A closed set with all constant tuples is closed under the nullary operations as well. -/
theorem Algebra.ClosedUnderColumns.isSubpower {A : Algebra} (hA : A.Total) {k : ℕ}
    {S : Set (List ℕ)} (hS : A.ClosedUnderColumns k S) (hsub : S ⊆ A.tuples k)
    (hdiagonal : ∀ x < A.size, List.replicate k x ∈ S) : A.IsSubpower k S := by
  refine ⟨hsub, ?_⟩
  intro op hop rows hlen hrows
  rcases Nat.eq_zero_or_pos op.arity with harity | hpositive
  · obtain rfl : rows = [] := List.eq_nil_of_length_eq_zero (hlen.trans harity)
    rw [Operation.columns_nil]
    exact hdiagonal _ (hA.value_lt hop hlen (by simp))
  · exact hS op hop hpositive rows hlen hrows

/-- The tuples whose selected coordinates form a tuple of a closed set are closed as well. -/
theorem Algebra.ClosedUnderColumns.select {A : Algebra} (hA : A.Total) {m : ℕ}
    {S : Set (List ℕ)} (hS : A.ClosedUnderColumns m S) (k : ℕ) (js : List ℕ)
    (hlen : js.length = m) (hlt : ∀ j ∈ js, j < k) :
    A.ClosedUnderColumns k {t | t ∈ A.tuples k ∧ (js.map fun j => t.getD j 0) ∈ S} := by
  intro op hop hpositive rows hrowslen hrows
  refine ⟨hA.columns_mem_tuples hop hrowslen fun row hrow => (hrows row hrow).1, ?_⟩
  rw [op.map_getD_columns rows hlt, hlen]
  refine hS op hop hpositive _ (by simpa using hrowslen) fun selected hselected => ?_
  obtain ⟨row, hrow, rfl⟩ := List.mem_map.1 hselected
  exact (hrows row hrow).2

/-- The tuples that the operations of positive arity generate from a set. -/
def Algebra.columnClosure (A : Algebra) (k : ℕ) (G : Set (List ℕ)) : Set (List ℕ) :=
  ⋂₀ {S | S ⊆ A.tuples k ∧ A.ClosedUnderColumns k S ∧ G ⊆ S}

namespace Algebra

variable {A : Algebra} {k : ℕ} {G : Set (List ℕ)}

/-- What the operations of positive arity generate is the least set that is closed under them. -/
theorem Total.isLeast_columnClosure (hA : A.Total) (hG : G ⊆ A.tuples k) :
    IsLeast {S | S ⊆ A.tuples k ∧ A.ClosedUnderColumns k S ∧ G ⊆ S} (A.columnClosure k G) := by
  refine ⟨⟨?_, ?_, fun t ht S hS => hS.2.2 ht⟩, fun S hS t ht => ht S hS⟩
  · intro t ht
    exact ht _ ⟨fun _ h => h, (hA.isSubpower_tuples k).closedUnderColumns, hG⟩
  · intro op hop hpositive rows hlen hrows S hS
    exact hS.2.1 op hop hpositive rows hlen fun row hrow => hrows row hrow S hS

/-- More tuples generate more. -/
theorem columnClosure_mono {H : Set (List ℕ)} (h : G ⊆ H) :
    A.columnClosure k G ⊆ A.columnClosure k H :=
  fun _ ht S hS => ht S ⟨hS.1, hS.2.1, h.trans hS.2.2⟩

/-- The nullary operations add nothing exactly if each of their values is there as a constant tuple.
-/
theorem isSubpower_columnClosure_iff (hA : A.Total) (hG : G ⊆ A.tuples k) :
    A.IsSubpower k (A.columnClosure k G) ↔
      ∀ c ∈ A.constants, List.replicate k c ∈ A.columnClosure k G := by
  obtain ⟨hsub, hclosed, -⟩ := (hA.isLeast_columnClosure hG).1
  constructor
  · intro h c hc
    obtain ⟨op, hop, harity, happly⟩ := (hA.mem_constants c).1 hc
    have hmem := h.columns_mem op hop [] harity.symm (by simp)
    rwa [Operation.columns_nil, Operation.value_eq_of_apply happly] at hmem
  · refine fun hconstants => ⟨hsub, fun op hop rows hlen hrows => ?_⟩
    rcases Nat.eq_zero_or_pos op.arity with harity | hpositive
    · obtain rfl : rows = [] := List.eq_nil_of_length_eq_zero (hlen.trans harity)
      rw [Operation.columns_nil]
      refine hconstants _ ((hA.mem_constants _).2 ⟨op, hop, harity, ?_⟩)
      exact hA.apply_eq hop hlen (by simp)
    · exact hclosed op hop hpositive rows hlen hrows

/-- What is closed under all operations is what they generate. -/
theorem columnClosure_eq_subpower (hA : A.Total) (hG : G ⊆ A.tuples k)
    (h : A.IsSubpower k (A.columnClosure k G)) : A.columnClosure k G = A.subpower k G := by
  obtain ⟨⟨hsubpower, hGsub⟩, hleast⟩ := hA.isLeast_subpower hG
  refine Set.Subset.antisymm ?_ (hleast ⟨h, (hA.isLeast_columnClosure hG).1.2.2⟩)
  exact (hA.isLeast_columnClosure hG).2
    ⟨hsubpower.subset_tuples, hsubpower.closedUnderColumns, hGsub⟩

end Algebra

namespace SubpowerClosure

open Closure Growth

variable {τ : Type} {A : Algebra} {k : ℕ} {s : SubpowerClosure τ}

/-! ### The tuples discovered so far -/

/-- The discovered tuples, each once, are those in the hash set. -/
structure Faithful (A : Algebra) (k : ℕ) (s : SubpowerClosure τ) : Prop where
  power_eq : s.power = k
  contains_iff : ∀ t, s.contains t = true ↔ t ∈ s.tuples
  mem_tuples : ∀ t ∈ s.tuples, t ∈ A.tuples k
  nodup : s.tuples.toList.Nodup

theorem faithful_observed (A : Algebra) (k : ℕ) (observe : τ → List ℕ → Bool × τ) (observer : τ) :
    (observed k observe observer).Faithful A k := by
  refine ⟨rfl, ?_, ?_, ?_⟩
  · intro t
    simp [observed, contains]
  · simp [observed]
  · simp [observed]

/-- There are not more tuples than there are at all. -/
theorem length_le_pow {ts : List (List ℕ)} (hts : ts.Nodup) (hmem : ∀ t ∈ ts, t ∈ A.tuples k) :
    ts.length ≤ A.size ^ k := by
  have hsub : ts ⊆ Tuples.inBox (List.replicate k (0, A.size)) := fun t ht =>
    Tuples.mem_inBox_replicate.2 (hmem t ht)
  have hle := (List.subperm_of_subset hts hsub).length_le
  rwa [Tuples.length_inBox, Tuples.volume_replicate] at hle

theorem Faithful.size_le (hs : s.Faithful A k) : s.tuples.size ≤ A.size ^ k := by
  simpa using length_le_pow hs.nodup fun t ht => hs.mem_tuples t (by simpa using ht)

theorem Faithful.capacity_eq (hs : s.Faithful A k) : capacity A.size s = A.size ^ k := by
  change A.size ^ s.power = _
  rw [hs.power_eq]

/-- The closure with a further tuple and some state of the observer. -/
def push (s : SubpowerClosure τ) (t : List ℕ) (observer : τ) : SubpowerClosure τ :=
  { s with observer := observer, members := s.members.insert t, tuples := s.tuples.push t }

theorem contains_push_iff (hs : ∀ u, s.contains u = true ↔ u ∈ s.tuples) (t : List ℕ) (observer : τ)
    (u : List ℕ) : (s.push t observer).contains u = true ↔ u ∈ (s.push t observer).tuples := by
  have h := hs u
  simp only [contains, SubpowerClosure.push] at h ⊢
  rw [Std.HashSet.contains_insert, Bool.or_eq_true, beq_iff_eq, h, Array.mem_push]
  rw [eq_comm, or_comm]

theorem nodup_push (hs : s.tuples.toList.Nodup) {t : List ℕ} (hfresh : t ∉ s.tuples) (observer : τ) :
    (s.push t observer).tuples.toList.Nodup := by
  change (s.tuples.push t).toList.Nodup
  rw [Array.toList_push, List.nodup_append]
  refine ⟨hs, List.nodup_singleton t, ?_⟩
  rintro u hu v hv rfl
  rw [List.mem_singleton.1 hv] at hu
  exact hfresh (by simpa using hu)

theorem Faithful.push (hs : s.Faithful A k) {t : List ℕ} (ht : t ∈ A.tuples k)
    (hnew : s.contains t = false) (observer : τ) : (s.push t observer).Faithful A k := by
  refine ⟨hs.power_eq, contains_push_iff hs.contains_iff t observer, ?_, nodup_push hs.nodup ?_ observer⟩
  · intro u hu
    rcases Array.mem_push.1 hu with hu | rfl
    · exact hs.mem_tuples u hu
    · exact ht
  · intro h
    simp [(hs.contains_iff t).2 h] at hnew

theorem Faithful.insert (hs : s.Faithful A k) {t : List ℕ} (ht : t ∈ A.tuples k) :
    (s.insert t).Faithful A k ∧ (s.insert t).observe = s.observe ∧
      (s.insert t).observer = s.observer ∧
      ∀ u, u ∈ (s.insert t).tuples ↔ u ∈ s.tuples ∨ u = t := by
  cases hnew : s.contains t with
  | true =>
      have hinsert : s.insert t = s := by simp [SubpowerClosure.insert, hnew]
      rw [hinsert]
      refine ⟨hs, rfl, rfl, ?_⟩
      intro u
      constructor
      · exact Or.inl
      · rintro (hu | rfl)
        · exact hu
        · exact (hs.contains_iff u).1 hnew
  | false =>
      have hinsert : s.insert t = s.push t s.observer := by
        simp [SubpowerClosure.insert, hnew, SubpowerClosure.push]
      rw [hinsert]
      refine ⟨hs.push ht hnew s.observer, rfl, rfl, ?_⟩
      intro u
      exact Array.mem_push

/-- The generators of a list are taken in, and the observer is not told. -/
theorem Faithful.insertAll (hs : s.Faithful A k) {ts : List (List ℕ)}
    (hts : ∀ t ∈ ts, t ∈ A.tuples k) :
    (s.insertAll ts).Faithful A k ∧ (s.insertAll ts).observe = s.observe ∧
      (s.insertAll ts).observer = s.observer ∧
      ∀ u, u ∈ (s.insertAll ts).tuples ↔ u ∈ s.tuples ∨ u ∈ ts := by
  induction ts generalizing s with
  | nil => exact ⟨hs, rfl, rfl, by simp [SubpowerClosure.insertAll]⟩
  | cons t ts ih =>
      obtain ⟨hs', hobserve', hobserver', hmem'⟩ := hs.insert (hts t List.mem_cons_self)
      obtain ⟨hall, hobserve, hobserver, hmem⟩ :=
        ih hs' fun u hu => hts u (List.mem_cons_of_mem t hu)
      have hcons : s.insertAll (t :: ts) = (s.insert t).insertAll ts := rfl
      rw [hcons]
      refine ⟨hall, hobserve.trans hobserve', hobserver.trans hobserver', ?_⟩
      intro u
      rw [hmem, hmem', List.mem_cons, or_assoc]

/-! ### Arguments and images -/

instance : LawfulGrowth (SubpowerClosure τ) := lawfulGrowth_of_fresh fun _ _ _ _ => rfl

theorem mem_drawn {op : Operation} {start stop : ℕ} {args : List ℕ} :
    args ∈ drawn s op start stop ↔
      args.length = op.arity ∧ (∀ i ∈ args, i < stop) ∧ ∃ i ∈ args, start ≤ i :=
  mem_drawn_of_fresh rfl

/-- An operation is applied column by column. -/
theorem applyColumns_eq (hA : A.Total) {op : Operation} (hop : op ∈ A.operations)
    {rows : List (List ℕ)} (hlen : rows.length = op.arity) (hrows : ∀ row ∈ rows, row ∈ A.tuples k)
    (found : List ℕ) : applyColumns op found k rows = .ok (found.reverse ++ op.columns k rows) := by
  induction k generalizing rows found with
  | zero => simp [applyColumns, Operation.columns_zero]
  | succ k ih =>
      have hsplit : ∀ row ∈ rows, row.headD 0 < A.size ∧ row.tail ∈ A.tuples k := by
        intro row hrow
        obtain ⟨hlength, hlt⟩ := hrows row hrow
        cases row with
        | nil => simp at hlength
        | cons x xs =>
            refine ⟨hlt x List.mem_cons_self, by simpa using hlength, ?_⟩
            intro y hy
            exact hlt y (List.mem_cons_of_mem x hy)
      have hheads : ∀ x ∈ rows.map (·.headD 0), x < A.size := by
        intro x hx
        obtain ⟨row, hrow, rfl⟩ := List.mem_map.1 hx
        exact (hsplit row hrow).1
      have htails : ∀ row ∈ rows.map List.tail, row ∈ A.tuples k := by
        intro tail htail
        obtain ⟨row, hrow, rfl⟩ := List.mem_map.1 htail
        exact (hsplit row hrow).2
      rw [applyColumns, hA.apply_eq hop (by simpa using hlen) hheads, Operation.columns_succ]
      change applyColumns op (op.value (rows.map (·.headD 0)) :: found) k (rows.map List.tail) = _
      rw [ih (by simpa using hlen) htails]
      simp

/-- The discovered tuples with given numbers. -/
def tuplesAt (s : SubpowerClosure τ) (indices : List ℕ) : List (List ℕ) :=
  entriesAt s.tuples [] indices

theorem image_eq (hA : A.Total) (hs : s.Faithful A k) {op : Operation} (hop : op ∈ A.operations)
    {indices : List ℕ} (hargs : indices ∈ drawn s op 0 (size s)) :
    Growth.image s op indices = .ok (some (op.columns k (s.tuplesAt indices))) := by
  obtain ⟨hlen, hlt, -⟩ := mem_drawn.1 hargs
  have hrows : ∀ row ∈ s.tuplesAt indices, row ∈ A.tuples k := by
    intro row hrow
    exact hs.mem_tuples row (mem_of_mem_entriesAt hlt hrow)
  have hlength : (s.tuplesAt indices).length = op.arity := length_entriesAt.trans hlen
  have happly := applyColumns_eq hA hop hlength hrows []
  change some <$> applyColumns op [] s.power (s.tuplesAt indices) = _
  rw [hs.power_eq, happly]
  rfl

/-- Showing a tuple that is there changes nothing, and any other one is shown to the observer. -/
theorem accept_eq (s : SubpowerClosure τ) (t : List ℕ) :
    accept s t = .ok (if s.contains t then (.known, s)
      else (if (s.observe s.observer t).1 then .added else .stop,
        s.push t (s.observe s.observer t).2)) := rfl

theorem knows_iff {t : List ℕ} : Knows s t ↔ s.contains t = true := by
  rw [Knows, accept_eq]
  cases h : s.contains t with
  | true => simp
  | false => cases hgo : (s.observe s.observer t).1 <;> simp

/-- A further tuple leaves the numbers of the others alone. -/
theorem extends_push (s : SubpowerClosure τ) (t : List ℕ) (observer : τ) :
    Extends s (s.push t observer) where
  size_le := by
    change s.tuples.size ≤ (s.tuples.push t).size
    simp
  capacity_eq _ := rfl
  arguments_eq _ _ _ := rfl
  image_eq op indices hargs := by
    have hlt : ∀ i ∈ indices, i < s.tuples.size := (mem_drawn.1 hargs).2.1
    change some <$> applyColumns op [] s.power ((s.push t observer).tuplesAt indices)
      = some <$> applyColumns op [] s.power (s.tuplesAt indices)
    rw [tuplesAt, tuplesAt, SubpowerClosure.push, entriesAt_push hlt]
  knows u hu := by
    rw [knows_iff, contains] at hu ⊢
    rw [SubpowerClosure.push, Std.HashSet.contains_insert, hu, Bool.or_true]

/-! ### Closing under the eyes of an observer -/

/-- What an observer keeps to while tuples of a set `T` are shown to it: `W` holds of its state and
the tuples as long as it lets them pass, and `V` when it asks to stop. -/
structure Watched (observe : τ → List ℕ → Bool × τ) (T : Set (List ℕ))
    (W V : τ → Array (List ℕ) → Prop) : Prop where
  goOn : ∀ w ts t, W w ts → t ∈ T → (observe w t).1 = true → W (observe w t).2 (ts.push t)
  halt : ∀ w ts t, W w ts → t ∈ T → (observe w t).1 = false → V (observe w t).2 (ts.push t)

/-- The tuples stay inside a set `T`, and `W` holds of the observer and the tuples. -/
structure Within (A : Algebra) (k : ℕ) (observe : τ → List ℕ → Bool × τ) (T : Set (List ℕ))
    (W : τ → Array (List ℕ) → Prop) (s : SubpowerClosure τ) : Prop where
  faithful : s.Faithful A k
  observe_eq : s.observe = observe
  subset : ∀ t ∈ s.tuples, t ∈ T
  watch : W s.observer s.tuples

variable {observe : τ → List ℕ → Bool × τ} {T : Set (List ℕ)} {W V : τ → Array (List ℕ) → Prop}

/-- The images of discovered tuples lie in every closed set that has these. -/
theorem Within.mem_of_isImage (hA : A.Total) (hT : A.ClosedUnderColumns k T)
    (hs : Within A k observe T W s) {t : List ℕ} (ht : IsImage A.operations s t) :
    t ∈ A.tuples k ∧ t ∈ T := by
  obtain ⟨op, hop, indices, hargs, himage⟩ := ht
  rw [image_eq hA hs.faithful hop hargs] at himage
  obtain rfl : op.columns k (s.tuplesAt indices) = t := by simpa using himage
  obtain ⟨hlen, hlt, i, hi, -⟩ := mem_drawn.1 hargs
  have hrows : ∀ row ∈ s.tuplesAt indices, row ∈ s.tuples := by
    intro row hrow
    exact mem_of_mem_entriesAt hlt hrow
  have hlen' : (s.tuplesAt indices).length = op.arity := length_entriesAt.trans hlen
  have hpositive : 0 < op.arity := hlen ▸ List.length_pos_of_mem hi
  constructor
  · exact hA.columns_mem_tuples hop hlen' fun row hrow => hs.faithful.mem_tuples row (hrows row hrow)
  · exact hT op hop hpositive _ hlen' fun row hrow => hs.subset row (hrows row hrow)

/-- What showing a tuple of the set can lead to. -/
theorem Within.accepted (hW : Watched observe T W V) (hs : Within A k observe T W s) {t : List ℕ}
    (ht : t ∈ A.tuples k) (htT : t ∈ T) :
    Accepted (Within A k observe T W) (Within A k observe T V) s t := by
  cases hnew : s.contains t with
  | true => exact .known (knows_iff.2 hnew)
  | false =>
      have hfaithful := hs.faithful.push ht hnew (s.observe s.observer t).2
      have hsubset : ∀ u ∈ (s.push t (s.observe s.observer t).2).tuples, u ∈ T := by
        intro u hu
        rcases Array.mem_push.1 hu with hu | rfl
        · exact hs.subset u hu
        · exact htT
      have hobserve := hs.observe_eq
      cases hgo : (s.observe s.observer t).1 with
      | true =>
          refine .added (s.push t (s.observe s.observer t).2) ?_
            ⟨hfaithful, hobserve, hsubset, ?_⟩ (extends_push s t _) ?_
          · simp [accept_eq, hnew, hgo]
          · rw [hobserve] at hgo ⊢
            exact hW.goOn _ _ _ hs.watch htT hgo
          · rw [knows_iff, hfaithful.contains_iff]
            exact Array.mem_push_self
      | false =>
          refine .stop (s.push t (s.observe s.observer t).2) ?_ ⟨hfaithful, hobserve, hsubset, ?_⟩
          · simp [accept_eq, hnew, hgo]
          · rw [hobserve] at hgo ⊢
            exact hW.halt _ _ _ hs.watch htT hgo

theorem sustains (hA : A.Total) (hT : A.ClosedUnderColumns k T) (hW : Watched observe T W V) :
    Sustains A.operations A.size (Within A k observe T W) (Within A k observe T V) where
  image_ok := by
    intro s hs op hop indices hargs
    exact ⟨_, image_eq hA hs.faithful hop hargs⟩
  size_le := by
    intro s hs
    rw [hs.faithful.capacity_eq]
    exact hs.faithful.size_le
  accept_ok := by
    intro s hs t ht
    obtain ⟨htuple, htT⟩ := hs.mem_of_isImage hA hT ht
    exact hs.accepted hW htuple htT

/-- The tuples of a settled closure are closed under the operations of positive arity. -/
theorem closedUnderColumns_of_settled (hA : A.Total) (hs : s.Faithful A k)
    (hsettled : SettledBelow A.operations s (size s)) :
    A.ClosedUnderColumns k {t | t ∈ s.tuples} := by
  intro op hop hpositive rows hlen hrows
  obtain ⟨indices, hlt, rfl⟩ := exists_entriesAt [] hrows
  have hlen' : indices.length = op.arity := length_entriesAt.symm.trans hlen
  have hdrawn : indices ∈ drawn s op 0 (size s) := by
    obtain ⟨i, hi⟩ := List.exists_mem_of_length_pos (hlen' ▸ hpositive)
    exact mem_drawn.2 ⟨hlen', hlt, i, hi, Nat.zero_le i⟩
  have hknows := hsettled op hop indices hdrawn _ (image_eq hA hs hop hdrawn)
  exact (hs.contains_iff _).1 (knows_iff.1 hknows)

/-- **Closing without a cap** ends closed with a set that is closed under the operations of positive
arity, or at the request of the observer.  In both cases the tuples lie in every such set that has
what was there at first. -/
theorem close_spec (hA : A.Total) (mode : Mode) (hT : A.ClosedUnderColumns k T)
    (hW : Watched observe T W V) (hs : Within A k observe T W s) {mark : ℕ}
    (hsettled : SettledBelow A.operations s mark) :
    ∃ s', (close A mode 0 mark s = ⟨.ok .closed, s'⟩ ∧ Within A k observe T W s' ∧
        (∀ t ∈ s.tuples, t ∈ s'.tuples) ∧ A.ClosedUnderColumns k {t | t ∈ s'.tuples}) ∨
      (close A mode 0 mark s = ⟨.ok .stopped, s'⟩ ∧ Within A k observe T V s') := by
  obtain ⟨s', ⟨h, hreach, hsettled'⟩ | ⟨-, -, h0, -⟩ | ⟨h, hs'⟩⟩ :=
    Closure.close_spec 0 (sustains hA hT hW) mode hs hsettled
  · have hs' := hreach.inv.faithful
    refine ⟨s', Or.inl ⟨h, hreach.inv, ?_, closedUnderColumns_of_settled hA hs' hsettled'⟩⟩
    intro t ht
    have hknows : Knows s t := knows_iff.2 ((hs.faithful.contains_iff t).2 ht)
    exact (hs'.contains_iff t).1 (knows_iff.1 (hreach.extended.knows t hknows))
  · exact absurd rfl h0
  · exact ⟨s', Or.inr ⟨h, hs'⟩⟩

/-- **Closing generators that have all constant tuples** ends closed with exactly what they
generate, or at the request of the observer with a part of it. -/
theorem close_insertAll (hA : A.Total) (mode : Mode) {ts : List (List ℕ)}
    (hts : ∀ t ∈ ts, t ∈ A.tuples k) (hdiagonal : ∀ x < A.size, List.replicate k x ∈ ts)
    (hW : Watched observe (A.subpower k {t | t ∈ ts}) W V) (observer : τ)
    (hobserver : ∀ xs : Array (List ℕ), (∀ t ∈ xs, t ∈ ts) → W observer xs) :
    ∃ s', s'.Faithful A k ∧
      ((close A mode 0 0 ((observed k observe observer).insertAll ts) = ⟨.ok .closed, s'⟩ ∧
          (∀ t, t ∈ s'.tuples ↔ t ∈ A.subpower k {t | t ∈ ts}) ∧ W s'.observer s'.tuples) ∨
        (close A mode 0 0 ((observed k observe observer).insertAll ts) = ⟨.ok .stopped, s'⟩ ∧
          (∀ t ∈ s'.tuples, t ∈ A.subpower k {t | t ∈ ts}) ∧ V s'.observer s'.tuples)) := by
  obtain ⟨⟨hsubpower, hgenerators⟩, hleast⟩ := hA.isLeast_subpower (G := {t | t ∈ ts}) hts
  obtain ⟨hs, hobserve, hstate, hmem⟩ := (faithful_observed A k observe observer).insertAll hts
  have hinitial : ∀ t, t ∈ ((observed k observe observer).insertAll ts).tuples ↔ t ∈ ts := by
    intro t
    rw [hmem]
    simp [observed]
  have hwithin : Within A k observe (A.subpower k {t | t ∈ ts}) W
      ((observed k observe observer).insertAll ts) := by
    refine ⟨hs, hobserve, fun t ht => hgenerators ((hinitial t).1 ht), ?_⟩
    rw [hstate]
    exact hobserver _ fun t ht => (hinitial t).1 ht
  obtain ⟨s', ⟨hclose, hs', hkept, hclosed⟩ | ⟨hclose, hs'⟩⟩ :=
    close_spec hA mode hsubpower.closedUnderColumns hW hwithin (settledBelow_zero _ _)
  · have hin : ∀ t ∈ ts, t ∈ s'.tuples := fun t ht => hkept t ((hinitial t).2 ht)
    have hsub : A.IsSubpower k {t | t ∈ s'.tuples} :=
      hclosed.isSubpower hA hs'.faithful.mem_tuples fun x hx => hin _ (hdiagonal x hx)
    refine ⟨s', hs'.faithful, Or.inl ⟨hclose, ?_, hs'.watch⟩⟩
    intro t
    exact ⟨hs'.subset t, fun ht => hleast ⟨hsub, hin⟩ ht⟩
  · exact ⟨s', hs'.faithful, Or.inr ⟨hclose, hs'.subset, hs'.watch⟩⟩

end SubpowerClosure

end UniversalAlgebra
