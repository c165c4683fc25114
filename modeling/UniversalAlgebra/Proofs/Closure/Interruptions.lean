/-
**Closing with a cap and an observer.**

A growing set or partition never asks to stop, and one of tuples does when its observer rejects a tuple.
So closing follows the run without a cap and with nobody looking on, up to the first item that is
rejected or one too many.

Main definitions:

* `SubpowerClosure.unobserved` — a closure with nobody looking on;
* `SubpowerClosure.asks` — what the observer says to a tuple after it was shown some others.

Main results:

* `SubuniverseClosure.close_cutShort`, `CongruenceClosure.close_cutShort`,
  `SubpowerClosure.close_cutShort` — each kind of closures;
* `SubpowerClosure.shown_of_runsTo` — what the observer is shown;
* `Closure.ends_at_first_cut` — **closing ends at the first cut**.
-/

import UniversalAlgebra.Proofs.Closure.Cuts

set_option autoImplicit false

namespace UniversalAlgebra

open Growth

open Closure

/-! ### Elements and pairs -/

namespace SubuniverseClosure

variable {A : Algebra}

theorem accept_ne_stop (s : SubuniverseClosure) (x : ℕ) (t : SubuniverseClosure) :
    accept s x ≠ .ok (.stop, t) := by
  change Except.ok (s.fold x) ≠ _
  rw [fold]
  split <;> simp

theorem freeing (hA : A.Total) : Freeing A.operations A.size (Faithful A.size)
    (fun s : SubuniverseClosure => s.elements.toList) id where
  alike := carries_id A.operations
  image_ok hs _ hop _ hargs := ⟨_, image_eq hA hs hop hargs⟩
  size_le hs := hs.size_le
  reacts {s} hs x hx := by
    obtain ⟨hlt, -⟩ := mem_of_isImage hA hs (T := Set.univ) (fun _ _ _ _ _ _ => trivial)
      (fun _ _ => trivial) hx
    cases hnew : s.contains x with
    | true => exact Or.inl (knows_iff.2 hnew)
    | false =>
        have haccept : accept s x = .ok (.added, (s.fold x).2) := by
          change Except.ok (s.fold x) = _
          simp [fold, hnew]
        have hitems : (s.fold x).2.elements.toList = s.elements.toList ++ [x] := by
          simp [fold, hnew]
        refine Or.inr ⟨x, (s.fold x).2, ⟨Or.inl haccept, hitems, hs.fold hlt⟩, rfl, haccept,
          extends_fold s x, ?_⟩
        rw [knows_iff, (hs.fold hlt).contains_iff, hs.mem_fold]
        exact Or.inr rfl

/-- Closing elements takes in those of the unbounded run up to the cap. -/
theorem close_cutShort (hA : A.Total) {s : SubuniverseClosure} (hs : s.Faithful A.size) (mark : ℕ) :
    ∃ e : SubuniverseClosure, e.Faithful A.size ∧ s.elements.toList <+: e.elements.toList ∧
      (∀ o, RunsTo A 0 mark s o → o = ⟨.ok .closed, e⟩) ∧
      ∀ cap o, RunsTo A cap mark s o → o.state.Faithful A.size ∧
        CutShort cap s.elements.size (fun _ _ => true) e.elements.toList (·.elements.toList) o :=
  (freeing hA).cutShort_of_ne_stop accept_ne_stop (fun _ => Array.length_toList) mark hs

end SubuniverseClosure

namespace CongruenceClosure

variable {A : Algebra} {n : ℕ}

theorem accept_ne_stop (s : CongruenceClosure) (p : ℕ × ℕ) (t : CongruenceClosure) :
    accept s p ≠ .ok (.stop, t) := by
  intro haccept
  obtain ⟨_, -, haccept⟩ := Fallible.bind_eq_ok.1 haccept
  obtain ⟨_, -, haccept⟩ := Fallible.bind_eq_ok.1 haccept
  rw [merge] at haccept
  split at haccept <;> cases haccept

/-- Merging the least elements of two blocks is merging the blocks. -/
theorem merge_rep {s : CongruenceClosure} (hs : s.Faithful n) (a b : ℕ) :
    s.merge (s.partition.rep a) (s.partition.rep b) = s.merge a b := by
  simp only [merge, Partition.relate, hs.valid.rep_rep_eq]

theorem freeing (hA : A.Total) : Freeing A.operations A.size (Faithful A.size)
    (fun s : CongruenceClosure => s.pairs.toList) id where
  alike := carries_id A.operations
  image_ok {s} hs op hop args hargs := by
    obtain ⟨index, before, after, rfl, ⟨-, hindex⟩, hlen, hlt⟩ := mem_drawn.1 hargs
    exact ⟨_, image_eq hA hs hop hindex hlen hlt⟩
  size_le hs := hs.size_le
  reacts {s} hs p hp := by
    obtain ⟨h₁, h₂, -⟩ := rel_of_isImage hA hs (Algebra.compatible_top A) le_top hp
    by_cases hknown : Knows s p
    · exact Or.inl hknown
    · rw [knows_iff hs h₁ h₂, Partition.setoid_iff] at hknown
      have haccept : accept s p = .ok (.added, (s.merge p.1 p.2).2) := by
        rw [accept_eq hs h₁ h₂, merge, if_neg hknown]
      -- what is recorded are the least elements of the two blocks
      have hsame : accept s (s.partition.rep p.1, s.partition.rep p.2) = accept s p := by
        rw [accept_eq hs (hs.size_eq ▸ hs.valid.rep_lt (hs.size_eq ▸ h₁))
          (hs.size_eq ▸ hs.valid.rep_lt (hs.size_eq ▸ h₂)), accept_eq hs h₁ h₂, merge_rep hs]
      have hitems : (s.merge p.1 p.2).2.pairs.toList
          = s.pairs.toList ++ [(s.partition.rep p.1, s.partition.rep p.2)] := by
        rw [merge, if_neg hknown, Array.toList_push]
      refine Or.inr ⟨_, (s.merge p.1 p.2).2,
        ⟨Or.inl (hsame.trans haccept), hitems, hs.merge h₁ h₂⟩, hsame, haccept,
        extends_merge hs h₁ h₂, ?_⟩
      rw [knows_iff (hs.merge h₁ h₂) h₁ h₂, partition_merge]
      exact (hs.valid.isLeast_relate (hs.size_eq ▸ h₁) (hs.size_eq ▸ h₂)).1.2

/-- Closing pairs takes in those of the unbounded run up to the cap. -/
theorem close_cutShort (hA : A.Total) {s : CongruenceClosure} (hs : s.Faithful A.size) (mark : ℕ) :
    ∃ e : CongruenceClosure, e.Faithful A.size ∧ s.pairs.toList <+: e.pairs.toList ∧
      (∀ o, RunsTo A 0 mark s o → o = ⟨.ok .closed, e⟩) ∧
      ∀ cap o, RunsTo A cap mark s o → o.state.Faithful A.size ∧
        CutShort cap s.pairs.size (fun _ _ => true) e.pairs.toList (·.pairs.toList) o :=
  (freeing hA).cutShort_of_ne_stop accept_ne_stop (fun _ => Array.length_toList) mark hs

end CongruenceClosure

/-! ### Tuples and those who look on -/

namespace SubpowerClosure

variable {τ : Type} {A : Algebra} {k : ℕ} {s : SubpowerClosure τ}

/-- The closure with nobody looking on. -/
def unobserved (s : SubpowerClosure τ) : SubpowerClosure Unit :=
  ⟨s.power, fun _ _ => (true, ()), (), s.members, s.tuples⟩

theorem Faithful.unobserved (hs : s.Faithful A k) : s.unobserved.Faithful A k :=
  ⟨hs.power_eq, hs.contains_iff, hs.mem_tuples, hs.nodup⟩

/-- Whether the observer lets a tuple pass after it was shown some others. -/
def asks (s : SubpowerClosure τ) (shown : List (List ℕ)) (t : List ℕ) : Bool :=
  (s.observe (shown.foldl (fun w u => (s.observe w u).2) s.observer) t).1

theorem consults : Consults (asks : SubpowerClosure τ → List (List ℕ) → List ℕ → Bool) where
  added {s t x} haccept := by
    rw [accept_eq] at haccept
    cases hnew : s.contains x <;> cases hgo : (s.observe s.observer x).1 <;>
      simp [hnew, hgo] at haccept
    subst haccept
    exact ⟨hgo, fun _ _ => rfl⟩
  stop {s t x} haccept := by
    rw [accept_eq] at haccept
    cases hnew : s.contains x <;> cases hgo : (s.observe s.observer x).1 <;>
      simp [hnew, hgo] at haccept
    exact hgo

theorem freeing (hA : A.Total) (observe : τ → List ℕ → Bool × τ) :
    Freeing A.operations A.size (fun s : SubpowerClosure τ => s.Faithful A k ∧ s.observe = observe)
      (·.tuples.toList) unobserved where
  alike := by
    refine ⟨fun _ => rfl, fun _ _ => rfl, fun _ _ _ _ => rfl, fun _ _ _ => rfl, ?_, fun h => h.elim⟩
    intro s t
    rw [knows_iff, knows_iff]
    rfl
  image_ok := by
    rintro s ⟨hs, -⟩ op hop args hargs
    exact ⟨_, image_eq hA hs hop hargs⟩
  size_le := by
    rintro s ⟨hs, -⟩
    rw [hs.capacity_eq]
    exact hs.size_le
  reacts := by
    rintro s ⟨hs, hobserve⟩ t ht
    have htuple : t ∈ A.tuples k :=
      (Within.mem_of_isImage (W := fun _ _ => True) hA
        (hA.isSubpower_tuples k).closedUnderColumns ⟨hs, hobserve, hs.mem_tuples, trivial⟩ ht).1
    cases hnew : s.contains t with
    | true => exact Or.inl (knows_iff.2 hnew)
    | false =>
        have hpush := hs.push htuple hnew (s.observe s.observer t).2
        refine Or.inr ⟨t, s.push t (s.observe s.observer t).2,
          ⟨?_, Array.toList_push, hpush, hobserve⟩, rfl, ?_, extends_push s t _, ?_⟩
        · rw [accept_eq, hnew]
          cases (s.observe s.observer t).1
          · exact Or.inr rfl
          · exact Or.inl rfl
        · have hnew' : s.unobserved.contains t = false := hnew
          rw [accept_eq, hnew']
          rfl
        · rw [knows_iff, hpush.contains_iff]
          exact Array.mem_push_self

/-- Closing tuples takes in those of the unbounded run with nobody looking on, up to the first that the
observer rejects or that is one too many. -/
theorem close_cutShort (hA : A.Total) (hs : s.Faithful A k) (mark : ℕ) :
    ∃ e : SubpowerClosure Unit, e.Faithful A k ∧ s.tuples.toList <+: e.tuples.toList ∧
      (∀ o, RunsTo A 0 mark s.unobserved o → o = ⟨.ok .closed, e⟩) ∧
      ∀ cap o, RunsTo A cap mark s o → (o.state.Faithful A k ∧ o.state.observe = s.observe) ∧
        CutShort cap s.tuples.size s.asks e.tuples.toList (·.tuples.toList) o := by
  obtain ⟨t, ht, hprefix, hrun, hcut⟩ := (freeing hA s.observe).cutShort consults
    (fun s => Array.length_toList) mark ⟨hs, rfl⟩
  refine ⟨t.unobserved, ht.1.unobserved, hprefix, hrun, fun cap o ho => ?_⟩
  obtain ⟨hcut, taken, htaken⟩ := hcut cap o ho
  exact ⟨htaken.inv ⟨hs, rfl⟩, hcut⟩

/-! What the observer is shown. -/

/-- A tuple that is taken in is shown to the observer. -/
theorem eq_push_of_takesIn {J : SubpowerClosure τ → Prop}
    {items : SubpowerClosure τ → List (List ℕ)} {u : SubpowerClosure τ} {t : List ℕ}
    (h : TakesIn J items s t u) : u = s.push t (s.observe s.observer t).2 := by
  have haccept := h.accept_eq
  rw [accept_eq] at haccept
  cases hnew : s.contains t with
  | true => simp [hnew] at haccept
  | false =>
      rw [hnew] at haccept
      rcases haccept with haccept | haccept
      · exact (congrArg Prod.snd (Except.ok.inj haccept)).symm
      · exact (congrArg Prod.snd (Except.ok.inj haccept)).symm

/-- The observer is shown each new tuple once, in the order in which they are taken in. -/
theorem shown_eq {observe : τ → List ℕ → Bool × τ} {items : SubpowerClosure _ → List (List ℕ)}
    {s u : SubpowerClosure (τ × List (List ℕ))} {taken : List (List ℕ)}
    (h : Grows (fun s => s.Faithful A k ∧ s.observe = record observe) items s taken u)
    (hs : s.observe = record observe) : u.observer.2 = s.observer.2 ++ taken := by
  induction h with
  | nil => simp
  | @cons s v u t ts first _ ih =>
      have hv : v.observer.2 = s.observer.2 ++ [t] := by
        rw [eq_push_of_takesIn first, hs]
        rfl
      rw [ih first.inv.2, hv, List.append_assoc, List.singleton_append]

/-- What was written down are the tuples that were taken in. -/
theorem shown_of_runsTo (hA : A.Total) (hs : s.Faithful A k) {cap mark : ℕ}
    {o : Outcome (SubpowerClosure (τ × List (List ℕ)))} (ho : RunsTo A cap mark s.recorded o) :
    o.state.observer.2 = o.state.tuples.toList.drop s.tuples.size := by
  obtain ⟨t, -, -, -, hcut⟩ := (freeing hA (record s.observe)).cutShort consults
    (fun s => Array.length_toList) mark ⟨hs.recorded, rfl⟩
  obtain ⟨-, taken, htaken⟩ := hcut cap o ho
  have hitems : o.state.tuples.toList = s.tuples.toList ++ taken := htaken.items_eq
  rw [shown_eq htaken rfl, hitems, List.drop_left' Array.length_toList]
  rfl

/-- Writing down what the observer is shown changes nothing else. -/
theorem runsTo_of_recorded (hA : A.Total) (hs : s.Faithful A k) {cap mark : ℕ}
    {o : Outcome (SubpowerClosure (τ × List (List ℕ)))} (ho : RunsTo A cap mark s.recorded o) :
    RunsTo A cap mark s (o.map (unrecorded s.observe)) := by
  obtain ⟨mode, rfl⟩ := ho.exists_mode
  rw [close_recorded hA hs]
  exact runsTo_close A mode cap mark s

/-- The observer is not shown the generators. -/
theorem observer_insertAll (s : SubpowerClosure τ) (ts : List (List ℕ)) :
    (s.insertAll ts).observer = s.observer := by
  induction ts generalizing s with
  | nil => rfl
  | cons t ts ih =>
      have hinsert : (s.insert t).observer = s.observer := by
        rw [insert]
        split <;> rfl
      exact (ih (s.insert t)).trans hinsert

end SubpowerClosure

/-- **Closing ends at the first cut.**  For each kind of closures, from every state and settled part, in
whichever mode and with whatever workers: without a cap and an observer, closing ends closed with one
sequence of items, which goes on with those that were there.  With them it ends at the first new item of
this sequence that the observer rejects, after it was shown the new ones before, or that is one more
than the cap allows; the items up to this one are what it leaves, and it ends stopped if the observer
rejects the item, and otherwise capped.  If there is no such item it ends closed with the whole sequence.
The observer is shown exactly the new items that are taken in, each once and in their order, and never a
generator. -/
theorem Closure.ends_at_first_cut {A : Algebra} (hA : A.Total) (mark : ℕ) :
    (∀ s : SubuniverseClosure, s.Faithful A.size →
      ∃ e : SubuniverseClosure, e.Faithful A.size ∧ s.elements.toList <+: e.elements.toList ∧
        (∀ o, RunsTo A 0 mark s o → o = ⟨.ok .closed, e⟩) ∧
        ∀ cap o, RunsTo A cap mark s o → o.state.Faithful A.size ∧
          CutShort cap s.elements.size (fun _ _ => true) e.elements.toList (·.elements.toList) o) ∧
    (∀ s : CongruenceClosure, s.Faithful A.size →
      ∃ e : CongruenceClosure, e.Faithful A.size ∧ s.pairs.toList <+: e.pairs.toList ∧
        (∀ o, RunsTo A 0 mark s o → o = ⟨.ok .closed, e⟩) ∧
        ∀ cap o, RunsTo A cap mark s o → o.state.Faithful A.size ∧
          CutShort cap s.pairs.size (fun _ _ => true) e.pairs.toList (·.pairs.toList) o) ∧
    ∀ (τ : Type) (k : ℕ) (s : SubpowerClosure τ), s.Faithful A k →
      ∃ e : SubpowerClosure Unit, e.Faithful A k ∧ s.tuples.toList <+: e.tuples.toList ∧
        (∀ o, RunsTo A 0 mark s.unobserved o → o = ⟨.ok .closed, e⟩) ∧
        (∀ cap o, RunsTo A cap mark s o → o.state.Faithful A k ∧
          CutShort cap s.tuples.size s.asks e.tuples.toList (·.tuples.toList) o) ∧
        (∀ cap o, RunsTo A cap mark s.recorded o →
          RunsTo A cap mark s (o.map (.unrecorded s.observe)) ∧
          o.state.observer.2 = o.state.tuples.toList.drop s.tuples.size) ∧
        ∀ ts, (s.recorded.insertAll ts).observer = s.recorded.observer := by
  refine ⟨?_, ?_, ?_⟩
  · exact fun s hs => SubuniverseClosure.close_cutShort hA hs mark
  · exact fun s hs => CongruenceClosure.close_cutShort hA hs mark
  · intro τ k s hs
    obtain ⟨e, he, hprefix, hrun, hcut⟩ := SubpowerClosure.close_cutShort hA hs mark
    refine ⟨e, he, hprefix, hrun, fun cap o ho => ?_, fun cap o ho => ?_, fun ts => ?_⟩
    · obtain ⟨⟨hfaithful, -⟩, hcut⟩ := hcut cap o ho
      exact ⟨hfaithful, hcut⟩
    · exact ⟨SubpowerClosure.runsTo_of_recorded hA hs ho, SubpowerClosure.shown_of_runsTo hA hs ho⟩
    · exact SubpowerClosure.observer_insertAll s.recorded ts

/-- In the residues modulo four one leads to two, three and zero, and the cap of two is exceeded at
three; the pair of zero and one leads to two further pairs, and the cap of one is exceeded at the first;
and if the third tuple is both rejected and one too many, closing ends stopped. -/
theorem Closure.cut_at_third_residuesModFour :
    (∀ o, RunsTo Algebra.residuesModFour 2 0 ((SubuniverseClosure.start 4).foldAll [1]) o →
      o.status = .ok .capped ∧ o.state.elements.toList = [1, 2, 3]) ∧
    (∀ o, RunsTo Algebra.residuesModFour 1 0 ((CongruenceClosure.start 4).foldAll [(0, 1)]) o →
      o.status = .ok .capped ∧ o.state.pairs.toList = [(0, 1), (0, 2)]) ∧
    ∀ o, RunsTo Algebra.residuesModFour 2 0
        ((SubpowerClosure.observed 2 (fun _ t => (t != [3, 2], ())) ()).insertAll [[1, 2]]) o →
      o.status = .ok .stopped ∧ o.state.tuples.toList = [[1, 2], [2, 0], [3, 2]] := by
  obtain ⟨hsets, hpairs, htuples⟩ := ends_at_first_cut Algebra.total_residuesModFour 0
  refine ⟨fun o ho => ?_, fun o ho => ?_, fun o ho => ?_⟩
  · have hone : ∀ x ∈ [1], x < 4 := by decide
    obtain ⟨hs, -⟩ := (SubuniverseClosure.faithful_start 4).foldAll hone
    obtain ⟨e, -, -, hrun, hcut⟩ := hsets _ hs
    have he : e.elements.toList = [1, 2, 3, 0] := by
      rw [← congrArg (fun o => o.state.elements.toList) (hrun _ (Or.inl rfl))]
      cbv
    have hsize : ((SubuniverseClosure.start 4).foldAll [1]).elements.size = 1 := by cbv
    obtain ⟨-, hcut⟩ := hcut 2 o ho
    rw [he, hsize] at hcut
    have hfirst : IsLeast (cuts 2 1 (fun _ _ => true) [1, 2, 3, 0]) 2 := by
      refine ⟨⟨by decide, by decide, Or.inr (by decide)⟩, ?_⟩
      rintro i ⟨-, -, ⟨x, -, hx⟩ | ⟨-, hi⟩⟩
      · cases hx
      · omega
    obtain ⟨hitems, -, hcapped⟩ := hcut.cut 2 hfirst
    exact ⟨hcapped (by rintro ⟨x, -, hx⟩; cases hx), hitems⟩
  · have hpair : ∀ p ∈ [(0, 1)], p.1 < 4 ∧ p.2 < 4 := by decide
    have hs := (CongruenceClosure.faithful_start 4).foldAll hpair
    obtain ⟨e, -, -, hrun, hcut⟩ := hpairs _ hs
    have he : e.pairs.toList = [(0, 1), (0, 2), (0, 3)] := by
      rw [← congrArg (fun o => o.state.pairs.toList) (hrun _ (Or.inl rfl))]
      cbv
    have hsize : ((CongruenceClosure.start 4).foldAll [(0, 1)]).pairs.size = 1 := by cbv
    obtain ⟨-, hcut⟩ := hcut 1 o ho
    rw [he, hsize] at hcut
    have hfirst : IsLeast (cuts 1 1 (fun _ _ => true) [(0, 1), (0, 2), (0, 3)]) 1 :=
      ⟨⟨by decide, by decide, Or.inr (by decide)⟩, fun i hi => hi.1⟩
    obtain ⟨hitems, -, hcapped⟩ := hcut.cut 1 hfirst
    exact ⟨hcapped (by rintro ⟨x, -, hx⟩; cases hx), hitems⟩
  · have htuple : ∀ t ∈ [[1, 2]], t ∈ Algebra.residuesModFour.tuples 2 := by
      simp [Algebra.tuples, Algebra.residuesModFour]
    obtain ⟨hs, hobserve, -⟩ := (SubpowerClosure.faithful_observed Algebra.residuesModFour 2
      (fun (_ : Unit) t => (t != [3, 2], ())) ()).insertAll htuple
    obtain ⟨e, -, -, hrun, hcut, -⟩ := htuples Unit 2 _ hs
    have he : e.tuples.toList = [[1, 2], [2, 0], [3, 2], [0, 0]] := by
      rw [← congrArg (fun o => o.state.tuples.toList) (hrun _ (Or.inl rfl))]
      cbv
    have hasks (shown : List (List ℕ)) (t : List ℕ) :
        ((SubpowerClosure.observed 2 (fun (_ : Unit) t => (t != [3, 2], ())) ()).insertAll
          [[1, 2]]).asks shown t = (t != [3, 2]) := by
      rw [SubpowerClosure.asks, hobserve]
      rfl
    have hsize : ((SubpowerClosure.observed 2 (fun (_ : Unit) t => (t != [3, 2], ())) ()).insertAll
        [[1, 2]]).tuples.size = 1 := by cbv
    obtain ⟨-, hcut⟩ := hcut 2 o ho
    rw [he, hsize, funext₂ hasks] at hcut
    have hrejected : RejectedAt (fun _ t => t != [3, 2]) 1 [[1, 2], [2, 0], [3, 2], [0, 0]] 2 :=
      ⟨[3, 2], rfl, by decide⟩
    have hfirst : IsLeast (cuts 2 1 (fun _ t => t != [3, 2]) [[1, 2], [2, 0], [3, 2], [0, 0]]) 2 := by
      refine ⟨⟨by decide, by decide, Or.inl hrejected⟩, ?_⟩
      rintro i ⟨hi, -, ⟨x, hx, hrejects⟩ | ⟨-, hi⟩⟩
      · by_contra hlt
        obtain rfl : i = 1 := by omega
        cases hx
        cases hrejects
      · omega
    obtain ⟨hitems, hstopped, -⟩ := hcut.cut 2 hfirst
    exact ⟨hstopped hrejected, hitems⟩

end UniversalAlgebra
