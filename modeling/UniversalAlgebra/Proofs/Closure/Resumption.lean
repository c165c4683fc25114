/-
**Closing again and again.**

A caller may show items to a closure and close it in any order and as often as wanted, each time in
whichever mode and with any cap, and go on after closing was cut short.  Whatever was interrupted, what
was discovered lies inside the least closed set around the items that the caller has shown, and closing
that ends closed ends with this set.  The reason is that both sides of this are kept by every step: a
closed set contains what was discovered exactly if it contains what the caller has shown.

Main definitions:

* `Closure.Used` — what a closure may be in the hands of a caller;
* `SubuniverseClosure.Shown`, `CongruenceClosure.Shown`, `SubpowerClosure.Shown` — the ways to show an
  item to a closure;
* `Closure.Approximates` — showing an item adds it, and closing leads towards the least closed set.

Main results:

* `Closure.Used.le_iff` — **what was discovered is bounded as what the caller has shown is**;
* `SubuniverseClosure.resumes`, `CongruenceClosure.resumes`, `SubpowerClosure.resumes` — each kind of
  closures;
* `Closure.can_be_resumed` — **closing can be interrupted and resumed**.
-/

import UniversalAlgebra.Proofs.Closure.Interruptions
import UniversalAlgebra.Proofs.Closure.Marks

set_option autoImplicit false

namespace UniversalAlgebra

open Growth

namespace Closure

variable {σ ι α : Type} [Growth σ ι] [PartialOrder α] {A : Algebra} {shows : σ → ι → σ → Prop}

/-- What a closure may be in the hands of a caller who begins with `s₀`, shows it items in one of some
ways, and closes it, in whichever mode, with whatever workers and with any cap.  The list has the items
that the caller has shown. -/
inductive Used (A : Algebra) (shows : σ → ι → σ → Prop) (s₀ : σ) : List ι → σ → Prop
  | start : Used A shows s₀ [] s₀
  | shown {xs : List ι} {x : ι} {s t : σ} (before : Used A shows s₀ xs s) (h : shows s x t) :
      Used A shows s₀ (xs ++ [x]) t
  | closed {xs : List ι} {cap : ℕ} {s : σ} {o : Outcome σ} (before : Used A shows s₀ xs s)
      (h : RunsTo A cap 0 s o) : Used A shows s₀ xs o.state

/-- In states with `P`, showing an item adds it to the contents and nothing else, and closing leads from
the contents towards the least closed set around them, which it reaches if it ends closed. -/
structure Approximates (A : Algebra) (shows : σ → ι → σ → Prop) (P : σ → Prop) (contents : σ → α)
    (Closed : α → Prop) (Has : α → ι → Prop) : Prop where
  mono {T T' : α} {x : ι} (h : T ≤ T') (hx : Has T x) : Has T' x
  shown {s t : σ} {x : ι} (hs : P s) (h : shows s x t) :
    P t ∧ IsLeast {T | contents s ≤ T ∧ Has T x} (contents t)
  run {s : σ} (hs : P s) : ∃ c, IsLeast {T | Closed T ∧ contents s ≤ T} c ∧
    ∀ cap o, RunsTo A cap 0 s o → P o.state ∧ (∃ status, o.status = .ok status) ∧
      contents s ≤ contents o.state ∧ contents o.state ≤ c ∧
      (o.status = .ok .closed → contents o.state = c)

section Used

variable {P : σ → Prop} {contents : σ → α} {Closed : α → Prop} {Has : α → ι → Prop} {s₀ s : σ}
  {xs : List ι}

/-- **What was discovered is bounded as what the caller has shown is**, by closed sets at least. -/
theorem Used.le_iff (h : Approximates A shows P contents Closed Has) (hs₀ : P s₀)
    (hempty : ∀ T, contents s₀ ≤ T) (hused : Used A shows s₀ xs s) :
    P s ∧ (∀ x ∈ xs, Has (contents s) x) ∧
      ∀ T, Closed T → (contents s ≤ T ↔ ∀ x ∈ xs, Has T x) := by
  induction hused with
  | start => exact ⟨hs₀, by simp, fun T _ => iff_of_true (hempty T) (by simp)⟩
  | @shown xs x s t _ hshows ih =>
      obtain ⟨hs, hhas, hbound⟩ := ih
      obtain ⟨ht, ⟨hle, hx⟩, hleast⟩ := h.shown hs hshows
      refine ⟨ht, List.forall_mem_append.2 ⟨fun y hy => h.mono hle (hhas y hy), by simpa using hx⟩,
        fun T hT => ?_⟩
      rw [List.forall_mem_append, ← hbound T hT, List.forall_mem_singleton]
      exact ⟨fun hT => ⟨hle.trans hT, h.mono hT hx⟩, fun hT => hleast hT⟩
  | @closed xs cap s o _ hruns ih =>
      obtain ⟨hs, hhas, hbound⟩ := ih
      obtain ⟨c, ⟨-, hleast⟩, hruns'⟩ := h.run hs
      obtain ⟨ho, -, hkept, hinside, -⟩ := hruns' cap o hruns
      refine ⟨ho, fun x hx => h.mono hkept (hhas x hx), fun T hT => ?_⟩
      rw [← hbound T hT]
      exact ⟨hkept.trans, fun hle => hinside.trans (hleast ⟨hT, hle⟩)⟩

/-- Closing a closure that was used leads towards the least closed set around what the caller has
shown. -/
theorem Used.exists_isLeast (h : Approximates A shows P contents Closed Has) (hs₀ : P s₀)
    (hempty : ∀ T, contents s₀ ≤ T) (hused : Used A shows s₀ xs s) :
    P s ∧ ∃ c, IsLeast {T | Closed T ∧ ∀ x ∈ xs, Has T x} c ∧
      (∀ x ∈ xs, Has (contents s) x) ∧ contents s ≤ c ∧
      ∀ cap o, RunsTo A cap 0 s o → (∃ status, o.status = .ok status) ∧
        (o.status = .ok .closed → contents o.state = c) := by
  obtain ⟨hs, hhas, hbound⟩ := hused.le_iff h hs₀ hempty
  obtain ⟨c, hleast, hruns⟩ := h.run hs
  have hsame : {T | Closed T ∧ contents s ≤ T} = {T | Closed T ∧ ∀ x ∈ xs, Has T x} :=
    Set.ext fun T => and_congr_right (hbound T)
  refine ⟨hs, c, hsame ▸ hleast, hhas, hleast.1.2, fun cap o ho => ?_⟩
  obtain ⟨-, hstatus, -, -, hclosed⟩ := hruns cap o ho
  exact ⟨hstatus, hclosed⟩

end Used

/-- What was listed first is listed later. -/
theorem mem_of_listed {xs ys : Array ι} (h : xs.toList <+: ys.toList) {x : ι} (hx : x ∈ xs) : x ∈ ys :=
  Array.mem_toList_iff.1 (h.subset (Array.mem_toList_iff.2 hx))

end Closure

open Closure

/-! ### Elements -/

namespace SubuniverseClosure

variable {A : Algebra} {n : ℕ}

/-- An element is shown. -/
def Shown (n : ℕ) (s : SubuniverseClosure) (x : ℕ) (t : SubuniverseClosure) : Prop :=
  x < n ∧ t = (s.fold x).2

theorem approximates (hA : A.Total) :
    Approximates A (Shown A.size) (Faithful A.size) (fun s => {x | x ∈ s.elements}) A.ClosedUnder
      fun T x => x ∈ T where
  mono h hx := h hx
  shown := by
    rintro s t x hs ⟨hx, rfl⟩
    refine ⟨hs.fold hx, ⟨fun y hy => hs.mem_fold.2 (Or.inl hy), hs.mem_fold.2 (Or.inr rfl)⟩, ?_⟩
    rintro T ⟨hsub, hxT⟩ y hy
    rcases hs.mem_fold.1 hy with hy | rfl
    · exact hsub hy
    · exact hxT
  run {s} hs := by
    obtain ⟨e, he, hprefix, hrun, hcut⟩ := close_cutShort hA hs 0
    obtain ⟨e', hclose, -, hleast⟩ := close_isLeast hA .sequential hs (settledBelow_zero _ _)
    obtain rfl : e' = e := congrArg Outcome.state (hclose.symm.trans (hrun _ (Or.inl rfl)))
    refine ⟨_, hleast, fun cap o ho => ?_⟩
    obtain ⟨hstate, hcut⟩ := hcut cap o ho
    obtain ⟨hstatus, hkept, hinside, hclosed⟩ := hcut.between hprefix Array.length_toList
    refine ⟨hstate, hstatus, fun x hx => mem_of_listed hkept hx,
      fun x hx => mem_of_listed hinside hx, fun h => ?_⟩
    rw [Array.toList_inj.1 (hclosed h)]

/-- Closing elements that were shown and closed before leads to the least closed set around those that
were shown. -/
theorem resumes (hA : A.Total) {xs : List ℕ} {s : SubuniverseClosure}
    (hused : Used A (Shown A.size) (start A.size) xs s) :
    ∃ S, IsLeast {T | A.ClosedUnder T ∧ ∀ x ∈ xs, x ∈ T} S ∧
      (∀ x ∈ xs, x ∈ s.elements) ∧ (∀ x ∈ s.elements, x ∈ S) ∧
      ∀ cap o, RunsTo A cap 0 s o → (∃ status, o.status = .ok status) ∧
        (o.status = .ok .closed → {x | x ∈ o.state.elements} = S) ∧
        (cap = 0 → o.status = .ok .closed) := by
  obtain ⟨hs, S, hleast, hhas, hinside, hruns⟩ := hused.exists_isLeast (approximates hA)
    (faithful_start A.size) fun T x hx => by simp [start] at hx
  obtain ⟨e, -, -, hrun, -⟩ := close_cutShort hA hs 0
  refine ⟨S, hleast, hhas, hinside, fun cap o ho => ?_⟩
  obtain ⟨hstatus, hclosed⟩ := hruns cap o ho
  refine ⟨hstatus, hclosed, ?_⟩
  rintro rfl
  rw [hrun o ho]

end SubuniverseClosure

/-! ### Pairs -/

namespace CongruenceClosure

variable {A : Algebra} {n : ℕ} {s t : CongruenceClosure}

/-- A pair of elements is shown. -/
def Shown (n : ℕ) (s : CongruenceClosure) (p : ℕ × ℕ) (t : CongruenceClosure) : Prop :=
  (p.1 < n ∧ p.2 < n) ∧ ∃ reaction, s.fold p = .ok (reaction, t)

/-- At the start nothing is related. -/
theorem setoid_start_le (n : ℕ) (T : Setoid ℕ) : (start n).partition.setoid ≤ T := by
  rw [start, Partition.setoid_finest]
  exact bot_le

/-- Showing a pair does not fail, and merges the blocks of its elements. -/
theorem Faithful.shown_iff (hs : s.Faithful n) {p : ℕ × ℕ} :
    Shown n s p t ↔ (p.1 < n ∧ p.2 < n) ∧ t = (s.merge p.1 p.2).2 := by
  refine and_congr_right fun ⟨h₁, h₂⟩ => ?_
  rw [show s.fold p = .ok (s.merge p.1 p.2) from accept_eq hs h₁ h₂]
  constructor
  · rintro ⟨reaction, h⟩
    rw [Except.ok.inj h]
  · rintro rfl
    exact ⟨_, rfl⟩

/-- With more pairs more is related. -/
theorem Faithful.setoid_le (hs : s.Faithful n) (ht : t.Faithful n)
    (h : s.pairs.toList <+: t.pairs.toList) : s.partition.setoid ≤ t.partition.setoid :=
  hs.isLeast.2 fun _ hp => ht.isLeast.1 _ (mem_of_listed h hp)

theorem approximates (hA : A.Total) :
    Approximates A (Shown A.size) (Faithful A.size) (fun s => s.partition.setoid) A.Compatible
      fun (T : Setoid ℕ) p => T p.1 p.2 where
  mono h hp := h hp
  shown := by
    intro s t p hs hshown
    obtain ⟨⟨h₁, h₂⟩, rfl⟩ := hs.shown_iff.1 hshown
    refine ⟨hs.merge h₁ h₂, ?_⟩
    rw [partition_merge]
    exact hs.valid.isLeast_relate (hs.size_eq.symm ▸ h₁) (hs.size_eq.symm ▸ h₂)
  run {s} hs := by
    obtain ⟨e, he, hprefix, hrun, hcut⟩ := close_cutShort hA hs 0
    obtain ⟨e', hclose, hleast⟩ := close_isLeastCongruence hA hs .sequential (settledBelow_zero _ _)
    obtain rfl : e' = e := congrArg Outcome.state (hclose.symm.trans (hrun _ (Or.inl rfl)))
    refine ⟨_, hleast.isLeast, fun cap o ho => ?_⟩
    obtain ⟨hstate, hcut⟩ := hcut cap o ho
    obtain ⟨hstatus, hkept, hinside, hclosed⟩ := hcut.between hprefix Array.length_toList
    refine ⟨hstate, hstatus, hs.setoid_le hstate hkept, hstate.setoid_le he hinside, fun h => ?_⟩
    exact le_antisymm (hstate.setoid_le he hinside) (he.setoid_le hstate (hclosed h ▸ List.prefix_refl _))

/-- Closing pairs that were shown and closed before leads to the least congruence that relates those that
were shown. -/
theorem resumes (hA : A.Total) {ps : List (ℕ × ℕ)} (hused : Used A (Shown A.size) (start A.size) ps s) :
    ∃ q, A.IsLeastCongruence (fun x y => (x, y) ∈ ps) q ∧
      (∀ p ∈ ps, s.partition.setoid p.1 p.2) ∧ s.partition.setoid ≤ q.setoid ∧
      ∀ cap o, RunsTo A cap 0 s o → (∃ status, o.status = .ok status) ∧
        (o.status = .ok .closed → o.state.partition = q) ∧ (cap = 0 → o.status = .ok .closed) := by
  obtain ⟨hs, c, hleast, hhas, hinside, hruns⟩ := hused.exists_isLeast (approximates hA)
    (faithful_start A.size) (setoid_start_le A.size)
  obtain ⟨e, he, -, hrun, hcut⟩ := close_cutShort hA hs 0
  -- the partition with which closing without a cap ends
  obtain rfl : e.partition.setoid = c := by
    have ho := runsTo_close A .sequential 0 0 s
    have hclosed := (hruns 0 _ ho).2
    rw [hrun _ ho] at hclosed
    exact hclosed rfl
  refine ⟨e.partition, ⟨he.valid, he.size_eq, ?_⟩, hhas, hinside, fun cap o ho => ?_⟩
  · have hsame : {T | A.Compatible T ∧ ∀ p ∈ ps, T p.1 p.2} =
        {T | A.Compatible T ∧ ∀ x y, (x, y) ∈ ps → T x y} :=
      Set.ext fun T => and_congr_right fun _ => Prod.forall
    exact hsame ▸ hleast
  · obtain ⟨hstatus, hclosed⟩ := hruns cap o ho
    obtain ⟨hstate, -⟩ := hcut cap o ho
    refine ⟨hstatus, fun h => ?_, ?_⟩
    · exact hstate.valid.ext he.valid (hstate.size_eq.trans he.size_eq.symm) (hclosed h)
    · rintro rfl
      rw [hrun o ho]

end CongruenceClosure

/-! ### Tuples -/

namespace SubpowerClosure

variable {τ : Type} {A : Algebra} {k : ℕ}

/-- A tuple of elements is shown, as a generator or so that the observer sees it. -/
def Shown (A : Algebra) (k : ℕ) (s : SubpowerClosure τ) (t : List ℕ) (s' : SubpowerClosure τ) : Prop :=
  t ∈ A.tuples k ∧ (s' = s.insert t ∨ s' = (s.fold t).2)

/-- A tuple is taken in when it is shown. -/
theorem Shown.spec {s s' : SubpowerClosure τ} {t : List ℕ} (hs : s.Faithful A k)
    (h : Shown A k s t s') : s'.Faithful A k ∧ s'.observe = s.observe ∧
      ∀ u, u ∈ s'.tuples ↔ u ∈ s.tuples ∨ u = t := by
  obtain ⟨ht, rfl | rfl⟩ := h
  · obtain ⟨hinsert, hobserve, -, hmem⟩ := hs.insert ht
    exact ⟨hinsert, hobserve, hmem⟩
  · rw [fold]
    cases hnew : s.contains t with
    | true =>
        refine ⟨hs, rfl, fun u => ⟨Or.inl, ?_⟩⟩
        rintro (hu | rfl)
        · exact hu
        · exact (hs.contains_iff u).1 hnew
    | false => exact ⟨hs.push ht hnew _, rfl, fun u => Array.mem_push⟩

theorem approximates (hA : A.Total) (observe : τ → List ℕ → Bool × τ) :
    Approximates A (Shown A k) (fun s => s.Faithful A k ∧ s.observe = observe)
      (fun s => {t | t ∈ s.tuples}) (A.ClosedUnderColumns k) fun T t => t ∈ T where
  mono h ht := h ht
  shown := by
    rintro s s' t ⟨hs, hobserve⟩ hshown
    obtain ⟨hs', hobserve', hmem⟩ := hshown.spec hs
    refine ⟨⟨hs', hobserve'.trans hobserve⟩,
      ⟨fun u hu => (hmem u).2 (Or.inl hu), (hmem t).2 (Or.inr rfl)⟩, ?_⟩
    rintro T ⟨hsub, htT⟩ u hu
    rcases (hmem u).1 hu with hu | rfl
    · exact hsub hu
    · exact htT
  run := by
    rintro s ⟨hs, hobserve⟩
    obtain ⟨e, he, hprefix, hrun, hcut⟩ := close_cutShort hA hs 0
    obtain ⟨e', hclose, -, hleast⟩ := close_isLeast hA .sequential hs.unobserved (fun _ _ => rfl)
      (settledBelow_zero _ _)
    obtain rfl : e' = e := congrArg Outcome.state (hclose.symm.trans (hrun _ (Or.inl rfl)))
    refine ⟨_, hleast, fun cap o ho => ?_⟩
    obtain ⟨⟨hstate, hobserve'⟩, hcut⟩ := hcut cap o ho
    obtain ⟨hstatus, hkept, hinside, hclosed⟩ := hcut.between hprefix Array.length_toList
    refine ⟨⟨hstate, hobserve'.trans hobserve⟩, hstatus, fun t ht => mem_of_listed hkept ht,
      fun t ht => mem_of_listed hinside ht, fun h => ?_⟩
    rw [Array.toList_inj.1 (hclosed h)]

/-- Without a cap and an observer who asks to stop, closing ends closed. -/
theorem closed_of_goOn (hA : A.Total) {s : SubpowerClosure τ} (hs : s.Faithful A k)
    (hgoOn : ∀ w t, (s.observe w t).1 = true) {o : Outcome (SubpowerClosure τ)}
    (ho : RunsTo A 0 0 s o) : o.status = .ok .closed := by
  obtain ⟨mode, rfl⟩ := ho.exists_mode
  obtain ⟨e, hclose, -⟩ := close_isLeast hA mode hs hgoOn (settledBelow_zero _ _)
  rw [hclose]

/-- Closing tuples that were shown and closed before leads to the least closed set around those that were
shown, unless the observer asks to stop. -/
theorem resumes (hA : A.Total) {observe : τ → List ℕ → Bool × τ} {observer : τ} {ts : List (List ℕ)}
    {s : SubpowerClosure τ} (hused : Used A (Shown A k) (observed k observe observer) ts s) :
    ∃ S, IsLeast {T | A.ClosedUnderColumns k T ∧ ∀ t ∈ ts, t ∈ T} S ∧
      (∀ t ∈ ts, t ∈ s.tuples) ∧ (∀ t ∈ s.tuples, t ∈ S) ∧
      ∀ cap o, RunsTo A cap 0 s o → (∃ status, o.status = .ok status) ∧
        (o.status = .ok .closed → {t | t ∈ o.state.tuples} = S) ∧
        (cap = 0 → (∀ w t, (observe w t).1 = true) → o.status = .ok .closed) := by
  obtain ⟨⟨hs, hobserve⟩, S, hleast, hhas, hinside, hruns⟩ := hused.exists_isLeast
    (approximates hA observe) ⟨faithful_observed A k observe observer, rfl⟩
    fun T t ht => by simp [observed] at ht
  refine ⟨S, hleast, hhas, hinside, fun cap o ho => ?_⟩
  obtain ⟨hstatus, hclosed⟩ := hruns cap o ho
  refine ⟨hstatus, hclosed, ?_⟩
  rintro rfl hgoOn
  rw [← hobserve] at hgoOn
  exact closed_of_goOn hA hs hgoOn ho

end SubpowerClosure

/-- **Closing can be interrupted and resumed.**  A caller begins with nothing, shows items to a closure and
closes it, in any order and as often as wanted, in whichever mode, with whatever workers and with any
cap; an observer may ask to stop.  Then the closure has the items that the caller has shown, and what it
has lies inside the least set around these that is closed under the operations of positive arity, or the
least congruence that relates them.  Closing once more does not fail; if it ends closed, it ends with
exactly this set or this congruence; and it does end closed without a cap, and for tuples without an
observer who asks to stop. -/
theorem Closure.can_be_resumed {A : Algebra} (hA : A.Total) :
    (∀ xs s, Used A (SubuniverseClosure.Shown A.size) (.start A.size) xs s →
      ∃ S, IsLeast {T | A.ClosedUnder T ∧ ∀ x ∈ xs, x ∈ T} S ∧
        (∀ x ∈ xs, x ∈ s.elements) ∧ (∀ x ∈ s.elements, x ∈ S) ∧
        ∀ cap o, RunsTo A cap 0 s o → (∃ status, o.status = .ok status) ∧
          (o.status = .ok .closed → {x | x ∈ o.state.elements} = S) ∧
          (cap = 0 → o.status = .ok .closed)) ∧
    (∀ ps s, Used A (CongruenceClosure.Shown A.size) (.start A.size) ps s →
      ∃ q, A.IsLeastCongruence (fun x y => (x, y) ∈ ps) q ∧
        (∀ p ∈ ps, s.partition.setoid p.1 p.2) ∧ s.partition.setoid ≤ q.setoid ∧
        ∀ cap o, RunsTo A cap 0 s o → (∃ status, o.status = .ok status) ∧
          (o.status = .ok .closed → o.state.partition = q) ∧ (cap = 0 → o.status = .ok .closed)) ∧
    ∀ (τ : Type) (k : ℕ) (observe : τ → List ℕ → Bool × τ) (observer : τ) ts s,
      Used A (SubpowerClosure.Shown A k) (.observed k observe observer) ts s →
      ∃ S, IsLeast {T | A.ClosedUnderColumns k T ∧ ∀ t ∈ ts, t ∈ T} S ∧
        (∀ t ∈ ts, t ∈ s.tuples) ∧ (∀ t ∈ s.tuples, t ∈ S) ∧
        ∀ cap o, RunsTo A cap 0 s o → (∃ status, o.status = .ok status) ∧
          (o.status = .ok .closed → {t | t ∈ o.state.tuples} = S) ∧
          (cap = 0 → (∀ w t, (observe w t).1 = true) → o.status = .ok .closed) := by
  refine ⟨?_, ?_, ?_⟩
  · exact fun xs s hused => SubuniverseClosure.resumes hA hused
  · exact fun ps s hused => CongruenceClosure.resumes hA hused
  · exact fun τ k observe observer ts s hused => SubpowerClosure.resumes hA hused

/-- In the residues modulo four closing is interrupted — twice by a cap, and once by an observer who
rejects a tuple — the caller shows one more item, and then closing ends closed with what both items
lead to. -/
theorem Closure.resumed_residuesModFour :
    (let capped := close Algebra.residuesModFour .parallel 2 0 ((SubuniverseClosure.start 4).fold 1).2
     capped.status = .ok .capped ∧
      ∀ o, RunsTo Algebra.residuesModFour 0 0 (capped.state.fold 0).2 o → o.status = .ok .closed ∧
        IsLeast {T | Algebra.residuesModFour.ClosedUnder T ∧ ∀ x ∈ [1, 0], x ∈ T}
          {x | x ∈ o.state.elements}) ∧
    (let capped := close Algebra.residuesModFour .sequential 1 0 ((CongruenceClosure.start 4).merge 0 2).2
     capped.status = .ok .capped ∧
      ∀ o, RunsTo Algebra.residuesModFour 0 0 (capped.state.merge 0 1).2 o → o.status = .ok .closed ∧
        Algebra.residuesModFour.IsLeastCongruence (fun x y => (x, y) ∈ [(0, 2), (0, 1)])
          o.state.partition) ∧
    let stopped := close Algebra.residuesModFour .sequential 0 0
      ((SubpowerClosure.observed 2 (fun _ t => (t != [0, 0], ())) ()).insert [0, 2])
    let resumed := close Algebra.residuesModFour .parallel 0 0 (stopped.state.fold [2, 2]).2
    stopped.status = .ok .stopped ∧ resumed.status = .ok .closed ∧
      IsLeast {T | Algebra.residuesModFour.ClosedUnderColumns 2 T ∧ ∀ t ∈ [[0, 2], [2, 2]], t ∈ T}
        {t | t ∈ resumed.state.tuples} := by
  obtain ⟨hsets, hpairs, htuples⟩ := can_be_resumed Algebra.total_residuesModFour
  refine ⟨⟨by cbv, fun o ho => ?_⟩, ⟨by cbv, fun o ho => ?_⟩, by cbv, by cbv, ?_⟩
  · have hused : Used Algebra.residuesModFour (SubuniverseClosure.Shown 4) (.start 4) [1, 0] _ :=
      ((Used.start.shown ⟨by decide, rfl⟩).closed (runsTo_close _ .parallel 2 0 _)).shown
        ⟨by decide, rfl⟩
    obtain ⟨S, hleast, -, -, hruns⟩ := hsets [1, 0] _ hused
    obtain ⟨-, hclosed, huncapped⟩ := hruns 0 o ho
    exact ⟨huncapped rfl, hclosed (huncapped rfl) ▸ hleast⟩
  · have hstart := CongruenceClosure.faithful_start 4
    have hcapped : Used Algebra.residuesModFour (CongruenceClosure.Shown 4) (.start 4) [(0, 2)] _ :=
      (Used.start.shown (hstart.shown_iff.2 ⟨by decide, rfl⟩)).closed
        (runsTo_close _ .sequential 1 0 _)
    have hs := (hcapped.le_iff (CongruenceClosure.approximates Algebra.total_residuesModFour) hstart
      (CongruenceClosure.setoid_start_le 4)).1
    have hused := hcapped.shown (x := (0, 1)) (hs.shown_iff.2 ⟨by decide, rfl⟩)
    obtain ⟨q, hleast, -, -, hruns⟩ := hpairs _ _ hused
    obtain ⟨-, hclosed, huncapped⟩ := hruns 0 o ho
    exact ⟨huncapped rfl, hclosed (huncapped rfl) ▸ hleast⟩
  · have htuple (x y : ℕ) (hx : x < 4) (hy : y < 4) : [x, y] ∈ Algebra.residuesModFour.tuples 2 := by
      simp [Algebra.tuples, Algebra.residuesModFour, hx, hy]
    have hused : Used Algebra.residuesModFour (SubpowerClosure.Shown Algebra.residuesModFour 2)
        (.observed 2 (fun (_ : Unit) t => (t != [0, 0], ())) ()) [[0, 2], [2, 2]] _ :=
      ((Used.start.shown ⟨htuple 0 2 (by decide) (by decide), Or.inl rfl⟩).closed
        (runsTo_close _ .sequential 0 0 _)).shown ⟨htuple 2 2 (by decide) (by decide), Or.inr rfl⟩
    obtain ⟨S, hleast, -, -, hruns⟩ := htuples Unit 2 _ _ _ _ hused
    obtain ⟨-, hclosed, -⟩ := hruns 0 _ (runsTo_close _ .parallel 0 0 _)
    rw [hclosed (by cbv)]
    exact hleast

end UniversalAlgebra
