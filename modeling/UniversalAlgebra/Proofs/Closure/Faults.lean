/-
**What closing leaves when an operation fails.**

An operation may fail at some arguments.  A sequential pass shows each image when it is computed, so
that it ends at the first failure it comes to, with what it has taken in until then.  A parallel
pass computes all images before it shows the first, so that a failure leaves the state in which the
pass started.  The two modes go through the same states as long as a parallel pass does not fail;
when it does, a sequential pass from the same state fails in the same way, unless the cap or a stop
ends it before.

Main definitions:

* `Closure.passStart?` — where the pass with a given number starts;
* `Closure.RaisedInPass` — a pass that raises a fault in parallel, and how it ends sequentially;
* `Closure.ParallelOutcome` — what closing in parallel, or with workers, may come to;
* `Closure.RaisesAlike` — the faults of the two modes correspond to each other.

Main results:

* `Closure.pass_comparable`, `Closure.passes_comparable` — one pass, and all of them;
* `Closure.close_eq_passes` — closing never meets the bound on the number of passes;
* `Closure.raisesAlike` — **closing elements, pairs and tuples raises alike in both modes**.
-/

import UniversalAlgebra.Proofs.Algebra.Checked
import UniversalAlgebra.Proofs.Closure.Pooled

set_option autoImplicit false

namespace UniversalAlgebra

open Growth

namespace Closure

variable {σ ι : Type} [Growth σ ι]

/-! ### Passes that raise a fault -/

/-- The settled part and the state with which the pass with a given number starts, if there is one.
The first pass has the number zero. -/
def passStart? (mode : Mode) (cap : ℕ) (ops : List Operation) :
    (number mark : ℕ) → σ → Option (ℕ × σ)
  | 0, mark, s => if mark < size s then some (mark, s) else none
  | number + 1, mark, s =>
      if mark < size s then
        match pass mode cap ops mark (size s) s with
        | .ok s' => passStart? mode cap ops number (size s) s'
        | .error _ => none
      else none

/-- The fault is raised, or the pass ends before it comes to that. -/
def RaisedOrForestalled (fault : Fault) (reason : Interruption) : Prop :=
  reason = .raised fault ∨ reason = .capped ∨ reason = .stopped

/-- From `s` both modes reach the state `t` at the start of the pass with a given number.  In
parallel this pass raises the fault and leaves `t` as it is; sequentially it ends as `halt` says, by
raising the same fault or before it. -/
structure RaisedInPass (cap : ℕ) (ops : List Operation) (mark : ℕ) (s : σ) (number start : ℕ)
    (t : σ) (fault : Fault) (halt : Halt σ) : Prop where
  reached (mode : Mode) : passStart? mode cap ops number mark s = some (start, t)
  parallel : pass .parallel cap ops start (size t) t = .error ⟨.raised fault, t⟩
  sequential : pass .sequential cap ops start (size t) t = .error halt
  reason : RaisedOrForestalled fault halt.reason

/-- What closing in parallel may come to: all at once, or with the workers of some pool that is at
rest, which take turns in some way. -/
def ParallelOutcome (A : Algebra) (cap mark : ℕ) (s : σ) (o : Outcome σ) : Prop :=
  o = close A .parallel cap mark s ∨
    ∃ (workers : ℕ) (before : List (WorkerPool.Event ℕ)) (p : WorkerPool ℕ)
      (schedule : List (List (WorkerPool.Event ℕ))),
      (WorkerPool.start workers).run? before = some p ∧ p.isIdle = true ∧
        pooledClose A p schedule cap mark s = some o

/-- The faults that closing raises sequentially and in parallel correspond to each other. -/
structure RaisesAlike (A : Algebra) (items : σ → List ι) (s : σ) : Prop where
  /-- What is raised sequentially is raised in parallel. -/
  of_sequential {cap mark : ℕ} {fault : Fault} {t : σ} {o : Outcome σ} :
    close A .sequential cap mark s = ⟨.error fault, t⟩ → ParallelOutcome A cap mark s o →
      o.status = .error fault
  /-- What is raised in parallel is raised in a pass and leaves the state at the start of that pass.
  Sequentially closing ends in the same pass, with the same fault, capped or stopped, and with what
  was discovered at its start and perhaps more. -/
  of_parallel {cap mark : ℕ} {fault : Fault} {t : σ} :
    ParallelOutcome A cap mark s ⟨.error fault, t⟩ →
      ∃ number start halt, RaisedInPass cap A.operations mark s number start t fault halt ∧
        close A .sequential cap mark s = .ofPasses (.error halt) ∧ items t <+: items halt.state

theorem ParallelOutcome.eq_close {A : Algebra} {cap mark : ℕ} {s : σ} {o : Outcome σ}
    (h : ParallelOutcome A cap mark s o) : o = close A .parallel cap mark s := by
  obtain h | ⟨workers, before, p, schedule, hrun, hidle, ho⟩ := h
  · exact h
  · exact pooledClose_eq ((WorkerPool.consistent_start workers).run hrun).1 hidle ho

/-! ### One pass -/

section Run

variable {ops : List Operation} {J : σ → Prop} {s : σ} {cap : ℕ}

/-- How a run of passes from a state may end in parallel and sequentially: in the same way, which is
no failure, or with a fault in parallel, which leaves the state as it was. -/
inductive Comparable (J : σ → Prop) (s : σ) : (parallel sequential : Except (Halt σ) σ) → Prop
  | through {s' : σ} (inv : J s') (extended : Extends s s') : Comparable J s (.ok s') (.ok s')
  | interrupted {halt : Halt σ} (h : ∀ fault, halt.reason ≠ .raised fault) :
      Comparable J s (.error halt) (.error halt)
  | raised {fault : Fault} {halt : Halt σ} (h : RaisedOrForestalled fault halt.reason) :
      Comparable J s (.error ⟨.raised fault, s⟩) (.error halt)

theorem Absorbed.comparable {found : Except Fault (List ι)} {r : Except (Halt σ) σ} :
    Absorbed J s found r →
      Comparable J s
        (match found with
          | .error fault => .error ⟨.raised fault, s⟩
          | .ok _ => r) r := by
  intro h
  cases found with
  | ok xs =>
      cases h with
      | through inv extended _ => exact .through inv extended
      | capped => exact .interrupted fun _ h => by cases h
      | stopped => exact .interrupted fun _ h => by cases h
      | raised first => cases first
  | error fault =>
      cases h with
      | through _ _ all => cases all
      | capped => exact .raised (Or.inr (Or.inl rfl))
      | stopped => exact .raised (Or.inr (Or.inr rfl))
      | raised first =>
          cases first
          exact .raised (Or.inl rfl)

theorem Comparable.of_ok {parallel sequential : Except (Halt σ) σ} {s' : σ}
    (h : Comparable J s parallel sequential) (hok : parallel = .ok s' ∨ sequential = .ok s') :
    J s' ∧ Extends s s' := by
  cases h with
  | through inv extended =>
      rcases hok with hok | hok <;> cases hok <;> exact ⟨inv, extended⟩
  | interrupted h => rcases hok with hok | hok <;> cases hok
  | raised h => rcases hok with hok | hok <;> cases hok

theorem RaisedInPass.next {s' : σ} {mark number start : ℕ} {t : σ} {fault : Fault} {halt : Halt σ}
    (h : RaisedInPass cap ops (size s) s' number start t fault halt) (hmark : mark < size s)
    (hpass : ∀ mode, pass mode cap ops mark (size s) s = .ok s') :
    RaisedInPass cap ops mark s (number + 1) start t fault halt where
  reached mode := by
    rw [passStart?, if_pos hmark, hpass mode]
    exact h.reached mode
  parallel := h.parallel
  sequential := h.sequential
  reason := h.reason

theorem passes_of_not_lt {mode : Mode} {fuel mark : ℕ} (h : ¬mark < size s) :
    passes mode cap ops fuel mark s = .ok s := by
  cases fuel with
  | zero => rfl
  | succ fuel => simp only [passes, if_neg h]

variable [LawfulGrowth σ]

/-- **One pass, in parallel and sequentially.** -/
theorem pass_comparable (cap : ℕ) (hJ : Steady ops J) (hs : J s) (start : ℕ) {stop : ℕ}
    (hstop : stop ≤ size s) :
    Comparable J s (pass .parallel cap ops start stop s)
      (pass .sequential cap ops start stop s) := by
  have hshown := foldlM_absorbOutcome_absorbed cap hJ hs (.refl s)
    fun x (hx : .ok (some x) ∈ outcomes ops start stop s) => isImage_of_mem_outcomes hstop hx
  have hsequential : pass .sequential cap ops start stop s
      = (outcomes ops start stop s).foldlM (absorbOutcome cap) s := sequentialPass_eq hJ hs hstop
  have hparallel : pass .parallel cap ops start stop s
      = match collect (outcomes ops start stop s) with
        | .error fault => .error ⟨.raised fault, s⟩
        | .ok _ => (outcomes ops start stop s).foldlM (absorbOutcome cap) s := by
    refine (parallelPass_eq cap ops start stop s).trans ?_
    cases hfound : collect (outcomes ops start stop s) with
    | error fault => rfl
    | ok xs => exact (foldlM_absorbOutcome_of_collect hfound s).symm
  rw [hsequential, hparallel]
  exact hshown.comparable

/-! ### All passes -/

/-- **All passes**: both modes end alike without a fault, or some pass raises one in parallel. -/
theorem passes_comparable (cap : ℕ) (hJ : Steady ops J) (fuel mark : ℕ) {s : σ} (hs : J s) :
    (∀ fault t, passes .parallel cap ops fuel mark s ≠ .error ⟨.raised fault, t⟩) ∧
        passes .sequential cap ops fuel mark s = passes .parallel cap ops fuel mark s ∨
      ∃ number start t fault halt, RaisedInPass cap ops mark s number start t fault halt ∧
        passes .parallel cap ops fuel mark s = .error ⟨.raised fault, t⟩ ∧
        passes .sequential cap ops fuel mark s = .error halt := by
  -- as long as both modes get through they are in the same state when the next pass starts
  induction fuel generalizing mark s with
  | zero => exact Or.inl ⟨(fun _ _ h => by cases h), rfl⟩
  | succ fuel ih =>
      rw [passes, passes]
      by_cases hmark : mark < size s
      · have hpass := pass_comparable cap hJ hs mark (Nat.le_refl (size s))
        simp only [if_pos hmark]
        generalize hparallel : pass .parallel cap ops mark (size s) s = parallel at hpass ⊢
        generalize hsequential : pass .sequential cap ops mark (size s) s = sequential at hpass ⊢
        cases hpass with
        | @through s' inv _ =>
            have hboth (mode : Mode) : pass mode cap ops mark (size s) s = .ok s' := by
              cases mode
              · exact hsequential
              · exact hparallel
            obtain hsame | ⟨number, start, t, fault, halt, hraised, hends⟩ := ih (size s) inv
            · exact Or.inl hsame
            · exact Or.inr ⟨number + 1, start, t, fault, halt, hraised.next hmark hboth, hends⟩
        | interrupted h =>
            refine Or.inl ⟨?_, rfl⟩
            intro fault t heq
            cases heq
            exact h fault rfl
        | raised h =>
            exact Or.inr ⟨0, mark, s, _, _, ⟨fun _ => if_pos hmark, hparallel, hsequential, h⟩,
              rfl, rfl⟩
      · simp only [if_neg hmark]
        exact Or.inl ⟨(fun _ _ h => by cases h), trivial⟩

/-- A pass in any mode that gets through keeps the invariant. -/
theorem pass_through (hJ : Steady ops J) (hs : J s) {mode : Mode} {start stop : ℕ} {s' : σ}
    (hstop : stop ≤ size s) (h : pass mode cap ops start stop s = .ok s') :
    J s' ∧ Extends s s' := by
  refine (pass_comparable cap hJ hs start hstop).of_ok ?_
  cases mode with
  | sequential => exact Or.inr h
  | parallel => exact Or.inl h

/-- Passes end before the fuel does: each but the last adds an item, also where operations fail. -/
theorem passes_add {n fuel mark : ℕ} (cap : ℕ) (hJ : Steady ops J)
    (hbound : ∀ s, J s → size s ≤ capacity n s) (mode : Mode) (hs : J s) (hmark : mark ≤ size s)
    (hfuel : capacity n s < mark + fuel) (extra : ℕ) :
    passes mode cap ops (fuel + extra) mark s = passes mode cap ops fuel mark s := by
  induction fuel generalizing mark s with
  | zero =>
      have := hbound s hs
      omega
  | succ fuel ih =>
      rw [Nat.succ_add, passes, passes]
      by_cases hlt : mark < size s
      · simp only [if_pos hlt]
        cases hpass : pass mode cap ops mark (size s) s with
        | error halt => rfl
        | ok s' =>
            obtain ⟨inv, extended⟩ := pass_through hJ hs (Nat.le_refl _) hpass
            -- the next pass starts from `size s`, which is above `mark`, with the same capacity
            have hcapacity := extended.capacity_eq n
            exact ih inv extended.size_le (by omega)
      · simp only [if_neg hlt]

end Run

/-! ### What was discovered -/

/-- Showing an item adds to what was discovered at the end, if at all. -/
def Appends (items : σ → List ι) : Prop :=
  ∀ s x r s', accept s x = .ok (r, s') → items s <+: items s'

theorem toList_prefix_push {α : Type} (xs : Array α) (x : α) : xs.toList <+: (xs.push x).toList :=
  ⟨[x], Array.toList_push.symm⟩

/-- What was discovered at one time stays at the front. -/
theorem Appends.upholds {items : σ → List ι} (h : Appends items) (ops : List Operation)
    (before : List ι) : Upholds ops (fun _ => True) fun t => before <+: items t where
  image _ _ _ := trivial
  accept ht _ haccept := ht.trans (h _ _ _ _ haccept)

/-- A sequential pass keeps the sequence of what was discovered and goes on with it. -/
theorem Appends.sequentialPass {items : σ → List ι} (h : Appends items) (cap : ℕ)
    (ops : List Operation) (start stop : ℕ) (s : σ) :
    items s <+: items (Outcome.ofPasses (Closure.sequentialPass cap ops start stop s)).state :=
  (h.upholds ops (items s)).sequentialPass cap start stop (List.prefix_refl _)

/-! ### Closing -/

variable {A : Algebra} {J : σ → Prop} {items : σ → List ι} {s : σ}

omit [Growth σ ι] in
@[simp] theorem state_ofPasses_error (halt : Halt σ) :
    (Outcome.ofPasses (.error halt)).state = halt.state := by
  obtain ⟨reason, s⟩ := halt
  cases reason <;> rfl

omit [Growth σ ι] in
theorem eq_raised_of_ofPasses {r : Except (Halt σ) σ} {fault : Fault} {t : σ}
    (h : Outcome.ofPasses r = ⟨.error fault, t⟩) : r = .error ⟨.raised fault, t⟩ := by
  match r with
  | .ok _ => cases h
  | .error ⟨.capped, _⟩ => cases h
  | .error ⟨.stopped, _⟩ => cases h
  | .error ⟨.raised _, _⟩ =>
      cases h
      rfl

theorem close_comparable [LawfulGrowth σ] (hJ : Steady A.operations J) (hs : J s) (cap mark : ℕ) :
    (∀ fault t, close A .parallel cap mark s ≠ ⟨.error fault, t⟩) ∧
        close A .sequential cap mark s = close A .parallel cap mark s ∨
      ∃ number start t fault halt, RaisedInPass cap A.operations mark s number start t fault halt ∧
        close A .parallel cap mark s = ⟨.error fault, t⟩ ∧
        close A .sequential cap mark s = .ofPasses (.error halt) := by
  by_cases hidle : A.operations.isEmpty ∨ size s ≤ mark
  · simp only [close, if_pos hidle]
    exact Or.inl ⟨(fun _ _ h => by cases h), trivial⟩
  · simp only [close, if_neg hidle]
    obtain ⟨hnone, hsame⟩ | ⟨number, start, t, fault, halt, hraised, hparallel, hsequential⟩ :=
      passes_comparable cap hJ (capacity A.size s + 1) mark hs
    · refine Or.inl ⟨fun fault t h => hnone fault t (eq_raised_of_ofPasses h), ?_⟩
      rw [hsame]
    · refine Or.inr ⟨number, start, t, fault, halt, hraised, ?_, ?_⟩
      · rw [hparallel]
        rfl
      · rw [hsequential]

/-- Closing is passes until nothing is fresh: the bound on their number is never met. -/
theorem close_eq_passes [LawfulGrowth σ] (hJ : Steady A.operations J)
    (hbound : ∀ s, J s → size s ≤ capacity A.size s) (hs : J s) (mode : Mode) (cap mark extra : ℕ) :
    close A mode cap mark s
      = .ofPasses (passes mode cap A.operations (capacity A.size s + 1 + extra) mark s) := by
  by_cases hmark : mark < size s
  · have hpasses := passes_add cap hJ hbound mode hs (Nat.le_of_lt hmark)
      (show capacity A.size s < mark + (capacity A.size s + 1) by omega) extra
    rw [close, hpasses]
    split
    · next hidle =>
        -- something is fresh, so there are no operations, and the one pass there is changes nothing
        have hempty : A.operations = [] := by simpa [Nat.not_le.2 hmark] using hidle
        have hpass : pass mode cap [] mark (size s) s = .ok s := by cases mode <;> rfl
        simp only [hempty, passes, if_pos hmark, hpass]
        rw [passes_of_not_lt (lt_irrefl _)]
    · rfl
  · rw [close, if_pos (Or.inr (Nat.not_lt.1 hmark)), passes_of_not_lt hmark]

/-- For a kind of closures that appends what it discovers, under an invariant with which every image
can be shown. -/
theorem raisesAlike_of_steady [LawfulGrowth σ] (hJ : Steady A.operations J)
    (hitems : Appends items) (hs : J s) : RaisesAlike A items s where
  of_sequential := by
    intro cap mark fault t o hclose ho
    obtain rfl := ho.eq_close
    obtain ⟨hnone, hsame⟩ | ⟨_, _, _, fault', halt, hraised, hparallel, hsequential⟩ :=
      close_comparable hJ hs cap mark
    · exact absurd (hsame.symm.trans hclose) (hnone fault t)
    · -- a fault that is raised sequentially was not forestalled
      have hhalt := eq_raised_of_ofPasses (hsequential.symm.trans hclose)
      cases hhalt
      rw [hparallel]
      rcases hraised.reason with h | h | h <;> cases h
      rfl
  of_parallel := by
    intro cap mark fault t ho
    have hclose := ho.eq_close
    obtain ⟨hnone, -⟩ | ⟨number, start, t', fault', halt, hraised, hparallel, hsequential⟩ :=
      close_comparable hJ hs cap mark
    · exact absurd hclose.symm (hnone fault t)
    · cases hclose.trans hparallel
      have hpass : sequentialPass cap A.operations start (size t) t = .error halt :=
        hraised.sequential
      have hprefix := hitems.sequentialPass cap A.operations start (size t) t
      rw [hpass, state_ofPasses_error] at hprefix
      exact ⟨number, start, halt, hraised, hsequential, hprefix⟩

end Closure

open Closure

/-! ### The three kinds of closures -/

namespace SubuniverseClosure

/-- Any element can be shown, so what is kept is what taking in an image keeps. -/
theorem steady {ops : List Operation} {J : SubuniverseClosure → Prop}
    (hJ : ∀ s x, J s → IsImage ops s x → J (s.fold x).2) : Steady ops J :=
  fun s x hs hx => ⟨(s.fold x).1, (s.fold x).2, rfl, fun _ => ⟨hJ s x hs hx, extends_fold s x⟩⟩

theorem appends : Appends fun s : SubuniverseClosure => s.elements.toList := by
  intro s x r s' haccept
  change Except.ok (s.fold x) = Except.ok (r, s') at haccept
  rw [fold] at haccept
  split at haccept
  · cases haccept
    exact List.prefix_refl _
  · cases haccept
    exact toList_prefix_push _ _

theorem lt_of_isImage {A : Algebra} (hA : A.Checked) {s : SubuniverseClosure} {x : ℕ}
    (hx : IsImage A.operations s x) : x < A.size := by
  obtain ⟨op, hop, indices, -, himage⟩ := hx
  change some <$> op.apply (s.elementsAt indices) = .ok (some x) at himage
  cases hv : op.apply (s.elementsAt indices) with
  | error fault =>
      rw [hv] at himage
      cases himage
  | ok v =>
      rw [hv] at himage
      cases himage
      exact hA op hop _ _ hv

theorem close_eq_passes {A : Algebra} (hA : A.Checked) {s : SubuniverseClosure}
    (hs : s.Faithful A.size) (mode : Mode) (cap mark extra : ℕ) :
    close A mode cap mark s
      = .ofPasses (passes mode cap A.operations (A.size + 1 + extra) mark s) :=
  Closure.close_eq_passes (steady fun _ _ hs hx => hs.fold (lt_of_isImage hA hx))
    (fun _ hs => hs.size_le) hs mode cap mark extra

end SubuniverseClosure

namespace CongruenceClosure

variable {A : Algebra}

/-- The images are pairs of elements, since whatever an operation gives is an element. -/
theorem lt_of_isImage (hA : A.Checked) {s : CongruenceClosure} {p : ℕ × ℕ}
    (hp : IsImage A.operations s p) : p.1 < A.size ∧ p.2 < A.size := by
  obtain ⟨op, hop, args, hargs, himage⟩ := hp
  obtain ⟨index, before, after, rfl, -⟩ := mem_drawn.1 hargs
  obtain ⟨⟨x, y⟩, hpush, hpair⟩ := Fallible.bind_eq_ok.1 himage
  obtain ⟨x', hx, hpush⟩ := Fallible.bind_eq_ok.1 hpush
  obtain ⟨y', hy, hpush⟩ := Fallible.bind_eq_ok.1 hpush
  cases hpush
  dsimp only at hpair
  split at hpair
  · cases hpair
  · cases hpair
    exact ⟨hA op hop _ _ hx, hA op hop _ _ hy⟩

theorem steady (hA : A.Checked) :
    Steady A.operations fun s : CongruenceClosure => s.Faithful A.size := by
  intro s p hs hp
  obtain ⟨h₁, h₂⟩ := lt_of_isImage hA hp
  exact ⟨(s.merge p.1 p.2).1, (s.merge p.1 p.2).2, accept_eq hs h₁ h₂,
    fun _ => ⟨hs.merge h₁ h₂, extends_merge hs h₁ h₂⟩⟩

theorem close_eq_passes (hA : A.Checked) {s : CongruenceClosure} (hs : s.Faithful A.size)
    (mode : Mode) (cap mark extra : ℕ) :
    close A mode cap mark s
      = .ofPasses (passes mode cap A.operations (A.size + 1 + extra) mark s) := by
  exact Closure.close_eq_passes (steady hA) (fun _ ht => ht.size_le) hs mode cap mark extra

theorem appends : Appends fun s : CongruenceClosure => s.pairs.toList := by
  intro s p r s' haccept
  obtain ⟨_, -, haccept⟩ := Fallible.bind_eq_ok.1 haccept
  obtain ⟨_, -, haccept⟩ := Fallible.bind_eq_ok.1 haccept
  rw [merge] at haccept
  split at haccept
  · cases haccept
    exact List.prefix_refl _
  · cases haccept
    exact toList_prefix_push _ _

end CongruenceClosure

namespace SubpowerClosure

variable {τ : Type}

/-- Any tuple can be shown, so what is kept is what taking in an image keeps. -/
theorem steady {ops : List Operation} {J : SubpowerClosure τ → Prop}
    (hJ : ∀ s t w, J s → IsImage ops s t → s.contains t = false → J (s.push t w)) :
    Steady ops J := by
  intro s t hs ht
  cases hnew : s.contains t with
  | true => exact ⟨.known, s, knows_iff.2 hnew, fun _ => ⟨hs, .refl s⟩⟩
  | false =>
      refine ⟨if (s.observe s.observer t).1 then .added else .stop,
        s.push t (s.observe s.observer t).2, ?_,
        fun _ => ⟨hJ s t _ hs ht hnew, extends_push s t _⟩⟩
      rw [accept_eq, hnew]
      rfl

theorem mem_tuples_of_applyColumns {A : Algebra} (hA : A.Checked) {op : Operation}
    (hop : op ∈ A.operations) {power : ℕ} {found : List ℕ} {rows : List (List ℕ)} {t : List ℕ}
    (h : applyColumns op found power rows = .ok t) (hfound : ∀ x ∈ found, x < A.size) :
    t ∈ A.tuples (found.length + power) := by
  induction power generalizing found rows with
  | zero =>
      cases h
      exact ⟨by simp, fun x hx => hfound x (List.mem_reverse.1 hx)⟩
  | succ power ih =>
      obtain ⟨value, hvalue, h⟩ := Fallible.bind_eq_ok.1 h
      have hlt : ∀ x ∈ value :: found, x < A.size := by
        intro x hx
        rcases List.mem_cons.1 hx with rfl | hx
        · exact hA op hop _ _ hvalue
        · exact hfound x hx
      have := ih h hlt
      rwa [List.length_cons, Nat.succ_add] at this

theorem mem_tuples_of_isImage {A : Algebra} {k : ℕ} (hA : A.Checked) {s : SubpowerClosure τ}
    (hs : s.Faithful A k) {t : List ℕ} (ht : IsImage A.operations s t) : t ∈ A.tuples k := by
  obtain ⟨op, hop, indices, -, himage⟩ := ht
  change some <$> applyColumns op [] s.power (s.tuplesAt indices) = .ok (some t) at himage
  rw [hs.power_eq] at himage
  cases hcolumns : applyColumns op [] k (s.tuplesAt indices) with
  | error fault =>
      rw [hcolumns] at himage
      cases himage
  | ok u =>
      rw [hcolumns] at himage
      cases himage
      simpa using mem_tuples_of_applyColumns hA hop hcolumns (by simp)

theorem close_eq_passes {A : Algebra} {k : ℕ} (hA : A.Checked) {s : SubpowerClosure τ}
    (hs : s.Faithful A k) (mode : Mode) (cap mark extra : ℕ) :
    close A mode cap mark s
      = .ofPasses (passes mode cap A.operations (A.size ^ k + 1 + extra) mark s) := by
  rw [← hs.capacity_eq]
  refine Closure.close_eq_passes (J := fun t => t.Faithful A k) ?_ ?_ hs mode cap mark extra
  · exact steady fun t u w ht hu hnew => ht.push (mem_tuples_of_isImage hA ht hu) hnew w
  · intro t ht
    rw [ht.capacity_eq]
    exact ht.size_le

theorem appends : Appends fun s : SubpowerClosure τ => s.tuples.toList := by
  intro s t r s' haccept
  rw [accept_eq] at haccept
  split at haccept
  · cases haccept
    exact List.prefix_refl _
  · cases haccept
    exact toList_prefix_push _ _

end SubpowerClosure

/-- **The faults of the two modes correspond to each other**, for each kind of closures, whatever an
operation may raise, and for every cap and settled part.  A fault that is raised sequentially is
raised in parallel.  One that is raised in parallel leaves the state with which the pass started,
and closing sequentially ends in the same pass, with the same fault, capped or stopped, and has gone
on with what was discovered.  For a growing partition, what the operations give has to be elements,
as in every algebra that could be built; a growing set or an observer may be in any state. -/
theorem Closure.raisesAlike :
    (∀ (A : Algebra) (s : SubuniverseClosure), RaisesAlike A (·.elements.toList) s) ∧
    (∀ A : Algebra, A.Checked → ∀ s : CongruenceClosure, s.Faithful A.size →
      RaisesAlike A (·.pairs.toList) s) ∧
    ∀ (A : Algebra) (τ : Type) (s : SubpowerClosure τ), RaisesAlike A (·.tuples.toList) s := by
  refine ⟨?_, ?_, ?_⟩
  · intro A s
    exact raisesAlike_of_steady (J := fun _ => True)
      (SubuniverseClosure.steady fun _ _ _ _ => trivial) SubuniverseClosure.appends trivial
  · intro A hA s hs
    exact raisesAlike_of_steady (CongruenceClosure.steady hA) CongruenceClosure.appends hs
  · intro A τ s
    exact raisesAlike_of_steady (J := fun _ => True)
      (SubpowerClosure.steady fun _ _ _ _ _ _ => trivial) SubpowerClosure.appends trivial

/-- In parallel the operation that fails is asked before the successor of a pair is recorded.
Sequentially a cap of one pair is exceeded before; without a cap the same is raised, whatever
workers do. -/
theorem Closure.raisesAlike_zero_one_partialSuccessor :
    let A := Algebra.partialSuccessor
    let s := (CongruenceClosure.start 3).foldAll [(0, 1)]
    (close A .sequential 1 0 s).status = .ok .capped ∧
      (∃ number start halt,
        RaisedInPass 1 A.operations 0 s number start s (.undefinedAt 0) halt ∧
          close A .sequential 1 0 s = .ofPasses (.error halt) ∧
          s.pairs.toList <+: halt.state.pairs.toList) ∧
      ∀ o, ParallelOutcome A 0 0 s o → o.status = .error (.undefinedAt 0) := by
  intro A s
  have hs : s.Faithful 3 := (CongruenceClosure.faithful_start 3).foldAll (by simp)
  obtain ⟨-, hpairs, -⟩ := Closure.raisesAlike
  have halike := hpairs A Algebra.checked_partialSuccessor s hs
  have hparallel : close A .parallel 1 0 s = ⟨.error (.undefinedAt 0), s⟩ := by cbv
  have hsequential : close A .sequential 0 0 s
      = ⟨.error (.undefinedAt 0), s.foldAll [(1, 2)]⟩ := by cbv
  refine ⟨by cbv, halike.of_parallel (Or.inl hparallel.symm), ?_⟩
  intro o ho
  exact halike.of_sequential hsequential ho

end UniversalAlgebra
