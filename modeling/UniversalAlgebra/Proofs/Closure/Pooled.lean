/-
**Workers do not change what closing finds.**

Whatever order the workers take and finish the tasks of a pass in, the buffers hold the same in the
end, and what is shown of them is what a parallel pass shows.  If no operation fails this is what a
sequential pass shows, so that the sequence of what is discovered, the way closing ends and the
tuples that an observer is shown are all the same.

Main definitions:

* `Closure.ScheduleFree` — closing a state has one outcome for all modes and all schedules;
* `SubpowerClosure.recorded` — a closure whose observer also writes down what it is shown.

Main results:

* `Closure.pooledClose_eq` — **closing with workers is closing in parallel**, even if operations fail;
* `Closure.exists_pooledClose` — some schedule is possible;
* `Closure.pooledClose_eq_sequential` — **if no operation fails it is closing sequentially**.
-/

import UniversalAlgebra.Closure.Pooled
import UniversalAlgebra.Proofs.Closure.Congruence
import UniversalAlgebra.Proofs.Closure.Simulation
import UniversalAlgebra.Proofs.Closure.Subuniverse
import UniversalAlgebra.Proofs.WorkerPool

set_option autoImplicit false

namespace UniversalAlgebra

open Growth

namespace Closure

variable {σ ι : Type} [Growth σ ι] {ops : List Operation} {cap start stop : ℕ} {s : σ}
  {p q : WorkerPool ℕ}

/-! ### One pass -/

/-- A parallel pass shows the images under the operations as workers would leave them. -/
theorem parallelPass_eq_showBuffers (cap : ℕ) (ops : List Operation) (start stop : ℕ) (s : σ) :
    parallelPass cap ops start stop s = showBuffers cap (ops.map (images s start stop)) s := by
  rw [parallelPass, showBuffers, List.mapM_map]
  rfl

theorem map_imagesAt (ops : List Operation) (start stop : ℕ) (s : σ) :
    (List.range ops.length).map (imagesAt ops start stop s) = ops.map (images s start stop) := by
  refine List.ext_getElem (by simp) ?_
  intro k hk hk'
  have hlt : k < ops.length := by simpa using hk'
  simp [imagesAt, List.getElem?_eq_getElem hlt]

/-- Whatever the workers do in a pass, it is a parallel pass. -/
theorem pooledPass_eq {events : List (WorkerPool.Event ℕ)} {r : Except (Halt σ) σ}
    (hp : p.Consistent) (hidle : p.isIdle = true)
    (h : pooledPass cap ops start stop events p s = some (q, r)) :
    q.Consistent ∧ q.isIdle = true ∧ r = parallelPass cap ops start stop s := by
  obtain ⟨⟨q', buffers⟩, hgather, heq⟩ := Option.map_eq_some_iff.1 h
  obtain ⟨hq, hidle', rfl⟩ := WorkerPool.gather_eq hp hidle hgather
  cases heq
  refine ⟨hq, hidle', ?_⟩
  rw [parallelPass_eq_showBuffers, ← map_imagesAt]

/-! ### All passes -/

theorem pooledPasses_eq {fuel mark : ℕ} {schedule : List (List (WorkerPool.Event ℕ))}
    {r : Except (Halt σ) σ} (hp : p.Consistent) (hidle : p.isIdle = true)
    (h : pooledPasses cap ops fuel mark schedule p s = some r) :
    r = passes .parallel cap ops fuel mark s := by
  induction fuel generalizing mark schedule p s with
  | zero =>
      cases h
      rfl
  | succ fuel ih =>
      unfold pooledPasses at h
      rw [passes]
      by_cases hmark : mark < size s
      · simp only [if_pos hmark] at h ⊢
        cases schedule with
        | nil => cases h
        | cons events schedule =>
            dsimp only at h
            split at h
            · cases h
            · next q s' hpass =>
                obtain ⟨hq, hidle', heq⟩ := pooledPass_eq hp hidle hpass
                rw [pass, ← heq]
                exact ih hq hidle' h
            · next q halt hpass =>
                obtain ⟨-, -, heq⟩ := pooledPass_eq hp hidle hpass
                rw [pass, ← heq]
                cases h
                rfl
      · simp only [if_neg hmark] at h ⊢
        cases h
        rfl

/-- **Closing with workers is closing in parallel**, whatever the schedule. -/
theorem pooledClose_eq {A : Algebra} {mark : ℕ} {schedule : List (List (WorkerPool.Event ℕ))}
    {o : Outcome σ} (hp : p.Consistent) (hidle : p.isIdle = true)
    (h : pooledClose A p schedule cap mark s = some o) : o = close A .parallel cap mark s := by
  rw [pooledClose] at h
  rw [close]
  split at h
  · next hidle' =>
      rw [if_pos hidle']
      cases h
      rfl
  · next hidle' =>
      rw [if_neg hidle']
      obtain ⟨r, hr, rfl⟩ := Option.map_eq_some_iff.1 h
      rw [pooledPasses_eq hp hidle hr]

/-- Some schedule is possible and long enough. -/
theorem exists_pooledPasses (hp : p.Ready) (cap : ℕ) (ops : List Operation) (fuel mark : ℕ) (s : σ) :
    ∃ schedule r, pooledPasses cap ops fuel mark schedule p s = some r := by
  induction fuel generalizing mark p s with
  | zero => exact ⟨[], .ok s, rfl⟩
  | succ fuel ih =>
      by_cases hmark : mark < size s
      · obtain ⟨events, q, buffers, hgather, hq⟩ :=
          hp.exists_gather (imagesAt ops mark (size s) s) (.ok #[]) ops.length
        have hpass : pooledPass cap ops mark (size s) events p s
            = some (q, showBuffers cap buffers.toList s) := by
          rw [pooledPass, hgather]
          rfl
        cases hshow : showBuffers cap buffers.toList s with
        | error halt =>
            refine ⟨[events], .error halt, ?_⟩
            simp only [pooledPasses, if_pos hmark, hpass, hshow]
        | ok s' =>
            obtain ⟨schedule, r, hr⟩ := ih hq (size s) s'
            refine ⟨events :: schedule, r, ?_⟩
            simp only [pooledPasses, if_pos hmark, hpass, hshow, hr]
      · refine ⟨[], .ok s, ?_⟩
        simp only [pooledPasses, if_neg hmark]

theorem exists_pooledClose (hp : p.Ready) (A : Algebra) (cap mark : ℕ) (s : σ) :
    ∃ schedule o, pooledClose A p schedule cap mark s = some o := by
  obtain ⟨schedule, r, hr⟩ :=
    exists_pooledPasses hp cap A.operations (capacity A.size s + 1) mark s
  refine ⟨schedule, ?_⟩
  rw [pooledClose, hr]
  split
  · exact ⟨_, rfl⟩
  · exact ⟨_, rfl⟩

/-! ### All schedules -/

/-- Whatever a pool did before, with at least one worker: if it is at rest, then closing with it has
the outcome of closing sequentially, however its workers take turns.  If it still accepts tasks they
can take turns in some way. -/
def ScheduleFree (A : Algebra) (s : σ) : Prop :=
  ∀ (workers : ℕ) (before : List (WorkerPool.Event ℕ)) (p : WorkerPool ℕ), 0 < workers →
    (WorkerPool.start workers).run? before = some p → p.isIdle = true → ∀ cap mark,
      (∀ schedule o, pooledClose A p schedule cap mark s = some o →
        o = close A .sequential cap mark s) ∧
      (p.accepting = true → ∃ schedule o, pooledClose A p schedule cap mark s = some o)

/-- The schedule does not matter if the mode does not. -/
theorem scheduleFree_of_mode {A : Algebra} {s : σ}
    (h : ∀ cap mark, close A .parallel cap mark s = close A .sequential cap mark s) :
    ScheduleFree A s := by
  intro workers before p hpos hrun hidle cap mark
  obtain ⟨hp, hworkers, -⟩ := (WorkerPool.consistent_start workers).run hrun
  refine ⟨fun schedule o ho => (pooledClose_eq hp hidle ho).trans (h cap mark), ?_⟩
  intro haccepting
  exact exists_pooledClose (hp.ready hidle (hworkers ▸ hpos) haccepting) A cap mark s

end Closure

/-! ### The three kinds of closures -/

theorem SubuniverseClosure.scheduleFree {A : Algebra} (hA : A.Total) {s : SubuniverseClosure}
    (hs : s.Faithful A.size) : Closure.ScheduleFree A s := by
  refine Closure.scheduleFree_of_mode fun cap mark => ?_
  have hclosed : A.ClosedUnder Set.univ := fun _ _ _ _ _ _ => trivial
  exact Closure.close_mode (sustains hA hclosed) .sequential .parallel cap mark
    ⟨hs, fun _ _ => trivial⟩

theorem CongruenceClosure.scheduleFree {A : Algebra} (hA : A.Total) {s : CongruenceClosure}
    (hs : s.Faithful A.size) : Closure.ScheduleFree A s := by
  refine Closure.scheduleFree_of_mode fun cap mark => ?_
  exact Closure.close_mode (sustains hA ⊥ A.compatible_top) .sequential .parallel cap mark
    ⟨hs, bot_le, le_top⟩

namespace SubpowerClosure

open Closure

variable {τ : Type} {A : Algebra} {k : ℕ} {s : SubpowerClosure τ}

theorem scheduleFree (hA : A.Total) (hs : s.Faithful A k) : ScheduleFree A s :=
  scheduleFree_of_mode fun cap mark => close_mode hA hs .sequential .parallel cap mark

/-- An observer that also writes down what it is shown, the last tuple at the end. -/
def record (observe : τ → List ℕ → Bool × τ) (w : τ × List (List ℕ)) (t : List ℕ) :
    Bool × (τ × List (List ℕ)) :=
  ((observe w.1 t).1, ((observe w.1 t).2, w.2 ++ [t]))

/-- The closure with an observer that has written down nothing yet. -/
def recorded (s : SubpowerClosure τ) : SubpowerClosure (τ × List (List ℕ)) :=
  ⟨s.power, record s.observe, (s.observer, []), s.members, s.tuples⟩

/-- The closure without what was written down. -/
def unrecorded (observe : τ → List ℕ → Bool × τ) (s : SubpowerClosure (τ × List (List ℕ))) :
    SubpowerClosure τ :=
  ⟨s.power, observe, s.observer.1, s.members, s.tuples⟩

theorem Faithful.recorded (hs : s.Faithful A k) : s.recorded.Faithful A k :=
  ⟨hs.power_eq, hs.contains_iff, hs.mem_tuples, hs.nodup⟩

/-- Writing down what the observer is shown changes nothing else. -/
theorem close_recorded (hA : A.Total) (hs : s.Faithful A k) (mode : Mode) (cap mark : ℕ) :
    (close A mode cap mark s.recorded).map (unrecorded s.observe) = close A mode cap mark s := by
  have hT := (hA.isSubpower_tuples k).closedUnderColumns
  have hcarries : Carries A.operations (Within A k (record s.observe) (A.tuples k) fun _ _ => True)
      (unrecorded s.observe) := by
    refine ⟨fun _ => rfl, fun _ _ => rfl, fun _ _ _ _ => rfl, fun _ _ _ => rfl, ?_, ?_⟩
    · intro r t
      rw [knows_iff, knows_iff]
      rfl
    · intro r hr t _
      have haccept : Growth.accept (unrecorded s.observe r) t
          = .ok (if r.contains t then (.known, unrecorded s.observe r)
            else (if (record s.observe r.observer t).1 then .added else .stop,
              unrecorded s.observe (r.push t (record s.observe r.observer t).2))) := rfl
      rw [haccept, accept_eq, hr.observe_eq]
      cases r.contains t <;> rfl
  exact (close_map hcarries (sustains hA hT (watched_trivial _ _)) mode mode cap mark
    ⟨hs.recorded, rfl, hs.mem_tuples, trivial⟩).symm

end SubpowerClosure

/-- **If no operation fails, closing with workers is closing sequentially.**  For each kind of
closures, from every state, with every cap and settled part, and however many workers take turns in
whatever way: closing ends in the same way and leaves the same state, that is the same things
discovered in the same order, the same partition, and the same state of the observer.  In particular
an observer that writes down what it is shown has written down the same; and writing down changes
nothing else. -/
theorem Closure.pooledClose_eq_sequential {A : Algebra} (hA : A.Total) :
    (∀ s : SubuniverseClosure, s.Faithful A.size → ScheduleFree A s) ∧
    (∀ s : CongruenceClosure, s.Faithful A.size → ScheduleFree A s) ∧
    ∀ (τ : Type) (k : ℕ) (s : SubpowerClosure τ), s.Faithful A k →
      ScheduleFree A s ∧ ScheduleFree A s.recorded ∧
      ∀ mode cap mark, (close A mode cap mark s.recorded).map (.unrecorded s.observe)
        = close A mode cap mark s := by
  refine ⟨?_, ?_, ?_⟩
  · exact fun s hs => SubuniverseClosure.scheduleFree hA hs
  · exact fun s hs => CongruenceClosure.scheduleFree hA hs
  · intro τ k s hs
    exact ⟨SubpowerClosure.scheduleFree hA hs, SubpowerClosure.scheduleFree hA hs.recorded,
      SubpowerClosure.close_recorded hA hs⟩

/-- Two workers find the multiples of one modulo four in the order in which they are found without
workers, however they take turns. -/
theorem Closure.pooledClose_one_residuesModFour :
    (∃ schedule o, pooledClose Algebra.residuesModFour (.start 2) schedule 0 0
        ((SubuniverseClosure.start 4).foldAll [1]) = some o) ∧
      ∀ schedule o, pooledClose Algebra.residuesModFour (.start 2) schedule 0 0
        ((SubuniverseClosure.start 4).foldAll [1]) = some o → o.state.elements = #[1, 2, 3, 0] := by
  have hs : ((SubuniverseClosure.start 4).foldAll [1]).Faithful 4 :=
    ((SubuniverseClosure.faithful_start 4).foldAll (by simp)).1
  obtain ⟨hsubuniverse, -⟩ := Closure.pooledClose_eq_sequential Algebra.total_residuesModFour
  obtain ⟨hsame, hexists⟩ := hsubuniverse _ hs 2 [] (.start 2) (by decide) rfl rfl 0 0
  refine ⟨hexists rfl, ?_⟩
  intro schedule o ho
  rw [hsame schedule o ho]
  cbv

end UniversalAlgebra
