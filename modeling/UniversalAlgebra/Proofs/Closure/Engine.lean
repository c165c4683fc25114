/-
**What closing a discovered sequence achieves.**

A pass, sequential or parallel, works off what comes of its arguments when it starts, in one order:
sequentially up to the first failure, in parallel only if there is none.  As long as no operation
fails, the two modes do the same, and when closing ends because nothing is fresh, every image of
what was discovered is known.  The argument is the same for elements, pairs and tuples, and it is
made here once, relative to an invariant `J` of the states that are gone through and to what holds,
`K`, in a state in which the closure asked to stop.

Main definitions:

* `Closure.drawn`, `Closure.IsImage`, `Closure.Knows` — the arguments of a pass, their images, and
  what a closure has taken in;
* `Closure.outcomes`, `Closure.collect` — what comes of the arguments of a pass, and the images among
  it or the first failure;
* `Closure.SettledBelow` — the images of the first items are known;
* `LawfulGrowth` — the arguments are drawn as promised;
* `Closure.Extends` — a state with more items;
* `Closure.Upholds` — taking in what the operations give keeps an invariant;
* `Closure.Steady`, `Closure.Sustains` — an invariant under which every image can be shown, and one
  under which every image can be computed as well.

Main results:

* `Closure.sequentialPass_eq`, `Closure.parallelPass_eq` — what a pass does with what comes of its
  arguments;
* `Closure.pass_eq` — **both modes of a pass show the same images in the same order**;
* `Closure.close_spec` — **closing ends closed with every image known, or capped, or stopped**;
* `Closure.close_closed` — without a cap and without a stop it ends closed.
-/

import Mathlib
import UniversalAlgebra.Closure.Engine

set_option autoImplicit false

namespace UniversalAlgebra

open Growth

namespace Closure

variable {σ ι : Type} [Growth σ ι]

/-! ### Arguments and images -/

/-- The arguments that use an item numbered in `[start, stop)` and otherwise items below `stop`. -/
def drawn (s : σ) (op : Operation) (start stop : ℕ) : List (List ℕ) :=
  (arguments s op start stop).flatMap Tuples.inBox

/-- The item is the image of arguments among the items discovered so far. -/
def IsImage (ops : List Operation) (s : σ) (x : ι) : Prop :=
  ∃ op ∈ ops, ∃ args ∈ drawn s op 0 (size s), image s op args = .ok (some x)

/-- The item was taken in: showing it changes nothing. -/
def Knows (s : σ) (x : ι) : Prop := accept s x = .ok (.known, s)

/-- Every image of arguments among the items numbered below `stop` is known. -/
def SettledBelow (ops : List Operation) (s : σ) (stop : ℕ) : Prop :=
  ∀ op ∈ ops, ∀ args ∈ drawn s op 0 stop, ∀ x, image s op args = .ok (some x) → Knows s x

/-- The image of some arguments, if it is worth showing. -/
def imageAt (s : σ) (op : Operation) (args : List ℕ) : Option ι :=
  match image s op args with
  | .ok found => found
  | .error _ => none

/-- The images that a pass shows. -/
def passImages (ops : List Operation) (start stop : ℕ) (s : σ) : List ι :=
  ops.flatMap fun op => (drawn s op start stop).filterMap (imageAt s op)

/-- What comes of the arguments of a pass, in the order in which they are drawn. -/
def outcomes (ops : List Operation) (start stop : ℕ) (s : σ) : List (Except Fault (Option ι)) :=
  ops.flatMap fun op => (drawn s op start stop).map (image s op)

/-- The images that are worth showing, or the first failure. -/
def collect : List (Except Fault (Option ι)) → Except Fault (List ι)
  | [] => .ok []
  | .error fault :: _ => .error fault
  | .ok none :: os => collect os
  | .ok (some x) :: os => (x :: ·) <$> collect os

/-- Shows an image that is worth it, and ends at a failure. -/
def absorbOutcome (cap : ℕ) (s : σ) : Except Fault (Option ι) → Except (Halt σ) σ
  | .error fault => .error ⟨.raised fault, s⟩
  | .ok none => .ok s
  | .ok (some x) => absorb cap s x

theorem image_of_imageAt {s : σ} {op : Operation} {args : List ℕ} {x : ι}
    (h : imageAt s op args = some x) : image s op args = .ok (some x) := by
  rw [imageAt] at h
  split at h
  · next hfound => rw [hfound, h]
  · cases h

/-- The images that a pass shows are among what comes of its arguments. -/
theorem mem_outcomes_of_mem_passImages {ops : List Operation} {s : σ}
    {start stop : ℕ} {x : ι} (hx : x ∈ passImages ops start stop s) :
    .ok (some x) ∈ outcomes ops start stop s := by
  obtain ⟨op, hop, hx⟩ := List.mem_flatMap.1 hx
  obtain ⟨args, hargs, himage⟩ := List.mem_filterMap.1 hx
  exact List.mem_flatMap.2 ⟨op, hop, List.mem_map.2 ⟨args, hargs, image_of_imageAt himage⟩⟩

end Closure

/-- The arguments of a pass are drawn as promised: they use items below `stop` only, and what uses
no item from `start` on is drawn from the items below `start`. -/
class LawfulGrowth (σ : Type) {ι : outParam Type} [Growth σ ι] : Prop where
  drawn_zero {s : σ} {op : Operation} {args : List ℕ} : args ∉ Closure.drawn s op 0 0
  drawn_mono {s : σ} {op : Operation} {start stop stop' : ℕ} {args : List ℕ} (h : stop ≤ stop') :
    args ∈ Closure.drawn s op start stop → args ∈ Closure.drawn s op 0 stop'
  drawn_split {s : σ} {op : Operation} {start stop : ℕ} {args : List ℕ} :
    args ∈ Closure.drawn s op 0 stop →
      args ∈ Closure.drawn s op 0 start ∨ args ∈ Closure.drawn s op start stop

namespace Closure

variable {σ ι : Type} [Growth σ ι]

/-- Before the first item there is nothing to settle. -/
theorem settledBelow_zero [LawfulGrowth σ] (ops : List Operation) (s : σ) :
    SettledBelow ops s 0 :=
  fun _ _ _ hargs => absurd hargs LawfulGrowth.drawn_zero

/-! ### States with more items -/

/-- The state `s'` has the items of `s` and perhaps more: what could be drawn from `s` is drawn from
`s'` and has the same image, and what `s` knows is known to `s'`. -/
structure Extends (s s' : σ) : Prop where
  size_le : size s ≤ size s'
  capacity_eq : ∀ n, capacity n s' = capacity n s
  arguments_eq : ∀ op start stop, arguments s' op start stop = arguments s op start stop
  image_eq : ∀ op, ∀ args ∈ drawn s op 0 (size s), image s' op args = image s op args
  knows : ∀ x, Knows s x → Knows s' x

namespace Extends

variable {s s' s'' : σ}

theorem refl (s : σ) : Extends s s :=
  ⟨Nat.le_refl _, fun _ => rfl, fun _ _ _ => rfl, fun _ _ _ => rfl, fun _ h => h⟩

theorem drawn_eq (h : Extends s s') (op : Operation) (start stop : ℕ) :
    drawn s' op start stop = drawn s op start stop := by
  rw [drawn, drawn, h.arguments_eq]

theorem mem_drawn [LawfulGrowth σ] (h : Extends s s') {op : Operation} {args : List ℕ}
    (hargs : args ∈ drawn s op 0 (size s)) : args ∈ drawn s' op 0 (size s') := by
  rw [h.drawn_eq]
  exact LawfulGrowth.drawn_mono h.size_le hargs

theorem trans [LawfulGrowth σ] (h : Extends s s') (h' : Extends s' s'') : Extends s s'' where
  size_le := Nat.le_trans h.size_le h'.size_le
  capacity_eq n := (h'.capacity_eq n).trans (h.capacity_eq n)
  arguments_eq op start stop :=
    (h'.arguments_eq op start stop).trans (h.arguments_eq op start stop)
  image_eq op args hargs :=
    (h'.image_eq op args (h.mem_drawn hargs)).trans (h.image_eq op args hargs)
  knows x hx := h'.knows x (h.knows x hx)

theorem isImage [LawfulGrowth σ] (h : Extends s s') {ops : List Operation} {x : ι}
    (hx : IsImage ops s x) : IsImage ops s' x := by
  obtain ⟨op, hop, args, hargs, himage⟩ := hx
  exact ⟨op, hop, args, h.mem_drawn hargs, (h.image_eq op args hargs).trans himage⟩

/-- What was settled stays settled. -/
theorem settledBelow [LawfulGrowth σ] (h : Extends s s') {ops : List Operation} {stop : ℕ}
    (hstop : stop ≤ size s) (hs : SettledBelow ops s stop) : SettledBelow ops s' stop := by
  intro op hop args hargs x hx
  rw [h.drawn_eq] at hargs
  rw [h.image_eq op args (LawfulGrowth.drawn_mono hstop hargs)] at hx
  exact h.knows x (hs op hop args hargs x hx)

end Extends

/-! ### Invariants -/

/-- What showing an image can lead to: it was known, or it was taken in, which keeps the invariant
`J`, or it was taken in with a request to stop, upon which `K` holds. -/
inductive Accepted (J K : σ → Prop) (s : σ) (x : ι) : Prop
  | known (h : Knows s x) : Accepted J K s x
  | added (s' : σ) (h : accept s x = .ok (.added, s')) (inv : J s') (extended : Extends s s')
      (knows : Knows s' x) : Accepted J K s x
  | stop (s' : σ) (h : accept s x = .ok (.stop, s')) (inv : K s') : Accepted J K s x

/-- Under the invariant `J` every image can be computed and shown, and there is room for it. -/
structure Sustains (ops : List Operation) (n : ℕ) (J K : σ → Prop) : Prop where
  image_ok {s : σ} (hs : J s) {op : Operation} (hop : op ∈ ops) {args : List ℕ}
    (hargs : args ∈ drawn s op 0 (size s)) : ∃ found, image s op args = .ok found
  accept_ok {s : σ} (hs : J s) {x : ι} (hx : IsImage ops s x) : Accepted J K s x
  size_le {s : σ} (hs : J s) : size s ≤ capacity n s

/-- There are not more items than the cap allows; a cap of zero is none. -/
def WithinCap (cap : ℕ) (s : σ) : Prop := cap ≠ 0 → size s ≤ cap

/-- How a part of a run ends: it got through to a state with `P`, or too many items were found, or
the closure asked to stop.  It does not fail. -/
def Ends (cap : ℕ) (J K P : σ → Prop) : Except (Halt σ) σ → Prop
  | .ok s => P s
  | .error ⟨.capped, s⟩ => J s ∧ cap ≠ 0 ∧ cap < size s
  | .error ⟨.stopped, s⟩ => K s
  | .error ⟨.raised _, _⟩ => False

/-- What holds between a state and a later one of the same run. -/
structure Reached (cap : ℕ) (J : σ → Prop) (s s' : σ) : Prop where
  inv : J s'
  extended : Extends s s'
  within : WithinCap cap s → WithinCap cap s'

theorem Reached.refl {cap : ℕ} {J : σ → Prop} {s : σ} (hs : J s) : Reached cap J s s :=
  ⟨hs, .refl s, fun h => h⟩

theorem Reached.trans [LawfulGrowth σ] {cap : ℕ} {J : σ → Prop} {s s' s'' : σ}
    (h : Reached cap J s s') (h' : Reached cap J s' s'') : Reached cap J s s'' :=
  ⟨h'.inv, h.extended.trans h'.extended, fun hs => h'.within (h.within hs)⟩

namespace Ends

variable {cap : ℕ} {J K P Q : σ → Prop} {r : Except (Halt σ) σ}

theorem mono (h : Ends cap J K P r) (hPQ : ∀ s, P s → Q s) : Ends cap J K Q r := by
  cases r with
  | ok s => exact hPQ s h
  | error halt =>
      obtain ⟨reason, s⟩ := halt
      cases reason <;> exact h

theorem bind {f : σ → Except (Halt σ) σ} (h : Ends cap J K P r)
    (hf : ∀ s, P s → Ends cap J K Q (f s)) : Ends cap J K Q (r >>= f) := by
  cases r with
  | ok s => exact hf s h
  | error halt =>
      obtain ⟨reason, s⟩ := halt
      cases reason <;> exact h

end Ends

section Run

variable {ops : List Operation} {n cap : ℕ} {J K : σ → Prop}

/-! ### What comes of the arguments of a pass -/

theorem collect_append (os os' : List (Except Fault (Option ι))) :
    collect (os ++ os') = collect os >>= fun xs => (xs ++ ·) <$> collect os' := by
  induction os with
  | nil => cases h : collect os' <;> simp [collect, h] <;> rfl
  | cons o os ih =>
      match o with
      | .error fault => rfl
      | .ok none => exact ih
      | .ok (some x) =>
          rw [List.cons_append, collect, collect, ih]
          cases collect os <;> cases collect os' <;> rfl

theorem absorbImage_eq (cap : ℕ) (op : Operation) (s : σ) (args : List ℕ) :
    absorbImage cap op s args = absorbOutcome cap s (image s op args) := by
  rw [absorbImage]
  cases image s op args with
  | error fault => rfl
  | ok found => cases found <;> rfl

/-- A buffer holds what is worth showing, or the first failure. -/
theorem images_eq (s : σ) (start stop : ℕ) (op : Operation) :
    images s start stop op
      = List.toArray <$> collect ((drawn s op start stop).map (image s op)) := by
  -- the same after some images were found
  have go (argss : List (List ℕ)) (found : Array ι) :
      argss.foldlM (fun found args =>
          match image s op args with
          | .error fault => .error fault
          | .ok none => .ok found
          | .ok (some x) => .ok (found.push x)) found
        = (fun xs => found ++ List.toArray xs) <$> collect (argss.map (image s op)) := by
    induction argss generalizing found with
    | nil => simp [collect]; rfl
    | cons args argss ih =>
        rw [List.foldlM_cons, List.map_cons]
        match himage : image s op args with
        | .error fault => rfl
        | .ok none => exact ih found
        | .ok (some x) =>
            refine (ih (found.push x)).trans ?_
            rw [collect]
            cases collect (argss.map (image s op)) with
            | error fault => rfl
            | ok xs => simp
  rw [images, Tuples.foldBoxes_eq_foldlM]
  refine (go _ #[]).trans ?_
  simp [drawn]

/-- A parallel pass raises the first failure before it shows anything. -/
theorem parallelPass_eq (cap : ℕ) (ops : List Operation) (start stop : ℕ) (s : σ) :
    parallelPass cap ops start stop s
      = match collect (outcomes ops start stop s) with
        | .error fault => .error ⟨.raised fault, s⟩
        | .ok xs => xs.foldlM (absorb cap) s := by
  -- the buffers, one after the other, hold what can be collected of all outcomes
  have hbuffers (rest : List Operation) :
      (fun buffers => buffers.flatMap Array.toList) <$> rest.mapM (images s start stop)
        = collect (outcomes rest start stop s) := by
    induction rest with
    | nil => rfl
    | cons op rest ih =>
        rw [outcomes, List.flatMap_cons, collect_append, ← outcomes, ← ih, List.mapM_cons, images_eq]
        cases collect ((drawn s op start stop).map (image s op)) <;>
          cases rest.mapM (images s start stop) <;> rfl
  rw [parallelPass, ← hbuffers ops]
  cases ops.mapM (images s start stop) with
  | error fault => rfl
  | ok buffers => exact (Tuples.foldlM_flatMap_eq Array.toList (absorb cap) buffers s).symm

/-- If nothing fails, what comes of some arguments is shown one after the other. -/
theorem foldlM_absorbOutcome_of_collect {os : List (Except Fault (Option ι))} {xs : List ι}
    (h : collect os = .ok xs) (s : σ) :
    os.foldlM (absorbOutcome cap) s = xs.foldlM (absorb cap) s := by
  induction os generalizing xs s with
  | nil =>
      cases h
      rfl
  | cons o os ih =>
      rw [List.foldlM_cons]
      match o with
      | .error fault => cases h
      | .ok none => exact ih h s
      | .ok (some x) =>
          rw [collect] at h
          cases hrest : collect os with
          | error fault =>
              rw [hrest] at h
              cases h
          | ok ys =>
              rw [hrest] at h
              cases h
              rw [List.foldlM_cons]
              exact congrArg (absorb cap s x >>= ·) (funext fun t => ih hrest t)

/-! ### What a run keeps -/

/-- In a state with `J` the operations give items with `P`, and taking in such an item keeps `J`. -/
structure Upholds (ops : List Operation) (P : ι → Prop) (J : σ → Prop) : Prop where
  image {s : σ} {op : Operation} {args : List ℕ} {x : ι} (hs : J s) (hop : op ∈ ops)
    (h : image s op args = .ok (some x)) : P x
  accept {s s' : σ} {x : ι} {r : Reaction} (hs : J s) (hx : P x) (h : accept s x = .ok (r, s')) : J s'

section Keeps

variable {P : ι → Prop} {s : σ}

omit [Growth σ ι] in
/-- What each step of a run keeps, the whole run keeps, also if a step ends it. -/
theorem keeps_foldlM {α : Type} {f : σ → α → Except (Halt σ) σ} {xs : List α}
    (hf : ∀ s, ∀ x ∈ xs, J s → J (Outcome.ofPasses (f s x)).state) (hs : J s) :
    J (Outcome.ofPasses (xs.foldlM f s)).state := by
  induction xs generalizing s with
  | nil => exact hs
  | cons x xs ih =>
      have hfirst := hf s x List.mem_cons_self hs
      rw [List.foldlM_cons]
      cases hr : f s x with
      | error halt =>
          rw [hr] at hfirst
          exact hfirst
      | ok s' =>
          rw [hr] at hfirst
          exact ih (fun t y hy => hf t y (List.mem_cons_of_mem x hy)) hfirst

namespace Upholds

theorem absorb (h : Upholds ops P J) (cap : ℕ) (hs : J s) {x : ι} (hx : P x) :
    J (Outcome.ofPasses (Closure.absorb cap s x)).state := by
  rw [Closure.absorb]
  cases haccept : Growth.accept s x with
  | error fault => exact hs
  | ok reacted =>
      obtain ⟨r, s'⟩ := reacted
      have hs' : J s' := h.accept hs hx haccept
      cases r with
      | known => exact hs'
      | stop => exact hs'
      | added =>
          dsimp only
          split <;> exact hs'

theorem absorbImage (h : Upholds ops P J) (cap : ℕ) {op : Operation} (hop : op ∈ ops) (hs : J s)
    (args : List ℕ) : J (Outcome.ofPasses (Closure.absorbImage cap op s args)).state := by
  rw [Closure.absorbImage]
  cases himage : Growth.image s op args with
  | error fault => exact hs
  | ok found =>
      cases found with
      | none => exact hs
      | some x => exact h.absorb cap hs (h.image hs hop himage)

theorem sequentialPass (h : Upholds ops P J) (cap start stop : ℕ) (hs : J s) :
    J (Outcome.ofPasses (Closure.sequentialPass cap ops start stop s)).state := by
  refine keeps_foldlM (fun t op hop ht => ?_) hs
  rw [Tuples.foldBoxes_eq_foldlM]
  exact keeps_foldlM (fun u args _ hu => h.absorbImage cap hop hu args) ht

end Upholds

end Keeps

/-! ### Showing images -/

/-- Under the invariant every image can be shown, and unless closing stops there the invariant is
kept. -/
def Steady (ops : List Operation) (J : σ → Prop) : Prop :=
  ∀ s x, J s → IsImage ops s x →
    ∃ r s', accept s x = .ok (r, s') ∧ (r ≠ .stop → J s' ∧ Extends s s')

theorem Sustains.steady (hJ : Sustains ops n J K) : Steady ops J := by
  intro s x hs hx
  cases hJ.accept_ok hs hx with
  | known h => exact ⟨.known, s, h, fun _ => ⟨hs, .refl s⟩⟩
  | added s' h inv extended _ => exact ⟨.added, s', h, fun _ => ⟨inv, extended⟩⟩
  | stop s' h _ => exact ⟨.stop, s', h, fun hne => absurd rfl hne⟩

/-- How showing what comes of some arguments ends, relative to what can be collected of it: with all
of it shown and the invariant kept, or because of the cap or a stop, or at the first failure. -/
inductive Absorbed (J : σ → Prop) (s : σ) (found : Except Fault (List ι)) :
    Except (Halt σ) σ → Prop
  | through {s' : σ} {xs : List ι} (inv : J s') (extended : Extends s s') (all : found = .ok xs) :
      Absorbed J s found (.ok s')
  | capped {s' : σ} : Absorbed J s found (.error ⟨.capped, s'⟩)
  | stopped {s' : σ} : Absorbed J s found (.error ⟨.stopped, s'⟩)
  | raised {fault : Fault} {s' : σ} (first : found = .error fault) :
      Absorbed J s found (.error ⟨.raised fault, s'⟩)

theorem Absorbed.map {s : σ} {found : Except Fault (List ι)} {r : Except (Halt σ) σ}
    (h : Absorbed J s found r) (f : List ι → List ι) : Absorbed J s (f <$> found) r := by
  cases h with
  | through inv extended all =>
      rw [all]
      exact .through inv extended rfl
  | capped => exact .capped
  | stopped => exact .stopped
  | raised first =>
      rw [first]
      exact .raised rfl

theorem absorb_ends (cap : ℕ) (hJ : Sustains ops n J K) {s : σ} (hs : J s) {x : ι}
    (hx : IsImage ops s x) :
    Ends cap J K (fun s' => Reached cap J s s' ∧ Knows s' x) (absorb cap s x) := by
  cases hJ.accept_ok hs hx with
  | known h =>
      simp only [absorb, show accept s x = .ok (.known, s) from h]
      exact ⟨.refl hs, h⟩
  | stop s' h hK =>
      simp only [absorb, h]
      exact hK
  | added s' h hs' hext hknows =>
      simp only [absorb, h]
      by_cases hcap : cap ≠ 0 ∧ cap < size s'
      · rw [if_pos hcap]
        exact ⟨hs', hcap⟩
      · rw [if_neg hcap]
        exact ⟨⟨hs', hext, fun _ h0 => Nat.not_lt.1 fun hlt => hcap ⟨h0, hlt⟩⟩, hknows⟩

variable [LawfulGrowth σ]

/-- After the images of a list were shown, all of them are known. -/
theorem foldlM_absorb_ends (cap : ℕ) (hJ : Sustains ops n J K) {s : σ} (hs : J s) {xs : List ι}
    (hxs : ∀ x ∈ xs, IsImage ops s x) :
    Ends cap J K (fun s' => Reached cap J s s' ∧ ∀ x ∈ xs, Knows s' x)
      (xs.foldlM (absorb cap) s) := by
  induction xs generalizing s with
  | nil => exact ⟨.refl hs, by simp⟩
  | cons x xs ih =>
      rw [List.foldlM_cons]
      refine (absorb_ends cap hJ hs (hxs x List.mem_cons_self)).bind ?_
      rintro s' ⟨hreach, hx⟩
      have hrest := ih hreach.inv fun y hy =>
        hreach.extended.isImage (hxs y (List.mem_cons_of_mem x hy))
      refine hrest.mono ?_
      rintro s'' ⟨hreach', hknows⟩
      refine ⟨hreach.trans hreach', ?_⟩
      intro y hy
      rcases List.mem_cons.1 hy with rfl | hy
      · exact hreach'.extended.knows y hx
      · exact hknows y hy

/-! ### Passes -/

theorem isImage_of_mem_outcomes {s : σ} {start stop : ℕ} (hstop : stop ≤ size s) {x : ι}
    (hx : .ok (some x) ∈ outcomes ops start stop s) : IsImage ops s x := by
  obtain ⟨op, hop, hx⟩ := List.mem_flatMap.1 hx
  obtain ⟨args, hargs, himage⟩ := List.mem_map.1 hx
  exact ⟨op, hop, args, LawfulGrowth.drawn_mono hstop hargs, himage⟩

theorem isImage_of_mem_passImages {s : σ} {start stop : ℕ} (hstop : stop ≤ size s) {x : ι}
    (hx : x ∈ passImages ops start stop s) : IsImage ops s x :=
  isImage_of_mem_outcomes hstop (mem_outcomes_of_mem_passImages hx)

theorem absorbOutcome_absorbed (cap : ℕ) (hJ : Steady ops J) {s t : σ} (ht : J t)
    (hext : Extends s t) {o : Except Fault (Option ι)} (ho : ∀ x, o = .ok (some x) → IsImage ops s x) :
    Absorbed J s (collect [o]) (absorbOutcome cap t o) := by
  match o with
  | .error fault => exact .raised rfl
  | .ok none => exact .through ht hext rfl
  | .ok (some x) =>
      obtain ⟨r, t', haccept, hkeep⟩ := hJ t x ht (hext.isImage (ho x rfl))
      rw [absorbOutcome, absorb, haccept]
      cases r with
      | stop => exact .stopped
      | known =>
          obtain ⟨inv, extended⟩ := hkeep (by simp)
          exact .through inv (hext.trans extended) rfl
      | added =>
          obtain ⟨inv, extended⟩ := hkeep (by simp)
          dsimp only
          split
          · exact .capped
          · exact .through inv (hext.trans extended) rfl

theorem foldlM_absorbOutcome_absorbed (cap : ℕ) (hJ : Steady ops J) {s t : σ} (ht : J t)
    (hext : Extends s t) {os : List (Except Fault (Option ι))}
    (hos : ∀ x, .ok (some x) ∈ os → IsImage ops s x) :
    Absorbed J s (collect os) (os.foldlM (absorbOutcome cap) t) := by
  -- the state `t` moves on, while the images stay those of the state `s` at the start
  induction os generalizing t with
  | nil => exact .through ht hext rfl
  | cons o os ih =>
      have hfirst := absorbOutcome_absorbed cap hJ ht hext
        fun x (hx : o = .ok (some x)) => hos x (hx ▸ List.mem_cons_self)
      have hcollect : collect (o :: os) = collect [o] >>= fun xs => (xs ++ ·) <$> collect os :=
        collect_append [o] os
      rw [hcollect, List.foldlM_cons]
      cases hr : absorbOutcome cap t o with
      | ok t' =>
          rw [hr] at hfirst
          obtain ⟨inv, extended, all⟩ := hfirst
          rw [all]
          exact (ih inv extended fun x hx => hos x (List.mem_cons_of_mem o hx)).map _
      | error halt =>
          rw [hr] at hfirst
          cases hfirst with
          | capped => exact .capped
          | stopped => exact .stopped
          | raised first =>
              rw [first]
              exact .raised rfl

/-- Computing the images of a list of arguments one by one and showing each at once is showing what
comes of them before the first is shown. -/
theorem foldlM_absorbImage_eq (hJ : Steady ops J) {s t : σ} (ht : J t) (hext : Extends s t)
    {op : Operation} (hop : op ∈ ops) {argss : List (List ℕ)}
    (hargss : ∀ args ∈ argss, args ∈ drawn s op 0 (size s)) :
    argss.foldlM (absorbImage cap op) t
      = (argss.map (image s op)).foldlM (absorbOutcome cap) t := by
  induction argss generalizing t with
  | nil => rfl
  | cons args argss ih =>
      have hargs := hargss args List.mem_cons_self
      rw [List.foldlM_cons, List.map_cons, List.foldlM_cons, absorbImage_eq,
        hext.image_eq op args hargs]
      have hfirst := absorbOutcome_absorbed cap hJ ht hext
        fun x hx => ⟨op, hop, args, hargs, hx⟩
      cases hr : absorbOutcome cap t (image s op args) with
      | error halt => rfl
      | ok t' =>
          rw [hr] at hfirst
          obtain ⟨inv, extended, -⟩ := hfirst
          exact ih inv extended fun a ha => hargss a (List.mem_cons_of_mem args ha)

/-- A sequential pass shows what comes of its arguments when it starts. -/
theorem sequentialPass_eq (hJ : Steady ops J) {s : σ} (hs : J s) {start stop : ℕ}
    (hstop : stop ≤ size s) :
    sequentialPass cap ops start stop s
      = (outcomes ops start stop s).foldlM (absorbOutcome cap) s := by
  -- the same for some of the operations and any state gone through
  have go (rest : List Operation) (hsub : ∀ op ∈ rest, op ∈ ops) (t : σ) (ht : J t)
      (hext : Extends s t) :
      sequentialPass cap rest start stop t
        = (outcomes rest start stop s).foldlM (absorbOutcome cap) t := by
    induction rest generalizing t with
    | nil => rfl
    | cons op rest ih =>
        have hop := hsub op List.mem_cons_self
        have hdrawn : ∀ args ∈ drawn s op start stop, args ∈ drawn s op 0 (size s) :=
          fun args hargs => LawfulGrowth.drawn_mono hstop hargs
        have hfirst : Tuples.foldBoxes (arguments t op start stop) (absorbImage cap op) t
            = ((drawn s op start stop).map (image s op)).foldlM (absorbOutcome cap) t := by
          rw [Tuples.foldBoxes_eq_foldlM, hext.arguments_eq]
          exact foldlM_absorbImage_eq hJ ht hext hop hdrawn
        have himages : ∀ x, .ok (some x) ∈ (drawn s op start stop).map (image s op) →
            IsImage ops s x := by
          intro x hx
          obtain ⟨args, hargs, himage⟩ := List.mem_map.1 hx
          exact ⟨op, hop, args, hdrawn args hargs, himage⟩
        rw [outcomes, List.flatMap_cons, List.foldlM_append]
        change (Tuples.foldBoxes _ _ t >>= sequentialPass cap rest start stop) = _
        rw [hfirst]
        have hshown := foldlM_absorbOutcome_absorbed cap hJ ht hext himages
        cases hr : ((drawn s op start stop).map (image s op)).foldlM (absorbOutcome cap) t with
        | error halt => rfl
        | ok t' =>
            rw [hr] at hshown
            obtain ⟨inv, extended, -⟩ := hshown
            exact ih (fun o ho => hsub o (List.mem_cons_of_mem op ho)) t' inv extended
  exact go ops (fun _ h => h) s hs (.refl s)

/-- Under an invariant that keeps everything from failing, the images of a pass are all there is. -/
theorem collect_outcomes (hJ : Sustains ops n J K) {s : σ} (hs : J s) (start : ℕ) {stop : ℕ}
    (hstop : stop ≤ size s) :
    collect (outcomes ops start stop s) = .ok (passImages ops start stop s) := by
  have hone (op : Operation) (hop : op ∈ ops) (argss : List (List ℕ))
      (hargss : ∀ args ∈ argss, args ∈ drawn s op 0 (size s)) :
      collect (argss.map (image s op)) = .ok (argss.filterMap (imageAt s op)) := by
    induction argss with
    | nil => rfl
    | cons args argss ih =>
        have hrest := ih fun a ha => hargss a (List.mem_cons_of_mem args ha)
        obtain ⟨found, hfound⟩ := hJ.image_ok hs hop (hargss args List.mem_cons_self)
        rw [List.map_cons, List.filterMap_cons, imageAt, hfound]
        cases found with
        | none => exact hrest
        | some x => rw [collect, hrest]; rfl
  have hall (rest : List Operation) (hsub : ∀ op ∈ rest, op ∈ ops) :
      collect (outcomes rest start stop s) = .ok (passImages rest start stop s) := by
    induction rest with
    | nil => rfl
    | cons op rest ih =>
        rw [outcomes, List.flatMap_cons, collect_append, ← outcomes,
          hone op (hsub op List.mem_cons_self) _ fun args hargs =>
            LawfulGrowth.drawn_mono hstop hargs,
          ih fun o ho => hsub o (List.mem_cons_of_mem op ho)]
        rfl
  exact hall ops fun _ h => h

/-- **Both modes of a pass show the same images in the same order.** -/
theorem pass_eq (hJ : Sustains ops n J K) {s : σ} (hs : J s) {start stop : ℕ}
    (hstop : stop ≤ size s) (mode : Mode) :
    pass mode cap ops start stop s = (passImages ops start stop s).foldlM (absorb cap) s := by
  have hcollect := collect_outcomes hJ hs start hstop
  cases mode with
  | sequential =>
      exact (sequentialPass_eq hJ.steady hs hstop).trans (foldlM_absorbOutcome_of_collect hcollect s)
  | parallel =>
      refine (parallelPass_eq cap ops start stop s).trans ?_
      rw [hcollect]

/-- A pass settles what was there when it started, if what was not fresh was settled. -/
theorem pass_ends (cap : ℕ) (hJ : Sustains ops n J K) {s : σ} (hs : J s) {start : ℕ}
    (hstart : start ≤ size s) (hsettled : SettledBelow ops s start) (mode : Mode) :
    Ends cap J K (fun s' => Reached cap J s s' ∧ SettledBelow ops s' (size s))
      (pass mode cap ops start (size s) s) := by
  rw [pass_eq hJ hs (Nat.le_refl _)]
  have himages := foldlM_absorb_ends cap hJ hs
    fun x (hx : x ∈ passImages ops start (size s) s) =>
      isImage_of_mem_passImages (Nat.le_refl _) hx
  refine himages.mono ?_
  rintro s' ⟨hreach, hknows⟩
  refine ⟨hreach, ?_⟩
  intro op hop args hargs x hx
  have hsplit : args ∈ drawn s' op 0 start ∨ args ∈ drawn s' op start (size s) :=
    LawfulGrowth.drawn_split hargs
  rcases hsplit with hold | hfresh
  · exact hreach.extended.settledBelow hstart hsettled op hop args hold x hx
  · rw [hreach.extended.drawn_eq] at hfresh hargs
    rw [hreach.extended.image_eq op args hargs] at hx
    refine hknows x (List.mem_flatMap.2 ⟨op, hop, List.mem_filterMap.2 ⟨args, hfresh, ?_⟩⟩)
    rw [imageAt, hx]

/-! ### Closing -/

/-- Each pass but the last adds an item, so that passes end before the fuel does. -/
theorem passes_ends (cap fuel : ℕ) (hJ : Sustains ops n J K) (mode : Mode) {mark : ℕ} {s : σ}
    (hs : J s) (hmark : mark ≤ size s) (hsettled : SettledBelow ops s mark)
    (hfuel : capacity n s < mark + fuel) :
    Ends cap J K (fun s' => Reached cap J s s' ∧ SettledBelow ops s' (size s'))
      (passes mode cap ops fuel mark s) := by
  induction fuel generalizing mark s with
  | zero =>
      have := hJ.size_le hs
      omega
  | succ fuel ih =>
      rw [passes]
      by_cases hlt : mark < size s
      · rw [if_pos hlt]
        have hpass := pass_ends cap hJ hs hmark hsettled mode
        cases hresult : pass mode cap ops mark (size s) s with
        | error halt =>
            rw [hresult] at hpass
            obtain ⟨reason, s'⟩ := halt
            cases reason <;> exact hpass
        | ok s' =>
            rw [hresult] at hpass
            obtain ⟨hreach, hsettled'⟩ := hpass
            have hcapacity := hreach.extended.capacity_eq n
            have hrest := ih hreach.inv hreach.extended.size_le hsettled' (by omega)
            refine hrest.mono ?_
            rintro s'' ⟨hreach', h⟩
            exact ⟨hreach.trans hreach', h⟩
      · rw [if_neg hlt]
        have hsize : size s = mark := by omega
        exact ⟨.refl hs, hsize ▸ hsettled⟩

end Run

section Close

variable [LawfulGrowth σ] {A : Algebra} {cap mark : ℕ} {J K : σ → Prop} {s : σ}

/-- **Closing ends in one of three ways**: closed, and then every image of what was discovered is
known; with more items than the cap allows; or at the request of the closure. -/
theorem close_spec (cap : ℕ) (hJ : Sustains A.operations A.size J K) (mode : Mode) (hs : J s)
    (hsettled : SettledBelow A.operations s mark) :
    ∃ s', (close A mode cap mark s = ⟨.ok .closed, s'⟩ ∧ Reached cap J s s' ∧
        SettledBelow A.operations s' (size s')) ∨
      (close A mode cap mark s = ⟨.ok .capped, s'⟩ ∧ J s' ∧ cap ≠ 0 ∧ cap < size s') ∨
      (close A mode cap mark s = ⟨.ok .stopped, s'⟩ ∧ K s') := by
  rw [close]
  by_cases hidle : A.operations.isEmpty ∨ size s ≤ mark
  · rw [if_pos hidle]
    refine ⟨s, Or.inl ⟨rfl, .refl hs, ?_⟩⟩
    intro op hop args hargs
    rcases hidle with hempty | hle
    · rw [List.isEmpty_iff.1 hempty] at hop
      cases hop
    · exact hsettled op hop args (LawfulGrowth.drawn_mono hle hargs)
  · rw [if_neg hidle]
    have hmark : mark ≤ size s := by
      by_contra h
      exact hidle (Or.inr (Nat.le_of_lt (Nat.not_le.1 h)))
    have hends := passes_ends cap (capacity A.size s + 1) hJ mode hs hmark hsettled
      (by omega)
    cases hresult : passes mode cap A.operations (capacity A.size s + 1) mark s with
    | ok s' =>
        rw [hresult] at hends
        exact ⟨s', Or.inl ⟨rfl, hends⟩⟩
    | error halt =>
        rw [hresult] at hends
        obtain ⟨reason, s'⟩ := halt
        cases reason with
        | capped => exact ⟨s', Or.inr (Or.inl ⟨rfl, hends⟩)⟩
        | stopped => exact ⟨s', Or.inr (Or.inr ⟨rfl, hends⟩)⟩
        | raised fault => exact hends.elim

/-- Without a cap and without a stop, closing ends closed. -/
theorem close_closed (hJ : Sustains A.operations A.size J fun _ => False) (mode : Mode) (hs : J s)
    (hsettled : SettledBelow A.operations s mark) :
    ∃ s', close A mode 0 mark s = ⟨.ok .closed, s'⟩ ∧ J s' ∧ Extends s s' ∧
      SettledBelow A.operations s' (size s') := by
  obtain ⟨s', ⟨h, hreach, hsettled'⟩ | ⟨-, -, h0, -⟩ | ⟨-, hK⟩⟩ :=
    close_spec 0 hJ mode hs hsettled
  · exact ⟨s', h, hreach.inv, hreach.extended, hsettled'⟩
  · exact absurd rfl h0
  · exact hK.elim

end Close

end Closure

end UniversalAlgebra
