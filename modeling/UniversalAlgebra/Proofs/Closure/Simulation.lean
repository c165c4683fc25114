/-
**Closures that run alike.**

A map from the states of one closure to those of another carries runs over if it keeps what can be
drawn and what comes of it, and if the two closures react alike to every image.  It is enough that
they do so in the states that are gone through.  Nothing else of the states matters, and neither
does the mode: each of the two may run in either.

Main definitions:

* `Closure.Carries` — a map under which closures react alike;
* `Outcome.map` — an outcome whose state is replaced.

Main results:

* `Closure.close_map` — **runs are carried over, whatever the modes**;
* `Closure.close_mode` — the mode does not matter;
* `SubpowerClosure.close_congr` — an observer can be replaced by one that treats the tuples alike.
-/

import UniversalAlgebra.Proofs.Closure.Subpower

set_option autoImplicit false

namespace UniversalAlgebra

open Growth

/-- The outcome with another state. -/
def Outcome.map {σ σ' : Type} (φ : σ → σ') (o : Outcome σ) : Outcome σ' := ⟨o.status, φ o.state⟩

namespace Closure

variable {σ σ' ι : Type} [Growth σ ι] [Growth σ' ι]

/-- The closures draw alike, and in states with `J` they react alike to the images. -/
structure Carries (ops : List Operation) (J : σ → Prop) (φ : σ → σ') : Prop where
  size_eq (s : σ) : size (φ s) = size s
  capacity_eq (n : ℕ) (s : σ) : capacity n (φ s) = capacity n s
  arguments_eq (s : σ) (op : Operation) (start stop : ℕ) :
    arguments (φ s) op start stop = arguments s op start stop
  image_eq (s : σ) (op : Operation) (args : List ℕ) : image (φ s) op args = image s op args
  knows_iff (s : σ) (x : ι) : Knows (φ s) x ↔ Knows s x
  accept_eq {s : σ} (hs : J s) {x : ι} (hx : IsImage ops s x) :
    accept (φ s) x = (fun r => (r.1, φ r.2)) <$> accept s x

/-- The end of a part of a run, with another state. -/
def carry (φ : σ → σ') : Except (Halt σ) σ → Except (Halt σ') σ'
  | .ok s => .ok (φ s)
  | .error halt => .error ⟨halt.reason, φ halt.state⟩

theorem ofPasses_carry (φ : σ → σ') (r : Except (Halt σ) σ) :
    Outcome.ofPasses (carry φ r) = (Outcome.ofPasses r).map φ := by
  rcases r with ⟨reason, s⟩ | s
  · cases reason <;> rfl
  · rfl

namespace Carries

variable {ops : List Operation} {n cap : ℕ} {J K : σ → Prop} {φ : σ → σ'} {s : σ}

theorem drawn_eq (hφ : Carries ops J φ) (s : σ) (op : Operation) (start stop : ℕ) :
    drawn (φ s) op start stop = drawn s op start stop := by
  rw [drawn, drawn, hφ.arguments_eq]

theorem passImages_eq (hφ : Carries ops J φ) (start stop : ℕ) (s : σ) :
    passImages ops start stop (φ s) = passImages ops start stop s := by
  have himageAt (op : Operation) : imageAt (φ s) op = imageAt s op := by
    funext args
    rw [imageAt, imageAt, hφ.image_eq]
  simp only [passImages, hφ.drawn_eq, himageAt]

theorem isImage_iff (hφ : Carries ops J φ) {x : ι} : IsImage ops (φ s) x ↔ IsImage ops s x := by
  simp only [IsImage, hφ.drawn_eq, hφ.size_eq, hφ.image_eq]

theorem extends_map (hφ : Carries ops J φ) {s' : σ} (h : Extends s s') : Extends (φ s) (φ s') where
  size_le := by
    rw [hφ.size_eq, hφ.size_eq]
    exact h.size_le
  capacity_eq n := by rw [hφ.capacity_eq, hφ.capacity_eq, h.capacity_eq]
  arguments_eq op start stop := by rw [hφ.arguments_eq, hφ.arguments_eq, h.arguments_eq]
  image_eq op args hargs := by
    rw [hφ.drawn_eq, hφ.size_eq] at hargs
    rw [hφ.image_eq, hφ.image_eq, h.image_eq op args hargs]
  knows x hx := (hφ.knows_iff s' x).2 (h.knows x ((hφ.knows_iff s x).1 hx))

/-- What is sustained on one side is sustained on the other. -/
theorem sustains (hφ : Carries ops J φ) (hJ : Sustains ops n J K) :
    Sustains ops n (fun t => ∃ s, J s ∧ φ s = t) (fun t => ∃ s, K s ∧ φ s = t) where
  image_ok := by
    rintro _ ⟨s, hs, rfl⟩ op hop args hargs
    rw [hφ.drawn_eq, hφ.size_eq] at hargs
    rw [hφ.image_eq]
    exact hJ.image_ok hs hop hargs
  size_le := by
    rintro _ ⟨s, hs, rfl⟩
    rw [hφ.size_eq, hφ.capacity_eq]
    exact hJ.size_le hs
  accept_ok := by
    rintro _ ⟨s, hs, rfl⟩ x hx
    have hx := hφ.isImage_iff.1 hx
    have haccept := hφ.accept_eq hs hx
    cases hJ.accept_ok hs hx with
    | known h => exact .known ((hφ.knows_iff s x).2 h)
    | added s' h inv extended knows =>
        refine .added (φ s') ?_ ⟨s', inv, rfl⟩ (hφ.extends_map extended)
          ((hφ.knows_iff s' x).2 knows)
        rw [haccept, h]
        rfl
    | stop s' h inv =>
        refine .stop (φ s') ?_ ⟨s', inv, rfl⟩
        rw [haccept, h]
        rfl

theorem absorb_map (hφ : Carries ops J φ) (hJ : Sustains ops n J K) (hs : J s) {x : ι}
    (hx : IsImage ops s x) : absorb cap (φ s) x = carry φ (absorb cap s x) := by
  rw [absorb, absorb, hφ.accept_eq hs hx]
  cases hJ.accept_ok hs hx with
  | known h => rw [show accept s x = .ok (.known, s) from h]; rfl
  | stop s' h inv => rw [h]; rfl
  | added s' h inv extended knows =>
      rw [h]
      change (if cap ≠ 0 ∧ cap < size (φ s') then _ else _)
        = carry φ (if cap ≠ 0 ∧ cap < size s' then _ else _)
      rw [hφ.size_eq]
      split <;> rfl

variable [LawfulGrowth σ]

theorem foldlM_absorb_map (hφ : Carries ops J φ) (hJ : Sustains ops n J K) (hs : J s) {xs : List ι}
    (hxs : ∀ x ∈ xs, IsImage ops s x) :
    xs.foldlM (absorb cap) (φ s) = carry φ (xs.foldlM (absorb cap) s) := by
  induction xs generalizing s with
  | nil => rfl
  | cons x xs ih =>
      have hx := hxs x List.mem_cons_self
      have hend := absorb_ends cap hJ hs hx
      rw [List.foldlM_cons, List.foldlM_cons, hφ.absorb_map hJ hs hx]
      cases habsorb : absorb cap s x with
      | error halt => rfl
      | ok s' =>
          rw [habsorb] at hend
          exact ih hend.1.inv fun y hy =>
            hend.1.extended.isImage (hxs y (List.mem_cons_of_mem x hy))

variable [LawfulGrowth σ']

theorem pass_map (hφ : Carries ops J φ) (cap start : ℕ) (hJ : Sustains ops n J K)
    (mode mode' : Mode) (hs : J s) {stop : ℕ} (hstop : stop ≤ size s) :
    pass mode' cap ops start stop (φ s) = carry φ (pass mode cap ops start stop s) := by
  rw [pass_eq (hφ.sustains hJ) ⟨s, hs, rfl⟩ (hφ.size_eq s ▸ hstop), pass_eq hJ hs hstop,
    hφ.passImages_eq]
  exact hφ.foldlM_absorb_map hJ hs fun x hx => isImage_of_mem_passImages hstop hx

theorem passes_map (hφ : Carries ops J φ) (hJ : Sustains ops n J K) (mode mode' : Mode)
    (fuel mark : ℕ) (hs : J s) :
    passes mode' cap ops fuel mark (φ s) = carry φ (passes mode cap ops fuel mark s) := by
  -- a pass that gets through keeps `J`, which `hend` says, and so the next one can be carried over
  induction fuel generalizing mark s with
  | zero => rfl
  | succ fuel ih =>
      have hpass := hφ.pass_map cap mark hJ mode mode' hs (Nat.le_refl _)
      have himages : ∀ x ∈ passImages ops mark (size s) s, IsImage ops s x :=
        fun x hx => isImage_of_mem_passImages (Nat.le_refl _) hx
      have hend := foldlM_absorb_ends cap hJ hs himages
      rw [← pass_eq hJ hs (Nat.le_refl _) mode] at hend
      rw [passes, passes, hφ.size_eq]
      by_cases hmark : mark < size s
      · simp only [if_pos hmark, hpass]
        cases hresult : pass mode cap ops mark (size s) s with
        | error halt => rfl
        | ok s' =>
            rw [hresult] at hend
            exact ih (size s) hend.1.inv
      · simp only [if_neg hmark]
        rfl

end Carries

variable [LawfulGrowth σ] [LawfulGrowth σ'] {A : Algebra} {J K : σ → Prop} {s : σ}

/-- **Runs are carried over**, whatever the modes. -/
theorem close_map {φ : σ → σ'} (hφ : Carries A.operations J φ)
    (hJ : Sustains A.operations A.size J K) (mode mode' : Mode) (cap mark : ℕ) (hs : J s) :
    close A mode' cap mark (φ s) = (close A mode cap mark s).map φ := by
  rw [close, close, hφ.size_eq, hφ.capacity_eq, hφ.passes_map hJ mode mode' _ _ hs, ofPasses_carry]
  split <;> rfl

/-- **The mode does not matter** as long as nothing fails. -/
theorem close_mode (hJ : Sustains A.operations A.size J K) (mode mode' : Mode) (cap mark : ℕ)
    (hs : J s) : close A mode' cap mark s = close A mode cap mark s := by
  have hid : Carries A.operations J (id : σ → σ) := by
    refine ⟨fun _ => rfl, fun _ _ => rfl, fun _ _ _ _ => rfl, fun _ _ _ => rfl,
      fun _ _ => Iff.rfl, ?_⟩
    intro s _ x _
    change accept s x = (fun r => (r.1, r.2)) <$> accept s x
    cases accept s x <;> rfl
  exact close_map hid hJ mode mode' cap mark hs

end Closure

namespace SubpowerClosure

open Closure

variable {τ : Type} {A : Algebra} {k : ℕ} {s : SubpowerClosure τ} {T : Set (List ℕ)}

/-- Observers that let everything pass or not are watched for nothing. -/
theorem watched_trivial (observe : τ → List ℕ → Bool × τ) (T : Set (List ℕ)) :
    Watched observe T (fun _ _ => True) (fun _ _ => True) :=
  ⟨fun _ _ _ _ _ _ => trivial, fun _ _ _ _ _ _ => trivial⟩

/-- Generators are taken in whoever looks on. -/
theorem insertAll_observe (s : SubpowerClosure τ) (observe : τ → List ℕ → Bool × τ)
    (ts : List (List ℕ)) :
    insertAll { s with observe := observe } ts = { s.insertAll ts with observe := observe } := by
  induction ts generalizing s with
  | nil => rfl
  | cons t ts ih =>
      have hinsert : insert { s with observe := observe } t = { s.insert t with observe := observe } := by
        change (if s.contains t then _ else _) = _
        rw [insert]
        cases s.contains t <;> rfl
      change insertAll (insert { s with observe := observe } t) ts = _
      rw [hinsert, ih]
      rfl

/-- Closing does not fail. -/
theorem close_ok (hA : A.Total) (mode : Mode) (hs : s.Faithful A k) :
    ∃ status s', close A mode 0 0 s = ⟨.ok status, s'⟩ := by
  have hwithin : Within A k s.observe (A.tuples k) (fun _ _ => True) s :=
    ⟨hs, rfl, hs.mem_tuples, trivial⟩
  obtain ⟨s', ⟨h, -⟩ | ⟨h, -⟩⟩ := close_spec hA mode (hA.isSubpower_tuples k).closedUnderColumns
    (watched_trivial s.observe _) hwithin (settledBelow_zero _ _)
  · exact ⟨.closed, s', h⟩
  · exact ⟨.stopped, s', h⟩

/-- The mode does not matter to tuples of elements. -/
theorem close_mode (hA : A.Total) (hs : s.Faithful A k) (mode mode' : Mode) (cap mark : ℕ) :
    close A mode' cap mark s = close A mode cap mark s := by
  have hwithin : Within A k s.observe (A.tuples k) (fun _ _ => True) s :=
    ⟨hs, rfl, hs.mem_tuples, trivial⟩
  exact Closure.close_mode (sustains hA (hA.isSubpower_tuples k).closedUnderColumns
    (watched_trivial s.observe _)) mode mode' cap mark hwithin

/-- **An observer can be replaced** by one that treats the tuples of a closed set alike. -/
theorem close_congr (hA : A.Total) (hT : A.ClosedUnderColumns k T) (hs : s.Faithful A k)
    (hsub : ∀ t ∈ s.tuples, t ∈ T) (observe : τ → List ℕ → Bool × τ)
    (hobserve : ∀ w, ∀ t ∈ T, observe w t = s.observe w t) (mode mode' : Mode) (cap mark : ℕ) :
    close A mode' cap mark { s with observe := observe }
      = (close A mode cap mark s).map fun s => { s with observe := observe } := by
  have hwithin : Within A k s.observe T (fun _ _ => True) s := ⟨hs, rfl, hsub, trivial⟩
  have hcarries : Carries A.operations (Within A k s.observe T fun _ _ => True)
      (fun s : SubpowerClosure τ => { s with observe := observe }) := by
    refine ⟨fun _ => rfl, fun _ _ => rfl, fun _ _ _ _ => rfl, fun _ _ _ => rfl, ?_, ?_⟩
    · intro s t
      rw [knows_iff, knows_iff]
      rfl
    · intro s hs t ht
      have htT := (hs.mem_of_isImage hA hT ht).2
      have haccept : Growth.accept { s with observe := observe } t
          = .ok (if s.contains t then (.known, { s with observe := observe })
            else (if (observe s.observer t).1 then .added else .stop,
              { s.push t (observe s.observer t).2 with observe := observe })) := rfl
      rw [haccept, accept_eq, hs.observe_eq, hobserve _ t htT]
      cases s.contains t <;> rfl
  exact close_map hcarries (sustains hA hT (watched_trivial s.observe T)) mode mode' cap mark hwithin

end SubpowerClosure

end UniversalAlgebra
