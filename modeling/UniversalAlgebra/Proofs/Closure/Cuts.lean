/-
**Runs that are cut short.**

A cap, or a closure that asks to stop, does not change what closing discovers, only how far it gets.  Let
the closure be made deaf to its own requests to stop, and take the cap away: closing then discovers a
sequence of items to the end.  With the cap and the requests it does what showing the new items of this
sequence one by one would do, and so it ends at the first of them at which it has to, which is still
taken in.

Main definitions:

* `Closure.RunsTo` — what closing comes to, in whichever mode and with whatever workers;
* `Closure.cuts`, `Closure.CutShort` — the items at which closing would end, and that it ends at the
  first of them;
* `Closure.Grows` — items that are taken in one after the other, whether or not the closure asks to stop;
* `Closure.Freeing` — a map that makes a closure deaf to requests to stop.

Main results:

* `Closure.Grows.cutShort` — showing new items ends at the first cut;
* `Closure.Freeing.close_eq` — **closing does what showing the items of the unbounded run does**;
* `Closure.Freeing.cutShort` — closing ends at the first cut.
-/

import UniversalAlgebra.Proofs.Closure.Faults

set_option autoImplicit false

namespace UniversalAlgebra

open Growth

namespace Closure

variable {σ σ' ι : Type} [Growth σ ι] [Growth σ' ι]

/-! ### How closing ends -/

/-- What closing may come to: sequentially, in parallel, or with workers that take turns in some way. -/
def RunsTo (A : Algebra) (cap mark : ℕ) (s : σ) (o : Outcome σ) : Prop :=
  o = close A .sequential cap mark s ∨ ParallelOutcome A cap mark s o

theorem RunsTo.exists_mode {A : Algebra} {cap mark : ℕ} {s : σ} {o : Outcome σ}
    (h : RunsTo A cap mark s o) : ∃ mode, o = close A mode cap mark s := by
  rcases h with h | h
  · exact ⟨.sequential, h⟩
  · exact ⟨.parallel, h.eq_close⟩

theorem runsTo_close (A : Algebra) (mode : Mode) (cap mark : ℕ) (s : σ) :
    RunsTo A cap mark s (close A mode cap mark s) := by
  cases mode with
  | sequential => exact Or.inl rfl
  | parallel => exact Or.inr (Or.inl rfl)

/-- The item with a given number is rejected by one who was shown those from `first` on before it. -/
def RejectedAt (asks : List ι → ι → Bool) (first : ℕ) (found : List ι) (i : ℕ) : Prop :=
  ∃ x, found[i]? = some x ∧ asks ((found.take i).drop first) x = false

/-- The numbers, from `first` on, of the items at which closing would end: the item is rejected, or it is
one more than the cap allows. -/
def cuts (cap first : ℕ) (asks : List ι → ι → Bool) (found : List ι) : Set ℕ :=
  {i | first ≤ i ∧ i < found.length ∧ (RejectedAt asks first found i ∨ cap ≠ 0 ∧ cap < i + 1)}

/-- Closing gets through what would be found, or ends at the first item at which it has to: stopped if
this item is rejected, and otherwise capped. -/
structure CutShort (cap first : ℕ) (asks : List ι → ι → Bool) (found : List ι) (items : σ → List ι)
    (o : Outcome σ) : Prop where
  through : cuts cap first asks found = ∅ → o.status = .ok .closed ∧ items o.state = found
  cut (i : ℕ) : IsLeast (cuts cap first asks found) i → items o.state = found.take (i + 1) ∧
    (RejectedAt asks first found i → o.status = .ok .stopped) ∧
    (¬RejectedAt asks first found i → o.status = .ok .capped)

omit [Growth σ ι] in
/-- It is enough to know where it ends. -/
theorem CutShort.of_isLeast {cap first i : ℕ} {asks : List ι → ι → Bool} {found : List ι}
    {items : σ → List ι} {o : Outcome σ} (hi : IsLeast (cuts cap first asks found) i)
    (hitems : items o.state = found.take (i + 1))
    (hstopped : RejectedAt asks first found i → o.status = .ok .stopped)
    (hcapped : ¬RejectedAt asks first found i → o.status = .ok .capped) :
    CutShort cap first asks found items o where
  through hnone := absurd (hnone ▸ hi.1) (Set.notMem_empty i)
  cut j hj := by
    obtain rfl := hj.unique hi
    exact ⟨hitems, hstopped, hcapped⟩

omit [Growth σ ι] in
/-- What is left lies between what was there and what would be found, and it is all of this only if
closing ends closed. -/
theorem CutShort.between {cap first : ℕ} {asks : List ι → ι → Bool} {found before : List ι}
    {items : σ → List ι} {o : Outcome σ} (h : CutShort cap first asks found items o)
    (hbefore : before <+: found) (hfirst : before.length = first) :
    (∃ status, o.status = .ok status) ∧ before <+: items o.state ∧ items o.state <+: found ∧
      (o.status = .ok .closed → items o.state = found) := by
  by_cases hnone : cuts cap first asks found = ∅
  · obtain ⟨hstatus, hitems⟩ := h.through hnone
    rw [hitems]
    exact ⟨⟨_, hstatus⟩, hbefore, List.prefix_refl _, fun _ => rfl⟩
  · have hne := Set.nonempty_iff_ne_empty.2 hnone
    obtain ⟨i, hi⟩ : ∃ i, IsLeast (cuts cap first asks found) i :=
      ⟨sInf _, Nat.sInf_mem hne, fun j hj => Nat.sInf_le hj⟩
    obtain ⟨hitems, hstopped, hcapped⟩ := h.cut i hi
    have hfirst' : first ≤ i := hi.1.1
    rw [hitems]
    refine ⟨?_, List.prefix_take_iff.2 ⟨hbefore, by omega⟩, List.take_prefix _ _, fun hclosed => ?_⟩
    · by_cases hrejected : RejectedAt asks first found i
      · exact ⟨_, hstopped hrejected⟩
      · exact ⟨_, hcapped hrejected⟩
    · by_cases hrejected : RejectedAt asks first found i
      · cases hclosed.symm.trans (hstopped hrejected)
      · cases hclosed.symm.trans (hcapped hrejected)

/-! ### Items that are taken in -/

variable {J : σ → Prop} {items : σ → List ι} {s t u : σ} {x : ι} {xs ys : List ι} {cap : ℕ}

/-- An item is taken in behind the others, with a request to stop or without, and the invariant is
kept. -/
structure TakesIn (J : σ → Prop) (items : σ → List ι) (s : σ) (x : ι) (t : σ) : Prop where
  accept_eq : accept s x = .ok (.added, t) ∨ accept s x = .ok (.stop, t)
  items_eq : items t = items s ++ [x]
  inv : J t

/-- The items of a list are taken in one after the other, each of them new. -/
inductive Grows (J : σ → Prop) (items : σ → List ι) : σ → List ι → σ → Prop
  | nil (s : σ) : Grows J items s [] s
  | cons {s u t : σ} {x : ι} {xs : List ι} (first : TakesIn J items s x u)
      (rest : Grows J items u xs t) : Grows J items s (x :: xs) t

namespace Grows

theorem append (h : Grows J items s xs t) (h' : Grows J items t ys u) :
    Grows J items s (xs ++ ys) u := by
  induction h with
  | nil => exact h'
  | cons first _ ih => exact .cons first (ih h')

theorem items_eq (h : Grows J items s xs t) : items t = items s ++ xs := by
  induction h with
  | nil => simp
  | cons first _ ih => rw [ih, first.items_eq, List.append_assoc, List.singleton_append]

theorem inv (h : Grows J items s xs t) (hs : J s) : J t := by
  induction h with
  | nil => exact hs
  | cons first _ ih => exact ih first.inv

end Grows

/-- An item that is taken in without ado leaves the state in which it is taken in. -/
theorem TakesIn.eq_of_absorb (h : TakesIn J items s x t) (hok : absorb cap s x = .ok u) : u = t := by
  rw [absorb] at hok
  rcases h.accept_eq with haccept | haccept
  · rw [haccept] at hok
    dsimp only at hok
    split at hok
    · cases hok
    · exact (Except.ok.inj hok).symm
  · rw [haccept] at hok
    cases hok

/-- If it ends there, the item is taken in nevertheless. -/
theorem TakesIn.eq_of_absorb_error (h : TakesIn J items s x t) {halt : Halt σ}
    (herror : absorb cap s x = .error halt) : halt.state = t := by
  rw [absorb] at herror
  rcases h.accept_eq with haccept | haccept
  · rw [haccept] at herror
    dsimp only at herror
    split at herror
    · cases herror
      rfl
    · cases herror
  · rw [haccept] at herror
    cases herror
    rfl

theorem Grows.eq_of_foldlM (h : Grows J items s xs t) (hok : xs.foldlM (absorb cap) s = .ok u) :
    u = t := by
  induction h with
  | nil => exact (Except.ok.inj hok).symm
  | @cons s v t x xs first rest ih =>
      rw [List.foldlM_cons] at hok
      cases hr : absorb cap s x with
      | error halt =>
          rw [hr] at hok
          cases hok
      | ok v' =>
          rw [hr] at hok
          obtain rfl := first.eq_of_absorb hr
          exact ih hok

/-- However showing the items ends, it leaves a state in which some of them were taken in. -/
theorem Grows.exists_taken (h : Grows J items s xs t) (cap : ℕ) :
    ∃ taken, taken <+: xs ∧
      Grows J items s taken (Outcome.ofPasses (xs.foldlM (absorb cap) s)).state := by
  induction h with
  | nil s => exact ⟨[], List.prefix_refl _, .nil s⟩
  | @cons s u t x xs first rest ih =>
      rw [List.foldlM_cons]
      cases hr : absorb cap s x with
      | error halt =>
          refine ⟨[x], ⟨xs, rfl⟩, .cons first ?_⟩
          obtain rfl := first.eq_of_absorb_error hr
          change Grows J items halt.state [] (Outcome.ofPasses (.error halt)).state
          rw [state_ofPasses_error]
          exact .nil halt.state
      | ok u' =>
          obtain rfl := first.eq_of_absorb hr
          obtain ⟨taken, hprefix, hgrows⟩ := ih
          exact ⟨x :: taken, List.prefix_cons_inj x |>.2 hprefix, .cons first hgrows⟩

/-! ### Showing new items -/

/-- What one who looks on answers about an item, if it was shown some others before. -/
structure Consults (asks : σ → List ι → ι → Bool) : Prop where
  added {s t : σ} {x : ι} : accept s x = .ok (.added, t) → asks s [] x = true ∧
    ∀ shown y, asks s (x :: shown) y = asks t shown y
  stop {s t : σ} {x : ι} : accept s x = .ok (.stop, t) → asks s [] x = false

section Cut

variable {asks : σ → List ι → ι → Bool} {found : List ι}

/-! The first of some new items, and those that are found after it. -/

theorem TakesIn.size_eq (h : TakesIn J items s x u) (hsize : ∀ s : σ, (items s).length = size s) :
    size u = size s + 1 := by
  rw [← hsize, ← hsize, h.items_eq, List.length_append, List.length_singleton]

theorem TakesIn.getElem?_eq (h : TakesIn J items s x u) (hsize : ∀ s : σ, (items s).length = size s)
    (hfound : items u <+: found) : found[size s]? = some x := by
  obtain ⟨rest, rfl⟩ := hfound
  rw [h.items_eq, List.append_assoc, List.getElem?_append_right (hsize s).le, hsize, Nat.sub_self]
  rfl

theorem TakesIn.take_eq (h : TakesIn J items s x u) (hsize : ∀ s : σ, (items s).length = size s)
    (hfound : items u <+: found) : items u = found.take (size s + 1) := by
  rw [← h.size_eq hsize, ← hsize u]
  exact List.prefix_iff_eq_take.1 hfound

theorem TakesIn.rejectedAt_iff (h : TakesIn J items s x u)
    (hsize : ∀ s : σ, (items s).length = size s) (hfound : items u <+: found) :
    RejectedAt (asks s) (size s) found (size s) ↔ asks s [] x = false := by
  have hnothing : (found.take (size s)).drop (size s) = [] := by simp
  simp only [RejectedAt, h.getElem?_eq hsize hfound, hnothing, Option.some.injEq, exists_eq_left']

theorem TakesIn.isLeast_cuts (h : TakesIn J items s x u) (hsize : ∀ s : σ, (items s).length = size s)
    (hfound : items u <+: found)
    (hcut : RejectedAt (asks s) (size s) found (size s) ∨ cap ≠ 0 ∧ cap < size s + 1) :
    IsLeast (cuts cap (size s) (asks s) found) (size s) := by
  have hlength := hfound.length_le
  rw [hsize, h.size_eq hsize] at hlength
  exact ⟨⟨le_rfl, hlength, hcut⟩, fun i hi => hi.1⟩

/-- One who was shown an item answers about the later ones as the next state does. -/
theorem TakesIn.rejectedAt_succ (h : TakesIn J items s x u) (hasks : Consults asks)
    (hsize : ∀ s : σ, (items s).length = size s) (haccept : accept s x = .ok (.added, u))
    (hfound : items u <+: found) {i : ℕ} (hi : size u ≤ i) :
    RejectedAt (asks s) (size s) found i ↔ RejectedAt (asks u) (size u) found i := by
  have hshown : (found.take i).drop (size s) = x :: (found.take i).drop (size u) := by
    rw [h.size_eq hsize] at hi ⊢
    have hget : (found.take i)[size s]? = some x := by
      rw [List.getElem?_take_of_lt hi, h.getElem?_eq hsize hfound]
    obtain ⟨hlt, hx⟩ := List.getElem?_eq_some_iff.1 hget
    rw [List.drop_eq_getElem_cons hlt, hx]
  simp only [RejectedAt, hshown, (hasks.added haccept).2]

/-- If closing does not end at an item, it ends at the first cut after it. -/
theorem TakesIn.cuts_eq (h : TakesIn J items s x u) (hasks : Consults asks)
    (hsize : ∀ s : σ, (items s).length = size s) (haccept : accept s x = .ok (.added, u))
    (hfound : items u <+: found)
    (hgoOn : ¬(RejectedAt (asks s) (size s) found (size s) ∨ cap ≠ 0 ∧ cap < size s + 1)) :
    cuts cap (size s) (asks s) found = cuts cap (size u) (asks u) found := by
  have hsucc := h.size_eq hsize
  ext i
  constructor
  · rintro ⟨hi, hlength, hcut⟩
    have hne : i ≠ size s := by
      rintro rfl
      exact hgoOn hcut
    have hle : size u ≤ i := by omega
    exact ⟨hle, hlength, hcut.imp_left (h.rejectedAt_succ hasks hsize haccept hfound hle).1⟩
  · rintro ⟨hi, hlength, hcut⟩
    exact ⟨by omega, hlength, hcut.imp_left (h.rejectedAt_succ hasks hsize haccept hfound hi).2⟩

/-- **Showing new items ends at the first cut.** -/
theorem Grows.cutShort (hasks : Consults asks) (hsize : ∀ s : σ, (items s).length = size s)
    (h : Grows J items s ys t) (cap : ℕ) :
    CutShort cap (size s) (asks s) (items t) items (.ofPasses (ys.foldlM (absorb cap) s)) := by
  induction h with
  | nil s =>
      refine ⟨fun _ => ⟨rfl, rfl⟩, fun i hi => ?_⟩
      obtain ⟨⟨hfirst, hlength, -⟩, -⟩ := hi
      rw [hsize] at hlength
      exact absurd hfirst (Nat.not_le.2 hlength)
  | @cons s u t x xs first rest ih =>
      have hfound : items u <+: items t := ⟨xs, rest.items_eq.symm⟩
      have htaken := first.take_eq hsize hfound
      have hrejected : RejectedAt (asks s) (size s) (items t) (size s) ↔ asks s [] x = false :=
        first.rejectedAt_iff hsize hfound
      have hleast (hcut : RejectedAt (asks s) (size s) (items t) (size s) ∨
          cap ≠ 0 ∧ cap < size s + 1) := first.isLeast_cuts hsize hfound hcut
      rw [List.foldlM_cons, absorb]
      rcases first.accept_eq with haccept | haccept
      · have hgoOn : ¬RejectedAt (asks s) (size s) (items t) (size s) := by
          rw [hrejected, (hasks.added haccept).1]
          exact Bool.noConfusion
        rw [haccept]
        by_cases hcap : cap ≠ 0 ∧ cap < size u
        · simp only [if_pos hcap]
          rw [first.size_eq hsize] at hcap
          exact .of_isLeast (hleast (Or.inr hcap)) htaken (fun h => absurd h hgoOn) fun _ => rfl
        · simp only [if_neg hcap]
          rw [first.size_eq hsize] at hcap
          have hcuts := first.cuts_eq hasks hsize haccept hfound (not_or.2 ⟨hgoOn, hcap⟩)
          refine ⟨fun hnone => ih.through (hcuts ▸ hnone), fun i hi => ?_⟩
          rw [hcuts] at hi
          rw [first.rejectedAt_succ hasks hsize haccept hfound hi.1.1]
          exact ih.cut i hi
      · have hstop : RejectedAt (asks s) (size s) (items t) (size s) :=
          hrejected.2 (hasks.stop haccept)
        rw [haccept]
        exact .of_isLeast (hleast (Or.inl hstop)) htaken (fun _ => rfl) fun h => absurd hstop h

end Cut

/-! ### Closing without heed to requests to stop -/

/-- The closure `φ s` draws as `s` does, and takes in what `s` takes in, but never asks to stop.  In states
with `J` an image is known, or it is taken in: as itself, or as another item that stands for it. -/
structure Freeing (ops : List Operation) (n : ℕ) (J : σ → Prop) (items : σ → List ι) (φ : σ → σ') :
    Prop where
  alike : Carries ops (fun _ => False) φ
  image_ok {s : σ} (hs : J s) {op : Operation} (hop : op ∈ ops) {args : List ℕ}
    (hargs : args ∈ drawn s op 0 (size s)) : ∃ found, image s op args = .ok found
  size_le {s : σ} (hs : J s) : size s ≤ capacity n s
  reacts {s : σ} (hs : J s) {x : ι} (hx : IsImage ops s x) : Knows s x ∨
    ∃ y t, TakesIn J items s y t ∧ accept s y = accept s x ∧ accept (φ s) x = .ok (.added, φ t) ∧
      Extends s t ∧ Knows t x

namespace Freeing

variable {ops : List Operation} {n : ℕ} {φ : σ → σ'}

theorem sustains (h : Freeing ops n J items φ) : Sustains ops n J fun _ => True where
  image_ok := h.image_ok
  size_le := h.size_le
  accept_ok hs x hx := by
    obtain hknown | ⟨y, t, htaken, hsame, -, hext, hknows⟩ := h.reacts hs hx
    · exact .known hknown
    · rcases htaken.accept_eq with haccept | haccept
      · exact .added t (hsame ▸ haccept) htaken.inv hext hknows
      · exact .stop t (hsame ▸ haccept) trivial

theorem sustains_map (h : Freeing ops n J items φ) :
    Sustains ops n (fun t => ∃ s, J s ∧ φ s = t) fun _ => False where
  image_ok := by
    rintro _ ⟨s, hs, rfl⟩ op hop args hargs
    rw [h.alike.drawn_eq, h.alike.size_eq] at hargs
    rw [h.alike.image_eq]
    exact h.image_ok hs hop hargs
  size_le := by
    rintro _ ⟨s, hs, rfl⟩
    rw [h.alike.size_eq, h.alike.capacity_eq]
    exact h.size_le hs
  accept_ok := by
    rintro _ ⟨s, hs, rfl⟩ x hx
    obtain hknown | ⟨y, t, htaken, -, hfree, hext, hknows⟩ := h.reacts hs (h.alike.isImage_iff.1 hx)
    · exact .known ((h.alike.knows_iff s x).2 hknown)
    · exact .added (φ t) hfree ⟨t, htaken.inv, rfl⟩ (h.alike.extends_map hext)
        ((h.alike.knows_iff t x).2 hknows)

theorem absorb_of_knows (h : Knows s x) (cap : ℕ) : absorb cap s x = .ok s := by
  simp only [absorb, show accept s x = .ok (.known, s) from h]

variable [LawfulGrowth σ]

/-- What is new among some images is taken in if nobody asks to stop, and showing it is showing all of
them. -/
theorem foldlM_absorb (h : Freeing ops n J items φ) (hs : J s) {xs : List ι}
    (hxs : ∀ x ∈ xs, IsImage ops s x) :
    ∃ ys t, Grows J items s ys t ∧ J t ∧ Extends s t ∧ xs.foldlM (absorb 0) (φ s) = .ok (φ t) ∧
      ∀ cap, xs.foldlM (absorb cap) s = ys.foldlM (absorb cap) s := by
  induction xs generalizing s with
  | nil => exact ⟨[], s, .nil s, hs, .refl s, rfl, fun _ => rfl⟩
  | cons x xs ih =>
      obtain hknown | ⟨y, u, htaken, hsame, hfree, hext, -⟩ := h.reacts hs (hxs x List.mem_cons_self)
      · obtain ⟨ys, t, hgrows, ht, hext, hrun, hshown⟩ :=
          ih hs fun z hz => hxs z (List.mem_cons_of_mem x hz)
        refine ⟨ys, t, hgrows, ht, hext, ?_, fun cap => ?_⟩
        · rw [List.foldlM_cons, absorb_of_knows ((h.alike.knows_iff s x).2 hknown)]
          exact hrun
        · rw [List.foldlM_cons, absorb_of_knows hknown]
          exact hshown cap
      · obtain ⟨ys, t, hgrows, ht, hext', hrun, hshown⟩ :=
          ih htaken.inv fun z hz => hext.isImage (hxs z (List.mem_cons_of_mem x hz))
        refine ⟨y :: ys, t, .cons htaken hgrows, ht, hext.trans hext', ?_, fun cap => ?_⟩
        · have hfirst : absorb 0 (φ s) x = .ok (φ u) := by simp [absorb, hfree]
          rw [List.foldlM_cons, hfirst]
          exact hrun
        · have hfirst : absorb cap s x = absorb cap s y := by rw [absorb, absorb, hsame]
          rw [List.foldlM_cons, List.foldlM_cons, hfirst]
          cases hr : absorb cap s y with
          | error halt => rfl
          | ok u' =>
              obtain rfl := htaken.eq_of_absorb hr
              exact hshown cap

variable [LawfulGrowth σ']

theorem passes_eq (h : Freeing ops n J items φ) (fuel mark : ℕ) (hs : J s) :
    ∃ ys t, Grows J items s ys t ∧
      (∀ mode, passes mode 0 ops fuel mark (φ s) = .ok (φ t)) ∧
      ∀ mode cap, passes mode cap ops fuel mark s = ys.foldlM (absorb cap) s := by
  -- what the passes take in is what the first takes in, and then what the others do from there
  induction fuel generalizing mark s with
  | zero => exact ⟨[], s, .nil s, fun _ => rfl, fun _ _ => rfl⟩
  | succ fuel ih =>
      simp only [passes, h.alike.size_eq]
      by_cases hmark : mark < size s
      · simp only [if_pos hmark]
        have himages : ∀ x ∈ passImages ops mark (size s) s, IsImage ops s x :=
          fun x hx => isImage_of_mem_passImages (Nat.le_refl _) hx
        obtain ⟨ys, u, hgrows, hu, -, hrun, hshown⟩ := h.foldlM_absorb hs himages
        obtain ⟨zs, t, hgrows', hrun', hshown'⟩ := ih (size s) hu
        have hpass (mode : Mode) (cap : ℕ) :
            pass mode cap ops mark (size s) s = ys.foldlM (absorb cap) s :=
          (pass_eq h.sustains hs (Nat.le_refl _) mode).trans (hshown cap)
        have hpass' (mode : Mode) : pass mode 0 ops mark (size s) (φ s) = .ok (φ u) := by
          rw [pass_eq h.sustains_map ⟨s, hs, rfl⟩ (h.alike.size_eq s).ge, h.alike.passImages_eq]
          exact hrun
        refine ⟨ys ++ zs, t, hgrows.append hgrows', fun mode => ?_, fun mode cap => ?_⟩
        · rw [hpass']
          exact hrun' mode
        · rw [hpass, List.foldlM_append]
          cases hr : ys.foldlM (absorb cap) s with
          | error halt => rfl
          | ok u' =>
              obtain rfl := hgrows.eq_of_foldlM hr
              exact hshown' mode cap
      · simp only [if_neg hmark]
        exact ⟨[], s, .nil s, fun _ => rfl, fun _ _ => rfl⟩

/-- **Closing does what showing the items of the unbounded run does**, one after the other. -/
theorem close_eq {A : Algebra} (h : Freeing A.operations A.size J items φ) (mark : ℕ) (hs : J s) :
    ∃ ys t, Grows J items s ys t ∧ (∀ mode, close A mode 0 mark (φ s) = ⟨.ok .closed, φ t⟩) ∧
      ∀ mode cap, close A mode cap mark s = .ofPasses (ys.foldlM (absorb cap) s) := by
  simp only [close, h.alike.size_eq, h.alike.capacity_eq]
  by_cases hidle : A.operations.isEmpty ∨ size s ≤ mark
  · simp only [if_pos hidle]
    exact ⟨[], s, .nil s, fun _ => rfl, fun _ _ => rfl⟩
  · simp only [if_neg hidle]
    obtain ⟨ys, t, hgrows, hrun, hshown⟩ := h.passes_eq (capacity A.size s + 1) mark hs
    refine ⟨ys, t, hgrows, fun mode => ?_, fun mode cap => ?_⟩
    · rw [hrun]
      rfl
    · rw [hshown]

/-- Whatever closing comes to, it takes in the items of the unbounded run up to the first cut. -/
theorem cutShort {A : Algebra} {asks : σ → List ι → ι → Bool}
    (h : Freeing A.operations A.size J items φ) (hasks : Consults asks)
    (hsize : ∀ s : σ, (items s).length = size s) (mark : ℕ) (hs : J s) :
    ∃ t, J t ∧ items s <+: items t ∧ (∀ o, RunsTo A 0 mark (φ s) o → o = ⟨.ok .closed, φ t⟩) ∧
      ∀ cap o, RunsTo A cap mark s o → CutShort cap (size s) (asks s) (items t) items o ∧
        ∃ taken, Grows J items s taken o.state := by
  obtain ⟨ys, t, hgrows, hrun, hshown⟩ := h.close_eq mark hs
  refine ⟨t, hgrows.inv hs, ⟨ys, hgrows.items_eq.symm⟩, fun o ho => ?_, fun cap o ho => ?_⟩
  · obtain ⟨mode, rfl⟩ := ho.exists_mode
    exact hrun mode
  · obtain ⟨mode, rfl⟩ := ho.exists_mode
    rw [hshown]
    obtain ⟨taken, -, htaken⟩ := hgrows.exists_taken cap
    exact ⟨hgrows.cutShort hasks hsize cap, taken, htaken⟩

end Freeing

/-- The closure itself draws as it does. -/
theorem carries_id (ops : List Operation) : Carries ops (fun _ : σ => False) id :=
  ⟨fun _ => rfl, fun _ _ => rfl, fun _ _ _ _ => rfl, fun _ _ _ => rfl, fun _ _ => Iff.rfl,
    fun h => h.elim⟩

/-- Nobody looks on. -/
theorem consults_nobody (h : ∀ (s : σ) x t, accept s x ≠ .ok (.stop, t)) :
    Consults fun (_ : σ) _ _ => true :=
  ⟨fun _ => ⟨rfl, fun _ _ => rfl⟩, fun haccept => absurd haccept (h _ _ _)⟩

/-- A closure that never asks to stop takes in the items of the unbounded run up to the cap. -/
theorem Freeing.cutShort_of_ne_stop [LawfulGrowth σ] {A : Algebra}
    (h : Freeing A.operations A.size J items id)
    (hstop : ∀ (s : σ) x t, accept s x ≠ .ok (.stop, t))
    (hsize : ∀ s : σ, (items s).length = size s) (mark : ℕ) (hs : J s) :
    ∃ t, J t ∧ items s <+: items t ∧ (∀ o, RunsTo A 0 mark s o → o = ⟨.ok .closed, t⟩) ∧
      ∀ cap o, RunsTo A cap mark s o →
        J o.state ∧ CutShort cap (size s) (fun _ _ => true) (items t) items o := by
  obtain ⟨t, ht, hprefix, hrun, hcut⟩ := h.cutShort (consults_nobody hstop) hsize mark hs
  refine ⟨t, ht, hprefix, hrun, fun cap o ho => ?_⟩
  obtain ⟨hcut, taken, htaken⟩ := hcut cap o ho
  exact ⟨htaken.inv hs, hcut⟩

end Closure

end UniversalAlgebra
