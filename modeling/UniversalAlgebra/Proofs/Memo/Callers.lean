/-
**Callers that come in between each other.**

Any number of callers use a slot and a table at the same time.  Looking what is there, every step of a
function and the publication of its value are separate steps, and the steps of the callers come in any
order.  So several of them may find a place vacant and compute a value for it.  The first one who
publishes fixes the value; the others get this one instead of their own.  A caller is never held up by
the others, and one that is left alone does what the queries on slots and tables do.

Main definitions:

* `Callers.Caller`, `Callers.Event` — what a caller is at, and what is seen of its steps;
* `Callers.Caller.step`, `Callers.Caller.Turn` — a step, and what it can be;
* `Callers.System`, `Callers.System.run` — all callers, and the order in which they get a turn;
* `Callers.firstOffer?` — the value that was published first at a place.

Main results:

* `Callers.System.find?_run` — **a place holds what was published there first**;
* `Callers.System.ended_run` — every function that was called is running or has ended, once;
* `Callers.System.run_alone` — **a caller that is left alone evaluates its program**;
* `Callers.callers_agree` — **what all callers can rely on**.
-/

import UniversalAlgebra.Proofs.Memo.Programs

set_option autoImplicit false

namespace UniversalAlgebra.Callers

variable {ι κ ν ε : Type} [BEq κ]

/-! ### Steps of a caller -/

/-- A function that was called: the number of the call, the place for its value, and what goes on with
the outcome. -/
structure Frame (κ ν ε : Type) where
  number : ℕ
  place : Place κ
  next : Except ε ν → Program κ ν ε

/-- A caller: what it does now, the functions in which it is, innermost first, and the number of
functions that it called. -/
structure Caller (κ ν ε : Type) where
  program : Program κ ν ε
  frames : List (Frame κ ν ε)
  calls : ℕ

/-- What is seen of a step. -/
inductive Event (κ ν : Type) where
  /-- The caller looked what there is at a place. -/
  | looked (place : Place κ) (value? : Option ν)
  /-- The caller published a value in the slot, and got the one that the slot keeps. -/
  | offered (v kept : ν)
  /-- The caller asked for the value at a place and got what was there. -/
  | found (place : Place κ) (v : ν)
  /-- The caller asked for the value at a place and had to call its function. -/
  | called (number : ℕ) (place : Place κ)
  /-- The function gave a value, which was published, and the caller got the one that is kept. -/
  | published (number : ℕ) (place : Place κ) (v kept : ν)
  /-- The function failed, and the caller got its fault. -/
  | failed (number : ℕ) (place : Place κ)
  deriving Repr

namespace Event

/-- The value that somebody who asked for it or published one got for a place. -/
def returned? : Event κ ν → Option (Place κ × ν)
  | .offered _ kept => some (.slot, kept)
  | .found place v => some (place, v)
  | .published _ place _ kept => some (place, kept)
  | .looked .. | .called .. | .failed .. => none

/-- The value that is published at a place. -/
def offer? (place : Place κ) : Event κ ν → Option ν
  | .offered v _ => if Place.slot == place then some v else none
  | .published _ place' v _ => if place' == place then some v else none
  | .looked .. | .found .. | .called .. | .failed .. => none

/-- The number of the call that comes to its end. -/
def ended? : Event κ ν → Option ℕ
  | .published number .. | .failed number _ => some number
  | .looked .. | .offered .. | .found .. | .called .. => none

end Event

/-- The value that was published first at a place. -/
def firstOffer? (place : Place κ) (events : List (ι × Event κ ν)) : Option ν :=
  events.findSome? fun e => e.2.offer? place

/-- The numbers of the calls of a caller that came to an end. -/
def ended [DecidableEq ι] (i : ι) (events : List (ι × Event κ ν)) : List ℕ :=
  events.filterMap fun e => if e.1 = i then e.2.ended? else none

theorem firstOffer?_append (place : Place κ) (events later : List (ι × Event κ ν)) :
    firstOffer? place (events ++ later) = (firstOffer? place events).or (firstOffer? place later) :=
  List.findSome?_append

theorem firstOffer?_toList (place : Place κ) (i : ι) (event? : Option (Event κ ν)) :
    firstOffer? place (event?.map (Prod.mk i)).toList = event?.bind (·.offer? place) := by
  cases event? with
  | none => rfl
  | some event => cases h : event.offer? place <;> simp [firstOffer?, h]

omit [BEq κ] in
theorem ended_toList [DecidableEq ι] (i j : ι) (event? : Option (Event κ ν)) :
    ended i (event?.map (Prod.mk j)).toList
      = if j = i then (event?.bind Event.ended?).toList else [] := by
  cases event? with
  | none => exact (ite_self _).symm
  | some event => by_cases hj : j = i <;> cases h : event.ended? <;> simp [ended, hj, h]

/-- Entries with the same image are the same, if no image occurs twice. -/
theorem eq_of_nodup_filterMap {α β : Type} {f : α → Option β} {xs : List α}
    (h : (xs.filterMap f).Nodup) {x y : α} (hx : x ∈ xs) (hy : y ∈ xs) {b : β} (hb : f x = some b)
    (hb' : f y = some b) : x = y := by
  by_contra hne
  have hpairs := List.pairwise_filterMap.1 h
  have hsymm : Std.Symm fun x y => ∀ b, f x = some b → ∀ b', f y = some b' → b ≠ b' :=
    ⟨fun x y hxy b hb b' hb' => (hxy b' hb' b hb).symm⟩
  exact hpairs.forall hx hy hne b hb b hb' rfl

variable [Hashable κ]

namespace Caller

/-- What is shared and the caller after a step of the caller, and what is seen of it.  A caller whose
program is at its end does nothing. -/
def step (s : Shared κ ν) (c : Caller κ ν ε) : Shared κ ν × Caller κ ν ε × Option (Event κ ν) :=
  match c.program, c.frames with
  | .look place next, frames =>
      (s, ⟨next (s.find? place), frames, c.calls⟩, some (.looked place (s.find? place)))
  | .publish v next, frames =>
      let (kept, t) := s.publish v .slot
      (t, ⟨next kept, frames, c.calls⟩, some (.offered v kept))
  | .call place function next, frames =>
      match s.find? place with
      | some v => (s, ⟨next (.ok v), frames, c.calls⟩, some (.found place v))
      | none =>
          (s, ⟨function, ⟨c.calls, place, next⟩ :: frames, c.calls + 1⟩,
            some (.called c.calls place))
  | .done (.ok v), frame :: frames =>
      let (kept, t) := s.publish v frame.place
      (t, ⟨frame.next (.ok kept), frames, c.calls⟩,
        some (.published frame.number frame.place v kept))
  | .done (.error fault), frame :: frames =>
      (s, ⟨frame.next (.error fault), frames, c.calls⟩, some (.failed frame.number frame.place))
  | .done result, [] => (s, ⟨.done result, [], c.calls⟩, none)

/-- At the end of a function its outcome is settled. -/
theorem step_done (s : Shared κ ν) (outcome : Except ε ν) (frame : Frame κ ν ε)
    (frames : List (Frame κ ν ε)) (calls : ℕ) : ∃ event,
    step s ⟨.done outcome, frame :: frames, calls⟩
      = ((frame.place.settle outcome s).2,
          ⟨frame.next (frame.place.settle outcome s).1, frames, calls⟩, some event) := by
  cases outcome with
  | ok v => exact ⟨_, rfl⟩
  | error fault => exact ⟨_, rfl⟩

/-- What a step can be. -/
inductive Turn (s : Shared κ ν) :
    Caller κ ν ε → Shared κ ν × Caller κ ν ε × Option (Event κ ν) → Prop
  | look (place : Place κ) (next : Option ν → Program κ ν ε) (frames : List (Frame κ ν ε))
      (calls : ℕ) :
      Turn s ⟨.look place next, frames, calls⟩
        (s, ⟨next (s.find? place), frames, calls⟩, some (.looked place (s.find? place)))
  | publish (v : ν) (next : ν → Program κ ν ε) (frames : List (Frame κ ν ε)) (calls : ℕ) :
      Turn s ⟨.publish v next, frames, calls⟩
        ((s.publish v .slot).2, ⟨next (s.publish v .slot).1, frames, calls⟩,
          some (.offered v (s.publish v .slot).1))
  | find {place : Place κ} {v : ν} (function : Program κ ν ε) (next : Except ε ν → Program κ ν ε)
      (frames : List (Frame κ ν ε)) (calls : ℕ) (hfound : s.find? place = some v) :
      Turn s ⟨.call place function next, frames, calls⟩
        (s, ⟨next (.ok v), frames, calls⟩, some (.found place v))
  | call {place : Place κ} (function : Program κ ν ε) (next : Except ε ν → Program κ ν ε)
      (frames : List (Frame κ ν ε)) (calls : ℕ) (hvacant : s.find? place = none) :
      Turn s ⟨.call place function next, frames, calls⟩
        (s, ⟨function, ⟨calls, place, next⟩ :: frames, calls + 1⟩, some (.called calls place))
  | finish (v : ν) (frame : Frame κ ν ε) (frames : List (Frame κ ν ε)) (calls : ℕ) :
      Turn s ⟨.done (.ok v), frame :: frames, calls⟩
        ((s.publish v frame.place).2, ⟨frame.next (.ok (s.publish v frame.place).1), frames, calls⟩,
          some (.published frame.number frame.place v (s.publish v frame.place).1))
  | fail (fault : ε) (frame : Frame κ ν ε) (frames : List (Frame κ ν ε)) (calls : ℕ) :
      Turn s ⟨.done (.error fault), frame :: frames, calls⟩
        (s, ⟨frame.next (.error fault), frames, calls⟩, some (.failed frame.number frame.place))
  | rest (result : Except ε ν) (calls : ℕ) :
      Turn s ⟨.done result, [], calls⟩ (s, ⟨.done result, [], calls⟩, none)

theorem turn_step (s : Shared κ ν) (c : Caller κ ν ε) : Turn s c (c.step s) := by
  obtain ⟨program, frames, calls⟩ := c
  cases program with
  | look place next => exact .look place next frames calls
  | publish v next => exact .publish v next frames calls
  | call place function next =>
      simp only [step]
      split
      · next v hfound => exact .find function next frames calls hfound
      · next hvacant => exact .call function next frames calls hvacant
  | done result =>
      cases frames with
      | nil =>
          cases result with
          | ok v => exact .rest (.ok v) calls
          | error fault => exact .rest (.error fault) calls
      | cons frame frames =>
          cases result with
          | ok v => exact .finish v frame frames calls
          | error fault => exact .fail fault frame frames calls

/-- The numbers of the functions in which the caller is. -/
def running (c : Caller κ ν ε) : List ℕ := c.frames.map (·.number)

variable {s t : Shared κ ν} {c d : Caller κ ν ε} {event? : Option (Event κ ν)} {event : Event κ ν}

/-- A step changes no value that is there, and publishes what is seen of it. -/
theorem Turn.find?_eq [LawfulBEq κ] (h : Turn s c (t, d, event?)) (place : Place κ) :
    t.find? place = (s.find? place).or (event?.bind (·.offer? place)) := by
  cases h with
  | look | find | call | fail | rest => exact (Option.or_none).symm
  | publish v => exact s.find?_publish v .slot place
  | finish v frame => exact s.find?_publish v frame.place place

/-- Who gets a value for a place gets the one that is there after the step. -/
theorem Turn.find?_of_returned [LawfulBEq κ] (h : Turn s c (t, d, some event)) {place : Place κ}
    {v : ν} (hv : event.returned? = some (place, v)) : t.find? place = some v := by
  cases h with
  | look | call | fail => cases hv
  | publish v =>
      cases hv
      exact s.find?_publish_self v .slot
  | find _ _ _ _ hfound =>
      cases hv
      exact hfound
  | finish v frame =>
      cases hv
      exact s.find?_publish_self v frame.place

/-- Who only looks gets what is there. -/
theorem Turn.eq_find? {place : Place κ} {value? : Option ν}
    (h : Turn s c (t, d, some (.looked place value?))) : value? = s.find? place := by
  cases h with
  | look => rfl

/-- **A function is called only when the place is vacant.** -/
theorem Turn.vacant_of_called {number : ℕ} {place : Place κ}
    (h : Turn s c (t, d, some (.called number place))) : s.find? place = none := by
  cases h with
  | call _ _ _ _ hvacant => exact hvacant

/-- A function that fails leaves everything that is shared as it is. -/
theorem Turn.eq_of_failed {number : ℕ} {place : Place κ}
    (h : Turn s c (t, d, some (.failed number place))) : t = s := by
  cases h with
  | fail => rfl

/-- The calls that have ended and those that go on are all calls. -/
theorem Turn.perm_range (h : Turn s c (t, d, event?)) {ended : List ℕ}
    (hended : (ended ++ c.running).Perm (List.range c.calls)) :
    (ended ++ (event?.bind Event.ended?).toList ++ d.running).Perm (List.range d.calls) := by
  cases h with
  | look | publish | find | rest => simpa [running, Event.ended?] using hended
  | @call place _ _ frames calls =>
      have hmiddle : (ended ++ calls :: frames.map (·.number)).Perm
          (calls :: (ended ++ frames.map (·.number))) := List.perm_middle
      have hlast : (calls :: List.range calls).Perm (List.range calls ++ [calls]) :=
        (List.perm_append_singleton calls _).symm
      rw [List.range_succ]
      simpa [running, Event.ended?] using hmiddle.trans ((hended.cons calls).trans hlast)
  | finish | fail => simpa [running, Event.ended?] using hended

end Caller

/-! ### All callers -/

/-- What is shared, and all callers. -/
structure System (ι κ ν ε : Type) [BEq κ] [Hashable κ] where
  shared : Shared κ ν
  callers : ι → Caller κ ν ε

/-- Nothing was published, and each caller is about to start with its program. -/
def start (programs : ι → Program κ ν ε) : System ι κ ν ε := ⟨.vacant, fun i => ⟨programs i, [], 0⟩⟩

variable [DecidableEq ι]

namespace System

variable {s : System ι κ ν ε} {i : ι} {turns : List ι}

/-- The system with something else that is shared, and with another state of one of the callers. -/
def update (s : System ι κ ν ε) (i : ι) (t : Shared κ ν) (c : Caller κ ν ε) : System ι κ ν ε :=
  ⟨t, Function.update s.callers i c⟩

@[simp] theorem callers_update (s : System ι κ ν ε) (i : ι) (t : Shared κ ν) (c : Caller κ ν ε) :
    (s.update i t c).callers i = c := by
  simp [update]

theorem callers_update_of_ne {j : ι} (h : j ≠ i) (s : System ι κ ν ε) (t : Shared κ ν)
    (c : Caller κ ν ε) : (s.update i t c).callers j = s.callers j := by
  simp [update, h]

theorem update_update (s : System ι κ ν ε) (i : ι) (t u : Shared κ ν) (c d : Caller κ ν ε) :
    (s.update i t c).update i u d = s.update i u d := by
  rw [update, update, update, Function.update_idem]

/-- The system after a step of one of the callers, and what is seen of it. -/
def step (s : System ι κ ν ε) (i : ι) : System ι κ ν ε × Option (ι × Event κ ν) :=
  let (t, d, event?) := (s.callers i).step s.shared
  (s.update i t d, event?.map (Prod.mk i))

/-- The system after the callers had their turns, and what was seen. -/
def run (s : System ι κ ν ε) : List ι → System ι κ ν ε × List (ι × Event κ ν)
  | [] => (s, [])
  | i :: turns =>
      let (t, event?) := s.step i
      let (u, events) := t.run turns
      (u, event?.toList ++ events)

theorem run_cons (s : System ι κ ν ε) (i : ι) (turns : List ι) :
    s.run (i :: turns)
      = (((s.step i).1.run turns).1, (s.step i).2.toList ++ ((s.step i).1.run turns).2) := rfl

theorem run_append (s : System ι κ ν ε) (turns later : List ι) :
    s.run (turns ++ later)
      = (((s.run turns).1.run later).1, (s.run turns).2 ++ ((s.run turns).1.run later).2) := by
  induction turns generalizing s with
  | nil => rfl
  | cons i turns ih => rw [List.cons_append, run_cons, ih, run_cons, List.append_assoc]

theorem exists_step (s : System ι κ ν ε) (i : ι) : ∃ t d event?,
    (s.callers i).Turn s.shared (t, d, event?) ∧
      s.step i = (s.update i t d, event?.map (Prod.mk i)) :=
  ⟨_, _, _, (s.callers i).turn_step s.shared, rfl⟩

/-- **A place holds what was published there first.** -/
theorem find?_run [LawfulBEq κ] (s : System ι κ ν ε) (turns : List ι) (place : Place κ) :
    (s.run turns).1.shared.find? place
      = (s.shared.find? place).or (firstOffer? place (s.run turns).2) := by
  induction turns generalizing s with
  | nil => exact (Option.or_none).symm
  | cons i turns ih =>
      obtain ⟨t, d, event?, hturn, hstep⟩ := s.exists_step i
      have hplace : (s.update i t d).shared.find? place
          = (s.shared.find? place).or (event?.bind (·.offer? place)) := hturn.find?_eq place
      rw [run_cons, ih, firstOffer?_append, ← Option.or_assoc, hstep, firstOffer?_toList, hplace]

/-- Every function that was called is running or has ended, once. -/
theorem ended_run (i : ι) (before : List ℕ)
    (h : (before ++ (s.callers i).running).Perm (List.range (s.callers i).calls)) :
    (before ++ ended i (s.run turns).2 ++ ((s.run turns).1.callers i).running).Perm
      (List.range ((s.run turns).1.callers i).calls) := by
  induction turns generalizing s before with
  | nil => simpa [run, ended] using h
  | cons j turns ih =>
      obtain ⟨t, d, event?, hturn, hstep⟩ := s.exists_step j
      rw [run_cons, ended, List.filterMap_append, ← List.append_assoc]
      refine ih _ ?_
      rw [hstep, ← ended, ended_toList]
      by_cases hj : j = i
      · subst hj
        simpa using hturn.perm_range h
      · simpa [hj, callers_update_of_ne (Ne.symm hj)] using h

/-- Something is seen only of the one whose turn it is. -/
theorem turn_of_seen {e : ι × Event κ ν} (h : (s.step i).2 = some e) :
    ∃ d, (s.callers e.1).Turn s.shared ((s.step i).1.shared, d, some e.2) := by
  obtain ⟨t, d, event?, hturn, hstep⟩ := s.exists_step i
  rw [hstep, Option.map_eq_some_iff] at h
  obtain ⟨event, rfl, rfl⟩ := h
  rw [hstep]
  exact ⟨d, hturn⟩

/-- What was seen was a step, which came after what had been seen before. -/
theorem exists_turn {before after : List (ι × Event κ ν)} {e : ι × Event κ ν}
    (h : (s.run turns).2 = before ++ e :: after) :
    ∃ earlier t d, (s.run earlier).2 = before ∧
      ((s.run earlier).1.callers e.1).Turn (s.run earlier).1.shared (t, d, some e.2) := by
  induction turns generalizing s before with
  | nil => exact absurd h (by simp [run])
  | cons i turns ih =>
      rw [run_cons] at h
      cases hseen : (s.step i).2 with
      | none =>
          rw [hseen] at h
          obtain ⟨earlier, t, d, hbefore, hturn⟩ := ih h
          refine ⟨i :: earlier, t, d, ?_, hturn⟩
          rw [run_cons, hseen, hbefore]
          rfl
      | some first =>
          rw [hseen] at h
          cases before with
          | nil =>
              obtain ⟨rfl, -⟩ := List.cons.inj h
              obtain ⟨d, hturn⟩ := turn_of_seen hseen
              exact ⟨[], _, d, rfl, hturn⟩
          | cons _ before =>
              obtain ⟨rfl, hrest⟩ := List.cons.inj h
              obtain ⟨earlier, t, d, hbefore, hturn⟩ := ih hrest
              refine ⟨i :: earlier, t, d, ?_, hturn⟩
              rw [run_cons, hseen, hbefore]
              rfl

/-! ### A caller that is left alone -/

/-- Turns of one caller lead from one system to another. -/
def Reaches (i : ι) (s t : System ι κ ν ε) : Prop := ∃ n, (s.run (List.replicate n i)).1 = t

theorem Reaches.refl (i : ι) (s : System ι κ ν ε) : Reaches i s s := ⟨0, rfl⟩

theorem Reaches.head {t : Shared κ ν} {d : Caller κ ν ε} {event? : Option (Event κ ν)}
    {u : System ι κ ν ε} (h : (s.callers i).step s.shared = (t, d, event?))
    (hrest : Reaches i (s.update i t d) u) : Reaches i s u := by
  obtain ⟨n, hn⟩ := hrest
  refine ⟨n + 1, ?_⟩
  rw [List.replicate_succ, run_cons, step, h]
  exact hn

theorem Reaches.trans {t u : System ι κ ν ε} (h : Reaches i s t) (hrest : Reaches i t u) :
    Reaches i s u := by
  obtain ⟨m, rfl⟩ := h
  obtain ⟨n, rfl⟩ := hrest
  refine ⟨m + n, ?_⟩
  rw [List.replicate_add, run_append]

/-- A function that is at its end is left, and its outcome is settled. -/
theorem Reaches.leave {outcome : Except ε ν} {frame : Frame κ ν ε} {frames : List (Frame κ ν ε)}
    {calls : ℕ} (h : s.callers i = ⟨.done outcome, frame :: frames, calls⟩) :
    Reaches i s (s.update i (frame.place.settle outcome s.shared).2
      ⟨frame.next (frame.place.settle outcome s.shared).1, frames, calls⟩) := by
  obtain ⟨event, hstep⟩ := Caller.step_done s.shared outcome frame frames calls
  rw [← h] at hstep
  exact .head hstep (.refl i _)

/-- **A caller that is left alone evaluates its program**, inside of the functions in which it is. -/
theorem run_alone (p : Program κ ν ε) {frames : List (Frame κ ν ε)} {calls : ℕ}
    (h : s.callers i = ⟨p, frames, calls⟩) :
    ∃ result t calls', p.eval s.shared = ending result t ∧
      Reaches i s (s.update i t ⟨.done result, frames, calls'⟩) := by
  induction p generalizing s frames calls with
  | done result =>
      refine ⟨result, s.shared, calls, ?_, ?_⟩
      · cases result <;> rfl
      · rw [← h, update, Function.update_eq_self]
        exact .refl i s
  | look place next ih =>
      have hstep := congrArg (·.step s.shared) h
      obtain ⟨result, t, calls', heval, hreach⟩ := ih _ (callers_update s i _ _)
      rw [update_update] at hreach
      exact ⟨result, t, calls', heval, hreach.head hstep⟩
  | publish v next ih =>
      have hstep := congrArg (·.step s.shared) h
      obtain ⟨result, t, calls', heval, hreach⟩ := ih _ (callers_update s i _ _)
      rw [update_update] at hreach
      exact ⟨result, t, calls', heval, hreach.head hstep⟩
  | call place function next ihfunction ihnext =>
      cases hfound : s.shared.find? place with
      | some v =>
          have hstep : (s.callers i).step s.shared
              = (s.shared, ⟨next (.ok v), frames, calls⟩, some (.found place v)) := by
            simp only [h, Caller.step, hfound]
          obtain ⟨result, t, calls', heval, hreach⟩ :=
            ihnext (.ok v) (callers_update s i s.shared _)
          rw [update_update] at hreach
          have hget := Place.getOrCompute_of_found hfound function.eval
          exact ⟨result, t, calls', (Program.eval_call hget).trans heval, hreach.head hstep⟩
      | none =>
          have hstep : (s.callers i).step s.shared
              = (s.shared, ⟨function, ⟨calls, place, next⟩ :: frames, calls + 1⟩,
                some (.called calls place)) := by
            simp only [h, Caller.step, hfound]
          obtain ⟨outcome, t, calls₁, hfunction, hinside⟩ :=
            ihfunction (callers_update s i s.shared
              ⟨function, ⟨calls, place, next⟩ :: frames, calls + 1⟩)
          rw [update_update] at hinside
          have hleave := Reaches.leave
            (callers_update s i t ⟨.done outcome, ⟨calls, place, next⟩ :: frames, calls₁⟩)
          obtain ⟨result, u, calls', heval, hreach⟩ := ihnext (place.settle outcome t).1
            (callers_update s i (place.settle outcome t).2 _)
          rw [update_update] at hleave hreach
          have hget := Place.getOrCompute_of_vacant hfound hfunction
          exact ⟨result, u, calls', (Program.eval_call hget).trans heval,
            .head hstep (hinside.trans (hleave.trans hreach))⟩

end System

/-! ### What all callers can rely on -/

variable {programs : ι → Program κ ν ε} {turns : List ι}

/-- The system after the callers had some turns. -/
def outcome (programs : ι → Program κ ν ε) (turns : List ι) : System ι κ ν ε :=
  ((start programs).run turns).1

/-- What was seen of these turns. -/
def history (programs : ι → Program κ ν ε) (turns : List ι) : List (ι × Event κ ν) :=
  ((start programs).run turns).2

theorem find?_outcome [LawfulBEq κ] (programs : ι → Program κ ν ε) (turns : List ι)
    (place : Place κ) :
    (outcome programs turns).shared.find? place = firstOffer? place (history programs turns) := by
  rw [outcome, System.find?_run, start, Shared.find?_vacant, Option.none_or]
  rfl

/-- What was seen was a step, from what had been published before it. -/
theorem exists_seen [LawfulBEq κ] {before after : List (ι × Event κ ν)} {i : ι} {event : Event κ ν}
    (h : history programs turns = before ++ (i, event) :: after) :
    ∃ s t, ∃ c d : Caller κ ν ε, c.Turn s (t, d, some event) ∧
      (∀ place, s.find? place = firstOffer? place before) ∧
      ∀ place, t.find? place = firstOffer? place (before ++ [(i, event)]) := by
  obtain ⟨earlier, t, d, hbefore, hturn⟩ := System.exists_turn h
  have hfind (place : Place κ) :
      (outcome programs earlier).shared.find? place = firstOffer? place before := by
    rw [find?_outcome]
    exact congrArg (firstOffer? place) hbefore
  refine ⟨_, t, _, d, hturn, hfind, fun place => ?_⟩
  have hlast : firstOffer? place [(i, event)] = event.offer? place :=
    firstOffer?_toList place i (some event)
  rw [firstOffer?_append, hlast, ← hfind]
  exact hturn.find?_eq place

/-- A call comes to its end only once. -/
theorem eq_of_ended {i : ι} {first second : Event κ ν} {number : ℕ}
    (hfirst : (i, first) ∈ history programs turns) (hsecond : (i, second) ∈ history programs turns)
    (hnumber : first.ended? = some number) (hnumber' : second.ended? = some number) :
    first = second := by
  have hperm : (ended i (history programs turns) ++ ((outcome programs turns).callers i).running).Perm
      (List.range ((outcome programs turns).callers i).calls) :=
    (start programs).ended_run i [] .rfl
  have hnodup := (hperm.nodup_iff.2 List.nodup_range).of_append_left
  have heq := eq_of_nodup_filterMap hnodup hfirst hsecond ((if_pos rfl).trans hnumber)
    ((if_pos rfl).trans hnumber')
  exact (Prod.mk.inj heq).2

/-- **What all callers can rely on**, in whatever order they get their turns.  Who asked for a value or
published one gets the value that was published first at the place, and so does everybody later; who only
looks sees the one published first so far.  A function is called only when nothing was published at its
place.  A place holds what was published there first, and never loses it.  A call whose function fails
changes nothing that is shared and never publishes.  No caller is held up: from where it is, it evaluates
its program if it is left alone. -/
theorem callers_agree [LawfulBEq κ] (programs : ι → Program κ ν ε) (turns : List ι) :
    (∀ before i event after, history programs turns = before ++ (i, event) :: after →
      (∀ place v, event.returned? = some (place, v) →
        firstOffer? place (before ++ [(i, event)]) = some v ∧
          firstOffer? place (history programs turns) = some v) ∧
      (∀ place value?, event = .looked place value? → value? = firstOffer? place before) ∧
      ∀ number place, event = .called number place → firstOffer? place before = none) ∧
    (∀ place, (outcome programs turns).shared.find? place
      = firstOffer? place (history programs turns)) ∧
    (∀ place v later, (outcome programs turns).shared.find? place = some v →
      (outcome programs (turns ++ later)).shared.find? place = some v) ∧
    (∀ i number place, ((outcome programs turns).step i).2 = some (i, .failed number place) →
      ((outcome programs turns).step i).1.shared = (outcome programs turns).shared) ∧
    (∀ i number place, (i, .failed number place) ∈ history programs turns → ∀ place' v kept,
      (i, .published number place' v kept) ∉ history programs turns) ∧
    ∀ i p frames calls, (outcome programs turns).callers i = ⟨p, frames, calls⟩ →
      ∃ result t calls' n, p.eval (outcome programs turns).shared = ending result t ∧
        outcome programs (turns ++ List.replicate n i)
          = (outcome programs turns).update i t ⟨.done result, frames, calls'⟩ := by
  refine ⟨?_, find?_outcome programs turns, ?_, ?_, ?_, ?_⟩
  · intro before i event after h
    obtain ⟨s, t, c, d, hturn, hbefore, hafter⟩ := exists_seen h
    refine ⟨fun place v hv => ?_, ?_, ?_⟩
    · have hfirst : firstOffer? place (before ++ [(i, event)]) = some v :=
        (hafter place).symm.trans (hturn.find?_of_returned hv)
      refine ⟨hfirst, ?_⟩
      rw [h, List.append_cons, firstOffer?_append, hfirst, Option.some_or]
    · rintro place value? rfl
      exact hturn.eq_find?.trans (hbefore place)
    · rintro number place rfl
      exact (hbefore place).symm.trans hturn.vacant_of_called
  · intro place v later hv
    rw [outcome, System.run_append]
    exact ((outcome programs turns).find?_run later place).trans (by rw [hv, Option.some_or])
  · intro i number place h
    obtain ⟨d, hturn⟩ := System.turn_of_seen h
    exact hturn.eq_of_failed
  · intro i number place hfailed place' v kept hpublished
    cases eq_of_ended hfailed hpublished rfl rfl
  · intro i p frames calls h
    obtain ⟨result, t, calls', heval, n, hn⟩ := System.run_alone p h
    refine ⟨result, t, calls', n, heval, ?_⟩
    rw [outcome, System.run_append]
    exact hn

/-- One caller's function asks for the value of the slot itself, and the other one's function fails, so
that the other caller publishes a value of its own. -/
def racing : Bool → Program ℕ ℕ String
  | false => .call .slot (.call .slot (.done (.ok 1)) fun _ => .done (.ok 2)) .done
  | true => .call .slot (.done (.error "no value")) fun _ => .publish 3 fun v => .done (.ok v)

/-- Both callers look before either of them publishes. -/
def order : List Bool := [false, true, false, true, true, false, false]

/-- All three look-ups find the slot vacant, and still all of them agree. -/
theorem racing_callers_agree :
    (false, .published 1 .slot 1 3) ∈ history racing order ∧
      (false, .published 0 .slot 2 3) ∈ history racing order ∧
      firstOffer? .slot (history racing order) = some 3 := by
  have hhistory : history racing order
      = [(false, .called 0 .slot), (true, .called 0 .slot), (false, .called 1 .slot),
          (true, .failed 0 .slot), (true, .offered 3 3), (false, .published 1 .slot 1 3)]
        ++ (false, .published 0 .slot 2 3) :: [] := rfl
  obtain ⟨hseen, -⟩ := callers_agree racing order
  have hfirst := ((hseen _ _ _ _ hhistory).1 .slot 3 rfl).2
  rw [hhistory] at hfirst ⊢
  exact ⟨by simp, by simp, hfirst⟩

end UniversalAlgebra.Callers
