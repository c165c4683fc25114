/-
**Closing a list of generators.**

A list of tuples is taken in one after the other, each tuple when it occurs for the first time, and then
closed with nobody looking on.  Since a closure never forgets and never reorders, the tuples that are
listed in the end begin with the generators; and they are what these generate.

Main results:

* `SubpowerClosure.toList_insertAll` — generators are listed in the order in which they first occur;
* `SubpowerClosure.lists_generated` — **closing generators lists exactly what they generate**.
-/

import UniversalAlgebra.Proofs.Closure.Interruptions
import UniversalAlgebra.Proofs.Closure.Marks

set_option autoImplicit false

namespace UniversalAlgebra.SubpowerClosure

open Closure

variable {τ : Type} {A : Algebra} {k : ℕ}

/-- Generators are listed in the order in which they first occur. -/
theorem toList_insertAll (observe : τ → List ℕ → Bool × τ) (observer : τ) {ts : List (List ℕ)}
    (hts : ∀ t ∈ ts, t ∈ A.tuples k) :
    ((observed k observe observer).insertAll ts).tuples.toList = ts.eraseDups := by
  induction ts using List.reverseRecOn with
  | nil => rfl
  | append_singleton ts t ih =>
      have hts' : ∀ u ∈ ts, u ∈ A.tuples k := fun u hu => hts u (List.mem_append_left _ hu)
      obtain ⟨hs, -, -, hmem⟩ := (faithful_observed A k observe observer).insertAll hts'
      have hcontains : ((observed k observe observer).insertAll ts).contains t = true ↔ t ∈ ts := by
        rw [hs.contains_iff, hmem]
        simp [observed]
      have happend : (observed k observe observer).insertAll (ts ++ [t])
          = ((observed k observe observer).insertAll ts).insert t := List.foldl_append
      rw [happend, List.eraseDups_append, ← ih hts', insert]
      by_cases ht : t ∈ ts
      · have hremoved : [t].removeAll ts = [] := by simp [List.removeAll, ht]
        rw [if_pos (hcontains.2 ht), hremoved, List.eraseDups_nil, List.append_nil]
      · have hkept : [t].removeAll ts = [t] := by simp [List.removeAll, ht]
        rw [if_neg fun h => ht (hcontains.1 h), hkept, Array.toList_push]
        rfl

/-- Where an observer never asks to stop and keeps nothing in mind, nobody looks on. -/
theorem unobserved_eq {s : SubpowerClosure Unit} (h : s.observe = fun _ _ => (true, ())) :
    s.unobserved = s := by
  rw [unobserved, ← h]

/-- **Closing generators lists exactly what they generate.**  In whichever mode, and with whatever
workers, closing tuples of elements without a cap and with nobody looking on ends closed, always with the
same list.  It begins with the generators in the order in which they first occur, has no tuple twice, and
its tuples are the least set of tuples of elements that contains the generators and is closed under the
operations of positive arity, applied coordinate by coordinate; and they are the tuples that the closure
says it contains. -/
theorem lists_generated (hA : A.Total) {ts : List (List ℕ)} (hts : ∀ t ∈ ts, t ∈ A.tuples k) :
    ∃ e : SubpowerClosure Unit,
      (∀ o, RunsTo A 0 0 ((start k).insertAll ts) o → o = ⟨.ok .closed, e⟩) ∧
      ts.eraseDups <+: e.tuples.toList ∧ e.tuples.toList.Nodup ∧
      IsLeast {T | T ⊆ A.tuples k ∧ A.ClosedUnderColumns k T ∧ ∀ t ∈ ts, t ∈ T}
        {t | t ∈ e.tuples} ∧
      ∀ t, e.contains t = true ↔ t ∈ e.tuples := by
  obtain ⟨hs, hobserve, -, hmem⟩ :=
    (faithful_observed A k (fun (_ : Unit) _ => (true, ())) ()).insertAll hts
  obtain ⟨e, he, hprefix, hrun, -⟩ := close_cutShort hA hs 0
  obtain ⟨e', hclose, -, ⟨hclosed, hkept⟩, hleast⟩ :=
    close_isLeast hA .sequential hs (fun _ _ => by rw [hobserve]; rfl) (settledBelow_zero _ _)
  have hrun' : ∀ o, RunsTo A 0 0 ((start k).insertAll ts) o → o = ⟨.ok .closed, e⟩ := by
    rwa [unobserved_eq hobserve] at hrun
  obtain rfl : e' = e := congrArg Outcome.state (hclose.symm.trans (hrun' _ (Or.inl rfl)))
  have hgenerator (t : List ℕ) : t ∈ ((observed k (fun (_ : Unit) _ => (true, ())) ()).insertAll
      ts).tuples ↔ t ∈ ts := by
    rw [hmem]
    simp [observed]
  refine ⟨e', hrun', toList_insertAll _ _ hts ▸ hprefix, he.nodup,
    ⟨⟨he.mem_tuples, hclosed, fun t ht => hkept ((hgenerator t).2 ht)⟩, ?_⟩, he.contains_iff⟩
  rintro T ⟨-, hT, hgenerators⟩
  exact hleast ⟨hT, fun t ht => hgenerators t ((hgenerator t).1 ht)⟩

/-- In the residues modulo four two pairs, one of which is given twice, generate two more. -/
theorem lists_generated_residuesModFour :
    ∃ e : SubpowerClosure Unit,
      (∀ o, RunsTo Algebra.residuesModFour 0 0 ((start 2).insertAll [[0, 2], [2, 2], [0, 2]]) o →
        o = ⟨.ok .closed, e⟩) ∧
      e.tuples.toList = [[0, 2], [2, 2], [0, 0], [2, 0]] ∧
      IsLeast {T | T ⊆ Algebra.residuesModFour.tuples 2 ∧
        Algebra.residuesModFour.ClosedUnderColumns 2 T ∧ ∀ t ∈ [[0, 2], [2, 2], [0, 2]], t ∈ T}
        {t | t ∈ e.tuples} := by
  have htuples : ∀ t ∈ [[0, 2], [2, 2], [0, 2]], t ∈ Algebra.residuesModFour.tuples 2 := by
    simp [Algebra.tuples, Algebra.residuesModFour]
  obtain ⟨e, hrun, -, -, hleast, -⟩ := lists_generated Algebra.total_residuesModFour htuples
  refine ⟨e, hrun, ?_, hleast⟩
  rw [← congrArg (fun o => o.state.tuples.toList) (hrun _ (Or.inl rfl))]
  cbv

end UniversalAlgebra.SubpowerClosure
