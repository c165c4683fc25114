/-
**The caches of a subalgebra lattice agree with each other.**

Whatever a caller asks, the caches only get what the algebra determines: the search for all
subalgebras goes through the table of joins, which has exactly what its keys generate as long as no
open set is taken for closed.  So what was asked before does not matter for generation.  One join
whose larger operand is open is enough to spoil that, since a join keeps its value where generation
finds it.

Main results:

* `SubalgebraLattice.lists_subuniverses` — the list of subalgebras up to a cap;
* `SubalgebraLattice.Reachable.coherent` — **every reachable lattice is coherent**;
* `SubalgebraLattice.generatedBy_exact` — **generation with caches agrees with generation without**.
-/

import Mathlib
import UniversalAlgebra.Proofs.CappedList
import UniversalAlgebra.Proofs.SubalgebraLattice.Reachable

set_option autoImplicit false

namespace UniversalAlgebra.SubalgebraLattice

open Query Fallible

variable {A : Algebra} {settings : Settings} {L : SubalgebraLattice} {s t : ElementSet}

/-! ### The slot for all subalgebras -/

/-- Nothing was put into the slot for all subalgebras. -/
theorem detached_vacant : Detached fun L => L.complete.value? = none := fun _ _ _ _ hL => hL

theorem keeps_zero_vacant : Keeps (fun L => L.complete.value? = none) zero :=
  Keeps.getOrCompute (Keeps.get_bind fun _ _ => Keeps.lift _) fun _ _ hL => hL

theorem keeps_oneGenerated_vacant (x : ℕ) :
    Keeps (fun L => L.complete.value? = none) (oneGenerated x) := by
  refine Keeps.get_bind fun L _ => Keeps.bind (Keeps.lift _) fun _ => ?_
  exact Keeps.findOrCompute (Keeps.get_bind fun _ _ => Keeps.lift _) fun _ _ _ hL => hL

/-! ### The search -/

/-- **The search for joins of irreducible subalgebras finds them all, or more than the cap allows**, and
leaves the slot for all of them alone. -/
theorem yields_search (hA : A.Total) (settings : Settings) (cap : ℕ) :
    ∃ (found : List ElementSet) (capped : Bool),
      Yields (fun L => Coherent A settings L ∧ L.complete.value? = none)
        (joinClosure join ElementSet.subset (A.generated [])
          (A.irreducibleSubalgebras.map (·.1)) (Nat.pow 2 A.size) cap) (.ok (found, capped)) ∧
      FoundUpTo A.subalgebras ElementSet.less cap (ElementSet.sort found) capped := by
  let _ := hA.subalgebraSup
  let _ := hA.subalgebraBot
  have hjoin (σ τ : A.Subalgebra) :
      Yields (fun L => Coherent A settings L ∧ L.complete.value? = none) (join σ.set τ.set)
        (.ok (σ ⊔ τ).set) :=
    (yields_join hA σ.isSubalgebra τ.isSubalgebra).and (detached_vacant.keeps_join σ.set τ.set)
  have hirreducible : ∀ s ∈ A.irreducibleSubalgebras.map (·.1), ∃ σ : A.Subalgebra, σ.set = s :=
    fun s hs => ⟨⟨s, Algebra.isSubalgebra_of_mem_irreducibles hA hs⟩, rfl⟩
  exact sorted_joinClosure_spec join (answering_yields _) ElementSet.orderedBy_less
    Algebra.Subalgebra.orderKey_injective Algebra.Subalgebra.subset_iff hjoin hirreducible
    (Algebra.Subalgebra.generates_irreducibles hA) (Algebra.Subalgebra.card_le A) cap

/-! ### The list of subalgebras -/

/-- **The list of subalgebras up to a cap.** -/
theorem lists_subuniverses (hA : A.Total) (cap : ℕ) :
    Lists (Coherent A settings) complete A.subalgebras ElementSet.less cap (subuniverses cap) := by
  intro L hL
  unfold subuniverses
  rw [get_bind_apply]
  cases hvalue : L.complete.value? with
  | some all =>
      obtain rfl := hL.complete_eq all hvalue
      exact ⟨A.subalgebras, false, L, rfl, hL, listed_of_kept hvalue⟩
  | none =>
      obtain ⟨L₁, hL₁, hirreducible⟩ := (yields_irreducibleList hA).and
        (detached_vacant.keeps_irreducibleList keeps_zero_vacant keeps_oneGenerated_vacant)
        L ⟨hL, hvalue⟩
      obtain ⟨L₂, hL₂, hzero⟩ :=
        (rooted_coherent.yields_zero hA).and keeps_zero_vacant L₁ hL₁
      obtain ⟨found, capped, hyields, hfound⟩ := yields_search hA settings cap
      obtain ⟨L₃, ⟨hL₃, hvalue₃⟩, hsearch⟩ := hyields L₂ hL₂
      have hkept : Coherent A settings { L₃ with complete := ⟨some A.subalgebras⟩ } :=
        { hL₃ with complete_eq := fun list h => by cases h; rfl }
      simp only [bind_of_ok hirreducible, bind_of_ok hzero, get_bind_apply, hL₂.1.algebra_eq,
        bind_of_ok hsearch]
      refine listed_of_found hfound hL₃ hvalue hvalue₃ ?_ hkept rfl
      intro hall
      simp only [modifyGet, MonadStateOf.modifyGet, EStateM.modifyGet, Slot.publish_eq, hvalue₃,
        Option.getD_none, hall]

/-- The whole list, if the cap does not cut it off. -/
theorem allSubuniverses_eq (hA : A.Total) (caller : String) (hL : Coherent A settings L)
    (havailable : Available complete A.subalgebras settings.maxSize L) :
    ∃ L', Coherent A settings L' ∧ allSubuniverses caller L = .ok A.subalgebras L' := by
  obtain ⟨L', hrun, hL', -⟩ := (lists_subuniverses hA settings.maxSize).whole hL havailable
  refine ⟨L', hL', ?_⟩
  rw [allSubuniverses, get_bind_apply, hL.settings_eq, bind_of_ok hrun]
  rfl

theorem ensures_allSubuniverses (hA : A.Total) (caller : String) :
    Ensures (Coherent A settings) (allSubuniverses caller) (· = A.subalgebras) := by
  refine Ensures.get_bind fun L hL => ?_
  rw [hL.settings_eq]
  exact (lists_subuniverses hA settings.maxSize).ensures rfl fun _ => rfl

/-- The meet irreducible subalgebras, once the list of all is known. -/
theorem yields_meetIrreducibles (hA : A.Total) :
    Yields (Coherent A settings)
      (Slot.getOrCompute meetIrreducibles (fun L slot => { L with meetIrreducibles := slot })
        (A.subalgebras.filterM isMeetIrreducible)) (.ok A.meetIrreducibleSubalgebras) := by
  refine Yields.getOrCompute (fun L hL w hw => hL.meetIrreducibles_eq w hw) ?_ fun L hL =>
    { hL with meetIrreducibles_eq := fun list h => by cases h; rfl }
  exact Yields.filterM fun s hs => yields_isMeetIrreducible hA (Algebra.mem_subalgebras.1 hs)

/-- They are answered if the cap does not cut that list off. -/
theorem meetIrreducibleList_eq (hA : A.Total) (hL : Coherent A settings L)
    (havailable : L.complete.isReady = true ∨ settings.maxSize = 0 ∨
      Nat.card A.Subalgebra ≤ settings.maxSize) :
    ∃ L', Coherent A settings L' ∧
      meetIrreducibleList L = .ok A.meetIrreducibleSubalgebras L' := by
  rw [← Algebra.length_subalgebras] at havailable
  obtain ⟨L', hL', hrun⟩ := allSubuniverses_eq hA "meet_irreducibles" hL havailable
  refine Yields.bind_of_ok ?_ hL' hrun
  exact yields_meetIrreducibles hA

/-! ### Coherence is kept -/

theorem keeps_generatedBy (hA : A.Total) (s : ElementSet) :
    Keeps (Coherent A settings) (generatedBy s) := by
  by_cases hs : ∀ x ∈ s.elements, x < A.size
  · exact (yields_generatedBy hA hs).keeps
  · unfold generatedBy
    split
    · next x hx => exact rooted_coherent.keeps_oneGenerated hA x
    · refine Keeps.get_bind fun L hL => ?_
      cases hcheck : L.checkElements s.elements with
      | error fault => exact Keeps.throw fault
      | ok u =>
          have hlt := lt_of_checkElements_eq_ok hcheck
          rw [hL.algebra_eq] at hlt
          exact absurd hlt hs

theorem keeps_findGenerator (hA : A.Total) (xs : List ℕ) :
    Keeps (Coherent A settings) (findGenerator xs) := by
  induction xs with
  | nil => exact Keeps.pure _
  | cons x xs ih =>
      refine Keeps.bind (rooted_coherent.keeps_oneGenerated hA x) fun _ => Keeps.get_bind fun _ _ => ?_
      exact Keeps.ite (Keeps.pure _) ih

theorem keeps_minimalGeneratingSet (hA : A.Total) :
    Keeps (Coherent A settings) minimalGeneratingSet := by
  refine Keeps.getOrCompute (Keeps.get_bind fun L _ => ?_) fun L _ hL => { hL with }
  refine Keeps.bind (rooted_coherent.yields_zero hA).keeps fun _ => Keeps.ite (Keeps.pure _) ?_
  refine Keeps.bind (keeps_findGenerator hA _) fun found => ?_
  split
  · exact Keeps.pure _
  · refine Keeps.bind (Keeps.lift _) fun found => ?_
    split
    · exact Keeps.pure _
    · exact Keeps.pure _

theorem keeps_upperCovers (hA : A.Total) (s : ElementSet) :
    Keeps (Coherent A settings) (upperCovers s) := by
  refine Keeps.get_bind fun L hL => ?_
  obtain rfl := hL.algebra_eq
  cases hcheck : L.isSubuniverse s with
  | error fault => exact Keeps.throw fault
  | ok answer =>
      cases answer with
      | false => exact Keeps.throw _
      | true => exact (yields_covers hA (isSubalgebra_of_isSubuniverse hA hcheck)).keeps

/-- Whatever a caller asks, the lattice stays coherent. -/
theorem Public.keeps (hA : A.Total) {α : Type} {q : Query SubalgebraLattice α} (hq : Public A q) :
    Keeps (Coherent A settings) q := by
  cases hq with
  | zero => exact (rooted_coherent.yields_zero hA).keeps
  | oneGenerated x => exact rooted_coherent.keeps_oneGenerated hA x
  | generatedBy s => exact keeps_generatedBy hA s
  | join h => exact (yields_joinable hA h).keeps
  | singleList => exact (yields_singleList hA).keeps
  | minimalGeneratingSet => exact keeps_minimalGeneratingSet hA
  | joinIrreducibleList => exact (yields_joinIrreducibleList hA).keeps
  | lowerCover s =>
      refine Keeps.bind (yields_irreducibleData hA).keeps fun data => ?_
      split
      · exact Keeps.pure _
      · exact Keeps.throw _
  | upperCovers s => exact keeps_upperCovers hA s
  | subuniverses cap => exact (lists_subuniverses hA cap).keeps
  | cardinality => exact Keeps.bind (ensures_allSubuniverses hA _).keeps fun _ => Keeps.pure _
  | meetIrreducibleList =>
      refine (ensures_allSubuniverses hA _).bind_keeps ?_
      rintro _ rfl
      exact (yields_meetIrreducibles hA).keeps
  | filter s => exact Keeps.bind (ensures_allSubuniverses hA _).keeps fun _ => Keeps.pure _
  | reset =>
      refine Keeps.modify fun L hL => ?_
      rw [SubalgebraLattice.reset, hL.algebra_eq, hL.settings_eq]
      exact coherent_start A settings

/-- **Every reachable lattice is coherent.** -/
theorem Reachable.coherent (hA : A.Total) (hL : Reachable A settings L) : Coherent A settings L := by
  induction hL with
  | start => exact coherent_start A settings
  | query hq _ ih => exact hq.keeps hA _ ih

/-! ### Generation in reachable states -/

/-- **Generation with caches agrees with generation without.**  As long as no join took an open set for
closed, a set of elements generates, whatever was asked before, the least subuniverse that contains it
and the constants, which is also the answer without caches. -/
theorem generatedBy_exact (hA : A.Total) (hL : Reachable A settings L) {G : ElementSet}
    (hG : ∀ x ∈ G.elements, x < A.size) :
    ∃ S : ElementSet, (generatedBy G).result L = .ok S ∧ L.sg G.elements 0 = .ok (S, false) ∧
      S.elements.Pairwise (· < ·) ∧
      IsLeast {T : Set ℕ | A.IsSubuniverse T ∧ (∀ x ∈ G.elements, x ∈ T) ∧ ∀ c ∈ A.constants, c ∈ T}
        {x | x ∈ S.elements} := by
  have hcoherent := hL.coherent hA
  refine ⟨A.generated G.elements, (yields_generatedBy hA hG).result_eq hcoherent, ?_,
    (hA.isSubalgebra_generated hG).increasing, hA.isLeast_generated hG⟩
  obtain rfl := hcoherent.algebra_eq
  exact sg_eq hA hG

/-- The pairs of bits after a join of two subalgebras: its value is what is generated afterwards. -/
theorem generatedBy_one_two_bitPairs :
    (generatedBy ⟨[1, 2]⟩).result ((join ⟨[1]⟩ ⟨[2]⟩).after (start Algebra.bitPairs .standard))
      = .ok ⟨[0, 1, 2, 3]⟩ := by
  have hsingle (x : ℕ)
      (h : (start Algebra.bitPairs .standard).isSubuniverse ⟨[x]⟩ = .ok true) :
      Algebra.bitPairs.IsSubalgebra ⟨[x]⟩ := isSubalgebra_of_isSubuniverse Algebra.total_bitPairs h
  have hjoin : Joinable Algebra.bitPairs ⟨[1]⟩ ⟨[2]⟩ :=
    .of_isSubalgebra (hsingle 1 (by cbv)) (hsingle 2 (by cbv))
  have hreachable : Reachable Algebra.bitPairs .standard
      ((join ⟨[1]⟩ ⟨[2]⟩).after (start Algebra.bitPairs .standard)) := .query (.join hjoin) .start
  obtain ⟨S, hanswer, hsg, -⟩ :=
    generatedBy_exact Algebra.total_bitPairs hreachable (G := ⟨[1, 2]⟩) (by decide)
  have hrun : ((join ⟨[1]⟩ ⟨[2]⟩).after (start Algebra.bitPairs .standard)).sg [1, 2] 0
      = .ok (⟨[0, 1, 2, 3]⟩, false) := by cbv
  rw [hrun] at hsg
  obtain rfl : ⟨[0, 1, 2, 3]⟩ = S := congrArg Prod.fst (Except.ok.inj hsg)
  exact hanswer

/-- A join that takes an open set for closed, here one and two among the pairs of bits, keeps a value
without their join, and generation finds that value instead of what is generated without caches. -/
theorem generatedBy_after_open_join_bitPairs :
    (∀ x ∈ [1, 2] ++ [0], x < Algebra.bitPairs.size) ∧
      (generatedBy ⟨[0, 1, 2]⟩).result
          ((join ⟨[1, 2]⟩ ⟨[0]⟩).after (start Algebra.bitPairs .standard)) = .ok ⟨[0, 1, 2]⟩ ∧
      ((join ⟨[1, 2]⟩ ⟨[0]⟩).after (start Algebra.bitPairs .standard)).sg [0, 1, 2] 0
        = .ok (⟨[0, 1, 2, 3]⟩, false) := by
  refine ⟨by decide, ?_, ?_⟩
  · cbv
  · cbv

end UniversalAlgebra.SubalgebraLattice
