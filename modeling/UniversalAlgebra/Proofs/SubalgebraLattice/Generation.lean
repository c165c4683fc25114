/-
**Generating subuniverses.**

Closing a seed that has all constants yields the subuniverse generated by the seed, unless there are
more elements than the cap allows.  The cap is looked at twice, after the seed was taken in and at
each new element, and both times what was discovered lies in the generated subuniverse, so that it
is exceeded only by a generated subuniverse that is too large itself.

Main results:

* `SubuniverseClosure.close_foldAll`, `SubalgebraLattice.closeSeed_eq` — closing a list of elements
  with all constants;
* `SubalgebraLattice.sg_eq_generated` — **generation yields the least subuniverse, or the whole
  universe if that is larger than the cap**.
-/

import UniversalAlgebra.Proofs.Closure.Subuniverse
import UniversalAlgebra.Proofs.ElementSet
import UniversalAlgebra.SubalgebraLattice.Basic

set_option autoImplicit false

namespace UniversalAlgebra

/-- A subuniverse is closed under the operations of positive arity. -/
theorem Algebra.IsSubuniverse.closedUnder {A : Algebra} {S : Set ℕ} (hS : A.IsSubuniverse S) :
    A.ClosedUnder S :=
  fun op hop _ args hlen hargs => hS.value_mem op hop args hlen hargs

/-- A set of elements with all constants is closed under the nullary operations as well. -/
theorem Algebra.ClosedUnder.isSubuniverse {A : Algebra} (hA : A.Total) {S : Set ℕ}
    (hS : A.ClosedUnder S) (hlt : ∀ x ∈ S, x < A.size) (hconstants : ∀ c ∈ A.constants, c ∈ S) :
    A.IsSubuniverse S := by
  refine ⟨hlt, ?_⟩
  intro op hop args hlen hargs
  rcases Nat.eq_zero_or_pos op.arity with harity | harity
  · obtain rfl : args = [] := List.eq_nil_of_length_eq_zero (hlen.trans harity)
    have happly : op.apply [] = .ok (op.value []) := hA.apply_eq hop hlen (by simp)
    exact hconstants _ ((hA.mem_constants _).2 ⟨op, hop, harity, happly⟩)
  · exact hS op hop harity args hlen hargs

namespace SubuniverseClosure

open Closure

variable {A : Algebra} {seed : List ℕ}

/-- Taking in a seed discovers exactly its members. -/
theorem foldAll_start (hseed : ∀ x ∈ seed, x < A.size) :
    ((start A.size).foldAll seed).Faithful A.size ∧
      ∀ x, x ∈ ((start A.size).foldAll seed).elements ↔ x ∈ seed := by
  obtain ⟨hfaithful, hmem⟩ := (faithful_start A.size).foldAll hseed
  refine ⟨hfaithful, ?_⟩
  intro x
  rw [hmem]
  simp [start]

/-- **Closing a seed that has all constants** ends closed with exactly what the seed generates, or
with more of it than the cap allows. -/
theorem close_foldAll (hA : A.Total) (hseed : ∀ x ∈ seed, x < A.size)
    (hconstants : ∀ c ∈ A.constants, c ∈ seed) {mark : ℕ}
    (hsettled : SettledBelow A.operations ((start A.size).foldAll seed) mark) (mode : Mode)
    (cap : ℕ) :
    ∃ s' : SubuniverseClosure, s'.Faithful A.size ∧
      ((close A mode cap mark ((start A.size).foldAll seed) = ⟨.ok .closed, s'⟩ ∧
          (∀ x, x ∈ s'.elements ↔ x ∈ A.sg {x | x ∈ seed}) ∧
          (cap ≠ 0 → ((start A.size).foldAll seed).elements.size ≤ cap →
            s'.elements.size ≤ cap)) ∨
        (close A mode cap mark ((start A.size).foldAll seed) = ⟨.ok .capped, s'⟩ ∧
          (∀ x ∈ s'.elements, x ∈ A.sg {x | x ∈ seed}) ∧ cap ≠ 0 ∧ cap < s'.elements.size)) := by
  obtain ⟨⟨hsub, hseedT⟩, hleast⟩ := hA.isLeast_sg (G := {x | x ∈ seed}) hseed
  obtain ⟨hstart, hmem⟩ := foldAll_start hseed
  have hsmall : ∀ x ∈ ((start A.size).foldAll seed).elements, x ∈ A.sg {x | x ∈ seed} := by
    intro x hx
    exact hseedT ((hmem x).1 hx)
  obtain ⟨s', hs', hsT, ⟨hclose, hkept, hclosed, hwithin⟩ | ⟨hclose, hcap, hlt⟩⟩ :=
    close_spec hA mode cap hstart hsettled hsub.closedUnder hsmall
  · refine ⟨s', hs', Or.inl ⟨hclose, ?_, hwithin⟩⟩
    have hseed' : ∀ x ∈ seed, x ∈ s'.elements := fun x hx => hkept x ((hmem x).2 hx)
    have hsub' : A.IsSubuniverse {x | x ∈ s'.elements} :=
      hclosed.isSubuniverse hA hs'.lt fun c hc => hseed' c (hconstants c hc)
    intro x
    constructor
    · exact hsT x
    · intro hx
      exact hleast ⟨hsub', hseed'⟩ hx
  · exact ⟨s', hs', Or.inr ⟨hclose, hsT, hcap, hlt⟩⟩

end SubuniverseClosure

namespace SubalgebraLattice

variable {A : Algebra} {L : SubalgebraLattice}

/-- Closing a list of elements that has all constants: the answer is the set they generate, unless
it is larger than the cap. -/
theorem closeSeed_eq (hA : L.algebra.Total) {seed : List ℕ}
    (hseed : ∀ x ∈ seed, x < L.algebra.size) (hconstants : ∀ c ∈ L.algebra.constants, c ∈ seed)
    {mark : ℕ} (hsettled : Closure.SettledBelow L.algebra.operations
      ((SubuniverseClosure.start L.algebra.size).foldAll seed) mark)
    {S : ElementSet} (hS : S.Increasing)
    (hmem : ∀ x, x ∈ S.elements ↔ x ∈ L.algebra.sg {x | x ∈ seed}) (cap : ℕ) :
    L.closeSeed seed mark cap = .ok (if cap = 0 ∨ S.size ≤ cap then (S, false) else (L.one, true)) := by
  -- what is discovered is never larger than the generated set
  have hsize (s : SubuniverseClosure) (hs : s.Faithful L.algebra.size)
      (hsT : ∀ x ∈ s.elements, x ∈ L.algebra.sg {x | x ∈ seed}) : s.elements.size ≤ S.size := by
    have := ElementSet.length_le_size hs.nodup fun x hx => (hmem x).2 (hsT x (by simpa using hx))
    simpa using this
  rw [closeSeed]
  by_cases hearly : cap ≠ 0 ∧
      cap < ((SubuniverseClosure.start L.algebra.size).foldAll seed).elements.size
  · obtain ⟨hstart, hmemstart⟩ := SubuniverseClosure.foldAll_start hseed
    have hle := hsize _ hstart fun x hx =>
      (hA.isLeast_sg (G := {x | x ∈ seed}) hseed).1.2 ((hmemstart x).1 hx)
    have hcap : ¬ (cap = 0 ∨ S.size ≤ cap) := by omega
    rw [if_pos hearly, if_neg hcap]
    rfl
  · rw [if_neg hearly]
    obtain ⟨s', hs', ⟨hclose, hmem', hwithin⟩ | ⟨hclose, hsT, hcap, hlt⟩⟩ :=
      SubuniverseClosure.close_foldAll hA hseed hconstants hsettled L.mode cap
    · have hall : ElementSet.ofList s'.elements.toList = S := by
        refine (ElementSet.increasing_ofList _).ext hS ?_
        intro x
        rw [ElementSet.mem_ofList, hmem, Array.mem_toList_iff, hmem']
      have hcap : cap = 0 ∨ S.size ≤ cap := by
        by_cases h0 : cap = 0
        · exact Or.inl h0
        · have hsize' := ElementSet.size_ofList hs'.nodup
          rw [hall, Array.length_toList] at hsize'
          have := hwithin h0 (by omega)
          omega
      rw [if_pos hcap, ← hall]
      simp only [hclose]
      rfl
    · have hle := hsize s' hs' hsT
      have hlarge : ¬ (cap = 0 ∨ S.size ≤ cap) := by omega
      rw [if_neg hlarge]
      simp only [hclose]
      rfl

theorem checkElements_eq (hA : L.algebra.Total) {xs : List ℕ}
    (hxs : ∀ x ∈ xs, x < L.algebra.size) : L.checkElements xs = .ok () := by
  induction xs with
  | nil => rfl
  | cons x xs ih =>
      change (L.algebra.validate x >>= fun _ => L.checkElements xs) = _
      rw [hA.validate_eq (hxs x List.mem_cons_self)]
      exact ih fun y hy => hxs y (List.mem_cons_of_mem x hy)

/-- **Generation up to a cap.**  Elements of a total algebra have a least subuniverse around them,
with all constants in it.  Every lattice of the algebra, with any number of threads and whatever it
has kept, answers with that set, not flagged, if there is no cap or the set is within the cap;
otherwise it answers with the whole universe, flagged. -/
theorem sg_eq_generated (hA : A.Total) {generators : List ℕ}
    (hgenerators : ∀ x ∈ generators, x < A.size) :
    ∃ S : ElementSet, S.elements.Pairwise (· < ·) ∧
      IsLeast {T : Set ℕ | A.IsSubuniverse T ∧ (∀ x ∈ generators, x ∈ T) ∧ ∀ c ∈ A.constants, c ∈ T}
        {x | x ∈ S.elements} ∧
      ∀ (L : SubalgebraLattice) (cap : ℕ), L.algebra = A →
        L.sg generators cap = .ok (if cap = 0 ∨ S.size ≤ cap then (S, false)
          else (ElementSet.below A.size, true)) := by
  have hseed : ∀ x ∈ generators ++ A.constants, x < A.size := by
    intro x hx
    rcases List.mem_append.1 hx with hx | hx
    · exact hgenerators x hx
    · exact hA.isSubuniverse_univ.constants_mem hA hx
  obtain ⟨⟨hsub, hseedT⟩, hleast⟩ := hA.isLeast_sg (G := {x | x ∈ generators ++ A.constants}) hseed
  obtain ⟨S, hS, hmem⟩ := ElementSet.exists_increasing hsub.lt_size
  have hset : {x | x ∈ S.elements} = A.sg {x | x ∈ generators ++ A.constants} := Set.ext hmem
  refine ⟨S, hS, ?_, ?_⟩
  · rw [hset]
    refine ⟨⟨hsub, fun x hx => hseedT (List.mem_append_left _ hx),
      fun c hc => hseedT (List.mem_append_right _ hc)⟩, ?_⟩
    rintro T ⟨hT, hgens, hconstants⟩
    refine hleast ⟨hT, ?_⟩
    intro x hx
    rcases List.mem_append.1 hx with hx | hx
    · exact hgens x hx
    · exact hconstants x hx
  · rintro L cap rfl
    rw [sg, checkElements_eq hA hgenerators]
    exact closeSeed_eq hA hseed (fun c hc => List.mem_append_right _ hc)
      (Closure.settledBelow_zero _ _) hS hmem cap

/-- In the residues modulo four, two generates the even ones, which is too much for a cap of one. -/
theorem sg_two_residuesModFour :
    IsLeast {T : Set ℕ | Algebra.residuesModFour.IsSubuniverse T ∧ (∀ x ∈ [2], x ∈ T) ∧
        ∀ c ∈ Algebra.residuesModFour.constants, c ∈ T} {x | x ∈ [0, 2]} ∧
      (start Algebra.residuesModFour .standard).sg [2] 2 = .ok (⟨[0, 2]⟩, false) ∧
      (start Algebra.residuesModFour .standard).sg [2] 1 = .ok (⟨[0, 1, 2, 3]⟩, true) := by
  have hgenerators : ∀ x ∈ [2], x < Algebra.residuesModFour.size := by decide
  obtain ⟨S, -, hleast, hsg⟩ := sg_eq_generated Algebra.total_residuesModFour hgenerators
  have huncapped : (start Algebra.residuesModFour .standard).sg [2] 0 = .ok (⟨[0, 2]⟩, false) := by cbv
  have hS : S = ⟨[0, 2]⟩ := by simpa using (hsg _ 0 rfl).symm.trans huncapped
  subst hS
  exact ⟨hleast, hsg _ 2 rfl, hsg _ 1 rfl⟩

end SubalgebraLattice

end UniversalAlgebra
