/-
**The covers of a subalgebra.**

The covers are sought among the joins with irreducible subalgebras only.  These joins are put in order,
repetitions are dropped, and what contains another one is dropped too.  That is exact, since irreducible
subalgebras determine every subalgebra and every join is what its operands generate together, whichever
table it comes from.  A set that is not closed, or not one of elements, is refused before.

Main results:

* `Algebra.Subalgebra.mem_minimalAmong` — the minimal members of a list;
* `Algebra.Subalgebra.mem_subalgebraCovers` — what is kept covers the subalgebra;
* `Algebra.Subalgebra.listsMeetIrreducibles` — the subalgebras with one upper cover;
* `SubalgebraLattice.covers_exact` — **the covers are listed, and nothing else has an answer**.
-/

import Mathlib
import UniversalAlgebra.Proofs.SubalgebraLattice.Coherent
import UniversalAlgebra.Proofs.UpperCovers

set_option autoImplicit false

namespace UniversalAlgebra

namespace Algebra

variable {A : Algebra} {s : ElementSet}

namespace Subalgebra

variable {σ τ : A.Subalgebra}

/-! ### Minimal members of a list -/

/-- The members that are kept because they contain no other are the minimal ones. -/
theorem mem_minimalAmong {ss : List ElementSet} (hss : ∀ s ∈ ss, A.IsSubalgebra s) :
    τ.set ∈ ElementSet.minimalAmong ss ↔ Minimal (fun υ : A.Subalgebra => υ.set ∈ ss) τ := by
  rw [ElementSet.minimalAmong, List.mem_filter, List.all_eq_true]
  refine and_congr_right fun _ => ⟨fun h υ hυ hle => ?_, fun h t ht => ?_⟩
  · have hkept := h υ.set hυ
    rw [Bool.or_eq_true, beq_iff_eq, Bool.not_eq_true', ← Bool.not_eq_true, subset_iff] at hkept
    rw [Subalgebra.ext (hkept.resolve_right (not_not.2 hle))]
  · obtain ⟨υ, rfl⟩ : ∃ υ : A.Subalgebra, υ.set = t := ⟨⟨t, hss t ht⟩, rfl⟩
    rw [Bool.or_eq_true, beq_iff_eq, Bool.not_eq_true', ← Bool.not_eq_true, subset_iff]
    by_cases hle : υ ≤ τ
    · exact Or.inl (congrArg set (le_antisymm hle (h ht hle)))
    · exact Or.inr hle

/-! ### Covers -/

/-- What is tried for a subalgebra are its joins with the irreducible ones that it does not contain. -/
theorem mem_joins (hA : A.Total) :
    s ∈ ((A.irreducibleSubalgebras.map (·.1)).filter fun g => !g.subset σ.set).map
        (fun g => A.generated (σ.set.elements ++ g.elements)) ↔
      ∃ γ : A.Subalgebra, γ.set ∈ A.irreducibleSubalgebras.map (·.1) ∧ ¬ γ ≤ σ ∧
        A.generated (σ.set.elements ++ γ.set.elements) = s := by
  rw [List.mem_map]
  constructor
  · rintro ⟨g, hg, hjoin⟩
    obtain ⟨hmem, hnot⟩ := List.mem_filter.1 hg
    refine ⟨⟨g, isSubalgebra_of_mem_irreducibles hA hmem⟩, hmem, ?_, hjoin⟩
    rwa [← subset_iff, Bool.not_eq_true, ← Bool.not_eq_true']
  · rintro ⟨γ, hγ, hnot, hjoin⟩
    refine ⟨γ.set, List.mem_filter.2 ⟨hγ, ?_⟩, hjoin⟩
    rwa [← subset_iff, Bool.not_eq_true, ← Bool.not_eq_true'] at hnot

/-- **What is kept covers the subalgebra.** -/
theorem mem_subalgebraCovers (hA : A.Total) : τ.set ∈ A.subalgebraCovers σ.set ↔ σ ⋖ τ := by
  let _ := hA.subalgebraSup
  have hmem (υ : A.Subalgebra) : υ.set ∈ ElementSet.sortDistinct
      (((A.irreducibleSubalgebras.map (·.1)).filter fun g => !g.subset σ.set).map
        fun g => A.generated (σ.set.elements ++ g.elements)) ↔
      ∃ γ ∈ {γ : A.Subalgebra | γ.set ∈ A.irreducibleSubalgebras.map (·.1)}, ¬ γ ≤ σ ∧ σ ⊔ γ = υ := by
    simp only [ElementSet.mem_sortDistinct, mem_joins hA, Subalgebra.ext_iff]
    rfl
  rw [subalgebraCovers, mem_minimalAmong, ← (generates_irreducibles hA).minimal_sup_iff]
  · simp only [hmem]
  · intro s hs
    obtain ⟨γ, -, -, rfl⟩ := (mem_joins hA).1 (ElementSet.mem_sortDistinct.1 hs)
    exact σ.isSubalgebra.join hA γ.isSubalgebra

/-- The covers are all that is kept, -/
theorem mem_subalgebraCovers_iff (hA : A.Total) :
    s ∈ A.subalgebraCovers σ.set ↔ ∃ τ : A.Subalgebra, τ.set = s ∧ σ ⋖ τ := by
  constructor
  · intro hs
    have htried := (List.mem_filter.1 hs).1
    rw [ElementSet.mem_sortDistinct, mem_joins hA] at htried
    obtain ⟨γ, -, -, rfl⟩ := htried
    obtain ⟨τ, hτ⟩ : ∃ τ : A.Subalgebra, τ.set = A.generated (σ.set.elements ++ γ.set.elements) :=
      ⟨⟨_, σ.isSubalgebra.join hA γ.isSubalgebra⟩, rfl⟩
    rw [← hτ] at hs
    exact ⟨τ, hτ, (mem_subalgebraCovers hA).1 hs⟩
  · rintro ⟨τ, rfl, hτ⟩
    exact (mem_subalgebraCovers hA).2 hτ

/-- in increasing order. -/
theorem pairwise_subalgebraCovers (A : Algebra) (s : ElementSet) :
    (A.subalgebraCovers s).Pairwise fun s t => s.less t = true := by
  rw [subalgebraCovers, ElementSet.minimalAmong]
  exact (ElementSet.pairwise_sortDistinct _).filter _

/-! ### Subalgebras with one upper cover -/

/-- The least subalgebra has what the constants generate. -/
theorem set_eq_bottom_iff (hA : A.Total) : σ.set = A.generated [] ↔ IsBot σ := by
  let _ := hA.subalgebraBot
  constructor
  · intro h τ
    obtain rfl : σ = ⊥ := Subalgebra.ext h
    exact bot_le
  · exact fun h => congrArg set (le_bot_iff.1 (h ⊥))

theorem isMeetIrreducible_iff (hA : A.Total) (σ : A.Subalgebra) :
    A.isMeetIrreducibleSubalgebra σ.set = true ↔ ¬ IsBot σ ∧ ∃! τ : A.Subalgebra, σ ⋖ τ := by
  have hone : (A.subalgebraCovers σ.set).length = 1 ↔ ∃! τ : A.Subalgebra, σ ⋖ τ :=
    length_eq_one_iff_existsUnique set_injective
      (ElementSet.orderedBy_less.nodup (pairwise_subalgebraCovers A σ.set))
      fun _ => mem_subalgebraCovers_iff hA
  rw [isMeetIrreducibleSubalgebra, Bool.and_eq_true, bne_iff_ne, ne_eq, set_eq_bottom_iff hA,
    beq_iff_eq, hone]

/-- The list of meet irreducible subalgebras. -/
theorem listsMeetIrreducibles (hA : A.Total) :
    ListsMeetIrreducibles (set (A := A)) ElementSet.less A.meetIrreducibleSubalgebras := by
  let _ := hA.subalgebraSup
  refine .of_filter A.pairwise_subalgebras (fun s => ?_) (isMeetIrreducible_iff hA)
  rw [mem_subalgebras]
  constructor
  · exact fun hs => ⟨⟨s, hs⟩, rfl⟩
  · rintro ⟨σ, rfl⟩
    exact σ.isSubalgebra

end Subalgebra

/-- What is no element is refused as invalid input. -/
theorem exists_fault_validate {xs : List ℕ} (h : ¬ ∀ x ∈ xs, x < A.size) :
    ∃ fault : Fault, fault.kind = .invalidInput ∧ xs.forM A.validate = .error fault := by
  induction xs with
  | nil => simp at h
  | cons x xs ih =>
      have hstep : (x :: xs).forM A.validate = A.validate x >>= fun _ => xs.forM A.validate := rfl
      rw [hstep, validate]
      by_cases hx : x < A.size
      · rw [if_pos hx]
        exact ih fun hxs => h (List.forall_mem_cons.2 ⟨hx, hxs⟩)
      · rw [if_neg hx]
        exact ⟨.noSuchElement x A.name A.size, rfl, rfl⟩

end Algebra

namespace SubalgebraLattice

open Query Fallible

variable {A : Algebra} {settings : Settings} {L : SubalgebraLattice} {s : ElementSet}

/-! ### Covers in reachable states -/

/-- The test for subalgebras does not pass what is none. -/
theorem isSubuniverse_eq_false (hA : L.algebra.Total) (hlt : ∀ x ∈ s.elements, x < L.algebra.size)
    (hs : ¬ L.algebra.IsSubalgebra s) : L.isSubuniverse s = .ok false := by
  have hne : (L.algebra.generated s.elements == s) = false := by
    rw [beq_eq_false_iff_ne]
    exact fun h => hs (h ▸ hA.isSubalgebra_generated hlt)
  rw [isSubuniverse, sgExact_eq hA hlt, ok_bind, hne]
  rfl

/-- The covers of what is no subalgebra are refused as invalid input. -/
theorem exists_fault_upperCovers (hA : A.Total) (hs : ¬ A.IsSubalgebra s) :
    ∃ fault : Fault, fault.kind = .invalidInput ∧
      ∀ settings, Yields (Coherent A settings) (upperCovers s) (.error fault) := by
  by_cases hlt : ∀ x ∈ s.elements, x < A.size
  · refine ⟨.notASubuniverse s.elements, rfl, fun settings => Yields.get_bind fun L hL => ?_⟩
    obtain rfl := hL.algebra_eq
    rw [isSubuniverse_eq_false hA hlt hs]
    exact Yields.bind (Yields.lift (.ok false)) (Yields.bind_error (Yields.throw _))
  · obtain ⟨fault, hkind, hfault⟩ := Algebra.exists_fault_validate hlt
    refine ⟨fault, hkind, fun settings => Yields.get_bind fun L hL => ?_⟩
    have hcheck : L.isSubuniverse s = .error fault := by
      rw [isSubuniverse, sgExact, sg, checkElements, hL.algebra_eq, hfault]
      rfl
    rw [hcheck]
    exact Yields.bind_error (Yields.lift _)

/-- **The covers are listed, and nothing else has an answer.**  In every reachable lattice, in which
callers joined subuniverses only, the answer for a subuniverse are those that contain it strictly with
none strictly between, each once and in increasing order.  Any other set, be it not closed or not one of
elements, is refused as invalid input. -/
theorem covers_exact (hA : A.Total) (hL : Reachable A settings L) :
    (∀ σ : A.Subalgebra, ∃ covers, (upperCovers σ.set).result L = .ok covers ∧ covers.Nodup ∧
      (covers.Pairwise fun s t => s.less t = true) ∧
      ∀ s, s ∈ covers ↔ ∃ τ : A.Subalgebra, τ.set = s ∧ σ ⋖ τ) ∧
    ∀ s : ElementSet, ¬ A.IsSubalgebra s →
      ∃ fault : Fault, fault.kind = .invalidInput ∧ (upperCovers s).result L = .error fault := by
  have hcoherent := hL.coherent hA
  constructor
  · intro σ
    have hpairwise := Algebra.Subalgebra.pairwise_subalgebraCovers A σ.set
    exact ⟨_, (yields_upperCovers hA σ.isSubalgebra).result_eq hcoherent,
      ElementSet.orderedBy_less.nodup hpairwise, hpairwise,
      fun s => Algebra.Subalgebra.mem_subalgebraCovers_iff hA⟩
  · intro s hs
    obtain ⟨fault, hkind, hyields⟩ := exists_fault_upperCovers hA hs
    exact ⟨fault, hkind, (hyields settings).result_eq hcoherent⟩

/-- In the pairs of bits zero alone is covered by its pairs with each of the others, which is what is
answered after one and two were joined.  The set of one and two is refused, since it is not closed. -/
theorem covers_zero_bitPairs :
    (∃ σ : Algebra.bitPairs.Subalgebra, σ.set = ⟨[0]⟩ ∧
      ∀ τ : Algebra.bitPairs.Subalgebra, σ ⋖ τ ↔ τ.set ∈ [⟨[0, 1]⟩, ⟨[0, 2]⟩, ⟨[0, 3]⟩]) ∧
    ∃ fault : Fault, fault.kind = .invalidInput ∧ (upperCovers ⟨[1, 2]⟩).result
      ((join ⟨[1]⟩ ⟨[2]⟩).after (start Algebra.bitPairs .standard)) = .error fault := by
  have hA := Algebra.total_bitPairs
  have hsingle (x : ℕ) (h : (start Algebra.bitPairs .standard).isSubuniverse ⟨[x]⟩ = .ok true) :
      Algebra.bitPairs.IsSubalgebra ⟨[x]⟩ := isSubalgebra_of_isSubuniverse hA h
  have hjoin : Joinable Algebra.bitPairs ⟨[1]⟩ ⟨[2]⟩ :=
    .of_isSubalgebra (hsingle 1 (by cbv)) (hsingle 2 (by cbv))
  have hreachable : Reachable Algebra.bitPairs .standard
      ((join ⟨[1]⟩ ⟨[2]⟩).after (start Algebra.bitPairs .standard)) := .query (.join hjoin) .start
  obtain ⟨hcovers, hrefused⟩ := covers_exact hA hreachable
  constructor
  · have hzero : Algebra.bitPairs.IsSubalgebra ⟨[0]⟩ := hsingle 0 (by cbv)
    refine ⟨⟨⟨[0]⟩, hzero⟩, rfl, fun τ => ?_⟩
    have hrun : (upperCovers ⟨[0]⟩).result
        ((join ⟨[1]⟩ ⟨[2]⟩).after (start Algebra.bitPairs .standard))
          = .ok [⟨[0, 1]⟩, ⟨[0, 2]⟩, ⟨[0, 3]⟩] := by cbv
    obtain ⟨covers, hresult, -, -, hmem⟩ := hcovers ⟨⟨[0]⟩, hzero⟩
    obtain rfl : covers = [⟨[0, 1]⟩, ⟨[0, 2]⟩, ⟨[0, 3]⟩] := Except.ok.inj (hresult.symm.trans hrun)
    rw [hmem]
    constructor
    · exact fun h => ⟨τ, rfl, h⟩
    · rintro ⟨υ, hυ, h⟩
      rwa [← Algebra.Subalgebra.ext hυ]
  · refine hrefused _ fun h => ?_
    have hcheck : (start Algebra.bitPairs .standard).isSubuniverse ⟨[1, 2]⟩ = .ok false := by cbv
    rw [isSubuniverse_eq (L := start Algebra.bitPairs .standard) hA h] at hcheck
    cases hcheck

end SubalgebraLattice

end UniversalAlgebra
