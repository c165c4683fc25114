/-
**Joins of subuniverses.**

A join takes three shortcuts.  If one operand contains the other, that is the answer; a union that was
joined or closed before has its answer in a table; and otherwise the closure begins with the larger
operand, and never draws arguments inside of it.  None of them changes the answer, which is the least
subuniverse with the elements of both, and the last one can be seen from outside: the operations may do
anything inside of the larger operand, even fail.

Main results:

* `SubuniverseClosure.toList_foldAll_start` — elements are numbered in the order in which they are taken
  in;
* `SubalgebraLattice.closeSeed_congr` — closing from an operand on does not look inside of it;
* `SubalgebraLattice.join_isLeast` — **the join is the least subuniverse that contains both operands**.
-/

import UniversalAlgebra.Proofs.Closure.Marks
import UniversalAlgebra.Proofs.SubalgebraLattice.Coherent

set_option autoImplicit false

namespace UniversalAlgebra

/-! ### The order of discovery -/

namespace SubuniverseClosure

/-- Elements that are taken in at the start are numbered in their order. -/
theorem toList_foldAll_start {n : ℕ} {xs : List ℕ} (hnodup : xs.Nodup) (hlt : ∀ x ∈ xs, x < n) :
    ((start n).foldAll xs).elements.toList = xs := by
  induction xs using List.reverseRecOn with
  | nil => rfl
  | append_singleton xs x ih =>
      have hx : x ∉ xs := by
        rw [List.nodup_append] at hnodup
        exact fun h => hnodup.2.2 x h x List.mem_cons_self rfl
      have hlt' : ∀ y ∈ xs, y < n := fun y hy => hlt y (List.mem_append_left _ hy)
      obtain ⟨hs, hmem⟩ := (faithful_start n).foldAll hlt'
      have hnew : ((start n).foldAll xs).contains x = false := by
        rw [← Bool.not_eq_true, hs.contains_iff, hmem]
        simp [start, hx]
      have happend : (start n).foldAll (xs ++ [x]) = (((start n).foldAll xs).fold x).2 :=
        List.foldl_append
      rw [happend, fold, hnew, if_neg Bool.false_ne_true, Array.toList_push,
        ih (List.Nodup.of_append_left hnodup) hlt']

theorem prefix_foldAll (s : SubuniverseClosure) (xs : List ℕ) :
    s.elements.toList <+: (s.foldAll xs).elements.toList := by
  induction xs generalizing s with
  | nil => exact List.prefix_refl _
  | cons x xs ih => exact (appends s x _ _ rfl).trans (ih (s.fold x).2)

end SubuniverseClosure

namespace SubalgebraLattice

open Query UniversalAlgebra.Algebra

variable {A A' : Algebra} {settings : Settings} {L L' : SubalgebraLattice} {s t : ElementSet}

/-! ### What a join looks at -/

/-- Closing from a set on does not look at what the operations do inside of it. -/
theorem closeSeed_congr (hA : L.algebra.Total) (hs : s.Increasing) {xs : List ℕ}
    (hlt : ∀ x ∈ s.elements ++ xs, x < L.algebra.size)
    (h : L.algebra.AgreesOutside L'.algebra {x | x ∈ s.elements}) (hsettings : L'.settings = L.settings) :
    L'.closeSeed (s.elements ++ xs) s.size 0 = L.closeSeed (s.elements ++ xs) s.size 0 := by
  have hmode : L'.mode = L.mode := by rw [mode, mode, hsettings, h.operations.length_eq]
  have hone : L'.one = L.one := by rw [one, one, h.size_eq]
  have hfirst : s.elements
      <+: ((SubuniverseClosure.start L.algebra.size).foldAll (s.elements ++ xs)).elements.toList := by
    have hseed := SubuniverseClosure.toList_foldAll_start hs.nodup
      fun x hx => hlt x (List.mem_append_left xs hx)
    have happend : (SubuniverseClosure.start L.algebra.size).foldAll (s.elements ++ xs)
        = ((SubuniverseClosure.start L.algebra.size).foldAll s.elements).foldAll xs := List.foldl_append
    have hkept := SubuniverseClosure.prefix_foldAll
      ((SubuniverseClosure.start L.algebra.size).foldAll s.elements) xs
    rwa [hseed, ← happend] at hkept
  have hclose := SubuniverseClosure.close_congr hA h L.mode 0
    (SubuniverseClosure.foldAll_start hlt).1 hfirst
  rw [closeSeed, closeSeed, h.size_eq, hmode, hone]
  simp only [ElementSet.size, hclose]

/-- If there is no answer yet, the algebra may do anything inside of the operand that comes first. -/
theorem yields_union (hA : A.Total) {big small : ElementSet} (hbig : A.IsSubalgebra big)
    (hsmall : ∀ x ∈ small.elements, x < A.size) {key : ElementSet}
    (h : A.AgreesOutside A' {x | x ∈ big.elements}) :
    Yields (fun L => L.algebra = A' ∧ ∀ k w, L.generated.find? k = some w → k = key →
        w = A.generated (big.elements ++ small.elements))
      (Memo.findOrCompute generated (fun L table => { L with generated := table }) key do
        let (value, _) ← (← get).closeSeed (big.elements ++ small.elements) big.size 0
        pure value)
      (.ok (A.generated (big.elements ++ small.elements))) := by
  refine Yields.findOrCompute (fun L hL w hw => hL.2 key w hw rfl) (Yields.get_bind fun L hL => ?_) ?_
  · obtain ⟨rfl, -⟩ := hL
    have hlt : ∀ x ∈ big.elements ++ small.elements, x < A.size :=
      List.forall_mem_append.2 ⟨hbig.lt, hsmall⟩
    rw [closeSeed_congr (L := start A L.settings) hA hbig.increasing hlt h rfl,
      closeSeed_of_isSubalgebra (L := start A L.settings) hA hbig hsmall]
    exact Yields.bind (Yields.lift (.ok _)) (Yields.pure _)
  · exact fun L _ hL => ⟨hL.1, Memo.forall_find?_publish hL.2 fun _ => rfl⟩

/-- A join that has no answer yet does not look at what the algebra does inside of the larger operand. -/
theorem join_of_agreesOutside (hA : A.Total) (hs : A.IsSubalgebra s) (ht : A.IsSubalgebra t)
    (h : A.AgreesOutside L.algebra {x | x ∈ (if s.size < t.size then t else s).elements})
    (hnew : L.generated.find? (s.union t) = none) :
    (join s t).result L = .ok (A.generated (s.elements ++ t.elements)) := by
  have hlt : ∀ x ∈ s.elements ++ t.elements, x < A.size :=
    List.forall_mem_append.2 ⟨hs.lt, ht.lt⟩
  have hstart : (join s t).result (start A .standard) = .ok (A.generated (s.elements ++ t.elements)) :=
    (yields_join hA hs ht).result_eq (coherent_start A .standard)
  have hvacant {c : Prop} {k w : ElementSet} (hw : L.generated.find? k = some w)
      (hk : k = s.union t) : c := by
    rw [hk, hnew] at hw
    cases hw
  unfold join at hstart ⊢
  by_cases hst : s.subset t = true
  · rw [if_pos hst] at hstart ⊢
    exact hstart
  · rw [if_neg hst] at hstart ⊢
    by_cases hts : t.subset s = true
    · rw [if_pos hts] at hstart ⊢
      exact hstart
    · rw [if_neg hts]
      by_cases hlarger : s.size < t.size
      · rw [if_pos hlarger] at h ⊢
        have hsame : A.generated (t.elements ++ s.elements) = A.generated (s.elements ++ t.elements) :=
          (hA.generated_congr hlt fun x => by simp [or_comm]).symm
        rw [← hsame]
        exact (yields_union hA ht hs.lt h).result_eq ⟨rfl, fun _ _ hw hk => hvacant hw hk⟩
      · rw [if_neg hlarger] at h ⊢
        exact (yields_union hA hs ht.lt h).result_eq ⟨rfl, fun _ _ hw hk => hvacant hw hk⟩

/-! ### Joins in reachable states -/

/-- **The join of two subuniverses is the least one that contains both.**  As long as no join took an open
set for closed, it is the answer to a join whatever was asked before.  Generation by the union gives it
as well, without caches and, from the table in which the join was kept, with them.  To find it, arguments
inside of the larger operand, the first one if they are of one size, are not looked at: another algebra
may do anything there, and the answer is the same if none was kept. -/
theorem join_isLeast (hA : A.Total) (hL : Reachable A settings L) (hs : A.IsSubalgebra s)
    (ht : A.IsSubalgebra t) :
    ∃ J : ElementSet, (join s t).result L = .ok J ∧ J.elements.Pairwise (· < ·) ∧
      IsLeast {T : Set ℕ | A.IsSubuniverse T ∧ {x | x ∈ s.elements} ⊆ T ∧ {x | x ∈ t.elements} ⊆ T}
        {x | x ∈ J.elements} ∧
      L.sg (s.union t).elements 0 = .ok (J, false) ∧
      (generatedBy (s.union t)).result ((join s t).after L) = .ok J ∧
      ∀ L' : SubalgebraLattice,
        A.AgreesOutside L'.algebra {x | x ∈ (if s.size < t.size then t else s).elements} →
        L'.generated.find? (s.union t) = none → (join s t).result L' = .ok J := by
  have hcoherent := hL.coherent hA
  have hlt : ∀ x ∈ s.elements ++ t.elements, x < A.size :=
    List.forall_mem_append.2 ⟨hs.lt, ht.lt⟩
  have hunion : ∀ x, x ∈ (s.union t).elements ↔ x ∈ s.elements ++ t.elements := by simp
  have hlt' : ∀ x ∈ (s.union t).elements, x < A.size := fun x hx => hlt x ((hunion x).1 hx)
  have hkey : A.generated (s.union t).elements = A.generated (s.elements ++ t.elements) :=
    hA.generated_congr hlt' hunion
  have hafter : Reachable A settings ((join s t).after L) :=
    .query (.join (.of_isSubalgebra hs ht)) hL
  refine ⟨_, (yields_join hA hs ht).result_eq hcoherent, (hA.isSubalgebra_generated hlt).increasing,
    ?_, ?_, ?_, fun L' h hnew => join_of_agreesOutside hA hs ht h hnew⟩
  · obtain ⟨⟨hsub, hmem, -⟩, hleast⟩ := hA.isLeast_generated hlt
    refine ⟨⟨hsub, fun x hx => hmem x (List.mem_append_left _ hx),
      fun x hx => hmem x (List.mem_append_right _ hx)⟩, ?_⟩
    rintro T ⟨hT, hsT, htT⟩
    exact hleast ⟨hT, List.forall_mem_append.2 ⟨hsT, htT⟩, fun c hc => hT.constants_mem hA hc⟩
  · rw [← hkey]
    obtain rfl := hcoherent.algebra_eq
    exact sg_eq hA hlt'
  · rw [← hkey]
    exact (yields_generatedBy hA hlt').result_eq (hafter.coherent hA)

/-- One and two generate all pairs of bits, which is also the answer to a join if the conjunction of one
with itself is no element. -/
theorem join_one_two_bitPairs :
    IsLeast {T : Set ℕ | bitPairs.IsSubuniverse T ∧ {x | x ∈ [1]} ⊆ T ∧ {x | x ∈ [2]} ⊆ T}
        {x | x ∈ [0, 1, 2, 3]} ∧
      (join ⟨[1]⟩ ⟨[2]⟩).result (start ⟨"2^2", 4,
        [⟨"and", 2, 4, .table #[0, 0, 0, 0, 0, 9, 0, 1, 0, 0, 2, 2, 0, 1, 2, 3]⟩,
          ⟨"or", 2, 4, .table #[0, 1, 2, 3, 1, 1, 3, 3, 2, 3, 2, 3, 3, 3, 3, 3]⟩], []⟩ .standard)
        = .ok ⟨[0, 1, 2, 3]⟩ := by
  have hA := total_bitPairs
  have hsingle (x : ℕ) (h : (start bitPairs .standard).isSubuniverse ⟨[x]⟩ = .ok true) :
      bitPairs.IsSubalgebra ⟨[x]⟩ := isSubalgebra_of_isSubuniverse hA h
  have hagree : bitPairs.AgreesOutside ⟨"2^2", 4,
      [⟨"and", 2, 4, .table #[0, 0, 0, 0, 0, 9, 0, 1, 0, 0, 2, 2, 0, 1, 2, 3]⟩,
        ⟨"or", 2, 4, .table #[0, 1, 2, 3, 1, 1, 3, 3, 2, 3, 2, 3, 3, 3, 3, 3]⟩], []⟩ {x | x ∈ [1]} := by
    refine ⟨rfl, .cons ⟨rfl, ?_⟩ (.cons ⟨rfl, fun _ _ _ _ => rfl⟩ .nil)⟩
    intro args hlen hlt hout
    obtain ⟨x, y, rfl⟩ := List.length_eq_two.1 hlen
    obtain ⟨hx, hy⟩ : x < 4 ∧ y < 4 := by simpa [bitPairs] using hlt
    have hne : ¬ (x = 1 ∧ y = 1) := by
      rintro ⟨rfl, rfl⟩
      simp at hout
    interval_cases x <;> interval_cases y <;> first | rfl | exact absurd ⟨rfl, rfl⟩ hne
  have hrun : (start bitPairs .standard).sg [1, 2] 0 = .ok (⟨[0, 1, 2, 3]⟩, false) := by cbv
  have hstart : Reachable bitPairs .standard (start bitPairs .standard) := .start
  obtain ⟨J, -, -, hleast, hsg, -, hjoin⟩ :=
    join_isLeast hA hstart (hsingle 1 (by cbv)) (hsingle 2 (by cbv))
  have hunion : (ElementSet.union ⟨[1]⟩ ⟨[2]⟩).elements = [1, 2] := by cbv
  rw [hunion, hrun] at hsg
  obtain rfl : ⟨[0, 1, 2, 3]⟩ = J := congrArg Prod.fst (Except.ok.inj hsg)
  exact ⟨hleast, hjoin _ hagree (Memo.find?_vacant _)⟩

end SubalgebraLattice

end UniversalAlgebra
