/-
**What a subalgebra lattice keeps.**

The table of generated sets is filled by generation and by joins.  A join takes its larger operand
for closed, so it keeps the right value only if that is so; as long as callers join subalgebras, every
entry is exactly what its key generates, and all other caches hold what the algebra determines too.

Main definitions:

* `SubalgebraLattice.Joinable` — a join that does not take an open set for closed;
* `SubalgebraLattice.Public`, `SubalgebraLattice.Reachable` — the queries that a caller can make,
  with such joins only, and the states in which a lattice can be;
* `Algebra.joinIrreducibleSubalgebras`, `Algebra.meetIrreducibleSubalgebras` — further lists that the
  algebra determines;
* `SubalgebraLattice.Coherent` — what is kept is what the algebra determines;
* `SubalgebraLattice.Rooted` — invariants under which this is so for generation by at most one element;
* `SubalgebraLattice.Detached` — invariants that do not look at what joins and the first lists fill.

Main results:

* `SubalgebraLattice.Rooted.yields_zero`, `SubalgebraLattice.Rooted.yields_oneGenerated` — generation
  by at most one element;

* `SubalgebraLattice.yields_generatedBy` — generation;
* `SubalgebraLattice.yields_joinable`, `SubalgebraLattice.yields_join` — **joins**;
* `SubalgebraLattice.yields_irreducibleData`, `SubalgebraLattice.yields_upperCovers` — irreducible
  subalgebras and covers.
-/

import Mathlib
import UniversalAlgebra.Proofs.SubalgebraLattice.Irreducibles
import UniversalAlgebra.SubalgebraLattice.Universe

set_option autoImplicit false

namespace UniversalAlgebra

/-! ### Further lists that the algebra determines -/

namespace Algebra

/-- The irreducible subalgebras other than the greatest. -/
def joinIrreducibleSubalgebras (A : Algebra) : List ElementSet :=
  (A.irreducibleSubalgebras.map (·.1)).filter (· != ElementSet.below A.size)

/-- The minimal joins of a subalgebra with irreducible ones that it does not contain. -/
def subalgebraCovers (A : Algebra) (s : ElementSet) : List ElementSet :=
  ElementSet.minimalAmong (ElementSet.sortDistinct
    (((A.irreducibleSubalgebras.map (·.1)).filter fun g => !g.subset s).map
      fun g => A.generated (s.elements ++ g.elements)))

/-- Whether a subalgebra other than the least has exactly one of these. -/
def isMeetIrreducibleSubalgebra (A : Algebra) (s : ElementSet) : Bool :=
  s != A.generated [] && (A.subalgebraCovers s).length == 1

/-- The subalgebras of that kind. -/
noncomputable def meetIrreducibleSubalgebras (A : Algebra) : List ElementSet :=
  A.subalgebras.filter A.isMeetIrreducibleSubalgebra

end Algebra

namespace SubalgebraLattice

open Query Fallible

variable {A : Algebra} {settings : Settings} {L : SubalgebraLattice} {s t : ElementSet}

/-! ### Reachable states -/

/-- A join that does not take an open set for closed: one operand contains the other, or the larger
one is a subalgebra. -/
inductive Joinable (A : Algebra) (s t : ElementSet) : Prop
  | left_subset (h : s.subset t = true)
  | right_subset (h : t.subset s = true)
  | left_larger (h : t.size ≤ s.size) (hs : A.IsSubalgebra s) (ht : ∀ x ∈ t.elements, x < A.size)
  | right_larger (h : s.size < t.size) (ht : A.IsSubalgebra t) (hs : ∀ x ∈ s.elements, x < A.size)

/-- In particular two subalgebras can be joined. -/
theorem Joinable.of_isSubalgebra (hs : A.IsSubalgebra s) (ht : A.IsSubalgebra t) :
    Joinable A s t := by
  rcases Nat.lt_or_ge s.size t.size with h | h
  · exact .right_larger h ht hs.lt
  · exact .left_larger h hs ht.lt

/-- The queries that a caller who joins such sets only can make of a lattice and that may change
it. -/
inductive Public (A : Algebra) : {α : Type} → Query SubalgebraLattice α → Prop
  | zero : Public A zero
  | oneGenerated (x : ℕ) : Public A (oneGenerated x)
  | generatedBy (s : ElementSet) : Public A (generatedBy s)
  | join {s t : ElementSet} (h : Joinable A s t) : Public A (join s t)
  | singleList : Public A singleList
  | minimalGeneratingSet : Public A minimalGeneratingSet
  | joinIrreducibleList : Public A joinIrreducibleList
  | lowerCover (s : ElementSet) : Public A (lowerCover s)
  | upperCovers (s : ElementSet) : Public A (upperCovers s)
  | subuniverses (cap : ℕ) : Public A (subuniverses cap)
  | cardinality : Public A cardinality
  | meetIrreducibleList : Public A meetIrreducibleList
  | filter (s : ElementSet) : Public A (filter s)
  | reset : Public A (modify reset)

/-- The states in which a lattice can be: at the start nothing was computed, and each query leaves a
state, whether it fails or not. -/
inductive Reachable (A : Algebra) (settings : Settings) : SubalgebraLattice → Prop
  | start : Reachable A settings (start A settings)
  | query {α : Type} {q : Query SubalgebraLattice α} {L : SubalgebraLattice} (hq : Public A q)
      (hL : Reachable A settings L) : Reachable A settings (q.after L)

/-- What is kept is what the algebra determines.  For the smallest generating set nothing is asked,
since nothing else is computed from it. -/
structure Coherent (A : Algebra) (settings : Settings) (L : SubalgebraLattice) : Prop where
  algebra_eq : L.algebra = A
  settings_eq : L.settings = settings
  bottom_eq : ∀ s, L.bottom.value? = some s → s = A.generated []
  single_eq : ∀ x s, L.single.find? x = some s → s = A.generated [x]
  generated_eq : ∀ k s, L.generated.find? k = some s → s = A.generated k.elements
  singles_eq : ∀ list, L.singles.value? = some list → list = A.singles
  irreducibles_eq : ∀ list, L.irreducibles.value? = some list → list = A.irreducibleSubalgebras
  joinIrreducibles_eq : ∀ list, L.joinIrreducibles.value? = some list →
    list = A.joinIrreducibleSubalgebras
  complete_eq : ∀ list, L.complete.value? = some list → list = A.subalgebras
  meetIrreducibles_eq : ∀ list, L.meetIrreducibles.value? = some list →
    list = A.meetIrreducibleSubalgebras

theorem coherent_start (A : Algebra) (settings : Settings) :
    Coherent A settings (start A settings) := by
  refine ⟨rfl, rfl, ?_, ?_, ?_, ?_, ?_, ?_, ?_, ?_⟩
  all_goals
    intros
    simp_all [start, Slot.vacant]

/-! ### Generation by at most one element -/

/-- Under the invariant the algebra is known, what is kept of generation by no element and by single
elements is what the algebra determines, and the invariant goes on when such a value is kept. -/
structure Rooted (A : Algebra) (J : SubalgebraLattice → Prop) : Prop where
  algebra_eq : ∀ L, J L → L.algebra = A
  bottom_eq : ∀ L, J L → ∀ s, L.bottom.value? = some s → s = A.generated []
  single_eq : ∀ L, J L → ∀ x s, L.single.find? x = some s → s = A.generated [x]
  keep_bottom : ∀ L, J L → J { L with bottom := ⟨some (A.generated [])⟩ }
  keep_single : ∀ L x, J L → J { L with single := (L.single.publish x (A.generated [x])).2 }

namespace Rooted

variable {J : SubalgebraLattice → Prop}

theorem sgExact_eq (hJ : Rooted A J) (hA : A.Total) (hL : J L) {xs : List ℕ}
    (hxs : ∀ x ∈ xs, x < A.size) : L.sgExact xs = .ok (A.generated xs) := by
  obtain rfl := hJ.algebra_eq L hL
  exact SubalgebraLattice.sgExact_eq hA hxs

/-- The least subalgebra. -/
theorem yields_zero (hJ : Rooted A J) (hA : A.Total) :
    Yields J zero (.ok (A.generated [])) := by
  refine Yields.getOrCompute (fun L hL w hw => hJ.bottom_eq L hL w hw) ?_ hJ.keep_bottom
  refine Yields.get_bind fun L hL => ?_
  rw [hJ.sgExact_eq hA hL (by simp)]
  exact Yields.lift _

/-- The subalgebra generated by one element. -/
theorem yields_oneGenerated (hJ : Rooted A J) (hA : A.Total) {x : ℕ} (hx : x < A.size) :
    Yields J (oneGenerated x) (.ok (A.generated [x])) := by
  refine Yields.get_bind fun L hL => ?_
  rw [hJ.algebra_eq L hL, hA.validate_eq hx]
  refine Yields.bind (Yields.lift _) (Yields.findOrCompute (fun L hL => hJ.single_eq L hL x) ?_ ?_)
  · refine Yields.get_bind fun L hL => ?_
    rw [hJ.sgExact_eq hA hL (by simpa using hx)]
    exact Yields.lift _
  · exact fun L _ hL => hJ.keep_single L x hL

/-- An element that is none is refused before anything is kept. -/
theorem keeps_oneGenerated (hJ : Rooted A J) (hA : A.Total) (x : ℕ) : Keeps J (oneGenerated x) := by
  by_cases hx : x < A.size
  · exact (hJ.yields_oneGenerated hA hx).keeps
  · refine Keeps.get_bind fun L hL => ?_
    rw [hJ.algebra_eq L hL, Algebra.validate, if_neg hx]
    exact Keeps.throw _

end Rooted

theorem rooted_coherent : Rooted A (Coherent A settings) where
  algebra_eq _ hL := hL.algebra_eq
  bottom_eq _ hL := hL.bottom_eq
  single_eq _ hL := hL.single_eq
  keep_bottom _ hL := { hL with bottom_eq := fun _ h => by cases h; rfl }
  keep_single _ _ hL := { hL with single_eq := Memo.forall_find?_publish hL.single_eq rfl }

/-! ### What joins and lists keep -/

/-- The invariant survives any change to the table into which joins write, and to the lists of the
subalgebras with one generator and of the irreducible ones. -/
def Detached (J : SubalgebraLattice → Prop) : Prop :=
  ∀ L generated singles irreducibles, J L →
    J { L with generated := generated, singles := singles, irreducibles := irreducibles }

namespace Detached

variable {J : SubalgebraLattice → Prop}

/-- A join writes into its own table only, also if it takes an open set for closed. -/
theorem keeps_join (hJ : Detached J) (s t : ElementSet) : Keeps J (join s t) := by
  unfold join
  refine Keeps.ite (Keeps.pure _) (Keeps.ite (Keeps.pure _) ?_)
  refine Keeps.findOrCompute ?_ fun L _ y hL => hJ L y L.singles L.irreducibles hL
  exact Keeps.get_bind fun _ _ => Keeps.bind (Keeps.lift _) fun _ => Keeps.pure _

theorem keeps_joinBelow (hJ : Detached J) (s : ElementSet) (ts : List ElementSet)
    (below : ElementSet) : Keeps J (joinBelow s ts below) := by
  induction ts generalizing below with
  | nil => exact Keeps.pure below
  | cons t ts ih => exact Keeps.ite (Keeps.bind (hJ.keeps_join below t) fun _ => ih _) (ih below)

theorem keeps_singleList (hJ : Detached J) (hone : ∀ x, Keeps J (oneGenerated x)) :
    Keeps J singleList := by
  refine Keeps.getOrCompute (Keeps.get_bind fun L _ => ?_) fun L x hL =>
    hJ L L.generated x L.irreducibles hL
  exact Keeps.bind (Keeps.mapM hone _) fun _ => Keeps.pure _

theorem keeps_irreducibleData (hJ : Detached J) (hzero : Keeps J zero)
    (hone : ∀ x, Keeps J (oneGenerated x)) : Keeps J irreducibleData := by
  refine Keeps.getOrCompute ?_ fun L x hL => hJ L L.generated L.singles x hL
  refine Keeps.bind (hJ.keeps_singleList hone) fun _ => Keeps.bind hzero fun _ => ?_
  refine Keeps.bind (Keeps.mapM (fun s => ?_) _) fun _ => Keeps.pure _
  exact Keeps.bind (hJ.keeps_joinBelow s _ _) fun _ => Keeps.pure _

theorem keeps_irreducibleList (hJ : Detached J) (hzero : Keeps J zero)
    (hone : ∀ x, Keeps J (oneGenerated x)) : Keeps J irreducibleList :=
  Keeps.bind (hJ.keeps_irreducibleData hzero hone) fun _ => Keeps.pure _

end Detached

/-! ### Generation by any elements -/

theorem Coherent.one_eq (hL : Coherent A settings L) : L.one = ElementSet.below A.size := by
  rw [one, hL.algebra_eq]

/-- **Generation by elements**, whichever table it comes from. -/
theorem yields_generatedBy (hA : A.Total) (hs : ∀ x ∈ s.elements, x < A.size) :
    Yields (Coherent A settings) (generatedBy s) (.ok (A.generated s.elements)) := by
  unfold generatedBy
  split
  · next x hx =>
      rw [hx] at hs ⊢
      exact rooted_coherent.yields_oneGenerated hA (hs x List.mem_cons_self)
  · refine Yields.get_bind fun L hL => ?_
    have hcheck : L.checkElements s.elements = .ok () := by
      obtain rfl := hL.algebra_eq
      exact checkElements_eq hA hs
    rw [hcheck]
    refine Yields.bind (Yields.lift _) (Yields.findOrCompute (fun L hL w => hL.generated_eq s w) ?_ ?_)
    · refine Yields.get_bind fun L hL => ?_
      rw [rooted_coherent.sgExact_eq hA hL hs]
      exact Yields.lift _
    · exact fun L _ hL => { hL with generated_eq := Memo.forall_find?_publish hL.generated_eq rfl }

/-- What a join computes if neither operand contains the other: the larger one, which is closed, comes
first, and what is found is kept under the union. -/
theorem yields_larger_first (hA : A.Total) {big small : ElementSet} (hbig : A.IsSubalgebra big)
    (hsmall : ∀ x ∈ small.elements, x < A.size)
    (hmem : ∀ x, x ∈ big.elements ++ small.elements ↔ x ∈ (s.union t).elements) :
    Yields (Coherent A settings)
      (Memo.findOrCompute generated (fun L table => { L with generated := table }) (s.union t) do
        let (value, _) ← (← get).closeSeed (big.elements ++ small.elements) big.size 0
        pure value)
      (.ok (A.generated (s.union t).elements)) := by
  have hkey : A.generated (big.elements ++ small.elements) = A.generated (s.union t).elements :=
    hA.generated_congr (List.forall_mem_append.2 ⟨hbig.lt, hsmall⟩) hmem
  refine Yields.findOrCompute (fun L hL w => hL.generated_eq (s.union t) w) ?_ ?_
  · refine Yields.get_bind fun L hL => ?_
    obtain rfl := hL.algebra_eq
    rw [closeSeed_of_isSubalgebra hA hbig hsmall, hkey]
    exact Yields.bind (Yields.lift (.ok _)) (Yields.pure _)
  · exact fun L _ hL => { hL with generated_eq := Memo.forall_find?_publish hL.generated_eq rfl }

/-- **The join of two sets, the larger one of them a subalgebra.**  Where one contains the other it is
the answer, and otherwise what they generate together. -/
theorem yields_joinable (hA : A.Total) (h : Joinable A s t) :
    Yields (Coherent A settings) (join s t)
      (.ok (if s.subset t then t else if t.subset s then s else A.generated (s.union t).elements)) := by
  unfold join
  by_cases hst : s.subset t = true
  · rw [if_pos hst, if_pos hst]
    exact Yields.pure t
  · rw [if_neg hst, if_neg hst]
    by_cases hts : t.subset s = true
    · rw [if_pos hts, if_pos hts]
      exact Yields.pure s
    · rw [if_neg hts, if_neg hts]
      cases h with
      | left_subset h => exact absurd h hst
      | right_subset h => exact absurd h hts
      | left_larger h hs ht =>
          rw [if_neg (Nat.not_lt.2 h)]
          exact yields_larger_first hA hs ht fun x => by simp
      | right_larger h ht hs =>
          rw [if_pos h]
          exact yields_larger_first hA ht hs fun x => by simp [or_comm]

/-- **The join of two subalgebras** is what they generate together. -/
theorem yields_join (hA : A.Total) (hs : A.IsSubalgebra s) (ht : A.IsSubalgebra t) :
    Yields (Coherent A settings) (join s t) (.ok (A.generated (s.elements ++ t.elements))) := by
  have hlt : ∀ x ∈ s.elements ++ t.elements, x < A.size :=
    List.forall_mem_append.2 ⟨hs.lt, ht.lt⟩
  have hanswer : A.generated (s.elements ++ t.elements)
      = if s.subset t then t else if t.subset s then s else A.generated (s.union t).elements := by
    split
    · next hst =>
        have hsub := (hs.increasing.subset_iff ht.increasing).1 hst
        have hmem (x : ℕ) : x ∈ s.elements ++ t.elements ↔ x ∈ t.elements := by
          rw [List.mem_append, or_iff_right_of_imp (hsub x)]
        rw [hA.generated_congr hlt hmem, hA.generated_eq_self ht]
    · split
      · next hts =>
          have hsub := (ht.increasing.subset_iff hs.increasing).1 hts
          have hmem (x : ℕ) : x ∈ s.elements ++ t.elements ↔ x ∈ s.elements := by
            rw [List.mem_append, or_iff_left_of_imp (hsub x)]
          rw [hA.generated_congr hlt hmem, hA.generated_eq_self hs]
      · exact hA.generated_congr hlt fun x => by simp
  rw [hanswer]
  exact yields_joinable hA (.of_isSubalgebra hs ht)

/-! ### Lists -/

theorem yields_singleList (hA : A.Total) : Yields (Coherent A settings) singleList (.ok A.singles) := by
  refine Yields.getOrCompute (fun L hL w hw => hL.singles_eq w hw) ?_
    fun L hL => { hL with singles_eq := fun list h => by cases h; rfl }
  refine Yields.get_bind fun L hL => ?_
  rw [hL.algebra_eq]
  refine Yields.bind (Yields.mapM fun x hx => ?_) (Yields.pure _)
  exact rooted_coherent.yields_oneGenerated hA (List.mem_range.1 hx)

/-- The join of those members of a list of subalgebras that lie strictly below a set. -/
theorem yields_joinBelow (hA : A.Total) {ts : List ElementSet} (hts : ∀ t ∈ ts, A.IsSubalgebra t)
    {below : ElementSet} (hbelow : A.IsSubalgebra below) :
    Yields (Coherent A settings) (joinBelow s ts below) (.ok (A.lowerJoin s ts below)) := by
  induction ts generalizing below with
  | nil => exact Yields.pure below
  | cons t ts ih =>
      have ht := hts t List.mem_cons_self
      have hrest : ∀ r ∈ ts, A.IsSubalgebra r := fun r hr => hts r (List.mem_cons_of_mem t hr)
      rw [joinBelow, Algebra.lowerJoin]
      split
      · exact Yields.bind (yields_join hA hbelow ht) (ih hrest (hbelow.join hA ht))
      · exact ih hrest hbelow

theorem yields_irreducibleData (hA : A.Total) :
    Yields (Coherent A settings) irreducibleData (.ok A.irreducibleSubalgebras) := by
  refine Yields.getOrCompute (fun L hL w hw => hL.irreducibles_eq w hw) ?_
    fun L hL => { hL with irreducibles_eq := fun list h => by cases h; rfl }
  refine Yields.bind (yields_singleList hA) (Yields.bind (rooted_coherent.yields_zero hA) ?_)
  refine Yields.bind (Yields.mapM fun s _ => ?_) (Yields.pure _)
  refine Yields.bind (yields_joinBelow hA (fun t => Algebra.isSubalgebra_of_mem_singles hA)
    hA.isSubalgebra_bottom) (Yields.pure _)

theorem yields_irreducibleList (hA : A.Total) :
    Yields (Coherent A settings) irreducibleList (.ok (A.irreducibleSubalgebras.map (·.1))) :=
  Yields.bind (yields_irreducibleData hA) (Yields.pure _)

theorem yields_joinIrreducibleList (hA : A.Total) :
    Yields (Coherent A settings) joinIrreducibleList (.ok A.joinIrreducibleSubalgebras) := by
  refine Yields.getOrCompute (fun L hL w hw => hL.joinIrreducibles_eq w hw) ?_
    fun L hL => { hL with joinIrreducibles_eq := fun list h => by cases h; rfl }
  refine Yields.bind (yields_irreducibleList hA) (Yields.get_bind fun L hL => ?_)
  rw [hL.one_eq]
  exact Yields.pure _

/-- The joins of a subalgebra with irreducible ones that it does not contain. -/
theorem yields_covers (hA : A.Total) (hs : A.IsSubalgebra s) :
    Yields (Coherent A settings)
      (do
        let irreducible ← irreducibleList
        let candidates ← (irreducible.filter fun g => !g.subset s).mapM (join s)
        pure (ElementSet.minimalAmong (ElementSet.sortDistinct candidates)))
      (.ok (A.subalgebraCovers s)) := by
  refine Yields.bind (yields_irreducibleList hA) (Yields.bind (Yields.mapM fun g hg => ?_)
    (Yields.pure _))
  exact yields_join hA hs (Algebra.isSubalgebra_of_mem_irreducibles hA (List.mem_filter.1 hg).1)

theorem lt_of_checkElements_eq_ok {xs : List ℕ} (h : L.checkElements xs = .ok ()) :
    ∀ x ∈ xs, x < L.algebra.size := by
  induction xs with
  | nil => simp
  | cons x xs ih =>
      obtain ⟨_, hx, hxs⟩ := bind_eq_ok.1 h
      intro y hy
      rcases List.mem_cons.1 hy with rfl | hy
      · by_contra hlt
        simp [Algebra.validate, hlt] at hx
      · exact ih hxs y hy

theorem isSubuniverse_eq (hA : L.algebra.Total) (hs : L.algebra.IsSubalgebra s) :
    L.isSubuniverse s = .ok true := by
  rw [isSubuniverse, sgExact_eq hA hs.lt, hA.generated_eq_self hs, ok_bind, beq_self_eq_true]
  rfl

/-- Only subalgebras pass the test. -/
theorem isSubalgebra_of_isSubuniverse (hA : L.algebra.Total) (h : L.isSubuniverse s = .ok true) :
    L.algebra.IsSubalgebra s := by
  obtain ⟨v, hexact, hv⟩ := bind_eq_ok.1 h
  obtain ⟨_, hsg, -⟩ := bind_eq_ok.1 hexact
  obtain ⟨_, hcheck, -⟩ := bind_eq_ok.1 hsg
  have hlt := lt_of_checkElements_eq_ok hcheck
  rw [sgExact_eq hA hlt] at hexact
  obtain rfl := Except.ok.inj hexact
  have heq : L.algebra.generated s.elements = s := by simpa [pure_eq] using hv
  rw [← heq]
  exact hA.isSubalgebra_generated hlt

theorem yields_upperCovers (hA : A.Total) (hs : A.IsSubalgebra s) :
    Yields (Coherent A settings) (upperCovers s) (.ok (A.subalgebraCovers s)) := by
  refine Yields.get_bind fun L hL => ?_
  have hcheck : L.isSubuniverse s = .ok true := by
    obtain rfl := hL.algebra_eq
    exact isSubuniverse_eq hA hs
  rw [hcheck]
  exact Yields.bind (Yields.lift (.ok true)) (yields_covers hA hs)

theorem yields_isMeetIrreducible (hA : A.Total) (hs : A.IsSubalgebra s) :
    Yields (Coherent A settings) (isMeetIrreducible s) (.ok (A.isMeetIrreducibleSubalgebra s)) := by
  refine Yields.bind (rooted_coherent.yields_zero hA) ?_
  rw [Algebra.isMeetIrreducibleSubalgebra]
  split
  · next hzero =>
      rw [hzero, bne_self_eq_false, Bool.false_and]
      exact Yields.pure false
  · next hne =>
      rw [bne_iff_ne.2 hne, Bool.true_and]
      exact Yields.bind (yields_upperCovers hA hs) (Yields.pure _)

end SubalgebraLattice

end UniversalAlgebra
