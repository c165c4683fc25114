/-
**The caches of a congruence lattice agree with each other.**

What is kept for partitions and the derived lists, in addition to the principal and the irreducible
congruences, is again what the algebra determines: whatever a cache was filled from, another cache or
a computation, the value is the same.  Different lists of pairs can lead to one seed partition; the
least congruence above the pairs depends on the seed only.

Main definitions:

* `Algebra.joinIrreducibles`, `Algebra.atoms`, `Algebra.meetIrreducibles` — further lists that the
  algebra determines;
* `CongruenceLattice.Derived`, `CongruenceLattice.Coherent` — what is kept in the other caches, and in
  all of them, is what the algebra determines;
* `CongruenceLattice.Detached` — an invariant that does not look at the caches for principal and
  irreducible congruences.

Main results:

* `CongruenceLattice.yields_generatedBy` — generation by pairs of elements;
* `CongruenceLattice.lists_congruences` — the list of congruences up to a cap;
* `CongruenceLattice.Reachable.coherent` — **every reachable lattice is coherent**.
-/

import Mathlib
import UniversalAlgebra.Proofs.CongruenceLattice.Complete

set_option autoImplicit false

namespace UniversalAlgebra

/-! ### Further lists that the algebra determines -/

namespace Algebra

/-- The irreducible congruences other than the greatest. -/
def joinIrreducibles (A : Algebra) : List Partition :=
  (A.irreducibles.map (·.1)).filter (· != Partition.coarsest A.size)

/-- The minimal irreducible congruences. -/
def atoms (A : Algebra) : List Partition := selectMinimal (A.irreducibles.map (·.1))

/-- The minimal joins of a congruence with irreducible ones that are not below it. -/
def upperCovers (A : Algebra) (p : Partition) : List Partition :=
  coversAmong (A.irreducibles.map (·.1)) p

/-- Whether a congruence other than the least has exactly one of these. -/
def isMeetIrreducible (A : Algebra) (p : Partition) : Bool :=
  p != Partition.finest A.size && (A.upperCovers p).length == 1

/-- The congruences of that kind. -/
noncomputable def meetIrreducibles (A : Algebra) : List Partition :=
  A.congruences.filter A.isMeetIrreducible

end Algebra

namespace CongruenceLattice

open Query Fallible

variable {A : Algebra} {settings : Settings} {L : CongruenceLattice}

/-! ### Coherent states -/

/-- What is kept for partitions and in the derived lists is what the algebra determines. -/
structure Derived (A : Algebra) (L : CongruenceLattice) : Prop where
  generated_least : ∀ p θ, L.generated.find? p = some θ → A.IsLeastCongruence p.setoid θ
  joinIrreducibles_eq : ∀ list, L.joinIrreducibles.value? = some list → list = A.joinIrreducibles
  atoms_eq : ∀ list, L.atoms.value? = some list → list = A.atoms
  complete_eq : ∀ list, L.complete.value? = some list → list = A.congruences
  meetIrreducibles_eq : ∀ list, L.meetIrreducibles.value? = some list → list = A.meetIrreducibles

/-- What is kept in any cache is what the algebra determines. -/
def Coherent (A : Algebra) (settings : Settings) (L : CongruenceLattice) : Prop :=
  Sound A settings L ∧ Derived A L

theorem coherent_start (A : Algebra) (settings : Settings) :
    Coherent A settings (start A settings) := by
  refine ⟨sound_start A settings, ?_, ?_, ?_, ?_, ?_⟩
  · intro p θ h
    simp [start] at h
  all_goals
    intro list h
    simp [start, Slot.vacant] at h

/-! ### Invariants that do not look at principal and irreducible congruences -/

/-- The invariant survives any change to the caches for principal and irreducible congruences. -/
def Detached (J : CongruenceLattice → Prop) : Prop :=
  ∀ L principal principals irreducibles, J L →
    J { L with principal := principal, principals := principals, irreducibles := irreducibles }

namespace Detached

variable {J : CongruenceLattice → Prop}

theorem keeps_cg (hJ : Detached J) (a b : ℕ) : Keeps J (cg a b) := by
  refine Keeps.get_bind fun L _ => Keeps.bind (Keeps.lift _) fun _ => ?_
  split
  · exact Keeps.get_bind fun L _ => Keeps.pure _
  · refine Keeps.findOrCompute (Keeps.get_bind fun L _ => Keeps.lift _) fun L x y hL => ?_
    exact hJ L y L.principals L.irreducibles hL

theorem keeps_principalData (hJ : Detached J) : Keeps J principalData := by
  refine Keeps.getOrCompute (Keeps.get_bind fun L _ => ?_) fun L x hL =>
    hJ L L.principal x L.irreducibles hL
  refine Keeps.bind (Keeps.mapM (fun p => ?_) _) fun _ => Keeps.pure _
  exact Keeps.bind (hJ.keeps_cg p.1 p.2) fun _ => Keeps.pure _

theorem keeps_irreducibleData (hJ : Detached J) : Keeps J irreducibleData := by
  refine Keeps.getOrCompute ?_ fun L x hL => hJ L L.principal L.principals x hL
  refine Keeps.bind (Keeps.bind hJ.keeps_principalData fun _ => Keeps.pure _) fun _ => ?_
  exact Keeps.get_bind fun L _ => Keeps.pure _

end Detached

theorem detached_derived (A : Algebra) : Detached (Derived A) := fun _ _ _ _ hL => { hL with }

/-- Nothing was put into the slot for all congruences. -/
theorem detached_vacant : Detached fun L => L.complete.value? = none := fun _ _ _ _ hL => hL

/-! ### Covers in sound states -/

/-- Covers are looked up among the irreducible congruences, in any sound lattice. -/
theorem yields_covers (hA : A.Total) {p : Partition} (hp : A.IsCongruence p) :
    Yields (Sound A settings) (upperCovers p) (.ok (A.upperCovers p)) := by
  refine Yields.get_bind fun L hL => ?_
  obtain rfl := hL.algebra_eq
  rw [isCongruence_eq_true hA hp]
  exact Yields.bind (Yields.lift (.ok true)) (Yields.bind (yields_irreducibleList hA) (Yields.pure _))

/-! ### Answers in coherent states -/

theorem yields_irreducibles (hA : A.Total) :
    Yields (Coherent A settings) irreducibleList (.ok (A.irreducibles.map (·.1))) :=
  (yields_irreducibleList hA).and (keeps_irreducibleList (detached_derived A).keeps_irreducibleData)

theorem yields_joinIrreducibleList (hA : A.Total) :
    Yields (Coherent A settings) joinIrreducibleList (.ok A.joinIrreducibles) := by
  refine Yields.getOrCompute (fun L hL w hw => hL.2.joinIrreducibles_eq w hw) ?_ fun L hL =>
    ⟨{ hL.1 with }, { hL.2 with joinIrreducibles_eq := fun list h => by cases h; rfl }⟩
  refine Yields.bind (yields_irreducibles hA) (Yields.get_bind fun L hL => ?_)
  rw [one, hL.1.algebra_eq]
  exact Yields.pure _

theorem yields_atomList (hA : A.Total) :
    Yields (Coherent A settings) atomList (.ok A.atoms) := by
  refine Yields.getOrCompute (fun L hL w hw => hL.2.atoms_eq w hw) ?_ fun L hL =>
    ⟨{ hL.1 with }, { hL.2 with atoms_eq := fun list h => by cases h; rfl }⟩
  exact Yields.bind (yields_irreducibles hA) (Yields.pure _)

/-- The covers of a congruence. -/
theorem yields_upperCovers (hA : A.Total) {p : Partition} (hp : A.IsCongruence p) :
    Yields (Coherent A settings) (upperCovers p) (.ok (A.upperCovers p)) :=
  (yields_covers hA hp).and (keeps_upperCovers (detached_derived A).keeps_irreducibleData p)

theorem yields_isMeetIrreducible (hA : A.Total) {p : Partition} (hp : A.IsCongruence p) :
    Yields (Coherent A settings) (isMeetIrreducible p) (.ok (A.isMeetIrreducible p)) := by
  refine Yields.get_bind fun L hL => ?_
  rw [hL.1.zero_eq, Algebra.isMeetIrreducible]
  split
  · next hzero =>
      rw [hzero, bne_self_eq_false, Bool.false_and]
      exact Yields.pure false
  · next hne =>
      rw [bne_iff_ne.2 hne, Bool.true_and]
      exact Yields.bind (yields_upperCovers hA hp) (Yields.pure _)

/-! ### Generation by pairs -/

/-- What the seed is, for pairs of elements. -/
theorem seed_eq (hA : L.algebra.Total) {ps : List (ℕ × ℕ)}
    (hps : ∀ p ∈ ps, p.1 < L.algebra.size ∧ p.2 < L.algebra.size) :
    ∃ seed, L.seed ps = .ok seed ∧ seed.Valid ∧ seed.size = L.algebra.size ∧
      IsLeast {t : Setoid ℕ | ∀ x y, (x, y) ∈ ps → t x y} seed.setoid := by
  have hfinest := Partition.valid_finest L.algebra.size
  have hrange : ∀ p ∈ ps, p.1 < (Partition.finest L.algebra.size).size ∧
      p.2 < (Partition.finest L.algebra.size).size := by simpa using hps
  obtain ⟨hvalid, hsize⟩ := hfinest.foldl_relate hrange
  obtain ⟨⟨-, hrel⟩, hleast⟩ := hfinest.isLeast_foldl_relate hrange
  refine ⟨_, foldlM_check_eq hA (fun (p : Partition) q => p.relate q.1 q.2) hps L.zero, hvalid,
    hsize.trans (Partition.size_finest _), fun x y h => hrel (x, y) h, fun t ht => ?_⟩
  refine hleast ⟨?_, fun p hp => ht p.1 p.2 hp⟩
  rw [Partition.setoid_finest]
  exact bot_le

/-- From the seed on, the answer is the least congruence above it. -/
theorem yields_of_seed (hA : A.Total) {seed θ : Partition} (hseed : seed.Valid)
    (hsize : seed.size = A.size) (hθ : A.IsLeastCongruence seed.setoid θ) :
    Yields (Coherent A settings)
      (if seed.isFinest then return (← get).zero
        else
          Memo.findOrCompute generated (fun L table => { L with generated := table }) seed do
            (← get).cgPartition seed)
      (.ok θ) := by
  split
  · next hfinest =>
      rw [hseed.eq_finest hfinest, hsize] at hθ
      refine Yields.get_bind fun L hL => ?_
      rw [hL.1.zero_eq, hθ.eq A.isCongruence_finest.isLeastCongruence]
      exact Yields.pure _
  · refine Yields.findOrCompute (fun L hL w hw => (hL.2.generated_least seed w hw).eq hθ) ?_ ?_
    · refine Yields.get_bind fun L hL => ?_
      obtain rfl := hL.1.algebra_eq
      rw [cgPartition_eq hA hseed hsize hθ]
      exact Yields.lift _
    · exact fun L _ hL => ⟨{ hL.1 with },
        { hL.2 with generated_least := Memo.forall_find?_publish hL.2.generated_least hθ }⟩

theorem yields_cg_coherent (hA : A.Total) {a b : ℕ} (ha : a < A.size) (hb : b < A.size) :
    Yields (Coherent A settings) (cg a b) (.ok (A.cg a b)) :=
  (yields_cg hA ha hb).and ((detached_derived A).keeps_cg a b)

/-- **Generation by pairs of elements yields the least congruence**, whichever cache it comes from. -/
theorem yields_generatedBy (hA : A.Total) {ps : List (ℕ × ℕ)}
    (hps : ∀ p ∈ ps, p.1 < A.size ∧ p.2 < A.size) {θ : Partition}
    (hθ : A.IsLeastCongruence (fun x y => (x, y) ∈ ps) θ) :
    Yields (Coherent A settings) (generatedBy ps) (.ok θ) := by
  unfold generatedBy
  split
  · next a b =>
      have hab := hps (a, b) List.mem_cons_self
      have hcg : A.cg a b = θ := (hA.isLeastCongruence_cg hab.1 hab.2).eq (by simpa using hθ)
      rw [← hcg]
      exact yields_cg_coherent hA hab.1 hab.2
  · refine Yields.get_bind fun L hL => ?_
    obtain rfl := hL.1.algebra_eq
    obtain ⟨seed, heq, hvalid, hsize, hleast⟩ := seed_eq hA hps
    obtain ⟨s, -, hs⟩ := CongruenceClosure.close_ofPartition hA hvalid hsize .sequential
    rw [heq]
    refine Yields.bind (Yields.lift (.ok seed)) (yields_of_seed hA hvalid hsize ?_)
    rwa [← hθ.eq (.of_isLeast hleast hs)] at hs

/-! ### The list of congruences -/

/-- **The list of congruences up to a cap.** -/
theorem lists_congruences (hA : A.Total) (cap : ℕ) :
    Lists (Coherent A settings) complete A.congruences Partition.rankLess cap (congruences cap) := by
  intro L hL
  unfold congruences
  rw [get_bind_apply]
  cases hvalue : L.complete.value? with
  | some all =>
      obtain rfl := hL.2.complete_eq all hvalue
      exact ⟨A.congruences, false, L, rfl, hL, listed_of_kept hvalue⟩
  | none =>
      obtain ⟨L', ⟨hL', hvalue'⟩, hirreducible⟩ := (yields_irreducibles hA).and
        (keeps_irreducibleList detached_vacant.keeps_irreducibleData) L ⟨hL, hvalue⟩
      obtain ⟨found, capped, hsearch, hfound⟩ := Algebra.congruences_of_search hA cap
      simp only [bind_of_ok hirreducible, get_bind_apply, hL'.1.zero_eq, hL'.1.algebra_eq, hsearch]
      have hkept : Coherent A settings { L' with complete := ⟨some A.congruences⟩ } :=
        ⟨{ hL'.1 with }, { hL'.2 with complete_eq := fun list h => by cases h; rfl }⟩
      refine listed_of_found hfound hL' hvalue hvalue' ?_ hkept rfl
      intro hall
      simp only [modifyGet, MonadStateOf.modifyGet, EStateM.modifyGet, Slot.publish_eq, hvalue',
        Option.getD_none, hall]

/-- The whole list, or a refusal if the cap of the lattice cuts it off. -/
theorem allCongruences_spec (hA : A.Total) (caller : String) (hL : Coherent A settings L) :
    ∃ L', Coherent A settings L' ∧
      ((Available complete A.congruences settings.maxSize L ∧
          allCongruences caller L = .ok A.congruences L') ∨
        (¬ Available complete A.congruences settings.maxSize L ∧
          allCongruences caller L = .error (.latticeCapped caller A.name) L')) := by
  unfold allCongruences
  rw [get_bind_apply, hL.1.settings_eq, hL.1.algebra_eq]
  exact (lists_congruences hA settings.maxSize).orRefuse rfl (fun _ => rfl) hL

/-- The whole list, if the cap does not cut it off. -/
theorem allCongruences_eq (hA : A.Total) (caller : String) (hL : Coherent A settings L)
    (havailable : Available complete A.congruences settings.maxSize L) :
    ∃ L', Coherent A settings L' ∧ allCongruences caller L = .ok A.congruences L' := by
  obtain ⟨L', hL', ⟨-, hrun⟩ | ⟨hnot, -⟩⟩ := allCongruences_spec hA caller hL
  · exact ⟨L', hL', hrun⟩
  · exact absurd havailable hnot

theorem ensures_allCongruences (hA : A.Total) (caller : String) :
    Ensures (Coherent A settings) (allCongruences caller) (· = A.congruences) := by
  refine Ensures.get_bind fun L hL => ?_
  rw [hL.1.settings_eq]
  exact (lists_congruences hA settings.maxSize).ensures rfl fun _ => rfl

/-- The meet irreducible congruences, once the list of all is known. -/
theorem yields_meetIrreducibles (hA : A.Total) :
    Yields (Coherent A settings)
      (Slot.getOrCompute meetIrreducibles (fun L slot => { L with meetIrreducibles := slot })
        (A.congruences.filterM isMeetIrreducible)) (.ok A.meetIrreducibles) := by
  refine Yields.getOrCompute (fun L hL w hw => hL.2.meetIrreducibles_eq w hw) ?_ fun L hL =>
    ⟨{ hL.1 with }, { hL.2 with meetIrreducibles_eq := fun list h => by cases h; rfl }⟩
  exact Yields.filterM fun p hp => yields_isMeetIrreducible hA (Algebra.mem_congruences.1 hp)

/-- They are answered if the cap does not cut that list off. -/
theorem meetIrreducibleList_eq (hA : A.Total) (hL : Coherent A settings L)
    (havailable : L.complete.isReady = true ∨ settings.maxSize = 0 ∨
      Nat.card A.Congruence ≤ settings.maxSize) :
    ∃ L', Coherent A settings L' ∧ meetIrreducibleList L = .ok A.meetIrreducibles L' := by
  rw [← Algebra.length_congruences] at havailable
  obtain ⟨L', hL', hrun⟩ := allCongruences_eq hA "meet_irreducibles" hL havailable
  refine Yields.bind_of_ok ?_ hL' hrun
  exact yields_meetIrreducibles hA

/-! ### Coherence is stable -/

/-- What looks at the algebra and the settings only is the same in all coherent states. -/
theorem Coherent.congr {γ : Type} (f : CongruenceLattice → γ)
    (hf : ∀ L, f L = f (CongruenceLattice.start L.algebra L.settings))
    (hL : Coherent A settings L) : f L = f (CongruenceLattice.start A settings) := by
  rw [hf L, hL.1.algebra_eq, hL.1.settings_eq]

/-- A look at the algebra and the settings. -/
theorem constant_get_bind {α : Type} {f : CongruenceLattice → Query CongruenceLattice α}
    (hf : ∀ L, f L = f (start L.algebra L.settings))
    (h : Constant (Coherent A settings) (f (start A settings))) :
    Constant (Coherent A settings) (get >>= f) :=
  Constant.get_bind (fun _ hL => hL.congr f hf) h

/-- A check that looks at these. -/
theorem constant_check {α β : Type} {check : CongruenceLattice → Except Fault α}
    {f : α → Query CongruenceLattice β}
    (hcheck : ∀ L, check L = check (start L.algebra L.settings))
    (hf : ∀ a, check (start A settings) = .ok a → Constant (Coherent A settings) (f a)) :
    Constant (Coherent A settings) (get >>= fun L => liftM (check L) >>= f) :=
  Constant.check (fun _ hL => hL.congr check hcheck) hf

theorem constant_cg (hA : A.Total) (a b : ℕ) : Constant (Coherent A settings) (cg a b) := by
  by_cases hab : a < A.size ∧ b < A.size
  · exact (yields_cg_coherent hA hab.1 hab.2).constant
  · refine constant_check (fun _ => rfl) fun _ hcheck => ?_
    exact absurd (lt_of_checkPair_eq_ok hcheck) hab

theorem constant_generatedBy (hA : A.Total) (ps : List (ℕ × ℕ)) :
    Constant (Coherent A settings) (generatedBy ps) := by
  by_cases hps : ∀ p ∈ ps, p.1 < A.size ∧ p.2 < A.size
  · obtain ⟨s, -, hs⟩ := CongruenceClosure.close_foldAll hA ps hps .sequential
    exact (yields_generatedBy hA hps hs).constant
  · unfold generatedBy
    split
    · next a b => exact constant_cg hA a b
    · refine constant_check (fun _ => rfl) fun seed hseed => ?_
      exact absurd (lt_of_foldlM_check_eq_ok hseed) hps

theorem stable_coherent (hA : A.Total) : Stable (Coherent A settings) where
  cg a b := (constant_cg hA a b).keeps
  generatedBy ps := (constant_generatedBy hA ps).keeps
  principalData := (yields_principalData hA).keeps.and (detached_derived A).keeps_principalData
  irreducibleData := (yields_irreducibleData hA).keeps.and (detached_derived A).keeps_irreducibleData
  joinIrreducibleList := (yields_joinIrreducibleList hA).keeps
  atomList := (yields_atomList hA).keeps
  congruences cap := (lists_congruences hA cap).keeps
  meetIrreducibleList := by
    refine (ensures_allCongruences hA _).bind_keeps ?_
    rintro _ rfl
    exact (yields_meetIrreducibles hA).keeps
  reset := by
    refine Keeps.modify fun L hL => ?_
    rw [CongruenceLattice.reset, hL.1.algebra_eq, hL.1.settings_eq]
    exact coherent_start A settings

/-- **Every reachable lattice is coherent.** -/
theorem Reachable.coherent (hA : A.Total) (hL : Reachable A settings L) : Coherent A settings L :=
  (stable_coherent hA).of_reachable (coherent_start A settings) hL

end CongruenceLattice

end UniversalAlgebra
