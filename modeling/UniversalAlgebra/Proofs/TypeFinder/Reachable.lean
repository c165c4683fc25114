/-
**What a search for subtraces keeps.**

Callers may ask a search, and the lattice that it works over, in any order, also in ways that fail.
The lower congruence is replaced only after a check, so that in every state it is a congruence, and
the lattice stays sound.  What is kept of earlier searches, the pairs they visited, is not part of
this: a search from a pair starts by forgetting it.

Main definitions:

* `TypeFinder.Public` — the queries that a caller can make;
* `TypeFinder.Reachable` — the states in which a search can be;
* `TypeFinder.Sound` — the lattice is sound, and the lower congruence is a congruence;
* `TypeFinder.IgnoresVisited` — an invariant that does not look at which pairs were visited.

Main results:

* `TypeFinder.IgnoresVisited.keeps_findSubtraceOfPair` — the search from a pair keeps those;
* `TypeFinder.lowerStar_cases` — what the question for a lower cover does;
* `TypeFinder.setAlpha_eq`, `TypeFinder.setJoinedAlpha_eq` — choosing the lower congruence;
* `TypeFinder.Reachable.sound` — **every reachable search is sound**.
-/

import UniversalAlgebra.Proofs.CongruenceLattice.Irreducibles
import UniversalAlgebra.TypeFinder.Typing

set_option autoImplicit false

namespace UniversalAlgebra.TypeFinder

open Query Fallible

variable {A : Algebra} {settings : Settings} {F : TypeFinder}

/-! ### Reachable states -/

/-- The queries that a caller can make of a search, or of the lattice it works over, and that may
change it.  The search may be handed its own lower congruence. -/
inductive Public : {α : Type} → Query TypeFinder α → Prop
  | setAlpha {alpha : Partition} (halpha : alpha.Valid) : Public (setAlpha alpha)
  | nextPair (p : ℕ × ℕ) : Public (nextPair p)
  | findSubtraceOfPair (p : ℕ × ℕ) : Public (findSubtraceOfPair p)
  | findSubtrace (beta : Argument) : Public (findSubtrace beta)
  | findSubtraceOver (beta : Argument) {alpha : Partition} (halpha : alpha.Valid) :
      Public (findSubtraceOver beta alpha)
  | isSubtrace (p : ℕ × ℕ) (beta : Partition) : Public (isSubtrace p beta)
  | typeSubtrace (s : Subtrace) : Public (typeSubtrace s)
  | findType (beta : Argument) : Public (findType beta)
  | findTypeOver (beta : Argument) {alpha : Partition} (halpha : alpha.Valid) :
      Public (findTypeOver beta alpha)
  | findTypeOfCover {alpha : Partition} (halpha : alpha.Valid) (beta : Partition) :
      Public (findTypeOfCover alpha beta)
  | findTypeSet : Public findTypeSet
  | classify (beta : Argument) (withCentrality : Bool) : Public (classify beta withCentrality)
  | reset : Public (modify reset)
  | inLattice {α : Type} {q : Query CongruenceLattice α} (hq : CongruenceLattice.Public q) :
      Public (inLattice q)

/-- The states in which a search can be: it starts over any reachable lattice, and each query leaves
a state, whether it fails or not. -/
inductive Reachable (A : Algebra) (settings : Settings) : TypeFinder → Prop
  | start {L : CongruenceLattice} (hL : L.Reachable A settings) : Reachable A settings (start L)
  | query {α : Type} {q : Query TypeFinder α} {F : TypeFinder} (hq : Public q)
      (hF : Reachable A settings F) : Reachable A settings (q.after F)

/-- The lattice is sound, and the lower congruence is a congruence. -/
structure Sound (A : Algebra) (settings : Settings) (F : TypeFinder) : Prop where
  lattice_sound : F.lattice.Sound A settings
  isCongruence_alpha : A.IsCongruence F.alpha

theorem sound_start {L : CongruenceLattice} (hL : L.Sound A settings) :
    Sound A settings (start L) where
  lattice_sound := hL
  isCongruence_alpha := by
    change A.IsCongruence L.zero
    rw [hL.zero_eq]
    exact A.isCongruence_finest

theorem Sound.algebra_eq (hF : Sound A settings F) : F.algebra = A := hF.lattice_sound.algebra_eq

/-! ### Queries to the lattice -/

/-- A query to the lattice changes nothing but the lattice. -/
theorem inLattice_eq {α : Type} {q : Query CongruenceLattice α} {r : Except Fault α}
    (hq : Yields (CongruenceLattice.Sound A settings) q r) (hF : Sound A settings F) :
    ∃ L, Sound A settings { F with lattice := L } ∧
      inLattice q F = answer r { F with lattice := L } := by
  obtain ⟨L, hL, h⟩ := hq F.lattice hF.lattice_sound
  refine ⟨L, ⟨hL, hF.isCongruence_alpha⟩, ?_⟩
  rw [inLattice, h]
  cases r <;> rfl

theorem yields_inLattice {α : Type} {q : Query CongruenceLattice α} {r : Except Fault α}
    (hq : Yields (CongruenceLattice.Sound A settings) q r) :
    Yields (Sound A settings) (inLattice q) r := by
  intro F hF
  obtain ⟨L, hL, h⟩ := inLattice_eq hq hF
  exact ⟨_, hL, h⟩

theorem keeps_inLattice {α : Type} {q : Query CongruenceLattice α}
    (hq : Keeps (CongruenceLattice.Sound A settings) q) : Keeps (Sound A settings) (inLattice q) := by
  intro F hF
  have hL := hq F.lattice hF.lattice_sound
  rw [after] at hL ⊢
  rw [inLattice]
  cases h : q F.lattice with
  | ok x L =>
      rw [h] at hL
      exact ⟨hL, hF.isCongruence_alpha⟩
  | error fault L =>
      rw [h] at hL
      exact ⟨hL, hF.isCongruence_alpha⟩

/-- **What the question for a lower cover does**: it is answered for a congruence that is listed as
irreducible, and refused for any other one and for a partition of another size; nothing but the lattice
changes. -/
theorem lowerStar_cases (hA : A.Total) (hF : Sound A settings F) (beta : Partition) :
    ∃ L, Sound A settings { F with lattice := L } ∧
      ((∃ lower, beta.size = A.size ∧ A.irreducibles.lookup beta = some lower ∧
          lowerStar beta F = .ok lower { F with lattice := L }) ∨
        (beta.size = A.size ∧ A.irreducibles.lookup beta = none ∧
          lowerStar beta F = .error (.notJoinIrreducible beta.blocks) { F with lattice := L }) ∨
        (beta.size ≠ A.size ∧ lowerStar beta F
          = .error (.partitionSize beta.size A.name A.size) { F with lattice := L })) := by
  have h : Yields (CongruenceLattice.Sound A settings) (CongruenceLattice.lowerStar beta) _ :=
    CongruenceLattice.yields_lowerStar hA beta
  by_cases hsize : beta.size = A.size
  · rw [if_pos hsize] at h
    obtain ⟨L, hL, hquery⟩ := inLattice_eq h hF
    cases hlower : A.irreducibles.lookup beta with
    | some lower =>
        rw [hlower] at hquery
        exact ⟨L, hL, .inl ⟨lower, hsize, rfl, bind_of_ok hquery⟩⟩
    | none =>
        rw [hlower] at hquery
        exact ⟨L, hL, .inr (.inl ⟨hsize, rfl, bind_of_ok hquery⟩)⟩
  · rw [if_neg hsize] at h
    obtain ⟨L, hL, hquery⟩ := inLattice_eq h hF
    exact ⟨L, hL, .inr (.inr ⟨hsize, bind_of_error hquery⟩)⟩

/-- A congruence that is listed as irreducible is answered with its lower cover. -/
theorem lowerStar_eq (hA : A.Total) (hF : Sound A settings F) {beta lower : Partition}
    (hlower : A.irreducibles.lookup beta = some lower) :
    ∃ L, Sound A settings { F with lattice := L } ∧
      lowerStar beta F = .ok lower { F with lattice := L } := by
  obtain ⟨L, hL, ⟨lower', -, hlower', hrun⟩ | ⟨-, hnone, -⟩ | ⟨hsize, -⟩⟩ := lowerStar_cases hA hF beta
  · obtain rfl : lower = lower' := Option.some.inj (hlower.symm.trans hlower')
    exact ⟨L, hL, hrun⟩
  · rw [hlower] at hnone
    cases hnone
  · exact absurd (Algebra.isCongruence_of_lookup hA hlower).1.size_eq hsize

/-- What follows the question for a lower cover may use that there is one. -/
theorem keeps_lowerStar_bind (hA : A.Total) {α : Type} {beta : Partition}
    {f : Partition → Query TypeFinder α}
    (hf : ∀ lower, beta.size = A.size → A.irreducibles.lookup beta = some lower →
      Keeps (Sound A settings) (f lower)) :
    Keeps (Sound A settings) (lowerStar beta >>= f) := by
  intro F hF
  obtain ⟨L, hL, ⟨lower, hsize, hlower, hrun⟩ | ⟨-, -, hrun⟩ | ⟨-, hrun⟩⟩ := lowerStar_cases hA hF beta
  · rw [after, bind_of_ok hrun]
    exact hf lower hsize hlower _ hL
  · rw [after, bind_of_error hrun]
    exact hL
  · rw [after, bind_of_error hrun]
    exact hL

/-! ### Queries that visit pairs and read tables -/

variable {I : TypeFinder → Prop}

/-- Looking at an argument changes nothing. -/
theorem keeps_look (x : Argument) : Keeps I x.look := Keeps.get_bind fun _ _ => Keeps.pure _

/-- The invariant does not look at which pairs were visited. -/
def IgnoresVisited (I : TypeFinder → Prop) : Prop :=
  ∀ F visited, I F → I { F with visited := visited }

namespace IgnoresVisited

theorem keeps_nextPair (hI : IgnoresVisited I) (p : ℕ × ℕ) : Keeps I (nextPair p) := by
  refine Keeps.get_bind fun F _ => Keeps.bind (Keeps.lift _) fun _ => ?_
  refine Keeps.bind (Keeps.modify fun F hF => hI F _ hF) fun _ => ?_
  refine Keeps.get_bind fun F hF => Keeps.bind (Keeps.set (hI F _ hF)) fun _ => ?_
  exact Keeps.bind (Keeps.lift _) fun _ => Keeps.pure _

theorem keeps_lastPair (hI : IgnoresVisited I) (fuel : ℕ) (p : ℕ × ℕ) :
    Keeps I (lastPair fuel p) := by
  induction fuel generalizing p with
  | zero => exact Keeps.pure p
  | succ fuel ih =>
      refine Keeps.bind (hI.keeps_nextPair p) fun next => ?_
      cases next with
      | some q => exact ih q
      | none => exact Keeps.pure p

theorem keeps_findSubtraceOfPair (hI : IgnoresVisited I) (p : ℕ × ℕ) :
    Keeps I (findSubtraceOfPair p) := by
  refine Keeps.get_bind fun F hF => Keeps.bind (Keeps.lift _) fun _ => Keeps.guard fun _ => ?_
  refine Keeps.bind (Keeps.set (hI F ∅ hF)) fun _ => ?_
  exact Keeps.bind (hI.keeps_lastPair _ p) fun q => Keeps.get_bind fun F _ => Keeps.lift _

theorem keeps_findSubtraceOver (hI : IgnoresVisited I) {alpha : Partition}
    (hset : ∀ b, Keeps I (setJoinedAlpha b alpha))
    (hpair : ∀ b, Keeps I (inLattice (CongruenceLattice.generatingPair b))) (beta : Argument) :
    Keeps I (findSubtraceOver beta alpha) := by
  refine Keeps.bind (keeps_look beta) fun b => Keeps.bind (hset b) fun _ => ?_
  refine Keeps.bind (keeps_look beta) fun b => Keeps.bind (hpair b) fun p => ?_
  exact hI.keeps_findSubtraceOfPair p

end IgnoresVisited

theorem ignoresVisited_sound (A : Algebra) (settings : Settings) :
    IgnoresVisited (Sound A settings) :=
  fun _ _ hF => ⟨hF.lattice_sound, hF.isCongruence_alpha⟩

/-- Neither does typing a subtrace. -/
theorem keeps_typeSubtrace (s : Subtrace) : Keeps I (typeSubtrace s) := by
  refine Keeps.get_bind fun F _ => Keeps.bind (Keeps.lift _) fun _ => ?_
  exact Keeps.bind (Keeps.lift _) fun _ => Keeps.pure _

theorem keeps_findTypeOver_of_findSubtraceOver {beta : Argument} {alpha : Partition}
    (h : Keeps I (findSubtraceOver beta alpha)) : Keeps I (findTypeOver beta alpha) :=
  Keeps.bind h fun s => Keeps.bind (keeps_typeSubtrace s) fun _ => Keeps.pure _

/-! ### Choosing the lower congruence -/

/-- A congruence is accepted as the lower one, and another one makes the search forget. -/
theorem setAlpha_eq (hA : A.Total) (hF : Sound A settings F) {alpha : Partition}
    (halpha : A.IsCongruence alpha) :
    ∃ visited, setAlpha alpha F = .ok () { F with alpha := alpha, visited := visited } ∧
      (alpha ≠ F.alpha → visited = ∅) := by
  obtain rfl := hF.algebra_eq
  have hset : setAlpha alpha F = .ok () (if alpha ≠ F.alpha then
      { F with alpha := alpha, visited := ∅ } else F) := by
    change (liftM (F.lattice.isCongruence alpha) >>= _ : Query TypeFinder Unit) F = _
    rw [CongruenceLattice.isCongruence_eq_true hA halpha]
    rfl
  rw [hset]
  by_cases hnew : alpha = F.alpha
  · subst hnew
    exact ⟨F.visited, by simp, fun hne => absurd rfl hne⟩
  · exact ⟨∅, by simp [hnew], fun _ => rfl⟩

/-- The join with the lower cover becomes the lower congruence, unless it lies above `beta`, and
nothing was visited if that is another one. -/
theorem setJoinedAlpha_eq (hA : A.Total) (hF : Sound A settings F) {alpha beta lower : A.Congruence}
    (hlower : A.irreducibles.lookup beta.partition = some lower.partition)
    (hbelow : ¬ beta ≤ alpha ⊔ lower) :
    ∃ F', setJoinedAlpha beta.partition alpha.partition F = .ok () F' ∧ Sound A settings F' ∧
      F'.alpha = (alpha ⊔ lower).partition ∧
      ((alpha ⊔ lower).partition ≠ F.alpha → F'.visited = ∅) := by
  have hsize : alpha.partition.size = beta.partition.size :=
    alpha.isCongruence.size_eq.trans beta.isCongruence.size_eq.symm
  have hrefines : beta.partition.refines (alpha ⊔ lower).partition = false := by
    rw [← Bool.not_eq_true, beta.isCongruence.valid.refines_iff]
    exact hbelow
  rw [Algebra.Congruence.partition_sup] at hrefines
  obtain ⟨L, hF', hlowerStar⟩ := lowerStar_eq hA hF hlower
  obtain ⟨visited, hset, hvisited⟩ := setAlpha_eq hA hF' (alpha ⊔ lower).isCongruence
  refine ⟨{ F with lattice := L, alpha := (alpha ⊔ lower).partition, visited := visited }, ?_,
    ⟨hF'.lattice_sound, (alpha ⊔ lower).isCongruence⟩, rfl, hvisited⟩
  rw [← hset, setJoinedAlpha, bind_apply, hlowerStar]
  simp [hsize, hrefines]

/-! ### The stages of a search -/

section Stages

variable {G : TypeFinder} {x : Argument} {alpha lower : Partition} {fault : Fault}

/-- What follows a look at an argument is run with what the argument is in that state. -/
theorem look_bind_apply {α : Type} (x : Argument) (f : Partition → Query TypeFinder α)
    (F : TypeFinder) : (x.look >>= f) F = f (x.read F.alpha) F := rfl

/-- Once the lower congruence is chosen, a search starts from a generating pair of what its argument
is by then. -/
theorem findSubtraceOver_of_ok (h : setJoinedAlpha (x.read F.alpha) alpha F = .ok () G) :
    findSubtraceOver x alpha F
      = (inLattice (CongruenceLattice.generatingPair (x.read G.alpha)) >>= findSubtraceOfPair) G := by
  rw [findSubtraceOver, look_bind_apply, bind_of_ok h, look_bind_apply]

theorem findSubtrace_of_ok (h : lowerStar (x.read F.alpha) F = .ok lower G) :
    findSubtrace x F = findSubtraceOver x lower G := by
  rw [findSubtrace, look_bind_apply, bind_of_ok h]

theorem findType_of_ok (h : lowerStar (x.read F.alpha) F = .ok lower G) :
    findType x F = findTypeOver x lower G := by
  rw [findType, look_bind_apply, bind_of_ok h]

/-- If centrality is asked for, the typed subtrace is answered with the check modulo the lower
congruence. -/
theorem classify_of_ok {s₀ s : Subtrace} {data : Centrality} (hfind : findSubtrace x F = .ok s₀ G)
    (htyped : typeSubtrace s₀ G = .ok s G)
    (hdata : G.lattice.centrality (.ofPartition (x.read G.alpha)) (.ofPartition (x.read G.alpha)) G.alpha
      = .ok data) (withCentrality : Bool) :
    classify x withCentrality F
      = .ok (if withCentrality then { s with centrality := some data } else s) G := by
  rw [classify, bind_of_ok hfind, bind_of_ok htyped]
  cases withCentrality with
  | true =>
      change (get >>= _ : Query TypeFinder Subtrace) G = _
      rw [get_bind_apply, look_bind_apply, hdata]
      rfl
  | false => rfl

end Stages

/-! ### Every query keeps the search sound -/

theorem keeps_setAlpha (hA : A.Total) {alpha : Partition} (halpha : alpha.Valid) :
    Keeps (Sound A settings) (setAlpha alpha) := by
  refine Keeps.get_bind fun F hF => ?_
  obtain rfl := hF.algebra_eq
  by_cases hsize : alpha.size = F.algebra.size
  · by_cases hcongruence : F.algebra.IsCongruence alpha
    · rw [CongruenceLattice.isCongruence_eq_true (L := F.lattice) hA hcongruence]
      refine Keeps.modify ?_
      intro F' hF'
      split
      · exact ⟨hF'.lattice_sound, hcongruence⟩
      · exact hF'
    · rw [CongruenceLattice.isCongruence_eq_false (L := F.lattice) hA halpha hsize hcongruence]
      exact Keeps.throw _
  · rw [CongruenceLattice.isCongruence_eq_error (L := F.lattice) hsize]
    exact Keeps.throw _

theorem keeps_setJoinedAlpha (hA : A.Total) (beta : Partition) {alpha : Partition}
    (halpha : alpha.Valid) : Keeps (Sound A settings) (setJoinedAlpha beta alpha) := by
  refine keeps_lowerStar_bind hA ?_
  intro lower hsize hlower
  have hcongruence := (Algebra.isCongruence_of_lookup hA hlower).2
  by_cases hsizes : alpha.size = beta.size
  · have hsup : (alpha.sup lower).Valid :=
      halpha.sup hcongruence.valid (hsizes.trans (hsize.trans hcongruence.size_eq.symm))
    rw [if_neg (not_not_intro hsizes)]
    exact Keeps.ite (Keeps.throw _) (keeps_setAlpha hA hsup)
  · rw [if_pos hsizes]
    exact Keeps.throw _

theorem keeps_generatingPair (hA : A.Total) (beta : Partition) :
    Keeps (Sound A settings) (inLattice (CongruenceLattice.generatingPair beta)) :=
  keeps_inLattice ((CongruenceLattice.Public.generatingPair beta).keeps hA)

theorem keeps_findSubtraceOver (hA : A.Total) (beta : Argument) {alpha : Partition}
    (halpha : alpha.Valid) : Keeps (Sound A settings) (findSubtraceOver beta alpha) :=
  (ignoresVisited_sound A settings).keeps_findSubtraceOver
    (fun b => keeps_setJoinedAlpha hA b halpha) (keeps_generatingPair hA) beta

theorem keeps_findSubtrace (hA : A.Total) (beta : Argument) :
    Keeps (Sound A settings) (findSubtrace beta) := by
  refine Keeps.bind (keeps_look beta) fun b => keeps_lowerStar_bind hA ?_
  intro lower _ hlower
  exact keeps_findSubtraceOver hA beta (Algebra.isCongruence_of_lookup hA hlower).2.valid

theorem keeps_findTypeOver (hA : A.Total) (beta : Argument) {alpha : Partition}
    (halpha : alpha.Valid) : Keeps (Sound A settings) (findTypeOver beta alpha) :=
  keeps_findTypeOver_of_findSubtraceOver (keeps_findSubtraceOver hA beta halpha)

theorem keeps_findType (hA : A.Total) (beta : Argument) :
    Keeps (Sound A settings) (findType beta) := by
  refine Keeps.bind (keeps_look beta) fun b => keeps_lowerStar_bind hA ?_
  intro lower _ hlower
  exact keeps_findTypeOver hA beta (Algebra.isCongruence_of_lookup hA hlower).2.valid

theorem keeps_irreducibleList (hA : A.Total) :
    Keeps (Sound A settings) (inLattice CongruenceLattice.irreducibleList) :=
  keeps_inLattice (CongruenceLattice.yields_irreducibleList hA).keeps

theorem keeps_findTypeOfCover (hA : A.Total) {alpha : Partition} (halpha : alpha.Valid)
    (beta : Partition) : Keeps (Sound A settings) (findTypeOfCover alpha beta) := by
  have hirreducible : Keeps (CongruenceLattice.Sound A settings) CongruenceLattice.irreducibleData :=
    (CongruenceLattice.yields_irreducibleData hA).keeps
  have hcovers := keeps_inLattice (CongruenceLattice.keeps_upperCovers hirreducible alpha)
  refine Keeps.bind hcovers fun covers => ?_
  refine Keeps.guard fun _ => Keeps.bind (keeps_irreducibleList hA) fun list => ?_
  split
  · exact keeps_findTypeOver hA _ halpha
  · exact Keeps.throw _

/-- Whatever a caller asks, the search stays sound. -/
theorem Public.keeps (hA : A.Total) {α : Type} {q : Query TypeFinder α} (hq : Public q) :
    Keeps (Sound A settings) q := by
  cases hq with
  | setAlpha halpha => exact keeps_setAlpha hA halpha
  | nextPair p => exact (ignoresVisited_sound A settings).keeps_nextPair p
  | findSubtraceOfPair p => exact (ignoresVisited_sound A settings).keeps_findSubtraceOfPair p
  | findSubtrace beta => exact keeps_findSubtrace hA beta
  | findSubtraceOver beta halpha => exact keeps_findSubtraceOver hA beta halpha
  | isSubtrace p beta =>
      refine Keeps.get_bind fun F hF => ?_
      refine Keeps.bind (keeps_setJoinedAlpha hA beta hF.isCongruence_alpha.valid) fun _ => ?_
      refine Keeps.get_bind fun F _ => Keeps.bind (Keeps.lift _) fun _ => ?_
      refine Keeps.ite (Keeps.pure _) ?_
      refine Keeps.bind ?_ fun _ => Keeps.pure _
      exact (ignoresVisited_sound A settings).keeps_findSubtraceOfPair p
  | typeSubtrace s => exact keeps_typeSubtrace s
  | findType beta => exact keeps_findType hA beta
  | findTypeOver beta halpha => exact keeps_findTypeOver hA beta halpha
  | findTypeOfCover halpha beta => exact keeps_findTypeOfCover hA halpha beta
  | findTypeSet =>
      refine Keeps.getOrCompute ?_ fun F _ hF => ⟨hF.lattice_sound, hF.isCongruence_alpha⟩
      refine Keeps.bind (keeps_irreducibleList hA) fun list => ?_
      exact Keeps.bind (Keeps.mapM (fun p : Partition => keeps_findType hA p) list) fun _ => Keeps.pure _
  | classify beta withCentrality =>
      refine Keeps.bind (keeps_findSubtrace hA beta) fun s => ?_
      refine Keeps.bind (keeps_typeSubtrace s) fun s => Keeps.ite ?_ (Keeps.pure _)
      refine Keeps.get_bind fun F _ => Keeps.bind (keeps_look beta) fun b => ?_
      exact Keeps.bind (Keeps.lift _) fun _ => Keeps.pure _
  | reset => exact Keeps.modify fun F hF => sound_start hF.lattice_sound
  | inLattice hq => exact keeps_inLattice (hq.keeps hA)

/-- **Every reachable search is sound.** -/
theorem Reachable.sound (hA : A.Total) (hF : Reachable A settings F) : Sound A settings F := by
  induction hF with
  | start hL => exact sound_start (hL.sound hA)
  | query hq _ ih => exact hq.keeps hA _ ih

end UniversalAlgebra.TypeFinder
