/-
**The list of types.**

Only the list of types itself looks at what is kept of it, and no other query touches it, so that it
has what was found when it was asked for first, and that is the same in every state: the types of the
irreducible congruences, by increasing number.

Main definitions:

* `TypeFinder.Detached` — an invariant that only looks at the list of types;
* `TypeFinder.IsTyped` — a partition that is answered with a type in every sound state.

Main results:

* `TypeFinder.Public.keeps_detached` — no other query touches the list of types;
* `TypeFinder.exists_typeSet` — **the list of types** is the same in every reachable state;
* `TypeFinder.findTypeSet_eq_singleton` — what is enough for there to be one type only.
-/

import UniversalAlgebra.Proofs.TypeFinder.Covers

set_option autoImplicit false

namespace UniversalAlgebra

theorem TameType.ofNumber_number (t : TameType) : ofNumber t.number = t := by cases t <;> rfl

namespace TypeFinder

open UniversalAlgebra.Algebra Query

variable {A : Algebra} {settings : Settings} {F : TypeFinder} {J : TypeFinder → Prop}

/-! ### Queries that do not touch the list of types -/

/-- The invariant survives any change that leaves the list of types alone. -/
def Detached (J : TypeFinder → Prop) : Prop :=
  ∀ F lattice alpha visited, J F →
    J { F with lattice := lattice, alpha := alpha, visited := visited }

namespace Detached

theorem keeps_inLattice (hJ : Detached J) {α : Type} (q : Query CongruenceLattice α) :
    Keeps J (inLattice q) := by
  intro F hF
  rw [after, inLattice]
  cases q F.lattice with
  | ok x L => exact hJ F L F.alpha F.visited hF
  | error fault L => exact hJ F L F.alpha F.visited hF

theorem keeps_lowerStar (hJ : Detached J) (beta : Partition) : Keeps J (lowerStar beta) := by
  refine Keeps.bind (hJ.keeps_inLattice _) fun lower? => ?_
  cases lower? with
  | some lower => exact Keeps.pure lower
  | none => exact Keeps.throw _

theorem keeps_setAlpha (hJ : Detached J) (alpha : Partition) : Keeps J (setAlpha alpha) := by
  refine Keeps.get_bind fun F _ => Keeps.bind (Keeps.lift _) fun _ => Keeps.guard fun _ => ?_
  refine Keeps.modify fun F hF => ?_
  split
  · exact hJ F F.lattice alpha ∅ hF
  · exact hF

theorem keeps_setJoinedAlpha (hJ : Detached J) (beta alpha : Partition) :
    Keeps J (setJoinedAlpha beta alpha) := by
  refine Keeps.bind (hJ.keeps_lowerStar beta) fun lower => Keeps.guard fun _ => ?_
  exact Keeps.guard fun _ => hJ.keeps_setAlpha _

/-- In particular it does not look at which pairs were visited. -/
theorem ignoresVisited (hJ : Detached J) : IgnoresVisited J := fun F visited hF =>
  hJ F F.lattice F.alpha visited hF

theorem keeps_findSubtraceOver (hJ : Detached J) (beta : Argument) (alpha : Partition) :
    Keeps J (findSubtraceOver beta alpha) :=
  hJ.ignoresVisited.keeps_findSubtraceOver (fun b => hJ.keeps_setJoinedAlpha b alpha)
    (fun _ => hJ.keeps_inLattice _) beta

theorem keeps_findSubtrace (hJ : Detached J) (beta : Argument) : Keeps J (findSubtrace beta) := by
  refine Keeps.bind (keeps_look beta) fun b => Keeps.bind (hJ.keeps_lowerStar b) fun lower => ?_
  exact hJ.keeps_findSubtraceOver beta lower

theorem keeps_findTypeOver (hJ : Detached J) (beta : Argument) (alpha : Partition) :
    Keeps J (findTypeOver beta alpha) :=
  keeps_findTypeOver_of_findSubtraceOver (hJ.keeps_findSubtraceOver beta alpha)

theorem keeps_findType (hJ : Detached J) (beta : Argument) : Keeps J (findType beta) := by
  refine Keeps.bind (keeps_look beta) fun b => Keeps.bind (hJ.keeps_lowerStar b) fun lower => ?_
  exact hJ.keeps_findTypeOver beta lower

theorem keeps_findTypeOfCover (hJ : Detached J) (alpha beta : Partition) :
    Keeps J (findTypeOfCover alpha beta) := by
  refine Keeps.bind (hJ.keeps_inLattice _) fun covers => Keeps.guard fun _ => ?_
  refine Keeps.bind (hJ.keeps_inLattice _) fun list => ?_
  split
  · exact hJ.keeps_findTypeOver _ alpha
  · exact Keeps.throw _

end Detached

/-- No query but that for the list of types touches it, apart from starting afresh. -/
theorem Public.keeps_detached (hA : A.Total) (hJ : Detached J) (hreset : ∀ L, J (TypeFinder.start L))
    (hlist : Keeps (fun F => Sound A settings F ∧ J F) TypeFinder.findTypeSet) {α : Type}
    {q : Query TypeFinder α} (hq : Public q) : Keeps (fun F => Sound A settings F ∧ J F) q := by
  have hsound : Keeps (Sound A settings) q := hq.keeps hA
  cases hq with
  | setAlpha _ => exact hsound.and (hJ.keeps_setAlpha _)
  | nextPair p => exact hsound.and (hJ.ignoresVisited.keeps_nextPair p)
  | findSubtraceOfPair p => exact hsound.and (hJ.ignoresVisited.keeps_findSubtraceOfPair p)
  | findSubtrace beta => exact hsound.and (hJ.keeps_findSubtrace beta)
  | findSubtraceOver beta _ => exact hsound.and (hJ.keeps_findSubtraceOver beta _)
  | isSubtrace p beta =>
      refine hsound.and (Keeps.get_bind fun F _ => ?_)
      refine Keeps.bind (hJ.keeps_setJoinedAlpha beta _) fun _ => ?_
      refine Keeps.get_bind fun F _ => Keeps.bind (Keeps.lift _) fun _ => ?_
      refine Keeps.ite (Keeps.pure _) ?_
      exact Keeps.bind (hJ.ignoresVisited.keeps_findSubtraceOfPair p) fun _ => Keeps.pure _
  | typeSubtrace s => exact hsound.and (keeps_typeSubtrace s)
  | findType beta => exact hsound.and (hJ.keeps_findType beta)
  | findTypeOver beta _ => exact hsound.and (hJ.keeps_findTypeOver beta _)
  | findTypeOfCover _ beta => exact hsound.and (hJ.keeps_findTypeOfCover _ beta)
  | findTypeSet => exact hlist
  | classify beta withCentrality =>
      refine hsound.and (Keeps.bind (hJ.keeps_findSubtrace beta) fun s => ?_)
      refine Keeps.bind (keeps_typeSubtrace s) fun s => Keeps.ite ?_ (Keeps.pure _)
      refine Keeps.get_bind fun F _ => Keeps.bind (keeps_look beta) fun b => ?_
      exact Keeps.bind (Keeps.lift _) fun _ => Keeps.pure _
  | reset => exact hsound.and (Keeps.modify fun F _ => hreset F.lattice)
  | inLattice _ => exact hsound.and (hJ.keeps_inLattice _)

/-! ### The list of types -/

/-- The partition is answered with the type in every sound state. -/
def IsTyped (A : Algebra) (p : Partition) (t : TameType) : Prop :=
  ∀ settings, Yields (Sound A settings) (findType p) (.ok t)

/-- A partition is answered with one type at most. -/
theorem IsTyped.unique {p : Partition} {t t' : TameType} (ht : IsTyped A p t)
    (ht' : IsTyped A p t') : t = t' := by
  have hstart : Sound A .standard (start (.start A .standard)) :=
    sound_start (CongruenceLattice.sound_start A .standard)
  have h := ((ht .standard).result_eq hstart).symm.trans ((ht' .standard).result_eq hstart)
  cases h
  rfl

/-- An irreducible congruence has the type that the tables of some two elements give modulo another
congruence, which does not relate them. -/
theorem exists_isTyped (hA : A.Total) {p : Partition} (hp : p ∈ A.irreducibles.map (·.1)) :
    ∃ (lower : A.Congruence) (c d : ℕ) (t : TameType), A.IsPair (c, d) ∧
      ¬ lower.partition.setoid c d ∧ A.HasType lower.partition.setoid c d t ∧ IsTyped A p t := by
  obtain ⟨beta, rfl⟩ : ∃ beta : A.Congruence, beta.partition = p :=
    ⟨⟨p, isCongruence_of_mem_irreducibles hA hp⟩, rfl⟩
  obtain ⟨lower, hlower⟩ := (Congruence.mem_irreducibles_iff hA).1 hp
  obtain ⟨c, d, t, hpair, -, hnot, hhas, htyped, -⟩ := exists_type hA hlower
  exact ⟨lower, c, d, t, hpair, hnot, hhas, htyped⟩

/-- What is kept as the list of types, if anything, is the given list. -/
def Holds (types : List TameType) (F : TypeFinder) : Prop :=
  ∀ list, F.types.value? = some list → list = types

theorem detached_holds (types : List TameType) : Detached (Holds types) := fun _ _ _ _ hF => hF

/-- If the irreducible congruences have types, these are the list of types, by increasing number. -/
theorem yields_findTypeSet (hA : A.Total) {typeOf : Partition → TameType}
    (htyped : ∀ p ∈ A.irreducibles.map (·.1), IsTyped A p (typeOf p)) {types : List TameType}
    (htypes : types = (sortedDistinct (((A.irreducibles.map (·.1)).map typeOf).map
      TameType.number)).map TameType.ofNumber) :
    Yields (fun F => Sound A settings F ∧ Holds types F) findTypeSet (.ok types) := by
  have hdetached := detached_holds types
  refine Yields.getOrCompute (fun F hF list hlist => hF.2 list hlist) ?_ fun F hF =>
    ⟨⟨hF.1.lattice_sound, hF.1.isCongruence_alpha⟩, fun list hlist => ?_⟩
  · have hirreducible : Yields (Sound A settings) (inLattice CongruenceLattice.irreducibleList) _ :=
      yields_inLattice (CongruenceLattice.yields_irreducibleList hA)
    refine Yields.bind (hirreducible.and (hdetached.keeps_inLattice _)) ?_
    refine Yields.bind (Yields.mapM fun p hp =>
      (htyped p hp settings).and (hdetached.keeps_findType p)) ?_
    rw [htypes]
    exact Yields.pure _
  · cases hlist
    rfl

/-- **The list of types** is the same in every reachable state: the types of the irreducible
congruences, by increasing number and each once. -/
theorem exists_typeSet (hA : A.Total) : ∃ types : List TameType,
    (types.map TameType.number).Pairwise (· < ·) ∧
      (∀ t, t ∈ types ↔ ∃ p ∈ A.irreducibles.map (·.1), IsTyped A p t) ∧
      ∀ settings F, Reachable A settings F → findTypeSet.result F = .ok types := by
  have htyped (p : Partition) (hp : p ∈ A.irreducibles.map (·.1)) : ∃ t, IsTyped A p t := by
    obtain ⟨-, -, -, t, -, -, -, ht⟩ := exists_isTyped hA hp
    exact ⟨t, ht⟩
  have : Nonempty TameType := ⟨.unset⟩
  choose! typeOf htypeOf using htyped
  let numbers := sortedDistinct (((A.irreducibles.map (·.1)).map typeOf).map TameType.number)
  have hnumber : ∀ k ∈ numbers, (TameType.ofNumber k).number = k := by
    intro k hk
    obtain ⟨t, -, rfl⟩ := List.mem_map.1 (mem_sortedDistinct.1 hk)
    rw [TameType.ofNumber_number]
  refine ⟨numbers.map TameType.ofNumber, ?_, fun t => ?_, fun settings F hF => ?_⟩
  · have hnumbers : (numbers.map TameType.ofNumber).map TameType.number = numbers := by
      rw [List.map_map]
      exact (List.map_congr_left hnumber).trans (List.map_id numbers)
    rw [hnumbers]
    exact pairwise_sortedDistinct _
  · simp only [numbers, List.mem_map, mem_sortedDistinct, exists_exists_and_eq_and,
      TameType.ofNumber_number]
    constructor
    · rintro ⟨entry, hentry, rfl⟩
      exact ⟨entry, hentry, htypeOf _ (List.mem_map_of_mem hentry)⟩
    · rintro ⟨entry, hentry, ht⟩
      exact ⟨entry, hentry, (htypeOf _ (List.mem_map_of_mem hentry)).unique ht⟩
  · have hyields : Yields (fun F => Sound A settings F ∧ Holds _ F) findTypeSet _ :=
      yields_findTypeSet hA htypeOf rfl
    have hstart (L : CongruenceLattice) : Holds (numbers.map TameType.ofNumber) (start L) :=
      fun _ h => by cases h
    refine hyields.result_eq ?_
    induction hF with
    | start hL => exact ⟨sound_start (hL.sound hA), hstart _⟩
    | query hq _ ih => exact hq.keeps_detached hA (detached_holds _) hstart hyields.keeps _ ih

/-- An algebra with at least two elements has an irreducible congruence. -/
theorem exists_irreducible (hA : A.Total) (hsize : 2 ≤ A.size) :
    ∃ p, p ∈ A.irreducibles.map (·.1) := by
  let top : A.Congruence := ⟨_, Algebra.isCongruence_coarsest hA⟩
  let bottom : A.Congruence := ⟨_, A.isCongruence_finest⟩
  have hnot : ¬ top ≤ bottom := by
    intro hle
    have hrel : (Partition.finest A.size).setoid 0 1 :=
      hle (Partition.setoid_coarsest (Nat.lt_of_lt_of_le Nat.zero_lt_two hsize) hsize)
    rw [Partition.setoid_finest] at hrel
    exact absurd hrel Nat.zero_ne_one
  obtain ⟨g, hg, -⟩ := Congruence.exists_irreducible_of_not_le hA hnot
  exact ⟨g.partition, hg⟩

/-- If the tables of any two elements that a congruence does not relate give the same type, it is the
only one. -/
theorem findTypeSet_eq_singleton (hA : A.Total) (hsize : 2 ≤ A.size) {t : TameType}
    (htype : ∀ (γ : A.Congruence) (c d : ℕ) (t' : TameType), A.IsPair (c, d) →
      ¬ γ.partition.setoid c d → A.HasType γ.partition.setoid c d t' → t' = t) :
    ∀ settings F, Reachable A settings F → findTypeSet.result F = .ok [t] := by
  obtain ⟨types, hincreasing, hmem, hresult⟩ := exists_typeSet hA
  have honly (p : Partition) (hp : p ∈ A.irreducibles.map (·.1)) : IsTyped A p t := by
    obtain ⟨lower, c, d, t', hpair, hnot, hhas, htyped⟩ := exists_isTyped hA hp
    obtain rfl := htype lower c d t' hpair hnot hhas
    exact htyped
  have hall : ∀ t' ∈ types, t' = t := by
    intro t' ht'
    obtain ⟨p, hp, htyped⟩ := (hmem t').1 ht'
    exact htyped.unique (honly p hp)
  obtain ⟨p, hp⟩ := exists_irreducible hA hsize
  have hnodup : types.Nodup := List.Nodup.of_map _ (hincreasing.imp fun h => h.ne)
  have hperm : types.Perm [t] := by
    refine (List.perm_ext_iff_of_nodup hnodup (List.nodup_singleton t)).2 fun t' => ?_
    rw [List.mem_singleton]
    exact ⟨hall t', fun h => h ▸ (hmem t).2 ⟨p, hp, honly p hp⟩⟩
  rwa [List.perm_singleton.1 hperm] at hresult

end TypeFinder

end UniversalAlgebra
