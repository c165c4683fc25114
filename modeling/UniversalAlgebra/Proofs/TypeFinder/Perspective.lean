/-
**Subtraces and types do not depend on what is joined to the lower cover.**

A search for a subtrace of a congruence `beta` with exactly one lower cover may run relative to that
cover, or relative to the join of the cover with some congruence `alpha`, if the join is not above
`beta`.  The two lower congruences differ, but not on pairs that `beta` relates, and all pairs and
tables that come up in a search from such a pair consist of related elements.  So both searches take
the same steps, end at the same subtrace and find tables with the same patterns.

Main definitions:

* `TypeFinder.Alike` — two searches that treat alike what a pair generates.

Main results:

* `TypeFinder.Alike.nextPair`, `TypeFinder.Alike.lastPair` — they take the same step, and the same
  steps;
* `TypeFinder.Alike.findSubtraceOfPair` — they find the same subtrace;
* `TypeFinder.Alike.typeSubtrace` — they give it the same type;
* `TypeFinder.findSubtraceOver_eq_findSubtrace` — **a joined congruence changes neither the subtrace
  nor its type**.
-/

import UniversalAlgebra.Proofs.Closure.Simulation
import UniversalAlgebra.Proofs.TypeFinder.OwnAlpha
import UniversalAlgebra.Proofs.TypeFinder.Typing

set_option autoImplicit false

namespace UniversalAlgebra.TypeFinder

open UniversalAlgebra.Algebra Query

variable {F F' : TypeFinder} {A : Algebra} {settings settings' : Settings} {β : Setoid ℕ}
  {p q : ℕ × ℕ}

/-- Two searches over one algebra whose lower congruences agree inside a compatible relation. -/
structure Alike (β : Setoid ℕ) (F F' : TypeFinder) : Prop where
  algebra_eq : F'.algebra = F.algebra
  compatible : F.algebra.Compatible β
  setoid_iff : ∀ x < F.algebra.size, ∀ y < F.algebra.size, β x y →
    (F'.alpha.setoid x y ↔ F.alpha.setoid x y)

namespace Alike

/-- What was visited does not matter. -/
theorem visit (h : Alike β F F') (visited visited' : Std.HashSet (ℕ × ℕ)) :
    Alike β { F with visited := visited } { F' with visited := visited' } :=
  ⟨h.algebra_eq, h.compatible, h.setoid_iff⟩

/-- They agree on what a related pair generates. -/
theorem setoid_iff_of_mem (h : Alike β F F') (hA : F.algebra.Total) (hp : F.algebra.IsPair p)
    (hrel : β p.1 p.2) (hq : q ∈ F.algebra.sgPair p) :
    F'.alpha.setoid q.1 q.2 ↔ F.alpha.setoid q.1 q.2 := by
  obtain ⟨h₁, h₂⟩ := hA.isPair_of_mem_sgPair hp hq
  exact h.setoid_iff q.1 h₁ q.2 h₂ (h.compatible.of_mem_sgPair hA hp hrel hq)

/-! ### The same steps -/

theorem observe_eq (h : Alike β F F') (hA : F.algebra.Total) (hp : F.algebra.IsPair p)
    (hrel : β p.1 p.2) (w : Watch) {t : List ℕ}
    (ht : t ∈ F.algebra.subpower 2 (F.algebra.pairSeed p)) :
    Watch.observe F'.alpha w t = Watch.observe F.alpha w t := by
  obtain ⟨q, hq, rfl⟩ := (hA.mem_subpower_pairSeed hp).1 ht
  have hrelated : F'.alpha.related q.1 q.2 = F.alpha.related q.1 q.2 := by
    rw [Bool.eq_iff_iff, Partition.related_iff, Partition.related_iff, h.setoid_iff_of_mem hA hp hrel hq]
  change (if F'.alpha.related q.1 q.2 then _ else _) = (if F.alpha.related q.1 q.2 then _ else _)
  rw [hrelated]

/-- Searches that visited the same pairs take the same step. -/
theorem nextPair (h : Alike β F F') (hA : F.algebra.Total) (hp : F.algebra.IsPair p)
    (hrel : β p.1 p.2) (hvisited : F'.visited = F.visited) :
    ∃ next visited, nextPair p F = .ok next { F with visited := visited } ∧
      nextPair p F' = .ok next { F' with visited := visited } := by
  have hgenerators : ∀ t ∈ pairGenerators F.algebra.size p, t ∈ F.algebra.tuples 2 :=
    fun t ht => pairSeed_subset hp (mem_pairGenerators.1 ht)
  obtain ⟨⟨hclosed, hseed⟩, -⟩ := hA.isLeast_subpower_pairSeed hp
  obtain ⟨hs, hobserve, hobserver, hmem⟩ :=
    (SubpowerClosure.faithful_observed F.algebra 2 (Watch.observe F.alpha)
      ⟨F.visited.insert (normalize p), none⟩).insertAll hgenerators
  obtain ⟨status, s, hclose⟩ := SubpowerClosure.close_ok hA F.lattice.mode hs
  have hsub : ∀ t ∈ ((SubpowerClosure.observed 2 (Watch.observe F.alpha)
      ⟨F.visited.insert (normalize p), none⟩).insertAll
        (pairGenerators F.algebra.size p)).tuples,
      t ∈ F.algebra.subpower 2 (F.algebra.pairSeed p) := by
    intro t ht
    refine hseed (mem_pairGenerators.1 ?_)
    simpa [SubpowerClosure.observed] using (hmem t).1 ht
  -- what a related pair generates is related, and of such pairs both observers say the same
  have hcongr := SubpowerClosure.close_congr hA hclosed.closedUnderColumns hs hsub
    (Watch.observe F'.alpha) (fun w t ht => by rw [h.observe_eq hA hp hrel w ht, hobserve]; rfl)
    F.lattice.mode F'.lattice.mode 0 0
  rw [hclose, ← SubpowerClosure.insertAll_observe] at hcongr
  refine ⟨s.observer.next, s.observer.visited, nextPair_eq (checkPair_eq hA hp) hclose, ?_⟩
  obtain ⟨halgebra, -, -⟩ := h
  have hclose' : Closure.close F'.algebra F'.lattice.mode 0 0
      ((SubpowerClosure.observed 2 (Watch.observe F'.alpha)
        ⟨F'.visited.insert (normalize p), none⟩).insertAll (pairGenerators F'.algebra.size p))
      = ⟨.ok status, { s with observe := Watch.observe F'.alpha }⟩ := by
    rw [halgebra, hvisited]
    exact hcongr
  exact (nextPair_eq (checkPair_eq (halgebra ▸ hA) (halgebra ▸ hp)) hclose' :)

/-- They take the same steps, and end at the same pair. -/
theorem lastPair (h : Alike β F F') (hA : F.algebra.Total) (hp : F.algebra.IsPair p)
    (hrel : β p.1 p.2) (hvisited : F'.visited = F.visited) (fuel : ℕ) :
    ∃ q visited, lastPair fuel p F = .ok q { F with visited := visited } ∧
      lastPair fuel p F' = .ok q { F' with visited := visited } := by
  induction fuel generalizing p F F' with
  | zero => exact ⟨p, F.visited, rfl, by rw [← hvisited]; rfl⟩
  | succ fuel ih =>
      obtain ⟨next, visited, hnext, hnext'⟩ := h.nextPair hA hp hrel hvisited
      rw [TypeFinder.lastPair, bind_apply, bind_apply, hnext, hnext']
      cases next with
      | none => exact ⟨p, visited, rfl, rfl⟩
      | some q =>
          have hq : q ∈ F.algebra.sgPair p := by
            rcases nextPair_cases hA hp with ⟨hnone, -⟩ | ⟨r, hr, -, hsome⟩
            · rw [hnone] at hnext
              cases hnext
            · rw [hsome] at hnext
              cases hnext
              exact hr
          exact ih (h.visit visited visited) hA (hA.isPair_of_mem_sgPair hp hq)
            (h.compatible.of_mem_sgPair hA hp hrel hq) rfl

/-! ### The same subtrace -/

theorem certify (h : Alike β F F') (hA : F.algebra.Total) (hq : F.algebra.IsPair q) :
    F'.certify q = F.certify q := by
  obtain ⟨halgebra, -, -⟩ := h
  have hgenerators : ∀ t ∈ pairGenerators F.algebra.size q, t ∈ F.algebra.tuples 2 :=
    fun t ht => pairSeed_subset hq (mem_pairGenerators.1 ht)
  obtain ⟨hs, -⟩ := (SubpowerClosure.faithful_observed F.algebra 2
    (fun (_ : Unit) (_ : List ℕ) => (true, ())) ()).insertAll hgenerators
  have hgenerate : F'.lattice.generateTuples ((SubpowerClosure.start 2).insertAll
        (pairGenerators F.algebra.size q))
      = F.lattice.generateTuples ((SubpowerClosure.start 2).insertAll
        (pairGenerators F.algebra.size q)) := by
    change (Closure.close F'.algebra F'.lattice.mode 0 0 _).settled
      = (Closure.close F.algebra F.lattice.mode 0 0 _).settled
    rw [halgebra]
    exact congrArg Outcome.settled
      (SubpowerClosure.close_mode hA hs F.lattice.mode F'.lattice.mode 0 0)
  rw [TypeFinder.certify, TypeFinder.certify, halgebra, hgenerate]

/-- They find the same subtrace. -/
theorem findSubtraceOfPair (h : Alike β F F') (hA : F.algebra.Total) (hp : F.algebra.IsPair p)
    (hrel : β p.1 p.2) (hcollapsed : ¬ F.alpha.setoid p.1 p.2) :
    ∃ s visited visited', findSubtraceOfPair p F = .ok s { F with visited := visited } ∧
      findSubtraceOfPair p F' = .ok s { F' with visited := visited' } ∧
      s.pair ∈ F.algebra.sgPair p ∧ ¬ F.alpha.setoid s.pair.1 s.pair.2 := by
  have hA' : F'.algebra.Total := h.algebra_eq ▸ hA
  have hp' : F'.algebra.IsPair p := h.algebra_eq ▸ hp
  have hcollapsed' : ¬ F'.alpha.setoid p.1 p.2 := by
    rwa [h.setoid_iff_of_mem hA hp hrel (hA.self_mem_sgPair hp)]
  obtain ⟨q, hq, hqcollapsed, -, visited, hfind, hlast⟩ := findSubtraceOfPair_eq hA hp hcollapsed
  obtain ⟨q', -, -, -, visited', hfind', hlast'⟩ := findSubtraceOfPair_eq hA' hp' hcollapsed'
  -- both walks end before their fuel does, and the walks are the same
  obtain ⟨r, visited'', hr, hr'⟩ := (h.visit ∅ ∅).lastPair hA hp hrel rfl (F.algebra.size ^ 2 + 1)
  have heq : q = r := by
    rw [hlast _ (Nat.lt_succ_self _)] at hr
    cases hr
    rfl
  have heq' : q' = r := by
    rw [hlast' _ (by rw [h.algebra_eq]; exact Nat.lt_succ_self _)] at hr'
    cases hr'
    rfl
  subst heq heq'
  have hpair := hA.isPair_of_mem_sgPair hp hq
  obtain ⟨s, hcertify, rfl, -⟩ := certify_eq hA hpair
  rw [h.certify hA hpair, hcertify] at hfind'
  rw [hcertify] at hfind
  exact ⟨s, visited, visited', hfind, hfind', hq, hqcollapsed⟩

/-! ### The same type -/

/-- They see the same patterns in the tables of a related pair. -/
theorem shows_iff {s : Subtrace} (h : Alike β F F') (hA : F.algebra.Total)
    (hs : F.algebra.IsPair s.pair) (hrel : β s.a s.b) {P : Setoid ℕ → ℕ → ℕ → ℕ → ℕ → Prop}
    (hP : ∀ x y u v, (∀ a ∈ [x, y, u, v], ∀ b ∈ [x, y, u, v],
      (F'.alpha.setoid a b ↔ F.alpha.setoid a b)) →
      (P F'.alpha.setoid x y u v ↔ P F.alpha.setoid x y u v)) :
    F'.Shows s P ↔ F.Shows s P := by
  have hagree : ∀ x y u v, [x, y, u, v] ∈ F.algebra.tables s.a s.b →
      (P F'.alpha.setoid x y u v ↔ P F.alpha.setoid x y u v) := by
    intro x y u v ht
    refine hP x y u v ?_
    intro a ha b hb
    have hlt := ((hA.isLeast_tables hs).1.1.subset_tuples ht).2
    exact h.setoid_iff a (hlt a ha) b (hlt b hb) (h.compatible.of_mem_tables hA hs hrel ht a ha b hb)
  simp only [Shows, HasTable, h.algebra_eq]
  constructor
  · rintro ⟨x, y, u, v, ht, hshows⟩
    exact ⟨x, y, u, v, ht, (hagree x y u v ht).1 hshows⟩
  · rintro ⟨x, y, u, v, ht, hshows⟩
    exact ⟨x, y, u, v, ht, (hagree x y u v ht).2 hshows⟩

/-- They give a related pair the same type. -/
theorem typeSubtrace {s : Subtrace} (h : Alike β F F') (hA : F.algebra.Total)
    (halpha : F.algebra.IsCongruence F.alpha) (halpha' : F.algebra.IsCongruence F'.alpha)
    (hs : F.algebra.IsPair s.pair) (hrel : β s.a s.b) :
    ∃ t matrices matrices',
      typeSubtrace s F = .ok { s with type := t, matrices := matrices } F ∧
      typeSubtrace s F' = .ok { s with type := t, matrices := matrices' } F' := by
  classical
  have hjoin := h.shows_iff hA hs hrel (P := JoinLike) fun x y u v => joinLike_congr
  have hmeet := h.shows_iff hA hs hrel (P := MeetLike) fun x y u v => meetLike_congr
  have hsnag := h.shows_iff hA hs hrel (P := SnagLike) fun x y u v => snagLike_congr
  obtain ⟨matrices, htype⟩ := typeSubtrace_eq hA halpha hs
    (decide_eq_true_iff (p := F.Shows s JoinLike)) (decide_eq_true_iff (p := F.Shows s MeetLike))
    (decide_eq_true_iff (p := F.Shows s SnagLike))
  obtain ⟨matrices', htype'⟩ := typeSubtrace_eq (F := F') (s := s) (h.algebra_eq ▸ hA)
    (h.algebra_eq ▸ halpha') (h.algebra_eq ▸ hs) (decide_eq_true_iff.trans hjoin.symm)
    (decide_eq_true_iff.trans hmeet.symm) (decide_eq_true_iff.trans hsnag.symm)
  exact ⟨_, matrices, matrices', htype, htype'⟩

end Alike

/-! ### Searches from a generating pair -/

section Covers

variable {alpha beta lower : A.Congruence}

/-- A congruence with exactly one lower cover is generated by one pair, which the cover does not
relate and which every lattice answers with. -/
theorem exists_generatingPair (hA : A.Total) (hlower : ∀ γ : A.Congruence, γ ⋖ beta ↔ γ = lower) :
    ∃ p, A.IsPair p ∧ beta.partition.setoid p.1 p.2 ∧ ¬ lower.partition.setoid p.1 p.2 ∧
      ∀ settings, Query.Yields (CongruenceLattice.Sound A settings)
        (CongruenceLattice.generatingPair beta.partition) (.ok p) := by
  obtain ⟨a, b, ha, hb, hpair, hcg⟩ :=
    exists_principalPair (Congruence.mem_principals_of_unique hA hlower)
  have hleast := hA.isLeastCongruence_cg ha hb
  rw [← hcg] at hleast
  refine ⟨(a, b), ⟨ha, hb⟩, hleast.rel ⟨rfl, rfl⟩, ?_, fun settings =>
    CongruenceLattice.yields_generatingPair hA beta.isCongruence.size_eq hpair⟩
  intro hrel
  have hcover : lower ⋖ beta := (hlower lower).2 rfl
  refine not_le_of_gt hcover.lt (hleast.le lower.isCongruence.compatible ?_)
  rintro x y ⟨rfl, rfl⟩
  exact hrel

/-- The search relative to a joined congruence is the one from the generating pair. -/
theorem findSubtraceOver_eq (hA : A.Total) (hF : Sound A settings F)
    (hlower : ∀ γ : A.Congruence, γ ⋖ beta ↔ γ = lower) (hbelow : ¬ beta ≤ alpha ⊔ lower)
    (hp : Query.Yields (CongruenceLattice.Sound A settings)
      (CongruenceLattice.generatingPair beta.partition) (.ok p)) :
    ∃ G, Sound A settings G ∧ G.alpha = (alpha ⊔ lower).partition ∧
      findSubtraceOver beta.partition alpha.partition F = findSubtraceOfPair p G := by
  obtain ⟨G, hset, hG, halpha, -⟩ :=
    setJoinedAlpha_eq hA hF (Congruence.lookup_irreducibles hA hlower) hbelow
  obtain ⟨L, hL, hquery⟩ := inLattice_eq hp hG
  exact ⟨{ G with lattice := L }, hL, halpha,
    (findSubtraceOver_of_ok (x := beta.partition) hset).trans (bind_of_ok hquery)⟩

theorem findTypeOver_eq {G H : TypeFinder} {s s' : Subtrace} {beta alpha : Partition}
    (hfind : findSubtraceOver beta alpha F = .ok s G) (htype : typeSubtrace s G = .ok s' H) :
    findTypeOver beta alpha F = .ok s'.type H := by
  rw [findTypeOver, bind_apply, hfind]
  change (typeSubtrace s >>= fun s => pure s.type) G = _
  rw [bind_apply, htype]
  rfl

/-- Two searches for a congruence with exactly one lower cover, relative to different congruences,
find the same subtrace and give it the same type. -/
theorem findSubtraceOver_congr {alpha' : A.Congruence} (hA : A.Total) (hF : Sound A settings F)
    (hF' : Sound A settings' F') (hlower : ∀ γ : A.Congruence, γ ⋖ beta ↔ γ = lower)
    (hbelow : ¬ beta ≤ alpha ⊔ lower) (hbelow' : ¬ beta ≤ alpha' ⊔ lower) :
    ∃ s, A.IsPair s.pair ∧ beta.partition.setoid s.a s.b ∧
      ¬ (alpha ⊔ lower).partition.setoid s.a s.b ∧
      (∃ G G', findSubtraceOver beta.partition alpha.partition F = .ok s G ∧
        findSubtraceOver beta.partition alpha'.partition F' = .ok s G') ∧
      ∃ t H H', findTypeOver beta.partition alpha.partition F = .ok t H ∧
        findTypeOver beta.partition alpha'.partition F' = .ok t H' := by
  obtain ⟨p, hp, hbeta, hnot, hpair⟩ := exists_generatingPair hA hlower
  obtain ⟨G, hG, halpha, hfind⟩ := findSubtraceOver_eq hA hF hlower hbelow (hpair settings)
  obtain ⟨G', hG', halpha', hfind'⟩ := findSubtraceOver_eq hA hF' hlower hbelow' (hpair settings')
  obtain rfl := hG.algebra_eq
  have halike : Alike beta.partition.setoid G G' := by
    refine ⟨hG'.algebra_eq, beta.isCongruence.compatible, ?_⟩
    intro x hx y hy hrel
    rw [halpha, halpha', Congruence.setoid_iff_lower hA hlower le_sup_right hbelow hx hy hrel,
      Congruence.setoid_iff_lower hA hlower le_sup_right hbelow' hx hy hrel]
  have hcollapsed : ¬ G.alpha.setoid p.1 p.2 := by
    rwa [halpha, Congruence.setoid_iff_lower hA hlower le_sup_right hbelow hp.1 hp.2 hbeta]
  obtain ⟨s, visited, visited', hs, hs', hmem, hscollapsed⟩ :=
    halike.findSubtraceOfPair hA hp hbeta hcollapsed
  have hspair := hA.isPair_of_mem_sgPair hp hmem
  have hsbeta := halike.compatible.of_mem_sgPair hA hp hbeta hmem
  obtain ⟨t, matrices, matrices', htype, htype'⟩ :=
    (halike.visit visited visited').typeSubtrace hA hG.isCongruence_alpha hG'.isCongruence_alpha
      hspair hsbeta
  exact ⟨s, hspair, hsbeta, halpha ▸ hscollapsed, ⟨_, _, hfind.trans hs, hfind'.trans hs'⟩,
    t, _, _, findTypeOver_eq (hfind.trans hs) htype, findTypeOver_eq (hfind'.trans hs') htype'⟩

end Covers

end UniversalAlgebra.TypeFinder
