/-
**Joins of congruences need no closure.**

The join of two congruences as partitions relates elements along chains of steps that one of them
makes, and an operation can be pushed through one step at a time.  So the join is a congruence and
the least one above the two, and nothing that is built from congruences by joins has to be closed
again: the lower covers of irreducible congruences, the covers of a congruence, the list of all
congruences, the test for join primeness and the chain of principal congruences.

Main definitions:

* `Algebra.StrictlyBelow`, `Algebra.NotAbove` — the pairs related by some congruence strictly below a
  given one, and by some irreducible congruence that is not above a partition;
* `CongruenceLattice.Adjoined` — the step of the chain of principal congruences.

Main results:

* `Algebra.exists_isCongruence` — every compatible relation inside the universe is that of a
  congruence;
* `Algebra.isLeastCongruence_joinBelow`, `Algebra.Congruence.staysBelow_iff` — joins over lists of
  congruences;
* `CongruenceLattice.joins_need_no_closure` — **joins of congruences need no closure**.
-/

import Mathlib
import UniversalAlgebra.Proofs.CongruenceLattice.Coherent

set_option autoImplicit false

namespace UniversalAlgebra

theorem Partition.Valid.refines_eq_false_iff {p q : Partition} (hp : p.Valid) :
    p.refines q = false ↔ ¬ p.setoid ≤ q.setoid := by
  rw [← Bool.not_eq_true, hp.refines_iff]

/-- A partition with all elements in the block of the first is the coarsest one. -/
theorem Partition.Valid.eq_coarsest {p : Partition} (hp : p.Valid) (h : ∀ i < p.size, p.rep i = 0) :
    p = coarsest p.size := by
  have hrep (i : ℕ) : p.rep i = (coarsest p.size).rep i := by
    rcases Nat.lt_or_ge i p.size with hi | hi
    · rw [h i hi, rep_coarsest hi]
    · rw [rep_of_size_le hi, rep_of_size_le (by simpa using hi)]
  refine hp.ext (valid_coarsest p.size) (size_coarsest p.size).symm ?_
  ext i j
  rw [setoid_iff, setoid_iff, hrep, hrep]

/-- The last member of a list is kept unless something kept before is below it. -/
theorem selectMinimal_concat (ps : List Partition) (p : Partition) :
    selectMinimal (ps ++ [p]) = if (selectMinimal ps).any (·.refines p) then selectMinimal ps
      else selectMinimal ps ++ [p] := by
  rw [selectMinimal, List.foldl_append]
  rfl

/-- What is kept of a list is a part of the list in its order. -/
theorem sublist_selectMinimal (ps : List Partition) : (selectMinimal ps).Sublist ps := by
  induction ps using List.reverseRecOn with
  | nil => exact List.Sublist.slnil
  | append_singleton ps p ih =>
      rw [selectMinimal_concat]
      split
      · exact ih.trans (List.sublist_append_left ps [p])
      · exact ih.append_right [p]

/-- Everything is above the finest partition. -/
theorem staysBelow_finest (n : ℕ) (ps : List Partition) (joined : Partition) :
    staysBelow (Partition.finest n) ps joined = true := by
  have hrefines (p : Partition) : (Partition.finest n).refines p = true := by
    rw [(Partition.valid_finest n).refines_iff, Partition.setoid_finest]
    exact bot_le
  induction ps with
  | nil => rfl
  | cons p ps ih => rw [staysBelow, if_pos (hrefines p), ih]

namespace Algebra

variable {A : Algebra} {s : Setoid ℕ} {R : ℕ → ℕ → Prop} {p q : Partition}

/-! ### Relations and partitions -/

open Classical in
/-- Every equivalence relation inside the universe is that of a partition: its pairs are merged. -/
theorem exists_partition {n : ℕ} (hs : Within n s) :
    ∃ p : Partition, p.Valid ∧ p.size = n ∧ p.setoid = s := by
  have hfinest := Partition.valid_finest n
  have hrange : ∀ x ∈ ((List.range n).product (List.range n)).filter (fun x => s x.1 x.2),
      x.1 < (Partition.finest n).size ∧ x.2 < (Partition.finest n).size := by
    intro x hx
    rw [List.mem_filter, List.pair_mem_product, List.mem_range, List.mem_range] at hx
    simpa using hx.1
  obtain ⟨hvalid, hsize⟩ := hfinest.foldl_relate hrange
  obtain ⟨⟨-, hrel⟩, hleast⟩ := hfinest.isLeast_foldl_relate hrange
  refine ⟨_, hvalid, hsize.trans (Partition.size_finest n), le_antisymm ?_ ?_⟩
  · refine hleast ⟨?_, fun x hx => by simpa using (List.mem_filter.1 hx).2⟩
    rw [Partition.setoid_finest]
    exact bot_le
  · intro x y hxy
    by_cases hne : x = y
    · rw [hne]
    · obtain ⟨hx, hy⟩ := hs x y hxy hne
      refine hrel (x, y) (List.mem_filter.2 ⟨?_, by simpa using hxy⟩)
      exact List.pair_mem_product.2 ⟨List.mem_range.2 hx, List.mem_range.2 hy⟩

/-- Every compatible equivalence relation inside the universe is that of a congruence. -/
theorem exists_isCongruence (hs : A.Compatible s) (hwithin : Within A.size s) :
    ∃ γ : A.Congruence, γ.partition.setoid = s := by
  obtain ⟨p, hvalid, hsize, rfl⟩ := exists_partition hwithin
  exact ⟨⟨p, hvalid, hsize, hs⟩, rfl⟩

namespace Congruence

variable {beta γ δ : A.Congruence}

theorem within (γ : A.Congruence) : Within A.size γ.partition.setoid :=
  within_setoid γ.isCongruence.valid γ.isCongruence.size_eq

theorem setoid_inf (γ δ : A.Congruence) :
    (γ.partition.inf δ.partition).setoid = γ.partition.setoid ⊓ δ.partition.setoid :=
  γ.isCongruence.valid.setoid_inf

/-- Two congruences have a meet, the meet of the partitions. -/
instance : Lattice A.Congruence where
  inf γ δ := ⟨γ.partition.inf δ.partition, γ.isCongruence.inf δ.isCongruence⟩
  inf_le_left γ δ := by
    rw [le_iff, setoid_inf]
    exact inf_le_left
  inf_le_right γ δ := by
    rw [le_iff, setoid_inf]
    exact inf_le_right
  le_inf γ δ ε hδ hε := by
    rw [le_iff, setoid_inf]
    exact le_inf hδ hε

@[simp] theorem partition_inf (γ δ : A.Congruence) :
    (γ ⊓ δ).partition = γ.partition.inf δ.partition := rfl

theorem partition_eq_finest_iff : γ.partition = Partition.finest A.size ↔ γ = ⊥ :=
  ⟨fun h => Congruence.ext h, congrArg partition⟩

/-- Two congruences meet in the least one if no two elements are related by both. -/
theorem inf_eq_bot (h : ∀ i < A.size, ∀ j < A.size, γ.partition.rep i = γ.partition.rep j →
    δ.partition.rep i = δ.partition.rep j → i = j) : γ ⊓ δ = ⊥ := by
  refine le_bot_iff.1 (le_iff.2 fun {i j} hij => ?_)
  have hboth : γ.partition.setoid i j ∧ δ.partition.setoid i j :=
    ⟨le_iff.1 inf_le_left hij, le_iff.1 inf_le_right hij⟩
  rw [Partition.setoid_iff, Partition.setoid_iff] at hboth
  by_cases hne : i = j
  · rw [hne]
  · obtain ⟨hi, hj⟩ := (γ ⊓ δ).within i j hij hne
    exact absurd (h i hi j hj hboth.1 hboth.2) hne

/-- What is least among the congruences that relate some pairs is the least congruence: a compatible
relation may be restricted to the universe. -/
theorem isLeastCongruence (h : IsLeast {γ : A.Congruence | ∀ x y, R x y → γ.partition.setoid x y} δ) :
    A.IsLeastCongruence R δ.partition := by
  refine ⟨δ.isCongruence.valid, δ.isCongruence.size_eq, ⟨δ.isCongruence.compatible, h.1⟩, ?_⟩
  rintro t ⟨ht, hR⟩
  obtain ⟨γ, hγ⟩ := exists_isCongruence (ht.inf δ.isCongruence.compatible) fun x y hxy hne =>
    δ.within x y hxy.2 hne
  have hle : δ ≤ γ := h.2 fun x y hxy => by
    rw [hγ]
    exact ⟨hR x y hxy, h.1 x y hxy⟩
  intro x y hxy
  have hboth := le_iff.1 hle hxy
  rw [hγ] at hboth
  exact hboth.1

/-- The join is the least congruence above the two. -/
theorem isLeastCongruence_sup (γ δ : A.Congruence) :
    A.IsLeastCongruence (fun x y => γ.partition.setoid x y ∨ δ.partition.setoid x y)
      (γ ⊔ δ).partition := by
  refine isLeastCongruence ⟨?_, ?_⟩
  · rintro x y (h | h)
    · exact le_iff.1 le_sup_left h
    · exact le_iff.1 le_sup_right h
  · intro ε hε
    refine sup_le (le_iff.2 ?_) (le_iff.2 ?_)
    · exact fun {x y} h => hε x y (Or.inl h)
    · exact fun {x y} h => hε x y (Or.inr h)

/-- Every set of congruences has a join, since there are finitely many. -/
theorem exists_isLUB (S : Set A.Congruence) : ∃ δ, IsLUB S δ := by
  classical
  cases nonempty_fintype A.Congruence
  refine ⟨(Finset.univ.filter (· ∈ S)).sup id, ?_, ?_⟩
  · intro γ hγ
    exact Finset.le_sup (f := id) (Finset.mem_filter.2 ⟨Finset.mem_univ γ, hγ⟩)
  · intro ε hε
    exact Finset.sup_le fun γ hγ => hε (Finset.mem_filter.1 hγ).2

/-- The join of some congruences is the least congruence that relates what one of them relates. -/
theorem isLeastCongruence_of_isLUB {S : Set A.Congruence} (h : IsLUB S δ) :
    A.IsLeastCongruence (fun x y => ∃ γ ∈ S, γ.partition.setoid x y) δ.partition := by
  refine isLeastCongruence ⟨?_, ?_⟩
  · rintro x y ⟨γ, hγ, hxy⟩
    exact le_iff.1 (h.1 hγ) hxy
  · intro ε hε
    refine h.2 fun γ hγ => le_iff.2 ?_
    exact fun {x y} hxy => hε x y ⟨γ, hγ, hxy⟩

/-! ### Joins over lists -/

/-- The test for join primeness looks at the join of those members of a list that are not above a
partition. -/
theorem staysBelow_iff (hp : p.Valid) {ps : List Partition} (hps : ∀ q ∈ ps, A.IsCongruence q)
    {joined : A.Congruence} (hnot : ¬ p.setoid ≤ joined.partition.setoid)
    (hδ : IsLeast (AboveListed partition (fun γ => ¬ p.setoid ≤ γ.partition.setoid) ps joined) δ) :
    staysBelow p ps joined.partition = true ↔ ¬ p.setoid ≤ δ.partition.setoid := by
  induction ps generalizing joined with
  | nil =>
      obtain rfl : joined = δ := isLeast_aboveListed_nil.unique hδ
      exact iff_of_true rfl hnot
  | cons q ps ih =>
      obtain ⟨γ, rfl⟩ : ∃ γ : A.Congruence, γ.partition = q :=
        ⟨⟨q, hps q List.mem_cons_self⟩, rfl⟩
      have hrest : ∀ r ∈ ps, A.IsCongruence r := fun r hr => hps r (List.mem_cons_of_mem _ hr)
      rw [staysBelow]
      by_cases habove : p.setoid ≤ γ.partition.setoid
      · rw [if_pos (hp.refines_iff.2 habove)]
        rw [aboveListed_cons_of_neg partition_injective (not_not.2 habove)] at hδ
        exact ih hrest hnot hδ
      · rw [if_neg (mt hp.refines_iff.1 habove), ← partition_sup]
        rw [aboveListed_cons_of_pos partition_injective habove] at hδ
        by_cases hreached : p.setoid ≤ (joined ⊔ γ).partition.setoid
        · rw [if_pos (hp.refines_iff.2 hreached)]
          exact iff_of_false Bool.false_ne_true fun h => h (hreached.trans (le_iff.1 hδ.1.1))
        · rw [if_neg (mt hp.refines_iff.1 hreached)]
          exact ih hrest hreached hδ

end Congruence

/-- What the search for covers finds is the join with some member of the list. -/
theorem exists_of_mem_coversAmong {ps : List Partition} (hq : q ∈ coversAmong ps p) :
    ∃ g ∈ ps, q = p.sup g := by
  have hmem : q ∈ properJoins p ps := by
    have h := (sublist_selectMinimal _).mem hq
    rwa [mem_dropRepeats, Partition.mem_sortByRank] at h
  obtain ⟨g, hg, rfl⟩ := List.mem_map.1 hmem
  exact ⟨g, (List.mem_filter.1 hg).1, rfl⟩

/-! ### Pairs to be joined -/

/-- Some congruence strictly below a partition relates the pair. -/
def StrictlyBelow (A : Algebra) (p : Partition) (x y : ℕ) : Prop :=
  ∃ q, A.IsCongruence q ∧ q.refines p = true ∧ q ≠ p ∧ q.setoid x y

/-- Some congruence that is not above a partition relates the pair. -/
def NotAbove (A : Algebra) (p : Partition) (x y : ℕ) : Prop :=
  ∃ q, A.IsCongruence q ∧ p.refines q = false ∧ q.setoid x y

/-- An irreducible congruence is listed with the join of the principal ones strictly below it. -/
theorem pair_mem_irreducibles {beta lower : Partition} :
    (beta, lower) ∈ A.irreducibles ↔ beta ∈ A.principals.elements ∧ lower ≠ beta ∧
      joinBelow beta A.principals.elements (Partition.finest A.size) = lower := by
  simp only [irreducibles, selectIrreducibles, List.mem_filterMap]
  constructor
  · rintro ⟨p, hp, hentry⟩
    split at hentry
    · next hne =>
        obtain ⟨rfl, rfl⟩ := Prod.mk.inj (Option.some_inj.1 hentry)
        exact ⟨hp, hne, rfl⟩
    · cases hentry
  · rintro ⟨hbeta, hne, rfl⟩
    exact ⟨beta, hbeta, if_pos hne⟩

/-- The lower cover of an irreducible congruence is the least congruence above all those strictly
below it, though only principal ones were joined. -/
theorem isLeastCongruence_joinBelow (hA : A.Total) (beta : A.Congruence) :
    A.IsLeastCongruence (A.StrictlyBelow beta.partition)
      (joinBelow beta.partition A.principals.elements (Partition.finest A.size)) := by
  obtain ⟨δ, hδ, hlub⟩ := Congruence.isLUB_joinBelow hA beta
  rw [hδ]
  refine Congruence.isLeastCongruence ⟨?_, ?_⟩
  · rintro x y ⟨q, hq, hrefines, hne, hxy⟩
    obtain ⟨γ, rfl⟩ : ∃ γ : A.Congruence, γ.partition = q := ⟨⟨q, hq⟩, rfl⟩
    have hlt : γ < beta := (Congruence.refines_and_ne_iff γ beta).1 ⟨hrefines, hne⟩
    have hle : γ ≤ δ := (Congruence.generates_principals hA).le_of_lt hlub.1 hlt
    exact Congruence.le_iff.1 hle hxy
  · intro ε hε
    refine hlub.2 fun γ hγ => Congruence.le_iff.2 ?_
    obtain ⟨hrefines, hne⟩ := (Congruence.refines_and_ne_iff γ beta).2 hγ.2
    exact fun {x y} hxy => hε x y ⟨γ.partition, γ.isCongruence, hrefines, hne, hxy⟩

/-- The test for join primeness looks at the least congruence above all those that are not above a
partition, though only irreducible ones are joined. -/
theorem staysBelow_irreducibles (hA : A.Total) (hp : p.Valid) (hsize : p.size = A.size) :
    ∃ θ, A.IsLeastCongruence (A.NotAbove p) θ ∧
      staysBelow p (A.irreducibles.map (·.1)) (Partition.finest A.size)
        = (p == Partition.finest A.size || !p.refines θ) := by
  obtain ⟨δ, hδ⟩ := Congruence.exists_isLUB {γ : A.Congruence | ¬ p.setoid ≤ γ.partition.setoid}
  have hleast := Congruence.isLeastCongruence_of_isLUB hδ
  have hrel : A.NotAbove p = fun x y => ∃ γ ∈ {γ : A.Congruence | ¬ p.setoid ≤ γ.partition.setoid},
      γ.partition.setoid x y := by
    funext x y
    refine propext ⟨?_, ?_⟩
    · rintro ⟨q, hq, hrefines, hxy⟩
      exact ⟨⟨q, hq⟩, hp.refines_eq_false_iff.1 hrefines, hxy⟩
    · rintro ⟨γ, hγ, hxy⟩
      exact ⟨γ.partition, γ.isCongruence, hp.refines_eq_false_iff.2 hγ, hxy⟩
  refine ⟨δ.partition, hrel ▸ hleast, ?_⟩
  by_cases hfinest : p = Partition.finest A.size
  · rw [hfinest, staysBelow_finest, beq_self_eq_true, Bool.true_or]
  · have hnot : ¬ p.setoid ≤ (⊥ : A.Congruence).partition.setoid := by
      intro hle
      refine hfinest (hp.ext (Partition.valid_finest _) (by rw [hsize, Partition.size_finest]) ?_)
      change p.setoid ≤ (Partition.finest A.size).setoid at hle
      rw [Partition.setoid_finest] at hle ⊢
      exact le_bot_iff.1 hle
    rw [beq_eq_false_iff_ne.2 hfinest, Bool.false_or, Bool.eq_iff_iff, Bool.not_eq_true',
      hp.refines_eq_false_iff]
    refine Congruence.staysBelow_iff hp (fun q => isCongruence_of_mem_irreducibles hA) hnot
      ⟨⟨bot_le, fun γ _ hγ => hδ.1 hγ⟩, fun ε hε => hδ.2 fun γ hγ => ?_⟩
    -- what is not above the partition is the join of irreducible ones that are not above it
    refine Congruence.generates_irreducibles hA γ ε fun g hg hgγ => hε.2 g hg fun hle => ?_
    exact hγ (hle.trans (Congruence.le_iff.1 hgγ))

/-- A congruence other than the greatest has two blocks. -/
theorem Congruence.exists_representatives (hA : A.Total) {γ : A.Congruence}
    (hne : γ.partition ≠ Partition.coarsest A.size) :
    ∃ r s rest, γ.partition.representatives = r :: s :: rest ∧ r < A.size ∧ s < A.size := by
  have hvalid := γ.isCongruence.valid
  have hsize := γ.isCongruence.size_eq
  have hlt : ∀ r ∈ γ.partition.representatives, r < A.size := fun r hr =>
    hsize ▸ (Partition.mem_representatives.1 hr).1
  have hmem {x : ℕ} (hx : x < γ.partition.size) :
      γ.partition.rep x ∈ γ.partition.representatives :=
    Partition.mem_representatives.2 ⟨hvalid.rep_lt hx, hvalid.rep_rep_eq x⟩
  have hzero : 0 ∈ γ.partition.representatives := by
    have h := hmem (hsize ▸ hA.size_pos)
    rwa [Nat.le_zero.1 (hvalid.le 0)] at h
  cases hreps : γ.partition.representatives with
  | nil =>
      rw [hreps] at hzero
      cases hzero
  | cons r rest =>
      cases rest with
      | nil =>
          simp only [hreps, List.mem_singleton] at hmem hzero
          refine absurd ?_ hne
          rw [← hsize]
          exact hvalid.eq_coarsest fun x hx => (hmem hx).trans hzero.symm
      | cons s rest =>
          rw [hreps] at hlt
          exact ⟨r, s, rest, rfl, hlt r (by simp), hlt s (by simp)⟩

end Algebra

namespace CongruenceLattice

open Query

variable {A : Algebra} {settings : Settings}

/-! ### The chain of principal congruences -/

/-- The second congruence is the least one above the first that relates the two least elements of
different blocks. -/
def Adjoined (A : Algebra) (p q : Partition) : Prop :=
  ∃ r s rest, p.representatives = r :: s :: rest ∧
    A.IsLeastCongruence (fun x y => p.setoid x y ∨ (x = r ∧ y = s)) q

/-- Joining a principal congruence adjoins its pair. -/
theorem adjoined_sup_cg (hA : A.Total) (γ : A.Congruence) {r s : ℕ} {rest : List ℕ}
    (hreps : γ.partition.representatives = r :: s :: rest) (hr : r < A.size) (hs : s < A.size) :
    Adjoined A γ.partition (γ ⊔ Algebra.Congruence.cg hA hr hs).partition := by
  refine ⟨r, s, rest, hreps, Algebra.Congruence.isLeastCongruence ⟨?_, ?_⟩⟩
  · rintro x y (h | h)
    · exact Algebra.Congruence.le_iff.1 le_sup_left h
    · exact Algebra.Congruence.le_iff.1 le_sup_right ((hA.isLeastCongruence_cg hr hs).rel h)
  · intro ε hε
    refine sup_le (Algebra.Congruence.le_iff.2 ?_) (Algebra.Congruence.cg_le hA hr hs ?_)
    · exact fun {x y} h => hε x y (Or.inl h)
    · exact hε r s (Or.inr ⟨rfl, rfl⟩)

/-- Each step of the chain adjoins a pair, and none fails. -/
theorem yields_chainFrom (hA : A.Total) (settings : Settings) (fuel : ℕ) (γ : A.Congruence) :
    ∃ chain, Yields (Sound A settings) (chainFrom fuel γ.partition) (.ok (γ.partition :: chain)) ∧
      (∀ p ∈ γ.partition :: chain, A.IsCongruence p) ∧
      (γ.partition :: chain).IsChain (Adjoined A) := by
  induction fuel generalizing γ with
  | zero => exact ⟨[], Yields.pure _, by simpa using γ.isCongruence, List.isChain_singleton _⟩
  | succ fuel ih =>
      by_cases hone : γ.partition = Partition.coarsest A.size
      · refine ⟨[], Yields.get_bind fun L hL => ?_, by simpa using γ.isCongruence,
          List.isChain_singleton _⟩
        rw [one, hL.algebra_eq, if_pos hone]
        exact Yields.pure _
      · obtain ⟨r, s, rest, hreps, hr, hs⟩ := Algebra.Congruence.exists_representatives hA hone
        obtain ⟨chain, hyields, hcongruence, hchain⟩ := ih (γ ⊔ Algebra.Congruence.cg hA hr hs)
        refine ⟨(γ ⊔ Algebra.Congruence.cg hA hr hs).partition :: chain,
          Yields.get_bind fun L hL => ?_, ?_, ?_⟩
        · rw [one, hL.algebra_eq, if_neg hone, hreps]
          exact Yields.bind (yields_cg hA hr hs) (Yields.bind hyields (Yields.pure _))
        · exact List.forall_mem_cons.2 ⟨γ.isCongruence, hcongruence⟩
        · exact List.isChain_cons_cons.2 ⟨adjoined_sup_cg hA γ hreps hr hs, hchain⟩

theorem yields_principalChain (hA : A.Total) (settings : Settings) :
    ∃ chain, Yields (Sound A settings) principalChain (.ok (Partition.finest A.size :: chain)) ∧
      (∀ p ∈ chain, A.IsCongruence p) ∧ (Partition.finest A.size :: chain).IsChain (Adjoined A) := by
  obtain ⟨chain, hyields, hcongruence, hchain⟩ :=
    yields_chainFrom hA settings A.size (⊥ : A.Congruence)
  refine ⟨chain, Yields.get_bind fun L hL => ?_, fun p hp => hcongruence p (by simp [hp]), hchain⟩
  rw [hL.zero_eq, hL.algebra_eq]
  exact hyields

/-- The test for join primeness joins irreducible congruences. -/
theorem yields_staysBelow (hA : A.Total) {p : Partition} (hsize : p.size = A.size) :
    Yields (Sound A settings) (joinPrime p)
      (.ok (staysBelow p (A.irreducibles.map (·.1)) (Partition.finest A.size))) := by
  refine Yields.get_bind fun L hL => ?_
  rw [checkPartition, hL.algebra_eq, if_pos hsize]
  refine Yields.bind (Yields.lift (.ok ())) (Yields.bind (yields_irreducibleList hA) ?_)
  refine Yields.get_bind fun L hL => ?_
  rw [hL.zero_eq]
  exact Yields.pure _

/-- Join primeness is decided by the least congruence above the irreducible ones not above the
partition. -/
theorem yields_joinPrime (hA : A.Total) {p : Partition} (hp : p.Valid) (hsize : p.size = A.size) :
    ∃ θ, A.IsLeastCongruence (A.NotAbove p) θ ∧ ∀ settings, Yields (Sound A settings) (joinPrime p)
      (.ok (p == Partition.finest A.size || !p.refines θ)) := by
  obtain ⟨θ, hθ, hanswer⟩ := Algebra.staysBelow_irreducibles hA hp hsize
  exact ⟨θ, hθ, fun settings => hanswer ▸ yields_staysBelow hA hsize⟩

/-! ### Closed joins -/

/-- Closing a congruence gives it back. -/
theorem cgPartition_of_isCongruence (hA : A.Total) {p : Partition} (hp : A.IsCongruence p)
    {L : CongruenceLattice} (hL : L.algebra = A) :
    L.cgPartition p = .ok p ∧ L.isCongruence p = .ok true := by
  subst hL
  have hclosed := cgPartition_eq hA hp.valid hp.size_eq hp.isLeastCongruence
  refine ⟨hclosed, ?_⟩
  rw [isCongruence, hclosed]
  exact congrArg Except.ok (beq_self_eq_true p)

/-- The join of two congruences as partitions is the least congruence above both, and so closed; their
meet is a congruence too. -/
theorem join_spec (hA : A.Total) {p q : Partition} (hp : A.IsCongruence p) (hq : A.IsCongruence q) :
    ∃ join, p.join q = .ok join ∧ join.setoid = p.setoid ⊔ q.setoid ∧
      A.IsLeastCongruence (fun x y => p.setoid x y ∨ q.setoid x y) join ∧
      ∀ L : CongruenceLattice, L.algebra = A →
        L.cgPartition join = .ok join ∧ L.isCongruence join = .ok true := by
  have hsize : p.size = q.size := hp.size_eq.trans hq.size_eq.symm
  refine ⟨p.sup q, ?_, hp.valid.setoid_sup hq.valid hsize, ?_, fun L hL => ?_⟩
  · rw [Partition.join, Partition.checkSize, if_pos hsize]
    rfl
  · exact Algebra.Congruence.isLeastCongruence_sup ⟨p, hp⟩ ⟨q, hq⟩
  · exact cgPartition_of_isCongruence hA (hp.sup hq) hL

/-- Whatever the cap, congruences are listed. -/
theorem exists_congruences (hA : A.Total) (cap : ℕ) {L : CongruenceLattice}
    (hL : Coherent A settings L) :
    ∃ found capped L', congruences cap L = .ok (found, capped) L' ∧
      ∀ p ∈ found, A.IsCongruence p := by
  by_cases havailable : Available complete A.congruences cap L
  · obtain ⟨L', hrun, -, -⟩ := (lists_congruences hA cap).whole hL havailable
    exact ⟨_, _, L', hrun, fun p => Algebra.mem_congruences.1⟩
  · obtain ⟨found, L', hrun, -, -, hmem, -, -⟩ := (lists_congruences hA cap).cutOff hL havailable
    exact ⟨_, _, L', hrun, fun p hp => Algebra.mem_congruences.1 (hmem p hp)⟩

/-- **Joins of congruences need no closure.**  The join and the meet of two congruences as partitions
are congruences, the join is the least congruence above both, and closing it gives it back.  In every
reachable lattice, whatever was asked before:

* each irreducible congruence is listed with the least congruence above all those strictly below it;
* the covers of a congruence are least congruences above it and some other congruence;
* the list of congruences up to a cap has congruences only;
* the test for join primeness compares a partition other than the finest with the least congruence
  above all those that are not above it;
* the chain of principal congruences starts with the least one, and each step leads to the least
  congruence with one more pair. -/
theorem joins_need_no_closure (hA : A.Total) :
    (∀ p q, A.IsCongruence p → A.IsCongruence q →
      (∃ join, p.join q = .ok join ∧ join.setoid = p.setoid ⊔ q.setoid ∧
        A.IsLeastCongruence (fun x y => p.setoid x y ∨ q.setoid x y) join ∧
        ∀ L : CongruenceLattice, L.algebra = A →
          L.cgPartition join = .ok join ∧ L.isCongruence join = .ok true) ∧
      ∃ meet, p.meet q = .ok meet ∧ meet.setoid = p.setoid ⊓ q.setoid ∧ A.IsCongruence meet) ∧
    ∀ settings L, Reachable A settings L →
      (∃ entries, irreducibleData.result L = .ok entries ∧
        ∀ beta lower, (beta, lower) ∈ entries →
          A.IsCongruence beta ∧ A.IsLeastCongruence (A.StrictlyBelow beta) lower) ∧
      (∀ p, A.IsCongruence p → ∃ covers, (upperCovers p).result L = .ok covers ∧
        ∀ cover ∈ covers, ∃ g, A.IsCongruence g ∧
          A.IsLeastCongruence (fun x y => p.setoid x y ∨ g.setoid x y) cover) ∧
      (∀ cap, ∃ found capped, (congruences cap).result L = .ok (found, capped) ∧
        ∀ p ∈ found, A.IsCongruence p) ∧
      (∀ p : Partition, p.Valid → p.size = A.size → ∃ θ, A.IsLeastCongruence (A.NotAbove p) θ ∧
        (joinPrime p).result L = .ok (p == Partition.finest A.size || !p.refines θ)) ∧
      ∃ chain, principalChain.result L = .ok (Partition.finest A.size :: chain) ∧
        (∀ p ∈ chain, A.IsCongruence p) ∧
        (Partition.finest A.size :: chain).IsChain (Adjoined A) := by
  refine ⟨fun p q hp hq => ⟨join_spec hA hp hq, p.inf q, ?_, hp.valid.setoid_inf, hp.inf hq⟩, ?_⟩
  · rw [Partition.meet, Partition.checkSize, if_pos (hp.size_eq.trans hq.size_eq.symm)]
    rfl
  intro settings L hL
  have hcoherent := hL.coherent hA
  have hsound := hL.sound hA
  refine ⟨⟨_, (yields_irreducibleData hA).result_eq hsound, ?_⟩, ?_, ?_, ?_, ?_⟩
  · intro beta lower hmem
    obtain ⟨hbeta, -, rfl⟩ := Algebra.pair_mem_irreducibles.1 hmem
    have hcongruence := Algebra.isCongruence_of_mem_principals hA hbeta
    exact ⟨hcongruence, Algebra.isLeastCongruence_joinBelow hA ⟨beta, hcongruence⟩⟩
  · intro p hp
    refine ⟨_, (yields_upperCovers hA hp).result_eq hcoherent, fun cover hcover => ?_⟩
    obtain ⟨g, hg, rfl⟩ := Algebra.exists_of_mem_coversAmong hcover
    have hcongruence := Algebra.isCongruence_of_mem_irreducibles hA hg
    exact ⟨g, hcongruence, Algebra.Congruence.isLeastCongruence_sup ⟨p, hp⟩ ⟨g, hcongruence⟩⟩
  · intro cap
    obtain ⟨found, capped, L', hrun, hmem⟩ := exists_congruences hA cap hcoherent
    exact ⟨found, capped, by rw [result, hrun], hmem⟩
  · intro p hp hsize
    obtain ⟨θ, hθ, hyields⟩ := yields_joinPrime hA hp hsize
    exact ⟨θ, hθ, (hyields settings).result_eq hsound⟩
  · obtain ⟨chain, hyields, hchain⟩ := yields_principalChain hA settings
    exact ⟨chain, hyields.result_eq hsound, hchain⟩

/-- In the pairs of bits the two congruences that forget one bit have the greatest congruence as their
join, and closing it gives it back.  Whether the first of them is join prime is decided by the least
congruence above all those that are not above it, also after a list of congruences was cut off. -/
theorem join_bitPairs :
    (⟨#[0, 0, 2, 2], 2⟩ : Partition).join ⟨#[0, 1, 0, 1], 2⟩ = .ok (Partition.coarsest 4) ∧
      (start Algebra.bitPairs .standard).cgPartition (Partition.coarsest 4)
        = .ok (Partition.coarsest 4) ∧
      ∃ θ, Algebra.bitPairs.IsLeastCongruence (Algebra.bitPairs.NotAbove ⟨#[0, 0, 2, 2], 2⟩) θ ∧
        (joinPrime ⟨#[0, 0, 2, 2], 2⟩).result
            ((congruences 1).after (start Algebra.bitPairs .standard))
          = .ok (!Partition.refines ⟨#[0, 0, 2, 2], 2⟩ θ) := by
  obtain ⟨hfirst, -, hsecond⟩ := Algebra.Congruence.cg_bitPairs
  have hp : Algebra.bitPairs.IsCongruence ⟨#[0, 0, 2, 2], 2⟩ := by
    rw [← hfirst]
    exact Algebra.isCongruence_cg Algebra.total_bitPairs (by decide) (by decide)
  have hq : Algebra.bitPairs.IsCongruence ⟨#[0, 1, 0, 1], 2⟩ := by
    rw [← hsecond]
    exact Algebra.isCongruence_cg Algebra.total_bitPairs (by decide) (by decide)
  obtain ⟨hjoins, hqueries⟩ := joins_need_no_closure Algebra.total_bitPairs
  obtain ⟨⟨join, hjoin, -, -, hclosed⟩, -⟩ := hjoins _ _ hp hq
  have hrun : (⟨#[0, 0, 2, 2], 2⟩ : Partition).join ⟨#[0, 1, 0, 1], 2⟩
      = .ok (Partition.coarsest 4) := by cbv
  obtain rfl : join = Partition.coarsest 4 := Except.ok.inj (hjoin.symm.trans hrun)
  obtain ⟨-, -, -, hprime, -⟩ := hqueries .standard _ (.query (.congruences 1) .start)
  obtain ⟨θ, hθ, hanswer⟩ := hprime _ hp.valid hp.size_eq
  have hne : ((⟨#[0, 0, 2, 2], 2⟩ : Partition) == Partition.finest Algebra.bitPairs.size) = false := by
    decide
  rw [hne, Bool.false_or] at hanswer
  exact ⟨hrun, (hclosed _ rfl).1, θ, hθ, hanswer⟩

end CongruenceLattice

end UniversalAlgebra
