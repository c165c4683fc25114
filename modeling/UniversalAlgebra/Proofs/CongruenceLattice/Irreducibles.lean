/-
**Principal and irreducible congruences.**

A congruence with exactly one lower cover is generated by any pair that the cover does not relate:
what the pair generates would lie below the cover otherwise.  So it is in the list of principal
congruences, and the join of those strictly below it is the cover, which is what the list of
irreducible congruences has for it.

Main definitions:

* `Algebra.Congruence` — the congruences of an algebra, ordered by inclusion.

Main results:

* `Algebra.mem_principals`, `Algebra.exists_principalPair` — the principal congruences are listed,
  each with a pair that generates it;
* `Algebra.Congruence.setoid_iff_lower` — what is above the cover but not above the congruence
  relates no more of its pairs;
* `Algebra.Congruence.isLUB_joinBelow` — the join of the principal congruences strictly below is the
  least congruence above all that lie strictly below;
* `Algebra.Congruence.lookup_irreducibles` — **the lower cover is found**;
* `CongruenceLattice.yields_lowerStar`, `CongruenceLattice.yields_generatingPair` — in every state of
  a lattice.
-/

import Mathlib
import UniversalAlgebra.Proofs.CongruenceLattice.Reachable
import UniversalAlgebra.Proofs.LowerCovers

set_option autoImplicit false

namespace UniversalAlgebra

/-! ### Lists with first pairs -/

namespace Principals

variable {entries : List (Partition × (ℕ × ℕ))}

/-- The pair kept for a congruence is the first it is listed with. -/
theorem getElem?_firstPairs (entries : List (Partition × (ℕ × ℕ))) (p : Partition) :
    (firstPairs entries)[p]? = entries.lookup p := by
  have go (known : Std.HashMap Partition (ℕ × ℕ)) :
      (entries.foldl (fun pairs entry => pairs.insertIfNew entry.1 entry.2) known)[p]?
        = known[p]?.or (entries.lookup p) := by
    induction entries generalizing known with
    | nil => simp
    | cons entry entries ih =>
        rw [List.foldl_cons, ih, Std.HashMap.getElem?_insertIfNew, List.lookup_cons]
        by_cases hkey : entry.1 = p
        · subst hkey
          by_cases hknown : entry.1 ∈ known
          · obtain ⟨pair, hpair⟩ := Option.isSome_iff_exists.1
              (Std.HashMap.mem_iff_isSome_getElem?.1 hknown)
            rw [if_neg fun h => h.2 hknown, hpair, Option.some_or, Option.some_or]
          · rw [if_pos ⟨BEq.rfl, hknown⟩, Std.HashMap.getElem?_eq_none hknown, BEq.rfl,
              Option.some_or, Option.none_or]
        · have hkey' : (p == entry.1) = false := beq_eq_false_iff_ne.2 (Ne.symm hkey)
          rw [if_neg fun h => hkey (eq_of_beq h.1), hkey']
  have h := go ∅
  rwa [Std.HashMap.getElem?_empty, Option.none_or] at h

/-- What is listed with some pair has a first pair. -/
theorem exists_lookup {p : Partition} {pair : ℕ × ℕ} (hmem : (p, pair) ∈ entries) :
    ∃ first, entries.lookup p = some first ∧ (p, first) ∈ entries := by
  cases hfirst : entries.lookup p with
  | none =>
      rw [List.lookup_eq_none_iff] at hfirst
      simpa using hfirst _ hmem
  | some first =>
      obtain ⟨before, after, rfl, -⟩ := List.lookup_eq_some_iff.1 hfirst
      exact ⟨first, rfl, by simp⟩

/-- Every congruence of the list is kept, and no other. -/
theorem mem_elements_ofEntries {p : Partition} :
    p ∈ (ofEntries entries).elements ↔ ∃ pair, (p, pair) ∈ entries := by
  have hsort : p ∈ (ofEntries entries).elements ↔
      ∃ pair, (p, pair) ∈ entries ∧ entries.lookup p = some pair := by
    simp [ofEntries, Partition.sortByRank, getElem?_firstPairs]
  rw [hsort]
  constructor
  · rintro ⟨pair, hmem, -⟩
    exact ⟨pair, hmem⟩
  · rintro ⟨pair, hmem⟩
    obtain ⟨first, hfirst, hlisted⟩ := exists_lookup hmem
    exact ⟨first, hlisted, hfirst⟩

/-- It is kept with one of the pairs it is listed with. -/
theorem exists_pair {p : Partition} (hp : p ∈ (ofEntries entries).elements) :
    ∃ pair, (ofEntries entries).pairs[p]? = some pair ∧ (p, pair) ∈ entries := by
  obtain ⟨pair, hmem⟩ := mem_elements_ofEntries.1 hp
  obtain ⟨first, hfirst, hlisted⟩ := exists_lookup hmem
  exact ⟨first, (getElem?_firstPairs entries p).trans hfirst, hlisted⟩

/-- Without repeated entries each congruence is kept once, and strictly in rank order if the order
tells the congruences apart. -/
theorem pairwise_elements_ofEntries (hnodup : entries.Nodup)
    (hkey : ∀ entry ∈ entries, ∀ entry' ∈ entries, entry.1.rankKey = entry'.1.rankKey →
      entry.1 = entry'.1) :
    (ofEntries entries).elements.Pairwise fun p q => p.rankLess q = true := by
  have hfirst : ∀ entry ∈ entries.filter fun entry => (firstPairs entries)[entry.1]? == some entry.2,
      entry ∈ entries ∧ entries.lookup entry.1 = some entry.2 := by
    intro entry hentry
    obtain ⟨hmem, hpair⟩ := List.mem_filter.1 hentry
    rw [← getElem?_firstPairs]
    exact ⟨hmem, eq_of_beq hpair⟩
  refine Partition.orderedBy_rankLess.pairwise_mergeSort ?_ ?_
  · refine (hnodup.filter _).map_on fun entry hentry entry' hentry' heq => Prod.ext heq ?_
    rw [← Option.some_inj, ← (hfirst entry hentry).2, ← (hfirst entry' hentry').2, heq]
  · intro p hp q hq hpq
    obtain ⟨entry, hentry, rfl⟩ := List.mem_map.1 hp
    obtain ⟨entry', hentry', rfl⟩ := List.mem_map.1 hq
    exact hkey entry (hfirst entry hentry).1 entry' (hfirst entry' hentry').1 hpq

end Principals

namespace Algebra

variable {A : Algebra} {p : Partition}

/-- The principal congruences are those generated by two distinct elements. -/
theorem mem_principals (hA : A.Total) :
    p ∈ A.principals.elements ↔ ∃ a b, a < A.size ∧ b < A.size ∧ a ≠ b ∧ p = A.cg a b := by
  rw [principals, Principals.mem_elements_ofEntries]
  simp only [principalEntries, List.mem_map, mem_increasingPairs, Prod.mk.injEq]
  constructor
  · rintro ⟨pair, ⟨a, b⟩, ⟨hab, hb⟩, rfl, -⟩
    exact ⟨a, b, hab.trans hb, hb, Nat.ne_of_lt hab, rfl⟩
  · rintro ⟨a, b, ha, hb, hne, rfl⟩
    rcases Nat.lt_or_gt_of_ne hne with hlt | hlt
    · exact ⟨(a, b), (a, b), ⟨hlt, hb⟩, rfl, rfl⟩
    · exact ⟨(b, a), (b, a), ⟨hlt, ha⟩, hA.cg_comm hb ha, rfl⟩

/-- A principal congruence is kept with a pair that generates it. -/
theorem exists_principalPair (hp : p ∈ A.principals.elements) :
    ∃ a b, a < A.size ∧ b < A.size ∧ A.principals.pairs[p]? = some (a, b) ∧ p = A.cg a b := by
  obtain ⟨⟨a, b⟩, hpair, hmem⟩ := Principals.exists_pair hp
  obtain ⟨q, hq, heq⟩ := List.mem_map.1 hmem
  obtain ⟨hcg, rfl⟩ := Prod.mk.inj heq
  obtain ⟨hab, hb⟩ := mem_increasingPairs.1 hq
  exact ⟨a, b, hab.trans hb, hb, hpair, hcg.symm⟩

theorem isCongruence_cg (hA : A.Total) {a b : ℕ} (ha : a < A.size) (hb : b < A.size) :
    A.IsCongruence (A.cg a b) :=
  (hA.isLeastCongruence_cg ha hb).isCongruence

/-- The principal congruences are listed strictly in rank order. -/
theorem pairwise_principals (hA : A.Total) :
    A.principals.elements.Pairwise fun p q => p.rankLess q = true := by
  refine Principals.pairwise_elements_ofEntries ?_ ?_
  · refine (nodup_increasingPairs A.size).map fun p q hpq => ?_
    exact congrArg Prod.snd hpq
  · have hvalid : ∀ entry ∈ A.principalEntries, entry.1.Valid := by
      intro entry hentry
      obtain ⟨p, hp, rfl⟩ := List.mem_map.1 hentry
      obtain ⟨hlt, hsize⟩ := mem_increasingPairs.1 hp
      exact (isCongruence_cg hA (hlt.trans hsize) hsize).valid
    exact fun entry hentry entry' hentry' h =>
      (hvalid entry hentry).eq_of_rankKey_eq (hvalid entry' hentry') h

/-- What is selected as irreducible are those members of a list that differ from the join of what
lies strictly below them, -/
theorem map_fst_selectIrreducibles (zero : Partition) (ps : List Partition) :
    (selectIrreducibles zero ps).map (·.1) = ps.filter fun p => joinBelow p ps zero != p := by
  rw [selectIrreducibles, List.map_filterMap, ← List.filterMap_eq_filter]
  congr 1
  funext p
  by_cases hp : joinBelow p ps zero = p
  · simp [hp, Option.guard]
  · simp [hp, Option.guard]

/-- each with that join. -/
theorem lookup_selectIrreducibles (zero : Partition) (ps : List Partition) (beta : Partition) :
    (selectIrreducibles zero ps).lookup beta
      = if beta ∈ ps ∧ joinBelow beta ps zero ≠ beta then some (joinBelow beta ps zero) else none := by
  have go (qs : List Partition) (below : Partition → Partition) :
      (qs.filterMap fun q => if below q ≠ q then some (q, below q) else none).lookup beta
        = if beta ∈ qs ∧ below beta ≠ beta then some (below beta) else none := by
    induction qs with
    | nil => simp
    | cons q qs ih =>
        rw [List.filterMap_cons]
        by_cases hq : below q = q
        · have hor : beta ∈ q :: qs ∧ below beta ≠ beta ↔ beta ∈ qs ∧ below beta ≠ beta := by
            simp only [List.mem_cons]
            constructor
            · rintro ⟨rfl | hmem, hne⟩
              · exact absurd hq hne
              · exact ⟨hmem, hne⟩
            · exact fun h => ⟨Or.inr h.1, h.2⟩
          simp only [hq, ne_eq, not_true_eq_false, if_false, ih, hor]
        · simp only [ne_eq, hq, not_false_eq_true, if_true, List.lookup_cons, ih]
          by_cases hbeta : beta = q
          · subst hbeta
            simp [hq]
          · have hbeta' : (beta == q) = false := by simpa using hbeta
            simp [hbeta', hbeta]
  exact go ps fun q => joinBelow q ps zero

theorem isCongruence_of_mem_principals (hA : A.Total) {p : Partition}
    (hp : p ∈ A.principals.elements) : A.IsCongruence p := by
  obtain ⟨a, b, ha, hb, -, rfl⟩ := (mem_principals hA).1 hp
  exact isCongruence_cg hA ha hb

/-! ### The congruences as an order -/

/-- The congruences of an algebra. -/
@[ext] structure Congruence (A : Algebra) where
  /-- The congruence as a partition. -/
  partition : Partition
  isCongruence : A.IsCongruence partition

namespace Congruence

theorem ext_setoid {γ δ : A.Congruence} (h : γ.partition.setoid = δ.partition.setoid) : γ = δ :=
  Congruence.ext (γ.isCongruence.ext δ.isCongruence h)

theorem partition_injective : Function.Injective (partition (A := A)) := fun _ _ => Congruence.ext

/-- One congruence lies below another if the other relates what it relates. -/
instance : PartialOrder A.Congruence :=
  PartialOrder.lift (fun γ => γ.partition.setoid) fun _ _ => ext_setoid

theorem le_iff {γ δ : A.Congruence} : γ ≤ δ ↔ γ.partition.setoid ≤ δ.partition.setoid := Iff.rfl

theorem setoid_sup (γ δ : A.Congruence) :
    (γ.partition.sup δ.partition).setoid = γ.partition.setoid ⊔ δ.partition.setoid :=
  γ.isCongruence.valid.setoid_sup δ.isCongruence.valid
    (γ.isCongruence.size_eq.trans δ.isCongruence.size_eq.symm)

/-- Two congruences have a join, the join of the partitions. -/
instance : SemilatticeSup A.Congruence where
  sup γ δ := ⟨γ.partition.sup δ.partition, γ.isCongruence.sup δ.isCongruence⟩
  le_sup_left γ δ := by
    rw [le_iff, setoid_sup]
    exact le_sup_left
  le_sup_right γ δ := by
    rw [le_iff, setoid_sup]
    exact le_sup_right
  sup_le γ δ ε hγ hδ := by
    rw [le_iff, setoid_sup]
    exact sup_le hγ hδ

@[simp] theorem partition_sup (γ δ : A.Congruence) :
    (γ ⊔ δ).partition = γ.partition.sup δ.partition := rfl

/-- The least congruence relates each element to itself only. -/
instance : OrderBot A.Congruence where
  bot := ⟨Partition.finest A.size, A.isCongruence_finest⟩
  bot_le γ := by
    rw [le_iff, Partition.setoid_finest]
    exact bot_le

/-- The least elements of the blocks, as a map. -/
def repMap (γ : A.Congruence) (i : Fin A.size) : Fin A.size :=
  ⟨γ.partition.rep i, by
    have hi : (i : ℕ) < γ.partition.size := by
      rw [γ.isCongruence.size_eq]
      exact i.2
    have h := γ.isCongruence.valid.rep_lt hi
    rwa [γ.isCongruence.size_eq] at h⟩

/-- A congruence is known by the least elements of its blocks. -/
theorem repMap_injective : Function.Injective (repMap (A := A)) := by
  intro γ δ h
  have hrep (i : ℕ) (hi : i < A.size) : γ.partition.rep i = δ.partition.rep i := by
    have := congrFun h ⟨i, hi⟩
    exact Fin.mk.inj_iff.1 this
  refine le_antisymm ?_ ?_
  · refine γ.isCongruence.valid.setoid_le_iff.2 ?_
    intro i hi
    rw [γ.isCongruence.size_eq] at hi
    rw [hrep i hi]
    exact (δ.isCongruence.valid.rep_rep_eq i).symm
  · refine δ.isCongruence.valid.setoid_le_iff.2 ?_
    intro i hi
    rw [δ.isCongruence.size_eq] at hi
    rw [← hrep i hi]
    exact (γ.isCongruence.valid.rep_rep_eq i).symm

/-- So there are finitely many congruences. -/
instance : Finite A.Congruence := Finite.of_injective repMap repMap_injective

/-- The congruence generated by a pair of elements. -/
def cg (hA : A.Total) {a b : ℕ} (ha : a < A.size) (hb : b < A.size) : A.Congruence :=
  ⟨A.cg a b, isCongruence_cg hA ha hb⟩

theorem cg_le (hA : A.Total) {a b : ℕ} (ha : a < A.size) (hb : b < A.size) {γ : A.Congruence}
    (h : γ.partition.setoid a b) : cg hA ha hb ≤ γ := by
  refine (hA.isLeastCongruence_cg ha hb).le γ.isCongruence.compatible ?_
  rintro x y ⟨rfl, rfl⟩
  exact h

/-- A congruence that does not lie below another one relates two elements that the other does not.
-/
theorem exists_of_not_le {γ δ : A.Congruence} (h : ¬ γ ≤ δ) :
    ∃ a b, a < A.size ∧ b < A.size ∧ a ≠ b ∧ γ.partition.setoid a b ∧ ¬ δ.partition.setoid a b := by
  rw [le_iff, γ.isCongruence.valid.setoid_le_iff] at h
  simp only [not_forall] at h
  obtain ⟨i, hi, hrel⟩ := h
  have hrep : γ.partition.rep i < γ.partition.size := γ.isCongruence.valid.rep_lt hi
  rw [γ.isCongruence.size_eq] at hi hrep
  refine ⟨i, γ.partition.rep i, hi, hrep, ?_, ?_, hrel⟩
  · intro heq
    rw [← heq] at hrel
    exact hrel (Setoid.refl' _ i)
  · exact (γ.isCongruence.valid.rep_rep_eq i).symm

/-- A congruence that is generated by any two distinct elements it relates covers the least one
only. -/
theorem covBy_iff_eq_bot (hA : A.Total) {beta : A.Congruence} (hne : beta ≠ ⊥)
    (h : ∀ a b (ha : a < A.size) (hb : b < A.size), a ≠ b → beta.partition.setoid a b →
      beta ≤ cg hA ha hb) (γ : A.Congruence) : γ ⋖ beta ↔ γ = ⊥ := by
  have hatom : IsAtom beta := by
    refine ⟨hne, ?_⟩
    intro δ hδ
    by_contra hδne
    obtain ⟨a, b, ha, hb, hab, hδab, -⟩ := exists_of_not_le (mt le_bot_iff.1 hδne)
    have hbeta : beta ≤ cg hA ha hb := h a b ha hb hab (le_iff.1 hδ.le hδab)
    exact not_le_of_gt hδ (hbeta.trans (cg_le hA ha hb hδab))
  constructor
  · intro hcover
    exact hatom.lt_iff.1 hcover.lt
  · rintro rfl
    exact bot_covBy_iff.2 hatom

/-- In the residues modulo four zero and two generate the parity. -/
theorem cg_zero_two_residuesModFour : residuesModFour.cg 0 2 = ⟨#[0, 1, 0, 1], 2⟩ := by
  rw [Algebra.cg]
  cbv

/-- So do any two distinct elements of one parity, and it covers the least congruence only. -/
theorem parity_covBy_iff_residuesModFour (h0 : 0 < residuesModFour.size)
    (h2 : 2 < residuesModFour.size) (γ : residuesModFour.Congruence) :
    γ ⋖ cg total_residuesModFour h0 h2 ↔ γ = ⊥ := by
  have hodd : residuesModFour.cg 1 3 = ⟨#[0, 1, 0, 1], 2⟩ := by
    rw [Algebra.cg]
    cbv
  refine covBy_iff_eq_bot total_residuesModFour ?_ ?_ γ
  · intro h
    have hpartition : residuesModFour.cg 0 2 = Partition.finest 4 := congrArg partition h
    rw [cg_zero_two_residuesModFour] at hpartition
    cases hpartition
  · intro a b ha hb hab hrel
    refine le_of_eq (Congruence.ext ?_)
    change residuesModFour.cg 0 2 = residuesModFour.cg a b
    change (residuesModFour.cg 0 2).rep a = (residuesModFour.cg 0 2).rep b at hrel
    rw [cg_zero_two_residuesModFour] at hrel ⊢
    have hparity : ∀ a < 4, ∀ b < 4,
        Partition.rep ⟨#[0, 1, 0, 1], 2⟩ a = Partition.rep ⟨#[0, 1, 0, 1], 2⟩ b → a % 2 = b % 2 := by
      decide
    have ha' : a < 4 := ha
    have hb' : b < 4 := hb
    have hmod := hparity a ha' b hb' hrel
    have hcases : a = 0 ∧ b = 2 ∨ a = 2 ∧ b = 0 ∨ a = 1 ∧ b = 3 ∨ a = 3 ∧ b = 1 := by omega
    rcases hcases with ⟨rfl, rfl⟩ | ⟨rfl, rfl⟩ | ⟨rfl, rfl⟩ | ⟨rfl, rfl⟩
    · exact cg_zero_two_residuesModFour.symm
    · rw [total_residuesModFour.cg_comm ha hb, cg_zero_two_residuesModFour]
    · exact hodd.symm
    · rw [total_residuesModFour.cg_comm ha hb, hodd]

/-- Two pairs that differ in one bit generate the congruence that forgets this bit. -/
theorem cg_bitPairs : bitPairs.cg 0 1 = ⟨#[0, 0, 2, 2], 2⟩ ∧ bitPairs.cg 2 3 = ⟨#[0, 0, 2, 2], 2⟩ ∧
    bitPairs.cg 0 2 = ⟨#[0, 1, 0, 1], 2⟩ := by
  rw [Algebra.cg, Algebra.cg, Algebra.cg]
  refine ⟨?_, ?_, ?_⟩ <;> cbv

theorem covBy_iff_bitPairs (h0 : 0 < bitPairs.size) (h1 : 1 < bitPairs.size)
    (γ : bitPairs.Congruence) : γ ⋖ cg total_bitPairs h0 h1 ↔ γ = ⊥ := by
  obtain ⟨hfirst, hsecond, -⟩ := cg_bitPairs
  refine covBy_iff_eq_bot total_bitPairs ?_ ?_ γ
  · intro h
    have hpartition : bitPairs.cg 0 1 = Partition.finest 4 := congrArg partition h
    rw [hfirst] at hpartition
    cases hpartition
  · intro a b ha hb hab hrel
    refine le_of_eq (Congruence.ext ?_)
    change bitPairs.cg 0 1 = bitPairs.cg a b
    change (bitPairs.cg 0 1).rep a = (bitPairs.cg 0 1).rep b at hrel
    rw [hfirst] at hrel ⊢
    have hhalf : ∀ a < 4, ∀ b < 4,
        Partition.rep ⟨#[0, 0, 2, 2], 2⟩ a = Partition.rep ⟨#[0, 0, 2, 2], 2⟩ b → a / 2 = b / 2 := by
      decide
    have ha' : a < 4 := ha
    have hb' : b < 4 := hb
    have hsame := hhalf a ha' b hb' hrel
    have hcases : a = 0 ∧ b = 1 ∨ a = 1 ∧ b = 0 ∨ a = 2 ∧ b = 3 ∨ a = 3 ∧ b = 2 := by omega
    rcases hcases with ⟨rfl, rfl⟩ | ⟨rfl, rfl⟩ | ⟨rfl, rfl⟩ | ⟨rfl, rfl⟩
    · exact hfirst.symm
    · rw [total_bitPairs.cg_comm ha hb, hfirst]
    · exact hsecond.symm
    · rw [total_bitPairs.cg_comm ha hb, hsecond]

variable {beta lower : A.Congruence}

/-- A congruence with exactly one lower cover is generated by any pair that the cover does not
relate. -/
theorem cg_eq_of_not_lower (hA : A.Total) (hlower : ∀ γ : A.Congruence, γ ⋖ beta ↔ γ = lower)
    {a b : ℕ} (ha : a < A.size) (hb : b < A.size) (hbeta : beta.partition.setoid a b)
    (hnot : ¬ lower.partition.setoid a b) : cg hA ha hb = beta := by
  have hle : cg hA ha hb ≤ beta := cg_le hA ha hb hbeta
  rcases hle.eq_or_lt with heq | hlt
  · exact heq
  · exact absurd (le_of_covBy_iff hlower hlt ((hA.isLeastCongruence_cg ha hb).rel ⟨rfl, rfl⟩)) hnot

/-- The principal congruences determine every congruence. -/
theorem generates_principals (hA : A.Total) :
    Generates {γ : A.Congruence | γ.partition ∈ A.principals.elements} := by
  intro γ δ h
  by_contra hnot
  obtain ⟨a, b, ha, hb, hne, hγ, hδ⟩ := exists_of_not_le hnot
  have hmem : (cg hA ha hb).partition ∈ A.principals.elements :=
    (mem_principals hA).2 ⟨a, b, ha, hb, hne, rfl⟩
  exact hδ (le_iff.1 (h _ hmem (cg_le hA ha hb hγ)) ((hA.isLeastCongruence_cg ha hb).rel ⟨rfl, rfl⟩))

/-- A congruence with exactly one lower cover is principal. -/
theorem mem_principals_of_unique (hA : A.Total) (hlower : ∀ γ : A.Congruence, γ ⋖ beta ↔ γ = lower) :
    beta.partition ∈ A.principals.elements :=
  (generates_principals hA).mem_of_covBy_iff hlower

/-- A congruence above the lower cover, but not above `beta`, relates among the pairs of `beta` what
the cover relates. -/
theorem setoid_iff_lower (hA : A.Total) (hlower : ∀ γ : A.Congruence, γ ⋖ beta ↔ γ = lower)
    {γ : A.Congruence} (hle : lower ≤ γ) (hbelow : ¬ beta ≤ γ) {a b : ℕ} (ha : a < A.size)
    (hb : b < A.size) (hbeta : beta.partition.setoid a b) :
    γ.partition.setoid a b ↔ lower.partition.setoid a b := by
  constructor
  · intro hγ
    by_contra hnot
    rw [← cg_eq_of_not_lower hA hlower ha hb hbeta hnot] at hbelow
    exact hbelow (cg_le hA ha hb hγ)
  · exact fun h => le_iff.1 hle h

/-! ### The join of what lies strictly below -/

theorem refines_iff (γ δ : A.Congruence) : γ.partition.refines δ.partition = true ↔ γ ≤ δ :=
  γ.isCongruence.valid.refines_iff

/-- What the search for lower covers takes for strictly below is strictly below. -/
theorem refines_and_ne_iff (γ δ : A.Congruence) :
    (γ.partition.refines δ.partition = true ∧ γ.partition ≠ δ.partition) ↔ γ < δ := by
  rw [refines_iff, lt_iff_le_and_ne, ne_eq, ne_eq, Congruence.ext_iff]

/-- The join of what a list has strictly below `beta` is found, whether it reaches `beta` or not. -/
theorem isLeast_joinBelow {ps : List Partition} (hps : ∀ p ∈ ps, A.IsCongruence p)
    {below : A.Congruence} (hle : below ≤ beta) :
    ∃ δ : A.Congruence, joinBelow beta.partition ps below.partition = δ.partition ∧
      IsLeast (AboveListed partition (· < beta) ps below) δ := by
  induction ps generalizing below with
  | nil => exact ⟨below, rfl, isLeast_aboveListed_nil⟩
  | cons p ps ih =>
      obtain ⟨γ, rfl⟩ : ∃ γ : A.Congruence, γ.partition = p :=
        ⟨⟨p, hps p List.mem_cons_self⟩, rfl⟩
      have hrest : ∀ q ∈ ps, A.IsCongruence q := fun q hq => hps q (List.mem_cons_of_mem _ hq)
      rw [joinBelow]
      by_cases hγ : γ < beta
      · rw [if_pos ((refines_and_ne_iff γ beta).2 hγ), ← partition_sup,
          aboveListed_cons_of_pos (P := (· < beta)) partition_injective hγ]
        by_cases hreached : (below ⊔ γ).partition = beta.partition
        · -- nothing below `beta` can be missing
          obtain rfl : below ⊔ γ = beta := Congruence.ext hreached
          exact ⟨below ⊔ γ, by simp, ⟨le_refl _, fun _ _ h => h.le⟩, fun ε hε => hε.1⟩
        · rw [if_neg hreached]
          exact ih hrest (sup_le hle hγ.le)
      · rw [if_neg (mt (refines_and_ne_iff γ beta).1 hγ),
          aboveListed_cons_of_neg (P := (· < beta)) partition_injective hγ]
        exact ih hrest hle

/-- The list of irreducible congruences is made with the join of the principal ones strictly below. -/
theorem isLUB_joinBelow (hA : A.Total) (beta : A.Congruence) :
    ∃ δ : A.Congruence,
      joinBelow beta.partition A.principals.elements (Partition.finest A.size) = δ.partition ∧
      IsLUB {γ : A.Congruence | γ.partition ∈ A.principals.elements ∧ γ < beta} δ := by
  obtain ⟨δ, hδ, hleast⟩ := isLeast_joinBelow (fun q => isCongruence_of_mem_principals hA)
    (bot_le (a := beta))
  exact ⟨δ, hδ, isLUB_of_isLeast_aboveListed hleast⟩

/-- **Lower covers are found**, and only those that are the only ones. -/
theorem lookup_irreducibles_iff (hA : A.Total) : A.irreducibles.lookup beta.partition
    = some lower.partition ↔ ∀ γ : A.Congruence, γ ⋖ beta ↔ γ = lower := by
  obtain ⟨δ, hδ, hlub⟩ := isLUB_joinBelow hA beta
  rw [(generates_principals hA).covBy_iff_iff hlub, irreducibles, lookup_selectIrreducibles, hδ]
  simp [Congruence.ext_iff, and_assoc]

/-- The only lower cover is found in the list of irreducible congruences. -/
theorem lookup_irreducibles (hA : A.Total) (hlower : ∀ γ : A.Congruence, γ ⋖ beta ↔ γ = lower) :
    A.irreducibles.lookup beta.partition = some lower.partition :=
  (lookup_irreducibles_iff hA).2 hlower

end Congruence

/-- What is looked up among the irreducible congruences is kept for a congruence, and is one. -/
theorem isCongruence_of_lookup (hA : A.Total) {beta lower : Partition}
    (h : A.irreducibles.lookup beta = some lower) : A.IsCongruence beta ∧ A.IsCongruence lower := by
  rw [irreducibles, lookup_selectIrreducibles] at h
  split at h
  · next hbeta =>
      have hcongruence := isCongruence_of_mem_principals hA hbeta.1
      obtain ⟨δ, hδ, -⟩ := Congruence.isLUB_joinBelow hA ⟨beta, hcongruence⟩
      obtain rfl : δ.partition = lower := hδ.symm.trans (Option.some_inj.1 h)
      exact ⟨hcongruence, δ.isCongruence⟩
  · cases h

end Algebra

namespace CongruenceLattice

open Query

variable {A : Algebra} {settings : Settings}

/-- The lower cover that a lattice answers with is the same in every state. -/
theorem yields_lowerStar (hA : A.Total) (beta : Partition) :
    Yields (Sound A settings) (lowerStar beta)
      (if beta.size = A.size then .ok (A.irreducibles.lookup beta)
        else .error (.partitionSize beta.size A.name A.size)) := by
  refine Yields.get_bind fun L hL => ?_
  rw [checkPartition, hL.algebra_eq]
  by_cases hsize : beta.size = A.size
  · rw [if_pos hsize, if_pos hsize]
    exact Yields.bind (Yields.lift (.ok ())) (Yields.bind (yields_irreducibleData hA) (Yields.pure _))
  · rw [if_neg hsize, if_neg hsize]
    exact Yields.bind_error (Yields.lift _)

/-- The pair that a principal congruence is answered with is the same in every state. -/
theorem yields_generatingPair (hA : A.Total) {beta : Partition} {pair : ℕ × ℕ}
    (hsize : beta.size = A.size) (hpair : A.principals.pairs[beta]? = some pair) :
    Yields (Sound A settings) (generatingPair beta) (.ok pair) := by
  refine Yields.get_bind fun L hL => ?_
  rw [checkPartition, hL.algebra_eq, if_pos hsize]
  refine Yields.bind (Yields.lift (.ok ())) (Yields.bind (yields_principalData hA) ?_)
  rw [hpair]
  exact Yields.pure pair

end CongruenceLattice

end UniversalAlgebra
