/-
**The types of the standard algebras.**

In each family one equation or inequality holds for all tables of two elements, since it holds for the
constants and the projections and is kept by the operations.  In a cyclic group the two diagonals of a
table have the same sum, so that it splits both rows or none, while the difference of the projections
has a constant diagonal.  In a chain every table is monotone, so that nothing exchanges the two
elements; with meets alone the least corner is the meet of its neighbours, which leaves one of the two
one-sided patterns.  In a bare set a table depends on one argument only.

Main definitions:

* `Catalogue.quadruples`, `Catalogue.pairs` — the tables and pairs of elements with a property;
* `Catalogue.IsMeetTable` — the tables of meets.

Main results:

* `Catalogue.of_mem_tables` — what the operations keep holds of all tables;
* `Catalogue.sides_cyclic`, `Catalogue.collapsed_of_mem_tables`, `Catalogue.essentiallyUnary_bare` —
  which sides of a table are split together;
* `Catalogue.findTypeSet_standard` — **the types of the standard algebras**.
-/

import Mathlib
import UniversalAlgebra.Proofs.Catalogue.Chains
import UniversalAlgebra.Proofs.Catalogue.Cyclic
import UniversalAlgebra.Proofs.TypeFinder.TypeSet

set_option autoImplicit false

namespace UniversalAlgebra

variable {A : Algebra} {n c d x y u v : ℕ} {ops : List Operation} {s : Setoid ℕ}
  {P : ℕ → ℕ → ℕ → ℕ → Prop} {R : ℕ → ℕ → Prop}

namespace Catalogue

open UniversalAlgebra.Algebra

/-! ### What all tables have in common -/

/-- The quadruples of elements with a property. -/
def quadruples (n : ℕ) (P : ℕ → ℕ → ℕ → ℕ → Prop) : Set (List ℕ) :=
  {t | ∃ x y u v, t = [x, y, u, v] ∧ (x < n ∧ y < n ∧ u < n ∧ v < n) ∧ P x y u v}

theorem mem_quadruples : [x, y, u, v] ∈ quadruples n P ↔
    (x < n ∧ y < n ∧ u < n ∧ v < n) ∧ P x y u v := by
  constructor
  · rintro ⟨x, y, u, v, ⟨⟩, hlt, hP⟩
    exact ⟨hlt, hP⟩
  · exact fun h => ⟨x, y, u, v, rfl, h⟩

theorem lt_of_mem_quadruples {t : List ℕ} (ht : t ∈ quadruples n P) :
    t.length = 4 ∧ ∀ x ∈ t, x < n := by
  obtain ⟨x, y, u, v, rfl, ⟨hx, hy, hu, hv⟩, -⟩ := ht
  exact ⟨rfl, by simp [hx, hy, hu, hv]⟩

/-- What holds of the constants and of the projections and is kept by the operations holds of all
tables. -/
theorem of_mem_tables (h : A.HasOperations n ops) (hpair : A.IsPair (c, d))
    (hops : ∀ op ∈ ops, op.PreservesTuples 4 (quadruples n P)) (hdiagonal : ∀ z < n, P z z z z)
    (hfirst : P c c d d) (hsecond : P c d c d) (ht : [x, y, u, v] ∈ A.tables c d) : P x y u v := by
  have hclosed : A.IsSubpower 4 (quadruples n P) :=
    h.isSubpower_iff.2 ⟨fun t ht => lt_of_mem_quadruples ht, hops⟩
  have hc : c < n := h.size_eq ▸ hpair.1
  have hd : d < n := h.size_eq ▸ hpair.2
  have hseed : A.tableSeed c d ⊆ quadruples n P := by
    rintro t (⟨z, hz, rfl⟩ | rfl | rfl)
    · rw [h.size_eq] at hz
      exact mem_quadruples.2 ⟨⟨hz, hz, hz, hz⟩, hdiagonal z hz⟩
    · exact mem_quadruples.2 ⟨⟨hc, hc, hd, hd⟩, hfirst⟩
    · exact mem_quadruples.2 ⟨⟨hc, hd, hc, hd⟩, hsecond⟩
  exact (mem_quadruples.1 ((h.total.isLeast_tables hpair).2 ⟨hclosed, hseed⟩ ht)).2

theorem preservesTuples_quadruples {name : String} {f : ℕ → ℕ → ℕ}
    (hlt : ∀ x < n, ∀ y < n, f x y < n)
    (hP : ∀ x y u v x' y' u' v', P x y u v → P x' y' u' v' →
      P (f x x') (f y y') (f u u') (f v v')) :
    (binaryOperation name n f).PreservesTuples 4 (quadruples n P) := by
  refine (preservesTuples_binaryOperation fun t ht => lt_of_mem_quadruples ht).2 ?_
  rintro _ ⟨x, y, u, v, rfl, ⟨hx, hy, hu, hv⟩, h⟩ _ ⟨x', y', u', v', rfl, ⟨hx', hy', hu', hv'⟩, h'⟩
  exact ⟨_, _, _, _, rfl, ⟨hlt x hx x' hx', hlt y hy y' hy', hlt u hu u' hu', hlt v hv v' hv'⟩,
    hP x y u v x' y' u' v' h h'⟩

/-- What the operations make of two tables is a table. -/
theorem binary_mem_tables (h : A.HasOperations n ops) (hpair : A.IsPair (c, d)) {name : String}
    {f : ℕ → ℕ → ℕ} (hop : binaryOperation name n f ∈ ops) {t t' : List ℕ}
    (ht : t ∈ A.tables c d) (ht' : t' ∈ A.tables c d) : List.zipWith f t t' ∈ A.tables c d := by
  obtain ⟨hsub, hops⟩ := h.isSubpower_iff.1 (h.total.isLeast_tables hpair).1.1
  exact (preservesTuples_binaryOperation hsub).1 (hops _ hop) t ht t' ht'

theorem unary_mem_tables (h : A.HasOperations n ops) (hpair : A.IsPair (c, d)) {name : String}
    {g : ℕ → ℕ} (hop : unaryOperation name n g ∈ ops) {t : List ℕ} (ht : t ∈ A.tables c d) :
    t.map g ∈ A.tables c d := by
  obtain ⟨hsub, hops⟩ := h.isSubpower_iff.1 (h.total.isLeast_tables hpair).1.1
  exact (preservesTuples_unaryOperation hsub).1 (hops _ hop) t ht

theorem first_mem_tables (h : A.HasOperations n ops) (hpair : A.IsPair (c, d)) :
    [c, c, d, d] ∈ A.tables c d :=
  (h.total.isLeast_tables hpair).1.2 (Or.inr (Or.inl rfl))

theorem second_mem_tables (h : A.HasOperations n ops) (hpair : A.IsPair (c, d)) :
    [c, d, c, d] ∈ A.tables c d :=
  (h.total.isLeast_tables hpair).1.2 (Or.inr (Or.inr rfl))

/-! ### Cyclic groups -/

section Cyclic

variable [NeZero n] (h : A.HasOperations n (cyclicOperations n)) (hpair : A.IsPair (c, d))

include h hpair

/-- The two diagonals of a table have the same sum. -/
theorem diagonal_add_cyclic (ht : [x, y, u, v] ∈ A.tables c d) :
    (x + v : ZMod n) = y + u := by
  have hmod (x : ℕ) : x % n < n := Nat.mod_lt x (NeZero.pos n)
  refine of_mem_tables (P := fun x y u v => (x + v : ZMod n) = y + u) h hpair ?_
    (fun z _ => rfl) rfl (add_comm _ _) ht
  simp only [cyclicOperations, List.forall_mem_cons, List.not_mem_nil, false_imp_iff, implies_true,
    and_true]
  refine ⟨?_, ?_, ?_⟩
  · refine preservesTuples_quadruples (fun x _ y _ => hmod _) ?_
    intro x y u v x' y' u' v' hsum hsum'
    rw [cast_add_mod, cast_add_mod, cast_add_mod, cast_add_mod, add_add_add_comm, hsum, hsum',
      add_add_add_comm]
  · refine (preservesTuples_unaryOperation fun t ht => lt_of_mem_quadruples ht).2 ?_
    rintro _ ⟨x, y, u, v, rfl, ⟨hx, hy, hu, hv⟩, hsum⟩
    refine ⟨_, _, _, _, rfl, ⟨hmod _, hmod _, hmod _, hmod _⟩, ?_⟩
    simp only [cast_neg_mod hx, cast_neg_mod hy, cast_neg_mod hu, cast_neg_mod hv]
    rw [← neg_add, hsum, neg_add]
  · refine preservesTuples_zeroOperation.2 ⟨0, 0, 0, 0, rfl, ?_, rfl⟩
    exact ⟨NeZero.pos n, NeZero.pos n, NeZero.pos n, NeZero.pos n⟩

/-- One side of a table is split exactly if the opposite one is. -/
theorem sides_cyclic {H : AddSubgroup (ZMod n)} (ht : [x, y, u, v] ∈ A.tables c d) :
    (congruentModulo H x y ↔ congruentModulo H u v) ∧
      (congruentModulo H x u ↔ congruentModulo H y v) := by
  have hsum := diagonal_add_cyclic h hpair ht
  have htuple := h.mem_tuples.1 ((h.total.isLeast_tables hpair).1.1.subset_tuples ht)
  have hx : x < n := htuple.2 x (by simp)
  have hy : y < n := htuple.2 y (by simp)
  have hu : u < n := htuple.2 u (by simp)
  have hv : v < n := htuple.2 v (by simp)
  have hrows : (x - y : ZMod n) = u - v := sub_eq_sub_iff_add_eq_add.2 (hsum.trans (add_comm _ _))
  have hcolumns : (x - u : ZMod n) = y - v := sub_eq_sub_iff_add_eq_add.2 hsum
  rw [congruentModulo_iff hx hy, congruentModulo_iff hu hv, congruentModulo_iff hx hu,
    congruentModulo_iff hy hv, hrows, hcolumns]
  exact ⟨Iff.rfl, Iff.rfl⟩

/-- The difference of the two projections is zero on one diagonal and not on the other. -/
theorem snagLike_cyclic {H : AddSubgroup (ZMod n)} (hne : ¬ congruentModulo H c d) :
    A.HasTable c d (SnagLike (congruentModulo H)) := by
  have hc : c < n := h.size_eq ▸ hpair.1
  have hd : d < n := h.size_eq ▸ hpair.2
  have hmod (x : ℕ) : x % n < n := Nat.mod_lt x (NeZero.pos n)
  have hnegated := unary_mem_tables h hpair (List.mem_cons_of_mem _ List.mem_cons_self)
    (second_mem_tables h hpair)
  have hdifference := binary_mem_tables h hpair List.mem_cons_self (first_mem_tables h hpair) hnegated
  refine ⟨_, _, _, _, hdifference, Or.inl ?_, Or.inl ?_⟩
  · rw [congruentModulo_iff (hmod _) (hmod _)]
    simp only [cast_add_mod, cast_neg_mod hc, cast_neg_mod hd, add_neg_cancel, sub_self]
    exact H.zero_mem
  · rw [congruentModulo_iff hc hd] at hne
    rw [congruentModulo_iff (hmod _) (hmod _)]
    simp only [cast_add_mod, cast_neg_mod hc, cast_neg_mod hd]
    rw [add_sub_add_left_eq_sub, neg_sub_neg, ← neg_sub, neg_mem_iff]
    exact hne

end Cyclic

theorem hasType_cyclic [NeZero n] (h : A.HasOperations n (cyclicOperations n))
    (hpair : A.IsPair (c, d)) {H : AddSubgroup (ZMod n)} (hne : ¬ congruentModulo H c d) {t : TameType}
    (ht : A.HasType (congruentModulo H) c d t) : t = .affine := by
  have hjoin : ¬ A.HasTable c d (JoinLike (congruentModulo H)) := by
    rintro ⟨x, y, u, v, htable, hpattern⟩
    obtain ⟨hrows, hcolumns⟩ := sides_cyclic h hpair (H := H) htable
    rcases hpattern with ⟨hxy, huv⟩ | ⟨hxu, hyv⟩
    · exact hxy (hrows.2 huv)
    · exact hxu (hcolumns.2 hyv)
  have hmeet : ¬ A.HasTable c d (MeetLike (congruentModulo H)) := by
    rintro ⟨x, y, u, v, htable, hpattern⟩
    obtain ⟨hrows, hcolumns⟩ := sides_cyclic h hpair (H := H) htable
    rcases hpattern with ⟨hxy, huv⟩ | ⟨hxu, hyv⟩
    · exact huv (hrows.1 hxy)
    · exact hyv (hcolumns.1 hxu)
  rw [ht.eq]
  simp [TameType.ofPatterns, hjoin, hmeet, snagLike_cyclic h hpair hne]

/-! ### Chains -/

/-- The pairs of elements with a property. -/
def pairs (n : ℕ) (R : ℕ → ℕ → Prop) : Set (List ℕ) :=
  {t | ∃ x y, t = [x, y] ∧ (x < n ∧ y < n) ∧ R x y}

theorem lt_of_mem_pairs {t : List ℕ} (ht : t ∈ pairs n R) : t.length = 2 ∧ ∀ x ∈ t, x < n := by
  obtain ⟨x, y, rfl, ⟨hx, hy⟩, -⟩ := ht
  exact ⟨rfl, by simp [hx, hy]⟩

/-- What holds of a pair and of the diagonal and is kept by the operations holds of all that the pair
generates. -/
theorem of_mem_sgPair (h : A.HasOperations n ops) (hpair : A.IsPair (c, d))
    (hops : ∀ op ∈ ops, op.PreservesTuples 2 (pairs n R)) (hdiagonal : ∀ z < n, R z z) (hcd : R c d)
    {q : ℕ × ℕ} (hq : q ∈ A.sgPair (c, d)) : R q.1 q.2 := by
  have hclosed : A.IsSubpower 2 (pairs n R) :=
    h.isSubpower_iff.2 ⟨fun t ht => lt_of_mem_pairs ht, hops⟩
  have hseed : A.pairSeed (c, d) ⊆ pairs n R := by
    rintro t (rfl | ⟨z, hz, rfl⟩)
    · exact ⟨c, d, rfl, ⟨h.size_eq ▸ hpair.1, h.size_eq ▸ hpair.2⟩, hcd⟩
    · rw [h.size_eq] at hz
      exact ⟨z, z, rfl, ⟨hz, hz⟩, hdiagonal z hz⟩
  obtain ⟨x, y, heq, -, hR⟩ := (h.total.isLeast_subpower_pairSeed hpair).2 ⟨hclosed, hseed⟩ hq
  cases heq
  exact hR

theorem preservesTuples_pairs {name : String} {f : ℕ → ℕ → ℕ} (hlt : ∀ x < n, ∀ y < n, f x y < n)
    (hR : ∀ x y x' y', R x y → R x' y' → R (f x x') (f y y')) :
    (binaryOperation name n f).PreservesTuples 2 (pairs n R) := by
  refine (preservesTuples_binaryOperation fun t ht => lt_of_mem_pairs ht).2 ?_
  rintro _ ⟨x, y, rfl, ⟨hx, hy⟩, h⟩ _ ⟨x', y', rfl, ⟨hx', hy'⟩, h'⟩
  exact ⟨_, _, rfl, ⟨hlt x hx x' hx', hlt y hy y' hy'⟩, hR x y x' y' h h'⟩

theorem joinLike_corner (ht : [c, d, d, d] ∈ A.tables c d) (hne : ¬ s c d) :
    A.HasTable c d (JoinLike s) :=
  ⟨c, d, d, d, ht, Or.inl ⟨hne, s.refl d⟩⟩

theorem meetLike_corner (ht : [c, c, c, d] ∈ A.tables c d) (hne : ¬ s c d) :
    A.HasTable c d (MeetLike s) :=
  ⟨c, c, c, d, ht, Or.inl ⟨s.refl c, hne⟩⟩

section Chains

variable (h : A.HasOperations n ops) (hpair : A.IsPair (c, d))

include h hpair

/-- Maxima and minima are monotone, so that they exchange nothing. -/
theorem swap_notMem_sgPair (hops : ops ⊆ latticeOperations n) (hne : c ≠ d) :
    (d, c) ∉ A.sgPair (c, d) := by
  have hmonotone (R : ℕ → ℕ → Prop)
      (hmax : ∀ x y x' y', R x y → R x' y' → R (max x x') (max y y'))
      (hmin : ∀ x y x' y', R x y → R x' y' → R (min x x') (min y y')) :
      ∀ op ∈ ops, op.PreservesTuples 2 (pairs n R) := by
    intro op hop
    rcases List.mem_pair.1 (hops hop) with rfl | rfl
    · exact preservesTuples_pairs (fun x hx y hy => by omega) hmax
    · exact preservesTuples_pairs (fun x hx y hy => by omega) hmin
  intro hswap
  rcases Nat.lt_or_gt_of_ne hne with hlt | hgt
  · have hle := of_mem_sgPair (R := (· ≤ ·)) h hpair (hmonotone _ (by omega) (by omega))
      (fun z _ => Nat.le_refl z) hlt.le hswap
    exact Nat.not_le.2 hlt hle
  · have hge := of_mem_sgPair (R := (· ≥ ·)) h hpair (hmonotone _ (by omega) (by omega))
      (fun z _ => Nat.le_refl z) hgt.le hswap
    exact Nat.not_le.2 hgt hge

/-- The meet of the projections has the lower of the two elements in three corners. -/
theorem meet_mem_tables (hmeet : binaryOperation "meet" n min ∈ ops) :
    (c < d → [c, c, c, d] ∈ A.tables c d) ∧ (d < c → [c, d, d, d] ∈ A.tables c d) := by
  have ht := binary_mem_tables h hpair hmeet (first_mem_tables h hpair) (second_mem_tables h hpair)
  simp only [List.zipWith_cons_cons, List.zipWith_nil_right, min_self] at ht
  constructor
  · intro hlt
    rwa [min_eq_left hlt.le, min_eq_right hlt.le] at ht
  · intro hlt
    rwa [min_eq_right hlt.le, min_eq_left hlt.le] at ht

/-- The join has the upper one there. -/
theorem join_mem_tables (hjoin : binaryOperation "join" n max ∈ ops) :
    (c < d → [c, d, d, d] ∈ A.tables c d) ∧ (d < c → [c, c, c, d] ∈ A.tables c d) := by
  have ht := binary_mem_tables h hpair hjoin (first_mem_tables h hpair) (second_mem_tables h hpair)
  simp only [List.zipWith_cons_cons, List.zipWith_nil_right, max_self] at ht
  constructor
  · intro hlt
    rwa [max_eq_right hlt.le, max_eq_left hlt.le] at ht
  · intro hlt
    rwa [max_eq_left hlt.le, max_eq_right hlt.le] at ht

end Chains

theorem hasType_lattice (h : A.HasOperations n (latticeOperations n)) (hpair : A.IsPair (c, d))
    (hne : ¬ s c d) {t : TameType} (ht : A.HasType s c d t) : t = .lattice := by
  have hcd : c ≠ d := fun heq => hne (heq ▸ s.refl c)
  obtain ⟨hmeetlt, hmeetgt⟩ := meet_mem_tables h hpair (List.mem_pair.2 (Or.inr rfl))
  obtain ⟨hjoinlt, hjoingt⟩ := join_mem_tables h hpair (List.mem_pair.2 (Or.inl rfl))
  have hcorners : [c, d, d, d] ∈ A.tables c d ∧ [c, c, c, d] ∈ A.tables c d := by
    rcases Nat.lt_or_gt_of_ne hcd with hlt | hgt
    · exact ⟨hjoinlt hlt, hmeetlt hlt⟩
    · exact ⟨hmeetgt hgt, hjoingt hgt⟩
  have hswap := swap_notMem_sgPair h hpair (List.Subset.refl _) hcd
  rw [ht.eq]
  simp [TameType.ofPatterns, hswap, joinLike_corner hcorners.1 hne, meetLike_corner hcorners.2 hne]

/-- The least corner is the meet of its two neighbours, and the opposite one lies above them. -/
def IsMeetTable (x y u v : ℕ) : Prop := x = min y u ∧ y ≤ v ∧ u ≤ v

theorem IsMeetTable.meet {x' y' u' v' : ℕ} (h : IsMeetTable x y u v) (h' : IsMeetTable x' y' u' v') :
    IsMeetTable (min x x') (min y y') (min u u') (min v v') := by
  obtain ⟨rfl, hyv, huv⟩ := h
  obtain ⟨rfl, hyv', huv'⟩ := h'
  exact ⟨by omega, by omega, by omega⟩

/-- If a side at the opposite corner is collapsed, so is the side opposite to it. -/
theorem IsMeetTable.collapsed (hmeet : (binaryOperation "meet" n min).Respects s)
    (h : IsMeetTable x y u v) (hv : v < n) : (s u v → s x y) ∧ (s y v → s x u) := by
  obtain ⟨rfl, hyv, huv⟩ := h
  rcases Nat.le_total y u with hle | hle
  · rw [min_eq_left hle]
    exact ⟨fun _ => s.refl y, related_lower hmeet hle huv hv⟩
  · rw [min_eq_right hle]
    exact ⟨related_lower hmeet hle hyv hv, fun _ => s.refl u⟩

section Semilattices

variable (h : A.HasOperations n (semilatticeOperations n)) (hpair : A.IsPair (c, d))
  (hs : A.Compatible s)

include h hpair

/-- The corner with the lower element is the least one. -/
theorem isMeetTable_of_mem_tables (ht : [x, y, u, v] ∈ A.tables c d) :
    (c < d → IsMeetTable x y u v) ∧ (d < c → IsMeetTable v y u x) := by
  constructor
  · intro hlt
    refine of_mem_tables (P := IsMeetTable) h hpair ?_ (fun z _ => ?_) ?_ ?_ ht
    · exact List.forall_mem_singleton.2 (preservesTuples_quadruples (fun x hx y hy => by omega)
        fun _ _ _ _ _ _ _ _ => IsMeetTable.meet)
    all_goals exact ⟨by omega, by omega, by omega⟩
  · intro hlt
    refine of_mem_tables (P := fun x y u v => IsMeetTable v y u x) h hpair ?_ (fun z _ => ?_) ?_ ?_ ht
    · exact List.forall_mem_singleton.2 (preservesTuples_quadruples (fun x hx y hy => by omega)
        fun _ _ _ _ _ _ _ _ => IsMeetTable.meet)
    all_goals exact ⟨by omega, by omega, by omega⟩

include hs

theorem collapsed_of_mem_tables (ht : [x, y, u, v] ∈ A.tables c d) :
    (c < d → (s u v → s x y) ∧ (s y v → s x u)) ∧ (d < c → (s u x → s v y) ∧ (s y x → s v u)) := by
  have hmeet := h.compatible_iff.1 hs _ List.mem_cons_self
  have htuple := h.mem_tuples.1 ((h.total.isLeast_tables hpair).1.1.subset_tuples ht)
  obtain ⟨hlt, hgt⟩ := isMeetTable_of_mem_tables h hpair ht
  exact ⟨fun hcd => (hlt hcd).collapsed hmeet (htuple.2 v (by simp)),
    fun hdc => (hgt hdc).collapsed hmeet (htuple.2 x (by simp))⟩

theorem hasType_semilattice (hne : ¬ s c d) {t : TameType} (ht : A.HasType s c d t) :
    t = .semilattice := by
  have hcd : c ≠ d := fun heq => hne (heq ▸ s.refl c)
  have hswap := swap_notMem_sgPair h hpair (by simp [semilatticeOperations, latticeOperations]) hcd
  obtain ⟨hmeetlt, hmeetgt⟩ := meet_mem_tables h hpair List.mem_cons_self
  rw [ht.eq]
  rcases Nat.lt_or_gt_of_ne hcd with hlt | hgt
  · have hjoin : ¬ A.HasTable c d (JoinLike s) := by
      rintro ⟨x, y, u, v, htable, hpattern⟩
      obtain ⟨hrow, hcolumn⟩ := (collapsed_of_mem_tables h hpair hs htable).1 hlt
      rcases hpattern with ⟨hxy, huv⟩ | ⟨hxu, hyv⟩
      · exact hxy (hrow huv)
      · exact hxu (hcolumn hyv)
    simp [TameType.ofPatterns, hswap, hjoin, meetLike_corner (hmeetlt hlt) hne]
  · have hmeet : ¬ A.HasTable c d (MeetLike s) := by
      rintro ⟨x, y, u, v, htable, hpattern⟩
      obtain ⟨hcolumn, hrow⟩ := (collapsed_of_mem_tables h hpair hs htable).2 hgt
      rcases hpattern with ⟨hxy, huv⟩ | ⟨hxu, hyv⟩
      · exact huv (s.symm (hrow (s.symm hxy)))
      · exact hyv (s.symm (hcolumn (s.symm hxu)))
    simp [TameType.ofPatterns, hswap, hmeet, joinLike_corner (hmeetgt hgt) hne]

end Semilattices

/-! ### Bare sets -/

/-- Without operations a table depends on one argument at most. -/
theorem essentiallyUnary_bare (h : A.HasOperations n []) (hpair : A.IsPair (c, d))
    (ht : [x, y, u, v] ∈ A.tables c d) : x = y ∧ u = v ∨ x = u ∧ y = v :=
  of_mem_tables (P := fun x y u v => x = y ∧ u = v ∨ x = u ∧ y = v) h hpair (by simp)
    (fun _ _ => Or.inl ⟨rfl, rfl⟩) (Or.inl ⟨rfl, rfl⟩) (Or.inr ⟨rfl, rfl⟩) ht

theorem hasType_bare (h : A.HasOperations n []) (hpair : A.IsPair (c, d)) {t : TameType}
    (ht : A.HasType s c d t) : t = .unary := by
  have hjoin : ¬ A.HasTable c d (JoinLike s) := by
    rintro ⟨x, y, u, v, htable, hpattern⟩
    obtain ⟨rfl, rfl⟩ | ⟨rfl, rfl⟩ := essentiallyUnary_bare h hpair htable <;>
      simp [JoinLike] at hpattern
  have hmeet : ¬ A.HasTable c d (MeetLike s) := by
    rintro ⟨x, y, u, v, htable, hpattern⟩
    obtain ⟨rfl, rfl⟩ | ⟨rfl, rfl⟩ := essentiallyUnary_bare h hpair htable <;>
      simp [MeetLike] at hpattern
  have hsnag : ¬ A.HasTable c d (SnagLike s) := by
    rintro ⟨x, y, u, v, htable, hdiagonal, hrow⟩
    obtain ⟨rfl, rfl⟩ | ⟨rfl, rfl⟩ := essentiallyUnary_bare h hpair htable
    · exact hrow.elim (· (s.refl x)) (· (s.refl u))
    · have hxy : s x y := hdiagonal.elim id s.symm
      exact hrow.elim (· hxy) (· hxy)
  rw [ht.eq]
  simp [TameType.ofPatterns, hjoin, hmeet, hsnag]

/-! ### The types -/

/-- **The types of the standard algebras**, from two up to 2³¹ elements.  In every reachable state a
search answers that the only type is affine for a cyclic group, lattice for a chain as a lattice,
semilattice for a chain with meet alone, and unary for a bare set. -/
theorem findTypeSet_standard (hn : 2 ≤ n) (hle : n ≤ 2 ^ 31) :
    (∃ A, cyclicGroup n = .ok A ∧ A.Total ∧ ∀ settings F, TypeFinder.Reachable A settings F →
      TypeFinder.findTypeSet.result F = .ok [.affine]) ∧
    (∃ A, chainLattice n = .ok A ∧ A.Total ∧ ∀ settings F, TypeFinder.Reachable A settings F →
      TypeFinder.findTypeSet.result F = .ok [.lattice]) ∧
    (∃ A, chainSemilattice n = .ok A ∧ A.Total ∧ ∀ settings F, TypeFinder.Reachable A settings F →
      TypeFinder.findTypeSet.result F = .ok [.semilattice]) ∧
    ∃ A, bareSet n = .ok A ∧ A.Total ∧ ∀ settings F, TypeFinder.Reachable A settings F →
      TypeFinder.findTypeSet.result F = .ok [.unary] := by
  have hpos : 1 ≤ n := by omega
  have : NeZero n := ⟨by omega⟩
  have hsize {A : Algebra} {ops : List Operation} (h : A.HasOperations n ops) : 2 ≤ A.size :=
    h.size_eq.symm ▸ hn
  refine ⟨?_, ?_, ?_, ?_⟩
  · obtain ⟨A, hA, hops⟩ := exists_cyclicGroup hpos hle
    refine ⟨A, hA, hops.total, TypeFinder.findTypeSet_eq_singleton hops.total (hsize hops) ?_⟩
    intro γ c d t hpair hne ht
    obtain ⟨H, hH⟩ := exists_congruentModulo hops γ.isCongruence.compatible (hops.size_eq ▸ γ.within)
    rw [← hH] at hne ht
    exact hasType_cyclic hops hpair hne ht
  · obtain ⟨A, hA, hops⟩ := exists_chainLattice hpos hle
    refine ⟨A, hA, hops.total, TypeFinder.findTypeSet_eq_singleton hops.total (hsize hops) ?_⟩
    exact fun γ c d t hpair hne ht => hasType_lattice hops hpair hne ht
  · obtain ⟨A, hA, hops⟩ := exists_chainSemilattice hpos hle
    refine ⟨A, hA, hops.total, TypeFinder.findTypeSet_eq_singleton hops.total (hsize hops) ?_⟩
    exact fun γ c d t hpair hne ht =>
      hasType_semilattice hops hpair γ.isCongruence.compatible hne ht
  · obtain ⟨A, hA, hops⟩ := exists_bareSet hpos
    refine ⟨A, hA, hops.total, TypeFinder.findTypeSet_eq_singleton hops.total (hsize hops) ?_⟩
    exact fun γ c d t hpair _ ht => hasType_bare hops hpair ht

/-- Four elements: the search that was just started has an answer for each of the algebras. -/
theorem findTypeSet_four :
    (∃ A, cyclicGroup 4 = .ok A ∧
      TypeFinder.findTypeSet.result (.start (.start A .standard)) = .ok [.affine]) ∧
    (∃ A, chainLattice 4 = .ok A ∧
      TypeFinder.findTypeSet.result (.start (.start A .standard)) = .ok [.lattice]) ∧
    (∃ A, chainSemilattice 4 = .ok A ∧
      TypeFinder.findTypeSet.result (.start (.start A .standard)) = .ok [.semilattice]) ∧
    ∃ A, bareSet 4 = .ok A ∧
      TypeFinder.findTypeSet.result (.start (.start A .standard)) = .ok [.unary] := by
  obtain ⟨⟨Z, hZ, -, hcyclic⟩, ⟨C, hC, -, hlattice⟩, ⟨S, hS, -, hsemilattice⟩, B, hB, -, hbare⟩ :=
    findTypeSet_standard (n := 4) (by decide) (by decide)
  exact ⟨⟨Z, hZ, hcyclic .standard _ (.start .start)⟩, ⟨C, hC, hlattice .standard _ (.start .start)⟩,
    ⟨S, hS, hsemilattice .standard _ (.start .start)⟩, B, hB, hbare .standard _ (.start .start)⟩

end Catalogue

end UniversalAlgebra
