/-
**All pairs of a subtrace have one type.**

Searches from different pairs of one subtrace take different ways and end at different pairs.  But a
minimal pair is generated by every uncollapsed pair that it generates, so that all these pairs
generate the same pairs.  Then they also have the same tables, since the two projections on one of
the pairs are tables of the other one.  Whether there is an involution, and which type is recorded,
depend on no more than that.

Exchanging the two elements is another matter: it changes the tables, but only reads each of them
backwards, which makes joins of meets and meets of joins.

Main definitions:

* `TypeFinder.Over` — the states in which a search can be while its lower congruence is `alpha`;
* `Algebra.HasTypeWith` — the type that the tables of a pair give with or without an involution;
* `TypeFinder.Types` — what typing a subtrace records in all these states.

Main results:

* `Algebra.IsMinimal.sgPair_eq` — the pairs of a subtrace generate the same pairs;
* `Algebra.Total.tables_eq` — what generates the same pairs has the same tables;
* `Algebra.Total.reverse_mem_tables`, `Algebra.HasTypeWith.swap` — exchanging the two elements;
* `TypeFinder.type_constant_on_subtrace` — **all pairs of a subtrace, in either order, have one type**.
-/

import UniversalAlgebra.Proofs.TypeFinder.History
import UniversalAlgebra.Proofs.TypeFinder.Subtraces

set_option autoImplicit false

namespace UniversalAlgebra

/-! ### Reading a table backwards -/

section Patterns

variable {s : Setoid ℕ} {x y u v : ℕ}

theorem joinLike_reverse : JoinLike s v u y x ↔ MeetLike s x y u v := by
  have hsymm (a b : ℕ) : s a b ↔ s b a := Setoid.comm' s
  simp only [JoinLike, MeetLike, hsymm v u, hsymm y x, hsymm v y, hsymm u x, and_comm]

theorem meetLike_reverse : MeetLike s v u y x ↔ JoinLike s x y u v := joinLike_reverse.symm

theorem snagLike_reverse : SnagLike s v u y x ↔ SnagLike s x y u v := by
  have hsymm (a b : ℕ) : s a b ↔ s b a := Setoid.comm' s
  rw [SnagLike, SnagLike, hsymm v x, hsymm u y, hsymm v u, hsymm y x, or_comm (a := ¬ s u v)]

end Patterns

theorem TameType.ofPatterns_comm (involution join meet snag : Bool) :
    ofPatterns involution join meet snag = ofPatterns involution meet join snag := by
  simp only [ofPatterns, Bool.or_comm, Bool.and_comm]

namespace Algebra

variable {A : Algebra} {alpha : Partition} {p q : ℕ × ℕ} {c d : ℕ}

/-! ### Pairs that generate each other -/

/-- An uncollapsed pair that a minimal pair generates generates the same pairs. -/
theorem IsMinimal.sgPair_eq (hA : A.Total) (hp : A.IsPair p) (hminimal : A.IsMinimal alpha p)
    (hq : q ∈ A.sgPair p) (hcollapsed : ¬ alpha.setoid q.1 q.2) : A.sgPair q = A.sgPair p := by
  have hback : p ∈ A.sgPair q := hminimal.mem_sgPair hA hp hq hcollapsed
  have hpair : A.IsPair q := hA.isPair_of_mem_sgPair hp hq
  exact Set.Subset.antisymm (hA.sgPair_subset hp hq) (hA.sgPair_subset hpair hback)

/-- Pairs that generate the same pairs generate their exchanged pairs together. -/
theorem Total.swap_mem_of_sgPair_eq (hA : A.Total) (hp : A.IsPair p) (hq : A.IsPair q)
    (heq : A.sgPair q = A.sgPair p) (hswap : p.swap ∈ A.sgPair p) : q.swap ∈ A.sgPair q := by
  have hmem : q ∈ A.sgPair p := heq ▸ hA.self_mem_sgPair hq
  have hexchanged : q.swap ∈ A.sgPair p.swap := hA.swap_mem_sgPair hp hmem
  rw [heq]
  exact hA.sgPair_subset hp hswap hexchanged

/-- A pair has the tables of each pair that it generates. -/
theorem Total.tables_subset (hA : A.Total) (hp : A.IsPair p) (hq : q ∈ A.sgPair p) :
    A.tables q.1 q.2 ⊆ A.tables p.1 p.2 := by
  obtain ⟨⟨hclosed, hseed⟩, -⟩ := hA.isLeast_tables hp
  -- a generated pair with each of its elements repeated is its first projection
  have hrows : [q.1, q.1, q.2, q.2] ∈ A.tables p.1 p.2 := by
    refine ((hA.isLeast_subpower_pairSeed hp).2
      ⟨hclosed.select hA 2 [0, 0, 1, 1] rfl (by simp), ?_⟩ hq).2
    intro t ht
    refine ⟨pairSeed_subset hp ht, hseed ?_⟩
    rcases ht with rfl | ⟨x, hx, rfl⟩
    · exact Or.inr (Or.inl rfl)
    · exact Or.inl ⟨x, hx, rfl⟩
  have hcolumns : [q.1, q.2, q.1, q.2] ∈ A.tables p.1 p.2 := hA.transpose_mem_tables hp hrows
  refine (hA.isLeast_tables (hA.isPair_of_mem_sgPair hp hq)).2 ⟨hclosed, ?_⟩
  rintro t (hconstant | rfl | rfl)
  · exact hseed (Or.inl hconstant)
  · exact hrows
  · exact hcolumns

/-- Pairs that generate the same pairs have the same tables. -/
theorem Total.tables_eq (hA : A.Total) (hp : A.IsPair p) (hq : A.IsPair q)
    (heq : A.sgPair q = A.sgPair p) : A.tables q.1 q.2 = A.tables p.1 p.2 := by
  have hforth : q ∈ A.sgPair p := heq ▸ hA.self_mem_sgPair hq
  have hback : p ∈ A.sgPair q := heq ▸ hA.self_mem_sgPair hp
  exact Set.Subset.antisymm (hA.tables_subset hp hforth) (hA.tables_subset hq hback)

/-! ### The exchanged pair -/

/-- A table of a pair is one of the exchanged pair if it is read backwards: reading backwards
exchanges the two elements in both projections. -/
theorem Total.reverse_mem_tables (hA : A.Total) (hp : A.IsPair (c, d)) {x y u v : ℕ}
    (ht : [x, y, u, v] ∈ A.tables c d) : [v, u, y, x] ∈ A.tables d c := by
  obtain ⟨⟨hclosed, hseed⟩, -⟩ := hA.isLeast_tables (c := d) (d := c) hp.swap
  have hreversed := hclosed.select hA 4 [3, 2, 1, 0] rfl (by simp)
  refine ((hA.isLeast_tables hp).2 ⟨hreversed, ?_⟩ ht).2
  intro t ht
  refine ⟨tableSeed_subset hp ht, hseed ?_⟩
  rcases ht with ⟨z, hz, rfl⟩ | rfl | rfl
  · exact Or.inl ⟨z, hz, rfl⟩
  · exact Or.inr (Or.inl rfl)
  · exact Or.inr (Or.inr rfl)

/-- What the tables of a pair look like, those of the exchanged pair look like backwards. -/
theorem hasTable_swap (hA : A.Total) (hp : A.IsPair (c, d)) {P Q : ℕ → ℕ → ℕ → ℕ → Prop}
    (hreverse : ∀ x y u v, P v u y x ↔ Q x y u v) : A.HasTable d c P ↔ A.HasTable c d Q := by
  constructor
  · rintro ⟨x, y, u, v, ht, hP⟩
    exact ⟨v, u, y, x, hA.reverse_mem_tables hp.swap ht, (hreverse v u y x).1 hP⟩
  · rintro ⟨x, y, u, v, ht, hQ⟩
    exact ⟨v, u, y, x, hA.reverse_mem_tables hp ht, (hreverse x y u v).2 hQ⟩

/-! ### The type of a pair -/

/-- The type that the tables of a pair give modulo a congruence, if it is said whether there is an
involution. -/
def HasTypeWith (A : Algebra) (alpha : Partition) (involution : Bool) (p : ℕ × ℕ) (t : TameType) :
    Prop :=
  ∃ join meet snag, (join = true ↔ A.HasTable p.1 p.2 (JoinLike alpha.setoid)) ∧
    (meet = true ↔ A.HasTable p.1 p.2 (MeetLike alpha.setoid)) ∧
    (snag = true ↔ A.HasTable p.1 p.2 (SnagLike alpha.setoid)) ∧
    t = .ofPatterns involution join meet snag

theorem exists_hasTypeWith (A : Algebra) (alpha : Partition) (involution : Bool) (p : ℕ × ℕ) :
    ∃ t, A.HasTypeWith alpha involution p t := by
  classical
  exact ⟨_, _, _, _, decide_eq_true_iff, decide_eq_true_iff, decide_eq_true_iff, rfl⟩

/-- Pairs with the same tables have the same type. -/
theorem HasTypeWith.congr {involution : Bool} {t : TameType} (h : A.HasTypeWith alpha involution p t)
    (htables : A.tables q.1 q.2 = A.tables p.1 p.2) : A.HasTypeWith alpha involution q t := by
  simpa only [HasTypeWith, HasTable, htables] using h

/-- The order of the two elements does not matter for the type. -/
theorem HasTypeWith.swap (hA : A.Total) (hp : A.IsPair p) {involution : Bool} {t : TameType}
    (h : A.HasTypeWith alpha involution p t) : A.HasTypeWith alpha involution p.swap t := by
  obtain ⟨join, meet, snag, hjoin, hmeet, hsnag, rfl⟩ := h
  refine ⟨meet, join, snag, ?_, ?_, ?_, TameType.ofPatterns_comm involution join meet snag⟩
  · exact hmeet.trans (hasTable_swap hA hp fun _ _ _ _ => joinLike_reverse).symm
  · exact hjoin.trans (hasTable_swap hA hp fun _ _ _ _ => meetLike_reverse).symm
  · exact hsnag.trans (hasTable_swap hA hp fun _ _ _ _ => snagLike_reverse).symm

end Algebra

namespace TypeFinder

open UniversalAlgebra.Algebra Query

variable {A : Algebra} {settings : Settings} {alpha : Partition} {F F' : TypeFinder}
  {s s' : Subtrace} {p q : ℕ × ℕ}

/-! ### Searches with one lower congruence -/

/-- The states in which a search can be while its lower congruence is `alpha`. -/
structure Over (A : Algebra) (settings : Settings) (alpha : Partition) (F : TypeFinder) : Prop where
  reachable : Reachable A settings F
  alpha_eq : F.alpha = alpha

/-- A query that only depends on the lower congruence, and that leaves it in one of these states,
answers the same in all of them. -/
theorem Over.yields (hA : A.Total) (hF : Over A settings alpha F) {β : Type}
    {q : Query TypeFinder β} (hq : Public q)
    (hagrees : Agrees (Peers A settings TypeFinder.alpha) q (Peers A settings TypeFinder.alpha))
    {x : β} (hanswer : q F = .ok x F') (halpha : F'.alpha = alpha) :
    Yields (Over A settings alpha) q (.ok x) := by
  intro G hG
  have hpeers : Peers A settings TypeFinder.alpha F G :=
    ⟨(hF.reachable.sound hA).lattice_sound, (hG.reachable.sound hA).lattice_sound,
      hF.alpha_eq.trans hG.alpha_eq.symm⟩
  have hend := hagrees F G hpeers
  have hafter : Reachable A settings (q.after G) := .query hq hG.reachable
  rw [hanswer] at hend
  rw [after] at hafter
  generalize q G = r at hend hafter
  cases hend with
  | ok x hpeers' => exact ⟨_, ⟨hafter, hpeers'.view_eq.symm.trans halpha⟩, rfl⟩

/-- A search from an uncollapsed pair ends at the same minimal pair in all these states. -/
theorem Over.yields_findSubtraceOfPair (hA : A.Total) (hF : Over A settings alpha F)
    (hp : A.IsPair p) (hcollapsed : ¬ alpha.setoid p.1 p.2) :
    ∃ s, Yields (Over A settings alpha) (findSubtraceOfPair p) (.ok s) ∧ s.pair ∈ A.sgPair p ∧
      ¬ alpha.setoid s.pair.1 s.pair.2 ∧ A.IsMinimal alpha s.pair ∧
      (∀ x y, [x, y] ∈ s.pairs ↔ (x, y) ∈ A.sgPair s.pair) ∧
      (s.hasInvolution = true ↔ s.pair.swap ∈ A.sgPair s.pair) := by
  obtain rfl := (hF.reachable.sound hA).algebra_eq
  obtain rfl := hF.alpha_eq
  obtain ⟨s, visited, hfind, -, hmem, hnot, -, hpairs, hinvolution, hminimal⟩ :=
    findSubtraceOfPair_minimal hA hp hcollapsed
  refine ⟨s, hF.yields hA (.findSubtraceOfPair p) (agrees_findSubtraceOfPair p) hfind rfl, hmem,
    hnot, hminimal, ?_, hinvolution⟩
  intro x y
  rw [hpairs]
  exact exists_pair_eq_iff (p := (x, y))

/-- Typing the subtrace succeeds in all these states, and records the type `t`. -/
def Types (A : Algebra) (settings : Settings) (alpha : Partition) (s : Subtrace) (t : TameType) :
    Prop :=
  ∃ matrices, Yields (Over A settings alpha) (typeSubtrace s)
    (.ok { s with type := t, matrices := matrices })

theorem Over.types (hA : A.Total) (hF : Over A settings alpha F) (hs : A.IsPair s.pair)
    {t : TameType} (ht : A.HasTypeWith alpha s.hasInvolution s.pair t) :
    Types A settings alpha s t := by
  have hsound := hF.reachable.sound hA
  obtain rfl := hsound.algebra_eq
  obtain rfl := hF.alpha_eq
  obtain ⟨join, meet, snag, hjoin, hmeet, hsnag, rfl⟩ := ht
  obtain ⟨matrices, htype⟩ := typeSubtrace_eq hA hsound.isCongruence_alpha hs hjoin hmeet hsnag
  exact ⟨matrices, hF.yields hA (.typeSubtrace s) (agrees_typeSubtrace s) htype rfl⟩

/-! ### One type -/

/-- **All pairs of a subtrace, in either order, have one type.**  While a congruence is the
lower one, in whatever state, the search from a pair of elements that it does not relate succeeds
with a subtrace, and typing it records the type that its tables give.  For each of its listed pairs
that it does not relate, the search from that pair succeeds as well, its subtrace has an
involution exactly if the first one has, and the same type is recorded.  And for any two elements,
with an involution or without, the type that their tables give is recorded in both orders. -/
theorem type_constant_on_subtrace (hA : A.Total) (hF : Reachable A settings F) :
    (∀ p, A.IsPair p → ¬ F.alpha.setoid p.1 p.2 →
      ∃ s t, Yields (Over A settings F.alpha) (findSubtraceOfPair p) (.ok s) ∧
        Types A settings F.alpha s t ∧ A.HasTypeWith F.alpha s.hasInvolution s.pair t ∧
        ∀ x y, [x, y] ∈ s.pairs → ¬ F.alpha.setoid x y →
          ∃ s', Yields (Over A settings F.alpha) (findSubtraceOfPair (x, y)) (.ok s') ∧
            s'.hasInvolution = s.hasInvolution ∧ Types A settings F.alpha s' t) ∧
    ∀ c < A.size, ∀ d < A.size, ∀ involution,
      ∃ t, Types A settings F.alpha (.ofPair (c, d) involution) t ∧
        Types A settings F.alpha (.ofPair (d, c) involution) t ∧
        A.HasTypeWith F.alpha involution (c, d) t := by
  have hover : Over A settings F.alpha F := ⟨hF, rfl⟩
  refine ⟨?_, ?_⟩
  · intro p hp hcollapsed
    obtain ⟨s, hfind, hmem, -, hminimal, hpairs, hinvolution⟩ :=
      hover.yields_findSubtraceOfPair hA hp hcollapsed
    have hs : A.IsPair s.pair := hA.isPair_of_mem_sgPair hp hmem
    obtain ⟨t, ht⟩ := A.exists_hasTypeWith F.alpha s.hasInvolution s.pair
    refine ⟨s, t, hfind, hover.types hA hs ht, ht, ?_⟩
    intro x y hlisted hxy
    have hxymem : (x, y) ∈ A.sgPair s.pair := (hpairs x y).1 hlisted
    have hxypair : A.IsPair (x, y) := hA.isPair_of_mem_sgPair hs hxymem
    obtain ⟨s', hfind', hmem', hnot', -, -, hinvolution'⟩ :=
      hover.yields_findSubtraceOfPair hA hxypair hxy
    -- the other search ends at a pair that the first subtrace generates
    have hback : s'.pair ∈ A.sgPair s.pair := hA.sgPair_subset hs hxymem hmem'
    have hs' : A.IsPair s'.pair := hA.isPair_of_mem_sgPair hs hback
    have heq : A.sgPair s'.pair = A.sgPair s.pair := hminimal.sgPair_eq hA hs hback hnot'
    have hsame : s'.hasInvolution = s.hasInvolution := by
      rw [Bool.eq_iff_iff, hinvolution, hinvolution']
      constructor
      · exact hA.swap_mem_of_sgPair_eq hs' hs heq.symm
      · exact hA.swap_mem_of_sgPair_eq hs hs' heq
    refine ⟨s', hfind', hsame, hover.types hA hs' ?_⟩
    rw [hsame]
    exact ht.congr (hA.tables_eq hs hs' heq)
  · intro c hc d hd involution
    have hpair : A.IsPair (c, d) := ⟨hc, hd⟩
    obtain ⟨t, ht⟩ := A.exists_hasTypeWith F.alpha involution (c, d)
    exact ⟨t, hover.types (s := .ofPair (c, d) involution) hA hpair ht,
      hover.types (s := .ofPair (d, c) involution) hA hpair.swap (ht.swap hA hpair), ht⟩

/-- In the residues modulo four the search from zero and one ends at one and three.  A search that starts
there moves on to two and zero, but finds the same involution and the same type. -/
theorem type_constant_one_three_residuesModFour :
    (∃ s s' t, s.pair = (1, 3) ∧ s'.pair = (2, 0) ∧ s'.hasInvolution = s.hasInvolution ∧
      Yields (Over residuesModFour .standard (.finest 4)) (findSubtraceOfPair (0, 1)) (.ok s) ∧
      Yields (Over residuesModFour .standard (.finest 4)) (findSubtraceOfPair (1, 3)) (.ok s') ∧
      Types residuesModFour .standard (.finest 4) s t ∧
      Types residuesModFour .standard (.finest 4) s' t) ∧
    ∃ t, Types residuesModFour .standard (.finest 4) (.ofPair (0, 1) false) t ∧
      Types residuesModFour .standard (.finest 4) (.ofPair (1, 0) false) t := by
  have hstart : Reachable residuesModFour .standard (start (.start residuesModFour .standard)) :=
    .start .start
  have hover : Over residuesModFour .standard (.finest 4)
      (start (.start residuesModFour .standard)) := ⟨hstart, rfl⟩
  have hne {x y : ℕ} (h : x ≠ y) : ¬ (Partition.finest 4).setoid x y := by
    rw [Partition.setoid_finest]
    exact h
  obtain ⟨hpairs, hswap⟩ := type_constant_on_subtrace total_residuesModFour hstart
  obtain ⟨s, t, hfind, htypes, -, hrest⟩ :=
    hpairs (0, 1) ⟨by decide, by decide⟩ (hne Nat.zero_ne_one)
  have hrun : ((findSubtraceOfPair (0, 1)).result (start (.start residuesModFour .standard))).map
      (fun s => (s.pair, s.pairs.contains [1, 3])) = .ok ((1, 3), true) := by cbv
  rw [hfind.result_eq hover] at hrun
  obtain ⟨hs, hlisted⟩ := Prod.ext_iff.1 (Except.ok.inj hrun)
  obtain ⟨s', hfind', hinvolution, htypes'⟩ :=
    hrest 1 3 (List.contains_iff_mem.1 hlisted) (hne (by decide))
  have hrun' : ((findSubtraceOfPair (1, 3)).result (start (.start residuesModFour .standard))).map
      Subtrace.pair = .ok (2, 0) := by cbv
  rw [hfind'.result_eq hover] at hrun'
  obtain ⟨t', htypes₀, htypes₁, -⟩ := hswap 0 (by decide) 1 (by decide) false
  exact ⟨⟨s, s', t, hs, Except.ok.inj hrun', hinvolution, hfind, hfind', htypes, htypes'⟩,
    t', htypes₀, htypes₁⟩

end TypeFinder

end UniversalAlgebra
