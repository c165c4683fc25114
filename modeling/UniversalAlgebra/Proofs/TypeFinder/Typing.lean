/-
**The type of a subtrace depends on its tables only.**

Typing a subtrace explores its tables one after the other and notes what they look like, until the
type is decided or there is no further table.  A table that is both like a join and like a meet is
noted as one of the two, the exploration may end early, and of each block of the lower congruence
it starts with one constant only.  None of this shows: a table of both kinds comes with its
transpose, which is not related to it and of both kinds as well, and every table is related to one
that was explored.

Main definitions:

* `TameType.ofPatterns` — the type that goes with what the tables look like;
* `Snags.shows`, `Snags.read` — what one table looks like, and what is noted of it;
* `Snags.Noted`, `Snags.Decided`, `Snags.Follows` — what is known while the type is open, once it
  is decided, and in either case.

Main results:

* `Snags.Noted.read` — what reading a table does;
* `TypeFinder.typeSubtrace_eq` — the type that is determined;
* `TypeFinder.typeSubtrace_iff` — **which type is recorded when**.
-/

import UniversalAlgebra.Proofs.TypeFinder.Search
import UniversalAlgebra.Proofs.TypeFinder.Tables
import UniversalAlgebra.TypeFinder.Typing

set_option autoImplicit false

namespace UniversalAlgebra

/-- The type of a subtrace whose tables look like joins, like meets or like one-snags. -/
def TameType.ofPatterns (involution join meet snag : Bool) : TameType :=
  if join || meet then
    if involution then .boolean else if join && meet then .lattice else .semilattice
  else if snag then .affine
  else .unary

namespace Snags

variable {alpha : Partition} {pattern : ℕ → ℕ → ℕ → ℕ → Bool} {involution : Bool}
  {ts : Array (List ℕ)} {w : Snags} {t t' : List ℕ}

/-! ### One table -/

/-- Whether a table has a pattern when it is read modulo a congruence. -/
def shows (alpha : Partition) (pattern : ℕ → ℕ → ℕ → ℕ → Bool) (t : List ℕ) : Bool :=
  pattern (alpha.rep (t.getD 0 0)) (alpha.rep (t.getD 1 0)) (alpha.rep (t.getD 2 0))
    (alpha.rep (t.getD 3 0))

/-- What is noted after a table was read modulo a congruence. -/
def read (alpha : Partition) (involution : Bool) (w : Snags) (t : List ℕ) : Snags :=
  w.note involution (alpha.rep (t.getD 0 0)) (alpha.rep (t.getD 1 0)) (alpha.rep (t.getD 2 0))
    (alpha.rep (t.getD 3 0))

theorem observe_eq (w : Snags) (t : List ℕ) :
    observe alpha involution w t
      = ((w.read alpha involution t).decided.isNone, w.read alpha involution t) := by
  simp [observe, read]

/-- Related tables look alike. -/
theorem shows_congr (h : List.Forall₂ alpha.setoid t t') :
    shows alpha pattern t = shows alpha pattern t' := by
  have hrep (j : ℕ) : alpha.rep (t.getD j 0) = alpha.rep (t'.getD j 0) :=
    Algebra.related_getD h j
  simp only [shows, hrep]

theorem shows_isJoinLike {x y u v : ℕ} :
    shows alpha isJoinLike [x, y, u, v] = true ↔ JoinLike alpha.setoid x y u v := by
  simp [shows, isJoinLike, JoinLike, Partition.setoid_iff]

theorem shows_isMeetLike {x y u v : ℕ} :
    shows alpha isMeetLike [x, y, u, v] = true ↔ MeetLike alpha.setoid x y u v := by
  simp [shows, isMeetLike, MeetLike, Partition.setoid_iff]

theorem shows_isOneSnag {x y u v : ℕ} :
    shows alpha isOneSnag [x, y, u, v] = true ↔ SnagLike alpha.setoid x y u v := by
  simp [shows, isOneSnag, SnagLike, Partition.setoid_iff]

/-! ### What is noted -/

section Note

variable (x y u v : ℕ)

/-- As long as neither pattern was seen, either of them decides the type if there is an involution,
and is noted otherwise. -/
theorem note_silent (involution snag : Bool) :
    note involution ⟨false, false, snag, none⟩ x y u v
      = if isJoinLike x y u v || isMeetLike x y u v then
          if involution then ⟨false, false, snag || isOneSnag x y u v, some .boolean⟩
          else ⟨isJoinLike x y u v, !isJoinLike x y u v, true, none⟩
        else ⟨false, false, snag || isOneSnag x y u v, none⟩ := by
  rw [note]
  cases isJoinLike x y u v <;> cases isMeetLike x y u v <;> cases isOneSnag x y u v <;>
    cases involution <;> cases snag <;> rfl

/-- After a join only a meet matters. -/
theorem note_join :
    note false ⟨true, false, true, none⟩ x y u v
      = ⟨true, false, true, if isMeetLike x y u v then some .lattice else none⟩ := by
  rw [note]
  cases isMeetLike x y u v <;> rfl

/-- After a meet only a join matters. -/
theorem note_meet :
    note false ⟨false, true, true, none⟩ x y u v
      = ⟨false, true, true, if isJoinLike x y u v then some .lattice else none⟩ := by
  rw [note]
  cases isJoinLike x y u v <;> rfl

end Note

/-- What is known while the type is open.  A table that counts as a join may be like a meet as
well; any other table like a meet would have decided the type. -/
inductive Noted (alpha : Partition) (involution : Bool) (ts : Array (List ℕ)) : Snags → Prop
  | silent (snag : Bool) (hsnag : snag = true ↔ ∃ t ∈ ts, shows alpha isOneSnag t = true)
      (h : ∀ t ∈ ts, shows alpha isJoinLike t = false ∧ shows alpha isMeetLike t = false) :
      Noted alpha involution ts ⟨false, false, snag, none⟩
  | join (t : List ℕ) (ht : t ∈ ts) (hjoin : shows alpha isJoinLike t = true)
      (hnone : involution = false)
      (h : ∀ t' ∈ ts, shows alpha isMeetLike t' = true → t' = t) :
      Noted alpha involution ts ⟨true, false, true, none⟩
  | meet (t : List ℕ) (ht : t ∈ ts) (hmeet : shows alpha isMeetLike t = true)
      (hnone : involution = false)
      (h : ∀ t' ∈ ts, shows alpha isJoinLike t' = false) :
      Noted alpha involution ts ⟨false, true, true, none⟩

/-- What is known once the type is decided. -/
inductive Decided (alpha : Partition) (involution : Bool) (ts : Array (List ℕ)) (w : Snags) : Prop
  | boolean (hw : w.decided = some .boolean) (hinvolution : involution = true) (t : List ℕ)
      (ht : t ∈ ts) (h : (shows alpha isJoinLike t || shows alpha isMeetLike t) = true)
  | lattice (hw : w.decided = some .lattice) (hnone : involution = false) (t t' : List ℕ)
      (ht : t ∈ ts) (hjoin : shows alpha isJoinLike t = true) (ht' : t' ∈ ts)
      (hmeet : shows alpha isMeetLike t' = true)

theorem Decided.isNone_eq (h : Decided alpha involution ts w) : w.decided.isNone = false := by
  cases h with
  | boolean hw => rw [hw]; rfl
  | lattice hw => rw [hw]; rfl

theorem forall_mem_push {P : List ℕ → Prop} (h : ∀ t' ∈ ts, P t') (ht : P t) :
    ∀ t' ∈ ts.push t, P t' := by
  intro t' ht'
  rcases Array.mem_push.1 ht' with ht' | rfl
  · exact h t' ht'
  · exact ht

/-- What is known after a further table was read: the type is still open, or it is decided. -/
def Follows (alpha : Partition) (involution : Bool) (ts : Array (List ℕ)) (w : Snags) : Prop :=
  w.decided.isNone = true ∧ Noted alpha involution ts w ∨ Decided alpha involution ts w

/-- The first table with a pattern decides the type if there is an involution, and is noted as a
join if it is like one. -/
theorem follows_silent {snag : Bool}
    (hsnag : snag = true ↔ ∃ t ∈ ts, shows alpha isOneSnag t = true)
    (h : ∀ t ∈ ts, shows alpha isJoinLike t = false ∧ shows alpha isMeetLike t = false)
    (t : List ℕ) :
    Follows alpha involution (ts.push t)
      (Snags.read alpha involution ⟨false, false, snag, none⟩ t) := by
  have hself : t ∈ ts.push t := Array.mem_push_self
  have hread : Snags.read alpha involution ⟨false, false, snag, none⟩ t
      = if shows alpha isJoinLike t || shows alpha isMeetLike t then
          if involution then ⟨false, false, snag || shows alpha isOneSnag t, some .boolean⟩
          else ⟨shows alpha isJoinLike t, !shows alpha isJoinLike t, true, none⟩
        else ⟨false, false, snag || shows alpha isOneSnag t, none⟩ :=
    note_silent _ _ _ _ involution snag
  rw [hread]
  by_cases hpattern : (shows alpha isJoinLike t || shows alpha isMeetLike t) = true
  · rw [if_pos hpattern]
    cases involution with
    | true => exact Or.inr (.boolean rfl rfl t hself hpattern)
    | false =>
        rw [if_neg Bool.false_ne_true]
        refine Or.inl ⟨rfl, ?_⟩
        cases hjoin : shows alpha isJoinLike t with
        | true =>
            refine .join t hself hjoin rfl (forall_mem_push ?_ fun _ => rfl)
            intro t' ht' hmeet
            rw [(h t' ht').2] at hmeet
            cases hmeet
        | false =>
            have hmeet : shows alpha isMeetLike t = true := by simpa [hjoin] using hpattern
            exact .meet t hself hmeet rfl (forall_mem_push (fun t' ht' => (h t' ht').1) hjoin)
  · rw [if_neg hpattern]
    refine Or.inl ⟨rfl, .silent _ ?_ (forall_mem_push h (by simpa using hpattern))⟩
    simp [hsnag, or_and_right, exists_or]

/-- **What reading a table does**: the type stays open, or it is decided. -/
theorem Noted.read (hw : Noted alpha involution ts w) (t : List ℕ) :
    Follows alpha involution (ts.push t) (w.read alpha involution t) := by
  have hself : t ∈ ts.push t := Array.mem_push_self
  cases hw with
  | silent snag hsnag h => exact follows_silent hsnag h t
  | join t₀ ht₀ hjoin hnone h =>
      subst hnone
      have ht₀' : t₀ ∈ ts.push t := Array.mem_push.2 (Or.inl ht₀)
      have hread : Snags.read alpha false ⟨true, false, true, none⟩ t
          = ⟨true, false, true, if shows alpha isMeetLike t then some .lattice else none⟩ :=
        note_join _ _ _ _
      rw [hread]
      cases hmeet : shows alpha isMeetLike t with
      | true => exact Or.inr (.lattice rfl rfl t₀ t ht₀' hjoin hself hmeet)
      | false =>
          refine Or.inl ⟨rfl, .join t₀ ht₀' hjoin rfl (forall_mem_push h ?_)⟩
          simp [hmeet]
  | meet t₀ ht₀ hmeet hnone h =>
      subst hnone
      have ht₀' : t₀ ∈ ts.push t := Array.mem_push.2 (Or.inl ht₀)
      have hread : Snags.read alpha false ⟨false, true, true, none⟩ t
          = ⟨false, true, true, if shows alpha isJoinLike t then some .lattice else none⟩ :=
        note_meet _ _ _ _
      rw [hread]
      cases hjoin : shows alpha isJoinLike t with
      | true => exact Or.inr (.lattice rfl rfl t t₀ hself hjoin ht₀' hmeet)
      | false => exact Or.inl ⟨rfl, .meet t₀ ht₀' hmeet rfl (forall_mem_push h hjoin)⟩

/-- Whatever tables are shown, the observer keeps to this. -/
theorem watched_observe (alpha : Partition) (involution : Bool) (T : Set (List ℕ)) :
    SubpowerClosure.Watched (observe alpha involution) T (fun w ts => Noted alpha involution ts w)
      (fun w ts => Decided alpha involution ts w) := by
  constructor
  · intro w ts t hw _ hgo
    rw [observe_eq] at hgo ⊢
    rcases hw.read t with ⟨-, h⟩ | h
    · exact h
    · exact absurd (h.isNone_eq.symm.trans hgo) Bool.false_ne_true
  · intro w ts t hw _ hgo
    rw [observe_eq] at hgo ⊢
    rcases hw.read t with ⟨h, -⟩ | h
    · exact absurd (hgo.symm.trans h) Bool.false_ne_true
    · exact h

/-! ### The verdict -/

section Verdict

variable {join meet snag : Bool}

/-- A decided type is the right one, if the patterns of the tables that were read are known. -/
theorem Decided.verdict_eq (hw : Decided alpha involution ts w)
    (hjoin : ∀ t ∈ ts, shows alpha isJoinLike t = true → join = true)
    (hmeet : ∀ t ∈ ts, shows alpha isMeetLike t = true → meet = true) :
    w.verdict = .ofPatterns involution join meet snag := by
  cases hw with
  | boolean hw hinvolution t ht h =>
      have hpattern : (join || meet) = true := by
        rw [Bool.or_eq_true] at h ⊢
        exact h.imp (hjoin t ht) (hmeet t ht)
      simp [verdict, hw, TameType.ofPatterns, hpattern, hinvolution]
  | lattice hw hnone t t' ht h ht' h' =>
      simp [verdict, hw, TameType.ofPatterns, hnone, hjoin t ht h, hmeet t' ht' h']

/-- A table that is both like a join and like a meet is not related to its transpose. -/
theorem not_related_transpose {x y u v : ℕ} (hjoin : JoinLike alpha.setoid x y u v)
    (hmeet : MeetLike alpha.setoid x y u v) :
    ¬ List.Forall₂ alpha.setoid [x, u, y, v] [x, y, u, v] := by
  intro hrel
  have huy : alpha.setoid u y := Algebra.related_getD hrel 1
  rw [JoinLike] at hjoin
  rw [MeetLike] at hmeet
  simp only [Partition.setoid_iff] at huy hjoin hmeet
  rw [huy] at hjoin hmeet
  tauto

/-- If every table was read up to the congruence, an open type is settled by what was noted.  Of a
table that is both like a join and like a meet the transpose was read as well. -/
theorem Noted.verdict_eq (hw : Noted alpha involution ts w)
    (htables : ∀ t ∈ ts, ∃ x y u v, t = [x, y, u, v])
    (htranspose : ∀ x y u v, [x, y, u, v] ∈ ts →
      ∃ t' ∈ ts, List.Forall₂ alpha.setoid [x, u, y, v] t')
    (hjoin : join = true ↔ ∃ t ∈ ts, shows alpha isJoinLike t = true)
    (hmeet : meet = true ↔ ∃ t ∈ ts, shows alpha isMeetLike t = true)
    (hsnag : snag = true ↔ ∃ t ∈ ts, shows alpha isOneSnag t = true) :
    w.verdict = .ofPatterns involution join meet snag := by
  cases hw with
  | silent snag' hsnag' h =>
      obtain rfl : snag' = snag := by rw [Bool.eq_iff_iff, hsnag', hsnag]
      obtain rfl : join = false := by
        rw [← Bool.not_eq_true, hjoin]
        rintro ⟨t, ht, hshows⟩
        simp [(h t ht).1] at hshows
      obtain rfl : meet = false := by
        rw [← Bool.not_eq_true, hmeet]
        rintro ⟨t, ht, hshows⟩
        simp [(h t ht).2] at hshows
      rfl
  | join t ht hshows hnone h =>
      obtain rfl : join = true := hjoin.2 ⟨t, ht, hshows⟩
      obtain rfl : meet = false := by
        rw [← Bool.not_eq_true, hmeet]
        rintro ⟨t', ht', hshows'⟩
        -- the only table like a meet is the one that counts as a join
        obtain rfl := h t' ht' hshows'
        obtain ⟨x, y, u, v, rfl⟩ := htables t' ht'
        rw [shows_isJoinLike] at hshows
        rw [shows_isMeetLike] at hshows'
        obtain ⟨t'', ht'', hrel⟩ := htranspose x y u v ht'
        have hmeetlike : shows alpha isMeetLike t'' = true := by
          rw [← shows_congr hrel, shows_isMeetLike]
          exact hshows'.symm
        -- so that its transpose can only be related to it
        rw [h t'' ht'' hmeetlike] at hrel
        exact not_related_transpose hshows hshows' hrel
      simp [verdict, TameType.ofPatterns, hnone]
  | meet t ht hshows hnone h =>
      obtain rfl : meet = true := hmeet.2 ⟨t, ht, hshows⟩
      obtain rfl : join = false := by
        rw [← Bool.not_eq_true, hjoin]
        rintro ⟨t', ht', hshows'⟩
        simp [h t' ht'] at hshows'
      simp [verdict, TameType.ofPatterns, hnone]

end Verdict

end Snags

namespace TypeFinder

open UniversalAlgebra.Algebra Query

variable {F : TypeFinder} {A : Algebra} {alpha : Partition} {c d : ℕ}

/-! ### Exploring the tables -/

theorem mem_tableGenerators {t : List ℕ} :
    t ∈ tableGenerators alpha c d ↔
      (∃ r ∈ alpha.representatives, t = [r, r, r, r]) ∨ t = [c, c, d, d] ∨ t = [c, d, c, d] := by
  simp [tableGenerators, SubpowerClosure.diagonal, List.replicate, eq_comm]

/-- The generators are among those of all tables. -/
theorem tableGenerators_subset (halpha : A.IsCongruence alpha) {t : List ℕ}
    (ht : t ∈ tableGenerators alpha c d) : t ∈ A.tableSeed c d := by
  rcases mem_tableGenerators.1 ht with ⟨r, hr, rfl⟩ | h
  · exact Or.inl ⟨r, halpha.size_eq ▸ (Partition.mem_representatives.1 hr).1, rfl⟩
  · exact Or.inr h

/-- Every constant table is related to a generator. -/
theorem exists_tableGenerator (halpha : A.IsCongruence alpha) {x : ℕ} (hx : x < A.size) :
    ∃ t ∈ tableGenerators alpha c d, List.Forall₂ alpha.setoid (List.replicate 4 x) t := by
  have hlt : x < alpha.size := halpha.size_eq ▸ hx
  have hrep : alpha.rep x ∈ alpha.representatives :=
    Partition.mem_representatives.2 ⟨halpha.valid.rep_lt hlt, halpha.valid.rep_rep_eq x⟩
  have hrel : alpha.setoid x (alpha.rep x) := (halpha.valid.rep_rep_eq x).symm
  refine ⟨[alpha.rep x, alpha.rep x, alpha.rep x, alpha.rep x],
    mem_tableGenerators.2 (Or.inl ⟨_, hrep, rfl⟩), ?_⟩
  exact .cons hrel (.cons hrel (.cons hrel (.cons hrel .nil)))

/-- The generators show none of the patterns. -/
theorem noted_tableGenerators (involution : Bool) {ts : Array (List ℕ)}
    (hts : ∀ t ∈ ts, t ∈ tableGenerators alpha c d) : Snags.Noted alpha involution ts .nothing := by
  have hplain : ∀ t ∈ ts, Snags.shows alpha Snags.isJoinLike t = false ∧
      Snags.shows alpha Snags.isMeetLike t = false ∧
      Snags.shows alpha Snags.isOneSnag t = false := by
    intro t ht
    rcases mem_tableGenerators.1 (hts t ht) with ⟨r, -, rfl⟩ | rfl | rfl
    all_goals
      simp only [← Bool.not_eq_true, Snags.shows_isJoinLike, Snags.shows_isMeetLike,
        Snags.shows_isOneSnag, JoinLike, MeetLike, SnagLike, Partition.setoid_iff]
      grind
  refine .silent false ?_ fun t ht => ⟨(hplain t ht).1, (hplain t ht).2.1⟩
  constructor
  · rintro ⟨⟩
  · rintro ⟨t, ht, h⟩
    simp [(hplain t ht).2.2] at h

/-- If each table is related to one of a set of tables, the set shows every pattern there is. -/
theorem hasTable_iff (hA : A.Total) (hp : A.IsPair (c, d)) {pattern : ℕ → ℕ → ℕ → ℕ → Bool}
    {P : ℕ → ℕ → ℕ → ℕ → Prop} {ts : Array (List ℕ)}
    (hpattern : ∀ x y u v, Snags.shows alpha pattern [x, y, u, v] = true ↔ P x y u v)
    (hsub : ∀ t ∈ ts, t ∈ A.tables c d)
    (hrelated : ∀ t ∈ A.tables c d, ∃ t' ∈ ts, List.Forall₂ alpha.setoid t t') :
    A.HasTable c d P ↔ ∃ t ∈ ts, Snags.shows alpha pattern t = true := by
  constructor
  · rintro ⟨x, y, u, v, ht, hP⟩
    obtain ⟨t', ht', hrel⟩ := hrelated _ ht
    exact ⟨t', ht', Snags.shows_congr hrel ▸ (hpattern x y u v).2 hP⟩
  · rintro ⟨t, ht, hshows⟩
    obtain ⟨x, y, u, v, rfl⟩ := hA.exists_of_mem_tables hp (hsub t ht)
    exact ⟨x, y, u, v, hsub _ ht, (hpattern x y u v).1 hshows⟩

/-- Exploring the tables ends closed, with every table up to the congruence, or with a decided
type. -/
theorem exploreTables_spec (hA : A.Total) (halpha : A.IsCongruence alpha) (hp : A.IsPair (c, d))
    (mode : Mode) (involution : Bool) :
    ∃ status s, Closure.close A mode 0 0 ((SubpowerClosure.observed 4
        (Snags.observe alpha involution) .nothing).insertAll (tableGenerators alpha c d))
        = ⟨.ok status, s⟩ ∧ (∀ t ∈ s.tuples, t ∈ A.tables c d) ∧
      (Snags.Noted alpha involution s.tuples s.observer ∧
          (∀ t ∈ A.tables c d, ∃ t' ∈ s.tuples, List.Forall₂ alpha.setoid t t') ∨
        Snags.Decided alpha involution s.tuples s.observer) := by
  obtain ⟨⟨hsubpower, hseed⟩, -⟩ := hA.isLeast_tables hp
  have hgenerators : ∀ t ∈ tableGenerators alpha c d, t ∈ A.tuples 4 :=
    fun t ht => tableSeed_subset hp (tableGenerators_subset halpha ht)
  obtain ⟨hs, hobserve, hstate, hmem⟩ :=
    (SubpowerClosure.faithful_observed A 4 (Snags.observe alpha involution) .nothing).insertAll
      hgenerators
  have hinitial : ∀ t, t ∈ ((SubpowerClosure.observed 4 (Snags.observe alpha involution)
      .nothing).insertAll (tableGenerators alpha c d)).tuples ↔ t ∈ tableGenerators alpha c d := by
    intro t
    rw [hmem]
    simp [SubpowerClosure.observed]
  obtain ⟨s, ⟨hclose, hwithin, hkept, hclosed⟩ | ⟨hclose, hwithin⟩⟩ :=
    SubpowerClosure.close_spec hA mode hsubpower.closedUnderColumns
      (Snags.watched_observe alpha involution (A.tables c d))
      ⟨hs, hobserve, fun t ht => hseed (tableGenerators_subset halpha ((hinitial t).1 ht)),
        hstate ▸ noted_tableGenerators involution fun t ht => (hinitial t).1 ht⟩
      (Closure.settledBelow_zero _ _)
  · refine ⟨.closed, s, hclose, hwithin.subset, Or.inl ⟨hwithin.watch, ?_⟩⟩
    have hin : ∀ t ∈ tableGenerators alpha c d, t ∈ s.tuples :=
      fun t ht => hkept t ((hinitial t).2 ht)
    have hconstant : ∀ x < A.size,
        ∃ t' ∈ s.tuples, List.Forall₂ alpha.setoid (List.replicate 4 x) t' := by
      intro x hx
      obtain ⟨t, ht, hrel⟩ := exists_tableGenerator (c := c) (d := d) halpha hx
      exact ⟨t, hin t ht, hrel⟩
    intro t ht
    refine exists_related hA halpha.compatible hclosed hwithin.faithful.mem_tuples
      (tableSeed_subset hp) ?_ hconstant ht
    rintro u (⟨x, hx, rfl⟩ | hprojection)
    · exact hconstant x hx
    · exact ⟨u, hin u (mem_tableGenerators.2 (Or.inr hprojection)), List.forall₂_refl u⟩
  · exact ⟨.stopped, s, hclose, hwithin.subset, Or.inr hwithin.watch⟩

/-! ### The type of a subtrace -/

/-- Some table of a subtrace looks like this modulo the lower congruence. -/
def Shows (F : TypeFinder) (s : Subtrace) (P : Setoid ℕ → ℕ → ℕ → ℕ → ℕ → Prop) : Prop :=
  F.algebra.HasTable s.a s.b (P F.alpha.setoid)

/-- The type that is determined is the one that goes with what the tables look like. -/
theorem typeSubtrace_eq {s : Subtrace} (hA : F.algebra.Total)
    (halpha : F.algebra.IsCongruence F.alpha) (hs : F.algebra.IsPair s.pair) {join meet snag : Bool}
    (hjoin : join = true ↔ F.Shows s JoinLike)
    (hmeet : meet = true ↔ F.Shows s MeetLike)
    (hsnag : snag = true ↔ F.Shows s SnagLike) :
    ∃ matrices, typeSubtrace s F
      = .ok { s with
          type := .ofPatterns s.hasInvolution join meet snag
          matrices := matrices } F := by
  obtain ⟨status, explored, hclose, hsub, hknown⟩ :=
    exploreTables_spec hA halpha hs F.lattice.mode s.hasInvolution
  have hverdict : explored.observer.verdict = .ofPatterns s.hasInvolution join meet snag := by
    rcases hknown with ⟨hnoted, hrelated⟩ | hdecided
    · refine hnoted.verdict_eq (fun t ht => hA.exists_of_mem_tables hs (hsub t ht)) ?_ ?_ ?_ ?_
      · intro x y u v ht
        exact hrelated _ (hA.transpose_mem_tables hs (hsub _ ht))
      · exact hjoin.trans (hasTable_iff hA hs (fun _ _ _ _ => Snags.shows_isJoinLike) hsub hrelated)
      · exact hmeet.trans (hasTable_iff hA hs (fun _ _ _ _ => Snags.shows_isMeetLike) hsub hrelated)
      · exact hsnag.trans (hasTable_iff hA hs (fun _ _ _ _ => Snags.shows_isOneSnag) hsub hrelated)
    · refine hdecided.verdict_eq ?_ ?_
      · intro t ht hshows
        obtain ⟨x, y, u, v, rfl⟩ := hA.exists_of_mem_tables hs (hsub t ht)
        exact hjoin.2 ⟨x, y, u, v, hsub _ ht, Snags.shows_isJoinLike.1 hshows⟩
      · intro t ht hshows
        obtain ⟨x, y, u, v, rfl⟩ := hA.exists_of_mem_tables hs (hsub t ht)
        exact hmeet.2 ⟨x, y, u, v, hsub _ ht, Snags.shows_isMeetLike.1 hshows⟩
  refine ⟨explored.tuples.toList, ?_⟩
  rw [← hverdict]
  change (liftM (F.checkPair s.pair) >>= _ : Query TypeFinder Subtrace) F = _
  rw [checkPair_eq hA hs]
  change (liftM (Closure.close F.algebra F.lattice.mode 0 0 ((SubpowerClosure.observed 4
    (Snags.observe F.alpha s.hasInvolution) .nothing).insertAll
      (tableGenerators F.alpha s.a s.b))).settled >>= _ : Query TypeFinder Subtrace) F = _
  rw [hclose]
  rfl

/-- **Which type is recorded when.**  The tables of a subtrace are read modulo the lower congruence.
Typing succeeds and records one type: the Boolean one exactly if there is an involution and a table
like a join or like a meet; the lattice type exactly if there is no involution, and there are tables
of both kinds; the semilattice type exactly if there is no involution, and there are tables of one
kind only; the affine type exactly if there are none of either kind but a one-snag; and the unary
type exactly if there is nothing of all this. -/
theorem typeSubtrace_iff {s : Subtrace} (hA : F.algebra.Total)
    (halpha : F.algebra.IsCongruence F.alpha) (hs : F.algebra.IsPair s.pair) :
    ∃ t matrices, typeSubtrace s F = .ok { s with type := t, matrices := matrices } F ∧
      (t = .boolean ↔ s.hasInvolution = true ∧ (F.Shows s JoinLike ∨ F.Shows s MeetLike)) ∧
      (t = .lattice ↔ s.hasInvolution = false ∧ F.Shows s JoinLike ∧ F.Shows s MeetLike) ∧
      (t = .semilattice ↔ s.hasInvolution = false ∧
        (F.Shows s JoinLike ∧ ¬ F.Shows s MeetLike ∨ ¬ F.Shows s JoinLike ∧ F.Shows s MeetLike)) ∧
      (t = .affine ↔ ¬ F.Shows s JoinLike ∧ ¬ F.Shows s MeetLike ∧ F.Shows s SnagLike) ∧
      (t = .unary ↔ ¬ F.Shows s JoinLike ∧ ¬ F.Shows s MeetLike ∧ ¬ F.Shows s SnagLike) := by
  classical
  obtain ⟨matrices, htype⟩ := typeSubtrace_eq hA halpha hs (decide_eq_true_iff (p := F.Shows s JoinLike))
    (decide_eq_true_iff (p := F.Shows s MeetLike)) (decide_eq_true_iff (p := F.Shows s SnagLike))
  refine ⟨_, matrices, htype, ?_⟩
  by_cases hjoin : F.Shows s JoinLike <;> by_cases hmeet : F.Shows s MeetLike <;>
    by_cases hsnag : F.Shows s SnagLike <;> cases s.hasInvolution <;>
    simp [TameType.ofPatterns, hjoin, hmeet, hsnag]

/-- In the residues modulo four, zero and two are of the affine type over the least congruence. -/
theorem typeSubtrace_zero_two_residuesModFour :
    (∃ s F, typeSubtrace (.ofPair (0, 2) true) (start (.start residuesModFour .standard)) = .ok s F ∧
      s.type = .affine) ∧
      residuesModFour.HasTable 0 2 (SnagLike ⊥) ∧
      ¬ residuesModFour.HasTable 0 2 (JoinLike ⊥) ∧ ¬ residuesModFour.HasTable 0 2 (MeetLike ⊥) := by
  have hpair : residuesModFour.IsPair (0, 2) := ⟨by decide, by decide⟩
  obtain ⟨t, matrices, htype, -, -, -, haffine, -⟩ :=
    typeSubtrace_iff (F := start (.start residuesModFour .standard)) (s := .ofPair (0, 2) true)
      total_residuesModFour residuesModFour.isCongruence_finest hpair
  have hrun : ((typeSubtrace (.ofPair (0, 2) true)).value?
      (start (.start residuesModFour .standard))).map Subtrace.type = some .affine := by cbv
  rw [value?_eq_some.2 ⟨_, htype⟩] at hrun
  obtain rfl : t = .affine := by simpa using hrun
  have hpatterns := haffine.1 rfl
  have hbot : (start (.start residuesModFour .standard)).alpha.setoid = ⊥ :=
    Partition.setoid_finest residuesModFour.size
  simp only [Shows, hbot] at hpatterns
  exact ⟨⟨_, _, htype, rfl⟩, hpatterns.2.2, hpatterns.1, hpatterns.2.1⟩

end TypeFinder

end UniversalAlgebra
