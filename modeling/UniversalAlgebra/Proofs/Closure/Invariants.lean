/-
**What every run of a closure keeps.**

A closure records what it discovers twice: as a sequence, and in a form that answers quickly, a bit
set, a hash set or a partition.  The two agree in every state that can come about, however closing was
ended in between: by the cap, by an observer, or by an operation that failed.  For a partition the
sequence holds the pairs of least elements as they were when two blocks were merged, and these pairs
generate it, one for each block that was lost.

As nothing is discovered twice, closing discovers few items, and so it ends.

Main definitions:

* `Closure.PassesTo` — passes follow each other until nothing is fresh or one of them ends early;
* `Closure.Arises` — the states that some beginnings, changes and closings lead to;
* `Closure.ClosesWithin` — closing only appends, up to a bound, and ends.

Main results:

* `Closure.Upholds.close` — closing keeps the invariant, however it ends;
* `Closure.Upholds.passesTo` — passes come to an end by themselves;
* `Closure.records_agree` — **the two records of pairs, elements and tuples agree in every state**.
-/

import UniversalAlgebra.Proofs.Closure.Calls
import UniversalAlgebra.Proofs.Closure.Cuts

set_option autoImplicit false

namespace UniversalAlgebra

open Growth

namespace Closure

variable {σ ι : Type} [Growth σ ι]

/-! ### What every run keeps -/

section Keeps

variable {ops : List Operation} {P : ι → Prop} {J : σ → Prop} {s : σ}

namespace Upholds

theorem parallelPass (h : Upholds ops P J) (cap start stop : ℕ) (hs : J s) :
    J (Outcome.ofPasses (Closure.parallelPass cap ops start stop s)).state := by
  rw [parallelPass_eq]
  cases hfound : collect (outcomes ops start stop s) with
  | error fault => exact hs
  | ok xs =>
      refine keeps_foldlM (fun t x hx ht => h.absorb cap ht ?_) hs
      obtain ⟨op, hop, houtcome⟩ := List.mem_flatMap.1 (mem_of_collect hfound hx)
      obtain ⟨args, -, himage⟩ := List.mem_map.1 houtcome
      exact h.image hs hop himage

theorem pass (h : Upholds ops P J) (mode : Mode) (cap start stop : ℕ) (hs : J s) :
    J (Outcome.ofPasses (Closure.pass mode cap ops start stop s)).state := by
  cases mode with
  | sequential => exact h.sequentialPass cap start stop hs
  | parallel => exact h.parallelPass cap start stop hs

theorem passes (h : Upholds ops P J) (mode : Mode) (cap fuel mark : ℕ) (hs : J s) :
    J (Outcome.ofPasses (Closure.passes mode cap ops fuel mark s)).state := by
  induction fuel generalizing mark s with
  | zero => exact hs
  | succ fuel ih =>
      rw [Closure.passes]
      by_cases hmark : mark < size s
      · have hpass := h.pass mode cap mark (size s) hs
        simp only [if_pos hmark]
        cases hr : Closure.pass mode cap ops mark (size s) s with
        | error halt =>
            rw [hr] at hpass
            exact hpass
        | ok s' =>
            rw [hr] at hpass
            exact ih (size s) hpass
      · simp only [if_neg hmark]
        exact hs

/-- Closing keeps the invariant, however it ends. -/
theorem close {A : Algebra} (h : Upholds A.operations P J) (mode : Mode) (cap mark : ℕ) (hs : J s) :
    J (Closure.close A mode cap mark s).state := by
  rw [Closure.close]
  split
  · exact hs
  · exact h.passes mode cap _ mark hs

theorem runsTo {A : Algebra} (h : Upholds A.operations P J) {cap mark : ℕ} (hs : J s) {o : Outcome σ}
    (ho : RunsTo A cap mark s o) : J o.state := by
  obtain ⟨mode, rfl⟩ := ho.exists_mode
  exact h.close mode cap mark hs

/-- What was discovered first stays at the front. -/
theorem and_prefix {items : σ → List ι} (h : Upholds ops P J) (hitems : Appends items)
    (before : List ι) : Upholds ops P fun t => J t ∧ before <+: items t where
  image hs hop himage := h.image hs.1 hop himage
  accept hs hx haccept := ⟨h.accept hs.1 hx haccept, hs.2.trans (hitems _ _ _ _ haccept)⟩

end Upholds

/-! ### The end of the passes -/

/-- Passes from a settled part and a state on, one after the other for as long as something is fresh and
none of them ends early, come to this result. -/
inductive PassesTo (mode : Mode) (cap : ℕ) (ops : List Operation) : ℕ → σ → Except (Halt σ) σ → Prop
  | settled {mark : ℕ} {s : σ} (hmark : ¬mark < size s) : PassesTo mode cap ops mark s (.ok s)
  | halted {mark : ℕ} {s : σ} {halt : Halt σ} (hmark : mark < size s)
      (hpass : pass mode cap ops mark (size s) s = .error halt) :
      PassesTo mode cap ops mark s (.error halt)
  | next {mark : ℕ} {s s' : σ} {result : Except (Halt σ) σ} (hmark : mark < size s)
      (hpass : pass mode cap ops mark (size s) s = .ok s')
      (rest : PassesTo mode cap ops (size s) s' result) : PassesTo mode cap ops mark s result

/-- As there are not many items, passes come to an end before the fuel does: there are more of them with
each pass after which another one follows. -/
theorem Upholds.passesTo {bound : ℕ} (h : Upholds ops P J) (hbound : ∀ s, J s → size s ≤ bound)
    (mode : Mode) (cap : ℕ) {fuel mark : ℕ} (hs : J s) (hfuel : mark < size s → bound < size s + fuel) :
    PassesTo mode cap ops mark s (Closure.passes mode cap ops fuel mark s) := by
  induction fuel generalizing mark s with
  | zero =>
      refine .settled fun hmark => ?_
      have hle := hbound s hs
      have hlt := hfuel hmark
      omega
  | succ fuel ih =>
      rw [Closure.passes]
      by_cases hmark : mark < size s
      · have hpass := h.pass mode cap mark (size s) hs
        simp only [if_pos hmark]
        cases hr : Closure.pass mode cap ops mark (size s) s with
        | error halt => exact .halted hmark hr
        | ok s' =>
            rw [hr] at hpass
            have hlt := hfuel hmark
            exact .next hmark hr (ih hpass fun _ => by omega)
      · simp only [if_neg hmark]
        exact .settled hmark

/-- Closing is passes that come to an end. -/
theorem Upholds.exists_passesTo {A : Algebra} {bound : ℕ} (h : Upholds A.operations P J)
    (hbound : ∀ s, J s → size s ≤ bound) (mode : Mode) (cap mark : ℕ) (hs : J s)
    (hcapacity : bound ≤ size s + capacity A.size s) :
    ∃ result, PassesTo mode cap A.operations mark s result ∧
      Closure.close A mode cap mark s = .ofPasses result := by
  by_cases hmark : mark < size s
  · rw [Closure.close]
    split
    · next hidle =>
        -- something is fresh, so there are no operations, and the one pass there is changes nothing
        have hempty : A.operations = [] := by simpa [Nat.not_le.2 hmark] using hidle
        have hpass : Closure.pass mode cap A.operations mark (size s) s = .ok s := by
          rw [hempty]
          cases mode <;> rfl
        exact ⟨.ok s, .next hmark hpass (.settled (lt_irrefl _)), rfl⟩
    · exact ⟨_, h.passesTo hbound mode cap hs fun _ => by omega, rfl⟩
  · rw [Closure.close, if_pos (Or.inr (Nat.not_lt.1 hmark))]
    exact ⟨.ok s, .settled hmark, rfl⟩

end Keeps

/-! ### The states that come about -/

/-- The states that come about from those in which a closure begins, by changes from outside and by
closing under some algebras, with any cap and any settled part, in whichever mode, and however it ends.
-/
inductive Arises (begins : σ → Prop) (changes : σ → σ → Prop) (under : Algebra → Prop) : σ → Prop
  | begun {s : σ} (h : begins s) : Arises begins changes under s
  | changed {s t : σ} (hs : Arises begins changes under s) (h : changes s t) :
      Arises begins changes under t
  | closed {s : σ} {A : Algebra} {cap mark : ℕ} {o : Outcome σ} (hs : Arises begins changes under s)
      (hA : under A) (ho : RunsTo A cap mark s o) : Arises begins changes under o.state

/-- An invariant that the beginnings, the changes and the operations keep holds in every state. -/
theorem Arises.inv {begins : σ → Prop} {changes : σ → σ → Prop} {under : Algebra → Prop} {J : σ → Prop}
    {P : ι → Prop} {s : σ} (hs : Arises begins changes under s) (hbegins : ∀ s, begins s → J s)
    (hchanges : ∀ s t, J s → changes s t → J t)
    (hclose : ∀ A, under A → Upholds A.operations P J) : J s := by
  induction hs with
  | begun h => exact hbegins _ h
  | changed _ h ih => exact hchanges _ _ ih h
  | closed _ hA ho ih => exact (hclose _ hA).runsTo ih ho

/-- Closing appends to what was discovered, not more items than the bound, and its passes come to an end.
-/
structure ClosesWithin (A : Algebra) (items : σ → List ι) (bound : ℕ) (s : σ) : Prop where
  appends {cap mark : ℕ} {o : Outcome σ} (ho : RunsTo A cap mark s o) :
    ∃ new, items o.state = items s ++ new ∧ new.length ≤ bound
  ends (mode : Mode) (cap mark : ℕ) : ∃ result, PassesTo mode cap A.operations mark s result ∧
    close A mode cap mark s = .ofPasses result

theorem Upholds.closesWithin {A : Algebra} {P : ι → Prop} {J : σ → Prop} {items : σ → List ι} {bound : ℕ}
    {s : σ} (h : Upholds A.operations P J) (hitems : Appends items)
    (hsize : ∀ s, (items s).length = size s) (hbound : ∀ t, J t → size t ≤ size s + bound) (hs : J s)
    (hcapacity : bound ≤ capacity A.size s) : ClosesWithin A items bound s where
  appends {_ _ o} ho := by
    obtain ⟨hinv, new, hnew⟩ := (h.and_prefix hitems (items s)).runsTo ⟨hs, List.prefix_refl _⟩ ho
    refine ⟨new, hnew.symm, ?_⟩
    have hle := hbound o.state hinv
    rw [← hsize, ← hsize, ← hnew, List.length_append] at hle
    omega
  ends mode cap mark := h.exists_passesTo hbound mode cap mark hs (by omega)

end Closure

open Closure

/-! ### Pairs -/

namespace CongruenceClosure

variable {n : ℕ} {s : CongruenceClosure}

/-- The states of a growing partition of `n` elements: it begins with a partition, any pair may be shown
to it, where one outside is refused and leaves it as it is, and it may be closed under any algebra. -/
def Arises (n : ℕ) : CongruenceClosure → Prop :=
  Closure.Arises (fun s => ∃ p : Partition, p.Valid ∧ p.size = n ∧ s = ofPartition p)
    (fun s t => ∃ p r, s.fold p = .ok (r, t)) fun _ => True

theorem faithful_ofPartition {p : Partition} (hp : p.Valid) : (ofPartition p).Faithful p.size := by
  refine (faithful_start p.size).foldAll fun q hq => ?_
  obtain ⟨i, hi, rfl⟩ := List.mem_map.1 hq
  have hlt : i < p.size := List.mem_range.1 (List.mem_filter.1 hi).1
  exact ⟨hp.rep_lt hlt, hlt⟩

/-- A pair that is not refused is one of elements, so that its blocks can be merged. -/
theorem Faithful.of_fold (hs : s.Faithful n) {p : ℕ × ℕ} {r : Reaction} {t : CongruenceClosure}
    (h : s.fold p = .ok (r, t)) : t.Faithful n := by
  obtain ⟨h₁, h₂⟩ := lt_of_fold_eq_ok hs h
  have hmerge : s.merge p.1 p.2 = (r, t) := Except.ok.inj ((accept_eq hs h₁ h₂).symm.trans h)
  have hkeep := hs.merge h₁ h₂
  rwa [hmerge] at hkeep

theorem upholds (ops : List Operation) : Upholds ops (fun _ => True) (Faithful n) where
  image _ _ _ := trivial
  accept hs _ h := hs.of_fold h

theorem Arises.faithful (hs : Arises n s) : s.Faithful n := by
  refine hs.inv ?_ ?_ fun A _ => upholds A.operations
  · rintro s ⟨p, hp, rfl, rfl⟩
    exact faithful_ofPartition hp
  · rintro s t hs ⟨p, r, h⟩
    exact hs.of_fold h

/-- The partition is the equivalence relation that the recorded pairs generate. -/
theorem Faithful.setoid_eq (hs : s.Faithful n) :
    s.partition.setoid = Relation.EqvGen.setoid fun x y => (x, y) ∈ s.pairs := by
  refine le_antisymm ?_ ?_
  · exact hs.isLeast.2 fun p hp => .rel p.1 p.2 hp
  · exact Setoid.eqvGen_le fun x y hxy => hs.isLeast.1 (x, y) hxy

theorem Faithful.size_eq_rank (hs : s.Faithful n) : s.pairs.size = s.partition.rank := by
  have hcount := hs.count
  rw [Partition.rank, hs.size_eq]
  omega

/-- A block is left as long as there are elements. -/
theorem Faithful.size_le_pred (hs : s.Faithful n) : s.pairs.size ≤ n - 1 := by
  have hcount := hs.count
  rcases Nat.eq_zero_or_pos n with rfl | hn
  · omega
  · have hpos : 0 < s.partition.blockCount := by
      rw [hs.valid.blockCount_eq]
      exact List.length_pos_of_mem (Partition.mem_representatives.2
        ⟨hs.valid.rep_lt (hs.size_eq ▸ hn), hs.valid.rep_rep_eq 0⟩)
    omega

theorem Faithful.closesWithin {A : Algebra} (hs : s.Faithful A.size) :
    ClosesWithin A (·.pairs.toList) (A.size - 1) s :=
  (upholds A.operations).closesWithin appends (fun _ => Array.length_toList)
    (fun _ ht => ht.size_le_pred.trans (Nat.le_add_left _ _)) hs (Nat.sub_le _ _)

end CongruenceClosure

/-! ### Elements -/

namespace SubuniverseClosure

variable {n : ℕ} {s : SubuniverseClosure}

/-- The states of a growing set of elements below `n`: it begins empty, elements may be shown to it, and
it may be closed under algebras of this size whose operations give elements if they give anything. -/
def Arises (n : ℕ) : SubuniverseClosure → Prop :=
  Closure.Arises (· = start n) (fun s t => ∃ x < n, t = (s.fold x).2) fun A => A.Checked ∧ A.size = n

theorem upholds {A : Algebra} (hA : A.Checked) :
    Upholds A.operations (· < A.size) (Faithful A.size) where
  image {s op args x} _ hop h := by
    obtain ⟨y, hy, hxy⟩ := Fallible.map_eq_ok.1 h
    obtain rfl : y = x := Option.some_inj.1 hxy
    exact hA op hop _ _ hy
  accept {s s' x r} hs hx h := by
    change Except.ok (s.fold x) = Except.ok (r, s') at h
    have hfold : s.fold x = (r, s') := Except.ok.inj h
    have hkeep := hs.fold hx
    rwa [hfold] at hkeep

theorem Arises.faithful (hs : Arises n s) : s.Faithful n := by
  refine hs.inv ?_ ?_ (P := (· < n)) ?_
  · rintro s rfl
    exact faithful_start n
  · rintro s t hs ⟨x, hx, rfl⟩
    exact hs.fold hx
  · rintro A ⟨hA, rfl⟩
    exact upholds hA

theorem Faithful.closesWithin {A : Algebra} (hA : A.Checked) (hs : s.Faithful A.size) :
    ClosesWithin A (·.elements.toList) A.size s :=
  (upholds hA).closesWithin appends (fun _ => Array.length_toList)
    (fun _ ht => ht.size_le.trans (Nat.le_add_left _ _)) hs le_rfl

end SubuniverseClosure

/-! ### Tuples -/

namespace SubpowerClosure

variable {τ : Type} {k : ℕ} {s : SubpowerClosure τ}

/-- The states of a growing set of tuples of length `k`: it begins empty, with an observer in some state,
generators and other tuples may be shown to it, and it may be closed under any algebra. -/
def Arises (τ : Type) (k : ℕ) : SubpowerClosure τ → Prop :=
  Closure.Arises (fun s => ∃ observe observer, s = observed k observe observer)
    (fun s t => ∃ x, t = s.insert x ∨ t = (s.fold x).2) fun _ => True

/-- The two records agree, whatever tuples they hold. -/
structure Consistent (k : ℕ) (s : SubpowerClosure τ) : Prop where
  power_eq : s.power = k
  contains_iff : ∀ t, s.contains t = true ↔ t ∈ s.tuples
  nodup : s.tuples.toList.Nodup

namespace Consistent

theorem push (hs : s.Consistent k) {t : List ℕ} (hnew : s.contains t = false) (observer : τ) :
    (s.push t observer).Consistent k := by
  refine ⟨hs.power_eq, contains_push_iff hs.contains_iff t observer, nodup_push hs.nodup ?_ observer⟩
  intro h
  simp [(hs.contains_iff t).2 h] at hnew

theorem insert (hs : s.Consistent k) (t : List ℕ) : (s.insert t).Consistent k := by
  rw [SubpowerClosure.insert]
  split
  · exact hs
  · next hnew => exact hs.push (Bool.eq_false_iff.2 hnew) s.observer

theorem of_accept (hs : s.Consistent k) {t : List ℕ} {r : Reaction} {s' : SubpowerClosure τ}
    (h : accept s t = .ok (r, s')) : s'.Consistent k := by
  rw [accept_eq] at h
  split at h
  · cases h
    exact hs
  · next hnew =>
      cases h
      exact hs.push (Bool.eq_false_iff.2 hnew) _

end Consistent

theorem consistent_observed (k : ℕ) (observe : τ → List ℕ → Bool × τ) (observer : τ) :
    (observed k observe observer).Consistent k :=
  ⟨rfl, by simp [observed, contains], by simp [observed]⟩

theorem Arises.consistent (hs : Arises τ k s) : s.Consistent k := by
  refine hs.inv ?_ ?_ (P := fun _ => True) ?_
  · rintro s ⟨observe, observer, rfl⟩
    exact consistent_observed k observe observer
  · rintro s t hs ⟨x, rfl | rfl⟩
    · exact hs.insert x
    · exact hs.of_accept (t := x) rfl
  · exact fun A _ => ⟨fun _ _ _ => trivial, fun hs _ h => hs.of_accept h⟩

/-- From the state `s` on only tuples of elements were taken in. -/
structure Gained (A : Algebra) (k : ℕ) (s t : SubpowerClosure τ) : Prop where
  consistent : t.Consistent k
  new : ∃ new, t.tuples.toList = s.tuples.toList ++ new ∧ ∀ u ∈ new, u ∈ A.tuples k

theorem Gained.size_le {A : Algebra} {t : SubpowerClosure τ} (h : Gained A k s t) :
    t.tuples.size ≤ s.tuples.size + A.size ^ k := by
  obtain ⟨new, htuples, hmem⟩ := h.new
  have hnodup := h.consistent.nodup
  rw [htuples] at hnodup
  have hle := length_le_pow (List.nodup_append.1 hnodup).2.1 hmem
  rw [← Array.length_toList, htuples, List.length_append, Array.length_toList]
  omega

theorem upholds {A : Algebra} (hA : A.Checked) :
    Upholds A.operations (· ∈ A.tuples k) (Gained A k s) where
  image {t op args u} ht hop h := by
    obtain ⟨v, hv, hu⟩ := Fallible.map_eq_ok.1 h
    obtain rfl : v = u := Option.some_inj.1 hu
    rw [SubpowerClosure.image, ht.consistent.power_eq] at hv
    simpa using mem_tuples_of_applyColumns hA hop hv (by simp)
  accept {t t' u r} ht hu h := by
    refine ⟨ht.consistent.of_accept h, ?_⟩
    obtain ⟨new, htuples, hmem⟩ := ht.new
    rw [accept_eq] at h
    split at h
    · cases h
      exact ⟨new, htuples, hmem⟩
    · cases h
      refine ⟨new ++ [u], ?_, List.forall_mem_append.2 ⟨hmem, List.forall_mem_singleton.2 hu⟩⟩
      rw [← List.append_assoc, ← htuples]
      exact Array.toList_push

theorem Consistent.closesWithin {A : Algebra} (hA : A.Checked) (hs : s.Consistent k) :
    ClosesWithin A (·.tuples.toList) (A.size ^ k) s := by
  have hcapacity : capacity A.size s = A.size ^ k := by
    change A.size ^ s.power = _
    rw [hs.power_eq]
  exact (upholds hA).closesWithin appends (fun _ => Array.length_toList) (fun _ ht => ht.size_le)
    ⟨hs, [], by simp⟩ hcapacity.ge

end SubpowerClosure

/-- **The two records of a closure agree in every state** that its beginning, whatever is shown to it,
and closings that may end in any way lead to.  The partition is the equivalence relation that the
recorded pairs generate, and there are as many pairs as the rank of the partition.  Elements and tuples
are recorded without repetition, and those that were recorded are those that the closure says it
contains.

So closing under an algebra of `n` elements takes in at most `n - 1` pairs, `n` elements or `n ^ k`
tuples, and it always ends. -/
theorem Closure.records_agree :
    (∀ n s, CongruenceClosure.Arises n s →
      s.partition.Valid ∧ s.partition.size = n ∧
      s.partition.setoid = Relation.EqvGen.setoid (fun x y => (x, y) ∈ s.pairs) ∧
      s.pairs.size = s.partition.rank ∧
      ∀ A : Algebra, A.size = n → ClosesWithin A (·.pairs.toList) (n - 1) s) ∧
    (∀ n s, SubuniverseClosure.Arises n s →
      s.elements.toList.Nodup ∧ (∀ x, s.contains x = true ↔ x ∈ s.elements) ∧
      ∀ A : Algebra, A.Checked → A.size = n → ClosesWithin A (·.elements.toList) n s) ∧
    ∀ (τ : Type) k s, SubpowerClosure.Arises τ k s →
      s.tuples.toList.Nodup ∧ (∀ t, s.contains t = true ↔ t ∈ s.tuples) ∧
      ∀ A : Algebra, A.Checked → ClosesWithin A (·.tuples.toList) (A.size ^ k) s := by
  refine ⟨fun n s h => ?_, fun n s h => ?_, fun τ k s h => ?_⟩
  · have hs := h.faithful
    refine ⟨hs.valid, hs.size_eq, hs.setoid_eq, hs.size_eq_rank, ?_⟩
    rintro A rfl
    exact hs.closesWithin
  · have hs := h.faithful
    refine ⟨hs.nodup, hs.contains_iff, ?_⟩
    rintro A hA rfl
    exact hs.closesWithin hA
  · have hs := h.consistent
    exact ⟨hs.nodup, hs.contains_iff, fun A hA => hs.closesWithin hA⟩

/-- Closing the pair of zero and one fails at the successor of two, after that of one was recorded.  The
two pairs generate what was merged until then. -/
theorem Closure.records_agree_partialSuccessor :
    let s := (CongruenceClosure.ofPartition (Partition.finest 3)).merge 0 1
    let o := close Algebra.partialSuccessor .sequential 0 0 s.2
    o.status = .error (.undefinedAt 0) ∧ o.state.pairs = #[(0, 1), (0, 2)] ∧
      o.state.partition.setoid = Relation.EqvGen.setoid (fun x y => (x, y) ∈ o.state.pairs) ∧
      o.state.partition.rank = 2 ∧
      ClosesWithin Algebra.partialSuccessor (·.elements.toList) 3 (SubuniverseClosure.start 3) ∧
      ClosesWithin Algebra.partialSuccessor (·.tuples.toList) (3 ^ 2) (SubpowerClosure.start 2) := by
  intro s o
  obtain ⟨hpairs, helements, htuples⟩ := Closure.records_agree
  have harises : CongruenceClosure.Arises 3 o.state := by
    refine .closed (.changed (.begun ⟨Partition.finest 3, Partition.valid_finest 3, by simp, rfl⟩)
      ⟨(0, 1), s.1, rfl⟩) trivial (runsTo_close _ .sequential 0 0 _)
  obtain ⟨-, -, hsetoid, hrank, -⟩ := hpairs 3 o.state harises
  obtain ⟨-, -, hsub⟩ := helements 3 (SubuniverseClosure.start 3) (.begun rfl)
  obtain ⟨-, -, hpower⟩ := htuples Unit 2 (SubpowerClosure.start 2) (.begun ⟨_, _, rfl⟩)
  have hclose : o = ⟨.error (.undefinedAt 0), (CongruenceClosure.start 3).foldAll [(0, 1), (1, 2)]⟩ := by
    change close _ _ 0 0 ((CongruenceClosure.start 3).foldAll [(0, 1)]) = _
    cbv
  have hrecorded : o.state.pairs = #[(0, 1), (0, 2)] := by
    rw [hclose]
    rfl
  refine ⟨by rw [hclose], hrecorded, hsetoid, ?_, ?_, ?_⟩
  · rw [← hrank, hrecorded]
    rfl
  · exact hsub _ Algebra.checked_partialSuccessor rfl
  · have hsize : Algebra.partialSuccessor.size = 3 := rfl
    have hwithin := hpower Algebra.partialSuccessor Algebra.checked_partialSuccessor
    rwa [hsize] at hwithin

end UniversalAlgebra
