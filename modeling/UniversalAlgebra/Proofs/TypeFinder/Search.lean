/-
**The search for subtraces ends at a minimal pair.**

A search moves from a pair to one that it generates, and never looks back.  What makes its end
minimal is that every pair it has visited generates the present one, up to the order of the two
elements: a visited pair that the end generates therefore generates the end in turn.  Each step
visits a new pair, so that there are fewer steps than pairs.

Main definitions:

* `Algebra.IsMinimal` — a pair that is generated by all uncollapsed pairs it generates;
* `TypeFinder.Passes` — a pair that a search does not move to;
* `TypeFinder.unvisited` — the number of pairs that were not visited.

Main results:

* `TypeFinder.nextPair_cases` — what a step can do;
* `TypeFinder.lastPair_minimal` — a search ends at a minimal pair;
* `TypeFinder.certify_eq` — the pairs that the end generates;
* `TypeFinder.findSubtraceOfPair_minimal` — **a search from a pair ends at a minimal pair**.
-/

import Mathlib
import UniversalAlgebra.Proofs.Closure.Subpower
import UniversalAlgebra.Proofs.CongruenceLattice.Generation
import UniversalAlgebra.TypeFinder.Search

set_option autoImplicit false

namespace UniversalAlgebra

/-! ### Pairs and what they generate -/

namespace Algebra

variable {A : Algebra} {alpha : Partition} {p q r : ℕ × ℕ}

/-- Each pair that is generated and not collapsed generates the pair in turn, up to the order of the
two elements. -/
def IsMinimal (A : Algebra) (alpha : Partition) (p : ℕ × ℕ) : Prop :=
  ∀ q ∈ A.sgPair p, ¬ alpha.setoid q.1 q.2 → p ∈ A.sgPair q ∨ p.swap ∈ A.sgPair q

/-- The pair `p`, in one of the two orders, generates `q`. -/
def Leads (A : Algebra) (p q : ℕ × ℕ) : Prop := q ∈ A.sgPair p ∨ q ∈ A.sgPair p.swap

theorem IsPair.swap (hp : A.IsPair p) : A.IsPair p.swap := ⟨hp.2, hp.1⟩

theorem Leads.swap (h : A.Leads p q) : A.Leads p.swap q := by
  rcases h with h | h
  · exact Or.inr (by rwa [Prod.swap_swap])
  · exact Or.inl h

theorem Leads.trans (hA : A.Total) (hp : A.IsPair p) (h : A.Leads p q) (hr : r ∈ A.sgPair q) :
    A.Leads p r := by
  rcases h with h | h
  · exact Or.inl (hA.sgPair_subset hp h hr)
  · exact Or.inr (hA.sgPair_subset hp.swap h hr)

/-- What leads to a pair generates it or the exchanged one. -/
theorem Leads.mem_or (hA : A.Total) (hp : A.IsPair p) (h : A.Leads p q) :
    q ∈ A.sgPair p ∨ q.swap ∈ A.sgPair p := by
  rcases h with h | h
  · exact Or.inl h
  · exact Or.inr ((hA.mem_sgPair_swap hp).1 h)

/-- The generators of a search are the pair and the diagonal. -/
theorem mem_pairGenerators {t : List ℕ} :
    t ∈ TypeFinder.pairGenerators A.size p ↔ t ∈ A.pairSeed p := by
  simp only [TypeFinder.pairGenerators, SubpowerClosure.diagonal, List.mem_cons, List.mem_map,
    List.mem_range, pairSeed, Set.mem_ofPred_eq]
  constructor
  · rintro (rfl | ⟨x, hx, rfl⟩)
    · exact Or.inl rfl
    · exact Or.inr ⟨x, hx, rfl⟩
  · rintro (rfl | ⟨x, hx, rfl⟩)
    · exact Or.inl rfl
    · exact Or.inr ⟨x, hx, rfl⟩

theorem setOf_pairGenerators (A : Algebra) (p : ℕ × ℕ) :
    {t | t ∈ TypeFinder.pairGenerators A.size p} = A.pairSeed p :=
  Set.ext fun _ => mem_pairGenerators

theorem diagonal_mem_pairGenerators {x : ℕ} (hx : x < A.size) :
    List.replicate 2 x ∈ TypeFinder.pairGenerators A.size p :=
  mem_pairGenerators.2 (Or.inr ⟨x, hx, rfl⟩)

/-- A pair written as a tuple is that pair. -/
theorem exists_pair_eq_iff {S : Set (ℕ × ℕ)} : (∃ q ∈ S, [p.1, p.2] = [q.1, q.2]) ↔ p ∈ S := by
  constructor
  · rintro ⟨q, hq, h⟩
    obtain rfl : p = q := by simpa [Prod.ext_iff] using h
    exact hq
  · intro h
    exact ⟨p, h, rfl⟩

/-- The tuples that a pair generates are those of the pairs it generates. -/
theorem Total.mem_subpower_pairSeed (hA : A.Total) (hp : A.IsPair p) {t : List ℕ} :
    t ∈ A.subpower 2 (A.pairSeed p) ↔ ∃ q ∈ A.sgPair p, t = [q.1, q.2] := by
  constructor
  · intro ht
    obtain ⟨q, -, rfl⟩ := mem_tuples_two.1
      ((hA.isLeast_subpower_pairSeed hp).1.1.subset_tuples ht)
    exact ⟨q, ht, rfl⟩
  · rintro ⟨q, hq, rfl⟩
    exact hq

end Algebra

namespace TypeFinder

open UniversalAlgebra.Algebra Query

variable {F : TypeFinder} {A : Algebra} {alpha : Partition} {visited : Std.HashSet (ℕ × ℕ)}
  {p q : ℕ × ℕ}

/-! ### Unordered pairs -/

theorem normalize_eq_or (p : ℕ × ℕ) : normalize p = p ∨ normalize p = p.swap := by
  rw [normalize]
  split
  · exact Or.inl rfl
  · exact Or.inr rfl

theorem isPair_normalize (hp : A.IsPair p) : A.IsPair (normalize p) := by
  rcases normalize_eq_or p with h | h <;> rw [h]
  · exact hp
  · exact hp.swap

theorem leads_normalize_left : A.Leads (normalize p) q ↔ A.Leads p q := by
  rcases normalize_eq_or p with h | h <;> rw [h]
  constructor
  · intro hleads
    have := hleads.swap
    rwa [Prod.swap_swap] at this
  · exact Leads.swap

/-! ### One step -/

/-- The pair is collapsed or was visited. -/
def Passes (alpha : Partition) (visited : Std.HashSet (ℕ × ℕ)) (p : ℕ × ℕ) : Prop :=
  alpha.setoid p.1 p.2 ∨ visited.contains (normalize p) = true

/-- An observer lets pass what is collapsed or was visited, and keeps anything else. -/
theorem observe_eq (w : Watch) (q : ℕ × ℕ) [Decidable (Passes alpha w.visited q)] :
    Watch.observe alpha w [q.1, q.2]
      = if Passes alpha w.visited q then (true, w)
        else (false, ⟨w.visited.insert (normalize q), some q⟩) := by
  change (if alpha.related q.1 q.2 then (true, w)
    else if w.visited.contains (normalize q) then (true, w)
    else (false, ⟨w.visited.insert (normalize q), some q⟩)) = _
  by_cases hrelated : alpha.related q.1 q.2 = true
  · have hpasses : Passes alpha w.visited q := Or.inl (Partition.related_iff.1 hrelated)
    rw [if_pos hrelated, if_pos hpasses]
  · by_cases hvisited : w.visited.contains (normalize q) = true
    · have hpasses : Passes alpha w.visited q := Or.inr hvisited
      rw [if_neg hrelated, if_pos hvisited, if_pos hpasses]
    · have hpasses : ¬ Passes alpha w.visited q := by
        rintro (h | h)
        · exact hrelated (Partition.related_iff.2 h)
        · exact hvisited h
      rw [if_neg hrelated, if_neg hvisited, if_neg hpasses]

/-- As long as the observer lets pass, it changes nothing; it stops at the first pair that does not
pass. -/
theorem watched_observe (hA : A.Total) (hp : A.IsPair p) (alpha : Partition)
    (visited : Std.HashSet (ℕ × ℕ)) :
    SubpowerClosure.Watched (Watch.observe alpha) (A.subpower 2 (A.pairSeed p))
      (fun w ts => w = ⟨visited, none⟩ ∧ ∀ q : ℕ × ℕ, [q.1, q.2] ∈ ts → Passes alpha visited q)
      (fun w _ => ∃ q ∈ A.sgPair p, ¬ Passes alpha visited q ∧
        w = ⟨visited.insert (normalize q), some q⟩) := by
  classical
  constructor
  · rintro w ts t ⟨rfl, hts⟩ ht hgo
    obtain ⟨q, hq, rfl⟩ := (hA.mem_subpower_pairSeed hp).1 ht
    rw [observe_eq] at hgo ⊢
    by_cases hpasses : Passes alpha visited q
    · rw [if_pos hpasses]
      refine ⟨rfl, ?_⟩
      intro r hr
      rcases Array.mem_push.1 hr with hr | hr
      · exact hts r hr
      · obtain rfl : r = q := by simpa [Prod.ext_iff] using hr
        exact hpasses
    · rw [if_neg hpasses] at hgo
      cases hgo
  · rintro w ts t ⟨rfl, -⟩ ht hgo
    obtain ⟨q, hq, rfl⟩ := (hA.mem_subpower_pairSeed hp).1 ht
    rw [observe_eq] at hgo ⊢
    by_cases hpasses : Passes alpha visited q
    · rw [if_pos hpasses] at hgo
      cases hgo
    · rw [if_neg hpasses]
      exact ⟨q, hq, hpasses, rfl⟩

theorem nextPair_eq (hcheck : F.checkPair p = .ok ()) {status : CloseStatus}
    {s : SubpowerClosure Watch}
    (hclose : Closure.close F.algebra F.lattice.mode 0 0
      ((SubpowerClosure.observed 2 (Watch.observe F.alpha)
        ⟨F.visited.insert (normalize p), none⟩).insertAll (pairGenerators F.algebra.size p))
      = ⟨.ok status, s⟩) :
    nextPair p F = .ok s.observer.next { F with visited := s.observer.visited } := by
  change (liftM (F.checkPair p) >>= _ : Query TypeFinder _) F = _
  rw [hcheck]
  change (liftM (Closure.close F.algebra F.lattice.mode 0 0
    ((SubpowerClosure.observed 2 (Watch.observe F.alpha)
      ⟨F.visited.insert (normalize p), none⟩).insertAll
        (pairGenerators F.algebra.size p))).status >>= _ : Query TypeFinder _) _ = _
  dsimp only [algebra] at hclose ⊢
  rw [hclose]
  rfl

theorem checkPair_eq (hA : F.algebra.Total) (hp : F.algebra.IsPair p) : F.checkPair p = .ok () := by
  rw [checkPair, hA.validate_eq hp.1, hA.validate_eq hp.2]
  rfl

/-- **What a step can do**: it visits the pair, and then it finds that everything the pair generates
is collapsed or was visited, or it visits a pair of which neither holds and moves there. -/
theorem nextPair_cases (hA : F.algebra.Total) (hp : F.algebra.IsPair p) :
    (nextPair p F = .ok none { F with visited := F.visited.insert (normalize p) } ∧
      ∀ q ∈ F.algebra.sgPair p, Passes F.alpha (F.visited.insert (normalize p)) q) ∨
    ∃ q ∈ F.algebra.sgPair p, ¬ Passes F.alpha (F.visited.insert (normalize p)) q ∧
      nextPair p F = .ok (some q)
        { F with visited := (F.visited.insert (normalize p)).insert (normalize q) } := by
  have hgenerators : ∀ t ∈ pairGenerators F.algebra.size p, t ∈ F.algebra.tuples 2 := by
    intro t ht
    exact pairSeed_subset hp (mem_pairGenerators.1 ht)
  have hwatched := watched_observe hA hp F.alpha (F.visited.insert (normalize p))
  rw [← setOf_pairGenerators] at hwatched
  -- the generators themselves pass
  have hinitial : ∀ ts : Array (List ℕ), (∀ t ∈ ts, t ∈ pairGenerators F.algebra.size p) →
      ∀ q : ℕ × ℕ, [q.1, q.2] ∈ ts → Passes F.alpha (F.visited.insert (normalize p)) q := by
    intro ts hts q hq
    rcases mem_pairGenerators.1 (hts _ hq) with h | ⟨x, -, h⟩
    · obtain rfl : q = p := by simpa [Prod.ext_iff] using h
      exact Or.inr (by simp)
    · obtain ⟨h₁, h₂⟩ : q.1 = x ∧ q.2 = x := by simpa using h
      exact Or.inl (by rw [h₁, h₂])
  obtain ⟨s, -, ⟨hclose, hmem, hobserver, hpasses⟩ | ⟨hclose, -, q, hq, hpasses, hobserver⟩⟩ :=
    SubpowerClosure.close_insertAll hA F.lattice.mode hgenerators
      (fun x hx => diagonal_mem_pairGenerators hx) hwatched _ fun ts hts => ⟨rfl, hinitial ts hts⟩
  · refine Or.inl ⟨?_, ?_⟩
    · rw [nextPair_eq (checkPair_eq hA hp) hclose, hobserver]
    · intro q hq
      refine hpasses q ((hmem _).2 ?_)
      rwa [setOf_pairGenerators]
  · refine Or.inr ⟨q, hq, hpasses, ?_⟩
    rw [nextPair_eq (checkPair_eq hA hp) hclose, hobserver]

/-! ### The whole search -/

/-- The number of pairs of elements that were not visited. -/
def unvisited (n : ℕ) (visited : Std.HashSet (ℕ × ℕ)) : ℕ :=
  ((Finset.range n ×ˢ Finset.range n).filter fun q => visited.contains q = false).card

theorem unvisited_le (n : ℕ) (visited : Std.HashSet (ℕ × ℕ)) : unvisited n visited ≤ n ^ 2 := by
  have h := Finset.card_filter_le (Finset.range n ×ˢ Finset.range n)
    fun q => visited.contains q = false
  rwa [Finset.card_product, Finset.card_range, ← Nat.pow_two] at h

/-- Visiting a new pair leaves fewer pairs that were not visited. -/
theorem unvisited_insert_lt (hq : A.IsPair q) (hnew : visited.contains q = false) :
    unvisited A.size (visited.insert q) < unvisited A.size visited := by
  refine Finset.card_lt_card (Finset.ssubset_iff_of_subset ?_ |>.2 ⟨q, ?_, ?_⟩)
  · intro r hr
    simp only [Finset.mem_filter, Std.HashSet.contains_insert, Bool.or_eq_false_iff] at hr ⊢
    exact ⟨hr.1, hr.2.2⟩
  · simpa [hq.1, hq.2] using hnew
  · simp

/-- Every visited pair is a pair of elements and leads to the present pair. -/
def Led (A : Algebra) (visited : Std.HashSet (ℕ × ℕ)) (p : ℕ × ℕ) : Prop :=
  ∀ v, visited.contains v = true → A.IsPair v ∧ A.Leads v p

/-- Visiting the present pair keeps it so. -/
theorem Led.insert (hA : A.Total) (hp : A.IsPair p) (h : Led A visited p) :
    Led A (visited.insert (normalize p)) p := by
  intro v hv
  rw [Std.HashSet.contains_insert, Bool.or_eq_true, beq_iff_eq] at hv
  rcases hv with rfl | hv
  · exact ⟨isPair_normalize hp, leads_normalize_left.2 (Or.inl (hA.self_mem_sgPair hp))⟩
  · exact h v hv

/-- So does moving to a pair that is generated. -/
theorem Led.move (hA : A.Total) (h : Led A visited p) (hq : q ∈ A.sgPair p) : Led A visited q := by
  intro v hv
  obtain ⟨hpair, hleads⟩ := h v hv
  exact ⟨hpair, hleads.trans hA hpair hq⟩

/-- If nothing is left to move to, the present pair is minimal. -/
theorem Led.isMinimal (hA : A.Total) (hp : A.IsPair p) (h : Led A visited p)
    (hpasses : ∀ q ∈ A.sgPair p, Passes alpha visited q) : A.IsMinimal alpha p := by
  intro q hq hcollapsed
  have hpair := hA.isPair_of_mem_sgPair hp hq
  rcases hpasses q hq with hrelated | hvisited
  · exact absurd hrelated hcollapsed
  · obtain ⟨-, hleads⟩ := h _ hvisited
    exact (leads_normalize_left.1 hleads).mem_or hA hpair

/-- **A search ends at a minimal pair.**  It takes no more steps than there are pairs that were not
visited, so that any fuel above that number leads to the same end. -/
theorem lastPair_minimal (hA : F.algebra.Total) (hp : F.algebra.IsPair p)
    (hcollapsed : ¬ F.alpha.setoid p.1 p.2) (hled : Led F.algebra F.visited p) :
    ∃ q ∈ F.algebra.sgPair p, ¬ F.alpha.setoid q.1 q.2 ∧ F.algebra.IsMinimal F.alpha q ∧
      ∃ visited, ∀ fuel, unvisited F.algebra.size (F.visited.insert (normalize p)) < fuel →
        lastPair fuel p F = .ok q { F with visited := visited } := by
  induction hm : unvisited F.algebra.size (F.visited.insert (normalize p)) using
    Nat.strong_induction_on generalizing p F with
  | h m ih =>
      rcases nextPair_cases hA hp with ⟨hnone, hpasses⟩ | ⟨q, hq, hpasses, hsome⟩
      · refine ⟨p, hA.self_mem_sgPair hp, hcollapsed, (hled.insert hA hp).isMinimal hA hp hpasses,
          F.visited.insert (normalize p), ?_⟩
        intro fuel hfuel
        cases fuel with
        | zero => exact absurd hfuel (Nat.not_lt_zero m)
        | succ fuel =>
            rw [lastPair, bind_apply, hnone]
            rfl
      · have hpair := hA.isPair_of_mem_sgPair hp hq
        have hnew : (F.visited.insert (normalize p)).contains (normalize q) = false := by
          rw [← Bool.not_eq_true]
          exact fun h => hpasses (Or.inr h)
        have hled' : Led F.algebra ((F.visited.insert (normalize p)).insert (normalize q)) q :=
          ((hled.insert hA hp).move hA hq).insert hA hpair
        have hless := unvisited_insert_lt (isPair_normalize hpair) hnew
        -- the pair moved to is visited already, so that visiting it again changes no number
        have hagain : unvisited F.algebra.size
            (((F.visited.insert (normalize p)).insert (normalize q)).insert (normalize q))
            = unvisited F.algebra.size ((F.visited.insert (normalize p)).insert (normalize q)) := by
          simp [unvisited]
        obtain ⟨r, hr, hrcollapsed, hminimal, visited, hlast⟩ :=
          ih _ (hm ▸ hless)
            (F := { F with visited := (F.visited.insert (normalize p)).insert (normalize q) })
            hA hpair (fun h => hpasses (Or.inl h)) hled' hagain
        refine ⟨r, hA.sgPair_subset hp hq hr, hrcollapsed, hminimal, visited, ?_⟩
        intro fuel hfuel
        cases fuel with
        | zero => exact absurd hfuel (Nat.not_lt_zero m)
        | succ fuel =>
            rw [lastPair, bind_apply, hsome]
            exact hlast fuel (by omega)

/-! ### The subtrace of the last pair -/

/-- The closure that certifies a pair lists exactly what the pair generates, each once. -/
theorem certify_eq (hA : F.algebra.Total) (hp : F.algebra.IsPair p) :
    ∃ s, F.certify p = .ok s ∧ s.pair = p ∧ s.pairs.Nodup ∧
      (∀ t, t ∈ s.pairs ↔ ∃ q ∈ F.algebra.sgPair p, t = [q.1, q.2]) ∧
      (s.hasInvolution = true ↔ p.swap ∈ F.algebra.sgPair p) := by
  have hgenerators : ∀ t ∈ pairGenerators F.algebra.size p, t ∈ F.algebra.tuples 2 := by
    intro t ht
    exact pairSeed_subset hp (mem_pairGenerators.1 ht)
  have hwatched : SubpowerClosure.Watched (fun (_ : Unit) (_ : List ℕ) => (true, ()))
      (F.algebra.subpower 2 {t | t ∈ pairGenerators F.algebra.size p}) (fun _ _ => True)
      fun _ _ => False := by
    refine ⟨fun _ _ _ _ _ _ => trivial, ?_⟩
    rintro _ _ _ _ _ ⟨⟩
  obtain ⟨s, hs, ⟨hclose, hmem, -⟩ | ⟨-, -, hfalse⟩⟩ :=
    SubpowerClosure.close_insertAll hA F.lattice.mode hgenerators
      (fun x hx => diagonal_mem_pairGenerators hx) hwatched () fun _ _ => trivial
  · have htuples : ∀ t, t ∈ s.tuples ↔ ∃ q ∈ F.algebra.sgPair p, t = [q.1, q.2] := by
      intro t
      rw [hmem, setOf_pairGenerators, hA.mem_subpower_pairSeed hp]
    refine ⟨{ Subtrace.ofPair p (s.contains [p.2, p.1]) with pairs := s.tuples.toList }, ?_, rfl,
      hs.nodup, ?_, ?_⟩
    · have hgenerate : F.lattice.generateTuples
          ((SubpowerClosure.start 2).insertAll (pairGenerators F.algebra.size p)) = .ok s :=
        CongruenceLattice.generateTuples_eq hclose
      change (F.lattice.generateTuples
        ((SubpowerClosure.start 2).insertAll (pairGenerators F.algebra.size p)) >>= _) = _
      rw [hgenerate]
      rfl
    · intro t
      rw [Array.mem_toList_iff, htuples]
    · change s.contains [p.2, p.1] = true ↔ _
      rw [hs.contains_iff, htuples]
      exact exists_pair_eq_iff (p := p.swap)
  · exact hfalse.elim

/-- A search from a pair that is not collapsed certifies a minimal pair, and more fuel would not
lead it anywhere else. -/
theorem findSubtraceOfPair_eq (hA : F.algebra.Total) (hp : F.algebra.IsPair p)
    (hcollapsed : ¬ F.alpha.setoid p.1 p.2) :
    ∃ q ∈ F.algebra.sgPair p, ¬ F.alpha.setoid q.1 q.2 ∧ F.algebra.IsMinimal F.alpha q ∧
      ∃ visited, findSubtraceOfPair p F = answer (F.certify q) { F with visited := visited } ∧
        ∀ fuel, F.algebra.size ^ 2 < fuel →
          lastPair fuel p { F with visited := ∅ } = .ok q { F with visited := visited } := by
  have hled : Led F.algebra ∅ p := by
    intro v hv
    simp at hv
  have hle := unvisited_le F.algebra.size ((∅ : Std.HashSet (ℕ × ℕ)).insert (normalize p))
  obtain ⟨q, hq, hqcollapsed, hminimal, visited, hlast⟩ :=
    lastPair_minimal (F := { F with visited := ∅ }) hA hp hcollapsed hled
  refine ⟨q, hq, hqcollapsed, hminimal, visited, ?_, fun fuel hfuel => hlast fuel (hle.trans_lt hfuel)⟩
  have hrelated : F.alpha.related p.1 p.2 = false := by
    rw [← Bool.not_eq_true]
    exact fun h => hcollapsed (Partition.related_iff.1 h)
  change (liftM (F.checkPair p) >>= fun _ => if F.alpha.related p.1 p.2 then _ else _ :
    Query TypeFinder Subtrace) F = _
  rw [checkPair_eq hA hp, hrelated]
  change (lastPair (F.algebra.size * F.algebra.size + 1) p >>= fun q => do (← get).certify q :
    Query TypeFinder Subtrace) { F with visited := ∅ } = _
  rw [← Nat.pow_two, bind_apply, hlast _ (Nat.lt_succ_of_le hle)]
  change (liftM (F.certify q) : Query TypeFinder Subtrace) { F with visited := visited } = _
  cases F.certify q <;> rfl

/-- **A search from a pair that is not collapsed ends at a minimal pair.**  It does not fail,
changes nothing but what was visited, and ends before its fuel does: more of it leads to the same
pair.  That pair is generated by the first one and not collapsed; the listed pairs are exactly those
it generates, each once; it is said to have an involution exactly if it generates the exchanged
pair; and every pair it generates that is not collapsed generates it in turn, up to the order of the
two elements. -/
theorem findSubtraceOfPair_minimal (hA : F.algebra.Total) (hp : F.algebra.IsPair p)
    (hcollapsed : ¬ F.alpha.setoid p.1 p.2) :
    ∃ s visited, findSubtraceOfPair p F = .ok s { F with visited := visited } ∧
      (∀ fuel, F.algebra.size ^ 2 < fuel →
        lastPair fuel p { F with visited := ∅ } = .ok s.pair { F with visited := visited }) ∧
      s.pair ∈ F.algebra.sgPair p ∧ ¬ F.alpha.setoid s.pair.1 s.pair.2 ∧
      s.pairs.Nodup ∧ (∀ t, t ∈ s.pairs ↔ ∃ q ∈ F.algebra.sgPair s.pair, t = [q.1, q.2]) ∧
      (s.hasInvolution = true ↔ s.pair.swap ∈ F.algebra.sgPair s.pair) ∧
      ∀ q ∈ F.algebra.sgPair s.pair, ¬ F.alpha.setoid q.1 q.2 →
        s.pair ∈ F.algebra.sgPair q ∨ s.pair.swap ∈ F.algebra.sgPair q := by
  obtain ⟨q, hq, hqcollapsed, hminimal, visited, hfind, hlast⟩ :=
    findSubtraceOfPair_eq hA hp hcollapsed
  obtain ⟨s, hcertify, rfl, hnodup, hpairs, hinvolution⟩ :=
    certify_eq hA (hA.isPair_of_mem_sgPair hp hq)
  rw [hcertify] at hfind
  exact ⟨s, visited, hfind, hlast, hq, hqcollapsed, hnodup, hpairs, hinvolution, hminimal⟩

/-- In the residues modulo four the search from zero and one ends at one and three, which have an
involution and are generated by all pairs of distinct elements that they generate. -/
theorem findSubtrace_zero_one_residuesModFour :
    (∃ s F, findSubtraceOfPair (0, 1) (start (.start residuesModFour .standard)) = .ok s F ∧
      s.pair = (1, 3)) ∧ (3, 1) ∈ residuesModFour.sgPair (1, 3) ∧
      ∀ q ∈ residuesModFour.sgPair (1, 3), q.1 ≠ q.2 →
        (1, 3) ∈ residuesModFour.sgPair q ∨ (3, 1) ∈ residuesModFour.sgPair q := by
  have hpair : residuesModFour.IsPair (0, 1) := ⟨by decide, by decide⟩
  have hcollapsed : ¬ (Partition.finest residuesModFour.size).setoid 0 1 := by
    simp [Partition.setoid_iff]
  have hrun : ((findSubtraceOfPair (0, 1)).value? (start (.start residuesModFour .standard))).map
      (fun s => (s.pair, s.hasInvolution)) = some ((1, 3), true) := by cbv
  obtain ⟨s, visited, hfind, -, -, -, -, -, hinvolution, hminimal⟩ :=
    findSubtraceOfPair_minimal (F := start (.start residuesModFour .standard))
      total_residuesModFour hpair hcollapsed
  rw [value?_eq_some.2 ⟨_, hfind⟩] at hrun
  obtain ⟨hs, htrue⟩ : s.pair = (1, 3) ∧ s.hasInvolution = true := by simpa using hrun
  rw [hs] at hinvolution hminimal
  refine ⟨⟨s, _, hfind, hs⟩, hinvolution.1 htrue, ?_⟩
  intro q hq hne
  refine hminimal q hq ?_
  change ¬ (Partition.finest residuesModFour.size).setoid q.1 q.2
  rw [Partition.setoid_finest]
  exact hne

end TypeFinder

end UniversalAlgebra
