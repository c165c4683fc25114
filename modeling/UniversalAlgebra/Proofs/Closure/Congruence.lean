/-
**Closing pairs into a congruence.**

The recorded pairs are pairs of least elements of blocks, as they were when the blocks were merged,
and they are never looked at again after later merges.  They do not have to be: at every moment they
generate the whole partition.  When all their images are related, the partition is therefore
compatible with the operations, and it stays inside every compatible relation that has what was
merged at first.

Main definitions:

* `CongruenceClosure.Faithful` — the recorded pairs generate the partition, and there are as many as
  blocks were lost.

Main results:

* `CongruenceClosure.Faithful.foldAll` — taking in a list of pairs;
* `CongruenceClosure.compatible_of_settled` — **a settled closure is compatible with the
  operations**;
* `CongruenceClosure.close_isLeastCongruence` — closing ends closed with the least congruence.
-/

import UniversalAlgebra.Closure.Congruence
import UniversalAlgebra.Proofs.Algebra.Compatible
import UniversalAlgebra.Proofs.Closure.Engine
import UniversalAlgebra.Proofs.Tuples

set_option autoImplicit false

namespace UniversalAlgebra.CongruenceClosure

open Closure Growth

variable {A : Algebra} {n : ℕ} {s : CongruenceClosure}

/-! ### The pairs recorded so far -/

/-- The recorded pairs generate the partition, and there are as many as blocks were lost. -/
structure Faithful (n : ℕ) (s : CongruenceClosure) : Prop where
  valid : s.partition.Valid
  size_eq : s.partition.size = n
  count : s.pairs.size + s.partition.blockCount = n
  lt : ∀ p ∈ s.pairs, p.1 < n ∧ p.2 < n
  isLeast : IsLeast {t : Setoid ℕ | ∀ p ∈ s.pairs, t p.1 p.2} s.partition.setoid

theorem faithful_start (n : ℕ) : (start n).Faithful n := by
  refine ⟨Partition.valid_finest n, Partition.size_finest n, by simp [start, Partition.finest],
    by simp [start], by simp [start], ?_⟩
  intro t _
  rw [start, Partition.setoid_finest]
  exact bot_le

/-- Merging blocks relates the two elements in the partition. -/
@[simp] theorem partition_merge (s : CongruenceClosure) (a b : ℕ) :
    (s.merge a b).2.partition = s.partition.relate a b := by
  rw [merge]
  split
  · next h => rw [Partition.relate, if_pos h]
  · rfl

theorem foldAll_partition (s : CongruenceClosure) (ps : List (ℕ × ℕ)) :
    (s.foldAll ps).partition = ps.foldl (fun p q => p.relate q.1 q.2) s.partition := by
  induction ps generalizing s with
  | nil => rfl
  | cons q ps ih =>
      rw [List.foldl_cons, ← partition_merge]
      exact ih (s.merge q.1 q.2).2

namespace Faithful

/-- Each recorded pair took a block away. -/
theorem size_le (hs : s.Faithful n) : s.pairs.size ≤ n := by
  have := hs.count
  omega

theorem merge (hs : s.Faithful n) {a b : ℕ} (ha : a < n) (hb : b < n) :
    (s.merge a b).2.Faithful n := by
  have ha' : a < s.partition.size := hs.size_eq ▸ ha
  have hb' : b < s.partition.size := hs.size_eq ▸ hb
  by_cases hab : s.partition.rep a = s.partition.rep b
  · rwa [CongruenceClosure.merge, if_pos hab]
  · obtain ⟨⟨hle, hrel⟩, hleast⟩ := hs.valid.isLeast_relate ha' hb'
    have hra : s.partition.setoid a (s.partition.rep a) := (hs.valid.rep_rep_eq a).symm
    have hrb : s.partition.setoid b (s.partition.rep b) := (hs.valid.rep_rep_eq b).symm
    rw [CongruenceClosure.merge, if_neg hab]
    refine ⟨hs.valid.relate ha' hb', (Partition.size_relate _ a b).trans hs.size_eq, ?_, ?_,
      ?_, ?_⟩
    · -- one pair more and one block less
      have hcount := hs.count
      have hpos : 0 < s.partition.blockCount := by
        rw [hs.valid.blockCount_eq]
        exact List.length_pos_of_mem (Partition.mem_representatives.2
          ⟨hs.valid.rep_lt ha', hs.valid.rep_rep_eq a⟩)
      simp only [Array.size_push, Partition.relate, if_neg hab, Partition.merge]
      omega
    · intro p hp
      rcases Array.mem_push.1 hp with hp | rfl
      · exact hs.lt p hp
      · exact ⟨hs.size_eq ▸ hs.valid.rep_lt ha', hs.size_eq ▸ hs.valid.rep_lt hb'⟩
    · intro p hp
      rcases Array.mem_push.1 hp with hp | rfl
      · exact hle (hs.isLeast.1 p hp)
      · exact Setoid.trans' _ (Setoid.symm' _ (hle hra)) (Setoid.trans' _ hrel (hle hrb))
    · intro t ht
      have hold : s.partition.setoid ≤ t :=
        hs.isLeast.2 fun p hp => ht p (Array.mem_push.2 (Or.inl hp))
      have hnew : t (s.partition.rep a) (s.partition.rep b) :=
        ht _ (Array.mem_push.2 (Or.inr rfl))
      exact hleast ⟨hold, t.trans (hold hra) (t.trans hnew (t.symm (hold hrb)))⟩

theorem foldAll (hs : s.Faithful n) {ps : List (ℕ × ℕ)} (hps : ∀ p ∈ ps, p.1 < n ∧ p.2 < n) :
    (s.foldAll ps).Faithful n := by
  induction ps generalizing s with
  | nil => exact hs
  | cons p ps ih =>
      have hp := hps p List.mem_cons_self
      exact ih (hs.merge hp.1 hp.2) fun q hq => hps q (List.mem_cons_of_mem p hq)

end Faithful

/-- The partition after a list of pairs was taken in at the start. -/
theorem isLeast_foldAll_start {ps : List (ℕ × ℕ)} (hps : ∀ p ∈ ps, p.1 < n ∧ p.2 < n) :
    IsLeast {t : Setoid ℕ | ∀ p ∈ ps, t p.1 p.2} ((start n).foldAll ps).partition.setoid := by
  rw [foldAll_partition]
  have hlt : ∀ p ∈ ps, p.1 < (Partition.finest n).size ∧ p.2 < (Partition.finest n).size := by
    simpa using hps
  obtain ⟨⟨-, hrel⟩, hleast⟩ := (Partition.valid_finest n).isLeast_foldl_relate hlt
  refine ⟨hrel, fun t ht => hleast ⟨?_, ht⟩⟩
  rw [Partition.setoid_finest]
  exact bot_le

/-! ### Arguments and images -/

theorem insertIdx_append (before after : List ℕ) (z : ℕ) :
    (before ++ after).insertIdx before.length z = before ++ z :: after := by
  induction before with
  | nil => rfl
  | cons x before ih => rw [List.cons_append, List.length_cons, List.insertIdx_succ_cons, ih,
      List.cons_append]

/-- An argument is the number of a recorded pair, a position, and the arguments before and after
it. -/
theorem mem_drawn {op : Operation} {start stop : ℕ} {args : List ℕ} :
    args ∈ drawn s op start stop ↔ ∃ (index : ℕ) (before after : List ℕ),
      args = index :: before.length :: (before ++ after) ∧ (start ≤ index ∧ index < stop) ∧
        before.length + 1 + after.length = op.arity ∧
        ∀ x ∈ before ++ after, x < s.partition.size := by
  have hbox : args ∈ drawn s op start stop ↔ args ∈ Tuples.inBox
      ((start, stop) :: (0, op.arity) :: List.replicate (op.arity - 1) (0, s.partition.size)) := by
    simp [drawn, arguments]
  rw [hbox, Tuples.mem_inBox, List.forall₂_cons_right_iff]
  constructor
  · rintro ⟨index, rest, hindex, hrest, rfl⟩
    obtain ⟨position, others, ⟨-, hposition⟩, hothers, rfl⟩ := List.forall₂_cons_right_iff.1 hrest
    obtain ⟨hlen, hlt⟩ := Tuples.mem_inBox_replicate.1 (Tuples.mem_inBox.2 hothers)
    have hbefore : (others.take position).length = position := by
      rw [List.length_take]
      omega
    refine ⟨index, others.take position, others.drop position, ?_, hindex, ?_, ?_⟩
    · rw [hbefore, List.take_append_drop]
    · rw [hbefore, List.length_drop]
      omega
    · rwa [List.take_append_drop]
  · rintro ⟨index, before, after, rfl, hindex, hlen, hlt⟩
    have hothers : (before ++ after).length = op.arity - 1 := by
      rw [List.length_append]
      omega
    refine ⟨index, _, hindex, .cons ⟨Nat.zero_le _, by omega⟩ ?_, rfl⟩
    exact Tuples.mem_inBox.1 (Tuples.mem_inBox_replicate.2 ⟨hothers, hlt⟩)

instance : LawfulGrowth CongruenceClosure where
  drawn_zero {s op args} h := by
    obtain ⟨index, _, _, -, ⟨-, hlt⟩, -⟩ := mem_drawn.1 h
    exact Nat.not_lt_zero index hlt
  drawn_mono {s op start stop stop' args} hle h := by
    obtain ⟨index, before, after, rfl, ⟨-, hlt⟩, h⟩ := mem_drawn.1 h
    exact mem_drawn.2 ⟨index, before, after, rfl, ⟨Nat.zero_le _, hlt.trans_le hle⟩, h⟩
  drawn_split {s op start stop args} h := by
    obtain ⟨index, before, after, rfl, ⟨-, hlt⟩, h⟩ := mem_drawn.1 h
    rcases Nat.lt_or_ge index start with hindex | hindex
    · exact Or.inl (mem_drawn.2 ⟨index, before, after, rfl, ⟨Nat.zero_le _, hindex⟩, h⟩)
    · exact Or.inr (mem_drawn.2 ⟨index, before, after, rfl, ⟨hindex, hlt⟩, h⟩)

/-- Taking in a pair of elements. -/
theorem accept_eq (hs : s.Faithful n) {p : ℕ × ℕ} (h₁ : p.1 < n) (h₂ : p.2 < n) :
    accept s p = .ok (s.merge p.1 p.2) := by
  change s.fold p = _
  rw [fold, Partition.representative, Partition.representative, if_pos (hs.size_eq ▸ h₁),
    if_pos (hs.size_eq ▸ h₂)]
  rfl

theorem knows_iff (hs : s.Faithful n) {p : ℕ × ℕ} (h₁ : p.1 < n) (h₂ : p.2 < n) :
    Knows s p ↔ s.partition.setoid p.1 p.2 := by
  rw [Knows, accept_eq hs h₁ h₂, merge, Partition.setoid_iff]
  by_cases h : s.partition.rep p.1 = s.partition.rep p.2
  · simp [h]
  · simp [h]

/-- A pair that is not refused is one of elements. -/
theorem lt_of_fold_eq_ok (hs : s.Faithful n) {p : ℕ × ℕ} {out : Reaction × CongruenceClosure}
    (h : s.fold p = .ok out) : p.1 < n ∧ p.2 < n := by
  rw [fold, Partition.representative, Partition.representative, hs.size_eq] at h
  by_cases h₁ : p.1 < n
  · by_cases h₂ : p.2 < n
    · exact ⟨h₁, h₂⟩
    · rw [if_pos h₁, if_neg h₂] at h
      cases h
  · rw [if_neg h₁] at h
    cases h

/-- In particular a known pair is. -/
theorem lt_of_knows (hs : s.Faithful n) {p : ℕ × ℕ} (h : Knows s p) : p.1 < n ∧ p.2 < n :=
  lt_of_fold_eq_ok hs h

/-- The recorded pair with a given number. -/
def pairAt (s : CongruenceClosure) (index : ℕ) : ℕ × ℕ := s.pairs[index]?.getD (0, 0)

theorem pairAt_mem {index : ℕ} (h : index < s.pairs.size) : s.pairAt index ∈ s.pairs := by
  rw [pairAt, Array.getElem?_eq_getElem h, Option.getD_some]
  exact Array.getElem_mem h

/-- A component of a recorded pair between other arguments. -/
theorem translate_lt (hs : s.Faithful n) {before after : List ℕ}
    (hlt : ∀ x ∈ before ++ after, x < s.partition.size) {z : ℕ} (hz : z < n) :
    ∀ x ∈ before ++ z :: after, x < n := by
  intro x hx
  rcases List.mem_append.1 hx with hx | hx
  · exact hs.size_eq ▸ hlt x (List.mem_append_left _ hx)
  · rcases List.mem_cons.1 hx with rfl | hx
    · exact hz
    · exact hs.size_eq ▸ hlt x (List.mem_append_right _ hx)

/-- The image of a recorded pair under a translation. -/
theorem image_eq (hA : A.Total) (hs : s.Faithful A.size) {op : Operation} (hop : op ∈ A.operations)
    {index : ℕ} {before after : List ℕ} (hindex : index < s.pairs.size)
    (hlen : before.length + 1 + after.length = op.arity)
    (hlt : ∀ x ∈ before ++ after, x < s.partition.size) :
    Growth.image s op (index :: before.length :: (before ++ after))
      = .ok (if op.value (before ++ (s.pairAt index).1 :: after)
            = op.value (before ++ (s.pairAt index).2 :: after) then none
          else some (op.value (before ++ (s.pairAt index).1 :: after),
            op.value (before ++ (s.pairAt index).2 :: after))) := by
  have hpair := hs.lt _ (pairAt_mem hindex)
  have happly (z : ℕ) (hz : z < A.size) :
      op.apply ((before ++ after).insertIdx before.length z)
        = .ok (op.value (before ++ z :: after)) := by
    rw [insertIdx_append]
    refine hA.apply_eq hop ?_ (translate_lt hs hlt hz)
    rw [List.length_append, List.length_cons]
    omega
  have hpush : pushThrough op before.length (before ++ after) (s.pairAt index)
      = .ok (op.value (before ++ (s.pairAt index).1 :: after),
          op.value (before ++ (s.pairAt index).2 :: after)) := by
    rw [pushThrough, happly _ hpair.1, happly _ hpair.2]
    rfl
  change (pushThrough op before.length (before ++ after) (s.pairAt index) >>= _) = _
  rw [hpush]
  rfl

/-- Merging two blocks leaves the numbers of the recorded pairs alone. -/
theorem extends_merge (hs : s.Faithful n) {a b : ℕ} (ha : a < n) (hb : b < n) :
    Extends s (s.merge a b).2 := by
  have hsize : (s.merge a b).2.partition.size = s.partition.size := by
    rw [partition_merge, Partition.size_relate]
  have hget (index : ℕ) (h : index < s.pairs.size) :
      (s.merge a b).2.pairs[index]? = s.pairs[index]? := by
    rw [merge]
    split
    · rfl
    · rw [Array.getElem?_push_lt h, Array.getElem?_eq_getElem h]
  refine ⟨?_, fun _ => rfl, ?_, ?_, ?_⟩
  · change s.pairs.size ≤ (s.merge a b).2.pairs.size
    rw [merge]
    split
    · exact le_refl _
    · simp
  · intro op start stop
    simp only [arguments, hsize]
  · intro op args hargs
    obtain ⟨index, before, after, rfl, ⟨-, hlt⟩, -⟩ := mem_drawn.1 hargs
    change (s.merge a b).2.image op _ = s.image op _
    rw [image, image, hget index hlt]
  · intro p hp
    obtain ⟨h₁, h₂⟩ := lt_of_knows hs hp
    rw [knows_iff hs h₁ h₂] at hp
    rw [knows_iff (hs.merge ha hb) h₁ h₂, partition_merge]
    exact (hs.valid.isLeast_relate (hs.size_eq ▸ ha) (hs.size_eq ▸ hb)).1.1 hp

/-! ### Closing -/

/-- The images of discovered pairs are related by every compatible relation above the partition. -/
theorem rel_of_isImage (hA : A.Total) (hs : s.Faithful A.size) {T : Setoid ℕ} (hT : A.Compatible T)
    (hsub : s.partition.setoid ≤ T) {p : ℕ × ℕ} (hp : IsImage A.operations s p) :
    p.1 < A.size ∧ p.2 < A.size ∧ T p.1 p.2 := by
  obtain ⟨op, hop, args, hargs, himage⟩ := hp
  obtain ⟨index, before, after, rfl, ⟨-, hindex⟩, hlen, hlt⟩ := mem_drawn.1 hargs
  rw [image_eq hA hs hop hindex hlen hlt] at himage
  obtain ⟨h₁, h₂⟩ := hs.lt _ (pairAt_mem hindex)
  have hrel : s.partition.setoid (s.pairAt index).1 (s.pairAt index).2 :=
    hs.isLeast.1 _ (pairAt_mem hindex)
  have hlen' (z : ℕ) : (before ++ z :: after).length = op.arity := by
    rw [List.length_append, List.length_cons]
    omega
  obtain rfl : _ = p := by
    split at himage
    · cases himage
    · exact Option.some_inj.1 (Except.ok.inj himage)
  refine ⟨hA.value_lt hop (hlen' _) (translate_lt hs hlt h₁),
    hA.value_lt hop (hlen' _) (translate_lt hs hlt h₂), ?_⟩
  exact hT.translate hop (hlen' _) (translate_lt hs hlt h₁) h₂ (hsub hrel)

/-- The partition stays between what it was at first and every compatible relation above that. -/
theorem sustains (hA : A.Total) (base : Setoid ℕ) {T : Setoid ℕ} (hT : A.Compatible T) :
    Sustains A.operations A.size
      (fun s : CongruenceClosure => s.Faithful A.size ∧ base ≤ s.partition.setoid ∧
        s.partition.setoid ≤ T)
      (fun _ => False) where
  image_ok := by
    rintro s ⟨hs, -⟩ op hop args hargs
    obtain ⟨index, before, after, rfl, ⟨-, hindex⟩, hlen, hlt⟩ := mem_drawn.1 hargs
    exact ⟨_, image_eq hA hs hop hindex hlen hlt⟩
  size_le := by
    rintro s ⟨hs, -⟩
    exact hs.size_le
  accept_ok := by
    rintro s ⟨hs, hbase, hsub⟩ p hp
    obtain ⟨hp₁, hp₂, hpT⟩ := rel_of_isImage hA hs hT hsub hp
    by_cases hknown : Knows s p
    · exact .known hknown
    · rw [knows_iff hs hp₁ hp₂, Partition.setoid_iff] at hknown
      obtain ⟨⟨hle, hnew⟩, hleast⟩ :=
        hs.valid.isLeast_relate (hs.size_eq.symm ▸ hp₁) (hs.size_eq.symm ▸ hp₂)
      refine .added (s.merge _ _).2 ?_ ⟨hs.merge hp₁ hp₂, ?_, ?_⟩ (extends_merge hs hp₁ hp₂) ?_
      · rw [accept_eq hs hp₁ hp₂, merge, if_neg hknown]
      · rw [partition_merge]
        exact hbase.trans hle
      · rw [partition_merge]
        exact hleast ⟨hsub, hpT⟩
      · rw [knows_iff (hs.merge hp₁ hp₂) hp₁ hp₂, partition_merge]
        exact hnew

/-- **A settled closure is compatible with the operations.** -/
theorem compatible_of_settled (hA : A.Total) (hs : s.Faithful A.size)
    (hsettled : SettledBelow A.operations s (size s)) : A.Compatible s.partition.setoid := by
  refine Algebra.compatible_of_translations (R := fun x y => (x, y) ∈ s.pairs)
    (fun x y h => hs.lt _ h) ?_ ?_
  · have heq : {t : Setoid ℕ | ∀ x y, (x, y) ∈ s.pairs → t x y}
        = {t : Setoid ℕ | ∀ p ∈ s.pairs, t p.1 p.2} :=
      Set.ext fun t => ⟨fun h p hp => h p.1 p.2 hp, fun h x y hxy => h (x, y) hxy⟩
    rw [heq]
    exact hs.isLeast
  · intro op hop before after x y hxy hlen hlt
    obtain ⟨index, hindex, hpair⟩ := Array.mem_iff_getElem.1 hxy
    have hat : s.pairAt index = (x, y) := by
      rw [pairAt, Array.getElem?_eq_getElem hindex, Option.getD_some, hpair]
    have hlen' : before.length + 1 + after.length = op.arity := by
      rw [List.length_append, List.length_cons] at hlen
      omega
    have hlt' : ∀ z ∈ before ++ after, z < s.partition.size := by
      intro z hz
      rw [hs.size_eq]
      rcases List.mem_append.1 hz with hz | hz
      · exact hlt z (List.mem_append_left _ hz)
      · exact hlt z (List.mem_append_right _ (List.mem_cons_of_mem x hz))
    have himage := image_eq hA hs hop hindex hlen' hlt'
    rw [hat] at himage
    by_cases heq : op.value (before ++ x :: after) = op.value (before ++ y :: after)
    · exact heq ▸ Setoid.refl' _ _
    · rw [if_neg heq] at himage
      have hdrawn : index :: before.length :: (before ++ after) ∈ drawn s op 0 (size s) :=
        mem_drawn.2 ⟨index, before, after, rfl, ⟨Nat.zero_le _, hindex⟩, hlen', hlt'⟩
      have hknows := hsettled op hop _ hdrawn _ himage
      obtain ⟨h₁, h₂⟩ := lt_of_knows hs hknows
      exact (knows_iff hs h₁ h₂).1 hknows

/-- **Closing ends closed with the least congruence above the partition it starts from**, in both
modes of a pass, and also if the images of the first pairs are known and are left out. -/
theorem close_isLeastCongruence (hA : A.Total) (hs : s.Faithful A.size) (mode : Mode) {mark : ℕ}
    (hsettled : SettledBelow A.operations s mark) :
    ∃ s', close A mode 0 mark s = ⟨.ok .closed, s'⟩ ∧
      A.IsLeastCongruence s.partition.setoid s'.partition := by
  -- the state that is reached does not depend on the relation it is compared with
  have hclose (T : Setoid ℕ) (hT : A.Compatible T) (hsT : s.partition.setoid ≤ T) :=
    close_closed (sustains hA s.partition.setoid hT) mode ⟨hs, le_refl _, hsT⟩ hsettled
  obtain ⟨s', hresult, ⟨hs', hbase, -⟩, -, hsettled'⟩ :=
    hclose ⊤ (Algebra.compatible_top A) le_top
  refine ⟨s', hresult, hs'.valid, hs'.size_eq,
    ⟨compatible_of_settled hA hs' hsettled', fun x y h => hbase h⟩, ?_⟩
  rintro T ⟨hT, hsT⟩
  obtain ⟨s'', hresult', ⟨-, -, hsub⟩, -⟩ := hclose T hT fun {x y} h => hsT x y h
  have hsame : s' = s'' := congrArg Outcome.state (hresult.symm.trans hresult')
  exact hsame ▸ hsub

end UniversalAlgebra.CongruenceClosure
