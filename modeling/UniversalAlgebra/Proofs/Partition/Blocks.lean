/-
**Partitions and their blocks.**

A partition of `[0, n)` is read from any list of nonempty blocks that has each element once.  The blocks
may come in any order, and so may the elements of each.  What is read while the elements are checked off
is the chain of merges that relates each element to the head of its block, so that in the end two
elements are related exactly if they share a block.

In the other direction the blocks of a partition are listed in the order of their least elements.  A
block is found at the position that counts the least elements before its own, and reading the list gives
the partition back.  One pass over the elements is enough to list the blocks: a least element opens its
block, and every later element finds the position that was noted when its block was opened.

Main definitions:

* `Partition.Lists` — nonempty blocks that have each element once;
* `Partition.links` — the merges that are made while blocks are read;
* `Partition.gather`, `Partition.blocksInOnePass` — the blocks, element by element.

Main results:

* `Partition.ofBlocks_eq_ok_iff` — which blocks are read, and what is read;
* `Partition.Lists.setoid_joined` — elements are related if they share a block;
* `Partition.Valid.lists_blocks`, `Partition.Valid.ofBlocks_blocks` — reading the blocks of a partition;
* `Partition.Valid.blocksInOnePass_eq` — **one pass finds the blocks**;
* `Partition.constructed_iff` — the partitions that can be made are the valid ones;
* `Partition.blocks_exact` — **reading blocks, listing them and finding one agree**.
-/

import UniversalAlgebra.Proofs.Partition.Constructed

set_option autoImplicit false

namespace UniversalAlgebra.Partition

open Fallible

variable {p q : Partition} {n r i j x y : ℕ} {blocks : List (List ℕ)}

/-! ### Reading blocks -/

/-- Nonempty blocks that have each element of `[0, n)` once, and nothing else. -/
structure Lists (n : ℕ) (blocks : List (List ℕ)) : Prop where
  ne_nil : ∀ block ∈ blocks, block ≠ []
  lt : ∀ block ∈ blocks, ∀ x ∈ block, x < n
  count_eq_one : ∀ x < n, blocks.flatten.count x = 1

/-- The pairs that are related while blocks are read: the head of a block and each of its elements. -/
def links (blocks : List (List ℕ)) : List (ℕ × ℕ) :=
  blocks.flatMap fun block => block.map fun x => (block.headD 0, x)

theorem map_snd_links (blocks : List (List ℕ)) : (links blocks).map Prod.snd = blocks.flatten := by
  induction blocks with
  | nil => rfl
  | cons block blocks ih =>
      rw [links, List.flatMap_cons, List.map_append, ← links, ih, List.map_map, List.flatten_cons]
      exact congrArg (· ++ blocks.flatten) (List.map_id block)

theorem mem_links {link : ℕ × ℕ} :
    link ∈ links blocks ↔ ∃ block ∈ blocks, ∃ x ∈ block, (block.headD 0, x) = link := by
  simp [links]

namespace Partial

/-- Relates one element to the head of its block. -/
def placeLink (known : Partial) (link : ℕ × ℕ) : Except Fault Partial := place link.1 known link.2

/-- Blocks are read link by link, once they are known not to be empty. -/
theorem foldlM_placeBlock (h : ∀ block ∈ blocks, block ≠ []) (known : Partial) :
    blocks.foldlM placeBlock known = (links blocks).foldlM placeLink known := by
  induction blocks generalizing known with
  | nil => rfl
  | cons block blocks ih =>
      obtain ⟨hblock, hblocks⟩ := List.forall_mem_cons.1 h
      have hfirst : known.placeBlock block
          = (block.map fun x => (block.headD 0, x)).foldlM placeLink known := by
        cases block with
        | nil => exact absurd rfl hblock
        | cons head rest =>
            rw [List.foldlM_map]
            rfl
      rw [List.foldlM_cons, links, List.flatMap_cons, List.foldlM_append, hfirst]
      exact congrArg _ (funext fun known => ih hblocks known)

/-- An empty block is refused wherever it stands. -/
theorem ne_nil_of_foldlM_placeBlock {known known' : Partial}
    (h : blocks.foldlM placeBlock known = .ok known') : ∀ block ∈ blocks, block ≠ [] := by
  induction blocks generalizing known with
  | nil => simp
  | cons block blocks ih =>
      rw [List.foldlM_cons] at h
      obtain ⟨next, hnext, h⟩ := bind_eq_ok.1 h
      refine List.forall_mem_cons.2 ⟨?_, ih h⟩
      rintro rfl
      cases hnext

/-- Checks elements off. -/
def mark (seen : Array Bool) (xs : List ℕ) : Array Bool :=
  xs.foldl (fun seen x => seen.setIfInBounds x true) seen

theorem getElem?_mark (seen : Array Bool) (xs : List ℕ) (i : ℕ) :
    (mark seen xs)[i]? = if i ∈ xs then seen[i]?.map fun _ => true else seen[i]? := by
  induction xs generalizing seen with
  | nil => rfl
  | cons x xs ih =>
      rw [mark, List.foldl_cons, ← mark, ih, Array.getElem?_setIfInBounds]
      by_cases hx : x = i
      · subst hx
        by_cases hi : x < seen.size <;> simp [hi]
      · have hcons : i ∈ x :: xs ↔ i ∈ xs := by
          rw [List.mem_cons]
          exact or_iff_right (Ne.symm hx)
        rw [if_neg hx]
        simp only [hcons]

/-- An element that was checked off is not free any more, and nothing else changes. -/
theorem free_setIfInBounds {seen : Array Bool} :
    (seen.setIfInBounds x true)[y]? = some false ↔ x ≠ y ∧ seen[y]? = some false := by
  rw [Array.getElem?_setIfInBounds]
  by_cases hx : x = y <;> simp [hx]

/-- Links are read if their elements are distinct and not yet checked off. -/
theorem foldlM_placeLink_eq_ok_iff {known known' : Partial} {found : List (ℕ × ℕ)} :
    found.foldlM placeLink known = .ok known' ↔
      (found.map Prod.snd).Nodup ∧ (∀ x ∈ found.map Prod.snd, known.seen[x]? = some false) ∧
      ⟨mark known.seen (found.map Prod.snd),
        found.foldl (fun p link => p.relate link.1 link.2) known.partition⟩ = known' := by
  induction found generalizing known with
  | nil => simp [pure_eq, mark]
  | cons link found ih =>
      rw [List.foldlM_cons, bind_eq_ok, List.map_cons, List.nodup_cons, List.forall_mem_cons,
        List.foldl_cons, mark, List.foldl_cons, ← mark]
      constructor
      · rintro ⟨next, hnext, h⟩
        obtain ⟨hfree, rfl⟩ := place_eq_ok_iff.1 hnext
        obtain ⟨hdistinct, hfrees, rfl⟩ := ih.1 h
        refine ⟨⟨fun hmem => (free_setIfInBounds.1 (hfrees _ hmem)).1 rfl, hdistinct⟩,
          ⟨hfree, fun x hx => (free_setIfInBounds.1 (hfrees x hx)).2⟩, rfl⟩
      · rintro ⟨⟨hnew, hdistinct⟩, ⟨hfree, hfrees⟩, rfl⟩
        refine ⟨_, place_eq_ok_iff.2 ⟨hfree, rfl⟩, ih.2 ⟨hdistinct, ?_, rfl⟩⟩
        intro x hx
        exact free_setIfInBounds.2 ⟨fun heq => hnew (heq ▸ hx), hfrees x hx⟩

end Partial

/-- What the links leave of the finest partition. -/
def joined (n : ℕ) (blocks : List (List ℕ)) : Partition :=
  (links blocks).foldl (fun p link => p.relate link.1 link.2) (finest n)

namespace Lists

theorem lt_of_mem_flatten (h : Lists n blocks) (hx : x ∈ blocks.flatten) : x < n := by
  obtain ⟨block, hblock, hx⟩ := List.mem_flatten.1 hx
  exact h.lt block hblock x hx

theorem mem_flatten_iff (h : Lists n blocks) : x ∈ blocks.flatten ↔ x < n := by
  refine ⟨h.lt_of_mem_flatten, fun hx => ?_⟩
  rw [← List.one_le_count_iff, h.count_eq_one x hx]

theorem nodup (h : Lists n blocks) : blocks.flatten.Nodup := by
  refine List.nodup_iff_count_le_one.2 fun x => ?_
  by_cases hx : x ∈ blocks.flatten
  · exact Nat.le_of_eq (h.count_eq_one x (h.lt_of_mem_flatten hx))
  · rw [List.count_eq_zero_of_not_mem hx]
    exact Nat.zero_le 1

theorem perm (h : Lists n blocks) : blocks.flatten.Perm (List.range n) := by
  refine (List.perm_ext_iff_of_nodup h.nodup List.nodup_range).2 fun x => ?_
  rw [h.mem_flatten_iff, List.mem_range]

/-- The same in terms of the list of all elements. -/
theorem of_perm (hne : ∀ block ∈ blocks, block ≠ []) (h : blocks.flatten.Perm (List.range n)) :
    Lists n blocks where
  ne_nil := hne
  lt block hblock x hx := by
    rw [← List.mem_range, ← h.mem_iff]
    exact List.mem_flatten_of_mem hblock hx
  count_eq_one x hx := by
    rw [h.count_eq, List.count_eq_one_of_mem List.nodup_range (List.mem_range.2 hx)]

/-- Two blocks that share an element are one. -/
theorem eq_of_mem (h : Lists n blocks) {block block' : List ℕ} (hb : block ∈ blocks)
    (hb' : block' ∈ blocks) (hx : x ∈ block) (hx' : x ∈ block') : block = block' := by
  by_contra hne
  have hdisjoint := (List.nodup_flatten.1 h.nodup).2
  have : Std.Symm (@List.Disjoint ℕ) := ⟨fun _ _ => List.Disjoint.symm⟩
  exact hdisjoint.forall hb hb' hne hx hx'

/-- Sharing a block is an equivalence; what is in no block is alone. -/
def setoid (h : Lists n blocks) : Setoid ℕ where
  r x y := x = y ∨ ∃ block ∈ blocks, x ∈ block ∧ y ∈ block
  iseqv :=
    { refl := fun x => Or.inl rfl
      symm := by
        rintro x y (rfl | ⟨block, hblock, hx, hy⟩)
        · exact Or.inl rfl
        · exact Or.inr ⟨block, hblock, hy, hx⟩
      trans := by
        rintro x y z (rfl | ⟨block, hblock, hx, hy⟩) hyz
        · exact hyz
        · rcases hyz with rfl | ⟨block', hblock', hy', hz⟩
          · exact Or.inr ⟨block, hblock, hx, hy⟩
          · exact Or.inr ⟨block, hblock, hx, h.eq_of_mem hblock' hblock hy' hy ▸ hz⟩ }

/-- The links relate elements of `[0, n)`. -/
theorem links_lt (h : Lists n blocks) :
    ∀ link ∈ links blocks, link.1 < (finest n).size ∧ link.2 < (finest n).size := by
  intro link hlink
  obtain ⟨block, hblock, x, hx, rfl⟩ := mem_links.1 hlink
  rw [size_finest]
  refine ⟨?_, h.lt block hblock x hx⟩
  cases block with
  | nil => cases hx
  | cons head rest => exact h.lt _ hblock head List.mem_cons_self

theorem validOn_joined (h : Lists n blocks) : (joined n blocks).ValidOn n := by
  obtain ⟨hvalid, hsize⟩ := (valid_finest n).foldl_relate h.links_lt
  exact ⟨hvalid, hsize.trans (size_finest n)⟩

/-- **The links relate the elements that share a block.** -/
theorem setoid_joined (h : Lists n blocks) : (joined n blocks).setoid = h.setoid := by
  obtain ⟨⟨-, hlinks⟩, hleast⟩ := (valid_finest n).isLeast_foldl_relate h.links_lt
  refine le_antisymm (hleast ⟨?_, ?_⟩) ?_
  · rw [setoid_finest]
    exact bot_le
  · intro link hlink
    obtain ⟨block, hblock, x, hx, rfl⟩ := mem_links.1 hlink
    refine Or.inr ⟨block, hblock, ?_, hx⟩
    cases block with
    | nil => cases hx
    | cons head rest => exact List.mem_cons_self
  · rintro x y (rfl | ⟨block, hblock, hx, hy⟩)
    · exact Setoid.refl' _ x
    · -- both are related to the head of the block
      have hx' := hlinks _ (mem_links.2 ⟨block, hblock, x, hx, rfl⟩)
      have hy' := hlinks _ (mem_links.2 ⟨block, hblock, y, hy, rfl⟩)
      exact Setoid.trans' _ (Setoid.symm' _ hx') hy'

theorem isRelated_joined (h : Lists n blocks) :
    (joined n blocks).isRelated x y = .ok true ↔ ∃ block ∈ blocks, x ∈ block ∧ y ∈ block := by
  rw [isRelated_eq_ok_true, ← setoid_iff, h.setoid_joined, h.validOn_joined.2]
  constructor
  · rintro ⟨hx, -, rfl | hshare⟩
    · obtain ⟨block, hblock, hx⟩ := List.mem_flatten.1 (h.mem_flatten_iff.2 hx)
      exact ⟨block, hblock, hx, hx⟩
    · exact hshare
  · rintro ⟨block, hblock, hx, hy⟩
    exact ⟨h.lt block hblock x hx, h.lt block hblock y hy, Or.inr ⟨block, hblock, hx, hy⟩⟩

end Lists

/-- **Blocks are read exactly if they list `[0, n)`.** -/
theorem ofBlocks_eq_ok_iff : ofBlocks n blocks = .ok p ↔ Lists n blocks ∧ joined n blocks = p := by
  have hfree (i : ℕ) : (Array.replicate n false)[i]? = some false ↔ i < n := by
    simp [Array.getElem?_replicate]
  -- the search for an element that was not checked off looks at what occurs in the blocks
  have hsearch : (Partial.mark (Array.replicate n false) blocks.flatten).findIdx? (· == false) = none
      ↔ ∀ i < n, i ∈ blocks.flatten := by
    have hmark (i : ℕ) : (Partial.mark (Array.replicate n false) blocks.flatten)[i]? = some false
        ↔ i < n ∧ i ∉ blocks.flatten := by
      rw [Partial.getElem?_mark]
      by_cases hmem : i ∈ blocks.flatten <;> simp [hmem, hfree]
    rw [Array.findIdx?_eq_none_iff]
    constructor
    · intro h i hi
      by_contra hmem
      have := h false (Array.mem_of_getElem? ((hmark i).2 ⟨hi, hmem⟩))
      cases this
    · intro h marked hmarked
      obtain ⟨i, hi⟩ := Array.mem_iff_getElem?.1 hmarked
      cases marked with
      | true => rfl
      | false => exact absurd (h i ((hmark i).1 hi).1) ((hmark i).1 hi).2
  rw [ofBlocks, bind_eq_ok]
  constructor
  · rintro ⟨known, hknown, h⟩
    have hne := Partial.ne_nil_of_foldlM_placeBlock hknown
    rw [Partial.foldlM_placeBlock hne, Partial.foldlM_placeLink_eq_ok_iff, map_snd_links] at hknown
    obtain ⟨hdistinct, hlt, rfl⟩ := hknown
    split at h
    · cases h
    · next hall =>
        cases h
        refine ⟨Lists.of_perm hne ?_, rfl⟩
        refine (List.perm_ext_iff_of_nodup hdistinct List.nodup_range).2 fun x => ?_
        rw [List.mem_range]
        exact ⟨fun hx => (hfree x).1 (hlt x hx), hsearch.1 hall x⟩
  · rintro ⟨hlists, rfl⟩
    refine ⟨⟨Partial.mark (Array.replicate n false) blocks.flatten, joined n blocks⟩, ?_, ?_⟩
    · rw [Partial.foldlM_placeBlock hlists.ne_nil, Partial.foldlM_placeLink_eq_ok_iff, map_snd_links]
      exact ⟨hlists.nodup, fun x hx => (hfree x).2 (hlists.lt_of_mem_flatten hx), rfl⟩
    · rw [hsearch.2 fun i hi => hlists.mem_flatten_iff.2 hi]
      rfl

/-- Blocks that are not read are refused. -/
theorem refusesOnly_ofBlocks (n : ℕ) (blocks : List (List ℕ)) : RefusesOnly (ofBlocks n blocks) := by
  have hplace (head : ℕ) (known : Partial) (x : ℕ) : RefusesOnly (known.place head x) := by
    rw [Partial.place]
    split
    · exact .error rfl
    · exact .error rfl
    · exact .ok _
  refine .bind (.foldlM (fun known block => ?_) _ _) fun known => ?_
  · cases block with
    | nil => exact .error rfl
    | cons head rest => exact .foldlM (hplace head) _ _
  · split
    · exact .error rfl
    · exact .ok _

/-! ### The blocks of a partition -/

/-- The least elements of blocks among the first `k` elements. -/
def representativesBelow (p : Partition) (k : ℕ) : List ℕ :=
  (List.range k).filter fun i => p.rep i == i

/-- What one block has among the first `k` elements. -/
def blockBelow (p : Partition) (k r : ℕ) : List ℕ := (List.range k).filter fun i => p.rep i == r

theorem mem_representativesBelow {k : ℕ} : r ∈ p.representativesBelow k ↔ r < k ∧ p.rep r = r := by
  simp [representativesBelow]

theorem nodup_representativesBelow (k : ℕ) : (p.representativesBelow k).Nodup :=
  List.nodup_range.filter _

theorem representativesBelow_succ (p : Partition) (k : ℕ) : p.representativesBelow (k + 1)
    = p.representativesBelow k ++ if p.rep k = k then [k] else [] := by
  by_cases h : p.rep k = k <;> simp [representativesBelow, List.range_succ, h]

theorem blockBelow_succ (p : Partition) (k r : ℕ) :
    p.blockBelow (k + 1) r = p.blockBelow k r ++ if p.rep k = r then [k] else [] := by
  by_cases h : p.rep k = r <;> simp [blockBelow, List.range_succ, h]

/-- A least element stands at the position that counts those before it. -/
theorem getElem?_representativesBelow {k : ℕ} (hr : r < k) (hrep : p.rep r = r) :
    (p.representativesBelow k)[(p.representativesBelow r).length]? = some r := by
  induction k with
  | zero => cases hr
  | succ k ih =>
      rw [representativesBelow_succ]
      rcases Nat.lt_succ_iff_lt_or_eq.1 hr with hlt | rfl
      · obtain ⟨hbound, -⟩ := List.getElem?_eq_some_iff.1 (ih hlt)
        rw [List.getElem?_append_left hbound, ih hlt]
      · rw [if_pos hrep, List.getElem?_append_right (Nat.le_refl _), Nat.sub_self]
        rfl

/-- It stands nowhere else. -/
theorem eq_of_getElem?_representativesBelow {k : ℕ} (hr : r < k) (hrep : p.rep r = r)
    (hj : (p.representativesBelow k)[j]? = some r) : (p.representativesBelow r).length = j := by
  have hposition := getElem?_representativesBelow hr hrep
  obtain ⟨hbound, -⟩ := List.getElem?_eq_some_iff.1 hposition
  exact (List.getElem?_inj hbound (nodup_representativesBelow k)).1 (hposition.trans hj.symm)

theorem mem_block : x ∈ p.block r ↔ x < p.size ∧ p.rep x = r := by simp [block]

theorem mem_blocks {block : List ℕ} : block ∈ p.blocks ↔ ∃ r ∈ p.representatives, p.block r = block := by
  rw [blocks_eq_map_block, List.mem_map]

namespace Valid

theorem representative_mem (hp : p.Valid) (hi : i < p.size) : p.rep i ∈ p.representatives :=
  mem_representatives.2 ⟨hp.rep_lt hi, hp.rep_rep_eq i⟩

/-- A block starts with the element that represents it. -/
theorem isLeast_mem_block (hp : p.Valid) (hr : r ∈ p.representatives) :
    IsLeast {x | x ∈ p.block r} r := by
  obtain ⟨hlt, hrep⟩ := mem_representatives.1 hr
  refine ⟨mem_block.2 ⟨hlt, hrep⟩, fun x hx => ?_⟩
  exact (mem_block.1 hx).2 ▸ hp.le x

/-- The blocks of a partition have each element once. -/
theorem lists_blocks (hp : p.Valid) : Lists p.size p.blocks := by
  refine Lists.of_perm ?_ ((List.perm_ext_iff_of_nodup ?_ List.nodup_range).2 fun x => ?_)
  · intro block hblock
    obtain ⟨r, hr, rfl⟩ := mem_blocks.1 hblock
    exact List.ne_nil_of_mem (hp.isLeast_mem_block hr).1
  · rw [blocks_eq_map_block, List.nodup_flatten, List.pairwise_map]
    refine ⟨?_, nodup_representatives.imp fun {r s} hne x hr hs => ?_⟩
    · intro block hblock
      obtain ⟨r, -, rfl⟩ := List.mem_map.1 hblock
      exact List.nodup_range.filter _
    · exact hne ((mem_block.1 hr).2.symm.trans (mem_block.1 hs).2)
  · rw [List.mem_flatten, List.mem_range]
    constructor
    · rintro ⟨block, hblock, hx⟩
      obtain ⟨r, -, rfl⟩ := mem_blocks.1 hblock
      exact (mem_block.1 hx).1
    · intro hx
      exact ⟨_, mem_blocks.2 ⟨_, hp.representative_mem hx, rfl⟩, mem_block.2 ⟨hx, rfl⟩⟩

/-- Elements are related if they are listed together. -/
theorem isRelated_iff_blocks (hp : p.Valid) :
    p.isRelated x y = .ok true ↔ ∃ block ∈ p.blocks, x ∈ block ∧ y ∈ block := by
  rw [isRelated_eq_ok_true]
  constructor
  · rintro ⟨hx, hy, h⟩
    exact ⟨_, mem_blocks.2 ⟨_, hp.representative_mem hx, rfl⟩, mem_block.2 ⟨hx, rfl⟩,
      mem_block.2 ⟨hy, h.symm⟩⟩
  · rintro ⟨block, hblock, hx, hy⟩
    obtain ⟨r, -, rfl⟩ := mem_blocks.1 hblock
    obtain ⟨hx, hrx⟩ := mem_block.1 hx
    obtain ⟨hy, hry⟩ := mem_block.1 hy
    exact ⟨hx, hy, hrx.trans hry.symm⟩

/-- **Reading the blocks of a partition gives it back.** -/
theorem ofBlocks_blocks (hp : p.Valid) : ofBlocks p.size p.blocks = .ok p := by
  have hlists := hp.lists_blocks
  refine ofBlocks_eq_ok_iff.2 ⟨hlists, ?_⟩
  refine ValidOn.eq_of_isRelated_eq hlists.validOn_joined ⟨hp, rfl⟩ fun i hi j hj => ?_
  have hiff := hlists.isRelated_joined.trans (hp.isRelated_iff_blocks (x := i) (y := j)).symm
  rw [isRelated_eq (hlists.validOn_joined.2.symm ▸ hi) (hlists.validOn_joined.2.symm ▸ hj),
    isRelated_eq hi hj, Except.ok.injEq, Except.ok.injEq] at hiff
  rw [isRelated_eq (hlists.validOn_joined.2.symm ▸ hi) (hlists.validOn_joined.2.symm ▸ hj),
    isRelated_eq hi hj, Bool.eq_iff_iff.2 hiff]

/-- The position of a block counts the least elements before its own. -/
theorem getElem?_blocks (hp : p.Valid) (hi : i < p.size) :
    p.blocks[(p.representativesBelow (p.rep i)).length]? = some (p.block (p.rep i)) := by
  rw [blocks_eq_map_block, List.getElem?_map]
  exact congrArg (Option.map p.block) (getElem?_representativesBelow (hp.rep_lt hi) (hp.rep_rep_eq i))

end Valid

theorem blockIndex_eq (hi : i < p.size) :
    p.blockIndex i = .ok (p.representativesBelow (p.rep i)).length := by
  rw [blockIndex, representative_eq_ok.2 ⟨hi, rfl⟩, ok_bind, pure_eq, representativesBelow,
    List.countP_eq_length_filter]

/-- **The index of an element is the position of its block.** -/
theorem Valid.blockIndex_eq_ok_iff {k : ℕ} (hp : p.Valid) :
    p.blockIndex i = .ok k ↔ ∃ block, p.blocks[k]? = some block ∧ i ∈ block := by
  constructor
  · intro h
    obtain ⟨r, hr, -⟩ := bind_eq_ok.1 h
    obtain ⟨hi, -⟩ := representative_eq_ok.1 hr
    rw [blockIndex_eq hi] at h
    cases h
    exact ⟨_, hp.getElem?_blocks hi, mem_block.2 ⟨hi, rfl⟩⟩
  · rintro ⟨block, hk, hmem⟩
    rw [blocks_eq_map_block, List.getElem?_map, Option.map_eq_some_iff] at hk
    obtain ⟨r, hk, rfl⟩ := hk
    obtain ⟨hi, rfl⟩ := mem_block.1 hmem
    rw [blockIndex_eq hi, Except.ok.injEq]
    exact eq_of_getElem?_representativesBelow (hp.rep_lt hi) (hp.rep_rep_eq i) hk

theorem refusesOnly_blockIndex (p : Partition) (i : ℕ) : RefusesOnly (p.blockIndex i) :=
  .bind (refusesOnly_representative p i) fun _ => .ok _

/-! ### One pass over the elements -/

/-- What is known while the blocks are gathered. -/
structure Gathered where
  /-- The blocks that were opened, each with its elements so far. -/
  blocks : List (List ℕ)
  /-- The position of a block, noted at its least element. -/
  index : Array ℕ

/-- Puts the next element into its block, which it opens if it is the first there. -/
def gather (p : Partition) (s : Gathered) (i : ℕ) : Gathered :=
  let s := if p.rep i = i then ⟨s.blocks ++ [[]], s.index.setIfInBounds i s.blocks.length⟩ else s
  ⟨s.blocks.modify (s.index[p.rep i]?.getD 0) (· ++ [i]), s.index⟩

/-- The blocks as they are found in one pass over the elements. -/
def blocksInOnePass (p : Partition) : List (List ℕ) :=
  ((List.range p.size).foldl p.gather ⟨[], Array.replicate p.size 0⟩).blocks

/-- What is known after the first `k` elements, with the blocks of the first `m` opened. -/
structure Gathered.Below (p : Partition) (m k : ℕ) (s : Gathered) : Prop where
  blocks_eq : s.blocks = (p.representativesBelow m).map (p.blockBelow k)
  size_index : s.index.size = p.size
  index_eq : ∀ r ∈ p.representativesBelow m, s.index[r]? = some (p.representativesBelow r).length

namespace Gathered

variable {s : Gathered} {k : ℕ}

/-- A least element opens its block. -/
theorem Below.opened (hp : p.Valid) (hk : k < p.size) (hs : s.Below p k k) :
    (if p.rep k = k then ⟨s.blocks ++ [[]], s.index.setIfInBounds k s.blocks.length⟩ else s :
      Gathered).Below p (k + 1) k := by
  by_cases hrep : p.rep k = k
  · have hnew : p.blockBelow k k = [] := by
      refine List.filter_eq_nil_iff.2 fun i hi => ?_
      have := hp.le i
      rw [List.mem_range] at hi
      simp only [beq_iff_eq]
      omega
    rw [if_pos hrep]
    refine ⟨?_, ?_, ?_⟩
    · rw [representativesBelow_succ, if_pos hrep, List.map_append, List.map_singleton, hnew,
        ← hs.blocks_eq]
    · rw [Array.size_setIfInBounds, hs.size_index]
    · intro r hr
      obtain ⟨hlt, hr⟩ := mem_representativesBelow.1 hr
      rw [Array.getElem?_setIfInBounds, hs.size_index, if_pos hk]
      split
      · next heq => rw [← heq, hs.blocks_eq, List.length_map]
      · next hne => exact hs.index_eq r (mem_representativesBelow.2 ⟨by omega, hr⟩)
  · have hsame : p.representativesBelow (k + 1) = p.representativesBelow k := by
      rw [representativesBelow_succ, if_neg hrep, List.append_nil]
    rw [if_neg hrep]
    exact ⟨hsame ▸ hs.blocks_eq, hs.size_index, hsame ▸ hs.index_eq⟩

/-- One element more. -/
theorem Below.gather (hp : p.Valid) (hk : k < p.size) (hs : s.Below p k k) :
    (p.gather s k).Below p (k + 1) (k + 1) := by
  have hopened := hs.opened hp hk
  rw [Partition.gather]
  generalize (if p.rep k = k then
    ⟨s.blocks ++ [[]], s.index.setIfInBounds k s.blocks.length⟩ else s : Gathered) = s' at hopened ⊢
  refine ⟨?_, hopened.size_index, hopened.index_eq⟩
  have hlt : p.rep k < k + 1 := Nat.lt_succ_of_le (hp.le k)
  have hmem := mem_representativesBelow.2 ⟨hlt, hp.rep_rep_eq k⟩
  have hposition := getElem?_representativesBelow hlt (hp.rep_rep_eq k)
  refine List.ext_getElem? fun j => ?_
  rw [hopened.index_eq _ hmem, Option.getD_some, hopened.blocks_eq, List.getElem?_modify,
    List.getElem?_map, List.getElem?_map]
  cases hj : (p.representativesBelow (k + 1))[j]? with
  | none => rfl
  | some r =>
      -- the position that was noted is the only one of this block
      have hiff : (p.representativesBelow (p.rep k)).length = j ↔ p.rep k = r := by
        constructor
        · rintro rfl
          exact Option.some_inj.1 (hposition.symm.trans hj)
        · rintro rfl
          exact eq_of_getElem?_representativesBelow hlt (hp.rep_rep_eq k) hj
      simp only [Option.map_eq_map, Option.map_some, hiff, blockBelow_succ]
      by_cases hr : p.rep k = r
      · rw [if_pos hr, if_pos hr]
      · rw [if_neg hr, if_neg hr, List.append_nil]

end Gathered

/-- **One pass finds the blocks.** -/
theorem Valid.blocksInOnePass_eq (hp : p.Valid) : p.blocksInOnePass = p.blocks := by
  have hpass (k : ℕ) (hk : k ≤ p.size) :
      ((List.range k).foldl p.gather ⟨[], Array.replicate p.size 0⟩).Below p k k := by
    induction k with
    | zero => exact ⟨rfl, Array.size_replicate, by simp [representativesBelow]⟩
    | succ k ih =>
        rw [List.range_succ, List.foldl_append]
        exact (ih (by omega)).gather hp hk
  rw [blocks_eq_map_block]
  exact (hpass p.size (Nat.le_refl _)).blocks_eq

/-! ### Reading, listing and finding -/

/-- **The partitions that can be made are the valid ones.** -/
theorem constructed_iff : Constructed n p ↔ p.ValidOn n := by
  refine ⟨Constructed.validOn, ?_⟩
  rintro ⟨hp, rfl⟩
  exact .ofBlocks hp.ofBlocks_blocks

/-- **Blocks are read, listed and found alike.**  A list of blocks is read exactly if its blocks are not
empty and have each element of `[0, n)` once, and nothing else; the rest is refused.  What is read
relates the elements that share a block.  A partition that was made in any way lists its blocks, each in
increasing order, in the order of their least elements, and the list is found in one pass over the
elements.  Reading the list gives the partition back, and the index of an element is the position of its
block in the list; only for what is no element is it refused. -/
theorem blocks_exact (n : ℕ) :
    (∀ blocks : List (List ℕ),
      ((∃ p, ofBlocks n blocks = .ok p) ↔ Lists n blocks) ∧
      (∀ p, ofBlocks n blocks = .ok p → Constructed n p ∧
        ∀ x y, p.isRelated x y = .ok true ↔ ∃ block ∈ blocks, x ∈ block ∧ y ∈ block) ∧
      ∀ fault, ofBlocks n blocks = .error fault → fault.kind = .invalidInput) ∧
    ∀ p, Constructed n p →
      p.blocksInOnePass = p.blocks ∧
      (∀ x y, p.isRelated x y = .ok true ↔ ∃ block ∈ p.blocks, x ∈ block ∧ y ∈ block) ∧
      (∀ block ∈ p.blocks, block.Pairwise (· < ·)) ∧
      (p.blocks.Pairwise fun block block' =>
        ∃ r s, IsLeast {x | x ∈ block} r ∧ IsLeast {x | x ∈ block'} s ∧ r < s) ∧
      ofBlocks p.size p.blocks = .ok p ∧
      (∀ i k, p.blockIndex i = .ok k ↔ ∃ block, p.blocks[k]? = some block ∧ i ∈ block) ∧
      ∀ i fault, p.blockIndex i = .error fault → n ≤ i ∧ fault.kind = .invalidInput := by
  refine ⟨fun blocks => ⟨?_, ?_, refusesOnly_ofBlocks n blocks⟩, fun p hp => ?_⟩
  · constructor
    · rintro ⟨p, h⟩
      exact (ofBlocks_eq_ok_iff.1 h).1
    · exact fun h => ⟨_, ofBlocks_eq_ok_iff.2 ⟨h, rfl⟩⟩
  · intro p h
    obtain ⟨hlists, rfl⟩ := ofBlocks_eq_ok_iff.1 h
    exact ⟨.ofBlocks h, fun x y => hlists.isRelated_joined⟩
  · obtain ⟨hvalid, rfl⟩ := hp.validOn
    refine ⟨hvalid.blocksInOnePass_eq, fun x y => hvalid.isRelated_iff_blocks, ?_, ?_,
      hvalid.ofBlocks_blocks, fun i k => hvalid.blockIndex_eq_ok_iff, ?_⟩
    · intro block hblock
      obtain ⟨r, -, rfl⟩ := mem_blocks.1 hblock
      exact List.pairwise_lt_range.filter _
    · rw [blocks_eq_map_block, List.pairwise_map]
      have hsorted : p.representatives.Pairwise (· < ·) := List.pairwise_lt_range.filter _
      refine hsorted.imp_of_mem fun {r s} hr hs hlt => ?_
      exact ⟨r, s, hvalid.isLeast_mem_block hr, hvalid.isLeast_mem_block hs, hlt⟩
    · intro i fault h
      refine ⟨Nat.not_lt.1 fun hi => ?_, refusesOnly_blockIndex p i fault h⟩
      rw [blockIndex_eq hi] at h
      cases h

/-- Blocks in any order give a partition of six elements; its own blocks are in order, and that of the
element 5 is the third.  Blocks that overlap are refused. -/
theorem blocks_of_six : ∃ p, ofBlocks 6 [[5, 2], [0, 3], [1], [4]] = .ok p ∧
    p.isRelated 2 5 = .ok true ∧ p.blocksInOnePass = [[0, 3], [1], [2, 5], [4]] ∧
    ofBlocks p.size p.blocks = .ok p ∧ p.blockIndex 5 = .ok 2 ∧
    ∃ fault, ofBlocks 3 [[0, 1], [1, 2]] = .error fault ∧ fault.kind = .invalidInput := by
  have hread : ofBlocks 6 [[5, 2], [0, 3], [1], [4]] = .ok ⟨#[0, 1, 2, 0, 4, 2], 4⟩ := by cbv
  have hoverlap : ofBlocks 3 [[0, 1], [1, 2]] = .error (.inTwoBlocks 1) := by cbv
  have hblocks : (⟨#[0, 1, 2, 0, 4, 2], 4⟩ : Partition).blocks = [[0, 3], [1], [2, 5], [4]] := by cbv
  obtain ⟨hmade, hrelated⟩ := ((blocks_exact 6).1 _).2.1 _ hread
  obtain ⟨hpass, -, -, -, hback, hindex, -⟩ := (blocks_exact 6).2 _ hmade
  refine ⟨_, hread, (hrelated 2 5).2 ⟨[5, 2], by decide, by decide, by decide⟩, hpass.trans hblocks,
    hback, (hindex 5 2).2 ⟨[2, 5], ?_, by decide⟩, _, hoverlap,
    ((blocks_exact 3).1 _).2.2 _ hoverlap⟩
  rw [hblocks]
  rfl

end UniversalAlgebra.Partition
