/-
**The text of a partition is read back.**

The text of a partition lists its blocks between bars, and each of them as decimal numerals with blanks
between them.  Its pieces are the written blocks, the numerals of a piece are those of the elements, and
so the text is read as the list of blocks, which gives the partition.  There are two limits: the text of
the empty partition is a single bar, which is no block notation, and an element has to fit into a word to
be read as what it is.

Main results:

* `Partition.numerals_toList` — the numerals of a written block;
* `Partition.written_blocks` — written blocks are in block notation;
* `Partition.parse_blocks` — **they are read as these blocks**;
* `Partition.parse_text_eq_ok_iff` — **the text of a partition gives the partition**.
-/

import UniversalAlgebra.Proofs.Partition.Notation

set_option autoImplicit false

namespace UniversalAlgebra.Partition

variable {p : Partition} {n : ℕ} {block : List ℕ} {blocks : List (List ℕ)}

/-! ### Written blocks -/

/-- A separator ends a numeral. -/
theorem numerals_append_cons {c : Char} (hc : c.isDigit = false) (cs ds : List Char) :
    numerals (cs ++ c :: ds) = numerals cs ++ numerals ds := by
  rw [numerals, List.splitOnP_append_cons cs ds (by simp [hc]), List.filter_append, numerals, numerals]

/-- Digits are one numeral. -/
theorem numerals_of_isDigit {ds : List Char} (hne : ds ≠ []) (h : ∀ c ∈ ds, c.isDigit = true) :
    numerals ds = [ds] := by
  rw [numerals, List.splitOnP_eq_singleton fun c hc => by simp [h c hc]]
  simp [hne]

theorem isDigit_of_mem_decimal {x : ℕ} {c : Char} (hc : c ∈ Nat.toDigits 10 x) : c.isDigit = true :=
  Nat.isDigit_of_mem_toDigits (by decide) (by decide) hc

theorem toList_numerals (block : List ℕ) :
    (Text.numerals block).toList = [' '].intercalate (block.map (Nat.toDigits 10)) := by
  rw [Text.numerals, String.toList_intercalate, List.map_map]
  refine congrArg₂ List.intercalate rfl (List.map_congr_left fun x _ => ?_)
  exact Nat.toList_repr

/-- The numerals of a written block are those of its elements. -/
theorem numerals_toList (block : List ℕ) :
    numerals (Text.numerals block).toList = block.map (Nat.toDigits 10) := by
  rw [toList_numerals]
  induction block with
  | nil => rfl
  | cons x block ih =>
      have hx := numerals_of_isDigit Nat.toDigits_ne_nil fun c hc => isDigit_of_mem_decimal (x := x) hc
      cases block with
      | nil => rw [List.map_singleton, List.intercalate_singleton, hx]
      | cons y block =>
          rw [List.map_cons, List.map_cons, List.intercalate_cons_cons, List.append_assoc,
            List.singleton_append, numerals_append_cons (by decide), hx, ← List.map_cons, ih]
          rfl

theorem numbers_toList (block : List ℕ) : numbers (Text.numerals block).toList = block := by
  rw [numbers, numerals_toList, List.map_map]
  exact (List.map_congr_left fun x _ => Nat.ofDigitChars_ten_toDigits).trans (List.map_id block)

/-- Nothing but digits and blanks is written. -/
theorem plain_toList (block : List ℕ) : Plain (Text.numerals block).toList := by
  rw [toList_numerals]
  induction block with
  | nil => intro c hc; cases hc
  | cons x block ih =>
      have hx : Plain (Nat.toDigits 10 x) := fun c hc => Or.inl (isDigit_of_mem_decimal hc)
      cases block with
      | nil => rwa [List.map_singleton, List.intercalate_singleton]
      | cons y block =>
          rw [List.map_cons, List.map_cons, List.intercalate_cons_cons, Plain, List.forall_mem_append,
            List.forall_mem_append]
          exact ⟨⟨hx, List.forall_mem_singleton.2 (Or.inr (by decide))⟩, ih⟩

/-- The pieces of written blocks. -/
def piecesOf (blocks : List (List ℕ)) : List (List Char) :=
  blocks.map fun block => (Text.numerals block).toList

theorem toList_blocks (blocks : List (List ℕ)) :
    (Text.blocks blocks).toList = '|' :: (piecesOf blocks).flatMap (· ++ ['|']) := by
  have go (text : String) : (blocks.foldl (fun text b => text ++ Text.numerals b ++ "|") text).toList
      = text.toList ++ (piecesOf blocks).flatMap (· ++ ['|']) := by
    induction blocks generalizing text with
    | nil => simp [piecesOf]
    | cons block blocks ih =>
        have hcons : piecesOf (block :: blocks) = (Text.numerals block).toList :: piecesOf blocks := rfl
        rw [List.foldl_cons, ih, hcons, List.flatMap_cons, String.toList_append, String.toList_append,
          List.append_assoc, List.append_assoc, List.append_assoc]
        rfl
  exact go "|"

/-- **Written blocks are in block notation.** -/
theorem written_blocks (hne : blocks ≠ []) (hblocks : ∀ block ∈ blocks, block ≠ []) :
    Written (Text.blocks blocks) (piecesOf blocks) where
  enclosed := ⟨[], [], by rw [toList_blocks, List.nil_append, List.append_nil], by simp⟩
  ne_nil := by simpa [piecesOf] using hne
  plain := by
    intro piece hpiece
    obtain ⟨block, -, rfl⟩ := List.mem_map.1 hpiece
    exact plain_toList block
  numerals_ne_nil := by
    intro piece hpiece
    obtain ⟨block, hblock, rfl⟩ := List.mem_map.1 hpiece
    rw [numerals_toList]
    simpa using hblocks block hblock

/-- **Written blocks are read as they are**, as long as their elements are words. -/
theorem parse_blocks (hne : blocks ≠ []) (hblocks : ∀ block ∈ blocks, block ≠ [])
    (hsmall : ∀ block ∈ blocks, ∀ x ∈ block, x < UInt32.size) :
    parse (Text.blocks blocks) = ofBlocks blocks.flatten.length blocks := by
  have hlength : ((piecesOf blocks).flatMap numerals).length = blocks.flatten.length := by
    rw [piecesOf, List.flatMap_map, List.length_flatMap, List.length_flatten]
    simp only [numerals_toList, List.length_map]
  have hwords : (piecesOf blocks).map words = blocks := by
    rw [piecesOf, List.map_map]
    refine (List.map_congr_left fun block hblock => ?_).trans (List.map_id blocks)
    have hfit : ∀ x ∈ numbers (Text.numerals block).toList, x < UInt32.size := by
      rw [numbers_toList]
      exact hsmall block hblock
    exact (words_eq_numbers hfit).trans (numbers_toList block)
  rw [(written_blocks hne hblocks).parse_eq, hlength, hwords]

/-! ### The text of a partition -/

/-- **The text of a partition gives the partition.**  As long as its elements are words, a partition that
was made in any way is read from its text, unless it is empty. -/
theorem parse_text_eq_ok_iff (n : ℕ) (hn : n ≤ UInt32.size) (p : Partition) (hp : Constructed n p) :
    parse p.text = .ok p ↔ 0 < n := by
  obtain ⟨hvalid, rfl⟩ := hp.validOn
  have hlists := hvalid.lists_blocks
  rcases Nat.eq_zero_or_pos p.size with hzero | hpos
  · -- the text is a single bar
    have hblocks : p.blocks = [] := by
      rw [blocks_eq_map_block, representatives, hzero]
      rfl
    have hbar : parse p.text = .error (.notBlockNotation "|") := by
      rw [text, hblocks]
      cbv
    rw [hbar, hzero]
    simp
  · have hne : p.blocks ≠ [] := by
      intro hnil
      have hmem := hlists.mem_flatten_iff.2 hpos
      rw [hnil] at hmem
      cases hmem
    have hlength : p.blocks.flatten.length = p.size := by
      rw [hlists.perm.length_eq, List.length_range]
    refine iff_of_true ?_ hpos
    rw [text, parse_blocks hne hlists.ne_nil, hlength, hvalid.ofBlocks_blocks]
    exact fun block hblock x hx => Nat.lt_of_lt_of_le (hlists.lt block hblock x hx) hn

/-- A text with numerals of two digits. -/
theorem parse_text_of_eleven : ∃ p, ofBlocks 11 [[10, 9], [8, 7, 6, 5, 4, 3, 2, 1, 0]] = .ok p ∧
    p.text = "|0 1 2 3 4 5 6 7 8|9 10|" ∧ parse "|0 1 2 3 4 5 6 7 8|9 10|" = .ok p := by
  have hread : ofBlocks 11 [[10, 9], [8, 7, 6, 5, 4, 3, 2, 1, 0]]
      = .ok ⟨#[0, 0, 0, 0, 0, 0, 0, 0, 0, 9, 9], 2⟩ := by cbv
  have htext : (⟨#[0, 0, 0, 0, 0, 0, 0, 0, 0, 9, 9], 2⟩ : Partition).text
      = "|0 1 2 3 4 5 6 7 8|9 10|" := by cbv
  refine ⟨_, hread, htext, ?_⟩
  rw [← htext]
  exact (parse_text_eq_ok_iff 11 (by decide) _ (.ofBlocks hread)).2 (by decide)

end UniversalAlgebra.Partition
