/-
**Which texts are read as partitions.**

A text is read from left to right, one character at a time: a digit goes into the numeral that is being
read, any other character ends it, and a bar closes the block.  What this comes to is said here without
the reading.  A text in block notation consists of pieces with bars around them, and its numerals are the
longest runs of digits.  It is read as the list of blocks that its numerals stand for, and this list has
to be one of a partition.  No other text is read.

Numerals are counted in 32 bits.  A number that takes more of them is replaced by what is left of it, and
only this is compared with the number of elements, so that some texts are read although the numbers in
them are no elements.

Main definitions:

* `Partition.numerals`, `Partition.numbers`, `Partition.words` — the numerals of a text, the numbers that
  they stand for, and what is left of these in 32 bits;
* `Partition.Written` — the pieces of a text in block notation.

Main results:

* `Partition.Scan.endNumeral_foldl_take` — what is recorded while a piece is read;
* `Partition.Scan.foldlM_read_pieces` — pieces between bars are read one after the other;
* `Partition.Written.parse_eq`, `Partition.exists_written` — **texts in block notation are read as their
  blocks, and no others are**;
* `Partition.parse_exact` — which texts are read, and as what;
* `Partition.parse_numeral_over_word` — **a numeral that takes more than 32 bits is not refused**.
-/

import UniversalAlgebra.Partition.Notation
import UniversalAlgebra.Proofs.Partition.Blocks

set_option autoImplicit false

namespace UniversalAlgebra.Partition

open Fallible

variable {p : Partition} {text : String} {piece : List Char} {pieces : List (List Char)}

/-! ### Block notation -/

/-- The numerals of a text: its longest runs of digits. -/
def numerals (cs : List Char) : List (List Char) :=
  (cs.splitOnP fun c => !c.isDigit).filter (· ≠ [])

/-- The natural numbers that the numerals of a text stand for. -/
def numbers (cs : List Char) : List ℕ := (numerals cs).map fun ds => Nat.ofDigitChars 10 ds 0

/-- What is left of these numbers in 32 bits. -/
def words (cs : List Char) : List ℕ := (numbers cs).map (· % UInt32.size)

/-- Numerals and what separates them. -/
def Plain (cs : List Char) : Prop := ∀ c ∈ cs, c.isDigit = true ∨ isSeparator c = true

instance (cs : List Char) : Decidable (Plain cs) :=
  List.decidableBAll (fun c : Char => c.isDigit = true ∨ isSeparator c = true) cs

/-- The pieces of a text in block notation: with a bar in front of the first and after each of them they
make up the text, up to blanks around it. -/
structure Written (text : String) (pieces : List (List Char)) : Prop where
  enclosed : ∃ front back, text.toList = front ++ ('|' :: pieces.flatMap (· ++ ['|'])) ++ back ∧
    ∀ c ∈ front ++ back, isOuterBlank c = true
  ne_nil : pieces ≠ []
  plain : ∀ piece ∈ pieces, Plain piece
  numerals_ne_nil : ∀ piece ∈ pieces, numerals piece ≠ []

theorem isSeparator_ne_bar {c : Char} (h : isSeparator c = true) : c ≠ '|' := by
  rintro rfl
  revert h
  decide

theorem Plain.bar_notMem (h : Plain piece) : '|' ∉ piece := by
  intro hmem
  rcases h '|' hmem with h | h
  · revert h
    decide
  · exact isSeparator_ne_bar h rfl

/-! ### Reading the numerals of a piece -/

namespace Scan

variable (closed : List (List ℕ)) (current : List ℕ) {s s' : Scan}

/-- What the characters of a plain text do. -/
def take (s : Scan) (c : Char) : Scan :=
  if c.isDigit then s.digit (c.toNat - '0'.toNat) else s.endNumeral

/-- The state of a numeral of which some digits were read. -/
def pending (ds : List Char) : Option ℕ :=
  if ds = [] then none else some (Nat.ofDigitChars 10 ds 0 % UInt32.size)

/-- The words of the nonempty ones among some runs of digits. -/
def wordsOf (runs : List (List Char)) : List ℕ :=
  (runs.filter (· ≠ [])).map fun ds => Nat.ofDigitChars 10 ds 0 % UInt32.size

theorem words_eq (cs : List Char) : words cs = wordsOf (cs.splitOnP fun c => !c.isDigit) := by
  rw [words, numbers, List.map_map]
  rfl

theorem words_ne_nil_iff {cs : List Char} : words cs ≠ [] ↔ numerals cs ≠ [] := by
  simp [words, numbers]

theorem digit_pending (ds : List Char) (c : Char) :
    (⟨closed, current, pending ds⟩ : Scan).digit (c.toNat - '0'.toNat)
      = ⟨closed, current, pending (ds ++ [c])⟩ := by
  have hvalue : (pending ds).getD 0 = Nat.ofDigitChars 10 ds 0 % UInt32.size := by
    rw [pending]
    split
    · next h => rw [h, Nat.ofDigitChars_nil]; rfl
    · rfl
  have hpending : pending (ds ++ [c]) = some (Nat.ofDigitChars 10 (ds ++ [c]) 0 % UInt32.size) :=
    if_neg (by simp)
  rw [digit, hvalue, hpending, Nat.ofDigitChars_append, Nat.ofDigitChars_cons, Nat.ofDigitChars_nil,
    Nat.add_mod, Nat.mul_mod, Nat.mod_mod, ← Nat.mul_mod, ← Nat.add_mod]

theorem endNumeral_pending (ds : List Char) :
    (⟨closed, current, pending ds⟩ : Scan).endNumeral
      = ⟨closed, (wordsOf [ds]).reverse ++ current, none⟩ := by
  by_cases h : ds = []
  · rw [pending, if_pos h, h]
    rfl
  · rw [pending, if_neg h, wordsOf, List.filter_cons_of_pos (by simpa using h)]
    rfl

theorem wordsOf_cons (ds : List Char) (runs : List (List Char)) :
    wordsOf (ds :: runs) = wordsOf [ds] ++ wordsOf runs := by
  rw [wordsOf, wordsOf, wordsOf, ← List.map_append, ← List.filter_append]
  rfl

theorem modifyHead_nil_append (runs : List (List Char)) : runs.modifyHead ([] ++ ·) = runs := by
  cases runs <;> rfl

/-- The numerals of a text that continues a numeral are recorded in order, the last one when it ends. -/
theorem endNumeral_foldl_take (cs ds : List Char) :
    (cs.foldl take ⟨closed, current, pending ds⟩).endNumeral
      = ⟨closed, (wordsOf ((cs.splitOnP fun c => !c.isDigit).modifyHead (ds ++ ·))).reverse ++ current,
          none⟩ := by
  induction cs generalizing ds current with
  | nil =>
      rw [List.foldl_nil, endNumeral_pending, List.splitOnP_nil, List.modifyHead_cons, List.append_nil]
  | cons c cs ih =>
      rw [List.foldl_cons, List.splitOnP_cons_eq_if_modifyHead, take]
      by_cases hc : c.isDigit = true
      · rw [if_pos hc, digit_pending, ih, if_neg (by simp [hc]), List.modifyHead_modifyHead]
        simp only [Function.comp_def, List.append_assoc, List.singleton_append]
      · have hnext := ih ((wordsOf [ds]).reverse ++ current) []
        rw [modifyHead_nil_append] at hnext
        rw [if_neg hc, endNumeral_pending, if_pos (by simp [hc]), List.modifyHead_cons,
          List.append_nil, wordsOf_cons ds (cs.splitOnP _), List.reverse_append, List.append_assoc]
        exact hnext

/-- A plain text is taken in from the first to the last character, and no other text without bars. -/
theorem foldlM_read_eq_ok_iff (text : String) (hbar : '|' ∉ piece) :
    piece.foldlM (read text) s = .ok s' ↔ Plain piece ∧ piece.foldl take s = s' := by
  induction piece generalizing s with
  | nil => simp [Plain, pure_eq]
  | cons c piece ih =>
      obtain ⟨hc, hbar⟩ := not_or.1 (List.mem_cons.not.1 hbar)
      have hread : s.read text c = .ok (s.take c) ∧ (c.isDigit = true ∨ isSeparator c = true) ∨
          (∃ fault, s.read text c = .error fault) ∧ ¬ (c.isDigit = true ∨ isSeparator c = true) := by
        rw [read, take]
        by_cases hdigit : c.isDigit = true
        · simp [hdigit]
        · by_cases hseparator : isSeparator c = true <;> simp [hdigit, hseparator, Ne.symm hc]
      rw [List.foldlM_cons, List.foldl_cons, Plain, List.forall_mem_cons]
      rcases hread with ⟨hread, hplain⟩ | ⟨⟨fault, hread⟩, hplain⟩
      · rw [hread, ok_bind, ih hbar, Plain, and_assoc, and_iff_right hplain]
      · rw [hread, error_bind]
        simp [hplain]

/-- A bar closes a block, if there is a numeral in it. -/
theorem read_bar_eq_ok_iff (text : String) : s.read text '|' = .ok s' ↔
    s.endNumeral.current ≠ [] ∧
      ⟨s.endNumeral.current.reverse :: s.endNumeral.closed, [], none⟩ = s' := by
  have hdigit : '|'.isDigit = false := by decide
  rw [read, hdigit]
  by_cases h : s.endNumeral.current = [] <;> simp [h]

/-- A piece is read as the block of its words. -/
theorem foldlM_read_piece (text : String) (hbar : '|' ∉ piece) :
    (piece ++ ['|']).foldlM (read text) ⟨closed, [], none⟩ = .ok s' ↔
      Plain piece ∧ numerals piece ≠ [] ∧ ⟨words piece :: closed, [], none⟩ = s' := by
  have hend : (piece.foldl take ⟨closed, [], none⟩).endNumeral
      = ⟨closed, (words piece).reverse, none⟩ := by
    have h := endNumeral_foldl_take closed [] piece []
    rw [modifyHead_nil_append, ← words_eq, List.append_nil] at h
    exact h
  rw [List.foldlM_append, bind_eq_ok]
  constructor
  · rintro ⟨s, hs, h⟩
    obtain ⟨hplain, rfl⟩ := (foldlM_read_eq_ok_iff text hbar).1 hs
    rw [List.foldlM_cons, bind_eq_ok] at h
    obtain ⟨next, hnext, h⟩ := h
    cases h
    rw [read_bar_eq_ok_iff, hend] at hnext
    simpa [hplain, words_ne_nil_iff] using hnext
  · rintro ⟨hplain, hne, rfl⟩
    refine ⟨_, (foldlM_read_eq_ok_iff text hbar).2 ⟨hplain, rfl⟩, ?_⟩
    rw [List.foldlM_cons, bind_eq_ok]
    refine ⟨_, (read_bar_eq_ok_iff text).2 ⟨?_, rfl⟩, ?_⟩
    · rw [hend]
      simpa [words_ne_nil_iff] using hne
    · rw [hend, List.reverse_reverse]
      rfl

/-- **Pieces are read as blocks one after the other.** -/
theorem foldlM_read_pieces (text : String) (hbar : ∀ piece ∈ pieces, '|' ∉ piece) :
    (pieces.flatMap (· ++ ['|'])).foldlM (read text) ⟨closed, [], none⟩ = .ok s' ↔
      (∀ piece ∈ pieces, Plain piece ∧ numerals piece ≠ []) ∧
        ⟨(pieces.map words).reverse ++ closed, [], none⟩ = s' := by
  induction pieces generalizing closed with
  | nil => simp [pure_eq]
  | cons piece pieces ih =>
      obtain ⟨hpiece, hpieces⟩ := List.forall_mem_cons.1 hbar
      rw [List.flatMap_cons, List.foldlM_append, bind_eq_ok, List.forall_mem_cons, List.map_cons,
        List.reverse_cons, List.append_assoc, List.singleton_append]
      constructor
      · rintro ⟨s, hs, h⟩
        obtain ⟨hplain, hne, rfl⟩ := (foldlM_read_piece closed text hpiece).1 hs
        obtain ⟨hrest, rfl⟩ := (ih _ hpieces).1 h
        exact ⟨⟨⟨hplain, hne⟩, hrest⟩, rfl⟩
      · rintro ⟨⟨⟨hplain, hne⟩, hrest⟩, rfl⟩
        exact ⟨_, (foldlM_read_piece closed text hpiece).2 ⟨hplain, hne, rfl⟩, (ih _ hpieces).2 ⟨hrest, rfl⟩⟩

end Scan

/-! ### Bars and blanks -/

/-- A text that ends with a bar is cut at its bars. -/
theorem exists_pieces (cs : List Char) : ∃ pieces : List (List Char), pieces ≠ [] ∧
    (∀ piece ∈ pieces, '|' ∉ piece) ∧ cs ++ ['|'] = pieces.flatMap (· ++ ['|']) := by
  induction cs with
  | nil => exact ⟨[[]], by simp⟩
  | cons c cs ih =>
      obtain ⟨pieces, hne, hbar, heq⟩ := ih
      by_cases hc : c = '|'
      · refine ⟨[] :: pieces, by simp, ?_, ?_⟩
        · simpa using hbar
        · rw [List.cons_append, heq, hc]
          rfl
      · obtain ⟨piece, rest, rfl⟩ := List.exists_cons_of_ne_nil hne
        obtain ⟨hpiece, hrest⟩ := List.forall_mem_cons.1 hbar
        refine ⟨(c :: piece) :: rest, by simp, ?_, ?_⟩
        · refine List.forall_mem_cons.2 ⟨?_, hrest⟩
          rw [List.mem_cons, not_or]
          exact ⟨Ne.symm hc, hpiece⟩
        · rw [List.cons_append, heq]
          rfl

/-- The cuts of a text are known. -/
theorem splitOn_pieces (hbar : ∀ piece ∈ pieces, '|' ∉ piece) :
    (pieces.flatMap (· ++ ['|'])).splitOn '|' = pieces ++ [[]] := by
  induction pieces with
  | nil => rfl
  | cons piece pieces ih =>
      obtain ⟨hpiece, hpieces⟩ := List.forall_mem_cons.1 hbar
      rw [List.flatMap_cons, List.append_assoc, List.singleton_append,
        List.splitOn_append_cons_self_of_not_mem hpiece, ih hpieces, List.cons_append]

theorem getLast?_pieces (hne : pieces ≠ []) :
    (pieces.flatMap (· ++ ['|'])).getLast? = some '|' := by
  obtain ⟨front, last, rfl⟩ := List.eq_nil_or_concat' pieces |>.resolve_left hne
  simp [List.flatMap_append]

/-- Blanks are dropped on both sides, up to what is no blank. -/
theorem trimBlanks_append {front back core : List Char} {c d : Char}
    (hblank : ∀ c ∈ front ++ back, isOuterBlank c = true) (hc : isOuterBlank c = false)
    (hd : isOuterBlank d = false) (hlast : (c :: core).getLast? = some d) :
    trimBlanks (front ++ (c :: core) ++ back) = c :: core := by
  obtain ⟨hfront, hback⟩ := List.forall_mem_append.1 hblank
  obtain ⟨init, hinit⟩ : ∃ init, c :: core = init ++ [d] := List.getLast?_eq_some_iff.1 hlast
  rw [trimBlanks, List.append_assoc, List.dropWhile_append_of_pos hfront, List.cons_append,
    List.dropWhile_cons_of_neg (by simp [hc]), ← List.cons_append, List.reverse_append,
    List.dropWhile_append_of_pos (by simpa using hback), hinit, List.reverse_append]
  rw [List.reverse_singleton, List.singleton_append, List.dropWhile_cons_of_neg (by simp [hd])]
  simp

/-- What was dropped are blanks. -/
theorem exists_trimBlanks (cs : List Char) : ∃ front back, cs = front ++ trimBlanks cs ++ back ∧
    ∀ c ∈ front ++ back, isOuterBlank c = true := by
  refine ⟨cs.takeWhile isOuterBlank, (cs.dropWhile isOuterBlank).rtakeWhile isOuterBlank, ?_, ?_⟩
  · rw [List.append_assoc]
    change cs = _ ++ ((cs.dropWhile isOuterBlank).rdropWhile isOuterBlank ++ _)
    rw [List.rdropWhile_append_rtakeWhile, List.takeWhile_append_dropWhile]
  · rw [List.forall_mem_append]
    exact ⟨fun c hc => List.mem_takeWhile_imp hc, fun c hc => List.mem_rtakeWhile_imp hc⟩

/-! ### What is read -/

theorem parse_of_trimBlanks {inside : List Char} (h : trimBlanks text.toList = '|' :: inside)
    (hlast : inside.getLast? = some '|') : parse text
      = (inside.foldlM (Scan.read text) .start >>= fun s => ofBlocks s.blocks.flatten.length s.blocks) := by
  rw [parse, h]
  exact if_neg (not_not_intro hlast)

/-- Texts without two bars around them are refused. -/
theorem exists_inside (h : parse text = .ok p) :
    ∃ inside, trimBlanks text.toList = '|' :: inside ∧ inside.getLast? = some '|' := by
  rw [parse] at h
  split at h
  · next inside hinside =>
      refine ⟨inside, hinside, ?_⟩
      by_contra hlast
      rw [if_pos hlast, throw_eq, error_bind] at h
      cases h
  · cases h

/-- A number that fits into a word is its own word. -/
theorem words_eq_numbers (h : ∀ x ∈ numbers piece, x < UInt32.size) : words piece = numbers piece :=
  (List.map_congr_left fun x hx => Nat.mod_eq_of_lt (h x hx)).trans (List.map_id _)

theorem length_words (cs : List Char) : (words cs).length = (numerals cs).length := by
  simp [words, numbers]

namespace Written

theorem bar_notMem (h : Written text pieces) : ∀ piece ∈ pieces, '|' ∉ piece :=
  fun piece hpiece => (h.plain piece hpiece).bar_notMem

theorem trimBlanks_eq (h : Written text pieces) :
    trimBlanks text.toList = '|' :: pieces.flatMap (· ++ ['|']) := by
  obtain ⟨front, back, heq, hblank⟩ := h.enclosed
  have hlast : ('|' :: pieces.flatMap (· ++ ['|'])).getLast? = some '|' := by
    rw [List.getLast?_cons, getLast?_pieces h.ne_nil]
    rfl
  rw [heq]
  exact trimBlanks_append hblank (by decide) (by decide) hlast

/-- There is only one way to read a text. -/
theorem splitOn_eq (h : Written text pieces) :
    (trimBlanks text.toList).tail.splitOn '|' = pieces ++ [[]] := by
  rw [h.trimBlanks_eq]
  exact splitOn_pieces h.bar_notMem

/-- **A text in block notation is read as the blocks of its words.** -/
theorem parse_eq (h : Written text pieces) :
    parse text = ofBlocks (pieces.flatMap numerals).length (pieces.map words) := by
  have hread := (Scan.foldlM_read_pieces [] text h.bar_notMem).2
    ⟨fun piece hpiece => ⟨h.plain piece hpiece, h.numerals_ne_nil piece hpiece⟩, rfl⟩
  have hlength : (pieces.map words).flatten.length = (pieces.flatMap numerals).length := by
    simp [List.length_flatten, List.length_flatMap, length_words, Function.comp_def]
  rw [parse_of_trimBlanks h.trimBlanks_eq (getLast?_pieces h.ne_nil), Scan.start, hread, ok_bind,
    Scan.blocks, List.append_nil, List.reverse_reverse, hlength]

end Written

/-- Only texts in block notation are read. -/
theorem exists_written (h : parse text = .ok p) : ∃ pieces, Written text pieces := by
  obtain ⟨inside, hinside, hlast⟩ := exists_inside h
  obtain ⟨init, rfl⟩ := List.getLast?_eq_some_iff.1 hlast
  obtain ⟨pieces, hne, hbar, heq⟩ := exists_pieces init
  rw [parse_of_trimBlanks hinside hlast, heq, Scan.start] at h
  obtain ⟨s, hs, -⟩ := bind_eq_ok.1 h
  obtain ⟨hpieces, -⟩ := (Scan.foldlM_read_pieces [] text hbar).1 hs
  obtain ⟨front, back, htext, hblank⟩ := exists_trimBlanks text.toList
  rw [hinside, heq] at htext
  exact ⟨pieces, ⟨front, back, htext, hblank⟩, hne, fun piece hpiece => (hpieces piece hpiece).1,
    fun piece hpiece => (hpieces piece hpiece).2⟩

/-- Texts that are not read are refused. -/
theorem refusesOnly_parse (text : String) : RefusesOnly (parse text) := by
  have hread (s : Scan) (c : Char) : RefusesOnly (s.read text c) := by
    rw [Scan.read]
    split
    · exact .ok _
    · dsimp only
      split
      · split
        · exact .error rfl
        · exact .ok _
      · split
        · exact .ok _
        · exact .error rfl
  rw [parse]
  split
  · exact .guard rfl fun _ => .bind (.foldlM hread _ _) fun s => refusesOnly_ofBlocks _ _
  · exact .error rfl

/-- **Block notation is read exactly, up to the size of a word.**  A text is read if and only if, up to
blanks around it, it is a list of pieces between bars, each of numerals, commas and white space with at
least one numeral, and the words of all numerals are the numbers below their count, each once.  Two
elements are then related if their words occur in one piece.  All other texts are refused.  As long as no
numeral takes more than 32 bits, the words are the natural numbers that were written. -/
theorem parse_exact (text : String) :
    ((∃ p, parse text = .ok p) ↔ ∃ pieces, Written text pieces ∧
      Lists (pieces.flatMap numerals).length (pieces.map words)) ∧
    (∀ p pieces, parse text = .ok p → Written text pieces →
      Constructed (pieces.flatMap numerals).length p ∧
      ∀ x y, p.isRelated x y = .ok true ↔ ∃ piece ∈ pieces, x ∈ words piece ∧ y ∈ words piece) ∧
    (∀ fault, parse text = .error fault → fault.kind = .invalidInput) ∧
    ∀ pieces, Written text pieces → (∀ piece ∈ pieces, ∀ x ∈ numbers piece, x < UInt32.size) →
      ((∃ p, parse text = .ok p) ↔
        Lists (pieces.flatMap numerals).length (pieces.map numbers)) ∧
      ∀ p, parse text = .ok p → ∀ x y, p.isRelated x y = .ok true ↔
        ∃ piece ∈ pieces, x ∈ numbers piece ∧ y ∈ numbers piece := by
  have hread {pieces : List (List Char)} (h : Written text pieces) : (∃ p, parse text = .ok p) ↔
      Lists (pieces.flatMap numerals).length (pieces.map words) := by
    rw [h.parse_eq]
    constructor
    · rintro ⟨p, hp⟩
      exact (ofBlocks_eq_ok_iff.1 hp).1
    · exact fun hlists => ⟨_, ofBlocks_eq_ok_iff.2 ⟨hlists, rfl⟩⟩
  have hrelated (p : Partition) {pieces : List (List Char)} (hp : parse text = .ok p)
      (h : Written text pieces) (x y : ℕ) : p.isRelated x y = .ok true ↔
        ∃ piece ∈ pieces, x ∈ words piece ∧ y ∈ words piece := by
    rw [h.parse_eq] at hp
    obtain ⟨hlists, rfl⟩ := ofBlocks_eq_ok_iff.1 hp
    rw [hlists.isRelated_joined]
    simp only [List.mem_map, exists_exists_and_eq_and]
  refine ⟨⟨?_, ?_⟩, ?_, refusesOnly_parse text, ?_⟩
  · rintro ⟨p, hp⟩
    obtain ⟨pieces, h⟩ := exists_written hp
    exact ⟨pieces, h, (hread h).1 ⟨p, hp⟩⟩
  · rintro ⟨pieces, h, hlists⟩
    exact (hread h).2 hlists
  · intro p pieces hp h
    exact ⟨.ofBlocks (h.parse_eq ▸ hp), hrelated p hp h⟩
  · intro pieces h hsmall
    have hwords : ∀ piece ∈ pieces, words piece = numbers piece :=
      fun piece hpiece => words_eq_numbers (hsmall piece hpiece)
    refine ⟨List.map_congr_left hwords ▸ hread h, fun p hp x y => ?_⟩
    rw [hrelated p hp h]
    refine exists_congr fun piece => and_congr_right fun hpiece => ?_
    rw [hwords piece hpiece]

/-- Blanks around a text, a comma, a tab and leading zeros are all right, and numerals may have several
digits. -/
theorem parse_of_eleven : ∃ p, parse " |10,9 | 8 7 6 5 4 3 2 1\t00|\n" = .ok p ∧
    p.isRelated 9 10 = .ok true ∧ p.isRelated 9 8 ≠ .ok true := by
  have hwritten : Written " |10,9 | 8 7 6 5 4 3 2 1\t00|\n"
      ["10,9 ".toList, " 8 7 6 5 4 3 2 1\t00".toList] := by
    exact ⟨⟨[' '], ['\n'], by decide +kernel, by simp [isOuterBlank]⟩, by decide, by decide, by decide⟩
  have hcount : (["10,9 ".toList, " 8 7 6 5 4 3 2 1\t00".toList].flatMap numerals).length = 11 := by
    decide
  have hnumbers : ["10,9 ".toList, " 8 7 6 5 4 3 2 1\t00".toList].map numbers
      = [[10, 9], [8, 7, 6, 5, 4, 3, 2, 1, 0]] := by decide
  obtain ⟨-, -, -, hsmall⟩ := parse_exact " |10,9 | 8 7 6 5 4 3 2 1\t00|\n"
  obtain ⟨hread, hrelated⟩ := hsmall _ hwritten (by decide)
  obtain ⟨p, hp⟩ := hread.2 (hcount ▸ hnumbers ▸ Lists.of_perm (by decide) (by decide))
  refine ⟨p, hp, (hrelated p hp 9 10).2 (by decide), ?_⟩
  rw [ne_eq, hrelated p hp]
  decide

/-- A numeral that does not fit into a word is taken for what is left of it: the number that was written
is no element, but the text is read. -/
theorem parse_numeral_over_word : parse "|4294967296|" = .ok (finest 1) ∧
    ¬ ∃ pieces, Written "|4294967296|" pieces ∧
      Lists (pieces.flatMap numerals).length (pieces.map numbers) := by
  refine ⟨by cbv, ?_⟩
  rintro ⟨pieces, h, hlists⟩
  have hcut : (trimBlanks "|4294967296|".toList).tail.splitOn '|' = ["4294967296".toList] ++ [[]] := by
    decide
  have hpieces : pieces = ["4294967296".toList] :=
    List.append_cancel_right (h.splitOn_eq.symm.trans hcut)
  subst hpieces
  have hnumbers : numbers "4294967296".toList = [4294967296] := by decide
  have hmem : 4294967296 ∈ numbers "4294967296".toList := by
    rw [hnumbers]
    exact List.mem_cons_self
  have hlt := hlists.lt _ (List.mem_map_of_mem List.mem_cons_self) 4294967296 hmem
  revert hlt
  decide

end UniversalAlgebra.Partition
