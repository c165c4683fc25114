/-
**Operations and their tables.**

A table lists the values of an operation row by row: the position of a tuple is the number that has the
arguments as its digits, the first one most significant.  The values are computed in the order in which
the tuples of a box are listed, and they are read off by position; the two fit together.  So an
operation whose evaluator was replaced by its table gives what the evaluator gave, and an algebra
evaluates its operations as they were given, whether or not it made tables for them.

Replacing the evaluator writes to the operation only after all values were computed and checked.

Main definitions:

* `Operation.tabulateInPlace` — the evaluator of an operation is replaced by its table;
* `Operation.ListsRowByRow` — a table has the values of a function, row by row;
* `Operation.Made` — operations that could be made.

Main results:

* `Operation.tableIndex_eq_ofDigits`, `Operation.getElem?_inBox_tableIndex` — positions in a table, and
  the tuples that stand there;
* `Operation.values_eq_ok_iff`, `Operation.tabulate_eq_ok_iff` — when there is a table, and what it
  holds;
* `Operation.Made.tableSized` — the table of an operation that could be made has an entry for each
  tuple;
* `Algebra.apply_of_prepare` — preparing an operation does not change its values;
* `Operation.tabulated_exact` — **tabulating succeeds exactly if the table fits and has elements for
  entries, keeps every value, and changes nothing if it is refused**.
-/

import UniversalAlgebra.Proofs.Algebra.Checked
import UniversalAlgebra.Proofs.Query.Changes
import UniversalAlgebra.Proofs.Tuples

set_option autoImplicit false

namespace UniversalAlgebra

open Fallible

namespace Operation

variable {n k : ℕ} {args : List ℕ}

/-! ### Positions -/

/-- The position of a tuple is the number whose digits are the arguments, the first one most
significant. -/
theorem tableIndex_eq_ofDigits (n : ℕ) (args : List ℕ) :
    tableIndex n args = Nat.ofDigits n args.reverse := by
  rw [Nat.ofDigits_eq_foldr, List.foldr_reverse, tableIndex]
  congr 1
  funext index x
  rw [Nat.cast_id, Nat.mul_comm, Nat.add_comm]

theorem tableIndex_cons (n x : ℕ) (args : List ℕ) :
    tableIndex n (x :: args) = x * n ^ args.length + tableIndex n args := by
  simp only [tableIndex_eq_ofDigits, List.reverse_cons, Nat.ofDigits_append, List.length_reverse,
    Nat.ofDigits_singleton]
  rw [Nat.add_comm, Nat.mul_comm]

/-- The position in a list that is made of parts of one length, one for each of some numbers. -/
theorem getElem?_flatMap_range' {α : Type} {f : ℕ → List α} {m : ℕ} (hf : ∀ i, (f i).length = m)
    (lo count : ℕ) {x j : ℕ} (hx : x < count) (hj : j < m) :
    ((List.range' lo count).flatMap f)[x * m + j]? = (f (lo + x))[j]? := by
  induction count generalizing lo x with
  | zero => exact absurd hx (Nat.not_lt_zero x)
  | succ count ih =>
      rw [List.range'_succ, List.flatMap_cons]
      cases x with
      | zero =>
          rw [Nat.zero_mul, Nat.zero_add, Nat.add_zero]
          exact List.getElem?_append_left (by rwa [hf])
      | succ x =>
          have hle : m ≤ (x + 1) * m + j := by
            rw [Nat.succ_mul]
            omega
          have hrest : (x + 1) * m + j - m = x * m + j := by
            rw [Nat.succ_mul]
            omega
          rw [List.getElem?_append_right (by rwa [hf]), hf, hrest, ih (lo + 1) (by omega)]
          congr 2
          omega

/-- The tuples of a box stand in the order of their positions. -/
theorem getElem?_inBox_tableIndex (hlen : args.length = k) (hargs : ∀ x ∈ args, x < n) :
    (Tuples.inBox (List.replicate k (0, n)))[tableIndex n args]? = some args := by
  induction args generalizing k with
  | nil =>
      subst hlen
      rfl
  | cons x args ih =>
      subst hlen
      have hrest : ∀ y ∈ args, y < n := fun y hy => hargs y (List.mem_cons_of_mem x hy)
      have hlength (i : ℕ) : ((Tuples.inBox (List.replicate args.length (0, n))).map (i :: ·)).length
          = n ^ args.length := by
        rw [List.length_map, Tuples.length_inBox, Tuples.volume_replicate]
      rw [List.length_cons, List.replicate_succ, Tuples.inBox, Nat.sub_zero, tableIndex_cons,
        getElem?_flatMap_range' hlength 0 n (hargs x List.mem_cons_self) (tableIndex_lt hrest),
        Nat.zero_add, List.getElem?_map, ih rfl hrest]
      rfl

/-! ### The values of an evaluator -/

/-- The table has the values of a function at the tuples over `[0, n)`, row by row and with the first
argument most significant. -/
structure ListsRowByRow (n k : ℕ) (f : List ℕ → Except Fault ℕ) (table : Array ℕ) : Prop where
  size_eq : table.size = n ^ k
  entry : ∀ args : List ℕ, args.length = k → (∀ x ∈ args, x < n) →
    ∃ v, f args = .ok v ∧ table[Nat.ofDigits n args.reverse]? = some v

variable {op op' : Operation} {eval : List ℕ → Except Fault ℕ} {table : Array ℕ}

theorem foldlM_push_eq (eval : List ℕ → Except Fault ℕ) (argss : List (List ℕ)) (found : Array ℕ) :
    argss.foldlM (fun found args => return found.push (← eval args)) found
      = (fun values => found ++ List.toArray values) <$> argss.mapM eval := by
  induction argss generalizing found with
  | nil => simp
  | cons args argss ih =>
      rw [List.foldlM_cons, List.mapM_cons]
      cases eval args with
      | error fault => rfl
      | ok v =>
          refine (ih (found.push v)).trans ?_
          rw [ok_bind]
          cases argss.mapM eval with
          | error fault => rfl
          | ok values => simp

/-- There are values if the table fits and the evaluator gives one at each tuple of the box. -/
theorem values_eq_ok_iff (h : op.body = .evaluator eval) : op.values = .ok table ↔
    op.universeSize ^ op.arity < 2 ^ 64 ∧
      List.Forall₂ (fun args v => eval args = .ok v)
        (Tuples.inBox (List.replicate op.arity (0, op.universeSize))) table.toList := by
  have hvalues : op.values = tableSize op.universeSize op.arity >>= fun _ =>
      List.toArray <$> (Tuples.inBox (List.replicate op.arity (0, op.universeSize))).mapM eval := by
    rw [values, h]
    dsimp only
    congr 1
    funext _
    rw [Tuples.foldBox_eq_foldlM, foldlM_push_eq]
    simp
  rw [hvalues, bind_eq_ok, ← mapM_eq_ok]
  constructor
  · rintro ⟨size, hsize, h⟩
    refine ⟨(tableSize_eq_ok_iff.1 hsize).1, ?_⟩
    obtain ⟨values, hvalues, rfl⟩ := map_eq_ok.1 h
    exact hvalues
  · rintro ⟨hlt, h⟩
    exact ⟨_, tableSize_eq_ok_iff.2 ⟨hlt, rfl⟩, map_eq_ok.2 ⟨_, h, rfl⟩⟩

/-- What is computed in the order of the box is a table, row by row. -/
theorem listsRowByRow_of_values (h : op.body = .evaluator eval) (hvalues : op.values = .ok table) :
    ListsRowByRow op.universeSize op.arity eval table := by
  obtain ⟨-, hall⟩ := (values_eq_ok_iff h).1 hvalues
  obtain ⟨hlength, hget⟩ := List.forall₂_iff_get.1 hall
  refine ⟨?_, ?_⟩
  · rw [← Array.length_toList, ← hlength, Tuples.length_inBox, Tuples.volume_replicate]
  · intro args hlen hargs
    obtain ⟨hindex, htuple⟩ := List.getElem?_eq_some_iff.1 (getElem?_inBox_tableIndex hlen hargs)
    have heval := hget _ hindex (hlength ▸ hindex)
    rw [List.get_eq_getElem, htuple] at heval
    refine ⟨_, heval, ?_⟩
    rw [← tableIndex_eq_ofDigits, ← Array.getElem?_toList]
    exact List.getElem?_eq_getElem _

/-- The entries of a table are elements exactly if the values at the tuples of elements are. -/
theorem ListsRowByRow.forall_mem_iff (h : op.body = .evaluator eval) (hvalues : op.values = .ok table) :
    (∀ v ∈ table, v < op.universeSize) ↔ ∀ args : List ℕ, args.length = op.arity →
      (∀ x ∈ args, x < op.universeSize) → ∃ v, v < op.universeSize ∧ eval args = .ok v := by
  have hrows := listsRowByRow_of_values h hvalues
  constructor
  · intro hentries args hlen hargs
    obtain ⟨v, hv, hentry⟩ := hrows.entry args hlen hargs
    exact ⟨v, hentries v (Array.mem_of_getElem? hentry), hv⟩
  · intro hall v hv
    obtain ⟨hlength, hget⟩ := List.forall₂_iff_get.1 ((values_eq_ok_iff h).1 hvalues).2
    obtain ⟨i, hi, rfl⟩ := List.getElem_of_mem (Array.mem_toList_iff.2 hv)
    have hi' := hlength ▸ hi
    obtain ⟨hlen, hargs⟩ := Tuples.mem_inBox_replicate.1 (List.getElem_mem hi')
    obtain ⟨w, hw, heval⟩ := hall _ hlen hargs
    cases heval.symm.trans (hget i hi' hi)
    exact hw

/-! ### Tabulating -/

/-- Tabulating an evaluator succeeds if there are values, all of them elements. -/
theorem tabulate_eq_ok_iff (h : op.body = .evaluator eval) : op.tabulate = .ok op' ↔
    ∃ table, op.values = .ok table ∧ (∀ v ∈ table, v < op.universeSize) ∧
      op' = { op with body := .table table } := by
  have htable : ¬op.hasTable = true := by simp [hasTable, h]
  rw [tabulate, if_neg htable, bind_eq_ok]
  refine exists_congr fun table => and_congr_right fun _ => ?_
  rw [← firstOutside_eq_none_iff]
  cases firstOutside op.universeSize table with
  | none => simp [pure_eq, eq_comm]
  | some entry => simp [throw_eq]

/-- Replaces the evaluator of an operation by its table: the values are computed first, then checked,
and only after that the operation is written to. -/
def tabulateInPlace : Query Operation Unit := do
  let op ← get
  if op.hasTable then return
  let table ← op.values
  match firstOutside op.universeSize table with
  | some (v, i) => throw (.evaluatesOutside op.name v i)
  | none => modify fun op => { op with body := .table table }

/-- Tabulating in place is making the new operation first. -/
theorem tabulateInPlace_eq :
    tabulateInPlace = Query.atOnce fun op => op.tabulate.map fun op' => ((), op') := by
  funext op
  rw [tabulateInPlace, Query.get_bind_apply, Query.atOnce, tabulate]
  by_cases htable : op.hasTable
  · rw [if_pos htable, if_pos htable]
    rfl
  · rw [if_neg htable, if_neg htable]
    cases hvalues : op.values with
    | error fault => rfl
    | ok table =>
        have hlift : (liftM (Except.ok table : Except Fault (Array ℕ)) : Query Operation (Array ℕ)) op
            = .ok table op := rfl
        rw [Query.bind_of_ok hlift, ok_bind]
        cases firstOutside op.universeSize table with
        | none => rfl
        | some entry => rfl

theorem tabulateInPlace_eq_ok : tabulateInPlace op = .ok () op' ↔ op.tabulate = .ok op' := by
  rw [tabulateInPlace_eq, Query.atOnce]
  cases op.tabulate with
  | error fault => simp [Except.map]
  | ok made => simp [Except.map]

/-- A tabulated operation gives what the evaluator gives. -/
theorem apply_of_tabulate (h : op.body = .evaluator eval) (htabulate : op.tabulate = .ok op')
    (hlen : args.length = op.arity) (hargs : ∀ x ∈ args, x < op.universeSize) :
    op'.apply args = eval args := by
  obtain ⟨table, hvalues, -, rfl⟩ := (tabulate_eq_ok_iff h).1 htabulate
  obtain ⟨v, hv, hentry⟩ := (listsRowByRow_of_values h hvalues).entry args hlen hargs
  rw [apply, hv]
  dsimp only
  rw [tableIndex_eq_ofDigits, hentry]
  rfl

/-- Tabulating keeps every value. -/
theorem apply_tabulate (htabulate : op.tabulate = .ok op') (hlen : args.length = op.arity)
    (hargs : ∀ x ∈ args, x < op.universeSize) : op'.apply args = op.apply args := by
  cases hbody : op.body with
  | table values =>
      rw [tabulate, if_pos (by simp [hasTable, hbody])] at htabulate
      cases htabulate
      rfl
  | evaluator eval =>
      obtain ⟨table, hvalues, hentries, -⟩ := (tabulate_eq_ok_iff hbody).1 htabulate
      obtain ⟨v, hlt, hv⟩ :=
        (ListsRowByRow.forall_mem_iff hbody hvalues).1 hentries args hlen hargs
      rw [apply_of_tabulate hbody htabulate hlen hargs, apply, hbody]
      dsimp only
      rw [hv, ok_bind, if_pos hlt]
      rfl

theorem signature_of_tabulate (h : op.tabulate = .ok op') :
    op'.name = op.name ∧ op'.arity = op.arity ∧ op'.universeSize = op.universeSize := by
  cases hbody : op.body with
  | table values =>
      rw [tabulate, if_pos (by simp [hasTable, hbody])] at h
      cases h
      exact ⟨rfl, rfl, rfl⟩
  | evaluator eval =>
      obtain ⟨table, -, -, rfl⟩ := (tabulate_eq_ok_iff hbody).1 h
      exact ⟨rfl, rfl, rfl⟩

/-- What can be tabulated, in terms of the evaluator alone. -/
theorem exists_tabulate_iff (h : op.body = .evaluator eval) : (∃ op', op.tabulate = .ok op') ↔
    op.universeSize ^ op.arity < 2 ^ 64 ∧ ∀ args : List ℕ, args.length = op.arity →
      (∀ x ∈ args, x < op.universeSize) → ∃ v, v < op.universeSize ∧ eval args = .ok v := by
  constructor
  · rintro ⟨op', hop'⟩
    obtain ⟨table, hvalues, hentries, -⟩ := (tabulate_eq_ok_iff h).1 hop'
    exact ⟨((values_eq_ok_iff h).1 hvalues).1,
      (ListsRowByRow.forall_mem_iff h hvalues).1 hentries⟩
  · rintro ⟨hfits, hall⟩
    obtain ⟨values, hvalues⟩ : ∃ values,
        (Tuples.inBox (List.replicate op.arity (0, op.universeSize))).mapM eval = .ok values := by
      refine exists_mapM_eq_ok fun args hargs => ?_
      obtain ⟨hlen, hlt⟩ := Tuples.mem_inBox_replicate.1 hargs
      obtain ⟨v, -, hv⟩ := hall args hlen hlt
      exact ⟨v, hv⟩
    have htable : op.values = .ok values.toArray :=
      (values_eq_ok_iff h).2 ⟨hfits, mapM_eq_ok.1 hvalues⟩
    exact ⟨_, (tabulate_eq_ok_iff h).2
      ⟨_, htable, (ListsRowByRow.forall_mem_iff h htable).2 hall, rfl⟩⟩

theorem exists_tabulate (hfits : op.universeSize ^ op.arity < 2 ^ 64) (hop : op.Total) :
    ∃ op', op.tabulate = .ok op' := by
  cases hbody : op.body with
  | table values => exact ⟨op, by rw [tabulate, if_pos (by simp [hasTable, hbody])]⟩
  | evaluator eval =>
      refine (exists_tabulate_iff hbody).2 ⟨hfits, fun args hlen hargs => ?_⟩
      obtain ⟨v, hlt, hv⟩ := hop args hlen hargs
      rw [apply, hbody] at hv
      obtain ⟨w, hw, hv⟩ := bind_eq_ok.1 hv
      split at hv
      · cases hv
        exact ⟨v, hlt, hw⟩
      · cases hv

/-! ### Operations that could be made -/

/-- Operations that could be made, from a table or from an evaluator. -/
inductive Made : Operation → Prop
  | ofTable {name : String} {arity u : ℕ} {table : Array ℕ} {op : Operation}
      (h : ofTable name arity u table = .ok op) : Made op
  | ofEvaluator {name : String} {arity u : ℕ} {eval? : Option (List ℕ → Except Fault ℕ)}
      {op : Operation} (h : ofEvaluator name arity u eval? = .ok op) : Made op

/-- A table has an entry for each tuple of elements. -/
def TableSized (op : Operation) : Prop :=
  ∀ table, op.body = .table table → table.size = op.universeSize ^ op.arity

theorem Made.checked (h : op.Made) : op.Checked := by
  cases h with
  | ofTable h => exact checked_of_ofTable h
  | ofEvaluator h => exact checked_of_ofEvaluator h

/-- What has a table was made with one of the right length. -/
theorem Made.tableSize_eq (h : op.Made) (hbody : op.body = .table table) :
    tableSize op.universeSize op.arity = .ok table.size := by
  cases h with
  | ofTable h =>
      obtain ⟨-, hsize, -, rfl⟩ := ofTable_eq_ok h
      cases hbody
      exact hsize
  | ofEvaluator h =>
      obtain ⟨-, eval, -, rfl⟩ := ofEvaluator_eq_ok h
      cases hbody

theorem Made.tableSized (h : op.Made) : op.TableSized :=
  fun _ hbody => tableSize_eq_of_ok (h.tableSize_eq hbody)

theorem TableSized.tabulate (h : op.TableSized) (htabulate : op.tabulate = .ok op') :
    op'.TableSized := by
  cases hbody : op.body with
  | table values =>
      rw [Operation.tabulate, if_pos (by simp [hasTable, hbody])] at htabulate
      cases htabulate
      exact h
  | evaluator eval =>
      obtain ⟨table, hvalues, -, rfl⟩ := (tabulate_eq_ok_iff hbody).1 htabulate
      rintro _ ⟨⟩
      exact (listsRowByRow_of_values hbody hvalues).size_eq

end Operation

/-! ### The operations of an algebra -/

namespace Algebra

variable {name : String} {size : ℕ} {given ops : List Operation} {op op' : Operation}

/-- Preparing an operation leaves it as it is, or tabulates it. -/
theorem prepare_cases (h : prepare op = .ok op') : op' = op ∨ op.tabulate = .ok op' := by
  rw [prepare] at h
  split at h
  · exact Or.inl (by simpa [pure_eq, eq_comm] using h)
  · obtain ⟨size, -, h⟩ := bind_eq_ok.1 h
    split at h
    · exact Or.inr h
    · exact Or.inl (by simpa [pure_eq, eq_comm] using h)

/-- Preparing an operation keeps its signature. -/
theorem signature_of_prepare (h : prepare op = .ok op') :
    op'.name = op.name ∧ op'.arity = op.arity ∧ op'.universeSize = op.universeSize := by
  rcases prepare_cases h with rfl | h
  · exact ⟨rfl, rfl, rfl⟩
  · exact Operation.signature_of_tabulate h

/-- **Preparing an operation keeps every value.** -/
theorem apply_of_prepare (h : prepare op = .ok op') {args : List ℕ} (hlen : args.length = op.arity)
    (hargs : ∀ x ∈ args, x < op.universeSize) : op'.apply args = op.apply args := by
  rcases prepare_cases h with rfl | h
  · rfl
  · exact Operation.apply_tabulate h hlen hargs

theorem tableSized_of_prepare (h : prepare op = .ok op') (hop : op.TableSized) : op'.TableSized := by
  rcases prepare_cases h with rfl | h
  · exact hop
  · exact hop.tabulate h

theorem total_of_prepare (h : prepare op = .ok op') (hop : op.Total) : op'.Total := by
  obtain ⟨-, harity, hsize⟩ := signature_of_prepare h
  intro args hlen hargs
  rw [harity] at hlen
  rw [hsize] at hargs ⊢
  rw [apply_of_prepare h hlen hargs]
  exact hop args hlen hargs

/-- An operation is prepared if the number of its argument tuples fits and its values are elements. -/
theorem exists_prepare (hfits : op.universeSize ^ op.arity < 2 ^ 64) (hop : op.Total) :
    ∃ op', prepare op = .ok op' := by
  rw [prepare]
  split
  · exact ⟨op, rfl⟩
  · rw [Operation.tableSize_eq_ok_iff.2 ⟨hfits, rfl⟩, ok_bind]
    split
    · exact Operation.exists_tabulate hfits hop
    · exact ⟨op, rfl⟩

/-- The operations of an algebra are the given ones, each of them prepared. -/
theorem prepareAll_eq_ok {cs : List ℕ} (h : prepareAll name size given = .ok (ops, cs)) :
    List.Forall₂ (fun op₀ op => op₀.universeSize = size ∧ prepare op₀ = .ok op) given ops := by
  induction given generalizing ops cs with
  | nil =>
      cases h
      exact .nil
  | cons op given ih =>
      rw [prepareAll] at h
      by_cases hsize : op.universeSize = size
      · simp only [hsize, ne_eq, not_true, if_false] at h
        obtain ⟨op', hop', h⟩ := bind_eq_ok.1 h
        -- whether or not the operation has a constant, the others follow
        have hrest (constants : Except Fault (List ℕ))
            (h : (constants >>= fun c => prepareAll name size given >>= fun made =>
              pure (op' :: made.1, c ++ made.2)) = .ok (ops, cs)) :
            List.Forall₂ (fun op₀ op => op₀.universeSize = size ∧ prepare op₀ = .ok op)
              (op :: given) ops := by
          obtain ⟨c, -, h⟩ := bind_eq_ok.1 h
          obtain ⟨⟨ops', cs'⟩, hmade, h⟩ := bind_eq_ok.1 h
          cases h
          exact .cons ⟨hsize, hop'⟩ (ih hmade)
        split at h
        · exact hrest _ h
        · exact hrest _ h
      · simp [hsize, throw_eq, error_bind] at h

theorem build_eq_ok {A : Algebra} (h : build name size given = .ok A) :
    0 < size ∧ A.size = size ∧
      List.Forall₂ (fun op₀ op => op₀.universeSize = size ∧ prepare op₀ = .ok op) given A.operations := by
  by_cases hsize : size < 1
  · simp [build, hsize, throw_eq, error_bind] at h
  · simp only [build, hsize, if_false] at h
    obtain ⟨⟨ops, cs⟩, hprepare, h⟩ := bind_eq_ok.1 h
    cases h
    exact ⟨Nat.not_lt.1 hsize, rfl, prepareAll_eq_ok hprepare⟩

/-- An algebra can be built from total operations whose tables would fit. -/
theorem exists_build (name : String) (hsize : 0 < size)
    (hgiven : ∀ op ∈ given, op.universeSize = size ∧ size ^ op.arity < 2 ^ 64 ∧ op.Total) :
    ∃ A, build name size given = .ok A := by
  have hprepare : ∃ made, prepareAll name size given = .ok made := by
    induction given with
    | nil => exact ⟨_, rfl⟩
    | cons op given ih =>
        obtain ⟨⟨husize, hfits, htotal⟩, hrest⟩ := List.forall_mem_cons.1 hgiven
        obtain ⟨made, hmade⟩ := ih hrest
        obtain ⟨op', hop'⟩ := exists_prepare (husize.symm ▸ hfits) htotal
        rw [prepareAll, if_neg (not_not_intro husize), hop']
        by_cases harity : op'.arity = 0
        · obtain ⟨c, -, hc⟩ := total_of_prepare hop' htotal [] harity.symm (by simp)
          exact ⟨_, by rw [ok_bind, if_pos harity, hc, hmade]; rfl⟩
        · exact ⟨_, by rw [ok_bind, if_neg harity, hmade]; rfl⟩
  obtain ⟨made, hmade⟩ := hprepare
  rw [build, if_neg (Nat.not_lt.2 hsize), hmade]
  exact ⟨_, rfl⟩

/-- The table of an operation of an algebra has an entry for each tuple of elements. -/
theorem tableSized_of_build {A : Algebra} (h : build name size given = .ok A)
    (hgiven : ∀ op ∈ given, op.TableSized) : ∀ op ∈ A.operations, op.TableSized := by
  obtain ⟨-, -, hprepared⟩ := build_eq_ok h
  obtain ⟨hlength, hget⟩ := List.forall₂_iff_get.1 hprepared
  intro op hop
  obtain ⟨i, hi, rfl⟩ := List.getElem_of_mem hop
  have hi' := hlength ▸ hi
  exact tableSized_of_prepare (hget i hi' hi).2 (hgiven _ (List.getElem_mem hi'))

/-- Each operation of an algebra gives what it gave when it was handed in. -/
theorem evaluate_of_build {A : Algebra} (h : build name size given = .ok A) {k : ℕ}
    (hop : given[k]? = some op) {args : List ℕ} (hlen : args.length = op.arity)
    (hargs : ∀ x ∈ args, x < size) : A.evaluate k args = op.apply args := by
  obtain ⟨-, -, hprepared⟩ := build_eq_ok h
  obtain ⟨hlength, hget⟩ := List.forall₂_iff_get.1 hprepared
  obtain ⟨hk, rfl⟩ := List.getElem?_eq_some_iff.1 hop
  have hk' : k < A.operations.length := hlength ▸ hk
  obtain ⟨husize, hprepare⟩ := hget k hk hk'
  rw [evaluate, List.getElem?_eq_getElem hk']
  exact apply_of_prepare hprepare hlen (husize.symm ▸ hargs)

end Algebra

/-- **Tables and evaluators agree.**  An operation given by an evaluator, of any arity and on any
universe, can be tabulated exactly if the number of argument tuples fits into 64 bits and the evaluator
gives an element at each of them.  Its values are listed row by row, with the first argument most
significant, before and after that; the tabulated operation gives what the evaluator gave; and if
tabulating is refused the operation is what it was.  So an algebra that could be built evaluates each
operation as it was given, whether or not there is a table now. -/
theorem Operation.tabulated_exact :
    (∀ (name : String) (k n : ℕ) (eval : List ℕ → Except Fault ℕ) (op : Operation),
      ofEvaluator name k n (some eval) = .ok op →
      ((∃ op', tabulateInPlace op = .ok () op') ↔
        n ^ k < 2 ^ 64 ∧ ∀ args : List ℕ, args.length = k → (∀ x ∈ args, x < n) →
          ∃ v, v < n ∧ eval args = .ok v) ∧
      (∀ table, op.values = .ok table → ListsRowByRow n k eval table) ∧
      (∀ op', tabulateInPlace op = .ok () op' →
        (∃ table, op' = ⟨name, k, n, .table table⟩ ∧ op.values = .ok table ∧
          op'.values = .ok table) ∧
        ∀ args : List ℕ, args.length = k → (∀ x ∈ args, x < n) → op'.apply args = eval args) ∧
      ∀ fault op', tabulateInPlace op = .error fault op' → op' = op) ∧
    ∀ (name : String) (size : ℕ) (given : List Operation) (A : Algebra),
      Algebra.build name size given = .ok A → A.operations.length = given.length ∧
        ∀ k op, given[k]? = some op → ∀ args : List ℕ, args.length = op.arity →
          (∀ x ∈ args, x < size) → A.evaluate k args = op.apply args := by
  refine ⟨?_, ?_⟩
  · intro name k n eval op hmade
    obtain ⟨-, _, heval, rfl⟩ := ofEvaluator_eq_ok hmade
    cases heval
    refine ⟨?_, fun table => listsRowByRow_of_values rfl, ?_, ?_⟩
    · simp only [tabulateInPlace_eq_ok]
      exact exists_tabulate_iff rfl
    · intro op' h
      rw [tabulateInPlace_eq_ok] at h
      obtain ⟨table, hvalues, -, rfl⟩ := (tabulate_eq_ok_iff rfl).1 h
      exact ⟨⟨table, rfl, hvalues, rfl⟩, fun args => apply_of_tabulate rfl h⟩
    · intro fault op' h
      rw [tabulateInPlace_eq, Query.atOnce_eq_error] at h
      exact h.2
  · intro name size given A hbuild
    obtain ⟨-, -, hprepared⟩ := Algebra.build_eq_ok hbuild
    exact ⟨hprepared.length_eq.symm, fun k op hop args => Algebra.evaluate_of_build hbuild hop⟩

/-- Subtraction modulo three is tabulated, and one minus two is two before and after that.  The
successor leaves a universe of three elements, so that it stays what it is.  An operation of
twenty-three arguments that fails at some of them gives in its algebra what it gives alone. -/
theorem Operation.tabulated_modulo_three :
    (∃ op, tabulateInPlace ⟨"-", 2, 3, .evaluator (Rule.linear [1, 2] 0 3).eval⟩ = .ok () op ∧
      op.apply [1, 2] = .ok 2 ∧ op.values = .ok #[0, 2, 1, 1, 0, 2, 2, 1, 0]) ∧
    (¬∃ op, tabulateInPlace ⟨"next", 1, 3, .evaluator (Rule.linear [1] 1 4).eval⟩ = .ok () op) ∧
    Algebra.partialSuccessor.evaluate 1 (List.replicate 23 1) = .error (.undefinedAt 1) := by
  obtain ⟨hexact, hbuilt⟩ := Operation.tabulated_exact
  refine ⟨?_, ?_, ?_⟩
  · have hvalues : (⟨"-", 2, 3, .evaluator (Rule.linear [1, 2] 0 3).eval⟩ : Operation).values
        = .ok #[0, 2, 1, 1, 0, 2, 2, 1, 0] := by cbv
    have htabulate : tabulateInPlace ⟨"-", 2, 3, .evaluator (Rule.linear [1, 2] 0 3).eval⟩
        = .ok () ⟨"-", 2, 3, .table #[0, 2, 1, 1, 0, 2, 2, 1, 0]⟩ := by cbv
    obtain ⟨-, -, hkept, -⟩ := hexact "-" 2 3 _ _ rfl
    obtain ⟨-, hsame⟩ := hkept _ htabulate
    exact ⟨_, htabulate, hsame [1, 2] rfl (by simp), rfl⟩
  · obtain ⟨hiff, -⟩ := hexact "next" 1 3 (Rule.linear [1] 1 4).eval _ rfl
    rw [hiff]
    rintro ⟨-, hall⟩
    obtain ⟨v, hlt, hv⟩ := hall [2] rfl (by simp)
    have hthree : (Rule.linear [1] 1 4).eval [2] = .ok 3 := by cbv
    cases hthree.symm.trans hv
    exact absurd hlt (by decide)
  · obtain ⟨-, hsame⟩ := hbuilt _ _ _ _ Algebra.build_partialSuccessor
    rw [hsame 1 _ rfl (List.replicate 23 1) rfl (by simp)]
    cbv

end UniversalAlgebra
