/-
**Closing stays in bounds.**

Nothing is checked when a table is read or a bit set is written to while closing.  It need not be: an
algebra that could be built has tables of the right length and evaluators whose values are checked, what
is discovered are elements as long as what is shown are elements, and what is shown are values of
operations.  So all operations are applied to elements, all images are made of elements, and whatever is
read or written lies where it should.

An evaluator may leave the universe.  Its value is then refused when it is computed, there is no image,
and closing ends in the state in which the value was computed.

Main definitions:

* `Composed`, `TracedGrowth` — what items are made of, what an image is computed from, and what showing
  an item reads and writes;
* `Closure.Bounded` — an invariant that keeps all of this in bounds;
* `Closure.StaysInBounds` — closing stays in bounds and ends when an evaluator leaves the universe;
* `Algebra.Constructed` — algebras that could be built from operations that could be made.

Main results:

* `Closure.Bounded.staysInBounds` — such an invariant is enough;
* `Closure.stays_in_bounds` — **closing elements, pairs and tuples stays in bounds**.
-/

import UniversalAlgebra.Proofs.Closure.Calls
import UniversalAlgebra.Proofs.Operation.Tables

set_option autoImplicit false

namespace UniversalAlgebra

open Growth Fallible

/-! ### Algebras that could be built -/

namespace Operation

variable {op : Operation} {args : List ℕ}

/-- What an application raises comes from the evaluator, or it is that a value lies outside. -/
theorem apply_eq_error {fault : Fault} (h : op.apply args = .error fault) :
    ∃ eval, op.body = .evaluator eval ∧
      (eval args = .error fault ∨ ∃ v, eval args = .ok v ∧ fault = .returnedOutside op.name v) := by
  rw [apply] at h
  split at h
  · cases h
  · next eval hbody =>
      refine ⟨eval, hbody, ?_⟩
      cases heval : eval args with
      | error raised =>
          rw [heval] at h
          exact Or.inl h
      | ok v =>
          rw [heval, ok_bind] at h
          split at h
          · cases h
          · cases h
            exact Or.inr ⟨v, rfl, rfl⟩

/-- A value outside of the universe is refused. -/
theorem apply_of_outside {eval : List ℕ → Except Fault ℕ} {v : ℕ} (h : op.body = .evaluator eval)
    (heval : eval args = .ok v) (hv : op.universeSize ≤ v) :
    op.apply args = .error (.returnedOutside op.name v) := by
  rw [apply, h]
  dsimp only
  rw [heval, ok_bind, if_neg (Nat.not_lt.2 hv)]
  rfl

end Operation

namespace Algebra

variable {A : Algebra} {op : Operation}

/-- The algebra could be built from operations that could be made. -/
def Constructed (A : Algebra) : Prop :=
  ∃ name size given, (∀ op ∈ given, Operation.Made op) ∧ build name size given = .ok A

/-- An evaluator of the algebra raises the fault itself. -/
def RaisedByEvaluator (A : Algebra) (fault : Fault) : Prop :=
  ∃ op ∈ A.operations, ∃ eval args, op.body = .evaluator eval ∧ eval args = .error fault

namespace Constructed

theorem checked (hA : A.Constructed) : A.Checked := by
  obtain ⟨name, size, given, hmade, hbuild⟩ := hA
  exact checked_of_build hbuild fun op hop => (hmade op hop).checked

theorem tableSized (hA : A.Constructed) (hop : op ∈ A.operations) : op.TableSized := by
  obtain ⟨name, size, given, hmade, hbuild⟩ := hA
  exact tableSized_of_build hbuild (fun op hop => (hmade op hop).tableSized) op hop

theorem universeSize_eq (hA : A.Constructed) (hop : op ∈ A.operations) :
    op.universeSize = A.size := by
  obtain ⟨name, size, given, -, hbuild⟩ := hA
  obtain ⟨-, hsize, hprepared⟩ := build_eq_ok hbuild
  obtain ⟨hlength, hget⟩ := List.forall₂_iff_get.1 hprepared
  obtain ⟨i, hi, rfl⟩ := List.getElem_of_mem hop
  obtain ⟨husize, hprepare⟩ := hget i (hlength.symm ▸ hi) hi
  exact (universeSize_of_prepare hprepare).trans (husize.trans hsize.symm)

/-- At elements a table is read inside. -/
theorem tableIndex_lt (hA : A.Constructed) (hop : op ∈ A.operations) {table : Array ℕ}
    (hbody : op.body = .table table) {args : List ℕ} (hlen : args.length = op.arity)
    (hargs : ∀ x ∈ args, x < A.size) : Operation.tableIndex op.universeSize args < table.size := by
  rw [hA.tableSized hop table hbody, ← hlen]
  exact Operation.tableIndex_lt (hA.universeSize_eq hop ▸ hargs)

end Constructed

end Algebra

/-! ### What is read and written -/

/-- Items that are made of elements. -/
class Composed (ι : Type) where
  /-- The elements that an item is made of. -/
  components : ι → List ℕ

instance : Composed ℕ := ⟨fun x => [x]⟩

instance : Composed (ℕ × ℕ) := ⟨fun p => [p.1, p.2]⟩

instance : Composed (List ℕ) := ⟨fun t => t⟩

/-- What an image is computed from, and what showing an item reads and writes. -/
class TracedGrowth (σ : Type) {ι : outParam Type} [Growth σ ι] where
  /-- The numbers of the discovered items that are looked up for an image. -/
  items : σ → (args : List ℕ) → List ℕ
  /-- The tuples of elements at which an operation is applied for an image, one after the other. -/
  inputs : σ → Operation → (args : List ℕ) → List (List ℕ)
  /-- The image that is made of the values, if it is worth showing. -/
  assemble : (values : List ℕ) → Option ι
  image_eq : ∀ s op args, image s op args = assemble <$> (inputs s op args).mapM op.apply
  /-- The positions that are read and written when an item is shown, each with the length of what it is
  a position in. -/
  accesses : σ → ι → List (ℕ × ℕ)

namespace Closure

open Composed TracedGrowth

variable {σ ι : Type} [Growth σ ι] [Composed ι] [TracedGrowth σ]

/-- The tuples of elements at which a call applies its operation, up to the first failure. -/
def Call.applied (c : Call σ) : List (List ℕ) := tried c.op.apply (inputs c.state c.op c.args)

/-- Closing stays in bounds, and it ends when an evaluator leaves the universe. -/
structure StaysInBounds (A : Algebra) (mode : Mode) (cap mark : ℕ) (s : σ) : Prop where
  /-- The items that are looked up were discovered. -/
  items_lt : ∀ c, Computes A mode cap mark s c → ∀ i ∈ items c.state c.args, i < size c.state
  /-- Operations are applied to elements, as many as they take, and tables are read inside. -/
  applied_lt : ∀ c, Computes A mode cap mark s c → ∀ xs ∈ c.applied,
    xs.length = c.op.arity ∧ (∀ x ∈ xs, x < A.size) ∧
      ∀ table, c.op.body = .table table → Operation.tableIndex c.op.universeSize xs < table.size
  /-- What is found is made of elements. -/
  found_lt : ∀ c, Computes A mode cap mark s c → ∀ x, c.found = some x → ∀ a ∈ components x, a < A.size
  /-- What is shown is made of elements, and showing it reads and writes inside. -/
  shown_lt : ∀ t x, Shows A mode cap mark s t x →
    (∀ a ∈ components x, a < A.size) ∧ ∀ access ∈ accesses t x, access.1 < access.2
  /-- A value outside of the universe is refused as invalid input.  Nothing is found then, and closing
  fails in the state in which the value was computed: sequentially with this fault, and in parallel with
  the first fault of the pass, which is of the same kind unless an evaluator raises another one itself. -/
  outside : ∀ c, Computes A mode cap mark s c → ∀ xs ∈ c.applied, ∀ eval v,
    c.op.body = .evaluator eval → eval xs = .ok v → A.size ≤ v →
      c.op.apply xs = .error (.returnedOutside c.op.name v) ∧ c.found = none ∧
      ∀ o, ComesTo A mode cap mark s o → o.state = c.state ∧ ∃ fault, o.status = .error fault ∧
        (mode = .sequential → fault = .returnedOutside c.op.name v) ∧
        (fault.kind = .invalidInput ∨ A.RaisedByEvaluator fault)

/-- Under the invariant, what is drawn and what is shown stays in bounds. -/
structure Bounded (A : Algebra) (J : σ → Prop) : Prop where
  steady : Steady A.operations J
  size_le : ∀ s, J s → size s ≤ capacity A.size s
  items_lt : ∀ {s}, J s → ∀ {op args}, args ∈ drawn s op 0 (size s) → ∀ i ∈ items s args, i < size s
  inputs_lt : ∀ {s}, J s → ∀ {op args}, args ∈ drawn s op 0 (size s) → ∀ xs ∈ inputs s op args,
    xs.length = op.arity ∧ ∀ x ∈ xs, x < A.size
  components_lt : ∀ {s}, J s → ∀ {x}, IsImage A.operations s x → ∀ a ∈ components x, a < A.size
  accesses_lt : ∀ {s}, J s → ∀ {x}, (∀ a ∈ components x, a < A.size) →
    ∀ access ∈ accesses s x, access.1 < access.2

variable {A : Algebra} {J : σ → Prop} {s : σ} {mode : Mode} {cap mark : ℕ}

omit [Composed ι] in
/-- What a computation of an image raises comes from an evaluator, or it is that a value lies outside. -/
theorem kind_of_image_eq_error {op : Operation} (hop : op ∈ A.operations) {args : List ℕ}
    {fault : Fault} (h : image s op args = .error fault) :
    fault.kind = .invalidInput ∨ A.RaisedByEvaluator fault := by
  rw [image_eq] at h
  cases hvalues : (inputs s op args).mapM op.apply with
  | ok values =>
      rw [hvalues] at h
      cases h
  | error raised =>
      rw [hvalues] at h
      cases h
      obtain ⟨xs, -, hxs⟩ := exists_of_mapM_eq_error hvalues
      obtain ⟨eval, hbody, hraised | ⟨v, -, rfl⟩⟩ := Operation.apply_eq_error hxs
      · exact Or.inr ⟨op, hop, eval, xs, hbody, hraised⟩
      · exact Or.inl rfl

omit [Composed ι] in
/-- An image is not found if one of the values it is made of is not. -/
theorem image_of_failing_input {c : Call σ} {xs : List ℕ} (hxs : xs ∈ c.applied) {fault : Fault}
    (h : c.op.apply xs = .error fault) : image c.state c.op c.args = .error fault := by
  rw [image_eq, mapM_of_failing_try hxs h]
  rfl

/-- **An invariant that keeps what is drawn and shown in bounds keeps closing in bounds.** -/
theorem Bounded.staysInBounds [LawfulGrowth σ] (hJ : Bounded A J) (hA : A.Constructed) (hs : J s) (mode : Mode)
    (cap mark : ℕ) : StaysInBounds A mode cap mark s := by
  have hcall (c : Call σ) (hc : Computes A mode cap mark s c) :
      c.op ∈ A.operations ∧ J c.state ∧ c.args ∈ drawn c.state c.op 0 (size c.state) := by
    obtain ⟨number, start, t, hstart, hc⟩ := hc
    exact mem_calls hJ.steady (passStart?_keeps hJ.steady hs hstart) (Nat.le_refl _) hc
  refine ⟨?_, ?_, ?_, ?_, ?_⟩
  · intro c hc
    obtain ⟨-, hinv, hargs⟩ := hcall c hc
    exact hJ.items_lt hinv hargs
  · intro c hc xs hxs
    obtain ⟨hop, hinv, hargs⟩ := hcall c hc
    obtain ⟨hlen, hlt⟩ := hJ.inputs_lt hinv hargs xs (mem_of_mem_tried hxs)
    exact ⟨hlen, hlt, fun table hbody => hA.tableIndex_lt hop hbody hlen hlt⟩
  · intro c hc x hx
    obtain ⟨hop, hinv, hargs⟩ := hcall c hc
    exact hJ.components_lt hinv (isImage_of_found hop hargs hx)
  · rintro t x ⟨number, start, t', hstart, hx⟩
    obtain ⟨hinv, himage⟩ :=
      mem_shown hJ.steady (passStart?_keeps hJ.steady hs hstart) (Nat.le_refl _) hx
    have hcomponents := hJ.components_lt hinv himage
    exact ⟨hcomponents, hJ.accesses_lt hinv hcomponents⟩
  · intro c hc xs hxs eval v hbody heval hv
    obtain ⟨hop, -, -⟩ := hcall c hc
    have hrefused := Operation.apply_of_outside hbody heval (hA.universeSize_eq hop ▸ hv)
    have himage := image_of_failing_input hxs hrefused
    refine ⟨hrefused, by rw [Call.found, imageAt, himage], fun o ho => ?_⟩
    obtain ⟨fault, hclose, hsequential, op, hop', args, hraised⟩ :=
      close_of_failing_call hJ.steady hJ.size_le hs hc himage
    rw [ho.eq_close, hclose]
    exact ⟨rfl, fault, rfl, hsequential, kind_of_image_eq_error hop' hraised⟩

end Closure

open Closure

/-! ### The three kinds of closures -/

namespace SubuniverseClosure

variable {A : Algebra} {s : SubuniverseClosure}

instance : TracedGrowth SubuniverseClosure where
  items _ args := args
  inputs s _ args := [s.elementsAt args]
  assemble values := values.head?
  image_eq s op args := by
    change some <$> op.apply (s.elementsAt args) = _
    rw [List.mapM_cons, List.mapM_nil]
    cases op.apply (s.elementsAt args) <;> rfl
  accesses s x := [(x, s.members.dim), (x / 64, s.members.words.size)]

theorem dim_fold (s : SubuniverseClosure) (x : ℕ) : (s.fold x).2.members.dim = s.members.dim := by
  rw [fold]
  split <;> rfl

theorem dim_foldAll (s : SubuniverseClosure) (xs : List ℕ) :
    (s.foldAll xs).members.dim = s.members.dim := by
  induction xs generalizing s with
  | nil => rfl
  | cons x xs ih => exact (ih (s.fold x).2).trans (dim_fold s x)

theorem bounded (hA : A.Constructed) :
    Bounded A fun s : SubuniverseClosure => s.Faithful A.size ∧ s.members.dim = A.size where
  steady := steady fun s x hs hx =>
    ⟨hs.1.fold (lt_of_isImage hA.checked hx), (dim_fold s x).trans hs.2⟩
  size_le _ hs := hs.1.size_le
  items_lt _ _ _ hargs := (mem_drawn.1 hargs).2.1
  inputs_lt := by
    intro s hs op args hargs xs hxs
    obtain ⟨hlen, hlt, -⟩ := mem_drawn.1 hargs
    rw [List.mem_singleton.1 hxs]
    exact ⟨length_entriesAt.trans hlen, fun x hx => hs.1.lt x (mem_of_mem_entriesAt hlt hx)⟩
  components_lt _ _ hx := List.forall_mem_singleton.2 (lt_of_isImage hA.checked hx)
  accesses_lt := by
    intro s hs x hx
    have hlt : x < A.size := hx x List.mem_cons_self
    have hwords : s.members.words.size = BitSet.wordCount A.size := hs.1.fits
    refine List.forall_mem_cons.2 ⟨hs.2 ▸ hlt, List.forall_mem_singleton.2 ?_⟩
    change x / 64 < s.members.words.size
    rw [hwords, BitSet.wordCount]
    omega

end SubuniverseClosure

namespace CongruenceClosure

variable {A : Algebra}

instance : TracedGrowth CongruenceClosure where
  items _ args := args.take 1
  inputs s _ args :=
    match args with
    | index :: position :: others =>
        let p := s.pairs[index]?.getD (0, 0)
        [others.insertIdx position p.1, others.insertIdx position p.2]
    | _ => []
  assemble values :=
    match values with
    | [x, y] => if x = y then none else some (x, y)
    | _ => none
  image_eq s op args := by
    match args with
    | [] => rfl
    | [_] => rfl
    | index :: position :: others =>
        change (pushThrough op position others (s.pairs[index]?.getD (0, 0)) >>= fun p =>
          pure (if p.1 = p.2 then none else some (p.1, p.2))) = _
        dsimp only
        rw [pushThrough, List.mapM_cons, List.mapM_cons, List.mapM_nil]
        cases op.apply (others.insertIdx position (s.pairs[index]?.getD (0, 0)).1) with
        | error fault => rfl
        | ok x => cases op.apply (others.insertIdx position (s.pairs[index]?.getD (0, 0)).2) <;> rfl
  accesses s p :=
    [(p.1, s.partition.reps.size), (p.2, s.partition.reps.size),
      (s.partition.rep p.1, s.partition.reps.size), (s.partition.rep p.2, s.partition.reps.size)]

theorem bounded (hA : A.Constructed) : Bounded A fun s : CongruenceClosure => s.Faithful A.size where
  steady := steady hA.checked
  size_le _ hs := hs.size_le
  items_lt := by
    intro s _ op args hargs i hi
    obtain ⟨index, before, after, rfl, ⟨-, hlt⟩, -⟩ := mem_drawn.1 hargs
    rw [List.mem_singleton.1 hi]
    exact hlt
  inputs_lt := by
    intro s hs op args hargs xs hxs
    obtain ⟨index, before, after, rfl, ⟨-, hlt⟩, hlen, hothers⟩ := mem_drawn.1 hargs
    have hpair : s.pairs[index]?.getD (0, 0) ∈ s.pairs := by
      rw [Array.getElem?_eq_getElem hlt, Option.getD_some]
      exact Array.getElem_mem hlt
    have hput (z : ℕ) (hz : z < A.size) :
        ((before ++ after).insertIdx before.length z).length = op.arity ∧
          ∀ x ∈ (before ++ after).insertIdx before.length z, x < A.size := by
      rw [insertIdx_append]
      refine ⟨by rw [← hlen, List.length_append, List.length_cons]; omega, ?_⟩
      intro x hx
      rcases List.mem_append.1 hx with hx | hx
      · exact hs.size_eq ▸ hothers x (List.mem_append_left after hx)
      · rcases List.mem_cons.1 hx with rfl | hx
        · exact hz
        · exact hs.size_eq ▸ hothers x (List.mem_append_right before hx)
    rcases List.mem_pair.1 hxs with rfl | rfl
    · exact hput _ (hs.lt _ hpair).1
    · exact hput _ (hs.lt _ hpair).2
  components_lt _ _ hp :=
    have hlt := lt_of_isImage hA.checked hp
    List.forall_mem_cons.2 ⟨hlt.1, List.forall_mem_singleton.2 hlt.2⟩
  accesses_lt := by
    intro s hs p hp
    have hsize : s.partition.reps.size = A.size := hs.size_eq
    have h₁ : p.1 < s.partition.size := hs.size_eq ▸ hp p.1 (by simp [Composed.components])
    have h₂ : p.2 < s.partition.size := hs.size_eq ▸ hp p.2 (by simp [Composed.components])
    intro access haccess
    simp only [TracedGrowth.accesses, List.mem_cons, List.not_mem_nil, or_false] at haccess
    rcases haccess with rfl | rfl | rfl | rfl
    · exact h₁
    · exact h₂
    · exact hs.valid.rep_lt h₁
    · exact hs.valid.rep_lt h₂

end CongruenceClosure

namespace SubpowerClosure

variable {τ : Type} {A : Algebra} {k : ℕ}

/-- An operation is applied to the columns one after the other. -/
theorem applyColumns_eq_mapM (op : Operation) (found : List ℕ) (power : ℕ) (rows : List (List ℕ)) :
    applyColumns op found power rows
      = (found.reverse ++ ·) <$> (Tuples.columns power rows).mapM op.apply := by
  induction power generalizing found rows with
  | zero => simp [applyColumns, Tuples.columns, pure_eq]
  | succ power ih =>
      rw [applyColumns, Tuples.columns_succ, List.mapM_cons]
      cases op.apply (rows.map (·.headD 0)) with
      | error fault => rfl
      | ok v =>
          refine (ih (v :: found) (rows.map List.tail)).trans ?_
          rw [ok_bind]
          cases (Tuples.columns power (rows.map List.tail)).mapM op.apply with
          | error fault => rfl
          | ok vs => simp [ok_bind, pure_eq]

instance : TracedGrowth (SubpowerClosure τ) where
  items _ args := args
  inputs s _ args := Tuples.columns s.power (s.tuplesAt args)
  assemble := some
  image_eq s op args := by
    change some <$> applyColumns op [] s.power (s.tuplesAt args) = _
    rw [applyColumns_eq_mapM]
    simp
  accesses _ _ := []

theorem bounded (hA : A.Constructed) (k : ℕ) :
    Bounded A fun s : SubpowerClosure τ => s.Faithful A k where
  steady := steady fun _ _ w hs ht hnew => hs.push (mem_tuples_of_isImage hA.checked hs ht) hnew w
  size_le s hs := by
    rw [hs.capacity_eq]
    exact hs.size_le
  items_lt _ _ _ hargs := (mem_drawn.1 hargs).2.1
  inputs_lt := by
    intro s hs op args hargs xs hxs
    obtain ⟨hlen, hlt, -⟩ := mem_drawn.1 hargs
    obtain ⟨j, hj, rfl⟩ := List.mem_map.1 hxs
    refine ⟨by rw [List.length_map]; exact length_entriesAt.trans hlen, ?_⟩
    intro x hx
    obtain ⟨row, hrow, rfl⟩ := List.mem_map.1 hx
    have hmem := hs.mem_tuples row (mem_of_mem_entriesAt hlt hrow)
    exact Algebra.getD_lt_of_mem_tuples hmem (hs.power_eq ▸ List.mem_range.1 hj)
  components_lt hs _ ht := (mem_tuples_of_isImage hA.checked hs ht).2
  accesses_lt _ _ _ := by simp [TracedGrowth.accesses]

end SubpowerClosure

/-- **Closing stays in bounds**, for each algebra that could be built, whatever its evaluators give or
raise, for each kind of closures with seeds in the universe, and for every cap, settled part and mode,
with any workers.  Operations are applied to elements and read their tables inside; what is found and
shown is made of elements, and is looked up and recorded inside the set or the partition.  When an
evaluator leaves the universe its value is refused, and closing fails before anything else is shown. -/
theorem Closure.stays_in_bounds {A : Algebra} (hA : A.Constructed) (mode : Mode) (cap mark : ℕ) :
    (∀ s : SubuniverseClosure, s.Faithful A.size → s.members.dim = A.size →
      ∀ seeds : List ℕ, (∀ x ∈ seeds, x < A.size) →
        StaysInBounds A mode cap mark (s.foldAll seeds)) ∧
    (∀ s : CongruenceClosure, s.Faithful A.size →
      ∀ seeds : List (ℕ × ℕ), (∀ p ∈ seeds, p.1 < A.size ∧ p.2 < A.size) →
        StaysInBounds A mode cap mark (s.foldAll seeds)) ∧
    ∀ (τ : Type) (k : ℕ) (s : SubpowerClosure τ), s.Faithful A k →
      ∀ seeds : List (List ℕ), (∀ t ∈ seeds, t ∈ A.tuples k) →
        StaysInBounds A mode cap mark (s.insertAll seeds) := by
  refine ⟨?_, ?_, ?_⟩
  · intro s hs hdim seeds hseeds
    exact (SubuniverseClosure.bounded hA).staysInBounds hA
      ⟨(hs.foldAll hseeds).1, (s.dim_foldAll seeds).trans hdim⟩ mode cap mark
  · intro s hs seeds hseeds
    exact (CongruenceClosure.bounded hA).staysInBounds hA (hs.foldAll hseeds) mode cap mark
  · intro τ k s hs seeds hseeds
    exact (SubpowerClosure.bounded hA k).staysInBounds hA (hs.insertAll hseeds).1 mode cap mark

/-- Two elements with an operation that has too many arguments for a table and leaves the universe unless
the first of them is zero. -/
def Algebra.leavingBits : Algebra :=
  ⟨"wide", 2, [⟨"wide", 23, 2, .evaluator (Rule.switch 0 0 0 1000).eval⟩], []⟩

theorem Algebra.constructed_leavingBits : leavingBits.Constructed := by
  refine ⟨"wide", 2, leavingBits.operations, ?_, ?_⟩
  · have hmade : Operation.ofEvaluator "wide" 23 2 (some (Rule.switch 0 0 0 1000).eval)
        = .ok ⟨"wide", 23, 2, .evaluator (Rule.switch 0 0 0 1000).eval⟩ := by rfl
    exact List.forall_mem_singleton.2 (.ofEvaluator hmade)
  · have hsize : Operation.tableSize 2 23 = .ok 8388608 := by rfl
    have hlarge : ¬8388608 ≤ tabulationLimit := by simp [tabulationLimit]
    simp [build, prepareAll, prepare, leavingBits, Operation.hasTable, hsize, hlarge, ok_bind, pure_eq,
      sortedDistinct, dropRepeats, dropRepeatsAfter]

/-- Applied to ones only, the operation gives a thousand.  In both modes this is refused as invalid input,
and one stays the only element. -/
theorem Closure.stays_in_bounds_leavingBits :
    (∀ o, ComesTo Algebra.leavingBits .sequential 0 0 ((SubuniverseClosure.start 2).foldAll [1]) o →
      o.status = .error (.returnedOutside "wide" 1000) ∧ o.state.elements = #[1]) ∧
    ∀ o, ComesTo Algebra.leavingBits .parallel 0 0 ((SubuniverseClosure.start 2).foldAll [1]) o →
      (∃ fault, o.status = .error fault ∧ fault.kind = .invalidInput) ∧ o.state.elements = #[1] := by
  have hfaithful := SubuniverseClosure.faithful_start 2
  have hbounds (mode : Mode) := (Closure.stays_in_bounds Algebra.constructed_leavingBits mode 0 0).1 _
    hfaithful rfl [1] (by decide)
  -- the first call of the first pass
  have hcall (mode : Mode) : Computes Algebra.leavingBits mode 0 0
      ((SubuniverseClosure.start 2).foldAll [1]) ⟨(SubuniverseClosure.start 2).foldAll [1],
        ⟨"wide", 23, 2, .evaluator (Rule.switch 0 0 0 1000).eval⟩, List.replicate 23 0⟩ := by
    refine ⟨0, 0, _, rfl, ?_⟩
    cases mode with
    | sequential => exact List.mem_cons_self
    | parallel => exact List.mem_cons_self
  have houtside (mode : Mode) := (hbounds mode).outside _ (hcall mode) (List.replicate 23 1)
    List.mem_cons_self _ 1000 rfl rfl (by decide)
  refine ⟨?_, ?_⟩
  · intro o ho
    obtain ⟨-, -, hends⟩ := houtside .sequential
    obtain ⟨hstate, fault, hfault, hsequential, -⟩ := hends o ho
    exact ⟨hsequential rfl ▸ hfault, hstate ▸ rfl⟩
  · intro o ho
    obtain ⟨-, -, hends⟩ := houtside .parallel
    obtain ⟨hstate, fault, hfault, -, hkind | ⟨op, hop, eval, args, hbody, heval⟩⟩ := hends o ho
    · exact ⟨⟨fault, hfault, hkind⟩, hstate ▸ rfl⟩
    · -- the rule of the operation does not fail
      cases List.mem_singleton.1 hop
      cases hbody
      cases heval

end UniversalAlgebra
