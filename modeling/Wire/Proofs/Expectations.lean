import Mathlib.Data.List.Nodup
import Wire.Failure.Edit
import Wire.Proofs.Discipline.Grammar

/-!
# Expectations

An expectation is looked up before it is added, so no failure lists one twice, however it came
about. Failures come from two sources. A run of a grammar makes them from scratch, adds to them and
picks between those of two alternatives; that these keep the expectations distinct is a discipline,
so it holds of all runs (`Grammar.nodup_of_run`). And a failure may be changed after it was made
(`Failure.Edit`). What a change leaves of the expectations, and where, is said in full by
`Failure.mem_edit_iff` and `Failure.position_edit`, and from the single change it goes on to a whole
history of them (`Failure.expectations_distinct`).
-/

namespace Wire

namespace Failure

variable {f g : Failure} {e : Edit} {edits : List Edit} {x : String}

/-! ## Adding and picking -/

/-- An expectation is added only if it is not there. -/
theorem nodup_expecting (hf : f.expectations.Nodup) (expectation : String) :
    (f.expecting expectation).expectations.Nodup := by
  unfold expecting
  split
  · exact hf
  · next hnew => exact hf.append (List.nodup_singleton _) (List.disjoint_singleton.2 hnew)

/-- The same is true of several expectations. -/
theorem nodup_expectingAll (hf : f.expectations.Nodup) (expectations : List String) :
    (f.expectingAll expectations).expectations.Nodup := by
  induction expectations generalizing f with
  | nil => exact hf
  | cons expectation expectations ih => exact ih (nodup_expecting hf expectation)

/-- Of two failures without repeated expectations, the one that is kept or merged has none. -/
theorem nodup_furthest (hf : f.expectations.Nodup) (hg : g.expectations.Nodup) :
    (f.furthest g).expectations.Nodup := by
  unfold furthest
  split
  · exact hg
  · split
    · exact nodup_expectingAll hf _
    · exact hf

/-- The expectations after one more are the old ones and the new one. -/
theorem mem_expecting {expectation : String} :
    x ∈ (f.expecting expectation).expectations ↔ x ∈ f.expectations ∨ x = expectation :=
  mem_expectingAll.trans (or_congr_right List.mem_singleton)

/-- Of two failures the one that is behind loses its expectations, and otherwise both keep them. -/
theorem mem_furthest :
    x ∈ (f.furthest g).expectations ↔
      (x ∈ f.expectations ∧ g.position ≤ f.position) ∨
        (x ∈ g.expectations ∧ f.position ≤ g.position) := by
  rcases Nat.lt_trichotomy f.position g.position with hlt | heq | hgt
  · simp [furthest_of_lt hlt, Nat.le_of_lt hlt, Nat.not_le.2 hlt]
  · simp [furthest_of_eq heq.symm, mem_expectingAll, heq]
  · simp [furthest_of_gt hgt, Nat.le_of_lt hgt, Nat.not_le.2 hgt]

/-! ## Changes -/

/-- The failure that a change merges with, if there is one. -/
def Edit.other? : Edit → Option Failure
  | .furthest other | .furthestOf other => some other
  | .expecting _ | .expectingAll _ | .withKind _ => none

/-- The expectations that a change brings. -/
def Edit.expectations : Edit → List String
  | .expecting expectation => [expectation]
  | .expectingAll expectations => expectations
  | .withKind _ => []
  | .furthest other | .furthestOf other => other.expectations

/-- A failure that was made without expectations and then changed step by step, where each failure
that it was merged with came about in the same way. -/
inductive Built : Failure → Prop
  | new (kind : FailureKind) (message : String) (remainder : Cursor) :
    Built ⟨kind, message, [], remainder⟩
  | edit {f : Failure} {e : Edit} :
    Built f → (∀ g, e.other? = some g → Built g) → Built (f.edit e)

/-- An edit keeps expectations distinct. -/
theorem nodup_edit (hf : f.expectations.Nodup)
    (hother : ∀ g, e.other? = some g → g.expectations.Nodup) :
    (f.edit e).expectations.Nodup := by
  cases e with
  | expecting expectation => exact nodup_expecting hf expectation
  | expectingAll expectations => exact nodup_expectingAll hf expectations
  | withKind kind => exact hf
  | furthest other => exact nodup_furthest hf (hother other rfl)
  | furthestOf other => exact nodup_furthest (hother other rfl) hf

/-- However a failure was built, its expectations are distinct. -/
theorem Built.nodup (hf : f.Built) : f.expectations.Nodup := by
  induction hf with
  | new => exact List.nodup_nil
  | edit _ _ ih ihOther => exact nodup_edit ih ihOther

/-- What is expected after a change was expected before it, unless another failure got further, or
comes with the change, unless it is that of a failure that got less far. -/
theorem mem_edit_iff :
    x ∈ (f.edit e).expectations ↔
      (x ∈ f.expectations ∧ ∀ g, e.other? = some g → g.position ≤ f.position) ∨
        (x ∈ e.expectations ∧ ∀ g, e.other? = some g → f.position ≤ g.position) := by
  cases e with
  | expecting expectation => simp [edit, mem_expecting, Edit.other?, Edit.expectations]
  | expectingAll expectations => simp [edit, mem_expectingAll, Edit.other?, Edit.expectations]
  | withKind kind => simp [edit, withKind, Edit.other?, Edit.expectations]
  | furthest other => simp [edit, mem_furthest, Edit.other?, Edit.expectations]
  | furthestOf other => simp [edit, mem_furthest, Edit.other?, Edit.expectations, or_comm]

/-- A change leaves a failure where it was, or where the failure is that it is merged with if that
got further. -/
theorem position_edit : (f.edit e).position = max f.position (e.other?.elim 0 position) := by
  cases e with
  | expecting expectation => simp [edit, Edit.other?, position]
  | expectingAll expectations => simp [edit, Edit.other?]
  | withKind kind => simp [edit, withKind, Edit.other?, position]
  | furthest other => exact position_furthest f other
  | furthestOf other => exact (position_furthest other f).trans (max_comm _ _)

/-! ## Histories -/

/-- Edits of a failure that was built, with failures that were built, build a failure. -/
theorem Built.editAll (hf : f.Built)
    (hedits : ∀ e ∈ edits, ∀ g, e.other? = some g → g.Built) : (f.editAll edits).Built := by
  induction edits generalizing f with
  | nil => exact hf
  | cons e edits ih =>
    obtain ⟨he, hlater⟩ := List.forall_mem_cons.1 hedits
    exact ih (hf.edit he) hlater

/-- An expectation after some changes was there before them or came with one of them. -/
theorem mem_editAll (h : x ∈ (f.editAll edits).expectations) :
    x ∈ f.expectations ∨ ∃ e ∈ edits, x ∈ e.expectations := by
  induction edits generalizing f with
  | nil => exact .inl h
  | cons e edits ih =>
    rcases ih h with hx | ⟨e', he', hx⟩
    · exact (mem_edit_iff.1 hx).imp And.left fun hx => ⟨e, .head _, hx.1⟩
    · exact .inr ⟨e', .tail _ he', hx⟩

/-- A history holds the failure after each number of changes. -/
theorem getElem?_history : ∀ {edits : List Edit} {n : Nat} {f : Failure},
    (f.history edits)[n]? = if n ≤ edits.length then some (f.editAll (edits.take n)) else none
  | [], 0, _ => rfl
  | [], _ + 1, _ => rfl
  | _ :: _, 0, _ => rfl
  | e :: edits, n + 1, f => by
    rw [history, List.getElem?_cons_succ, getElem?_history, List.length_cons, List.take_succ_cons]
    simp only [Nat.add_le_add_iff_right]
    rfl

end Failure

/-! ## Runs -/

/-- A failure that lists at most one expectation does not list it twice. -/
theorem Failure.Refuses.nodup {f : Failure} {c : Cursor} (h : f.Refuses c) :
    f.expectations.Nodup := by
  have hlength := h.expectations
  match hexpected : f.expectations with
  | [] => exact List.nodup_nil
  | [expectation] => exact List.nodup_singleton expectation
  | _ :: _ :: _ =>
    rw [hexpected] at hlength
    simp at hlength

/-- The discipline of failing with distinct expectations. -/
def Discipline.distinct : Discipline where
  keepsLimit := False
  mayFault := Fault.OfGrammar
  mayFail _ f := f.expectations.Nodup

/-- To have distinct expectations is a lawful discipline. -/
theorem Discipline.distinct_lawful : distinct.Lawful where
  later _ h := h
  endOfInput _ _ := List.nodup_nil
  unexpectedByte _ _ := List.nodup_nil
  refusal _ h := h.nodup
  expecting expectation h := Failure.nodup_expecting h expectation
  relabel _ _ _ h := by
    unfold Parser.relabel
    split <;> exact h
  furthest := Failure.nodup_furthest

/-- Every grammar may be run, also one that makes failures of its own: it adds their expectations
one by one. -/
theorem Permit.default_fits_distinct : Permit.Fits {} .distinct where
  lawful := Discipline.distinct_lawful
  narrow _ := id
  fail _ _ _ _ expectations _ _ := Failure.nodup_expectingAll List.nodup_nil expectations
  fault _ := id

/-- The expectations of a failure of a run are distinct. -/
theorem Grammar.nodup_of_run {defs : Definitions} {g : Grammar} {c : Cursor} {f : Failure}
    (hc : c.Valid) (h : g.run defs c = .failure f) : f.expectations.Nodup := by
  have hrun := run_obeys Permit.default_fits_distinct (g.restricted_default defs) c hc
  rw [h] at hrun
  exact hrun.2

namespace Failure

/-- The expectations of a failing run are distinct. So are those of a failure that was made without
any, after each of some changes, where the failures that it is merged with came about in the same
way; and after so many changes each of them was there at the start or came with one of these
changes. What a single change leaves is known in full: of two failures that are merged, the
expectations of the one that got further, or of both, and the greater one of the two places. -/
theorem expectations_distinct :
    (∀ (defs : Definitions) (g : Grammar) (c : Cursor) (f : Failure), c.Valid →
      g.run defs c = .failure f → f.expectations.Nodup) ∧
    (∀ (f : Failure) (edits : List Edit), f.Built →
      (∀ e ∈ edits, ∀ g, e.other? = some g → g.Built) →
      ∀ n later, (f.history edits)[n]? = some later → later.expectations.Nodup ∧
        ∀ x ∈ later.expectations,
          x ∈ f.expectations ∨ ∃ e ∈ edits.take n, x ∈ e.expectations) ∧
    ∀ (f : Failure) (e : Edit),
      (∀ x, x ∈ (f.edit e).expectations ↔
        (x ∈ f.expectations ∧ ∀ g, e.other? = some g → g.position ≤ f.position) ∨
          (x ∈ e.expectations ∧ ∀ g, e.other? = some g → f.position ≤ g.position)) ∧
      ∀ g, e.other? = some g → (f.edit e).position = max f.position g.position := by
  refine ⟨fun defs g c f => Grammar.nodup_of_run, fun f edits hf hedits n later hn => ?_,
    fun f e => ⟨fun x => mem_edit_iff, fun g hg => ?_⟩⟩
  · rw [getElem?_history] at hn
    split at hn <;> cases hn
    have hbuilt : (f.editAll (edits.take n)).Built :=
      hf.editAll fun e he => hedits e (List.mem_of_mem_take he)
    exact ⟨hbuilt.nodup, fun x => mem_editAll⟩
  · rw [position_edit, hg]
    rfl

/-- Three alternatives of which the outer two expect the same byte, and a failure that is merged
with one at the same place and then with one further on: what two of them expect is listed once, and
what was expected before the further one is not listed any more. -/
theorem expectations_distinct_merged :
    let c : Cursor := ⟨.of #[9, 8], 0, 2⟩
    let g := Grammar.orElse (.exactly 1) (.orElse (.exactly 2) (.exactly 1))
    let f : Failure := ⟨.unexpectedByte, "unexpected '09'", ["01", "02"], c⟩
    let start : Failure := ⟨.validationFailed, "not valid", [], c⟩
    let level : Failure := ⟨.endOfInput, "first", ["b", "a"], c⟩
    let further : Failure := ⟨.endOfInput, "second", [], c.next⟩
    let edits := [Edit.expecting "a", .furthestOf level, .furthest further]
    c.Valid ∧ g.run [] c = .failure f ∧ f.expectations.Nodup ∧
      start.Built ∧ (∀ e ∈ edits, ∀ other, e.other? = some other → other.Built) ∧
      (start.history edits)[2]? = some level ∧ level.expectations.Nodup ∧
      (start.history edits)[3]? = some further ∧
      (level.edit (.furthest further)).position = max 0 1 := by
  intro c g f start level further edits
  have hc : c.Valid := by decide
  have hrun : g.run [] c = .failure f := by with_unfolding_all rfl
  have hstart : start.Built := .new _ _ _
  have hlevel : level.Built :=
    .edit (e := .expectingAll ["b", "a", "b"]) (.new .endOfInput "first" c) nofun
  have hedits : ∀ e ∈ edits, ∀ other, e.other? = some other → other.Built := by
    refine List.forall_mem_cons.2 ⟨nofun, List.forall_mem_cons.2 ⟨?_, List.forall_mem_cons.2
      ⟨?_, nofun⟩⟩⟩
    · rintro _ ⟨⟩
      exact hlevel
    · rintro _ ⟨⟩
      exact .new _ _ _
  have hsecond : (start.history edits)[2]? = some level := by decide
  obtain ⟨hruns, hhistories, hchanges⟩ := expectations_distinct
  exact ⟨hc, hrun, hruns [] g c f hc hrun, hstart, hedits, hsecond,
    (hhistories start edits hstart hedits 2 level hsecond).1, by decide,
    (hchanges level (.furthest further)).2 further rfl⟩

end Failure

end Wire
