import Wire.Proofs.Discipline.Grammar

/-!
# Confinement

Every run of a grammar ends inside the cursor that it starts from, be it with a value or with a
failure, and is abandoned only for a fault that lies in the grammar (`Grammar.run_confined`). The
limit after a value is the one before it, unless the grammar lowers it on purpose; a window of a
fixed size takes even that back.
-/

namespace Wire

/-- A permit for all that does not lead to a fault: there are no references, and bounds are the right
way round, whatever the data is. -/
def Permit.faultless : Permit where
  fault _ := False

/-- A permit fits confinement when its faults are allowed, and the limit need not be kept if it
permits `narrow`. -/
theorem Discipline.confined_fits {permit : Permit} {keepsLimit : Prop} {mayFault : Fault → Prop}
    (hnarrow : permit.narrow → ¬ keepsLimit)
    (hfault : ∀ reason, permit.fault reason → mayFault reason) :
    permit.Fits (confined keepsLimit mayFault) :=
  ⟨confined_lawful _ _, hnarrow, fun _ _ _ _ _ _ _ => trivial, hfault⟩

namespace Grammar

variable {defs : Definitions} {g : Grammar}

/-- Every grammar is confined. -/
theorem run_obeys_confined (defs : Definitions) (g : Grammar) :
    (g.run defs).Obeys (.confined False) :=
  run_obeys (Discipline.confined_fits (fun _ => id) fun _ => id) (g.restricted_default defs)

/-- A grammar without `narrow` keeps the limit. -/
theorem run_obeys_confined_of_restricted (hg : g.Restricted defs { narrow := False }) :
    (g.run defs).Obeys (.confined True) :=
  run_obeys (Discipline.confined_fits nofun fun _ => id) hg

/-- A window keeps the limit even of a grammar that does not. -/
theorem within_run_obeys (defs : Definitions) (g : Grammar) (size : Nat) :
    ((Grammar.within size g).run defs).Obeys (.confined True) := by
  obtain ⟨refs, hg, hdefs⟩ := g.restricted_default defs
  have hfit : Permit.Fits {} (.confined False) :=
    Discipline.confined_fits (fun _ => id) fun _ => id
  intro c hc
  have hparser := g.parser_obeys hfit
    (fun name => Definitions.parser_obeys hfit hdefs (defs.depth c) name) hg
  have hwithin := hparser.within (Discipline.confined_lawful True Fault.OfGrammar)
    (fun _ _ => id) (fun _ => id) size
  unfold run checked
  cases hfault : (Grammar.within size g).fault? with
  | some reason => exact fault_of_permitted (g := .within size g) hg hfault
  | none => exact hwithin c hc

/-- A grammar is abandoned only for a fault in it. -/
theorem fault_of_run {c : Cursor} (hc : c.Valid) {reason : Fault}
    (h : g.run defs c = .fault reason) : reason.OfGrammar ∧ ¬ g.Restricted defs .faultless := by
  constructor
  · have hrun := run_obeys_confined defs g c hc
    rw [h] at hrun
    exact hrun
  · intro hg
    have hfit : Permit.faultless.Fits (.confined False fun _ => False) :=
      Discipline.confined_fits (fun _ => id) fun _ => id
    have hrun := run_obeys hfit hg c hc
    rw [h] at hrun
    exact hrun

/-- A value leaves a cursor inside the start, under the same limit if the grammar does without
`narrow` or is a window; a failure points inside the start; and a run ends with one or the other
unless there is a fault in the grammar. -/
theorem run_confined (defs : Definitions) (g : Grammar) {c : Cursor} (hc : c.Valid) :
    (∀ v rest, g.run defs c = .success v rest → rest.Inside c) ∧
      (g.Restricted defs { narrow := False } →
        ∀ v rest, g.run defs c = .success v rest → rest.limit = c.limit) ∧
      (∀ size v rest, (Grammar.within size g).run defs c = .success v rest →
        rest.limit = c.limit) ∧
      (∀ cause, g.run defs c = .failure cause → cause.remainder.Inside c) ∧
      ∀ reason, g.run defs c = .fault reason →
        reason.OfGrammar ∧ ¬ g.Restricted defs .faultless := by
  have hrun := run_obeys_confined defs g c hc
  refine ⟨fun v rest h => ?_, fun hg v rest h => ?_, fun size v rest h => ?_, fun cause h => ?_,
    fun reason => fault_of_run hc⟩
  · rw [h] at hrun
    exact hrun.inside
  · have hkeep := run_obeys_confined_of_restricted hg c hc
    rw [h] at hkeep
    exact hkeep.limit trivial
  · have hkeep := within_run_obeys defs g size c hc
    rw [h] at hkeep
    exact hkeep.limit trivial
  · rw [h] at hrun
    exact hrun.1

/-- A grammar that lowers the limit stays inside its start, and in a window it keeps the limit. -/
theorem run_confined_narrow :
    let g := Grammar.both (.narrow 2) .byte
    let c : Cursor := ⟨.of #[1, 2, 3], 0, 3⟩
    c.Valid ∧ g.run [] c = .success (.pair .null (.int 1)) ⟨.of #[1, 2, 3], 1, 2⟩ ∧
      (∀ v rest, g.run [] c = .success v rest → rest.Inside c) ∧
      ∀ size v rest, (Grammar.within size g).run [] c = .success v rest →
        rest.limit = c.limit := by
  intro g c
  have hc : c.Valid := by decide
  obtain ⟨hinside, -, hwindow, -⟩ := run_confined [] g hc
  exact ⟨hc, rfl, hinside, hwindow⟩

end Grammar

end Wire
