import Wire.Parser.Choice
import Wire.Proofs.Trail.Many

/-!
# Final failures

`manyCommit` is `many`, and then one more application whose failure is final when it points behind
the place where `many` stopped. Where `many` stops, its parser does not move on
(`Parser.stops_of_many`): it fails, or it succeeds at its place. So there is nothing left for the
further application but to fail for good, and `manyCommit` is `many` and then a choice between one
more application and the values (`Parser.manyCommit_eq_choice`).
-/

namespace Wire.Parser

variable {α : Type} {p : Parser α} {c d : Cursor}

/-- Where the loop stops, the parser fails or stays at its place. -/
theorem stops_of_collect {found vs : Array α} (h : collect p found c = .success vs d) :
    (∃ f, p d = .failure f) ∨ ∃ v e, p d = .success v e ∧ e.samePlace d = true := by
  fun_induction collect p found c with
  | case1 found c v next hpc hplace =>
    cases h
    exact .inr ⟨v, next, hpc, hplace⟩
  | case2 found c v next hpc _ _ ih => exact ih h
  | case3 => cases h
  | case4 found c f hpc =>
    cases h
    exact .inl ⟨f, hpc⟩
  | case5 => cases h

/-- Where `many` stops, its parser fails or stays at its place. -/
theorem stops_of_many {vs : List α} (h : many p c = .success vs d) :
    (∃ f, p d = .failure f) ∨ ∃ v e, p d = .success v e ∧ e.samePlace d = true := by
  unfold many at h
  cases hcollect : collect p #[] c with
  | success found e =>
    rw [hcollect] at h
    cases h
    exact stops_of_collect hcollect
  | failure f =>
    rw [hcollect] at h
    cases h
  | fault reason =>
    rw [hcollect] at h
    cases h

/-! ## One more application -/

/-- To replace the value is to change it to a constant. -/
theorem replace_eq {β : Type} (p : Parser α) (value : β) (d : Cursor) :
    replace p value d = (p d).map fun _ => value :=
  rfl

/-- A choice between a parser and a constant, when the parser fails: the failure is final if it
points to another place. -/
theorem orCommit_pure_of_failure {f : Failure} {value : α} {q : Parser α}
    (hq : q d = .failure f) :
    orCommit q (pure value) d =
      if f.remainder.samePlace d then .success value d else .failure f := by
  unfold orCommit choose
  rw [hq]
  by_cases hplace : f.remainder.samePlace d = true
  · simp [Commitment.holds, hplace, pure]
  · simp [Commitment.holds, hplace]

/-- A choice between a parser that stays at its place and a constant is the constant. -/
theorem orCommit_pure_of_stays {v value : α} {e : Cursor} {q : Parser α}
    (hq : q d = .success v e) (hplace : e.samePlace d = true) :
    orCommit q (pure value) d = .success value d := by
  unfold orCommit choose
  rw [hq]
  exact if_pos hplace

/-- What `manyCommit` gives is decided where `many` stops. -/
theorem manyCommit_of_failure {vs : List α} {f : Failure} (hmany : many p c = .success vs d)
    (hf : p d = .failure f) :
    manyCommit p c = if f.remainder.samePlace d then .success vs d else .failure f := by
  unfold manyCommit
  rw [hmany, Outcome.bind, hf]

/-- A success at which `many` stops is no failure to look at. -/
theorem manyCommit_of_success {vs : List α} {v : α} {e : Cursor}
    (hmany : many p c = .success vs d) (hv : p d = .success v e) :
    manyCommit p c = .success vs d := by
  unfold manyCommit
  rw [hmany, Outcome.bind, hv]

/-- `manyCommit` succeeds only as `many` does. -/
theorem many_of_manyCommit {vs : List α} (h : manyCommit p c = .success vs d) :
    many p c = .success vs d := by
  cases hmany : many p c with
  | success ws e =>
    rcases stops_of_many hmany with ⟨f, hf⟩ | ⟨v, r, hv, -⟩
    · rw [manyCommit_of_failure hmany hf] at h
      split at h
      · exact h
      · cases h
    · rwa [manyCommit_of_success hmany hv] at h
  | failure f =>
    rw [manyCommit, hmany] at h
    cases h
  | fault reason =>
    rw [manyCommit, hmany] at h
    cases h

/-- `manyCommit` is `many` and then a choice between one more application and the values, at which a
failure behind the start is final. From every valid cursor on, a conforming parser can be applied
along one chain, and `manyCommit` gives what `many` gives for it, unless the parser fails at its end
and points to another place: that failure is then the outcome as it is. -/
theorem manyCommit_eq_choice (p : Parser α) :
    (manyCommit p = do
      let items ← many p
      orCommit (replace p items) (pure items)) ∧
    (p.Conforming → ∀ c : Cursor, c.Valid → ∃ as d, p.Chain c as d ∧
      ((∃ reason, p d = .fault reason ∧ many p c = .fault reason ∧
          manyCommit p c = .fault reason) ∨
        many p c = .success (as.map Application.value) d ∧
        (∀ f, p d = .failure f → f.remainder.samePlace d = false → manyCommit p c = .failure f) ∧
        ((∀ f, p d = .failure f → f.remainder.samePlace d = true) →
          manyCommit p c = many p c))) := by
  constructor
  · funext c
    change manyCommit p c =
      (many p c).bind fun items e => orCommit (replace p items) (pure items) e
    cases hmany : many p c with
    | success vs d =>
      rcases stops_of_many hmany with ⟨f, hf⟩ | ⟨v, e, hv, hplace⟩
      · have hmore : replace p vs d = .failure f := by
          rw [replace_eq, hf]
          rfl
        rw [manyCommit_of_failure hmany hf, Outcome.bind, orCommit_pure_of_failure hmore]
      · have hmore : replace p vs d = .success vs e := by
          rw [replace_eq, hv]
          rfl
        rw [manyCommit_of_success hmany hv, Outcome.bind, orCommit_pure_of_stays hmore hplace]
    | failure f => rw [manyCommit, hmany, Outcome.bind, Outcome.bind]
    | fault reason => rw [manyCommit, hmany, Outcome.bind, Outcome.bind]
  · intro hp c hc
    obtain ⟨as, d, hchain, -⟩ := exists_chain hp #[] c hc
    have hmany := many_of_chain hp hc hchain
    refine ⟨as, d, hchain, ?_⟩
    cases hpd : p d with
    | success v e =>
      rw [hpd] at hmany
      refine .inr ⟨hmany, ?_, ?_⟩
      · intro f hf
        cases hf
      · intro _
        rw [manyCommit_of_success hmany hpd, hmany]
        rfl
    | failure f =>
      rw [hpd] at hmany
      refine .inr ⟨hmany, ?_, ?_⟩
      · rintro _ ⟨⟩ hmoved
        rw [manyCommit_of_failure hmany hpd, if_neg (Bool.eq_false_iff.1 hmoved)]
      · intro hstays
        rw [manyCommit_of_failure hmany hpd, hmany, if_pos (hstays f rfl)]
        rfl
    | fault reason =>
      rw [hpd] at hmany
      refine .inl ⟨reason, rfl, hmany, ?_⟩
      rw [manyCommit, hmany]
      rfl

/-- Two bytes that stand there once, and then the first of them with another behind it: `many` stops
in between, and what is left is a failure behind that place. -/
theorem manyCommit_eq_choice_sequence :
    let p := sequence [1, 2]
    let c : Cursor := ⟨.of #[1, 2, 1, 3], 0, 4⟩
    p.Conforming ∧ c.Valid ∧ many p c = .success [[1, 2]] (c.advance 2) ∧
      manyCommit p c =
        .failure ⟨.unexpectedByte, "unexpected '03'", ["02"], c.advance 3⟩ := by
  intro p c
  have hr := Discipline.confined_lawful True fun _ => True
  have hp : p.Conforming := (obeys_sequence hr [1, 2]).conforming
  have hc : c.Valid := by decide
  have hlast : p (c.advance 2) =
      .failure ⟨.unexpectedByte, "unexpected '03'", ["02"], c.advance 3⟩ := by decide
  have hall : p.Chain c [⟨[1, 2], c, c.advance 2⟩] (c.advance 2) :=
    .cons rfl (by decide) (.nil fun v e hv => by
      rw [hlast] at hv
      cases hv)
  obtain ⟨as, d, hchain, hrun⟩ := (manyCommit_eq_choice p).2 hp c hc
  obtain ⟨rfl, rfl⟩ := hchain.unique hall
  rcases hrun with ⟨reason, hfault, -⟩ | ⟨hmany, hfinal, -⟩
  · rw [hlast] at hfault
    cases hfault
  · exact ⟨hp, hc, hmany, hfinal _ hlast (by decide)⟩

end Wire.Parser
