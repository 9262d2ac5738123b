import Wire.Proofs.Trail

/-!
# Bounded repetitions

`repeated` follows the trail of its parser up to the greatest number of applications, and no further
than to where the parser does not succeed. Along the trail the loop only takes over what it finds
(`Parser.repeatedFrom_of_trail`), so all depends on the end: after enough applications it succeeds
there, with the values of those that moved on, and after too few it fails at its start, with what
the last failure says about another place (`Parser.repeated_counts`).
-/

namespace Wire

variable {α β : Type}

/-- What is at a cursor, in words: its byte, or that there is none before the limit. -/
def Cursor.sight (c : Cursor) : String :=
  match c.unread with
  | [] => "end of input"
  | b :: _ => Hex.byte .upper b

namespace Parser

open Application (movedValues movedValues_cons)

variable {p : Parser α} {c d start : Cursor} {as : List (Application α)} {bounds : Bounds}
  {f : Failure} {reason : Fault}

/-- A repetition that ends too early tells what is where its parser failed. -/
theorem countUnmet_eq (bounds : Bounds) (count : Nat) (start : Cursor) (hf : f.remainder.Valid) :
    (countUnmet bounds count f start : Outcome α) =
      .failure ⟨.boundedCountUnmet, "Unexpected '" ++ f.remainder.sight ++ "'",
        ["'" ++ ", ".intercalate f.expectations ++
          s!"' between {bounds.min} and {bounds.max} times, but found {count}"], start⟩ := by
  rw [countUnmet, current_eq hf, Cursor.sight]
  cases f.remainder.unread <;> rfl

/-- A repetition that ends too early does not succeed. -/
theorem countUnmet_ne_success (bounds : Bounds) (count : Nat) (f : Failure) (start : Cursor)
    (v : α) (d : Cursor) : countUnmet bounds count f start ≠ .success v d := by
  unfold countUnmet
  cases current f.remainder <;> nofun

/-- The way in which a repetition ends too early does not depend on the values. -/
theorem map_countUnmet (g : α → β) (bounds : Bounds) (count : Nat) (f : Failure) (start : Cursor) :
    (countUnmet bounds count f start).map g = countUnmet bounds count f start := by
  unfold countUnmet
  cases current f.remainder <;> rfl

/-! ## Along a trail -/

/-- The loop takes over the values of a trail that is not too long for it. -/
theorem repeatedFrom_of_trail (h : p.Trail c as d) (left : Nat) (found : Array α)
    (hlength : as.length ≤ left) :
    repeatedFrom p bounds start left found c =
      repeatedFrom p bounds start (left - as.length) (found ++ (movedValues as).toArray) d := by
  induction h generalizing left found with
  | nil => simp [movedValues]
  | @cons c d e v as hv _ ih =>
    obtain ⟨left, rfl⟩ : ∃ n, left = n + 1 :=
      Nat.exists_eq_succ_of_ne_zero (Nat.ne_zero_of_lt hlength)
    have hfound : (if d.samePlace c then found else found.push v) ++ (movedValues as).toArray =
        found ++ (movedValues (⟨v, c, d⟩ :: as)).toArray := by
      rw [movedValues_cons, Application.moved]
      cases d.samePlace c <;> simp
    rw [repeatedFrom, hv, List.length_cons, Nat.add_sub_add_right, ← hfound]
    exact ih left _ (Nat.le_of_succ_le_succ hlength)

/-- A bounded repetition takes over the values of a trail that is not too long for it. -/
theorem repeated_of_trail (h : p.Trail c as d) (hlength : as.length ≤ bounds.max) :
    repeated p bounds c =
      (repeatedFrom p bounds c (bounds.max - as.length) (movedValues as).toArray d).map
        Array.toList := by
  rw [repeated, repeatedFrom_of_trail h bounds.max #[] hlength, Array.empty_append]

/-- After the greatest number of applications, the parser is not applied once more. -/
theorem repeated_of_full (h : p.Trail c as d) (hlength : as.length = bounds.max) :
    repeated p bounds c = .success (movedValues as) d := by
  rw [repeated_of_trail h hlength.le, hlength, Nat.sub_self]
  rfl

section
variable (h : p.Trail c as d) (hlength : as.length < bounds.max)
include h hlength

/-- After fewer applications than the greatest number, there is at least one left. -/
theorem repeated_of_fewer : ∃ left, bounds.max - (left + 1) = as.length ∧
    repeated p bounds c =
      (repeatedFrom p bounds c (left + 1) (movedValues as).toArray d).map Array.toList := by
  obtain ⟨left, hleft⟩ : ∃ n, bounds.max - as.length = n + 1 :=
    Nat.exists_eq_succ_of_ne_zero (Nat.sub_ne_zero_of_lt hlength)
  exact ⟨left, by omega, by rw [repeated_of_trail h hlength.le, hleft]⟩

/-- A failure of the parser ends the repetition, and whether that is too early is told by the number
of applications. -/
theorem repeated_of_failure (hf : p d = .failure f) :
    repeated p bounds c =
      if as.length < bounds.min then countUnmet bounds as.length f c
      else .success (movedValues as) d := by
  obtain ⟨left, hcount, hrun⟩ := repeated_of_fewer h hlength
  rw [hrun, repeatedFrom, hf]
  dsimp only
  rw [hcount]
  split
  · exact map_countUnmet _ _ _ _ _
  · rfl

/-- A bounded repetition is abandoned where the parser is. -/
theorem repeated_of_fault (hd : p d = .fault reason) : repeated p bounds c = .fault reason := by
  obtain ⟨left, -, hrun⟩ := repeated_of_fewer h hlength
  rw [hrun, repeatedFrom, hd]
  rfl

end

/-- What a repetition gives are the values of a trail that is neither too short nor too long. -/
theorem trail_of_repeated {vs : List α} (h : repeated p bounds c = .success vs d) :
    ∃ as, p.Trail c as d ∧ vs = movedValues as ∧ bounds.min ≤ as.length ∧
      as.length ≤ bounds.max := by
  obtain ⟨as, e, htrail, hlength | ⟨hlength, hends⟩⟩ := exists_trail p bounds.max c
  · rw [repeated_of_full htrail hlength] at h
    cases h
    exact ⟨as, htrail, rfl, hlength ▸ bounds.min_le_max, hlength.le⟩
  · cases he : p e with
    | success v e' => exact absurd he (hends v e')
    | failure f =>
      rw [repeated_of_failure htrail hlength he] at h
      by_cases hfew : as.length < bounds.min
      · rw [if_pos hfew] at h
        exact absurd h (countUnmet_ne_success _ _ _ _ _ _)
      · rw [if_neg hfew] at h
        cases h
        exact ⟨as, htrail, rfl, Nat.not_lt.1 hfew, hlength.le⟩
    | fault reason =>
      rw [repeated_of_fault htrail hlength he] at h
      cases h

/-! ## Counting -/

/-- A repetition ends after as many applications as the parser can be applied, but not more than the
greatest number. It is abandoned when the application after these is. Otherwise, when they are
enough, it succeeds where they end, with the values of those that moved on; and when they are too
few, then because the parser fails there, and the repetition fails at its start, under the limit
that it has there, and tells what is where the parser failed and what the parser expected. -/
theorem repeated_counts (p : Parser α) (bounds : Bounds) (c : Cursor) :
    ∃ as d, p.Trail c as d ∧ (as.length : ℕ∞) = min (p.count c) bounds.max ∧
      ((∃ reason, as.length < bounds.max ∧ p d = .fault reason ∧
          repeated p bounds c = .fault reason) ∨
        (bounds.min ≤ p.count c → repeated p bounds c = .success (movedValues as) d) ∧
        (p.count c < bounds.min → ∃ f, p d = .failure f ∧
          (f.remainder.Valid → repeated p bounds c =
            .failure ⟨.boundedCountUnmet, "Unexpected '" ++ f.remainder.sight ++ "'",
              ["'" ++ ", ".intercalate f.expectations ++
                s!"' between {bounds.min} and {bounds.max} times, but found {as.length}"],
              c⟩))) := by
  obtain ⟨as, d, htrail, hlength | ⟨hlength, hends⟩⟩ := exists_trail p bounds.max c
  · have hmax : (bounds.max : ℕ∞) ≤ p.count c := hlength ▸ htrail.length_le_count
    have hmin : (bounds.min : ℕ∞) ≤ p.count c :=
      le_trans (Nat.cast_le.2 bounds.min_le_max) hmax
    refine ⟨as, d, htrail, ?_, .inr ⟨fun _ => repeated_of_full htrail hlength, fun hlt => ?_⟩⟩
    · rw [min_eq_right hmax, hlength]
    · exact absurd hlt hmin.not_gt
  · have hcount := htrail.count_eq hends
    have hmin : (as.length : ℕ∞) = min (p.count c) bounds.max := by
      rw [hcount, min_eq_left (Nat.cast_le.2 hlength.le)]
    refine ⟨as, d, htrail, hmin, ?_⟩
    rw [hcount, Nat.cast_le, Nat.cast_lt]
    cases hd : p d with
    | success v e => exact absurd hd (hends v e)
    | failure f =>
      have hrun := repeated_of_failure htrail hlength hd
      refine .inr ⟨fun henough => ?_, fun hfew => ⟨f, rfl, fun hf => ?_⟩⟩
      · rw [hrun, if_neg (Nat.not_lt.2 henough)]
      · rw [hrun, if_pos hfew, countUnmet_eq _ _ _ hf]
    | fault reason => exact .inl ⟨reason, hlength, rfl, repeated_of_fault htrail hlength hd⟩

/-- Two bytes in a window of their own, which stand there once and then not again. -/
theorem repeated_counts_within :
    let p := within 2 (sequence [1, 2])
    let c : Cursor := ⟨.of #[1, 2, 1, 3], 0, 4⟩
    p.count c = 1 ∧ repeated p ⟨2, 3, by decide⟩ c = .failure ⟨.boundedCountUnmet,
      "Unexpected '03'", ["'02' between 2 and 3 times, but found 1"], c⟩ := by
  intro p c
  have hfirst : p.Trail c [⟨[1, 2], c, c.advance 2⟩] (c.advance 2) := .cons rfl (.nil _)
  have hsecond : p (c.advance 2) =
      .failure ⟨.unexpectedByte, "unexpected '03'", ["02"], c.advance 3⟩ := by decide
  have hends : p.Ends (c.advance 2) := fun v d h => by
    rw [hsecond] at h
    cases h
  have hcount : p.count c = 1 := hfirst.count_eq hends
  obtain ⟨as, d, htrail, hlength, hrun⟩ := repeated_counts p ⟨2, 3, by decide⟩ c
  rw [hcount] at hlength hrun
  obtain ⟨rfl, rfl⟩ := htrail.unique hfirst (by simpa using hlength)
  obtain ⟨reason, -, hd, -⟩ | ⟨-, hfew⟩ := hrun
  · rw [hsecond] at hd
    cases hd
  · obtain ⟨f, hf, hfailed⟩ := hfew (Nat.one_lt_cast.2 Nat.one_lt_two)
    rw [hsecond] at hf
    cases hf
    exact ⟨hcount, (hfailed (by decide)).trans (by decide)⟩

/-- Applications that stay at their place count without a value, and may lower the limit. -/
example : repeated (orElse (exactly 1) (replace (narrow 0) 0)) (.exactly 4) ⟨.of #[1, 1, 2], 0, 3⟩ =
    .success [1, 1] ⟨.of #[1, 1, 2], 2, 2⟩ := by
  decide

end Parser

end Wire
