import Mathlib.Data.List.Chain
import Wire.Proofs.Confinement

/-!
# Nested windows

Windows can stand inside one another. What is read of a nest of windows depends on the innermost one
only, which is as wide as the narrowest of them and of what there is to read
(`Cursor.innermost_eq`). A nest succeeds when each window fits into what is around it and the parser
succeeds in the innermost one; then the outermost window is taken, whatever the parser took
(`Parser.nest_success_iff`). A failure comes out of a nest as it comes out of one window as wide as
the innermost: at the end of the window the end of input becomes an overrun at exactly one level,
the outermost one that ends there (`Parser.relabel_relabel`).
-/

namespace Wire

variable {α : Type}

namespace Cursor

variable {c : Cursor} {n : Nat} {sizes : List Nat}

/-- Of two windows, the narrower one counts. -/
theorem windowed_windowed (c : Cursor) (m n : Nat) :
    (c.windowed m).windowed n = c.windowed (min m n) := by
  simp only [windowed, mk.injEq, true_and]
  omega

/-- What there is to read in a window. -/
theorem room_windowed (c : Cursor) (n : Nat) :
    (c.windowed n).limit - (c.windowed n).position = min n (c.limit - c.position) := by
  simp only [windowed_limit, windowed_position]
  omega

/-- A window of all that there is to read changes nothing. -/
theorem windowed_room (hc : c.Valid) : c.windowed (c.limit - c.position) = c := by
  have := hc.1
  have hlimit : min (c.position + (c.limit - c.position)) c.limit = c.limit := by omega
  rw [windowed, hlimit]

/-- The cursor in the innermost of some windows, each one inside the one before it. -/
def innermost (c : Cursor) (sizes : List Nat) : Cursor :=
  sizes.foldl windowed c

/-- The innermost of some windows lies in the first of them. -/
theorem innermost_cons (c : Cursor) (n : Nat) (sizes : List Nat) :
    c.innermost (n :: sizes) = (c.windowed n).innermost sizes :=
  rfl

/-- The innermost window is inside the cursor that it is laid over. -/
theorem innermost_inside (hc : c.Valid) : (c.innermost sizes).Inside c := by
  induction sizes generalizing c with
  | nil => exact .refl hc
  | cons n sizes ih =>
    have hwindow : (c.windowed n).Inside c := windowed_inside hc
    exact hwindow.trans (ih (hwindow.valid hc))

/-- The narrowest of some windows is no wider than what there is to read. -/
theorem foldr_min_le (room : Nat) : sizes.foldr min room ≤ room := by
  induction sizes with
  | nil => exact le_rfl
  | cons n sizes ih => exact le_trans (min_le_right _ _) ih

/-- The innermost window is as wide as the narrowest of the windows, or as what there is to read. -/
theorem innermost_eq (hc : c.Valid) :
    c.innermost sizes = c.windowed (sizes.foldr min (c.limit - c.position)) := by
  induction sizes generalizing c with
  | nil => exact (windowed_room hc).symm
  | cons n sizes ih =>
    rw [innermost_cons, ih ((windowed_inside hc).valid hc), room_windowed, windowed_windowed,
      min_comm n (c.limit - c.position), List.foldr_assoc, min_comm _ n, ← min_assoc, min_self,
      List.foldr_cons]

/-- When each window is at most as wide as the one around it, the last one is the innermost. -/
theorem innermost_of_isChain (c : Cursor) (h : (n :: sizes).IsChain (· ≥ ·)) :
    c.innermost (n :: sizes) = c.windowed ((n :: sizes).getLast (List.cons_ne_nil n sizes)) := by
  induction sizes generalizing n with
  | nil => rfl
  | cons m sizes ih =>
    obtain ⟨hle, hrest⟩ := List.isChain_cons_cons.1 h
    rw [innermost_cons, innermost_cons, windowed_windowed, min_eq_right hle, ← innermost_cons,
      ih hrest, List.getLast_cons_cons]

end Cursor

namespace Parser

/-- On a failure, the parser points no further than to the limit that it was given. -/
def PointsWithin (p : Parser α) : Prop :=
  ∀ c f, c.Valid → p c = .failure f → f.position ≤ c.limit

/-- A parser under any discipline points within its limit. -/
theorem Obeys.pointsWithin {rules : Discipline} {p : Parser α} (hp : p.Obeys rules) :
    p.PointsWithin := by
  intro c f hc hf
  have hrun := hp c hc
  rw [hf] at hrun
  exact le_trans hrun.1.order hrun.1.stop

variable {p : Parser α} {c : Cursor} {n : Nat} {sizes : List Nat} {v : α} {r : Cursor}
  {f : Failure} {reason : Fault}

/-! ## One window -/

/-- A window is read when it is all there and the parser succeeds in it. -/
theorem within_eq_success_iff (hc : c.Valid) :
    within n p c = .success v r ↔
      n ≤ c.limit - c.position ∧ (∃ e, p (c.windowed n) = .success v e) ∧ r = c.advance n := by
  have := hc.1
  unfold within
  rw [Cursor.remaining_eq hc]
  cases p (c.windowed n) with
  | success w e =>
    dsimp only
    by_cases hfits : n ≤ c.limit - c.position
    · have hskip : c.skip n = c.advance n := Cursor.skip_eq_advance (by omega)
      rw [if_neg (Nat.not_lt.2 hfits), hskip]
      simp [hfits, eq_comm]
    · rw [if_pos (Nat.not_le.1 hfits)]
      simp [hfits]
  | failure f => simp
  | fault reason => simp

/-- A failure in a window leaves it relabelled. -/
theorem within_of_failure (hf : p (c.windowed n) = .failure f) :
    within n p c = .failure (relabel (c.windowed n) c f) := by
  unfold within
  rw [hf]

/-- A parser in a window is abandoned as it is there. -/
theorem within_eq_fault_iff (hc : c.Valid) :
    within n p c = .fault reason ↔ p (c.windowed n) = .fault reason := by
  unfold within
  rw [Cursor.remaining_eq hc]
  cases p (c.windowed n) with
  | success w e =>
    dsimp only
    split <;> simp
  | failure f => simp
  | fault reason => simp

/-- The end of a window that ends before the limit is an overrun. -/
theorem relabel_of_endOfInput {window outer : Cursor} (hkind : f.kind = .endOfInput)
    (hplace : f.position = window.limit) (hlimit : window.limit < outer.limit) :
    relabel window outer f = f.withKind .windowOverrun :=
  if_pos ⟨hkind, hplace, hlimit⟩

/-- Any other failure than the end of a window that ends before the limit stays as it is. -/
theorem relabel_of_not {window outer : Cursor}
    (h : ¬ (f.kind = .endOfInput ∧ f.position = window.limit ∧ window.limit < outer.limit)) :
    relabel window outer f = f :=
  if_neg h

/-- A failure that leaves one window and then another around it is the failure that leaves the outer
one as if the inner one stood in it alone. -/
theorem relabel_relabel {inner window outer : Cursor} (hf : f.position ≤ inner.limit)
    (hinner : inner.limit ≤ window.limit) (hwindow : window.limit ≤ outer.limit) :
    relabel window outer (relabel inner window f) = relabel inner outer f := by
  by_cases hend : f.kind = .endOfInput ∧ f.position = inner.limit
  · obtain ⟨hkind, hplace⟩ := hend
    rcases lt_or_eq_of_le hinner with hlt | heq
    · have hlt' : inner.limit < outer.limit := lt_of_lt_of_le hlt hwindow
      rw [relabel_of_endOfInput hkind hplace hlt, relabel_of_endOfInput hkind hplace hlt']
      exact if_neg nofun
    · rw [relabel_of_not fun h => Nat.ne_of_lt h.2.2 heq]
      unfold relabel
      rw [heq]
  · rw [relabel_of_not fun h => hend ⟨h.1, h.2.1⟩, relabel_of_not fun h => hend ⟨h.1, h.2.1⟩,
      relabel_of_not fun h => hend ⟨h.1, by omega⟩]

/-! ## A nest of windows -/

/-- A nest of windows is read when each of them fits into what is around it, and the parser succeeds
in the innermost one. -/
theorem nest_success_iff (hc : c.Valid) :
    (∃ r, sizes.foldr within p c = .success v r) ↔
      ((c.limit - c.position) :: sizes).IsChain (· ≥ ·) ∧
        ∃ e, p (c.innermost sizes) = .success v e := by
  induction sizes generalizing c with
  | nil => simp [Cursor.innermost]
  | cons n sizes ih =>
    have hwindow := (Cursor.windowed_inside (n := n) hc).valid hc
    rw [List.foldr_cons, List.isChain_cons_cons, Cursor.innermost_cons]
    constructor
    · rintro ⟨r, h⟩
      obtain ⟨hfits, hinner, -⟩ := (within_eq_success_iff hc).1 h
      obtain ⟨hchain, hrun⟩ := (ih hwindow).1 hinner
      rw [Cursor.room_windowed, min_eq_left hfits] at hchain
      exact ⟨⟨hfits, hchain⟩, hrun⟩
    · rintro ⟨⟨hfits, hchain⟩, hrun⟩
      have hroom := (Cursor.room_windowed c n).trans (min_eq_left hfits)
      rw [← hroom] at hchain
      exact ⟨_, (within_eq_success_iff hc).2 ⟨hfits, (ih hwindow).2 ⟨hchain, hrun⟩, rfl⟩⟩

/-- A failure in the innermost window leaves the nest as if that window stood alone. -/
theorem nest_of_failure (hp : p.PointsWithin) (hc : c.Valid)
    (hf : p (c.innermost sizes) = .failure f) :
    sizes.foldr within p c = .failure (relabel (c.innermost sizes) c f) := by
  induction sizes generalizing c with
  | nil =>
    have hsame : relabel c c f = f := relabel_of_not fun h => Nat.lt_irrefl _ h.2.2
    exact hf.trans (congrArg Outcome.failure hsame.symm)
  | cons n sizes ih =>
    have hwindow : (c.windowed n).Inside c := Cursor.windowed_inside hc
    have hinner : (c.innermost (n :: sizes)).Inside (c.windowed n) :=
      Cursor.innermost_inside (hwindow.valid hc)
    have hplace := hp _ f (hinner.valid (hwindow.valid hc)) hf
    rw [List.foldr_cons, within_of_failure (ih (hwindow.valid hc) hf),
      ← Cursor.innermost_cons, relabel_relabel hplace hinner.stop hwindow.stop]

/-- A parser in nested windows is abandoned as it is in the innermost one. -/
theorem nest_eq_fault_iff (hc : c.Valid) :
    sizes.foldr within p c = .fault reason ↔ p (c.innermost sizes) = .fault reason := by
  induction sizes generalizing c with
  | nil => exact Iff.rfl
  | cons n sizes ih =>
    rw [List.foldr_cons, within_eq_fault_iff hc, ih ((Cursor.windowed_inside hc).valid hc),
      Cursor.innermost_cons]

/-- The failures of all grammars point no further than to the limit. For a parser of which that is
so, a nest of windows succeeds just when the outermost window fits into what there is to read, each
other one into the one around it, and the parser succeeds in the last one; it then stands behind the
outermost window, under the limit from before. When the parser fails in the innermost window, which
is as wide as the narrowest of them and of what there is to read, the nest fails with that failure,
except that the end of input at the end of a window that ends before the limit is an overrun. The
nest is abandoned just when the parser is. -/
theorem nested_windows :
    (∀ (defs : Definitions) (g : Grammar), (g.run defs).PointsWithin) ∧
    ∀ (p : Parser α) (c : Cursor) (n : Nat) (sizes : List Nat), p.PointsWithin → c.Valid →
      let nest := (n :: sizes).foldr within p
      let width := (n :: sizes).foldr min (c.limit - c.position)
      let last := (n :: sizes).getLast (List.cons_ne_nil n sizes)
      (∀ v r, nest c = .success v r ↔
        n ≤ c.limit - c.position ∧ (n :: sizes).IsChain (· ≥ ·) ∧
          (∃ e, p (c.windowed last) = .success v e) ∧ r = c.advance n) ∧
      (∀ f, p (c.windowed width) = .failure f →
        nest c = .failure
          (if f.kind = .endOfInput ∧ f.position = c.position + width ∧
              width < c.limit - c.position then
            f.withKind .windowOverrun
          else f)) ∧
      ∀ reason, nest c = .fault reason ↔ p (c.windowed width) = .fault reason := by
  refine ⟨fun defs g => (Grammar.run_obeys_confined defs g).pointsWithin, ?_⟩
  intro p c n sizes hp hc nest width last
  have hinner : c.innermost (n :: sizes) = c.windowed width := Cursor.innermost_eq hc
  refine ⟨fun v r => ?_, fun f hf => ?_, fun reason => ?_⟩
  · have hwindow := (Cursor.windowed_inside (n := n) hc).valid hc
    change within n (sizes.foldr within p) c = .success v r ↔ _
    rw [within_eq_success_iff hc, nest_success_iff hwindow, Cursor.room_windowed,
      ← Cursor.innermost_cons]
    constructor
    · rintro ⟨hfits, ⟨hchain, hrun⟩, hr⟩
      rw [min_eq_left hfits] at hchain
      rw [Cursor.innermost_of_isChain c hchain] at hrun
      exact ⟨hfits, hchain, hrun, hr⟩
    · rintro ⟨hfits, hchain, hrun, hr⟩
      rw [min_eq_left hfits, Cursor.innermost_of_isChain c hchain]
      exact ⟨hfits, ⟨hchain, hrun⟩, hr⟩
  · have hwidth : width ≤ c.limit - c.position := Cursor.foldr_min_le _
    have := hc.1
    have hlimit : (c.windowed width).limit = c.position + width := by
      rw [Cursor.windowed_limit]
      omega
    have hshort : c.position + width < c.limit ↔ width < c.limit - c.position := by omega
    rw [← hinner] at hf
    change (n :: sizes).foldr within p c = _
    rw [nest_of_failure hp hc hf, hinner, relabel, hlimit]
    simp only [hshort]
  · rw [← hinner]
    exact nest_eq_fault_iff hc

/-- Three bytes in a nest of windows: in the first nest they fill the inner window, in the second
one the inner window ends before the last of them, and that is an overrun at its end. -/
theorem nested_windows_sequence :
    let p := sequence [1, 2, 3]
    let c : Cursor := ⟨.of #[0, 1, 2, 3, 4], 1, 5⟩
    p.PointsWithin ∧ c.Valid ∧
      within 4 (within 3 p) c = .success [1, 2, 3] (c.advance 4) ∧
      within 3 (within 2 p) c =
        .failure ⟨.windowOverrun, "Unexpected end of input reached", ["03"],
          ⟨.of #[0, 1, 2, 3, 4], 3, 3⟩⟩ := by
  intro p c
  have hr := Discipline.confined_lawful True fun _ => True
  have hp : p.PointsWithin := (obeys_sequence hr [1, 2, 3]).pointsWithin
  have hc : c.Valid := by decide
  obtain ⟨-, hnest⟩ := nested_windows (α := List UInt8)
  obtain ⟨hsuccess, -⟩ := hnest p c 4 [3] hp hc
  obtain ⟨-, hfailure, -⟩ := hnest p c 3 [2] hp hc
  exact ⟨hp, hc, (hsuccess _ _).2 ⟨by decide, by decide, ⟨_, rfl⟩, rfl⟩, hfailure _ rfl⟩

end Parser

end Wire
