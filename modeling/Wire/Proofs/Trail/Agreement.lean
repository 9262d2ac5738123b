import Wire.Proofs.Confinement
import Wire.Proofs.Trail.Many
import Wire.Proofs.Trail.Repeated

/-!
# Agreement of the repetitions

`many` stops before an application that stays at its place, while `repeated` counts it and goes on.
For a parser that keeps the limit (`Parser.Steady`) that makes no difference: such an application
leaves the cursor as it is, so the parser does the same ever after, without a value that is listed.
When `repeated` may go on for as many applications as there are bytes to read, it comes to the end
of the chain that `many` follows, whatever its greatest number is (`Parser.repeated_agrees_many`).
-/

namespace Wire

variable {α : Type}

/-- An application that stays at its place adds no value, however often it is repeated. -/
theorem Application.movedValues_replicate (n : Nat) (v : α) (c : Cursor) :
    movedValues (List.replicate n ⟨v, c, c⟩) = [] := by
  simp [movedValues, moved]

namespace Parser

open Application (movedValues_append movedValues_replicate movedValues_of_forward)

/-- On a success, the parser leaves a cursor inside the one that it was given, under the same
limit. -/
def Steady (p : Parser α) : Prop :=
  ∀ c v d, c.Valid → p c = .success v d → d.Inside c ∧ d.limit = c.limit

/-- The parser is not abandoned, however often it has been applied from a cursor on. -/
def Answers (p : Parser α) (c : Cursor) : Prop :=
  ∀ as d reason, p.Trail c as d → p d ≠ .fault reason

variable {p : Parser α} {c d e : Cursor} {as : List (Application α)} {bounds : Bounds}
  {v : α} {vs : List α}

/-- A steady parser stays inside its start. -/
theorem Steady.conforming (hp : p.Steady) : p.Conforming :=
  fun c v d hc hv => (hp c v d hc hv).1

/-- A steady parser that stays at its place stays at its cursor. -/
theorem Steady.eq_of_position (hp : p.Steady) (hd : d.Valid) (hv : p d = .success v e)
    (hplace : e.position = d.position) : e = d := by
  obtain ⟨hinside, hlimit⟩ := hp d v e hd hv
  have hdata := hinside.data
  cases e
  cases d
  cases hdata
  cases hplace
  cases hlimit
  rfl

/-- A discipline that keeps the limit makes a parser steady. -/
theorem Obeys.steady {rules : Discipline} (hp : p.Obeys rules) (hkeep : rules.keepsLimit) :
    p.Steady := by
  intro c v d hc hv
  have hrun := hp c hc
  rw [hv] at hrun
  exact ⟨hrun.inside, hrun.limit hkeep⟩

/-- A parser that stays at a cursor can be applied there any number of times. -/
theorem trail_replicate (hv : p d = .success v d) :
    ∀ n, p.Trail d (List.replicate n ⟨v, d, d⟩) d
  | 0 => .nil d
  | n + 1 => .cons hv (trail_replicate hv n)

/-! ## Enough applications -/

/-- A repetition that succeeds has seen the least number of applications. -/
theorem min_le_count_of_repeated (h : repeated p bounds c = .success vs d) :
    (bounds.min : ℕ∞) ≤ p.count c := by
  obtain ⟨as, htrail, -, hmin, -⟩ := trail_of_repeated h
  exact le_trans (Nat.cast_le.2 hmin) htrail.length_le_count

/-- A repetition that may be as long as the chain ends where the chain does, unless the parser
cannot be applied as often as it should: it either fails there too, or stays there for the rest. -/
theorem Chain.repeated_eq (hp : p.Steady) (hc : c.Valid) (h : p.Chain c as d)
    (hanswers : ∀ reason, p d ≠ .fault reason) (hmax : as.length ≤ bounds.max)
    (hmin : (bounds.min : ℕ∞) ≤ p.count c) :
    repeated p bounds c = .success (as.map Application.value) d := by
  have hvalues : Application.movedValues as = as.map Application.value :=
    movedValues_of_forward h.forward
  cases hpd : p d with
  | success v e =>
    have hd := (h.trail.inside hp.conforming hc).valid hc
    obtain rfl : e = d := hp.eq_of_position hd hpd (h.last v e hpd)
    have htrail := h.trail.append (trail_replicate hpd (bounds.max - as.length))
    rw [repeated_of_full htrail (by simp [hmax]), movedValues_append, movedValues_replicate,
      List.append_nil, hvalues]
  | failure f =>
    have hends : p.Ends d := fun v e hv => by
      rw [hpd] at hv
      cases hv
    rw [h.trail.count_eq hends, Nat.cast_le] at hmin
    rcases hmax.lt_or_eq with hlt | hfull
    · rw [repeated_of_failure h.trail hlt hpd, if_neg (Nat.not_lt.2 hmin), hvalues]
    · rw [repeated_of_full h.trail hfull, hvalues]
  | fault reason => exact absurd hpd (hanswers reason)

section
variable (hp : p.Steady) (hc : c.Valid) (hanswers : p.Answers c)
include hp hc hanswers

/-- `many` succeeds, and so does in the same way every repetition that may go on for long enough and
need not go on for longer than it can. -/
theorem exists_agreement : ∃ vs d, many p c = .success vs d ∧
    ∀ bounds : Bounds, c.limit - c.position ≤ bounds.max → bounds.min ≤ p.count c →
      repeated p bounds c = .success vs d := by
  obtain ⟨as, d, hchain, -⟩ := exists_chain hp.conforming #[] c hc
  have hd := fun reason => hanswers as d reason hchain.trail
  refine ⟨as.map Application.value, d, ?_, fun bounds hmax hmin => ?_⟩
  · rw [many_of_chain hp.conforming hc hchain, Outcome.settle_eq_success_iff]
    exact ⟨hd, rfl, rfl⟩
  · exact hchain.repeated_eq hp hc hd (le_trans (hchain.length_le hp.conforming hc) hmax) hmin

/-- A repetition that may go on for long enough succeeds just when the parser can be applied often
enough. -/
theorem repeated_succeeds_iff (hmax : c.limit - c.position ≤ bounds.max) :
    (∃ vs d, repeated p bounds c = .success vs d) ↔ (bounds.min : ℕ∞) ≤ p.count c := by
  obtain ⟨vs, d, -, hrepeated⟩ := exists_agreement hp hc hanswers
  exact ⟨fun ⟨_, _, h⟩ => min_le_count_of_repeated h,
    fun hmin => ⟨vs, d, hrepeated bounds hmax hmin⟩⟩

end

end Parser

/-- A grammar that does not lower the limit is steady. -/
theorem Grammar.run_steady {defs : Definitions} {g : Grammar}
    (hg : g.Restricted defs { narrow := False }) : (g.run defs).Steady :=
  (run_obeys_confined_of_restricted hg).steady trivial

/-- A grammar without references and with its bounds the right way round is never abandoned. -/
theorem Grammar.run_answers {defs : Definitions} {g : Grammar} {c : Cursor}
    (hg : g.Restricted defs .faultless) (hc : c.Valid) : (g.run defs).Answers c :=
  fun _ _ _ htrail h =>
    (fault_of_run ((htrail.inside (run_obeys_confined defs g).conforming hc).valid hc) h).2 hg

/-- Grammars without `narrow` are steady. Where a steady parser is never abandoned, a repetition
that may have as many applications as there are bytes to read gives what `many` gives whenever it
succeeds; with no least number it does succeed, and with any least number it does not depend on the
greatest one whether it does. -/
theorem Parser.repeated_agrees_many :
    (∀ (defs : Definitions) (g : Grammar), g.Restricted defs { narrow := False } →
      (g.run defs).Steady) ∧
    ∀ (p : Parser α) (c : Cursor), p.Steady → c.Valid → p.Answers c →
      (∀ bounds : Bounds, c.limit - c.position ≤ bounds.max →
        (∀ vs d, repeated p bounds c = .success vs d → many p c = .success vs d) ∧
        (bounds.min = 0 → ∃ vs d, repeated p bounds c = .success vs d)) ∧
      ∀ bounds bounds' : Bounds, bounds.min = bounds'.min →
        c.limit - c.position ≤ bounds.max → c.limit - c.position ≤ bounds'.max →
        ((∃ vs d, repeated p bounds c = .success vs d) ↔
          ∃ vs d, repeated p bounds' c = .success vs d) := by
  refine ⟨fun defs g => Grammar.run_steady, fun p c hp hc hanswers => ?_⟩
  obtain ⟨vs, d, hmany, hrepeated⟩ := exists_agreement hp hc hanswers
  refine ⟨fun bounds hmax => ⟨fun ws e h => ?_, fun hzero => ?_⟩,
    fun bounds bounds' hmin hmax hmax' => ?_⟩
  · rw [hmany, ← hrepeated bounds hmax (min_le_count_of_repeated h), h]
  · rw [repeated_succeeds_iff hp hc hanswers hmax, hzero]
    exact zero_le
  · rw [repeated_succeeds_iff hp hc hanswers hmax, repeated_succeeds_iff hp hc hanswers hmax', hmin]

/-- A byte that may be missing: behind the last one, the repetition with a greatest number goes on
without moving. -/
theorem Parser.repeated_agrees_many_optional :
    let p := (Grammar.orElse (.exactly 1) (.constant .null)).run []
    let c : Cursor := ⟨.of #[1, 1, 2], 0, 3⟩
    p.Steady ∧ p.Answers c ∧ many p c = .success [.int 1, .int 1] ⟨.of #[1, 1, 2], 2, 3⟩ ∧
      ((∃ vs d, repeated p ⟨3, 3, by decide⟩ c = .success vs d) ↔
        ∃ vs d, repeated p ⟨3, 7, by decide⟩ c = .success vs d) := by
  intro p c
  have hc : c.Valid := by decide
  have hanswers : p.Answers c :=
    Grammar.run_answers ⟨fun _ => False, ⟨trivial, trivial⟩, ⟨nofun, nofun, nofun⟩⟩ hc
  obtain ⟨hgrammar, hagree⟩ := repeated_agrees_many (α := Value)
  have hp : p.Steady :=
    hgrammar [] _ ⟨fun _ => False, ⟨trivial, trivial⟩, ⟨nofun, nofun, nofun⟩⟩
  obtain ⟨hsame, hmax⟩ := hagree p c hp hc hanswers
  exact ⟨hp, hanswers, (hsame ⟨3, 3, by decide⟩ (by decide)).1 _ _ rfl,
    hmax _ _ rfl (by decide) (by decide)⟩

end Wire
