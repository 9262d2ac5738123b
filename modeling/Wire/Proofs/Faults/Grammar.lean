import Mathlib.Data.Set.Finite.Basic
import Mathlib.Order.WellFounded
import Wire.Proofs.Depth
import Wire.Proofs.Faults.Calls
import Wire.Proofs.Windows

/-!
# Where the fault of a grammar comes from

When the run of a grammar is abandoned, it has come to what it is abandoned for
(`Grammar.blames_of_fault`): a grammar that was put together with bounds that are the wrong way
round, or a reference. And when it is abandoned because references nest without an end, it has come
to one that nests in itself: to a name whose definition, run at the same position under the same
limit, comes to the name again (`Grammar.nests_self_of_endless`). So the depth of a run can be
exceeded in this way only (`Grammar.run_eq_of_depth_or_nests`).
-/

namespace Wire

/-- A run has come to what a fault is about: bounds that are the wrong way round, a name without a
definition, or a name that one more reference is needed for. -/
inductive Grammar.Blames (defs : Definitions) (g : Grammar) (c : Cursor) : Fault → Prop
  | bounds {min max : Nat} :
    g.Builds defs c min max → max < min → Blames defs g c (.invertedBounds min max)
  | undefined {name : String} {d : Cursor} :
    g.Asks defs c name d → defs.lookup name = none → Blames defs g c (.undefinedName name)
  | endless {name : String} {d : Cursor} :
    g.Asks defs c name d → Blames defs g c (.endlessReference name)

open Wire.Parser

namespace Grammar

variable {defs : Definitions} {g h : Grammar} {c d e : Cursor} {reason : Fault} {n : Nat}

/-! ## Runs at a depth -/

/-- A part of a grammar that was put together has no fault of its own. -/
theorem run_eq_of_settled (hg : g.fault? = none) (hc : c.Valid)
    (h : ¬ (g.parser (defs.parser n) c).Endless) :
    g.run defs c = g.parser (defs.parser n) c := by
  have hrun : g.runTo defs n = g.parser (defs.parser n) := by
    unfold runTo checked
    rw [hg]
  rw [← hrun] at h ⊢
  exact run_eq_runTo hc h

/-- A success at some depth is that of the run. -/
theorem run_of_success (hg : g.fault? = none) (hc : c.Valid) {v : Value}
    (h : g.parser (defs.parser n) c = .success v d) : g.run defs c = .success v d :=
  (run_eq_of_settled hg hc (Outcome.not_endless_of_success h)).trans h

/-- A failure at some depth is that of the run. -/
theorem run_of_failure (hg : g.fault? = none) (hc : c.Valid) {f : Failure}
    (h : g.parser (defs.parser n) c = .failure f) : g.run defs c = .failure f :=
  (run_eq_of_settled hg hc (Outcome.not_endless_of_failure h)).trans h

/-- A grammar is confined at every depth. -/
theorem parser_conforming (defs : Definitions) (n : Nat) (g : Grammar) :
    (g.parser (defs.parser n)).Conforming :=
  (g.parser_obeys Definitions.movable.fits (fun name _ => defs.parser_obeys_confined n name)
    (g.permitted_of_open Permit.default_open)).conforming

/-- Applications at some depth are applications of the run. -/
theorem trail_run (hg : g.fault? = none) (hc : c.Valid) {as : List (Application Value)}
    (h : (g.parser (defs.parser n)).Trail c as d) : (g.run defs).Trail c as d := by
  induction h with
  | nil => exact .nil _
  | cons hv _ ih =>
    have hvalid := (parser_conforming defs n g _ _ _ hc hv).valid hc
    exact .cons (run_of_success hg hc hv) (ih hvalid)

/-- An alternative that gives way at some depth gives way in the run. -/
theorem givesWay_run (hg : g.fault? = none) (hc : c.Valid) {commitment : Commitment}
    (h : (g.parser (defs.parser n) c).GivesWay commitment c) :
    (g.run defs c).GivesWay commitment c := by
  cases hrun : g.parser (defs.parser n) c with
  | success v d =>
    rw [run_of_success hg hc hrun, ← hrun]
    exact h
  | failure f =>
    rw [run_of_failure hg hc hrun, ← hrun]
    exact h
  | fault reason =>
    rw [hrun] at h
    exact h.elim

end Grammar

/-! ## Tracing a fault -/

/-- A way to say what a fault comes from in a run: bounds that are the wrong way round are what it
comes from, and what it comes from in a call, it comes from in the run that makes the call. -/
structure Definitions.Explains (defs : Definitions) (blames : Grammar → Cursor → Fault → Prop) :
    Prop where
  bounds {g : Grammar} {c : Cursor} {reason : Fault} : g.fault? = some reason → blames g c reason
  call {g h : Grammar} {c d : Cursor} {reason : Fault} :
    g.Calls defs c h d → blames h d reason → blames g c reason

/-- When a run of a grammar without a fault of its own is abandoned at some depth of references, it
is said what the fault comes from. -/
def Grammar.Traced (defs : Definitions) (blames : Grammar → Cursor → Fault → Prop) (n : Nat)
    (g : Grammar) : Prop :=
  g.fault? = none → ∀ (c : Cursor) (reason : Fault), c.Valid → reason.OfGrammar →
    g.parser (defs.parser n) c = .fault reason → blames g c reason

namespace Grammar

section
variable {defs : Definitions} {blames : Grammar → Cursor → Fault → Prop} {n : Nat}
  {g h t : Grammar}

/-- A grammar that runs no other grammar is not abandoned. -/
theorem traced_of_permitted (hg : g.Permitted .faultless fun _ => False) :
    g.Traced defs blames n := by
  intro _ c reason hc _ hfault
  have hfit : Permit.faultless.Fits (.confined False fun _ => False) :=
    Discipline.confined_fits (fun _ => id) fun _ => id
  have hobeys : (g.parser (defs.parser n)).Obeys (.confined False fun _ => False) :=
    g.parser_obeys hfit (fun _ => False.elim) hg
  have hrun := hobeys c hc
  rw [hfault] at hrun
  exact hrun.elim

variable (hblames : defs.Explains blames)
include hblames

/-- A grammar with one part, which begins its run, is abandoned only when the part is. -/
theorem Traced.of_first (hg : g.Traced defs blames n) (hfirst : h.first? = some g)
    (hbounds : h.fault? = g.fault?)
    (hrun : ∀ c reason, c.Valid → reason.OfGrammar →
      h.parser (defs.parser n) c = .fault reason → g.parser (defs.parser n) c = .fault reason) :
    h.Traced defs blames n := by
  intro hnone c reason hc hr hfault
  rw [hbounds] at hnone
  exact hblames.call (.first hfirst) (hg hnone c reason hc hr (hrun c reason hc hr hfault))

/-- Two grammars in order are traced when both are. -/
theorem Traced.both (hg : g.Traced defs blames n) (hh : h.Traced defs blames n) :
    (Grammar.both g h).Traced defs blames n := by
  intro hnone c reason hc hr hfault
  obtain ⟨hgnone, hhnone⟩ := Option.or_eq_none_iff.1 hnone
  rcases Parser.fault_both (Parser.fault_map hfault) with hp | ⟨v, d, hv, hq⟩
  · exact hblames.call (.first rfl) (hg hgnone c reason hc hr hp)
  · have hd := (parser_conforming defs n g c v d hc hv).valid hc
    exact hblames.call (.both (run_of_success hgnone hc hv)) (hh hhnone d reason hd hr hq)

/-- Two grammars of lists in order are traced when both are. -/
theorem Traced.append (hg : g.Traced defs blames n) (hh : h.Traced defs blames n) :
    (Grammar.append g h).Traced defs blames n := by
  intro hnone c reason hc hr hfault
  obtain ⟨hgnone, hhnone⟩ := Option.or_eq_none_iff.1 hnone
  rcases Parser.fault_append (Parser.fault_map hfault) with hp | ⟨items, d, hitems, hq⟩
  · exact hblames.call (.first rfl) (hg hgnone c reason hc hr (Parser.fault_map hp))
  · obtain ⟨v, hv, -⟩ := Parser.success_of_map hitems
    have hd := (parser_conforming defs n g c v d hc hv).valid hc
    exact hblames.call (.append (run_of_success hgnone hc hv))
      (hh hhnone d reason hd hr (Parser.fault_map hq))

/-- What a grammar put together is abandoned for is in its bounds or comes from its run. -/
theorem Traced.checked (hg : g.Traced defs blames n) {c : Cursor} {reason : Fault} (hc : c.Valid)
    (hr : reason.OfGrammar) (hfault : g.runTo defs n c = .fault reason) : blames g c reason := by
  unfold runTo Grammar.checked at hfault
  cases hbounds : g.fault? with
  | some reason' =>
    rw [hbounds] at hfault
    cases hfault
    exact hblames.bounds hbounds
  | none =>
    rw [hbounds] at hfault
    exact hg hbounds c reason hc hr hfault

/-- A grammar with a continuation is traced when it is and all that is chosen for its values. -/
theorem Traced.andThen {k : Continuation} (hg : g.Traced defs blames n)
    (hk : ∀ v, (k.grammar v).Traced defs blames n) :
    (Grammar.andThen g k).Traced defs blames n := by
  intro (hnone : g.fault? = none) c reason hc hr hfault
  rcases Parser.fault_bind hfault with hp | ⟨v, d, hv, hq⟩
  · exact hblames.call (.first rfl) (hg hnone c reason hc hr hp)
  · have hd := (parser_conforming defs n g c v d hc hv).valid hc
    rw [Continuation.parser_eq] at hq
    exact hblames.call (.andThen (run_of_success hnone hc hv)) ((hk v).checked hblames hd hr hq)

/-- A grammar in a window is traced when it is. -/
theorem Traced.within (size : Nat) (hg : g.Traced defs blames n) :
    (Grammar.within size g).Traced defs blames n := by
  intro hnone c reason hc hr hfault
  have hd := (Cursor.windowed_inside (n := size) hc).valid hc
  exact hblames.call .within (hg hnone _ reason hd hr ((Parser.within_eq_fault_iff hc).1 hfault))

/-- A repeated grammar is abandoned at a cursor that its applications lead to. -/
theorem Traced.of_trail {as : List (Application Value)} {c d : Cursor} {reason : Fault}
    (hg : g.Traced defs blames n) (hnone : g.fault? = none) (hc : c.Valid) (hr : reason.OfGrammar)
    (htrail : (g.parser (defs.parser n)).Trail c as d)
    (hfault : g.parser (defs.parser n) d = .fault reason)
    (hcall : (g.run defs).Trail c as d → h.Calls defs c g d) : blames h c reason := by
  have hd := (htrail.inside (parser_conforming defs n g) hc).valid hc
  exact hblames.call (hcall (trail_run hnone hc htrail)) (hg hnone d reason hd hr hfault)

/-- A grammar that is repeated as often as it succeeds is traced when it is. -/
theorem Traced.many (hg : g.Traced defs blames n) : (Grammar.many g).Traced defs blames n := by
  intro hnone c reason hc hr hfault
  obtain ⟨as, d, htrail, hmoved, hp⟩ := Parser.fault_many hr (Parser.fault_map hfault)
  exact hg.of_trail hblames hnone hc hr htrail hp fun htrail => .many htrail hmoved

/-- So is a repetition that looks at the failure which ended it. -/
theorem Traced.manyCommit (hg : g.Traced defs blames n) :
    (Grammar.manyCommit g).Traced defs blames n := by
  intro hnone c reason hc hr hfault
  obtain ⟨as, d, htrail, hmoved, hp⟩ := Parser.fault_manyCommit hr (Parser.fault_map hfault)
  exact hg.of_trail hblames hnone hc hr htrail hp fun htrail => .manyCommit htrail hmoved

/-- A bounded repetition, with bounds that are the right way round, is traced when the grammar
is. -/
theorem Traced.repeated (min max : Nat) (hg : g.Traced defs blames n) :
    (Grammar.repeated g min max).Traced defs blames n := by
  intro hnone c reason hc hr hfault
  obtain ⟨hgnone, horder⟩ := Option.or_eq_none_iff.1 hnone
  have hle : min ≤ max := by
    by_contra hlt
    rw [if_pos (Nat.lt_of_not_le hlt)] at horder
    cases horder
  have hrun : Parser.repeated (g.parser (defs.parser n)) ⟨min, max, hle⟩ c = .fault reason := by
    have hmap := Parser.fault_map hfault
    unfold repeatedBetween Bounds.ofNat? at hmap
    rwa [dif_pos hle] at hmap
  obtain ⟨as, d, htrail, hlength, hp⟩ := Parser.fault_repeated hr hrun
  exact hg.of_trail hblames hgnone hc hr htrail hp fun htrail => .repeated htrail hlength

/-- An alternation is traced when both alternatives are, whatever it is committed by: the second one
is called only where the first one gives way. -/
theorem Traced.choose {k : Grammar} {commitment : Commitment} (hg : g.Traced defs blames n)
    (hh : h.Traced defs blames n) (hbounds : k.fault? = g.fault?.or h.fault?)
    (hfirst : k.first? = some g)
    (hparser : k.parser (defs.parser n) =
      Parser.choose commitment (g.parser (defs.parser n)) (h.parser (defs.parser n)))
    (hsecond : ∀ c, (g.run defs c).GivesWay commitment c → k.Calls defs c h c) :
    k.Traced defs blames n := by
  intro hnone c reason hc hr hfault
  rw [hbounds] at hnone
  rw [hparser] at hfault
  obtain ⟨hgnone, hhnone⟩ := Option.or_eq_none_iff.1 hnone
  rcases Parser.fault_choose hfault with hp | ⟨hway, hq⟩
  · exact hblames.call (.first hfirst) (hg hgnone c reason hc hr hp)
  · exact hblames.call (hsecond c (givesWay_run hgnone hc hway)) (hh hhnone c reason hc hr hq)

/-- A guarded grammar is traced when it and its guard are. -/
theorem Traced.butNot (hg : g.Traced defs blames n) (ht : t.Traced defs blames n) :
    (Grammar.butNot g t).Traced defs blames n := by
  intro hnone c reason hc hr hfault
  obtain ⟨hgnone, htnone⟩ := Option.or_eq_none_iff.1 hnone
  rcases Parser.fault_butNot hfault with hguard | ⟨⟨f, hf⟩, hp⟩
  · exact hblames.call (.first rfl) (ht htnone c reason hc hr hguard)
  · exact hblames.call (.butNot (run_of_failure htnone hc hf)) (hg hgnone c reason hc hr hp)

/-- Items up to a terminator are traced when both grammars are: the items are guarded by the
terminator, and behind them it runs once more. -/
theorem Traced.upTo (hg : g.Traced defs blames n) (ht : t.Traced defs blames n) :
    (Grammar.upTo g t).Traced defs blames n := by
  intro hnone c reason hc hr hfault
  rcases Parser.fault_bind (Parser.fault_map hfault) with hitems | ⟨items, d, hitems, hrest⟩
  · obtain ⟨as, d, htrail, hmoved, hp⟩ := Parser.fault_many hr hitems
    exact (hg.butNot hblames ht).of_trail hblames hnone hc hr htrail hp fun htrail =>
      .item htrail hmoved
  · have hmany : (Grammar.many (.butNot g t)).parser (defs.parser n) c =
        .success (.list items) d :=
      congrArg (Outcome.map Value.list) hitems
    have hd := (parser_conforming defs n _ c _ d hc hmany).valid hc
    have hmark : t.parser (defs.parser n) d = .fault reason := Parser.fault_map hrest
    exact hblames.call (.terminator (run_of_success (g := .many (.butNot g t)) hnone hc hmany))
      (ht (Option.or_eq_none_iff.1 hnone).2 d reason hd hr hmark)

omit hblames

mutual

/-- When the faults of references are explained at some depth, so are those of every grammar. -/
theorem traced (hblames : defs.Explains blames)
    (hrefs : ∀ name, (Grammar.ref name).Traced defs blames n) : ∀ g : Grammar,
    g.Traced defs blames n
  | .byte | .exactly _ | .between _ _ | .oneOf _ | .sequence _ | .bytes _ | .masked _ _ _
  | .integer _ _ | .binary _ _ | .constant _ | .fail _ _ _ _ | .capital | .skip _ | .narrow _
  | .rest | .binaryInRange _ _ _ _ => traced_of_permitted trivial
  | .ref name => hrefs name
  | .wordOf _ g => (traced hblames hrefs g).of_first hblames rfl rfl fun _ _ _ _ h =>
      Parser.fault_map (Parser.fault_wordOf (Parser.fault_map h))
  | .peek g => (traced hblames hrefs g).of_first hblames rfl rfl fun _ _ _ _ h =>
      Parser.fault_peek h
  | .transform _ g | .replace _ g =>
    (traced hblames hrefs g).of_first hblames rfl rfl fun _ _ _ _ h => Parser.fault_map h
  | .singleton g => (traced hblames hrefs g).of_first hblames rfl rfl fun _ _ _ _ h =>
      Parser.fault_map (Parser.fault_map h)
  | .toEnd g => (traced hblames hrefs g).of_first hblames rfl rfl fun _ _ _ hr h =>
      Parser.fault_toEnd hr h
  | .withDigest g _ => (traced hblames hrefs g).of_first hblames rfl rfl fun c _ hc _ h =>
      Parser.fault_withDigest hc (fun v d => parser_conforming defs n g c v d hc) h
  | .satisfying g _ _ => (traced hblames hrefs g).of_first hblames rfl rfl fun _ _ _ _ h =>
      Parser.fault_satisfying h
  | .intInRange g _ _ => (traced hblames hrefs g).of_first hblames rfl rfl fun _ _ _ _ h =>
      Parser.fault_map (Parser.fault_satisfying (Parser.fault_map h))
  | .spanned g => (traced hblames hrefs g).of_first hblames rfl rfl fun c _ hc _ h =>
      Parser.fault_spanned hc (fun v d => parser_conforming defs n g c v d hc) (Parser.fault_map h)
  | .both g h => (traced hblames hrefs g).both hblames (traced hblames hrefs h)
  | .append g h => (traced hblames hrefs g).append hblames (traced hblames hrefs h)
  | .andThen g k => (traced hblames hrefs g).andThen hblames (traced_grammar hblames hrefs k)
  | .many g => (traced hblames hrefs g).many hblames
  | .manyCommit g => (traced hblames hrefs g).manyCommit hblames
  | .repeated g min max => (traced hblames hrefs g).repeated hblames min max
  | .orElse g h =>
    (traced hblames hrefs g).choose hblames (traced hblames hrefs h) rfl rfl rfl fun _ => .orElse
  | .orCommit g h =>
    (traced hblames hrefs g).choose hblames (traced hblames hrefs h) rfl rfl rfl fun _ => .orCommit
  | .butNot g guard => (traced hblames hrefs g).butNot hblames (traced hblames hrefs guard)
  | .upTo g t => (traced hblames hrefs g).upTo hblames (traced hblames hrefs t)
  | .within size g => (traced hblames hrefs g).within hblames size

/-- So are those of what a continuation chooses. -/
theorem traced_grammar (hblames : defs.Explains blames)
    (hrefs : ∀ name, (Grammar.ref name).Traced defs blames n) : ∀ (k : Continuation) (v : Value),
    (k.grammar v).Traced defs blames n
  | .bytes, _ | .same, _ | .value, _ => traced_of_permitted trivial
  | .within g, v => (traced hblames hrefs g).within hblames v.toCount
  | .repeated g, v => (traced hblames hrefs g).repeated hblames v.toCount v.toCount
  | .repeatedUpTo g max, v => (traced hblames hrefs g).repeated hblames v.toCount max
  | .always g, _ => traced hblames hrefs g
  | .pair g, v =>
    (traced_of_permitted (g := .constant v) trivial).both hblames (traced hblames hrefs g)
  | .select key g k, v => by
    unfold Continuation.grammar
    split
    · exact traced hblames hrefs g
    · exact traced_grammar hblames hrefs k v

end

end

/-! ## References -/

variable {defs : Definitions} {g h : Grammar} {c d : Cursor} {reason : Fault} {n : Nat}

/-- What a call is abandoned for, the run is abandoned for that makes it. -/
theorem Blames.call (hcall : g.Calls defs c h d) (hblames : h.Blames defs d reason) :
    g.Blames defs c reason := by
  cases hblames with
  | bounds hbuilds hlt =>
    obtain ⟨k, e, hreach, hmem⟩ := hbuilds
    exact .bounds ⟨k, e, .call hcall hreach, hmem⟩ hlt
  | undefined hasks hname => exact .undefined (.call hcall hasks) hname
  | endless hasks => exact .endless (.call hcall hasks)

/-- Bounds, names without a definition and names that are asked for explain faults. -/
theorem explains_blames (defs : Definitions) :
    defs.Explains fun g c reason => g.Blames defs c reason where
  bounds h := by
    obtain ⟨min, max, hmem, hlt, rfl⟩ := bounds_of_fault? h
    exact .bounds ⟨_, _, .refl _ _, hmem⟩ hlt
  call := Blames.call

/-- A reference is abandoned for itself, or for what its definition is abandoned for. -/
theorem traced_ref (defs : Definitions) (n : Nat) (name : String) :
    (Grammar.ref name).Traced defs (fun g c reason => g.Blames defs c reason) n := by
  -- The definition of a name is run at one depth less, and so are the references in it.
  induction n generalizing name with
  | zero =>
    intro _ c reason _ _ hfault
    cases hfault
    exact .endless (.refl _ _)
  | succ n ih =>
    intro _ c reason hc hr hfault
    change defs.parser (n + 1) name c = .fault reason at hfault
    rw [Definitions.parser] at hfault
    cases hname : defs.lookup name with
    | none =>
      rw [hname] at hfault
      cases hfault
      exact .undefined (.refl _ _) hname
    | some g =>
      rw [hname] at hfault
      have hg := traced (explains_blames defs) ih g
      exact (hg.checked (explains_blames defs) hc hr hfault).call (.ref hname)

/-- When a run is abandoned, it has come to what it is abandoned for. -/
theorem blames_of_fault (hc : c.Valid) (hfault : g.run defs c = .fault reason) :
    g.Blames defs c reason :=
  (traced (explains_blames defs) (traced_ref defs _) g).checked (explains_blames defs) hc
    (fault_of_run hc hfault).1 hfault

/-! ## References that nest without an end -/

/-- References that nest too deep at some depth explain that a run does. -/
theorem explains_endless (defs : Definitions) (n : Nat) :
    defs.Explains fun g c reason => ∀ other, reason = .endlessReference other →
      ∃ name d, g.Asks defs c name d ∧ (defs.parser n name d).Endless where
  bounds h := by
    obtain ⟨min, max, -, -, rfl⟩ := bounds_of_fault? h
    rintro _ ⟨⟩
  call hcall hblames other hother := by
    obtain ⟨name, e, hasks, hendless⟩ := hblames other hother
    exact ⟨name, e, .call hcall hasks, hendless⟩

/-- A run that nests references too deep at some depth comes to a reference that does. -/
theorem asks_of_endless (hc : c.Valid) (h : (g.runTo defs n c).Endless) :
    ∃ name d, g.Asks defs c name d ∧ (defs.parser n name d).Endless := by
  obtain ⟨other, hother⟩ := h
  have hr : (Fault.endlessReference other).OfGrammar := trivial
  refine (traced (explains_endless defs n) ?_ g).checked (explains_endless defs n) hc hr
    hother other rfl
  rintro name - d _ - - hfault other rfl
  exact ⟨name, d, .refl _ _, other, hfault⟩

/-- A reference that nests too deep has a definition that does. -/
theorem definition_of_endless {name : String} (h : (defs.parser (n + 1) name d).Endless) :
    ∃ g, defs.lookup name = some g ∧ (g.runTo defs n d).Endless := by
  rw [Definitions.parser] at h
  cases hname : defs.lookup name with
  | none =>
    rw [hname] at h
    obtain ⟨other, hother⟩ := h
    cases hother
  | some g =>
    rw [hname] at h
    exact ⟨g, rfl, h⟩

/-- The references that a run comes to and that nest without an end. -/
def unending (defs : Definitions) (g : Grammar) (c : Cursor) : Set (String × Cursor) :=
  {s | g.Asks defs c s.1 s.2 ∧ ∀ n, (defs.parser n s.1 s.2).Endless}

/-- A reference that nests without an end nests another one that does. -/
theorem exists_nests_of_mem_unending (hc : c.Valid) {s : String × Cursor}
    (hs : s ∈ g.unending defs c) : ∃ t ∈ g.unending defs c, defs.Nests s t := by
  obtain ⟨hasks, hendless⟩ := hs
  have hd := hasks.inside hc
  obtain ⟨h, hname, hh⟩ := definition_of_endless (hendless (defs.depth s.2 + 1))
  obtain ⟨name, e, hask, hself⟩ := asks_of_endless (hd.valid hc) hh
  refine ⟨(name, e), ⟨hasks.trans (.call (.ref hname) hask), fun n => ?_⟩, h, hname, hask⟩
  exact ((Definitions.deepens_depth (hd.valid hc) n).extendsTo
    (hask.inside (hd.valid hc))).endless hself

/-- There are only so many of them, for each is a site. -/
theorem finite_unending (defs : Definitions) (g : Grammar) (hc : c.Valid) :
    (g.unending defs c).Finite := by
  refine ((defs.sites c).finite_toSet.image fun t => (t.1, c.placedAt t.2.1 t.2.2)).subset ?_
  rintro ⟨name, d⟩ ⟨hasks, hendless⟩
  have hd := hasks.inside hc
  obtain ⟨h, hname, -⟩ := definition_of_endless (hendless 1)
  have hsite := Definitions.mem_sites hd (Option.ne_none_iff_exists'.2 ⟨h, hname⟩)
  exact ⟨(name, d.position, d.limit), hsite, congrArg (Prod.mk name) hd.eq_placedAt⟩

/-- A run whose references nest without an end comes to one that nests in itself. -/
theorem nests_self_of_endless (hc : c.Valid) (h : (g.run defs c).Endless) :
    ∃ name d, g.Asks defs c name d ∧ defs.Nests (name, d) (name, d) := by
  -- If none did, to nest would be an order on finitely many references without a last one.
  by_contra hno
  have : Finite (g.unending defs c) := finite_unending defs g hc
  have : IsTrans (g.unending defs c) fun s t => defs.Nests t s := ⟨fun _ _ _ h h' => h'.trans h⟩
  have : Std.Irrefl fun s t : g.unending defs c => defs.Nests t s :=
    ⟨fun s hs => hno ⟨s.1.1, s.1.2, s.2.1, hs⟩⟩
  have horder : WellFounded fun s t : g.unending defs c => defs.Nests t s :=
    Finite.wellFounded_of_trans_of_irrefl _
  obtain ⟨name, d, hasks, hself⟩ := asks_of_endless hc h
  have hd := hasks.inside hc
  have hstart : (name, d) ∈ g.unending defs c :=
    ⟨hasks, fun n => ((Definitions.deepens_depth hc n).extendsTo hd).endless hself⟩
  obtain ⟨last, -, hlast⟩ := horder.has_min Set.univ ⟨⟨_, hstart⟩, trivial⟩
  obtain ⟨t, ht, hnests⟩ := exists_nests_of_mem_unending hc last.2
  exact hlast ⟨t, ht⟩ trivial hnests

/-- From the depth of a run on, the outcome is the same at every depth, unless the run comes to a
name whose definition comes back to the name, at the same position and under the same limit. -/
theorem run_eq_of_depth_or_nests (hc : c.Valid) (hn : defs.depth c ≤ n) :
    g.runTo defs n c = g.run defs c ∨
      ∃ name d, g.Asks defs c name d ∧ defs.Nests (name, d) (name, d) :=
  (run_eq_of_depth hc hn).imp_right fun hendless =>
    nests_self_of_endless hc (hendless (defs.depth c))

end Grammar

end Wire
