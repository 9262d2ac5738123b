import Mathlib.Algebra.Group.Nat.Defs
import Wire.Failure.Context
import Wire.Proofs.Faults.Grammar

/-!
# Safety

A run asks for nothing that has no answer. Every byte and every span that it reads lies in the
buffer, no cursor stands behind its limit, and every number is made of as many bytes as it is wide,
for each of these would end the run with a fault of its own (`Grammar.fault_of_run`). What is left
are the faults that are a matter of the grammar, and of the values that its continuations use:
bounds that are the wrong way round, and references that lead nowhere. A run that comes to neither
ends with a value or a failure (`Grammar.Answerable.ends`). The dump of a failure lies in the buffer
as well (`Failure.context_eq_ok`), and where a position is added to, the sum is a word of 64 bits or
may be cut off at the greatest one (`Cursor.inWords`).
-/

namespace Wire

/-! ## The dump of a failure -/

namespace Failure

variable {f : Failure}

/-- The bytes that the dump shows are a part of the buffer. -/
theorem contextStart_le (h : f.remainder.Valid) :
    f.contextStart ≤ min (f.position + 9) f.remainder.data.size ∧
      min (f.position + 9) f.remainder.data.size ≤ f.remainder.data.size := by
  have hposition : f.position ≤ f.remainder.data.size := le_trans h.1 h.2
  unfold contextStart
  omega

/-- The bytes of a dump are a part of the buffer, from its start to its stop. -/
theorem contextBytes_eq (h : f.remainder.Valid) :
    f.contextBytes = .ok (f.remainder.data.bytes.extract f.contextStart
      (min (f.position + 9) f.remainder.data.size)).toList :=
  if_pos (contextStart_le h)

/-- The bytes around a failure of a run can always be shown. -/
theorem context_eq_ok (h : f.remainder.Valid) : ∃ text, f.context = .ok text := by
  unfold context contextTokens
  rw [contextBytes_eq h]
  exact ⟨_, rfl⟩

end Failure

/-! ## Words -/

/-- A sum of two words, cut off at the greatest word. -/
def saturatingSum (m n : Nat) : Nat :=
  min (m + n) (2 ^ 64 - 1)

/-- The moves of a cursor are those of a machine with words of 64 bits: the next position is a word,
and a sum that is cut off at the greatest word is not cut off before the limit. -/
structure Cursor.InWords (c : Cursor) : Prop where
  next : c.atEnd = false → c.position + 1 < 2 ^ 64
  skip (count : Nat) :
    c.skip count = { c with position := min (saturatingSum c.position count) c.limit }
  windowed (size : Nat) :
    c.windowed size = { c with limit := min (saturatingSum c.position size) c.limit }

/-- A limit that is a word is enough, wherever the position is. -/
theorem Cursor.inWords {c : Cursor} (h : c.limit < 2 ^ 64) : c.InWords := by
  have hmin (n : Nat) :
      min (saturatingSum c.position n) c.limit = min (c.position + n) c.limit := by
    unfold saturatingSum
    omega
  refine ⟨fun hend => ?_, fun n => ?_, fun n => ?_⟩
  · have hlt : ¬ c.limit ≤ c.position := by rw [← atEnd_iff, hend]; decide
    omega
  · rw [hmin, Cursor.skip]
  · rw [hmin, Cursor.windowed]

/-! ## Runs over a buffer -/

namespace Grammar

variable {defs : Definitions} {g : Grammar} {c : Cursor}

/-- All that a run comes to can be answered: repetitions are put together with bounds that are the
right way round, those included whose bounds a continuation takes from a value, and the names of
references have a definition that does not come back to the name at the same place. -/
structure Answerable (defs : Definitions) (g : Grammar) (c : Cursor) : Prop where
  bounds (min max : Nat) : g.Builds defs c min max → min ≤ max
  defined (name : String) (d : Cursor) : g.Asks defs c name d → defs.lookup name ≠ none
  ending (name : String) (d : Cursor) : g.Asks defs c name d → ¬ defs.Nests (name, d) (name, d)

/-- A run that comes only to what can be answered is not abandoned. -/
theorem Answerable.ne_fault (h : g.Answerable defs c) (hc : c.Valid) (reason : Fault) :
    g.run defs c ≠ .fault reason := by
  intro hfault
  cases blames_of_fault hc hfault with
  | bounds hbuilds hlt => exact absurd (h.bounds _ _ hbuilds) (Nat.not_le_of_lt hlt)
  | undefined hasks hname => exact h.defined _ _ hasks hname
  | endless =>
    obtain ⟨name, d, hasks, hnests⟩ := nests_self_of_endless hc ⟨_, hfault⟩
    exact h.ending name d hasks hnests

/-- Such a run ends with a value or a failure. -/
theorem Answerable.ends (h : g.Answerable defs c) (hc : c.Valid) :
    (∃ v rest, g.run defs c = .success v rest) ∨ ∃ f, g.run defs c = .failure f := by
  cases hrun : g.run defs c with
  | success v rest => exact .inl ⟨v, rest, rfl⟩
  | failure f => exact .inr ⟨f, rfl⟩
  | fault reason => exact absurd hrun (h.ne_fault hc reason)

end Grammar

/-- A run over a buffer of less than 2⁶³ bytes ends with a value or a failure when all that it comes
to can be answered. When it is abandoned, then for bounds that are the wrong way round and that it
came to, or for a reference that it came to, whose name has no definition or nests without an end
because a name comes back to itself at the same place; a grammar that needs no such care is never
abandoned. The place of a failure is inside the buffer, where its dump can be made, and neither the
moves of the cursors on the way nor the end of the dump need a sum that is not a word. -/
theorem Grammar.tryParse_safe (defs : Definitions) (g : Grammar) {data : Buffer}
    (hsize : data.size < 2 ^ 63) :
    (g.Answerable defs (.ofBuffer data) →
      (∃ v rest, tryParse (g.run defs) data = .success v rest) ∨
        ∃ f, tryParse (g.run defs) data = .failure f) ∧
      (∀ reason, tryParse (g.run defs) data = .fault reason →
        ¬ g.Restricted defs .faultless ∧ g.Blames defs (.ofBuffer data) reason ∧
        ∀ name, reason = .endlessReference name →
          ∃ other d, g.Asks defs (.ofBuffer data) other d ∧ defs.Nests (other, d) (other, d)) ∧
      (∀ v rest, tryParse (g.run defs) data = .success v rest → rest.Inside (.ofBuffer data)) ∧
      (∀ f, tryParse (g.run defs) data = .failure f →
        f.remainder.Inside (.ofBuffer data) ∧
        f.contextStart ≤ min (f.position + 9) data.size ∧ f.position + 9 < 2 ^ 64 ∧
        ∃ text, f.context = .ok text) ∧
      ∀ c : Cursor, c.limit ≤ data.size → c.InWords := by
  have hc := Cursor.ofBuffer_valid data
  have hrun := run_obeys_confined defs g (.ofBuffer data) hc
  unfold tryParse Parser.run
  refine ⟨fun hanswer => hanswer.ends hc, fun reason h => ?_, fun v rest h => ?_, fun f h => ?_,
    fun c hlimit => Cursor.inWords (by omega)⟩
  · refine ⟨(fault_of_run hc h).2, blames_of_fault hc h, ?_⟩
    rintro name rfl
    exact nests_self_of_endless hc ⟨name, h⟩
  · rw [h] at hrun
    exact hrun.inside
  · rw [h] at hrun
    have hinside : f.remainder.Inside (.ofBuffer data) := hrun.1
    have hvalid := hinside.valid hc
    have hdata : f.remainder.data = data := hinside.data
    have hposition : f.position ≤ f.remainder.data.size := le_trans hvalid.1 hvalid.2
    have hshown := (Failure.contextStart_le hvalid).1
    rw [hdata] at hposition hshown
    exact ⟨hinside, hshown, by omega, Failure.context_eq_ok hvalid⟩

/-- A repetition whose least count is read from the buffer, through a reference, and is not above
the greatest one, but asks for more bytes than there are. -/
theorem Grammar.tryParse_safe_count :
    let g := Grammar.andThen (.ref "count") (.repeatedUpTo .byte 3)
    let defs : Definitions := [("count", .byte)]
    let data : Buffer := .of #[2, 9]
    let f := Failure.boundedCountUnmet 2 3 1
      ((Failure.endOfInput ⟨data, 2, 2⟩).expecting "any byte") none ⟨data, 1, 2⟩
    data.size < 2 ^ 63 ∧ g.Answerable defs (.ofBuffer data) ∧
      ((∃ v rest, tryParse (g.run defs) data = .success v rest) ∨
        ∃ f, tryParse (g.run defs) data = .failure f) ∧
      tryParse (g.run defs) data = .failure f ∧ f.position + 9 < 2 ^ 64 ∧
      f.remainder.Inside (.ofBuffer data) ∧ ∃ text, f.context = .ok text := by
  intro g defs data f
  have hsize : data.size < 2 ^ 63 := by decide
  have hrun : tryParse (g.run defs) data = .failure f := rfl
  -- The run comes to itself, the reference and its definition, and the repetition of two or three.
  let reached (h : Grammar) (d : Cursor) : Prop :=
    h = g ∧ d = .ofBuffer data ∨ h = .ref "count" ∨ h = .byte ∨ h = .repeated .byte 2 3
  have hreached (h : Grammar) (d : Cursor) (hreach : g.Reaches defs (.ofBuffer data) h d) :
      reached h d := by
    refine hreach.kept (fun h c k d hcall hh => ?_) (.inl ⟨rfl, rfl⟩)
    rcases hh with ⟨rfl, rfl⟩ | rfl | rfl | rfl
    · change Calls defs (.andThen (.ref "count") (.repeatedUpTo .byte 3)) _ k d at hcall
      cases hcall with
      | first hfirst =>
        cases hfirst
        exact .inr (.inl rfl)
      | andThen hv =>
        have hcount : (Grammar.ref "count").run defs (.ofBuffer data) =
          .success (.int 2) ⟨data, 1, 2⟩ := rfl
        rw [hcount] at hv
        cases hv
        exact .inr (.inr (.inr rfl))
    · cases hcall with
      | first hfirst => cases hfirst
      | ref hname =>
        cases hname
        exact .inr (.inr (.inl rfl))
    · cases hcall with
      | first hfirst => cases hfirst
    · cases hcall with
      | first hfirst => cases hfirst
      | repeated => exact .inr (.inr (.inl rfl))
  have hcount (name : String) (d : Cursor) (hasks : g.Asks defs (.ofBuffer data) name d) :
      name = "count" := by
    rcases hreached _ d hasks with ⟨hg, -⟩ | hname | hbyte | hrepeated
    · exact Grammar.noConfusion hg
    · cases hname
      rfl
    · cases hbyte
    · cases hrepeated
  have hanswer : g.Answerable defs (.ofBuffer data) := by
    refine ⟨fun min max hbuilds => ?_, fun name d hasks => ?_, fun name d hasks hnests => ?_⟩
    · obtain ⟨h, d, hreach, hmem⟩ := hbuilds
      rcases hreached h d hreach with ⟨rfl, -⟩ | rfl | rfl | rfl
      · cases hmem
      · cases hmem
      · cases hmem
      · have hbounds : (min, max) = (2, 3) := List.mem_singleton.1 hmem
        cases hbounds
        decide
    · rw [hcount name d hasks]
      exact nofun
    · obtain ⟨h, hname, hself⟩ := hnests
      rw [hcount name d hasks] at hname
      cases hname
      cases hself with
      | call hcall =>
        cases hcall with
        | first hfirst => cases hfirst
  obtain ⟨hends, -, -, hfailure, -⟩ := tryParse_safe defs g hsize
  obtain ⟨hinside, -, hwords, hcontext⟩ := hfailure f hrun
  exact ⟨hsize, hanswer, hends hanswer, hrun, hwords, hinside, hcontext⟩

end Wire
