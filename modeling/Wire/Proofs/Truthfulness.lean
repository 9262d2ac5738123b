import Wire.Proofs.Discipline.Grammar

/-!
# Truthful failures

The kind of a failure says what a run met, and it is so (`Failure.Truthful`): the end of input is at
the limit of the run, the end of a window is before it, and an unexpected byte is one of the bytes
before the limit, the one that the message names. A grammar that neither makes failures of its own
nor lowers the limit for what follows fails truthfully (`Grammar.run_truthful`). What carries this
through nested windows is that the limit of a window is the limit around it or lies before it, and
that `relabel` tells the two apart (`Failure.Truthful.relabel`).
-/

namespace Wire

/-- What the kind of a failure says about the input of a run from a cursor is so. -/
structure Failure.Truthful (f : Failure) (c : Cursor) : Prop where
  endOfInput : f.kind = .endOfInput → f.position = c.limit
  windowOverrun : f.kind = .windowOverrun → f.position < c.limit
  unexpectedByte : f.kind = .unexpectedByte → f.position < c.limit ∧
    ∃ b, c.data.bytes[f.position]? = some b ∧ f.message = "unexpected '" ++ Hex.byte .upper b ++ "'"

namespace Failure.Truthful

variable {c d : Cursor} {f g : Failure}

/-- The truth of a failure does not depend on its expectations. -/
theorem congr (h : f.Truthful c) (hkind : g.kind = f.kind) (hmessage : g.message = f.message)
    (hremainder : g.remainder = f.remainder) : g.Truthful c := by
  have hposition : g.position = f.position := congrArg Cursor.position hremainder
  constructor
  · rw [hkind, hposition]
    exact h.endOfInput
  · rw [hkind, hposition]
    exact h.windowOverrun
  · rw [hkind, hmessage, hposition]
    exact h.unexpectedByte

/-- One more expectation keeps a failure truthful. -/
theorem expecting (h : f.Truthful c) (expectation : String) :
    (f.expecting expectation).Truthful c := by
  unfold Failure.expecting
  split
  · exact h
  · exact h.congr rfl rfl rfl

/-- More expectations keep a failure truthful. -/
theorem expectingAll (h : f.Truthful c) (expectations : List String) :
    (f.expectingAll expectations).Truthful c := by
  rw [expectingAll_eq]
  exact h.congr rfl rfl rfl

/-- Of two truthful failures, the one that is kept or merged is truthful. -/
theorem furthest (hf : f.Truthful c) (hg : g.Truthful c) : (f.furthest g).Truthful c := by
  unfold Failure.furthest
  split
  · exact hg
  · split
    · exact hf.expectingAll _
    · exact hf

/-- What is so of a run is so of every run over the same bytes up to the same limit. -/
theorem later (h : f.Truthful d) (hdata : d.data = c.data) (hlimit : d.limit = c.limit) :
    f.Truthful c := by
  constructor
  · rw [← hlimit]
    exact h.endOfInput
  · rw [← hlimit]
    exact h.windowOverrun
  · rw [← hlimit, ← hdata]
    exact h.unexpectedByte

/-- A failure in a window, as it is told outside of the window: the end of a window that is cut
short by the limit is the end of input there as well, and any other end of a window is relabelled. -/
theorem relabel {size : Nat} (h : f.Truthful (c.windowed size)) :
    (Parser.relabel (c.windowed size) c f).Truthful c := by
  have hle : (c.windowed size).limit ≤ c.limit := min_le_right _ _
  unfold Parser.relabel
  split
  · next hend =>
    obtain ⟨-, hposition, hlt⟩ := hend
    refine ⟨nofun, fun _ => ?_, nofun⟩
    change f.position < c.limit
    omega
  · next hend =>
    refine ⟨fun hkind => ?_, fun hkind => ?_, fun hkind => ?_⟩
    · have hposition := h.endOfInput hkind
      have : ¬ (c.windowed size).limit < c.limit := fun hlt => hend ⟨hkind, hposition, hlt⟩
      omega
    · exact lt_of_lt_of_le (h.windowOverrun hkind) hle
    · obtain ⟨hlt, hbyte⟩ := h.unexpectedByte hkind
      exact ⟨lt_of_lt_of_le hlt hle, hbyte⟩

/-- A failure of one of the kinds that say nothing about the input. -/
theorem of_kind (h : f.kind ≠ .unexpectedByte ∧ f.kind ≠ .endOfInput ∧ f.kind ≠ .windowOverrun) :
    f.Truthful c :=
  ⟨fun hkind => (h.2.1 hkind).elim, fun hkind => (h.2.2 hkind).elim,
    fun hkind => (h.1 hkind).elim⟩

/-- No byte is left at a cursor just when it stands at its limit. -/
theorem of_endOfInput (hc : c.Valid) (hu : c.unread = []) :
    (Failure.endOfInput c).Truthful c := by
  have hlimit := (Cursor.unread_eq_nil_iff hc).1 hu
  exact ⟨fun _ => le_antisymm hc.1 hlimit, nofun, nofun⟩

/-- The byte that is not accepted is the next one, and its digits are in the message. -/
theorem of_unexpectedByte (hc : c.Valid) {b : UInt8} {bs : List UInt8} (hu : c.unread = b :: bs) :
    (Failure.unexpectedByte b c).Truthful c := by
  refine ⟨nofun, nofun, fun _ => ?_⟩
  obtain ⟨hlt, hbyte⟩ := Cursor.getElem?_of_unread hc hu
  exact ⟨hlt, b, hbyte, rfl⟩

end Failure.Truthful

/-- The discipline of failing truthfully, under an unchanged limit. -/
def Discipline.truthful : Discipline where
  keepsLimit := True
  mayFault := Fault.OfGrammar
  mayFail c f := f.Truthful c

/-- To fail truthfully is a lawful discipline. -/
theorem Discipline.truthful_lawful : truthful.Lawful where
  later hd h := h.later hd.inside.data (hd.limit trivial)
  endOfInput := .of_endOfInput
  unexpectedByte hc hu := .of_unexpectedByte hc hu
  refusal _ h := .of_kind h.kind
  expecting expectation h := h.expecting expectation
  relabel _ _ _ h := h.relabel
  furthest := .furthest

/-- A permit for all but lowering the limit for what follows and making a failure. -/
def Permit.plain : Permit where
  narrow := False
  fail := False

/-- Truthfulness allows all but lowering the limit and making a failure. -/
theorem Permit.plain_fits : plain.Fits .truthful where
  lawful := Discipline.truthful_lawful
  narrow := nofun
  fail := nofun
  fault _ := id

namespace Grammar

variable {defs : Definitions} {g : Grammar}

/-- What a failure says about the input is so, whichever windows the grammar is made of; in
particular the end of input is reported of a whole buffer only at its end. -/
theorem run_truthful (hg : g.Restricted defs .plain) :
    (∀ (c : Cursor) (f : Failure), c.Valid → g.run defs c = .failure f → f.Truthful c) ∧
      ∀ (data : Buffer) (f : Failure), tryParse (g.run defs) data = .failure f →
        f.kind = .endOfInput → f.position = data.size := by
  have htruthful (c : Cursor) (f : Failure) (hc : c.Valid) (h : g.run defs c = .failure f) :
      f.Truthful c := by
    have hrun := run_obeys Permit.plain_fits hg c hc
    rw [h] at hrun
    exact hrun.2
  refine ⟨htruthful, fun data f h hkind => ?_⟩
  exact (htruthful (.ofBuffer data) f (Cursor.ofBuffer_valid data) h).endOfInput hkind

/-- A window that the buffer cuts short around one that ends before it: the end of the inner one is
an overrun, and a byte behind it is missing at the end of the buffer. -/
theorem run_truthful_nested :
    let g := Grammar.within 9 (.orElse (.within 1 (.sequence [1, 2])) (.sequence [1, 3, 4]))
    let data : Buffer := .of #[1, 3]
    let f : Failure := ⟨.endOfInput, "Unexpected end of input reached", ["04"], ⟨data, 2, 2⟩⟩
    g.Restricted [] .plain ∧ tryParse (g.run []) data = .failure f ∧ f.kind = .endOfInput ∧
      f.position = data.size ∧ f.Truthful (.ofBuffer data) := by
  intro g data f
  have hg : g.Restricted [] .plain :=
    ⟨fun _ => False, ⟨trivial, trivial⟩, ⟨nofun, nofun, nofun⟩⟩
  have hrun : tryParse (g.run []) data = .failure f := rfl
  obtain ⟨htruthful, hend⟩ := run_truthful hg
  exact ⟨hg, hrun, rfl, hend data f hrun rfl,
    htruthful _ f (Cursor.ofBuffer_valid data) hrun⟩

end Grammar

end Wire
