import Wire.Proofs.Correspondence.Grammar

/-!
# Locality

A grammar sees no more of a buffer than what its cursor leaves unread. From two cursors with the
same unread bytes it gives outcomes that are the same but for where they stand: all places in them,
those of tags included, are at the distance of the two cursors (`Grammar.run_shift`). Nothing before
the position and nothing from the limit on has an influence, so a run at one offset of two buffers
that agree there gives one outcome.
-/

namespace Wire

/-- Two cursors at a distance, with as much left to read. -/
structure Cursor.ShiftedBy (k : Int) (c d : Cursor) : Prop where
  position : (d.position : Int) = c.position + k
  limit : (d.limit : Int) = c.limit + k

/-- Two runs end in the same way: with related values at related cursors, with failures that say the
same about related places, or with the same fault. -/
inductive Outcome.Related {α β : Type} (V : α → β → Prop) (R : Cursor → Cursor → Prop) :
    Outcome α → Outcome β → Prop
  | success {v : α} {w : β} {r s : Cursor} :
    V v w → R r s → Related V R (.success v r) (.success w s)
  | failure {f g : Failure} : f.Related R g → Related V R (.failure f) (.failure g)
  | fault (reason : Fault) : Related V R (.fault reason) (.fault reason)

/-- The outcome of the same run in another buffer. -/
def Outcome.inBuffer {α : Type} (data : Buffer) : Outcome α → Outcome α
  | .success value rest => .success value { rest with data }
  | .failure cause => .failure { cause with remainder := { cause.remainder with data } }
  | .fault reason => .fault reason

/-- The twins inside two cursors correspond, and no fault is a loss. -/
def Correspondence.inside (k : Int) (c d : Cursor) : Correspondence k where
  rel c' d' := c'.Inside c ∧ d'.Inside d ∧ c'.Twin k d'
  lost _ := False
  twin h := h.2.2
  data h h' := ⟨h'.1.data.trans h.1.data.symm, h'.2.1.data.trans h.2.1.data.symm⟩
  inner h hc hd ht := ⟨h.1.trans hc, h.2.1.trans hd, ht⟩

section
variable {k : Int} {c d r s : Cursor} {f g : Failure} {o o' : Outcome Value}

/-- Related cursors of two buffers are at their distance. -/
theorem Correspondence.shiftedBy_of_inside (h : (inside k c d).rel r s) : r.ShiftedBy k s :=
  ⟨h.2.2.position, h.2.2.limit⟩

/-- Runs that correspond end in the same way, at one distance. -/
theorem Outcome.Corresponds.shiftedBy
    (h : o.Corresponds (Correspondence.inside k c d) (Value.ShiftedBy k) o') :
    o.Related (Value.ShiftedBy k) (Cursor.ShiftedBy k) o' := by
  cases h with
  | success hv hr => exact .success hv (Correspondence.shiftedBy_of_inside hr)
  | failure h =>
    exact .failure ⟨h.kind, h.message, h.expectations,
      Correspondence.shiftedBy_of_inside h.remainder⟩
  | fault reason => exact .fault reason
  | lost h => exact h.elim

/-- At no distance, corresponding cursors differ in their buffer only. -/
theorem Correspondence.eq_of_inside (h : (inside 0 c d).rel r s) :
    s = { r with data := d.data } := by
  have hposition := h.2.2.position
  have hlimit := h.2.2.limit
  have hdata := h.2.1.data
  obtain ⟨data, position, limit⟩ := s
  simp only [Cursor.mk.injEq]
  dsimp only at hposition hlimit hdata
  exact ⟨hdata, by omega, by omega⟩

/-- At no distance, corresponding outcomes differ in their buffer only. -/
theorem Outcome.Corresponds.eq_inBuffer
    (h : o.Corresponds (Correspondence.inside 0 c d) (Value.ShiftedBy 0) o') :
    o' = o.inBuffer d.data := by
  cases h with
  | success hv hr => rw [hv.eq_of_zero, Correspondence.eq_of_inside hr, inBuffer]
  | @failure f g h =>
    obtain ⟨kind, message, expectations, remainder⟩ := g
    obtain ⟨rfl, rfl, rfl, hr⟩ := h
    dsimp only at hr
    rw [Correspondence.eq_of_inside hr, inBuffer]
  | fault reason => rfl
  | lost h => exact h.elim

end

namespace Grammar

variable {defs : Definitions} {g : Grammar} {c d : Cursor}

/-- The runs of a grammar from twins end in the same way, inside the twins. -/
theorem run_related {k : Int} (hg : g.Restricted defs .untagged) (h : c.Twin k d) :
    (g.run defs c).Corresponds (Correspondence.inside k c d) (Value.ShiftedBy k)
      (g.run defs d) := by
  obtain ⟨refs, hg, hdefs⟩ := hg
  have hrel : (Correspondence.inside k c d).rel c d := ⟨.refl h.left, .refl h.right, h⟩
  have hdepth : defs.depth d = defs.depth c := by
    have := h.position
    have := h.limit
    unfold Definitions.depth
    congr 3
    omega
  have hmove := Permit.untagged_movable k
  have hnames :=
    Definitions.parser_related (R := Correspondence.inside k c d) hmove hdefs (defs.depth c)
  unfold run
  rw [hdepth]
  exact g.checked_related (g.parser_related hmove hnames hg) c d hrel

/-- The outcomes of a grammar from two cursors with the same unread bytes are the same but for the
distance of the two cursors, which is that of all the places in them. From the same position of two
buffers they are the same but for the buffer. A constant of a grammar is not parsed from any place,
so it must not have tags; and a run gives a value or a failure unless there is a fault in the
grammar. -/
theorem run_shift (hg : g.Restricted defs .untagged) (hc : c.Valid) (hd : d.Valid)
    (h : c.unread = d.unread) :
    (g.run defs c).Related (Value.ShiftedBy (d.position - c.position))
        (Cursor.ShiftedBy (d.position - c.position)) (g.run defs d) ∧
      (d.position = c.position → g.run defs d = (g.run defs c).inBuffer d.data) ∧
      ∀ reason, g.run defs c = .fault reason →
        reason.OfGrammar ∧ ¬ g.Restricted defs .faultless := by
  have htwin := Cursor.Twin.of_unread hc hd h
  refine ⟨(run_related hg htwin).shiftedBy, fun hp => ?_, fun reason => fault_of_run hc⟩
  rw [hp, Int.sub_self] at htwin
  exact (run_related hg htwin).eq_inBuffer

/-- A constant and the span of two bytes, read at two places of two buffers. -/
theorem run_shift_spanned :
    let g := Grammar.both (.constant (.int 7)) (.spanned (.bytes 2))
    let c : Cursor := ⟨.of #[1, 2, 3], 0, 2⟩
    let d : Cursor := ⟨.of #[9, 9, 1, 2], 2, 4⟩
    g.Restricted [] .untagged ∧ c.Valid ∧ d.Valid ∧ c.unread = d.unread ∧
      (g.run [] c).Related (Value.ShiftedBy 2) (Cursor.ShiftedBy 2) (g.run [] d) ∧
      g.run [] d = .success (.pair (.int 7) (.tagged (.ofBytes [1, 2]) [1, 2] 2))
        ⟨.of #[9, 9, 1, 2], 4, 4⟩ := by
  intro g c d
  have hg : g.Restricted [] .untagged := ⟨fun _ => False, ⟨.int 7, trivial⟩, ⟨nofun, nofun, nofun⟩⟩
  have hc : c.Valid := by decide
  have hd : d.Valid := by decide
  have h : c.unread = d.unread := by decide
  exact ⟨hg, hc, hd, h, (run_shift hg hc hd h).1, rfl⟩

end Grammar

end Wire
