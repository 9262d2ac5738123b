import Wire.Proofs.Trail.Commit
import Wire.Proofs.Trail.Repeated
import Wire.Proofs.Trail.Terminator

/-!
# Tilings

Spans tile a part of a buffer when each starts where the one before it stops and holds the bytes
that stand there, of which there is at least one (`Tiles`). Every repetition of a spanned parser
gives the values of a trail, without those of applications that stayed at their place, and such
values tile the part that the trail goes over (`Parser.Trail.tiles`): an application that stayed
took no byte, and where it leaves off the position is the same, whatever it did to the limit. So no
repetition loses a byte or gives one twice (`Parser.spans_tile`). Offsets are those of the buffer,
also in a window.
-/

namespace Wire

variable {α β : Type}

/-- Spans that stand one behind the other in a buffer, from an offset up to another. -/
inductive Tiles (data : Buffer) : Nat → List (Spanned α) → Nat → Prop
  | nil (a : Nat) : Tiles data a [] a
  | cons {a b : Nat} {s : Spanned α} {ss : List (Spanned α)} :
    s.start = a → s.bytes ≠ [] → s.bytes = (data.bytes.extract s.start s.stop).toList →
      Tiles data s.stop ss b → Tiles data a (s :: ss) b

namespace Tiles

variable {data : Buffer} {a b : Nat} {ss : List (Spanned α)}

/-- Tiles do not go back. -/
theorem le (h : Tiles data a ss b) : a ≤ b := by
  induction h with
  | nil => exact le_rfl
  | cons hstart _ _ _ ih => exact hstart ▸ le_trans (Nat.le_add_right _ _) ih

/-- Spans that tile a part of a buffer hold the bytes of that part, in order. -/
theorem flatMap_bytes (h : Tiles data a ss b) :
    ss.flatMap Spanned.bytes = (data.bytes.extract a b).toList := by
  induction h with
  | nil a => simp
  | @cons a b s ss hstart _ hbytes hrest ih =>
    have hfirst : s.start ≤ s.stop := Nat.le_add_right _ _
    rw [← hstart, List.flatMap_cons, ih, hbytes, ← Array.toList_append,
      Array.extract_append_extract, min_eq_left hfirst, max_eq_right hrest.le]

end Tiles

namespace Parser

open Application (movedValues movedValues_cons movedValues_of_forward)

variable {p : Parser α} {t : Parser β} {c d : Cursor}

/-! ## One span -/

/-- The bytes up to a cursor and from there on are the bytes up to the second one. -/
theorem span_append {e : Cursor} (h : d.Inside c) (h' : e.Inside d) :
    c.span d ++ d.span e = c.span e := by
  rw [Cursor.span, Cursor.span, h.data, ← Array.toList_append, Array.extract_append_extract,
    min_eq_left h.start, max_eq_right h'.start]
  rfl

/-- There are as many bytes up to a cursor as there are positions. -/
theorem length_span (hc : c.Valid) (h : d.Inside c) :
    (c.span d).length = d.position - c.position := by
  have hlength := Cursor.length_unread hc
  have := h.order
  have := h.stop
  rw [Cursor.span_of_inside hc h, List.length_take]
  omega

/-- A span stops where the parser did. -/
theorem stop_span (v : α) (hc : c.Valid) (h : d.Inside c) :
    (⟨v, c.span d, c.position⟩ : Spanned α).stop = d.position := by
  change c.position + (c.span d).length = d.position
  rw [length_span hc h, Nat.add_sub_cancel' h.start]

/-- Spans that tile, with one more in front of them. -/
theorem tiles_cons_span {v : α} {ss : List (Spanned α)} {b : Nat} (hc : c.Valid) (h : d.Inside c)
    (hforward : c.position < d.position) (hrest : Tiles c.data d.position ss b) :
    Tiles c.data c.position (⟨v, c.span d, c.position⟩ :: ss) b := by
  have hstop := stop_span v hc h
  refine .cons rfl ?_ ?_ ?_
  · rw [← List.length_pos_iff, length_span hc h]
    exact Nat.sub_pos_of_lt hforward
  · rw [hstop]
    rfl
  · rwa [hstop]

/-- A value is kept with the bytes that its parser took and the place where it started. -/
theorem spanned_of_success {v : α} (hc : c.Valid) (hv : p c = .success v d) (hd : d.Inside c) :
    p.spanned c = .success ⟨v, c.span d, c.position⟩ d := by
  have hinside : ∀ v' d', p c = .success v' d' → d'.Inside c := by
    intro v' d' h
    rw [hv] at h
    cases h
    exact hd
  rw [spanned_eq hc hinside, hv, Cursor.span_of_inside hc hd]
  rfl

section
variable (hp : p.Conforming)
include hp

/-- A parser with its bytes succeeds as the parser does, with the bytes up to its end. -/
theorem spanned_eq_success_iff (hc : c.Valid) {s : Spanned α} :
    p.spanned c = .success s d ↔
      ∃ v, p c = .success v d ∧ s = ⟨v, c.span d, c.position⟩ := by
  constructor
  · intro h
    rw [spanned_eq hc fun v d => hp c v d hc] at h
    obtain ⟨v, e, hv, he⟩ := Outcome.bind_eq_success_iff.1 h
    cases he
    exact ⟨v, hv, by rw [Cursor.span_of_inside hc (hp c v d hc hv)]⟩
  · rintro ⟨v, hv, rfl⟩
    exact spanned_of_success hc hv (hp c v d hc hv)

/-- A parser with its bytes stays inside its start. -/
theorem Conforming.spanned : p.spanned.Conforming := by
  intro c s d hc h
  obtain ⟨v, hv, -⟩ := (spanned_eq_success_iff hp hc).1 h
  exact hp c v d hc hv

/-! ## Spans of a trail -/

/-- The values of a trail of a spanned parser tile what the trail goes over, without those of
applications that stayed at their place. -/
theorem Trail.tiles {as : List (Application (Spanned α))} (h : p.spanned.Trail c as d)
    (hc : c.Valid) : Tiles c.data c.position (movedValues as) d.position := by
  induction h with
  | nil => exact .nil _
  | @cons c d e s as hs _ ih =>
    obtain ⟨v, hv, rfl⟩ := (spanned_eq_success_iff hp hc).1 hs
    have hinside := hp c v d hc hv
    have hrest := ih (hinside.valid hc)
    rw [hinside.data] at hrest
    rw [movedValues_cons, Application.moved]
    cases hplace : d.samePlace c with
    | true =>
      -- The application took nothing, so the tiling goes on from the same offset.
      rwa [Cursor.position_eq_of_samePlace hplace] at hrest
    | false => exact tiles_cons_span hc hinside (hinside.lt_of_not_samePlace hplace) hrest

end

/-! ## Repetitions -/

/-- The spans that a parser gives at a cursor tile what it takes there, and their bytes are together
those of the span of the whole. -/
def TilesAt (q : Parser (List (Spanned α))) (c : Cursor) : Prop :=
  ∀ ss r, q c = .success ss r →
    Tiles c.data c.position ss r.position ∧ ss.flatMap Spanned.bytes = c.span r ∧
      q.spanned c = .success ⟨ss, ss.flatMap Spanned.bytes, c.position⟩ r

/-- A parser that gives the moved values of trails of a spanned parser tiles. -/
theorem tilesAt_of_trail (hp : p.Conforming) (hc : c.Valid) {q : Parser (List (Spanned α))}
    (h : ∀ ss r, q c = .success ss r → ∃ as, p.spanned.Trail c as r ∧ ss = movedValues as) :
    q.TilesAt c := by
  intro ss r hq
  obtain ⟨as, htrail, rfl⟩ := h ss r hq
  have htiles := htrail.tiles hp hc
  refine ⟨htiles, htiles.flatMap_bytes, ?_⟩
  rw [htiles.flatMap_bytes]
  exact spanned_of_success hc hq (htrail.inside hp.spanned hc)

/-- The spans that a repetition of a spanned parser gives are not empty and stand one behind the
other, from where the repetition starts up to where it stops, and their bytes are together those of
the span of the whole repetition. Those that `upTo` gives stand one behind the other up to where the
span of the terminator starts, which stands behind them and completes what `upTo` takes. -/
theorem spans_tile (hp : p.Conforming) (hc : c.Valid) :
    (many p.spanned).TilesAt c ∧ (manyCommit p.spanned).TilesAt c ∧
      (∀ bounds, (repeated p.spanned bounds).TilesAt c) ∧
      ∀ t : Parser β, t.Conforming → ∀ ss r, upTo p.spanned t.spanned c = .success ss r →
        ∃ as d w, p.spanned.Approach t.spanned c as d ∧ ss = as.map Application.value ∧
          t.spanned d = .success w r ∧ w.start = d.position ∧
          Tiles c.data c.position ss w.start ∧
          ss.flatMap Spanned.bytes ++ w.bytes = c.span r := by
  have hmany : ∀ ss r, many p.spanned c = .success ss r →
      ∃ as, p.spanned.Trail c as r ∧ ss = movedValues as :=
    fun ss r h => trail_of_many hp.spanned hc h
  refine ⟨tilesAt_of_trail hp hc hmany, ?_, fun bounds => ?_, fun t ht ss r h => ?_⟩
  · exact tilesAt_of_trail hp hc fun ss r h => hmany ss r (many_of_manyCommit h)
  · refine tilesAt_of_trail hp hc fun ss r h => ?_
    obtain ⟨as, htrail, hvalues, -⟩ := trail_of_repeated h
    exact ⟨as, htrail, hvalues⟩
  · obtain ⟨as, d, w, happroach, hw, rfl⟩ := approach_of_upTo hp.spanned hc h
    have hinside := happroach.trail.inside hp.spanned hc
    have htiles := happroach.trail.tiles hp hc
    rw [movedValues_of_forward happroach.forward] at htiles
    obtain ⟨v, hv, rfl⟩ := (spanned_eq_success_iff ht (hinside.valid hc)).1 hw
    refine ⟨as, d, _, happroach, rfl, hw, rfl, htiles, ?_⟩
    rw [htiles.flatMap_bytes]
    exact span_append hinside (ht d v r (hinside.valid hc) hv)

/-- Two bytes that may be missing, in a part of a buffer: four applications give two spans, for the
last two took nothing, and the terminator starts where the second span stops. -/
theorem spans_tile_optional :
    let p : Parser (List UInt8) := orElse (sequence [1, 2]) (pure [])
    let t := exactly 9
    let c : Cursor := ⟨.of #[0, 1, 2, 1, 2, 9, 8], 1, 6⟩
    let spans : List (Spanned (List UInt8)) := [⟨[1, 2], [1, 2], 1⟩, ⟨[1, 2], [1, 2], 3⟩]
    p.Conforming ∧ t.Conforming ∧ c.Valid ∧
      (repeated p.spanned (.exactly 4)).spanned c =
        .success ⟨spans, [1, 2, 1, 2], 1⟩ (c.advance 4) ∧
      upTo p.spanned t.spanned c = .success spans (c.advance 5) ∧
      ∃ w : Spanned UInt8, t.spanned (c.advance 4) = .success w (c.advance 5) ∧
        Tiles c.data 1 spans w.start ∧ [1, 2, 1, 2] ++ w.bytes = [1, 2, 1, 2, 9] := by
  intro p t c spans
  have hr := Discipline.confined_lawful True fun _ => True
  have hp : p.Conforming :=
    ((obeys_sequence hr [1, 2]).choose hr (obeys_pure []) .never).conforming
  have ht : t.Conforming := (obeys_byteWhere hr _ _).conforming
  have hc : c.Valid := by decide
  have hrepeated : repeated p.spanned (.exactly 4) c = .success spans (c.advance 4) := by decide
  have hterminator : t.spanned (c.advance 4) = .success ⟨9, [9], 5⟩ (c.advance 5) := by decide
  have hall : p.spanned.Approach t.spanned c
      [⟨⟨[1, 2], [1, 2], 1⟩, c, c.advance 2⟩, ⟨⟨[1, 2], [1, 2], 3⟩, c.advance 2, c.advance 4⟩]
      (c.advance 4) := by
    refine ⟨.cons rfl (.cons rfl (.nil _)), ?_, by decide, fun f v e hf _ => ?_⟩
    · simp only [List.forall_mem_cons]
      exact ⟨⟨_, rfl⟩, ⟨_, rfl⟩, nofun⟩
    · rw [hterminator] at hf
      cases hf
  have hupTo := upTo_of_success hp.spanned hc hall hterminator
  obtain ⟨-, -, hspans, hfinal⟩ := spans_tile (β := UInt8) hp hc
  obtain ⟨as, d, w, happroach, -, hw, -, htiles, hbytes⟩ := hfinal t ht _ _ hupTo
  obtain ⟨-, rfl⟩ := happroach.unique hall
  exact ⟨hp, ht, hc, (hspans _ _ _ hrepeated).2.2, hupTo, w, hw, htiles, hbytes⟩

end Parser

end Wire
