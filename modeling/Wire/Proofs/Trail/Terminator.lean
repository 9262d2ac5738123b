import Mathlib.Data.Nat.Find
import Mathlib.Order.Bounds.Basic
import Wire.Proofs.Bytes.Literal
import Wire.Proofs.Trail.Many

/-!
# Up to a terminator

`upTo` applies its parser for as long as the terminator fails and the parser moves on. These
applications are an approach (`Parser.Approach`), and the approach is the chain of the parser
guarded by the terminator (`Parser.chain_butNot_iff`), so there is just one from every cursor. Where
it ends, the terminator has the last word: its success ends the whole, and its failure is that of
the whole, never the failure of the parser (`Parser.upTo_stops_first`). With any byte as the parser
and given bytes as the terminator, these are the bytes before the first place where the given ones
stand.
-/

namespace Wire.Parser

variable {α β : Type}

/-- Applications that each start where a terminator fails and take the position up, and after which
the terminator does not fail or the parser does not move on. -/
structure Approach (p : Parser α) (t : Parser β) (c : Cursor) (as : List (Application α))
    (d : Cursor) : Prop where
  trail : p.Trail c as d
  unstopped : ∀ a ∈ as, ∃ f, t a.start = .failure f
  forward : ∀ a ∈ as, a.start.position < a.stop.position
  last : ∀ f v e, t d = .failure f → p d = .success v e → e.position = d.position

variable {p : Parser α} {t : Parser β} {c d e : Cursor} {as : List (Application α)} {v : α}
  {f : Failure} {reason : Fault}

/-! ## A guarded parser -/

/-- Where the guard fails, a guarded parser is the parser. -/
theorem butNot_of_failure (ht : t d = .failure f) : butNot p t d = p d := by
  unfold butNot
  rw [ht]

/-- Where the guard succeeds, a guarded parser fails. -/
theorem butNot_of_success {w : β} (ht : t d = .success w e) :
    butNot p t d = .failure (.negativeLookahead d) := by
  unfold butNot
  rw [ht]

/-- Where the guard is abandoned, so is a guarded parser. -/
theorem butNot_of_fault (ht : t d = .fault reason) : butNot p t d = .fault reason := by
  unfold butNot
  rw [ht]

/-- A guarded parser succeeds where the guard fails and the parser succeeds. -/
theorem butNot_success_iff :
    butNot p t d = .success v e ↔ (∃ f, t d = .failure f) ∧ p d = .success v e := by
  constructor
  · intro h
    cases ht : t d with
    | success w r =>
      rw [butNot_of_success ht] at h
      cases h
    | failure f =>
      rw [butNot_of_failure ht] at h
      exact ⟨⟨f, rfl⟩, h⟩
    | fault reason =>
      rw [butNot_of_fault ht] at h
      cases h
  · rintro ⟨⟨f, ht⟩, hv⟩
    rw [butNot_of_failure ht, hv]

/-- A guarded parser stays inside its start when the parser does. -/
theorem Conforming.butNot (hp : p.Conforming) (t : Parser β) : (butNot p t).Conforming := by
  intro c v d hc h
  exact hp c v d hc (butNot_success_iff.1 h).2

/-- A trail of a guarded parser is one of the parser, and starts nowhere where the guard does not
fail. -/
theorem trail_butNot_iff :
    (butNot p t).Trail c as d ↔ p.Trail c as d ∧ ∀ a ∈ as, ∃ f, t a.start = .failure f := by
  constructor
  · intro h
    induction h with
    | nil => exact ⟨.nil _, nofun⟩
    | cons hv _ ih =>
      obtain ⟨hunstopped, hv⟩ := butNot_success_iff.1 hv
      exact ⟨.cons hv ih.1, List.forall_mem_cons.2 ⟨hunstopped, ih.2⟩⟩
  · rintro ⟨h, hunstopped⟩
    induction h with
    | nil => exact .nil _
    | cons hv _ ih =>
      obtain ⟨hfirst, hrest⟩ := List.forall_mem_cons.1 hunstopped
      exact .cons (butNot_success_iff.2 ⟨hfirst, hv⟩) (ih hrest)

/-- An approach is the chain of the parser guarded by the terminator. -/
theorem chain_butNot_iff : (butNot p t).Chain c as d ↔ p.Approach t c as d := by
  constructor
  · rintro ⟨htrail, hforward, hlast⟩
    obtain ⟨htrail, hunstopped⟩ := trail_butNot_iff.1 htrail
    refine ⟨htrail, hunstopped, hforward, fun f v e ht hv => ?_⟩
    exact hlast v e (butNot_success_iff.2 ⟨⟨f, ht⟩, hv⟩)
  · rintro ⟨htrail, hunstopped, hforward, hlast⟩
    refine ⟨trail_butNot_iff.2 ⟨htrail, hunstopped⟩, hforward, fun v e h => ?_⟩
    obtain ⟨⟨f, ht⟩, hv⟩ := butNot_success_iff.1 h
    exact hlast f v e ht hv

/-- There is only one approach from a cursor. -/
theorem Approach.unique {as' : List (Application α)} {d' : Cursor} (h : p.Approach t c as d)
    (h' : p.Approach t c as' d') : as = as' ∧ d = d' :=
  (chain_butNot_iff.2 h).unique (chain_butNot_iff.2 h')

/-! ## The end of an approach -/

/-- Items up to a terminator are guarded items and then the terminator. -/
theorem upTo_eq (p : Parser α) (t : Parser β) (c : Cursor) :
    upTo p t c = (many (butNot p t) c).bind fun items d => (t d).map fun _ => items :=
  rfl

section
variable (hp : p.Conforming) (hc : c.Valid) (h : p.Approach t c as d)
include hp hc h

/-- `upTo` gives what the terminator gives at the end of the approach, unless the application there
is abandoned. -/
theorem upTo_of_approach :
    upTo p t c = ((butNot p t d).settle (as.map Application.value) d).bind
      fun items d => (t d).map fun _ => items := by
  rw [upTo_eq, many_of_chain (hp.butNot t) hc (chain_butNot_iff.2 h)]

/-- At the end of an approach the terminator succeeds, and the values of the approach are given. -/
theorem upTo_of_success {w : β} (ht : t d = .success w e) :
    upTo p t c = .success (as.map Application.value) e := by
  rw [upTo_of_approach hp hc h, butNot_of_success ht, Outcome.settle, Outcome.bind, ht]
  · rfl
  · intro reason hreason
    cases hreason

/-- At the end of an approach the terminator fails, and so do the items up to it. -/
theorem upTo_of_failure (ht : t d = .failure f) (hanswers : ∀ reason, p d ≠ .fault reason) :
    upTo p t c = .failure f := by
  have hsettle : (p d).settle (as.map Application.value) d = .success _ d :=
    Outcome.settle_eq_success_iff.2 ⟨hanswers, rfl, rfl⟩
  rw [upTo_of_approach hp hc h, butNot_of_failure ht, hsettle, Outcome.bind, ht]
  rfl

/-- An approach that ends with a fault is abandoned. -/
theorem upTo_of_fault (hd : butNot p t d = .fault reason) : upTo p t c = .fault reason := by
  rw [upTo_of_approach hp hc h, hd]
  rfl

end

/-- What `upTo` gives are the values of an approach, at whose end the terminator succeeds. -/
theorem approach_of_upTo (hp : p.Conforming) (hc : c.Valid) {vs : List α}
    (h : upTo p t c = .success vs d) :
    ∃ as e w, p.Approach t c as e ∧ t e = .success w d ∧ vs = as.map Application.value := by
  rw [upTo_eq] at h
  obtain ⟨ws, e, hmany, hend⟩ := Outcome.bind_eq_success_iff.1 h
  obtain ⟨as, hchain, rfl⟩ := chain_of_many (hp.butNot t) hc hmany
  cases ht : t e with
  | success w r =>
    rw [ht] at hend
    cases hend
    exact ⟨as, e, w, chain_butNot_iff.1 hchain, ht, rfl⟩
  | failure f =>
    rw [ht] at hend
    cases hend
  | fault reason =>
    rw [ht] at hend
    cases hend

/-! ## Given bytes as the terminator -/

section
variable {s : List UInt8}

/-- At the limit, given bytes are missing with the first of them. -/
theorem sequence_at_limit (hc : c.Valid) (hu : c.unread = []) (hs : s ≠ []) :
    ∃ f, sequence s c = .failure f ∧ f.kind = .endOfInput ∧ f.remainder = c := by
  cases s with
  | nil => exact absurd rfl hs
  | cons b bs => exact ⟨_, sequence_of_end hc hu, rfl, rfl⟩

/-- The approach goes over all bytes in front of which the given ones do not stand. -/
theorem exists_approach_sequence : ∀ (n : Nat) (c : Cursor), c.Valid → n ≤ c.unread.length →
    (∀ m < n, ¬ s <+: c.unread.drop m) → (s <+: c.unread.drop n ∨ n = c.unread.length) →
    ∃ as, byte.Approach (sequence s) c as (c.advance n) ∧
      as.map Application.value = c.unread.take n := by
  intro n
  induction n with
  | zero =>
    intro c hc _ _ hstop
    refine ⟨[], ⟨.nil c, nofun, nofun, fun f v e hf hv => ?_⟩, rfl⟩
    rcases hstop with hs | hend
    · rw [Cursor.advance_zero, sequence_success hc hs] at hf
      cases hf
    · have hu : c.unread = [] := List.length_eq_zero_iff.1 hend.symm
      rw [Cursor.advance_zero, byte_eq hc, hu] at hv
      cases hv
  | succ n ih =>
    intro c hc hle hfree hstop
    cases hu : c.unread with
    | nil =>
      rw [hu] at hle
      exact absurd hle (Nat.not_succ_le_zero n)
    | cons b bs =>
      obtain ⟨hvalid, hunread⟩ := advance_one_valid hc hu
      have hbyte : byte c = .success b (c.advance 1) := by
        rw [byte_eq hc, hu]
      obtain ⟨f, hf⟩ := sequence_failure hc (hfree 0 (Nat.succ_pos n))
      rw [hu] at hle hfree hstop
      obtain ⟨as, happroach, hvalues⟩ := ih (c.advance 1) hvalid
        (by rw [hunread]; exact Nat.le_of_succ_le_succ hle)
        (fun m hm => by rw [hunread]; exact hfree (m + 1) (Nat.succ_lt_succ hm))
        (by rw [hunread]; exact hstop.imp_right Nat.succ.inj)
      rw [Cursor.advance_advance, Nat.add_comm 1 n] at happroach
      refine ⟨⟨b, c, c.advance 1⟩ :: as, ⟨.cons hbyte happroach.trail, ?_, ?_, happroach.last⟩, ?_⟩
      · exact List.forall_mem_cons.2 ⟨⟨f, hf⟩, happroach.unstopped⟩
      · exact List.forall_mem_cons.2 ⟨Nat.lt_succ_self _, happroach.forward⟩
      · rw [List.map_cons, hvalues, hunread, List.take_succ_cons]

/-- Bytes that stand somewhere stand first somewhere, and not behind the end. -/
theorem exists_first_of_infix {u : List UInt8} (hs : s <:+: u) :
    ∃ n, IsLeast {m | s <+: u.drop m} n ∧ n ≤ u.length := by
  have hsome : ∃ m, s <+: u.drop m ∧ m ≤ u.length := by
    obtain ⟨t, hst, htu⟩ := List.infix_iff_prefix_suffix.1 hs
    refine ⟨u.length - t.length, ?_, Nat.sub_le _ _⟩
    rwa [← List.suffix_iff_eq_drop.1 htu]
  classical
  have hfront : ∃ m, s <+: u.drop m := hsome.imp fun _ => And.left
  refine ⟨Nat.find hfront, ⟨Nat.find_spec hfront, fun m hm => Nat.find_min' hfront hm⟩, ?_⟩
  obtain ⟨m, hm, hle⟩ := hsome
  exact le_trans (Nat.find_min' hfront hm) hle

/-- Bytes are taken up to the first place where the given bytes stand. -/
theorem upTo_byte_of_infix (hc : c.Valid) (hs : s <:+: c.unread) :
    ∃ n, IsLeast {m | s <+: c.unread.drop m} n ∧
      upTo byte (sequence s) c = .success (c.unread.take n) (c.advance (n + s.length)) := by
  obtain ⟨n, hleast, hle⟩ := exists_first_of_infix hs
  obtain ⟨as, happroach, hvalues⟩ := exists_approach_sequence n c hc hle
    (fun m hm hfront => Nat.not_lt.2 (hleast.2 hfront) hm) (.inl hleast.1)
  have hlen := Cursor.length_unread hc
  have := hc.1
  have hd : (c.advance n).Valid := (Cursor.advance_inside (by omega)).valid hc
  have hfront : s <+: (c.advance n).unread := by
    rw [Cursor.unread_advance]
    exact hleast.1
  refine ⟨n, hleast, ?_⟩
  rw [upTo_of_success reads_byte.obeys.conforming hc happroach (sequence_success hd hfront),
    hvalues, Cursor.advance_advance]

/-- Bytes are taken up to the limit, and the end of the input is the failure, when the given bytes
stand nowhere. -/
theorem upTo_byte_of_not_infix (hc : c.Valid) (hs : ¬ s <:+: c.unread) :
    ∃ f, upTo byte (sequence s) c = .failure f ∧ f.kind = .endOfInput ∧
      f.remainder = { c with position := c.limit } := by
  have hfree : ∀ m, ¬ s <+: c.unread.drop m := fun m hfront =>
    hs (hfront.isInfix.trans (List.drop_suffix m c.unread).isInfix)
  obtain ⟨as, happroach, -⟩ := exists_approach_sequence c.unread.length c hc le_rfl
    (fun m _ => hfree m) (.inr rfl)
  have hlen := Cursor.length_unread hc
  have := hc.1
  have hd : (c.advance c.unread.length).Valid := (Cursor.advance_inside (by omega)).valid hc
  have hend : (c.advance c.unread.length).unread = [] := by
    rw [Cursor.unread_advance, List.drop_length]
  obtain ⟨f, hf, hkind, hplace⟩ := sequence_at_limit hd hend (s := s) (by
    rintro rfl
    exact hs List.nil_infix)
  refine ⟨f, ?_, hkind, ?_⟩
  · refine upTo_of_failure reads_byte.obeys.conforming hc happroach hf fun reason hfault => ?_
    rw [byte_eq hd, hend] at hfault
    cases hfault
  · rw [hplace, Cursor.advance, hlen]
    congr 1
    omega

end

/-- From every valid cursor there is one approach to a terminator. Where it ends and the terminator
succeeds, `upTo` gives the values of the approach and stands behind the terminator; where the
terminator fails, its failure is that of `upTo`, and the parser only matters when it is abandoned
there. With any byte and given bytes as the terminator, `upTo` succeeds just when these stand
somewhere before the limit; it gives the bytes before the first place where they do and stands
behind them there. Otherwise it fails for the end of input, at the limit. -/
theorem upTo_stops_first (hp : p.Conforming) (hc : c.Valid) (t : Parser β) :
    (∃ as d, p.Approach t c as d ∧ (∀ as' d', p.Approach t c as' d' → as' = as ∧ d' = d) ∧
      (∀ w r, t d = .success w r → upTo p t c = .success (as.map Application.value) r) ∧
      (∀ f, t d = .failure f → (∀ reason, p d ≠ .fault reason) → upTo p t c = .failure f) ∧
      (∀ f reason, t d = .failure f → p d = .fault reason → upTo p t c = .fault reason) ∧
      ∀ reason, t d = .fault reason → upTo p t c = .fault reason) ∧
    ∀ s : List UInt8,
      ((∃ v r, upTo byte (sequence s) c = .success v r) ↔ s <:+: c.unread) ∧
      (∀ v r, upTo byte (sequence s) c = .success v r →
        ∃ n, IsLeast {m | s <+: c.unread.drop m} n ∧
          v = c.unread.take n ∧ r = c.advance (n + s.length)) ∧
      (¬ s <:+: c.unread → ∃ f, upTo byte (sequence s) c = .failure f ∧
        f.kind = .endOfInput ∧ f.remainder = { c with position := c.limit }) := by
  constructor
  · obtain ⟨as, d, hchain, -⟩ := exists_chain (hp.butNot t) #[] c hc
    have h := chain_butNot_iff.1 hchain
    refine ⟨as, d, h, fun as' d' h' => h'.unique h, ?_, ?_, ?_, ?_⟩
    · intro w r ht
      exact upTo_of_success hp hc h ht
    · intro f ht hanswers
      exact upTo_of_failure hp hc h ht hanswers
    · intro f reason ht hfault
      exact upTo_of_fault hp hc h ((butNot_of_failure ht).trans hfault)
    · intro reason ht
      exact upTo_of_fault hp hc h (butNot_of_fault ht)
  · intro s
    have hstands {v : List UInt8} {r : Cursor} (h : upTo byte (sequence s) c = .success v r) :
        s <:+: c.unread := by
      by_contra hs
      obtain ⟨f, hf, -⟩ := upTo_byte_of_not_infix hc hs
      rw [hf] at h
      cases h
    refine ⟨⟨?_, ?_⟩, ?_, upTo_byte_of_not_infix hc⟩
    · rintro ⟨v, r, h⟩
      exact hstands h
    · intro hs
      obtain ⟨n, -, h⟩ := upTo_byte_of_infix hc hs
      exact ⟨_, _, h⟩
    · intro v r h
      obtain ⟨n, hleast, hrun⟩ := upTo_byte_of_infix hc (hstands h)
      rw [hrun] at h
      cases h
      exact ⟨n, hleast, rfl, rfl⟩

/-- Two bytes as a terminator, of which the first also stands alone: the bytes up to where both
stand. In a window that ends between the two, the terminator is missing. -/
theorem upTo_stops_first_pair :
    let c : Cursor := ⟨.of #[1, 13, 2, 13, 10, 7], 0, 6⟩
    byte.Conforming ∧ c.Valid ∧ (c.windowed 4).Valid ∧
      upTo byte (sequence [13, 10]) c = .success [1, 13, 2] (c.advance 5) ∧
      ∃ f, upTo byte (sequence [13, 10]) (c.windowed 4) = .failure f ∧ f.kind = .endOfInput ∧
        f.remainder = ⟨.of #[1, 13, 2, 13, 10, 7], 4, 4⟩ := by
  intro c
  have hp : byte.Conforming := reads_byte.obeys.conforming
  have hc : c.Valid := by decide
  have hwindow : (c.windowed 4).Valid := by decide
  have hfree : ∀ m < 3, ¬ [13, 10] <+: c.unread.drop m := by decide
  have hleast : IsLeast {m | [13, 10] <+: c.unread.drop m} 3 := by
    refine ⟨by decide, fun m hm => ?_⟩
    by_contra hlt
    exact hfree m (Nat.lt_of_not_le hlt) hm
  obtain ⟨hsome, hfirst, -⟩ := (upTo_stops_first hp hc byte).2 [13, 10]
  obtain ⟨v, r, hrun⟩ := hsome.2 (by decide)
  obtain ⟨n, hn, rfl, rfl⟩ := hfirst v r hrun
  obtain rfl := hn.unique hleast
  exact ⟨hp, hc, hwindow, hrun,
    ((upTo_stops_first hp hwindow byte).2 [13, 10]).2.2 (by decide)⟩

end Wire.Parser
