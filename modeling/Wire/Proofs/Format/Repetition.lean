import Wire.Proofs.Trail.Commit
import Wire.Proofs.Trail.Terminator

/-!
# Formats of repetitions and choices

A repetition goes on for as long as it can, so it reads values one after another when nothing behind
them looks like one more (`Reads.exists_chain`). At the end of a window there is nothing behind
them: there a repetition fills the window with values in a row (`Reads.toEnd_many`), whether or not
a failure behind a start is final. The bytes up to a mark are those before the first mark
(`reads_upTo_exactly`), and a choice of two formats of which the bytes tell which one it is reads
either (`Reads.orCommit`).
-/

namespace Wire.Parser

open Cursor (append_prefix_unread_iff advance_prefix_inside)

variable {α : Type} {p : Parser α} {F G : Format α} {c : Cursor} {vs : List α} {bs : List UInt8}

/-! ## Repetition -/

/-- The values of a trail stand in a row. -/
theorem Reads.trail_sound (hp : p.Reads F) {as : List (Application α)} {d : Cursor}
    (h : p.Trail c as d) (hc : c.Valid) :
    ∃ bs, F.Many (as.map Application.value) bs ∧ bs <+: c.unread ∧ d = c.advance bs.length := by
  induction h with
  | nil => exact ⟨[], .nil, List.nil_prefix, rfl⟩
  | cons hv _ ih =>
    obtain ⟨b, hF, hb, rfl⟩ := (hp.success_iff hc).1 hv
    obtain ⟨bs, hmany, hbs, rfl⟩ := ih ((advance_prefix_inside hc hb).valid hc)
    refine ⟨b ++ bs, .cons hF hmany, append_prefix_unread_iff.2 ⟨hb, hbs⟩, ?_⟩
    rw [Cursor.advance_advance, List.length_append]

/-- Values in a row are the values of a chain when no further value stands behind them. -/
theorem Reads.exists_chain (hp : p.Reads F) (hne : ∀ v bs, F v bs → bs ≠ []) (h : F.Many vs bs) :
    ∀ c : Cursor, c.Valid → bs <+: c.unread →
      (∀ v b, F v b → ¬ b <+: (c.advance bs.length).unread) →
      ∃ as, p.Chain c as (c.advance bs.length) ∧ as.map Application.value = vs := by
  induction h with
  | nil =>
    intro c hc _ hstop
    refine ⟨[], .nil fun v d hv => ?_, rfl⟩
    obtain ⟨b, hF, hb, -⟩ := (hp.success_iff hc).1 hv
    exact absurd hb (hstop v b hF)
  | @cons v vs b bs hF _ ih =>
    intro c hc hfront hstop
    obtain ⟨hb, hbs⟩ := append_prefix_unread_iff.1 hfront
    have hpos : 0 < b.length := List.length_pos_iff.2 (hne v b hF)
    have hv : p c = .success v (c.advance b.length) := (hp.success_iff hc).2 ⟨b, hF, hb, rfl⟩
    rw [List.length_append, ← Cursor.advance_advance] at hstop ⊢
    obtain ⟨as, hchain, rfl⟩ := ih _ ((advance_prefix_inside hc hb).valid hc) hbs hstop
    exact ⟨_, hchain.cons hv (Nat.lt_add_of_pos_right hpos), rfl⟩

/-- What `many` gives is read from values of the format in a row. -/
theorem Reads.many_sound (hp : p.Reads F) (hc : c.Valid) {r : Cursor}
    (h : many p c = .success vs r) :
    ∃ bs, F.Many vs bs ∧ bs <+: c.unread ∧ r = c.advance bs.length := by
  obtain ⟨as, hchain, rfl⟩ := chain_of_many hp.obeys.conforming hc h
  exact hp.trail_sound hchain.trail hc

/-- Values of a format in a row are read by `many`, if no other value of the format stands behind
them. -/
theorem Reads.many_eq (hp : p.Reads F) (hne : ∀ v bs, F v bs → bs ≠ []) (h : F.Many vs bs)
    (hc : c.Valid) (hfront : bs <+: c.unread)
    (hstop : ∀ v b, F v b → ¬ b <+: (c.advance bs.length).unread) :
    many p c = .success vs (c.advance bs.length) := by
  obtain ⟨as, hchain, rfl⟩ := hp.exists_chain hne h c hc hfront hstop
  rw [many_of_chain hp.obeys.conforming hc hchain, Outcome.settle_eq_success_iff]
  refine ⟨fun reason hfault => ?_, rfl, rfl⟩
  have hrun := hp.obeys _ ((advance_prefix_inside hc hfront).valid hc)
  rw [hfault] at hrun
  exact hrun

/-! ## To the end -/

/-- A parser that must reach the end succeeds when it does and leaves nothing to read. -/
theorem toEnd_eq_success_iff (hp : p.Obeys .faultless) (hc : c.Valid) {v : α} {r : Cursor} :
    toEnd p c = .success v r ↔ p c = .success v r ∧ r.unread = [] := by
  unfold toEnd
  rw [Outcome.bind_eq_success_iff]
  have hrun := hp c hc
  refine ⟨fun h => ?_, fun h => ?_⟩
  · obtain ⟨v', d, hv, hd⟩ := h
    rw [hv] at hrun
    rw [current_eq (hrun.inside.valid hc)] at hd
    cases hu : d.unread with
    | nil =>
      rw [hu] at hd
      cases hd
      exact ⟨hv, hu⟩
    | cons b bs =>
      rw [hu] at hd
      cases hd
  · obtain ⟨hv, hu⟩ := h
    rw [hv] at hrun
    refine ⟨v, r, hv, ?_⟩
    rw [current_eq (hrun.inside.valid hc), hu]

/-- Unread bytes behind which nothing is unread are all of them. -/
theorem eq_unread_of_prefix (hfront : bs <+: c.unread) (hend : (c.advance bs.length).unread = []) :
    bs = c.unread := by
  rw [Cursor.unread_advance, List.drop_eq_nil_iff] at hend
  exact hfront.eq_of_length_le hend

/-- A repetition to the end takes a window that consists of values in a row. -/
theorem Reads.toEnd_many (hp : p.Reads F) (hne : ∀ v bs, F v bs → bs ≠ []) :
    (toEnd (many p)).Fills F.Many where
  obeys := (hp.obeys.many Discipline.faultless_lawful).toEnd Discipline.faultless_lawful
  success_iff {c} hc {vs} := by
    simp only [toEnd_eq_success_iff (hp.obeys.many Discipline.faultless_lawful) hc]
    refine ⟨fun h => ?_, fun hvs => ?_⟩
    · obtain ⟨r, hmany, hend⟩ := h
      obtain ⟨bs, hvs, hfront, rfl⟩ := hp.many_sound hc hmany
      exact eq_unread_of_prefix hfront hend ▸ hvs
    · have hend : (c.advance c.unread.length).unread = [] := by
        rw [Cursor.unread_advance, List.drop_length]
      refine ⟨_, hp.many_eq hne hvs hc (List.prefix_refl _) fun v b hF hb => ?_, hend⟩
      rw [hend] at hb
      exact hne v b hF (List.prefix_nil.1 hb)

/-- At the end of a window, no failure is behind its start, so none of them is final. -/
theorem manyCommit_eq_success_iff (hp : p.Obeys .faultless) (hc : c.Valid) {r : Cursor}
    (hend : r.unread = []) : manyCommit p c = .success vs r ↔ many p c = .success vs r := by
  refine ⟨many_of_manyCommit, fun hmany => ?_⟩
  have hrun := hp.many Discipline.faultless_lawful c hc
  rw [hmany] at hrun
  have hr := hrun.inside.valid hc
  have hlimit := (Cursor.unread_eq_nil_iff hr).1 hend
  have hnext := hp r hr
  cases hpr : p r with
  | success v e => exact manyCommit_of_success hmany hpr
  | failure f =>
    rw [hpr] at hnext
    have hsame : f.remainder.samePlace r = true := by
      have := hnext.1.start
      have := hnext.1.order
      have := hnext.1.stop
      rw [Cursor.samePlace_iff_of_data hnext.1.data]
      omega
    rw [manyCommit_of_failure hmany hpr, if_pos hsame]
  | fault reason =>
    rw [hpr] at hnext
    exact hnext.elim

/-- The same is read up to the end when the repetition looks at the failure that ended it. -/
theorem Reads.toEnd_manyCommit (hp : p.Reads F) (hne : ∀ v bs, F v bs → bs ≠ []) :
    (toEnd (manyCommit p)).Fills F.Many where
  obeys := (hp.obeys.manyCommit Discipline.faultless_lawful).toEnd Discipline.faultless_lawful
  success_iff {c} hc {vs} := by
    rw [← (hp.toEnd_many hne).success_iff hc]
    refine exists_congr fun r => ?_
    rw [toEnd_eq_success_iff (hp.obeys.manyCommit Discipline.faultless_lawful) hc,
      toEnd_eq_success_iff (hp.obeys.many Discipline.faultless_lawful) hc]
    exact and_congr_left (manyCommit_eq_success_iff hp.obeys hc)

/-! ## Up to a mark -/

/-- A guard lets a parser through where nothing of its format is unread. -/
theorem butNot_eq_success_iff {β : Type} {guard : Parser β} {H : Format β} (hguard : guard.Reads H)
    (hc : c.Valid) {v : α} {r : Cursor} :
    butNot p guard c = .success v r ↔
      (∀ w b, H w b → ¬ b <+: c.unread) ∧ p c = .success v r := by
  rw [butNot_success_iff, hguard.failure_iff hc]

/-- Every byte but a mark. -/
theorem reads_butNot_exactly (mark : UInt8) :
    (butNot byte (exactly mark)).Reads (.of (· ≠ mark) fun b => [b]) where
  obeys := (obeys_byte Discipline.faultless_lawful).butNot Discipline.faultless_lawful
    (reads_exactly mark).obeys
  success_iff {c} hc {v r} := by
    rw [butNot_eq_success_iff (reads_exactly mark) hc, reads_byte.success_iff hc]
    refine ⟨fun h => ?_, fun h => ?_⟩
    · obtain ⟨hmark, _, rfl, hfront, rfl⟩ := h
      refine ⟨[v], ⟨?_, rfl⟩, hfront, rfl⟩
      rintro rfl
      exact hmark v [v] ⟨rfl, rfl⟩ hfront
    · obtain ⟨_, ⟨hne, rfl⟩, hfront, rfl⟩ := h
      refine ⟨?_, [v], rfl, hfront, rfl⟩
      rintro _ _ ⟨rfl, rfl⟩ hmark
      obtain ⟨t, ht⟩ := hfront
      rw [← ht] at hmark
      exact hne (List.cons_prefix_cons.1 hmark).1.symm

/-- Bytes up to the first mark, which stands behind them. -/
theorem reads_upTo_exactly (mark : UInt8) :
    (upTo byte (exactly mark)).Reads (.of (mark ∉ ·) (· ++ [mark])) where
  obeys := (obeys_byte Discipline.faultless_lawful).upTo Discipline.faultless_lawful
    (reads_exactly mark).obeys
  success_iff {c} hc {v r} := by
    have hitem := reads_butNot_exactly mark
    have hne : ∀ b bs, Format.of (· ≠ mark) (fun b => [b]) b bs → bs ≠ [] := by
      rintro b _ ⟨-, rfl⟩
      exact List.cons_ne_nil _ _
    have hmany {v bs : List UInt8} :
        (Format.of (· ≠ mark) fun b => [b]).Many v bs ↔ mark ∉ v ∧ bs = v := by
      rw [Format.many_of_iff, List.flatMap_singleton']
      exact and_congr_left' ⟨fun h hmem => h mark hmem rfl, fun h b hb heq => h (heq ▸ hb)⟩
    unfold upTo
    rw [bind_eq_success_iff]
    refine ⟨fun h => ?_, fun h => ?_⟩
    · obtain ⟨items, d, hitems, hd⟩ := h
      obtain ⟨bs, hF, hbs, rfl⟩ := hitem.many_sound hc hitems
      obtain ⟨hmark, rfl⟩ := hmany.1 hF
      obtain ⟨w, e, hw, hpure⟩ := bind_eq_success_iff.1 hd
      obtain ⟨_, ⟨rfl, rfl⟩, hend, rfl⟩ :=
        ((reads_exactly mark).success_iff ((advance_prefix_inside hc hbs).valid hc)).1 hw
      cases hpure
      refine ⟨v ++ [w], ⟨hmark, rfl⟩, append_prefix_unread_iff.2 ⟨hbs, hend⟩, ?_⟩
      rw [Cursor.advance_advance, List.length_append]
    · obtain ⟨_, ⟨hmark, rfl⟩, hfront, rfl⟩ := h
      obtain ⟨hbs, hend⟩ := append_prefix_unread_iff.1 hfront
      have hvalid := (advance_prefix_inside hc hbs).valid hc
      have hstop : ∀ b bs, Format.of (· ≠ mark) (fun b => [b]) b bs →
          ¬ bs <+: (c.advance v.length).unread := by
        rintro b _ ⟨hb, rfl⟩ hnext
        obtain ⟨t, ht⟩ := hend
        rw [← ht] at hnext
        exact hb (List.cons_prefix_cons.1 hnext).1
      refine ⟨v, _, hitem.many_eq hne (hmany.2 ⟨hmark, rfl⟩) hc hbs hstop, ?_⟩
      rw [bind_eq_success_iff]
      refine ⟨mark, _, ((reads_exactly mark).success_iff hvalid).2
        ⟨[mark], ⟨rfl, rfl⟩, hend, rfl⟩, ?_⟩
      rw [Cursor.advance_advance, ← List.length_append]
      rfl

/-! ## Choice -/

/-- A choice reads either format when the first parser fails at once in front of a value of the
second one. -/
theorem Reads.orCommit {q : Parser α} (hp : p.Reads F) (hq : q.Reads G)
    (hne : ∀ v bs, F v bs → bs ≠ [])
    (hstays : ∀ c : Cursor, c.Valid → ∀ v bs, G v bs → bs <+: c.unread →
      ∃ f, p c = .failure f ∧ f.remainder.samePlace c = true) :
    (orCommit p q).Reads fun v bs => F v bs ∨ G v bs where
  obeys := hp.obeys.choose Discipline.faultless_lawful hq.obeys .onceMoved
  success_iff {c} hc {v r} := by
    unfold Parser.orCommit choose
    have hmoved {v : α} {bs : List UInt8} (hF : F v bs) :
        ¬ (c.advance bs.length).samePlace c = true := by
      have hpos : 0 < bs.length := List.length_pos_iff.2 (hne v bs hF)
      rw [Cursor.samePlace_iff_of_data Cursor.advance_data, Cursor.advance_position]
      omega
    refine ⟨fun h => ?_, fun h => ?_⟩
    · cases hpc : p c with
      | success v' d =>
        obtain ⟨bs, hF, hbs, rfl⟩ := (hp.success_iff hc).1 hpc
        rw [hpc] at h
        dsimp only at h
        rw [if_neg (hmoved hF)] at h
        cases h
        exact ⟨bs, .inl hF, hbs, rfl⟩
      | failure f =>
        rw [hpc] at h
        dsimp only at h
        split at h
        · cases h
        · cases hqc : q c with
          | success v' d =>
            rw [hqc] at h
            cases h
            obtain ⟨bs, hG, hbs, rfl⟩ := (hq.success_iff hc).1 hqc
            exact ⟨bs, .inr hG, hbs, rfl⟩
          | failure g =>
            rw [hqc] at h
            cases h
          | fault reason =>
            rw [hqc] at h
            cases h
      | fault reason =>
        rw [hpc] at h
        cases h
    · obtain ⟨bs, hF | hG, hbs, rfl⟩ := h
      · rw [(hp.success_iff hc).2 ⟨bs, hF, hbs, rfl⟩]
        exact if_neg (hmoved hF)
      · obtain ⟨f, hf, hsame⟩ := hstays c hc v bs hG hbs
        rw [hf, (hq.success_iff hc).2 ⟨bs, hG, hbs, rfl⟩]
        simp [Commitment.holds, hsame]

end Wire.Parser
