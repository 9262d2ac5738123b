import Wire.Proofs.Discipline

/-!
# Digests behind values

A parser with a digest is that parser and then a comparison: the bytes that the value took are
summed up, and as many bytes as the checksum claims have to stand behind them and be that digest
(`Parser.withDigest_run`). So it accepts just what it should, and when it refuses it says which of
three causes is the first: the value itself, too few bytes for a digest, or another digest
(`Parser.withDigest_exact`). Nothing is asked of the checksum; one whose digests do not have the
length that it claims accepts nothing.
-/

namespace Wire.Parser

variable {α : Type} {p : Parser α} {c d : Cursor}

/-- On a success, a conforming parser leaves a cursor inside the one that it was given. -/
def Conforming (p : Parser α) : Prop :=
  ∀ c v d, c.Valid → p c = .success v d → d.Inside c

/-- A parser under any discipline stays inside its start. -/
theorem Obeys.conforming {rules : Discipline} (hp : p.Obeys rules) : p.Conforming :=
  fun _ v d hc hrun => hp.inside hc v d hrun

/-- A run of a parser with a digest, in terms of the buffer: the digest is read behind the value and
compared with that of the bytes of the value. -/
theorem withDigest_run (hp : p.Conforming) (checksum : Checksum) (hc : c.Valid) :
    withDigest p checksum c = (p c).bind fun v d =>
      let expected := checksum.digest (c.span d)
      let found := d.span (d.advance checksum.length)
      if d.position + checksum.length ≤ d.limit then
        if found = expected then .success v (d.advance checksum.length)
        else .failure (.checksumMismatch expected found d)
      else .failure (shortOf checksum.length d (d.limit - d.position)) := by
  rw [withDigest_eq hc fun v d => hp c v d hc]
  cases hrun : p c with
  | success v d =>
    have hinside := hp c v d hc hrun
    simp only [Outcome.bind, ← Cursor.span_of_inside hc hinside, bytes_eq_span (hinside.valid hc)]
    by_cases henough : d.position + checksum.length ≤ d.limit
    · simp only [if_pos henough]
    · simp only [if_neg henough]
  | failure f => rfl
  | fault reason => rfl

/-- A digest that stands behind a value inside the limit is what is read there. -/
theorem span_of_prefix (hd : d.Valid) {digest : List UInt8} (h : digest <+: d.unread) :
    d.position + digest.length ≤ d.limit ∧ d.span (d.advance digest.length) = digest := by
  have hle := h.length_le
  have hlength := Cursor.length_unread hd
  have := hd.1
  have henough : d.position + digest.length ≤ d.limit := by omega
  refine ⟨henough, ?_⟩
  rw [Cursor.span_of_inside hd (Cursor.advance_inside henough), Cursor.advance_position,
    Nat.add_sub_cancel_left]
  exact (List.prefix_iff_eq_take.1 h).symm

section
variable (hp : p.Conforming) (checksum : Checksum) (hc : c.Valid)
include hp hc

/-- A value is accepted just when its digest is what stands behind it. -/
theorem withDigest_eq_success_iff {v : α} {r : Cursor} :
    withDigest p checksum c = .success v r ↔
      ∃ d, p c = .success v d ∧ d.position + checksum.length ≤ d.limit ∧
        d.span (d.advance checksum.length) = checksum.digest (c.span d) ∧
        r = d.advance checksum.length := by
  rw [withDigest_run hp checksum hc]
  cases hrun : p c with
  | success w d =>
    simp only [Outcome.bind, Outcome.success.injEq]
    constructor
    · intro h
      split at h
      · next henough =>
        split at h
        · next hmatch =>
          cases h
          exact ⟨d, ⟨rfl, rfl⟩, henough, hmatch, rfl⟩
        · cases h
      · cases h
    · rintro ⟨_, ⟨rfl, rfl⟩, henough, hmatch, rfl⟩
      rw [if_pos henough, if_pos hmatch]
  | failure f => simp [Outcome.bind]
  | fault reason => simp [Outcome.bind]

/-- Too few bytes behind a value are as many as there are. -/
theorem withDigest_of_short {v : α} (hrun : p c = .success v d)
    (hshort : d.limit < d.position + checksum.length) :
    withDigest p checksum c = .failure (shortOf checksum.length d (d.limit - d.position)) := by
  rw [withDigest_run hp checksum hc, hrun, Outcome.bind, if_neg (Nat.not_le.2 hshort)]

/-- Enough bytes behind a value that are not its digest are shown with the digest. -/
theorem withDigest_of_mismatch {v : α} (hrun : p c = .success v d)
    (henough : d.position + checksum.length ≤ d.limit)
    (hne : d.span (d.advance checksum.length) ≠ checksum.digest (c.span d)) :
    withDigest p checksum c = .failure (.checksumMismatch (checksum.digest (c.span d))
      (d.span (d.advance checksum.length)) d) := by
  rw [withDigest_run hp checksum hc, hrun, Outcome.bind, if_pos henough, if_neg hne]

/-- What is read behind a value has the length that the checksum claims, and so has a digest that is
accepted. -/
theorem length_digest_of_success {v : α} {r : Cursor}
    (h : withDigest p checksum c = .success v r) :
    ∃ d, p c = .success v d ∧ (checksum.digest (c.span d)).length = checksum.length := by
  obtain ⟨d, hrun, henough, hmatch, -⟩ := (withDigest_eq_success_iff hp checksum hc).1 h
  refine ⟨d, hrun, ?_⟩
  rw [← hmatch]
  exact length_span_advance ((hp c v d hc hrun).valid hc) henough

/-- A parser with a digest succeeds just when the parser does, as many bytes as the checksum claims
are left behind the value, and these are the digest of the bytes of the value; it then stands behind
them. It fails as the parser does; else, at the end of the value, for want of bytes; and in all other
cases there for another digest. So a digest of another length than the claimed one accepts nothing,
and a digest of that length that follows the value inside the limit is accepted. -/
theorem withDigest_exact :
    (∀ v r, withDigest p checksum c = .success v r ↔
      ∃ d, p c = .success v d ∧ d.position + checksum.length ≤ d.limit ∧
        d.span (d.advance checksum.length) = checksum.digest (c.span d) ∧
        r = d.advance checksum.length) ∧
      (∀ f, p c = .failure f → withDigest p checksum c = .failure f) ∧
      (∀ reason, p c = .fault reason → withDigest p checksum c = .fault reason) ∧
      ∀ v d, p c = .success v d →
        (d.limit < d.position + checksum.length →
          ∃ f, withDigest p checksum c = .failure f ∧ f.kind = .boundedCountUnmet ∧
            f.remainder = d) ∧
        (d.position + checksum.length ≤ d.limit →
          d.span (d.advance checksum.length) ≠ checksum.digest (c.span d) →
          ∃ f, withDigest p checksum c = .failure f ∧ f.kind = .checksumMismatch ∧
            f.remainder = d) ∧
        ((checksum.digest (c.span d)).length ≠ checksum.length →
          ∀ w r, withDigest p checksum c ≠ .success w r) ∧
        ((checksum.digest (c.span d)).length = checksum.length →
          checksum.digest (c.span d) <+: d.unread →
          withDigest p checksum c = .success v (d.advance checksum.length)) := by
  refine ⟨fun v r => withDigest_eq_success_iff hp checksum hc, fun f hrun => ?_,
    fun reason hrun => ?_, fun v d hrun => ⟨fun hshort => ?_, fun henough hne => ?_,
      fun hlength w r hsuccess => ?_, fun hlength hfollows => ?_⟩⟩
  · rw [withDigest_run hp checksum hc, hrun, Outcome.bind]
  · rw [withDigest_run hp checksum hc, hrun, Outcome.bind]
  · exact ⟨_, withDigest_of_short hp checksum hc hrun hshort, rfl, rfl⟩
  · exact ⟨_, withDigest_of_mismatch hp checksum hc hrun henough hne, rfl, rfl⟩
  · obtain ⟨d', hrun', hlength'⟩ := length_digest_of_success hp checksum hc hsuccess
    rw [hrun] at hrun'
    cases hrun'
    exact hlength hlength'
  · have hd := (hp c v d hc hrun).valid hc
    obtain ⟨henough, hspan⟩ := span_of_prefix hd hfollows
    rw [hlength] at henough hspan
    exact (withDigest_eq_success_iff hp checksum hc).2 ⟨d, hrun, henough, hspan, rfl⟩

end

/-- Two bytes with their sum behind them, at the end of a part of a buffer: the digest is read up to
the limit, and a claim of two bytes for it goes over the limit. -/
theorem withDigest_exact_sum :
    let c : Cursor := ⟨.of #[7, 1, 2, 3, 0], 1, 4⟩
    (bytes 2).Conforming ∧ c.Valid ∧
      withDigest (bytes 2) .sum c = .success [1, 2] ⟨.of #[7, 1, 2, 3, 0], 4, 4⟩ ∧
      ∃ f, withDigest (bytes 2) (.constant 2 [3, 0]) c = .failure f ∧
        f.kind = .boundedCountUnmet ∧ f.remainder = ⟨.of #[7, 1, 2, 3, 0], 3, 4⟩ := by
  intro c
  have hp : (bytes 2).Conforming :=
    (obeys_bytes (Discipline.confined_lawful True fun _ => True) 2).conforming
  have hc : c.Valid := by decide
  have hrun : bytes 2 c = .success [1, 2] (c.advance 2) := by decide
  refine ⟨hp, hc, ((withDigest_exact hp .sum hc).1 _ _).2 ⟨_, hrun, ?_, ?_, rfl⟩,
    ((withDigest_exact hp (.constant 2 [3, 0]) hc).2.2.2 _ _ hrun).1 ?_⟩ <;> decide

end Wire.Parser
