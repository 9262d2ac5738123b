import Wire.Proofs.Format

/-!
# Given bytes

The parser of given bytes goes over as many of them as stand at the cursor, the longest common
prefix of the bytes and of what is unread (`commonPrefix`). If these are all, it succeeds; otherwise
it fails at the first byte that is missing or is another one, and expects the given byte there
(`Parser.sequence_exact`). The place is found without a second look at the loop: given bytes may be
cut in two anywhere (`Parser.sequence_append`), and of the two parts the first one is read and the
second one fails with its first byte (`Parser.sequence_eq_of_prefix`).
-/

namespace Wire

/-! ## Common prefixes -/

section
variable {α : Type} [DecidableEq α]

/-- The longest list that two lists both start with. -/
def commonPrefix : List α → List α → List α
  | a :: s, b :: w => if a = b then a :: commonPrefix s w else []
  | _, _ => []

/-- Both lists go on behind their common prefix, but not with the same item. -/
theorem exists_of_commonPrefix : ∀ s w : List α, ∃ s' w', s = commonPrefix s w ++ s' ∧
    w = commonPrefix s w ++ w' ∧ ∀ a, a ∈ s'.head? → a ∉ w'.head?
  | [], w => ⟨[], w, rfl, rfl, nofun⟩
  | a :: s, [] => ⟨a :: s, [], rfl, rfl, fun _ _ => nofun⟩
  | a :: s, b :: w => by
    rw [commonPrefix]
    split
    · next heq =>
      obtain rfl := heq
      obtain ⟨s', w', hs, hw, hdiffer⟩ := exists_of_commonPrefix s w
      exact ⟨s', w', congrArg (a :: ·) hs, congrArg (a :: ·) hw, hdiffer⟩
    · next hne =>
      refine ⟨a :: s, b :: w, rfl, rfl, ?_⟩
      rintro _ ⟨⟩ ⟨⟩
      exact hne rfl

/-- The common prefix is the longest one: what it starts with is what both lists start with. -/
theorem prefix_commonPrefix_iff : ∀ {p s w : List α},
    p <+: commonPrefix s w ↔ p <+: s ∧ p <+: w
  | [], _, _ => by simp
  | _ :: _, [], _ => by simp [commonPrefix]
  | _ :: _, _ :: _, [] => by simp [commonPrefix]
  | c :: p, a :: s, b :: w => by
    rw [commonPrefix]
    split
    · next heq =>
      obtain rfl := heq
      rw [List.cons_prefix_cons, List.cons_prefix_cons, List.cons_prefix_cons,
        prefix_commonPrefix_iff]
      exact and_and_left
    · next hne =>
      simp only [List.cons_prefix_cons, List.prefix_nil, reduceCtorEq, false_iff]
      rintro ⟨⟨rfl, -⟩, rfl, -⟩
      exact hne rfl

end

namespace Parser

variable {s bs bs' : List UInt8} {b b' : UInt8} {c : Cursor}

/-! ## Parts of given bytes -/

/-- Given bytes may be cut in two anywhere. -/
theorem sequence_append : ∀ s t : List UInt8,
    sequence (s ++ t) = append (sequence s) (sequence t)
  | [], t => by simp [sequence, append]
  | b :: s, t => by
    simp only [List.cons_append, sequence, sequence_append s t, append, bind_assoc, pure_bind]

/-- Given bytes that stand at a cursor are read there. -/
theorem sequence_success (hc : c.Valid) (hs : s <+: c.unread) :
    sequence s c = .success s (c.advance s.length) :=
  ((reads_sequence s).success_iff hc).2 ⟨s, ⟨rfl, rfl⟩, hs, rfl⟩

/-- Given bytes that do not stand at a cursor are a failure there. -/
theorem sequence_failure (hc : c.Valid) (hs : ¬ s <+: c.unread) :
    ∃ f, sequence s c = .failure f := by
  refine ((reads_sequence s).failure_iff hc).2 ?_
  rintro _ _ ⟨rfl, rfl⟩
  exact hs

/-- At the limit, the first of the given bytes is missing. -/
theorem sequence_of_end (hc : c.Valid) (hu : c.unread = []) :
    sequence (b :: bs) c = .failure ((Failure.endOfInput c).expecting (Hex.byte .upper b)) := by
  have hfirst : exactly b c = .failure ((Failure.endOfInput c).expecting (Hex.byte .upper b)) := by
    unfold exactly
    rw [byteWhere_eq hc, hu]
  change (exactly b c).bind _ = _
  rw [hfirst]
  rfl

/-- Another byte stands where the first of the given bytes should. -/
theorem sequence_of_ne (hc : c.Valid) (hu : c.unread = b' :: bs') (hne : b' ≠ b) :
    sequence (b :: bs) c =
      .failure ((Failure.unexpectedByte b' c).expecting (Hex.byte .upper b)) := by
  have hfirst : exactly b c =
      .failure ((Failure.unexpectedByte b' c).expecting (Hex.byte .upper b)) := by
    unfold exactly
    rw [byteWhere_eq hc, hu]
    exact if_neg (by simpa using hne)
  change (exactly b c).bind _ = _
  rw [hfirst]
  rfl

/-- Given bytes whose first part stands at the cursor are read as the others are behind it. -/
theorem sequence_eq_of_prefix (hc : c.Valid) (hs : s <+: c.unread) (t : List UInt8) :
    sequence (s ++ t) c = (sequence t (c.advance s.length)).map (s ++ ·) := by
  rw [sequence_append]
  change (sequence s c).bind _ = _
  rw [sequence_success hc hs]
  rfl

/-- Given bytes that do not stand at a cursor fail behind the longest common prefix, with the next
of them. -/
theorem sequence_of_not_prefix (hc : c.Valid) (hs : ¬ s <+: c.unread) :
    let j := (commonPrefix s c.unread).length
    ∃ b, s[j]? = some b ∧
      ((j = c.unread.length ∧ sequence s c =
          .failure ((Failure.endOfInput (c.advance j)).expecting (Hex.byte .upper b))) ∨
        ∃ b', c.unread[j]? = some b' ∧ b' ≠ b ∧ sequence s c =
          .failure ((Failure.unexpectedByte b' (c.advance j)).expecting (Hex.byte .upper b))) := by
  obtain ⟨t, u, hst, hu, hdiffer⟩ := exists_of_commonPrefix s c.unread
  generalize commonPrefix s c.unread = p at hst hu
  subst hst
  have hp : p <+: c.unread := ⟨u, hu.symm⟩
  have hd : (c.advance p.length).Valid := (Cursor.advance_prefix_inside hc hp).valid hc
  have hdu : (c.advance p.length).unread = u := by
    rw [Cursor.unread_advance, hu, List.drop_left]
  have hnext (a : UInt8) (as : List UInt8) : (p ++ a :: as)[p.length]? = some a := by
    rw [List.getElem?_append_right le_rfl, Nat.sub_self, List.getElem?_cons_zero]
  have hrun := sequence_eq_of_prefix hc hp t
  cases t with
  | nil => exact absurd (by rwa [List.append_nil]) hs
  | cons b t =>
    refine ⟨b, hnext b t, ?_⟩
    cases u with
    | nil =>
      rw [sequence_of_end hd hdu] at hrun
      exact .inl ⟨by rw [hu, List.append_nil], hrun⟩
    | cons b' u =>
      have hne : b' ≠ b := fun heq => hdiffer b rfl (congrArg some heq)
      rw [sequence_of_ne hd hdu hne] at hrun
      exact .inr ⟨b', hu ▸ hnext b' u, hne, hrun⟩

/-- Given bytes are read when the unread ones start with them, which are then gone over. Otherwise
the run fails behind the longest common prefix of the two, where it expects the next of the given
bytes and nothing else: for the end of input if all unread bytes are in that prefix, and else for
the next of those, which is another one. Reading bytes in one piece is reading them in two, wherever
they are cut and whatever comes out. -/
theorem sequence_exact :
    (∀ (s : List UInt8) (c : Cursor), c.Valid →
      (∀ q, q <+: commonPrefix s c.unread ↔ q <+: s ∧ q <+: c.unread) ∧
      ((∃ v r, sequence s c = .success v r) ↔ s <+: c.unread) ∧
      (∀ v r, sequence s c = .success v r → v = s ∧ r = c.advance s.length) ∧
      (¬ s <+: c.unread →
        let j := (commonPrefix s c.unread).length
        ∃ b, s[j]? = some b ∧
          ((j = c.unread.length ∧ sequence s c = .failure ⟨.endOfInput,
              "Unexpected end of input reached", [Hex.byte .upper b], c.advance j⟩) ∨
            ∃ b', c.unread[j]? = some b' ∧ b' ≠ b ∧ sequence s c = .failure ⟨.unexpectedByte,
              "unexpected '" ++ Hex.byte .upper b' ++ "'", [Hex.byte .upper b],
              c.advance j⟩))) ∧
    ∀ s t : List UInt8, sequence (s ++ t) = append (sequence s) (sequence t) := by
  refine ⟨fun s c hc => ⟨fun q => prefix_commonPrefix_iff, ⟨?_, fun hs => ?_⟩, fun v r h => ?_,
    sequence_of_not_prefix hc⟩, sequence_append⟩
  · rintro ⟨v, r, h⟩
    obtain ⟨_, ⟨-, rfl⟩, hfront, -⟩ := ((reads_sequence s).success_iff hc).1 h
    exact hfront
  · exact ⟨_, _, sequence_success hc hs⟩
  · obtain ⟨_, ⟨rfl, rfl⟩, -, rfl⟩ := ((reads_sequence s).success_iff hc).1 h
    exact ⟨rfl, rfl⟩

/-- Three unread bytes in the middle of a buffer: the first two of them are read, a fourth one is
missing at the limit, and another second byte is expected where the second one stands. -/
theorem sequence_exact_window :
    let c : Cursor := ⟨.of #[0, 1, 2, 3, 4], 1, 4⟩
    c.Valid ∧ sequence [1, 2] c = .success [1, 2] ⟨.of #[0, 1, 2, 3, 4], 3, 4⟩ ∧
      sequence [1, 2, 3, 4] c =
        .failure ⟨.endOfInput, "Unexpected end of input reached", ["04"],
          ⟨.of #[0, 1, 2, 3, 4], 4, 4⟩⟩ ∧
      sequence [1, 0xA9, 3] c =
        .failure ⟨.unexpectedByte, "unexpected '02'", ["A9"], ⟨.of #[0, 1, 2, 3, 4], 2, 4⟩⟩ := by
  intro c
  have hc : c.Valid := by decide
  obtain ⟨-, hsucceeds, hvalue, -⟩ := sequence_exact.1 [1, 2] c hc
  obtain ⟨-, -, -, hcut⟩ := sequence_exact.1 [1, 2, 3, 4] c hc
  obtain ⟨-, -, -, hother⟩ := sequence_exact.1 [1, 0xA9, 3] c hc
  have hunread : c.unread = [1, 2, 3] := by decide
  have hcutPlace : commonPrefix [1, 2, 3, 4] c.unread = [1, 2, 3] := by decide
  have hotherPlace : commonPrefix [1, 0xA9, 3] c.unread = [1] := by decide
  rw [hcutPlace, hunread] at hcut
  rw [hotherPlace, hunread] at hother
  obtain ⟨v, r, hrun⟩ := hsucceeds.2 (by decide)
  obtain ⟨rfl, rfl⟩ := hvalue v r hrun
  obtain ⟨_, ⟨⟩, ⟨-, hmissing⟩ | ⟨_, ⟨⟩, -⟩⟩ := hcut (by decide)
  obtain ⟨_, ⟨⟩, ⟨⟨⟩, -⟩ | ⟨_, ⟨⟩, -, hunexpected⟩⟩ := hother (by decide)
  exact ⟨hc, hrun, hmissing, hunexpected⟩

end Parser

end Wire
