import Wire.Proofs.Format
import Wire.Proofs.Trail.Commit

/-!
# Where faults come from

No parser of the library makes a fault of a grammar, which is about bounds or a reference, by
itself. When one is abandoned for such a fault, it has come to run one of its parts, at a cursor
that the runs before it left, and that part was abandoned for this fault. For each parser it is
stated here which part that is and how the run came to it.
-/

namespace Wire

variable {α β : Type} {reason : Fault}

/-- A run that goes on after a success is abandoned before that or after it. -/
theorem Outcome.bind_eq_fault_iff {o : Outcome α} {f : α → Cursor → Outcome β} :
    o.bind f = .fault reason ↔
      o = .fault reason ∨ ∃ v d, o = .success v d ∧ f v d = .fault reason := by
  cases o <;> simp [bind]

/-- To change the value is no reason to abandon a run. -/
theorem Outcome.map_eq_fault_iff {o : Outcome α} {f : α → β} :
    o.map f = .fault reason ↔ o = .fault reason := by
  cases o <;> simp [map]

/-- The first alternative at a cursor lets the second one run: it stayed at the cursor, or its
failure is not final. -/
def Outcome.GivesWay (commitment : Parser.Commitment) (c : Cursor) : Outcome α → Prop
  | .success _ rest => rest.samePlace c = true
  | .failure cause => commitment.holds cause c = false
  | .fault _ => False

namespace Parser

variable {p : Parser α} {c d : Cursor}

/-! ## Sequences -/

/-- The first parser of two is abandoned, or the one that its value chooses is. -/
theorem fault_bind {f : α → Parser β} (h : (p >>= f) c = .fault reason) :
    p c = .fault reason ∨ ∃ v d, p c = .success v d ∧ f v d = .fault reason :=
  Outcome.bind_eq_fault_iff.1 h

/-- A parser whose value is changed is abandoned as the parser is. -/
theorem fault_map {f : α → β} (h : (f <$> p) c = .fault reason) : p c = .fault reason := by
  rcases fault_bind h with hp | ⟨v, d, -, hv⟩
  · exact hp
  · cases hv

/-- A changed value is that of the parser, changed. -/
theorem success_of_map {f : α → β} {w : β} (h : (f <$> p) c = .success w d) :
    ∃ v, p c = .success v d ∧ f v = w := by
  obtain ⟨v, e, hv, hw⟩ := bind_eq_success_iff.1 h
  cases hw
  exact ⟨v, hv, rfl⟩

/-- The first or the second parser of a pair is abandoned. -/
theorem fault_both {q : Parser β} (h : both p q c = .fault reason) :
    p c = .fault reason ∨ ∃ v d, p c = .success v d ∧ q d = .fault reason := by
  refine (fault_bind h).imp_right fun ⟨v, d, hv, hq⟩ => ⟨v, d, hv, ?_⟩
  exact fault_map hq

/-- The first or the second of two parsers of lists is abandoned. -/
theorem fault_append {p q : Parser (List α)} (h : append p q c = .fault reason) :
    p c = .fault reason ∨ ∃ v d, p c = .success v d ∧ q d = .fault reason := by
  refine (fault_bind h).imp_right fun ⟨v, d, hv, hq⟩ => ⟨v, d, hv, ?_⟩
  exact fault_map hq

/-- A parser that is only looked at is abandoned as the parser is. -/
theorem fault_peek (h : peek p c = .fault reason) : p c = .fault reason := by
  rcases Outcome.bind_eq_fault_iff.1 h with hp | ⟨v, d, -, hv⟩
  · exact hp
  · cases hv

/-! ## Checks and spans -/

/-- Two bytes are always a number. -/
theorem fault_wordOf {p : Parser (List UInt8)} {order : ByteOrder}
    (h : wordOf order p c = .fault reason) : p c = .fault reason := by
  rcases Outcome.bind_eq_fault_iff.1 h with hp | ⟨stored, d, -, hv⟩
  · exact hp
  · split at hv
    · next hlen =>
      have hword : IntegerType.word.decode order stored = .ok _ := if_pos hlen
      rw [hword] at hv
      cases hv
    · cases hv

/-- To refuse a value is a failure. -/
theorem fault_satisfying {accept : α → Bool} {description : String}
    (h : satisfying p accept description c = .fault reason) : p c = .fault reason := by
  rw [satisfying_eq] at h
  rcases Outcome.bind_eq_fault_iff.1 h with hp | ⟨v, d, -, hv⟩
  · exact hp
  · split at hv <;> cases hv

section
variable (hc : c.Valid) (hinside : ∀ v d, p c = .success v d → d.Inside c)
include hc hinside

/-- The bytes that a digest covers are there, and so is the digest, or the parser fails. -/
theorem fault_withDigest {checksum : Checksum} (h : withDigest p checksum c = .fault reason) :
    p c = .fault reason := by
  rw [withDigest_eq hc hinside] at h
  rcases Outcome.bind_eq_fault_iff.1 h with hp | ⟨v, d, hv, hdigest⟩
  · exact hp
  · dsimp only at hdigest
    rw [bytes_eq ((hinside v d hv).valid hc)] at hdigest
    rcases Outcome.bind_eq_fault_iff.1 hdigest with hbytes | ⟨found, e, -, hfound⟩
    · split at hbytes <;> cases hbytes
    · split at hfound <;> cases hfound

/-- The bytes that a value took are there. -/
theorem fault_spanned (h : p.spanned c = .fault reason) : p c = .fault reason := by
  rw [spanned_eq hc hinside] at h
  rcases Outcome.bind_eq_fault_iff.1 h with hp | ⟨v, d, -, hv⟩
  · exact hp
  · cases hv

end

section
variable (hr : reason.OfGrammar)
include hr

/-- A byte outside of the buffer is no fault of a grammar. -/
theorem current_ne_fault (c : Cursor) : current c ≠ .fault reason := by
  intro h
  unfold current at h
  split at h
  · cases h
  · split at h
    · cases h
    · cases h
      exact hr

/-- What is behind the value of a parser is looked at, but not parsed. -/
theorem fault_toEnd (h : toEnd p c = .fault reason) : p c = .fault reason := by
  rcases Outcome.bind_eq_fault_iff.1 h with hp | ⟨v, d, -, hv⟩
  · exact hp
  · cases hcurrent : current d with
    | success b e =>
      rw [hcurrent] at hv
      cases hv
    | failure f =>
      rw [hcurrent] at hv
      cases hv
    | fault reason' =>
      rw [hcurrent] at hv
      cases hv
      exact absurd hcurrent (current_ne_fault hr d)

/-! ## Repetition -/

/-- The loop of `many` comes from one application to the next for as long as these move on. -/
theorem fault_collect {found : Array α} (h : collect p found c = .fault reason) :
    ∃ as d, p.Trail c as d ∧ (∀ a ∈ as, a.moved = true) ∧ p d = .fault reason := by
  fun_induction collect p found c with
  | case1 | case4 => cases h
  | case2 found c v next hpc hplace _ ih =>
    obtain ⟨as, d, htrail, hmoved, hfault⟩ := ih h
    refine ⟨⟨v, c, next⟩ :: as, d, .cons hpc htrail, List.forall_mem_cons.2 ⟨?_, hmoved⟩, hfault⟩
    rw [Application.moved, Bool.eq_false_iff.2 hplace, Bool.not_false]
  | case3 =>
    cases h
    exact hr.elim
  | case5 found c reason' hpc =>
    cases h
    exact ⟨[], c, .nil c, List.forall_mem_nil _, hpc⟩

/-- A parser that is repeated as often as it moves on is abandoned in one of the applications. -/
theorem fault_many (h : many p c = .fault reason) :
    ∃ as d, p.Trail c as d ∧ (∀ a ∈ as, a.moved = true) ∧ p d = .fault reason :=
  fault_collect hr (Outcome.map_eq_fault_iff.1 h)

/-- The application behind the last one is the one that `many` stopped at, and is not abandoned. -/
theorem fault_manyCommit (h : manyCommit p c = .fault reason) :
    ∃ as d, p.Trail c as d ∧ (∀ a ∈ as, a.moved = true) ∧ p d = .fault reason := by
  rcases Outcome.bind_eq_fault_iff.1 h with hmany | ⟨vs, d, hmany, -⟩
  · exact fault_many hr hmany
  · rcases stops_of_many hmany with ⟨f, hf⟩ | ⟨v, e, hv, -⟩
    · rw [manyCommit_of_failure hmany hf] at h
      split at h <;> cases h
    · rw [manyCommit_of_success hmany hv] at h
      cases h

/-- A repetition that ends too early fails. -/
theorem countUnmet_ne_fault {bounds : Bounds} {count : Nat} {f : Failure} {start : Cursor} :
    (countUnmet bounds count f start : Outcome α) ≠ .fault reason := by
  intro h
  unfold countUnmet at h
  split at h
  · cases h
  · cases h
  · next reason' hcurrent =>
    cases h
    exact current_ne_fault hr _ hcurrent

/-- The loop of a bounded repetition comes from one application to the next. -/
theorem fault_repeatedFrom {bounds : Bounds} {start : Cursor} :
    ∀ {left : Nat} {found : Array α} {c : Cursor},
      repeatedFrom p bounds start left found c = .fault reason →
        ∃ as d, p.Trail c as d ∧ as.length < left ∧ p d = .fault reason
  | 0, found, c, h => by cases h
  | left + 1, found, c, h => by
    rw [repeatedFrom] at h
    cases hp : p c with
    | success v next =>
      rw [hp] at h
      obtain ⟨as, d, htrail, hlength, hfault⟩ := fault_repeatedFrom h
      exact ⟨⟨v, c, next⟩ :: as, d, .cons hp htrail, Nat.succ_lt_succ hlength, hfault⟩
    | failure f =>
      rw [hp] at h
      dsimp only at h
      split at h
      · exact absurd h (countUnmet_ne_fault hr)
      · cases h
    | fault reason' =>
      rw [hp] at h
      cases h
      exact ⟨[], c, .nil c, Nat.succ_pos left, hp⟩

/-- A bounded repetition is abandoned in one of the applications. -/
theorem fault_repeated {bounds : Bounds} (h : repeated p bounds c = .fault reason) :
    ∃ as d, p.Trail c as d ∧ as.length < bounds.max ∧ p d = .fault reason :=
  fault_repeatedFrom hr (Outcome.map_eq_fault_iff.1 h)

end

/-! ## Choice -/

/-- Of two alternatives the second one is abandoned only if the first one gives way to it. -/
theorem fault_choose {q : Parser α} {commitment : Commitment}
    (h : choose commitment p q c = .fault reason) :
    p c = .fault reason ∨ (p c).GivesWay commitment c ∧ q c = .fault reason := by
  unfold choose at h
  cases hp : p c with
  | success v d =>
    rw [hp] at h
    dsimp only at h
    split at h
    · next hplace =>
      cases hq : q c with
      | success w e =>
        rw [hq] at h
        cases h
      | failure g =>
        rw [hq] at h
        cases h
      | fault reason' =>
        rw [hq] at h
        cases h
        exact .inr ⟨hplace, rfl⟩
    · cases h
  | failure f =>
    rw [hp] at h
    dsimp only at h
    split at h
    · cases h
    · next hopen =>
      cases hq : q c with
      | success w e =>
        rw [hq] at h
        cases h
      | failure g =>
        rw [hq] at h
        cases h
      | fault reason' =>
        rw [hq] at h
        cases h
        exact .inr ⟨Bool.eq_false_iff.2 hopen, rfl⟩
  | fault reason' =>
    rw [hp] at h
    cases h
    exact .inl rfl

/-- A guard is abandoned, or it fails and the parser behind it is. -/
theorem fault_butNot {guard : Parser β} (h : butNot p guard c = .fault reason) :
    guard c = .fault reason ∨ (∃ f, guard c = .failure f) ∧ p c = .fault reason := by
  unfold butNot at h
  cases hguard : guard c with
  | success w e =>
    rw [hguard] at h
    cases h
  | failure f =>
    rw [hguard] at h
    exact .inr ⟨⟨f, rfl⟩, h⟩
  | fault reason' =>
    rw [hguard] at h
    cases h
    exact .inl rfl

end Parser

end Wire
