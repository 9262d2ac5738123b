import Wire.Parser.Choice
import Wire.Parser.Number
import Wire.Proofs.Bytes
import Wire.Proofs.Check
import Wire.Proofs.Failure

/-!
# Disciplines

A discipline says how the runs of a parser may end (`Discipline`): whether a success may lower the
limit, which failures there may be and with which faults a run may be abandoned. Every parser of the
library obeys a discipline when its parts do (`Parser.Obeys`), provided that the discipline agrees
with the few ways in which the library makes a failure from scratch, changes one, or picks one of
two (`Discipline.Lawful`). Under every discipline a run ends inside the cursor it started from.
-/

namespace Wire

variable {α β : Type}

/-- What is asked of all runs of a parser. -/
structure Discipline where
  /-- A success leaves the limit as it was. -/
  keepsLimit : Prop
  /-- A run may be abandoned with the fault. -/
  mayFault : Fault → Prop
  /-- A run from the cursor may end with the failure. -/
  mayFail : Cursor → Failure → Prop

/-- A cursor that a success of a run from another cursor may leave. -/
structure Discipline.Reaches (rules : Discipline) (c d : Cursor) : Prop where
  inside : d.Inside c
  limit : rules.keepsLimit → d.limit = c.limit

/-- A failure that refuses what was read at a cursor, as one combinator words it. -/
structure Failure.Refuses (f : Failure) (c : Cursor) : Prop where
  remainder : f.remainder = c
  kind : f.kind ≠ .unexpectedByte ∧ f.kind ≠ .endOfInput ∧ f.kind ≠ .windowOverrun
  expectations : f.expectations.length ≤ 1

/-- A discipline allows the failures that the library makes, and is kept by what the library does
with a failure that it allows. -/
structure Discipline.Lawful (rules : Discipline) : Prop where
  later {c d : Cursor} {f : Failure} :
    rules.Reaches c d → rules.mayFail d f → rules.mayFail c f
  endOfInput {c : Cursor} : c.Valid → c.unread = [] → rules.mayFail c (.endOfInput c)
  unexpectedByte {c : Cursor} {b : UInt8} {bs : List UInt8} :
    c.Valid → c.unread = b :: bs → rules.mayFail c (.unexpectedByte b c)
  refusal {c : Cursor} {f : Failure} : c.Valid → f.Refuses c → rules.mayFail c f
  expecting {c : Cursor} {f : Failure} (expectation : String) :
    rules.mayFail c f → rules.mayFail c (f.expecting expectation)
  relabel {c : Cursor} {f : Failure} (size : Nat) : c.Valid → f.remainder.Inside (c.windowed size) →
    rules.mayFail (c.windowed size) f → rules.mayFail c (Parser.relabel (c.windowed size) c f)
  furthest {c : Cursor} {f g : Failure} :
    rules.mayFail c f → rules.mayFail c g → rules.mayFail c (f.furthest g)

/-- An outcome of a run from a cursor as a discipline asks for. -/
def Outcome.Obeys (rules : Discipline) (c : Cursor) : Outcome α → Prop
  | .success _ rest => rules.Reaches c rest
  | .failure cause => cause.remainder.Inside c ∧ rules.mayFail c cause
  | .fault reason => rules.mayFault reason

/-- All runs of a parser from valid cursors are as a discipline asks for. -/
def Parser.Obeys (rules : Discipline) (p : Parser α) : Prop :=
  ∀ c, c.Valid → (p c).Obeys rules c

/-- A fault that lies in a grammar: its bounds are the wrong way round, or a name in it has no
definition or refers to itself without an end. -/
def Fault.OfGrammar : Fault → Prop
  | .invertedBounds _ _ | .undefinedName _ | .endlessReference _ => True
  | .outOfBuffer _ _ _ | .pastLimit _ _ | .wrongWidth _ _ | .retreat _ _ | .unknownMark _ => False

/-- The discipline of staying inside the start, under the same limit or not. -/
def Discipline.confined (keepsLimit : Prop) (mayFault : Fault → Prop := Fault.OfGrammar) :
    Discipline where
  keepsLimit := keepsLimit
  mayFault := mayFault
  mayFail _ _ := True

/-- To be confined is a lawful discipline. -/
theorem Discipline.confined_lawful (keepsLimit : Prop) (mayFault : Fault → Prop) :
    (confined keepsLimit mayFault).Lawful where
  later _ _ := trivial
  endOfInput _ _ := trivial
  unexpectedByte _ _ := trivial
  refusal _ _ := trivial
  expecting _ _ := trivial
  relabel _ _ _ _ := trivial
  furthest _ _ := trivial

/-- A relabelled failure keeps its place. -/
@[simp] theorem Parser.remainder_relabel (window outer : Cursor) (f : Failure) :
    (relabel window outer f).remainder = f.remainder := by
  unfold relabel
  split <;> rfl

/-! ## Outcomes -/

section
variable {rules : Discipline} {c d e : Cursor}

/-- A valid cursor is reached from itself. -/
theorem Discipline.Reaches.refl (hc : c.Valid) : rules.Reaches c c :=
  ⟨.refl hc, fun _ => rfl⟩

/-- To be reached is transitive. -/
theorem Discipline.Reaches.trans (h : rules.Reaches c d) (h' : rules.Reaches d e) :
    rules.Reaches c e :=
  ⟨h.inside.trans h'.inside, fun hk => (h'.limit hk).trans (h.limit hk)⟩

/-- Under the same limit, every cursor further on is reached. -/
theorem Discipline.Reaches.advance {n : Nat} (h : c.position + n ≤ c.limit) :
    rules.Reaches c (c.advance n) :=
  ⟨Cursor.advance_inside h, fun _ => rfl⟩

/-- A move that stops at the limit reaches its end. -/
theorem Discipline.Reaches.skip (hc : c.Valid) (n : Nat) : rules.Reaches c (c.skip n) :=
  ⟨Cursor.skip_inside hc, fun _ => rfl⟩

namespace Outcome

variable {o : Outcome α}

/-- An outcome of a later run is one of the run before it. -/
theorem Obeys.later (hr : rules.Lawful) (h : rules.Reaches c d) (ho : o.Obeys rules d) :
    o.Obeys rules c := by
  cases o with
  | success v r => exact h.trans ho
  | failure f => exact ⟨h.inside.trans ho.1, hr.later h ho.2⟩
  | fault r => exact ho

/-- A run that goes on after a success obeys when what it goes on with does. -/
theorem Obeys.bind {f : α → Cursor → Outcome β} (ho : o.Obeys rules c)
    (hf : ∀ v d, o = .success v d → rules.Reaches c d → (f v d).Obeys rules c) :
    (o.bind f).Obeys rules c := by
  cases o with
  | success v r => exact hf v r rfl ho
  | failure => exact ho
  | fault => exact ho

/-- An outcome with a changed value obeys as the outcome does. -/
theorem Obeys.map {f : α → β} (ho : o.Obeys rules c) : (o.map f).Obeys rules c := by
  cases o <;> exact ho

/-- A refusal at a cursor that was reached is allowed. -/
theorem Obeys.refusal (hr : rules.Lawful) (hc : c.Valid) {f : Failure} (hd : rules.Reaches c d)
    (h : f.Refuses d) : (Outcome.failure f : Outcome α).Obeys rules c := by
  refine ⟨?_, hr.later hd (hr.refusal (hd.inside.valid hc) h)⟩
  rw [h.remainder]
  exact hd.inside

end Outcome

namespace Parser

variable {p : Parser α}

/-! ## Sequences -/

/-- A constant obeys every discipline. -/
theorem obeys_pure (value : α) : (pure value : Parser α).Obeys rules :=
  fun _ hc => .refl hc

/-- Two parsers in a row obey when the first one does and all that its values choose. -/
theorem Obeys.bind (hr : rules.Lawful) {f : α → Parser β} (hp : p.Obeys rules)
    (hf : ∀ v, (f v).Obeys rules) : (p >>= f).Obeys rules := fun c hc =>
  (hp c hc).bind fun v d _ hd => (hf v d (hd.inside.valid hc)).later hr hd

/-- A parser whose value is changed obeys as the parser does. -/
theorem Obeys.map {f : α → β} (hp : p.Obeys rules) : (f <$> p).Obeys rules := fun c hc =>
  (hp c hc).bind fun _ _ _ hd => hd

/-- A pair of parsers obeys when both do. -/
theorem Obeys.both (hr : rules.Lawful) {q : Parser β} (hp : p.Obeys rules) (hq : q.Obeys rules) :
    (both p q).Obeys rules :=
  hp.bind hr fun _ => hq.bind hr fun _ => obeys_pure _

/-- Two parsers of lists in a row obey when both do. -/
theorem Obeys.append (hr : rules.Lawful) {p q : Parser (List α)} (hp : p.Obeys rules)
    (hq : q.Obeys rules) : (append p q).Obeys rules :=
  hp.bind hr fun _ => hq.bind hr fun _ => obeys_pure _

/-- A parser that is only looked at obeys when it does. -/
theorem Obeys.peek (hp : p.Obeys rules) : (peek p).Obeys rules := fun c hc =>
  (hp c hc).bind fun _ _ _ _ => .refl hc

/-! ## Bytes -/

/-- A byte under a condition obeys: it refuses at the place of the byte. -/
theorem obeys_byteWhere (hr : rules.Lawful) (accept : UInt8 → Bool) (description : String) :
    (byteWhere accept description).Obeys rules := by
  intro c hc
  have hlen := Cursor.length_unread hc
  rw [byteWhere_eq hc]
  cases hu : c.unread with
  | nil =>
    refine ⟨?_, hr.expecting _ (hr.endOfInput hc hu)⟩
    rw [Failure.remainder_expecting]
    exact .refl hc
  | cons b bs =>
    rw [hu, List.length_cons] at hlen
    dsimp only
    split
    · exact .advance (by omega)
    · refine ⟨?_, hr.expecting _ (hr.unexpectedByte hc hu)⟩
      rw [Failure.remainder_expecting]
      exact .refl hc

/-- A byte of any value obeys. -/
theorem obeys_byte (hr : rules.Lawful) : byte.Obeys rules :=
  obeys_byteWhere hr _ _

/-- Given bytes obey, one after another. -/
theorem obeys_sequence (hr : rules.Lawful) : ∀ bs, (sequence bs).Obeys rules
  | [] => obeys_pure _
  | _ :: bs => (obeys_byteWhere hr _ _).bind hr fun _ =>
      (obeys_sequence hr bs).bind hr fun _ => obeys_pure _

/-- A number of bytes obeys, and a part of them is refused where it starts. -/
theorem obeys_bytes (hr : rules.Lawful) (count : Nat) : (bytes count).Obeys rules := by
  intro c hc
  have hlen := Cursor.length_unread hc
  have := hc.1
  rw [bytes_eq hc]
  split
  · exact .advance (by omega)
  · exact .refusal hr hc (.refl hc) ⟨rfl, by simp [shortOf, Failure.boundedCountUnmet], le_rfl⟩

/-- A decoder of as many bytes as were taken is never given another number of them. -/
theorem obeys_decoded (hr : rules.Lawful) {width : Nat} {decode : List UInt8 → Checked α}
    (hdecode : ∀ bs, bs.length = width → ∃ v, decode bs = .ok v) :
    (bytes width >>= fun stored => ofChecked (decode stored)).Obeys rules := by
  intro c hc
  refine (obeys_bytes hr width c hc).bind fun stored d hrun hd => ?_
  rw [bytes_eq hc] at hrun
  split at hrun
  · cases hrun
    obtain ⟨v, hv⟩ := hdecode (c.unread.take width) (List.length_take_of_le ‹_›)
    simp only [ofChecked, hv]
    exact hd
  · cases hrun

/-- An integer obeys: its bytes are as many as it is wide. -/
theorem obeys_integer (hr : rules.Lawful) (t : IntegerType) (order : ByteOrder) :
    (integer t order).Obeys rules :=
  obeys_decoded hr fun _ h => ⟨_, if_pos h⟩

/-- A floating-point number obeys: its bytes are as many as it is wide. -/
theorem obeys_binary (hr : rules.Lawful) (f : BinaryFormat) (order : ByteOrder) :
    (binary f order).Obeys rules :=
  obeys_decoded hr fun _ h => ⟨_, if_pos h⟩

/-- The number of two bytes obeys when the parser of the bytes does. -/
theorem Obeys.wordOf (hr : rules.Lawful) {p : Parser (List UInt8)} (hp : p.Obeys rules)
    (order : ByteOrder) : (wordOf order p).Obeys rules := by
  intro c hc
  refine (hp c hc).bind fun stored d _ hd => ?_
  split
  · next hlen =>
    have hword : IntegerType.word.decode order stored = .ok _ := if_pos hlen
    rw [hword]
    exact hd
  · exact .refusal hr hc (.refl hc) ⟨rfl, by simp [Failure.wrongByteCount], by
      simp [Failure.wrongByteCount]⟩

/-! ## Limits -/

/-- To lower the limit obeys where the limit need not be kept. -/
theorem obeys_narrow (hk : ¬ rules.keepsLimit) (size : Nat) : (narrow size).Obeys rules :=
  fun _ hc => ⟨Cursor.windowed_inside hc, fun h => absurd h hk⟩

/-- To skip bytes obeys. -/
theorem obeys_skip (count : Nat) : (skip count).Obeys rules :=
  fun _ hc => .skip hc count

/-- To take all bytes before the limit obeys. -/
theorem obeys_rest : rest.Obeys rules := by
  intro c hc
  rw [rest_eq c hc]
  exact ⟨⟨rfl, hc.1, le_rfl, le_rfl⟩, fun _ => rfl⟩

/-- A parser that must reach the end obeys when it does. -/
theorem Obeys.toEnd (hr : rules.Lawful) (hp : p.Obeys rules) : (toEnd p).Obeys rules := by
  intro c hc
  refine (hp c hc).bind fun v d _ hd => ?_
  have hvalid := hd.inside.valid hc
  rw [current_eq hvalid]
  cases hu : d.unread with
  | nil => exact hd
  | cons b bs =>
    refine ⟨?_, hr.later hd (hr.expecting _ (hr.unexpectedByte hvalid hu))⟩
    rw [Failure.remainder_expecting]
    exact hd.inside

/-- Whatever a parser does in a window, the parser of the window goes on under the limit that it was
given: it takes the whole window, and says so where the limit cuts the window short. -/
theorem Obeys.within (hr : rules.Lawful) {inner : Discipline} (hp : p.Obeys inner)
    (hfail : ∀ c f, inner.mayFail c f → rules.mayFail c f)
    (hfault : ∀ reason, inner.mayFault reason → rules.mayFault reason) (size : Nat) :
    (within size p).Obeys rules := by
  intro c hc
  have hrun := hp (c.windowed size) ((Cursor.windowed_inside hc).valid hc)
  unfold Parser.within
  cases hpc : p (c.windowed size) with
  | success v d =>
    simp only [Cursor.remaining_eq hc]
    split
    · have hend : (c.skip size).unread = [] := by
        rw [Cursor.unread_eq_nil_iff ((Cursor.skip_inside hc).valid hc)]
        simp only [Cursor.skip_limit, Cursor.skip_position]
        omega
      have hskip : rules.Reaches c (c.skip size) := .skip hc size
      refine ⟨?_, hr.later hskip (hr.expecting _ (hr.endOfInput (hskip.inside.valid hc) hend))⟩
      rw [Failure.remainder_expecting]
      exact hskip.inside
    · exact .skip hc size
  | failure f =>
    rw [hpc] at hrun
    refine ⟨?_, hr.relabel size hc hrun.1 (hfail _ _ hrun.2)⟩
    rw [remainder_relabel]
    exact (Cursor.windowed_inside hc).trans hrun.1
  | fault r =>
    rw [hpc] at hrun
    exact hfault _ hrun

/-! ## Repetition -/

/-- A repeated parser that moves on leaves less to read, so no run of `many` is abandoned for going
back. -/
theorem Obeys.collect (hr : rules.Lawful) (hp : p.Obeys rules) (found : Array α) (c : Cursor)
    (hc : c.Valid) : (Parser.collect p found c).Obeys rules c := by
  fun_induction Parser.collect p found c with
  | case1 | case4 => exact .refl hc
  | case2 found c v d hpc _ _ ih =>
    have hd : (Outcome.success v d).Obeys rules c := hpc ▸ hp c hc
    exact (ih (Discipline.Reaches.inside hd |>.valid hc)).later hr hd
  | case3 found c v d hpc hmoved hback =>
    have hd : (Outcome.success v d).Obeys rules c := hpc ▸ hp c hc
    have hin : d.Inside c := Discipline.Reaches.inside hd
    have := hin.lt_of_not_samePlace (Bool.eq_false_iff.2 hmoved)
    have := hin.order
    have := hin.stop
    omega
  | case5 found c r hpc =>
    have hrun : (Outcome.fault r : Outcome α).Obeys rules c := hpc ▸ hp c hc
    exact hrun

/-- A parser that is repeated as often as it succeeds obeys when it does. -/
theorem Obeys.many (hr : rules.Lawful) (hp : p.Obeys rules) : (many p).Obeys rules :=
  fun c hc => (hp.collect hr #[] c hc).map

/-- So does a repetition that looks at the failure which ended it. -/
theorem Obeys.manyCommit (hr : rules.Lawful) (hp : p.Obeys rules) : (manyCommit p).Obeys rules := by
  intro c hc
  refine (hp.many hr c hc).bind fun vs d _ hd => ?_
  have hrun := (hp d (hd.inside.valid hc)).later hr hd
  cases hpd : p d with
  | success => exact hd
  | failure f =>
    rw [hpd] at hrun
    dsimp only
    split
    · exact hd
    · exact hrun
  | fault r =>
    rw [hpd] at hrun
    exact hrun

/-- A repetition that ends too early fails where it started. -/
theorem obeys_countUnmet (hr : rules.Lawful) (hc : c.Valid) (bounds : Bounds) (count : Nat)
    {f : Failure} (hf : f.remainder.Valid) :
    (countUnmet bounds count f c : Outcome α).Obeys rules c := by
  unfold countUnmet
  rw [current_eq hf]
  cases f.remainder.unread <;>
  exact .refusal hr hc (.refl hc) ⟨rfl, by simp [Failure.boundedCountUnmet], le_rfl⟩

/-- The loop of a bounded repetition obeys as a run from the start of the repetition, from every
cursor that the start reaches. -/
theorem Obeys.repeatedFrom (hr : rules.Lawful) (hp : p.Obeys rules) (bounds : Bounds)
    (hc : c.Valid) : ∀ (left : Nat) (found : Array α) (d : Cursor), rules.Reaches c d →
      (repeatedFrom p bounds c left found d).Obeys rules c
  | 0, _, _, hd => hd
  | left + 1, found, d, hd => by
    have hrun := hp d (hd.inside.valid hc)
    rw [Parser.repeatedFrom]
    cases hpd : p d with
    | success v e =>
      rw [hpd] at hrun
      exact hp.repeatedFrom hr bounds hc left _ e (hd.trans hrun)
    | failure f =>
      rw [hpd] at hrun
      dsimp only
      split
      · exact obeys_countUnmet hr hc bounds _ (hrun.1.valid (hd.inside.valid hc))
      · exact hd
    | fault r =>
      rw [hpd] at hrun
      exact hrun

/-- A bounded repetition obeys when the parser does. -/
theorem Obeys.repeated (hr : rules.Lawful) (hp : p.Obeys rules) (bounds : Bounds) :
    (repeated p bounds).Obeys rules :=
  fun c hc => (hp.repeatedFrom hr bounds hc bounds.max #[] c (.refl hc)).map

/-! ## Choice -/

/-- A choice obeys when both alternatives do, whatever it is committed by. -/
theorem Obeys.choose (hr : rules.Lawful) {q : Parser α} (hp : p.Obeys rules) (hq : q.Obeys rules)
    (commitment : Commitment) : (choose commitment p q).Obeys rules := by
  intro c hc
  have hfirst := hp c hc
  have hsecond := hq c hc
  unfold Parser.choose
  cases hpc : p c with
  | success v d =>
    rw [hpc] at hfirst
    dsimp only
    split
    · cases hqc : q c with
      | success => rwa [hqc] at hsecond
      | failure => exact hfirst
      | fault => rwa [hqc] at hsecond
    · exact hfirst
  | failure f =>
    rw [hpc] at hfirst
    dsimp only
    split
    · exact hfirst
    · cases hqc : q c with
      | success => rwa [hqc] at hsecond
      | failure g =>
        rw [hqc] at hsecond
        refine ⟨?_, hr.furthest hfirst.2 hsecond.2⟩
        rcases f.remainder_furthest g with h | h <;> rw [h]
        · exact hfirst.1
        · exact hsecond.1
      | fault => rwa [hqc] at hsecond
  | fault r =>
    rw [hpc] at hfirst
    exact hfirst

/-- A guarded parser obeys when it and its guard do. -/
theorem Obeys.butNot (hr : rules.Lawful) {guard : Parser β} (hp : p.Obeys rules)
    (hguard : guard.Obeys rules) : (butNot p guard).Obeys rules := by
  intro c hc
  have hrun := hguard c hc
  unfold Parser.butNot
  cases hgc : guard c with
  | success =>
    exact .refusal hr hc (.refl hc) ⟨rfl, by simp [Failure.negativeLookahead], le_rfl⟩
  | failure => exact hp c hc
  | fault =>
    rw [hgc] at hrun
    exact hrun

/-- Items up to a terminator obey when both parsers do. -/
theorem Obeys.upTo (hr : rules.Lawful) {terminator : Parser β} (hp : p.Obeys rules)
    (ht : terminator.Obeys rules) : (upTo p terminator).Obeys rules :=
  ((hp.butNot hr ht).many hr).bind hr fun _ => ht.bind hr fun _ => obeys_pure _

/-! ## Checks and spans -/

/-- A parser with a condition on its values obeys when it does. -/
theorem Obeys.satisfying (hr : rules.Lawful) (hp : p.Obeys rules) (accept : α → Bool)
    (description : String) : (satisfying p accept description).Obeys rules := by
  intro c hc
  rw [satisfying_eq]
  refine (hp c hc).bind fun v d _ hd => ?_
  split
  · exact hd
  · exact .refusal hr hc (.refl hc) ⟨rfl, by simp [Failure.notValid], le_rfl⟩

/-- A success leaves a cursor inside the start. -/
theorem Obeys.inside (hp : p.Obeys rules) (hc : c.Valid) (v : α) (d : Cursor)
    (hrun : p c = .success v d) : d.Inside c := by
  have h := hp c hc
  rw [hrun] at h
  exact h.inside

/-- A parser with a digest behind it obeys when it does: the bytes that the digest covers are
there. -/
theorem Obeys.withDigest (hr : rules.Lawful) (hp : p.Obeys rules) (checksum : Checksum) :
    (withDigest p checksum).Obeys rules := by
  intro c hc
  rw [withDigest_eq hc (hp.inside hc)]
  refine (hp c hc).bind fun v d _ hd => ?_
  have hvalid := hd.inside.valid hc
  refine ((obeys_bytes hr _ d hvalid).later hr hd).bind fun found e _ he => ?_
  split
  · exact he
  · exact .refusal hr hc hd ⟨rfl, by simp [Failure.checksumMismatch], Nat.zero_le _⟩

/-- A parser with the bytes that it took obeys when it does: these bytes are there. -/
theorem Obeys.spanned (hp : p.Obeys rules) : p.spanned.Obeys rules := by
  intro c hc
  rw [spanned_eq hc (hp.inside hc)]
  exact (hp c hc).bind fun v d _ hd => hd

end Parser

end

end Wire
