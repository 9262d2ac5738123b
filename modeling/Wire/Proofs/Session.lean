import Wire.Session
import Wire.Proofs.Safety

/-!
# Sessions stay in their range

A session starts with a whole buffer or with a range that the buffer holds. What a step can do is
said once (`Session.Moves`): it takes the cursor to one inside it, whatever grammar it runs and also
where it follows a failure, or back to a saved cursor, or it saves the cursor. So all cursors of a
session lie inside the first one, after every number of steps (`Session.confined_of_run`). A run of
steps is abandoned for what lies in the steps alone, going back to a cursor that was not saved or
running a grammar with a fault in it (`Session.run_stays`).
-/

namespace Wire

/-! ## Checked computations -/

section
variable {α β : Type} {x : Checked α} {f : α → Checked β} {b : β} {reason : Fault}

/-- A computation in two parts gives a value when both do. -/
theorem Checked.bind_eq_ok_iff : x >>= f = .ok b ↔ ∃ a, x = .ok a ∧ f a = .ok b := by
  cases x with
  | ok a =>
    refine ⟨fun h => ⟨a, rfl, h⟩, ?_⟩
    rintro ⟨_, ⟨⟩, h⟩
    exact h
  | error reason => exact ⟨nofun, nofun⟩

/-- A computation in two parts is abandoned in the first or in the second. -/
theorem Checked.bind_eq_error_iff :
    x >>= f = .error reason ↔ x = .error reason ∨ ∃ a, x = .ok a ∧ f a = .error reason := by
  cases x with
  | ok a =>
    refine ⟨fun h => .inr ⟨a, rfl, h⟩, ?_⟩
    rintro (⟨⟨⟩⟩ | ⟨_, ⟨⟩, h⟩)
    exact h
  | error reason' =>
    refine ⟨fun h => .inl ?_, ?_⟩
    · cases h
      rfl
    · rintro (⟨⟨⟩⟩ | ⟨_, ⟨⟩, -⟩)
      rfl

end

namespace Cursor

variable {data : Buffer} {start count : Nat} {c : Cursor} {e : RangeError}

/-! ## Ranges -/

/-- A range is accepted when the buffer has it, and the cursor is that of the range. -/
theorem ofRange?_eq_ok_iff :
    ofRange? data start count = .ok c ↔
      start + count ≤ data.size ∧ c = ⟨data, start, start + count⟩ := by
  unfold ofRange?
  split
  · next hstart => exact ⟨nofun, fun h => by omega⟩
  · split
    · next hstop => exact ⟨nofun, fun h => by omega⟩
    · next hstop => simp [Nat.le_of_not_lt hstop, eq_comm]

/-- The cursor of a range is valid. -/
theorem ofRange?_valid (h : ofRange? data start count = .ok c) : c.Valid := by
  obtain ⟨hstop, rfl⟩ := ofRange?_eq_ok_iff.1 h
  exact ⟨Nat.le_add_right _ _, hstop⟩

/-- A range that is refused is refused for its offset if that is behind the buffer, and else for its
length. -/
theorem argument_of_ofRange? (h : ofRange? data start count = .error e) :
    e.argument = if data.size < start then "offset" else "len" := by
  unfold ofRange? at h
  split at h
  · next hstart =>
    cases h
    rw [if_pos hstart]
    rfl
  · next hstart =>
    split at h <;> cases h
    rw [if_neg hstart]
    rfl

/-- A sum of two words, if it is a word. -/
def checkedSum (m n : Nat) : Option Nat :=
  if m + n < 2 ^ 64 then some (m + n) else none

/-- The start of a range as a machine with words of 64 bits finds it, which refuses a range whose
end is no word. -/
def ofWords? (data : Buffer) (start count : Nat) : Except RangeError Cursor :=
  if data.size < start then .error (.offset start data.size)
  else match checkedSum start count with
    | some stop =>
      if stop ≤ data.size then .ok ⟨data, start, stop⟩
      else .error (.length start count data.size)
    | none => .error (.length start count data.size)

/-- An end that is no word is behind every buffer. -/
theorem ofRange?_eq_ofWords? (hsize : data.size < 2 ^ 64) :
    ofRange? data start count = ofWords? data start count := by
  unfold ofRange? ofWords? checkedSum
  split
  · rfl
  · by_cases hsum : start + count < 2 ^ 64
    · rw [if_pos hsum]
      by_cases hstop : start + count ≤ data.size
      · simp only [if_neg (Nat.not_lt.2 hstop), if_pos hstop]
      · simp only [if_pos (Nat.lt_of_not_le hstop), if_neg hstop]
    · rw [if_neg hsum, if_pos (by omega)]

/-- A cursor that a session over a buffer may start with: that of the whole buffer or of a range. -/
inductive Starts (data : Buffer) : Cursor → Prop
  | buffer : Starts data (.ofBuffer data)
  | range {start count : Nat} {c : Cursor} : ofRange? data start count = .ok c → Starts data c

/-- A session starts with a valid cursor. -/
theorem Starts.valid (h : Starts data c) : c.Valid := by
  cases h with
  | buffer => exact ofBuffer_valid data
  | range hrange => exact ofRange?_valid hrange

/-- A session starts with a cursor of its buffer. -/
theorem Starts.data_eq (h : Starts data c) : c.data = data := by
  cases h with
  | buffer => rfl
  | range hrange =>
    obtain ⟨-, rfl⟩ := ofRange?_eq_ok_iff.1 hrange
    rfl

/-! ## The end -/

/-- Nothing is left at the end, and only there. -/
theorem remaining_eq_zero_iff (hc : c.Valid) : c.remaining = .ok 0 ↔ c.atEnd = true := by
  rw [remaining_eq hc, atEnd_iff, Except.ok.injEq, Nat.sub_eq_zero_iff_le]

/-- There is no byte to ask for at the end, and only there. -/
theorem current_failure_iff (hc : c.Valid) :
    (∃ f, Parser.current c = .failure f) ↔ c.atEnd = true := by
  rw [atEnd_iff, ← unread_eq_nil_iff hc, Parser.current_eq hc]
  cases c.unread <;> simp

end Cursor

/-- What a run of a grammar leaves is inside the cursor that it started from, also where it fails;
and only a fault in the grammar abandons it. -/
theorem Grammar.run_cases (defs : Definitions) (g : Grammar) {c : Cursor} (hc : c.Valid) :
    (∃ v r, g.run defs c = .success v r ∧ r.Inside c) ∨
      (∃ f, g.run defs c = .failure f ∧ f.remainder.Inside c) ∨
        ∃ reason, g.run defs c = .fault reason ∧ reason.OfGrammar := by
  have hrun := run_obeys_confined defs g c hc
  cases ho : g.run defs c with
  | success v r =>
    rw [ho] at hrun
    exact .inl ⟨v, r, rfl, hrun.inside⟩
  | failure f =>
    rw [ho] at hrun
    exact .inr (.inl ⟨f, rfl, hrun.1⟩)
  | fault reason => exact .inr (.inr ⟨reason, rfl, (fault_of_run hc ho).1⟩)

namespace Session

variable {defs : Definitions} {start : Cursor} {s s' : Session} {t : Step} {steps : List Step}
  {reply : Reply} {trace : List (Reply × Session)} {reason : Fault}

/-! ## One step -/

/-- What a step can do to a session when it is not abandoned. -/
inductive Moves (s : Session) : Step → Session → Prop
  | forward {t : Step} {d : Cursor} : d.Inside s.cursor → Moves s t (s.moveTo d)
  | back {mark : Nat} {d : Cursor} : s.saved[mark]? = some d → Moves s (.restore mark) (s.moveTo d)
  | save : Moves s .save { s with saved := s.saved.push s.cursor }

/-- Why a step of a session can be abandoned: no cursor was saved under an index, or there is a
fault in a grammar. -/
inductive Abandons (defs : Definitions) (s : Session) : Step → Fault → Prop
  | restore {mark : Nat} : s.saved.size ≤ mark → Abandons defs s (.restore mark) (.unknownMark mark)
  | sameAs {mark : Nat} : s.saved.size ≤ mark → Abandons defs s (.sameAs mark) (.unknownMark mark)
  | parse {g : Grammar} {reason : Fault} : g.run defs s.cursor = .fault reason →
    reason.OfGrammar → Abandons defs s (.parse g) reason
  | commit {g : Grammar} {reason : Fault} : g.run defs s.cursor = .fault reason →
    reason.OfGrammar → Abandons defs s (.commit g) reason

/-- What a step gives is what it can do, or why it can be abandoned. -/
def Explains (defs : Definitions) (s : Session) (t : Step) : Checked (Reply × Session) → Prop
  | .ok (_, s') => s.Moves t s'
  | .error reason => s.Abandons defs t reason

/-- A step that goes on with a saved cursor is explained when it is for every one of them. -/
theorem explains_marked {mark : Nat} {f : Cursor → Checked (Reply × Session)}
    (hnone : s.saved.size ≤ mark → s.Abandons defs t (.unknownMark mark))
    (hsome : ∀ d, s.saved[mark]? = some d → s.Explains defs t (f d)) :
    s.Explains defs t (s.marked mark >>= f) := by
  unfold marked
  split
  · next d hd => exact hsome d hd
  · next hd => exact hnone (Array.getElem?_eq_none_iff.1 hd)

/-- Every step from a valid cursor is explained. -/
theorem step_explained (defs : Definitions) (hs : s.cursor.Valid) (t : Step) :
    s.Explains defs t (s.step defs t) := by
  cases t with
  | next => exact .forward (Cursor.next_inside hs)
  | skip count => exact .forward (Cursor.skip_inside hs)
  | windowed size => exact .forward (Cursor.windowed_inside hs)
  | restore mark => exact explains_marked .restore fun d hd => Moves.back hd
  | current =>
    unfold step
    rw [Parser.current_eq hs]
    cases s.cursor.unread <;> exact Moves.forward (.refl hs)
  | save => exact .save
  | sameAs mark => exact explains_marked .sameAs fun d _ => Moves.forward (.refl hs)
  | place | inner => exact .forward (.refl hs)
  | parse g =>
    rw [step]
    obtain ⟨v, r, ho, hr⟩ | ⟨f, ho, -⟩ | ⟨reason, ho, hreason⟩ := Grammar.run_cases defs g hs
    · rw [ho]
      exact Moves.forward hr
    · rw [ho]
      exact Moves.forward (.refl hs)
    · rw [ho]
      exact Abandons.parse ho hreason
  | commit g =>
    rw [step]
    obtain ⟨v, r, ho, hr⟩ | ⟨f, ho, hf⟩ | ⟨reason, ho, hreason⟩ := Grammar.run_cases defs g hs
    · rw [ho]
      exact Moves.forward hr
    · rw [ho]
      exact Moves.forward hf
    · rw [ho]
      exact Abandons.commit ho hreason

/-- A step that is made is one of the moves. -/
theorem Moves.of_step (hs : s.cursor.Valid) (h : s.step defs t = .ok (reply, s')) :
    s.Moves t s' := by
  have hexplained := step_explained defs hs t
  rwa [h] at hexplained

/-- A step is abandoned for one of the reasons there are. -/
theorem Abandons.of_step (hs : s.cursor.Valid) (h : s.step defs t = .error reason) :
    s.Abandons defs t reason := by
  have hexplained := step_explained defs hs t
  rwa [h] at hexplained

/-- All cursors of a session lie inside the one that it started with. -/
structure Confined (start : Cursor) (s : Session) : Prop where
  cursor : s.cursor.Inside start
  saved (d : Cursor) : d ∈ s.saved → d.Inside start

/-- A session lies inside its start when it begins. -/
theorem ofCursor_confined (hc : start.Valid) : (ofCursor start).Confined start where
  cursor := .refl hc
  saved d hd := by
    obtain rfl : d = start := by simpa [ofCursor] using hd
    exact .refl hc

/-- A move keeps a session inside its start. -/
theorem Moves.confined (h : s.Moves t s') (hs : s.Confined start) : s'.Confined start := by
  cases h with
  | forward hd => exact ⟨hs.cursor.trans hd, hs.saved⟩
  | back hmark => exact ⟨hs.saved _ (Array.mem_of_getElem? hmark), hs.saved⟩
  | save =>
    refine ⟨hs.cursor, fun d hd => ?_⟩
    rcases Array.mem_push.1 hd with hd | rfl
    · exact hs.saved d hd
    · exact hs.cursor

/-- Only going back to a saved cursor takes a session out of where it is. -/
theorem Moves.inside (h : s.Moves t s') (hs : s.cursor.Valid) (ht : ∀ mark, t ≠ .restore mark) :
    s'.cursor.Inside s.cursor := by
  cases h with
  | forward hd => exact hd
  | back hmark => exact absurd rfl (ht _)
  | save => exact .refl hs

/-! ## Steps in a row -/

/-- The session at the start and after each step. -/
def states (s : Session) (trace : List (Reply × Session)) : List Session :=
  s :: trace.map Prod.snd

/-- A run takes the first step and then the others. -/
theorem run_cons_eq_ok_iff :
    s.run defs (t :: steps) = .ok trace ↔ ∃ reply s' later, s.step defs t = .ok (reply, s') ∧
      s'.run defs steps = .ok later ∧ trace = (reply, s') :: later := by
  rw [run, Checked.bind_eq_ok_iff]
  simp only [Checked.bind_eq_ok_iff, Prod.exists]
  constructor
  · rintro ⟨reply, s', hstep, later, hrun, ⟨⟩⟩
    exact ⟨reply, s', later, hstep, hrun, rfl⟩
  · rintro ⟨reply, s', later, hstep, hrun, rfl⟩
    exact ⟨reply, s', hstep, later, hrun, rfl⟩

/-- A run is abandoned with its first step or with the others. -/
theorem run_cons_eq_error_iff :
    s.run defs (t :: steps) = .error reason ↔ s.step defs t = .error reason ∨
      ∃ reply s', s.step defs t = .ok (reply, s') ∧ s'.run defs steps = .error reason := by
  rw [run, Checked.bind_eq_error_iff]
  simp only [Checked.bind_eq_error_iff, Prod.exists]
  refine or_congr_right (exists_congr fun reply => exists_congr fun s' => and_congr_right' ?_)
  exact or_iff_left (by rintro ⟨later, -, ⟨⟩⟩)

/-- Every step of a run leaves a reply. -/
theorem length_of_run (h : s.run defs steps = .ok trace) : trace.length = steps.length := by
  induction steps generalizing s trace with
  | nil =>
    cases h
    rfl
  | cons t steps ih =>
    obtain ⟨reply, s', later, -, hrun, rfl⟩ := run_cons_eq_ok_iff.1 h
    rw [List.length_cons, List.length_cons, ih hrun]

/-- Every state of a run is confined to the start. -/
theorem confined_of_run (hc : start.Valid) (hs : s.Confined start)
    (h : s.run defs steps = .ok trace) : ∀ state ∈ s.states trace, state.Confined start := by
  induction steps generalizing s trace with
  | nil =>
    cases h
    simpa [states] using hs
  | cons t steps ih =>
    obtain ⟨reply, s', later, hstep, hrun, rfl⟩ := run_cons_eq_ok_iff.1 h
    have hs' := (Moves.of_step (hs.cursor.valid hc) hstep).confined hs
    exact List.forall_mem_cons.2 ⟨hs, ih hs' hrun⟩

/-- Every step of a run leads from a state of the run to the next one. -/
theorem exists_step_of_run (h : s.run defs steps = .ok trace) {n : Nat} (hn : steps[n]? = some t) :
    ∃ before reply after, (s.states trace)[n]? = some before ∧
      (s.states trace)[n + 1]? = some after ∧ before.step defs t = .ok (reply, after) := by
  induction steps generalizing s trace n with
  | nil => cases hn
  | cons t' steps ih =>
    obtain ⟨reply, s', later, hstep, hrun, rfl⟩ := run_cons_eq_ok_iff.1 h
    cases n with
    | zero =>
      cases hn
      exact ⟨s, reply, s', rfl, rfl, hstep⟩
    | succ n => exact ih hrun hn

/-- A run is abandoned with one of its steps, in the last state of the steps before it. -/
theorem exists_step_of_run_error (h : s.run defs steps = .error reason) :
    ∃ n t trace before, steps[n]? = some t ∧ s.run defs (steps.take n) = .ok trace ∧
      (s.states trace)[n]? = some before ∧ before.step defs t = .error reason := by
  induction steps generalizing s with
  | nil => cases h
  | cons t steps ih =>
    rcases run_cons_eq_error_iff.1 h with hstep | ⟨reply, s', hstep, hrun⟩
    · exact ⟨0, t, [], s, rfl, rfl, rfl, hstep⟩
    · obtain ⟨n, t', trace, before, hn, htake, hbefore, hlast⟩ := ih hrun
      refine ⟨n + 1, t', (reply, s') :: trace, before, hn, ?_, hbefore, hlast⟩
      exact run_cons_eq_ok_iff.2 ⟨reply, s', trace, hstep, htake, rfl⟩

/-- A range can be taken just when the buffer holds it, also where the end has to be a word; if not,
the offset is to blame when it lies behind the buffer, and the length otherwise. A session starts
with a range or with the whole buffer. After any of its steps the cursor lies inside the start, and
what it is moved by next is not cut off by words; it is at its end just when nothing is left, and
just when there is no byte to ask for. Every step but going back to a saved cursor leaves the
position where it is or takes it up, and the limit where it is or lowers it. The steps are abandoned
only with one that asks for a cursor which was not saved or runs a grammar with a fault in it. -/
theorem run_stays :
    (∀ (data : Buffer) (offset count : Nat),
      ((∃ c, Cursor.ofRange? data offset count = .ok c) ↔ offset + count ≤ data.size) ∧
      (∀ c, Cursor.ofRange? data offset count = .ok c → c = ⟨data, offset, offset + count⟩) ∧
      (∀ e, Cursor.ofRange? data offset count = .error e →
        e.argument = if data.size < offset then "offset" else "len") ∧
      (data.size < 2 ^ 64 →
        Cursor.ofRange? data offset count = Cursor.ofWords? data offset count)) ∧
    ∀ (data : Buffer) (start : Cursor), Cursor.Starts data start →
      ∀ (defs : Definitions) (steps : List Step),
        (∀ trace, (ofCursor start).run defs steps = .ok trace →
          trace.length = steps.length ∧
          (∀ s ∈ (ofCursor start).states trace, s.cursor.data = data ∧
            start.position ≤ s.cursor.position ∧ s.cursor.position ≤ s.cursor.limit ∧
            s.cursor.limit ≤ start.limit ∧ start.limit ≤ data.size ∧
            (s.cursor.remaining = .ok 0 ↔ s.cursor.atEnd = true) ∧
            ((∃ f, Parser.current s.cursor = .failure f) ↔ s.cursor.atEnd = true) ∧
            (data.size < 2 ^ 64 → s.cursor.InWords)) ∧
          ∀ n t before after, steps[n]? = some t →
            ((ofCursor start).states trace)[n]? = some before →
            ((ofCursor start).states trace)[n + 1]? = some after → (∀ mark, t ≠ .restore mark) →
              before.cursor.position ≤ after.cursor.position ∧
                after.cursor.limit ≤ before.cursor.limit) ∧
        ∀ reason, (ofCursor start).run defs steps = .error reason →
          ∃ n t trace before, steps[n]? = some t ∧
            (ofCursor start).run defs (steps.take n) = .ok trace ∧
            ((ofCursor start).states trace)[n]? = some before ∧
            before.Abandons defs t reason := by
  refine ⟨fun data offset count => ⟨?_, fun c h => (Cursor.ofRange?_eq_ok_iff.1 h).2,
    fun e => Cursor.argument_of_ofRange?, Cursor.ofRange?_eq_ofWords?⟩,
    fun data start hstart defs steps => ?_⟩
  · simp only [Cursor.ofRange?_eq_ok_iff, exists_and_left, exists_eq, and_true]
  have hc := hstart.valid
  have hsize : start.limit ≤ data.size := hstart.data_eq ▸ hc.2
  have hinside {steps : List Step} {trace : List (Reply × Session)} {s : Session}
      (h : (ofCursor start).run defs steps = .ok trace)
      (hs : s ∈ (ofCursor start).states trace) : s.cursor.Inside start :=
    (confined_of_run hc (ofCursor_confined hc) h s hs).cursor
  refine ⟨fun trace h => ⟨length_of_run h, fun s hs => ?_, fun n t before after ht hbefore hafter
    hmoves => ?_⟩, fun reason h => ?_⟩
  · have hs' := hinside h hs
    have hvalid := hs'.valid hc
    have hlimit := le_trans hs'.stop hsize
    exact ⟨hs'.data.trans hstart.data_eq, hs'.start, hs'.order, hs'.stop, hsize,
      Cursor.remaining_eq_zero_iff hvalid, Cursor.current_failure_iff hvalid,
      fun hwords => Cursor.inWords (lt_of_le_of_lt hlimit hwords)⟩
  · obtain ⟨_, reply, _, hbefore', hafter', hstep⟩ := exists_step_of_run h ht
    cases hbefore.symm.trans hbefore'
    cases hafter.symm.trans hafter'
    have hvalid := (hinside h (List.mem_of_getElem? hbefore)).valid hc
    have hafter := (Moves.of_step hvalid hstep).inside hvalid hmoves
    exact ⟨hafter.start, hafter.stop⟩
  · obtain ⟨n, t, trace, before, ht, htrace, hbefore, hstep⟩ := exists_step_of_run_error h
    have hvalid := (hinside htrace (List.mem_of_getElem? hbefore)).valid hc
    exact ⟨n, t, trace, before, ht, htrace, hbefore, .of_step hvalid hstep⟩

/-- The middle of a buffer, where a long move stops at the limit, and a failure in a window in a
window takes the session to the end of the inner one, under its limit. -/
theorem run_stays_windows :
    let data : Buffer := .of #[1, 2, 9, 4, 5, 6]
    let start : Cursor := ⟨data, 1, 5⟩
    let inner : Cursor := ⟨data, 3, 3⟩
    let g := Grammar.within 3 (.within 2 (.sequence [2, 9, 4]))
    let f : Failure := ⟨.windowOverrun, "Unexpected end of input reached", ["04"], inner⟩
    let s := Session.ofCursor start
    let trace : List (Reply × Session) := [(.none, s.moveTo ⟨data, 5, 5⟩), (.none, s),
      (.committed (.failure f), s.moveTo inner), (.none, s.moveTo inner)]
    Cursor.Starts data start ∧
      s.run [] [.skip 18446744073709551615, .restore 0, .commit g, .windowed 9] = .ok trace ∧
      (∀ s' ∈ s.states trace, start.position ≤ s'.cursor.position ∧
        s'.cursor.limit ≤ start.limit) ∧
      (s.cursor.position ≤ inner.position ∧ inner.limit ≤ s.cursor.limit) := by
  intro data start inner g f s trace
  have hrange : Cursor.ofRange? data 1 4 = .ok start := rfl
  have hstart : Cursor.Starts data start := .range hrange
  have hrun : s.run [] [.skip 18446744073709551615, .restore 0, .commit g, .windowed 9] =
    .ok trace := rfl
  obtain ⟨-, hstates, hsteps⟩ := (run_stays.2 data start hstart [] _).1 trace hrun
  refine ⟨hstart, hrun, fun s' hs' => ?_, ?_⟩
  · obtain ⟨-, hposition, -, hlimit, -⟩ := hstates s' hs'
    exact ⟨hposition, hlimit⟩
  · exact hsteps 2 (.commit g) s (s.moveTo inner) rfl rfl rfl fun _ => nofun

end Session

end Wire
