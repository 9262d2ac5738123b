import Wire.Grammar.Meaning
import Wire.Proofs.Discipline

/-!
# Disciplines of grammars

A grammar obeys a discipline when the discipline allows what its parts may do (`Grammar.run_obeys`).
Some parts do more than the combinators of the library: `narrow` lowers a limit for all that
follows, `fail` makes a failure of its own, a constant may be any value, bounds may be the wrong way
round, and `ref` stands for another grammar, if there is one. A permit says which of them a grammar
may hold (`Grammar.Permitted`), and a grammar is restricted to a permit when that is so also through
its references (`Grammar.Restricted`).
-/

namespace Wire

/-- What a grammar may hold, and for which faults in it a run may be abandoned; by default,
everything. -/
structure Permit where
  narrow : Prop := True
  fail : Prop := True
  constant : Value → Prop := fun _ => True
  fault : Fault → Prop := Fault.OfGrammar

mutual

/-- A grammar holds only what is permitted, and refers only to some names. -/
def Grammar.Permitted (permit : Permit) (refs : String → Prop) : Grammar → Prop
  | .narrow _ => permit.narrow
  | .fail _ _ _ _ => permit.fail
  | .constant value => permit.constant value
  | .replace value g => permit.constant value ∧ g.Permitted permit refs
  | .repeated g min max =>
    (max < min → permit.fault (.invertedBounds min max)) ∧ g.Permitted permit refs
  | .ref name => refs name
  | .both g h | .append g h | .orElse g h | .orCommit g h | .butNot g h | .upTo g h =>
    g.Permitted permit refs ∧ h.Permitted permit refs
  | .andThen g k => g.Permitted permit refs ∧ k.Permitted permit refs
  | .wordOf _ g | .peek g | .transform _ g | .singleton g | .many g | .manyCommit g | .toEnd g
  | .within _ g | .withDigest g _ | .satisfying g _ _ | .intInRange g _ _ | .spanned g =>
    g.Permitted permit refs
  | .byte | .exactly _ | .between _ _ | .oneOf _ | .sequence _ | .bytes _ | .masked _ _ _
  | .integer _ _ | .binary _ _ | .capital | .skip _ | .rest | .binaryInRange _ _ _ _ => True

/-- A continuation holds only what is permitted, whatever the value is that it goes on with. -/
def Continuation.Permitted (permit : Permit) (refs : String → Prop) : Continuation → Prop
  | .bytes | .same | .value => True
  | .repeatedUpTo g max =>
    (∀ min, max < min → permit.fault (.invertedBounds min max)) ∧ g.Permitted permit refs
  | .within g | .repeated g | .always g | .pair g => g.Permitted permit refs
  | .select _ g otherwise => g.Permitted permit refs ∧ otherwise.Permitted permit refs

end

/-- Some names may be referred to: that they are undefined or endless is permitted, and what they
are defined as holds only what is permitted. -/
structure Definitions.Permitted (defs : Definitions) (permit : Permit) (refs : String → Prop) :
    Prop where
  undefined (name : String) :
    refs name → defs.lookup name = none → permit.fault (.undefinedName name)
  endless (name : String) : refs name → permit.fault (.endlessReference name)
  grammar (name : String) (g : Grammar) :
    refs name → defs.lookup name = some g → g.Permitted permit refs

/-- A grammar holds only what is permitted, and so do the definitions of the names that it refers
to, directly or through other definitions. -/
def Grammar.Restricted (defs : Definitions) (permit : Permit) (g : Grammar) : Prop :=
  ∃ refs : String → Prop, g.Permitted permit refs ∧ defs.Permitted permit refs

/-- A permit that forbids no grammar: it has all parts, and all faults that a grammar may have. -/
structure Permit.Open (permit : Permit) : Prop where
  narrow : permit.narrow
  fail : permit.fail
  constant (value : Value) : permit.constant value
  bounds {min max : Nat} : max < min → permit.fault (.invertedBounds min max)
  undefined (name : String) : permit.fault (.undefinedName name)
  endless (name : String) : permit.fault (.endlessReference name)

section
variable {permit : Permit}

mutual

/-- An open permit permits every grammar. -/
theorem Grammar.permitted_of_open (h : permit.Open) :
    ∀ g : Grammar, g.Permitted permit fun _ => True
  | .narrow _ => h.narrow
  | .fail _ _ _ _ => h.fail
  | .constant value => h.constant value
  | .replace value g => ⟨h.constant value, g.permitted_of_open h⟩
  | .repeated g _ _ => ⟨h.bounds, g.permitted_of_open h⟩
  | .both g k | .append g k | .orElse g k | .orCommit g k | .butNot g k | .upTo g k =>
    ⟨g.permitted_of_open h, k.permitted_of_open h⟩
  | .andThen g k => ⟨g.permitted_of_open h, k.permitted_of_open h⟩
  | .wordOf _ g | .peek g | .transform _ g | .singleton g | .many g | .manyCommit g | .toEnd g
  | .within _ g | .withDigest g _ | .satisfying g _ _ | .intInRange g _ _ | .spanned g =>
    g.permitted_of_open h
  | .byte | .exactly _ | .between _ _ | .oneOf _ | .sequence _ | .bytes _ | .masked _ _ _
  | .integer _ _ | .binary _ _ | .capital | .skip _ | .rest | .ref _ | .binaryInRange _ _ _ _ =>
    trivial

/-- An open permit permits every continuation. -/
theorem Continuation.permitted_of_open (h : permit.Open) :
    ∀ k : Continuation, k.Permitted permit fun _ => True
  | .bytes | .same | .value => trivial
  | .repeatedUpTo g _ => ⟨fun _ => h.bounds, g.permitted_of_open h⟩
  | .within g | .repeated g | .always g | .pair g => g.permitted_of_open h
  | .select _ g k => ⟨g.permitted_of_open h, k.permitted_of_open h⟩

end

/-- An open permit permits all definitions, with references to every name. -/
theorem Definitions.permitted_of_open (h : permit.Open) (defs : Definitions) :
    defs.Permitted permit fun _ => True :=
  ⟨fun name _ _ => h.undefined name, fun name _ => h.endless name,
    fun _ g _ _ => g.permitted_of_open h⟩

/-- Every grammar is restricted to an open permit. -/
theorem Grammar.restricted_of_open (h : permit.Open) (defs : Definitions) (g : Grammar) :
    g.Restricted defs permit :=
  ⟨fun _ => True, g.permitted_of_open h, defs.permitted_of_open h⟩

end

/-- The default permit is open. -/
theorem Permit.default_open : Permit.Open {} :=
  ⟨trivial, trivial, fun _ => trivial, fun _ => trivial, fun _ => trivial, fun _ => trivial⟩

/-- By default, every grammar is permitted. -/
theorem Grammar.restricted_default (defs : Definitions) (g : Grammar) : g.Restricted defs {} :=
  g.restricted_of_open Permit.default_open defs

/-- A discipline allows what a grammar may do when it holds what is permitted. -/
structure Permit.Fits (permit : Permit) (rules : Discipline) : Prop where
  lawful : rules.Lawful
  narrow : permit.narrow → ¬ rules.keepsLimit
  fail : permit.fail → ∀ (c : Cursor) (kind : FailureKind) (message : String)
    (expectations : List String) (distance : Nat), c.Valid →
      rules.mayFail c ((Failure.mk kind message [] (c.skip distance)).expectingAll expectations)
  fault (reason : Fault) : permit.fault reason → rules.mayFault reason

section
variable {rules : Discipline}

namespace Parser

/-- To abandon a run obeys where the fault is allowed. -/
theorem obeys_abandon {α : Type} {reason : Fault} (h : rules.mayFault reason) :
    (abandon reason : Parser α).Obeys rules :=
  fun _ _ => h

/-- A letter that is made a capital one obeys. -/
theorem obeys_capital (hr : rules.Lawful) : capital.Obeys rules := by
  intro c hc
  unfold capital
  rw [current_eq hc]
  cases hu : c.unread with
  | nil => exact ⟨.refl hc, hr.endOfInput hc hu⟩
  | cons b bs => exact ⟨Cursor.next_inside hc, fun _ => Cursor.next_limit⟩

/-- A repetition between two counts obeys when the parser does, and bounds that are the wrong way
round are a fault that is allowed. -/
theorem Obeys.repeatedBetween {α : Type} {p : Parser α} (hr : rules.Lawful) (hp : p.Obeys rules)
    {min max : Nat} (h : max < min → rules.mayFault (.invertedBounds min max)) :
    (repeatedBetween p min max).Obeys rules := by
  unfold Parser.repeatedBetween Bounds.ofNat?
  by_cases hle : min ≤ max
  · rw [dif_pos hle]
    exact hp.repeated hr _
  · rw [dif_neg hle]
    exact obeys_abandon (h (Nat.lt_of_not_le hle))

end Parser

variable {permit : Permit} {refs : String → Prop} {names : String → Parser Value}

/-- A fault that is found in a grammar before a run is a permitted one. -/
theorem Grammar.fault_of_permitted {reason : Fault} :
    ∀ {g : Grammar}, g.Permitted permit refs → g.fault? = some reason → permit.fault reason
  | .repeated g min max, hg, h => by
    rw [fault?, Option.or_eq_some_iff] at h
    rcases h with h | ⟨-, h⟩
    · exact fault_of_permitted hg.2 h
    · split at h <;> cases h
      exact hg.1 ‹_›
  | .both g _, hg, h | .append g _, hg, h | .orElse g _, hg, h | .orCommit g _, hg, h
  | .butNot g _, hg, h | .upTo g _, hg, h => by
    rw [fault?, Option.or_eq_some_iff] at h
    rcases h with h | ⟨-, h⟩
    · exact fault_of_permitted hg.1 h
    · exact fault_of_permitted hg.2 h
  | .replace _ g, hg, h => fault_of_permitted (g := g) hg.2 h
  | .andThen g _, hg, h => fault_of_permitted (g := g) hg.1 h
  | .wordOf _ g, hg, h | .peek g, hg, h | .transform _ g, hg, h | .singleton g, hg, h
  | .many g, hg, h | .manyCommit g, hg, h | .toEnd g, hg, h | .within _ g, hg, h
  | .withDigest g _, hg, h | .satisfying g _ _, hg, h | .intInRange g _ _, hg, h
  | .spanned g, hg, h => fault_of_permitted (g := g) hg h
  | .byte, _, h | .exactly _, _, h | .between _ _, _, h | .oneOf _, _, h | .sequence _, _, h
  | .bytes _, _, h | .masked _ _ _, _, h | .integer _ _, _, h | .binary _ _, _, h
  | .constant _, _, h | .fail _ _ _ _, _, h | .capital, _, h | .skip _, _, h | .narrow _, _, h
  | .rest, _, h | .ref _, _, h | .binaryInRange _ _ _ _, _, h => nomatch h

/-- A grammar that is checked before it runs obeys when its parser does. -/
theorem Grammar.checked_obeys (hfit : permit.Fits rules) {g : Grammar}
    (hg : g.Permitted permit refs) {p : Parser Value} (hp : p.Obeys rules) :
    (g.checked p).Obeys rules := by
  unfold checked
  split
  · next h => exact Parser.obeys_abandon (hfit.fault _ (fault_of_permitted hg h))
  · exact hp

open Wire.Parser

mutual

/-- A grammar of permitted parts obeys, when the meanings of the names that it may refer to do. -/
theorem Grammar.parser_obeys (hfit : permit.Fits rules)
    (hnames : ∀ name, refs name → (names name).Obeys rules) :
    ∀ g : Grammar, g.Permitted permit refs → (g.parser names).Obeys rules
  | .byte, _ => (obeys_byte hfit.lawful).map
  | .exactly _, _ => (obeys_byteWhere hfit.lawful _ _).map
  | .between _ _, _ => (obeys_byteWhere hfit.lawful _ _).map
  | .oneOf _, _ => (obeys_byteWhere hfit.lawful _ _).map
  | .sequence _, _ => (obeys_sequence hfit.lawful _).map
  | .bytes _, _ => (obeys_bytes hfit.lawful _).map
  | .masked _ _ _, _ => (obeys_byteWhere hfit.lawful _ _).map
  | .integer _ _, _ => (obeys_integer hfit.lawful _ _).map
  | .binary _ _, _ => (obeys_binary hfit.lawful _ _).map
  | .wordOf _ g, h => ((g.parser_obeys hfit hnames h).map.wordOf hfit.lawful _).map
  | .constant _, _ => obeys_pure _
  | .fail kind message expectations distance, h => fun c hc =>
    ⟨by rw [Failure.remainder_expectingAll]; exact Cursor.skip_inside hc,
      hfit.fail h c kind message expectations distance hc⟩
  | .capital, _ => (obeys_capital hfit.lawful).map
  | .skip _, _ => (obeys_skip _).map
  | .narrow _, h => (obeys_narrow (hfit.narrow h) _).map
  | .rest, _ => obeys_rest.map
  | .peek g, h => (g.parser_obeys hfit hnames h).peek
  | .ref name, h => hnames name h
  | .transform _ g, h => (g.parser_obeys hfit hnames h).map
  | .replace _ g, h => (g.parser_obeys hfit hnames h.2).map
  | .both g k, h =>
    ((g.parser_obeys hfit hnames h.1).both hfit.lawful (k.parser_obeys hfit hnames h.2)).map
  | .andThen g k, h => (g.parser_obeys hfit hnames h.1).bind hfit.lawful fun v =>
      k.parser_obeys hfit hnames v h.2
  | .singleton g, h => (g.parser_obeys hfit hnames h).map.map
  | .many g, h => ((g.parser_obeys hfit hnames h).many hfit.lawful).map
  | .manyCommit g, h => ((g.parser_obeys hfit hnames h).manyCommit hfit.lawful).map
  | .repeated g _ _, h => ((g.parser_obeys hfit hnames h.2).repeatedBetween hfit.lawful
      fun hlt => hfit.fault _ (h.1 hlt)).map
  | .append g k, h =>
    ((g.parser_obeys hfit hnames h.1).map.append hfit.lawful
      (k.parser_obeys hfit hnames h.2).map).map
  | .orElse g k, h =>
    (g.parser_obeys hfit hnames h.1).choose hfit.lawful (k.parser_obeys hfit hnames h.2) _
  | .orCommit g k, h =>
    (g.parser_obeys hfit hnames h.1).choose hfit.lawful (k.parser_obeys hfit hnames h.2) _
  | .butNot g k, h =>
    (g.parser_obeys hfit hnames h.1).butNot hfit.lawful (k.parser_obeys hfit hnames h.2)
  | .upTo g k, h =>
    ((g.parser_obeys hfit hnames h.1).upTo hfit.lawful (k.parser_obeys hfit hnames h.2)).map
  | .toEnd g, h => (g.parser_obeys hfit hnames h).toEnd hfit.lawful
  | .within _ g, h =>
    (g.parser_obeys hfit hnames h).within hfit.lawful (fun _ _ => id) (fun _ => id) _
  | .withDigest g _, h => (g.parser_obeys hfit hnames h).withDigest hfit.lawful _
  | .satisfying g _ _, h => (g.parser_obeys hfit hnames h).satisfying hfit.lawful _ _
  | .intInRange g _ _, h => ((g.parser_obeys hfit hnames h).map.satisfying hfit.lawful _ _).map
  | .binaryInRange _ _ _ _, _ =>
    ((obeys_binary hfit.lawful _ _).satisfying hfit.lawful _ _).map
  | .spanned g, h => (g.parser_obeys hfit hnames h).spanned.map

/-- A continuation of permitted parts obeys, whatever the value is that it goes on with. -/
theorem Continuation.parser_obeys (hfit : permit.Fits rules)
    (hnames : ∀ name, refs name → (names name).Obeys rules) (v : Value) :
    ∀ k : Continuation, k.Permitted permit refs → (k.parser names v).Obeys rules
  | .bytes, _ => (obeys_bytes hfit.lawful _).map
  | .same, _ => (obeys_byteWhere hfit.lawful _ _).map
  | .within g, h => Grammar.checked_obeys hfit h
      ((g.parser_obeys hfit hnames h).within hfit.lawful (fun _ _ => id) (fun _ => id) _)
  | .repeated g, h => Grammar.checked_obeys hfit h
      ((g.parser_obeys hfit hnames h).repeated hfit.lawful _).map
  | .repeatedUpTo g _, h => Grammar.checked_obeys hfit h.2
      ((g.parser_obeys hfit hnames h.2).repeatedBetween hfit.lawful
        fun hlt => hfit.fault _ (h.1 _ hlt)).map
  | .value, _ => obeys_pure _
  | .always g, h => Grammar.checked_obeys hfit h (g.parser_obeys hfit hnames h)
  | .pair g, h => Grammar.checked_obeys hfit h (g.parser_obeys hfit hnames h).map
  | .select key g k, h => by
    unfold Continuation.parser
    split
    · exact Grammar.checked_obeys hfit h.1 (g.parser_obeys hfit hnames h.1)
    · exact k.parser_obeys hfit hnames v h.2

end

variable {defs : Definitions}

/-- The meaning of a name obeys at every depth of nested references. -/
theorem Definitions.parser_obeys (hfit : permit.Fits rules) (hdefs : defs.Permitted permit refs) :
    ∀ (depth : Nat) (name : String), refs name → (defs.parser depth name).Obeys rules
  | 0, name, hname => obeys_abandon (hfit.fault _ (hdefs.endless name hname))
  | depth + 1, name, hname => by
    rw [Definitions.parser]
    split
    · next h => exact obeys_abandon (hfit.fault _ (hdefs.undefined name hname h))
    · next g hg =>
      have hperm := hdefs.grammar name g hname hg
      exact Grammar.checked_obeys hfit hperm (g.parser_obeys hfit
        (fun name => Definitions.parser_obeys hfit hdefs depth name) hperm)

/-- A restricted grammar obeys every discipline that allows what it is restricted to. -/
theorem Grammar.run_obeys (hfit : permit.Fits rules) {g : Grammar}
    (hg : g.Restricted defs permit) : (g.run defs).Obeys rules := by
  obtain ⟨refs, hg, hdefs⟩ := hg
  intro c hc
  exact checked_obeys hfit hg (g.parser_obeys hfit
    (fun name => Definitions.parser_obeys hfit hdefs _ name) hg) c hc

end

end Wire
