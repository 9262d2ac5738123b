import Wire.Proofs.Confinement
import Wire.Proofs.Faults

/-!
# Calls

The run of a grammar runs other grammars on its way: its parts, what a continuation chooses for a
value (`Continuation.grammar`) and what a name stands for. Which of them it calls, and at which
cursors, is decided by the outcomes of the calls before (`Grammar.Calls`), and all that a run comes
to is what it reaches by calls (`Grammar.Reaches`). So what a run builds repetitions with, and which
names it asks for, is a matter of the data as well.
-/

namespace Wire

/-! ## Bounds -/

/-- The bounds of the repetitions in a grammar, in the order in which it is put together. -/
def Grammar.bounds : Grammar → List (Nat × Nat)
  | .repeated g min max => g.bounds ++ [(min, max)]
  | .both g h | .append g h | .orElse g h | .orCommit g h | .butNot g h | .upTo g h =>
    g.bounds ++ h.bounds
  | .wordOf _ g | .peek g | .transform _ g | .replace _ g | .andThen g _ | .singleton g | .many g
  | .manyCommit g | .toEnd g | .within _ g | .withDigest g _ | .satisfying g _ _
  | .intInRange g _ _ | .spanned g => g.bounds
  | .byte | .exactly _ | .between _ _ | .oneOf _ | .sequence _ | .bytes _ | .masked _ _ _
  | .integer _ _ | .binary _ _ | .constant _ | .fail _ _ _ _ | .capital | .skip _ | .narrow _
  | .rest | .ref _ | .binaryInRange _ _ _ _ => []

/-- A fault that is found in a grammar before a run is about bounds in it. -/
theorem Grammar.bounds_of_fault? {reason : Fault} :
    ∀ {g : Grammar}, g.fault? = some reason →
      ∃ min max, (min, max) ∈ g.bounds ∧ max < min ∧ reason = .invertedBounds min max
  | .repeated g min max, h => by
    rw [fault?, Option.or_eq_some_iff] at h
    rcases h with h | ⟨-, h⟩
    · obtain ⟨a, b, hmem, hlt, rfl⟩ := bounds_of_fault? h
      exact ⟨a, b, List.mem_append_left _ hmem, hlt, rfl⟩
    · split at h <;> cases h
      exact ⟨min, max, List.mem_append_right _ (.head _), ‹_›, rfl⟩
  | .both g k, h | .append g k, h | .orElse g k, h | .orCommit g k, h | .butNot g k, h
  | .upTo g k, h => by
    rw [fault?, Option.or_eq_some_iff] at h
    rcases h with h | ⟨-, h⟩
    · obtain ⟨a, b, hmem, hlt, rfl⟩ := bounds_of_fault? h
      exact ⟨a, b, List.mem_append_left _ hmem, hlt, rfl⟩
    · obtain ⟨a, b, hmem, hlt, rfl⟩ := bounds_of_fault? h
      exact ⟨a, b, List.mem_append_right _ hmem, hlt, rfl⟩
  | .wordOf _ g, h | .peek g, h | .transform _ g, h | .replace _ g, h | .andThen g _, h
  | .singleton g, h | .many g, h | .manyCommit g, h | .toEnd g, h | .within _ g, h
  | .withDigest g _, h | .satisfying g _ _, h | .intInRange g _ _, h | .spanned g, h =>
    bounds_of_fault? (g := g) h
  | .byte, h | .exactly _, h | .between _ _, h | .oneOf _, h | .sequence _, h | .bytes _, h
  | .masked _ _ _, h | .integer _ _, h | .binary _ _, h | .constant _, h | .fail _ _ _ _, h
  | .capital, h | .skip _, h | .narrow _, h | .rest, h | .ref _, h | .binaryInRange _ _ _ _, h =>
    nomatch h

/-! ## Continuations -/

/-- The grammar that a continuation puts together for a value. -/
def Continuation.grammar (v : Value) : Continuation → Grammar
  | .bytes => .bytes v.toCount
  | .same => .exactly v.toByte
  | .within g => .within v.toCount g
  | .repeated g => .repeated g v.toCount v.toCount
  | .repeatedUpTo g max => .repeated g v.toCount max
  | .value => .constant v
  | .always g => g
  | .pair g => .both (.constant v) g
  | .select key g otherwise => if v.toInt = key then g else otherwise.grammar v

open Wire.Parser

variable {names : String → Parser Value}

/-- Bounds that are one number are in order. -/
theorem Parser.repeatedBetween_self {α : Type} (p : Parser α) (count : Nat) :
    repeatedBetween p count count = repeated p (.exactly count) := by
  unfold repeatedBetween Bounds.ofNat?
  rw [dif_pos le_rfl]
  rfl

/-- A repetition whose bounds are the wrong way round is abandoned whether it was checked or not. -/
theorem Grammar.checked_repeated (g : Grammar) (min max : Nat) :
    (Grammar.repeated g min max).checked ((Grammar.repeated g min max).parser names) =
      g.checked (listValue (repeatedBetween (g.parser names) min max)) := by
  unfold checked
  rw [fault?]
  cases g.fault? with
  | some reason => rfl
  | none =>
    rw [Option.none_or]
    split
    · next hfault =>
      split at hfault <;> cases hfault
      next hlt =>
        unfold repeatedBetween Bounds.ofNat?
        rw [dif_neg (Nat.not_le_of_lt hlt)]
        rfl
    · rfl

/-- A continuation is the grammar that it chooses, checked when it is put together. -/
theorem Continuation.parser_eq (v : Value) :
    ∀ k : Continuation, k.parser names v = (k.grammar v).checked ((k.grammar v).parser names)
  | .bytes | .same | .within _ | .value | .always _ => rfl
  | .repeated g => by
    rw [grammar, Grammar.checked_repeated, repeatedBetween_self, Continuation.parser]
  | .repeatedUpTo g max => by
    rw [grammar, Grammar.checked_repeated, Continuation.parser]
  | .pair g => by
    have hpair : (Grammar.both (.constant v) g).parser names =
        (fun w => Value.pair v w) <$> g.parser names := by
      funext c
      change (((g.parser names c).bind _).bind _) = (g.parser names c).bind _
      cases g.parser names c <;> rfl
    rw [grammar, hpair]
    rfl
  | .select key g otherwise => by
    unfold Continuation.parser grammar
    split
    · rfl
    · exact otherwise.parser_eq v

/-! ## Calls -/

/-- The part of a grammar with which its run begins, at the same cursor. -/
def Grammar.first? : Grammar → Option Grammar
  | .wordOf _ g | .peek g | .transform _ g | .replace _ g | .singleton g | .toEnd g
  | .withDigest g _ | .satisfying g _ _ | .intInRange g _ _ | .spanned g | .both g _ | .append g _
  | .andThen g _ | .orElse g _ | .orCommit g _ => some g
  | .butNot _ guard => some guard
  | _ => none

/-- A run of the first grammar from the first cursor comes to run the second grammar from the second
cursor, as one of its parts. -/
inductive Grammar.Calls (defs : Definitions) : Grammar → Cursor → Grammar → Cursor → Prop
  | first {g h : Grammar} {c : Cursor} : g.first? = some h → Calls defs g c h c
  | both {g h : Grammar} {c d : Cursor} {v : Value} :
    g.run defs c = .success v d → Calls defs (.both g h) c h d
  | append {g h : Grammar} {c d : Cursor} {v : Value} :
    g.run defs c = .success v d → Calls defs (.append g h) c h d
  /-- What a continuation chooses for a value runs where the value ended. -/
  | andThen {g : Grammar} {k : Continuation} {c d : Cursor} {v : Value} :
    g.run defs c = .success v d → Calls defs (.andThen g k) c (k.grammar v) d
  | ref {name : String} {g : Grammar} {c : Cursor} :
    defs.lookup name = some g → Calls defs (.ref name) c g c
  | within {size : Nat} {g : Grammar} {c : Cursor} :
    Calls defs (.within size g) c g (c.windowed size)
  | orElse {g h : Grammar} {c : Cursor} :
    (g.run defs c).GivesWay .never c → Calls defs (.orElse g h) c h c
  | orCommit {g h : Grammar} {c : Cursor} :
    (g.run defs c).GivesWay .onceMoved c → Calls defs (.orCommit g h) c h c
  | butNot {g guard : Grammar} {c : Cursor} {f : Failure} :
    guard.run defs c = .failure f → Calls defs (.butNot g guard) c g c
  /-- Every application of a repeated grammar is called, also the one that ends the repetition. -/
  | many {g : Grammar} {c d : Cursor} {as : List (Application Value)} :
    (g.run defs).Trail c as d → (∀ a ∈ as, a.moved = true) → Calls defs (.many g) c g d
  | manyCommit {g : Grammar} {c d : Cursor} {as : List (Application Value)} :
    (g.run defs).Trail c as d → (∀ a ∈ as, a.moved = true) → Calls defs (.manyCommit g) c g d
  | repeated {g : Grammar} {min max : Nat} {c d : Cursor} {as : List (Application Value)} :
    (g.run defs).Trail c as d → as.length < max → Calls defs (.repeated g min max) c g d
  /-- The items in front of a terminator are those that the terminator does not accept. -/
  | item {g t : Grammar} {c d : Cursor} {as : List (Application Value)} :
    ((Grammar.butNot g t).run defs).Trail c as d → (∀ a ∈ as, a.moved = true) →
      Calls defs (.upTo g t) c (.butNot g t) d
  | terminator {g t : Grammar} {c d : Cursor} {v : Value} :
    (Grammar.many (.butNot g t)).run defs c = .success v d → Calls defs (.upTo g t) c t d

/-- A run of the first grammar from the first cursor comes to run the second grammar from the second
cursor, through any number of calls. -/
inductive Grammar.Reaches (defs : Definitions) : Grammar → Cursor → Grammar → Cursor → Prop
  | refl (g : Grammar) (c : Cursor) : Reaches defs g c g c
  | call {g h k : Grammar} {c d e : Cursor} :
    g.Calls defs c h d → Reaches defs h d k e → Reaches defs g c k e

/-- What a run does on its way is put together with the bounds. -/
def Grammar.Builds (defs : Definitions) (g : Grammar) (c : Cursor) (min max : Nat) : Prop :=
  ∃ h d, g.Reaches defs c h d ∧ (min, max) ∈ h.bounds

/-- A run comes to a reference to the name, at the cursor. -/
def Grammar.Asks (defs : Definitions) (g : Grammar) (c : Cursor) (name : String) (d : Cursor) :
    Prop :=
  g.Reaches defs c (.ref name) d

/-- The definition of one name, run at a cursor, comes to a reference to another name at another
cursor. -/
def Definitions.Nests (defs : Definitions) (s t : String × Cursor) : Prop :=
  ∃ g, defs.lookup s.1 = some g ∧ g.Asks defs s.2 t.1 t.2

variable {defs : Definitions}

namespace Grammar

variable {g h k : Grammar} {c d e : Cursor}

/-- What is reached from what a run reaches, the run reaches. -/
theorem Reaches.trans (h₁ : g.Reaches defs c h d) (h₂ : h.Reaches defs d k e) :
    g.Reaches defs c k e := by
  induction h₁ with
  | refl => exact h₂
  | call hcall _ ih => exact .call hcall (ih h₂)

/-- What is true of a run and passes on to calls is true of all that the run comes to. -/
theorem Reaches.kept {holds : Grammar → Cursor → Prop}
    (hcall : ∀ g c h d, g.Calls defs c h d → holds g c → holds h d)
    (hreach : g.Reaches defs c h d) (hg : holds g c) : holds h d := by
  induction hreach with
  | refl => exact hg
  | call hfirst _ ih => exact ih (hcall _ _ _ _ hfirst hg)

/-- A call is made inside the cursor of the run that makes it. -/
theorem Calls.inside (hcall : g.Calls defs c h d) (hc : c.Valid) : d.Inside c := by
  have hrun (g : Grammar) : (g.run defs).Conforming := (run_obeys_confined defs g).conforming
  cases hcall with
  | first | ref | orElse | orCommit | butNot => exact .refl hc
  | both hv | append hv | andThen hv | terminator hv => exact hrun _ _ _ _ hc hv
  | within => exact Cursor.windowed_inside hc
  | many htrail | manyCommit htrail | repeated htrail | item htrail =>
    exact htrail.inside (hrun _) hc

/-- All that a run comes to, it comes to inside its cursor. -/
theorem Reaches.inside (hreach : g.Reaches defs c h d) (hc : c.Valid) : d.Inside c := by
  induction hreach with
  | refl => exact .refl hc
  | call hcall _ ih =>
    have hd := hcall.inside hc
    exact hd.trans (ih (hd.valid hc))

end Grammar

/-- A reference nests what the references that it nests do. -/
theorem Definitions.Nests.trans {r s t : String × Cursor} (h₁ : defs.Nests r s)
    (h₂ : defs.Nests s t) : defs.Nests r t := by
  obtain ⟨g, hg, hasks⟩ := h₁
  obtain ⟨h, hh, hasks'⟩ := h₂
  exact ⟨g, hg, hasks.trans (.call (.ref hh) hasks')⟩

end Wire
