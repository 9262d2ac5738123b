import Wire.Parser.Choice
import Wire.Proofs.Failure

/-!
# Alternation

Parsers may be joined by `orElse` two at a time in any bracketing (`Alternatives`). What comes out
depends on their order only: the first outcome that decides, or else the last success, or else what
is left of all the failures (`Outcome.firstOf`, `Alternatives.parser_eq_firstOf`). So alternation is
associative, in what it accepts as in what it reports.
-/

namespace Wire

variable {α : Type}

/-- An outcome that settles an alternation at a cursor: a success that moved on, or a fault. -/
def Outcome.decides (c : Cursor) : Outcome α → Bool
  | .success _ rest => !rest.samePlace c
  | .failure _ => false
  | .fault _ => true

/-- The failure, if the outcome is one. -/
def Outcome.failure? : Outcome α → Option Failure
  | .failure cause => some cause
  | _ => none

/-- The outcome of an alternation at a cursor whose parsers have the given outcomes there, if there
are any: the first one that decides, or else the last success, or else what is left of the
failures. -/
def Outcome.firstOf (c : Cursor) (os : List (Outcome α)) : Option (Outcome α) :=
  (os.find? (decides c)).or <|
    (os.reverse.find? succeeded).or <|
      (Failure.merged (os.filterMap failure?)).map .failure

/-- Parsers in order, joined two at a time in some bracketing. -/
inductive Alternatives (α : Type) where
  | one (p : Parser α)
  | join (left right : Alternatives α)

namespace Alternatives

/-- The parsers from left to right. -/
def parsers : Alternatives α → List (Parser α)
  | one p => [p]
  | join left right => left.parsers ++ right.parsers

/-- The alternation with its bracketing. -/
def parser : Alternatives α → Parser α
  | one p => p
  | join left right => Parser.orElse left.parser right.parser

/-- The outcomes of the parsers from left to right at a cursor. -/
def outcomes (t : Alternatives α) (c : Cursor) : List (Outcome α) :=
  t.parsers.map fun p => p c

end Alternatives

namespace Outcome

variable {c : Cursor} {o o' : Outcome α} {os os' : List (Outcome α)}

/-- The outcome of two alternatives with the given outcomes. -/
def orElse (c : Cursor) (o o' : Outcome α) : Outcome α :=
  match o with
  | .success value rest =>
    if rest.samePlace c then
      match o' with
      | .failure _ => .success value rest
      | o' => o'
    else .success value rest
  | .failure first =>
    match o' with
    | .failure second => .failure (first.furthest second)
    | o' => o'
  | .fault reason => .fault reason

/-- A success decides unless it stayed at the place. -/
theorem decides_success {v : α} {r : Cursor} :
    (success v r).decides c = false ↔ r.samePlace c = true := by
  simp [decides]

/-- An outcome that decides is the outcome whatever the second alternative gives. -/
theorem orElse_of_decides (h : o.decides c = true) : o.orElse c o' = o := by
  cases o with
  | success v r =>
    have hmoved : r.samePlace c = false := by simpa [decides] using h
    cases o' <;> simp [orElse, hmoved]
  | failure f => cases h
  | fault reason => rfl

/-- A success that did not move gives way to all but a failure. -/
theorem orElse_of_samePlace {v : α} {r : Cursor} (hp : r.samePlace c = true) :
    (success v r).orElse c o' = match o' with
      | .failure _ => .success v r
      | o' => o' :=
  if_pos hp

/-- How the outcome of an alternation comes about: it decided, it is a success that did not move and
none decided, or it is what is left when all failed. -/
inductive FirstOf (c : Cursor) (os : List (Outcome α)) : Outcome α → Prop
  | decided {o : Outcome α} : os.find? (decides c) = some o → FirstOf c os o
  | stayed {v : α} {r : Cursor} : os.find? (decides c) = none → r.samePlace c = true →
      os.reverse.find? succeeded = some (.success v r) → FirstOf c os (.success v r)
  | failed {f : Failure} : os.find? (decides c) = none → os.reverse.find? succeeded = none →
      Failure.merged (os.filterMap failure?) = some f → FirstOf c os (.failure f)

/-- How an outcome comes about is how it is computed. -/
theorem FirstOf.eq (h : FirstOf c os o) : firstOf c os = some o := by
  cases h with
  | decided hd => rw [firstOf, hd, Option.some_or]
  | stayed hd _ hs => rw [firstOf, hd, hs, Option.none_or, Option.some_or]
  | failed hd hs hm => rw [firstOf, hd, hs, hm, Option.none_or, Option.none_or, Option.map_some]

/-- A single outcome comes about in the way that it says. -/
theorem FirstOf.singleton (o : Outcome α) : FirstOf c [o] o := by
  by_cases hd : o.decides c = true
  · exact .decided (by rw [List.find?_singleton, if_pos hd])
  · have hnone : [o].find? (decides c) = none := by rw [List.find?_singleton, if_neg hd]
    cases o with
    | success v r =>
      rw [Bool.not_eq_true, decides_success] at hd
      exact .stayed hnone hd rfl
    | failure f => exact .failed hnone rfl (Failure.merged_cons f [])
    | fault reason => exact absurd rfl hd

/-- The outcomes of two alternations in a row come about from those of the two. -/
theorem FirstOf.append (h : FirstOf c os o) (h' : FirstOf c os' o') :
    FirstOf c (os ++ os') (o.orElse c o') := by
  cases h with
  | decided hd =>
    rw [orElse_of_decides (List.find?_some hd)]
    exact .decided (by rw [List.find?_append, hd, Option.some_or])
  | @stayed v r hd hp hs =>
    have hrest : (os ++ os').find? (decides c) = os'.find? (decides c) := by
      rw [List.find?_append, hd, Option.none_or]
    have hlast : (os ++ os').reverse.find? succeeded =
        (os'.reverse.find? succeeded).or (some (.success v r)) := by
      rw [List.reverse_append, List.find?_append, hs]
    cases h' with
    | decided hd' =>
      have hdec := List.find?_some hd'
      cases o' with
      | success w s =>
        rw [orElse_of_samePlace hp]
        exact .decided (hrest.trans hd')
      | failure g => cases hdec
      | fault reason =>
        rw [orElse_of_samePlace hp]
        exact .decided (hrest.trans hd')
    | @stayed w s hd' hp' hs' =>
      rw [orElse_of_samePlace hp]
      exact .stayed (hrest.trans hd') hp' (by rw [hlast, hs', Option.some_or])
    | failed hd' hs' _ =>
      rw [orElse_of_samePlace hp]
      exact .stayed (hrest.trans hd') hp (by rw [hlast, hs', Option.none_or])
  | @failed f hd hs hm =>
    have hrest : (os ++ os').find? (decides c) = os'.find? (decides c) := by
      rw [List.find?_append, hd, Option.none_or]
    have hlast : (os ++ os').reverse.find? succeeded = os'.reverse.find? succeeded := by
      rw [List.reverse_append, List.find?_append, hs, Option.or_none]
    cases h' with
    | decided hd' =>
      have hdec := List.find?_some hd'
      cases o' with
      | success w s => exact .decided (hrest.trans hd')
      | failure g => cases hdec
      | fault reason => exact .decided (hrest.trans hd')
    | stayed hd' hp' hs' => exact .stayed (hrest.trans hd') hp' (hlast.trans hs')
    | failed hd' hs' hm' =>
      refine .failed (hrest.trans hd') (hlast.trans hs') ?_
      rw [List.filterMap_append]
      exact Failure.merged_append hm hm'

end Outcome

/-- Two alternatives run side by side from one cursor. -/
theorem Parser.orElse_run (p q : Parser α) (c : Cursor) :
    orElse p q c = (p c).orElse c (q c) := by
  unfold orElse choose Outcome.orElse
  cases p c <;> cases q c <;> rfl

namespace Alternatives

/-- The outcome of an alternation comes about from the outcomes of its parsers. -/
theorem firstOf_run (c : Cursor) :
    ∀ t : Alternatives α, Outcome.FirstOf c (t.outcomes c) (t.parser c)
  | one p => .singleton (p c)
  | join left right => by
    have hsplit : (join left right).outcomes c = left.outcomes c ++ right.outcomes c :=
      List.map_append
    rw [hsplit, parser, Parser.orElse_run]
    exact (left.firstOf_run c).append (right.firstOf_run c)

/-- In whatever bracketing parsers are joined, the outcome at a cursor is the first of theirs that
decides, or else the last success, or else what is left of all their failures. So alternations of
the same parsers in the same order are the same parser, and alternation is associative. -/
theorem parser_eq_firstOf :
    (∀ (t : Alternatives α) (c : Cursor), Outcome.firstOf c (t.outcomes c) = some (t.parser c)) ∧
      (∀ t u : Alternatives α, t.parsers = u.parsers → t.parser = u.parser) ∧
      ∀ p q r : Parser α,
        Parser.orElse (Parser.orElse p q) r = Parser.orElse p (Parser.orElse q r) := by
  have hsame (t u : Alternatives α) (h : t.parsers = u.parsers) : t.parser = u.parser := by
    funext c
    have ht := (t.firstOf_run c).eq
    have hu := (u.firstOf_run c).eq
    rw [outcomes, h, ← outcomes, hu] at ht
    exact (Option.some.inj ht).symm
  exact ⟨fun t c => (t.firstOf_run c).eq, hsame,
    fun p q r => hsame (.join (.join (.one p) (.one q)) (.one r))
      (.join (.one p) (.join (.one q) (.one r))) rfl⟩

/-- Three parsers that all fail at one byte, in both bracketings: what they expected is listed in
order and once. -/
theorem parser_eq_firstOf_bytes :
    let one := Alternatives.one (Parser.exactly 1)
    let two := Alternatives.one (Parser.exactly 2)
    let t := join (join one two) one
    let u := join one (join two one)
    let c : Cursor := ⟨.of #[9], 0, 1⟩
    t.parsers = u.parsers ∧ t.parser = u.parser ∧
      Outcome.firstOf c (t.outcomes c) = some (t.parser c) ∧
      t.parser c = .failure ⟨.unexpectedByte, "unexpected '09'", ["01", "02"], c⟩ := by
  intro one two t u c
  have hparsers : t.parsers = u.parsers := rfl
  exact ⟨hparsers, parser_eq_firstOf.2.1 t u hparsers, parser_eq_firstOf.1 t c, by decide⟩

end Alternatives

end Wire
