import Wire.Parser.Byte

/-!
# Repetition

A parser is repeated either as often as it moves on (`many`, `manyCommit`) or a bounded number of
times (`repeated`). `many` never fails: it stops before the first application that fails or stays
at its place, and drops that application. `repeated` counts every application that succeeds, but
lists only the values of those that moved on.
-/

namespace Wire

/-- The least and the greatest number of applications of a repeated parser. -/
structure Bounds where
  min : Nat
  max : Nat
  min_le_max : min ≤ max

/-- The bounds, unless they are the wrong way round. -/
def Bounds.ofNat? (min max : Nat) : Checked Bounds :=
  if h : min ≤ max then .ok ⟨min, max, h⟩ else .error (.invertedBounds min max)

/-- Exactly so many applications. -/
def Bounds.exactly (count : Nat) : Bounds :=
  ⟨count, count, Nat.le_refl count⟩

namespace Parser

variable {α β : Type}

/-- Apply a parser from a cursor on for as long as it moves on, adding its values to those found so
far. Every application has to take the position up and leave less to read, so the runs end. -/
def collect (p : Parser α) (found : Array α) (c : Cursor) : Outcome (Array α) :=
  match p c with
  | .success value next =>
    if next.samePlace c then .success found c
    else if next.limit - next.position < c.limit - c.position then
      collect p (found.push value) next
    else .fault (.retreat c.position next.position)
  | .failure _ => .success found c
  | .fault reason => .fault reason
termination_by c.limit - c.position

/-- A parser as often as it moves on, with the list of its values. -/
def many (p : Parser α) : Parser (List α) := fun c =>
  (collect p #[] c).map Array.toList

/-- A parser as often as it moves on, which fails when the application after the last one fails
behind the place where it started. -/
def manyCommit (p : Parser α) : Parser (List α) := fun c =>
  (many p c).bind fun values rest =>
    match p rest with
    | .failure cause =>
      if cause.remainder.samePlace rest then .success values rest else .failure cause
    | .success .. => .success values rest
    | .fault reason => .fault reason

/-- Why a repetition from the cursor `start` on fails when its parser fails with `cause` after
`count` applications. -/
def countUnmet (bounds : Bounds) (count : Nat) (cause : Failure) (start : Cursor) :
    Outcome α :=
  match current cause.remainder with
  | .success b _ =>
    .failure (.boundedCountUnmet bounds.min bounds.max count cause (some b) start)
  | .failure _ => .failure (.boundedCountUnmet bounds.min bounds.max count cause none start)
  | .fault reason => .fault reason

/-- Apply a parser up to `left` more times, as a part of a repetition that began at `start`. -/
def repeatedFrom (p : Parser α) (bounds : Bounds) (start : Cursor) :
    (left : Nat) → (found : Array α) → Parser (Array α)
  | 0, found, c => .success found c
  | left + 1, found, c =>
    match p c with
    | .success value next =>
      let found := if next.samePlace c then found else found.push value
      repeatedFrom p bounds start left found next
    | .failure cause =>
      let count := bounds.max - (left + 1)
      if count < bounds.min then countUnmet bounds count cause start else .success found c
    | .fault reason => .fault reason

/-- A parser between the least and the greatest number of times; when it fails too early, the
repetition fails where it started. -/
def repeated (p : Parser α) (bounds : Bounds) : Parser (List α) := fun c =>
  (repeatedFrom p bounds c bounds.max #[] c).map Array.toList

/-- Exactly `count` bytes of any value. -/
def bytes (count : Nat) : Parser (List UInt8) :=
  repeated byte (.exactly count)

end Parser

end Wire
