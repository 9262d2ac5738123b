import Wire.Parser.Repetition

/-!
# Choice and lookahead

`orElse` runs its second parser when the first one fails or takes nothing, and of two failures
gives the one that got further. `orCommit` does the same, except that a failure of the first parser
behind its start is final. `butNot` refuses what a guard accepts, and `upTo` takes items up to a
terminator.
-/

namespace Wire.Parser

variable {α β : Type}

/-- Whether a failure of the first of two alternatives is final. -/
inductive Commitment where
  /-- It never is. -/
  | never
  /-- It is when it points to another place than the start. -/
  | onceMoved
  deriving DecidableEq, Repr

/-- The failure of an alternative that started at the cursor is final. -/
def Commitment.holds (commitment : Commitment) (cause : Failure) (start : Cursor) : Bool :=
  match commitment with
  | .never => false
  | .onceMoved => !cause.remainder.samePlace start

/-- The first parser, or else the second. A first success that stays at its place gives way to a
success of the second. -/
def choose (commitment : Commitment) (p q : Parser α) : Parser α := fun c =>
  match p c with
  | .success value rest =>
    if rest.samePlace c then
      match q c with
      | .success value' rest' => .success value' rest'
      | .failure _ => .success value rest
      | .fault reason => .fault reason
    else .success value rest
  | .failure first =>
    if commitment.holds first c then .failure first
    else match q c with
      | .success value rest => .success value rest
      | .failure second => .failure (first.furthest second)
      | .fault reason => .fault reason
  | .fault reason => .fault reason

/-- The first parser, or else the second from the same cursor. -/
def orElse (p q : Parser α) : Parser α :=
  choose .never p q

/-- The first parser, or else the second unless the first failed behind its start. -/
def orCommit (p q : Parser α) : Parser α :=
  choose .onceMoved p q

/-- A parser where a guard does not accept the input. -/
def butNot (p : Parser α) (guard : Parser β) : Parser α := fun c =>
  match guard c with
  | .success .. => .failure (.negativeLookahead c)
  | .failure _ => p c
  | .fault reason => .fault reason

/-- Items up to a terminator, which is taken too and whose value is dropped. -/
def upTo (item : Parser α) (terminator : Parser β) : Parser (List α) := do
  let items ← many (butNot item terminator)
  let _ ← terminator
  return items

end Wire.Parser
