import Wire.Outcome

/-!
# Parsers

A parser is a function from a cursor to an outcome. Parsers form a monad: `p >>= f` runs `p`, then
the parser that `f` makes of its value from the cursor after it, and the first failure or fault is
that of the whole. Running a parser changes nothing, so any parser may be run again from any cursor.
-/

namespace Wire

/-- A parser of values of a type. -/
def Parser (α : Type) : Type :=
  Cursor → Outcome α

namespace Parser

variable {α β : Type}

/-- Run a parser at a cursor. -/
@[inline]
def run (p : Parser α) (c : Cursor) : Outcome α :=
  p c

instance : Monad Parser where
  pure value := fun c => .success value c
  bind p f := fun c => (p c).bind f

/-- A constant is given without moving. -/
@[simp]
theorem pure_run (value : α) (c : Cursor) : (pure value : Parser α).run c = .success value c :=
  rfl

/-- The second parser runs where the first one ended. -/
@[simp]
theorem bind_run (p : Parser α) (f : α → Parser β) (c : Cursor) :
    (p >>= f).run c = (p.run c).bind fun value rest => (f value).run rest :=
  rfl

instance : LawfulMonad Parser := LawfulMonad.mk' Parser
  (by intro α p; funext c; change (p c).bind _ = _; cases p c <;> rfl)
  (by intros; rfl)
  (by
    intro α β γ p f g; funext c
    change ((p c).bind _).bind _ = (p c).bind _
    cases p c <;> rfl)

/-- Give the cursor as the value and stay there. -/
def here : Parser Cursor := fun c =>
  .success c c

/-- Fail with a failure. -/
def refuse (cause : Failure) : Parser α := fun _ =>
  .failure cause

/-- Abandon the run. -/
def abandon (reason : Fault) : Parser α := fun _ =>
  .fault reason

/-- Give a checked value, or abandon the run. -/
def ofChecked (value : Checked α) : Parser α := fun c =>
  .ofChecked c value

/-- One parser and then another, with the values of both. -/
def both (p : Parser α) (q : Parser β) : Parser (α × β) := do
  let first ← p
  let second ← q
  return (first, second)

/-- The value of a parser as a list of one item. -/
def singleton (p : Parser α) : Parser (List α) :=
  (fun value => [value]) <$> p

/-- One parser of lists and then another, with the items of both in order. -/
def append (p q : Parser (List α)) : Parser (List α) := do
  let first ← p
  let second ← q
  return first ++ second

/-- The value of a parser replaced by a constant. -/
def replace (p : Parser α) (value : β) : Parser β :=
  (fun _ => value) <$> p

/-- Run a parser and stay at the cursor where it started. -/
def peek (p : Parser α) : Parser α := fun c =>
  (p c).bind fun value _ => .success value c

end Parser

end Wire
