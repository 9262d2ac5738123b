import Wire.Failure

/-!
# Outcomes

A run of a parser ends with a value and the cursor after it, or with a failure, or it is abandoned
with a fault. An error of a whole parse is a failure as text, a value that was asked for and is not
there, or a range that is not in the buffer.
-/

namespace Wire

/-- How a run of a parser ended. -/
inductive Outcome (α : Type) where
  /-- The value that was parsed and the cursor just after it. -/
  | success (value : α) (rest : Cursor)
  /-- The input is not what the parser accepts. -/
  | failure (cause : Failure)
  /-- The run was abandoned. -/
  | fault (reason : Fault)
  deriving DecidableEq, Repr

/-- An error outside of the run of a parser. -/
inductive ParseError where
  /-- The input was not accepted; the text is that of the failure. -/
  | failed (position : Nat) (text : String)
  /-- The value of an outcome that has none was asked for. -/
  | invalidState
  /-- A range is not a part of the buffer. -/
  | invalidRange (cause : RangeError)
  deriving DecidableEq, Repr

/-- The text that reports the error. -/
def ParseError.message : ParseError → String
  | .failed _ text => text
  | .invalidState => "No value was parsed"
  | .invalidRange cause => "invalid argument `" ++ cause.argument ++ "`: " ++ cause.reason

/-- The failure as an error, with its place and its text. -/
def ParseError.ofFailure (f : Failure) : ParseError :=
  .failed f.position f.text

namespace Outcome

variable {α β : Type}

/-- A value changed by a function, if there is one. -/
def map (f : α → β) : Outcome α → Outcome β
  | .success value rest => .success (f value) rest
  | .failure cause => .failure cause
  | .fault reason => .fault reason

/-- A run that goes on after a success. -/
def bind (o : Outcome α) (f : α → Cursor → Outcome β) : Outcome β :=
  match o with
  | .success value rest => f value rest
  | .failure cause => .failure cause
  | .fault reason => .fault reason

/-- A checked value as an outcome at a cursor. -/
def ofChecked (c : Cursor) : Checked α → Outcome α
  | .ok value => .success value c
  | .error reason => .fault reason

/-- The outcome is a success. -/
def succeeded : Outcome α → Bool
  | .success .. => true
  | _ => false

/-- The cursor that the outcome is about: after the value, or where the failure points. -/
def remainder : Outcome α → Checked Cursor
  | .success _ rest => .ok rest
  | .failure cause => .ok cause.remainder
  | .fault reason => .error reason

/-- The value of a success. -/
def value : Outcome α → Except ParseError α
  | .success value _ => .ok value
  | _ => .error .invalidState

end Outcome

end Wire
