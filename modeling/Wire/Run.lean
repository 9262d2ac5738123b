import Wire.Parser
import Wire.Failure.Context

/-!
# Running a parser over a buffer

A buffer is parsed from its start; bytes left behind the value are no error. `tryParse` gives the
outcome and `parse` the value or the failure as an error with text. `events` is what these report of
such a run: the size of the buffer at its start, and a failure at its end. Reports that a parser
makes on its way, as that of a digest that does not match, are not among them.
-/

namespace Wire

variable {α : Type}

/-- The outcome of a parser from the start of a buffer. -/
def tryParse (p : Parser α) (data : Buffer) : Outcome α :=
  p.run (.ofBuffer data)

/-- The outcome of a parser on a range of a buffer. -/
def parseRange (p : Parser α) (data : Buffer) (start count : Nat) :
    Except ParseError (Outcome α) :=
  match Cursor.ofRange? data start count with
  | .ok c => .ok (p.run c)
  | .error cause => .error (.invalidRange cause)

/-- The value of a parser from the start of a buffer. -/
def parse (p : Parser α) (data : Buffer) : Checked (Except ParseError α) :=
  match tryParse p data with
  | .success value _ => .ok (.ok value)
  | .failure cause => .ok (.error (.ofFailure cause))
  | .fault reason => .error reason

/-- How much an event matters. -/
inductive Level where
  | trace
  | debug
  deriving DecidableEq, Repr

/-- The name of a level. -/
def Level.text : Level → String
  | .trace => "TRACE"
  | .debug => "DEBUG"

/-- What is reported of a run at its start and at its end. -/
inductive Event where
  /-- A buffer of so many bytes is about to be parsed. -/
  | started (size : Nat)
  /-- The parser failed; `context` shows the bytes around the place. -/
  | failed (cause : Failure) (context : String)
  deriving DecidableEq, Repr

namespace Event

/-- The level of an event. -/
def level : Event → Level
  | .started _ => .trace
  | .failed .. => .debug

/-- The fields of an event under their names. -/
def fields : Event → List (String × String)
  | .started size => [("message", "parsing buffer"), ("len", toString size)]
  | .failed cause context =>
    [("message", "parse failed: " ++ cause.text), ("position", toString cause.position),
      ("kind", cause.kind.text), ("context", context)]

end Event

/-- The events of a run of a parser from the start of a buffer, without those that the parser itself
reports while it runs. -/
def events (p : Parser α) (data : Buffer) : Checked (List Event) :=
  match tryParse p data with
  | .success .. => .ok [.started data.size]
  | .failure cause => do
    let context ← cause.context
    return [.started data.size, .failed cause context]
  | .fault reason => .error reason

end Wire
