import Wire.Cursor
import Wire.Text.Hex

/-!
# Failures

A failure says that the input is not what a parser accepts: of what kind the mismatch is, in words
what was found, what would have been accepted instead, and where. Expectations are listed in the
order in which they were added and none is listed twice. `Failure.furthest` picks between the
failures of two alternatives the one that got further, and on a tie lists what either expected.
The wording of every cause stands in this module.
-/

namespace Wire

/-- The kinds of mismatch between a parser and the input. -/
inductive FailureKind where
  /-- A byte is not one that is accepted. -/
  | unexpectedByte
  /-- A byte was needed at the limit. -/
  | endOfInput
  /-- A parser in a window needed a byte behind the window. -/
  | windowOverrun
  /-- Input that must not follow does follow. -/
  | negativeLookahead
  /-- A digest is not that of the bytes before it. -/
  | checksumMismatch
  /-- A value was parsed and then refused. -/
  | validationFailed
  /-- A repetition ended before its least count. -/
  | boundedCountUnmet
  deriving DecidableEq, Repr

/-- The kind in words. -/
def FailureKind.text : FailureKind → String
  | .unexpectedByte => "unexpected byte"
  | .endOfInput => "end of input"
  | .windowOverrun => "window overrun"
  | .negativeLookahead => "negative lookahead violation"
  | .checksumMismatch => "checksum mismatch"
  | .validationFailed => "validation failed"
  | .boundedCountUnmet => "bounded count unmet"

/-- How a parser failed. -/
structure Failure where
  kind : FailureKind
  /-- What was found, in words. -/
  message : String
  /-- What would have been accepted, in the order of discovery. -/
  expectations : List String
  /-- The place that the failure is about. -/
  remainder : Cursor
  deriving DecidableEq, Repr

namespace Failure

/-- The offset that the failure is about. -/
def position (f : Failure) : Nat :=
  f.remainder.position

/-- The failure with one more expectation, unless it has that one already. -/
def expecting (f : Failure) (expectation : String) : Failure :=
  if expectation ∈ f.expectations then f
  else { f with expectations := f.expectations ++ [expectation] }

/-- The failure with more expectations, added one by one. -/
def expectingAll (f : Failure) (expectations : List String) : Failure :=
  expectations.foldl expecting f

/-- The failure as one of another kind. -/
def withKind (f : Failure) (kind : FailureKind) : Failure :=
  { f with kind }

/-- The one of two failures that got further; of two at one position the first, which then also
lists the expectations of the second. -/
def furthest (f g : Failure) : Failure :=
  if f.position < g.position then g
  else if g.position = f.position then f.expectingAll g.expectations
  else f

/-- The failure as a line of text: the message, the expectations if there are any, the place. -/
def text (f : Failure) : String :=
  let expected := if f.expectations.isEmpty then "" else
    "; expected " ++ " or ".intercalate f.expectations
  "Parsing failure: " ++ f.message ++ expected ++ " (" ++ f.remainder.text ++ ")"

/-! ## Causes -/

/-- A byte was needed and none is left. -/
def endOfInput (c : Cursor) : Failure :=
  ⟨.endOfInput, "Unexpected end of input reached", [], c⟩

/-- The byte at the cursor is not one that is accepted. -/
def unexpectedByte (b : UInt8) (c : Cursor) : Failure :=
  ⟨.unexpectedByte, "unexpected '" ++ Hex.byte .upper b ++ "'", [], c⟩

/-- Input that must not follow follows at the cursor. -/
def negativeLookahead (c : Cursor) : Failure :=
  ⟨.negativeLookahead, "Excepted parser succeeded", ["other than the excepted input"], c⟩

/-- A repetition from the cursor on ended after `count` applications, because of `cause` at the byte
`found`, or at the end of input if there is none. -/
def boundedCountUnmet (min max count : Nat) (cause : Failure) (found : Option UInt8) (c : Cursor) :
    Failure :=
  let what := match found with
    | some b => Hex.byte .upper b
    | none => "end of input"
  let expected := ", ".intercalate cause.expectations
  ⟨.boundedCountUnmet, "Unexpected '" ++ what ++ "'",
    ["'" ++ expected ++ s!"' between {min} and {max} times, but found {count}"], c⟩

/-- The digest at the cursor is `found`, and that of the bytes before it is `expected`. -/
def checksumMismatch (expected found : List UInt8) (c : Cursor) : Failure :=
  ⟨.checksumMismatch, "invalid checksum: expected " ++ Hex.separated "-" expected ++ " but was " ++
    Hex.separated "-" found, [], c⟩

/-- The value parsed from the cursor on is not as described. -/
def notValid (description : String) (c : Cursor) : Failure :=
  ⟨.validationFailed, "not valid", [description], c⟩

/-- The parser at the cursor gave `found` bytes where `expected` bytes are needed. -/
def wrongByteCount (expected found : Nat) (c : Cursor) : Failure :=
  ⟨.validationFailed, s!"expected {expected} bytes but was {found}", [], c⟩

end Failure

end Wire
