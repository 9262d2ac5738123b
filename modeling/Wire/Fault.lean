/-!
# Faults

A fault is a run that is abandoned because the program asked for something that has no answer: a
read outside the buffer, a span that ends before it starts, bounds the wrong way round. It is never
a property of the input alone, so no parser recovers from one. `Checked` is a computation that may
be abandoned.
-/

namespace Wire

/-- Why a run was abandoned. -/
inductive Fault where
  /-- A repetition asks for at least `min` and at most `max` applications, and `max < min`. -/
  | invertedBounds (min max : Nat)
  /-- The bytes from `start` up to `stop` are not a part of a buffer of `size` bytes. -/
  | outOfBuffer (start stop size : Nat)
  /-- A cursor stands behind its own limit. -/
  | pastLimit (position limit : Nat)
  /-- A number of `expected` bytes was given `found` bytes. -/
  | wrongWidth (expected found : Nat)
  /-- A repeated parser moved the cursor back from `position` to `next`, or moved its limit up. -/
  | retreat (position next : Nat)
  /-- A grammar refers to a name that has no definition. -/
  | undefinedName (name : String)
  /-- A grammar refers to itself without an end. -/
  | endlessReference (name : String)
  /-- No cursor was saved under the index. -/
  | unknownMark (index : Nat)
  deriving DecidableEq, Repr

/-- The text that reports the fault. -/
def Fault.message : Fault → String
  | .invertedBounds min max => s!"repeat bounds inverted: min {min} > max {max}"
  | .outOfBuffer start stop size =>
    s!"bytes {start} to {stop} are outside of a buffer of {size} bytes"
  | .pastLimit position limit => s!"position {position} is behind the limit {limit}"
  | .wrongWidth expected found => s!"a number of {expected} bytes was given {found} bytes"
  | .retreat position next => s!"a repeated parser moved from position {position} to {next}"
  | .undefinedName name => s!"the name {name} has no definition"
  | .endlessReference name => s!"the name {name} refers to itself without an end"
  | .unknownMark index => s!"no cursor was saved under {index}"

/-- A computation that gives a value or is abandoned. -/
abbrev Checked (α : Type) : Type := Except Fault α

end Wire
