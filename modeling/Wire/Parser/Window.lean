import Wire.Parser.Byte

/-!
# Limits and windows

A parser sees no further than the limit of its cursor. `within` runs a parser in a window of a fixed
size and then goes on behind the window, with the limit from before; reading over the end of the
window is a failure of its own kind. `toEnd` asks that nothing is left before the limit.
-/

namespace Wire.Parser

variable {α : Type}

/-- A parser after which nothing is left before the limit. -/
def toEnd (p : Parser α) : Parser α := fun c =>
  (p c).bind fun value rest =>
    match current rest with
    | .success b _ => .failure ((Failure.unexpectedByte b rest).expecting "end of input")
    | .failure _ => .success value rest
    | .fault reason => .fault reason

/-- What a failure in a window of a cursor is outside of it: the end of a window that ends before
the limit of the cursor is not the end of input. -/
def relabel (window outer : Cursor) (cause : Failure) : Failure :=
  if cause.kind = .endOfInput ∧ cause.position = window.limit ∧ window.limit < outer.limit then
    cause.withKind .windowOverrun
  else cause

/-- A parser in a window of `size` bytes, all of which are taken whatever the parser takes. -/
def within (size : Nat) (p : Parser α) : Parser α := fun c =>
  match p (c.windowed size) with
  | .success value _ =>
    match c.remaining with
    | .error reason => .fault reason
    | .ok left =>
      if left < size then
        .failure ((Failure.endOfInput (c.skip size)).expecting s!"{size} bytes")
      else .success value (c.skip size)
  | .failure cause => .failure (relabel (c.windowed size) c cause)
  | .fault reason => .fault reason

/-- Lower the limit for all that follows to the next `size` bytes. -/
def narrow (size : Nat) : Parser Unit := fun c =>
  .success () (c.windowed size)

/-- Go on by `count` bytes or to the limit, with the number of bytes gone over. -/
def skip (count : Nat) : Parser Nat := fun c =>
  .success ((c.skip count).position - c.position) (c.skip count)

/-- All bytes before the limit. -/
def rest : Parser (List UInt8) := do
  let start ← here
  let unread ← ofChecked (start.bytesTo start.limit)
  fun _ => .success unread { start with position := start.limit }

end Wire.Parser
