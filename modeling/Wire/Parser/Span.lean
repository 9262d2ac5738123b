import Wire.Parser

/-!
# Spans

A spanned value knows the bytes that it was parsed from and where they stand in the buffer.
-/

namespace Wire

/-- A value with the bytes that it was parsed from. -/
structure Spanned (α : Type) where
  value : α
  /-- The bytes that the parser took. -/
  bytes : List UInt8
  /-- The offset of the first of them. -/
  start : Nat
  deriving DecidableEq, Repr

namespace Spanned

variable {α β : Type}

/-- The offset just after the last byte. -/
def stop (s : Spanned α) : Nat :=
  s.start + s.bytes.length

/-- The value changed by a function, with the span kept. -/
def map (f : α → β) (s : Spanned α) : Spanned β :=
  ⟨f s.value, s.bytes, s.start⟩

end Spanned

/-- A parser with the span of its value. -/
def Parser.spanned {α : Type} (p : Parser α) : Parser (Spanned α) := do
  let start ← here
  let value ← p
  let stop ← here
  let taken ← ofChecked (start.bytesTo stop.position)
  return ⟨value, taken, start.position⟩

end Wire
