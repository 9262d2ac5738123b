import Wire.Failure

/-!
# The bytes around a failure

A dump of up to eight bytes before the place of a failure, the byte at that place in brackets, and
up to eight bytes after it. The dump is the offset of its first byte followed by one token a byte;
at the end of the buffer the bracketed token is `[EOF]`.
-/

namespace Wire.Failure

/-- The offset of the first byte that the dump shows. -/
def contextStart (f : Failure) : Nat :=
  f.position - 8

/-- The bytes that the dump shows. -/
def contextBytes (f : Failure) : Checked (List UInt8) :=
  { f.remainder with position := f.contextStart }.bytesTo
    (min (f.position + 9) f.remainder.data.size)

/-- The token of a byte at an offset from the first byte shown; `marked` is the offset in
brackets. -/
def contextToken (marked : Nat) (b : UInt8) (offset : Nat) : String :=
  if offset = marked then "[" ++ Hex.byte .upper b ++ "]" else Hex.byte .upper b

/-- The tokens of the dump. -/
def contextTokens (f : Failure) : Checked (List String) := do
  let shown ← f.contextBytes
  let tokens := shown.zipIdx.map fun (b, offset) =>
    contextToken (f.position - f.contextStart) b offset
  return if f.remainder.data.size ≤ f.position then tokens ++ ["[EOF]"] else tokens

/-- The dump of the bytes around the place of the failure. -/
def context (f : Failure) : Checked String := do
  let tokens ← f.contextTokens
  return Hex.offset f.contextStart ++ " |" ++ String.join (tokens.map (" " ++ ·))

end Wire.Failure
