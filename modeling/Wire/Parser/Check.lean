import Wire.Parser.Repetition
import Wire.Checksum

/-!
# Checks on what was parsed

A value can be parsed and still be refused: by a predicate (`satisfying`, `inRange`), where the
failure points back to where the value started, or by a digest that follows the bytes it covers
(`withDigest`), where the failure points to the digest.
-/

namespace Wire.Parser

variable {α : Type}

/-- A parser whose values satisfy a predicate; `description` says which values do. -/
def satisfying (p : Parser α) (accept : α → Bool) (description : String) : Parser α := do
  let start ← here
  let value ← p
  if accept value then return value else refuse (.notValid description start)

/-- A parser whose values lie between two bounds, both included. -/
def inRange [LE α] [DecidableLE α] [ToString α] (p : Parser α) (first last : α) : Parser α :=
  satisfying p (fun value => decide (first ≤ value ∧ value ≤ last))
    ("between " ++ toString first ++ " and " ++ toString last)

/-- A parser followed by the digest of the bytes that it took. -/
def withDigest (p : Parser α) (checksum : Checksum) : Parser α := do
  let start ← here
  let value ← p
  let stop ← here
  let covered ← ofChecked (start.bytesTo stop.position)
  let found ← bytes checksum.length
  let expected := checksum.digest covered
  if found = expected then return value else refuse (.checksumMismatch expected found stop)

end Wire.Parser
