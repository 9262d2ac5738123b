import Wire.Parser

/-!
# Parsers of single bytes

`Parser.current` reads the byte at the cursor and stays; every other parser here takes the byte if
it is accepted, and otherwise fails where it stands, with a description of the accepted bytes as
the one expectation. `Parser.sequence` takes given bytes one after another.
-/

namespace Wire.Parser

/-- The byte at the cursor, without moving on. -/
def current : Parser UInt8 := fun c =>
  if c.atEnd then .failure (.endOfInput c)
  else match c.data.bytes[c.position]? with
    | some b => .success b c
    | none => .fault (.outOfBuffer c.position (c.position + 1) c.data.size)

/-- A byte that is accepted; `description` says which bytes are. -/
def byteWhere (accept : UInt8 → Bool) (description : String) : Parser UInt8 := fun c =>
  match current c with
  | .success b _ =>
    if accept b then .success b c.next
    else .failure ((Failure.unexpectedByte b c).expecting description)
  | .failure cause => .failure (cause.expecting description)
  | .fault reason => .fault reason

/-- Any byte. -/
def byte : Parser UInt8 :=
  byteWhere (fun _ => true) "any byte"

/-- One given byte. -/
def exactly (b : UInt8) : Parser UInt8 :=
  byteWhere (· == b) (Hex.byte .upper b)

/-- A byte from `first` to `last`, both included. -/
def between (first last : UInt8) : Parser UInt8 :=
  byteWhere (fun b => decide (first ≤ b ∧ b ≤ last))
    ("between " ++ Hex.byte .upper first ++ " and " ++ Hex.byte .upper last)

/-- One of some bytes. -/
def oneOf (set : List UInt8) : Parser UInt8 :=
  byteWhere (fun b => set.contains b) (Hex.separated "|" set)

/-- Given bytes in order. -/
def sequence : List UInt8 → Parser (List UInt8)
  | [] => pure []
  | b :: bs => do
    let first ← exactly b
    let rest ← sequence bs
    return first :: rest

end Wire.Parser
