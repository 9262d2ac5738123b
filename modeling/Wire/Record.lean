import Wire.Parser.Choice
import Wire.Parser.Window
import Wire.Parser.Check
import Wire.Parser.Number
import Wire.Checksum.Crc16

/-!
# A stream of records

A record is an identifier and some fields, sent as a frame: two marker bytes, the identifier, the
length of the fields in one byte, the fields, and the check of all behind the marker. A field is a
counter of two bytes or a name that ends with a zero. `Record.encode` writes a frame, and
`Record.stream` reads as many frames as there are and nothing else.
-/

namespace Wire

/-- A part of a record. -/
inductive Field where
  | counter (n : UInt16)
  | name (bytes : List UInt8)
  deriving DecidableEq, Repr

/-- An identifier with its fields. -/
structure Record where
  id : UInt16
  fields : List Field
  deriving DecidableEq, Repr

namespace Field

/-- A name holds no zero. -/
def Valid : Field → Prop
  | .counter _ => True
  | .name bytes => 0 ∉ bytes

instance : (field : Field) → Decidable field.Valid
  | .counter _ => inferInstanceAs (Decidable True)
  | .name bytes => inferInstanceAs (Decidable (0 ∉ bytes))

/-- The bytes of a field. -/
def encode : Field → List UInt8
  | .counter n => 1 :: ByteOrder.little.digits 2 n.toNat
  | .name bytes => 2 :: bytes ++ [0]

/-- The parser of a counter. -/
def counterParser : Parser Field := do
  let _ ← Parser.exactly 1
  let n ← Parser.integer .word .little
  return .counter (.ofNat n.toNat)

/-- The parser of a name. -/
def nameParser : Parser Field := do
  let _ ← Parser.exactly 2
  let bytes ← Parser.upTo Parser.byte (Parser.exactly 0)
  return .name bytes

/-- The parser of a field. -/
def parser : Parser Field :=
  Parser.orCommit counterParser nameParser

end Field

namespace Record

/-- The bytes of the fields, in order. -/
def payload (r : Record) : List UInt8 :=
  r.fields.flatMap Field.encode

/-- The identifier is from 1 to 0FFF, the fields are valid, and their length fits in a byte. -/
def Valid (r : Record) : Prop :=
  1 ≤ r.id ∧ r.id ≤ 0x0FFF ∧ (∀ field ∈ r.fields, field.Valid) ∧ r.payload.length ≤ 255

instance (r : Record) : Decidable r.Valid :=
  inferInstanceAs (Decidable (_ ∧ _ ∧ _ ∧ _))

/-- The two bytes that a frame starts with. -/
def marker : List UInt8 :=
  [0xAA, 0x55]

/-- The check of a frame. -/
def checksum : Checksum :=
  Crc16.checksum .augmented

/-- The bytes that the check covers. -/
def covered (r : Record) : List UInt8 :=
  ByteOrder.big.digits 2 r.id.toNat ++ UInt8.ofNat r.payload.length :: r.payload

/-- The frame of a record. -/
def encode (r : Record) : List UInt8 :=
  marker ++ r.covered ++ checksum.digest r.covered

/-- The parser of the fields, which fill a window whose length stands before it. -/
def fieldsParser : Parser (List Field) := do
  let length ← Parser.byte
  Parser.within length.toNat (Parser.toEnd (Parser.manyCommit Field.parser))

/-- The parser of what the check covers. -/
def coveredParser : Parser (Int × List Field) :=
  Parser.both (Parser.inRange (Parser.integer .word .big) 1 0x0FFF) fieldsParser

/-- The parser of a frame. -/
def parser : Parser Record := do
  let _ ← Parser.sequence marker
  let (id, fields) ← Parser.withDigest coveredParser checksum
  return { id := .ofNat id.toNat, fields }

/-- The parser of a stream of frames that fills the whole input. -/
def stream : Parser (List Record) :=
  Parser.toEnd (Parser.many parser)

/-- The bytes of some frames, in order. -/
def encodeAll (records : List Record) : List UInt8 :=
  records.flatMap encode

end Record

end Wire
