import Wire.Parser.Repetition
import Wire.Number.Integer
import Wire.Number.Binary

/-!
# Parsers of numbers

A number takes as many bytes as its type is wide. `wordOf` makes a two-byte number of the bytes that
another parser gives.
-/

namespace Wire.Parser

/-- An integer of a type. -/
def integer (t : IntegerType) (order : ByteOrder) : Parser Int := do
  let stored ← bytes t.width.bytes
  ofChecked (t.decode order stored)

/-- A floating-point number of a format. -/
def binary (f : BinaryFormat) (order : ByteOrder) : Parser (Binary f) := do
  let stored ← bytes f.bytes
  ofChecked (Binary.decode f order stored)

/-- The two bytes that a parser gives, as an unsigned number. -/
def wordOf (order : ByteOrder) (p : Parser (List UInt8)) : Parser Int := do
  let start ← here
  let stored ← p
  if stored.length = 2 then ofChecked (IntegerType.word.decode order stored)
  else refuse (.wrongByteCount 2 stored.length start)

end Wire.Parser
