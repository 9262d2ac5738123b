import Wire.Number.Integer
import Wire.Decimal.Shortest

/-!
# Binary floating-point numbers

A number of a binary interchange format is its pattern of bits: a sign, an exponent and a fraction.
Numbers are ordered by value: the two zeros are equal, and a pattern that is no number is in no
order with any, not even with itself. A number is written with the shortest decimal that reads back
as the same pattern.
-/

namespace Wire

/-- The widths of the parts of a binary interchange format. -/
structure BinaryFormat where
  exponentBits : Nat
  fractionBits : Nat
  deriving DecidableEq, Repr

namespace BinaryFormat

/-- The format of 32 bits. -/
def single : BinaryFormat := ⟨8, 23⟩

/-- The format of 64 bits. -/
def double : BinaryFormat := ⟨11, 52⟩

/-- The number of bits of a pattern. -/
def width (f : BinaryFormat) : Nat :=
  1 + f.exponentBits + f.fractionBits

/-- The number of bytes of a pattern. -/
def bytes (f : BinaryFormat) : Nat :=
  f.width / 8

end BinaryFormat

/-- A pattern of a binary interchange format. -/
structure Binary (f : BinaryFormat) where
  bits : BitVec f.width
  deriving DecidableEq, Repr

namespace Binary

variable {f : BinaryFormat}

/-- The sign is set. -/
def negative (x : Binary f) : Bool :=
  x.bits.msb

/-- The pattern without its sign, as a number. -/
def magnitude (x : Binary f) : Nat :=
  x.bits.toNat % Nat.pow 2 (f.exponentBits + f.fractionBits)

/-- The exponent as it is stored. -/
def exponentField (x : Binary f) : Nat :=
  x.magnitude / Nat.pow 2 f.fractionBits

/-- The fraction as it is stored. -/
def fraction (x : Binary f) : Nat :=
  x.magnitude % Nat.pow 2 f.fractionBits

/-- The exponent is the one kept for infinities and for patterns that are no numbers. -/
def isSpecial (x : Binary f) : Bool :=
  x.exponentField == Nat.pow 2 f.exponentBits - 1

/-- The pattern is no number. -/
def isNaN (x : Binary f) : Bool :=
  x.isSpecial && x.fraction != 0

/-- A number that orders patterns by their values; the two zeros have the same one. -/
def orderKey (x : Binary f) : Int :=
  if x.negative then -(x.magnitude : Int) else x.magnitude

instance : LE (Binary f) where
  le x y := x.isNaN = false ∧ y.isNaN = false ∧ x.orderKey ≤ y.orderKey

instance : DecidableLE (Binary f) := fun _ _ =>
  inferInstanceAs (Decidable (_ ∧ _ ∧ _))

/-- The reals that round to the absolute value of a pattern that is neither special nor zero. -/
def interval (x : Binary f) : RoundingInterval :=
  let bias : Int := Nat.pow 2 (f.exponentBits - 1) - 1
  if x.exponentField = 0 then .ofBinary x.fraction (1 - bias - f.fractionBits) false
  else .ofBinary (Nat.pow 2 f.fractionBits + x.fraction) (x.exponentField - bias - f.fractionBits)
    (x.fraction == 0)

/-- The absolute value as text. -/
def magnitudeText (x : Binary f) : String :=
  if x.isSpecial then "inf"
  else if x.magnitude = 0 then "0"
  else x.interval.shortest.text

/-- The number as text: shortest digits in full, `inf`, or `NaN`, which has no sign. -/
def text (x : Binary f) : String :=
  if x.isNaN then "NaN" else if x.negative then "-" ++ x.magnitudeText else x.magnitudeText

instance : ToString (Binary f) := ⟨text⟩

/-- The pattern with the given bytes, of which there must be as many as the format has. -/
def decode (f : BinaryFormat) (order : ByteOrder) (bs : List UInt8) : Checked (Binary f) :=
  if bs.length = f.bytes then .ok ⟨BitVec.ofNat f.width (order.number bs)⟩
  else .error (.wrongWidth f.bytes bs.length)

/-- The bytes of a pattern. -/
def encode (order : ByteOrder) (x : Binary f) : List UInt8 :=
  order.digits f.bytes x.bits.toNat

end Binary

end Wire
