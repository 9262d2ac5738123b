import Wire.Fault

/-!
# Integers of a fixed width

An integer type is a width in bytes and whether there is a sign. In memory an integer is the digits
of a number to the base 256, in either order, where a negative integer stands as its sum with the
number of all patterns (two's complement). `IntegerType.encode` writes and `IntegerType.decode`
reads that form.
-/

namespace Wire

/-- The order of the bytes of a number. -/
inductive ByteOrder where
  /-- The byte of the highest value comes first. -/
  | big
  /-- The byte of the lowest value comes first. -/
  | little
  deriving DecidableEq, Repr

/-- The last `width` digits of a number to the base 256, lowest first. -/
def lowDigits : (width : Nat) → Nat → List UInt8
  | 0, _ => []
  | width + 1, n => UInt8.ofNat (n % 256) :: lowDigits width (n / 256)

/-- The number with the given digits to the base 256, lowest first. -/
def ofLowDigits : List UInt8 → Nat
  | [] => 0
  | b :: bs => b.toNat + 256 * ofLowDigits bs

namespace ByteOrder

/-- The number that some bytes stand for. -/
def number : ByteOrder → List UInt8 → Nat
  | .big, bs => ofLowDigits bs.reverse
  | .little, bs => ofLowDigits bs

/-- A number in `width` bytes; higher digits are dropped. -/
def digits (order : ByteOrder) (width n : Nat) : List UInt8 :=
  match order with
  | .big => (lowDigits width n).reverse
  | .little => lowDigits width n

end ByteOrder

/-- The widths of integers. -/
inductive Width where
  | one
  | two
  | four
  | eight
  deriving DecidableEq, Repr

/-- The number of bytes of a width. -/
def Width.bytes : Width → Nat
  | .one => 1
  | .two => 2
  | .four => 4
  | .eight => 8

/-- A kind of integers in memory. -/
structure IntegerType where
  width : Width
  /-- Negative integers are included. -/
  signed : Bool
  deriving DecidableEq, Repr

namespace IntegerType

/-- The unsigned integers of two bytes. -/
def word : IntegerType :=
  ⟨.two, false⟩

/-- The number of patterns of the type. -/
def patterns (t : IntegerType) : Nat :=
  Nat.pow 256 t.width.bytes

/-- The least integer of the type. -/
def least (t : IntegerType) : Int :=
  if t.signed then -(t.patterns / 2 : Nat) else 0

/-- The greatest integer of the type. -/
def greatest (t : IntegerType) : Int :=
  t.least + t.patterns - 1

/-- An integer belongs to the type. -/
def Contains (t : IntegerType) (n : Int) : Prop :=
  t.least ≤ n ∧ n ≤ t.greatest

instance (t : IntegerType) (n : Int) : Decidable (t.Contains n) :=
  inferInstanceAs (Decidable (_ ∧ _))

/-- The integer of the type whose pattern is the number `n`. -/
def ofPattern (t : IntegerType) (n : Nat) : Int :=
  if t.signed ∧ t.patterns ≤ 2 * n then (n : Int) - t.patterns else n

/-- The pattern of an integer, as a number. -/
def toPattern (t : IntegerType) (n : Int) : Nat :=
  (n % t.patterns).toNat

/-- The bytes of an integer. -/
def encode (t : IntegerType) (order : ByteOrder) (n : Int) : List UInt8 :=
  order.digits t.width.bytes (t.toPattern n)

/-- The integer with the given bytes, of which there must be as many as the type is wide. -/
def decode (t : IntegerType) (order : ByteOrder) (bs : List UInt8) : Checked Int :=
  if bs.length = t.width.bytes then .ok (t.ofPattern (order.number bs))
  else .error (.wrongWidth t.width.bytes bs.length)

end IntegerType

end Wire
