import Wire.Number.Binary
import Wire.Text.Hex

/-!
# Values

What grammars produce: integers, floating-point numbers, strings, lists, pairs, and values tagged
with the bytes that they were parsed from. Every value can be read as an integer, as a list, as
bytes and as a count, so a grammar may use any value wherever it needs one of these. A `Transform`
changes a value; it goes through tags and leaves them as they are.
-/

namespace Wire

/-- A value that a grammar produces. -/
inductive Value where
  | null
  | int (n : Int)
  | binary (f : BinaryFormat) (x : Binary f)
  | str (s : String)
  | list (items : List Value)
  | pair (first second : Value)
  /-- A value with the bytes that it was parsed from and the offset of the first of them. -/
  | tagged (inner : Value) (bytes : List UInt8) (start : Nat)

namespace Value

/-- The bytes as a list of integers. -/
def ofBytes (bs : List UInt8) : Value :=
  .list (bs.map fun b => .int b.toNat)

/-- The value as an integer: a list counts its items, a pair stands for its first part. -/
def toInt : Value → Int
  | .int n => n
  | .list items => items.length
  | .pair first _ => first.toInt
  | .tagged inner _ _ => inner.toInt
  | _ => 0

/-- The items of a list; any other value is the one item. -/
def items : Value → List Value
  | .list items => items
  | v => [v]

/-- The value as a byte, in which higher digits are dropped. -/
def toByte (v : Value) : UInt8 :=
  UInt8.ofNat (v.toInt % 256).toNat

/-- The items as bytes. -/
def toBytes (v : Value) : List UInt8 :=
  v.items.map toByte

/-- The value as a count of 64 bits, in which higher digits are dropped. -/
def toCount (v : Value) : Nat :=
  (v.toInt % Nat.pow 2 64).toNat

end Value

/-- A change of a value. -/
inductive Transform where
  /-- The number of items. -/
  | length
  | int
  /-- The bytes in lower-case hexadecimal digits. -/
  | hex
  /-- The items of the items. -/
  | flat
  /-- The first part of a pair. -/
  | first
  /-- The second part of a pair. -/
  | second
  /-- A list from its end to its start. -/
  | reverse
  deriving DecidableEq, Repr

namespace Transform

/-- The change of a value that has no tag. -/
def applyBare : Transform → Value → Value
  | .length, v => .int v.items.length
  | .int, v => .int v.toInt
  | .hex, v => .str (Hex.bytes .lower v.toBytes)
  | .flat, v => .list (v.items.flatMap Value.items)
  | .first, .pair a _ => a
  | .second, .pair _ b => b
  | .reverse, .list items => .list items.reverse
  | _, v => v

/-- The change of a value, made under all tags. -/
def apply (t : Transform) : Value → Value
  | .tagged inner bytes start => .tagged (t.apply inner) bytes start
  | v => t.applyBare v

end Transform

/-- A condition on a value. -/
inductive Predicate where
  /-- The same answer for all values. -/
  | always (answer : Bool)
  /-- The integer leaves `remainder` on division by `modulus`. -/
  | congruent (modulus remainder : Int)
  /-- There are at least so many items. -/
  | itemsAtLeast (count : Nat)
  /-- The integer is below a bound. -/
  | below (bound : Int)
  deriving DecidableEq, Repr

/-- The value satisfies the condition. -/
def Predicate.holds : Predicate → Value → Bool
  | .always answer, _ => answer
  | .congruent modulus remainder, v => v.toInt % modulus == remainder
  | .itemsAtLeast count, v => decide (count ≤ v.items.length)
  | .below bound, v => decide (v.toInt < bound)

end Wire
