/-!
# Hexadecimal text

A byte is written with two digits and an offset with at least eight. Messages and dumps use the
upper-case letters, values the lower-case ones; `Hex.decode?` reads either.
-/

namespace Wire

/-- The letters that stand for the digits ten to fifteen. -/
inductive LetterCase where
  | lower
  | upper
  deriving DecidableEq, Repr

namespace Hex

/-- The digit of a number below sixteen. -/
def digit (letters : LetterCase) (n : Nat) : Char :=
  match letters with
  | .lower => Nat.digitChar n
  | .upper => (Nat.digitChar n).toUpper

/-- The two digits of a byte, the higher one first. -/
def byte (letters : LetterCase) (b : UInt8) : String :=
  String.ofList [digit letters (b.toNat / 16), digit letters (b.toNat % 16)]

/-- The digits of some bytes, in order and without a separator. -/
def bytes (letters : LetterCase) (bs : List UInt8) : String :=
  String.join (bs.map (byte letters))

/-- The upper-case digits of some bytes with a separator between two bytes. -/
def separated (separator : String) (bs : List UInt8) : String :=
  separator.intercalate (bs.map (byte .upper))

/-- An offset in upper-case digits, filled up with zeros to eight of them. -/
def offset (n : Nat) : String :=
  String.ofList (((Nat.toDigits 16 n).map Char.toUpper).leftpad 8 '0')

/-- The number that a digit stands for. -/
def value? (c : Char) : Option Nat :=
  if '0' ≤ c ∧ c ≤ '9' then some (c.toNat - '0'.toNat)
  else if 'a' ≤ c ∧ c ≤ 'f' then some (c.toNat - 'a'.toNat + 10)
  else if 'A' ≤ c ∧ c ≤ 'F' then some (c.toNat - 'A'.toNat + 10)
  else none

/-- The bytes that pairs of digits stand for; none when a digit is missing or is no digit. -/
def ofDigits? : List Char → Option (List UInt8)
  | [] => some []
  | [_] => none
  | high :: low :: rest =>
    match value? high, value? low, ofDigits? rest with
    | some h, some l, some bs => some (UInt8.ofNat (16 * h + l) :: bs)
    | _, _, _ => none

/-- The bytes that a text of two digits a byte stands for. -/
def decode? (text : String) : Option (List UInt8) :=
  ofDigits? text.toList

end Hex

end Wire
