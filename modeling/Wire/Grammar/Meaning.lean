import Wire.Grammar
import Wire.Run
import Wire.Parser.Choice
import Wire.Parser.Window
import Wire.Parser.Check
import Wire.Parser.Span
import Wire.Parser.Number

/-!
# The parser of a grammar

`Grammar.parser` is what a grammar means when the meaning of every name is given, and
`Continuation.parser` what a continuation means at a value. Names are given their meaning by
`Definitions.parser` down to a depth of nested references, and `Grammar.run` takes a depth that is
beyond the number of names, places and limits. At every greater depth the outcome of the run is the
same, unless references nest that come back to the same name, place and limit
(`Grammar.run_eq_of_depth_or_nests`).
-/

namespace Wire

namespace Parser

/-- Fail at a cursor some bytes further on. -/
def failAhead {α : Type} (kind : FailureKind) (message : String) (expectations : List String)
    (distance : Nat) : Parser α := fun c =>
  .failure ((Failure.mk kind message [] (c.skip distance)).expectingAll expectations)

/-- A byte, with a small letter made a capital one. -/
def capital : Parser UInt8 := fun c =>
  (current c).bind fun b _ =>
    .success (if 97 ≤ b ∧ b ≤ 122 then b - 32 else b) c.next

/-- A byte as an integer value. -/
def byteValue (p : Parser UInt8) : Parser Value :=
  (fun b => .int b.toNat) <$> p

/-- Bytes as a list value. -/
def bytesValue (p : Parser (List UInt8)) : Parser Value :=
  Value.ofBytes <$> p

/-- A list of values as a list value. -/
def listValue (p : Parser (List Value)) : Parser Value :=
  Value.list <$> p

/-- A parser between a least and a greatest number of times, abandoned when these are the wrong way
round. -/
def repeatedBetween {α : Type} (p : Parser α) (min max : Nat) : Parser (List α) :=
  match Bounds.ofNat? min max with
  | .ok bounds => repeated p bounds
  | .error reason => abandon reason

end Parser

open Wire.Parser

/-- The parser of a grammar that was just put together: abandoned when its bounds are wrong. -/
def Grammar.checked (g : Grammar) (p : Parser Value) : Parser Value :=
  match g.fault? with
  | some reason => abandon reason
  | none => p

mutual

/-- The parser of a grammar, where `names` gives the parser of every name. -/
def Grammar.parser (names : String → Parser Value) : Grammar → Parser Value
  | .byte => byteValue Parser.byte
  | .exactly b => byteValue (Parser.exactly b)
  | .between first last => byteValue (Parser.between first last)
  | .oneOf set => byteValue (Parser.oneOf set)
  | .sequence bs => bytesValue (Parser.sequence bs)
  | .bytes count => bytesValue (Parser.bytes count)
  | .masked mask result description =>
    byteValue (byteWhere (fun b => b &&& mask == result) description)
  | .integer type order => Value.int <$> Parser.integer type order
  | .binary format order => Value.binary format <$> Parser.binary format order
  | .wordOf order g => Value.int <$> Parser.wordOf order (Value.toBytes <$> g.parser names)
  | .constant value => pure value
  | .fail kind message expectations distance => failAhead kind message expectations distance
  | .capital => byteValue Parser.capital
  | .skip count => (fun n : Nat => Value.int n) <$> Parser.skip count
  | .narrow size => (fun _ => Value.null) <$> Parser.narrow size
  | .rest => bytesValue Parser.rest
  | .peek g => Parser.peek (g.parser names)
  | .ref name => names name
  | .transform t g => t.apply <$> g.parser names
  | .replace value g => Parser.replace (g.parser names) value
  | .both g h => (fun v => Value.pair v.1 v.2) <$> Parser.both (g.parser names) (h.parser names)
  | .andThen g k => do
    let v ← g.parser names
    k.parser names v
  | .singleton g => listValue (Parser.singleton (g.parser names))
  | .many g => listValue (Parser.many (g.parser names))
  | .manyCommit g => listValue (Parser.manyCommit (g.parser names))
  | .repeated g min max => listValue (repeatedBetween (g.parser names) min max)
  | .append g h =>
    listValue (Parser.append (Value.items <$> g.parser names) (Value.items <$> h.parser names))
  | .orElse g h => Parser.orElse (g.parser names) (h.parser names)
  | .orCommit g h => Parser.orCommit (g.parser names) (h.parser names)
  | .butNot g guard => Parser.butNot (g.parser names) (guard.parser names)
  | .upTo g terminator => listValue (Parser.upTo (g.parser names) (terminator.parser names))
  | .toEnd g => Parser.toEnd (g.parser names)
  | .within size g => Parser.within size (g.parser names)
  | .withDigest g checksum => Parser.withDigest (g.parser names) checksum
  | .satisfying g predicate description =>
    Parser.satisfying (g.parser names) predicate.holds description
  | .intInRange g first last => Value.int <$> inRange (Value.toInt <$> g.parser names) first last
  | .binaryInRange format order first last =>
    Value.binary format <$> inRange (Parser.binary format order) first last
  | .spanned g => (fun s => Value.tagged s.value s.bytes s.start) <$>
      Parser.spanned (g.parser names)

/-- The parser that goes on after a value. -/
def Continuation.parser (names : String → Parser Value) (v : Value) : Continuation → Parser Value
  | .bytes => bytesValue (Parser.bytes v.toCount)
  | .same => byteValue (Parser.exactly v.toByte)
  | .within g => g.checked (Parser.within v.toCount (g.parser names))
  | .repeated g =>
    g.checked (listValue (Parser.repeated (g.parser names) (.exactly v.toCount)))
  | .repeatedUpTo g max =>
    g.checked (listValue (repeatedBetween (g.parser names) v.toCount max))
  | .value => pure v
  | .always g => g.checked (g.parser names)
  | .pair g => g.checked ((fun w => Value.pair v w) <$> g.parser names)
  | .select key g otherwise =>
    if v.toInt = key then g.checked (g.parser names) else otherwise.parser names v

end

/-- The parser of a name, through at most `depth` nested references. -/
def Definitions.parser (defs : Definitions) : (depth : Nat) → String → Parser Value
  | 0, name => abandon (.endlessReference name)
  | depth + 1, name =>
    match defs.lookup name with
    | none => abandon (.undefinedName name)
    | some g => g.checked (g.parser (defs.parser depth))

/-- One more than the number of names, places and limits that nested references can start with from
a cursor. References that nest deeper than that come back to one of them. -/
def Definitions.depth (defs : Definitions) (c : Cursor) : Nat :=
  defs.length * Nat.pow (c.limit - c.position + 1) 2 + 1

/-- The parser of a grammar under some definitions. -/
def Grammar.run (defs : Definitions) (g : Grammar) : Parser Value := fun c =>
  g.checked (g.parser (defs.parser (defs.depth c))) c

/-- The outcome of a grammar on a range of a buffer. Wrong bounds in the grammar are found before a
wrong range. -/
def Grammar.runRange (defs : Definitions) (g : Grammar) (data : Buffer) (start count : Nat) :
    Except ParseError (Outcome Value) :=
  match g.fault? with
  | some reason => .ok (.fault reason)
  | none => parseRange (g.run defs) data start count

end Wire
