import Wire.Grammar.Value
import Wire.Checksum
import Wire.Failure

/-!
# Grammars

A grammar is a parser as data. It names the parsers of the library and how they are put together;
`Grammar.andThen` goes on with a continuation, which chooses a grammar or a count from the value
parsed before it, and `Grammar.ref` stands for a grammar defined under a name.
-/

namespace Wire

mutual

/-- A parser of values as data. -/
inductive Grammar where
  /-- Any byte. -/
  | byte
  /-- One given byte. -/
  | exactly (b : UInt8)
  /-- A byte between two others, both included. -/
  | between (first last : UInt8)
  /-- One of some bytes. -/
  | oneOf (set : List UInt8)
  /-- Given bytes in order. -/
  | sequence (bytes : List UInt8)
  /-- Some number of bytes. -/
  | bytes (count : Nat)
  /-- A byte that leaves `result` under a mask. -/
  | masked (mask result : UInt8) (description : String)
  | integer (type : IntegerType) (order : ByteOrder)
  | binary (format : BinaryFormat) (order : ByteOrder)
  /-- The two bytes that a grammar gives as a number. -/
  | wordOf (order : ByteOrder) (g : Grammar)
  /-- A constant, without taking anything. -/
  | constant (value : Value)
  /-- A failure some bytes further on. -/
  | fail (kind : FailureKind) (message : String) (expectations : List String) (distance : Nat)
  /-- A byte, with a small letter made a capital one. -/
  | capital
  /-- Go on by some bytes. -/
  | skip (count : Nat)
  /-- Lower the limit for all that follows. -/
  | narrow (size : Nat)
  /-- All bytes before the limit. -/
  | rest
  /-- A grammar without moving on. -/
  | peek (g : Grammar)
  /-- The grammar that is defined under a name. -/
  | ref (name : String)
  | transform (t : Transform) (g : Grammar)
  /-- A grammar with its value replaced. -/
  | replace (value : Value) (g : Grammar)
  /-- Two grammars in order, with a pair as the value. -/
  | both (g h : Grammar)
  | andThen (g : Grammar) (k : Continuation)
  /-- The value as a list of one item. -/
  | singleton (g : Grammar)
  | many (g : Grammar)
  | manyCommit (g : Grammar)
  /-- A grammar between a least and a greatest number of times. -/
  | repeated (g : Grammar) (min max : Nat)
  /-- Two grammars in order, with the items of both in one list. -/
  | append (g h : Grammar)
  | orElse (g h : Grammar)
  | orCommit (g h : Grammar)
  | butNot (g guard : Grammar)
  | upTo (g terminator : Grammar)
  | toEnd (g : Grammar)
  | within (size : Nat) (g : Grammar)
  | withDigest (g : Grammar) (checksum : Checksum)
  | satisfying (g : Grammar) (predicate : Predicate) (description : String)
  /-- The integer of a value, between two bounds. -/
  | intInRange (g : Grammar) (first last : Int)
  /-- A floating-point number between two bounds. -/
  | binaryInRange (format : BinaryFormat) (order : ByteOrder) (first last : Binary format)
  | spanned (g : Grammar)

/-- How a grammar goes on after a value. -/
inductive Continuation where
  /-- As many bytes as the value counts. -/
  | bytes
  /-- The byte that the value is. -/
  | same
  /-- A grammar in a window of the size that the value counts. -/
  | within (g : Grammar)
  /-- A grammar as often as the value counts. -/
  | repeated (g : Grammar)
  /-- A grammar at least as often as the value counts. -/
  | repeatedUpTo (g : Grammar) (max : Nat)
  /-- The value itself. -/
  | value
  /-- A grammar that does not use the value. -/
  | always (g : Grammar)
  /-- A grammar, with the pair of the value and its own as the value. -/
  | pair (g : Grammar)
  /-- A grammar if the value is a given integer, and otherwise another continuation. -/
  | select (key : Int) (g : Grammar) (otherwise : Continuation)

end

/-- Grammars under their names. -/
abbrev Definitions : Type := List (String × Grammar)

namespace Grammar

/-- The first bounds in a grammar that are the wrong way round, in the order in which the grammar is
put together: the parts of a grammar from left to right and then the grammar itself. Continuations
and references are looked at only when a run comes to them. -/
def fault? : Grammar → Option Fault
  | .repeated g min max =>
    g.fault?.or (if max < min then some (.invertedBounds min max) else none)
  | .both g h | .append g h | .orElse g h | .orCommit g h | .butNot g h | .upTo g h =>
    g.fault?.or h.fault?
  | .wordOf _ g | .peek g | .transform _ g | .replace _ g | .andThen g _ | .singleton g | .many g
  | .manyCommit g | .toEnd g | .within _ g | .withDigest g _ | .satisfying g _ _
  | .intInRange g _ _ | .spanned g => g.fault?
  | .byte | .exactly _ | .between _ _ | .oneOf _ | .sequence _ | .bytes _ | .masked _ _ _
  | .integer _ _ | .binary _ _ | .constant _ | .fail _ _ _ _ | .capital | .skip _ | .narrow _ | .rest
  | .ref _ | .binaryInRange _ _ _ _ => none

end Grammar

end Wire
