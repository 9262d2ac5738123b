import Wire.Fault

/-!
# Cursors

A cursor is a place in a buffer together with a limit for the reads that start there. Cursors are
values: moving forward (`next`, `skip`) and lowering the limit (`windowed`) give new ones, so an
older cursor can always be taken up again. Positions are offsets into the whole buffer, also under
a lowered limit; a position in one buffer is another place than the same position in another one
(`samePlace`). The cursors that `ofBuffer` and `ofRange?` make and the moves keep are the `Valid`
ones, whose position is at most the limit and whose limit is at most the size of the buffer;
`unread` is what such a cursor has before it.
-/

namespace Wire

/-- The bytes that a run reads from, and where they are kept: two buffers may hold the same
bytes. -/
structure Buffer where
  /-- The address of the first byte. -/
  address : Nat
  bytes : Array UInt8
  deriving DecidableEq, Repr

namespace Buffer

/-- Bytes on their own, for a use in which no two buffers are told apart. -/
def of (bytes : Array UInt8) : Buffer :=
  { address := 0, bytes }

instance : Coe (Array UInt8) Buffer :=
  ⟨of⟩

/-- How many bytes the buffer holds. -/
abbrev size (b : Buffer) : Nat :=
  b.bytes.size

/-- The bytes in order. -/
abbrev toList (b : Buffer) : List UInt8 :=
  b.bytes.toList

/-- Two buffers are the same part of memory: as many bytes from one address on. What the bytes are
is not looked at. -/
def same (a b : Buffer) : Bool :=
  a.address == b.address && a.size == b.size

end Buffer

/-- A place in a buffer and the limit for reads from there on. -/
structure Cursor where
  /-- The whole buffer. -/
  data : Buffer
  /-- The offset of the next unread byte. -/
  position : Nat
  /-- The offset of the first byte that may not be read. -/
  limit : Nat
  deriving DecidableEq, Repr

/-- Why a range of a buffer was refused. -/
inductive RangeError where
  /-- The range starts behind the end of the buffer. -/
  | offset (offset size : Nat)
  /-- The range starts in the buffer and ends behind it. -/
  | length (offset length size : Nat)
  deriving DecidableEq, Repr

namespace RangeError

/-- The argument that is to blame. -/
def argument : RangeError → String
  | .offset .. => "offset"
  | .length .. => "len"

/-- What is wrong with that argument. -/
def reason : RangeError → String
  | .offset start size => s!"offset {start} outside of buffer of {size} bytes"
  | .length start count size => s!"range {start}+{count} outside of buffer of {size} bytes"

end RangeError

namespace Cursor

/-- The position is at most the limit, and the limit at most the size of the buffer. -/
def Valid (c : Cursor) : Prop :=
  c.position ≤ c.limit ∧ c.limit ≤ c.data.size

instance (c : Cursor) : Decidable c.Valid :=
  inferInstanceAs (Decidable (_ ∧ _))

/-- The start of a buffer, with all of it unread. -/
def ofBuffer (data : Buffer) : Cursor :=
  { data, position := 0, limit := data.size }

/-- The start of the `count` bytes at an offset, refused when the buffer does not hold them all. -/
def ofRange? (data : Buffer) (start count : Nat) : Except RangeError Cursor :=
  if data.size < start then .error (.offset start data.size)
  else if data.size < start + count then .error (.length start count data.size)
  else .ok { data, position := start, limit := start + count }

/-- Nothing is left before the limit. -/
def atEnd (c : Cursor) : Bool :=
  decide (c.limit ≤ c.position)

/-- The bytes between the position and the limit. -/
def unread (c : Cursor) : List UInt8 :=
  (c.data.bytes.extract c.position c.limit).toList

/-- How many bytes are left before the limit. -/
def remaining (c : Cursor) : Checked Nat :=
  if c.limit < c.position then .error (.pastLimit c.position c.limit)
  else .ok (c.limit - c.position)

/-- One byte further; at the limit the cursor stays where it is. -/
def next (c : Cursor) : Cursor :=
  if c.atEnd then c else { c with position := c.position + 1 }

/-- Some bytes further, but not beyond the limit. -/
def skip (c : Cursor) (count : Nat) : Cursor :=
  { c with position := min (c.position + count) c.limit }

/-- The same place with at most the next `count` bytes before the limit. -/
def windowed (c : Cursor) (count : Nat) : Cursor :=
  { c with limit := min (c.position + count) c.limit }

/-- The bytes of the buffer from the position up to the offset `stop`, whatever the limit is. -/
def bytesTo (c : Cursor) (stop : Nat) : Checked (List UInt8) :=
  if c.position ≤ stop ∧ stop ≤ c.data.size then .ok (c.data.bytes.extract c.position stop).toList
  else .error (.outOfBuffer c.position stop c.data.size)

/-- Two cursors stand at one position of the same buffer, whatever their limits are. Positions in
two buffers are never the same place. -/
def samePlace (c d : Cursor) : Bool :=
  c.data.same d.data && c.position == d.position

/-- The text that names the place. -/
def text (c : Cursor) : String :=
  s!"position {c.position}"

/-- The cursor at the start of a buffer is valid. -/
theorem ofBuffer_valid (data : Buffer) : (ofBuffer data).Valid :=
  ⟨Nat.zero_le _, Nat.le_refl _⟩

end Cursor

end Wire
