import Wire.Grammar.Meaning

/-!
# Sessions

A session moves one cursor step by step: forward, under a lower limit, over what a grammar accepts,
or back to a cursor saved before. Cursor number zero is saved at the start. Every step leaves a
reply, if it asks for one, and a next state.
-/

namespace Wire

/-- A cursor and the cursors saved before. -/
structure Session where
  cursor : Cursor
  saved : Array Cursor
  deriving DecidableEq, Repr

namespace Session

/-- A step of a session. -/
inductive Step where
  | next
  | skip (count : Nat)
  | windowed (size : Nat)
  /-- Go back to a saved cursor. -/
  | restore (mark : Nat)
  /-- Ask for the byte at the cursor. -/
  | current
  /-- Save the cursor. -/
  | save
  /-- Ask whether the cursor is at the place of a saved one. -/
  | sameAs (mark : Nat)
  /-- Ask for the text of the place. -/
  | place
  /-- Ask for the buffer and the position. -/
  | inner
  /-- Run a grammar and go on behind it if it succeeds. -/
  | parse (g : Grammar)
  /-- Run a grammar and go to the cursor that the outcome is about. -/
  | commit (g : Grammar)

/-- What a step answers. -/
inductive Reply where
  | none
  | current (o : Outcome UInt8)
  | mark (index : Nat)
  | same (answer : Bool)
  | text (s : String)
  | inner (data : Buffer) (position : Nat)
  | parsed (o : Outcome Value)
  | committed (o : Outcome Value)

/-- A session at its start. -/
def ofCursor (c : Cursor) : Session :=
  { cursor := c, saved := #[c] }

/-- The cursor saved under an index. -/
def marked (s : Session) (mark : Nat) : Checked Cursor :=
  match s.saved[mark]? with
  | some c => .ok c
  | none => .error (.unknownMark mark)

/-- The session at another cursor. -/
def moveTo (s : Session) (c : Cursor) : Session :=
  { s with cursor := c }

/-- The reply to a step and the session after it. -/
def step (defs : Definitions) (s : Session) : Step → Checked (Reply × Session)
  | .next => return (.none, s.moveTo s.cursor.next)
  | .skip count => return (.none, s.moveTo (s.cursor.skip count))
  | .windowed size => return (.none, s.moveTo (s.cursor.windowed size))
  | .restore mark => return (.none, s.moveTo (← s.marked mark))
  | .current =>
    match Parser.current s.cursor with
    | .fault reason => throw reason
    | o => return (.current o, s)
  | .save => return (.mark s.saved.size, { s with saved := s.saved.push s.cursor })
  | .sameAs mark => return (.same (s.cursor.samePlace (← s.marked mark)), s)
  | .place => return (.text s.cursor.text, s)
  | .inner => return (.inner s.cursor.data s.cursor.position, s)
  | .parse g =>
    match g.run defs s.cursor with
    | .success value rest => return (.parsed (.success value rest), s.moveTo rest)
    | .failure cause => return (.parsed (.failure cause), s)
    | .fault reason => throw reason
  | .commit g => do
    let o := g.run defs s.cursor
    return (.committed o, s.moveTo (← o.remainder))

/-- The replies to some steps, each with the session after it. -/
def run (defs : Definitions) (s : Session) : List Step → Checked (List (Reply × Session))
  | [] => return []
  | t :: steps => do
    let first ← s.step defs t
    let later ← first.2.run defs steps
    return first :: later

end Session

end Wire
