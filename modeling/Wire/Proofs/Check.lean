import Wire.Parser.Check
import Wire.Parser.Span
import Wire.Parser.Window
import Wire.Proofs.Cursor

/-!
# Runs of checks and spans

The parsers that look back at where they started are put together from steps that only hand on a
cursor. Here is what such a parser does in one piece: run the part, and then accept or refuse what
that gave (`satisfying_eq`, `withDigest_eq`), or keep the bytes that it took (`spanned_eq`).
-/

namespace Wire.Parser

variable {α : Type} (p : Parser α) (c : Cursor)

/-- All unread bytes are the rest. -/
theorem rest_eq (hc : c.Valid) : rest c = .success c.unread { c with position := c.limit } := by
  change (Outcome.ofChecked c (c.bytesTo c.limit)).bind _ = _
  rw [Cursor.bytesTo_limit hc]
  rfl

/-- A value that is not accepted is refused where it started. -/
theorem satisfying_eq (accept : α → Bool) (description : String) :
    satisfying p accept description c = (p c).bind fun v d =>
      if accept v then .success v d else .failure (.notValid description c) := by
  change (p c).bind _ = _
  congr 1
  funext v d
  by_cases haccept : accept v = true
  · rw [if_pos haccept, if_pos haccept]
    rfl
  · rw [if_neg haccept, if_neg haccept]
    rfl

variable {p c}

/-- The digest behind a value is compared with that of the bytes that the value took. -/
theorem withDigest_eq (hc : c.Valid) (hinside : ∀ v d, p c = .success v d → d.Inside c)
    (checksum : Checksum) :
    withDigest p checksum c = (p c).bind fun v d =>
      let expected := checksum.digest (c.unread.take (d.position - c.position))
      (bytes checksum.length d).bind fun found e =>
        if found = expected then .success v e
        else .failure (.checksumMismatch expected found d) := by
  change (p c).bind _ = _
  cases hrun : p c with
  | success v d =>
    change (Outcome.ofChecked d (c.bytesTo d.position)).bind _ = _
    rw [Cursor.bytesTo_of_inside hc (hinside v d hrun)]
    change (bytes checksum.length d).bind _ = (bytes checksum.length d).bind _
    congr 1
    funext found e
    by_cases hmatch : found = checksum.digest (c.unread.take (d.position - c.position))
    · rw [if_pos hmatch, if_pos hmatch]
      rfl
    · rw [if_neg hmatch, if_neg hmatch]
      rfl
  | failure f => rfl
  | fault reason => rfl

/-- A value is kept with the bytes that it took and the place where it started. -/
theorem spanned_eq (hc : c.Valid) (hinside : ∀ v d, p c = .success v d → d.Inside c) :
    p.spanned c = (p c).bind fun v d =>
      .success ⟨v, c.unread.take (d.position - c.position), c.position⟩ d := by
  change (p c).bind _ = _
  cases hrun : p c with
  | success v d =>
    change (Outcome.ofChecked d (c.bytesTo d.position)).bind _ = _
    rw [Cursor.bytesTo_of_inside hc (hinside v d hrun)]
    rfl
  | failure f => rfl
  | fault reason => rfl

end Wire.Parser
