import Wire.Parser.Repetition
import Wire.Proofs.Cursor

/-!
# Reading bytes

What the parsers of bytes do at a valid cursor depends on its unread bytes only. A parser of one
byte looks at the first of them (`byteWhere_eq`), and a count of bytes is the front of them, or a
failure at the start that says how many there are (`bytes_eq`).
-/

namespace Wire.Parser

open Cursor

variable {c : Cursor}

/-- A byte is taken when it is there and accepted, and else the cursor is where the parser fails. -/
theorem byteWhere_eq (hc : c.Valid) (accept : UInt8 → Bool) (description : String) :
    byteWhere accept description c = match c.unread with
      | [] => .failure ((Failure.endOfInput c).expecting description)
      | b :: _ => if accept b then .success b (c.advance 1)
          else .failure ((Failure.unexpectedByte b c).expecting description) := by
  unfold byteWhere
  rw [current_eq hc]
  cases hu : c.unread with
  | nil => rfl
  | cons b bs =>
    simp only [next_eq_advance (getElem?_of_unread hc hu).1]

/-- Any byte is taken, so only the limit can stop the parser of any byte. -/
theorem byte_eq (hc : c.Valid) :
    byte c = match c.unread with
      | [] => .failure ((Failure.endOfInput c).expecting "any byte")
      | b :: _ => .success b (c.advance 1) := by
  unfold byte
  rw [byteWhere_eq hc]
  cases c.unread <;> rfl

/-- A cursor with an unread byte can go over it. -/
theorem advance_one_valid (hc : c.Valid) {b : UInt8} {bs : List UInt8} (hu : c.unread = b :: bs) :
    (c.advance 1).Valid ∧ (c.advance 1).unread = bs := by
  have hlen := length_unread hc
  rw [hu, List.length_cons] at hlen
  refine ⟨(advance_inside (by omega)).valid hc, ?_⟩
  rw [unread_advance, hu, List.drop_one, List.tail_cons]

/-- Why `count` bytes cannot be taken at a cursor that has fewer of them. -/
def shortOf (count : Nat) (c : Cursor) (found : Nat) : Failure :=
  .boundedCountUnmet count count found ((Failure.endOfInput c).expecting "any byte") none c

/-- The loop of `bytes` when `left` bytes are still to be taken: each round moves one byte from the
unread ones to those found, so the number of bytes that a failure reports stays the same. -/
theorem repeatedFrom_byte_eq (count : Nat) (start : Cursor) :
    ∀ (left : Nat) (found : Array UInt8) (c : Cursor), left ≤ count → c.Valid →
      repeatedFrom byte (.exactly count) start left found c =
        if left ≤ c.unread.length then
          .success (found ++ (c.unread.take left).toArray) (c.advance left)
        else .failure (shortOf count start (count - left + c.unread.length))
  | 0, found, c, _, _ => by simp [repeatedFrom]
  | left + 1, found, c, hle, hc => by
    rw [repeatedFrom, byte_eq hc]
    cases hu : c.unread with
    | nil =>
      have hlt : count - (left + 1) < count := by omega
      simp [Bounds.exactly, hlt, countUnmet, current_eq hc, hu, shortOf, Failure.expecting,
        Failure.endOfInput, Failure.boundedCountUnmet]
    | cons b bs =>
      obtain ⟨hvalid, hunread⟩ := advance_one_valid hc hu
      have hmoved : (c.advance 1).samePlace c = false :=
        not_samePlace_of_position_ne (Nat.succ_ne_self c.position)
      have hcount : count - left + bs.length = count - (left + 1) + (bs.length + 1) := by omega
      simp only [hmoved, Bool.false_eq_true, if_false]
      rw [repeatedFrom_byte_eq count start left _ _ (by omega) hvalid, hunread, advance_advance,
        Nat.add_comm 1 left]
      simp [hcount]

/-- A count of bytes is the front of the unread bytes, and fails at its start when there are too
few of them. -/
theorem bytes_eq (hc : c.Valid) (count : Nat) :
    bytes count c =
      if count ≤ c.unread.length then .success (c.unread.take count) (c.advance count)
      else .failure (shortOf count c c.unread.length) := by
  have hloop := repeatedFrom_byte_eq count c count #[] c le_rfl hc
  unfold bytes repeated
  rw [show (Bounds.exactly count).max = count from rfl, hloop]
  split <;> simp [Outcome.map]

/-- What is read behind a cursor when there is enough of it, in terms of the buffer. -/
theorem bytes_eq_span (hc : c.Valid) (count : Nat) :
    bytes count c =
      if c.position + count ≤ c.limit then .success (c.span (c.advance count)) (c.advance count)
      else .failure (shortOf count c (c.limit - c.position)) := by
  have hlength := length_unread hc
  have := hc.1
  rw [bytes_eq hc, hlength]
  by_cases henough : c.position + count ≤ c.limit
  · rw [if_pos henough, if_pos (by omega), span_of_inside hc (advance_inside henough),
      advance_position, Nat.add_sub_cancel_left]
  · rw [if_neg henough, if_neg (by omega)]

/-- A slice of the buffer that ends before the limit is as long as it is wide. -/
theorem length_span_advance (hc : c.Valid) {count : Nat} (henough : c.position + count ≤ c.limit) :
    (c.span (c.advance count)).length = count := by
  have hlength := length_unread hc
  have := hc.1
  rw [span_of_inside hc (advance_inside henough), advance_position, Nat.add_sub_cancel_left,
    List.length_take_of_le (by omega)]

/-- A count of bytes succeeds just when so many are left before the limit. It gives the slice of the
buffer at the position, no byte more or less, and goes over it under the same limit. With fewer left
it fails where it started, for the end of input, and says how many there are. -/
theorem bytes_exact (hc : c.Valid) (count : Nat) :
    ∃ left, c.remaining = .ok left ∧
      ((∃ bs r, bytes count c = .success bs r) ↔ count ≤ left) ∧
      (∀ bs r, bytes count c = .success bs r →
        bs = (c.data.bytes.extract c.position (c.position + count)).toList ∧ bs.length = count ∧
          r = { c with position := c.position + count }) ∧
      (left < count → bytes count c = .failure ⟨.boundedCountUnmet, "Unexpected 'end of input'",
        [s!"'any byte' between {count} and {count} times, but found {left}"], c⟩) := by
  have hrun := bytes_eq_span hc count
  have := hc.1
  refine ⟨c.limit - c.position, remaining_eq hc, ⟨?_, fun hle => ?_⟩, fun bs r h => ?_,
    fun hlt => ?_⟩
  · rintro ⟨bs, r, h⟩
    by_contra hlt
    rw [hrun, if_neg (by omega)] at h
    cases h
  · rw [hrun, if_pos (by omega)]
    exact ⟨_, _, rfl⟩
  · rw [hrun] at h
    split at h
    · next henough =>
      cases h
      exact ⟨rfl, length_span_advance hc henough, rfl⟩
    · cases h
  · rw [hrun, if_neg (by omega)]
    rfl

/-- A window of three bytes in the middle of a buffer: all of them can be taken, and of more than
that, up to the greatest word, none. -/
theorem bytes_exact_window :
    let c : Cursor := ⟨.of #[7, 1, 2, 3, 9], 1, 4⟩
    c.Valid ∧ bytes 3 c = .success [1, 2, 3] ⟨.of #[7, 1, 2, 3, 9], 4, 4⟩ ∧
      bytes 18446744073709551615 c = .failure ⟨.boundedCountUnmet, "Unexpected 'end of input'",
        ["'any byte' between 18446744073709551615 and 18446744073709551615 times, but found 3"],
        c⟩ := by
  intro c
  have hc : c.Valid := by decide
  have hthree : c.remaining = .ok 3 := by decide
  obtain ⟨_, hleft, hsucceeds, hvalue, -⟩ := bytes_exact hc 3
  obtain ⟨_, hleft', -, -, hfails⟩ := bytes_exact hc 18446744073709551615
  cases hthree.symm.trans hleft
  cases hthree.symm.trans hleft'
  obtain ⟨bs, r, hrun⟩ := hsucceeds.2 (by decide)
  obtain ⟨rfl, -, rfl⟩ := hvalue bs r hrun
  exact ⟨hc, hrun, hfails (by decide)⟩

end Wire.Parser
