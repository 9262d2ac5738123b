import Mathlib.Data.Nat.Basic
import Wire.Parser.Byte

/-!
# The order of cursors

A parser leaves a cursor inside the one it was given: of the same buffer, not before it and with a
limit that is not above its own (`Cursor.Inside`). Among valid cursors this is an order, and the
moves of a cursor stay inside. What a valid cursor can read is its unread bytes, so every read is
stated here on them: a move drops bytes from the front (`unread_advance`), a window keeps bytes at
the front (`unread_windowed`), and the bytes between two cursors are the front that was dropped
(`bytesTo_of_inside`).
-/

namespace Wire

/-- A buffer is the same part of memory as itself. -/
@[simp] theorem Buffer.same_self (b : Buffer) : b.same b = true := by
  rw [same, beq_self_eq_true, beq_self_eq_true, Bool.and_self]

/-- The list of the bytes has as many as the buffer. -/
theorem Buffer.length_toList (b : Buffer) : b.toList.length = b.size :=
  Array.length_toList

namespace Cursor

variable {c d e : Cursor} {n : Nat}

/-- A cursor lies inside another when a parser that was given the other one may end there. -/
structure Inside (d c : Cursor) : Prop where
  data : d.data = c.data
  start : c.position ≤ d.position
  order : d.position ≤ d.limit
  stop : d.limit ≤ c.limit

/-- The cursor so many bytes further, under the same limit. -/
def advance (c : Cursor) (n : Nat) : Cursor :=
  { c with position := c.position + n }

@[simp] theorem advance_data : (c.advance n).data = c.data := rfl
@[simp] theorem advance_position : (c.advance n).position = c.position + n := rfl
@[simp] theorem advance_limit : (c.advance n).limit = c.limit := rfl
@[simp] theorem advance_zero : c.advance 0 = c := rfl
@[simp] theorem windowed_data : (c.windowed n).data = c.data := rfl
@[simp] theorem windowed_position : (c.windowed n).position = c.position := rfl
@[simp] theorem windowed_limit : (c.windowed n).limit = min (c.position + n) c.limit := rfl
@[simp] theorem skip_data : (c.skip n).data = c.data := rfl
@[simp] theorem skip_position : (c.skip n).position = min (c.position + n) c.limit := rfl
@[simp] theorem skip_limit : (c.skip n).limit = c.limit := rfl

/-- In one buffer, the position alone makes the place. -/
theorem samePlace_iff_of_data (h : d.data = c.data) :
    d.samePlace c = true ↔ d.position = c.position := by
  rw [samePlace, h, Buffer.same_self, Bool.true_and, beq_iff_eq]

/-- A cursor is at its own place. -/
@[simp] theorem samePlace_self : c.samePlace c = true :=
  (samePlace_iff_of_data rfl).2 rfl

/-- Cursors at one place are at one position. -/
theorem position_eq_of_samePlace (h : d.samePlace c = true) : d.position = c.position := by
  rw [samePlace, Bool.and_eq_true, beq_iff_eq] at h
  exact h.2

/-- Another position is another place, whatever the buffers are. -/
theorem not_samePlace_of_position_ne (h : d.position ≠ c.position) : d.samePlace c = false :=
  Bool.eq_false_iff.2 fun hplace => h (position_eq_of_samePlace hplace)

/-- A cursor is at its end when its limit is not beyond its position. -/
theorem atEnd_iff : c.atEnd = true ↔ c.limit ≤ c.position := by
  simp [atEnd]

/-- Two moves are one move over both distances. -/
theorem advance_advance (m n : Nat) : (c.advance m).advance n = c.advance (m + n) := by
  simp [advance, Nat.add_assoc]

/-- Away from the limit, the next cursor is one byte further. -/
theorem next_eq_advance (h : c.position < c.limit) : c.next = c.advance 1 := by
  have : ¬ c.atEnd = true := by rw [atEnd_iff]; omega
  simp [next, this, advance]

/-- Up to the limit, nothing is cut off a move. -/
theorem skip_eq_advance (h : c.position + n ≤ c.limit) : c.skip n = c.advance n := by
  simp [skip, advance, Nat.min_eq_left h]

/-- A valid cursor is inside itself. -/
theorem Inside.refl (h : c.Valid) : c.Inside c :=
  ⟨rfl, le_rfl, h.1, le_rfl⟩

/-- What is inside a cursor that is inside another one is inside that. -/
theorem Inside.trans (h : d.Inside c) (h' : e.Inside d) : e.Inside c :=
  ⟨h'.data.trans h.data, le_trans h.start h'.start, h'.order, le_trans h'.stop h.stop⟩

/-- A cursor inside a valid one is valid. -/
theorem Inside.valid (h : d.Inside c) (hc : c.Valid) : d.Valid :=
  ⟨h.order, by rw [h.data]; exact le_trans h.stop hc.2⟩

/-- Inside a cursor, a cursor at another place is further on. -/
theorem Inside.lt_of_not_samePlace (h : d.Inside c) (hne : d.samePlace c = false) :
    c.position < d.position :=
  lt_of_le_of_ne h.start fun heq => by
    rw [(samePlace_iff_of_data h.data).2 heq.symm] at hne
    cases hne

/-- A move that does not pass the limit stays inside. -/
theorem advance_inside (h : c.position + n ≤ c.limit) : (c.advance n).Inside c :=
  ⟨rfl, Nat.le_add_right _ _, h, le_rfl⟩

/-- A move that stops at the limit stays inside. -/
theorem skip_inside (h : c.Valid) : (c.skip n).Inside c :=
  ⟨rfl, le_min (Nat.le_add_right _ _) h.1, min_le_right _ _, le_rfl⟩

/-- A window is inside the cursor that it is laid over. -/
theorem windowed_inside (h : c.Valid) : (c.windowed n).Inside c :=
  ⟨rfl, le_rfl, le_min (Nat.le_add_right _ _) h.1, min_le_right _ _⟩

/-- The step over one byte stays inside. -/
theorem next_inside (h : c.Valid) : c.next.Inside c := by
  rcases lt_or_eq_of_le h.1 with hlt | heq
  · rw [next_eq_advance hlt]
    exact advance_inside hlt
  · have : c.atEnd = true := atEnd_iff.2 (Nat.le_of_eq heq.symm)
    simpa [next, this] using Inside.refl h

/-- The step over one byte keeps the limit. -/
@[simp] theorem next_limit : c.next.limit = c.limit := by
  unfold next
  split <;> rfl

/-! ## Unread bytes -/

/-- The unread bytes as a part of the list of all bytes. -/
theorem unread_eq : c.unread = (c.data.toList.drop c.position).take (c.limit - c.position) := by
  simp [unread, List.extract]

/-- There are as many unread bytes as there are positions before the limit. -/
theorem length_unread (h : c.Valid) : c.unread.length = c.limit - c.position := by
  have := h.2
  simp only [unread_eq, List.length_take, List.length_drop, Buffer.length_toList]
  omega

/-- Nothing is unread at the limit, and only there. -/
theorem unread_eq_nil_iff (h : c.Valid) : c.unread = [] ↔ c.limit ≤ c.position := by
  rw [← List.length_eq_zero_iff, length_unread h, Nat.sub_eq_zero_iff_le]

/-- The first unread byte is the one at the position. -/
theorem getElem?_of_unread (hc : c.Valid) {b : UInt8} {bs : List UInt8} (hu : c.unread = b :: bs) :
    c.position < c.limit ∧ c.data.bytes[c.position]? = some b := by
  have hlt : c.position < c.limit := by
    have hne : c.unread ≠ [] := by simp [hu]
    rw [ne_eq, unread_eq_nil_iff hc] at hne
    omega
  refine ⟨hlt, ?_⟩
  have hhead := congrArg List.head? hu
  rwa [unread_eq, List.head?_take, if_neg (by omega), List.head?_drop, Array.getElem?_toList,
    List.head?_cons] at hhead

/-- A move takes its distance off the unread bytes. -/
theorem unread_advance : (c.advance n).unread = c.unread.drop n := by
  simp only [unread_eq, advance_data, advance_position, advance_limit, List.drop_take,
    List.drop_drop, Nat.sub_add_eq]

/-- A window leaves the first of the unread bytes. -/
theorem unread_windowed (h : c.Valid) : (c.windowed n).unread = c.unread.take n := by
  have := h.1
  simp only [unread_eq, windowed_data, windowed_position, windowed_limit, List.take_take]
  congr 1
  omega

/-- What is unread inside a cursor is a part of what was unread there. -/
theorem Inside.unread_eq (h : d.Inside c) :
    d.unread = (c.unread.drop (d.position - c.position)).take (d.limit - d.position) := by
  have := h.start
  have := h.stop
  rw [Cursor.unread_eq, Cursor.unread_eq, h.data, List.drop_take, List.drop_drop, List.take_take]
  congr 1
  · omega
  · congr 1
    omega

/-- The bytes between a cursor and one inside it are the unread bytes that were gone over. -/
theorem bytesTo_of_inside (hc : c.Valid) (h : d.Inside c) :
    c.bytesTo d.position = .ok (c.unread.take (d.position - c.position)) := by
  have := hc.2
  have := h.start
  have := h.order
  have := h.stop
  have hbounds : c.position ≤ d.position ∧ d.position ≤ c.data.size := by omega
  have hmin : min (d.position - c.position) (c.limit - c.position) = d.position - c.position := by
    omega
  simp [bytesTo, hbounds, Cursor.unread_eq, List.extract, List.take_take, hmin]

/-- The bytes of the buffer from one cursor up to another, wherever the limits are. -/
def span (c d : Cursor) : List UInt8 :=
  (c.data.bytes.extract c.position d.position).toList

/-- The bytes up to a cursor inside are the first of the unread ones. -/
theorem span_of_inside (hc : c.Valid) (h : d.Inside c) :
    c.span d = c.unread.take (d.position - c.position) := by
  have hbytes := bytesTo_of_inside hc h
  unfold bytesTo at hbytes
  split at hbytes
  · exact Except.ok.inj hbytes
  · cases hbytes

/-- All bytes up to the limit are the unread ones. -/
theorem bytesTo_limit (hc : c.Valid) : c.bytesTo c.limit = .ok c.unread := by
  simp [bytesTo, unread, hc.1, hc.2]

/-- A whole buffer is unread at its start. -/
theorem unread_ofBuffer (data : Buffer) : (ofBuffer data).unread = data.toList := by
  simp [unread, ofBuffer]

/-- What is left before the limit of a valid cursor can be counted. -/
theorem remaining_eq (hc : c.Valid) : c.remaining = .ok (c.limit - c.position) := by
  simp [remaining, hc.1]

end Cursor

namespace Parser

open Cursor

/-- The byte at a cursor is the first unread one. -/
theorem current_eq {c : Cursor} (hc : c.Valid) :
    current c = match c.unread with
      | [] => .failure (.endOfInput c)
      | b :: _ => .success b c := by
  have := hc.2
  rcases lt_or_eq_of_le hc.1 with hlt | heq
  · have hend : ¬ c.atEnd = true := by rw [atEnd_iff]; omega
    have hsize : c.position < c.data.size := by omega
    have hcons : c.unread = c.data.bytes[c.position] :: (c.advance 1).unread := by
      have hdrop : c.data.toList.drop c.position
          = c.data.bytes[c.position] :: c.data.toList.drop (c.position + 1) := by
        rw [List.drop_eq_getElem_cons (by simpa using hsize), Array.getElem_toList]
      have htake : c.limit - c.position = c.limit - (c.position + 1) + 1 := by omega
      rw [unread_eq, unread_eq, hdrop, htake, List.take_succ_cons]
      rfl
    simp [current, hend, Array.getElem?_eq_getElem hsize, hcons]
  · have hend : c.atEnd = true := atEnd_iff.2 (Nat.le_of_eq heq.symm)
    simp [current, hend, (unread_eq_nil_iff hc).2 (Nat.le_of_eq heq.symm)]

end Parser

end Wire
