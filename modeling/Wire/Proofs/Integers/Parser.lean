import Mathlib.Data.Int.ModEq
import Wire.Proofs.Format
import Wire.Proofs.Integers
import Wire.Proofs.Trail.Repeated

/-!
# Reading integers

A count of bytes gives so many and no others (`Parser.length_bytes`), so the parser of an integer
hands to the reading of its type what that is made for, and gives what any reading by places makes
of it (`Parser.integer_eq_read`). So integers are read from their own bytes and from no others
(`Parser.integer_exact`).
-/

namespace Wire

namespace Parser

variable {c d : Cursor}

/-- A byte that is taken is left behind. -/
theorem byte_forward {b : UInt8} (h : byte c = .success b d) : c.position < d.position := by
  unfold byte byteWhere current at h
  by_cases hend : c.atEnd = true
  · rw [if_pos hend] at h
    cases h
  · rw [if_neg hend] at h
    cases hbyte : c.data.bytes[c.position]? with
    | some b' =>
      rw [hbyte] at h
      cases h
      simp [Cursor.next, hend]
    | none =>
      rw [hbyte] at h
      cases h

/-- A count of bytes gives so many. -/
theorem length_bytes {count : Nat} {bs : List UInt8} (h : bytes count c = .success bs d) :
    bs.length = count := by
  obtain ⟨as, htrail, rfl, hmin, hmax⟩ := trail_of_repeated h
  have hforward : ∀ a ∈ as, a.start.position < a.stop.position := fun a ha =>
    byte_forward (htrail.applied a ha)
  rw [Application.movedValues_of_forward hforward, List.length_map]
  exact le_antisymm hmax hmin

/-- Making a word of two bytes that were taken is reading a word. -/
theorem wordOf_bytes (order : ByteOrder) : wordOf order (bytes 2) = integer .word order := by
  funext c
  change (bytes 2 c).bind _ = (bytes 2 c).bind _
  cases hrun : bytes 2 c with
  | success stored d => exact congrFun (if_pos (length_bytes hrun)) d
  | failure f => rfl
  | fault reason => rfl

/-- The integers of a type are read from the bytes that they are written with. -/
theorem reads_encoded (t : IntegerType) (order : ByteOrder) :
    (integer t order).Reads (Format.of t.Contains (t.encode order)) :=
  (reads_integer t order).congr fun _ _ => t.eq_ofPattern_iff order

/-- An integer that is read is one of the type, and its bytes stand where it was read. -/
theorem integer_success {t : IntegerType} {order : ByteOrder} {n : Int} (hc : c.Valid)
    (h : integer t order c = .success n d) :
    c.position + t.width.bytes ≤ c.limit ∧ d = c.advance t.width.bytes ∧ t.Contains n ∧
      t.encode order n = c.span d := by
  obtain ⟨_, ⟨hn, rfl⟩, hfront, rfl⟩ := ((reads_encoded t order).success_iff hc).1 h
  obtain ⟨henough, hspan⟩ := span_of_prefix hc hfront
  rw [hspan]
  rw [t.length_encode order n] at henough ⊢
  exact ⟨henough, rfl, hn, rfl⟩

section
variable {read : IntegerReading} (hread : read.Positional)
include hread

/-- An integer is what a reading makes of as many bytes as the type is wide. -/
theorem integer_eq_read (t : IntegerType) (order : ByteOrder) :
    integer t order = read t order <$> bytes t.width.bytes := by
  funext c
  change (bytes t.width.bytes c).bind _ = (bytes t.width.bytes c).bind _
  cases hrun : bytes t.width.bytes c with
  | success stored d =>
    have hlength := length_bytes hrun
    have hdecode : t.decode order stored = .ok (t.ofPattern (order.number stored)) := if_pos hlength
    change ofChecked (t.decode order stored) d = .success (read t order stored) d
    rw [hdecode, hread.eq_ofPattern t order hlength]
    rfl
  | failure f => rfl
  | fault reason => rfl

/-- An integer is read when its bytes are there, and is short of bytes otherwise. -/
theorem integer_run (t : IntegerType) (order : ByteOrder) (hc : c.Valid) :
    integer t order c =
      if c.position + t.width.bytes ≤ c.limit then
        .success (read t order (c.span (c.advance t.width.bytes))) (c.advance t.width.bytes)
      else .failure (shortOf t.width.bytes c (c.limit - c.position)) := by
  rw [integer_eq_read hread]
  change (bytes t.width.bytes c).bind _ = _
  rw [bytes_eq_span hc]
  split <;> rfl

/-- An integer is what any reading by places makes of as many bytes as its type is wide. A run
succeeds just when so many are left; it takes them and gives the one integer of the type that is
written with them. With fewer it fails where it started, for want of bytes. What is written is read
back, and what is read is written with the same bytes. The reversed bytes are read alike in the other
order, a sign changes an integer by a multiple of the number of patterns, and making a word of two
bytes that were taken is reading a word, failures included. -/
theorem integer_exact (t : IntegerType) (order : ByteOrder) :
    integer t order = read t order <$> bytes t.width.bytes ∧
      (∀ c : Cursor, c.Valid →
        ((∃ n r, integer t order c = .success n r) ↔ c.position + t.width.bytes ≤ c.limit) ∧
          (∀ n r, integer t order c = .success n r →
            r = c.advance t.width.bytes ∧ t.Contains n ∧ t.encode order n = c.span r ∧
              ∀ m, t.Contains m → t.encode order m = c.span r → m = n) ∧
          (c.limit < c.position + t.width.bytes →
            ∃ f, integer t order c = .failure f ∧ f.kind = .boundedCountUnmet ∧
              f.remainder = c)) ∧
      (∀ n, t.Contains n → read t order (t.encode order n) = n) ∧
      (∀ bs : List UInt8, bs.length = t.width.bytes →
        t.Contains (read t order bs) ∧ t.encode order (read t order bs) = bs ∧
          read t .big bs = read t .little bs.reverse ∧
          read ⟨t.width, true⟩ order bs ≡ read ⟨t.width, false⟩ order bs
            [ZMOD 2 ^ (8 * t.width.bytes)]) ∧
      wordOf order (bytes 2) = integer .word order := by
  have hwritten (bs : List UInt8) (hlength : bs.length = t.width.bytes) :
      t.Contains (read t order bs) ∧ bs = t.encode order (read t order bs) :=
    (t.eq_ofPattern_iff order).1 ⟨hlength, hread.eq_ofPattern t order hlength⟩
  refine ⟨integer_eq_read hread t order, fun c hc => ⟨?_, fun n r hrun => ?_, fun hshort => ?_⟩,
    fun n hn => ?_, fun bs hlength => ⟨?_, ?_, ?_, ?_⟩, wordOf_bytes order⟩
  · refine ⟨fun ⟨n, r, hrun⟩ => (integer_success hc hrun).1, fun henough => ?_⟩
    rw [integer_run hread t order hc, if_pos henough]
    exact ⟨_, _, rfl⟩
  · obtain ⟨-, hr, hn, hspan⟩ := integer_success hc hrun
    exact ⟨hr, hn, hspan, fun m hm hm' => t.eq_of_encode_eq order hm hn (hm'.trans hspan.symm)⟩
  · rw [integer_run hread t order hc, if_neg (Nat.not_le.2 hshort)]
    exact ⟨_, rfl, rfl, rfl⟩
  · rw [hread.eq_ofPattern t order (t.length_encode order n), t.ofPattern_encode order hn]
  · exact (hwritten bs hlength).1
  · exact (hwritten bs hlength).2.symm
  · rw [hread.eq_ofPattern t .big hlength, hread.eq_ofPattern t .little (by simpa using hlength)]
    rfl
  · rw [hread.signed t.width order hlength, BitVec.toInt_ofInt]
    exact_mod_cast Int.bmod_emod

end

/-- Four bytes of an integer with a sign, in a part of a buffer: all bits but the lowest are set, so
it is two below zero. One byte further on they are one too few. -/
theorem integer_exact_negative :
    let t : IntegerType := ⟨.four, true⟩
    let c : Cursor := ⟨.of #[7, 0xFF, 0xFF, 0xFF, 0xFE, 9], 1, 5⟩
    IntegerReading.ofPattern.Positional ∧ c.Valid ∧ t.Contains (-2) ∧
      t.encode .big (-2) = [0xFF, 0xFF, 0xFF, 0xFE] ∧
      IntegerReading.ofPattern t .big [0xFF, 0xFF, 0xFF, 0xFE] = -2 ∧
      integer t .big c = .success (-2) (c.advance 4) ∧
      ∃ f, integer t .big (c.advance 1) = .failure f ∧ f.kind = .boundedCountUnmet ∧
        f.remainder = c.advance 1 := by
  intro t c
  have hc : c.Valid := by decide
  have hn : t.Contains (-2) := by decide
  have hbytes : t.encode .big (-2) = [0xFF, 0xFF, 0xFF, 0xFE] := by decide
  obtain ⟨-, hruns, hdecoded, -⟩ := integer_exact IntegerReading.ofPattern_positional t .big
  obtain ⟨hsucceeds, hvalue, -⟩ := hruns c hc
  obtain ⟨n, r, hrun⟩ := hsucceeds.2 (by decide)
  obtain ⟨rfl, -, -, hunique⟩ := hvalue n r hrun
  have hspan : t.encode .big (-2) = c.span (c.advance t.width.bytes) := by decide
  obtain rfl := hunique (-2) hn hspan
  exact ⟨IntegerReading.ofPattern_positional, hc, hn, hbytes, hbytes ▸ hdecoded (-2) hn, hrun,
    (hruns (c.advance 1) (by decide)).2.2 (by decide)⟩

end Parser

end Wire
