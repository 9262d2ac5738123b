import Wire.Record
import Wire.Run
import Wire.Proofs.Format.Repetition

/-!
# Streams of records

The parser of a stream of records and the encoder of records are inverse to each other: every stream
of frames of valid records is parsed, nothing else is, and the value is the list of just these
records (`Record.parse_stream_iff`). The proof follows the parser from the inside out and says for
every part of it in which bytes its values are written.
-/

namespace Wire

open Wire.Parser (reads_pure reads_exactly reads_byte reads_sequence reads_word reads_upTo_exactly)

namespace Field

/-- A field has at least one byte. -/
theorem encode_ne_nil (field : Field) : field.encode ≠ [] := by
  cases field <;> exact List.cons_ne_nil _ _

/-- A counter is read from its encoding and from nothing else. -/
theorem reads_counter :
    counterParser.Reads fun field bs => ∃ n, field = .counter n ∧ bs = field.encode := by
  refine ((reads_exactly 1).bind fun _ => (reads_word .little).bind fun n =>
    reads_pure (counter (.ofNat n.toNat))).congr fun field bs => ?_
  refine ⟨fun h => ?_, fun h => ?_⟩
  · obtain ⟨_, _, _, ⟨rfl, rfl⟩, ⟨_, _, _, ⟨w, rfl, rfl⟩, ⟨rfl, rfl⟩, rfl⟩, rfl⟩ := h
    refine ⟨w, ?_, ?_⟩ <;> rw [Int.toNat_natCast, UInt16.ofNat_toNat]
    rw [List.append_nil, List.singleton_append, encode]
  · obtain ⟨n, rfl, rfl⟩ := h
    refine ⟨1, [1], _, ⟨rfl, rfl⟩, ⟨n.toNat, _, [], ⟨n, rfl, rfl⟩, ⟨?_, rfl⟩, rfl⟩, ?_⟩
    · rw [Int.toNat_natCast, UInt16.ofNat_toNat]
    · rw [List.append_nil, List.singleton_append, encode]

/-- A name is read from its encoding and from nothing else. -/
theorem reads_name :
    nameParser.Reads fun field bs => ∃ bytes, 0 ∉ bytes ∧ field = .name bytes ∧
      bs = field.encode := by
  refine ((reads_exactly 2).bind fun _ => (reads_upTo_exactly 0).bind fun bytes =>
    reads_pure (name bytes)).congr fun field bs => ?_
  refine ⟨fun h => ?_, fun h => ?_⟩
  · obtain ⟨_, _, _, ⟨rfl, rfl⟩, ⟨bytes, _, _, ⟨hzero, rfl⟩, ⟨rfl, rfl⟩, rfl⟩, rfl⟩ := h
    refine ⟨bytes, hzero, rfl, ?_⟩
    rw [List.append_nil]
    rfl
  · obtain ⟨bytes, hzero, rfl, rfl⟩ := h
    refine ⟨2, [2], _, ⟨rfl, rfl⟩, ⟨bytes, _, [], ⟨hzero, rfl⟩, ⟨rfl, rfl⟩, rfl⟩, ?_⟩
    rw [List.append_nil]
    rfl

/-- The first byte tells which kind a field is of: the parser of a counter fails at once in front of
a name. -/
theorem reads_field : parser.Reads (.of Valid encode) := by
  refine (reads_counter.orCommit reads_name ?_ ?_).congr fun field bs => ?_
  · rintro field _ ⟨n, -, rfl⟩
    exact field.encode_ne_nil
  · rintro c hc _ _ ⟨bytes, -, rfl, rfl⟩ ⟨t, ht⟩
    have hexactly : Parser.exactly 1 c =
        .failure ((Failure.unexpectedByte 2 c).expecting (Hex.byte .upper 1)) := by
      unfold Parser.exactly
      rw [Parser.byteWhere_eq hc, ← ht]
      rfl
    refine ⟨(Failure.unexpectedByte 2 c).expecting (Hex.byte .upper 1), ?_, ?_⟩
    · change (Parser.exactly 1 c).bind _ = _
      rw [hexactly]
      rfl
    · rw [Failure.remainder_expecting]
      exact Cursor.samePlace_self
  · refine ⟨fun h => ?_, fun h => ?_⟩
    · obtain ⟨n, rfl, rfl⟩ | ⟨bytes, hzero, rfl, rfl⟩ := h
      · exact ⟨trivial, rfl⟩
      · exact ⟨hzero, rfl⟩
    · obtain ⟨hvalid, rfl⟩ := h
      cases field with
      | counter n => exact .inl ⟨n, rfl, rfl⟩
      | name bytes => exact .inr ⟨bytes, hvalid, rfl, rfl⟩

end Field

namespace Record

/-- The fields stand behind their length. -/
theorem reads_fields :
    fieldsParser.Reads fun fields bs => (∀ field ∈ fields, field.Valid) ∧
      (fields.flatMap Field.encode).length ≤ 255 ∧
      bs = .ofNat (fields.flatMap Field.encode).length :: fields.flatMap Field.encode := by
  have hne : ∀ field bs, Format.of Field.Valid Field.encode field bs → bs ≠ [] := by
    rintro field _ ⟨-, rfl⟩
    exact field.encode_ne_nil
  refine (reads_byte.bind fun length =>
    (Field.reads_field.toEnd_manyCommit hne).within length.toNat).congr fun fields bs => ?_
  refine ⟨fun h => ?_, fun h => ?_⟩
  · obtain ⟨length, _, payload, rfl, ⟨hlen, hmany⟩, rfl⟩ := h
    obtain ⟨hvalid, rfl⟩ := Format.many_of_iff.1 hmany
    have hlt := length.toNat_lt
    refine ⟨hvalid, by omega, ?_⟩
    rw [hlen, UInt8.ofNat_toNat, List.singleton_append]
  · obtain ⟨hvalid, hle, rfl⟩ := h
    refine ⟨.ofNat (fields.flatMap Field.encode).length, _, fields.flatMap Field.encode, rfl,
      ⟨?_, Format.many_of_iff.2 ⟨hvalid, rfl⟩⟩, rfl⟩
    exact (UInt8.toNat_ofNat_of_lt' (Nat.lt_succ_of_le hle)).symm

/-- What a digest covers is read from the encoding of a valid record and from nothing else. -/
theorem reads_covered :
    coveredParser.Reads fun v bs =>
      ∃ r : Record, v = (↑r.id.toNat, r.fields) ∧ r.Valid ∧ bs = r.covered := by
  refine (((reads_word .big).satisfying _ _).both reads_fields).congr fun v bs => ?_
  have hrange (w : UInt16) :
      decide (1 ≤ (w.toNat : Int) ∧ (w.toNat : Int) ≤ 0x0FFF) = true ↔ 1 ≤ w ∧ w ≤ 0x0FFF := by
    rw [decide_eq_true_eq, UInt16.le_iff_toNat_le, UInt16.le_iff_toNat_le]
    change _ ↔ 1 ≤ w.toNat ∧ w.toNat ≤ 0x0FFF
    omega
  obtain ⟨id, fields⟩ := v
  refine ⟨fun h => ?_, fun h => ?_⟩
  · obtain ⟨_, _, ⟨⟨w, rfl, rfl⟩, hid⟩, ⟨hvalid, hle, rfl⟩, rfl⟩ := h
    obtain ⟨hleast, hgreatest⟩ := (hrange w).1 hid
    exact ⟨⟨w, fields⟩, rfl, ⟨hleast, hgreatest, hvalid, hle⟩, rfl⟩
  · obtain ⟨r, ⟨⟩, ⟨hleast, hgreatest, hvalid, hle⟩, rfl⟩ := h
    exact ⟨_, _, ⟨⟨r.id, rfl, rfl⟩, (hrange r.id).2 ⟨hleast, hgreatest⟩⟩,
      ⟨hvalid, hle, rfl⟩, rfl⟩

/-- A record has at least one byte. -/
theorem encode_ne_nil (r : Record) : r.encode ≠ [] :=
  List.cons_ne_nil _ _

/-- A frame is read just when it is that of a valid record. -/
theorem reads_record : parser.Reads (.of Valid encode) := by
  refine ((reads_sequence marker).bind fun _ =>
    (reads_covered.withDigest fun _ => rfl).bind fun v =>
      reads_pure (⟨.ofNat v.1.toNat, v.2⟩ : Record)).congr fun r bs => ?_
  refine ⟨fun h => ?_, fun h => ?_⟩
  · obtain ⟨_, _, _, ⟨rfl, rfl⟩, ⟨_, _, _, ⟨_, hcovered, rfl⟩, ⟨rfl, rfl⟩, rfl⟩, rfl⟩ := h
    obtain ⟨r, rfl, hvalid, rfl⟩ := hcovered
    have hr : (⟨.ofNat (r.id.toNat : Int).toNat, r.fields⟩ : Record) = r := by
      rw [Int.toNat_natCast, UInt16.ofNat_toNat]
    rw [hr, List.append_nil]
    exact ⟨hvalid, (List.append_assoc _ _ _).symm⟩
  · obtain ⟨hvalid, rfl⟩ := h
    refine ⟨marker, marker, _, ⟨rfl, rfl⟩, ⟨(↑r.id.toNat, r.fields), _, [],
      ⟨r.covered, ⟨r, rfl, hvalid, rfl⟩, rfl⟩, ⟨?_, rfl⟩, rfl⟩, ?_⟩
    · rw [Int.toNat_natCast, UInt16.ofNat_toNat]
    · rw [List.append_nil, ← List.append_assoc]
      rfl

/-- A stream is filled by the frames of valid records in a row. -/
theorem fills_stream :
    stream.Fills fun records bs => (∀ r ∈ records, r.Valid) ∧ bs = encodeAll records := by
  have hne : ∀ r bs, Format.of Valid encode r bs → bs ≠ [] := by
    rintro r _ ⟨-, rfl⟩
    exact r.encode_ne_nil
  exact (reads_record.toEnd_many hne).congr fun _ _ => Format.many_of_iff

/-- Parsing a stream always ends with an answer. It gives some records just when these are valid and
the buffer holds their frames, one after another and nothing else. -/
theorem parse_stream_iff (data : Buffer) :
    (∃ answer, parse stream data = .ok answer) ∧
      ∀ records, parse stream data = .ok (.ok records) ↔
        (∀ r ∈ records, r.Valid) ∧ data.toList = encodeAll records := by
  have hc := Cursor.ofBuffer_valid data
  have hrun := fills_stream.obeys (.ofBuffer data) hc
  have hsuccess (records : List Record) := fills_stream.success_iff hc (v := records)
  simp only [Cursor.unread_ofBuffer] at hsuccess
  simp only [← hsuccess]
  unfold parse tryParse Parser.run
  cases hstream : stream (.ofBuffer data) with
  | success v r =>
    refine ⟨⟨_, rfl⟩, fun records => ?_⟩
    simp
  | failure f =>
    refine ⟨⟨_, rfl⟩, fun records => ?_⟩
    simp
  | fault reason =>
    rw [hstream] at hrun
    exact hrun.elim

/-- The frame of a record with a counter and a name. -/
theorem parse_stream_iff_record :
    let r : Record := ⟨0x0102, [.counter 5, .name [0x61]]⟩
    r.Valid ∧ parse stream (.of (encodeAll [r]).toArray) = .ok (.ok [r]) := by
  intro r
  have hvalid : ∀ r' ∈ [r], r'.Valid := by decide
  exact ⟨hvalid r (.head _), ((parse_stream_iff _).2 [r]).2 ⟨hvalid, rfl⟩⟩

end Record

end Wire
