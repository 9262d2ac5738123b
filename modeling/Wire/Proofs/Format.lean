import Wire.Proofs.Digits
import Wire.Proofs.Discipline

/-!
# Formats

A format says in which bytes a value may be written (`Format`). A parser reads a format when it
succeeds just where the unread bytes start with a value written in the format, goes over its bytes,
and is never abandoned (`Parser.Reads`); it fills a window with a format when all that is unread has
to be one value (`Parser.Fills`). What a parser made of others reads follows from what these read,
so the format of a grammar is put together like the grammar itself.
-/

namespace Wire

variable {α β : Type}

/-- The bytes in which a value may be written. -/
abbrev Format (α : Type) : Type := α → List UInt8 → Prop

namespace Format

/-- The format of some values that are each written in one way. -/
def of (valid : α → Prop) (encode : α → List UInt8) : Format α := fun v bs =>
  valid v ∧ bs = encode v

/-- One value after another. -/
inductive Many (F : Format α) : Format (List α)
  | nil : Many F [] []
  | cons {v : α} {vs : List α} {bs bs' : List UInt8} :
    F v bs → Many F vs bs' → Many F (v :: vs) (bs ++ bs')

/-- Values that are each written in one way are so in a row. -/
theorem many_of_iff {valid : α → Prop} {encode : α → List UInt8} {vs : List α} {bs : List UInt8} :
    (of valid encode).Many vs bs ↔ (∀ v ∈ vs, valid v) ∧ bs = vs.flatMap encode := by
  refine ⟨fun h => ?_, fun h => ?_⟩
  · induction h with
    | nil => exact ⟨nofun, rfl⟩
    | cons hv _ ih =>
      obtain ⟨hvalid, rfl⟩ := hv
      obtain ⟨hvalids, rfl⟩ := ih
      exact ⟨List.forall_mem_cons.2 ⟨hvalid, hvalids⟩, rfl⟩
  · obtain ⟨hvalid, rfl⟩ := h
    induction vs with
    | nil => exact .nil
    | cons v vs ih =>
      obtain ⟨hv, hvs⟩ := List.forall_mem_cons.1 hvalid
      exact .cons ⟨hv, rfl⟩ (ih hvs)

end Format

/-- The discipline of a parser that keeps the limit and is never abandoned. -/
def Discipline.faultless : Discipline :=
  confined True fun _ => False

/-- To be without a fault, under an unchanged limit, is a lawful discipline. -/
theorem Discipline.faultless_lawful : faultless.Lawful :=
  confined_lawful _ _

/-- A parser succeeds just where the unread bytes start with a value of a format. -/
structure Parser.Reads (p : Parser α) (F : Format α) : Prop where
  obeys : p.Obeys .faultless
  success_iff {c : Cursor} (hc : c.Valid) {v : α} {r : Cursor} :
    p c = .success v r ↔ ∃ bs, F v bs ∧ bs <+: c.unread ∧ r = c.advance bs.length

/-- A parser succeeds just where the unread bytes are a value of a format. -/
structure Parser.Fills (p : Parser α) (F : Format α) : Prop where
  obeys : p.Obeys .faultless
  success_iff {c : Cursor} (hc : c.Valid) {v : α} :
    (∃ r, p c = .success v r) ↔ F v c.unread

/-! ## Unread prefixes -/

namespace Cursor

variable {c : Cursor} {bs bs' : List UInt8}

/-- A move over bytes that stand at a cursor stays inside. -/
theorem advance_prefix_inside (hc : c.Valid) (h : bs <+: c.unread) :
    (c.advance bs.length).Inside c := by
  have := h.length_le
  have := length_unread hc
  have := hc.1
  exact advance_inside (by omega)

/-- Some bytes and then others are unread just when the first are, and the others behind them. -/
theorem append_prefix_unread_iff :
    bs ++ bs' <+: c.unread ↔ bs <+: c.unread ∧ bs' <+: (c.advance bs.length).unread := by
  rw [unread_advance]
  refine ⟨fun h => ?_, fun h => ?_⟩
  · obtain ⟨t, ht⟩ := h
    rw [List.append_assoc] at ht
    rw [← ht, List.drop_left]
    exact ⟨List.prefix_append _ _, List.prefix_append _ _⟩
  · obtain ⟨⟨t, ht⟩, h⟩ := h
    rw [← ht, List.drop_left] at h
    rw [← ht]
    exact (List.prefix_append_right_inj bs).2 h

end Cursor

/-! ## Successes -/

/-- A run that goes on after a success succeeds when both parts do. -/
theorem Outcome.bind_eq_success_iff {o : Outcome α} {f : α → Cursor → Outcome β} {w : β}
    {r : Cursor} :
    o.bind f = .success w r ↔ ∃ v d, o = .success v d ∧ f v d = .success w r := by
  cases o with
  | success v d =>
    refine ⟨fun h => ⟨v, d, rfl, h⟩, ?_⟩
    rintro ⟨_, _, ⟨⟩, h⟩
    exact h
  | failure f => exact ⟨nofun, nofun⟩
  | fault reason => exact ⟨nofun, nofun⟩

namespace Parser

variable {p : Parser α} {F G : Format α}

/-- Two parsers in a row succeed when both do. -/
theorem bind_eq_success_iff {f : α → Parser β} {c r : Cursor} {w : β} :
    (p >>= f) c = .success w r ↔ ∃ v d, p c = .success v d ∧ f v d = .success w r :=
  Outcome.bind_eq_success_iff

/-- What is read depends on the format only. -/
theorem Reads.congr (hp : p.Reads F) (h : ∀ v bs, F v bs ↔ G v bs) : p.Reads G where
  obeys := hp.obeys
  success_iff {_} hc {v r} := by
    rw [hp.success_iff hc]
    simp only [h]

/-- What fills the input depends on the format only. -/
theorem Fills.congr (hp : p.Fills F) (h : ∀ v bs, F v bs ↔ G v bs) : p.Fills G where
  obeys := hp.obeys
  success_iff {_} hc {v} := (hp.success_iff hc).trans (h v _)

/-- A parser fails just where the unread bytes start with no value of its format. -/
theorem Reads.failure_iff (hp : p.Reads F) {c : Cursor} (hc : c.Valid) :
    (∃ f, p c = .failure f) ↔ ∀ v bs, F v bs → ¬ bs <+: c.unread := by
  have hrun := hp.obeys c hc
  cases hpc : p c with
  | success v d =>
    obtain ⟨bs, hF, hfront, -⟩ := (hp.success_iff hc).1 hpc
    exact ⟨nofun, fun h => absurd hfront (h v bs hF)⟩
  | failure f =>
    refine ⟨fun _ v bs hF hfront => ?_, fun _ => ⟨f, rfl⟩⟩
    rw [(hp.success_iff hc).2 ⟨bs, hF, hfront, rfl⟩] at hpc
    cases hpc
  | fault reason =>
    rw [hpc] at hrun
    exact hrun.elim

/-! ## Sequences -/

/-- A constant is read from no bytes. -/
theorem reads_pure (v : α) : (pure v : Parser α).Reads fun w bs => w = v ∧ bs = [] where
  obeys := obeys_pure v
  success_iff {c} _ {w r} := by
    refine ⟨fun h => ?_, fun h => ?_⟩
    · cases h
      exact ⟨[], ⟨rfl, rfl⟩, List.nil_prefix, rfl⟩
    · obtain ⟨_, ⟨rfl, rfl⟩, _, rfl⟩ := h
      rfl

/-- A value of the first format and then one of a format that depends on it. -/
theorem Reads.bind {f : α → Parser β} {H : α → Format β} (hp : p.Reads F)
    (hf : ∀ v, (f v).Reads (H v)) :
    (p >>= f).Reads fun w bs => ∃ v b b', F v b ∧ H v w b' ∧ bs = b ++ b' where
  obeys := hp.obeys.bind Discipline.faultless_lawful fun v => (hf v).obeys
  success_iff {c} hc {w r} := by
    rw [bind_eq_success_iff]
    refine ⟨fun h => ?_, fun h => ?_⟩
    · obtain ⟨v, d, hv, hw⟩ := h
      obtain ⟨b, hF, hb, rfl⟩ := (hp.success_iff hc).1 hv
      obtain ⟨b', hH, hb', rfl⟩ :=
        ((hf v).success_iff ((Cursor.advance_prefix_inside hc hb).valid hc)).1 hw
      refine ⟨b ++ b', ⟨v, b, b', hF, hH, rfl⟩, Cursor.append_prefix_unread_iff.2 ⟨hb, hb'⟩, ?_⟩
      rw [Cursor.advance_advance, List.length_append]
    · obtain ⟨_, ⟨v, b, b', hF, hH, rfl⟩, hfront, rfl⟩ := h
      obtain ⟨hb, hb'⟩ := Cursor.append_prefix_unread_iff.1 hfront
      refine ⟨v, c.advance b.length, (hp.success_iff hc).2 ⟨b, hF, hb, rfl⟩, ?_⟩
      rw [(hf v).success_iff ((Cursor.advance_prefix_inside hc hb).valid hc)]
      refine ⟨b', hH, hb', ?_⟩
      rw [Cursor.advance_advance, List.length_append]

/-- A value of the first format and then one of the second, as a pair. -/
theorem Reads.both {q : Parser β} {G : Format β} (hp : p.Reads F) (hq : q.Reads G) :
    (both p q).Reads fun v bs => ∃ b b', F v.1 b ∧ G v.2 b' ∧ bs = b ++ b' := by
  refine (hp.bind fun v => hq.bind fun w => reads_pure (v, w)).congr fun v bs => ?_
  refine ⟨fun h => ?_, fun h => ?_⟩
  · obtain ⟨v, b, _, hF, ⟨w, b', _, hG, ⟨rfl, rfl⟩, rfl⟩, rfl⟩ := h
    exact ⟨b, b', hF, hG, by rw [List.append_nil]⟩
  · obtain ⟨b, b', hF, hG, rfl⟩ := h
    exact ⟨v.1, b, b', hF, ⟨v.2, b', [], hG, ⟨rfl, rfl⟩, by rw [List.append_nil]⟩, rfl⟩

/-! ## Bytes -/

/-- A byte under a condition is read from the byte. -/
theorem reads_byteWhere (accept : UInt8 → Bool) (description : String) :
    (byteWhere accept description).Reads fun v bs => accept v = true ∧ bs = [v] where
  obeys := obeys_byteWhere Discipline.faultless_lawful accept description
  success_iff {c} hc {v r} := by
    rw [byteWhere_eq hc]
    cases c.unread with
    | nil =>
      refine ⟨nofun, ?_⟩
      rintro ⟨_, ⟨_, rfl⟩, hfront, _⟩
      exact absurd (List.prefix_nil.1 hfront) (List.cons_ne_nil _ _)
    | cons b bs =>
      dsimp only
      refine ⟨fun h => ?_, fun h => ?_⟩
      · split at h <;> cases h
        exact ⟨[v], ⟨‹_›, rfl⟩, ⟨bs, rfl⟩, rfl⟩
      · obtain ⟨_, ⟨haccept, rfl⟩, hfront, rfl⟩ := h
        obtain rfl := (List.cons_prefix_cons.1 hfront).1
        rw [if_pos haccept]
        rfl

/-- A byte is read from the byte. -/
theorem reads_byte : byte.Reads fun v bs => bs = [v] :=
  (reads_byteWhere _ _).congr fun _ _ => and_iff_right rfl

/-- A given byte is read from that byte. -/
theorem reads_exactly (b : UInt8) : (exactly b).Reads fun v bs => v = b ∧ bs = [v] :=
  (reads_byteWhere _ _).congr fun _ _ => and_congr_left' beq_iff_eq

/-- Given bytes are read from these bytes. -/
theorem reads_sequence : ∀ bs, (sequence bs).Reads fun v b => v = bs ∧ b = bs
  | [] => reads_pure []
  | b :: bs => by
    refine ((reads_exactly b).bind fun first => (reads_sequence bs).bind fun rest =>
      reads_pure (first :: rest)).congr fun v bs' => ?_
    refine ⟨fun h => ?_, fun h => ?_⟩
    · obtain ⟨_, _, _, ⟨rfl, rfl⟩, ⟨_, _, _, ⟨rfl, rfl⟩, ⟨rfl, rfl⟩, rfl⟩, rfl⟩ := h
      exact ⟨rfl, by rw [List.append_nil, List.singleton_append]⟩
    · obtain ⟨rfl, rfl⟩ := h
      exact ⟨b, [b], bs, ⟨rfl, rfl⟩, ⟨bs, bs, [], ⟨rfl, rfl⟩, ⟨rfl, rfl⟩,
        (List.append_nil bs).symm⟩, rfl⟩

/-- A number of bytes is read from as many bytes. -/
theorem reads_bytes (count : Nat) : (bytes count).Reads fun v bs => bs.length = count ∧ bs = v where
  obeys := obeys_bytes Discipline.faultless_lawful count
  success_iff {c} hc {v r} := by
    rw [bytes_eq hc]
    refine ⟨fun h => ?_, fun h => ?_⟩
    · split at h <;> cases h
      have hlen := List.length_take_of_le ‹count ≤ c.unread.length›
      exact ⟨c.unread.take count, ⟨hlen, rfl⟩, List.take_prefix _ _, by rw [hlen]⟩
    · obtain ⟨_, ⟨rfl, rfl⟩, hfront, rfl⟩ := h
      rw [if_pos hfront.length_le, ← List.prefix_iff_eq_take.1 hfront]

/-- An integer is read from as many bytes as it is wide, as the pattern that they make. -/
theorem reads_integer (t : IntegerType) (order : ByteOrder) :
    (integer t order).Reads fun n bs =>
      bs.length = t.width.bytes ∧ n = t.ofPattern (order.number bs) where
  obeys := obeys_integer Discipline.faultless_lawful t order
  success_iff {c} hc {n r} := by
    unfold integer
    rw [bind_eq_success_iff]
    refine ⟨fun h => ?_, fun h => ?_⟩
    · obtain ⟨stored, d, hstored, hn⟩ := h
      obtain ⟨bs, ⟨hlen, rfl⟩, hfront, rfl⟩ := ((reads_bytes _).success_iff hc).1 hstored
      rw [ofChecked, IntegerType.decode, if_pos hlen] at hn
      cases hn
      exact ⟨bs, ⟨hlen, rfl⟩, hfront, rfl⟩
    · obtain ⟨bs, ⟨hlen, rfl⟩, hfront, rfl⟩ := h
      refine ⟨bs, _, ((reads_bytes _).success_iff hc).2 ⟨bs, ⟨hlen, rfl⟩, hfront, rfl⟩, ?_⟩
      rw [ofChecked, IntegerType.decode, if_pos hlen]
      rfl

/-- A word is read from its two digits. -/
theorem reads_word (order : ByteOrder) :
    (integer .word order).Reads fun n bs =>
      ∃ w : UInt16, n = w.toNat ∧ bs = order.digits 2 w.toNat := by
  refine (reads_integer .word order).congr fun n bs => ?_
  have hpattern (m : Nat) : IntegerType.word.ofPattern m = m := by
    simp [IntegerType.ofPattern, IntegerType.word]
  rw [hpattern]
  refine ⟨fun h => ?_, fun h => ?_⟩
  · obtain ⟨hlen, rfl⟩ := h
    have hlt := order.number_lt bs
    rw [hlen] at hlt
    have hw : (UInt16.ofNat (order.number bs)).toNat = order.number bs :=
      UInt16.toNat_ofNat_of_lt' hlt
    refine ⟨.ofNat (order.number bs), by rw [hw], ?_⟩
    have hdigits := order.digits_number bs
    rw [hlen] at hdigits
    rw [hw]
    exact hdigits.symm
  · obtain ⟨w, rfl, rfl⟩ := h
    have hlt : w.toNat < 256 ^ 2 := w.toNat_lt
    refine ⟨order.length_digits 2 _, ?_⟩
    rw [order.number_digits, Nat.mod_eq_of_lt hlt]

/-! ## Checks -/

/-- A value of a format that satisfies a condition. -/
theorem Reads.satisfying (hp : p.Reads F) (accept : α → Bool) (description : String) :
    (satisfying p accept description).Reads fun v bs => F v bs ∧ accept v = true where
  obeys := hp.obeys.satisfying Discipline.faultless_lawful accept description
  success_iff {c} hc {v r} := by
    rw [satisfying_eq, Outcome.bind_eq_success_iff]
    refine ⟨fun h => ?_, fun h => ?_⟩
    · obtain ⟨v', d, hv, hd⟩ := h
      split at hd <;> cases hd
      obtain ⟨bs, hF, hfront, rfl⟩ := (hp.success_iff hc).1 hv
      exact ⟨bs, ⟨hF, ‹_›⟩, hfront, rfl⟩
    · obtain ⟨bs, ⟨hF, haccept⟩, hfront, rfl⟩ := h
      exact ⟨v, _, (hp.success_iff hc).2 ⟨bs, hF, hfront, rfl⟩, if_pos haccept⟩

/-- A value with the digest of its bytes behind it. -/
theorem Reads.withDigest (hp : p.Reads F) {checksum : Checksum}
    (hlength : ∀ bs, (checksum.digest bs).length = checksum.length) :
    (withDigest p checksum).Reads fun v bs =>
      ∃ covered, F v covered ∧ bs = covered ++ checksum.digest covered where
  obeys := hp.obeys.withDigest Discipline.faultless_lawful checksum
  success_iff {c} hc {v r} := by
    have htaken {bs : List UInt8} (hfront : bs <+: c.unread) :
        c.unread.take ((c.advance bs.length).position - c.position) = bs := by
      rw [Cursor.advance_position, Nat.add_sub_cancel_left, ← List.prefix_iff_eq_take.1 hfront]
    rw [withDigest_eq hc (hp.obeys.inside hc), Outcome.bind_eq_success_iff]
    refine ⟨fun h => ?_, fun h => ?_⟩
    · obtain ⟨v', d, hv, hd⟩ := h
      obtain ⟨bs, hF, hfront, rfl⟩ := (hp.success_iff hc).1 hv
      have hvalid := (Cursor.advance_prefix_inside hc hfront).valid hc
      dsimp only at hd
      rw [htaken hfront, Outcome.bind_eq_success_iff] at hd
      obtain ⟨found, e, hfound, hmatch⟩ := hd
      obtain ⟨_, ⟨-, rfl⟩, hfront', rfl⟩ := ((reads_bytes _).success_iff hvalid).1 hfound
      split at hmatch <;> cases hmatch
      next hdigest =>
      subst hdigest
      refine ⟨bs ++ checksum.digest bs, ⟨bs, hF, rfl⟩,
        Cursor.append_prefix_unread_iff.2 ⟨hfront, hfront'⟩, ?_⟩
      rw [Cursor.advance_advance, List.length_append]
    · obtain ⟨_, ⟨bs, hF, rfl⟩, hfront, rfl⟩ := h
      obtain ⟨hbs, hdigest⟩ := Cursor.append_prefix_unread_iff.1 hfront
      have hvalid := (Cursor.advance_prefix_inside hc hbs).valid hc
      refine ⟨v, _, (hp.success_iff hc).2 ⟨bs, hF, hbs, rfl⟩, ?_⟩
      dsimp only
      rw [htaken hbs, Outcome.bind_eq_success_iff]
      refine ⟨_, _, ((reads_bytes _).success_iff hvalid).2
        ⟨_, ⟨hlength bs, rfl⟩, hdigest, rfl⟩, ?_⟩
      rw [if_pos rfl, Cursor.advance_advance, List.length_append]

/-! ## Windows -/

/-- A window is read when it is all there and filled. -/
theorem Fills.within (hp : p.Fills F) (size : Nat) :
    (within size p).Reads fun v bs => bs.length = size ∧ F v bs where
  obeys := hp.obeys.within Discipline.faultless_lawful (fun _ _ => id) (fun _ => id) size
  success_iff {c} hc {v r} := by
    have hwindow := (Cursor.windowed_inside (n := size) hc).valid hc
    have hlen := Cursor.length_unread hc
    have := hc.1
    have hfill := hp.success_iff hwindow (v := v)
    rw [Cursor.unread_windowed hc] at hfill
    unfold Parser.within
    rw [Cursor.remaining_eq hc]
    refine ⟨fun h => ?_, fun h => ?_⟩
    · cases hpc : p (c.windowed size) with
      | success v' d =>
        rw [hpc] at h
        dsimp only at h
        split at h <;> cases h
        have htake : (c.unread.take size).length = size := List.length_take_of_le (by omega)
        exact ⟨c.unread.take size, ⟨htake, hfill.1 ⟨d, hpc⟩⟩, List.take_prefix _ _, by
          rw [htake, Cursor.skip_eq_advance (by omega)]⟩
      | failure f =>
        rw [hpc] at h
        cases h
      | fault reason =>
        rw [hpc] at h
        cases h
    · obtain ⟨bs, ⟨rfl, hF⟩, hfront, rfl⟩ := h
      have := hfront.length_le
      rw [← List.prefix_iff_eq_take.1 hfront] at hfill
      obtain ⟨d, hpc⟩ := hfill.2 hF
      rw [hpc]
      dsimp only
      rw [if_neg (by omega), Cursor.skip_eq_advance (by omega)]

end Parser

end Wire
