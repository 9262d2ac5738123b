import Wire.Proofs.Hex
import Wire.Proofs.Safety

/-!
# Reading a dump

The dump of a failure is text, and everything it tells can be read from the text again. Cut at its
blanks it is an offset, a bar and tokens (`Failure.splitOn_context`). The tokens show the bytes
around a place of the buffer (`Dump.Shows`): they are read as these bytes, at the offsets where they
stand (`Dump.Shows.byte?_eq`), and the one token in brackets is that of the place itself
(`Dump.Shows.bracketed_iff`). The limit of the cursor has no part in it, so a failure at the end of
a window shows the byte that the window ends before.
-/

namespace Wire

namespace Dump

/-! ## What tokens show -/

/-- The bytes around a place of a buffer: up to eight in front of it, the one at the place, and up
to eight behind it. -/
def around (data : Buffer) (place : Nat) : Array UInt8 :=
  data.bytes.extract (place - 8) (min (place + 9) data.size)

/-- The token is in brackets. -/
def Bracketed (token : List Char) : Prop :=
  token.head? = some '[' ∧ token.getLast? = some ']'

/-- The byte that a token stands for, with brackets or without. -/
def byte? (token : List Char) : Option UInt8 :=
  match Hex.ofDigits? (token.filter fun c => c ≠ '[' ∧ c ≠ ']') with
  | some [b] => some b
  | _ => none

/-- Tokens show the bytes around a place: a byte as two digits, in brackets if it is the one at the
place, and behind the bytes the end of the buffer if the place is there. -/
structure Shows (data : Buffer) (place : Nat) (tokens : List (List Char)) : Prop where
  byte : ∀ i b, (around data place)[i]? = some b →
    ∃ high low, Hex.Numeral 2 b.toNat [high, low] ∧
      tokens[i]? = some (if place - 8 + i = place then ['[', high, low, ']'] else [high, low])
  last : data.size ≤ place → tokens[(around data place).size]? = some ['[', 'E', 'O', 'F', ']']
  length : tokens.length = (around data place).size + if data.size ≤ place then 1 else 0

variable {data : Buffer} {place i : Nat} {tokens : List (List Char)} {token : List Char}

/-- How many bytes around a place there are, cut off at both ends of the buffer. -/
theorem size_around (data : Buffer) (place : Nat) :
    (around data place).size = min (place + 9) data.size - (place - 8) := by
  have hsize : data.bytes.size = data.size := rfl
  rw [around, Array.size_extract, hsize]
  omega

/-- The bytes around a place, by their offset in the buffer. -/
theorem getElem?_around (hi : place - 8 + i < place + 9) :
    (around data place)[i]? = data.bytes[place - 8 + i]? := by
  rw [around, Array.getElem?_extract]
  split
  · rfl
  · have hsize : data.bytes.size = data.size := rfl
    rw [Array.getElem?_eq_none (by omega)]

/-! ## Reading tokens -/

/-- Two digits are read as the byte that they stand for. -/
theorem byte?_digits {b : UInt8} {high low : Char} (h : Hex.Numeral 2 b.toNat [high, low]) :
    byte? [high, low] = some b := by
  have hbare : [high, low].filter (fun c => c ≠ '[' ∧ c ≠ ']') = [high, low] := by
    refine List.filter_eq_self.2 fun c hc => ?_
    have hopen : c ≠ '[' := fun he => h.not_mem (by decide) (he ▸ hc)
    have hclose : c ≠ ']' := fun he => h.not_mem (by decide) (he ▸ hc)
    simp [hopen, hclose]
  rw [byte?, hbare, h.ofDigits?_eq]

/-- Brackets do not matter for the byte that is read. -/
theorem byte?_brackets (token : List Char) : byte? ('[' :: token ++ [']']) = byte? token := by
  simp [byte?]

namespace Shows

/-- A token is that of a byte or that of the end of the buffer. -/
theorem cases (h : Shows data place tokens) (hi : tokens[i]? = some token) :
    (∃ b high low, (around data place)[i]? = some b ∧ Hex.Numeral 2 b.toNat [high, low] ∧
        token = if place - 8 + i = place then ['[', high, low, ']'] else [high, low]) ∨
      (i = (around data place).size ∧ data.size ≤ place ∧ token = ['[', 'E', 'O', 'F', ']']) := by
  obtain ⟨hlt, -⟩ := List.getElem?_eq_some_iff.1 hi
  have hlength := h.length
  rcases Nat.lt_or_ge i (around data place).size with hin | hout
  · have hb := Array.getElem?_eq_getElem hin
    obtain ⟨high, low, hnumeral, htoken⟩ := h.byte i _ hb
    cases hi.symm.trans htoken
    exact .inl ⟨_, high, low, hb, hnumeral, rfl⟩
  · split at hlength
    · next hend =>
      obtain rfl : i = (around data place).size := by omega
      cases hi.symm.trans (h.last hend)
      exact .inr ⟨rfl, hend, rfl⟩
    · omega

/-- The tokens are read as the bytes that they show. -/
theorem byte?_eq (h : Shows data place tokens) (i : Nat) :
    tokens[i]?.bind byte? = (around data place)[i]? := by
  cases hi : tokens[i]? with
  | none =>
    cases hb : (around data place)[i]? with
    | none => rfl
    | some b =>
      obtain ⟨_, _, -, htoken⟩ := h.byte i b hb
      cases hi.symm.trans htoken
  | some token =>
    rcases h.cases hi with ⟨b, high, low, hb, hnumeral, rfl⟩ | ⟨rfl, -, rfl⟩
    · rw [hb, Option.bind_some]
      split
      · exact (byte?_brackets [high, low]).trans (byte?_digits hnumeral)
      · exact byte?_digits hnumeral
    · rw [Array.getElem?_eq_none le_rfl]
      rfl

/-- What is read from a token is the byte at its offset, up to eight bytes behind the place. -/
theorem byte?_offset (h : Shows data place tokens) {offset : Nat} (hstart : place - 8 ≤ offset) :
    tokens[offset - (place - 8)]?.bind byte? =
      if offset < place + 9 then data.bytes[offset]? else none := by
  rw [h.byte?_eq]
  split
  · rw [getElem?_around (by omega), Nat.add_sub_cancel' hstart]
  · have hsize := size_around data place
    exact Array.getElem?_eq_none (by omega)

/-- At the end of the buffer the last token says so. -/
theorem getLast?_eq (h : Shows data place tokens) (hend : data.size ≤ place) :
    tokens.getLast? = some ['[', 'E', 'O', 'F', ']'] := by
  rw [List.getLast?_eq_getElem?, h.length, if_pos hend]
  exact h.last hend

/-- Just the token of the place is in brackets. -/
theorem bracketed_iff (h : Shows data place tokens) (hplace : place ≤ data.size) (i : Nat) :
    (∃ token, tokens[i]? = some token ∧ Bracketed token) ↔ place - 8 + i = place := by
  have hsize := size_around data place
  constructor
  · rintro ⟨token, hi, hhead, -⟩
    rcases h.cases hi with ⟨b, high, low, -, hnumeral, rfl⟩ | ⟨rfl, hend, rfl⟩
    -- At another place the token would be two digits, and the first one a bracket.
    · by_contra hne
      rw [if_neg hne] at hhead
      cases hhead
      exact hnumeral.not_mem (by decide) (.head _)
    · omega
  · intro hi
    rcases Nat.lt_or_ge place data.size with hlt | hge
    · have hb : (around data place)[i]? = some data.bytes[place] := by
        rw [getElem?_around (by omega), hi, Array.getElem?_eq_getElem hlt]
      obtain ⟨high, low, -, htoken⟩ := h.byte i _ hb
      rw [if_pos hi] at htoken
      exact ⟨_, htoken, rfl, rfl⟩
    · obtain rfl : i = (around data place).size := by omega
      exact ⟨_, h.last hge, rfl, rfl⟩

/-- No token has a blank in it. -/
theorem blank_not_mem (h : Shows data place tokens) (htoken : token ∈ tokens) : ' ' ∉ token := by
  obtain ⟨i, hi⟩ := List.mem_iff_getElem?.1 htoken
  rcases h.cases hi with ⟨b, high, low, -, hnumeral, rfl⟩ | ⟨-, -, rfl⟩
  · have hdigits : ' ' ∉ [high, low] := hnumeral.not_mem (by decide)
    split
    · simpa using hdigits
    · exact hdigits
  · decide

end Shows

/-- Words with separators between them are the first one and the others, each behind a separator. -/
theorem intercalate_cons_eq {α : Type} (separator : α) :
    ∀ (word : List α) (words : List (List α)),
      [separator].intercalate (word :: words) = word ++ words.flatMap (separator :: ·)
  | word, [] => by simp
  | word, next :: words => by
    rw [List.intercalate_cons_cons, intercalate_cons_eq separator next words]
    simp

end Dump

/-! ## The dump of a failure -/

namespace Failure

open Dump

variable {f : Failure}

/-- The tokens of a dump are the bytes around the failure in order, and the end of the buffer if the
failure is there. -/
theorem contextTokens_eq (h : f.remainder.Valid) :
    f.contextTokens = .ok
      ((around f.remainder.data f.position).toList.zipIdx.map (fun (b, offset) =>
          contextToken (f.position - f.contextStart) b offset) ++
        if f.remainder.data.size ≤ f.position then ["[EOF]"] else []) := by
  unfold contextTokens
  rw [contextBytes_eq h]
  by_cases hend : f.remainder.data.size ≤ f.position
  · simp only [if_pos hend]
    rfl
  · simp only [if_neg hend, List.append_nil]
    rfl

/-- A token is two digits, in brackets if it is the marked one. -/
theorem toList_contextToken (marked : Nat) (b : UInt8) (offset : Nat) :
    (contextToken marked b offset).toList =
      if offset = marked then '[' :: (Hex.byte .upper b).toList ++ [']']
      else (Hex.byte .upper b).toList := by
  unfold contextToken
  split
  · simp
  · rfl

/-- The tokens of the dump of a failure show the bytes around its place. -/
theorem shows_contextTokens (h : f.remainder.Valid) : ∃ tokens, f.contextTokens = .ok tokens ∧
    Shows f.remainder.data f.position (tokens.map String.toList) := by
  refine ⟨_, contextTokens_eq h, fun i b hb => ?_, fun hend => ?_, ?_⟩
  · obtain ⟨hlt, -⟩ := Array.getElem?_eq_some_iff.1 hb
    obtain ⟨high, low, hbyte⟩ : ∃ high low, (Hex.byte .upper b).toList = [high, low] :=
      ⟨_, _, Hex.toList_byte .upper b⟩
    have hnumeral := Hex.numeral_byte b
    rw [hbyte] at hnumeral
    have hmark : i = f.position - f.contextStart ↔ f.position - 8 + i = f.position := by
      unfold contextStart
      omega
    refine ⟨high, low, hnumeral, ?_⟩
    rw [List.getElem?_map, List.getElem?_append_left (by simpa using hlt), List.getElem?_map,
      List.getElem?_zipIdx, Array.getElem?_toList, hb]
    simp only [Option.map_some, Nat.zero_add, toList_contextToken, hbyte, hmark]
    rfl
  · rw [if_pos hend, List.getElem?_map, List.getElem?_append_right (by simp)]
    simp
  · rw [List.length_map, List.length_append, List.length_map, List.length_zipIdx,
      Array.length_toList]
    split <;> rfl

/-- A dump is an offset, a bar and tokens, with blanks between them. -/
theorem toList_context (h : f.remainder.Valid) : ∃ text tokens, f.context = .ok text ∧
    text.toList = [' '].intercalate
      ((Hex.offset (f.position - 8)).toList :: ['|'] :: tokens) ∧
    Shows f.remainder.data f.position tokens := by
  obtain ⟨tokens, htokens, hshows⟩ := shows_contextTokens h
  have hcontext : f.context = .ok (Hex.offset f.contextStart ++ " |" ++
      String.join (tokens.map (" " ++ ·))) := by
    unfold context
    rw [htokens]
    rfl
  refine ⟨_, tokens.map String.toList, hcontext, ?_, hshows⟩
  rw [intercalate_cons_eq, List.flatMap_cons, contextStart, String.toList_append,
    String.toList_append, String.toList_join, List.flatMap_map, List.flatMap_map]
  simp

/-- A dump is cut at its blanks into the offset of its first byte, a bar and the tokens. -/
theorem splitOn_context (h : f.remainder.Valid) : ∃ text tokens, f.context = .ok text ∧
    text.toList.splitOn ' ' = (Hex.offset (f.position - 8)).toList :: ['|'] :: tokens ∧
    Shows f.remainder.data f.position tokens := by
  obtain ⟨text, tokens, hcontext, htext, hshows⟩ := toList_context h
  have hoffset : ' ' ∉ (Hex.offset (f.position - 8)).toList :=
    (Hex.numeral_offset _).not_mem (by decide)
  have hblank : ∀ word ∈ (Hex.offset (f.position - 8)).toList :: ['|'] :: tokens, ' ' ∉ word :=
    List.forall_mem_cons.2 ⟨hoffset, List.forall_mem_cons.2
      ⟨by decide, fun _ => hshows.blank_not_mem⟩⟩
  refine ⟨text, tokens, hcontext, ?_, hshows⟩
  rw [htext]
  exact List.splitOn_intercalate ' ' hblank (List.cons_ne_nil _ _)

/-- The dump of a failure at a valid cursor is the offset of its first byte in at least eight
digits, a bar and tokens. Read back, the tokens are the bytes of the buffer from up to eight before
the place to up to eight behind it, each at its offset and no others. Exactly one is in brackets,
that of the place: the byte that is there, wherever the limit is, or at the end of the buffer a last
token that says so. -/
theorem context_shows (h : f.remainder.Valid) :
    ∃ text number tokens, f.context = .ok text ∧
      text.toList.splitOn ' ' = number :: ['|'] :: tokens ∧
      Hex.Numeral 8 (f.position - 8) number ∧
      Shows f.remainder.data f.position tokens ∧
      (∀ offset, f.position - 8 ≤ offset → tokens[offset - (f.position - 8)]?.bind byte? =
        if offset < f.position + 9 then f.remainder.data.bytes[offset]? else none) ∧
      (∀ i, (∃ token, tokens[i]? = some token ∧ Bracketed token) ↔
        f.position - 8 + i = f.position) ∧
      (f.remainder.data.size ≤ f.position →
        tokens.getLast? = some ['[', 'E', 'O', 'F', ']']) := by
  have hplace : f.position ≤ f.remainder.data.size := le_trans h.1 h.2
  obtain ⟨text, tokens, hcontext, hwords, hshows⟩ := splitOn_context h
  exact ⟨text, _, tokens, hcontext, hwords, Hex.numeral_offset _, hshows,
    fun _ => hshows.byte?_offset, hshows.bracketed_iff hplace, hshows.getLast?_eq⟩

/-- A failure at the limit of a window in front of the last two bytes, and one at the end of the
buffer. -/
theorem context_shows_window :
    let data : Buffer := .of
      #[0x10, 0x21, 0x32, 0x43, 0x54, 0x65, 0x76, 0x87, 0x98, 0xA9, 0xBA, 0xCB]
    let f := endOfInput ⟨data, 10, 10⟩
    let g := endOfInput ⟨data, 12, 12⟩
    f.remainder.Valid ∧ g.remainder.Valid ∧
      f.context = .ok "00000002 | 32 43 54 65 76 87 98 A9 [BA] CB" ∧
      g.context = .ok "00000004 | 54 65 76 87 98 A9 BA CB [EOF]" ∧
      (∃ text number tokens, f.context = .ok text ∧
        text.toList.splitOn ' ' = number :: ['|'] :: tokens ∧ Hex.number? number = some 2 ∧
        tokens[8]?.bind byte? = some 0xBA ∧ ∃ token, tokens[8]? = some token ∧ Bracketed token) ∧
      ∃ text number tokens, g.context = .ok text ∧
        text.toList.splitOn ' ' = number :: ['|'] :: tokens ∧ Hex.number? number = some 4 ∧
        tokens[7]?.bind byte? = some 0xCB ∧
        tokens.getLast? = some ['[', 'E', 'O', 'F', ']'] := by
  intro data f g
  have hf : f.remainder.Valid := by decide
  have hg : g.remainder.Valid := by decide
  obtain ⟨text, number, tokens, hcontext, hwords, hnumber, -, hread, hmarked, -⟩ :=
    context_shows hf
  obtain ⟨text', number', tokens', hcontext', hwords', hnumber', -, hread', -, hlast'⟩ :=
    context_shows hg
  exact ⟨hf, hg, by decide, by decide,
    ⟨text, number, tokens, hcontext, hwords, hnumber.number, hread 10 (by decide),
      (hmarked 8).2 (by decide)⟩,
    text', number', tokens', hcontext', hwords', hnumber'.number, hread' 11 (by decide),
    hlast' (by decide)⟩

end Failure

end Wire
