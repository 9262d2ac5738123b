import Wire.Proofs.Correspondence

/-!
# Corresponding runs of grammars

A value keeps the place of the bytes that it was parsed from in its tags and nowhere else. So two
values of corresponding runs are the same but for their tags, whose offsets differ by the distance
of the two places (`Value.ShiftedBy`), and everything a grammar does with a value, be it a
transform, a predicate or a count taken from it, is the same for both. It follows that every grammar
is related to itself (`Grammar.parser_related`), except that its constants must have no tags: a
constant is not parsed from anywhere and stays as it is.
-/

namespace Wire

/-! ## Values at a distance -/

/-- A value without tags. -/
inductive Value.Untagged : Value → Prop
  | null : Untagged .null
  | int (n : Int) : Untagged (.int n)
  | binary (f : BinaryFormat) (x : Binary f) : Untagged (.binary f x)
  | str (s : String) : Untagged (.str s)
  | list {items : List Value} : (∀ v ∈ items, Untagged v) → Untagged (.list items)
  | pair {v w : Value} : Untagged v → Untagged w → Untagged (.pair v w)

/-- Two values that are the same but for the offsets of their tags, all of them at one distance. -/
inductive Value.ShiftedBy (k : Int) : Value → Value → Prop
  | null : ShiftedBy k .null .null
  | int (n : Int) : ShiftedBy k (.int n) (.int n)
  | binary (f : BinaryFormat) (x : Binary f) : ShiftedBy k (.binary f x) (.binary f x)
  | str (s : String) : ShiftedBy k (.str s) (.str s)
  | list {vs ws : List Value} : List.Forall₂ (ShiftedBy k) vs ws → ShiftedBy k (.list vs) (.list ws)
  | pair {v v' w w' : Value} :
    ShiftedBy k v w → ShiftedBy k v' w' → ShiftedBy k (.pair v v') (.pair w w')
  | tagged {v w : Value} (bytes : List UInt8) {start start' : Nat} :
    ShiftedBy k v w → (start' : Int) = start + k →
      ShiftedBy k (.tagged v bytes start) (.tagged w bytes start')

namespace Value

variable {k : Int}

/-- A value without tags has no place to be shifted from. -/
theorem Untagged.shiftedBy {v : Value} (h : v.Untagged) : v.ShiftedBy k v := by
  induction h with
  | null => exact .null
  | int n => exact .int n
  | binary f x => exact .binary f x
  | str s => exact .str s
  | list _ ih => exact .list (List.forall₂_same.2 ih)
  | pair _ _ ih ih' => exact .pair ih ih'

/-- A list of bytes has no tags. -/
theorem ofBytes_untagged (bs : List UInt8) : (ofBytes bs).Untagged := by
  refine .list fun v hv => ?_
  obtain ⟨b, -, rfl⟩ := List.mem_map.1 hv
  exact .int _

/-- Shifted values are the same integer. -/
theorem ShiftedBy.toInt : ∀ {v w : Value}, ShiftedBy k v w → v.toInt = w.toInt
  | _, _, .null | _, _, .int _ | _, _, .binary _ _ | _, _, .str _ => rfl
  | _, _, .list h => congrArg Nat.cast h.length_eq
  | _, _, .pair h _ => h.toInt
  | _, _, .tagged _ h _ => h.toInt

/-- Shifted values have shifted items. -/
theorem ShiftedBy.items {v w : Value} (h : ShiftedBy k v w) :
    List.Forall₂ (ShiftedBy k) v.items w.items := by
  have hsame := h
  cases h with
  | list h => exact h
  | _ => exact .cons hsame .nil

/-- Shifted values are the same byte. -/
theorem ShiftedBy.toByte {v w : Value} (h : ShiftedBy k v w) : v.toByte = w.toByte := by
  rw [Value.toByte, Value.toByte, h.toInt]

/-- Shifted values count the same. -/
theorem ShiftedBy.toCount {v w : Value} (h : ShiftedBy k v w) : v.toCount = w.toCount := by
  rw [Value.toCount, Value.toCount, h.toInt]

/-- Shifted items are the same bytes. -/
theorem map_toByte_eq {vs ws : List Value} (h : List.Forall₂ (ShiftedBy k) vs ws) :
    vs.map Value.toByte = ws.map Value.toByte := by
  induction h with
  | nil => rfl
  | cons hv _ ih => rw [List.map_cons, List.map_cons, hv.toByte, ih]

/-- Shifted values are the same bytes. -/
theorem ShiftedBy.toBytes {v w : Value} (h : ShiftedBy k v w) : v.toBytes = w.toBytes :=
  map_toByte_eq h.items

/-- The items of the items of shifted values are shifted. -/
theorem forall₂_flatMap_items {vs ws : List Value} (h : List.Forall₂ (ShiftedBy k) vs ws) :
    List.Forall₂ (ShiftedBy k) (vs.flatMap Value.items) (ws.flatMap Value.items) := by
  induction h with
  | nil => exact .nil
  | cons hv _ ih =>
    rw [List.flatMap_cons, List.flatMap_cons]
    exact List.rel_append hv.items ih

/-- A change of a value that looks at no tag keeps the distance. -/
theorem ShiftedBy.applyBare {v w : Value} (t : Transform) (h : ShiftedBy k v w) :
    ShiftedBy k (t.applyBare v) (t.applyBare w) := by
  cases t with
  | length =>
    simp only [Transform.applyBare, h.items.length_eq]
    exact .int _
  | int =>
    simp only [Transform.applyBare, h.toInt]
    exact .int _
  | hex =>
    simp only [Transform.applyBare, h.toBytes]
    exact .str _
  | flat => exact .list (forall₂_flatMap_items h.items)
  | first =>
    have hsame := h
    cases h with
    | pair h _ => exact h
    | _ => exact hsame
  | second =>
    have hsame := h
    cases h with
    | pair _ h => exact h
    | _ => exact hsame
  | reverse =>
    have hsame := h
    cases h with
    | list h => exact .list (List.rel_reverse h)
    | _ => exact hsame

/-- A transformation of shifted values gives shifted values. -/
theorem ShiftedBy.apply (t : Transform) :
    ∀ {v w : Value}, ShiftedBy k v w → ShiftedBy k (t.apply v) (t.apply w)
  | _, _, .tagged bs h hs => .tagged bs (h.apply t) hs
  | _, _, .null => ShiftedBy.null.applyBare t
  | _, _, .int n => (ShiftedBy.int n).applyBare t
  | _, _, .binary f x => (ShiftedBy.binary f x).applyBare t
  | _, _, .str s => (ShiftedBy.str s).applyBare t
  | _, _, .list h => (ShiftedBy.list h).applyBare t
  | _, _, .pair h h' => (ShiftedBy.pair h h').applyBare t

/-- A condition holds of both of two shifted values or of none. -/
theorem ShiftedBy.holds {v w : Value} (predicate : Predicate) (h : ShiftedBy k v w) :
    predicate.holds v = predicate.holds w := by
  cases predicate <;> simp only [Predicate.holds, h.toInt, h.items.length_eq]

/-- Every value is at no distance from itself. -/
theorem ShiftedBy.refl : ∀ v : Value, ShiftedBy 0 v v
  | .null => .null
  | .int n => .int n
  | .binary f x => .binary f x
  | .str s => .str s
  | .list vs => .list (refl_list vs)
  | .pair v w => .pair (refl v) (refl w)
  | .tagged v bs _ => .tagged bs (refl v) (Int.add_zero _).symm
where
  refl_list : ∀ vs : List Value, List.Forall₂ (ShiftedBy 0) vs vs
    | [] => .nil
    | v :: vs => .cons (refl v) (refl_list vs)

/-- At no distance, the values are the same. -/
theorem ShiftedBy.eq_of_zero : ∀ {v w : Value}, ShiftedBy 0 v w → v = w
  | _, _, .null | _, _, .int _ | _, _, .binary _ _ | _, _, .str _ => rfl
  | _, _, .list h => congrArg Value.list (eq_of_forall₂ h)
  | _, _, .pair h h' => by rw [h.eq_of_zero, h'.eq_of_zero]
  | _, _, .tagged bs h hs => by
    rw [h.eq_of_zero]
    congr 1
    omega
where
  eq_of_forall₂ : ∀ {vs ws : List Value}, List.Forall₂ (ShiftedBy 0) vs ws → vs = ws
    | _, _, .nil => rfl
    | _, _, .cons h hs => by rw [h.eq_of_zero, eq_of_forall₂ hs]

end Value

/-! ## Grammars -/

section
variable {k : Int} {R : Correspondence k} {c d : Cursor}

namespace Parser

/-- A failure some bytes further on is related to itself. -/
theorem related_failAhead {α α' : Type} {V : α → α' → Prop} (kind : FailureKind) (message : String)
    (expectations : List String) (distance : Nat) :
    Related V R (failAhead kind message expectations distance)
      (failAhead kind message expectations distance) := by
  intro c d hcd
  have hbare : (Failure.mk kind message [] (c.skip distance)).Related R.rel
      ⟨kind, message, [], d.skip distance⟩ := ⟨rfl, rfl, rfl, R.skip hcd distance⟩
  exact .failure (hbare.expectingAll _)

/-- A letter that is made a capital one is related to itself. -/
theorem related_capital : Related Eq R capital capital := by
  intro c d hcd
  have ht := R.twin hcd
  unfold capital
  rw [current_eq ht.left, current_eq ht.right, ← ht.unread]
  cases hu : c.unread with
  | nil => exact .failure (related_endOfInput hcd)
  | cons b bs =>
    have hlt : c.position < c.limit := by
      have : c.unread ≠ [] := by simp [hu]
      rw [ne_eq, Cursor.unread_eq_nil_iff ht.left] at this
      omega
    have hlt' : d.position < d.limit := by
      have := ht.position
      have := ht.limit
      omega
    refine .success rfl ?_
    rw [Cursor.next_eq_advance hlt, Cursor.next_eq_advance hlt']
    exact related_advance_one hcd hu

/-- Repetitions between two counts of related parsers are related. -/
theorem Related.repeatedBetween {α α' : Type} {V : α → α' → Prop} {p : Parser α} {p' : Parser α'}
    (hp : Related V R p p') (min max : Nat) :
    Related (List.Forall₂ V) R (repeatedBetween p min max) (repeatedBetween p' min max) := by
  unfold Parser.repeatedBetween
  split
  · exact hp.repeated _
  · exact related_abandon _

/-- Parsers of the same numbers are related under the same range. -/
theorem Related.inRange {α : Type} [LE α] [DecidableLE α] [ToString α] {p p' : Parser α}
    (hp : Related Eq R p p') (first last : α) :
    Related Eq R (inRange p first last) (inRange p' first last) :=
  hp.satisfying (fun _ _ h => h ▸ rfl) _

/-- Equal bytes are equal values. -/
theorem Related.byteValue {p p' : Parser UInt8} (hp : Related Eq R p p') :
    Related (Value.ShiftedBy k) R (byteValue p) (byteValue p') :=
  hp.map fun _ _ h => h ▸ .int _

/-- Parsers of the same bytes are related as parsers of values. -/
theorem Related.bytesValue {p p' : Parser (List UInt8)} (hp : Related Eq R p p') :
    Related (Value.ShiftedBy k) R (bytesValue p) (bytesValue p') :=
  hp.map fun v _ h => h ▸ (Value.ofBytes_untagged v).shiftedBy

/-- Parsers of shifted items are related as parsers of values. -/
theorem Related.listValue {p p' : Parser (List Value)}
    (hp : Related (List.Forall₂ (Value.ShiftedBy k)) R p p') :
    Related (Value.ShiftedBy k) R (listValue p) (listValue p') :=
  hp.map fun _ _ h => .list h

end Parser

variable {refs : String → Prop} {names names' : String → Parser Value}

/-- A grammar that is checked before it runs is related when its parsers are. -/
theorem Grammar.checked_related (g : Grammar) {p p' : Parser Value}
    (hp : p.Related (Value.ShiftedBy k) R p') :
    (g.checked p).Related (Value.ShiftedBy k) R (g.checked p') := by
  unfold checked
  split
  · exact Parser.related_abandon _
  · exact hp

/-- Two meanings of the names that a grammar may refer to, whose runs correspond. -/
structure Correspondence.Names (R : Correspondence k) (refs : String → Prop)
    (names names' : String → Parser Value) : Prop where
  related (name : String) :
    refs name → (names name).Related (Value.ShiftedBy k) R (names' name)
  left (name : String) : refs name → (names name).Obeys (.confined False)
  right (name : String) : refs name → (names' name).Obeys (.confined False)

/-- A permit for grammars that may be run at a distance: a constant is the same from both places. -/
structure Permit.Movable (permit : Permit) (k : Int) : Prop where
  fits : permit.Fits (.confined False)
  constant (value : Value) : permit.constant value → value.ShiftedBy k value

/-- A permit for constants without tags, and everything else. -/
def Permit.untagged : Permit where
  constant := Value.Untagged

/-- A constant without tags is the same from everywhere. -/
theorem Permit.untagged_movable (k : Int) : Permit.untagged.Movable k :=
  ⟨Discipline.confined_fits (fun _ => id) fun _ => id, fun _ => Value.Untagged.shiftedBy⟩

/-- At no distance, every constant is the same. -/
theorem Permit.movable_zero {permit : Permit} (h : permit.Fits (.confined False)) :
    permit.Movable 0 :=
  ⟨h, fun value _ => .refl value⟩

variable {permit : Permit}

open Wire.Parser

mutual

/-- The runs of a grammar whose constants may be moved correspond. -/
theorem Grammar.parser_related (hmove : permit.Movable k) (h : R.Names refs names names') :
    ∀ g : Grammar, g.Permitted permit refs →
      (g.parser names).Related (Value.ShiftedBy k) R (g.parser names')
  | .byte, _ => (related_byteWhere _ _).byteValue
  | .exactly _, _ => (related_byteWhere _ _).byteValue
  | .between _ _, _ => (related_byteWhere _ _).byteValue
  | .oneOf _, _ => (related_byteWhere _ _).byteValue
  | .sequence _, _ => (related_sequence _).bytesValue
  | .bytes _, _ => (related_bytes _).bytesValue
  | .masked _ _ _, _ => (related_byteWhere _ _).byteValue
  | .integer _ _, _ => (related_integer _ _).map fun _ _ h => h ▸ .int _
  | .binary _ _, _ => (related_binary _ _).map fun _ _ h => h ▸ .binary _ _
  | .wordOf _ g, hg =>
    (((g.parser_related hmove h hg).map fun _ _ hv => hv.toBytes).wordOf _).map
      fun _ _ h => h ▸ .int _
  | .constant _, hg => related_pure (hmove.constant _ hg)
  | .fail _ _ _ _, _ => related_failAhead _ _ _ _
  | .capital, _ => related_capital.byteValue
  | .skip _, _ => (related_skip _).map fun _ _ h => h ▸ .int _
  | .narrow _, _ => (related_narrow _).map fun _ _ _ => .null
  | .rest, _ => related_rest.bytesValue
  | .peek g, hg => (g.parser_related hmove h hg).peek
  | .ref name, hg => h.related name hg
  | .transform t g, hg => (g.parser_related hmove h hg).map fun _ _ hv => hv.apply t
  | .replace _ g, hg => (g.parser_related hmove h hg.2).map fun _ _ _ => hmove.constant _ hg.1
  | .both g g', hg => ((g.parser_related hmove h hg.1).both (g'.parser_related hmove h hg.2)).map
      fun _ _ hv => .pair hv.1 hv.2
  | .andThen g k, hg =>
    (g.parser_related hmove h hg.1).bind fun _ _ hv => k.parser_related hmove h hv hg.2
  | .singleton g, hg => ((g.parser_related hmove h hg).map fun _ _ hv => .cons hv .nil).listValue
  | .many g, hg =>
    ((g.parser_related hmove h hg).many (g.parser_obeys hmove.fits h.left hg)).listValue
  | .manyCommit g, hg =>
    ((g.parser_related hmove h hg).manyCommit (g.parser_obeys hmove.fits h.left hg)).listValue
  | .repeated g _ _, hg => ((g.parser_related hmove h hg.2).repeatedBetween _ _).listValue
  | .append g g', hg => (((g.parser_related hmove h hg.1).map fun _ _ hv => hv.items).append
      ((g'.parser_related hmove h hg.2).map fun _ _ hv => hv.items)).listValue
  | .orElse g g', hg => (g.parser_related hmove h hg.1).choose (g'.parser_related hmove h hg.2) _
  | .orCommit g g', hg => (g.parser_related hmove h hg.1).choose (g'.parser_related hmove h hg.2) _
  | .butNot g g', hg => (g.parser_related hmove h hg.1).butNot (g'.parser_related hmove h hg.2)
  | .upTo g g', hg => ((g.parser_related hmove h hg.1).upTo (g'.parser_related hmove h hg.2)
      (g.parser_obeys hmove.fits h.left hg.1)
      (g'.parser_obeys hmove.fits h.left hg.2)).listValue
  | .toEnd g, hg => (g.parser_related hmove h hg).toEnd
  | .within _ g, hg => (g.parser_related hmove h hg).within _
  | .withDigest g _, hg => (g.parser_related hmove h hg).withDigest
      (g.parser_obeys hmove.fits h.left hg)
      (g.parser_obeys hmove.fits h.right hg) _
  | .satisfying g predicate _, hg =>
    (g.parser_related hmove h hg).satisfying (fun _ _ hv => hv.holds predicate) _
  | .intInRange g _ _, hg =>
    (((g.parser_related hmove h hg).map fun _ _ hv => hv.toInt).inRange _ _).map
      fun _ _ h => h ▸ .int _
  | .binaryInRange _ _ _ _, _ => ((related_binary _ _).inRange _ _).map
      fun _ _ h => h ▸ .binary _ _
  | .spanned g, hg => ((g.parser_related hmove h hg).spanned
      (g.parser_obeys hmove.fits h.left hg)
      (g.parser_obeys hmove.fits h.right hg)).map
      fun v w hv => by
        rw [← hv.bytes]
        exact .tagged _ hv.value hv.start

/-- The runs of a continuation correspond, also when the values that it goes on with are at a
distance. -/
theorem Continuation.parser_related (hmove : permit.Movable k) (h : R.Names refs names names')
    {v w : Value} (hv : v.ShiftedBy k w) :
    ∀ g : Continuation, g.Permitted permit refs →
      (g.parser names v).Related (Value.ShiftedBy k) R (g.parser names' w)
  | .bytes, _ => by
    unfold Continuation.parser
    rw [hv.toCount]
    exact (related_bytes _).bytesValue
  | .same, _ => by
    unfold Continuation.parser
    rw [hv.toByte]
    exact (related_byteWhere _ _).byteValue
  | .within g, hg => by
    unfold Continuation.parser
    rw [hv.toCount]
    exact g.checked_related ((g.parser_related hmove h hg).within _)
  | .repeated g, hg => by
    unfold Continuation.parser
    rw [hv.toCount]
    exact g.checked_related ((g.parser_related hmove h hg).repeated _).listValue
  | .repeatedUpTo g _, hg => by
    unfold Continuation.parser
    rw [hv.toCount]
    exact g.checked_related ((g.parser_related hmove h hg.2).repeatedBetween _ _).listValue
  | .value, _ => related_pure hv
  | .always g, hg => g.checked_related (g.parser_related hmove h hg)
  | .pair g, hg => g.checked_related ((g.parser_related hmove h hg).map fun _ _ hw => .pair hv hw)
  | .select _ g g', hg => by
    unfold Continuation.parser
    rw [hv.toInt]
    split
    · exact g.checked_related (g.parser_related hmove h hg.1)
    · exact g'.parser_related hmove h hv hg.2

end

variable {defs : Definitions}

/-- One more nested reference on both sides keeps the meanings of the names in correspondence. -/
theorem Definitions.parser_succ_related (hmove : permit.Movable k)
    (hdefs : defs.Permitted permit refs) {m n : Nat}
    (h : R.Names refs (defs.parser m) (defs.parser n)) :
    R.Names refs (defs.parser (m + 1)) (defs.parser (n + 1)) := by
  refine ⟨fun name hname => ?_, parser_obeys hmove.fits hdefs _, parser_obeys hmove.fits hdefs _⟩
  rw [Definitions.parser, Definitions.parser]
  split
  · exact related_abandon _
  · next g hg =>
    exact g.checked_related (g.parser_related hmove h (hdefs.grammar name g hname hg))

/-- The meanings of the names correspond at every depth of nested references. -/
theorem Definitions.parser_related (hmove : permit.Movable k) (hdefs : defs.Permitted permit refs) :
    ∀ depth, R.Names refs (defs.parser depth) (defs.parser depth)
  | 0 => ⟨fun _ _ => related_abandon _, parser_obeys hmove.fits hdefs 0,
      parser_obeys hmove.fits hdefs 0⟩
  | depth + 1 => parser_succ_related hmove hdefs (Definitions.parser_related hmove hdefs depth)

end

end Wire
