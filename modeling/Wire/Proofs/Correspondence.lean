import Mathlib.Data.List.Forall2
import Wire.Proofs.Confinement

/-!
# Corresponding runs

Two cursors are twins when they have the same bytes to read, be it in two buffers or at two places
of one (`Cursor.Twin`). Two runs from twins correspond when they end in the same way, with related
values and again at twins (`Outcome.Corresponds`), and two parsers are related when all their runs
from twins correspond (`Parser.Related`). Every parser of the library is related when its parts are.
The twins may be held to more than their bytes, as long as that carries over to the cursors inside
them, and a run that is abandoned for some faults may correspond to any other (`Correspondence`).
-/

namespace Wire

variable {α α' β β' : Type} {k : Int}

/-! ## Twins -/

/-- Two valid cursors at a distance, with the same unread bytes. -/
structure Cursor.Twin (k : Int) (c d : Cursor) : Prop where
  left : c.Valid
  right : d.Valid
  position : (d.position : Int) = c.position + k
  unread : c.unread = d.unread

namespace Cursor.Twin

variable {c c' d d' : Cursor}

/-- The limits of twins are at their distance as well. -/
theorem limit (h : c.Twin k d) : (d.limit : Int) = c.limit + k := by
  have := length_unread h.left
  have := length_unread h.right
  have := h.left.1
  have := h.right.1
  have := h.position
  have := congrArg List.length h.unread
  omega

/-- Valid cursors with the same unread bytes are twins at the distance of their positions. -/
theorem of_unread (hc : c.Valid) (hd : d.Valid) (h : c.unread = d.unread) :
    c.Twin (d.position - c.position) d :=
  ⟨hc, hd, by omega, h⟩

/-- Cursors inside twins are twins when they are at the same distance. -/
theorem inside (h : c.Twin k d) (hc : c'.Inside c) (hd : d'.Inside d)
    (hp : (d'.position : Int) = c'.position + k) (hl : (d'.limit : Int) = c'.limit + k) :
    c'.Twin k d' := by
  refine ⟨hc.valid h.left, hd.valid h.right, hp, ?_⟩
  have := h.position
  have := hc.start
  have := hd.start
  have hdrop : d'.position - d.position = c'.position - c.position := by omega
  have htake : d'.limit - d'.position = c'.limit - c'.position := by omega
  rw [hc.unread_eq, hd.unread_eq, h.unread, hdrop, htake]

end Cursor.Twin

/-- A relation of twins, those of one side all in one buffer, that carries over to the twins inside
them. A fault may be counted as a loss: nothing is asked of a run when its counterpart is lost. -/
structure Correspondence (k : Int) where
  rel : Cursor → Cursor → Prop
  lost : Fault → Prop
  twin {c d : Cursor} : rel c d → c.Twin k d
  data {c c' d d' : Cursor} : rel c d → rel c' d' → c'.data = c.data ∧ d'.data = d.data
  inner {c c' d d' : Cursor} : rel c d → c'.Inside c → d'.Inside d → c'.Twin k d' → rel c' d'

namespace Correspondence

variable (R : Correspondence k) {c c' d d' : Cursor}

/-- On either side a cursor is at the place of another one, or on none. -/
theorem samePlace_eq (h : R.rel c d) (h' : R.rel c' d') :
    d'.samePlace d = c'.samePlace c := by
  obtain ⟨hc, hd⟩ := R.data h h'
  have := (R.twin h).position
  have := (R.twin h').position
  rw [Bool.eq_iff_iff, Cursor.samePlace_iff_of_data hc, Cursor.samePlace_iff_of_data hd]
  omega

/-- Moves over one distance lead from related cursors to related cursors. -/
theorem advance (h : R.rel c d) {n : Nat} (hn : c.position + n ≤ c.limit) :
    R.rel (c.advance n) (d.advance n) := by
  have ht := R.twin h
  have := ht.position
  have := ht.limit
  have hc : (c.advance n).Inside c := Cursor.advance_inside hn
  have hd : (d.advance n).Inside d := Cursor.advance_inside (by omega)
  refine R.inner h hc hd (ht.inside hc hd ?_ ht.limit)
  simp only [Cursor.advance_position]
  omega

/-- So do moves that stop at the limit. -/
theorem skip (h : R.rel c d) (n : Nat) : R.rel (c.skip n) (d.skip n) := by
  have ht := R.twin h
  have := ht.position
  have := ht.limit
  have hc : (c.skip n).Inside c := Cursor.skip_inside ht.left
  have hd : (d.skip n).Inside d := Cursor.skip_inside ht.right
  refine R.inner h hc hd (ht.inside hc hd ?_ ht.limit)
  simp only [Cursor.skip_position]
  omega

/-- Windows of one size over related cursors are related. -/
theorem windowed (h : R.rel c d) (n : Nat) : R.rel (c.windowed n) (d.windowed n) := by
  have ht := R.twin h
  have := ht.position
  have := ht.limit
  have hc : (c.windowed n).Inside c := Cursor.windowed_inside ht.left
  have hd : (d.windowed n).Inside d := Cursor.windowed_inside ht.right
  refine R.inner h hc hd (ht.inside hc hd ht.position ?_)
  simp only [Cursor.windowed_limit]
  omega

end Correspondence

/-! ## Failures and outcomes -/

/-- Two failures say the same about related places. -/
structure Failure.Related (R : Cursor → Cursor → Prop) (f g : Failure) : Prop where
  kind : f.kind = g.kind
  message : f.message = g.message
  expectations : f.expectations = g.expectations
  remainder : R f.remainder g.remainder

/-- Two runs correspond: they end with related values at related cursors, with failures that say the
same about related places, or with the same fault, or the left one is lost. -/
inductive Outcome.Corresponds (R : Correspondence k) (V : α → β → Prop) :
    Outcome α → Outcome β → Prop
  | success {v : α} {w : β} {r s : Cursor} :
    V v w → R.rel r s → Corresponds R V (.success v r) (.success w s)
  | failure {f g : Failure} : f.Related R.rel g → Corresponds R V (.failure f) (.failure g)
  | fault (reason : Fault) : Corresponds R V (.fault reason) (.fault reason)
  | lost {reason : Fault} {o : Outcome β} : R.lost reason → Corresponds R V (.fault reason) o

/-- Two spanned values with the same bytes, at a distance. -/
structure Spanned.Related (V : α → α' → Prop) (k : Int) (v : Spanned α)
    (w : Spanned α') : Prop where
  value : V v.value w.value
  bytes : v.bytes = w.bytes
  start : (w.start : Int) = v.start + k

/-- Two parsers whose runs from related cursors correspond. -/
def Parser.Related (V : α → β → Prop) (R : Correspondence k) (p : Parser α) (q : Parser β) : Prop :=
  ∀ c d, R.rel c d → (p c).Corresponds R V (q d)

section
variable {R : Correspondence k} {c d : Cursor} {V : α → α' → Prop} {W : β → β' → Prop}

namespace Failure.Related

variable {f f' g g' : Failure}

/-- Related failures are related with one more expectation. -/
theorem expecting (h : f.Related R.rel g) (e : String) :
    (f.expecting e).Related R.rel (g.expecting e) := by
  unfold Failure.expecting
  rw [← h.expectations]
  split
  · exact h
  · exact ⟨h.kind, h.message, rfl, h.remainder⟩

/-- Related failures are related with more expectations. -/
theorem expectingAll (h : f.Related R.rel g) (es : List String) :
    (f.expectingAll es).Related R.rel (g.expectingAll es) := by
  unfold Failure.expectingAll
  induction es generalizing f g with
  | nil => exact h
  | cons e es ih => exact ih (h.expecting e)

/-- The same one of two failures got further on both sides. -/
theorem furthest (hf : f.Related R.rel f') (hg : g.Related R.rel g') :
    (f.furthest g).Related R.rel (f'.furthest g') := by
  have := (R.twin hf.remainder).position
  have := (R.twin hg.remainder).position
  have hlt : f'.position < g'.position ↔ f.position < g.position := by
    unfold Failure.position; omega
  have heq : g'.position = f'.position ↔ g.position = f.position := by
    unfold Failure.position; omega
  unfold Failure.furthest
  simp only [hlt, heq, ← hg.expectations]
  split
  · exact hg
  · split
    · exact hf.expectingAll _
    · exact hf

/-- The end of a window is before the limit on both sides or on none. -/
theorem relabel {size : Nat} (hcd : R.rel c d) (h : f.Related R.rel g) :
    (Parser.relabel (c.windowed size) c f).Related R.rel
      (Parser.relabel (d.windowed size) d g) := by
  have := (R.twin h.remainder).position
  have := (R.twin (R.windowed hcd size)).limit
  have := (R.twin hcd).limit
  have hpos : g.position = (d.windowed size).limit ↔ f.position = (c.windowed size).limit := by
    unfold Failure.position; omega
  have hlt : (d.windowed size).limit < d.limit ↔ (c.windowed size).limit < c.limit := by omega
  unfold Parser.relabel
  simp only [hpos, hlt, ← h.kind]
  split
  · exact ⟨rfl, h.message, h.expectations, h.remainder⟩
  · exact h

end Failure.Related

/-- Outcomes correspond when those do that they go on from, and so do the runs that go on from
related values. -/
theorem Outcome.Corresponds.bind {o : Outcome α} {o' : Outcome α'} (ho : o.Corresponds R V o')
    {f : α → Cursor → Outcome β} {f' : α' → Cursor → Outcome β'}
    (hf : ∀ v w r s, o = .success v r → o' = .success w s → V v w → R.rel r s →
      (f v r).Corresponds R W (f' w s)) :
    (o.bind f).Corresponds R W (o'.bind f') := by
  cases ho with
  | success hv hr => exact hf _ _ _ _ rfl rfl hv hr
  | failure h => exact .failure h
  | fault reason => exact .fault reason
  | lost h => exact .lost h

/-- Outcomes with changed values correspond when the changes keep values related. -/
theorem Outcome.Corresponds.map {o : Outcome α} {o' : Outcome α'} (ho : o.Corresponds R V o')
    {f : α → β} {f' : α' → β'} (hf : ∀ v w, V v w → W (f v) (f' w)) :
    (o.map f).Corresponds R W (o'.map f') := by
  cases ho with
  | success hv hr => exact .success (hf _ _ hv) hr
  | failure h => exact .failure h
  | fault reason => exact .fault reason
  | lost h => exact .lost h

namespace Parser

variable {p : Parser α} {p' : Parser α'}

/-! ## Sequences -/

/-- Related constants are related parsers. -/
theorem related_pure {v : α} {w : α'} (h : V v w) :
    Related V R (pure v : Parser α) (pure w) :=
  fun _ _ hcd => .success h hcd

/-- To abandon a run for a fault is the same everywhere. -/
theorem related_abandon (reason : Fault) :
    Related V R (abandon reason : Parser α) (abandon reason : Parser α') :=
  fun _ _ _ => .fault reason

/-- A value that is computed, or a fault, is the same everywhere. -/
theorem related_ofChecked (value : Checked α) :
    Related Eq R (ofChecked value) (ofChecked value) := by
  intro c d hcd
  cases value with
  | ok v => exact .success rfl hcd
  | error reason => exact .fault reason

/-- Two parsers in a row are related when the first ones are and those that related values
choose. -/
theorem Related.bind (hp : Related V R p p') {f : α → Parser β} {f' : α' → Parser β'}
    (hf : ∀ v w, V v w → Related W R (f v) (f' w)) :
    Related W R (p >>= f) (p' >>= f') := fun c d hcd =>
  (hp c d hcd).bind fun v w r s _ _ hv hr => hf v w hv r s hr

/-- Parsers with changed values are related when the changes keep values related. -/
theorem Related.map (hp : Related V R p p') {f : α → β} {f' : α' → β'}
    (hf : ∀ v w, V v w → W (f v) (f' w)) : Related W R (f <$> p) (f' <$> p') := fun c d hcd =>
  (hp c d hcd).bind fun v w _ _ _ _ hv hr => .success (hf v w hv) hr

/-- Pairs of parsers are related when both parts are. -/
theorem Related.both {q : Parser β} {q' : Parser β'} (hp : Related V R p p')
    (hq : Related W R q q') :
    Related (fun v w => V v.1 w.1 ∧ W v.2 w.2) R (both p q) (both p' q') :=
  hp.bind fun _ _ hv => hq.bind fun _ _ hw => related_pure ⟨hv, hw⟩

/-- Two parsers of lists in a row are related when both parts are. -/
theorem Related.append {p q : Parser (List α)} {p' q' : Parser (List α')}
    (hp : Related (List.Forall₂ V) R p p') (hq : Related (List.Forall₂ V) R q q') :
    Related (List.Forall₂ V) R (append p q) (append p' q') :=
  hp.bind fun _ _ hv => hq.bind fun _ _ hw => related_pure (List.rel_append hv hw)

/-- Parsers that are only looked at are related when they are. -/
theorem Related.peek (hp : Related V R p p') : Related V R (peek p) (peek p') :=
  fun c d hcd => (hp c d hcd).bind fun _ _ _ _ _ _ hv _ => .success hv hcd

/-! ## Bytes -/

/-- The end of the input is the same failure at related cursors. -/
theorem related_endOfInput (hcd : R.rel c d) :
    (Failure.endOfInput c).Related R.rel (.endOfInput d) :=
  ⟨rfl, rfl, rfl, hcd⟩

/-- A byte that was not expected is the same failure at related cursors. -/
theorem related_unexpectedByte (hcd : R.rel c d) (b : UInt8) :
    (Failure.unexpectedByte b c).Related R.rel (.unexpectedByte b d) :=
  ⟨rfl, rfl, rfl, hcd⟩

/-- The byte at related cursors is the same. -/
theorem related_current : Related Eq R current current := by
  intro c d hcd
  have ht := R.twin hcd
  rw [current_eq ht.left, current_eq ht.right, ← ht.unread]
  cases c.unread with
  | nil => exact .failure (related_endOfInput hcd)
  | cons b bs => exact .success rfl hcd

/-- Twins go over one byte together. -/
theorem related_advance_one (hcd : R.rel c d) {b : UInt8} {bs : List UInt8}
    (hu : c.unread = b :: bs) : R.rel (c.advance 1) (d.advance 1) := by
  have hlen := Cursor.length_unread (R.twin hcd).left
  rw [hu, List.length_cons] at hlen
  exact R.advance hcd (by omega)

/-- A byte under a condition is related to itself. -/
theorem related_byteWhere (accept : UInt8 → Bool) (description : String) :
    Related Eq R (byteWhere accept description) (byteWhere accept description) := by
  intro c d hcd
  have ht := R.twin hcd
  rw [byteWhere_eq ht.left, byteWhere_eq ht.right, ← ht.unread]
  cases hu : c.unread with
  | nil => exact .failure ((related_endOfInput hcd).expecting _)
  | cons b bs =>
    dsimp only
    split
    · exact .success rfl (related_advance_one hcd hu)
    · exact .failure ((related_unexpectedByte hcd b).expecting _)

/-- Given bytes are related to themselves. -/
theorem related_sequence : ∀ bs, Related Eq R (sequence bs) (sequence bs)
  | [] => related_pure rfl
  | _ :: bs => (related_byteWhere _ _).bind fun _ _ h =>
      (related_sequence bs).bind fun _ _ h' => related_pure (h ▸ h' ▸ rfl)

/-- A number of bytes is related to itself. -/
theorem related_bytes (count : Nat) : Related Eq R (bytes count) (bytes count) := by
  intro c d hcd
  have ht := R.twin hcd
  have hlen := Cursor.length_unread ht.left
  have := ht.left.1
  rw [bytes_eq ht.left, bytes_eq ht.right, ← ht.unread]
  split
  · exact .success rfl (R.advance hcd (by omega))
  · exact .failure ⟨rfl, rfl, rfl, hcd⟩

/-- An integer is related to itself. -/
theorem related_integer (t : IntegerType) (order : ByteOrder) :
    Related Eq R (integer t order) (integer t order) :=
  (related_bytes _).bind fun _ _ h => h ▸ related_ofChecked _

/-- A floating-point number is related to itself. -/
theorem related_binary (f : BinaryFormat) (order : ByteOrder) :
    Related Eq R (binary f order) (binary f order) :=
  (related_bytes _).bind fun _ _ h => h ▸ related_ofChecked _

/-- Numbers of two bytes are related when the parsers of the bytes are. -/
theorem Related.wordOf {p p' : Parser (List UInt8)} (hp : Related Eq R p p')
    (order : ByteOrder) : Related Eq R (wordOf order p) (wordOf order p') := by
  intro c d hcd
  refine (hp c d hcd).bind fun v w r s _ _ hv hr => ?_
  subst hv
  split
  · exact related_ofChecked _ r s hr
  · exact .failure ⟨rfl, rfl, rfl, hcd⟩

/-! ## Limits -/

/-- To lower the limit is related to itself. -/
theorem related_narrow (size : Nat) : Related Eq R (narrow size) (narrow size) :=
  fun _ _ hcd => .success rfl (R.windowed hcd size)

/-- To skip bytes is related to itself. -/
theorem related_skip (count : Nat) : Related Eq R (skip count) (skip count) := by
  intro c d hcd
  have := (R.twin hcd).position
  have := (R.twin hcd).limit
  have := (R.twin hcd).left.1
  refine .success ?_ (R.skip hcd count)
  simp only [Cursor.skip_position]
  omega

/-- To take all bytes before the limit is related to itself. -/
theorem related_rest : Related Eq R rest rest := by
  intro c d hcd
  have ht := R.twin hcd
  have hc : Cursor.Inside { c with position := c.limit } c := ⟨rfl, ht.left.1, le_rfl, le_rfl⟩
  have hd : Cursor.Inside { d with position := d.limit } d := ⟨rfl, ht.right.1, le_rfl, le_rfl⟩
  rw [rest_eq c ht.left, rest_eq d ht.right]
  exact .success ht.unread (R.inner hcd hc hd (ht.inside hc hd ht.limit ht.limit))

/-- Parsers that must reach the end are related when they are. -/
theorem Related.toEnd (hp : Related V R p p') : Related V R (toEnd p) (toEnd p') := by
  intro c d hcd
  refine (hp c d hcd).bind fun v w r s _ _ hv hr => ?_
  have hcur := related_current r s hr
  generalize current r = o, current s = o' at hcur ⊢
  cases hcur with
  | success hb _ => exact .failure (hb ▸ (related_unexpectedByte hr _).expecting _)
  | failure => exact .success hv hr
  | fault reason => exact .fault reason
  | lost h => exact .lost h

/-- Parsers in windows of one size are related when they are. -/
theorem Related.within (hp : Related V R p p') (size : Nat) :
    Related V R (within size p) (within size p') := by
  intro c d hcd
  have hrun := hp _ _ (R.windowed hcd size)
  unfold Parser.within
  generalize p (c.windowed size) = o, p' (d.windowed size) = o' at hrun ⊢
  cases hrun with
  | success hv _ =>
    have ht := R.twin hcd
    have hleft : d.limit - d.position = c.limit - c.position := by
      have := ht.position
      have := ht.limit
      omega
    simp only [Cursor.remaining_eq ht.left, Cursor.remaining_eq ht.right, hleft]
    split
    · exact .failure ((related_endOfInput (R.skip hcd size)).expecting _)
    · exact .success hv (R.skip hcd size)
  | failure h => exact .failure (h.relabel hcd)
  | fault reason => exact .fault reason
  | lost h => exact .lost h

/-! ## Repetition -/

/-- A related parser moves on from twins on both sides or on none. The left one is confined, so
neither run is abandoned for going back. -/
theorem Related.collect (hp : Related V R p p') (hobeys : p.Obeys (.confined False))
    (found : Array α) (c : Cursor) (found' : Array α') (d : Cursor) (hcd : R.rel c d)
    (hfound : List.Forall₂ V found.toList found'.toList) :
    Outcome.Corresponds R (fun vs ws => List.Forall₂ V vs.toList ws.toList)
      (Parser.collect p found c) (Parser.collect p' found' d) := by
  have hrun := hp c d hcd
  rw [Parser.collect.eq_def p' found' d]
  fun_induction Parser.collect p found c generalizing found' d with
  | case1 found c v r hpc hsame =>
    rw [hpc] at hrun
    generalize p' d = o' at hrun ⊢
    cases hrun with
    | success _ hr =>
      rw [← R.samePlace_eq hcd hr] at hsame
      dsimp only
      rw [if_pos hsame]
      exact .success hfound hcd
  | case2 found c v r hpc hmoved hless ih =>
    rw [hpc] at hrun
    generalize p' d = o' at hrun ⊢
    cases hrun with
    | @success _ w _ s hv hr =>
      have := (R.twin hcd).position
      have := (R.twin hcd).limit
      have := (R.twin hr).position
      have := (R.twin hr).limit
      rw [← R.samePlace_eq hcd hr] at hmoved
      have hless' : s.limit - s.position < d.limit - d.position := by omega
      dsimp only
      rw [if_neg hmoved, if_pos hless', Parser.collect.eq_def p' (found'.push w) s]
      refine ih (found'.push w) s hr ?_ (hp r s hr)
      rw [Array.toList_push, Array.toList_push]
      exact List.rel_append hfound (.cons hv .nil)
  | case3 found c v r hpc hmoved hback =>
    have hr := hobeys c (R.twin hcd).left
    rw [hpc] at hr
    have hin : r.Inside c := hr.inside
    have := hin.lt_of_not_samePlace (Bool.eq_false_iff.2 hmoved)
    have := hin.order
    have := hin.stop
    omega
  | case4 found c f hpc =>
    rw [hpc] at hrun
    generalize p' d = o' at hrun ⊢
    cases hrun with
    | failure _ => exact .success hfound hcd
  | case5 found c reason hpc =>
    rw [hpc] at hrun
    generalize p' d = o' at hrun ⊢
    cases hrun with
    | fault => exact .fault reason
    | lost h => exact .lost h

/-- Repetitions of related parsers are related. -/
theorem Related.many (hp : Related V R p p') (hobeys : p.Obeys (.confined False)) :
    Related (List.Forall₂ V) R (many p) (many p') := fun c d hcd =>
  (hp.collect hobeys #[] c #[] d hcd .nil).map fun _ _ h => h

/-- So are repetitions that look at the failure which ended them: it is at the place of the end on
both sides or on none. -/
theorem Related.manyCommit (hp : Related V R p p') (hobeys : p.Obeys (.confined False)) :
    Related (List.Forall₂ V) R (manyCommit p) (manyCommit p') := by
  intro c d hcd
  refine (hp.many hobeys c d hcd).bind fun vs ws r s _ _ hvs hr => ?_
  have hrun := hp r s hr
  generalize p r = o, p' s = o' at hrun ⊢
  cases hrun with
  | success => exact .success hvs hr
  | failure h =>
    dsimp only
    rw [R.samePlace_eq hr h.remainder]
    split
    · exact .success hvs hr
    · exact .failure h
  | fault reason => exact .fault reason
  | lost h => exact .lost h

/-- A repetition that ends too early fails in the same way at related starts. -/
theorem related_countUnmet (hcd : R.rel c d) {f g : Failure} (h : f.Related R.rel g)
    (bounds : Bounds) (count : Nat) :
    Outcome.Corresponds R V (countUnmet bounds count f c) (countUnmet bounds count g d) := by
  have hcur := related_current _ _ h.remainder
  unfold countUnmet
  generalize current f.remainder = o, current g.remainder = o' at hcur ⊢
  cases hcur with
  | success hb _ =>
    refine .failure ⟨rfl, ?_, ?_, hcd⟩
    · simp only [Failure.boundedCountUnmet, hb]
    · simp only [Failure.boundedCountUnmet, h.expectations]
  | failure =>
    refine .failure ⟨rfl, rfl, ?_, hcd⟩
    simp only [Failure.boundedCountUnmet, h.expectations]
  | fault reason => exact .fault reason
  | lost h => exact .lost h

/-- The loops of bounded repetitions of related parsers correspond, from related cursors and with
related values found so far. -/
theorem Related.repeatedFrom (hp : Related V R p p') (bounds : Bounds) {start start' : Cursor}
    (hstart : R.rel start start') :
    ∀ (left : Nat) (found : Array α) (found' : Array α') (c d : Cursor), R.rel c d →
      List.Forall₂ V found.toList found'.toList →
      Outcome.Corresponds R (fun vs ws => List.Forall₂ V vs.toList ws.toList)
        (repeatedFrom p bounds start left found c) (repeatedFrom p' bounds start' left found' d)
  | 0, _, _, _, _, hcd, hfound => .success hfound hcd
  | left + 1, found, found', c, d, hcd, hfound => by
    have hrun := hp c d hcd
    rw [Parser.repeatedFrom, Parser.repeatedFrom]
    generalize p c = o, p' d = o' at hrun ⊢
    cases hrun with
    | success hv hr =>
      refine hp.repeatedFrom bounds hstart left _ _ _ _ hr ?_
      rw [R.samePlace_eq hcd hr]
      split
      · exact hfound
      · rw [Array.toList_push, Array.toList_push]
        exact List.rel_append hfound (.cons hv .nil)
    | failure h =>
      dsimp only
      split
      · exact related_countUnmet hstart h bounds _
      · exact .success hfound hcd
    | fault reason => exact .fault reason
    | lost h => exact .lost h

/-- Bounded repetitions of related parsers are related. -/
theorem Related.repeated (hp : Related V R p p') (bounds : Bounds) :
    Related (List.Forall₂ V) R (repeated p bounds) (repeated p' bounds) := fun c d hcd =>
  (hp.repeatedFrom bounds hcd bounds.max #[] #[] c d hcd .nil).map fun _ _ h => h

/-! ## Choice -/

/-- Choices between related alternatives are related: on both sides the first one stays, or on
none. -/
theorem Related.choose {q : Parser α} {q' : Parser α'} (hp : Related V R p p')
    (hq : Related V R q q') (commitment : Commitment) :
    Related V R (choose commitment p q) (choose commitment p' q') := by
  intro c d hcd
  have hfirst := hp c d hcd
  have hsecond := hq c d hcd
  unfold Parser.choose
  generalize p c = o, p' d = o' at hfirst ⊢
  generalize q c = u, q' d = u' at hsecond ⊢
  cases hfirst with
  | success hv hr =>
    dsimp only
    rw [R.samePlace_eq hcd hr]
    split
    · cases hsecond with
      | success hw hs => exact .success hw hs
      | failure => exact .success hv hr
      | fault reason => exact .fault reason
      | lost h => exact .lost h
    · exact .success hv hr
  | @failure f g h =>
    have hholds : commitment.holds g d = commitment.holds f c := by
      unfold Commitment.holds
      rw [R.samePlace_eq hcd h.remainder]
    dsimp only
    rw [hholds]
    split
    · exact .failure h
    · cases hsecond with
      | success hw hs => exact .success hw hs
      | failure h' => exact .failure (h.furthest h')
      | fault reason => exact .fault reason
      | lost h => exact .lost h
  | fault reason => exact .fault reason
  | lost h => exact .lost h

/-- Guarded parsers are related when they and their guards are. -/
theorem Related.butNot {guard : Parser β} {guard' : Parser β'} (hp : Related V R p p')
    (hguard : Related W R guard guard') :
    Related V R (butNot p guard) (butNot p' guard') := by
  intro c d hcd
  have hrun := hguard c d hcd
  unfold Parser.butNot
  generalize guard c = o, guard' d = o' at hrun ⊢
  cases hrun with
  | success => exact .failure ⟨rfl, rfl, rfl, hcd⟩
  | failure => exact hp c d hcd
  | fault reason => exact .fault reason
  | lost h => exact .lost h

/-- Items up to a terminator are related when both parsers are. -/
theorem Related.upTo {t : Parser β} {t' : Parser β'} (hp : Related V R p p')
    (ht : Related W R t t') (hobeys : p.Obeys (.confined False))
    (htobeys : t.Obeys (.confined False)) :
    Related (List.Forall₂ V) R (upTo p t) (upTo p' t') :=
  ((hp.butNot ht).many (hobeys.butNot (Discipline.confined_lawful _ _) htobeys)).bind
    fun _ _ hvs => ht.bind fun _ _ _ => related_pure hvs

/-! ## Checks and spans -/

/-- Parsers with a condition are related when the condition says the same of related values. -/
theorem Related.satisfying (hp : Related V R p p') {accept : α → Bool} {accept' : α' → Bool}
    (haccept : ∀ v w, V v w → accept v = accept' w) (description : String) :
    Related V R (satisfying p accept description) (satisfying p' accept' description) := by
  intro c d hcd
  rw [satisfying_eq, satisfying_eq]
  refine (hp c d hcd).bind fun v w r s _ _ hv hr => ?_
  rw [haccept v w hv]
  split
  · exact .success hv hr
  · exact .failure ⟨rfl, rfl, rfl, hcd⟩

/-- Twins have the same bytes up to the twins inside them. -/
theorem take_unread_eq (hcd : R.rel c d) {r s : Cursor} (hrs : R.rel r s) (hr : r.Inside c)
    (hs : s.Inside d) :
    d.unread.take (s.position - d.position) = c.unread.take (r.position - c.position) := by
  have ht := R.twin hcd
  have := ht.position
  have := (R.twin hrs).position
  have := hr.start
  have := hs.start
  have hcount : s.position - d.position = r.position - c.position := by omega
  rw [hcount, ht.unread]

/-- Parsers with a digest behind them are related when they are: the digest covers the same
bytes. -/
theorem Related.withDigest (hp : Related V R p p') (hobeys : p.Obeys (.confined False))
    (hobeys' : p'.Obeys (.confined False)) (checksum : Checksum) :
    Related V R (withDigest p checksum) (withDigest p' checksum) := by
  intro c d hcd
  have hc := hobeys.inside (R.twin hcd).left
  have hd := hobeys'.inside (R.twin hcd).right
  rw [withDigest_eq (R.twin hcd).left hc, withDigest_eq (R.twin hcd).right hd]
  refine (hp c d hcd).bind fun v w r s hrun hrun' hv hr => ?_
  dsimp only
  rw [take_unread_eq hcd hr (hc v r hrun) (hd w s hrun')]
  refine (related_bytes checksum.length r s hr).bind fun found found' e e' _ _ hfound he => ?_
  subst hfound
  split
  · exact .success hv he
  · exact .failure ⟨rfl, rfl, rfl, hr⟩

/-- Parsers with the bytes that they took are related when they are: these bytes are the same. -/
theorem Related.spanned (hp : Related V R p p') (hobeys : p.Obeys (.confined False))
    (hobeys' : p'.Obeys (.confined False)) :
    Related (Spanned.Related V k) R p.spanned p'.spanned := by
  intro c d hcd
  have hc := hobeys.inside (R.twin hcd).left
  have hd := hobeys'.inside (R.twin hcd).right
  rw [spanned_eq (R.twin hcd).left hc, spanned_eq (R.twin hcd).right hd]
  refine (hp c d hcd).bind fun v w r s hrun hrun' hv hr => ?_
  have htaken := take_unread_eq hcd hr (hc v r hrun) (hd w s hrun')
  exact .success ⟨hv, htaken.symm, (R.twin hcd).position⟩ hr

end Parser

end

end Wire
