import Mathlib.Data.Finset.Card
import Mathlib.Data.Finset.Prod
import Mathlib.Order.Interval.Finset.Nat
import Mathlib.Order.Monotone.Basic
import Wire.Proofs.Correspondence.Grammar

/-!
# The depth of references

A run is given a depth of nested references, and is abandoned when it asks for one more. At a
greater depth it goes on instead, and a run that did not ask for one more stays the same
(`Definitions.deepens_of_le`). So the names that settle their outcome at a cursor become more with
the depth. There are only so many names, positions and limits inside a cursor, and when a depth
settles no new one, no greater depth does. This is why the depth of `Grammar.run` is enough: at
every greater depth the outcome is the same, unless the references nest without an end and the run
settles at no depth at all (`Grammar.run_eq_of_depth`).
-/

namespace Wire

variable {α : Type}

namespace Outcome

/-- The run was abandoned because it asked for one more nested reference than it was allowed. -/
def Endless (o : Outcome α) : Prop :=
  ∃ name, o = .fault (.endlessReference name)

instance (o : Outcome α) : Decidable o.Endless :=
  match o with
  | .fault (.endlessReference name) => .isTrue ⟨name, rfl⟩
  | .success _ _ | .failure _ | .fault (.outOfBuffer _ _ _) | .fault (.pastLimit _ _)
  | .fault (.wrongWidth _ _) | .fault (.retreat _ _) | .fault (.unknownMark _)
  | .fault (.invertedBounds _ _) | .fault (.undefinedName _) =>
    .isFalse (by rintro ⟨name, h⟩; cases h)

variable {o o' : Outcome α} {v : α} {d : Cursor} {f : Failure}

/-- A success did not ask for more references. -/
theorem not_endless_of_success (h : o = .success v d) : ¬ o.Endless := by
  rintro ⟨name, rfl⟩
  cases h

/-- A failure did not ask for more references. -/
theorem not_endless_of_failure (h : o = .failure f) : ¬ o.Endless := by
  rintro ⟨name, rfl⟩
  cases h

/-- The outcome is also that of a run that may nest deeper: the same, if it did not ask to. -/
def ExtendsTo (o o' : Outcome α) : Prop :=
  ¬ o.Endless → o' = o

/-- An outcome that goes on to another one is settled only if the other one is. -/
theorem ExtendsTo.endless (h : o.ExtendsTo o') (ho : o'.Endless) : o.Endless := by
  by_contra hsettled
  rw [h hsettled] at ho
  exact hsettled ho

end Outcome

/-- The cursor in the same buffer at another position and under another limit. -/
def Cursor.placedAt (c : Cursor) (position limit : Nat) : Cursor :=
  { c with position, limit }

/-- Inside a cursor, position and limit tell the cursor. -/
theorem Cursor.Inside.eq_placedAt {c d : Cursor} (h : d.Inside c) :
    c.placedAt d.position d.limit = d := by
  obtain ⟨data, position, limit⟩ := d
  obtain rfl : data = c.data := h.data
  rfl

/-! ## One run at two depths -/

/-- The cursors inside a cursor correspond to themselves, and a run that asks for too deep a
reference is lost. -/
def Correspondence.deepening (c : Cursor) (hc : c.Valid) : Correspondence 0 where
  rel d d' := d' = d ∧ d.Inside c
  lost reason := ∃ name, reason = .endlessReference name
  twin := by
    rintro d _ ⟨rfl, hd⟩
    exact ⟨hd.valid hc, hd.valid hc, (Int.add_zero _).symm, rfl⟩
  data := by
    rintro d d' _ _ ⟨rfl, hd⟩ ⟨rfl, hd'⟩
    exact ⟨hd'.data.trans hd.data.symm, hd'.data.trans hd.data.symm⟩
  inner := by
    rintro d e _ e' ⟨rfl, hd⟩ he he' htwin
    have hposition := htwin.position
    have hlimit := htwin.limit
    refine ⟨?_, hd.trans he⟩
    obtain ⟨data, position, limit⟩ := e'
    obtain ⟨data', position', limit'⟩ := e
    obtain rfl : data = data' := he'.data.trans he.data.symm
    simp only [Cursor.mk.injEq, true_and]
    dsimp only at hposition hlimit
    omega

section
variable {c d : Cursor} {hc : c.Valid} {o o' : Outcome Value}

/-- Runs that correspond at two depths are the same run, if the less deep one is settled. -/
theorem Outcome.Corresponds.extendsTo
    (h : o.Corresponds (Correspondence.deepening c hc) (Value.ShiftedBy 0) o') :
    o.ExtendsTo o' := by
  intro hsettled
  cases h with
  | success hv hr => rw [hv.eq_of_zero, hr.1]
  | @failure f g h =>
    obtain ⟨kind, message, expectations, remainder⟩ := g
    obtain ⟨rfl, rfl, rfl, rfl, -⟩ := h
    rfl
  | fault reason => rfl
  | lost h =>
    obtain ⟨name, rfl⟩ := h
    exact absurd ⟨name, rfl⟩ hsettled

/-- A run that stays inside its start corresponds to what it goes on to. -/
theorem Outcome.ExtendsTo.corresponds (h : o.ExtendsTo o') (ho : o.Obeys (.confined False) d)
    (hd : d.Inside c) : o.Corresponds (Correspondence.deepening c hc) (Value.ShiftedBy 0) o' := by
  by_cases hsettled : o.Endless
  · obtain ⟨name, rfl⟩ := hsettled
    exact .lost ⟨name, rfl⟩
  · rw [h hsettled]
    cases o with
    | success v r => exact .success (.refl v) ⟨rfl, hd.trans ho.inside⟩
    | failure f => exact .failure ⟨rfl, rfl, rfl, rfl, hd.trans ho.1⟩
    | fault reason => exact .fault reason

end

/-- The parser of a grammar through at most so many nested references. -/
def Grammar.runTo (defs : Definitions) (depth : Nat) (g : Grammar) : Parser Value :=
  g.checked (g.parser (defs.parser depth))

namespace Definitions

variable {defs : Definitions} {c d : Cursor} {m n : Nat} {name : String}

/-- What names mean at some depth goes on to what they mean at another one, at all cursors inside a
cursor. -/
abbrev Deepens (defs : Definitions) {c : Cursor} (hc : c.Valid) (m n : Nat) : Prop :=
  (Correspondence.deepening c hc).Names (fun _ => True) (defs.parser m) (defs.parser n)

/-- A constant is the same at every depth. -/
theorem movable : Permit.Movable {} 0 :=
  Permit.movable_zero (Discipline.confined_fits (fun _ => id) fun _ => id)

/-- The meaning of a name is confined, at every depth. -/
theorem parser_obeys_confined (defs : Definitions) (n : Nat) (name : String) :
    (defs.parser n name).Obeys (.confined False) :=
  parser_obeys movable.fits (defs.permitted_of_open Permit.default_open) n name trivial

/-- To compare the meanings of names at two depths, compare their outcomes. -/
theorem deepens_of_extendsTo (hc : c.Valid)
    (h : ∀ name d, d.Inside c → (defs.parser m name d).ExtendsTo (defs.parser n name d)) :
    defs.Deepens hc m n := by
  refine ⟨fun name _ d d' hd => ?_, fun name _ => defs.parser_obeys_confined m name,
    fun name _ => defs.parser_obeys_confined n name⟩
  obtain ⟨rfl, hd⟩ := hd
  exact (h name d' hd).corresponds (defs.parser_obeys_confined m name d' (hd.valid hc)) hd

/-- What a name means at a cursor goes on to what it means at a depth that the first one deepens
to. -/
theorem Deepens.extendsTo {hc : c.Valid} (h : defs.Deepens hc m n) (hd : d.Inside c) :
    (defs.parser m name d).ExtendsTo (defs.parser n name d) :=
  (h.related name trivial d d ⟨rfl, hd⟩).extendsTo

/-- One more nested reference on both sides keeps the order of two depths. -/
theorem Deepens.succ {hc : c.Valid} (h : defs.Deepens hc m n) : defs.Deepens hc (m + 1) (n + 1) :=
  parser_succ_related movable (defs.permitted_of_open Permit.default_open) h

/-- A greater depth only adds to what is settled. -/
theorem deepens_of_le (defs : Definitions) (hc : c.Valid) (h : m ≤ n) : defs.Deepens hc m n := by
  induction m generalizing n with
  | zero => exact deepens_of_extendsTo hc fun name d _ hsettled => absurd ⟨name, rfl⟩ hsettled
  | succ m ih =>
    cases n with
    | zero => omega
    | succ n => exact (ih (Nat.le_of_succ_le_succ h)).succ

/-! ## Counting what is settled -/

/-- The names with the positions and limits that there are inside a cursor. -/
def sites (defs : Definitions) (c : Cursor) : Finset (String × Nat × Nat) :=
  (defs.map Prod.fst).toFinset ×ˢ Finset.Icc c.position c.limit ×ˢ Finset.Icc c.position c.limit

/-- The depth of a run is one more than the number of sites, or greater. -/
theorem card_sites_lt_depth (defs : Definitions) (c : Cursor) :
    (defs.sites c).card + 1 ≤ defs.depth c := by
  have hnames : (defs.map Prod.fst).toFinset.card ≤ defs.length := by
    simpa using List.toFinset_card_le (defs.map Prod.fst)
  have hwidth : c.limit + 1 - c.position ≤ c.limit - c.position + 1 := by omega
  rw [sites, Finset.card_product, Finset.card_product, Nat.card_Icc, depth]
  refine Nat.succ_le_succ (Nat.mul_le_mul hnames ?_)
  rw [Nat.pow_eq, Nat.pow_two]
  exact Nat.mul_le_mul hwidth hwidth

/-- The sites at which a depth settles what the name means there. -/
def settled (defs : Definitions) (c : Cursor) (n : Nat) :
    Finset (String × Nat × Nat) :=
  (defs.sites c).filter fun s => s.2.1 ≤ s.2.2 ∧
    ¬ (defs.parser n s.1 (c.placedAt s.2.1 s.2.2)).Endless

/-- Only sites are settled. -/
theorem settled_subset_sites (defs : Definitions) (c : Cursor) (n : Nat) :
    defs.settled c n ⊆ defs.sites c := by
  unfold settled
  exact Finset.filter_subset _ _

/-- A defined name at a cursor inside is a site. -/
theorem mem_sites (hd : d.Inside c) (hname : defs.lookup name ≠ none) :
    (name, d.position, d.limit) ∈ defs.sites c := by
  have hstart := hd.start
  have horder := hd.order
  have hstop := hd.stop
  obtain ⟨s, hs, hkey⟩ := List.lookup_isSome_iff.1 (Option.isSome_iff_ne_none.2 hname)
  simp only [sites, Finset.mem_product, List.mem_toFinset, Finset.mem_Icc]
  exact ⟨List.mem_map.2 ⟨s, hs, (beq_iff_eq.1 hkey).symm⟩, by omega, by omega⟩

/-- A site is settled when the meaning of its name is at its cursor. -/
theorem mem_settled (hd : d.Inside c) (hname : defs.lookup name ≠ none) :
    (name, d.position, d.limit) ∈ defs.settled c n ↔ ¬ (defs.parser n name d).Endless := by
  simp only [settled, Finset.mem_filter, mem_sites hd hname, hd.order, true_and, hd.eq_placedAt]

/-- What one depth settles, every depth settles that it goes on to. -/
theorem Deepens.settled_subset {hc : c.Valid} (h : defs.Deepens hc m n) :
    defs.settled c m ⊆ defs.settled c n := by
  intro s hs
  simp only [settled, Finset.mem_filter] at hs ⊢
  obtain ⟨hmem, horder, hsettled⟩ := hs
  refine ⟨hmem, horder, fun hendless => hsettled ?_⟩
  simp only [sites, Finset.mem_product, Finset.mem_Icc] at hmem
  have hd : (c.placedAt s.2.1 s.2.2).Inside c := ⟨rfl, hmem.2.1.1, horder, hmem.2.2.2⟩
  exact (h.extendsTo hd).endless hendless

/-- When a depth settles no more sites than a smaller one, names mean at the greater one what they
mean at the smaller. A name without a definition is settled from the first depth on. -/
theorem deepens_of_settled_subset (hc : c.Valid) (hmn : m ≤ n)
    (h : defs.settled c (n + 1) ⊆ defs.settled c (m + 1)) : defs.Deepens hc (n + 1) (m + 1) := by
  refine deepens_of_extendsTo hc fun name d hd hsettled => ?_
  by_cases hname : defs.lookup name = none
  · simp only [Definitions.parser, hname]
  · have hless : ¬ (defs.parser (m + 1) name d).Endless :=
      (mem_settled hd hname).1 (h ((mem_settled hd hname).2 hsettled))
    exact ((defs.deepens_of_le hc (Nat.succ_le_succ hmn)).extendsTo hd hless).symm

/-- From the number of sites on, one more than a depth settles no more sites: there are no more to
settle, and a depth that settles no new one is followed by none that does. -/
theorem card_settled_eq (hc : c.Valid) (hn : (defs.sites c).card ≤ n) :
    (defs.settled c (n + 1)).card = (defs.settled c ((defs.sites c).card + 1)).card := by
  have hmono (m n : Nat) (hmn : m ≤ n) : defs.settled c (m + 1) ⊆ defs.settled c (n + 1) :=
    (defs.deepens_of_le hc (Nat.succ_le_succ hmn)).settled_subset
  refine Nat.stabilises_of_monotone (f := fun n => (defs.settled c (n + 1)).card)
    (fun m n hmn => Finset.card_le_card (hmono m n hmn))
    (fun m => Finset.card_le_card (settled_subset_sites defs c _)) (fun m hm => ?_) hn
  have hsame : defs.settled c (m + 1) = defs.settled c (m + 2) :=
    Finset.eq_of_subset_of_card_le (hmono _ _ (Nat.le_succ m)) (Nat.le_of_eq hm.symm)
  have hback : defs.Deepens hc (m + 2) (m + 1) :=
    deepens_of_settled_subset hc (Nat.le_succ m) hsame.ge
  exact Nat.le_antisymm (Finset.card_le_card (hmono _ _ (Nat.le_succ _)))
    (Finset.card_le_card hback.succ.settled_subset)

/-- At the depth of a run, names mean what they mean at every other depth at which they are
settled. -/
theorem deepens_depth (hc : c.Valid) (n : Nat) : defs.Deepens hc n (defs.depth c) := by
  rcases Nat.le_total n (defs.depth c) with hle | hge
  · exact defs.deepens_of_le hc hle
  · -- Both depths are beyond the number of sites, so they settle the same sites.
    have hdepth := defs.card_sites_lt_depth c
    obtain ⟨k, hk⟩ : ∃ k, defs.depth c = k + 1 := ⟨_, rfl⟩
    obtain ⟨l, rfl⟩ := Nat.exists_eq_add_of_le' (Nat.le_trans (Nat.le_of_add_left_le hdepth) hge)
    rw [hk] at hdepth hge ⊢
    have hkl : k ≤ l := Nat.le_of_succ_le_succ hge
    have hcard : (defs.settled c (l + 1)).card = (defs.settled c (k + 1)).card := by
      rw [card_settled_eq hc (n := l) (by omega), card_settled_eq hc (n := k) (by omega)]
    have hsame : defs.settled c (k + 1) = defs.settled c (l + 1) :=
      Finset.eq_of_subset_of_card_le (defs.deepens_of_le hc hge).settled_subset hcard.le
    exact deepens_of_settled_subset hc hkl hsame.ge

end Definitions

namespace Grammar

variable {defs : Definitions} {g : Grammar} {c : Cursor} {m n : Nat}

/-- At another depth, a run goes on to what it is there. -/
theorem runTo_extendsTo {hc : c.Valid} (h : defs.Deepens hc m n) :
    (g.runTo defs m c).ExtendsTo (g.runTo defs n c) :=
  (g.checked_related (g.parser_related Definitions.movable h
    (g.permitted_of_open Permit.default_open)) c c ⟨rfl, .refl hc⟩).extendsTo

/-- A run that is settled at some depth, be it smaller or greater, is the run. -/
theorem run_eq_runTo (hc : c.Valid) (h : ¬ (g.runTo defs n c).Endless) :
    g.run defs c = g.runTo defs n c :=
  runTo_extendsTo (Definitions.deepens_depth hc n) h

/-- A run that nests references too deep does so at every depth. -/
theorem runTo_endless (hc : c.Valid) (h : (g.run defs c).Endless) (n : Nat) :
    (g.runTo defs n c).Endless :=
  (runTo_extendsTo (Definitions.deepens_depth hc n)).endless h

/-- The depth of a run is enough: at every greater depth the outcome is the same, or the references
nest without an end and there is no depth at which the run settles. -/
theorem run_eq_of_depth (hc : c.Valid) (hn : defs.depth c ≤ n) :
    g.runTo defs n c = g.run defs c ∨ ∀ m, (g.runTo defs m c).Endless := by
  by_cases hrun : (g.run defs c).Endless
  · exact .inr (runTo_endless hc hrun)
  · exact .inl (runTo_extendsTo (defs.deepens_of_le hc hn) hrun)

end Grammar

end Wire
