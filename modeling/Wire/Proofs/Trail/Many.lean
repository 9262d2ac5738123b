import Wire.Proofs.Trail

/-!
# Chains

`many` applies a parser for as long as it moves on. The applications that count are a chain
(`Parser.Chain`): each takes the position up, and where the last one left off no application moves
on any more. From every cursor there is just one chain, and it has no more applications than there
are bytes to read, so the loop ends (`Parser.exists_chain`). What `many` gives are the values and
the end of the chain (`Parser.many_eq_chain`); the application that stopped it leaves no trace, be
it a failure or a success that stayed at its place, which may have lowered the limit. So there is
nothing left to do for `many` where `many` has been.
-/

namespace Wire

variable {α β : Type}

/-- A success with a value at a cursor, unless an application ended there with a fault. -/
def Outcome.settle (o : Outcome α) (value : β) (c : Cursor) : Outcome β :=
  match o with
  | .fault reason => .fault reason
  | _ => .success value c

/-- Every outcome but a fault settles for the value. -/
theorem Outcome.settle_eq_success_iff {o : Outcome α} {value value' : β} {c d : Cursor} :
    o.settle value c = .success value' d ↔
      (∀ reason, o ≠ .fault reason) ∧ value = value' ∧ c = d := by
  cases o <;> simp [settle]

namespace Parser

/-- Applications that each take the position up, and after which none does. -/
structure Chain (p : Parser α) (c : Cursor) (as : List (Application α)) (d : Cursor) : Prop where
  trail : p.Trail c as d
  forward : ∀ a ∈ as, a.start.position < a.stop.position
  last : ∀ v e, p d = .success v e → e.position = d.position

variable {p : Parser α} {c d d' : Cursor} {as as' : List (Application α)}

namespace Chain

/-- At the end of a chain, the chain is empty. -/
theorem nil (h : ∀ v e, p d = .success v e → e.position = d.position) : p.Chain d [] d :=
  ⟨.nil d, nofun, h⟩

/-- A chain may be led up to by an application that takes the position up. -/
theorem cons {v : α} (hv : p c = .success v d) (hforward : c.position < d.position)
    (h : p.Chain d as d') : p.Chain c (⟨v, c, d⟩ :: as) d' :=
  ⟨.cons hv h.trail, List.forall_mem_cons.2 ⟨hforward, h.forward⟩, h.last⟩

/-- There is only one chain from a cursor: where one of two goes on, the other one cannot end. -/
theorem unique (h : p.Chain c as d) (h' : p.Chain c as' d') : as = as' ∧ d = d' := by
  obtain ⟨htrail, hforward, hlast⟩ := h
  obtain ⟨htrail', hforward', hlast'⟩ := h'
  induction htrail generalizing as' with
  | nil =>
    cases htrail' with
    | nil => exact ⟨rfl, rfl⟩
    | cons hv _ =>
      have hmoved := (List.forall_mem_cons.1 hforward').1
      exact absurd (hlast _ _ hv) (Nat.ne_of_gt hmoved)
  | cons hv _ ih =>
    cases htrail' with
    | nil =>
      have hmoved := (List.forall_mem_cons.1 hforward).1
      exact absurd (hlast' _ _ hv) (Nat.ne_of_gt hmoved)
    | cons hv' hrest =>
      rw [hv] at hv'
      cases hv'
      obtain ⟨rfl, rfl⟩ := ih (List.forall_mem_cons.1 hforward).2 hlast hrest
        (List.forall_mem_cons.1 hforward').2
      exact ⟨rfl, rfl⟩

/-- The position goes up with every application. -/
theorem position_le (h : p.Chain c as d) : c.position + as.length ≤ d.position := by
  obtain ⟨htrail, hforward, -⟩ := h
  induction htrail with
  | nil => exact le_rfl
  | cons _ _ ih =>
    obtain ⟨hfirst, hrest⟩ := List.forall_mem_cons.1 hforward
    have := ih hrest
    simp only [List.length_cons] at *
    omega

/-- A chain has no more applications than there are bytes to read. -/
theorem length_le (hp : p.Conforming) (hc : c.Valid) (h : p.Chain c as d) :
    as.length ≤ c.limit - c.position := by
  have hinside := h.trail.inside hp hc
  have := h.position_le
  have := hinside.order
  have := hinside.stop
  omega

end Chain

/-! ## The loop -/

section
variable (hp : p.Conforming)
include hp

/-- The loop follows a chain to its end. -/
theorem exists_chain (found : Array α) (c : Cursor) (hc : c.Valid) :
    ∃ as d, p.Chain c as d ∧ collect p found c =
      (p d).settle (found ++ (as.map Application.value).toArray) d := by
  fun_induction collect p found c with
  | case1 found c v next hpc hplace =>
    refine ⟨[], c, .nil fun v' e he => ?_, ?_⟩
    · rw [hpc] at he
      cases he
      exact Cursor.position_eq_of_samePlace hplace
    · rw [hpc]
      simp [Outcome.settle]
  | case2 found c v next hpc hplace _ ih =>
    have hinside := hp c v next hc hpc
    have hforward := hinside.lt_of_not_samePlace (Bool.eq_false_iff.2 hplace)
    obtain ⟨as, d, hchain, hcollect⟩ := ih (hinside.valid hc)
    refine ⟨⟨v, c, next⟩ :: as, d, hchain.cons hpc hforward, ?_⟩
    rw [hcollect]
    simp
  | case3 found c v next hpc hplace hback =>
    have hinside := hp c v next hc hpc
    have := hinside.lt_of_not_samePlace (Bool.eq_false_iff.2 hplace)
    have := hinside.order
    have := hinside.stop
    omega
  | case4 found c f hpc =>
    refine ⟨[], c, .nil fun v e he => ?_, ?_⟩
    · rw [hpc] at he
      cases he
    · rw [hpc]
      simp [Outcome.settle]
  | case5 found c reason hpc =>
    refine ⟨[], c, .nil fun v e he => ?_, ?_⟩
    · rw [hpc] at he
      cases he
    · rw [hpc]
      rfl

/-- `many` gives the values and the end of the chain. -/
theorem many_of_chain (hc : c.Valid) (h : p.Chain c as d) :
    many p c = (p d).settle (as.map Application.value) d := by
  obtain ⟨as', d', hchain, hcollect⟩ := exists_chain hp #[] c hc
  obtain ⟨rfl, rfl⟩ := h.unique hchain
  rw [many, hcollect]
  cases p d <;> simp [Outcome.settle, Outcome.map]

/-- What `many` gives are the values of a chain. -/
theorem chain_of_many (hc : c.Valid) {vs : List α} (h : many p c = .success vs d) :
    ∃ as, p.Chain c as d ∧ vs = as.map Application.value := by
  obtain ⟨as, d', hchain, -⟩ := exists_chain hp #[] c hc
  rw [many_of_chain hp hc hchain] at h
  obtain ⟨-, rfl, rfl⟩ := Outcome.settle_eq_success_iff.1 h
  exact ⟨as, hchain, rfl⟩

/-- What `many` gives are the values of a trail, none of which is left out. -/
theorem trail_of_many (hc : c.Valid) {vs : List α} (h : many p c = .success vs d) :
    ∃ as, p.Trail c as d ∧ vs = Application.movedValues as := by
  obtain ⟨as, hchain, rfl⟩ := chain_of_many hp hc h
  exact ⟨as, hchain.trail, (Application.movedValues_of_forward hchain.forward).symm⟩

/-- From every valid cursor there is one chain of applications that take the position up, of no more
than there are bytes to read, and `many` gives its values and its end, with the limit that it has
there. It never fails, and is only abandoned when the parser is at the end of the chain. From there
on `many` gives nothing and stays, so two times `many` is the same as one time. -/
theorem many_eq_chain (hc : c.Valid) :
    ∃ as d, p.Chain c as d ∧ (∀ as' d', p.Chain c as' d' → as' = as ∧ d' = d) ∧
      as.length ≤ c.limit - c.position ∧
      many p c = (p d).settle (as.map Application.value) d ∧
      many p d = (p d).settle [] d ∧
      (∀ f, many p c ≠ .failure f) ∧
      append (many p) (many p) c = many p c := by
  obtain ⟨as, d, hchain, -⟩ := exists_chain hp #[] c hc
  have hd := (hchain.trail.inside hp hc).valid hc
  have hmany := many_of_chain hp hc hchain
  have hagain := many_of_chain hp hd (.nil hchain.last)
  refine ⟨as, d, hchain, fun as' d' h' => h'.unique hchain, hchain.length_le hp hc, hmany, hagain,
    fun f hf => ?_, ?_⟩
  · rw [hmany] at hf
    cases hpd : p d <;> rw [hpd] at hf <;> cases hf
  · change (many p c).bind (fun vs e => (many p e).bind fun ws e' => .success (vs ++ ws) e') = _
    rw [hmany]
    cases hpd : p d with
    | fault reason => rfl
    | success | failure =>
      rw [hpd] at hagain
      simp only [Outcome.settle, Outcome.bind, hagain, List.map_nil, List.append_nil]

end

/-- A parser of the byte 1 that else lowers the limit: at the end of the chain the limit is still
the one from before. -/
theorem many_eq_chain_narrow :
    let p : Parser UInt8 := orElse (exactly 1) (replace (narrow 0) 0)
    let c : Cursor := ⟨.of #[1, 1, 2], 0, 3⟩
    p.Conforming ∧ c.Valid ∧ many p c = .success [1, 1] ⟨.of #[1, 1, 2], 2, 3⟩ ∧
      append (many p) (many p) c = many p c := by
  intro p c
  have hr := Discipline.confined_lawful False fun _ => True
  have hp : p.Conforming := (((obeys_byteWhere hr _ _).choose hr
    ((obeys_narrow id 0).map) .never)).conforming
  have hc : c.Valid := by decide
  obtain ⟨as, d, hchain, -, -, hmany, -, -, htwice⟩ := many_eq_chain hp hc
  have hlast : p.Chain ⟨.of #[1, 1, 2], 2, 3⟩ [] ⟨.of #[1, 1, 2], 2, 3⟩ := .nil fun v e he => by
    cases he
    rfl
  have hall : p.Chain c [⟨1, c, c.advance 1⟩, ⟨1, c.advance 1, c.advance 2⟩] (c.advance 2) :=
    .cons rfl (by decide) (.cons rfl (by decide) hlast)
  obtain ⟨rfl, rfl⟩ := hchain.unique hall
  exact ⟨hp, hc, hmany, htwice⟩

end Parser

end Wire
