import Mathlib.Data.ENat.Lattice
import Mathlib.Order.CompletePartialOrder
import Wire.Proofs.Digest

/-!
# Trails

A repeated parser is applied again and again, each time from the cursor that the last application
left. Such a row of applications is a trail (`Parser.Trail`). The parser alone decides how a trail
goes on, so two trails from one cursor are the same as far as both go (`Trail.unique`), and either
there are trails of every length or one of them ends at a cursor where the parser does not succeed
(`Parser.exists_trail`). How long trails are, at most, is how often the parser can be applied
(`Parser.count`).
-/

namespace Wire

variable {α : Type}

/-- One application of a parser that succeeded. -/
structure Application (α : Type) where
  value : α
  /-- Where the parser was applied. -/
  start : Cursor
  /-- Where the parser left off. -/
  stop : Cursor

namespace Application

/-- The parser did not stay at its place. -/
def moved (a : Application α) : Bool :=
  !a.stop.samePlace a.start

/-- The values of those applications that moved, in order. -/
def movedValues (as : List (Application α)) : List α :=
  (as.filter moved).map value

/-- The first value is left out when its application stayed. -/
theorem movedValues_cons (a : Application α) (as : List (Application α)) :
    movedValues (a :: as) = if a.moved then a.value :: movedValues as else movedValues as := by
  unfold movedValues
  rw [List.filter_cons]
  split <;> rfl

/-- Values are left out one by one, wherever the applications are cut in two. -/
theorem movedValues_append (as as' : List (Application α)) :
    movedValues (as ++ as') = movedValues as ++ movedValues as' := by
  simp [movedValues]

/-- Of applications that all went forward, no value is left out. -/
theorem movedValues_of_forward {as : List (Application α)}
    (h : ∀ a ∈ as, a.start.position < a.stop.position) : movedValues as = as.map value := by
  have hmoved : ∀ a ∈ as, a.moved = true := by
    intro a ha
    rw [moved, Cursor.not_samePlace_of_position_ne (Nat.ne_of_gt (h a ha)), Bool.not_false]
  rw [movedValues, List.filter_eq_self.2 hmoved]

end Application

namespace Parser

/-- Applications of a parser one after another, each from where the one before it left off. -/
inductive Trail (p : Parser α) : Cursor → List (Application α) → Cursor → Prop
  | nil (c : Cursor) : Trail p c [] c
  | cons {c d e : Cursor} {v : α} {as : List (Application α)} :
    p c = .success v d → Trail p d as e → Trail p c (⟨v, c, d⟩ :: as) e

/-- A parser does not succeed at a cursor. -/
def Ends (p : Parser α) (c : Cursor) : Prop :=
  ∀ v d, p c ≠ .success v d

variable {p : Parser α} {c d d' e : Cursor} {as as' : List (Application α)}

namespace Trail

/-- Where one trail ends, another one may go on. -/
theorem append (h : p.Trail c as d) (h' : p.Trail d as' e) : p.Trail c (as ++ as') e := by
  induction h with
  | nil => exact h'
  | cons hv _ ih => exact .cons hv (ih h')

/-- Trails of one length are one trail. -/
theorem unique (h : p.Trail c as d) (h' : p.Trail c as' d') (hlength : as.length = as'.length) :
    as = as' ∧ d = d' := by
  induction h generalizing as' with
  | nil =>
    cases h' with
    | nil => exact ⟨rfl, rfl⟩
    | cons => cases hlength
  | cons hv _ ih =>
    cases h' with
    | nil => cases hlength
    | cons hv' hrest =>
      rw [hv] at hv'
      cases hv'
      obtain ⟨rfl, rfl⟩ := ih hrest (Nat.succ.inj hlength)
      exact ⟨rfl, rfl⟩

/-- No trail is longer than one that ends where the parser does not succeed. -/
theorem length_le (h : p.Trail c as d) (hends : p.Ends d) (h' : p.Trail c as' d') :
    as'.length ≤ as.length := by
  induction h generalizing as' with
  | nil =>
    cases h' with
    | nil => exact le_rfl
    | cons hv _ => exact absurd hv (hends _ _)
  | cons hv _ ih =>
    cases h' with
    | nil => exact Nat.zero_le _
    | cons hv' hrest =>
      rw [hv] at hv'
      cases hv'
      exact Nat.succ_le_succ (ih hends hrest)

/-- A conforming parser stays inside its start, however often it is applied. -/
theorem inside (hp : p.Conforming) (h : p.Trail c as d) (hc : c.Valid) : d.Inside c := by
  induction h with
  | nil => exact .refl hc
  | cons hv _ ih =>
    have hfirst := hp _ _ _ hc hv
    exact hfirst.trans (ih (hfirst.valid hc))

/-- Each application of a trail is one of the parser. -/
theorem applied (h : p.Trail c as d) : ∀ a ∈ as, p a.start = .success a.value a.stop := by
  induction h with
  | nil => exact List.forall_mem_nil _
  | cons hv _ ih => exact List.forall_mem_cons.2 ⟨hv, ih⟩

end Trail

/-- From every cursor there is a trail of a given length, or a shorter one that ends where the
parser does not succeed. -/
theorem exists_trail (p : Parser α) :
    ∀ (n : Nat) (c : Cursor), ∃ as d, p.Trail c as d ∧
      (as.length = n ∨ as.length < n ∧ p.Ends d)
  | 0, c => ⟨[], c, .nil c, .inl rfl⟩
  | n + 1, c => by
    by_cases hends : p.Ends c
    · exact ⟨[], c, .nil c, .inr ⟨Nat.succ_pos n, hends⟩⟩
    · simp only [Ends, not_forall, not_not] at hends
      obtain ⟨v, d, hv⟩ := hends
      obtain ⟨as, e, htrail, hlength⟩ := exists_trail p n d
      refine ⟨⟨v, c, d⟩ :: as, e, .cons hv htrail, ?_⟩
      exact hlength.imp (congrArg (· + 1)) (And.imp_left Nat.succ_lt_succ)

/-! ## Counting -/

/-- How often a parser can be applied one time after another, with applications that stay at their
place counted too; it is infinite when the parser succeeds every time. -/
noncomputable def count (p : Parser α) (c : Cursor) : ℕ∞ :=
  ⨆ (as : List (Application α)) (d : Cursor) (_ : p.Trail c as d), (as.length : ℕ∞)

/-- A trail is no longer than a parser can be applied. -/
theorem Trail.length_le_count (h : p.Trail c as d) : (as.length : ℕ∞) ≤ p.count c :=
  le_iSup_of_le as <| le_iSup_of_le d <| le_iSup_of_le h le_rfl

/-- A parser can be applied up to where it does not succeed. -/
theorem Trail.count_eq (h : p.Trail c as d) (hends : p.Ends d) : p.count c = as.length := by
  refine le_antisymm ?_ h.length_le_count
  refine iSup_le fun as' => iSup_le fun d' => iSup_le fun h' => ?_
  exact_mod_cast h.length_le hends h'

end Parser

end Wire
