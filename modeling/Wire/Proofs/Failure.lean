import Mathlib.Data.Nat.Basic
import Wire.Failure

/-!
# The algebra of failures

Adding expectations to a failure and picking the further of two failures change neither more nor
other things than they say. Of several failures the furthest ones are those whose position is the
greatest; the first of these, with the expectations of the others behind its own, is what is left of
all of them (`Failure.merged`). Picking the further failure two at a time gives just that, from
whichever end one starts (`Failure.furthest_assoc`, `Failure.merged_append`).
-/

namespace Wire.Failure

variable {f g h : Failure} {e : String} {es es' : List String} {fs gs : List Failure}

/-! ## Expectations -/

/-- One more expectation leaves a failure at its place. -/
@[simp] theorem remainder_expecting (f : Failure) (e : String) :
    (f.expecting e).remainder = f.remainder := by
  unfold expecting
  split <;> rfl

/-- More expectations leave a failure at its place. -/
@[simp] theorem remainder_expectingAll (f : Failure) (es : List String) :
    (f.expectingAll es).remainder = f.remainder := by
  unfold expectingAll
  induction es generalizing f with
  | nil => rfl
  | cons e es ih => rw [List.foldl_cons, ih, remainder_expecting]

/-- More expectations leave a failure at its position. -/
@[simp] theorem position_expectingAll (f : Failure) (es : List String) :
    (f.expectingAll es).position = f.position := by
  rw [position, remainder_expectingAll, position]

/-- Expectations may be added in two parts. -/
theorem expectingAll_append :
    f.expectingAll (es ++ es') = (f.expectingAll es).expectingAll es' :=
  List.foldl_append

/-- More expectations are those that are new, in order and each once, behind the old ones. -/
theorem expectingAll_eq (f : Failure) (es : List String) :
    f.expectingAll es =
      { f with expectations :=
          f.expectations ++ (es.filter (· ∉ f.expectations)).eraseDups } := by
  induction es generalizing f with
  | nil => simp [expectingAll]
  | cons e es ih =>
    have hstep : f.expectingAll (e :: es) = (f.expecting e).expectingAll es := rfl
    rw [hstep, ih]
    by_cases he : e ∈ f.expectations
    · simp [expecting, he]
    · have hnew : es.filter (· ∉ f.expectations ++ [e]) =
          (es.filter (· ∉ f.expectations)).filter fun x => !x == e := by
        rw [List.filter_filter]
        congr 1
        funext x
        by_cases hx : x = e <;> simp [hx]
      simp only [expecting, if_neg he, hnew]
      rw [List.filter_cons_of_pos (by simpa using he), List.eraseDups_cons, List.append_assoc,
        List.singleton_append]

/-- The expectations after some more are the old ones and the new ones. -/
theorem mem_expectingAll {x : String} :
    x ∈ (f.expectingAll es).expectations ↔ x ∈ f.expectations ∨ x ∈ es := by
  induction es generalizing f with
  | nil => simp [expectingAll]
  | cons e es ih =>
    have hstep : f.expectingAll (e :: es) = (f.expecting e).expectingAll es := rfl
    rw [hstep, ih, List.mem_cons, expecting]
    split
    · next he =>
      constructor
      · exact Or.imp_right .inr
      · rintro (hx | rfl | hx)
        · exact .inl hx
        · exact .inl he
        · exact .inr hx
    · simp only [List.mem_append, List.mem_singleton, or_assoc]

/-- The expectations of another failure that has been added to are added one after another. -/
theorem expectingAll_expectations (f g : Failure) (es : List String) :
    f.expectingAll (g.expectingAll es).expectations =
      (f.expectingAll g.expectations).expectingAll es := by
  induction es generalizing g with
  | nil => rfl
  | cons e es ih =>
    have hstep : f.expectingAll (g.expecting e).expectations =
        (f.expectingAll g.expectations).expecting e := by
      by_cases he : e ∈ g.expectations
      · have hmem : e ∈ (f.expectingAll g.expectations).expectations := mem_expectingAll.2 (.inr he)
        rw [expecting, if_pos he, expecting, if_pos hmem]
      · rw [expecting, if_neg he, expectingAll_append]
        rfl
    change f.expectingAll ((g.expecting e).expectingAll es).expectations =
      ((f.expectingAll g.expectations).expecting e).expectingAll es
    rw [ih, hstep]

/-! ## The furthest of several failures -/

/-- The second failure is kept when it is further on. -/
theorem furthest_of_lt (hlt : f.position < g.position) : f.furthest g = g :=
  if_pos hlt

/-- The first failure is kept when it is further on. -/
theorem furthest_of_gt (hgt : g.position < f.position) : f.furthest g = f := by
  rw [furthest, if_neg (by omega), if_neg (by omega)]

/-- At one position, the first failure takes over the expectations of the second. -/
theorem furthest_of_eq (heq : g.position = f.position) :
    f.furthest g = f.expectingAll g.expectations := by
  rw [furthest, if_neg (by omega), if_pos heq]

/-- The further one of two failures is where one of them is. -/
theorem remainder_furthest (f g : Failure) :
    (f.furthest g).remainder = f.remainder ∨ (f.furthest g).remainder = g.remainder := by
  unfold furthest
  split
  · exact .inr rfl
  · split
    · exact .inl (remainder_expectingAll f _)
    · exact .inl rfl

/-- What is kept of two failures is at the greater of their positions. -/
theorem position_furthest (f g : Failure) :
    (f.furthest g).position = max f.position g.position := by
  rcases Nat.lt_trichotomy f.position g.position with hlt | heq | hgt
  · rw [furthest_of_lt hlt]
    omega
  · rw [furthest_of_eq heq.symm, position_expectingAll]
    omega
  · rw [furthest_of_gt hgt]
    omega

/-- It does not matter which two of three failures are compared first. -/
theorem furthest_assoc (f g h : Failure) :
    (f.furthest g).furthest h = f.furthest (g.furthest h) := by
  have hgh := position_furthest g h
  rcases Nat.lt_trichotomy f.position g.position with hlt | heq | hgt
  · have hlt' : f.position < (g.furthest h).position := by omega
    rw [furthest_of_lt hlt, furthest_of_lt hlt']
  · have hpos : (f.expectingAll g.expectations).position = g.position := by
      rw [position_expectingAll, heq]
    rw [furthest_of_eq heq.symm]
    rcases Nat.lt_trichotomy g.position h.position with hlt' | heq' | hgt'
    · rw [furthest_of_lt (by omega), furthest_of_lt hlt', furthest_of_lt (f := f) (by omega)]
    · have heq'' : (g.expectingAll h.expectations).position = f.position := by
        rw [position_expectingAll, heq]
      rw [furthest_of_eq (heq'.symm.trans hpos.symm), furthest_of_eq heq'.symm,
        furthest_of_eq heq'', expectingAll_expectations]
    · rw [furthest_of_gt (by omega), furthest_of_gt hgt', furthest_of_eq heq.symm]
  · rw [furthest_of_gt hgt]
    rcases Nat.lt_or_ge h.position f.position with hlt' | hge
    · have hgt' : (g.furthest h).position < f.position := by omega
      rw [furthest_of_gt hlt', furthest_of_gt hgt']
    · have hlt : g.position < h.position := by omega
      rw [furthest_of_lt hlt]

/-- The greatest position of some failures. -/
def reach (fs : List Failure) : Nat :=
  (fs.map position).foldr max 0

/-- The failures whose position is the greatest of all. -/
def deepest (fs : List Failure) : List Failure :=
  fs.filter fun f => f.position = reach fs

/-- What is left of some failures, if there are any: the first of the deepest ones, with the
expectations of the later ones behind its own, in order and without repeats. -/
def merged (fs : List Failure) : Option Failure :=
  match deepest fs with
  | [] => none
  | f :: later =>
    let more := (later.flatMap expectations).filter (· ∉ f.expectations)
    some { f with expectations := f.expectations ++ more.eraseDups }

/-- Failures are merged to the first of the furthest ones, with the expectations of the others of
these. -/
theorem merged_of_deepest {later : List Failure} (hd : deepest fs = f :: later) :
    merged fs = some (f.expectingAll (later.flatMap expectations)) := by
  rw [merged, hd, expectingAll_eq]

/-- The furthest failures are those that stand where the furthest stands. -/
theorem mem_deepest : f ∈ deepest fs ↔ f ∈ fs ∧ f.position = reach fs := by
  simp [deepest]

/-- The furthest position is that of the first failure or that of the others. -/
theorem reach_cons (f : Failure) (fs : List Failure) :
    reach (f :: fs) = max f.position (reach fs) := rfl

/-- No failure is beyond the furthest position. -/
theorem position_le_reach (hf : f ∈ fs) : f.position ≤ reach fs := by
  induction fs with
  | nil => cases hf
  | cons g fs ih =>
    rw [reach_cons]
    cases hf with
    | head => exact le_max_left _ _
    | tail _ hf => exact le_trans (ih hf) (le_max_right _ _)

/-- Of some failures at least one is as far as they reach. -/
theorem exists_mem_deepest (hfs : fs ≠ []) : ∃ f, f ∈ deepest fs := by
  induction fs with
  | nil => exact absurd rfl hfs
  | cons g fs ih =>
    rcases Nat.lt_or_ge g.position (reach fs) with hlt | hge
    · have hne : fs ≠ [] := by
        rintro rfl
        exact Nat.not_lt_zero _ hlt
      obtain ⟨f, hf⟩ := ih hne
      obtain ⟨hmem, hpos⟩ := mem_deepest.1 hf
      refine ⟨f, mem_deepest.2 ⟨.tail _ hmem, ?_⟩⟩
      rw [reach_cons]
      omega
    · refine ⟨g, mem_deepest.2 ⟨.head _, ?_⟩⟩
      rw [reach_cons]
      omega

/-- Only no failures merge to nothing. -/
theorem merged_eq_none_iff : merged fs = none ↔ fs = [] := by
  refine ⟨fun h => ?_, by rintro rfl; rfl⟩
  by_contra hfs
  obtain ⟨f, hf⟩ := exists_mem_deepest hfs
  cases hd : deepest fs with
  | nil =>
    rw [hd] at hf
    cases hf
  | cons d later =>
    rw [merged_of_deepest hd] at h
    cases h

/-- What is left of some failures is where the deepest of them are. -/
theorem position_of_merged (h : merged fs = some f) : f.position = reach fs := by
  cases hd : deepest fs with
  | nil =>
    rw [merged, hd] at h
    cases h
  | cons d later =>
    have hmem : d ∈ deepest fs := hd ▸ .head _
    rw [merged_of_deepest hd] at h
    cases h
    rw [position_expectingAll, (mem_deepest.1 hmem).2]

/-- A failure in front of others is merged with what is left of them. -/
theorem merged_cons (f : Failure) (fs : List Failure) :
    merged (f :: fs) = some ((merged fs).elim f f.furthest) := by
  rcases Nat.lt_trichotomy f.position (reach fs) with hlt | heq | hgt
  · have hreach : reach (f :: fs) = reach fs := by
      rw [reach_cons]
      omega
    have hdeep : deepest (f :: fs) = deepest fs := by
      rw [deepest, hreach, List.filter_cons_of_neg (by simp; omega), deepest]
    have hsame : merged (f :: fs) = merged fs := by rw [merged, hdeep, merged]
    cases hm : merged fs with
    | none =>
      rw [merged_eq_none_iff] at hm
      subst hm
      exact absurd hlt (Nat.not_lt_zero _)
    | some g =>
      have hg := position_of_merged hm
      rw [hsame, hm, Option.elim_some, furthest_of_lt (by omega)]
  · have hreach : reach (f :: fs) = reach fs := by
      rw [reach_cons]
      omega
    have hdeep : deepest (f :: fs) = f :: deepest fs := by
      rw [deepest, hreach, List.filter_cons_of_pos (by simp [heq]), deepest]
    rw [merged_of_deepest hdeep]
    cases hd : deepest fs with
    | nil =>
      have hm : merged fs = none := by rw [merged, hd]
      rw [hm]
      rfl
    | cons d later =>
      have hm := merged_of_deepest hd
      have hg := position_of_merged hm
      rw [hm, Option.elim_some, furthest_of_eq (hg.trans heq.symm), expectingAll_expectations,
        List.flatMap_cons, expectingAll_append]
  · have hreach : reach (f :: fs) = f.position := by
      rw [reach_cons]
      omega
    have hrest : (fs.filter fun g => g.position = f.position) = [] := by
      rw [List.filter_eq_nil_iff]
      intro g hg
      have := position_le_reach hg
      simp only [decide_eq_true_eq]
      omega
    have hdeep : deepest (f :: fs) = [f] := by
      rw [deepest, hreach, List.filter_cons_of_pos (by simp), hrest]
    rw [merged_of_deepest hdeep]
    cases hm : merged fs with
    | none => rfl
    | some g =>
      have hg := position_of_merged hm
      rw [Option.elim_some, furthest_of_gt (by omega)]
      rfl

/-- What is left of two groups of failures is the further one of what is left of each. -/
theorem merged_append (hf : merged fs = some f) (hg : merged gs = some g) :
    merged (fs ++ gs) = some (f.furthest g) := by
  induction fs generalizing f with
  | nil => cases hf
  | cons f' fs ih =>
    rw [merged_cons] at hf
    rw [List.cons_append, merged_cons]
    cases hm : merged fs with
    | none =>
      rw [hm] at hf
      rw [merged_eq_none_iff] at hm
      cases hf
      rw [hm, List.nil_append, hg]
      rfl
    | some f'' =>
      rw [hm] at hf
      cases hf
      rw [ih hm, Option.elim_some, Option.elim_some, furthest_assoc]

end Wire.Failure
