import Wire.Failure

/-!
# Changes of a failure

What can be done to a failure after it was made, as data: adding expectations, giving it another
kind, and merging it with another failure on either side.
-/

namespace Wire.Failure

/-- A change of a failure. -/
inductive Edit where
  | expecting (expectation : String)
  | expectingAll (expectations : List String)
  | withKind (kind : FailureKind)
  /-- The further one of the failure and another. -/
  | furthest (other : Failure)
  /-- The further one of another failure and this one. -/
  | furthestOf (other : Failure)
  deriving DecidableEq, Repr

/-- The failure after a change. -/
def edit (f : Failure) : Edit → Failure
  | .expecting expectation => f.expecting expectation
  | .expectingAll expectations => f.expectingAll expectations
  | .withKind kind => f.withKind kind
  | .furthest other => f.furthest other
  | .furthestOf other => other.furthest f

/-- The failure after some changes, one after another. -/
def editAll (f : Failure) (edits : List Edit) : Failure :=
  edits.foldl edit f

/-- The failure before the first change and after each of them. -/
def history (f : Failure) : List Edit → List Failure
  | [] => [f]
  | e :: edits => f :: (f.edit e).history edits

end Wire.Failure
