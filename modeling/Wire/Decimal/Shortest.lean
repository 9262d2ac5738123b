/-!
# Shortest decimals

A binary number `m · 2 ^ q` that was rounded stands for all reals that round to it. Among the
decimals of these reals the shortest are those with the fewest digits, and of these the one nearest
to the number is taken; when two are equally near it is the greater one. All of it is decided on
natural numbers: the number and the ends of its interval are fractions with one denominator.
A decimal is written out in full, without an exponent.
-/

namespace Wire

/-- The number `digits · 10 ^ exponent`. -/
structure Decimal where
  digits : Nat
  exponent : Int
  deriving DecidableEq, Repr

/-- A positive number and the reals that round to it, as fractions over one denominator. -/
structure RoundingInterval where
  low : Nat
  mid : Nat
  high : Nat
  denominator : Nat
  /-- The ends belong to the interval. -/
  closed : Bool
  deriving DecidableEq, Repr

namespace RoundingInterval

/-- The interval around `m · 2 ^ q`: half a unit to either side, and a quarter of a unit below when
the numbers below are twice as dense. The ends round to the number when `m` is even. -/
def ofBinary (m : Nat) (q : Int) (denserBelow : Bool) : RoundingInterval :=
  let scale := Nat.pow 2 (q - 2).toNat
  { low := (4 * m - if denserBelow then 1 else 2) * scale
    mid := 4 * m * scale
    high := (4 * m + 2) * scale
    denominator := Nat.pow 2 (2 - q).toNat
    closed := m % 2 == 0 }

/-- The least `e` with the number below `10 ^ e`. -/
def magnitude (r : RoundingInterval) : Int :=
  if r.denominator ≤ r.mid then (Nat.toDigits 10 (r.mid / r.denominator)).length
  else 1 - ((Nat.toDigits 10 ((r.denominator - 1) / r.mid)).length : Int)

/-- A decimal over the denominator of the interval, with both multiplied by the second component so
that it is a natural number. -/
def scaled (r : RoundingInterval) (d : Decimal) : Nat × Nat :=
  (d.digits * Nat.pow 10 d.exponent.toNat * r.denominator, Nat.pow 10 (-d.exponent).toNat)

/-- A decimal lies in the interval. -/
def contains (r : RoundingInterval) (d : Decimal) : Bool :=
  let (x, s) := r.scaled d
  if r.closed then decide (r.low * s ≤ x ∧ x ≤ r.high * s)
  else decide (r.low * s < x ∧ x < r.high * s)

/-- The greatest decimal with an exponent that is not above the number. -/
def floor (r : RoundingInterval) (exponent : Int) : Decimal :=
  ⟨r.mid * Nat.pow 10 (-exponent).toNat / (r.denominator * Nat.pow 10 exponent.toNat), exponent⟩

/-- The decimal of an exponent after a given one. -/
def successor (d : Decimal) : Decimal :=
  { d with digits := d.digits + 1 }

/-- The second of two decimals on both sides of the number is at least as near as the first. -/
def upperIsNearer (r : RoundingInterval) (below above : Decimal) : Bool :=
  let (x, s) := r.scaled below
  let (y, _) := r.scaled above
  decide (y + x ≤ 2 * (r.mid * s))

/-- The nearest decimal of an exponent that lies in the interval, if there is one. -/
def nearest? (r : RoundingInterval) (exponent : Int) : Option Decimal :=
  let below := r.floor exponent
  let above := successor below
  match r.contains below, r.contains above with
  | true, true => some (if r.upperIsNearer below above then above else below)
  | true, false => some below
  | false, true => some above
  | false, false => none

/-- The shortest decimal with at most `count` more digits than `taken`; one with all of them if
even that leaves the interval. -/
def shortestFrom (r : RoundingInterval) (taken : Nat) : (count : Nat) → Decimal
  | 0 => r.floor (r.magnitude - taken)
  | count + 1 =>
    match r.nearest? (r.magnitude - (taken + 1 : Nat)) with
    | some d => d
    | none => r.shortestFrom (taken + 1) count

/-- The shortest decimal in the interval. Seventeen digits tell apart any two numbers with at most
53 binary digits, so no more are tried. -/
def shortest (r : RoundingInterval) : Decimal :=
  r.shortestFrom 0 17

end RoundingInterval

/-- A decimal in full: no exponent, no zeros at the end of a fraction, and no point without a
fraction. -/
def Decimal.text (d : Decimal) : String :=
  let places := (-d.exponent).toNat
  let whole := Nat.toDigits 10 (d.digits * Nat.pow 10 d.exponent.toNat)
  let all := whole.leftpad (places + 1) '0'
  let fraction := (all.drop (all.length - places)).reverse.dropWhile (· == '0') |>.reverse
  let integral := String.ofList (all.take (all.length - places))
  if fraction.isEmpty then integral else integral ++ "." ++ String.ofList fraction

end Wire
