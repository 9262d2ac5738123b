import Mathlib.Algebra.CharP.Two
import Mathlib.Algebra.Field.ZMod
import Mathlib.Algebra.Polynomial.Div
import Mathlib.Algebra.Polynomial.Monic
import Mathlib.Tactic.LinearCombination
import Wire.Proofs.Bits

/-!
# Long division of bits

Bits in a row are the coefficients of a polynomial over the field of two elements, that of the
highest power first. Long division as it is done by hand looks at the leading bit, subtracts the
divisor there if the bit is set, drops the bit and goes on, until as many bits are left as a
remainder has (`Bits.remainder`). What is left is the remainder of the polynomials
(`Bits.toPolynomial_remainder`), for every divisor whose leading bit is set.
-/

namespace Wire.Bits

open Polynomial

/-! ## Division -/

/-- One step of a division: the divisor is subtracted where the bits start, if the first of them is
set, and then the first bit is dropped. -/
def divisionStep (divisor bits : List Bool) : List Bool :=
  (if bits.head? = some true then addFront divisor bits else bits).tail

/-- Some steps of a division. -/
def divide (divisor : List Bool) : (steps : Nat) → List Bool → List Bool
  | 0, bits => bits
  | steps + 1, bits => divide divisor steps (divisionStep divisor bits)

/-- What a division leaves: one bit less than the divisor has. -/
def remainder (divisor bits : List Bool) : List Bool :=
  divide divisor (bits.length + 1 - divisor.length) bits

/-- The leading bit cancels with that of the divisor, or is not set. -/
theorem divisionStep_cons (low : List Bool) (b : Bool) (bits : List Bool) :
    divisionStep (true :: low) (b :: bits) = if b then addFront low bits else bits := by
  cases b <;> rfl

/-- A step of a division drops one bit. -/
@[simp] theorem length_divisionStep (divisor bits : List Bool) :
    (divisionStep divisor bits).length = bits.length - 1 := by
  unfold divisionStep
  split <;> simp

/-- Every step of a division drops one bit. -/
@[simp] theorem length_divide (divisor : List Bool) :
    ∀ steps bits, (divide divisor steps bits).length = bits.length - steps
  | 0, _ => rfl
  | steps + 1, bits => by
    rw [divide, length_divide divisor steps, length_divisionStep]
    omega

/-- What a division leaves has fewer bits than the divisor. -/
theorem length_remainder_le (low bits : List Bool) :
    (remainder (true :: low) bits).length ≤ low.length := by
  rw [remainder, length_divide, List.length_cons]
  omega

/-! ## Polynomials -/

/-- The polynomial with the given coefficients, that of the highest power first. -/
noncomputable def toPolynomial : List Bool → (ZMod 2)[X]
  | [] => 0
  | b :: bits => (if b then X ^ bits.length else 0) + toPolynomial bits

/-- Bits in front of others stand for powers above theirs. -/
theorem toPolynomial_append (xs ys : List Bool) :
    toPolynomial (xs ++ ys) = toPolynomial xs * X ^ ys.length + toPolynomial ys := by
  induction xs with
  | nil => simp [toPolynomial]
  | cons x xs ih =>
    rw [List.cons_append, toPolynomial, toPolynomial, ih, List.length_append]
    cases x
    · simp
    · simp only [if_true]
      ring

/-- Bits that are not set stand for nothing. -/
@[simp] theorem toPolynomial_replicate_false (n : Nat) :
    toPolynomial (List.replicate n false) = 0 := by
  induction n with
  | zero => rfl
  | succ n ih => simp [List.replicate_succ, toPolynomial, ih]

/-- There is no power above those of the bits. -/
theorem degree_toPolynomial_lt (bits : List Bool) : (toPolynomial bits).degree < bits.length := by
  induction bits with
  | nil => simp [toPolynomial]
  | cons b bits ih =>
    have hlt : (bits.length : WithBot ℕ) < ((b :: bits).length : ℕ) := by
      rw [List.length_cons]
      exact_mod_cast Nat.lt_succ_self bits.length
    have hfirst : (if b then X ^ bits.length else 0 : (ZMod 2)[X]).degree ≤ bits.length := by
      cases b <;> simp
    exact lt_of_le_of_lt (degree_add_le _ _) (max_lt (lt_of_le_of_lt hfirst hlt) (ih.trans hlt))

/-- A sum at the front is a sum at the powers that stand there. -/
theorem toPolynomial_addFront : ∀ {front bits : List Bool}, front.length ≤ bits.length →
    toPolynomial (addFront front bits) =
      toPolynomial front * X ^ (bits.length - front.length) + toPolynomial bits
  | [], bits, _ => by simp [addFront, toPolynomial]
  | x :: front, b :: bits, h => by
    have hle : front.length ≤ bits.length := Nat.le_of_succ_le_succ h
    have hpower := pow_mul_pow_sub (X : (ZMod 2)[X]) hle
    simp only [addFront, toPolynomial, length_addFront, List.length_cons, Nat.add_sub_add_right,
      toPolynomial_addFront hle]
    cases x <;> cases b <;> simp only [Bool.xor_false, Bool.xor_true, Bool.not_false, Bool.not_true,
      Bool.false_eq_true, if_true, if_false]
    · ring
    · ring
    · rw [← hpower]
      ring
    · have hcancel := CharTwo.add_self_eq_zero ((X : (ZMod 2)[X]) ^ bits.length)
      linear_combination -hcancel - hpower

variable {low bits : List Bool}

/-- A leading bit that is set stands for the power of its place. -/
theorem toPolynomial_true (low : List Bool) :
    toPolynomial (true :: low) = X ^ low.length + toPolynomial low :=
  congrArg (· + _) (if_pos rfl)

/-- The highest power has the coefficient one when the leading bit is set. -/
theorem monic_toPolynomial (low : List Bool) : (toPolynomial (true :: low)).Monic := by
  rw [toPolynomial_true]
  exact monic_X_pow_add (degree_toPolynomial_lt low)

/-- The degree is the place of the leading bit when that bit is set. -/
theorem degree_toPolynomial (low : List Bool) :
    (toPolynomial (true :: low)).degree = low.length := by
  rw [toPolynomial_true, degree_add_eq_left_of_degree_lt, degree_X_pow]
  rw [degree_X_pow]
  exact degree_toPolynomial_lt low

/-- Of the bits in a row, none is lost in the polynomial: where two rows differ first, the powers
behind that place cannot make up for it. -/
theorem toPolynomial_inj : ∀ {xs ys : List Bool}, xs.length = ys.length →
    toPolynomial xs = toPolynomial ys → xs = ys
  | [], [], _, _ => rfl
  | x :: xs, y :: ys, hlength, h => by
    have hrest : xs.length = ys.length := Nat.succ.inj hlength
    have hfalse (bits : List Bool) : toPolynomial (false :: bits) = toPolynomial bits :=
      zero_add _
    cases x <;> cases y
    · rw [hfalse, hfalse] at h
      rw [toPolynomial_inj hrest h]
    · have hlt := degree_toPolynomial_lt xs
      rw [← hfalse, h, degree_toPolynomial, hrest] at hlt
      exact absurd hlt (lt_irrefl _)
    · have hlt := degree_toPolynomial_lt ys
      rw [← hfalse, ← h, degree_toPolynomial, hrest] at hlt
      exact absurd hlt (lt_irrefl _)
    · rw [toPolynomial_true, toPolynomial_true, hrest] at h
      rw [toPolynomial_inj hrest (add_left_cancel h)]

/-- A step of a division takes a multiple of the divisor away. -/
theorem dvd_sub_divisionStep (h : low.length < bits.length) :
    toPolynomial (true :: low) ∣
      toPolynomial bits - toPolynomial (divisionStep (true :: low) bits) := by
  cases bits with
  | nil => cases h
  | cons b bits =>
    have hle : low.length ≤ bits.length := Nat.le_of_lt_succ h
    have hpower := pow_mul_pow_sub (X : (ZMod 2)[X]) hle
    rw [divisionStep_cons]
    cases b with
    | false => simp [toPolynomial]
    | true =>
      have hcancel := CharTwo.add_self_eq_zero
        (toPolynomial low * X ^ (bits.length - low.length))
      refine ⟨X ^ (bits.length - low.length), ?_⟩
      simp only [if_true, toPolynomial, toPolynomial_addFront hle]
      linear_combination -hpower - hcancel

/-- So do some steps, as long as there are enough bits for the divisor. -/
theorem dvd_sub_divide (low : List Bool) :
    ∀ (steps : Nat) (bits : List Bool), steps + low.length ≤ bits.length →
      toPolynomial (true :: low) ∣
        toPolynomial bits - toPolynomial (divide (true :: low) steps bits)
  | 0, bits, _ => by simp [divide]
  | steps + 1, bits, h => by
    have hfirst : toPolynomial (true :: low) ∣
        toPolynomial bits - toPolynomial (divisionStep (true :: low) bits) :=
      dvd_sub_divisionStep (by omega)
    have hlater := dvd_sub_divide low steps (divisionStep (true :: low) bits)
      (by rw [length_divisionStep]; omega)
    have hsum := dvd_add hfirst hlater
    rwa [sub_add_sub_cancel] at hsum

/-- What a division leaves is the remainder of the polynomials. -/
theorem toPolynomial_remainder (low bits : List Bool) :
    toPolynomial (remainder (true :: low) bits) =
      toPolynomial bits %ₘ toPolynomial (true :: low) := by
  have hmonic := monic_toPolynomial low
  have hdegree : (toPolynomial (remainder (true :: low) bits)).degree <
      (toPolynomial (true :: low)).degree := by
    rw [degree_toPolynomial]
    refine lt_of_lt_of_le (degree_toPolynomial_lt _) ?_
    exact_mod_cast length_remainder_le low bits
  have hdvd : toPolynomial (true :: low) ∣
      toPolynomial bits - toPolynomial (remainder (true :: low) bits) := by
    by_cases hle : low.length ≤ bits.length
    · refine dvd_sub_divide low _ bits ?_
      rw [List.length_cons]
      omega
    · have hsteps : bits.length + 1 - (true :: low).length = 0 := by
        rw [List.length_cons]
        omega
      rw [remainder, hsteps, divide, sub_self]
      exact dvd_zero _
  rw [modByMonic_eq_of_dvd_sub hmonic hdvd, (modByMonic_eq_self_iff hmonic).2 hdegree]

end Wire.Bits
