import Mathlib.Algebra.Group.Nat.Defs
import Wire.Number.Integer

/-!
# Digits to the base 256

Bytes and numbers below a power of 256 are two forms of one thing: writing a number in so many
bytes and reading it back drops its higher digits only (`ofLowDigits_lowDigits`), and reading bytes
and writing them back gives the same bytes (`lowDigits_ofLowDigits`). This holds in either order.
-/

namespace Wire

/-- There are as many digits as are asked for. -/
theorem length_lowDigits : ∀ width n, (lowDigits width n).length = width
  | 0, _ => rfl
  | width + 1, n => congrArg (· + 1) (length_lowDigits width (n / 256))

/-- A number of some digits is below the first one that needs one more. -/
theorem ofLowDigits_lt : ∀ bs, ofLowDigits bs < 256 ^ bs.length
  | [] => Nat.one_pos
  | b :: bs => by
    have hbs := ofLowDigits_lt bs
    have hb := b.toNat_lt
    rw [ofLowDigits, List.length_cons, Nat.pow_succ]
    omega

/-- Bytes are the digits of the number that they stand for. -/
theorem lowDigits_ofLowDigits : ∀ bs, lowDigits bs.length (ofLowDigits bs) = bs
  | [] => rfl
  | b :: bs => by
    have hb := b.toNat_lt
    have hlow : (b.toNat + 256 * ofLowDigits bs) % 256 = b.toNat := by omega
    have hhigh : (b.toNat + 256 * ofLowDigits bs) / 256 = ofLowDigits bs := by omega
    rw [ofLowDigits, List.length_cons, lowDigits, hlow, hhigh, UInt8.ofNat_toNat,
      lowDigits_ofLowDigits bs]

/-- A number is read back from its low digits without its higher ones. -/
theorem ofLowDigits_lowDigits : ∀ width n, ofLowDigits (lowDigits width n) = n % 256 ^ width
  | 0, n => (Nat.mod_one n).symm
  | width + 1, n => by
    rw [lowDigits, ofLowDigits, ofLowDigits_lowDigits width (n / 256), UInt8.toNat_ofNat_of_lt'
      (Nat.mod_lt _ (by decide)), Nat.pow_succ, Nat.mul_comm (256 ^ width), Nat.mod_mul]

namespace ByteOrder

variable (order : ByteOrder)

/-- There are as many digits as are asked for, in either order. -/
theorem length_digits (width n : Nat) : (order.digits width n).length = width := by
  cases order with
  | big => rw [digits, List.length_reverse, length_lowDigits]
  | little => exact length_lowDigits width n

/-- A number of some bytes is below the first one that needs one more. -/
theorem number_lt (bs : List UInt8) : order.number bs < 256 ^ bs.length := by
  cases order with
  | big =>
    rw [number, ← List.length_reverse]
    exact ofLowDigits_lt _
  | little => exact ofLowDigits_lt bs

/-- Bytes are the digits of the number that they make. -/
theorem digits_number (bs : List UInt8) : order.digits bs.length (order.number bs) = bs := by
  cases order with
  | big => rw [digits, number, ← List.length_reverse, lowDigits_ofLowDigits, List.reverse_reverse]
  | little => exact lowDigits_ofLowDigits bs

/-- The digits of a number make the number, less what they are too few for. -/
theorem number_digits (width n : Nat) : order.number (order.digits width n) = n % 256 ^ width := by
  cases order with
  | big => rw [digits, number, List.reverse_reverse, ofLowDigits_lowDigits]
  | little => exact ofLowDigits_lowDigits width n

end ByteOrder

end Wire
