import Mathlib.Algebra.BigOperators.Fin
import Mathlib.Algebra.Order.Ring.Int
import Mathlib.Tactic.Ring
import Wire.Proofs.Digits

/-!
# Integers and their bytes

The bytes of an integer are read by their places: an unsigned integer is the sum of its bytes, each
as often as its place counts, and a signed one is the word with the same bits. Readings that go by
this rule (`IntegerReading.Positional`) are the same, and make of as many bytes as a type is wide the
one integer of the type that is written with them (`IntegerType.eq_ofPattern_iff`).
-/

namespace Wire

open scoped BigOperators

/-! ## Numbers -/

/-- The digits behind others count for as much as those in front leave room for. -/
theorem ofLowDigits_append (xs ys : List UInt8) :
    ofLowDigits (xs ++ ys) = ofLowDigits xs + 256 ^ xs.length * ofLowDigits ys := by
  induction xs with
  | nil => simp [ofLowDigits]
  | cons x xs ih =>
    rw [List.cons_append, ofLowDigits, ih, ofLowDigits, List.length_cons, pow_succ]
    ring

/-- How much a byte with `i` others in front counts for in a number of `width` bytes. -/
def ByteOrder.weight : ByteOrder → (width i : Nat) → Nat
  | .big, width, i => 256 ^ (width - 1 - i)
  | .little, _, i => 256 ^ i

/-- The number that some bytes stand for is their sum by places. -/
theorem ByteOrder.number_eq_sum (order : ByteOrder) (bs : List UInt8) :
    order.number bs = ∑ i : Fin bs.length, bs[i].toNat * order.weight bs.length i := by
  induction bs with
  | nil => cases order <;> rfl
  | cons b bs ih =>
    cases order with
    | big =>
      have hplace (i : Fin bs.length) : bs.length - 1 - (i : Nat) = bs.length - (i + 1) := by omega
      simp only [number, weight] at ih ⊢
      rw [List.reverse_cons, ofLowDigits_append, ih]
      simp [Fin.sum_univ_succ, ofLowDigits, hplace]
      ring
    | little =>
      simp only [number, weight] at ih ⊢
      rw [ofLowDigits, ih, Finset.mul_sum]
      simp [Fin.sum_univ_succ, pow_succ]
      refine Finset.sum_congr rfl fun i _ => ?_
      ring

namespace IntegerType

variable (t : IntegerType)

/-! ## Patterns -/

/-- Every type has a pattern. -/
theorem patterns_pos : 0 < t.patterns :=
  Nat.pow_pos (by decide)

/-- With a sign, half of the patterns are those of negative integers. -/
theorem two_mul_half_patterns : 2 * (t.patterns / 2) = t.patterns := by
  have hwidth : t.width.bytes ≠ 0 := by cases t.width <;> decide
  exact Nat.mul_div_cancel' (dvd_pow (by decide) hwidth)

/-- The pattern of an integer is its remainder by the number of patterns. -/
theorem toPattern_eq_emod (n : Int) : (t.toPattern n : Int) = n % t.patterns := by
  have hpos := t.patterns_pos
  exact Int.toNat_of_nonneg (Int.emod_nonneg n (by omega))

/-- The pattern of an integer is one of the patterns. -/
theorem toPattern_lt (n : Int) : t.toPattern n < t.patterns := by
  have hpos := t.patterns_pos
  have hlt := Int.emod_lt_of_pos n (show (0 : Int) < t.patterns by omega)
  rw [← toPattern_eq_emod] at hlt
  omega

/-- A pattern stands for an integer of the type. -/
theorem contains_ofPattern {m : Nat} (h : m < t.patterns) : t.Contains (t.ofPattern m) := by
  have hhalf := t.two_mul_half_patterns
  unfold Contains greatest least ofPattern
  cases t.signed
  · simp only [Bool.false_eq_true, false_and, if_false]
    omega
  · simp only [true_and, if_true]
    split <;> omega

/-- The pattern of an integer that a pattern stands for is that pattern. -/
theorem toPattern_ofPattern {m : Nat} (h : m < t.patterns) : t.toPattern (t.ofPattern m) = m := by
  have hpattern : (m : Int) % t.patterns = m := Int.emod_eq_of_lt (by omega) (by omega)
  unfold toPattern ofPattern
  split
  · rw [Int.sub_emod_right, hpattern, Int.toNat_natCast]
  · rw [hpattern, Int.toNat_natCast]

/-- A type has one integer only for a pattern: its integers are as many in a row as there are
patterns. -/
theorem eq_of_toPattern_eq {a b : Int} (ha : t.Contains a) (hb : t.Contains b)
    (h : t.toPattern a = t.toPattern b) : a = b := by
  have hmod : a % t.patterns = b % t.patterns := by
    rw [← toPattern_eq_emod, h, toPattern_eq_emod]
  have hdvd : (t.patterns : Int) ∣ a - b :=
    Int.dvd_of_emod_eq_zero (Int.emod_eq_emod_iff_emod_sub_eq_zero.1 hmod)
  obtain ⟨hla, hga⟩ := ha
  obtain ⟨hlb, hgb⟩ := hb
  unfold greatest at hga hgb
  have hclose : |a - b| < t.patterns := abs_lt.2 ⟨by omega, by omega⟩
  exact sub_eq_zero.1 (Int.eq_zero_of_abs_lt_dvd hdvd hclose)

/-- An integer of the type is what its pattern stands for. -/
theorem ofPattern_toPattern {n : Int} (h : t.Contains n) : t.ofPattern (t.toPattern n) = n :=
  t.eq_of_toPattern_eq (t.contains_ofPattern (t.toPattern_lt n)) h
    (t.toPattern_ofPattern (t.toPattern_lt n))

section
variable (order : ByteOrder) {bs : List UInt8} {n : Int}

/-- An integer is written with as many bytes as its type is wide. -/
theorem length_encode (n : Int) : (t.encode order n).length = t.width.bytes :=
  order.length_digits _ _

/-- An integer of the type is what the bytes stand for that it is written with. -/
theorem ofPattern_encode (h : t.Contains n) :
    t.ofPattern (order.number (t.encode order n)) = n := by
  have hmod : t.toPattern n % 256 ^ t.width.bytes = t.toPattern n :=
    Nat.mod_eq_of_lt (t.toPattern_lt n)
  rw [encode, order.number_digits, hmod, t.ofPattern_toPattern h]

/-- As many bytes as the type is wide stand for an integer just when it is an integer of the type
and is written with them. -/
theorem eq_ofPattern_iff :
    bs.length = t.width.bytes ∧ n = t.ofPattern (order.number bs) ↔
      t.Contains n ∧ bs = t.encode order n := by
  refine ⟨fun h => ?_, fun h => ?_⟩
  · obtain ⟨hlength, rfl⟩ := h
    have hlt : order.number bs < t.patterns := by
      have := order.number_lt bs
      rwa [hlength] at this
    refine ⟨t.contains_ofPattern hlt, ?_⟩
    rw [encode, t.toPattern_ofPattern hlt, ← hlength, order.digits_number]
  · obtain ⟨hn, rfl⟩ := h
    exact ⟨t.length_encode order n, (t.ofPattern_encode order hn).symm⟩

/-- Integers of a type that are written with the same bytes are the same. -/
theorem eq_of_encode_eq {a b : Int} (ha : t.Contains a) (hb : t.Contains b)
    (h : t.encode order a = t.encode order b) : a = b := by
  rw [← t.ofPattern_encode order ha, h, t.ofPattern_encode order hb]

end

/-- Without a sign, a pattern stands for its number. -/
theorem ofPattern_unsigned (w : Width) (m : Nat) : ofPattern ⟨w, false⟩ m = m :=
  if_neg nofun

/-- There are as many patterns as the bits of the type can make. -/
theorem patterns_eq_two_pow : t.patterns = 2 ^ (8 * t.width.bytes) :=
  (Nat.pow_mul 2 8 t.width.bytes).symm

/-- With a sign, a pattern stands for what its bits are in two's complement. -/
theorem ofPattern_signed (w : Width) {m : Nat} (h : m < patterns ⟨w, true⟩) :
    ofPattern ⟨w, true⟩ m = (BitVec.ofInt (8 * w.bytes) m).toInt := by
  have hhalf := two_mul_half_patterns ⟨w, true⟩
  have hpattern : (m : Int) % patterns ⟨w, true⟩ = m := Int.emod_eq_of_lt (by omega) (by omega)
  rw [BitVec.toInt_ofInt, ← patterns_eq_two_pow ⟨w, true⟩, Int.bmod_def, hpattern]
  simp only [ofPattern, true_and]
  split <;> split <;> omega

end IntegerType

/-! ## Readings -/

/-- What is made of the bytes of integers: for each type and order, the integer that as many bytes
as the type is wide stand for. -/
abbrev IntegerReading : Type := IntegerType → ByteOrder → List UInt8 → Int

namespace IntegerReading

/-- A reading goes by the places of the bytes; a sign changes what their bits stand for to two's
complement. -/
structure Positional (read : IntegerReading) : Prop where
  unsigned (w : Width) (order : ByteOrder) {bs : List UInt8} : bs.length = w.bytes →
    read ⟨w, false⟩ order bs = ∑ i : Fin bs.length, bs[i].toNat * order.weight bs.length i
  signed (w : Width) (order : ByteOrder) {bs : List UInt8} : bs.length = w.bytes →
    read ⟨w, true⟩ order bs = (BitVec.ofInt (8 * w.bytes) (read ⟨w, false⟩ order bs)).toInt

/-- The reading that takes bytes for the pattern of an integer. -/
def ofPattern : IntegerReading := fun t order bs =>
  t.ofPattern (order.number bs)

/-- The reading by patterns goes by the places of the bytes. -/
theorem ofPattern_positional : ofPattern.Positional where
  unsigned w order bs _ := by
    rw [ofPattern, IntegerType.ofPattern_unsigned, order.number_eq_sum]
  signed w order bs h := by
    have hlt := order.number_lt bs
    rw [h] at hlt
    rw [ofPattern, ofPattern, IntegerType.ofPattern_unsigned, IntegerType.ofPattern_signed w hlt]

/-- All readings by places are the same on as many bytes as a type is wide. -/
theorem Positional.eq_ofPattern {read : IntegerReading} (hread : read.Positional)
    (t : IntegerType) (order : ByteOrder) {bs : List UInt8} (h : bs.length = t.width.bytes) :
    read t order bs = t.ofPattern (order.number bs) := by
  obtain ⟨w, signed⟩ := t
  have hunsigned : read ⟨w, false⟩ order bs = ofPattern ⟨w, false⟩ order bs := by
    rw [hread.unsigned w order h, ofPattern_positional.unsigned w order h]
  cases signed with
  | false => exact hunsigned
  | true =>
    rw [hread.signed w order h, hunsigned, ← ofPattern_positional.signed w order h]
    rfl

end IntegerReading

end Wire
