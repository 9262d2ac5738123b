import Mathlib.Logic.Function.Iterate
import Wire.Checksum.Crc16
import Wire.Proofs.Bits.Division

/-!
# The check as a division

The register takes in bytes with a table, and what it does is to divide: after some bytes it holds
what long division by x¹⁶ + x¹² + x⁵ + 1 leaves of their bits with 16 more behind them, where the
first 16 bits have the initial register added to them (`register_eq_remainder`). Two steps lead
there. A byte from the table is eight bits one after another (`step_eq_foldl`), since taking in bits
is linear and only the high byte of the register can meet the polynomial in eight shifts
(`iterate_shift_eight`). And a bit that is taken in is a step of the division of what the register
stands over (`divisionStep_feed`).
-/

namespace Wire.Crc16

variable {r : Register}

/-! ## Bytes of the register -/

section
variable {w i : Nat} (h : i < w)
include h

/-- Bits counted from the highest one are those of the number, counted from the lowest one. -/
theorem getMsbD_eq_testBit (x : BitVec w) : x.getMsbD i = x.toNat.testBit (w - 1 - i) := by
  rw [BitVec.getMsbD_eq_getLsbD, decide_eq_true h, Bool.true_and, BitVec.getLsbD]

/-- The bits of a number as a word are those of the number. -/
theorem getMsbD_ofNat (n : Nat) : (BitVec.ofNat w n).getMsbD i = n.testBit (w - 1 - i) := by
  have hplace : w - 1 - i < w := by omega
  rw [getMsbD_eq_testBit h, BitVec.toNat_ofNat, Nat.testBit_mod_two_pow, decide_eq_true hplace,
    Bool.true_and]

end

/-- A byte in the place of the high one has its bits first, and then none that is set. -/
theorem getMsbD_ofHighByte (b : UInt8) {i : Nat} (h : i < 16) :
    (ofHighByte b).getMsbD i = b.toBitVec.getMsbD i := by
  rw [ofHighByte, getMsbD_ofNat h, show 256 * b.toNat = 2 ^ 8 * b.toNat from rfl,
    Nat.testBit_two_pow_mul]
  by_cases hbyte : i < 8
  · have hplace : 16 - 1 - i - 8 = 8 - 1 - i := by omega
    rw [getMsbD_eq_testBit hbyte, hplace, decide_eq_true (by omega), Bool.true_and]
    rfl
  · rw [BitVec.getMsbD_of_ge _ _ (Nat.le_of_not_lt hbyte), decide_eq_false (by omega),
      Bool.false_and]

/-- The bits of the high byte are the first ones of the register. -/
theorem getMsbD_highByte (r : Register) {i : Nat} (h : i < 8) :
    (highByte r).toBitVec.getMsbD i = r.getMsbD i := by
  have hplace : 8 - 1 - i + 8 = 16 - 1 - i := by omega
  rw [highByte, UInt8.toBitVec_ofNat', getMsbD_ofNat h, getMsbD_eq_testBit (by omega),
    show r.toNat / 256 = r.toNat / 2 ^ 8 from rfl, Nat.testBit_div_two_pow, hplace]

/-- The bits of the low byte are the last ones of the register. -/
theorem getMsbD_lowByte (r : Register) {i : Nat} (h : i < 8) :
    (lowByte r).toBitVec.getMsbD i = r.getMsbD (8 + i) := by
  have hplace : 16 - 1 - (8 + i) = 8 - 1 - i := by omega
  rw [lowByte, UInt8.toBitVec_ofNat', getMsbD_ofNat h, getMsbD_eq_testBit (by omega),
    show r.toNat % 256 = r.toNat % 2 ^ 8 from rfl, Nat.testBit_mod_two_pow, hplace,
    decide_eq_true (by omega), Bool.true_and]

/-- A register is no other than that with its two bytes. -/
theorem bytesOf_injective : Function.Injective bytesOf := by
  intro r s h
  have hlow : lowByte r = lowByte s := (List.cons.inj h).1
  have hhigh : highByte r = highByte s := (List.cons.inj (List.cons.inj h).2).1
  apply BitVec.eq_of_getMsbD_eq
  intro i hi
  rcases Nat.lt_or_ge i 8 with hfirst | hlast
  · rw [← getMsbD_highByte r hfirst, hhigh, getMsbD_highByte s hfirst]
  · obtain ⟨j, rfl⟩ := Nat.exists_eq_add_of_le hlast
    have hj : j < 8 := by omega
    rw [← getMsbD_lowByte r hj, hlow, getMsbD_lowByte s hj]

/-- The low byte of a register, in its place. -/
def lowPart (r : Register) : Register :=
  r &&& 0x00FF#16

/-- In the low part of a register, the first eight bits are not set. -/
theorem getMsbD_lowPart (r : Register) {i : Nat} :
    (lowPart r).getMsbD i = (decide (8 ≤ i) && r.getMsbD i) := by
  have hmask : ∀ i < 16, (0x00FF#16).getMsbD i = decide (8 ≤ i) := by decide
  by_cases h : i < 16
  · rw [lowPart, BitVec.getMsbD_and, hmask i h, Bool.and_comm]
  · rw [BitVec.getMsbD_of_ge _ _ (by omega), BitVec.getMsbD_of_ge r _ (by omega), Bool.and_false]

/-- A register is its two bytes in their places. -/
theorem ofHighByte_xor_lowPart (r : Register) : ofHighByte (highByte r) ^^^ lowPart r = r := by
  apply BitVec.eq_of_getMsbD_eq
  intro i hi
  rw [BitVec.getMsbD_xor, getMsbD_ofHighByte _ hi, getMsbD_lowPart]
  by_cases h : i < 8
  · simp [getMsbD_highByte r h, show ¬ 8 ≤ i by omega]
  · rw [BitVec.getMsbD_of_ge _ _ (by omega)]
    simp [show 8 ≤ i by omega]

/-! ## Taking in bits -/

/-- What is subtracted for a bit that leaves the register. -/
def subtrahend (b : Bool) : Register :=
  if b then polynomial else 0

/-- Of two bits that are set, what is subtracted for them cancels. -/
theorem subtrahend_xor (a b : Bool) : subtrahend (a ^^ b) = subtrahend a ^^^ subtrahend b := by
  cases a <;> cases b <;> rfl

/-- The register after one more bit, which meets the one that leaves the register. -/
def feed (r : Register) (b : Bool) : Register :=
  (r <<< 1) ^^^ subtrahend (r.msb ^^ b)

/-- Taking in a bit is linear in the register and the bit together. -/
theorem feed_xor (r s : Register) (a b : Bool) :
    feed (r ^^^ s) (a ^^ b) = feed r a ^^^ feed s b := by
  have hleaving : ((r ^^^ s).msb ^^ (a ^^ b)) = ((r.msb ^^ a) ^^ (s.msb ^^ b)) := by
    rw [BitVec.msb_xor, Bool.xor_assoc, Bool.xor_assoc, Bool.xor_left_comm s.msb]
  unfold feed
  rw [hleaving, subtrahend_xor, BitVec.shiftLeft_xor_distrib]
  ac_rfl

/-- Taking in bits is linear in the register and the bits together. -/
theorem foldl_feed_xor : ∀ {xs ys : List Bool}, xs.length = ys.length → ∀ r s : Register,
    (List.zipWith xor xs ys).foldl feed (r ^^^ s) = xs.foldl feed r ^^^ ys.foldl feed s
  | [], [], _, _, _ => rfl
  | x :: xs, y :: ys, h, r, s => by
    rw [List.zipWith_cons_cons, List.foldl_cons, feed_xor, foldl_feed_xor (Nat.succ.inj h)]
    rfl

/-- To take in a bit that is not set is to shift. -/
theorem feed_false (r : Register) : feed r false = shift r := by
  rw [feed, shift, Bool.xor_false, subtrahend]
  split
  · rfl
  · exact BitVec.xor_zero

/-- To take in bits that are not set is to shift as often. -/
theorem foldl_feed_replicate_false (n : Nat) (r : Register) :
    (List.replicate n false).foldl feed r = shift^[n] r := by
  induction n generalizing r with
  | zero => rfl
  | succ n ih => rw [List.replicate_succ, List.foldl_cons, feed_false, ih,
      Function.iterate_succ_apply]

/-- Shifts are linear in the register. -/
theorem iterate_shift_xor (n : Nat) (r s : Register) :
    shift^[n] (r ^^^ s) = shift^[n] r ^^^ shift^[n] s := by
  have hzero : List.zipWith xor (List.replicate n false) (List.replicate n false) =
      List.replicate n false := by simp
  simp only [← foldl_feed_replicate_false, ← foldl_feed_xor rfl, hzero]

/-- As long as no set bit leaves the register, shifts only move it up. -/
theorem iterate_shift_of_clear : ∀ {n : Nat}, (∀ i < n, r.getMsbD i = false) →
    shift^[n] r = r <<< n
  | 0, _ => (BitVec.shiftLeft_zero r).symm
  | n + 1, h => by
    have hmsb : (r <<< n).msb = false := by
      rw [BitVec.msb_shiftLeft]
      exact h n (Nat.lt_succ_self n)
    rw [Function.iterate_succ_apply', iterate_shift_of_clear fun i hi => h i (by omega), shift,
      hmsb, if_neg Bool.false_ne_true, BitVec.shiftLeft_add]

/-- Eight shifts move the low byte up and put in place of the high byte what the table has for
it. -/
theorem iterate_shift_eight (r : Register) :
    shift^[8] r = (r <<< 8) ^^^ reduce (highByte r) := by
  have hlow : shift^[8] (lowPart r) = r <<< 8 := by
    rw [iterate_shift_of_clear fun i hi => by simp [getMsbD_lowPart, show ¬ 8 ≤ i by omega]]
    apply BitVec.eq_of_getMsbD_eq
    intro i hi
    simp [getMsbD_lowPart]
  have hhigh : shift^[8] (ofHighByte (highByte r)) = reduce (highByte r) := rfl
  calc shift^[8] r = shift^[8] (ofHighByte (highByte r) ^^^ lowPart r) := by
        rw [ofHighByte_xor_lowPart]
    _ = (r <<< 8) ^^^ reduce (highByte r) := by
        rw [iterate_shift_xor, hlow, hhigh, BitVec.xor_comm]

/-! ## Taking in bytes -/

/-- An empty register takes in a byte as the table says. -/
theorem foldl_feed_byte (b : UInt8) : (Bits.ofBitVec b.toBitVec).foldl feed 0#16 = reduce b := by
  have hall : ∀ x : BitVec 8, (Bits.ofBitVec x).foldl feed 0#16 = reduce (.ofBitVec x) := by
    decide +kernel
  exact hall b.toBitVec

/-- What the table has for a byte is linear in the byte. -/
theorem reduce_xor (a b : UInt8) : reduce (a ^^^ b) = reduce a ^^^ reduce b := by
  rw [← foldl_feed_byte, UInt8.toBitVec_xor, Bits.ofBitVec_xor, ← foldl_feed_byte,
    ← foldl_feed_byte, ← foldl_feed_xor (by simp)]
  rfl

/-- The table has for each byte what eight shifts make of it. -/
theorem table_get (b : UInt8) : table.get b.toFin = reduce b :=
  (Vector.getElem_ofFn _).trans (congrArg reduce UInt8.ofNat_toNat)

/-- A byte that is taken in with the table is eight bits one after another. -/
theorem step_eq_foldl (r : Register) (b : UInt8) :
    step r b = (Bits.ofBitVec b.toBitVec).foldl feed r := by
  have hbits : List.zipWith xor (List.replicate 8 false) (Bits.ofBitVec b.toBitVec) =
      Bits.ofBitVec b.toBitVec := by
    rw [show List.replicate 8 false = Bits.ofBitVec 0#8 from rfl, ← Bits.ofBitVec_xor,
      BitVec.zero_xor]
  calc step r b = (r <<< 8) ^^^ (reduce (highByte r) ^^^ reduce b) := by
        rw [step, table_get, reduce_xor]
    _ = shift^[8] r ^^^ reduce b := by rw [iterate_shift_eight, BitVec.xor_assoc]
    _ = (List.replicate 8 false).foldl feed r ^^^ (Bits.ofBitVec b.toBitVec).foldl feed 0#16 := by
        rw [foldl_feed_replicate_false, foldl_feed_byte]
    _ = (Bits.ofBitVec b.toBitVec).foldl feed r := by
        rw [← foldl_feed_xor (by simp), hbits, BitVec.xor_zero]

/-- The register takes in the bits of bytes, one after another. -/
theorem register_eq_foldl (initial : Register) (bs : List UInt8) :
    register initial bs = (Bits.ofBytes bs).foldl feed initial := by
  induction bs generalizing initial with
  | nil => rfl
  | cons b bs ih =>
    rw [Bits.ofBytes, List.flatMap_cons, List.foldl_append, ← step_eq_foldl]
    exact ih (step initial b)

/-! ## Division -/

/-- The bits of x¹⁶ + x¹² + x⁵ + 1. -/
def divisor : List Bool :=
  true :: Bits.ofBitVec polynomial

/-- A register that stands over a bit and others takes the bit in by a step of the division. -/
theorem divisionStep_feed (r : Register) (b : Bool) (bits : List Bool) :
    Bits.divisionStep divisor (Bits.addFront (Bits.ofBitVec r) (b :: bits)) =
      Bits.addFront (Bits.ofBitVec (feed r b)) bits := by
  rw [Bits.ofBitVec_eq_cons r, Bits.addFront, divisor, Bits.divisionStep_cons, feed,
    BitVec.xor_comm, Bits.ofBitVec_xor, Bits.addFront_zipWith (by simp), Bits.ofBitVec_shiftLeft_one,
    Bits.addFront_append_false]
  cases r.msb ^^ b
  · exact (Bits.addFront_replicate_false 16 _).symm
  · rfl

/-- A register that stands over some bits and others takes the bits in by as many steps of the
division. -/
theorem divide_foldl_feed (rest : List Bool) : ∀ (bits : List Bool) (r : Register),
    Bits.divide divisor bits.length (Bits.addFront (Bits.ofBitVec r) (bits ++ rest)) =
      Bits.addFront (Bits.ofBitVec (bits.foldl feed r)) rest
  | [], _ => rfl
  | b :: bits, r => by
    rw [List.length_cons, Bits.divide, List.cons_append, divisionStep_feed,
      divide_foldl_feed rest bits, List.foldl_cons]

/-- What is divided: the bits of the bytes and 16 more, with the initial register added to the
first 16. -/
def dividend (initial : Register) (bs : List UInt8) : List Bool :=
  Bits.addFront (Bits.ofBitVec initial) (Bits.ofBytes bs ++ List.replicate 16 false)

/-- What the division leaves are the bits of the register. -/
theorem remainder_dividend (initial : Register) (bs : List UInt8) :
    Bits.remainder divisor (dividend initial bs) = Bits.ofBitVec (register initial bs) := by
  have hsteps : (dividend initial bs).length + 1 - divisor.length = (Bits.ofBytes bs).length := by
    simp [dividend, divisor]
  have hrest := Bits.addFront_to_replicate_false (Bits.ofBitVec (register initial bs))
  rw [Bits.length_ofBitVec] at hrest
  rw [Bits.remainder, hsteps, dividend, divide_foldl_feed, ← register_eq_foldl, hrest]

/-! ## The remainder -/

open Polynomial

/-- The divisor as a polynomial. -/
theorem toPolynomial_divisor : Bits.toPolynomial divisor = X ^ 16 + X ^ 12 + X ^ 5 + 1 := by
  have hbits : divisor = [true, false, false, false, true, false, false, false, false, false, false,
      true, false, false, false, false, true] := by decide
  rw [hbits]
  simp [Bits.toPolynomial]
  ring

/-- The dividend as a polynomial: the bytes with 16 zeros behind them, and the initial register over
the first bits of that. -/
theorem toPolynomial_dividend (initial : Register) (bs : List UInt8) :
    Bits.toPolynomial (dividend initial bs) =
      Bits.toPolynomial (Bits.ofBytes bs) * X ^ 16 +
        Bits.toPolynomial (Bits.ofBitVec initial) * X ^ (8 * bs.length) := by
  rw [dividend, Bits.toPolynomial_addFront (by simp), Bits.toPolynomial_append,
    Bits.toPolynomial_replicate_false, add_zero, List.length_append, Bits.length_ofBytes,
    List.length_replicate, Bits.length_ofBitVec, Nat.add_sub_cancel, add_comm]

/-- The bytes of a register are its last eight bits and then its first eight. -/
theorem ofBytes_bytesOf (r : Register) :
    Bits.ofBytes (bytesOf r) = (Bits.ofBitVec r).drop 8 ++ (Bits.ofBitVec r).take 8 := by
  have hlow : Bits.ofBitVec (lowByte r).toBitVec = (Bits.ofBitVec r).drop 8 := by
    apply List.ext_getElem
    · simp
    · intro i hi _
      rw [Bits.length_ofBitVec] at hi
      rw [List.getElem_drop, Bits.getElem_ofBitVec, Bits.getElem_ofBitVec, getMsbD_lowByte r hi]
  have hhigh : Bits.ofBitVec (highByte r).toBitVec = (Bits.ofBitVec r).take 8 := by
    apply List.ext_getElem
    · simp
    · intro i hi _
      rw [Bits.length_ofBitVec] at hi
      rw [List.getElem_take, Bits.getElem_ofBitVec, Bits.getElem_ofBitVec, getMsbD_highByte r hi]
  simp [Bits.ofBytes, bytesOf, hlow, hhigh]

/-- From every initial register, the register after some bytes is what long division leaves of their
bits with 16 zeros behind them and the initial register added to the first 16 bits. As polynomials
that is the remainder by x¹⁶ + x¹² + x⁵ + 1. A digest is the last eight bits of the remainder and
then the first eight. -/
theorem register_eq_remainder (initial : Register) (bs : List UInt8) :
    Bits.ofBitVec (register initial bs) = Bits.remainder divisor
        (Bits.addFront (Bits.ofBitVec initial) (Bits.ofBytes bs ++ List.replicate 16 false)) ∧
      Bits.toPolynomial (Bits.ofBitVec (register initial bs)) =
        (Bits.toPolynomial (Bits.ofBytes bs) * X ^ 16 +
          Bits.toPolynomial (Bits.ofBitVec initial) * X ^ (8 * bs.length)) %ₘ
            (X ^ 16 + X ^ 12 + X ^ 5 + 1) ∧
      ∀ preset : Preset, Bits.ofBytes ((checksum preset).digest bs) =
        (Bits.remainder divisor (dividend preset.initial bs)).drop 8 ++
          (Bits.remainder divisor (dividend preset.initial bs)).take 8 := by
  refine ⟨(remainder_dividend initial bs).symm, ?_, fun preset => ?_⟩
  · rw [← toPolynomial_divisor, ← toPolynomial_dividend, ← remainder_dividend, divisor,
      Bits.toPolynomial_remainder]
  · rw [remainder_dividend]
    exact ofBytes_bytesOf (crc preset bs)

/-- The division of the usual check text, "123456789". -/
example : Bits.remainder divisor
    (dividend 0xFFFF#16 [0x31, 0x32, 0x33, 0x34, 0x35, 0x36, 0x37, 0x38, 0x39]) =
      Bits.ofBitVec 0x29B1#16 := by decide +kernel

end Wire.Crc16
