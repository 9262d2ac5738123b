import Mathlib.Data.Nat.Bits
import Wire.Proofs.Crc16

/-!
# Errors of odd weight

The divisor of the check has an even number of terms, so subtracting it leaves an odd number of set
bits odd and an even one even: whether that number is odd changes only with the bits that are taken
in (`Crc16.parity_feed`). The register then tells whether it is odd for the initial register and all
bits so far (`Crc16.register_parity`), and an error in an odd number of bits leaves another digest.
-/

namespace Wire

/-! ## Parity of a row of bits -/

namespace Bits

/-- The number of set bits is odd. -/
def parity (bits : List Bool) : Bool :=
  (bits.count true).bodd

/-- A bit in front changes the parity if it is set. -/
theorem parity_cons (b : Bool) (bits : List Bool) : parity (b :: bits) = (b ^^ parity bits) := by
  rw [parity, List.count_cons, Nat.bodd_add, Bool.xor_comm, parity]
  cases b <;> rfl

/-- The parity of two rows is that of both together. -/
theorem parity_append (xs ys : List Bool) : parity (xs ++ ys) = (parity xs ^^ parity ys) := by
  rw [parity, List.count_append, Nat.bodd_add, parity, parity]

/-- Set bits that meet go out in pairs. -/
theorem parity_zipWith_xor : ∀ {xs ys : List Bool}, xs.length = ys.length →
    parity (List.zipWith xor xs ys) = (parity xs ^^ parity ys)
  | [], [], _ => rfl
  | x :: xs, y :: ys, h => by
    rw [List.zipWith_cons_cons, parity_cons, parity_cons, parity_cons,
      parity_zipWith_xor (Nat.succ.inj h), Bool.xor_assoc, Bool.xor_assoc, Bool.xor_left_comm y]

end Bits

/-! ## Parity of the register -/

namespace Crc16

open Bits

/-- The polynomial has an odd number of set bits below the leading one. -/
theorem parity_subtrahend (b : Bool) : parity (ofBitVec (subtrahend b)) = b := by
  cases b <;> decide

/-- A bit that is taken in changes the parity if it is set. The bit that leaves the register and
the polynomial that is subtracted for it make up for each other. -/
theorem parity_feed (r : Register) (b : Bool) :
    parity (ofBitVec (feed r b)) = (parity (ofBitVec r) ^^ b) := by
  have hlength : (ofBitVec (r <<< 1)).length = (ofBitVec (subtrahend (r.msb ^^ b))).length := by
    simp
  have hmoved : parity (ofBitVec (r <<< 1)) = parity (ofBitVec r).tail := by
    rw [ofBitVec_shiftLeft_one, parity_append]
    exact Bool.xor_false _
  have hleaving : parity (ofBitVec r) = (r.msb ^^ parity (ofBitVec r).tail) := by
    rw [← parity_cons, ← ofBitVec_eq_cons]
  rw [feed, ofBitVec_xor, parity_zipWith_xor hlength, hmoved, parity_subtrahend, hleaving,
    Bool.xor_left_comm, Bool.xor_assoc]

/-- Bits that are taken in change the parity by theirs. -/
theorem parity_foldl_feed (bits : List Bool) (r : Register) :
    parity (ofBitVec (bits.foldl feed r)) = (parity (ofBitVec r) ^^ parity bits) := by
  induction bits generalizing r with
  | nil => exact (Bool.xor_false _).symm
  | cons b bits ih => rw [List.foldl_cons, ih, parity_feed, parity_cons, Bool.xor_assoc]

/-- From every initial register, the number of set bits of the register after some bytes is odd just
when that of the initial register and all bits of the bytes together is. So from one preset, bytes
that differ in that, of whatever lengths, never have the same digest. -/
theorem register_parity :
    (∀ (initial : Register) (bs : List UInt8), parity (ofBitVec (register initial bs)) =
        (parity (ofBitVec initial) ^^ parity (ofBytes bs))) ∧
      ∀ (preset : Preset) (bs bs' : List UInt8), parity (ofBytes bs) ≠ parity (ofBytes bs') →
        (checksum preset).digest bs ≠ (checksum preset).digest bs' := by
  have hregister (initial : Register) (bs : List UInt8) : parity (ofBitVec (register initial bs)) =
      (parity (ofBitVec initial) ^^ parity (ofBytes bs)) := by
    rw [register_eq_foldl, parity_foldl_feed]
  refine ⟨hregister, fun preset bs bs' hne heq => hne ?_⟩
  have hcrc : register preset.initial bs = register preset.initial bs' := bytesOf_injective heq
  have hparity := congrArg (fun r => parity (ofBitVec r)) hcrc
  simp only [hregister] at hparity
  exact Bool.xor_right_inj.1 hparity

/-- One set bit more, and a byte more that has none. -/
theorem register_parity_longer :
    let sent : List UInt8 := [0x31, 0x32]
    let found : List UInt8 := [0x31, 0x36, 0x00]
    parity (ofBitVec (crc .ones sent)) = false ∧ parity (ofBitVec (crc .ones found)) = true ∧
      (checksum .ones).digest sent ≠ (checksum .ones).digest found := by
  intro sent found
  have hne : parity (ofBytes sent) ≠ parity (ofBytes found) := by decide
  refine ⟨?_, ?_, register_parity.2 .ones sent found hne⟩
  · exact (register_parity.1 _ sent).trans (by decide)
  · exact (register_parity.1 _ found).trans (by decide)

end Crc16

end Wire
