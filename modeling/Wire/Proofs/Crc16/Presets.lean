import Mathlib.Data.BitVec
import Mathlib.Data.Fintype.EquivFin
import Wire.Proofs.Crc16
import Wire.Proofs.Digest

/-!
# Registers that stay apart

The lowest bit of the register after one more bit tells which bit has left it, since the polynomial
has a constant term. So nothing is lost: two registers that take in the same bits stay two
(`Crc16.feed_injective`), and some bytes take the registers one to one to all registers
(`Crc16.register_bijective`). A digest therefore belongs to one preset only, and what is sent under
one is refused under any other (`Crc16.presets_exclude`).
-/

namespace Wire.Crc16

/-- The polynomial has a constant term. -/
theorem getLsbD_zero_subtrahend (b : Bool) : (subtrahend b).getLsbD 0 = b := by
  cases b <;> decide

/-- The lowest bit of the register is that of the polynomial, if it was subtracted. -/
theorem getLsbD_zero_feed (r : Register) (b : Bool) : (feed r b).getLsbD 0 = (r.msb ^^ b) := by
  have hmoved : (r <<< 1).getLsbD 0 = false := by simp
  rw [feed, BitVec.getLsbD_xor, hmoved, Bool.false_xor, getLsbD_zero_subtrahend]

/-- A register is known from what it is after one more bit. -/
theorem feed_injective (b : Bool) : Function.Injective fun r => feed r b := by
  intro r s h
  have hlowest := congrArg (BitVec.getLsbD · 0) h
  simp only [getLsbD_zero_feed] at hlowest
  have hmsb : r.msb = s.msb := Bool.xor_left_inj.1 hlowest
  have hmoved : r <<< 1 = s <<< 1 := by
    simp only [feed, hmsb] at h
    exact (BitVec.xor_left_inj _).1 h
  have htail : (Bits.ofBitVec r).tail = (Bits.ofBitVec s).tail := by
    have hbits := congrArg Bits.ofBitVec hmoved
    rw [Bits.ofBitVec_shiftLeft_one, Bits.ofBitVec_shiftLeft_one] at hbits
    exact List.append_cancel_right hbits
  apply Bits.ofBitVec_injective
  rw [Bits.ofBitVec_eq_cons r, Bits.ofBitVec_eq_cons s, hmsb, htail]

/-- A register is known from what it is after more bits. -/
theorem foldl_feed_injective (bits : List Bool) :
    Function.Injective fun r => bits.foldl feed r := by
  induction bits with
  | nil => exact fun _ _ h => h
  | cons b bits ih => exact fun _ _ h => feed_injective b (ih h)

/-- Some bytes take the registers one to one to all registers. -/
theorem register_bijective (bs : List UInt8) :
    Function.Bijective fun initial => register initial bs := by
  have hfinite : Finite Register := .of_equiv _ BitVec.equivFin.symm.toEquiv
  refine Finite.injective_iff_bijective.1 fun r s h => ?_
  simp only [register_eq_foldl] at h
  exact foldl_feed_injective _ h

/-- Every preset has a register of its own. -/
theorem initial_injective : Function.Injective Preset.initial := by
  intro A B h
  cases A <;> cases B <;> simp_all [Preset.initial]

/-- The same bytes have another digest under another preset. -/
theorem digest_ne_of_preset {A B : Preset} (hne : A ≠ B) (bs : List UInt8) :
    (checksum A).digest bs ≠ (checksum B).digest bs := by
  intro heq
  have hregister : register A.initial bs = register B.initial bs := bytesOf_injective heq
  exact hne (initial_injective ((register_bijective bs).1 hregister))

/-- Some bytes take the initial registers one to one to all registers. So what a conforming parser
takes is never accepted with its check from one preset and from another one too. -/
theorem presets_exclude :
    (∀ bs : List UInt8, Function.Bijective fun initial => register initial bs) ∧
      ∀ {α : Type} {p : Parser α} {c : Cursor} {A B : Preset}, p.Conforming → c.Valid → A ≠ B →
        ¬ ((∃ v r, Parser.withDigest p (checksum A) c = .success v r) ∧
          ∃ w s, Parser.withDigest p (checksum B) c = .success w s) := by
  refine ⟨register_bijective, ?_⟩
  rintro α p c A B hp hc hne ⟨⟨v, r, hA⟩, w, s, hB⟩
  obtain ⟨d, hrun, -, hdigestA, -⟩ := (Parser.withDigest_eq_success_iff hp _ hc).1 hA
  obtain ⟨d', hrun', -, hdigestB, -⟩ := (Parser.withDigest_eq_success_iff hp _ hc).1 hB
  -- Both runs take the same bytes, and compare the same two bytes behind them.
  rw [hrun] at hrun'
  cases hrun'
  exact digest_ne_of_preset hne _ (hdigestA.symm.trans hdigestB)

/-- Two bytes inside a buffer with their check from one preset are refused under the two others. -/
theorem presets_exclude_ones :
    let c : Cursor := ⟨.of #[7, 0x31, 0x32, 0xBA, 0x3D, 9], 1, 5⟩
    (Parser.bytes 2).Conforming ∧ c.Valid ∧
      Parser.withDigest (Parser.bytes 2) (checksum .ones) c =
        .success [0x31, 0x32] (c.advance 4) ∧
      (∀ v r, Parser.withDigest (Parser.bytes 2) (checksum .zeros) c ≠ .success v r) ∧
      ∀ v r, Parser.withDigest (Parser.bytes 2) (checksum .augmented) c ≠ .success v r := by
  intro c
  have hp : (Parser.bytes 2).Conforming :=
    (Parser.obeys_bytes (Discipline.confined_lawful True fun _ => True) 2).conforming
  have hc : c.Valid := by decide
  have hdigest : (checksum .ones).digest [0x31, 0x32] = [0xBA, 0x3D] :=
    (congrArg bytesOf (register_eq_foldl _ _)).trans (by decide)
  have hones : Parser.withDigest (Parser.bytes 2) (checksum .ones) c =
      .success [0x31, 0x32] (c.advance 4) :=
    (Parser.withDigest_eq_success_iff hp _ hc).2
      ⟨c.advance 2, by decide, by decide, hdigest.symm, rfl⟩
  refine ⟨hp, hc, hones, fun v r hother => ?_, fun v r hother => ?_⟩
  · exact presets_exclude.2 hp hc (by decide) ⟨⟨_, _, hones⟩, v, r, hother⟩
  · exact presets_exclude.2 hp hc (by decide) ⟨⟨_, _, hones⟩, v, r, hother⟩

end Wire.Crc16
