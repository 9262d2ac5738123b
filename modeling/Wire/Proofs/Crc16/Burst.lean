import Mathlib.RingTheory.Coprime.Lemmas
import Wire.Proofs.Crc16
import Wire.Proofs.Digest
import Wire.Proofs.Format
import Wire.Run

/-!
# Burst errors

An error in transmission often spoils some bits in a row (`Bits.DifferWithin`). As polynomials, the
message that was sent and the one that came then differ by a few neighbouring powers, moved up by
the bits that follow. The divisor of the check has a constant term, so it has nothing in common with
a power of X and could only divide those few powers themselves, which are too low for it
(`Bits.DifferWithin.eq_of_dvd`). So a burst of at most 16 bits leaves another register, wherever it
falls in a message of whatever length, and the message is refused where its digest stands, as it is
with any two bytes in place of its digest (`burst_refused`).
-/

namespace Wire

/-! ## Rows that differ in a burst -/

namespace Bits

open Polynomial

/-- Two rows of bits are the same but for `width` bits in a row, wherever these start. -/
def DifferWithin (width : Nat) (xs ys : List Bool) : Prop :=
  ∃ start, ∀ i, xs[i]? ≠ ys[i]? → start ≤ i ∧ i < start + width

variable {width : Nat} {xs ys : List Bool}

/-- Rows that differ in a burst have the same bits in front of it and behind it. -/
theorem DifferWithin.split (h : DifferWithin width xs ys) (hlength : xs.length = ys.length) :
    ∃ front mid mid' back, xs = front ++ (mid ++ back) ∧ ys = front ++ (mid' ++ back) ∧
      mid.length = mid'.length ∧ mid.length ≤ width := by
  obtain ⟨start, hburst⟩ := h
  have hfront : xs.take start = ys.take start := by
    apply List.ext_getElem?
    intro i
    rw [List.getElem?_take, List.getElem?_take]
    split
    · by_contra hne
      have := hburst i hne
      omega
    · rfl
  have hback : xs.drop (start + width) = ys.drop (start + width) := by
    apply List.ext_getElem?
    intro i
    rw [List.getElem?_drop, List.getElem?_drop]
    by_contra hne
    have := hburst _ hne
    omega
  refine ⟨xs.take start, (xs.drop start).take width, (ys.drop start).take width,
    xs.drop (start + width), ?_, ?_, by simp [hlength], List.length_take_le _ _⟩
  · rw [← List.drop_drop, List.take_append_drop, List.take_append_drop]
  · rw [hfront, hback, ← List.drop_drop, List.take_append_drop, List.take_append_drop]

/-- When the divisor has nothing in common with a power of X, two rows that differ in a burst no
longer than a remainder do not differ by a multiple of it. -/
theorem DifferWithin.eq_of_dvd {low : List Bool} (h : DifferWithin low.length xs ys)
    (hlength : xs.length = ys.length) (hcoprime : IsCoprime (toPolynomial (true :: low)) X)
    (hdvd : toPolynomial (true :: low) ∣ toPolynomial xs - toPolynomial ys) : xs = ys := by
  obtain ⟨front, mid, mid', back, rfl, rfl, hmid, hwidth⟩ := h.split hlength
  have hsub : toPolynomial (front ++ (mid ++ back)) - toPolynomial (front ++ (mid' ++ back)) =
      (toPolynomial mid - toPolynomial mid') * X ^ back.length := by
    simp only [toPolynomial_append, List.length_append, hmid]
    ring
  have hburst : toPolynomial (true :: low) ∣ toPolynomial mid - toPolynomial mid' := by
    rw [hsub] at hdvd
    exact hcoprime.pow_right.dvd_of_dvd_mul_right hdvd
  have hdegree : (toPolynomial mid - toPolynomial mid').degree <
      (toPolynomial (true :: low)).degree := by
    have hmid' := degree_toPolynomial_lt mid'
    rw [← hmid] at hmid'
    have hwidth' : (mid.length : WithBot ℕ) ≤ low.length := by exact_mod_cast hwidth
    rw [degree_toPolynomial]
    calc (toPolynomial mid - toPolynomial mid').degree
        ≤ max (toPolynomial mid).degree (toPolynomial mid').degree := degree_sub_le _ _
      _ < mid.length := max_lt (degree_toPolynomial_lt mid) hmid'
      _ ≤ low.length := hwidth'
  have hzero := eq_zero_of_dvd_of_degree_lt hburst hdegree
  rw [toPolynomial_inj hmid (sub_eq_zero.1 hzero)]

end Bits

/-! ## The register after a burst -/

namespace Crc16

open Polynomial

/-- The divisor has a constant term, so it has nothing in common with X. -/
theorem isCoprime_divisor_X : IsCoprime (Bits.toPolynomial divisor) X :=
  ⟨1, -(X ^ 15 + X ^ 11 + X ^ 4), by rw [toPolynomial_divisor]; ring⟩

/-- Messages of one length that leave the same register differ by a multiple of the divisor. -/
theorem dvd_sub_of_register_eq {initial : Register} {bs bs' : List UInt8}
    (hlength : bs.length = bs'.length) (h : register initial bs = register initial bs') :
    Bits.toPolynomial divisor ∣
      Bits.toPolynomial (Bits.ofBytes bs) - Bits.toPolynomial (Bits.ofBytes bs') := by
  have hmonic : (Bits.toPolynomial divisor).Monic := Bits.monic_toPolynomial _
  have hremainder : Bits.toPolynomial (dividend initial bs) %ₘ Bits.toPolynomial divisor =
      Bits.toPolynomial (dividend initial bs') %ₘ Bits.toPolynomial divisor := by
    rw [divisor, ← Bits.toPolynomial_remainder, ← Bits.toPolynomial_remainder, ← divisor,
      remainder_dividend, remainder_dividend, h]
  have hdividend : Bits.toPolynomial divisor ∣
      Bits.toPolynomial (dividend initial bs) - Bits.toPolynomial (dividend initial bs') := by
    rw [← modByMonic_eq_zero_iff_dvd hmonic, sub_modByMonic, hremainder, sub_self]
  -- The initial register stands at the same place in both dividends and cancels.
  rw [toPolynomial_dividend, toPolynomial_dividend, hlength, add_sub_add_right_eq_sub,
    ← sub_mul] at hdividend
  exact isCoprime_divisor_X.pow_right.dvd_of_dvd_mul_right hdividend

/-- A burst of at most 16 bits leaves another register. -/
theorem register_ne_of_differWithin (initial : Register) {bs bs' : List UInt8}
    (hlength : bs'.length = bs.length) (hne : bs' ≠ bs)
    (hburst : Bits.DifferWithin 16 (Bits.ofBytes bs) (Bits.ofBytes bs')) :
    register initial bs ≠ register initial bs' := by
  intro heq
  have hbits : (Bits.ofBytes bs).length = (Bits.ofBytes bs').length := by simp [hlength]
  have hwidth : Bits.DifferWithin (Bits.ofBitVec polynomial).length (Bits.ofBytes bs)
      (Bits.ofBytes bs') := hburst
  have hsame := hwidth.eq_of_dvd hbits isCoprime_divisor_X
    (dvd_sub_of_register_eq hlength.symm heq)
  exact hne (Bits.ofBytes_injective hsame).symm

end Crc16

/-! ## Messages with a digest -/

/-- Bytes with others behind them than their digest are refused where the digest should stand. -/
theorem Parser.withDigest_bytes_of_ne {checksum : Checksum} {payload found : List UInt8}
    {c : Cursor} (hc : c.Valid) (hfront : payload ++ found <+: c.unread)
    (hlength : found.length = checksum.length) (hne : found ≠ checksum.digest payload) :
    withDigest (bytes payload.length) checksum c =
      .failure (.checksumMismatch (checksum.digest payload) found (c.advance payload.length)) := by
  obtain ⟨hpayload, hfound⟩ := Cursor.append_prefix_unread_iff.1 hfront
  have hconforming : (bytes payload.length).Conforming := (reads_bytes _).obeys.conforming
  have hrun : bytes payload.length c = .success payload (c.advance payload.length) :=
    ((reads_bytes _).success_iff hc).2 ⟨payload, ⟨rfl, rfl⟩, hpayload, rfl⟩
  obtain ⟨-, hcovered⟩ := span_of_prefix hc hpayload
  obtain ⟨henough, hread⟩ :=
    span_of_prefix ((Cursor.advance_prefix_inside hc hpayload).valid hc) hfound
  rw [hlength] at henough hread
  have hmismatch := withDigest_of_mismatch hconforming checksum hc hrun henough
    (by rwa [hread, hcovered])
  rwa [hread, hcovered] at hmismatch

namespace Crc16

/-- A buffer that holds bytes and two others than their digest is refused behind the bytes. -/
theorem tryParse_of_ne (preset : Preset) (address : Nat) {payload found : List UInt8}
    (hlength : found.length = 2) (hne : found ≠ (checksum preset).digest payload) :
    ∃ f, tryParse (Parser.withDigest (Parser.bytes payload.length) (checksum preset))
        ⟨address, (payload ++ found).toArray⟩ = .failure f ∧
      f.kind = .checksumMismatch ∧ f.position = payload.length := by
  have hunread :
      (Cursor.ofBuffer ⟨address, (payload ++ found).toArray⟩).unread = payload ++ found :=
    Cursor.unread_ofBuffer _
  exact ⟨_, Parser.withDigest_bytes_of_ne (Cursor.ofBuffer_valid _) (by rw [hunread]) hlength hne,
    rfl, Nat.zero_add _⟩

/-- A message that comes with a burst of at most 16 bits changed in it has another check than the
one that was sent, whatever the length of the message and the place of the burst. So it is refused
with the digest that was sent, at the place of the digest; and so is the message itself with any two
bytes behind it that are not its digest, wherever they are kept. -/
theorem burst_refused (preset : Preset) (payload : List UInt8) (address : Nat) :
    (∀ changed : List UInt8, changed.length = payload.length → changed ≠ payload →
      Bits.DifferWithin 16 (Bits.ofBytes payload) (Bits.ofBytes changed) →
      crc preset payload ≠ crc preset changed ∧
        ∃ f, tryParse (Parser.withDigest (Parser.bytes payload.length) (checksum preset))
            ⟨address, (changed ++ (checksum preset).digest payload).toArray⟩ = .failure f ∧
          f.kind = .checksumMismatch ∧ f.position = payload.length) ∧
      ∀ found : List UInt8, found.length = 2 → found ≠ (checksum preset).digest payload →
        ∃ f, tryParse (Parser.withDigest (Parser.bytes payload.length) (checksum preset))
            ⟨address, (payload ++ found).toArray⟩ = .failure f ∧
          f.kind = .checksumMismatch ∧ f.position = payload.length := by
  refine ⟨fun changed hlength hne hburst => ?_, fun found => tryParse_of_ne preset address⟩
  have hcrc : crc preset payload ≠ crc preset changed :=
    register_ne_of_differWithin preset.initial hlength hne hburst
  have hdigest : (checksum preset).digest payload ≠ (checksum preset).digest changed :=
    fun heq => hcrc (bytesOf_injective heq)
  obtain ⟨f, hrun, hkind, hposition⟩ := tryParse_of_ne preset address rfl hdigest
  rw [hlength] at hrun hposition
  exact ⟨hcrc, f, hrun, hkind, hposition⟩

/-- A burst over three bytes, and a digest with one byte changed. -/
theorem burst_refused_across :
    let payload : List UInt8 := [0x10, 0x20, 0x30, 0x40]
    let changed : List UInt8 := [0x18, 0x20, 0x20, 0x40]
    changed.length = payload.length ∧ changed ≠ payload ∧
      Bits.DifferWithin 16 (Bits.ofBytes payload) (Bits.ofBytes changed) ∧
      (checksum .augmented).digest payload = [0x20, 0xDE] ∧
      (∃ f, tryParse (Parser.withDigest (Parser.bytes 4) (checksum .augmented))
          ⟨0, (changed ++ (checksum .augmented).digest payload).toArray⟩ = .failure f ∧
        f.kind = .checksumMismatch ∧ f.position = 4) ∧
      ∃ f, tryParse (Parser.withDigest (Parser.bytes 4) (checksum .augmented))
          ⟨0, (payload ++ [0x20, 0xDF]).toArray⟩ = .failure f ∧
        f.kind = .checksumMismatch ∧ f.position = 4 := by
  intro payload changed
  have hlength : changed.length = payload.length := rfl
  have hne : changed ≠ payload := by decide
  have hburst : Bits.DifferWithin 16 (Bits.ofBytes payload) (Bits.ofBytes changed) := by
    refine ⟨4, fun i hi => ?_⟩
    have hin : i < 32 := by
      by_contra hout
      have hpayload : (Bits.ofBytes payload).length ≤ i := Nat.not_lt.1 hout
      have hchanged : (Bits.ofBytes changed).length ≤ i := Nat.not_lt.1 hout
      rw [List.getElem?_eq_none hpayload, List.getElem?_eq_none hchanged] at hi
      exact hi rfl
    have hall : ∀ i < 32, (Bits.ofBytes payload)[i]? ≠ (Bits.ofBytes changed)[i]? →
        4 ≤ i ∧ i < 4 + 16 := by decide
    exact hall i hin hi
  have hdigest : (checksum .augmented).digest payload = [0x20, 0xDE] := by decide +kernel
  obtain ⟨hmessage, hother⟩ := burst_refused .augmented payload 0
  refine ⟨hlength, hne, hburst, hdigest, (hmessage changed hlength hne hburst).2,
    hother _ rfl ?_⟩
  rw [hdigest]
  decide

end Crc16

end Wire
