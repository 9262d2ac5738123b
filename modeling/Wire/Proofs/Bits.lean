/-!
# Rows of bits

A word is a row of bits, and so are some bytes in order; the bit of the highest value comes first
(`Bits.ofBitVec`, `Bits.ofBytes`). Words are combined bit by bit, and a row can be added to the front
of another one (`Bits.addFront`): this is how a register stands over the bits that it is still to
take in.
-/

namespace Wire.Bits

/-! ## Words and bytes -/

section
variable {w : Nat} (x y : BitVec w)

/-- The bits of a word, the highest one first. -/
def ofBitVec (x : BitVec w) : List Bool :=
  (List.range w).map x.getMsbD

/-- A word has as many bits as it is wide. -/
@[simp] theorem length_ofBitVec : (ofBitVec x).length = w := by
  simp [ofBitVec]

/-- Bits are counted from the highest one. -/
@[simp] theorem getElem_ofBitVec {i : Nat} (h : i < (ofBitVec x).length) :
    (ofBitVec x)[i] = x.getMsbD i := by
  simp [ofBitVec]

/-- Words are added bit by bit. -/
theorem ofBitVec_xor : ofBitVec (x ^^^ y) = List.zipWith xor (ofBitVec x) (ofBitVec y) := by
  apply List.ext_getElem
  · simp
  · intro i _ _
    simp

/-- A word is no other than that with its bits. -/
theorem ofBitVec_injective : Function.Injective (ofBitVec (w := w)) := by
  intro x y h
  apply BitVec.eq_of_getMsbD_eq
  intro i hi
  have hx : (ofBitVec x)[i]? = some (x.getMsbD i) := by simp [ofBitVec, hi]
  have hy : (ofBitVec y)[i]? = some (y.getMsbD i) := by simp [ofBitVec, hi]
  rw [h, hy] at hx
  exact (Option.some.inj hx).symm

end

section
variable {w : Nat} (x : BitVec (w + 1))

/-- The first bit of a word is the highest one. -/
theorem ofBitVec_eq_cons : ofBitVec x = x.msb :: (ofBitVec x).tail := by
  rw [ofBitVec, List.range_succ_eq_map, List.map_cons, List.tail_cons,
    BitVec.msb_eq_getMsbD_zero]

/-- A word that is moved up by one bit has lost the first one. -/
theorem ofBitVec_shiftLeft_one : ofBitVec (x <<< 1) = (ofBitVec x).tail ++ [false] := by
  apply List.ext_getElem
  · simp
  · intro i hi _
    rw [length_ofBitVec] at hi
    rw [getElem_ofBitVec, BitVec.getMsbD_shiftLeft, List.getElem_append]
    split
    · rw [List.getElem_tail, getElem_ofBitVec]
    · next hlast =>
      rw [List.length_tail, length_ofBitVec] at hlast
      rw [BitVec.getMsbD_of_ge x (i + 1) (by omega), List.getElem_singleton]

end

/-- The bits of some bytes in order, the highest one of each first. -/
def ofBytes (bs : List UInt8) : List Bool :=
  bs.flatMap fun b => ofBitVec b.toBitVec

/-- A byte has eight bits. -/
@[simp] theorem length_ofBytes (bs : List UInt8) : (ofBytes bs).length = 8 * bs.length := by
  induction bs with
  | nil => rfl
  | cons b bs ih =>
    rw [ofBytes, List.flatMap_cons, List.length_append, length_ofBitVec, List.length_cons]
    change 8 + (ofBytes bs).length = _
    omega

/-- Some bytes are no others than those with their bits. -/
theorem ofBytes_injective : Function.Injective ofBytes
  | [], [], _ => rfl
  | [], _ :: _, h => by simpa using congrArg List.length h
  | _ :: _, [], h => by simpa using congrArg List.length h
  | b :: bs, b' :: bs', h => by
    have hsplit : ofBitVec b.toBitVec ++ ofBytes bs = ofBitVec b'.toBitVec ++ ofBytes bs' := h
    obtain ⟨hfirst, hrest⟩ := List.append_inj hsplit (by simp)
    rw [ofBytes_injective hrest, UInt8.toBitVec_inj.1 (ofBitVec_injective hfirst)]

/-! ## Sums at the front -/

/-- The first of some bits summed up with other bits; what stands behind them stays. -/
def addFront : (front bits : List Bool) → List Bool
  | [], bits => bits
  | _ :: _, [] => []
  | x :: front, b :: bits => (x ^^ b) :: addFront front bits

/-- A sum at the front leaves as many bits as there were. -/
@[simp] theorem length_addFront : ∀ front bits, (addFront front bits).length = bits.length
  | [], _ => rfl
  | _ :: _, [] => rfl
  | _ :: front, _ :: bits => congrArg (· + 1) (length_addFront front bits)

/-! Bits that are not set add nothing. -/

/-- A bit that is not set may follow those at the front. -/
theorem addFront_append_false : ∀ front bits, addFront (front ++ [false]) bits = addFront front bits
  | [], [] => rfl
  | [], b :: bits => by simp [addFront]
  | _ :: _, [] => rfl
  | _ :: front, _ :: bits => congrArg _ (addFront_append_false front bits)

/-- Only bits that are not set are added at the front: nothing changes. -/
theorem addFront_replicate_false : ∀ n bits, addFront (List.replicate n false) bits = bits
  | 0, _ => rfl
  | _ + 1, [] => rfl
  | n + 1, b :: bits => by
    rw [List.replicate_succ, addFront, Bool.false_xor, addFront_replicate_false n bits]

/-- Two rows of bits can be added one after the other. -/
theorem addFront_zipWith : ∀ {xs ys : List Bool}, xs.length = ys.length →
    ∀ bits, addFront (List.zipWith xor xs ys) bits = addFront xs (addFront ys bits)
  | [], [], _, _ => rfl
  | _ :: _, _ :: _, _, [] => rfl
  | x :: xs, y :: ys, h, b :: bits => by
    simp only [List.zipWith_cons_cons, addFront, Bool.xor_assoc,
      addFront_zipWith (Nat.succ.inj h) bits]

/-- To bits that are not set, a row of the same length is added by putting it there. -/
theorem addFront_to_replicate_false : ∀ bits, addFront bits (List.replicate bits.length false) = bits
  | [] => rfl
  | b :: bits => by
    rw [List.length_cons, List.replicate_succ, addFront, addFront_to_replicate_false bits,
      Bool.xor_false]

end Wire.Bits
