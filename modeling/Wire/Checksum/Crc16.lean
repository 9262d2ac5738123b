import Wire.Checksum

/-!
# The 16-bit cyclic redundancy check

The register is divided by the polynomial x¹⁶ + x¹² + x⁵ + 1, most significant bit first. A byte is
fed in one step, with a table of what eight single steps do to the bits that leave the register.
A digest is the register after all bytes, low byte first.
-/

namespace Wire.Crc16

/-- The contents of the register. -/
abbrev Register : Type := BitVec 16

/-- The polynomial without its leading term. -/
def polynomial : Register := 0x1021#16

/-- One bit leaves the register; if it is set, the polynomial is subtracted. -/
def shift (r : Register) : Register :=
  if r.msb then (r <<< 1) ^^^ polynomial else r <<< 1

/-- A byte at the top of an empty register. -/
def ofHighByte (b : UInt8) : Register :=
  BitVec.ofNat 16 (256 * b.toNat)

/-- What eight steps make of a register that holds only a high byte. -/
def reduce (b : UInt8) : Register :=
  shift (shift (shift (shift (shift (shift (shift (shift (ofHighByte b))))))))

/-- The values of `reduce` for all bytes. -/
def table : Vector Register 256 :=
  Vector.ofFn fun i => reduce (UInt8.ofNat i.val)

/-- The high byte of the register. -/
def highByte (r : Register) : UInt8 :=
  UInt8.ofNat (r.toNat / 256)

/-- The low byte of the register. -/
def lowByte (r : Register) : UInt8 :=
  UInt8.ofNat (r.toNat % 256)

/-- The register after one more byte. -/
def step (r : Register) (b : UInt8) : Register :=
  (r <<< 8) ^^^ table.get (highByte r ^^^ b).toFin

/-- The register after some bytes. -/
def register (initial : Register) (bs : List UInt8) : Register :=
  bs.foldl step initial

/-- A register as two bytes, the low one first. -/
def bytesOf (r : Register) : List UInt8 :=
  [lowByte r, highByte r]

/-- What the register holds before the first byte. -/
inductive Preset where
  | zeros
  | ones
  | augmented
  deriving DecidableEq, Repr

/-- The contents that a preset stands for. -/
def Preset.initial : Preset → Register
  | .zeros => 0x0000#16
  | .ones => 0xFFFF#16
  | .augmented => 0x1D0F#16

/-- The preset that is taken when none is named. -/
instance : Inhabited Preset := ⟨.ones⟩

/-- The register after some bytes, from a preset on. -/
def crc (preset : Preset) (bs : List UInt8) : Register :=
  register preset.initial bs

/-- The check as a checksum. -/
def checksum (preset : Preset) : Checksum where
  length := 2
  digest bs := bytesOf (crc preset bs)

end Wire.Crc16
