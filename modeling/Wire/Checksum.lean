/-!
# Checksums

A checksum turns bytes into a digest and says how long its digests are. The two need not agree; a
digest of another length than the one it claims matches nothing that is read with that length.
-/

namespace Wire

/-- A rule for digests. -/
structure Checksum where
  /-- The number of bytes that a digest has. -/
  length : Nat
  /-- The digest of some bytes, in the order in which it is stored. -/
  digest : List UInt8 → List UInt8

namespace Checksum

/-- The sum of all bytes, in one byte. -/
def sum : Checksum where
  length := 1
  digest bs := [bs.foldl (· + ·) 0]

/-- The same digest for all bytes, under any claimed length. -/
def constant (length : Nat) (digest : List UInt8) : Checksum where
  length := length
  digest := fun _ => digest

end Checksum

end Wire
