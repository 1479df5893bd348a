import Indicial.Text.Bytes

/-!
# Checksums

The cyclic redundancy check of 32 bits with the reflected polynomial `EDB88320`, all bits of the
register set at the start and inverted at the end.
-/

namespace Indicial.Checksum

/-- The polynomial, least significant bit first. -/
def polynomial : UInt32 := 0xEDB88320

/-- One bit moved out of the register. -/
def bitStep (r : UInt32) : UInt32 := if r &&& 1 = 1 then (r >>> 1) ^^^ polynomial else r >>> 1

/-- One byte taken into the register. -/
def byteStep (r : UInt32) (b : UInt8) : UInt32 :=
  bitStep (bitStep (bitStep (bitStep (bitStep (bitStep (bitStep (bitStep (r ^^^ b.toUInt32))))))))

/-- The checksum of a byte string. -/
def crc32 (bs : Bytes) : UInt32 := bs.foldl byteStep 0xFFFFFFFF ^^^ 0xFFFFFFFF

end Indicial.Checksum
