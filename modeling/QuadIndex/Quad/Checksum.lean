/-! CRC-32 with the reflected polynomial 0xEDB88320, bit by bit. -/

namespace QuadIndex.Checksum

/-- One bit of the remainder. -/
def shift (c : UInt32) : UInt32 :=
  if c &&& 1 = 1 then (c >>> 1) ^^^ 0xEDB88320 else c >>> 1

def absorb (c : UInt32) (b : UInt8) : UInt32 := Nat.repeat shift 8 (c ^^^ b.toUInt32)

/-- The remainder starts with all bits set and ends inverted. -/
def crc32 (bs : List UInt8) : UInt32 := bs.foldl absorb 0xFFFFFFFF ^^^ 0xFFFFFFFF

end QuadIndex.Checksum
