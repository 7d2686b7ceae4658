import Stoneleaf.Library.Endian

/-!
The checksum of encoded records and pages: the reflected Castagnoli polynomial, bit by bit.
-/

namespace Stoneleaf

/-- One bit of the division. -/
def crc32cBit (crc : UInt32) : UInt32 :=
  (crc >>> 1) ^^^ (0x82F63B78 &&& (0 - (crc &&& 1)))

def crc32cByte (crc : UInt32) (byte : UInt8) : UInt32 :=
  crc32cBit^[8] (crc ^^^ byte.toUInt32)

def crc32c (data : List UInt8) : UInt32 :=
  data.foldl crc32cByte 0xFFFFFFFF ^^^ 0xFFFFFFFF

/-- The standard check value of the polynomial. -/
example : crc32c [0x31, 0x32, 0x33, 0x34, 0x35, 0x36, 0x37, 0x38, 0x39] = 0xE3069283 := by
  decide +kernel

end Stoneleaf
