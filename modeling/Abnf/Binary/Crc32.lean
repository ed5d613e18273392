/-! The checksum CRC-32 of IEEE 802.3: the remainder of the bytes, least bit first, by the reflected
    polynomial, begun and ended with all bits turned over. -/

namespace Abnf.Crc32

/-- The polynomial with its bits in reverse. --/
def polynomial : UInt32 := 0xEDB88320

/-- The remainder after one more bit. --/
def shift (r : UInt32) : UInt32 := if r &&& 1 = 1 then (r >>> 1) ^^^ polynomial else r >>> 1

/-- The remainder after one more byte. --/
def update (r : UInt32) (b : UInt8) : UInt32 := Nat.repeat shift 8 (r ^^^ b.toUInt32)

/-- The checksum of bytes. --/
def checksum (bs : List UInt8) : UInt32 := bs.foldl update 0xFFFFFFFF ^^^ 0xFFFFFFFF

end Abnf.Crc32
