import AppendLists.Bytes

namespace AppendLists

/-!
# Checksums

The 32-bit cyclic redundancy check of IEEE 802.3: polynomial `0x04C11DB7` with its bits
reversed, a register that starts and ends inverted, bits taken least significant first.

* `Checksum.shift`: the register after one more bit;
* `Checksum.absorb`: the register after one more byte;
* `crc32`: the checksum of a byte string.
-/

namespace Checksum

/-- The reversed polynomial. -/
def polynomial : UInt32 := 0xEDB88320

/-- The register shifted by one bit; the polynomial is added when a one falls out. -/
def shift (register : UInt32) : UInt32 :=
  if register &&& 1 = 1 then (register >>> 1) ^^^ polynomial else register >>> 1

/-- The register after one more byte. -/
def absorb (register : UInt32) (b : UInt8) : UInt32 :=
  shift (shift (shift (shift (shift (shift (shift (shift (register ^^^ b.toUInt32))))))))

end Checksum

/-- The checksum of a byte string. -/
def crc32 (bs : Bytes) : UInt32 :=
  bs.foldl Checksum.absorb 0xFFFFFFFF ^^^ 0xFFFFFFFF

end AppendLists
