import AppendLists.Codec.Basic

namespace AppendLists

/-!
# Fixed-layout codecs

Elements whose layout needs no format of its own.

* `Codec.u64`, `Codec.i64`: eight bytes, most significant first, two's complement if signed;
* `Codec.bytes`, `Codec.string`: four bytes of length, least significant first, then the bytes.
-/

namespace Codec

/-- Unsigned 64-bit numbers. -/
def u64 : Codec UInt64 where
  name := "u64"
  version := 1
  write n := appendForm (.ok (Bytes.ofNatBE 8 n.toNat))
  decode c := c.longBE

/-- Signed 64-bit numbers. -/
def i64 : Codec Int64 where
  name := "i64"
  version := 1
  write n := appendForm (.ok (Bytes.ofNatBE 8 n.toUInt64.toNat))
  decode c := c.signedBE

/-- Bytes with their number in front, which has to fit four bytes. -/
def frame (bs : Bytes) : Except StateError Bytes :=
  if bs.length < 0x100000000 then .ok (Bytes.ofNatLE 4 bs.length ++ bs) else .error .serialization

/-- Read framed bytes. -/
def unframe (c : Cursor) : Except StateError (Bytes × Cursor) := do
  let (length, c) ← c.wordLE
  c.take length.toNat

/-- Byte strings. -/
def bytes : Codec Bytes where
  name := "bytes"
  version := 1
  write bs := appendForm (frame bs)
  decode := unframe

/-- Texts in UTF-8. -/
def string : Codec String where
  name := "string"
  version := 1
  write s := appendForm (frame (Utf8.encode s))
  decode c := do
    let (bs, c) ← unframe c
    match Utf8.decode bs with
    | .ok s => return (s, c)
    | .error fault => .error (.corrupt (.invalidUtf8 fault))

end Codec

end AppendLists
