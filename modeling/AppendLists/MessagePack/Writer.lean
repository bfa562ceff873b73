import AppendLists.Text.Utf8

namespace AppendLists

/-!
# Writing MessagePack

The binary forms of MessagePack values. Every number, text, byte string, array and map takes the
shortest form there is for it; non-negative integers take the unsigned forms.

* `MessagePack.writeNat`, `MessagePack.writeInt`: integers;
* `MessagePack.writeString`, `MessagePack.writeBytes`: texts and byte strings;
* `MessagePack.arrayHeader`, `MessagePack.mapHeader`: what stands before the parts;
* `MessagePack.writeArray`, `MessagePack.writeMap`: headers with their parts.
-/

namespace MessagePack

/-- The marker of an absent value. -/
def writeNil : Bytes := [0xC0]

/-- A truth value. -/
def writeBool (b : Bool) : Bytes := [if b then 0xC3 else 0xC2]

/-- A natural number of up to 64 bits. -/
def writeNat (n : Nat) : Bytes :=
  if n < 0x80 then [UInt8.ofNat n]
  else if n < 0x100 then 0xCC :: Bytes.ofNatBE 1 n
  else if n < 0x10000 then 0xCD :: Bytes.ofNatBE 2 n
  else if n < 0x100000000 then 0xCE :: Bytes.ofNatBE 4 n
  else 0xCF :: Bytes.ofNatBE 8 n

/-- The lowest `width` bytes of an integer in two's complement, most significant first. -/
def twosComplement (width : Nat) (i : Int) : Bytes :=
  Bytes.ofNatBE width (i % (Bytes.capacity width : Nat)).toNat

/-- An integer from the least signed to the greatest unsigned one of 64 bits. -/
def writeInt (i : Int) : Bytes :=
  if 0 ≤ i then writeNat i.toNat
  else if -0x20 ≤ i then twosComplement 1 i
  else if -0x80 ≤ i then 0xD0 :: twosComplement 1 i
  else if -0x8000 ≤ i then 0xD1 :: twosComplement 2 i
  else if -0x80000000 ≤ i then 0xD2 :: twosComplement 4 i
  else 0xD3 :: twosComplement 8 i

/-- What stands before a text of `n` bytes. -/
def stringHeader (n : Nat) : Bytes :=
  if n < 0x20 then [UInt8.ofNat (0xA0 + n)]
  else if n < 0x100 then 0xD9 :: Bytes.ofNatBE 1 n
  else if n < 0x10000 then 0xDA :: Bytes.ofNatBE 2 n
  else 0xDB :: Bytes.ofNatBE 4 n

/-- A text. -/
def writeString (s : String) : Bytes :=
  let bs := Utf8.encode s
  stringHeader bs.length ++ bs

/-- What stands before `n` bytes. -/
def bytesHeader (n : Nat) : Bytes :=
  if n < 0x100 then 0xC4 :: Bytes.ofNatBE 1 n
  else if n < 0x10000 then 0xC5 :: Bytes.ofNatBE 2 n
  else 0xC6 :: Bytes.ofNatBE 4 n

/-- A byte string. -/
def writeBytes (bs : Bytes) : Bytes := bytesHeader bs.length ++ bs

/-- What stands before the `n` elements of an array. -/
def arrayHeader (n : Nat) : Bytes :=
  if n < 0x10 then [UInt8.ofNat (0x90 + n)]
  else if n < 0x10000 then 0xDC :: Bytes.ofNatBE 2 n
  else 0xDD :: Bytes.ofNatBE 4 n

/-- What stands before the `n` keys and values of a map. -/
def mapHeader (n : Nat) : Bytes :=
  if n < 0x10 then [UInt8.ofNat (0x80 + n)]
  else if n < 0x10000 then 0xDE :: Bytes.ofNatBE 2 n
  else 0xDF :: Bytes.ofNatBE 4 n

/-- An array whose elements are written already. -/
def writeArray (elements : List Bytes) : Bytes :=
  arrayHeader elements.length ++ elements.flatten

/-- A map whose keys and values are written already. -/
def writeMap (pairs : List (Bytes × Bytes)) : Bytes :=
  mapHeader pairs.length ++ (pairs.map fun (k, v) => k ++ v).flatten

end MessagePack

end AppendLists
