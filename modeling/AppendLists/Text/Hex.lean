import AppendLists.Bytes

namespace AppendLists

/-!
# Hexadecimal text

Byte strings as text, two digits a byte.

* `Hex.ofByte`, `Hex.ofBytes`: writing, in lower case;
* `Hex.toBytes?`: reading, in either case; anything but pairs of digits is refused.
-/

namespace Hex

/-- The digit of a number below sixteen. -/
def digit (n : Nat) : Char := Char.ofNat (if n < 10 then 0x30 + n else 0x57 + n)

/-- The two digits of a byte. -/
def digits (b : UInt8) : List Char := [digit (b.toNat / 16), digit (b.toNat % 16)]

/-- The text of a byte. -/
def ofByte (b : UInt8) : String := String.ofList (digits b)

/-- The text of a byte string. -/
def ofBytes (bs : Bytes) : String := String.ofList (bs.flatMap digits)

/-- The number of a digit. -/
def value? (c : Char) : Option Nat :=
  if '0' ≤ c ∧ c ≤ '9' then some (c.toNat - 0x30)
  else if 'a' ≤ c ∧ c ≤ 'f' then some (c.toNat - 0x57)
  else if 'A' ≤ c ∧ c ≤ 'F' then some (c.toNat - 0x37)
  else none

/-- The bytes of pairs of digits. -/
def pairs? : List Char → Option Bytes
  | [] => some []
  | high :: low :: rest => do
    return UInt8.ofNat ((← value? high) * 16 + (← value? low)) :: (← pairs? rest)
  | [_] => none

/-- The byte string of a text. -/
def toBytes? (s : String) : Option Bytes := pairs? s.toList

end Hex

end AppendLists
