import AppendLists.Text.Unprintable

namespace AppendLists

/-!
# Quoted texts

How names and items are shown in messages: between double quotes, with an escape for the quote,
the backslash, the common controls, and every character without a glyph of its own.

* `Text.escape`: the written form of one character;
* `Text.quote`: the written form of a text.
-/

namespace Text

/-- The lower-case hexadecimal digits of a number, without leading zeros. -/
def hexadecimal (n : Nat) : String := String.ofList (Nat.toDigits 16 n)

/-- The written form of one character of a quoted text. -/
def escape (c : Char) : String :=
  match c.toNat with
  | 0x00 => "\\0"
  | 0x09 => "\\t"
  | 0x0A => "\\n"
  | 0x0D => "\\r"
  | 0x22 => "\\\""
  | 0x5C => "\\\\"
  | n =>
    if 0x20 ≤ n && n < 0x7F then c.toString
    else if isPrintable c then c.toString
    else "\\u\x7b" ++ hexadecimal n ++ "\x7d"

/-- A text between double quotes. -/
def quote (s : String) : String := "\"" ++ String.join (s.toList.map escape) ++ "\""

end Text

end AppendLists
