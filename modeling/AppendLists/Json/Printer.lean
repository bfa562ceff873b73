import AppendLists.Json.Basic
import AppendLists.Text.Quoted

namespace AppendLists

/-!
# Writing JSON

Documents with one entry a line, indented by two spaces a level; empty arrays and objects stay on
one line. Texts escape the quote, the backslash and the controls below the space, nothing else.

* `Json.quoteChar`, `Json.quote`: texts;
* `Json.pretty`: whole values.
-/

namespace Json

/-- The written form of one character of a text. -/
def quoteChar (c : Char) : String :=
  match c.toNat with
  | 0x22 => "\\\""
  | 0x5C => "\\\\"
  | 0x08 => "\\b"
  | 0x0C => "\\f"
  | 0x0A => "\\n"
  | 0x0D => "\\r"
  | 0x09 => "\\t"
  | n =>
    if n < 0x10 then "\\u000" ++ Text.hexadecimal n
    else if n < 0x20 then "\\u00" ++ Text.hexadecimal n
    else c.toString

/-- A text between quotes. -/
def quote (s : String) : String := "\"" ++ String.join (s.toList.map quoteChar) ++ "\""

/-- The start of a line at a level. -/
def indent (level : Nat) : String := "\n" ++ String.ofList (List.replicate (2 * level) ' ')

/-- A text that no characters spell, by half of a surrogate pair. -/
def illFormed : String := "\"\\ud800\""

mutual

/-- The written form of a value at a level of indentation. Values whose content is not kept are
written as some value of their sort. -/
def pretty (level : Nat) : Json → String
  | .null => "null"
  | .bool b => if b then "true" else "false"
  | .int i => toString i
  | .fractional => "0.5"
  | .text s => quote s
  | .illFormedText => illFormed
  | .array [] => "[]"
  | .array (j :: js) =>
    "[" ++ indent (level + 1) ++ pretty (level + 1) j ++ prettyElements (level + 1) js
      ++ indent level ++ "]"
  | .object [] => "\x7b\x7d"
  | .object (m :: ms) =>
    "\x7b" ++ indent (level + 1) ++ prettyMember (level + 1) m ++ prettyMembers (level + 1) ms
      ++ indent level ++ "\x7d"

/-- The written form of further elements. -/
def prettyElements (level : Nat) : List Json → String
  | [] => ""
  | j :: js => "," ++ indent level ++ pretty level j ++ prettyElements level js

/-- The written form of a name and its value. -/
def prettyMember (level : Nat) : Option String × Json → String
  | (name, j) => (name.elim illFormed quote) ++ ": " ++ pretty level j

/-- The written form of further members. -/
def prettyMembers (level : Nat) : List (Option String × Json) → String
  | [] => ""
  | m :: ms => "," ++ indent level ++ prettyMember level m ++ prettyMembers level ms

end

end Json

end AppendLists
