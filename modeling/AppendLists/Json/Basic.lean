import AppendLists.Text.Utf8

namespace AppendLists

/-!
# JSON documents

The values of JSON, as far as configurations and snapshots tell them apart: whole numbers are
kept, other numbers only known to be such; a text that no string of Unicode characters equals
(it holds half of a surrogate pair, or bytes that are not UTF-8) is kept apart from texts.

* `Json`: the values;
* `Json.fields?`: the members of an object, or the elements of an array in their place, sorted by
  the names of a record.
-/

/-- A JSON value. -/
inductive Json where
  /-- `null`. -/
  | null
  /-- `true` or `false`. -/
  | bool (b : Bool)
  /-- A number written as an integer; minus zero is none. -/
  | int (i : Int)
  /-- Any other number. -/
  | fractional
  /-- A text. -/
  | text (s : String)
  /-- A text with parts that are no characters. -/
  | illFormedText
  /-- An array. -/
  | array (elements : List Json)
  /-- An object; a name with parts that are no characters is absent. -/
  | object (members : List (Option String × Json))

namespace Json

/-- The members of an object sorted by `names`: for each name its only member. `none` if a name
occurs twice or some name is ill-formed. -/
def membersByName? (members : List (Option String × Json)) :
    List String → Option (List (Option Json))
  | [] => if members.all (fun (name, _) => name.isSome) then some [] else none
  | name :: names =>
    match membersByName? members names with
    | none => none
    | some rest =>
      match members.filter (fun (name', _) => name' == some name) with
      | [] => some (none :: rest)
      | [(_, value)] => some (some value :: rest)
      | _ => none

/-- The fields of a record given as an object or as an array of them in order; fields the document
does not give are absent. An array with more elements than names is refused. -/
def fields? (names : List String) : Json → Option (List (Option Json))
  | .object members => membersByName? members names
  | .array elements =>
    if elements.length ≤ names.length then
      some (elements.map some ++ List.replicate (names.length - elements.length) none)
    else none
  | _ => none

/-! ### Scalars -/

/-- A natural number below `bound`. -/
def natBelow? (bound : Nat) : Json → Option Nat
  | .int i => if 0 ≤ i ∧ i < bound then some i.toNat else none
  | _ => none

/-- A natural number of up to 16 bits. -/
def uint16? : Json → Option Nat := natBelow? 0x10000

/-- A natural number of up to 32 bits. -/
def uint32? : Json → Option Nat := natBelow? 0x100000000

/-- A natural number of up to 64 bits. -/
def uint64? : Json → Option Nat := natBelow? 0x10000000000000000

/-- A truth value. -/
def bool? : Json → Option Bool
  | .bool b => some b
  | _ => none

/-- A text. -/
def text? : Json → Option String
  | .text s => some s
  | _ => none

end Json

end AppendLists
