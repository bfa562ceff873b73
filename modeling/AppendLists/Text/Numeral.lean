namespace AppendLists

/-!
# Decimal numerals

Reading integers from decimal text: digits only, at least one, with an optional sign. Leading
zeros are allowed, separators and blanks are not.

* `Numeral.unsigned?`: digits, after an optional plus sign;
* `Numeral.signed?`: digits, after an optional plus or minus sign.
-/

namespace Numeral

/-- The value of a decimal digit. -/
def digit? (c : Char) : Option Nat :=
  if '0' ≤ c ∧ c ≤ '9' then some (c.toNat - '0'.toNat) else none

/-- The number that `value` becomes when the digits are written behind it. -/
def extend? (value : Nat) : List Char → Option Nat
  | [] => some value
  | c :: cs =>
    match digit? c with
    | some d => extend? (10 * value + d) cs
    | none => none

/-- The number that one or more digits denote. -/
def digits? : List Char → Option Nat
  | [] => none
  | cs => extend? 0 cs

/-- The number denoted by digits after an optional plus sign. -/
def unsigned? (s : String) : Option Nat :=
  match s.toList with
  | '+' :: cs => digits? cs
  | cs => digits? cs

/-- The number denoted by digits after an optional sign. -/
def signed? (s : String) : Option Int :=
  match s.toList with
  | '-' :: cs => (digits? cs).map (fun n => -(n : Int))
  | '+' :: cs => (digits? cs).map (fun n => (n : Int))
  | cs => (digits? cs).map (fun n => (n : Int))

end Numeral

end AppendLists
