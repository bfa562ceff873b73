import AppendLists.Json.Basic

namespace AppendLists

/-!
# Reading JSON

A strict reader on bytes: one value with white space around it and nothing else. Values may be
nested to any depth. Texts are checked for their escapes and against raw controls; whether they
are made of characters is left to whoever uses them.

* `Json.readString`: a text behind its opening quote;
* `Json.readNumber`: a number;
* `Json.readValue`: a value, by a bound on the steps that the length of the input supplies;
* `Json.parse`: a whole document.
-/

namespace Json

/-- White space between tokens. -/
def isBlank (b : UInt8) : Bool := b == 0x20 || b == 0x09 || b == 0x0A || b == 0x0D

/-- The input behind leading white space. -/
def skipBlanks (bs : Bytes) : Bytes := bs.dropWhile isBlank

/-- Whether a byte is a decimal digit. -/
def isDigit (b : UInt8) : Bool := 0x30 ≤ b && b ≤ 0x39

/-- The value of a hexadecimal digit. -/
def hexDigit? (b : UInt8) : Option Nat :=
  if 0x30 ≤ b && b ≤ 0x39 then some (b.toNat - 0x30)
  else if 0x41 ≤ b && b ≤ 0x46 then some (b.toNat - 0x41 + 10)
  else if 0x61 ≤ b && b ≤ 0x66 then some (b.toNat - 0x61 + 10)
  else none

/-- The number that four hexadecimal digits denote. -/
def hexUnit? (a b c d : UInt8) : Option Nat := do
  return (((← hexDigit? a) * 16 + (← hexDigit? b)) * 16 + (← hexDigit? c)) * 16 + (← hexDigit? d)

/-! ### Texts -/

/-- A piece of a text. -/
inductive Piece where
  /-- A byte that stands for itself. -/
  | raw (b : UInt8)
  /-- A 16-bit unit given by its number. -/
  | unit (n : Nat)
deriving DecidableEq

/-- The byte that a short escape stands for. -/
def shortEscape? (b : UInt8) : Option UInt8 :=
  match b.toNat with
  | 0x22 => some 0x22
  | 0x5C => some 0x5C
  | 0x2F => some 0x2F
  | 0x62 => some 0x08
  | 0x66 => some 0x0C
  | 0x6E => some 0x0A
  | 0x72 => some 0x0D
  | 0x74 => some 0x09
  | _ => none

/-- The pieces of a text up to its closing quote, and the input behind the quote. -/
def readPieces : Bytes → Option (List Piece × Bytes)
  | [] => none
  | b :: rest =>
    if b = 0x22 then some ([], rest)
    else if b = 0x5C then
      match rest with
      | [] => none
      | e :: rest =>
        if e = 0x75 then
          match rest with
          | a :: b :: c :: d :: rest =>
            match hexUnit? a b c d with
            | none => none
            | some n => (readPieces rest).map fun (ps, rest) => (.unit n :: ps, rest)
          | _ => none
        else
          match shortEscape? e with
          | none => none
          | some b => (readPieces rest).map fun (ps, rest) => (.raw b :: ps, rest)
    else if b < 0x20 then none
    else (readPieces rest).map fun (ps, rest) => (.raw b :: ps, rest)

/-- The bytes of a text, pairs of surrogate units joined; `none` if a surrogate stands alone. -/
def piecesBytes? : List Piece → Option Bytes
  | [] => some []
  | .raw b :: ps => (piecesBytes? ps).map (b :: ·)
  | .unit n :: ps =>
    -- a high surrogate needs a low one behind it, and a low one needs a high one before it
    if 0xD800 ≤ n ∧ n < 0xDC00 then
      match ps with
      | .unit m :: ps =>
        if 0xDC00 ≤ m ∧ m < 0xE000 then
          let c := Char.ofNat (0x10000 + (n - 0xD800) * 0x400 + (m - 0xDC00))
          (piecesBytes? ps).map (String.utf8EncodeChar c ++ ·)
        else none
      | _ => none
    else if 0xDC00 ≤ n ∧ n < 0xE000 then none
    else (piecesBytes? ps).map (String.utf8EncodeChar (Char.ofNat n) ++ ·)

/-- The text that pieces spell, if they spell characters. -/
def piecesText? (ps : List Piece) : Option String :=
  match piecesBytes? ps with
  | none => none
  | some bs =>
    match Utf8.decode bs with
    | .ok s => some s
    | .error _ => none

/-- A text behind its opening quote. -/
def readString (bs : Bytes) : Option (Option String × Bytes) :=
  (readPieces bs).map fun (ps, rest) => (piecesText? ps, rest)

/-! ### Numbers -/

/-- The number that decimal digits denote. -/
def decimal (digits : Bytes) : Nat := digits.foldl (fun n b => 10 * n + (b.toNat - 0x30)) 0

/-- One or more digits, and the input behind them. -/
def readDigits (bs : Bytes) : Option (Bytes × Bytes) :=
  match bs.takeWhile isDigit with
  | [] => none
  | digits => some (digits, bs.dropWhile isDigit)

/-- A fraction, if there is one: whether it is there, and the input behind it. -/
def readFraction : Bytes → Option (Bool × Bytes)
  | 0x2E :: rest => (readDigits rest).map fun (_, rest) => (true, rest)
  | bs => some (false, bs)

/-- An exponent, if there is one: whether it is there, and the input behind it. -/
def readExponent : Bytes → Option (Bool × Bytes)
  | b :: rest =>
    if b = 0x65 || b = 0x45 then
      let digits :=
        match rest with
        | 0x2B :: rest => rest
        | 0x2D :: rest => rest
        | rest => rest
      (readDigits digits).map fun (_, rest) => (true, rest)
    else some (false, b :: rest)
  | [] => some (false, [])

/-- A number behind its sign: digits without a leading zero, fraction, exponent. -/
def readMagnitude (negative : Bool) (bs : Bytes) : Option (Json × Bytes) := do
  let (digits, rest) ← readDigits bs
  if digits.length > 1 && digits.head? == some 0x30 then none
  else
    let (hasFraction, rest) ← readFraction rest
    let (hasExponent, rest) ← readExponent rest
    let n := decimal digits
    -- minus zero has no integer of its own, so it counts as fractional
    if hasFraction || hasExponent || (negative && n == 0) then return (.fractional, rest)
    else return (.int (if negative then -(n : Int) else n), rest)

/-- A number. -/
def readNumber : Bytes → Option (Json × Bytes)
  | 0x2D :: rest => readMagnitude true rest
  | bs => readMagnitude false bs

/-! ### Values -/

/-- The input behind a word. -/
def expect (word bs : Bytes) : Option Bytes :=
  if word.isPrefixOf bs then some (bs.drop word.length) else none

mutual

/-- A value, and the input behind it; `fuel` bounds the steps. -/
def readValue : Nat → Bytes → Option (Json × Bytes)
  | 0, _ => none
  | fuel + 1, bs =>
    match skipBlanks bs with
    -- null, true, false, then a text, an array, an object; anything else is a number
    | 0x6E :: rest => (expect [0x75, 0x6C, 0x6C] rest).map fun rest => (.null, rest)
    | 0x74 :: rest => (expect [0x72, 0x75, 0x65] rest).map fun rest => (.bool true, rest)
    | 0x66 :: rest => (expect [0x61, 0x6C, 0x73, 0x65] rest).map fun rest => (.bool false, rest)
    | 0x22 :: rest =>
      (readString rest).map fun
        | (some s, rest) => (.text s, rest)
        | (none, rest) => (.illFormedText, rest)
    | 0x5B :: rest =>
      match skipBlanks rest with
      | 0x5D :: rest => some (.array [], rest)
      | rest => (readElements fuel rest).map fun (js, rest) => (.array js, rest)
    | 0x7B :: rest =>
      match skipBlanks rest with
      | 0x7D :: rest => some (.object [], rest)
      | rest => (readMembers fuel rest).map fun (ms, rest) => (.object ms, rest)
    | rest => readNumber rest

/-- The elements of a non-empty array up to its closing bracket. -/
def readElements : Nat → Bytes → Option (List Json × Bytes)
  | 0, _ => none
  | fuel + 1, bs => do
    let (j, rest) ← readValue fuel bs
    match skipBlanks rest with
    | 0x5D :: rest => some ([j], rest)
    | 0x2C :: rest =>
      let (js, rest) ← readElements fuel rest
      return (j :: js, rest)
    | _ => none

/-- The members of a non-empty object up to its closing brace. -/
def readMembers : Nat → Bytes → Option (List (Option String × Json) × Bytes)
  | 0, _ => none
  | fuel + 1, bs => do
    match skipBlanks bs with
    | 0x22 :: rest =>
      let (name, rest) ← readString rest
      match skipBlanks rest with
      | 0x3A :: rest =>
        let (j, rest) ← readValue fuel rest
        match skipBlanks rest with
        | 0x7D :: rest => some ([(name, j)], rest)
        | 0x2C :: rest =>
          let (ms, rest) ← readMembers fuel rest
          return ((name, j) :: ms, rest)
        | _ => none
      | _ => none
    | _ => none

end

/-- A whole document: one value with white space around it. Each step of reading takes a byte or
goes from a list to its first entry, so twice the length bounds the steps. -/
def parse (bs : Bytes) : Option Json := do
  let (j, rest) ← readValue (2 * bs.length + 1) bs
  match skipBlanks rest with
  | [] => some j
  | _ => none

end Json

end AppendLists
