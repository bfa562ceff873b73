import AppendLists.MessagePack.Writer

namespace AppendLists

/-!
# Reading MessagePack

Readers take a value off the front of a byte string and give back what follows it. They accept
more than the writers produce: any width of integer whose value fits, texts stored as byte
strings, and sequences of bytes stored as byte strings.

* `MessagePack.Reader`: a partial function that consumes a beginning of its input;
* `MessagePack.Head`, `MessagePack.readHead`: a marker with the number that belongs to it;
* `MessagePack.readInt`, `readString`, `readBool`, `readNil`, `readOption`, `readSeq`,
  `readMap`: typed readers;
* `MessagePack.skip`: any one value, nested at most so deep.
-/

namespace MessagePack

/-- A reader takes a value off the front of a byte string, or fails. -/
abbrev Reader (α : Type) := Bytes → Option (α × Bytes)

variable {α β : Type}

/-- The next `n` bytes. -/
def readRaw (n : Nat) : Reader Bytes := fun bs =>
  if bs.length < n then none else some (bs.take n, bs.drop n)

/-- A number of `width` bytes, most significant first. -/
def readNatBE (width : Nat) : Reader Nat := fun bs =>
  (readRaw width bs).map fun (digits, rest) => (Bytes.toNatBE digits, rest)

/-- A number of `width` bytes in two's complement, most significant first. -/
def readIntBE (width : Nat) : Reader Int := fun bs =>
  (readNatBE width bs).map fun (n, rest) =>
    (if 2 * n < Bytes.capacity width then (n : Int) else (n : Int) - Bytes.capacity width, rest)

/-- A reader's answer passed through a function. -/
def Reader.mapValue (f : α → β) (r : Reader α) : Reader β := fun bs =>
  (r bs).map fun (a, rest) => (f a, rest)

/-- What a marker announces, together with the number that follows it. -/
inductive Head where
  /-- An absent value. -/
  | nil
  /-- A truth value. -/
  | bool (b : Bool)
  /-- An integer in one of the unsigned forms. -/
  | unsigned (n : Nat)
  /-- An integer in one of the signed forms. -/
  | signed (i : Int)
  /-- A floating-point number, its digits consumed. -/
  | float
  /-- A text of so many bytes. -/
  | str (length : Nat)
  /-- A byte string of so many bytes. -/
  | bin (length : Nat)
  /-- An array of so many elements. -/
  | array (count : Nat)
  /-- A map of so many keys and values. -/
  | map (count : Nat)
  /-- An extension: a tag byte and so many bytes. -/
  | ext (length : Nat)
deriving DecidableEq

/-- Read a marker and the number that belongs to it. -/
def readHead : Reader Head
  | [] => none
  | b :: rest =>
    -- the markers that hold their number themselves
    if b < 0x80 then some (.unsigned b.toNat, rest)
    else if b < 0x90 then some (.map (b.toNat - 0x80), rest)
    else if b < 0xA0 then some (.array (b.toNat - 0x90), rest)
    else if b < 0xC0 then some (.str (b.toNat - 0xA0), rest)
    else if 0xE0 ≤ b then some (.signed ((b.toNat : Int) - 256), rest)
    else
      -- the markers with a number behind them; 0xC1 is reserved
      match b.toNat with
      | 0xC0 => some (.nil, rest)
      | 0xC2 => some (.bool false, rest)
      | 0xC3 => some (.bool true, rest)
      | 0xC4 => (readNatBE 1).mapValue .bin rest
      | 0xC5 => (readNatBE 2).mapValue .bin rest
      | 0xC6 => (readNatBE 4).mapValue .bin rest
      | 0xC7 => (readNatBE 1).mapValue .ext rest
      | 0xC8 => (readNatBE 2).mapValue .ext rest
      | 0xC9 => (readNatBE 4).mapValue .ext rest
      | 0xCA => (readRaw 4).mapValue (fun _ => .float) rest
      | 0xCB => (readRaw 8).mapValue (fun _ => .float) rest
      | 0xCC => (readNatBE 1).mapValue .unsigned rest
      | 0xCD => (readNatBE 2).mapValue .unsigned rest
      | 0xCE => (readNatBE 4).mapValue .unsigned rest
      | 0xCF => (readNatBE 8).mapValue .unsigned rest
      | 0xD0 => (readIntBE 1).mapValue .signed rest
      | 0xD1 => (readIntBE 2).mapValue .signed rest
      | 0xD2 => (readIntBE 4).mapValue .signed rest
      | 0xD3 => (readIntBE 8).mapValue .signed rest
      | 0xD4 => some (.ext 1, rest)
      | 0xD5 => some (.ext 2, rest)
      | 0xD6 => some (.ext 4, rest)
      | 0xD7 => some (.ext 8, rest)
      | 0xD8 => some (.ext 16, rest)
      | 0xD9 => (readNatBE 1).mapValue .str rest
      | 0xDA => (readNatBE 2).mapValue .str rest
      | 0xDB => (readNatBE 4).mapValue .str rest
      | 0xDC => (readNatBE 2).mapValue .array rest
      | 0xDD => (readNatBE 4).mapValue .array rest
      | 0xDE => (readNatBE 2).mapValue .map rest
      | 0xDF => (readNatBE 4).mapValue .map rest
      | _ => none

/-! ### Scalars -/

/-- An integer from `low` to `high`, in any form. -/
def readInt (low high : Int) : Reader Int := fun bs =>
  match readHead bs with
  | some (.unsigned n, rest) => if low ≤ n ∧ n ≤ high then some ((n : Int), rest) else none
  | some (.signed i, rest) => if low ≤ i ∧ i ≤ high then some (i, rest) else none
  | _ => none

/-- A natural number below `bound`, in any form. -/
def readNat (bound : Nat) : Reader Nat := (readInt 0 (bound - 1)).mapValue Int.toNat

/-- A text, stored as a text or as a byte string. -/
def readString : Reader String := fun bs =>
  match readHead bs with
  | some (.str n, rest) | some (.bin n, rest) =>
    match readRaw n rest with
    | some (raw, rest) =>
      match Utf8.decode raw with
      | .ok s => some (s, rest)
      | .error _ => none
    | none => none
  | _ => none

/-- A truth value. -/
def readBool : Reader Bool := fun bs =>
  match readHead bs with
  | some (.bool b, rest) => some (b, rest)
  | _ => none

/-- An absent value. -/
def readNil : Reader Unit := fun bs =>
  match readHead bs with
  | some (.nil, rest) => some ((), rest)
  | _ => none

/-- A value that may be absent. -/
def readOption (value : Reader α) : Reader (Option α) := fun bs =>
  match readHead bs with
  | some (.nil, rest) => some (none, rest)
  | _ => value.mapValue some bs

/-! ### Sequences and maps -/

/-- So many values in turn. -/
def readMany (value : Reader α) : Nat → Reader (List α)
  | 0, bs => some ([], bs)
  | n + 1, bs =>
    match value bs with
    | some (a, rest) =>
      match readMany value n rest with
      | some (as, rest) => some (a :: as, rest)
      | none => none
    | none => none

/-- A sequence, stored as an array or as a byte string each of whose bytes is an element by
`ofByte`. -/
def readSeq (value : Reader α) (ofByte : UInt8 → Option α) : Reader (List α) := fun bs =>
  match readHead bs with
  | some (.array n, rest) => readMany value n rest
  | some (.bin n, rest) =>
    match readRaw n rest with
    | some (raw, rest) => (raw.mapM ofByte).map fun as => (as, rest)
    | none => none
  | _ => none

/-- A key and a value. -/
def readPair (key : Reader α) (value : Reader β) : Reader (α × β) := fun bs =>
  match key bs with
  | some (k, rest) => (value.mapValue fun v => (k, v)) rest
  | none => none

/-- A map, as its keys and values in stored order. -/
def readMap (key : Reader α) (value : Reader β) : Reader (List (α × β)) := fun bs =>
  match readHead bs with
  | some (.map n, rest) => readMany (readPair key value) n rest
  | _ => none

/-! ### Any value -/

/-- How deep values may be nested, the outermost included. -/
def depthLimit : Nat := 1024

/-- Pass over one value. Arrays, maps and extensions count down `depth`, and one that brings it to
zero is refused. -/
def skip : Nat → Reader Unit
  | 0, _ => none
  | depth + 1, bs =>
    match readHead bs with
    | some (.nil, rest) | some (.bool _, rest) | some (.unsigned _, rest)
    | some (.signed _, rest) | some (.float, rest) => some ((), rest)
    | some (.str n, rest) | some (.bin n, rest) => (readRaw n).mapValue (fun _ => ()) rest
    | some (.ext n, rest) =>
      if depth = 0 then none else (readRaw (n + 1)).mapValue (fun _ => ()) rest
    | some (.array n, rest) =>
      if depth = 0 then none else (readMany (skip depth) n).mapValue (fun _ => ()) rest
    | some (.map n, rest) =>
      if depth = 0 then none else (readMany (skip depth) (2 * n)).mapValue (fun _ => ()) rest
    | none => none

end MessagePack

end AppendLists
