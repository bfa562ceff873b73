import AppendLists.MessagePack.Reader

namespace AppendLists

/-!
# Records and variants in MessagePack

Records are written as arrays of their fields in order. They are read from arrays of exactly that
length, or from maps whose keys are field names or field numbers; there, unknown keys are passed
over with their values, a repeated field is an error, and so is a missing one unless its value may
be absent.

* `MessagePack.readKey`: which of several names a key stands for;
* `MessagePack.readFields`: the entries of a map collected into a state;
* `MessagePack.RecordField`: a named part of a record;
* `MessagePack.readRecord₁`, `readRecord₂`, `readRecord₃`: records by their number of fields;
* `MessagePack.readContent₁`: the content of a variant with one field;
* `MessagePack.readVariant`: the number of a variant given by name or number.
-/

namespace MessagePack

variable {α β γ σ : Type}

/-- The name a key stands for, by its place in `names`: the name itself as text or byte string, or
its number in an unsigned form. Other names and numbers stand for none. -/
def readKey (names : List String) : Reader (Option Nat) := fun bs =>
  match readHead bs with
  | some (.str n, rest) | some (.bin n, rest) =>
    (readRaw n).mapValue (fun raw => names.findIdx? fun name => Utf8.encode name == raw) rest
  | some (.unsigned n, rest) => some (if n < names.length then some n else none, rest)
  | _ => none

/-- Collect so many entries of a map: `field i` takes the value of the field numbered `i` into the
state, and the value of an unknown key is passed over, nested at most `depth` deep. -/
def readFields (names : List String) (depth : Nat) (field : Nat → σ → Reader σ) :
    Nat → σ → Reader σ
  | 0, s, bs => some (s, bs)
  | n + 1, s, bs =>
    match readKey names bs with
    | none => none
    | some (none, rest) =>
      -- an unknown field: its value is of no interest, but has to be well-formed
      match skip depth rest with
      | some (_, rest) => readFields names depth field n s rest
      | none => none
    | some (some i, rest) =>
      match field i s rest with
      | some (s, rest) => readFields names depth field n s rest
      | none => none

/-- A field of a record. -/
structure RecordField (α : Type) where
  /-- Its name. -/
  name : String
  /-- How its value is read. -/
  read : Reader α
  /-- The value it has in a map that leaves it out, unless it may not be left out. -/
  missing : Option α

namespace RecordField

/-- A field that may not be left out. -/
def required (name : String) (value : Reader α) : RecordField α := ⟨name, value, none⟩

/-- A field whose value may be absent; leaving it out of a map says so. -/
def optional (name : String) (value : Reader α) : RecordField (Option α) :=
  ⟨name, readOption value, some none⟩

/-- Read the value of a field that was not met before. -/
def readOnce (field : RecordField α) (slot : Option α) : Reader (Option α) :=
  match slot with
  | some _ => fun _ => none
  | none => field.read.mapValue some

/-- The value of a field after its map. -/
def settle (field : RecordField α) (slot : Option α) : Option α := slot <|> field.missing

end RecordField

/-- A record of one field; `depth` bounds the values it passes over. -/
def readRecord₁ (depth : Nat) (first : RecordField α) : Reader α := fun bs =>
  match readHead bs with
  | some (.array 1, rest) => first.read rest
  | some (.map n, rest) => do
    let (a, rest) ← readFields [first.name] depth (fun _ a => first.readOnce a) n none rest
    return (← first.settle a, rest)
  | _ => none

/-- A record of two fields; `depth` bounds the values it passes over. -/
def readRecord₂ (depth : Nat) (first : RecordField α) (second : RecordField β) :
    Reader (α × β) := fun bs =>
  match readHead bs with
  | some (.array 2, rest) => readPair first.read second.read rest
  | some (.map n, rest) => do
    let field : Nat → Option α × Option β → Reader (Option α × Option β)
      | 0, (a, b) => (first.readOnce a).mapValue (·, b)
      | _, (a, b) => (second.readOnce b).mapValue (a, ·)
    let ((a, b), rest) ← readFields [first.name, second.name] depth field n (none, none) rest
    return ((← first.settle a, ← second.settle b), rest)
  | _ => none

/-- A record of three fields; `depth` bounds the values it passes over. -/
def readRecord₃ (depth : Nat) (first : RecordField α) (second : RecordField β)
    (third : RecordField γ) : Reader (α × β × γ) := fun bs =>
  match readHead bs with
  | some (.array 3, rest) => readPair first.read (readPair second.read third.read) rest
  | some (.map n, rest) => do
    let field : Nat → Option α × Option β × Option γ → Reader (Option α × Option β × Option γ)
      | 0, (a, b, c) => (first.readOnce a).mapValue (·, b, c)
      | 1, (a, b, c) => (second.readOnce b).mapValue (a, ·, c)
      | _, (a, b, c) => (third.readOnce c).mapValue (a, b, ·)
    let ((a, b, c), rest) ←
      readFields [first.name, second.name, third.name] depth field n (none, none, none) rest
    return ((← first.settle a, ← second.settle b, ← third.settle c), rest)
  | _ => none

/-- The content of a variant with one field: a record, or a byte string whose first byte is the
field by `ofByte`. Bytes behind it are of no interest. -/
def readContent₁ (depth : Nat) (first : RecordField α) (ofByte : UInt8 → Option α) : Reader α :=
  fun bs =>
    match readHead bs with
    | some (.bin n, rest) => do
      let (raw, rest) ← readRaw n rest
      return (← raw.head?.bind ofByte, rest)
    | _ => readRecord₁ depth first bs

/-- The number of a variant, given by one of `names` or by its number. -/
def readVariant (names : List String) : Reader Nat := fun bs =>
  match readKey names bs with
  | some (some i, rest) => some (i, rest)
  | _ => none

end MessagePack

end AppendLists
