import AppendLists.Codec.Stamped
import AppendLists.MessagePack.Format

namespace AppendLists

/-!
# Items of any covered type

A program that learns its codecs at run time holds list elements of one type, `Item`, which is
the sum of the element types that the catalogue's codecs cover.

* `Event`, `Reading`, `FineReading`: records that serve as packed elements;
* `Packed`: the values of the packed formats;
* `Item`: any element; stamped elements may be nested;
* `Item.describe`: an element in messages.
-/

/-- A numbered, tagged occurrence. -/
structure Event where
  /-- Its number. -/
  id : UInt32
  /-- Its tag. -/
  tag : String
deriving DecidableEq

/-- A sensor's measurement in whole degrees. -/
structure Reading where
  /-- The sensor. -/
  sensor : String
  /-- Degrees Celsius. -/
  celsius : Int32
deriving DecidableEq

/-- A sensor's measurement in thousandths of a degree. -/
structure FineReading where
  /-- The sensor. -/
  sensor : String
  /-- Thousandths of a degree Celsius. -/
  millicelsius : Int64
  /-- Whether the sensor was calibrated. -/
  calibrated : Bool
deriving DecidableEq

/-- The values of the packed formats. -/
inductive Packed where
  /-- An unsigned 8-bit number. -/
  | uint8 (n : UInt8)
  /-- An unsigned 32-bit number. -/
  | uint32 (n : UInt32)
  /-- A signed 32-bit number. -/
  | int32 (n : Int32)
  /-- An unsigned 64-bit number. -/
  | uint64 (n : UInt64)
  /-- A signed 64-bit number. -/
  | int64 (n : Int64)
  /-- A truth value. -/
  | bool (b : Bool)
  /-- A text. -/
  | text (s : String)
  /-- The value without content. -/
  | unit
  /-- A signed number that may be absent. -/
  | optional (n : Option Int64)
  /-- A sequence of bytes. -/
  | bytes (bs : Bytes)
  /-- A sequence of texts. -/
  | texts (ss : List String)
  /-- Signed numbers by name. -/
  | table (t : Table String Int64)
  /-- An event. -/
  | event (e : Event)
  /-- A reading. -/
  | reading (r : Reading)
  /-- A fine reading. -/
  | fineReading (r : FineReading)
  /-- A state kind. -/
  | kind (k : StateKind)
  /-- A codec descriptor. -/
  | descriptor (d : Descriptor)
  /-- A merge operator that may be absent. -/
  | operator (op : Option MergeOperator)
deriving DecidableEq

/-- An element of any covered type. -/
inductive Item where
  /-- An element of fixed layout: an unsigned number. -/
  | uint64 (n : UInt64)
  /-- An element of fixed layout: a signed number. -/
  | int64 (n : Int64)
  /-- An element of fixed layout: a text. -/
  | text (s : String)
  /-- An element of fixed layout: a byte string. -/
  | bytes (bs : Bytes)
  /-- A stamped element. -/
  | stamped (value : Item) (lastAccess : Int64)
  /-- A packed element. -/
  | packed (p : Packed)
deriving DecidableEq

/-! ### Wording -/

/-- Entries between brackets, with commas. -/
def bracketed (entries : List String) : String := "[" ++ String.intercalate ", " entries ++ "]"

/-- A record with its fields. -/
def recordText (name : String) (fields : List (String × String)) : String :=
  name ++ " \x7b " ++ String.intercalate ", " (fields.map fun (f, v) => f ++ ": " ++ v) ++ " \x7d"

/-- A value that may be absent. -/
def optionText : Option String → String
  | none => "None"
  | some s => s!"Some({s})"

/-- A packed value in messages. -/
def Packed.describe : Packed → String
  | .uint8 n => toString n
  | .uint32 n => toString n
  | .int32 n => toString n.toInt
  | .uint64 n => toString n
  | .int64 n => toString n.toInt
  | .bool b => if b then "true" else "false"
  | .text s => Text.quote s
  | .unit => "()"
  | .optional n => optionText (n.map fun n => toString n.toInt)
  | .bytes bs => bracketed (bs.map toString)
  | .texts ss => bracketed (ss.map Text.quote)
  | .table t =>
    "\x7b" ++ String.intercalate ", "
      (t.pairs.map fun (k, n) => Text.quote k ++ ": " ++ toString n.toInt) ++ "\x7d"
  | .event e => recordText "Event" [("id", toString e.id), ("tag", Text.quote e.tag)]
  | .reading r =>
    recordText "ReadingV1" [("sensor", Text.quote r.sensor), ("celsius", toString r.celsius.toInt)]
  | .fineReading r =>
    recordText "ReadingV2"
      [("sensor", Text.quote r.sensor), ("millicelsius", toString r.millicelsius.toInt),
        ("calibrated", if r.calibrated then "true" else "false")]
  | .kind k => k.tag
  | .descriptor d => d.describe
  | .operator op =>
    optionText (op.map fun op => recordText "StringAppend" [("delimiter", toString op.delimiter)])

/-- An element in messages. -/
def Item.describe : Item → String
  | .uint64 n => toString n
  | .int64 n => toString n.toInt
  | .text s => Text.quote s
  | .bytes bs => bracketed (bs.map toString)
  | .stamped value lastAccess =>
    recordText "TtlValue" [("value", value.describe), ("last_access", toString lastAccess.toInt)]
  | .packed p => p.describe

end AppendLists
