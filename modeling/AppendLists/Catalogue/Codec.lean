import AppendLists.Catalogue.Item
import AppendLists.Codec.Fixed
import AppendLists.ListFormat.Basic

namespace AppendLists

/-!
# The codecs of the catalogue

Every covered codec by name, as a codec of items.

* `PackedType`, `PackedType.codec`: the packed element types;
* `Codec.unframed`, `Codec.greedy`, `Codec.zero`, `Codec.lossy`: text codecs that break the rules
  of the list format, each in one way, against which a conformance check can be tried;
* `CodecSpec`, `CodecSpec.codec`: a codec described at run time.
-/

/-! ### Packed records -/

namespace MessagePack.Format

/-- Events: number, tag. -/
def event : Format Event where
  write e := writeArray [writeNat e.id.toNat, writeString e.tag]
  read :=
    (readRecord₂ (depthLimit - 1) (.required "id" uint32.read)
      (.required "tag" readString)).mapValue fun (id, tag) => ⟨id, tag⟩

/-- Readings: sensor, degrees. -/
def reading : Format Reading where
  write r := writeArray [writeString r.sensor, int32.write r.celsius]
  read :=
    (readRecord₂ (depthLimit - 1) (.required "sensor" readString)
      (.required "celsius" int32.read)).mapValue fun (sensor, celsius) => ⟨sensor, celsius⟩

/-- Fine readings: sensor, thousandths of a degree, calibration. -/
def fineReading : Format FineReading where
  write r := writeArray [writeString r.sensor, int64.write r.millicelsius, writeBool r.calibrated]
  read :=
    (readRecord₃ (depthLimit - 1) (.required "sensor" readString)
      (.required "millicelsius" int64.read) (.required "calibrated" readBool)).mapValue
        fun (sensor, millicelsius, calibrated) => ⟨sensor, millicelsius, calibrated⟩

end MessagePack.Format

/-- The packed element types. -/
inductive PackedType where
  /-- Unsigned 8-bit numbers. -/
  | uint8
  /-- Unsigned 32-bit numbers. -/
  | uint32
  /-- Signed 32-bit numbers. -/
  | int32
  /-- Unsigned 64-bit numbers. -/
  | uint64
  /-- Signed 64-bit numbers. -/
  | int64
  /-- Truth values. -/
  | bool
  /-- Texts. -/
  | text
  /-- The value without content. -/
  | unit
  /-- Signed numbers that may be absent. -/
  | optional
  /-- Sequences of bytes. -/
  | bytes
  /-- Sequences of texts. -/
  | texts
  /-- Signed numbers by name. -/
  | table
  /-- Events. -/
  | event
  /-- Readings. -/
  | reading
  /-- Fine readings. -/
  | fineReading
  /-- State kinds. -/
  | kind
  /-- Codec descriptors. -/
  | descriptor
  /-- Merge operators that may be absent. -/
  | operator
deriving DecidableEq

/-- The packed element types with their names. -/
def PackedType.named : List (String × PackedType) :=
  [("u8", .uint8), ("u32", .uint32), ("i32", .int32), ("u64", .uint64), ("i64", .int64),
    ("bool", .bool), ("string", .text), ("unit", .unit), ("opt_i64", .optional),
    ("vec_u8", .bytes), ("vec_string", .texts), ("map", .table), ("event", .event),
    ("reading_v1", .reading), ("reading_v2", .fineReading), ("kind", .kind),
    ("descriptor", .descriptor), ("operator", .operator)]

open MessagePack in
/-- The codec of a packed element type, under a name and version. -/
def PackedType.codec (type : PackedType) (name : String) (version : UInt32) : Codec Item :=
  match type with
  | .uint8 => (Codec.packed name version Format.uint8).embed (.packed <| .uint8 ·)
      fun | .packed (.uint8 n) => some n | _ => none
  | .uint32 => (Codec.packed name version Format.uint32).embed (.packed <| .uint32 ·)
      fun | .packed (.uint32 n) => some n | _ => none
  | .int32 => (Codec.packed name version Format.int32).embed (.packed <| .int32 ·)
      fun | .packed (.int32 n) => some n | _ => none
  | .uint64 => (Codec.packed name version Format.uint64).embed (.packed <| .uint64 ·)
      fun | .packed (.uint64 n) => some n | _ => none
  | .int64 => (Codec.packed name version Format.int64).embed (.packed <| .int64 ·)
      fun | .packed (.int64 n) => some n | _ => none
  | .bool => (Codec.packed name version Format.bool).embed (.packed <| .bool ·)
      fun | .packed (.bool b) => some b | _ => none
  | .text => (Codec.packed name version Format.string).embed (.packed <| .text ·)
      fun | .packed (.text s) => some s | _ => none
  | .unit => (Codec.packed name version Format.unit).embed (fun _ => .packed .unit)
      fun | .packed .unit => some () | _ => none
  | .optional => (Codec.packed name version (Format.option Format.int64)).embed
      (.packed <| .optional ·) fun | .packed (.optional n) => some n | _ => none
  | .bytes => (Codec.packed name version Format.byteSeq).embed (.packed <| .bytes ·)
      fun | .packed (.bytes bs) => some bs | _ => none
  | .texts => (Codec.packed name version Format.stringSeq).embed (.packed <| .texts ·)
      fun | .packed (.texts ss) => some ss | _ => none
  | .table => (Codec.packed name version (Format.table Format.int64)).embed (.packed <| .table ·)
      fun | .packed (.table t) => some t | _ => none
  | .event => (Codec.packed name version Format.event).embed (.packed <| .event ·)
      fun | .packed (.event e) => some e | _ => none
  | .reading => (Codec.packed name version Format.reading).embed (.packed <| .reading ·)
      fun | .packed (.reading r) => some r | _ => none
  | .fineReading => (Codec.packed name version Format.fineReading).embed (.packed <| .fineReading ·)
      fun | .packed (.fineReading r) => some r | _ => none
  | .kind => (Codec.packed name version Format.kind).embed (.packed <| .kind ·)
      fun | .packed (.kind k) => some k | _ => none
  | .descriptor => (Codec.packed name version Format.descriptor).embed (.packed <| .descriptor ·)
      fun | .packed (.descriptor d) => some d | _ => none
  | .operator => (Codec.packed name version Format.mergeOperator).embed (.packed <| .operator ·)
      fun | .packed (.operator op) => some op | _ => none

/-! ### Text codecs that break the rules -/

namespace Codec

/-- Texts written without a frame, read up to the next delimiter. -/
def unframed : Codec String where
  name := "unframed"
  version := 1
  write s := appendForm (.ok (Utf8.encode s))
  decode c := do
    let (bs, c) ← c.take (c.rest.takeWhile (· != delimiter)).length
    return (Utf8.decodeLossy bs, c)

/-- Texts written without a frame, read up to the end of input. -/
def greedy : Codec String where
  name := "greedy"
  version := 1
  write s := appendForm (.ok (Utf8.encode s))
  decode c := do
    let (bs, c) ← c.take c.remaining
    return (Utf8.decodeLossy bs, c)

/-- Texts not written at all. -/
def zero : Codec String where
  name := "zero"
  version := 1
  write _ := appendForm (.ok [])
  decode c := .ok ("", c)

/-- An ASCII letter in upper case. -/
def upperByte (b : UInt8) : UInt8 := if 0x61 ≤ b && b ≤ 0x7A then b - 0x20 else b

/-- Texts in upper case, with one byte of length. -/
def lossy : Codec String where
  name := "lossy"
  version := 1
  write s :=
    let bs := Utf8.encode s
    appendForm (.ok (UInt8.ofNat bs.length :: bs.map upperByte))
  decode c := do
    let (length, c) ← c.byte
    let (bs, c) ← c.take length.toNat
    return (Utf8.decodeLossy bs, c)

end Codec

/-! ### Codecs described at run time -/

/-- A description of a codec. -/
inductive CodecSpec where
  /-- Unsigned 64-bit numbers of fixed layout. -/
  | uint64
  /-- Signed 64-bit numbers of fixed layout. -/
  | int64
  /-- Texts of fixed layout. -/
  | text
  /-- Byte strings of fixed layout. -/
  | bytes
  /-- Stamped elements. -/
  | stamped (inner : CodecSpec)
  /-- Packed elements. -/
  | packed (type : PackedType) (name : String) (version : UInt32)
  /-- Texts without a frame, up to the delimiter. -/
  | unframed
  /-- Texts without a frame, up to the end. -/
  | greedy
  /-- Texts that are not written. -/
  | zero
  /-- Texts in upper case. -/
  | lossy
deriving DecidableEq

/-- The codecs without parameters, with their names. -/
def CodecSpec.named : List (String × CodecSpec) :=
  [("u64", .uint64), ("i64", .int64), ("string", .text), ("bytes", .bytes),
    ("unframed", .unframed), ("greedy", .greedy), ("zero", .zero), ("lossy", .lossy)]

/-- The codec that is described. -/
def CodecSpec.codec : CodecSpec → Codec Item
  | .uint64 => Codec.u64.embed .uint64 fun | .uint64 n => some n | _ => none
  | .int64 => Codec.i64.embed .int64 fun | .int64 n => some n | _ => none
  | .text => Codec.string.embed .text textOf
  | .bytes => Codec.bytes.embed .bytes fun | .bytes bs => some bs | _ => none
  | .stamped inner => inner.codec.stamped.embed (fun s => .stamped s.value s.lastAccess)
      fun | .stamped value lastAccess => some ⟨value, lastAccess⟩ | _ => none
  | .packed type name version => type.codec name version
  | .unframed => Codec.unframed.embed .text textOf
  | .greedy => Codec.greedy.embed .text textOf
  | .zero => Codec.zero.embed .text textOf
  | .lossy => Codec.lossy.embed .text textOf
where
  /-- The text that an item is. -/
  textOf : Item → Option String
    | .text s => some s
    | _ => none

end AppendLists
