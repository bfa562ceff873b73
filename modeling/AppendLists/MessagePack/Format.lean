import AppendLists.Codec.Basic
import AppendLists.MessagePack.Record
import AppendLists.Store.MergeOperator
import AppendLists.Table

namespace AppendLists

/-!
# Packed formats

The two directions of MessagePack for one type of value, and the element codecs made of them.
A packed value says itself where it ends, so no framing is added.

* `MessagePack.Format`: a writer and a reader for one type;
* formats of integers, truth values, texts, absent values, sequences, tables, state kinds,
  descriptors and merge operators;
* `Codec.packed`: the element codec of a format.
-/

namespace MessagePack

/-- The two directions for one type of value. -/
structure Format (α : Type) where
  /-- The written form. -/
  write : α → Bytes
  /-- Read a value off the front. -/
  read : Reader α

namespace Format

variable {α : Type}

/-! ### Scalars -/

/-- Unsigned 8-bit numbers. -/
def uint8 : Format UInt8 where
  write n := writeNat n.toNat
  read := (readNat 0x100).mapValue UInt8.ofNat

/-- Unsigned 32-bit numbers. -/
def uint32 : Format UInt32 where
  write n := writeNat n.toNat
  read := (readNat 0x100000000).mapValue UInt32.ofNat

/-- Unsigned 64-bit numbers. -/
def uint64 : Format UInt64 where
  write n := writeNat n.toNat
  read := (readNat 0x10000000000000000).mapValue UInt64.ofNat

/-- Signed 32-bit numbers. -/
def int32 : Format Int32 where
  write n := writeInt n.toInt
  read := (readInt (-0x80000000) 0x7FFFFFFF).mapValue Int32.ofInt

/-- Signed 64-bit numbers. -/
def int64 : Format Int64 where
  write n := writeInt n.toInt
  read := (readInt (-0x8000000000000000) 0x7FFFFFFFFFFFFFFF).mapValue Int64.ofInt

/-- Truth values. -/
def bool : Format Bool := ⟨writeBool, readBool⟩

/-- Texts. -/
def string : Format String := ⟨writeString, readString⟩

/-- The value without content. -/
def unit : Format Unit := ⟨fun _ => writeNil, readNil⟩

/-- Values that may be absent. -/
def option (value : Format α) : Format (Option α) where
  write
    | none => writeNil
    | some a => value.write a
  read := readOption value.read

/-! ### Sequences and tables -/

/-- Sequences whose elements `ofByte` may also take from single bytes. -/
def seq (value : Format α) (ofByte : UInt8 → Option α) : Format (List α) where
  write as := writeArray (as.map value.write)
  read := readSeq value.read ofByte

/-- Byte strings as sequences of numbers. -/
def byteSeq : Format Bytes := seq uint8 some

/-- Sequences of texts. -/
def stringSeq : Format (List String) := seq string fun _ => none

/-- Tables from texts; of several values for one key the last counts. -/
def table (value : Format α) : Format (Table String α) where
  write t := writeMap (t.pairs.map fun (k, v) => (writeString k, value.write v))
  read := (readMap readString value.read).mapValue Table.ofList

/-! ### Records and variants -/

/-- Codec descriptors: name, version. -/
def descriptor : Format Descriptor where
  write d := writeArray [writeString d.name, writeNat d.version.toNat]
  read :=
    (readRecord₂ (depthLimit - 1) (.required "name" readString)
      (.required "version" uint32.read)).mapValue fun (name, version) => ⟨name, version⟩

/-- Read a variant without content: its name or number, alone or as the key of an absent value. -/
def readPlainVariant (names : List String) : Reader Nat := fun bs =>
  match readHead bs with
  | some (.map 1, rest) =>
    match readVariant names rest with
    | some (i, rest) => (readNil.mapValue fun _ => i) rest
    | none => none
  | some (.map _, _) => none
  | _ => readVariant names bs

/-- State kinds, by name. -/
def kind : Format StateKind where
  write k := writeString k.tag
  read := fun bs =>
    match readPlainVariant (StateKind.all.map StateKind.tag) bs with
    | some (i, rest) => (StateKind.all[i]?).map fun k => (k, rest)
    | none => none

/-- Read a variant with content: a map whose single key is the name or number, and whose value
`content` reads for that number. -/
def readVariantWith (names : List String) (content : Nat → Reader α) : Reader α := fun bs =>
  match readHead bs with
  | some (.map 1, rest) =>
    match readVariant names rest with
    | some (i, rest) => content i rest
    | none => none
  | _ => none

/-- Merge operators; `depth` bounds the values passed over. -/
def mergeOperatorAt (depth : Nat) : Format MergeOperator where
  write
    | .stringAppend d => writeMap [(writeString "StringAppend", writeArray [uint8.write d])]
  read := readVariantWith ["StringAppend"] fun _ =>
    (readContent₁ (depth - 1) (.required "delimiter" uint8.read) some).mapValue .stringAppend

/-- Merge operators that may be absent. -/
def mergeOperator : Format (Option MergeOperator) := option (mergeOperatorAt depthLimit)

end Format

end MessagePack

/-- The element codec of a packed format. -/
def Codec.packed {α : Type} (name : String) (version : UInt32) (format : MessagePack.Format α) :
    Codec α where
  name := name
  version := version
  write x := appendForm (.ok (format.write x))
  decode c :=
    match format.read c.rest with
    | some (x, rest) => .ok (x, c.leaving rest.length)
    | none => .error (.corrupt (.malformed name))

end AppendLists
