import AppendLists.Checksum
import AppendLists.MessagePack.Format
import AppendLists.Store.Memory

namespace AppendLists

/-!
# Log entries

The log is a header followed by entries. An entry is four bytes of length, the packed record of a
mutation with its sequence number, and four bytes of checksum; numbers have their least
significant byte first.

* `Mutation`, `Mutation.apply`: what a log records, and its effect on a memory store;
* `LogEntry`, `LogEntry.format`: a mutation with its sequence number, and its packed form;
* `LogEntry.frame`: the bytes of an entry, unless it exceeds the limit;
* `EntryRead`, `readEntry`: what the log holds from a place on.
-/

/-- A change that is recorded in the log. -/
inductive Mutation where
  /-- Create a partition with its way of merging. -/
  | create (name : String) (op : Option MergeOperator)
  /-- Set the value of a key. -/
  | put (name : String) (key value : Bytes)
  /-- Queue an operand for a key. -/
  | merge (name : String) (key operand : Bytes)
  /-- Remove a key. -/
  | delete (name : String) (key : Bytes)
deriving DecidableEq

/-- The effect of a change on a memory store. -/
def Mutation.apply : Mutation → Call MemoryStore StorageError Unit
  | .create name op => MemoryStore.create name op
  | .put name key value => MemoryStore.put name key value
  | .merge name key operand => MemoryStore.merge name key operand
  | .delete name key => MemoryStore.delete name key

namespace Mutation

open MessagePack

/-- The names of the changes in packed records, by number. -/
def tags : List String := ["CreatePartition", "Put", "Merge", "Delete"]

/-- The packed form of a change: its name with its fields. -/
def write : Mutation → Bytes
  | .create name op =>
    writeMap [(writeString "CreatePartition",
      writeArray [writeString name, Format.mergeOperator.write op])]
  | .put name key value =>
    writeMap [(writeString "Put",
      writeArray [writeString name, Format.byteSeq.write key, Format.byteSeq.write value])]
  | .merge name key operand =>
    writeMap [(writeString "Merge",
      writeArray [writeString name, Format.byteSeq.write key, Format.byteSeq.write operand])]
  | .delete name key =>
    writeMap [(writeString "Delete", writeArray [writeString name, Format.byteSeq.write key])]

/-- How deep values passed over inside a change may be nested. -/
def fieldDepth : Nat := depthLimit - 2

/-- Read the fields of the change with a number. -/
def readFields : Nat → Reader Mutation
  | 0 =>
    (readRecord₂ fieldDepth (.required "name" readString)
      (.optional "merge_operator" (Format.mergeOperatorAt fieldDepth).read)).mapValue
        fun (name, op) => .create name op
  | 1 =>
    (readRecord₃ fieldDepth partition key (.required "value" Format.byteSeq.read)).mapValue
      fun (name, key, value) => .put name key value
  | 2 =>
    (readRecord₃ fieldDepth partition key (.required "operand" Format.byteSeq.read)).mapValue
      fun (name, key, operand) => .merge name key operand
  | _ => (readRecord₂ fieldDepth partition key).mapValue fun (name, key) => .delete name key
where
  /-- The partition of a change. -/
  partition : RecordField String := .required "partition" readString
  /-- The key of a change. -/
  key : RecordField Bytes := .required "key" Format.byteSeq.read

/-- The packed format of changes. -/
def format : Format Mutation := ⟨write, Format.readVariantWith tags readFields⟩

end Mutation

/-- A change and its place in the sequence of changes. -/
structure LogEntry where
  /-- The sequence number, from one on. -/
  seq : Nat
  /-- The change. -/
  mutation : Mutation
deriving DecidableEq

namespace LogEntry

open MessagePack

/-- The packed format of entries; sequence numbers have 64 bits. -/
def format : Format LogEntry where
  write e := writeArray [writeNat e.seq, Mutation.format.write e.mutation]
  read :=
    (readRecord₂ (depthLimit - 1) (.required "seq" (readNat 0x10000000000000000))
      (.required "operation" Mutation.format.read)).mapValue
        fun (seq, mutation) => ⟨seq, mutation⟩

/-- A packed record between its length and its checksum. -/
def enclose (record : Bytes) : Bytes :=
  Bytes.ofNatLE 4 record.length ++ record ++ Bytes.ofNatLE 4 (crc32 record).toNat

/-- The bytes of an entry. An entry whose record exceeds `limit`, or the four bytes of its length,
is refused. -/
def frame (limit : Nat) (e : LogEntry) : Except StorageError Bytes :=
  let record := format.write e
  if record.length ≤ limit ∧ record.length < 0x100000000 then .ok (enclose record)
  else .error (.entryRefused record.length limit)

end LogEntry

/-- What the log holds from a place on. -/
inductive EntryRead where
  /-- A sound entry of `size` bytes. -/
  | entry (e : LogEntry) (size : Nat)
  /-- Nothing. -/
  | finished
  /-- The beginning of an entry that the file cuts off. -/
  | short
  /-- An entry that announces `size` bytes and fails its checks. -/
  | damaged (size : Nat) (cause : StorageError)
deriving DecidableEq

/-- The bytes of an entry beside its record. -/
def entryOverhead : Nat := 8

/-- Read what the log holds at the start of `bs`. A length beyond `limit` counts as damage before
anything else is read. -/
def readEntry (limit : Nat) (bs : Bytes) : EntryRead :=
  if bs.isEmpty then .finished
  else if bs.length < 4 then .short
  else
    -- the checks in turn: announced length, length of the file, checksum, record
    let length := Bytes.toNatLE (bs.take 4)
    let size := length + entryOverhead
    if limit < length then .damaged size (.entryTooLong length limit)
    else if bs.length < size then .short
    else
      let record := (bs.drop 4).take length
      let expected := UInt32.ofNat (Bytes.toNatLE ((bs.drop (4 + length)).take 4))
      if expected ≠ crc32 record then .damaged size (.checksumMismatch expected (crc32 record))
      else
        match LogEntry.format.read record with
        | some (e, _) => .entry e size
        | none => .damaged size .undecodableEntry

/-- A sound entry takes at least its length and checksum. -/
theorem size_of_readEntry {limit : Nat} {bs : Bytes} {e : LogEntry} {size : Nat}
    (h : readEntry limit bs = .entry e size) : entryOverhead ≤ size ∧ size ≤ bs.length := by
  unfold readEntry at h
  split at h
  · simp at h
  · split at h
    · simp at h
    · simp only at h
      split at h
      · simp at h
      · split at h
        · simp at h
        · split at h
          · simp at h
          · split at h
            · simp only [EntryRead.entry.injEq] at h
              omega
            · simp at h

end AppendLists
