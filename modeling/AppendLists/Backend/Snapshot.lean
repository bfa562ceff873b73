import AppendLists.Backend.Basic
import AppendLists.Json.Parser
import AppendLists.Json.Printer

namespace AppendLists

/-!
# Registry snapshots

The registry of a backend as a JSON document, and back.

* `Registry.toJson`, `Registry.snapshot`: the document;
* `Registry.ofJson?`: the states that a document lists, with its format version;
* `Backend.restore`: a registry replaced by that of a document; partitions that are missing are
  created first, and an error leaves the registry alone.
-/

/-- The format version of snapshots. -/
def snapshotVersion : Nat := 1

namespace StateMeta

/-- The document of one state. -/
def toJson (info : StateMeta) : Json :=
  .object [
    (some "name", .text info.name),
    (some "kind", .text info.kind.tag),
    (some "codec", .object [
      (some "name", .text info.codec.name),
      (some "version", .int info.codec.version.toNat)])]

/-- The kind of a tag. -/
def kindOfTag? (tag : String) : Option StateKind := StateKind.all.find? fun k => k.tag == tag

/-- The kind that a document names, alone or as the only member of an object with value `null`. -/
def kindOfJson? : Json → Option StateKind
  | .text tag => kindOfTag? tag
  | .object [(some tag, .null)] => kindOfTag? tag
  | _ => none

/-- The codec that a document describes. -/
def codecOfJson? (j : Json) : Option Descriptor :=
  match j.fields? ["name", "version"] with
  | some [some name, some version] => do
    return ⟨← name.text?, UInt32.ofNat (← version.uint32?)⟩
  | _ => none

/-- The state that a document describes. -/
def ofJson? (j : Json) : Option StateMeta :=
  match j.fields? ["name", "kind", "codec"] with
  | some [some name, some kind, some codec] => do
    return ⟨← name.text?, ← kindOfJson? kind, ← codecOfJson? codec⟩
  | _ => none

end StateMeta

namespace Registry

/-- The document of a registry. -/
def toJson (states : List StateMeta) : Json :=
  .object [
    (some "version", .int snapshotVersion),
    (some "states", .array (states.map StateMeta.toJson))]

/-- The text of the document. -/
def snapshot (states : List StateMeta) : String := (toJson states).pretty 0

/-- The format version and the states in a document. -/
def ofJson? (j : Json) : Option (Nat × List StateMeta) :=
  match j.fields? ["version", "states"] with
  | some [some version, some (.array states)] => do
    return (← version.uint32?, ← states.mapM StateMeta.ofJson?)
  | _ => none

end Registry

namespace Backend

variable {σ : Type}

/-- The registry as text. -/
def snapshot (b : Backend σ) : String := Registry.snapshot b.states

variable [Store σ]

/-- Create the missing partitions of several states in turn. -/
def ensurePartitions : List StateMeta → Call (Backend σ) StateError Unit
  | [] => Call.answer ()
  | info :: infos => do
    ensurePartition info.name info.kind
    ensurePartitions infos

/-- Replace the registry by the one in a document. Of several states with one name the last
counts. -/
def restore (document : Bytes) : Call (Backend σ) StateError Unit :=
  match (Json.parse document).bind Registry.ofJson? with
  | none => Call.fail .serialization
  | some (version, states) =>
    if version ≠ snapshotVersion then Call.fail (.invalidArgument (.snapshotVersion version))
    else do
      ensurePartitions states
      Call.update fun b =>
        { b with registry := Table.ofList (states.map fun info => (info.name, info)) }

end Backend

end AppendLists
