import AppendLists.Key.Layout
import AppendLists.Key.Part

namespace AppendLists

/-!
# Addressing

Every state handle addresses the store in the same way: its partition, the current key with its
key group, and the current namespace together give one storage key.

* `StateContext`: what a handle points at;
* `StateContext.setKey`, `StateContext.setNamespace`: point it elsewhere;
* `StateContext.storageKey`, `StateContext.keyIn`: the storage key.
-/

/-- A serialized key with its group. -/
structure CurrentKey where
  /-- The key group. -/
  group : Nat
  /-- The serialized key. -/
  bytes : Bytes
deriving DecidableEq

/-- What a state handle points at. -/
structure StateContext where
  /-- The partition of the state. -/
  partition : String
  /-- The layout of storage keys. -/
  builder : KeyBuilder
  /-- The number of key groups. -/
  maxParallelism : Nat
  /-- The current key, once there is one. -/
  current : Option CurrentKey
  /-- The serialized namespace; empty until it is set. -/
  ns : Bytes

namespace StateContext

/-- A context without a key, in the default namespace. -/
def fresh (partition : String) (builder : KeyBuilder) (maxParallelism : Nat) : StateContext :=
  ⟨partition, builder, maxParallelism, none, []⟩

/-- Point at another key. -/
def setKey (key : Part) (c : StateContext) : Except StateError StateContext := do
  let bytes ← key.serialize
  return { c with current := some ⟨keyGroup bytes c.maxParallelism, bytes⟩ }

/-- Point at another namespace. -/
def setNamespace (ns : Part) (c : StateContext) : Except StateError StateContext := do
  let bytes ← ns.serialize
  return { c with ns := bytes }

/-- The storage key of the current key in a serialized namespace. -/
def keyIn (ns : Bytes) (c : StateContext) : Except StateError Bytes :=
  match c.current with
  | some key => .ok (c.builder key.group key.bytes ns)
  | none => .error .keyNotSet

/-- The storage key of the current key and namespace. -/
def storageKey (c : StateContext) : Except StateError Bytes := c.keyIn c.ns

/-- The context in words. -/
def describe (c : StateContext) : String :=
  let group :=
    match c.current with
    | some key => s!"Some({key.group})"
    | none => "None"
  s!"StateContext \x7b partition: Partition \x7b name: {Text.quote c.partition} \x7d, "
    ++ s!"key_group: {group}, namespace_len: {c.ns.length} \x7d"

end StateContext

end AppendLists
