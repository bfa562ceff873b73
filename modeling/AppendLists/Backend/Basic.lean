import AppendLists.Config
import AppendLists.Migration
import AppendLists.State.List
import AppendLists.State.Value
import AppendLists.Table

namespace AppendLists

/-!
# The state backend

A registry of named states over one store. Each state lives in a partition of its own name; the
partitions of lists merge with the list delimiter.

* `StateMeta`, `Registry`: what is remembered about states;
* `Backend`: a store with its registry and settings;
* `Backend.registerList`, `Backend.registerValue`: handles to states;
* `Backend.upgradeList`: a list state moved to another codec;
* `Backend.listFilter`, `Backend.compact`: compaction of registered states.

A state is reopened only under its kind and codec (`expectKind`, `expectCodec`).
-/

/-- What is remembered about a state. -/
structure StateMeta where
  /-- The name of the state and of its partition. -/
  name : String
  /-- Its variant. -/
  kind : StateKind
  /-- The codec of its elements. -/
  codec : Descriptor
deriving DecidableEq

/-- The registered states by name. -/
abbrev Registry := Table String StateMeta

/-- A store with the states that are kept in it. -/
structure Backend (σ : Type) where
  /-- The store. -/
  store : σ
  /-- The layout of storage keys. -/
  builder : KeyBuilder
  /-- The settings. -/
  config : BackendConfig
  /-- The registered states. -/
  registry : Registry

/-- Check that a state is of a kind. -/
def expectKind (info : StateMeta) (kind : StateKind) : Except StateError Unit :=
  if info.kind = kind then .ok () else .error (.kindMismatch info.kind kind)

/-- Check that a state is registered with a codec. -/
def expectCodec (info : StateMeta) (codec : Descriptor) : Except StateError Unit :=
  if info.codec = codec then .ok ()
  else .error (.incompatibleSchema info.name info.codec codec)

namespace Backend

variable {α β σ τ : Type}

/-- A backend without states, if its settings are usable. -/
def withBuilder (store : σ) (config : BackendConfig) (builder : KeyBuilder) :
    Except StateError (Backend σ) :=
  config.validate.map fun () => ⟨store, builder, config, Table.empty⟩

/-- A backend without states and with the usual layout of keys. -/
def ofStore (store : σ) (config : BackendConfig) : Except StateError (Backend σ) :=
  withBuilder store config (KeyBuilder.composite config.maxParallelism)

/-- A call on the store. -/
def onStore {ε : Type} (call : Call σ ε α) : Call (Backend σ) ε α := fun b =>
  let (r, store) := call b.store
  (r, { b with store })

/-! ### The registry -/

/-- What is registered under a name. -/
def info (b : Backend σ) (name : String) : Except StateError StateMeta :=
  match b.registry.find? name with
  | some info => .ok info
  | none => .error (.stateNotRegistered name)

/-- The registered states, by name. -/
def states (b : Backend σ) : List StateMeta := b.registry.values

/-- Register a state, replacing what is registered under its name. -/
def record (info : StateMeta) : Call (Backend σ) StateError Unit :=
  Call.update fun b => { b with registry := b.registry.insert info.name info }

variable [Store σ]

/-- The way of merging of a new partition for states of a kind. -/
def operatorFor : StateKind → Option MergeOperator
  | .list => some (.stringAppend delimiter)
  | _ => none

/-- Create the partition of a state unless a partition of its name exists. -/
def ensurePartition (name : String) (kind : StateKind) :
    Call (Backend σ) StateError Unit := fun b =>
  if Store.has b.store name then (.ok (), b)
  else onStore ((Store.create name (operatorFor kind)).attempting .creatingPartition) b

/-- Register a state, or reopen it under the same kind and codec. -/
def register (name : String) (kind : StateKind) (codec : Descriptor) :
    Call (Backend σ) StateError StateContext := do
  if name.isEmpty then Call.fail (.invalidArgument .emptyStateName)
  else
    let b ← Call.query fun b : Backend σ => .ok b
    match b.registry.find? name with
    | some info => do
      Call.ofExcept (expectKind info kind)
      Call.ofExcept (expectCodec info codec)
    | none => do
      ensurePartition name kind
      record ⟨name, kind, codec⟩
    return .fresh name b.builder b.config.maxParallelism

/-- A handle to a list state. -/
def registerList (name : String) (codec : Codec α) : Call (Backend σ) StateError (ListState α) := do
  let context ← register name .list codec.descriptor
  return ⟨context, codec⟩

/-- A handle to a value state. -/
def registerValue (name : String) (codec : Codec α) :
    Call (Backend σ) StateError (ValueState α) := do
  let context ← register name .value codec.descriptor
  return ⟨context, codec⟩

/-! ### Upgrades -/

omit [Store σ] in
/-- Migrate the lists of several keys. -/
def migrateAll (prior : Codec α) (new : Codec β) (convert : ElementMigration α β) :
    List (Bytes × Bytes) → Except StateError (List (Bytes × Bytes))
  | [] => .ok []
  | (key, value) :: entries => do
    let (result, migrated) := migrateList prior new convert value []
    let _ ← result
    return (key, migrated) :: (← migrateAll prior new convert entries)

/-- Put migrated lists back. -/
def writeAll (name : String) : List (Bytes × Bytes) → Call σ StateError Unit
  | [] => Call.answer ()
  | (key, value) :: entries => do
    (Store.put name key value).attempting .writingMigrated
    writeAll name entries

/-- Write every list of a state with another codec, and register that codec. All lists are
migrated before the first is written. The answer is the number of keys. -/
def upgradeList (name : String) (prior : Codec α) (new : Codec β)
    (convert : ElementMigration α β) : Call (Backend σ) StateError Nat := do
  let info ← Call.query fun b : Backend σ => b.info name
  Call.ofExcept (expectKind info .list)
  Call.ofExcept (expectCodec info prior.descriptor)
  let entries ← onStore ((Store.scan name).attempting .scanningForMigration)
  let migrated ← Call.ofExcept (migrateAll prior new convert entries)
  onStore (writeAll name migrated)
  record ⟨name, .list, new.descriptor⟩
  return migrated.length

/-! ### Compaction -/

omit [Store σ] in
/-- The compaction filter that transforms the lists of a registered state. -/
def listFilter {ω : Type} (b : Backend σ) (name : String) (codec : Codec α)
    (t : ElementTransformer α) : Except StateError (Filter ω) := do
  let info ← b.info name
  expectKind info .list
  expectCodec info codec.descriptor
  return .ofFunction (transformName codec) (transformList codec t)

/-- Run a compaction pass over the partition of a registered state. -/
def compact (name : String) (filter : Option (Filter (σ × τ))) :
    Call (Backend σ × τ) StateError CompactionStats := fun (b, t) =>
  match b.info name with
  | .error e => (.error e, b, t)
  | .ok _ =>
    let (r, store, t) := AppendLists.compact name filter (b.store, t)
    (r, { b with store }, t)

end Backend

end AppendLists
