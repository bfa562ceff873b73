import AppendLists.Error
import AppendLists.Json.Parser

namespace AppendLists

/-!
# Configuration

Settings of the durable store and of the state backend, with their bounds and their JSON form, in
which missing fields take their defaults.

* `StoreConfig`, `StoreConfig.validate`, `StoreConfig.parse`;
* `BackendConfig`, `BackendConfig.validate`, `BackendConfig.parse`.
-/

/-- A field of a configuration document: the default if it is absent, else what `read` makes of
it. -/
def Json.fieldOr {α : Type} (default : α) (read : Json → Option α) : Option Json → Option α
  | none => some default
  | some j => read j

/-! ### The durable store -/

/-- Settings of the durable store. -/
structure StoreConfig where
  /-- The directory of the log. -/
  path : String
  /-- How many writes may go unsynchronized; zero and one synchronize each. -/
  syncInterval : Nat
  /-- Whether a missing store is created. -/
  createIfMissing : Bool
  /-- The largest encoded log entry, on writing and on reading. -/
  maxEntrySize : Nat
deriving DecidableEq

namespace StoreConfig

/-- The defaults. -/
def default : StoreConfig := ⟨"./state", 100, true, 64 * 1024 * 1024⟩

instance : Inhabited StoreConfig := ⟨default⟩

/-- Whether the settings are usable: an entry's length has to fit four bytes. -/
def validate (config : StoreConfig) : Except StorageError Unit :=
  if 1 ≤ config.maxEntrySize ∧ config.maxEntrySize < 0x100000000 then .ok ()
  else .error (.invalidEntryLimit config.maxEntrySize)

/-- The settings in a JSON value. -/
def ofJson? (j : Json) : Option StoreConfig :=
  match j.fields? ["path", "sync_interval", "create_if_missing", "max_entry_size"] with
  | some [path, syncInterval, createIfMissing, maxEntrySize] => do
    return {
      path := ← Json.fieldOr default.path Json.text? path
      syncInterval := ← Json.fieldOr default.syncInterval Json.uint64? syncInterval
      createIfMissing := ← Json.fieldOr default.createIfMissing Json.bool? createIfMissing
      maxEntrySize := ← Json.fieldOr default.maxEntrySize Json.uint64? maxEntrySize }
  | _ => none

/-- The settings in a JSON document. -/
def parse (document : Bytes) : Except StateError StoreConfig :=
  match (Json.parse document).bind ofJson? with
  | some config => .ok config
  | none => .error .serialization

end StoreConfig

/-! ### The state backend -/

/-- Settings of the state backend. -/
structure BackendConfig where
  /-- The number of key groups. -/
  maxParallelism : Nat
  /-- How many compaction jobs may wait. -/
  queueCapacity : Nat
deriving DecidableEq

namespace BackendConfig

/-- The defaults. -/
def default : BackendConfig := ⟨128, 64⟩

instance : Inhabited BackendConfig := ⟨default⟩

/-- Whether the settings are usable. -/
def validate (config : BackendConfig) : Except StateError Unit :=
  if config.maxParallelism < 1 ∨ 32768 < config.maxParallelism then
    .error (.invalidArgument (.parallelismOutOfRange config.maxParallelism))
  else if config.queueCapacity = 0 then .error (.invalidArgument .emptyQueue)
  else .ok ()

/-- The settings in a JSON value. -/
def ofJson? (j : Json) : Option BackendConfig :=
  match j.fields? ["max_parallelism", "compaction_queue_capacity"] with
  | some [maxParallelism, queueCapacity] => do
    return {
      maxParallelism := ← Json.fieldOr default.maxParallelism Json.uint16? maxParallelism
      queueCapacity := ← Json.fieldOr default.queueCapacity Json.uint64? queueCapacity }
  | _ => none

/-- The usable settings in a JSON document. -/
def parse (document : Bytes) : Except StateError BackendConfig :=
  match (Json.parse document).bind ofJson? with
  | some config => config.validate.map fun _ => config
  | none => .error .serialization

end BackendConfig

end AppendLists
