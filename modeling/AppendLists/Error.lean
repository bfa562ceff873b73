import AppendLists.Descriptor
import AppendLists.Text.Hex
import AppendLists.Text.Utf8

namespace AppendLists

/-!
# Errors

Every error is a cause with the facts that belong to it; its wording is one function.

* `StorageError`: what a store refuses or cannot do;
* `CorruptReason`, `ArgumentFault`, `Attempt`, `MigrationStage`: the parts of a state error;
* `StateError`: what an operation on keyed state fails with; `StateError.access` and
  `StateError.migration` carry the error that caused them (`StateError.source?`).

Where the wording of a foreign format or a file path would follow, the message ends in
`<detail>`.
-/

/-- What stands in a message for wording that is not part of the library. -/
def withheld : String := "<detail>"

/-! ### Store errors -/

/-- An input or output failure. -/
inductive DeviceFault where
  /-- The input ended before a buffer was full. -/
  | endOfInput
  /-- No space is left for a write. -/
  | diskFull
deriving DecidableEq

/-- The wording of a device fault. -/
def DeviceFault.message : DeviceFault → String
  | .endOfInput => "failed to fill whole buffer"
  | .diskFull => "disk full"

/-- Errors raised by a store. -/
inductive StorageError where
  /-- An input or output failure. -/
  | device (fault : DeviceFault)
  /-- No partition has the name. -/
  | partitionNotFound (name : String)
  /-- A partition has the name already. -/
  | partitionExists (name : String)
  /-- The partition combines no operands. -/
  | mergeNotSupported (name : String)
  /-- The store was closed. -/
  | closed
  /-- There is no store and none may be created. -/
  | notInitialized
  /-- Another handle holds the store. -/
  | locked
  /-- A stored log entry announces more bytes than the limit. -/
  | entryTooLong (size limit : Nat)
  /-- A damaged log entry with more data after it. -/
  | damagedEntry (offset trailing : Nat) (cause : StorageError)
  /-- A log entry that cannot be applied. -/
  | replayFailed (cause : StorageError)
  /-- A log entry whose checksum does not match its bytes. -/
  | checksumMismatch (expected got : UInt32)
  /-- The file does not start like a log. -/
  | invalidMagic
  /-- The log has a format version this library does not read. -/
  | unsupportedVersion (version : UInt8)
  /-- The configured entry limit is out of range. -/
  | invalidEntryLimit (limit : Nat)
  /-- A mutation whose log entry would exceed the limit. -/
  | entryRefused (size limit : Nat)
  /-- A log entry whose bytes are no mutation. -/
  | undecodableEntry
deriving DecidableEq

/-- The wording of a store error. -/
def StorageError.message : StorageError → String
  | .device fault => s!"IO error: {fault.message}"
  | .partitionNotFound name => s!"Partition not found: {name}"
  | .partitionExists name => s!"Partition already exists: {name}"
  | .mergeNotSupported name => s!"Partition {name} has no merge operator"
  | .closed => "Store is closed"
  | .notInitialized => s!"Store not initialized: {withheld}"
  | .locked => "Store is locked by another process"
  | .entryTooLong size limit =>
    s!"Corruption detected: log entry of {size} bytes exceeds limit of {limit}"
  | .damagedEntry offset trailing cause =>
    s!"Corruption detected: damaged log entry at offset {offset} with {trailing} bytes after it: "
      ++ cause.message
  | .replayFailed cause => "Corruption detected: log replay failed: " ++ cause.message
  | .checksumMismatch expected got => s!"Checksum mismatch: expected {expected}, got {got}"
  | .invalidMagic => "Invalid store format: Invalid log magic"
  | .unsupportedVersion version =>
    s!"Invalid store format: Unsupported log version: {version}"
  | .invalidEntryLimit limit =>
    s!"Invalid store config: max_entry_size must be in 1..=4294967295, got {limit}"
  | .entryRefused size limit =>
    s!"Serialization error: log entry of {size} bytes exceeds limit of {limit}"
  | .undecodableEntry => s!"Deserialization error: {withheld}"

/-! ### State errors -/

/-- Why an encoded list, or an element of it, is malformed. -/
inductive CorruptReason where
  /-- A read of `needed` bytes at `offset` where only `remaining` are left. -/
  | endOfInput (offset needed remaining : Nat)
  /-- A codec that decoded an element from no bytes. -/
  | noProgress (codec : String) (offset : Nat)
  /-- A byte other than the delimiter after an element. -/
  | badDelimiter (offset : Nat) (found : UInt8)
  /-- A text element whose bytes are not UTF-8. -/
  | invalidUtf8 (fault : Utf8.Fault)
  /-- An element that is no value of its packed type. -/
  | malformed (codec : String)
  /-- A codec that encodes an item as no bytes. -/
  | emptyEncoding (codec item : String)
  /-- A codec that does not stop at the end of its own encoding. -/
  | notSelfFraming (codec : String) (consumed encoded : Nat) (item : String)
  /-- A codec that decodes another item than it encoded. -/
  | noRoundTrip (codec item decoded : String)
  /-- Bytes left over after a single value. -/
  | trailing (count : Nat)
  /-- A reason reported by a caller's filter. -/
  | reported (text : String)
deriving DecidableEq

/-- The wording of a corrupt-encoding reason. -/
def CorruptReason.message : CorruptReason → String
  | .endOfInput offset needed remaining =>
    s!"unexpected end of input at offset {offset}: needed {needed} bytes, {remaining} remaining"
  | .noProgress codec offset => s!"codec {codec} consumed no bytes at offset {offset}"
  | .badDelimiter offset found =>
    s!"expected delimiter at offset {offset}, found 0x{Hex.ofByte found}"
  | .invalidUtf8 fault => s!"invalid UTF-8 element: {fault.message}"
  | .malformed codec => s!"{codec}: {withheld}"
  | .emptyEncoding codec item => s!"codec {codec} encodes {item} to zero bytes"
  | .notSelfFraming codec consumed encoded item =>
    s!"codec {codec} is not self-framing: consumed {consumed} of {encoded} bytes for {item}"
  | .noRoundTrip codec item decoded =>
    s!"codec {codec} does not round-trip: {item} decoded as {decoded}"
  | .trailing count => s!"{count} trailing bytes after value"
  | .reported text => text

/-- Why an argument is refused. -/
inductive ArgumentFault where
  /-- The number of key groups is out of range. -/
  | parallelismOutOfRange (got : Nat)
  /-- The compaction queue could hold no job. -/
  | emptyQueue
  /-- A state without a name. -/
  | emptyStateName
  /-- A registry snapshot of another format version. -/
  | snapshotVersion (version : Nat)
  /-- An item of another type than the codec encodes. -/
  | unfitItem (codec : String)
  /-- A reason reported by a caller's visitor or migration. -/
  | reported (text : String)
deriving DecidableEq

/-- The wording of an argument fault. -/
def ArgumentFault.message : ArgumentFault → String
  | .parallelismOutOfRange got => s!"max_parallelism must be in 1..=32768, got {got}"
  | .emptyQueue => "compaction_queue_capacity must be positive"
  | .emptyStateName => "state name must not be empty"
  | .snapshotVersion version => s!"unsupported meta snapshot version {version}"
  | .unfitItem codec => s!"item does not fit codec {codec}"
  | .reported text => text

/-- What was being done when a store call failed. -/
inductive Attempt where
  /-- Any store call without a purpose of its own. -/
  | accessingStore
  /-- Reading a list. -/
  | readingList
  /-- Appending to a list. -/
  | appendingToList
  /-- Replacing a list. -/
  | updatingList
  /-- Removing a list. -/
  | clearingList
  /-- Moving lists between namespaces. -/
  | mergingNamespaces
  /-- Reading a single value. -/
  | readingValue
  /-- Replacing a single value. -/
  | updatingValue
  /-- Removing a single value. -/
  | clearingValue
  /-- Creating the partition of a state. -/
  | creatingPartition
  /-- Listing a state before its migration. -/
  | scanningForMigration
  /-- Storing migrated lists. -/
  | writingMigrated
deriving DecidableEq

/-- The wording of an attempt. -/
def Attempt.message : Attempt → String
  | .accessingStore => "accessing the store"
  | .readingList => "reading list state"
  | .appendingToList => "appending to list state"
  | .updatingList => "updating list state"
  | .clearingList => "clearing list state"
  | .mergingNamespaces => "merging namespaces"
  | .readingValue => "reading value state"
  | .updatingValue => "updating value state"
  | .clearingValue => "clearing value state"
  | .creatingPartition => "creating state partition"
  | .scanningForMigration => "scanning state for migration"
  | .writingMigrated => "writing migrated state"

/-- Where the migration of a list failed. -/
inductive MigrationStage where
  /-- Decoding the element `index`, which starts at `offset`. -/
  | decoding (index offset : Nat) (prior : Descriptor)
  /-- Converting the element `index`. -/
  | converting (index : Nat) (prior new : Descriptor)
  /-- Encoding the element `index`. -/
  | encoding (index : Nat) (new : Descriptor)
deriving DecidableEq

/-- The wording of a migration stage. -/
def MigrationStage.message : MigrationStage → String
  | .decoding index offset prior =>
    s!"decoding element {index} at offset {offset} with {prior.label}"
  | .converting index prior new =>
    s!"migrating element {index} from {prior.label} to {new.label}"
  | .encoding index new => s!"encoding element {index} with {new.label}"

/-- Errors raised by operations on keyed state. -/
inductive StateError where
  /-- Stored bytes have a malformed layout. -/
  | corrupt (reason : CorruptReason)
  /-- A store call failed. -/
  | access (attempt : Attempt) (cause : StorageError)
  /-- The migration of a list failed. -/
  | migration (stage : MigrationStage) (cause : StateError)
  /-- A value could not be written, or a document not read. -/
  | serialization
  /-- An argument was refused. -/
  | invalidArgument (fault : ArgumentFault)
  /-- No state has the name. -/
  | stateNotRegistered (name : String)
  /-- A state of another kind has the name. -/
  | kindMismatch (expected got : StateKind)
  /-- A state is registered with another codec. -/
  | incompatibleSchema (name : String) (registered requested : Descriptor)
  /-- A handle has no current key. -/
  | keyNotSet
deriving DecidableEq

/-- The wording of a state error; a migration names its stage and leaves its cause to
`StateError.source?`. -/
def StateError.message : StateError → String
  | .corrupt reason => s!"Corrupt list encoding: {reason.message}"
  | .access attempt cause => s!"Error while {attempt.message}: {cause.message}"
  | .migration stage _ => s!"State migration failed: {stage.message}"
  | .serialization => s!"Serialization error: {withheld}"
  | .invalidArgument fault => s!"Invalid argument: {fault.message}"
  | .stateNotRegistered name => s!"State not registered: {name}"
  | .kindMismatch expected got =>
    s!"State kind mismatch: expected {expected.label}, got {got.label}"
  | .incompatibleSchema name registered requested =>
    s!"Incompatible schema for state {name}: registered {registered.label}, "
      ++ s!"requested {requested.label}"
  | .keyNotSet => "No current key set on state handle"

/-- The error behind a state error. -/
def StateError.source? : StateError → Option (StorageError ⊕ StateError)
  | .access _ cause => some (.inl cause)
  | .migration _ cause => some (.inr cause)
  | _ => none

end AppendLists
